import StyleAudit.Proofs.FoldedTokens
import StyleAudit.Proofs.ModeAgreement
import StyleAudit.Proofs.RespelledFeatures

/-!
# Linting does not depend on letter case

Two sources that differ only in the case of letters are both respelled to one
and the same list of tokens. Reading commutes with respelling, so their trees
are respelled to one tree, and the uses of features in them, pair by pair, to
one list of uses: with one kind and key each, in one place, and under the same
grants. Whether a use offends depends on these alone, as long as no property is
allowed by its name, which is the one look-up that goes by the written form.
-/

namespace StyleAudit

open List (Forall₂)
open Respelling (letterCase)
open Text (fold)

/-! ## What diagnostics are compared by -/

/-- A value in small letters, if it is a string. -/
def Json.lowered : Json → Json
  | .str s => .str (String.ofList (Text.lower s.toList))
  | json => json

/-- Details with their values in small letters. -/
def Details.lowered (d : Details) : Details :=
  d.map fun (word, value) => (word, value.lowered)

/-- Two diagnostics of the same kind in the same place, whose data agree in small
letters. -/
structure Diagnostic.Alike (d e : Diagnostic) : Prop where
  kind : d.kind = e.kind
  span : d.span = e.span
  data : Details.lowered d.data = Details.lowered e.data

theorem Details.lowered_respelled (d : Details) :
    lowered (letterCase.details d) = lowered d := by
  have hjson (json : Json) : (letterCase.json json).lowered = json.lowered := by
    cases json with
    | str s =>
        show Json.str (String.ofList
            (Text.lower (String.ofList (fold s.toList)).toList)) =
          Json.str (String.ofList (Text.lower s.toList))
        rw [String.toList_ofList, Text.lower_fold]
    | _ => rfl
  unfold lowered Respelling.details
  rw [List.map_map]
  exact List.map_congr_left fun p _ => congrArg (Prod.mk p.1) (hjson p.2)

theorem Details.lowered_put (word : String) (value : Json) (d : Details) :
    lowered (Dictionary.put word value d) =
      Dictionary.put word value.lowered (lowered d) := by
  induction d with
  | nil => rfl
  | cons p d ih =>
      rw [Dictionary.put]
      show _ = Dictionary.put word value.lowered ((p.1, p.2.lowered) :: lowered d)
      rw [Dictionary.put, ← ih]
      split <;> rfl

/-! ## Uses -/

/-- Two uses that are respelled to one. -/
def Occurrence.Alike (o o' : Occurrence) : Prop :=
  ∃ u, o.Respelled letterCase u ∧ o'.Respelled letterCase u

theorem Occurrence.alike_of_nodes_eq {ns ns' : List Node}
    (h : letterCase.nodes ns = letterCase.nodes ns') :
    Forall₂ Alike (Node.occurrencesIn ns) (Node.occurrencesIn ns') := by
  have hleft := letterCase.occurrencesIn_nodes ns
  have hright := letterCase.occurrencesIn_nodes ns'
  rw [← h] at hright
  generalize Node.occurrencesIn (letterCase.nodes ns) = respelled at hleft hright
  generalize Node.occurrencesIn ns = uses at hleft ⊢
  generalize Node.occurrencesIn ns' = uses' at hright ⊢
  induction hleft generalizing uses' with
  | nil =>
      cases hright
      exact .nil
  | cons hhead _ ih =>
      cases hright with
      | cons hhead' htail' => exact .cons ⟨_, hhead, hhead'⟩ (ih _ htail')

namespace Audit

variable {a : Audit} (ha : a.configuration.allowProperties = [])
include ha

/-- Without allowed properties only the key of a feature is looked up. -/
theorem exempt_congr {f g : Feature} (hkind : f.kind = g.kind) (hkey : f.key = g.key) :
    a.configuration.Exempt f ↔ a.configuration.Exempt g := by
  unfold Configuration.Exempt
  rw [hkind, hkey, ha]
  cases g.kind <;> simp

theorem offends_congr {o o' : Occurrence} (h : o.Alike o') :
    a.Offends o.feature o.granted ↔ a.Offends o'.feature o'.granted := by
  obtain ⟨u, hleft, hright⟩ := h
  have hkind := hleft.feature.kind.symm.trans hright.feature.kind
  have hkey := hleft.feature.key.symm.trans hright.feature.key
  have hgranted := hleft.granted.symm.trans hright.granted
  unfold Offends Feature.scopeKey
  rw [exempt_congr ha hkind hkey, hkind, hkey, hgranted]

omit ha in
theorem diagnostic_alike {o o' : Occurrence} (h : o.Alike o') (availability : Json) :
    (Diagnostic.ofFeature o.feature availability).Alike
      (Diagnostic.ofFeature o'.feature availability) := by
  obtain ⟨u, hleft, hright⟩ := h
  have hrigid : letterCase.Rigid := fun _ => rfl
  refine ⟨?_, ?_, ?_⟩
  · exact hleft.feature.kind.symm.trans hright.feature.kind
  · exact (hleft.feature.span hrigid).symm.trans (hright.feature.span hrigid)
  · have hdetails := hleft.feature.details.symm.trans hright.feature.details
    unfold Diagnostic.data Diagnostic.ofFeature
    rw [Details.lowered_put, Details.lowered_put, ← Details.lowered_respelled,
      hdetails, Details.lowered_respelled]

theorem diagnostics_alike {sheet sheet' : Stylesheet}
    (h : letterCase.nodes sheet.rules = letterCase.nodes sheet'.rules) :
    Forall₂ Diagnostic.Alike (a.diagnostics sheet) (a.diagnostics sheet') := by
  rw [diagnostics_eq_reports, diagnostics_eq_reports, reports, reports]
  simp only [List.nil_append]
  have huses := Occurrence.alike_of_nodes_eq h
  refine List.rel_map (R := Occurrence.Alike) ?_ (List.rel_filter ?_ huses)
  · intro o o' ho
    exact diagnostic_alike ho _
  · intro o o' ho
    simp only [decide_eq_true_eq]
    exact offends_congr ha ho

end Audit

/-! ## Sources -/

theorem Stylesheet.parse_respelled {s s' : Text} (h : fold s = fold s') (mode : Mode) :
    letterCase.result letterCase.sheet (parse mode s) =
      letterCase.result letterCase.sheet (parse mode s') := by
  have htokens : letterCase.tokens (Source.tokenize s) =
      letterCase.tokens (Source.tokenize s') := by
    rw [← Source.tokenize_fold s, h, Source.tokenize_fold]
  unfold parse
  rw [← letterCase.ofLexed_tokens, htokens, letterCase.ofLexed_tokens]

namespace Audit

theorem lint_tolerant_alike {a : Audit}
    (ha : a.configuration.allowProperties = []) {s s' : Text}
    (h : fold s = fold s') :
    ∃ diagnostics diagnostics',
      a.lint .tolerant s = .ok diagnostics ∧
      a.lint .tolerant s' = .ok diagnostics' ∧
      Forall₂ Diagnostic.Alike diagnostics diagnostics' := by
  obtain ⟨sheet, hparse, hlint, _, _⟩ := a.lint_agree s
  obtain ⟨sheet', hparse', hlint', _, _⟩ := a.lint_agree s'
  refine ⟨_, _, hlint, hlint', diagnostics_alike ha ?_⟩
  have hsheets := Stylesheet.parse_respelled h .tolerant
  rw [hparse, hparse'] at hsheets
  exact congrArg Stylesheet.rules (Except.ok.inj hsheets)

theorem lint_strict_position (a : Audit) {s s' : Text} (h : fold s = fold s')
    {e : SyntaxError} (he : a.lint .strict s = .error e) :
    ∃ e', a.lint .strict s' = .error e' ∧ e'.position = e.position := by
  have hsheets := Stylesheet.parse_respelled h .strict
  unfold lint at he ⊢
  cases hparse : Stylesheet.parse .strict s with
  | ok sheet =>
      rw [hparse] at he
      cases he
  | error e₁ =>
      rw [hparse] at he hsheets
      cases he
      cases hparse' : Stylesheet.parse .strict s' with
      | ok sheet' =>
          rw [hparse'] at hsheets
          cases hsheets
      | error e' =>
          rw [hparse'] at hsheets
          have hposition := congrArg SyntaxError.position (Except.error.inj hsheets)
          exact ⟨e', rfl, hposition.symm⟩

/-- Linting does not depend on the case of letters. If no property is allowed by
name, two sources that differ only in the case of letters have, in tolerant mode,
diagnostics of the same kinds in the same places, with data that agree in small
letters; and in strict mode both are rejected, at one position, or neither is. -/
theorem lint_case_insensitive {a : Audit}
    (ha : a.configuration.allowProperties = []) {s s' : Text}
    (h : s.map Char.toLower = s'.map Char.toLower) :
    (∃ diagnostics diagnostics',
      a.lint .tolerant s = .ok diagnostics ∧
      a.lint .tolerant s' = .ok diagnostics' ∧
      Forall₂ Diagnostic.Alike diagnostics diagnostics') ∧
    ∀ position,
      (∃ e, a.lint .strict s = .error e ∧ e.position = position) ↔
        ∃ e, a.lint .strict s' = .error e ∧ e.position = position := by
  refine ⟨lint_tolerant_alike ha h, fun position => ⟨?_, ?_⟩⟩
  · rintro ⟨e, he, rfl⟩
    exact a.lint_strict_position h he
  · rintro ⟨e, he, rfl⟩
    exact a.lint_strict_position h.symm he

/-- Two spellings of a rule with two offending names, one of them written with
an escape, and a declaration without a colon. -/
theorem lint_case_insensitive_rule :
    let a : Audit := ⟨{}, .ofRecords ""
      [⟨"zoom".toList, .property, .newly, none⟩,
        ⟨"has".toList, .selector, .newly, none⟩]⟩
    let s := "a:HAS(b)\x7bZ\\6Fom: 0; C\x7d".toList
    let s' := "A:has(B)\x7bz\\6fOM: 0; c\x7d".toList
    (∃ diagnostics diagnostics',
      a.lint .tolerant s = .ok diagnostics ∧
      a.lint .tolerant s' = .ok diagnostics' ∧
      Forall₂ Diagnostic.Alike diagnostics diagnostics' ∧
      diagnostics'.map (fun d => d.details) =
        [[("selector", .str "has")], [("property", .str "zoOM")]]) ∧
    ∃ e, a.lint .strict s' = .error e ∧ e.position = ⟨1, 22⟩ := by
  intro a s s'
  have ha : a.configuration.allowProperties = [] := rfl
  have hcase : s.map Char.toLower = s'.map Char.toLower := by decide +kernel
  obtain ⟨⟨diagnostics, diagnostics', hs, hs', halike⟩, hstrict⟩ :=
    lint_case_insensitive ha hcase
  refine ⟨⟨diagnostics, diagnostics', hs, hs', halike, ?_⟩, ?_⟩
  · have hlint : (a.lint .tolerant s').map (List.map fun d => d.details) =
        .ok [[("selector", .str "has")], [("property", .str "zoOM")]] := by
      decide +kernel
    rw [hs'] at hlint
    exact Except.ok.inj hlint
  · refine (hstrict ⟨1, 22⟩).1 ⟨⟨.colonExpected, ⟨1, 22⟩⟩, ?_, rfl⟩
    decide +kernel

end Audit

end StyleAudit
