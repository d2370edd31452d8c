import StyleAudit.Proofs.RespelledFeatures
import StyleAudit.Proofs.Restart

/-!
# Stylesheets that are put one behind the other

A stylesheet in which everything has ended, and a second one on the next line,
are read as they would be apart. The tokens of the first are the same, as no
token of it reaches beyond its last line; those of the second are the same but
for their lines, as reading starts afresh at a line feed; between the two there
is a blank that no rule takes. So the rules of the first come before those of the
second, the errors are those of the second, and as nothing that is granted in one
rule is granted in another, the diagnostics come one behind the other too.

What stands further down is a respelling that changes lines alone.
-/

namespace StyleAudit

open Condition (Blank)

/-! ## Further down -/

/-- The same column some lines further down. -/
def Position.down (n : Nat) (p : Position) : Position := ⟨p.line + n, p.column⟩

/-- The same names some lines further down. -/
def Respelling.down (n : Nat) : Respelling where
  name t := t
  place := Position.down n
  lower_name _ := rfl
  custom_name _ := rfl
  nesting_name := rfl

/-- A diagnostic some lines further down. -/
def Diagnostic.down (n : Nat) (d : Diagnostic) : Diagnostic :=
  { d with span := (Respelling.down n).span d.span }

namespace Position

theorem advance_down (n : Nat) (p : Position) (t : Text) :
    (p.down n).advance t = (p.advance t).down n := by
  induction t generalizing p with
  | nil => rfl
  | cons c t ih =>
      have hstep : (p.down n).step c = (p.step c).down n := by
        unfold step down
        split
        · simp only [mk.injEq, and_true]
          omega
        · rfl
      rw [advance_cons, advance_cons, hstep, ih]

/-- A line feed leads to the start of a line. -/
theorem start_advance_lineFeed (t u : Text) :
    start.advance (t ++ '\n' :: u) = (start.advance u).down (1 + t.count '\n') := by
  have hline := line_advance start t
  have hstep : (start.advance t).step '\n' = start.down (1 + t.count '\n') := by
    unfold step down
    simp only [if_true, mk.injEq, start] at hline ⊢
    refine ⟨?_, trivial⟩
    push_cast
    omega
  rw [advance_append, advance_cons, hstep, advance_down]

end Position

namespace Source

theorem error_down (n : Nat) (e : SyntaxError) :
    (Respelling.down n).error e = ⟨e.fault, e.position.down n⟩ :=
  (Respelling.down n).error_eq (fun _ => rfl) e

theorem place_down (n : Nat) (p : Position) (ls : List Lexeme) :
    place (p.down n) ls = (Respelling.down n).tokens (place p ls) := by
  induction ls generalizing p with
  | nil => rfl
  | cons l ls ih =>
      have htoken : l.token (p.down n) = (Respelling.down n).token (l.token p) := by
        unfold Lexeme.token Respelling.token
        rw [Position.advance_down, Respelling.kind_eq _ fun _ => rfl]
        rfl
      have herror : l.error? (p.down n) =
          (l.error? p).map (Respelling.down n).error := by
        cases hflaw : l.flaw <;>
          simp [Lexeme.error?, hflaw, error_down, Position.advance_down]
      rw [place, place, Position.advance_down, ih, htoken, herror]
      unfold Respelling.tokens
      rw [List.map_cons, List.map_append]
      cases l.error? p <;> rfl

/-! ## Tokens of lexemes -/

/-- The tokens of a list of lexemes that starts at a position, without the mark
of the end. -/
def spread (p : Position) : List Lexeme → List Token
  | [] => []
  | l :: rest => l.token p :: spread (p.advance l.slice) rest

theorem spread_append (p : Position) (ls ms : List Lexeme) :
    spread p (ls ++ ms) =
      spread p ls ++ spread (p.advance (ls.flatMap Lexeme.slice)) ms := by
  induction ls generalizing p with
  | nil => rfl
  | cons l ls ih =>
      rw [List.cons_append, spread, spread, ih, List.flatMap_cons,
        Position.advance_append, List.cons_append]

theorem place_append (p : Position) (ls ms : List Lexeme) :
    place p (ls ++ ms) =
      ⟨spread p ls ++ (place (p.advance (ls.flatMap Lexeme.slice)) ms).tokens,
        (place p ls).errors ++ (place (p.advance (ls.flatMap Lexeme.slice)) ms).errors⟩ := by
  induction ls generalizing p with
  | nil => rfl
  | cons l ls ih =>
      rw [List.cons_append, place, place, ih, List.flatMap_cons, Position.advance_append]
      simp only [spread, List.cons_append, List.append_assoc]

theorem exists_place_tokens (p : Position) (ls : List Lexeme) :
    ∃ span, (place p ls).tokens = spread p ls ++ [⟨.eof, span⟩] := by
  have hplace := place_append p ls []
  rw [List.append_nil] at hplace
  exact ⟨_, congrArg Tokens.tokens hplace⟩

theorem place_errors_eq_nil {p : Position} {ls : List Lexeme} :
    (place p ls).errors = [] ↔ ∀ l ∈ ls, l.flaw = none := by
  induction ls generalizing p with
  | nil => simp [place]
  | cons l ls ih =>
      rw [place, List.append_eq_nil_iff, ih, List.forall_mem_cons]
      cases hflaw : l.flaw <;> simp [Lexeme.error?, hflaw]

/-- Whether tokens are blank. -/
def Blanks (ts : List Token) : Prop := ∀ t ∈ ts, t.kind.isWhitespace = true

theorem blanks_spread {p : Position} {ls : List Lexeme}
    (h : ∀ l ∈ ls, l.kind.isWhitespace = true) : Blanks (spread p ls) := by
  induction ls generalizing p with
  | nil => simp [Blanks, spread]
  | cons l ls ih =>
      obtain ⟨hl, hls⟩ := List.forall_mem_cons.1 h
      exact List.forall_mem_cons.2 ⟨hl, ih hls⟩

/-! ## Normal form -/

theorem normalize_append {t : Text} (h : '\r' ∉ t) (s : Text) :
    normalize (t ++ '\n' :: s) = normalize t ++ '\n' :: normalize s := by
  induction t with
  | nil => rw [List.nil_append, normalize_cons (by decide)]; rfl
  | cons c t ih =>
      rw [List.mem_cons, not_or] at h
      rw [List.cons_append, normalize_cons (Ne.symm h.1), normalize_cons (Ne.symm h.1),
        ih h.2, List.cons_append]

theorem count_normalize {t : Text} (h : ∀ c ∈ t, c ≠ '\r' ∧ c ≠ '\x0c') :
    (normalize t).count '\n' = t.count '\n' := by
  induction t with
  | nil => rfl
  | cons c t ih =>
      obtain ⟨hc, ht⟩ := List.forall_mem_cons.1 h
      rw [normalize_cons hc.1, if_neg hc.2, List.count_cons, List.count_cons, ih ht]
      by_cases hzero : c = '\x00'
      · rw [if_pos hzero, hzero]
        rfl
      · rw [if_neg hzero]

/-! ## Two sources -/

/-- Two sources, one behind the other. The first is read as it is alone, up to the
blanks at its end, and the second as it is alone, from the first that is not blank
on, but for its lines. -/
theorem tokenize_append {t : Text} (h : ∀ c ∈ t, c ≠ '\r' ∧ c ≠ '\x0c')
    (hclean : (tokenize t).errors = [])
    (hlast : ∀ l ∈ (lexemes (normalize t)).getLast?, l.kind.isClosed = true) (s : Text) :
    ∃ (body gap blanks blanks' : List Token) (span : Span) (rest : Tokens),
      Blanks gap ∧ Blanks blanks ∧ Blanks blanks' ∧
      (tokenize t).tokens = body ++ (gap ++ [⟨.eof, span⟩]) ∧
      tokenize s = ⟨blanks ++ rest.tokens, rest.errors⟩ ∧
      tokenize (t ++ '\n' :: s) =
        ⟨body ++ (blanks' ++ rest.tokens.map (Respelling.down (1 + t.count '\n')).token),
          rest.errors.map (Respelling.down (1 + t.count '\n')).error⟩ := by
  have hflaws := place_errors_eq_nil.1 hclean
  obtain ⟨body, gap, gap', u, ht, happend, hgap, hgap'⟩ :=
    lexemes_before_lineFeed (normalize s) hflaws hlast
  obtain ⟨blanks, hs, hblanks⟩ := lexemes_blank (normalize s)
  let p := Position.start.advance (body.flatMap Lexeme.slice)
  let q := Position.start.advance ((normalize s).takeWhile isBlank)
  obtain ⟨span, hspan⟩ := exists_place_tokens p gap
  refine ⟨spread .start body, spread p gap, spread .start blanks, spread p gap', span,
    place q (lexemes ((normalize s).dropWhile isBlank)),
    blanks_spread fun l hl => (hgap.blank l hl).1,
    blanks_spread fun l hl => (hblanks.blank l hl).1,
    blanks_spread fun l hl => (hgap'.blank l hl).1, ?first, ?second, ?both⟩
  case first => rw [tokenize, ht, place_append, ← hspan]
  case second =>
    rw [tokenize, hs, place_append, hblanks.slices, place_errors_eq_nil.2, List.nil_append]
    exact fun l hl => (hblanks.blank l hl).2
  case both =>
    have hbody : (place .start body).errors = [] :=
      place_errors_eq_nil.2 fun l hl => hflaws l (ht ▸ List.mem_append_left gap hl)
    have hblank : (place p gap').errors = [] :=
      place_errors_eq_nil.2 fun l hl => (hgap'.blank l hl).2
    have htext : body.flatMap Lexeme.slice ++ u = normalize t := by
      rw [← hgap.slices, ← List.flatMap_append, ← ht, slices_lexemes]
    have hplace : p.advance (gap'.flatMap Lexeme.slice) = q.down (1 + t.count '\n') := by
      rw [hgap'.slices, ← Position.advance_append, ← List.append_assoc, htext,
        Position.start_advance_lineFeed, count_normalize h]
    rw [tokenize, normalize_append (fun hr => (h _ hr).1 rfl), happend, place_append,
      place_append, hbody, hblank, hplace, place_down]
    rfl

end Source

/-! ## Parsing -/

namespace Stylesheet

open Source (spread lexemes normalize place)

theorem blank_components {ts : List Token} (h : Source.Blanks ts) :
    Blank (components ts) := by
  intro c hc
  obtain ⟨t, ht, rfl⟩ := List.mem_map.1 hc
  exact h t (List.mem_of_mem_filter ht)

/-- A source that is read in strict mode has no errors, in its tokens or its rules. -/
theorem clean_of_strict {source : Text} {sheet : Stylesheet}
    (h : parse .strict source = .ok sheet) :
    sheet.errors = [] ∧ (Source.tokenize source).errors = [] ∧
      ruleList .tolerant true (components (Source.tokenize source).tokens) =
        .done sheet.rules [] := by
  obtain ⟨rules, errors, hrules⟩ :=
    exists_ruleList_tolerant (components (Source.tokenize source).tokens)
  have htolerant := parse_tolerant_of_ruleList hrules
  obtain ⟨read, hread, hclean, hfaulty⟩ := ofLexed_agree (Source.tokenize source)
  obtain rfl : read = _ := Except.ok.inj (hread.symm.trans htolerant)
  cases hall : (Source.tokenize source).errors ++ errors with
  | nil =>
      obtain rfl := Except.ok.inj ((hclean hall).1.symm.trans h)
      rw [List.append_eq_nil_iff] at hall
      rw [hall.2] at hrules
      exact ⟨by simp [hall], hall.1, hrules⟩
  | cons e more =>
      have hstrict := hfaulty e (by simp [hall])
      cases hstrict.symm.trans h

theorem parse_tolerant_of_strict {source : Text} {sheet : Stylesheet}
    (h : parse .strict source = .ok sheet) : parse .tolerant source = .ok sheet := by
  obtain ⟨herrors, hlexed, hrules⟩ := clean_of_strict h
  rw [parse_tolerant_of_ruleList hrules, hlexed, List.append_nil, ← herrors]

/-- The tokens of a source, without its comments. -/
def visible (source : Text) : List Token :=
  (Source.tokenize source).tokens.filter fun t => !t.kind.isComment

theorem nodup_visible (source : Text) : (visible source).Nodup := by
  have hstarts := (Source.tiling_tokenize source).starts_increasing
  have hnodup : ((Source.tokenize source).tokens.map fun t => t.span.start).Nodup :=
    hstarts.imp fun h => ne_of_lt h
  exact (List.Nodup.of_map _ hnodup).filter _

section first

variable {source : Text} {sheet : Stylesheet} {body gap : List Token} {span : Span}

theorem tokens_of_cut
    (hcut : (Source.tokenize source).tokens = body ++ (gap ++ [⟨.eof, span⟩])) :
    Component.Tokens (components body) := by
  obtain ⟨all, hall, hkinds, _⟩ := (Source.tiling_tokenize source).split_last
  rw [hcut, ← List.append_assoc] at hall
  have hbody : body ++ gap = all := List.append_inj_left' hall rfl
  intro c hc
  obtain ⟨t, ht, rfl⟩ := List.mem_map.1 hc
  have hkind := (hkinds t (hbody ▸ List.mem_append_left gap (List.mem_of_mem_filter ht))).1
  exact ⟨Component.not_isEof_token.2 hkind, t, rfl⟩

/-- A source that is read without an error, cut before the blanks at its end, ends
with a closed token, and its rules come before those of whatever follows. -/
theorem goes_on_of_strict (h : parse .strict source = .ok sheet)
    (hended : AtRulesEnded (visible source) sheet.rules) (hgap : Source.Blanks gap)
    (hcut : (Source.tokenize source).tokens = body ++ (gap ++ [⟨.eof, span⟩])) :
    (∀ c ∈ (components body).getLast?, c.isBoundary = true) ∧
      ∀ tail, ruleList .tolerant true (components body ++ tail) =
        (ruleList .tolerant true tail).after sheet.rules := by
  have hcomponents : components (Source.tokenize source).tokens =
      components body ++ (components gap ++ [.token ⟨.eof, span⟩]) := by
    rw [hcut, components_append, components_append, components_end rfl]
  have htokens : Component.tokensIn
      (components body ++ (components gap ++ [.token ⟨.eof, span⟩])) = visible source := by
    rw [← hcomponents]
    exact Component.tokensIn_token _
  have hclean := (clean_of_strict h).2.2
  rw [hcomponents] at hclean
  have hfinished : Finished (visible source)
      (components gap ++ [.token ⟨.eof, span⟩]) (components body) sheet.rules :=
    ⟨tokens_of_cut hcut, htokens ▸ List.suffix_rfl, hended, hclean⟩
  exact hfinished.goes_on (nodup_visible source) (blank_components hgap) rfl

/-- The last lexeme of such a source is closed. -/
theorem last_isClosed_of_strict (h : parse .strict source = .ok sheet)
    (hended : AtRulesEnded (visible source) sheet.rules) :
    ∀ l ∈ (lexemes (normalize source)).getLast?, l.kind.isClosed = true := by
  intro l hl
  obtain ⟨init, hinit⟩ := List.getLast?_eq_some_iff.1 hl
  obtain ⟨span, hcut⟩ := Source.exists_place_tokens .start (lexemes (normalize source))
  have hlast := (goes_on_of_strict h hended (List.forall_mem_nil _) hcut).1
  rw [hinit, Source.spread_append, components_append] at hlast
  by_cases hcomment : l.kind.isComment = true
  · cases hkind : l.kind with
    | comment => rfl
    | _ =>
        rw [hkind] at hcomment
        cases hcomment
  · have htoken (p : Position) : components (spread p [l]) = [.token (l.token p)] := by
      simp [components, spread, Source.Lexeme.token, hcomment]
    rw [htoken, List.getLast?_concat] at hlast
    exact hlast _ rfl

end first

/-- The rules and the errors of two sources, one behind the other. -/
theorem parse_append {s₁ : Text} {sheet : Stylesheet}
    (hs₁ : ∀ c ∈ s₁, c ≠ '\r' ∧ c ≠ '\x0c') (hparse : parse .strict s₁ = .ok sheet)
    (hended : AtRulesEnded (visible s₁) sheet.rules) (s₂ : Text) :
    ∃ sheet', parse .tolerant s₂ = .ok sheet' ∧
      parse .tolerant (s₁ ++ '\n' :: s₂) =
        .ok ⟨sheet.rules ++ (Respelling.down (1 + s₁.count '\n')).nodes sheet'.rules,
          sheet.errors ++ sheet'.errors.map (Respelling.down (1 + s₁.count '\n')).error⟩ := by
  obtain ⟨herrors, hlexed, _⟩ := clean_of_strict hparse
  obtain ⟨body, gap, blanks, blanks', span, rest, hgap, hblanks, hblanks', hcut, hs₂,
    happend⟩ :=
    Source.tokenize_append hs₁ hlexed (last_isClosed_of_strict hparse hended) s₂
  obtain ⟨rules, errors, hrules⟩ := exists_ruleList_tolerant (components rest.tokens)
  have hsecond : ruleList .tolerant true (components (Source.tokenize s₂).tokens) =
      .done rules errors := by
    rw [hs₂, components_append, ruleList_blank_append _ (blank_components hblanks),
      hrules]
  have hboth : ruleList .tolerant true
      (components (Source.tokenize (s₁ ++ '\n' :: s₂)).tokens) =
      .done (sheet.rules ++ (Respelling.down (1 + s₁.count '\n')).nodes rules)
        (errors.map (Respelling.down (1 + s₁.count '\n')).error) := by
    rw [happend, components_append, (goes_on_of_strict hparse hended hgap hcut).2,
      components_append, ruleList_blank_append _ (blank_components hblanks'),
      Respelling.components_token, Respelling.ruleList_component, hrules]
    rfl
  refine ⟨_, parse_tolerant_of_ruleList hsecond, ?_⟩
  rw [parse_tolerant_of_ruleList hboth, happend, hs₂, herrors, List.nil_append,
    List.map_append]

/-- What a source is read as can be found by reading it. -/
theorem exists_parse_of_any {mode : Mode} {source : Text} {P : Stylesheet → Prop}
    [DecidablePred P] (h : (parse mode source).toOption.any (fun sheet => P sheet) = true) :
    ∃ sheet, parse mode source = .ok sheet ∧ P sheet := by
  cases hparse : parse mode source with
  | error e =>
      rw [hparse] at h
      cases h
  | ok sheet =>
      rw [hparse] at h
      exact ⟨sheet, rfl, of_decide_eq_true h⟩

end Stylesheet

/-! ## Diagnostics -/

namespace Audit

/-- What stands further down is reported further down. -/
theorem reports_down (a : Audit) (n : Nat) (ns : List Node) :
    a.reports [] (Node.occurrencesIn ((Respelling.down n).nodes ns)) =
      (a.reports [] (Node.occurrencesIn ns)).map (Diagnostic.down n) :=
  a.reports_moved (((Respelling.down n).occurrencesIn_nodes ns).imp fun _ _ ho =>
    ho.moved (fun _ => rfl) (ho.feature.span fun _ => rfl))

/-- Stylesheets that are put one behind the other are linted each by itself. Of
two sources, let the first be read without an error, with a semicolon behind each
of its at-rules that have no block. The diagnostics of both, with a line feed
between them, are those of the first and then those of the second, as many lines
further down as the first and the line feed take; the same is true of the rules,
and of the errors. -/
theorem lint_concatenated {s₁ : Text} {sheet : Stylesheet}
    (hs₁ : ∀ c ∈ s₁, c ≠ '\r' ∧ c ≠ '\x0c')
    (hparse : Stylesheet.parse .strict s₁ = .ok sheet)
    (hended : AtRulesEnded (Stylesheet.visible s₁) sheet.rules) (s₂ : Text) :
    (∃ sheet', Stylesheet.parse .tolerant s₂ = .ok sheet' ∧
      Stylesheet.parse .tolerant (s₁ ++ '\n' :: s₂) =
        .ok ⟨sheet.rules ++ (Respelling.down (1 + s₁.count '\n')).nodes sheet'.rules,
          sheet.errors ++
            sheet'.errors.map (Respelling.down (1 + s₁.count '\n')).error⟩) ∧
    ∀ a : Audit, ∃ diagnostics diagnostics',
      (∀ mode, a.lint mode s₁ = .ok diagnostics) ∧
      a.lint .tolerant s₂ = .ok diagnostics' ∧
      a.lint .tolerant (s₁ ++ '\n' :: s₂) =
        .ok (diagnostics ++ diagnostics'.map (Diagnostic.down (1 + s₁.count '\n'))) := by
  obtain ⟨sheet', hs₂, happend⟩ := Stylesheet.parse_append hs₁ hparse hended s₂
  refine ⟨⟨sheet', hs₂, happend⟩, fun a => ?_⟩
  have hfirst (mode : Mode) : Stylesheet.parse mode s₁ = .ok sheet := by
    cases mode with
    | strict => exact hparse
    | tolerant => exact Stylesheet.parse_tolerant_of_strict hparse
  refine ⟨a.diagnostics sheet, a.diagnostics sheet', fun mode => ?_, ?_, ?_⟩
  · rw [lint, hfirst]
    rfl
  · rw [lint, hs₂]
    rfl
  · rw [lint, happend]
    change Except.ok (a.diagnostics _) = _
    rw [diagnostics_eq_reports, Node.occurrencesIn_append, reports_append, reports_down,
      ← diagnostics_eq_reports, ← diagnostics_eq_reports]

/-- Two sources with an offending property each; the first has an at-rule without
a block, and the second a declaration without a colon. -/
theorem lint_concatenated_import :
    let a : Audit := ⟨{}, .ofRecords "" [⟨"zoom".toList, .property, .newly, none⟩]⟩
    let s₁ := "@import 'x';\na\x7bzoom: 0\x7d".toList
    let s₂ := " b\x7bc; zoom: 0\x7d".toList
    (∃ sheet, Stylesheet.parse .tolerant (s₁ ++ '\n' :: s₂) = .ok sheet ∧
      sheet.errors = [⟨.colonExpected, ⟨3, 5⟩⟩]) ∧
    ∃ diagnostics diagnostics',
      (∀ mode, a.lint mode s₁ = .ok diagnostics) ∧
      a.lint .tolerant s₂ = .ok diagnostics' ∧
      a.lint .tolerant (s₁ ++ '\n' :: s₂) =
        .ok (diagnostics ++ diagnostics'.map (Diagnostic.down 2)) ∧
      diagnostics.map (fun d => d.span.start) = [⟨2, 3⟩] ∧
      diagnostics'.map (fun d => d.span.start) = [⟨1, 7⟩] := by
  intro a s₁ s₂
  obtain ⟨sheet, hparse, hended, herrors₁⟩ : ∃ sheet,
      Stylesheet.parse .strict s₁ = .ok sheet ∧
        AtRulesEnded (Stylesheet.visible s₁) sheet.rules ∧ sheet.errors = [] :=
    Stylesheet.exists_parse_of_any (by decide +kernel)
  have hs₁ : ∀ c ∈ s₁, c ≠ '\r' ∧ c ≠ '\x0c' := by
    have hall : s₁.all (fun c => c ≠ '\r' ∧ c ≠ '\x0c') = true := by decide +kernel
    simpa using hall
  have hcount : 1 + s₁.count '\n' = 2 := by decide +kernel
  obtain ⟨⟨sheet', hs₂, hboth⟩, hlint⟩ := lint_concatenated hs₁ hparse hended s₂
  obtain ⟨diagnostics, diagnostics', hfirst, hsecond, happend⟩ := hlint a
  rw [hcount] at hboth happend
  have herrors₂ : (Stylesheet.parse .tolerant s₂).map Stylesheet.errors =
      .ok [⟨.colonExpected, ⟨1, 5⟩⟩] := by
    decide +kernel
  have hspans₁ : (a.lint .strict s₁).map (List.map fun d => d.span.start) =
      .ok [⟨2, 3⟩] := by
    decide +kernel
  have hspans₂ : (a.lint .tolerant s₂).map (List.map fun d => d.span.start) =
      .ok [⟨1, 7⟩] := by
    decide +kernel
  rw [hs₂] at herrors₂
  rw [hfirst] at hspans₁
  rw [hsecond] at hspans₂
  refine ⟨⟨_, hboth, ?_⟩, diagnostics, diagnostics', hfirst, hsecond, happend,
    Except.ok.inj hspans₁, Except.ok.inj hspans₂⟩
  change sheet.errors ++ sheet'.errors.map _ = _
  rw [herrors₁, Except.ok.inj herrors₂]
  rfl

end Audit

end StyleAudit
