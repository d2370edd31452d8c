import StyleAudit.Proofs.ConditionReading
import StyleAudit.Proofs.Occurrences
import StyleAudit.Proofs.ScopeHistory

/-!
# Keys are canonical

Three things are asked of a feature by its key: whether a support rule around it
grants it, whether the at-rule that it is may be used, and what record there is of
it. The first compares keys as they are, the second puts what the list says into
small letters, and the third does so with the key itself. They draw the same line
between features only because every key is in small letters already, whichever
resolver made it and whether it was read from a stylesheet or from a condition.

So features are told apart by kind and key and by nothing else. For most kinds this
means the name that was written, in small letters. Values are left out, whose key is
joined from two names, and media features, whose key can be shorter than the name.
-/

namespace StyleAudit

/-! ## Keys in conditions -/

namespace Condition

variable {key : Feature.Key}

theorem resolved_of_mem_test {features : List Feature}
    (h : key ∈ (test (keysOf features)).asserted)
    (hfeatures : ∀ f ∈ features, f.Resolved) : ∃ f : Feature, f.Resolved ∧ f.scopeKey = key := by
  rw [asserted] at h
  obtain ⟨f, hf, rfl⟩ := List.mem_map.1 h
  exact ⟨f, hfeatures f hf, rfl⟩

mutual

theorem resolved_of_mem_ofTerm {c : Component} (h : key ∈ (ofTerm c).asserted) :
    ∃ f : Feature, f.Resolved ∧ f.scopeKey = key := by
  match c with
  | .block .round opening values closing =>
      rw [ofTerm] at h
      split at h
      · next d hd => exact resolved_of_mem_test h fun f => .declaration d
      · rw [asserted_ofComponents] at h
        split at h
        · cases h
        · exact resolved_of_mem_ofTerms h
  | .function name head values closing =>
      rw [ofTerm] at h
      split at h
      · exact resolved_of_mem_test h fun f => .selector values
      · cases h
  | .token _ | .block .curly .. | .block .square .. =>
      rw [ofTerm] at h
      · cases h
      all_goals simp

theorem resolved_of_mem_ofTerms {cs : List Component} (h : key ∈ assertedAll (ofTerms cs)) :
    ∃ f : Feature, f.Resolved ∧ f.scopeKey = key := by
  match cs with
  | [] =>
      rw [ofTerms, assertedAll] at h
      cases h
  | c :: rest =>
      rw [ofTerms] at h
      split at h
      · exact resolved_of_mem_ofTerms h
      · rw [assertedAll] at h
        rcases List.mem_append.1 h with hc | hrest
        · exact resolved_of_mem_ofTerm hc
        · exact resolved_of_mem_ofTerms hrest

end

/-- What a condition asserts are keys of features that its tests use. -/
theorem resolved_of_mem_asserted {prelude : List Component}
    (h : key ∈ (ofComponents prelude).asserted) :
    ∃ f : Feature, f.Resolved ∧ f.scopeKey = key := by
  rw [asserted_ofComponents] at h
  split at h
  · cases h
  · exact resolved_of_mem_ofTerms h

theorem lower_of_mem_asserted {prelude : List Component}
    (h : key ∈ (ofComponents prelude).asserted) : Text.lower key.2 = key.2 := by
  obtain ⟨f, hf, rfl⟩ := resolved_of_mem_asserted h
  exact hf.form.lower_key

end Condition

namespace Feature

/-! ## What is asked of a feature -/

/-- The names that are kept with a feature, as they were written. -/
def names (f : Feature) : List Text :=
  (Dictionary.values f.details).filterMap fun json => json.string?.map String.toList

/-- What it means that the key of a feature is the one in small letters, for all that
is asked by it: whether it is granted inside of some support rules, whether the list
of at-rules names it, and what is found in a database. -/
structure Canonical (f : Feature) : Prop where
  small : Text.lower f.key = f.key
  granted : ∀ rules, (Scope.inside rules).allows f.scopeKey = true ↔
    ∃ key ∈ (Scope.inside rules).keys, key.1 = f.kind ∧ Text.lower key.2 = Text.lower f.key
  allowed : f.kind = .atRule → ∀ c : Configuration, c.exempts f = true ↔
    ∃ name ∈ c.allowAtRules, Text.lower name = Text.lower f.key
  found : ∀ db : Database, db.get? f.kind f.key = Dictionary.get? f.scopeKey db.entries

theorem lower_of_mem_inside {rules : List (List Component)} {key : Key}
    (h : key ∈ (Scope.inside rules).keys) : Text.lower key.2 = key.2 := by
  obtain ⟨prelude, -, hkey⟩ := (Scope.mem_keys_inside rules key).1 h
  exact Condition.lower_of_mem_asserted hkey

variable {f g : Feature}

theorem Form.canonical (hf : f.Form) : f.Canonical where
  small := hf.lower_key
  granted rules := by
    rw [Scope.allows, List.contains_iff_mem, hf.lower_key]
    constructor
    · intro h
      exact ⟨f.scopeKey, h, rfl, hf.lower_key⟩
    · rintro ⟨key, hkey, hkind, hlower⟩
      rw [lower_of_mem_inside hkey] at hlower
      have heq : f.scopeKey = key := Prod.ext hkind.symm hlower.symm
      rwa [heq]
  allowed hkind c := by
    rw [Configuration.exempts_iff, Configuration.Exempt, hkind, hf.lower_key]
  found db := by rw [Database.get?, hf.lower_key, scopeKey]

/-! ## When two features are the same -/

/-- Databases tell features apart just as kinds and keys do. -/
theorem Canonical.scopeKey_eq_iff (hf : f.Canonical) (hg : g.Canonical) :
    f.scopeKey = g.scopeKey ↔
      ∀ db : Database, db.get? f.kind f.key = db.get? g.kind g.key := by
  constructor
  · intro h db
    rw [hf.found, hg.found, h]
  · intro h
    -- a database with a record of the one feature has a record of the other
    have hfound := h ⟨"", [(f.scopeKey, ⟨f.key, f.kind, .newly, none⟩)]⟩
    rw [hf.found, hg.found, Dictionary.get?, if_pos rfl] at hfound
    by_contra hne
    rw [Dictionary.get?, if_neg hne] at hfound
    cases hfound

/-- Lists of at-rules tell at-rules apart just as keys do. -/
theorem Canonical.scopeKey_eq_iff_exempts (hf : f.Canonical) (hg : g.Canonical)
    (hkind : f.kind = .atRule) (hkind' : g.kind = .atRule) :
    f.scopeKey = g.scopeKey ↔ ∀ c : Configuration, c.exempts f = c.exempts g := by
  constructor
  · intro h c
    have hkey : f.key = g.key := congrArg Prod.snd h
    rw [Bool.eq_iff_iff, hf.allowed hkind, hg.allowed hkind', hkey]
  · intro h
    -- a list that names the one at-rule names the other
    let list : Configuration := { allowAtRules := [f.key] }
    have hexempt : list.exempts f = true := (hf.allowed hkind list).2 ⟨f.key, by simp [list], rfl⟩
    rw [h list] at hexempt
    obtain ⟨name, hname, hlower⟩ := (hg.allowed hkind' list).1 hexempt
    rw [List.mem_singleton.1 hname, hf.small, hg.small] at hlower
    exact Prod.ext (hkind.trans hkind'.symm) hlower

/-- Apart from values and media features, a feature keeps one name, and its key is
this name in small letters. -/
theorem Form.exists_name (hf : f.Form) (hvalue : f.kind ≠ .propertyValue)
    (hmedia : f.kind ≠ .mediaCondition) :
    ∃ name, f.names = [name] ∧ f.key = Text.lower name := by
  cases hf with
  | value => exact absurd rfl hvalue
  | media => exact absurd rfl hmedia
  | nesting span =>
      have hlower : Text.lower "nesting".toList = "nesting".toList := by decide +kernel
      exact ⟨"nesting".toList, rfl, hlower.symm⟩
  | @property name | @function name | @atRule name | @pseudo name =>
      refine ⟨name, ?_, rfl⟩
      simp [names, Dictionary.values, Json.ofText, Json.string?]

theorem Form.scopeKey_eq_iff (hf : f.Form) (hg : g.Form) (hvalue : f.kind ≠ .propertyValue)
    (hmedia : f.kind ≠ .mediaCondition) :
    f.scopeKey = g.scopeKey ↔
      f.kind = g.kind ∧ f.names.map Text.lower = g.names.map Text.lower := by
  rw [scopeKey, scopeKey, Prod.mk.injEq]
  refine and_congr_right fun hkind => ?_
  obtain ⟨name, hnames, hkey⟩ := hf.exists_name hvalue hmedia
  obtain ⟨name', hnames', hkey'⟩ := hg.exists_name (hkind ▸ hvalue) (hkind ▸ hmedia)
  rw [hnames, hnames', hkey, hkey', List.map_singleton, List.map_singleton, List.singleton_inj]

/-- All keys are canonical, those that some resolver makes of whatever it is given,
as all features of a stylesheet are made, and those that a condition asserts.
Features with the same kind and key have the same record in every database, and no
others do; at-rules with the same key, and no others, are in the same lists; and for
all but values and media features this is so if their kinds and the names kept with
them are the same, the names in small letters. -/
theorem keys_canonical (hf : f.Resolved) (hg : g.Resolved) :
    f.Canonical ∧
    (∀ sheet : Stylesheet, ∀ o ∈ Node.occurrencesIn sheet.rules, o.feature.Resolved) ∧
    (∀ prelude, ∀ key ∈ (Condition.ofComponents prelude).asserted,
      Text.lower key.2 = key.2) ∧
    (f.scopeKey = g.scopeKey ↔
      ∀ db : Database, db.get? f.kind f.key = db.get? g.kind g.key) ∧
    (f.kind = .atRule → g.kind = .atRule →
      (f.scopeKey = g.scopeKey ↔ ∀ c : Configuration, c.exempts f = c.exempts g)) ∧
    (f.kind ≠ .propertyValue → f.kind ≠ .mediaCondition →
      (f.scopeKey = g.scopeKey ↔
        f.kind = g.kind ∧ f.names.map Text.lower = g.names.map Text.lower)) := by
  refine ⟨hf.form.canonical, ?_, ?_, ?_, ?_, ?_⟩
  · intro sheet o ho
    obtain ⟨n, hn⟩ := Node.exists_of_mem_occurrencesIn ho
    exact Node.resolved_of_mem_features hn
  · intro prelude key hkey
    exact Condition.lower_of_mem_asserted hkey
  · exact hf.form.canonical.scopeKey_eq_iff hg.form.canonical
  · exact hf.form.canonical.scopeKey_eq_iff_exempts hg.form.canonical
  · exact hf.form.scopeKey_eq_iff hg.form

/-- Two properties, in capitals and in small letters. A sigma at the end of a word is
the final one in small letters, and with any other the name is of another property. -/
theorem keys_canonical_sigma :
    let property (name : String) : Feature :=
      ⟨.property, Text.lower name.toList, default, [("property", .str name)]⟩
    (property "ΟΔΟΣ").Canonical ∧
      (property "ΟΔΟΣ").scopeKey = (property "οδος").scopeKey ∧
      (property "ΟΔΟΣ").scopeKey ≠ (property "οδοσ").scopeKey := by
  intro property
  have hresolved (name : String) (h : property name ∈
      ofDeclaration ⟨name.toList, default, [], false⟩) : (property name).Resolved :=
    .declaration _ h
  have hcapitals := hresolved "ΟΔΟΣ" (by decide +kernel)
  have hfinal := hresolved "οδος" (by decide +kernel)
  have hinner := hresolved "οδοσ" (by decide +kernel)
  obtain ⟨hcanonical, -, -, -, -, hsame⟩ := keys_canonical hcapitals hfinal
  obtain ⟨-, -, -, -, -, hother⟩ := keys_canonical hcapitals hinner
  have hvalue : Kind.property ≠ .propertyValue := by decide
  have hmedia : Kind.property ≠ .mediaCondition := by decide
  refine ⟨hcanonical, ?_, ?_⟩
  · exact (hsame hvalue hmedia).2 ⟨rfl, by decide +kernel⟩
  · intro h
    exact absurd ((hother hvalue hmedia).1 h).2 (by decide +kernel)

end Feature

end StyleAudit
