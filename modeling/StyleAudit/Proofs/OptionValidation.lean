import StyleAudit.Audit.Validation

/-!
# What a validator of options does

Whoever validates options, what is proved of them needs five things of the validator, and
`Lawful` says which. An option is taken from one place: a list from under the first spelling of
its name, or from under the second if there is nothing under the first. What stands there is a
value of the option's own kind, or else it is told; an option that is absent has its default. A
name that no option is taken from does not count, and is told as well. If nothing is told, the
options are accepted.

Lists of names stand for sets, so `Lawful` does not say in which order a validator puts the names,
nor how often.

The validator that the program is run with is lawful.
-/

namespace StyleAudit

open Dictionary (get? keys)

namespace Configuration

/-! ## Values of options -/

/-- A value is a list of names, and these are the given ones. -/
def IsNames (json : Json) (names : List Text) : Prop :=
  ∃ ts : List Text, json = .arr (ts.map .ofText) ∧ ∀ t, t ∈ names ↔ t ∈ ts

/-- What some options give for a list. -/
def ListName.Gives (n : ListName) (options : Options) (names : List Text) : Prop :=
  match n.find? options with
  | none => names = []
  | some (_, json) => IsNames json names

/-- What some options give for the threshold. -/
def GivesThreshold (options : Options) (t : Threshold) : Prop :=
  match get? availableName options with
  | none => t = .widely
  | some json => Threshold.ofJson? json = some t

/-- What some options give for everything in a configuration. -/
structure Spells (options : Options) (c : Configuration) : Prop where
  available : GivesThreshold options c.available
  allowProperties : properties.Gives options c.allowProperties
  allowAtRules : atRules.Gives options c.allowAtRules
  allowSelectors : selectors.Gives options c.allowSelectors

/-- A name counts among some options: it is that of the threshold, or the one under which a list
is found. -/
def Counts (options : Options) (name : String) : Prop :=
  name = availableName ∨ ∃ n ∈ listNames, ∃ json, n.find? options = some (name, json)

/-- What is found under a name is not of the kind that is looked for there. -/
inductive Misfit (options : Options) : String → Prop
  | threshold {json : Json} (h : get? availableName options = some json)
      (hjson : Threshold.ofJson? json = none) : Misfit options availableName
  | list {n : ListName} {name : String} {json : Json} (hn : n ∈ listNames)
      (h : n.find? options = some (name, json)) (hjson : ∀ names, ¬ IsNames json names) :
      Misfit options name

/-- What a validator does. -/
structure Validator.Lawful (validate : Validator) : Prop where
  /-- What is accepted is what the options give. -/
  spells {options : Options} {c : Configuration} (h : validate options = .ok c) : Spells options c
  /-- Options with a name that does not count are not accepted. -/
  counts {options : Options} {c : Configuration} (h : validate options = .ok c) :
    ∀ name ∈ keys options, Counts options name
  /-- Options are refused for a reason. -/
  issues_ne_nil {options : Options} {issues : List Issue} (h : validate options = .error issues) :
    issues ≠ []
  /-- The reasons are names that do not count, and values that are not of the right kind. -/
  cause {options : Options} {issues : List Issue} (h : validate options = .error issues) :
    ∀ issue ∈ issues,
      (∃ name ∈ keys options, ¬ Counts options name ∧ issue = .unknown name) ∨
      ∃ name, Misfit options name ∧ issue.location.head? = some (.str name)
  /-- All names that do not count are told. -/
  unknown_mem {options : Options} {issues : List Issue} (h : validate options = .error issues) :
    ∀ name ∈ keys options, ¬ Counts options name → .unknown name ∈ issues

section lawful

variable {validate : Validator} {options : Options}

/-- Options of which every name counts and every value fits are accepted: there would be no
reason to refuse them. -/
theorem Validator.Lawful.exists_ok (h : validate.Lawful)
    (hcounts : ∀ name ∈ keys options, Counts options name)
    (hfits : ∀ name, ¬ Misfit options name) : ∃ c, validate options = .ok c := by
  cases hresult : validate options with
  | ok c => exact ⟨c, rfl⟩
  | error issues =>
      obtain ⟨issue, hissue⟩ := List.exists_mem_of_ne_nil _ (h.issues_ne_nil hresult)
      rcases h.cause hresult issue hissue with ⟨name, hname, hnot, -⟩ | ⟨name, hmisfit, -⟩
      · exact absurd (hcounts name hname) hnot
      · exact absurd hmisfit (hfits name)

/-- If every value fits, what is told are the names that do not count. -/
theorem Validator.Lawful.mem_issues_iff (h : validate.Lawful)
    (hfits : ∀ name, ¬ Misfit options name) {issues : List Issue}
    (hresult : validate options = .error issues) (issue : Issue) :
    issue ∈ issues ↔ ∃ name ∈ keys options, ¬ Counts options name ∧ issue = .unknown name := by
  constructor
  · intro hissue
    refine (h.cause hresult issue hissue).resolve_right ?_
    rintro ⟨name, hmisfit, -⟩
    exact hfits name hmisfit
  · rintro ⟨name, hname, hnot, rfl⟩
    exact h.unknown_mem hresult name hname hnot

end lawful

/-! ## Lists of names -/

theorem map_ofText_injective {s t : List Text} (h : s.map Json.ofText = t.map .ofText) : s = t := by
  refine (List.map_inj_right fun a b hab => ?_).1 h
  exact String.ofList_injective (Json.str.inj hab)

theorem IsNames.mem_iff {ts names : List Text} (h : IsNames (.arr (ts.map .ofText)) names)
    (t : Text) : t ∈ names ↔ t ∈ ts := by
  obtain ⟨ts', heq, hmem⟩ := h
  rw [map_ofText_injective (Json.arr.inj heq)]
  exact hmem t

theorem itemIssues_eq_nil_iff {name : String} {i : Nat} {items : List Json} :
    itemIssues name i items = [] ↔ ∃ ts : List Text, items = ts.map .ofText := by
  induction items generalizing i with
  | nil => exact iff_of_true rfl ⟨[], rfl⟩
  | cons item items ih =>
      cases item with
      | str s =>
          rw [itemIssues, ih]
          constructor
          · rintro ⟨ts, rfl⟩
            exact ⟨s.toList :: ts, by simp [Json.ofText]⟩
          · rintro ⟨_ | ⟨t, ts⟩, heq⟩
            · cases heq
            · exact ⟨ts, (List.cons.inj heq).2⟩
      | _ =>
          refine iff_of_false (List.cons_ne_nil _ _) ?_
          rintro ⟨_ | ⟨t, ts⟩, heq⟩ <;> cases heq

theorem location_of_mem_itemIssues {name : String} {i : Nat} {items : List Json} {issue : Issue}
    (h : issue ∈ itemIssues name i items) : issue.location.head? = some (.str name) := by
  induction items generalizing i with
  | nil => cases h
  | cons item items ih =>
      cases item with
      | str s => exact ih h
      | _ =>
          rcases List.mem_cons.1 h with rfl | h
          · rfl
          · exact ih h

theorem strings_map_ofText (ts : List Text) :
    (ts.map Json.ofText).filterMap (fun item => item.string?.map String.toList) = ts := by
  induction ts with
  | nil => rfl
  | cons t ts ih =>
      rw [List.map_cons, List.filterMap_cons_some (b := t), ih]
      simp [Json.ofText, Json.string?]

/-! ## The validator of the program -/

theorem read_gives {n : ListName} {options : Options} (h : (n.read options).2 = []) :
    n.Gives options (n.read options).1 := by
  unfold ListName.read ListName.Gives at *
  cases hfind : n.find? options with
  | none => rfl
  | some found =>
      obtain ⟨name, json⟩ := found
      rw [hfind] at h
      cases json with
      | arr items =>
          obtain ⟨ts, rfl⟩ := itemIssues_eq_nil_iff.1 h
          exact ⟨ts, rfl, by simp only [strings_map_ofText, implies_true]⟩
      | _ => cases h

theorem misfit_of_mem_read {n : ListName} (hn : n ∈ listNames) {options : Options} {issue : Issue}
    (h : issue ∈ (n.read options).2) :
    ∃ name, Misfit options name ∧ issue.location.head? = some (.str name) := by
  unfold ListName.read at h
  cases hfind : n.find? options with
  | none =>
      rw [hfind] at h
      cases h
  | some found =>
      obtain ⟨name, json⟩ := found
      rw [hfind] at h
      refine ⟨name, .list hn hfind ?_, ?_⟩
      · rintro names ⟨ts, rfl, -⟩
        change issue ∈ itemIssues name 0 (ts.map .ofText) at h
        rw [itemIssues_eq_nil_iff.2 ⟨ts, rfl⟩] at h
        cases h
      · cases json with
        | arr items => exact location_of_mem_itemIssues h
        | _ =>
            cases List.mem_singleton.1 h
            rfl

theorem readAvailable_gives {options : Options} (h : (readAvailable options).2 = []) :
    GivesThreshold options (readAvailable options).1 := by
  unfold readAvailable GivesThreshold at *
  cases hget : get? availableName options with
  | none => rfl
  | some json =>
      rw [hget] at h
      cases hjson : Threshold.ofJson? json with
      | some t => simp only [hjson]
      | none =>
          simp only [hjson] at h
          cases h

theorem misfit_of_mem_readAvailable {options : Options} {issue : Issue}
    (h : issue ∈ (readAvailable options).2) :
    Misfit options availableName ∧ issue.location.head? = some (.str availableName) := by
  unfold readAvailable at h
  cases hget : get? availableName options with
  | none =>
      rw [hget] at h
      cases h
  | some json =>
      rw [hget] at h
      cases hjson : Threshold.ofJson? json with
      | some t =>
          simp only [hjson] at h
          cases h
      | none =>
          simp only [hjson, List.mem_cons, List.not_mem_nil, or_false] at h
          exact ⟨.threshold hget hjson, by rcases h with rfl | rfl <;> rfl⟩

theorem isKnown_iff {options : Options} {name : String} :
    isKnown options name = true ↔ Counts options name := by
  have hfound (n : ListName) : ((n.find? options).any fun found => found.1 = name) = true ↔
      ∃ json, n.find? options = some (name, json) := by
    cases n.find? options <;> simp [Prod.ext_iff]
  simp [isKnown, Counts, hfound]

theorem mem_unknownIssues_iff {options : Options} {issue : Issue} :
    issue ∈ unknownIssues options ↔
      ∃ name ∈ keys options, ¬ Counts options name ∧ issue = .unknown name := by
  have hcounts (name : String) : (!isKnown options name) = true ↔ ¬ Counts options name := by
    rw [Bool.not_eq_true', ← isKnown_iff, Bool.not_eq_true]
  simp only [unknownIssues, List.mem_map, List.mem_filter, hcounts, and_assoc]
  simp only [eq_comm]

theorem ofOptions_eq_ok_iff {options : Options} {c : Configuration} :
    ofOptions options = .ok c ↔
      issues options = [] ∧ c = ⟨(readAvailable options).1, (properties.read options).1,
        (atRules.read options).1, (selectors.read options).1⟩ := by
  unfold ofOptions
  split
  · next h => simp [List.isEmpty_iff.1 h, eq_comm]
  · next h => simp [mt List.isEmpty_iff.2 h]

theorem ofOptions_eq_error_iff {options : Options} {found : List Issue} :
    ofOptions options = .error found ↔ issues options = found ∧ found ≠ [] := by
  unfold ofOptions
  split
  · next h => simp [List.isEmpty_iff.1 h, eq_comm]
  · next h =>
      have hne := mt List.isEmpty_iff.2 h
      simp only [Except.error.injEq, iff_self_and]
      rintro rfl
      exact hne

/-- The validator of the program does what validators do. -/
theorem ofOptions_lawful : Validator.Lawful ofOptions where
  spells {options c} h := by
    obtain ⟨hclean, rfl⟩ := ofOptions_eq_ok_iff.1 h
    simp only [issues, List.append_eq_nil_iff] at hclean
    obtain ⟨⟨⟨⟨ha, hp⟩, hr⟩, hs⟩, -⟩ := hclean
    exact ⟨readAvailable_gives ha, read_gives hp, read_gives hr, read_gives hs⟩
  counts {options c} h := by
    obtain ⟨hclean, -⟩ := ofOptions_eq_ok_iff.1 h
    simp only [issues, List.append_eq_nil_iff] at hclean
    intro name hname
    refine Classical.byContradiction fun hcounts => ?_
    have hmem := mem_unknownIssues_iff.2 ⟨name, hname, hcounts, rfl⟩
    rw [hclean.2] at hmem
    cases hmem
  issues_ne_nil h := (ofOptions_eq_error_iff.1 h).2
  cause {options found} h := by
    obtain ⟨rfl, -⟩ := ofOptions_eq_error_iff.1 h
    intro issue hissue
    simp only [issues, List.mem_append] at hissue
    rcases hissue with (((h | h) | h) | h) | h
    · exact .inr ⟨_, misfit_of_mem_readAvailable h⟩
    · exact .inr (misfit_of_mem_read (by simp [listNames]) h)
    · exact .inr (misfit_of_mem_read (by simp [listNames]) h)
    · exact .inr (misfit_of_mem_read (by simp [listNames]) h)
    · exact .inl (mem_unknownIssues_iff.1 h)
  unknown_mem {options found} h := by
    obtain ⟨rfl, -⟩ := ofOptions_eq_error_iff.1 h
    intro name hname hcounts
    exact List.mem_append_right _ (mem_unknownIssues_iff.2 ⟨name, hname, hcounts, rfl⟩)

end Configuration

end StyleAudit
