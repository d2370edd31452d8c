import StyleAudit.Command.Options
import StyleAudit.Proofs.OptionValidation

/-!
# Options of a file and of the command line

What the command line adds to the options of a file is looked up by name: a
threshold under the one name it has, and names that are allowed under the first
spelling of their list. So the merged options differ from those of the file in
these places only, and a file that is accepted stays accepted: the threshold is
that of the command line, if there is one, and each list has gained the names.

There is one way to go wrong. A list may be in the file under its second
spelling. The names of the command line then make a list of their own under the
first spelling, beside which the second does not count; it has become a name
that is not known, and the options are refused. `Clashes` says which lists this
happens to, and the main statement is that nothing else can happen, whichever
validator the options are put to, as long as it is a lawful one.
-/

namespace StyleAudit

open Dictionary (get? put keys)

theorem Dictionary.mem_keys_iff {α β : Type} [DecidableEq α] {key : α}
    {d : Dictionary α β} : key ∈ keys d ↔ (get? key d).isSome = true := by
  induction d with
  | nil => simp [keys, get?]
  | cons p rest ih =>
      by_cases h : p.1 = key
      · simp [keys, get?, h]
      · simpa [keys, get?, h, Ne.symm h] using ih

namespace Configuration

/-! ## Names that count -/

/-- No first spelling is a name of anything else. -/
theorem camel_ne {m n : ListName} (hm : m ∈ listNames) (hn : n ∈ listNames) :
    m.camel ≠ n.snake ∧ m.camel ≠ availableName ∧ m.snake ≠ availableName ∧
      (m ≠ n → m.camel ≠ n.camel ∧ m.snake ≠ n.snake) := by
  simp only [listNames, List.mem_cons, List.not_mem_nil, or_false] at hm hn
  rcases hm with rfl | rfl | rfl <;> rcases hn with rfl | rfl | rfl <;>
    simp [properties, atRules, selectors, availableName]

theorem ListName.find?_eq_some_iff {n : ListName} {options : Options} {name : String}
    {json : Json} :
    n.find? options = some (name, json) ↔
      (name = n.camel ∧ get? n.camel options = some json) ∨
      (name = n.snake ∧ get? n.camel options = none ∧ get? n.snake options = some json) := by
  unfold ListName.find?
  cases get? n.camel options with
  | some json' => simp [eq_comm]
  | none => cases get? n.snake options <;> simp [eq_comm]

/-- A list is found by its two names alone. -/
theorem ListName.find?_congr {n : ListName} {options options' : Options}
    (hcamel : get? n.camel options' = get? n.camel options)
    (hsnake : get? n.snake options' = get? n.snake options) :
    n.find? options' = n.find? options := by
  unfold ListName.find?
  rw [hcamel, hsnake]

/-- A name that is there counts if it is not the second spelling of a list beside the
first. -/
theorem counts_iff {options : Options} {name : String} (h : name ∈ keys options) :
    Counts options name ↔
      name = availableName ∨ ∃ n ∈ listNames,
        name = n.camel ∨ (name = n.snake ∧ get? n.camel options = none) := by
  obtain ⟨json, hjson⟩ := Option.isSome_iff_exists.1 (Dictionary.mem_keys_iff.1 h)
  simp only [Counts, ListName.find?_eq_some_iff]
  constructor
  · rintro (havailable | ⟨n, hn, json', ⟨hname, -⟩ | ⟨hname, hnone, -⟩⟩)
    · exact .inl havailable
    · exact .inr ⟨n, hn, .inl hname⟩
    · exact .inr ⟨n, hn, .inr ⟨hname, hnone⟩⟩
  · rintro (havailable | ⟨n, hn, rfl | ⟨rfl, hnone⟩⟩)
    · exact .inl havailable
    · exact .inr ⟨n, hn, json, .inl ⟨rfl, hjson⟩⟩
    · exact .inr ⟨n, hn, json, .inr ⟨rfl, hnone, hjson⟩⟩

theorem ListName.Gives.mem_iff {n : ListName} {options : Options} {names names' : List Text}
    (h : n.Gives options names) (h' : n.Gives options names') (t : Text) :
    t ∈ names ↔ t ∈ names' := by
  unfold ListName.Gives at h h'
  cases hfind : n.find? options with
  | none =>
      rw [hfind] at h h'
      rw [h, h']
  | some found =>
      rw [hfind] at h h'
      obtain ⟨name, json⟩ := found
      obtain ⟨ts, rfl, hmem⟩ := h
      exact (hmem t).trans (IsNames.mem_iff h' t).symm

theorem GivesThreshold.unique {options : Options} {t t' : Threshold}
    (h : GivesThreshold options t) (h' : GivesThreshold options t') : t = t' := by
  unfold GivesThreshold at h h'
  cases hget : get? availableName options with
  | none =>
      rw [hget] at h h'
      rw [h, h']
  | some json =>
      rw [hget] at h h'
      exact Option.some.inj (h.symm.trans h')

end Configuration

namespace Command

open StyleAudit.Configuration

/-! ## What the command line adds -/

/-- The lists of names with what the command line adds to them. -/
def Arguments.added (a : Arguments) : List (ListName × List Value) :=
  [(properties, a.allowProperties), (atRules, a.allowAtRules),
    (selectors, a.allowSelectors)]

/-- Whether the command line adds to a list that is in the file under its second
spelling only. -/
def Arguments.Clashes (a : Arguments) (file : Options) (n : ListName) : Prop :=
  ∃ values, (n, values) ∈ a.added ∧ values ≠ [] ∧ get? n.camel file = none ∧
    (get? n.snake file).isSome = true

/-- The value of a list with values added to it. -/
def extended (values : List Value) (list : Option Json) : Option Json :=
  if values.isEmpty then list
  else match list with
    | none => some (.arr (values.map Value.toJson))
    | some (.arr items) => some (.arr (items ++ values.map Value.toJson))
    | some json => some json

theorem get?_addNames (name other : String) (values : List Value) (options : Options) :
    get? other (addNames name values options) =
      if other = name then extended values (get? name options) else get? other options := by
  unfold addNames extended
  by_cases hvalues : values.isEmpty = true
  · by_cases h : other = name
    · simp [hvalues, h]
    · simp [hvalues, h]
  · rw [if_neg hvalues, if_neg hvalues]
    cases hlist : get? name options with
    | none => exact Dictionary.get?_put ..
    | some json =>
        cases json with
        | arr items => exact Dictionary.get?_put ..
        | _ =>
            by_cases h : other = name
            · rw [if_pos h, h]
              exact hlist
            · rw [if_neg h]

theorem get?_setAvailable (available : Option Json) (name : String) (options : Options) :
    get? name (setAvailable available options) =
      if name = availableName then available.or (get? name options)
      else get? name options := by
  cases available with
  | none => simp [setAvailable]
  | some json =>
      rw [setAvailable, Dictionary.get?_put]
      simp

section merged

variable {a : Arguments} {file : Options} {n : ListName} {values : List Value}

theorem mem_listNames_of_added (h : (n, values) ∈ a.added) : n ∈ listNames := by
  simp only [Arguments.added, List.mem_cons, Prod.mk.injEq, List.not_mem_nil, or_false] at h
  rcases h with ⟨rfl, _⟩ | ⟨rfl, _⟩ | ⟨rfl, _⟩ <;> simp [listNames]

theorem exists_added (h : n ∈ listNames) : ∃ values, (n, values) ∈ a.added := by
  simp only [listNames, List.mem_cons, List.not_mem_nil, or_false] at h
  rcases h with rfl | rfl | rfl
  · exact ⟨a.allowProperties, by simp [Arguments.added]⟩
  · exact ⟨a.allowAtRules, by simp [Arguments.added]⟩
  · exact ⟨a.allowSelectors, by simp [Arguments.added]⟩

theorem get?_options_camel (h : (n, values) ∈ a.added) :
    get? n.camel (a.options file) = extended values (get? n.camel file) := by
  simp only [Arguments.added, List.mem_cons, Prod.mk.injEq, List.not_mem_nil, or_false] at h
  rcases h with ⟨rfl, rfl⟩ | ⟨rfl, rfl⟩ | ⟨rfl, rfl⟩ <;>
    simp [Arguments.options, get?_addNames, get?_setAvailable, properties, atRules,
      selectors, availableName]

theorem get?_options_available :
    get? availableName (a.options file) = a.available.or (get? availableName file) := by
  simp [Arguments.options, get?_addNames, get?_setAvailable, properties, atRules,
    selectors, availableName]

/-- Every other name has the value it has in the file. -/
theorem get?_options_of_ne {name : String} (havailable : name ≠ availableName)
    (hcamel : ∀ n ∈ listNames, name ≠ n.camel) :
    get? name (a.options file) = get? name file := by
  simp only [listNames, List.forall_mem_cons] at hcamel
  rw [Arguments.options, get?_addNames, if_neg hcamel.2.2.1, get?_addNames,
    if_neg hcamel.2.1, get?_addNames, if_neg hcamel.1, get?_setAvailable,
    if_neg havailable]

theorem get?_options_snake (h : n ∈ listNames) :
    get? n.snake (a.options file) = get? n.snake file :=
  get?_options_of_ne (camel_ne h h).2.2.1 fun _ hm => ((camel_ne hm h).1).symm

/-! ## The merged lists -/

theorem extended_names {names : List Text} (h : names ≠ []) (list : Option Json) :
    extended (names.map some) list =
      match list with
      | none => some (.arr (names.map .ofText))
      | some (.arr items) => some (.arr (items ++ names.map .ofText))
      | some json => some json := by
  unfold extended
  rw [if_neg (by simpa using h), List.map_map]
  rfl

theorem find?_options_of_nil (h : (n, []) ∈ a.added) :
    n.find? (a.options file) = n.find? file :=
  ListName.find?_congr (get?_options_camel h) (get?_options_snake (mem_listNames_of_added h))

/-- A list to which names are added is found under its first spelling. It has the names
behind its own, unless its own are under the second spelling. -/
theorem exists_find?_options {names before : List Text} (h : (n, names.map some) ∈ a.added)
    (hnames : names ≠ []) (hgives : n.Gives file before) :
    ∃ ts : List Text, n.find? (a.options file) = some (n.camel, .arr (ts.map .ofText)) ∧
      (¬ a.Clashes file n → ∀ t, t ∈ ts ↔ t ∈ before ∨ t ∈ names) := by
  have hcamel : get? n.camel (a.options file) = _ := get?_options_camel h
  rw [extended_names hnames] at hcamel
  unfold ListName.Gives at hgives
  cases hfile : get? n.camel file with
  | none =>
      rw [hfile] at hcamel
      refine ⟨names, ListName.find?_eq_some_iff.2 (.inl ⟨rfl, hcamel⟩), fun hclash t => ?_⟩
      have hnone : get? n.snake file = none := by
        cases hlist : get? n.snake file with
        | none => rfl
        | some json =>
            exact absurd ⟨_, h, by simpa using hnames, hfile, by rw [hlist]; rfl⟩ hclash
      have hempty : n.find? file = none := by simp [ListName.find?, hfile, hnone]
      rw [hempty] at hgives
      simp [hgives]
  | some json =>
      rw [ListName.find?_eq_some_iff.2 (.inl ⟨rfl, hfile⟩)] at hgives
      obtain ⟨own, rfl, hown⟩ := hgives
      rw [hfile] at hcamel
      simp only [← List.map_append] at hcamel
      refine ⟨own ++ names, ListName.find?_eq_some_iff.2 (.inl ⟨rfl, hcamel⟩), fun _ t => ?_⟩
      rw [List.mem_append, hown]

/-- A list that is accepted has gained the names that are added to it. -/
theorem mem_of_gives_options {names before after : List Text}
    (h : (n, names.map some) ∈ a.added) (hgives : n.Gives file before)
    (hclash : ¬ a.Clashes file n) (hafter : n.Gives (a.options file) after) (t : Text) :
    t ∈ after ↔ t ∈ before ∨ t ∈ names := by
  by_cases hnames : names = []
  · subst hnames
    unfold ListName.Gives at hafter
    rw [find?_options_of_nil h] at hafter
    simpa using hgives.mem_iff hafter t |>.symm
  · obtain ⟨ts, hfind, hmem⟩ := exists_find?_options h hnames hgives
    unfold ListName.Gives at hafter
    rw [hfind] at hafter
    rw [IsNames.mem_iff hafter, hmem hclash]

/-- The merged lists are lists of names, also where there is a clash: there the
names of the command line alone are found. -/
theorem isNames_options {names before : List Text} (h : (n, names.map some) ∈ a.added)
    (hgives : n.Gives file before) {name : String} {json : Json}
    (hfind : n.find? (a.options file) = some (name, json)) : ∃ after, IsNames json after := by
  by_cases hnames : names = []
  · subst hnames
    rw [find?_options_of_nil h] at hfind
    unfold ListName.Gives at hgives
    rw [hfind] at hgives
    exact ⟨before, hgives⟩
  · obtain ⟨ts, hcamel, -⟩ := exists_find?_options h hnames hgives
    rw [hcamel] at hfind
    cases hfind
    exact ⟨ts, ts, rfl, fun _ => Iff.rfl⟩

/-- The merged threshold is that of the command line, or else that of the file. -/
theorem threshold_options {t : Threshold} (hfile : GivesThreshold file t)
    (havailable : ∀ json ∈ a.available, (Threshold.ofJson? json).isSome = true) :
    GivesThreshold (a.options file) ((a.available.bind Threshold.ofJson?).getD t) := by
  unfold GivesThreshold at *
  rw [get?_options_available]
  cases hjson : a.available with
  | none => exact hfile
  | some json =>
      obtain ⟨t', ht'⟩ := Option.isSome_iff_exists.1 (havailable json hjson)
      simp [ht']

/-! ## Merged names that count -/

theorem isSome_extended (values : List Value) (list : Option Json) :
    (extended values list).isSome = true ↔ list.isSome = true ∨ values ≠ [] := by
  unfold extended
  by_cases h : values.isEmpty = true
  · simp_all
  · rw [if_neg h]
    have hvalues : values ≠ [] := by simpa using h
    simp only [ne_eq, hvalues, not_false_eq_true, or_true, iff_true]
    split <;> rfl

/-- A name of the file that counts does so among the merged options too, unless it
is the second spelling of a list that now has the first one beside it. -/
theorem counts_options_iff {name : String} (hfile : ∀ name ∈ keys file, Counts file name)
    (hname : name ∈ keys (a.options file)) :
    Counts (a.options file) name ↔ ¬ ∃ n, a.Clashes file n ∧ name = n.snake := by
  rw [counts_iff hname]
  constructor
  · rintro hcounts ⟨n, ⟨values, hadded, hvalues, hcamel, _⟩, rfl⟩
    have hn := mem_listNames_of_added hadded
    rcases hcounts with havailable | ⟨m, hm, hsame | ⟨hsame, hnone⟩⟩
    · exact (camel_ne hn hn).2.2.1 havailable
    · exact (camel_ne hm hn).1 hsame.symm
    · by_cases hmn : m = n
      · subst hmn
        have hsome := (isSome_extended values (get? m.camel file)).2 (.inr hvalues)
        rw [← get?_options_camel hadded, hnone] at hsome
        cases hsome
      · exact ((camel_ne hm hn).2.2.2 hmn).2 hsame.symm
  · intro hclash
    by_cases havailable : name = availableName
    · exact .inl havailable
    · refine .inr ?_
      by_cases hcamel : ∃ n ∈ listNames, name = n.camel
      · obtain ⟨n, hn, hsame⟩ := hcamel
        exact ⟨n, hn, .inl hsame⟩
      · -- what is left has its value from the file, and counted there
        have hget : get? name (a.options file) = get? name file :=
          get?_options_of_ne havailable fun n hn hsame => hcamel ⟨n, hn, hsame⟩
        rw [Dictionary.mem_keys_iff, hget] at hname
        have hmem := Dictionary.mem_keys_iff.2 hname
        rcases (counts_iff hmem).1 (hfile name hmem) with h | ⟨n, hn, hsame | ⟨hsame, hnone⟩⟩
        · exact absurd h havailable
        · exact absurd ⟨n, hn, hsame⟩ hcamel
        · obtain ⟨values, hadded⟩ := exists_added (a := a) hn
          refine ⟨n, hn, .inr ⟨hsame, ?_⟩⟩
          by_cases hvalues : values = []
          · rw [get?_options_camel hadded, hnone, hvalues]
            rfl
          · exact absurd ⟨n, ⟨values, hadded, hvalues, hnone, hsame ▸ hname⟩, hsame⟩ hclash

theorem snake_mem_keys_options (h : a.Clashes file n) : n.snake ∈ keys (a.options file) := by
  obtain ⟨values, hadded, _, _, hsnake⟩ := h
  rw [Dictionary.mem_keys_iff, get?_options_snake (mem_listNames_of_added hadded)]
  exact hsnake

end merged

/-! ## Merged options as a configuration -/

section validated

variable {validate : Validator} {file : Options} {c : Configuration} {a : Arguments}
  {ps rs ss : List Text}

theorem ofJsonWith_eq_ok_iff {options : Options} {c : Configuration} :
    ofJsonWith validate (.obj options) = .ok c ↔ validate options = .ok c := by
  rw [ofJsonWith]
  cases validate options with
  | ok c' =>
      change (Except.ok c' : Except ConfigurationError Configuration) = .ok c ↔ _
      rw [Except.ok.injEq, Except.ok.injEq]
  | error issues => exact iff_of_false (fun h => by cases h) fun h => by cases h

/-- What the flags of a command line add to the three lists, each flag having a value. -/
structure Arguments.Adds (a : Arguments) (ps rs ss : List Text) : Prop where
  properties : a.allowProperties = ps.map some
  atRules : a.allowAtRules = rs.map some
  selectors : a.allowSelectors = ss.map some

theorem Arguments.Adds.added_eq (h : a.Adds ps rs ss) : a.added =
    [(Configuration.properties, ps.map some), (Configuration.atRules, rs.map some),
      (Configuration.selectors, ss.map some)] := by
  rw [Arguments.added, h.properties, h.atRules, h.selectors]

theorem Arguments.Adds.exists_gives (h : a.Adds ps rs ss) (hspells : Spells file c) {n : ListName}
    (hn : n ∈ listNames) :
    ∃ names before : List Text, (n, names.map some) ∈ a.added ∧ n.Gives file before := by
  simp only [listNames, List.mem_cons, List.not_mem_nil, or_false] at hn
  rcases hn with rfl | rfl | rfl
  · exact ⟨ps, _, by simp [h.added_eq], hspells.allowProperties⟩
  · exact ⟨rs, _, by simp [h.added_eq], hspells.allowAtRules⟩
  · exact ⟨ss, _, by simp [h.added_eq], hspells.allowSelectors⟩

/-- Nothing in the merged options is of the wrong kind. -/
theorem not_misfit_options (hspells : Spells file c) (hadds : a.Adds ps rs ss)
    (havailable : ∀ json ∈ a.available, (Threshold.ofJson? json).isSome = true) (name : String) :
    ¬ Misfit (a.options file) name := by
  rintro (⟨hget, hjson⟩ | ⟨hn, hfind, hjson⟩)
  · have hgives := threshold_options hspells.available havailable
    unfold GivesThreshold at hgives
    rw [hget] at hgives
    simp [hjson] at hgives
  · obtain ⟨names, before, hadded, hgives⟩ := hadds.exists_gives hspells hn
    obtain ⟨after, hafter⟩ := isNames_options hadded hgives hfind
    exact hjson after hafter

end validated

/-- The command line extends a file that is accepted. Names are added to those of the
file, and a threshold replaces that of the file, provided that no list which gains a
name is in the file under its second spelling; otherwise the options are refused, and
what is wrong with them is just that these spellings are not known. -/
theorem options_extend_file {validate : Validator} (hlawful : validate.Lawful) {file : Options}
    {c : Configuration} (hfile : ofJsonWith validate (.obj file) = .ok c) {a : Arguments}
    {ps rs ss : List Text} (hadds : a.Adds ps rs ss)
    (havailable : ∀ json ∈ a.available, (Threshold.ofJson? json).isSome = true) :
    ((¬ ∃ n, a.Clashes file n) → ∃ c',
      ofJsonWith validate (.obj (a.options file)) = .ok c' ∧
      c'.available = (a.available.bind Threshold.ofJson?).getD c.available ∧
      (∀ t, t ∈ c'.allowProperties ↔ t ∈ c.allowProperties ∨ t ∈ ps) ∧
      (∀ t, t ∈ c'.allowAtRules ↔ t ∈ c.allowAtRules ∨ t ∈ rs) ∧
      ∀ t, t ∈ c'.allowSelectors ↔ t ∈ c.allowSelectors ∨ t ∈ ss) ∧
    ((∃ n, a.Clashes file n) → ∃ issues,
      ofJsonWith validate (.obj (a.options file)) = .error (.invalid issues) ∧
      ∀ issue, issue ∈ issues ↔ ∃ n, a.Clashes file n ∧ issue = .unknown n.snake) := by
  rw [ofJsonWith_eq_ok_iff] at hfile
  have hspells := hlawful.spells hfile
  have hfits := not_misfit_options hspells hadds havailable
  have hcounts {name : String} (h : name ∈ keys (a.options file)) :=
    counts_options_iff (hlawful.counts hfile) h
  constructor
  · intro hclash
    have hfree (n : ListName) : ¬ a.Clashes file n := fun h => hclash ⟨n, h⟩
    have hall : ∀ name ∈ keys (a.options file), Counts (a.options file) name := by
      intro name hname
      refine (hcounts hname).2 ?_
      rintro ⟨n, hn, -⟩
      exact hfree n hn
    obtain ⟨c', hmerged⟩ := hlawful.exists_ok hall hfits
    have hspells' := hlawful.spells hmerged
    refine ⟨c', ofJsonWith_eq_ok_iff.2 hmerged, ?_, ?_, ?_, ?_⟩
    · exact hspells'.available.unique (threshold_options hspells.available havailable)
    · exact mem_of_gives_options (by simp [hadds.added_eq]) hspells.allowProperties (hfree _)
        hspells'.allowProperties
    · exact mem_of_gives_options (by simp [hadds.added_eq]) hspells.allowAtRules (hfree _)
        hspells'.allowAtRules
    · exact mem_of_gives_options (by simp [hadds.added_eq]) hspells.allowSelectors (hfree _)
        hspells'.allowSelectors
  · rintro ⟨n, hn⟩
    have hnot {m : ListName} (hm : a.Clashes file m) : ¬ Counts (a.options file) m.snake :=
      fun h => (hcounts (snake_mem_keys_options hm)).1 h ⟨m, hm, rfl⟩
    cases hmerged : validate (a.options file) with
    | ok c' => exact absurd (hlawful.counts hmerged _ (snake_mem_keys_options hn)) (hnot hn)
    | error issues =>
        refine ⟨issues, by rw [ofJsonWith, hmerged]; rfl, fun issue => ?_⟩
        rw [hlawful.mem_issues_iff hfits hmerged]
        constructor
        · rintro ⟨name, hname, hout, rfl⟩
          obtain ⟨m, hm, rfl⟩ := Classical.not_not.1 (mt (hcounts hname).2 hout)
          exact ⟨m, hm, rfl⟩
        · rintro ⟨m, hm, rfl⟩
          exact ⟨_, snake_mem_keys_options hm, hnot hm, rfl⟩

/-- A file with a list under its second spelling that the command line adds to, and
one under its first. -/
theorem options_extend_file_spellings :
    let file : Options := [("allow_selectors", .arr [.str "has"]),
      ("allowProperties", .arr [.str "zoom"])]
    let a : Arguments := { available := some (.int 2021), allowProperties := [some "order".toList] }
    let b : Arguments := { a with allowSelectors := [some "is".toList] }
    (∃ c, ofJsonWith ofOptions (.obj (a.options file)) = .ok c ∧ c.available = .year 2021 ∧
      ∀ t, t ∈ c.allowProperties ↔ t = "zoom".toList ∨ t = "order".toList) ∧
    ∃ issues, ofJsonWith ofOptions (.obj (b.options file)) = .error (.invalid issues) ∧
      .unknown "allow_selectors" ∈ issues := by
  intro file a b
  have hfile : ofJsonWith ofOptions (.obj file) =
      .ok ⟨.widely, ["zoom".toList], [], ["has".toList]⟩ := rfl
  have hproperty : a.Adds ["order".toList] [] [] := ⟨rfl, rfl, rfl⟩
  have hselector : b.Adds ["order".toList] [] ["is".toList] := ⟨rfl, rfl, rfl⟩
  have ha := options_extend_file ofOptions_lawful hfile hproperty (by decide)
  have hb := options_extend_file ofOptions_lawful hfile hselector (by decide)
  have hclash : b.Clashes file selectors :=
    ⟨[some "is".toList], by simp [Arguments.added, b, a], by simp, rfl, rfl⟩
  constructor
  · obtain ⟨c, hc, havailable, hps, -⟩ := ha.1 <| by
      rintro ⟨n, values, hadded, hvalues, hcamel, hsnake⟩
      simp only [Arguments.added, List.mem_cons, Prod.mk.injEq, List.not_mem_nil,
        or_false] at hadded
      rcases hadded with ⟨rfl, _⟩ | ⟨_, rfl⟩ | ⟨_, rfl⟩
      · cases hcamel
      · exact hvalues rfl
      · exact hvalues rfl
    exact ⟨c, hc, havailable, by simpa using hps⟩
  · obtain ⟨issues, hrefused, hmem⟩ := hb.2 ⟨selectors, hclash⟩
    exact ⟨issues, hrefused, (hmem _).2 ⟨selectors, hclash, rfl⟩⟩

/-- A file that is accepted and a flag that is valid make options that are refused. -/
theorem second_spelling_refused :
    let file : Options := [("allow_properties", .arr [.str "accent-color"])]
    let a : Arguments := { allowProperties := [some "backdrop-filter".toList] }
    ofJsonWith ofOptions (.obj file) = .ok { allowProperties := ["accent-color".toList] } ∧
      ofJsonWith ofOptions (.obj (a.options file)) =
        .error (.invalid [.unknown "allow_properties"]) :=
  ⟨rfl, rfl⟩

end Command

end StyleAudit
