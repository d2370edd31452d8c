import StyleAudit.Proofs.OwnTokens

/-!
# What stands in lists of components

A source gives tokens, and grouping makes functions and blocks of some of them. What is
left as a token in a list of components has not opened anything, and the readers pass over
comments and stop at the mark of the end; and the closing token of a function or block is
never among what it encloses, since it would have closed it. `Component.Tidy` says this of
a component and of all that is in it.

For a single component it is read off the two readers of brackets, `enclose` and `segment`.
For the tree of a source it has to be shown of the outermost level only: the nodes of a
block are laid out of components that are tidy already.
-/

namespace StyleAudit

/-- Whether a token stays a token when brackets are grouped: it opens nothing, and it is
neither a comment nor the mark of the end. -/
def Token.Kind.isPlain : Token.Kind → Bool
  | opening _ | function _ | comment _ | eof => false
  | _ => true

namespace Component

/-- Whether all tokens in a component are plain, and none in a function or a block would
have closed it. -/
inductive Tidy : Component → Prop where
  | token {t : Token} (h : t.kind.isPlain = true) : Tidy (.token t)
  | function {name : Text} {head : Span} {values : List Component} {closing : Option Span}
      (hvalues : ∀ c ∈ values, Tidy c) (hcloser : ∀ span, .token ⟨.closing .round, span⟩ ∉ values) :
      Tidy (.function name head values closing)
  | block {bracket : Bracket} {opening : Span} {values : List Component} {closing : Option Span}
      (hvalues : ∀ c ∈ values, Tidy c)
      (hcloser : ∀ span, .token ⟨.closing bracket, span⟩ ∉ values) :
      Tidy (.block bracket opening values closing)

theorem Tidy.grouped {c : Component} (h : c.Tidy) : c.Grouped := by
  induction h with
  | @token t hplain =>
      obtain ⟨kind, span⟩ := t
      cases kind with
      | opening | function | eof => cases hplain
      | _ => exact .token rfl nofun
  | function _ _ ih => exact .function ih
  | block _ _ ih => exact .block ih

/-- Whether components are tokens without comments among them, as a source gives them. -/
def Bare (cs : List Component) : Prop := ∀ c ∈ cs, ∃ t, c = .token t ∧ t.kind.isComment = false

section Tidy

variable {c : Component} {cs rest : List Component} {o : Opening}

theorem Bare.of_suffix {ds : List Component} (h : Bare cs) (hds : ds <:+ cs) : Bare ds :=
  fun c hc => h c (hds.subset hc)

theorem Bare.tidy (h : Bare (c :: rest)) (heof : c.isEof = false)
    (hopening : Opening.of? c = none) : c.Tidy := by
  obtain ⟨⟨kind, span⟩, rfl, hcomment⟩ := h c List.mem_cons_self
  refine .token ?_
  cases kind with
  | opening | function => cases hopening
  | comment => cases hcomment
  | eof => cases heof
  | _ => rfl

theorem tidy_component {values : List Component} (hvalues : ∀ c ∈ values, c.Tidy)
    (hcloser : ∀ c ∈ values, c.closes? o.bracket = none)
    (hround : o.name?.isSome → o.bracket = .round) (closing : Option Span) :
    (o.component values closing).Tidy := by
  have hnone : ∀ span, Component.token ⟨.closing o.bracket, span⟩ ∉ values := by
    intro span hmem
    have hcloses := hcloser _ hmem
    rw [closes?, if_pos rfl] at hcloses
    cases hcloses
  unfold Opening.component
  split
  · next name hname => exact .function hvalues (hround (by rw [hname]; rfl) ▸ hnone)
  · exact .block hvalues hnone

theorem of?_round {c : Component} (h : Opening.of? c = some o) :
    o.name?.isSome → o.bracket = .round := by
  unfold Opening.of? at h
  split at h
  · cases h
    nofun
  · cases h
    exact fun _ => rfl
  · cases h

theorem tidy_enclose (h : Bare cs) :
    ∀ c ∈ (enclose o cs).values, c.Tidy ∧ c.closes? o.bracket = none := by
  induction o, cs using enclose_induct with
  | nil o => simp [enclose_nil]
  | eof o c rest heof => simp [enclose_eof rest o heof]
  | closed o c rest span heof hcloses => simp [enclose_closed rest heof hcloses]
  | opened o c rest inner heof hcloses hinner ihinner ihmore =>
      have hrest := h.of_suffix (List.suffix_cons c rest)
      have hvalues := ihinner hrest
      rw [enclose_opened rest heof hcloses hinner]
      refine List.forall_mem_cons.2 ⟨⟨?_, ?_⟩, ihmore (hrest.of_suffix (suffix_enclose inner rest))⟩
      · exact tidy_component (fun c hc => (hvalues c hc).1) (fun c hc => (hvalues c hc).2)
          (of?_round hinner) _
      · unfold Opening.component
        split <;> rfl
  | plain o c rest heof hcloses hopening ih =>
      rw [enclose_plain rest heof hcloses hopening]
      exact List.forall_mem_cons.2
        ⟨⟨h.tidy heof hopening, hcloses⟩, ih (h.of_suffix (List.suffix_cons c rest))⟩

theorem tidy_takeValue (h : Bare (c :: rest)) (heof : c.isEof = false) :
    (takeValue c rest).value.Tidy := by
  unfold takeValue
  split
  · next o hopening =>
      have hvalues := tidy_enclose (o := o) (h.of_suffix (List.suffix_cons c rest))
      exact tidy_component (fun c hc => (hvalues c hc).1) (fun c hc => (hvalues c hc).2)
        (of?_round hopening) _
  · next hopening => exact h.tidy heof hopening

theorem tidy_segment (semicolons braces : Bool) (h : Bare cs) :
    ∀ c ∈ (segment semicolons braces cs).parts, c.Tidy := by
  induction cs using segment_induct semicolons braces with
  | nil => simp [segment, Segment.parts]
  | stop c rest hstop => simp [segment_stop hstop, Segment.parts]
  | block c rest b hstop hbraces hb =>
      have hc := tidy_takeValue h (by simp_all)
      rw [Component.curly?_eq_some hb] at hc
      simpa [segment_block hstop hbraces hb, Segment.parts] using hc
  | value c rest hstop hvalue ih =>
      have hc := tidy_takeValue h (by simp_all)
      have hrest := h.of_suffix ((suffix_takeValue c rest).trans (List.suffix_cons c rest))
      rw [segment_value hstop hvalue]
      exact List.forall_mem_cons.2 ⟨hc, ih hrest⟩

end Tidy

end Component

namespace Node

/-- The components that a node keeps: its value, or its prelude and its block. -/
def held : Node → List Component
  | declaration d => d.values
  | rule prelude block _ => prelude ++ [block.component]
  | atRule _ _ prelude block _ => prelude ++ (block.map Block.component).toList
  | malformed values _ => values

/-- Whether all components that a node keeps are tidy. -/
def Tidy (n : Node) : Prop := ∀ c ∈ n.held, c.Tidy

section Tidy

variable {b : Block} {cs own : List Component} {nodes children : List Node}

theorem tidy_values (h : b.component.Tidy) : ∀ c ∈ b.values, c.Tidy := by
  cases h with
  | block hvalues => exact hvalues

theorem tidy_declaration {d : Declaration} (hown : d.Spelled own) (h : ∀ c ∈ own, c.Tidy) :
    (declaration d).Tidy := by
  cases hown with
  | intro =>
      intro c hc
      have hvalue : c ∈ d.values := hc
      exact h c (by simp [hvalue])

theorem tidy_of_laid (h : Laid cs nodes) (hcs : ∀ c ∈ cs, c.Tidy) :
    ∀ n ∈ withinAll nodes, n.Tidy := by
  intro n hn
  induction h with
  | done => exact absurd hn not_mem_withinAll_nil
  | separator _ _ ih => exact ih (List.forall_mem_cons.1 hcs).2 hn
  | declaration hown _ ih =>
      obtain ⟨hfirst, hrest⟩ := List.forall_mem_append.1 hcs
      rcases mem_withinAll_leaf (by rw [within]) hn with rfl | hn
      · exact tidy_declaration hown hfirst
      · exact ih hrest hn
  | @rule prelude cs block children nodes _ _ ihchildren ih =>
      obtain ⟨hprelude, hrest⟩ := List.forall_mem_append.1 hcs
      obtain ⟨hblock, hrest⟩ := List.forall_mem_cons.1 hrest
      rcases mem_withinAll_rule hn with rfl | hn | hn
      · exact List.forall_mem_append.2 ⟨hprelude, List.forall_mem_singleton.2 hblock⟩
      · exact ihchildren (tidy_values hblock) hn
      · exact ih hrest hn
  | @atRule name span prelude cs block children nodes _ _ ihchildren ih =>
      obtain ⟨hprelude, hrest⟩ := List.forall_mem_append.1 (List.forall_mem_cons.1 hcs).2
      obtain ⟨hblock, hrest⟩ := List.forall_mem_cons.1 hrest
      rcases mem_withinAll_atRule hn with rfl | hn | hn
      · exact List.forall_mem_append.2 ⟨hprelude, List.forall_mem_singleton.2 hblock⟩
      · exact ihchildren (tidy_values hblock) hn
      · exact ih hrest hn
  | statement _ _ ih =>
      obtain ⟨hprelude, hrest⟩ := List.forall_mem_append.1 (List.forall_mem_cons.1 hcs).2
      rcases mem_withinAll_atRule hn with rfl | hn | hn
      · exact List.forall_mem_append.2 ⟨hprelude, List.forall_mem_nil _⟩
      · exact absurd hn not_mem_withinAll_nil
      · exact ih (List.forall_mem_cons.1 hrest).2 hn
  | unended =>
      rcases mem_withinAll_atRule hn with rfl | hn | hn
      · exact List.forall_mem_append.2 ⟨(List.forall_mem_cons.1 hcs).2, List.forall_mem_nil _⟩
      all_goals exact absurd hn not_mem_withinAll_nil
  | malformed _ _ ih =>
      obtain ⟨hfirst, hrest⟩ := List.forall_mem_append.1 hcs
      rcases mem_withinAll_leaf (by rw [within]) hn with rfl | hn
      · exact hfirst
      · exact ih hrest hn

/-- The nodes in the block of a segment, if it has one. -/
theorem tidy_of_laidIn {block : Option Block} (h : LaidIn block children)
    (hblock : ∀ b, block = some b → b.component.Tidy) : ∀ n ∈ withinAll children, n.Tidy := by
  cases block with
  | none =>
      obtain rfl : children = [] := h
      exact fun _ hn => absurd hn not_mem_withinAll_nil
  | some b => exact tidy_of_laid h (tidy_values (hblock b rfl))

/-- What a segment has taken is kept by its node. -/
theorem tidy_values_append {s : Segment} (h : ∀ c ∈ s.parts, c.Tidy) :
    (∀ c ∈ s.values ++ (s.block.map Block.component).toList, c.Tidy) ∧
      ∀ b, s.block = some b → b.component.Tidy := by
  refine ⟨h, fun b hb => h b.component ?_⟩
  rw [Segment.parts_of_block hb]
  exact List.mem_append_right _ (List.mem_singleton_self _)

theorem tidy_outer {s : Segment} {n? : Option Node} (h : ∀ c ∈ s.parts, c.Tidy)
    (hn : s.Outer (LaidIn s.block) n?) (hnodes : ∀ n ∈ withinAll nodes, n.Tidy) :
    ∀ n ∈ withinAll (n?.toList ++ nodes), n.Tidy := by
  intro n hmem
  obtain ⟨hparts, hblock⟩ := tidy_values_append h
  cases hn with
  | @rule b children hb hchildren =>
      rw [hb] at hparts
      rcases mem_withinAll_rule hmem with rfl | hmem | hmem
      · exact hparts
      · exact tidy_of_laidIn hchildren hblock n hmem
      · exact hnodes n hmem
  | blank => exact hnodes n hmem
  | malformed hb =>
      rw [hb] at hparts
      rcases mem_withinAll_leaf (by rw [within]) hmem with rfl | hmem
      · exact (List.forall_mem_append.1 hparts).1
      · exact hnodes n hmem

theorem tidy_ruleList (mode : Mode) (h : Component.Bare cs) :
    Outcome.Ensures (fun nodes => ∀ n ∈ withinAll nodes, n.Tidy) (ruleList mode true cs) := by
  have hnone : ∀ n ∈ withinAll [], n.Tidy :=
    fun _ hn => absurd hn not_mem_withinAll_nil
  induction cs using ruleList.induct true with
  | case1 =>
      rw [ruleList]
      exact .pure hnone
  | case2 c rest hskip ih =>
      rw [ruleList, if_pos hskip]
      exact ih (h.of_suffix (List.suffix_cons _ rest))
  | case3 c rest hskip heof =>
      rw [ruleList, if_neg hskip, if_pos heof]
      exact .pure hnone
  | case4 c rest hskip heof hat s ih =>
      rw [ruleList, if_neg hskip, if_neg heof, if_pos hat]
      have hrest := h.of_suffix (List.suffix_cons c rest)
      have hparts : ∀ c ∈ s.parts, c.Tidy := Component.tidy_segment true true hrest
      obtain ⟨hheld, hblock⟩ := tidy_values_append hparts
      have hcontents := contents_laid mode fun b hb =>
        grouped_block hb fun c hc => (hparts c hc).grouped
      refine (Segment.atRule_ensures _ hcontents).bind fun n hn =>
        (ih (hrest.of_suffix (suffix_atSegment rest))).bind fun nodes hnodes => .pure ?_
      obtain ⟨children, hchildren, rfl⟩ := hn
      intro n hn
      rcases mem_withinAll_atRule hn with rfl | hn | hn
      · exact hheld
      · exact tidy_of_laidIn hchildren hblock n hn
      · exact hnodes n hn
  | case5 c rest hskip heof hat s ih =>
      rw [ruleList, if_neg hskip, if_neg heof, if_neg hat]
      have hparts : ∀ d ∈ s.parts, d.Tidy := Component.tidy_segment false true h
      have hcontents := contents_laid mode fun b hb =>
        grouped_block hb fun c hc => (hparts c hc).grouped
      have hafter := ih (h.of_suffix (suffix_ruleSegment (c :: rest)))
      exact (Segment.rule?_ensures hcontents).bind fun n? hn =>
        hafter.bind fun nodes hnodes => .pure (tidy_outer hparts hn hnodes)

end Tidy

end Node

namespace Stylesheet

theorem bare_components (ts : List Token) : Component.Bare (components ts) := by
  intro c hc
  obtain ⟨t, ht, rfl⟩ := List.mem_map.1 hc
  exact ⟨t, rfl, by simpa using (List.mem_filter.1 ht).2⟩

/-- Every list of components in the tree of a source is tidy. -/
theorem tidy_of_parse (source : Text) :
    ∃ sheet, parse .tolerant source = .ok sheet ∧ ∀ n ∈ Node.withinAll sheet.rules, n.Tidy := by
  obtain ⟨rules, errors, hrules⟩ :=
    exists_ruleList_tolerant (components (Source.tokenize source).tokens)
  have htidy : Outcome.Ensures _ _ :=
    Node.tidy_ruleList .tolerant (bare_components (Source.tokenize source).tokens)
  rw [hrules] at htidy
  exact ⟨_, parse_tolerant_of_ruleList hrules, htidy⟩

end Stylesheet

end StyleAudit
