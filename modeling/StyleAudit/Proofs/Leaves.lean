import StyleAudit.Tree.Parsing

/-!
# Grouping keeps every token

Grouping by brackets turns a list of tokens into a list of trees. Read from left
to right, the leaves of the trees are the tokens again: `Component.tokens` lists
them, the token that opens a function or a block before its contents and the one
that closes it, if there was one, behind them. The only token that a reader of
components takes without keeping it is the mark of the end, so `leaves` leaves
that one out, and then every reader splits the leaves of what it is given into
those of its result and those of what it leaves.

What has been grouped stays as it is: `Grouped` says that nothing in a component
opens a bracket any more, and on such components a segment is a mere cut. A
recursion over `enclose` goes by `enclose_induct`, which has one case for each
thing that can come next inside a bracket.
-/

namespace StyleAudit

open Component (weights)

/-- The token that closed a bracket, if there was one. -/
def Bracket.closer (b : Bracket) : Option Span → List Token
  | some span => [⟨.closing b, span⟩]
  | none => []

namespace Component

mutual

/-- The tokens that a component was read from. -/
def tokens : Component → List Token
  | token t => [t]
  | function name head values closing =>
      ⟨.function name, head⟩ :: (tokensIn values ++ Bracket.round.closer closing)
  | block bracket opening values closing =>
      ⟨.opening bracket, opening⟩ :: (tokensIn values ++ bracket.closer closing)

/-- The tokens that some components were read from. -/
def tokensIn : List Component → List Token
  | [] => []
  | c :: rest => tokens c ++ tokensIn rest

end

theorem tokensIn_eq_flatMap (cs : List Component) :
    tokensIn cs = cs.flatMap tokens := by
  induction cs with
  | nil => rw [tokensIn, List.flatMap_nil]
  | cons c rest ih => rw [tokensIn, List.flatMap_cons, ih]

theorem tokensIn_append (cs ds : List Component) :
    tokensIn (cs ++ ds) = tokensIn cs ++ tokensIn ds := by
  simp only [tokensIn_eq_flatMap, List.flatMap_append]

theorem tokensIn_token (ts : List Token) : tokensIn (ts.map token) = ts := by
  induction ts with
  | nil => rw [List.map_nil, tokensIn]
  | cons t ts ih => rw [List.map_cons, tokensIn, tokens, ih, List.singleton_append]

theorem tokens_ne_nil (c : Component) : c.tokens ≠ [] := by
  cases c <;> simp [tokens]

/-- The tokens that some components were read from, without marks of the end. -/
def leaves (cs : List Component) : List Token :=
  (tokensIn cs).filter (·.kind ≠ .eof)

@[simp] theorem leaves_nil : leaves [] = [] := by
  rw [leaves, tokensIn, List.filter_nil]

theorem leaves_append (cs ds : List Component) :
    leaves (cs ++ ds) = leaves cs ++ leaves ds := by
  rw [leaves, tokensIn_append, List.filter_append, leaves, leaves]

theorem leaves_cons (c : Component) (rest : List Component) :
    leaves (c :: rest) = leaves [c] ++ leaves rest :=
  leaves_append [c] rest

theorem isEof_token {t : Token} : (token t).isEof = true ↔ t.kind = .eof := by
  simp [isEof, kind?]

theorem not_isEof_token {t : Token} : (token t).isEof = false ↔ t.kind ≠ .eof := by
  simp [isEof, kind?]

theorem leaves_eof {c : Component} (h : c.isEof = true) : leaves [c] = [] := by
  cases c with
  | token t =>
      simp [leaves, tokensIn, tokens, isEof_token.1 h]
  | function => cases h
  | block => cases h

theorem leaves_token {t : Token} (h : t.kind ≠ .eof) : leaves [token t] = [t] := by
  simp [leaves, tokensIn, tokens, h]

end Component

open Component (tokensIn leaves)

theorem Bracket.leaves_closer (b : Bracket) (closing : Option Span) :
    (b.closer closing).filter (·.kind ≠ .eof) = b.closer closing := by
  cases closing <;> rfl

namespace Opening

theorem leaves_of_of? {c : Component} {o : Opening} (h : of? c = some o)
    (values : List Component) (closing : Option Span) :
    leaves [o.component values closing] =
      leaves [c] ++ (leaves values ++ o.bracket.closer closing) := by
  have hcloser := o.bracket.leaves_closer closing
  unfold of? at h
  split at h
  · cases h
    simpa [component, leaves, tokensIn, Component.tokens] using hcloser
  · cases h
    simpa [component, leaves, tokensIn, Component.tokens] using hcloser
  · cases h

end Opening

theorem Component.leaves_closes? {c : Component} {b : Bracket} {span : Span}
    (h : c.closes? b = some span) : leaves [c] = b.closer (some span) := by
  unfold closes? at h
  split at h
  · split at h
    · next heq =>
        cases h
        rw [heq]
        exact leaves_token (by simp)
    · cases h
  · cases h

/-! ## Recursion over what a bracket encloses -/

section enclose

variable {o inner : Opening} {c : Component} {span : Span} (rest : List Component)

theorem enclose_eof (o : Opening) (h : c.isEof = true) :
    enclose o (c :: rest) = ⟨[], none, rest, [⟨o.unclosed, rest⟩]⟩ := by
  rw [enclose_cons, if_pos h]

theorem enclose_closed (heof : c.isEof = false)
    (hcloses : c.closes? o.bracket = some span) :
    enclose o (c :: rest) = ⟨[], some span, rest, []⟩ := by
  simp only [enclose_cons, heof, hcloses, Bool.false_eq_true, if_false]

theorem enclose_opened (heof : c.isEof = false) (hcloses : c.closes? o.bracket = none)
    (hinner : Opening.of? c = some inner) :
    enclose o (c :: rest) =
      ⟨inner.component (enclose inner rest).values (enclose inner rest).closing ::
          (enclose o (enclose inner rest).rest).values,
        (enclose o (enclose inner rest).rest).closing,
        (enclose o (enclose inner rest).rest).rest,
        (enclose inner rest).errors ++
          (enclose o (enclose inner rest).rest).errors⟩ := by
  simp only [enclose_cons o c, heof, hcloses, hinner, Bool.false_eq_true, if_false]

theorem enclose_plain (heof : c.isEof = false) (hcloses : c.closes? o.bracket = none)
    (hopening : Opening.of? c = none) :
    enclose o (c :: rest) =
      ⟨c :: (enclose o rest).values, (enclose o rest).closing,
        (enclose o rest).rest, (enclose o rest).errors⟩ := by
  simp only [enclose_cons o c, heof, hcloses, hopening, Bool.false_eq_true, if_false]

end enclose

/-- What comes next inside a bracket is nothing, the mark of the end, the token
that closes it, a token that opens another one, or anything else. -/
theorem enclose_induct {motive : Opening → List Component → Prop}
    (nil : ∀ o, motive o [])
    (eof : ∀ o c rest, c.isEof = true → motive o (c :: rest))
    (closed : ∀ o c rest span, c.isEof = false →
      c.closes? o.bracket = some span → motive o (c :: rest))
    (opened : ∀ o c rest inner, c.isEof = false → c.closes? o.bracket = none →
      Opening.of? c = some inner → motive inner rest →
      motive o (enclose inner rest).rest → motive o (c :: rest))
    (plain : ∀ o c rest, c.isEof = false → c.closes? o.bracket = none →
      Opening.of? c = none → motive o rest → motive o (c :: rest))
    (o : Opening) (cs : List Component) : motive o cs := by
  cases cs with
  | nil => exact nil o
  | cons c rest =>
      cases heof : c.isEof with
      | true => exact eof o c rest heof
      | false =>
          cases hcloses : c.closes? o.bracket with
          | some span => exact closed o c rest span heof hcloses
          | none =>
              cases hinner : Opening.of? c with
              | some inner =>
                  have hweight := weights_enclose inner rest
                  exact opened o c rest inner heof hcloses hinner
                    (enclose_induct nil eof closed opened plain inner rest)
                    (enclose_induct nil eof closed opened plain o
                      (enclose inner rest).rest)
              | none =>
                  exact plain o c rest heof hcloses hinner
                    (enclose_induct nil eof closed opened plain o rest)
termination_by weights cs
decreasing_by
  all_goals
    have hc := c.weight_pos
    simp only [weights]
    omega

theorem suffix_enclose (o : Opening) (cs : List Component) :
    (enclose o cs).rest <:+ cs := by
  induction o, cs using enclose_induct with
  | nil o => simp [enclose_nil]
  | eof o c rest heof =>
      rw [enclose_eof rest o heof]
      exact List.suffix_cons c rest
  | closed o c rest span heof hcloses =>
      rw [enclose_closed rest heof hcloses]
      exact List.suffix_cons c rest
  | opened o c rest inner heof hcloses hinner ihinner ihmore =>
      rw [enclose_opened rest heof hcloses hinner]
      exact (ihmore.trans ihinner).trans (List.suffix_cons c rest)
  | plain o c rest heof hcloses hopening ih =>
      rw [enclose_plain rest heof hcloses hopening]
      exact ih.trans (List.suffix_cons c rest)

theorem leaves_enclose (o : Opening) (cs : List Component) :
    leaves cs = leaves (enclose o cs).values ++
      (o.bracket.closer (enclose o cs).closing ++ leaves (enclose o cs).rest) := by
  induction o, cs using enclose_induct with
  | nil o => rw [enclose_nil]; rfl
  | eof o c rest heof =>
      rw [enclose_eof rest o heof, Component.leaves_cons, Component.leaves_eof heof]
      rfl
  | closed o c rest span heof hcloses =>
      rw [enclose_closed rest heof hcloses, Component.leaves_cons,
        Component.leaves_closes? hcloses]
      rfl
  | opened o c rest inner heof hcloses hinner ihinner ihmore =>
      rw [enclose_opened rest heof hcloses hinner, Component.leaves_cons, ihinner,
        ihmore]
      dsimp only
      rw [Component.leaves_cons (inner.component _ _),
        Opening.leaves_of_of? hinner]
      simp only [List.append_assoc]
  | plain o c rest heof hcloses hopening ih =>
      rw [enclose_plain rest heof hcloses hopening, Component.leaves_cons, ih]
      dsimp only
      rw [Component.leaves_cons c (enclose o rest).values, List.append_assoc]

/-! ## Grouped components -/

/-- Whether nothing in a component opens a bracket or marks the end. -/
inductive Component.Grouped : Component → Prop where
  | token {t : Token} (hopening : Opening.of? (.token t) = none)
      (heof : t.kind ≠ .eof) : Grouped (.token t)
  | function {name : Text} {head : Span} {values : List Component}
      {closing : Option Span} (h : ∀ c ∈ values, Grouped c) :
      Grouped (.function name head values closing)
  | block {bracket : Bracket} {opening : Span} {values : List Component}
      {closing : Option Span} (h : ∀ c ∈ values, Grouped c) :
      Grouped (.block bracket opening values closing)

namespace Component

variable {c : Component} {cs : List Component}

/-- Whether components are as they come from a source or have been grouped. -/
def Loose (cs : List Component) : Prop := ∀ c ∈ cs, (∃ t, c = .token t) ∨ Grouped c

theorem Loose.of_suffix {ds : List Component} (h : Loose cs) (hds : ds <:+ cs) :
    Loose ds := fun c hc => h c (hds.subset hc)

theorem Loose.of_grouped (h : ∀ c ∈ cs, Grouped c) : Loose cs :=
  fun c hc => .inr (h c hc)

theorem Grouped.isEof (h : Grouped c) : c.isEof = false := by
  cases h with
  | token _ heof => exact not_isEof_token.2 heof
  | function => rfl
  | block => rfl

theorem Grouped.of? (h : Grouped c) : Opening.of? c = none := by
  cases h with
  | token hopening => exact hopening
  | function => rfl
  | block => rfl

/-- No mark of the end is left in a grouped component. -/
theorem Grouped.tokens_ne_eof (h : Grouped c) : ∀ t ∈ c.tokens, t.kind ≠ .eof := by
  have hcloser (b : Bracket) (closing : Option Span) :
      ∀ t ∈ b.closer closing, t.kind ≠ .eof := by
    cases closing <;> simp [Bracket.closer]
  induction h with
  | token _ heof => simpa [tokens] using heof
  | @function name head values closing _ ih
  | @block bracket opening values closing _ ih =>
      intro t ht
      rw [tokens, List.mem_cons, List.mem_append, tokensIn_eq_flatMap,
        List.mem_flatMap] at ht
      rcases ht with rfl | ⟨c, hc, ht⟩ | ht
      · simp
      · exact ih c hc t ht
      · exact hcloser _ closing t ht

theorem leaves_of_grouped (h : ∀ c ∈ cs, Grouped c) : leaves cs = tokensIn cs := by
  rw [leaves, List.filter_eq_self, tokensIn_eq_flatMap]
  intro t ht
  obtain ⟨c, hc, ht⟩ := List.mem_flatMap.1 ht
  simpa using (h c hc).tokens_ne_eof t ht

theorem Loose.grouped {rest : List Component} (h : Loose (c :: rest))
    (heof : c.isEof = false) (hopening : Opening.of? c = none) : Grouped c := by
  rcases h c List.mem_cons_self with ⟨t, rfl⟩ | hc
  · exact .token hopening (not_isEof_token.1 heof)
  · exact hc

end Component

open Component (Grouped Loose)

theorem Opening.grouped_component {o : Opening} {values : List Component}
    (h : ∀ c ∈ values, Grouped c) (closing : Option Span) :
    Grouped (o.component values closing) := by
  unfold component
  split
  · exact .function h
  · exact .block h

theorem grouped_enclose {o : Opening} {cs : List Component} (h : Loose cs) :
    ∀ c ∈ (enclose o cs).values, Grouped c := by
  induction o, cs using enclose_induct with
  | nil o => simp [enclose_nil]
  | eof o c rest heof => simp [enclose_eof rest o heof]
  | closed o c rest span heof hcloses => simp [enclose_closed rest heof hcloses]
  | opened o c rest inner heof hcloses hinner ihinner ihmore =>
      have hrest := h.of_suffix (List.suffix_cons c rest)
      rw [enclose_opened rest heof hcloses hinner]
      simp only [List.forall_mem_cons]
      exact ⟨Opening.grouped_component (ihinner hrest) _,
        ihmore (hrest.of_suffix (suffix_enclose inner rest))⟩
  | plain o c rest heof hcloses hopening ih =>
      rw [enclose_plain rest heof hcloses hopening]
      simp only [List.forall_mem_cons]
      exact ⟨h.grouped heof hopening, ih (h.of_suffix (List.suffix_cons _ rest))⟩

/-! ## Single components and segments -/

section takeValue

variable (c : Component) (rest : List Component)

theorem suffix_takeValue : (takeValue c rest).rest <:+ rest := by
  unfold takeValue
  split
  · next o _ => exact suffix_enclose o rest
  · exact List.suffix_rfl

theorem leaves_takeValue :
    leaves (c :: rest) =
      leaves [(takeValue c rest).value] ++ leaves (takeValue c rest).rest := by
  rw [Component.leaves_cons]
  unfold takeValue
  split
  · next o ho =>
      rw [leaves_enclose o rest, Opening.leaves_of_of? ho]
      simp only [List.append_assoc]
  · rfl

variable {c rest}

theorem grouped_takeValue (h : Loose (c :: rest)) (heof : c.isEof = false) :
    Grouped (takeValue c rest).value := by
  unfold takeValue
  split
  · next o _ =>
      exact Opening.grouped_component
        (grouped_enclose (h.of_suffix (List.suffix_cons c rest))) _
  · next hopening => exact h.grouped heof hopening

end takeValue

theorem takeValue_of_grouped {c : Component} (rest : List Component) (h : Grouped c) :
    takeValue c rest = ⟨c, rest, []⟩ := by
  rw [takeValue, h.of?]

namespace Segment

/-- What a segment has taken: its values, and the block that ended it. -/
def parts (s : Segment) : List Component :=
  s.values ++ (s.block.map Block.component).toList

theorem parts_of_block {s : Segment} {b : Block} (h : s.block = some b) :
    s.parts = s.values ++ [b.component] := by
  rw [parts, h]
  rfl

theorem parts_of_no_block {s : Segment} (h : s.block = none) : s.parts = s.values := by
  rw [parts, h]
  exact List.append_nil _

end Segment

/-! ## Recursion over segments -/

section segment

variable {semicolons braces : Bool} {c : Component} {rest : List Component}

theorem segment_stop (h : (c.isEof || (semicolons && c.isSemicolon)) = true) :
    segment semicolons braces (c :: rest) = ⟨[], none, c :: rest, []⟩ := by
  rw [segment, if_pos h]

theorem segment_block {b : Block}
    (hstop : (c.isEof || (semicolons && c.isSemicolon)) = false) (hbraces : braces = true)
    (hb : (takeValue c rest).value.curly? = some b) :
    segment semicolons braces (c :: rest) =
      ⟨[], some b, (takeValue c rest).rest, (takeValue c rest).errors⟩ := by
  rw [segment, if_neg (by simp [hstop]), if_pos hbraces, hb]

theorem segment_value (hstop : (c.isEof || (semicolons && c.isSemicolon)) = false)
    (hvalue : braces = true → (takeValue c rest).value.curly? = none) :
    segment semicolons braces (c :: rest) =
      ⟨(takeValue c rest).value ::
          (segment semicolons braces (takeValue c rest).rest).values,
        (segment semicolons braces (takeValue c rest).rest).block,
        (segment semicolons braces (takeValue c rest).rest).rest,
        (takeValue c rest).errors ++
          (segment semicolons braces (takeValue c rest).rest).errors⟩ := by
  have hnone : (if braces then (takeValue c rest).value.curly? else none) = none := by
    cases braces with
    | true => exact hvalue rfl
    | false => rfl
  rw [segment, if_neg (by simp [hstop]), hnone]

/-- The next component stops a segment, or is the block that ends it, or goes
into it. -/
theorem segment_induct (semicolons braces : Bool) {motive : List Component → Prop}
    (nil : motive [])
    (stop : ∀ c rest, (c.isEof || (semicolons && c.isSemicolon)) = true →
      motive (c :: rest))
    (block : ∀ c rest b, (c.isEof || (semicolons && c.isSemicolon)) = false →
      braces = true → (takeValue c rest).value.curly? = some b → motive (c :: rest))
    (value : ∀ c rest, (c.isEof || (semicolons && c.isSemicolon)) = false →
      (braces = true → (takeValue c rest).value.curly? = none) →
      motive (takeValue c rest).rest → motive (c :: rest))
    (cs : List Component) : motive cs := by
  induction cs using segment.induct semicolons braces with
  | case1 => exact nil
  | case2 c rest hstop => exact stop c rest hstop
  | case3 c rest hstop b hb =>
      rw [Bool.not_eq_true] at hstop
      cases braces with
      | true => exact block c rest b hstop rfl hb
      | false => cases hb
  | case4 c rest hstop hnone ih =>
      rw [Bool.not_eq_true] at hstop
      refine value c rest hstop (fun hbraces => ?_) ih
      rwa [dif_pos hbraces] at hnone

end segment

section segment

variable (semicolons braces : Bool) {cs : List Component}

theorem suffix_segment : (segment semicolons braces cs).rest <:+ cs := by
  induction cs using segment_induct semicolons braces with
  | nil => simp [segment]
  | stop c rest hstop => simp [segment_stop hstop]
  | block c rest b hstop hbraces hb =>
      rw [segment_block hstop hbraces hb]
      exact (suffix_takeValue c rest).trans (List.suffix_cons c rest)
  | value c rest hstop hvalue ih =>
      rw [segment_value hstop hvalue]
      exact (ih.trans (suffix_takeValue c rest)).trans (List.suffix_cons c rest)

theorem leaves_segment :
    leaves cs = leaves (segment semicolons braces cs).parts ++
      leaves (segment semicolons braces cs).rest := by
  induction cs using segment_induct semicolons braces with
  | nil => rw [segment]; rfl
  | stop c rest hstop => rw [segment_stop hstop]; rfl
  | block c rest b hstop hbraces hb =>
      rw [segment_block hstop hbraces hb, leaves_takeValue,
        Component.curly?_eq_some hb]
      rfl
  | value c rest hstop hvalue ih =>
      rw [segment_value hstop hvalue, leaves_takeValue, ih, ← List.append_assoc,
        ← Component.leaves_append]
      rfl

theorem grouped_segment (h : Loose cs) :
    ∀ c ∈ (segment semicolons braces cs).parts, Grouped c := by
  induction cs using segment_induct semicolons braces with
  | nil => simp [segment, Segment.parts]
  | stop c rest hstop => simp [segment_stop hstop, Segment.parts]
  | block c rest b hstop hbraces hb =>
      have hc := grouped_takeValue h (by simp_all)
      rw [Component.curly?_eq_some hb] at hc
      simpa [segment_block hstop hbraces hb, Segment.parts] using hc
  | value c rest hstop hvalue ih =>
      have hc := grouped_takeValue h (by simp_all)
      have hrest := h.of_suffix ((suffix_takeValue c rest).trans
        (List.suffix_cons c rest))
      rw [segment_value hstop hvalue]
      exact List.forall_mem_cons.2 ⟨hc, ih hrest⟩

/-- A segment of grouped components is a cut: nothing is put together any more. -/
theorem segment_of_grouped (h : ∀ c ∈ cs, Grouped c) :
    (segment semicolons braces cs).parts ++ (segment semicolons braces cs).rest = cs := by
  induction cs using segment_induct semicolons braces with
  | nil => rw [segment]; rfl
  | stop c rest hstop => rw [segment_stop hstop]; rfl
  | block c rest b hstop hbraces hb =>
      rw [segment_block hstop hbraces hb]
      rw [takeValue_of_grouped rest (h c List.mem_cons_self)] at hb ⊢
      rw [show c = b.component from Component.curly?_eq_some hb]
      rfl
  | value c rest hstop hvalue ih =>
      rw [segment_value hstop hvalue]
      rw [takeValue_of_grouped rest (h c List.mem_cons_self)] at ih ⊢
      exact congrArg (c :: ·) (ih (List.forall_mem_cons.1 h).2)

variable {semicolons braces}

/-- A segment without a block goes up to the end, or to a semicolon if it may
end at one. -/
theorem segment_end (h : (segment semicolons braces cs).block = none) :
    (segment semicolons braces cs).rest = [] ∨
      ∃ c rest, (segment semicolons braces cs).rest = c :: rest ∧
        (c.isEof || (semicolons && c.isSemicolon)) = true := by
  induction cs using segment_induct semicolons braces with
  | nil => exact .inl (by rw [segment])
  | stop c rest hstop => exact .inr ⟨c, rest, by rw [segment_stop hstop], hstop⟩
  | block c rest b hstop hbraces hb =>
      rw [segment_block hstop hbraces hb] at h
      cases h
  | value c rest hstop hvalue ih =>
      rw [segment_value hstop hvalue] at h ⊢
      exact ih h

/-- A segment that is closed has ended with a block, or nothing was left, or it
has taken what ended it. -/
theorem close_segment_cases (semicolons braces : Bool) (cs : List Component) :
    (∃ b, (segment semicolons braces cs).block = some b ∧
      (segment semicolons braces cs).close.rest =
        (segment semicolons braces cs).rest) ∨
    (segment semicolons braces cs).block = none ∧
      ((segment semicolons braces cs).rest = [] ∧
        (segment semicolons braces cs).close.rest = [] ∨
      ∃ c, (segment semicolons braces cs).rest =
          c :: (segment semicolons braces cs).close.rest ∧
        (c.isEof || (semicolons && c.isSemicolon)) = true) := by
  cases hb : (segment semicolons braces cs).block with
  | some b => exact .inl ⟨b, rfl, by simp [Segment.close, hb]⟩
  | none =>
      refine .inr ⟨rfl, ?_⟩
      rcases segment_end hb with hrest | ⟨c, rest, hrest, hc⟩
      · exact .inl ⟨hrest, by simp [Segment.close, hb, hrest]⟩
      · exact .inr ⟨c, by simp [Segment.close, hb, hrest], hc⟩

end segment

theorem suffix_close (s : Segment) : s.close.rest <:+ s.rest := by
  unfold Segment.close
  dsimp only
  split
  · exact List.suffix_rfl
  · exact List.drop_suffix 1 s.rest

theorem suffix_atSegment (cs : List Component) : (atSegment cs).rest <:+ cs :=
  (suffix_close _).trans (suffix_segment true true)

theorem suffix_ruleSegment (cs : List Component) : (ruleSegment cs).rest <:+ cs :=
  (suffix_close _).trans (suffix_segment false true)

theorem suffix_itemSegment (c : Component) (rest : List Component) :
    (itemSegment c rest).rest <:+ c :: rest :=
  suffix_segment true _

end StyleAudit
