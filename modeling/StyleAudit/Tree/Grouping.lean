import StyleAudit.Source.SyntaxError
import StyleAudit.Tree.Component

/-!
# Grouping by brackets

`enclose` reads the contents of a bracket that has been opened, up to the token that closes it;
a bracket that is opened inside is read first, in the same way. A closing token that is not the
one waited for is an ordinary component. At the end of the source every bracket that is still
open is an error, the innermost first.

`segment` reads components up to where a construct ends: at the end of the source, at a semicolon
or at a block between curly brackets, according to the construct. Neither makes the components
heavier, which is what lets their readers end.
-/

namespace StyleAudit

open Component (weights)

/-- A token that opens a bracket or a function. -/
structure Opening where
  name? : Option Text
  bracket : Bracket
  span : Span

namespace Opening

/-- What a component opens, if it is a token that opens something. -/
def of? : Component → Option Opening
  | .token ⟨.opening bracket, span⟩ => some ⟨none, bracket, span⟩
  | .token ⟨.function name, span⟩ => some ⟨some name, .round, span⟩
  | _ => none

/-- The function or block that was opened, with its contents. -/
def component (o : Opening) (values : List Component) (closing : Option Span) : Component :=
  match o.name? with
  | some name => .function name o.span values closing
  | none => .block o.bracket o.span values closing

/-- The error of not being closed. -/
def unclosed (o : Opening) : SyntaxError :=
  ⟨if o.name?.isSome then .functionNotClosed else .blockNotClosed, o.span.start⟩

theorem weight_component (o : Opening) (values : List Component) (closing : Option Span) :
    (o.component values closing).weight = 1 + weights values := by
  unfold component
  split <;> simp only [Component.weight]

end Opening

/-- The span of a component that is the closing half of a bracket. -/
def Component.closes? (bracket : Bracket) : Component → Option Span
  | .token ⟨.closing b, span⟩ => if b = bracket then some span else none
  | _ => none

/-- An error, and what was left to be read when it was found. -/
structure Found where
  error : SyntaxError
  rest : List Component

/-- The contents of a bracket, the span of the token that closed it if there was one, what
follows, and the errors of brackets that were not closed. -/
structure Enclosed where
  values : List Component
  closing : Option Span
  rest : List Component
  errors : List Found

/-- `enclose`, with the proof that nothing gets heavier. -/
def encloseBounded (o : Opening) (cs : List Component) :
    { e : Enclosed // weights e.values + weights e.rest ≤ weights cs } :=
  match cs with
  | [] => ⟨⟨[], none, [], [⟨o.unclosed, []⟩]⟩, Nat.le_refl _⟩
  | c :: rest =>
    have hc := c.weight_pos
    if c.isEof then ⟨⟨[], none, rest, [⟨o.unclosed, rest⟩]⟩, by simp only [weights]; omega⟩
    else match c.closes? o.bracket with
      | some span => ⟨⟨[], some span, rest, []⟩, by simp only [weights]; omega⟩
      | none => match Opening.of? c with
        | some inner =>
          match encloseBounded inner rest with
          | ⟨contents, hcontents⟩ =>
            match encloseBounded o contents.rest with
            | ⟨more, hmore⟩ =>
              ⟨⟨inner.component contents.values contents.closing :: more.values, more.closing,
                  more.rest, contents.errors ++ more.errors⟩,
                by simp only [weights, Opening.weight_component]; omega⟩
        | none =>
          match encloseBounded o rest with
          | ⟨more, hmore⟩ =>
            ⟨⟨c :: more.values, more.closing, more.rest, more.errors⟩,
              by simp only [weights]; omega⟩
termination_by weights cs
decreasing_by all_goals simp only [weights]; omega

/-- What an opening encloses. -/
def enclose (o : Opening) (cs : List Component) : Enclosed := (encloseBounded o cs).1

theorem weights_enclose (o : Opening) (cs : List Component) :
    weights (enclose o cs).values + weights (enclose o cs).rest ≤ weights cs :=
  (encloseBounded o cs).2

theorem enclose_nil (o : Opening) : enclose o [] = ⟨[], none, [], [⟨o.unclosed, []⟩]⟩ := by
  unfold enclose
  rw [encloseBounded]

theorem enclose_cons (o : Opening) (c : Component) (rest : List Component) :
    enclose o (c :: rest) =
      if c.isEof then ⟨[], none, rest, [⟨o.unclosed, rest⟩]⟩
      else match c.closes? o.bracket with
        | some span => ⟨[], some span, rest, []⟩
        | none => match Opening.of? c with
          | some inner =>
            let contents := enclose inner rest
            let more := enclose o contents.rest
            ⟨inner.component contents.values contents.closing :: more.values, more.closing,
              more.rest, contents.errors ++ more.errors⟩
          | none =>
            let more := enclose o rest
            ⟨c :: more.values, more.closing, more.rest, more.errors⟩ := by
  unfold enclose
  rw [encloseBounded]
  split
  · rfl
  · split
    · rfl
    · split <;> rfl

/-! ## Single components -/

/-- A component, what follows it, and the errors of brackets that were not closed in it. -/
structure Taken where
  value : Component
  rest : List Component
  errors : List Found

/-- The component that starts with `c`, with all that it encloses. -/
def takeValue (c : Component) (rest : List Component) : Taken :=
  match Opening.of? c with
  | some o =>
    let contents := enclose o rest
    ⟨o.component contents.values contents.closing, contents.rest, contents.errors⟩
  | none => ⟨c, rest, []⟩

theorem weight_takeValue (c : Component) (rest : List Component) :
    (takeValue c rest).value.weight + weights (takeValue c rest).rest
      ≤ c.weight + weights rest := by
  unfold takeValue
  split
  · next o _ =>
    have := weights_enclose o rest
    have := c.weight_pos
    simp only [Opening.weight_component]
    omega
  · exact Nat.le_refl _

/-! ## Segments -/

/-- Components up to where a construct ends: those before the end, the block that ends it if one
does, what follows, and the errors of brackets that were not closed. A semicolon or the end of
the source that ended the segment is still there in what follows. -/
structure Segment where
  values : List Component
  block : Option Block
  rest : List Component
  errors : List Found

/-- The segment at the start of a list of components. It may end at a semicolon if `semicolons`
is set, and with a block between curly brackets if `braces` is. -/
def segment (semicolons braces : Bool) (cs : List Component) : Segment :=
  match cs with
  | [] => ⟨[], none, [], []⟩
  | c :: rest =>
    if c.isEof || (semicolons && c.isSemicolon) then ⟨[], none, c :: rest, []⟩
    else match if braces then (takeValue c rest).value.curly? else none with
      | some block => ⟨[], some block, (takeValue c rest).rest, (takeValue c rest).errors⟩
      | none =>
        let more := segment semicolons braces (takeValue c rest).rest
        ⟨(takeValue c rest).value :: more.values, more.block, more.rest,
          (takeValue c rest).errors ++ more.errors⟩
termination_by weights cs
decreasing_by
  have hweight := weight_takeValue c rest
  have hvalue := (takeValue c rest).value.weight_pos
  simp only [weights]
  omega

namespace Segment

/-- A segment that has also taken the semicolon or the end of the source that ended it. -/
def close (s : Segment) : Segment :=
  { s with rest := if s.block.isSome then s.rest else s.rest.drop 1 }

/-- The number of tokens, functions and blocks in the contents of the block. -/
def blockWeight (s : Segment) : Nat :=
  match s.block with
  | some b => 1 + weights b.values
  | none => 0

end Segment

theorem weights_segment (semicolons braces : Bool) (cs : List Component) :
    weights (segment semicolons braces cs).values + (segment semicolons braces cs).blockWeight
      + weights (segment semicolons braces cs).rest ≤ weights cs := by
  fun_induction segment semicolons braces cs with
  | case1 => simp [Segment.blockWeight, weights]
  | case2 c rest h => simp [Segment.blockWeight, weights]
  | case3 c rest _ block hblock =>
    have hcurly : (takeValue c rest).value.curly? = some block := by
      cases braces with
      | true => exact hblock
      | false => cases hblock
    have hvalue : (takeValue c rest).value.weight = 1 + weights block.values := by
      rw [Component.curly?_eq_some hcurly]
      simp only [Block.component, Component.weight]
    have hweight := weight_takeValue c rest
    simp only [Segment.blockWeight, weights]
    omega
  | case4 c rest _ _ more ih =>
    have hweight := weight_takeValue c rest
    simp only [Segment.blockWeight, weights, more] at ih ⊢
    omega

theorem weights_drop_one (cs : List Component) : weights (cs.drop 1) ≤ weights cs := by
  cases cs with
  | nil => exact Nat.le_refl _
  | cons c rest =>
    simp only [List.drop_succ_cons, List.drop_zero, weights]
    omega

theorem weights_close (s : Segment) : weights s.close.rest ≤ weights s.rest := by
  unfold Segment.close
  simp only
  split
  · exact Nat.le_refl _
  · exact weights_drop_one s.rest

/-- A segment takes something, unless it ends at once. -/
theorem weights_segment_lt (semicolons braces : Bool) (c : Component) (rest : List Component)
    (h : (c.isEof || (semicolons && c.isSemicolon)) = false) :
    weights (segment semicolons braces (c :: rest)).rest < weights (c :: rest) := by
  have hweight := weight_takeValue c rest
  have hpos := (takeValue c rest).value.weight_pos
  rw [segment]
  simp only [h, Bool.false_eq_true, if_false, weights]
  split
  · simp only
    omega
  · have := weights_segment semicolons braces (takeValue c rest).rest
    simp only
    omega

end StyleAudit
