import StyleAudit.Tree.Grouping
import StyleAudit.Tree.Node

/-!
# From components to nodes

The contents of a block are declarations, rules and at-rules in any order; `styleBlock` reads
them, and reads the blocks of the rules in the same way. `ruleList` reads the outermost level.
Both work on lists of tokens and on lists of components that are already grouped.

In strict mode the first error stops the reading; in tolerant mode errors are recorded and the
construct in question is kept as malformed. An `Outcome` is either, and `Mode.report` is the only
place where the modes differ.
-/

namespace StyleAudit

open Component (weights)

/-- What happens to an error: it stops the reading, or it is recorded. -/
inductive Mode where
  | strict
  | tolerant
deriving DecidableEq, Repr

/-- A finished reading with the errors recorded on the way, or the error that stopped it and what
was left to be read at that moment. -/
inductive Outcome (α : Type) where
  | done (value : α) (errors : List SyntaxError)
  | halted (error : SyntaxError) (rest : List Component)

namespace Outcome

variable {α β : Type}

/-- One reading after another: errors add up, and nothing follows one that was stopped. -/
def bind (x : Outcome α) (f : α → Outcome β) : Outcome β :=
  match x with
  | done a errors =>
    match f a with
    | done b more => done b (errors ++ more)
    | halted e rest => halted e rest
  | halted e rest => halted e rest

instance : Monad Outcome where
  pure a := done a []
  bind := bind

/-- A reading of something inside what is being read: if it is stopped, what is left is what
follows outside. -/
def inside (x : Outcome α) (rest : List Component) : Outcome α :=
  match x with
  | done a errors => done a errors
  | halted e _ => halted e rest

end Outcome

/-- What some errors do: the first one stops the reading, or they are all recorded. -/
def Mode.report (mode : Mode) (errors : List Found) : Outcome Unit :=
  match mode, errors with
  | .strict, e :: _ => .halted e.error e.rest
  | .strict, [] => .done () []
  | .tolerant, errors => .done () (errors.map Found.error)

namespace Segment

/-- The at-rule of a keyword and the segment that follows it, with the nodes of its block. -/
def atRule (s : Segment) (mode : Mode) (keyword : Token) (nodes : Outcome (List Node)) :
    Outcome Node := do
  mode.report s.errors
  let children ← nodes.inside s.rest
  return .atRule keyword.kind.raw keyword.span s.values s.block children

/-- The rule that a segment is, with the nodes of its block. Without a block it is malformed, or
nothing at all if it is empty. -/
def rule? (s : Segment) (mode : Mode) (nodes : Outcome (List Node)) : Outcome (Option Node) := do
  mode.report s.errors
  match s.block, s.values with
  | some block, _ =>
    let children ← nodes.inside s.rest
    return some (.rule s.values block children)
  | none, [] => return none
  | none, c :: _ =>
    let error : SyntaxError := ⟨.ruleNotClosed, c.start⟩
    mode.report [⟨error, s.rest⟩]
    return some (.malformed s.values error)

/-- The item of a block that a segment is: a rule if it ends with a block, else a declaration. -/
def item (s : Segment) (mode : Mode) (nodes : Outcome (List Node)) : Outcome Node := do
  mode.report s.errors
  match s.block with
  | some block =>
    let children ← nodes.inside s.rest
    return .rule s.values block children
  | none =>
    match Declaration.ofComponents s.values with
    | .ok d => return .declaration d
    | .error error =>
      mode.report [⟨error, s.rest⟩]
      return .malformed s.values error

end Segment

/-- The segment of an at-rule, the keyword having been read. -/
def atSegment (cs : List Component) : Segment := (segment true true cs).close

/-- The segment of a rule, its first component included. -/
def ruleSegment (cs : List Component) : Segment := (segment false true cs).close

/-- The segment of an item of a block, its first component included: a block between curly
brackets ends it, unless it is the value of a custom property. -/
def itemSegment (c : Component) (rest : List Component) : Segment :=
  segment true (!(c.ident?.any isCustomProperty)) (c :: rest)

theorem blockWeight_of_block {s : Segment} {b : Block} (h : s.block = some b) :
    s.blockWeight = 1 + weights b.values := by
  unfold Segment.blockWeight
  rw [h]

theorem weights_atSegment_rest (cs : List Component) :
    weights (atSegment cs).rest ≤ weights cs := by
  have := weights_segment true true cs
  have := weights_close (segment true true cs)
  unfold atSegment
  omega

theorem weights_atSegment_block {cs : List Component} {b : Block}
    (h : (atSegment cs).block = some b) : weights b.values < weights cs := by
  have := weights_segment true true cs
  rw [blockWeight_of_block (s := segment true true cs) h] at this
  omega

theorem weights_ruleSegment_rest {c : Component} {rest : List Component} (h : c.isEof = false) :
    weights (ruleSegment (c :: rest)).rest < weights (c :: rest) := by
  have := weights_segment_lt false true c rest (by simp [h])
  have := weights_close (segment false true (c :: rest))
  unfold ruleSegment
  omega

theorem weights_itemSegment_rest {c : Component} {rest : List Component} (h : c.isEof = false)
    (h' : c.isSemicolon = false) : weights (itemSegment c rest).rest < weights (c :: rest) :=
  weights_segment_lt _ _ c rest (by simp [h, h'])

theorem weights_itemSegment_block {c : Component} {rest : List Component} {b : Block}
    (h : (itemSegment c rest).block = some b) : weights b.values < weights (c :: rest) := by
  have := weights_segment true (!(c.ident?.any isCustomProperty)) (c :: rest)
  have hb := blockWeight_of_block h
  unfold itemSegment at hb
  omega

/-- The nodes of the contents of a block. -/
def styleBlock (mode : Mode) (cs : List Component) : Outcome (List Node) :=
  match cs with
  | [] => pure []
  | c :: rest =>
    if c.isWhitespace || c.isSemicolon then styleBlock mode rest
    else if c.isEof then pure []
    else if c.isAtKeyword then do
      let node ← (atSegment rest).atRule mode c.leading
        (match _h : (atSegment rest).block with
         | some block => styleBlock mode block.values
         | none => pure [])
      let nodes ← styleBlock mode (atSegment rest).rest
      return node :: nodes
    else do
      let node ← (itemSegment c rest).item mode
        (match _h : (itemSegment c rest).block with
         | some block => styleBlock mode block.values
         | none => pure [])
      let nodes ← styleBlock mode (itemSegment c rest).rest
      return node :: nodes
termination_by weights cs
decreasing_by
  all_goals have hc := c.weight_pos
  · simp only [weights]; omega
  · have := weights_atSegment_block _h; simp only [weights]; omega
  · have := weights_atSegment_rest rest; simp only [weights]; omega
  · exact weights_itemSegment_block _h
  · exact weights_itemSegment_rest (by simp_all) (by simp_all)

/-- The nodes of the block of a segment, if it has one. -/
def contents (mode : Mode) (block : Option Block) : Outcome (List Node) :=
  match block with
  | some block => styleBlock mode block.values
  | none => pure []

theorem styleBlock_nil (mode : Mode) : styleBlock mode [] = pure [] := by
  rw [styleBlock]

theorem styleBlock_cons (mode : Mode) (c : Component) (rest : List Component) :
    styleBlock mode (c :: rest) =
      if c.isWhitespace || c.isSemicolon then styleBlock mode rest
      else if c.isEof then pure []
      else if c.isAtKeyword then do
        let node ← (atSegment rest).atRule mode c.leading (contents mode (atSegment rest).block)
        let nodes ← styleBlock mode (atSegment rest).rest
        return node :: nodes
      else do
        let node ← (itemSegment c rest).item mode (contents mode (itemSegment c rest).block)
        let nodes ← styleBlock mode (itemSegment c rest).rest
        return node :: nodes := by
  have hcontents (block : Option Block) : contents mode block =
      match _h : block with
        | some b => styleBlock mode b.values
        | none => pure [] := by
    cases block <;> rfl
  rw [styleBlock, hcontents, hcontents]

/-- The rules of a list of components. On the outermost level of a source the marks that hide a
stylesheet inside another document are passed over. -/
def ruleList (mode : Mode) (outermost : Bool) (cs : List Component) : Outcome (List Node) :=
  match cs with
  | [] => pure []
  | c :: rest =>
    if c.isWhitespace || (outermost && c.isDocumentMark) then ruleList mode outermost rest
    else if c.isEof then pure []
    else if c.isAtKeyword then do
      let s := atSegment rest
      let node ← s.atRule mode c.leading (contents mode s.block)
      let nodes ← ruleList mode outermost s.rest
      return node :: nodes
    else do
      let s := ruleSegment (c :: rest)
      let node? ← s.rule? mode (contents mode s.block)
      let nodes ← ruleList mode outermost s.rest
      return node?.toList ++ nodes
termination_by weights cs
decreasing_by
  all_goals have hc := c.weight_pos
  · simp only [weights]; omega
  · have := weights_atSegment_rest rest; simp only [weights]; omega
  · exact weights_ruleSegment_rest (by simp_all)

end StyleAudit
