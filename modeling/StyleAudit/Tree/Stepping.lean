import StyleAudit.Cursor
import StyleAudit.Tree.Stylesheet

/-!
# Reading components step by step

The readers of components, rules and blocks, applied where a cursor stands in a list of
components. A step that is stopped by an error leaves the cursor where it was stopped; no step
can be made from a cursor that is lost.
-/

namespace StyleAudit.Tree

/-- A cursor over components, the mode, and the errors recorded so far. -/
structure Reader where
  cursor : Cursor Component
  mode : Mode
  errors : List SyntaxError

namespace Reader

/-- The mark of the end that is read where a list of components has none. -/
def missing : Component := .token ⟨.eof, ⟨.start, .start⟩⟩

/-- A reader at the start of a list of components. -/
def ofComponents (mode : Mode) (cs : List Component) : Reader := ⟨.ofList cs, mode, []⟩

/-- A reader at the start of a source. In strict mode an error of the tokens is the result. -/
def ofSource (mode : Mode) (source : Text) : Except SyntaxError Reader :=
  let lexed := Source.tokenize source
  let cursor := Cursor.ofList (Stylesheet.components lexed.tokens)
  match mode, lexed.errors with
  | .strict, error :: _ => .error error
  | .strict, [] => .ok ⟨cursor, mode, []⟩
  | .tolerant, errors => .ok ⟨cursor, mode, errors⟩

/-- The component a number of places on. -/
def peek (r : Reader) (amount : Int) : Except Lost Component :=
  (r.cursor.peek amount).map fun c => c.getD missing

/-- The reader one step back. -/
def back (r : Reader) : Reader := { r with cursor := r.cursor.back }

/-- A step from where the cursor stands. -/
def attempt {α : Type} (r : Reader) (step : α × Reader) : Except Lost (α × Reader) :=
  if r.cursor.isLost then .error .lost else .ok step

/-- The next component and the reader behind it, the cursor not being lost. -/
def advance (r : Reader) : Component × Reader :=
  match r.cursor.ahead with
  | [] => (missing, r)
  | c :: _ => (c, { r with cursor := r.cursor.forth })

/-- The next component, and the reader behind it. -/
def next (r : Reader) : Except Lost (Component × Reader) := r.attempt r.advance

/-- The reader behind the white space ahead. -/
def skipWhitespace (r : Reader) : Except Lost (Unit × Reader) :=
  r.attempt ((), { r with
    cursor := r.cursor.leave (r.cursor.ahead.dropWhile Component.isWhitespace) })

/-- The result of a reading that leaves `rest` if it is not stopped. -/
def finish {α : Type} (r : Reader) (rest : List Component) :
    Outcome α → Except SyntaxError α × Reader
  | .done value errors =>
    (.ok value, { r with cursor := r.cursor.leave rest, errors := r.errors ++ errors })
  | .halted error rest => (.error error, { r with cursor := r.cursor.leave rest })

/-- The next component with all that it encloses. -/
def value (r : Reader) : Except Lost (Except SyntaxError Component × Reader) :=
  let (c, after) := r.advance
  let taken := takeValue c after.cursor.ahead
  r.attempt (after.finish taken.rest do
    r.mode.report taken.errors
    return taken.value)

/-- The at-rule ahead, whatever its keyword is: the component that stands in its place, and the
rule. -/
def atRule (r : Reader) : Except Lost ((Component × Except SyntaxError Node) × Reader) :=
  let (c, after) := r.advance
  let s := atSegment after.cursor.ahead
  let (node, left) := after.finish s.rest (s.atRule r.mode c.leading (contents r.mode s.block))
  r.attempt ((c, node), left)

/-- The rule ahead, if there is one. -/
def rule? (r : Reader) : Except Lost (Except SyntaxError (Option Node) × Reader) :=
  let s := ruleSegment r.cursor.ahead
  r.attempt (r.finish s.rest (s.rule? r.mode (contents r.mode s.block)))

/-- What follows all the rules of a list of components. -/
def afterRules (outermost : Bool) (cs : List Component) : List Component :=
  match cs with
  | [] => []
  | c :: rest =>
    if c.isWhitespace || (outermost && c.isDocumentMark) then afterRules outermost rest
    else if c.isEof then rest
    else if c.isAtKeyword then afterRules outermost (atSegment rest).rest
    else afterRules outermost (ruleSegment (c :: rest)).rest
termination_by Component.weights cs
decreasing_by
  all_goals have hc := c.weight_pos
  · simp only [Component.weights]; omega
  · have := weights_atSegment_rest rest; simp only [Component.weights]; omega
  · exact weights_ruleSegment_rest (by simp_all)

/-- What follows all the items of a block. -/
def afterItems (cs : List Component) : List Component :=
  match cs with
  | [] => []
  | c :: rest =>
    if c.isWhitespace || c.isSemicolon then afterItems rest
    else if c.isEof then rest
    else if c.isAtKeyword then afterItems (atSegment rest).rest
    else afterItems (itemSegment c rest).rest
termination_by Component.weights cs
decreasing_by
  all_goals have hc := c.weight_pos
  · simp only [Component.weights]; omega
  · have := weights_atSegment_rest rest; simp only [Component.weights]; omega
  · exact weights_itemSegment_rest (by simp_all) (by simp_all)

/-- All the rules ahead. -/
def rules (r : Reader) (outermost : Bool) : Except Lost (Except SyntaxError (List Node) × Reader) :=
  r.attempt (r.finish (afterRules outermost r.cursor.ahead)
    (ruleList r.mode outermost r.cursor.ahead))

/-- All the items of a block ahead. -/
def items (r : Reader) : Except Lost (Except SyntaxError (List Node) × Reader) :=
  r.attempt (r.finish (afterItems r.cursor.ahead) (styleBlock r.mode r.cursor.ahead))

end Reader

end StyleAudit.Tree
