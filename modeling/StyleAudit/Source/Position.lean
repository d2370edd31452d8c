import StyleAudit.Text.Basic

/-!
# Places in a source

A position is a line and a column, both counted from one. Reading a line feed goes to the start
of the next line and reading anything else one column on; the position of an offset is where
reading that many code points leads. Beyond the end the column goes on counting.
-/

namespace StyleAudit

/-- A line and a column, counted from one. -/
structure Position where
  line : Int
  column : Int
deriving DecidableEq, Repr, Inhabited

namespace Position

/-- The first line and column. -/
def start : Position := ⟨1, 1⟩

/-- The position after one code point. -/
def step (p : Position) (c : Char) : Position :=
  if c = '\n' then ⟨p.line + 1, 1⟩ else ⟨p.line, p.column + 1⟩

/-- The position after a text. -/
def advance (p : Position) (t : Text) : Position := t.foldl step p

/-- The position of an offset into a source. -/
def ofOffset (source : Text) (offset : Nat) : Position :=
  let p := start.advance (source.take offset)
  ⟨p.line, p.column + (offset - source.length : Nat)⟩

/-- A position as it is printed. -/
def render (p : Position) : String := toString p.line ++ ":" ++ toString p.column

@[simp] theorem advance_nil (p : Position) : p.advance [] = p := rfl

@[simp] theorem advance_cons (p : Position) (c : Char) (t : Text) :
    p.advance (c :: t) = (p.step c).advance t := rfl

@[simp] theorem advance_append (p : Position) (s t : Text) :
    p.advance (s ++ t) = (p.advance s).advance t := List.foldl_append ..

end Position

/-- The half-open part of a source between two positions. -/
structure Span where
  start : Position
  stop : Position
deriving DecidableEq, Repr, Inhabited

end StyleAudit
