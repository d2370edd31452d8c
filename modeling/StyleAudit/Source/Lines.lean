import StyleAudit.Source.Position

/-!
# The lines of a source

Where the lines of a source start is noted once, and places are looked up in this table. The line
of an index is the number of starts that do not lie behind it, which is found by halving the part
of the table in question; its column is counted from the start of that line.
-/

namespace StyleAudit

/-- The offsets behind the line feeds of a text that itself starts at an offset. -/
def laterStarts (offset : Nat) : Text → List Nat
  | [] => []
  | c :: rest =>
    if c = '\n' then (offset + 1) :: laterStarts (offset + 1) rest else laterStarts (offset + 1) rest

/-- The offsets at which lines start, in order. There is always a first line. -/
structure Lines where
  starts : Array Nat
  size_pos : 0 < starts.size

namespace Lines

/-- The lines of a source. -/
def ofText (source : Text) : Lines where
  starts := (0 :: laterStarts 0 source).toArray
  size_pos := Nat.succ_pos _

/-- The number of starts that do not lie behind an index, if it is at least `low` and at most
`high`. -/
def search (l : Lines) (index : Int) (low high : Nat) (h : high ≤ l.starts.size) : Nat :=
  if hlt : low < high then
    let middle := (low + high) / 2
    if index < l.starts[middle] then l.search index low middle (by omega)
    else l.search index (middle + 1) high h
  else low
termination_by high - low

/-- The line of an index, counted from one. -/
def line (l : Lines) (index : Int) : Nat := l.search index 0 l.starts.size (Nat.le_refl _)

theorem search_le (l : Lines) (index : Int) {low high : Nat} (h : high ≤ l.starts.size)
    (hlow : low ≤ high) : l.search index low high h ≤ l.starts.size := by
  fun_induction search l index low high h with
  | case1 low high h hlt middle _ ih => exact ih (by omega)
  | case2 low high h hlt middle _ ih => exact ih (by omega)
  | case3 low high h _ => exact Nat.le_trans hlow h

theorem line_le (l : Lines) (index : Int) : l.line index ≤ l.starts.size :=
  l.search_le index _ (Nat.zero_le _)

/-- Where a line starts. An index before the source lies on line zero, in front of the first, and
there the start of the last line counts. -/
def start (l : Lines) (line : Nat) (h : line ≤ l.starts.size) : Nat :=
  have := l.size_pos
  if line = 0 then l.starts[l.starts.size - 1] else l.starts[line - 1]

/-- The position of an index. -/
def position (l : Lines) (index : Int) : Position :=
  ⟨l.line index, index - l.start (l.line index) (l.line_le index) + 1⟩

end Lines

/-- The position of an index into a source, which may be negative or lie beyond the end. -/
def Position.ofIndex (source : Text) (index : Int) : Position :=
  (Lines.ofText source).position index

end StyleAudit
