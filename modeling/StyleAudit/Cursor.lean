/-!
# A place in a list

A cursor is a list and an index into it that moves forward and back one step at a time. A
negative index counts from the end, and reading on from it comes to the start of the list. An
index that lies even before that is lost: nothing can be read there.
-/

namespace StyleAudit

/-- A list and the index of its next element. -/
structure Cursor (α : Type) where
  items : List α
  index : Int

/-- The failure to read before all elements. -/
inductive Lost where
  | lost
deriving DecidableEq, Repr

namespace Cursor

variable {α : Type}

/-- A cursor at the start of a list. -/
def ofList (items : List α) : Cursor α := ⟨items, 0⟩

/-- Whether an index lies before all elements. -/
def isLostAt (c : Cursor α) (index : Int) : Bool := index < -c.items.length

/-- Whether the cursor stands before all elements. -/
def isLost (c : Cursor α) : Bool := c.isLostAt c.index

/-- The elements from an index to the end of the list. -/
def onwards (c : Cursor α) (index : Int) : List α :=
  if index < 0 then c.items.drop (c.items.length - index.natAbs) else c.items.drop index.toNat

/-- The elements from the cursor on, in the order in which they are read. -/
def ahead (c : Cursor α) : List α :=
  if c.index < 0 then c.onwards c.index ++ c.items else c.onwards c.index

/-- The element `amount` places on, the next one being at one; none beyond the end. -/
def peek (c : Cursor α) (amount : Int) : Except Lost (Option α) :=
  let index := c.index + amount - 1
  if c.isLostAt index then .error .lost else .ok (c.onwards index).head?

/-- The cursor one step on. -/
def forth (c : Cursor α) : Cursor α := { c with index := c.index + 1 }

/-- The cursor one step back. -/
def back (c : Cursor α) : Cursor α := { c with index := c.index - 1 }

/-- The cursor in front of what is left of the elements ahead. -/
def leave (c : Cursor α) (rest : List α) : Cursor α :=
  { c with index := c.index + (c.ahead.length - rest.length : Nat) }

/-- The next element and the cursor behind it. At the end there is none and nothing moves; a
cursor that is lost moves and reads nothing. -/
def next (c : Cursor α) : Except Lost (Option α) × Cursor α :=
  if c.isLost then (.error .lost, c.forth)
  else match c.ahead with
    | [] => (.ok none, c)
    | a :: _ => (.ok (some a), c.forth)

end Cursor

end StyleAudit
