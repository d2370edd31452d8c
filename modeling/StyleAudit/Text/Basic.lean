/-!
# Text as a list of code points

Everything the program reads and names is a sequence of Unicode scalar values, and every count
and position is a count of them. Surrogates are no scalar values, so sources and paths that hold one
outside of a pair are left out. Lists make both the recursion of a reader and the statement of
what it consumed direct, so `Text` is a list of characters; `String` is kept for what is printed.
-/

namespace StyleAudit

/-- A sequence of code points, none of which is a surrogate. -/
abbrev Text := List Char

namespace Text

/-- Code point order, the order in which names are listed: the first difference decides, and a
proper beginning of a text comes before it. -/
def le : Text → Text → Bool
  | [], _ => true
  | _ :: _, [] => false
  | a :: s, b :: t => if a = b then le s t else decide (a.val < b.val)

/-- Whether a code point lies in one of the closed ranges, which are given in increasing order. -/
def inRanges (n : Nat) : List (Nat × Nat) → Bool
  | [] => false
  | (low, high) :: rest => if n < low then false else n ≤ high || inRanges n rest

end Text

/-- `xs` without the elements at its end that satisfy `p`. -/
def dropTrailing {α : Type} (p : α → Bool) (xs : List α) : List α :=
  (xs.reverse.dropWhile p).reverse

/-- `xs` without the elements at either end that satisfy `p`. -/
def trim {α : Type} (p : α → Bool) (xs : List α) : List α :=
  dropTrailing p (xs.dropWhile p)

end StyleAudit
