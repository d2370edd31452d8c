import StyleAudit.Number.Binary64
import StyleAudit.Source.Character

/-!
# Numbers as written

A numeral keeps the parts of a number as they were written. Without fraction and exponent it
denotes an integer, exactly; otherwise the double nearest to it.
-/

namespace StyleAudit

/-- The parts of a number: a sign or nothing, the digits before the point, the digits after it
(none if there is no point), and the exponent with its mark (nothing if there is none). -/
structure Numeral where
  sign : Text
  whole : Text
  fraction : Text
  exponent : Text
deriving DecidableEq, Repr

namespace Numeral

open Source (isDigit)

/-- A numeral as written. -/
def text (n : Numeral) : Text :=
  n.sign ++ n.whole ++ (if n.fraction.isEmpty then [] else '.' :: n.fraction) ++ n.exponent

/-- Whether a numeral is written as an integer. -/
def isInteger (n : Numeral) : Bool := n.fraction.isEmpty && n.exponent.isEmpty

/-- The number a run of decimal digits denotes. -/
def natural (digits : Text) : Nat :=
  digits.foldl (fun n c => 10 * n + (c.toNat - '0'.toNat)) 0

/-- Whether the sign is a minus. -/
def isNegative (n : Numeral) : Bool := n.sign == ['-']

/-- The integer that sign and digits before the point denote. -/
def integer (n : Numeral) : Int :=
  if n.isNegative then -(natural n.whole : Int) else natural n.whole

/-- The power of ten that the exponent denotes. -/
def power (n : Numeral) : Int :=
  match n.exponent with
  | _ :: '-' :: digits => -(natural digits : Int)
  | _ :: '+' :: digits => natural digits
  | _ :: digits => natural digits
  | [] => 0

/-- The double nearest to the numeral. -/
def double (n : Numeral) : Binary64 :=
  Binary64.ofDecimal n.isNegative (natural (n.whole ++ n.fraction)) (n.power - n.fraction.length)

/-! ## Reading -/

/-- The sign a text starts with, if any, and what follows. -/
def takeSign : Text → Text × Text
  | [] => ([], [])
  | c :: rest => if c = '+' || c = '-' then ([c], rest) else ([], c :: rest)

/-- The digits after the point a text starts with, if a digit follows the point, and the rest. -/
def takeFraction : Text → Text × Text
  | '.' :: d :: rest =>
    if isDigit d then (d :: rest.takeWhile isDigit, rest.dropWhile isDigit)
    else ([], '.' :: d :: rest)
  | t => ([], t)

/-- The exponent a text starts with, if it is complete, and the rest. -/
def takeExponent : Text → Text × Text
  | e :: s :: rest =>
    if e = 'e' || e = 'E' then
      if isDigit s then (e :: s :: rest.takeWhile isDigit, rest.dropWhile isDigit)
      else if (s = '+' || s = '-') && rest.head?.any isDigit then
        (e :: s :: rest.takeWhile isDigit, rest.dropWhile isDigit)
      else ([], e :: s :: rest)
    else ([], e :: s :: rest)
  | t => ([], t)

/-- The numeral at the start of a text, and what follows it. -/
def scan (t : Text) : Numeral × Text :=
  let (sign, t) := takeSign t
  let whole := t.takeWhile isDigit
  let t := t.dropWhile isDigit
  let (fraction, t) := takeFraction t
  let (exponent, t) := takeExponent t
  (⟨sign, whole, fraction, exponent⟩, t)

theorem takeFraction_suffix (t : Text) : (takeFraction t).2 <:+ t := by
  unfold takeFraction
  split
  · split
    · exact (List.dropWhile_suffix _).trans
        ((List.suffix_cons ..).trans (List.suffix_cons ..))
    · exact List.suffix_refl _
  · exact List.suffix_refl _

theorem takeExponent_suffix (t : Text) : (takeExponent t).2 <:+ t := by
  unfold takeExponent
  split
  · next e s rest =>
    have h : rest.dropWhile isDigit <:+ e :: s :: rest :=
      (List.dropWhile_suffix _).trans ((List.suffix_cons ..).trans (List.suffix_cons ..))
    split
    · split
      · exact h
      · split
        · exact h
        · exact List.suffix_refl _
    · exact List.suffix_refl _
  · exact List.suffix_refl _

theorem scan_rest (t : Text) :
    (scan t).2 =
      (takeExponent (takeFraction ((takeSign t).2.dropWhile isDigit)).2).2 := rfl

end Numeral

end StyleAudit
