import StyleAudit.Number.Binary64

/-!
# The shortest decimal of a double

A finite double is written with the fewest decimal digits that read back as it, and of those
decimals with the one nearest to it. The doubles' neighbours bound the reals that round to it;
for each number of digits in turn the two decimals around the value are tested against that
interval in exact arithmetic.
-/

namespace StyleAudit.Binary64

/-- The value `digits · 10 ^ exponent`. -/
structure Decimal where
  digits : Nat
  exponent : Int
deriving DecidableEq, Repr

/-- A positive rational number as numerator and denominator. -/
abbrev Ratio := Nat × Nat

namespace Ratio

/-- Whether a rational is less than another. -/
def lt (a b : Ratio) : Bool := a.1 * b.2 < b.1 * a.2

/-- Whether a rational is at most another. -/
def le (a b : Ratio) : Bool := a.1 * b.2 ≤ b.1 * a.2

/-- `n · 2 ^ e`. -/
def binary (n : Nat) (e : Int) : Ratio :=
  if e < 0 then (n, 1 <<< (-e).toNat) else (n <<< e.toNat, 1)

/-- `n · 10 ^ e`. -/
def decimal (n : Nat) (e : Int) : Ratio :=
  if e < 0 then (n, powerOfTen (-e).toNat) else (n * powerOfTen e.toNat, 1)

/-- The exponent of the first decimal digit of a positive rational. -/
def firstPlace (r : Ratio) : Int :=
  let d : Int := (digitCount r.1 : Int) - digitCount r.2
  if lt r (decimal 1 d) then d - 1 else d

end Ratio

/-- Whether a rational rounds to the double: it lies between the midpoints to the neighbours, and
a midpoint itself rounds to the double with the even significand. -/
def holds (x : Binary64) (r : Ratio) : Bool :=
  let m := x.significand
  let below := if m = leadingOne && 1 < x.biased then 4 * m - 1 else 4 * m - 2
  let low := Ratio.binary below (x.exponent - 2)
  let high := Ratio.binary (4 * m + 2) (x.exponent - 2)
  if m % 2 = 0 then Ratio.le low r && Ratio.le r high else Ratio.lt low r && Ratio.lt r high

/-- The decimal of `n` digits nearest to the double among the two around it, if one reads back. -/
def withDigits? (x : Binary64) (n : Nat) : Option Decimal :=
  let value := Ratio.binary x.significand x.exponent
  let place := value.firstPlace - n + 1
  let (num, den) := if place < 0 then (value.1 * powerOfTen (-place).toNat, value.2)
    else (value.1, value.2 * powerOfTen place.toNat)
  let down := num / den
  let downHolds := holds x (Ratio.decimal down place)
  let upHolds := holds x (Ratio.decimal (down + 1) place)
  let nearerDown := 2 * (num % den) < den || (2 * (num % den) = den && down % 2 = 0)
  if downHolds && (nearerDown || !upHolds) then some ⟨down, place⟩
  else if upHolds then some ⟨down + 1, place⟩
  else none

/-- The shortest decimal of a finite positive double: seventeen digits always read back. -/
def shortest (x : Binary64) : Decimal :=
  (((List.range 16).findSome? fun n => x.withDigits? (n + 1)) <|> x.withDigits? 17).getD
    ⟨x.significand, x.exponent⟩

/-- A decimal without trailing zeros, as its digits and the exponent of the first one. -/
def Decimal.normalized (d : Decimal) : List Char × Int :=
  let digits := Nat.toDigits 10 d.digits
  let kept := (digits.reverse.dropWhile (· = '0')).reverse
  (kept, d.exponent + digits.length - 1)

/-- Where the notation of a double changes: positional from `10 ^ low` up to below `10 ^ high`,
with an exponent elsewhere. -/
structure Layout where
  low : Int
  high : Int
  exponentDigits : Nat

/-- Doubles are written positionally from a ten-thousandth to below ten to the sixteenth, always
with a point; an exponent has a sign and two digits at least. -/
def standard : Layout := ⟨-4, 16, 2⟩

/-- The digits of a decimal whose first digit has the exponent `place`, in a notation. -/
def Layout.write (form : Layout) (digits : List Char) (place : Int) : List Char :=
  if form.low ≤ place && place < form.high then
    if place < 0 then '0' :: '.' :: List.replicate (-place - 1).toNat '0' ++ digits
    else
      let whole := place.toNat + 1
      let padded := digits ++ List.replicate (whole - digits.length) '0'
      let fraction := padded.drop whole
      padded.take whole ++ '.' :: (if fraction.isEmpty then ['0'] else fraction)
  else
    let size := Nat.toDigits 10 place.natAbs
    let head := match digits with
      | d :: rest => d :: (if rest.isEmpty then [] else '.' :: rest)
      | [] => ['0']
    head ++ 'e' :: (if place < 0 then '-' else '+') ::
      List.replicate (form.exponentDigits - size.length) '0' ++ size

/-- A double in decimal, `inf` or `nan`. -/
def render (x : Binary64) : String :=
  if x.isNaN then "nan"
  else
    let sign := if x.isNegative then "-" else ""
    if x.isInfinite then sign ++ "inf"
    else if x.magnitude = 0 then sign ++ "0.0"
    else
      let (digits, place) := x.shortest.normalized
      sign ++ String.ofList (standard.write digits place)

end StyleAudit.Binary64
