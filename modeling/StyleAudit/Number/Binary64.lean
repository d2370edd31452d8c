/-!
# Double precision numbers

A double is kept as its 64 bits. `ofRatio` gives the double nearest to a quotient, a tie going to
the even neighbour, in exact arithmetic; `ofDecimal` the double nearest to a decimal. A finite
double of bits `b` below the sign has the value `m · 2 ^ q` that `significand` and `exponent`
tell.
-/

namespace StyleAudit

/-- A double precision number, by its bits. -/
structure Binary64 where
  bits : UInt64
deriving DecidableEq, Repr, Inhabited

namespace Binary64

/-- Number of bits of a significand, without the leading one. -/
def fractionBits : Nat := 52

/-- The exponent of the last place of the smallest doubles. -/
def minExponent : Int := -1074

/-- The leading one of a significand, which is not among the bits; also the unit of the field of
the exponent. -/
def leadingOne : Nat := 1 <<< fractionBits

/-- The bit of the sign. -/
def signBit : Nat := 0x8000000000000000

/-- The bits of infinity, which are also the first ones above every finite magnitude. -/
def infinityBits : Nat := 0x7FF * leadingOne

/-- The double of given sign and magnitude bits. -/
def ofMagnitude (negative : Bool) (magnitude : Nat) : Binary64 :=
  ⟨UInt64.ofNat ((if negative then signBit else 0) + min magnitude infinityBits)⟩

/-- The infinity of a sign. -/
def infinity (negative : Bool) : Binary64 := ofMagnitude negative infinityBits

/-- The double that is no number. -/
def nan : Binary64 := ⟨UInt64.ofNat (infinityBits + leadingOne / 2)⟩

/-- A quotient rounded to the nearest natural number, a tie going to the even one. -/
def roundDiv (num den : Nat) : Nat :=
  let q := num / den
  let r := num % den
  if 2 * r > den || (2 * r = den && q % 2 = 1) then q + 1 else q

/-- `num / den` in units of `2 ^ e`. -/
def scaled (num den : Nat) (e : Int) : Nat × Nat :=
  if e < 0 then (num <<< (-e).toNat, den) else (num, den <<< e.toNat)

/-- The exponent of the last place of the doubles around `num / den`: the one that gives the
quotient 53 bits, or the smallest one. -/
def lastPlace (num den : Nat) : Int :=
  let e : Int := (num.log2 : Int) - den.log2 - fractionBits
  let (n, d) := scaled num den e
  max minExponent (if n / d < leadingOne then e - 1 else e)

/-- The double nearest to `num / den`, for a positive `den`. Rounding up to the next power of two
carries into the exponent field, which is what the sum of the two fields does. -/
def ofRatio (negative : Bool) (num den : Nat) : Binary64 :=
  if num = 0 then ofMagnitude negative 0
  else
    let e := lastPlace num den
    let (n, d) := scaled num den e
    ofMagnitude negative ((e - minExponent).toNat * leadingOne + roundDiv n d)

/-- Number of decimal digits. -/
def digitCount (n : Nat) : Nat := (Nat.toDigits 10 n).length

/-- The power of ten of an exponent. -/
def powerOfTen (exponent : Nat) : Nat := Nat.pow 10 exponent

/-- The double nearest to `digits · 10 ^ exponent`. Decimals far outside the range of doubles are
told apart first, so that no power of an enormous exponent is taken. -/
def ofDecimal (negative : Bool) (digits : Nat) (exponent : Int) : Binary64 :=
  let magnitude : Int := digitCount digits + exponent
  if digits = 0 || magnitude < -400 then ofMagnitude negative 0
  else if magnitude > 400 then infinity negative
  else if exponent < 0 then ofRatio negative digits (powerOfTen (-exponent).toNat)
  else ofRatio negative (digits * powerOfTen exponent.toNat) 1

/-- Whether the sign bit is set. -/
def isNegative (x : Binary64) : Bool := signBit ≤ x.bits.toNat

/-- The bits below the sign. -/
def magnitude (x : Binary64) : Nat := x.bits.toNat % signBit

/-- Whether a double is infinite. -/
def isInfinite (x : Binary64) : Bool := x.magnitude = infinityBits

/-- Whether a double is no number. -/
def isNaN (x : Binary64) : Bool := infinityBits < x.magnitude

/-- The field of the exponent. -/
def biased (x : Binary64) : Nat := x.magnitude / leadingOne

/-- `m` in the value `m · 2 ^ q` of a finite double. -/
def significand (x : Binary64) : Nat :=
  x.magnitude % leadingOne + (if x.biased = 0 then 0 else leadingOne)

/-- `q` in the value `m · 2 ^ q` of a finite double. -/
def exponent (x : Binary64) : Int := minExponent + ((max x.biased 1 : Nat) - 1 : Int)

end Binary64

end StyleAudit
