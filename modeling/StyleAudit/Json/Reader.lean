import StyleAudit.Json.Basic
import StyleAudit.Text.Basic

/-!
# Reading JSON

A recursive descent reader of one JSON text. Besides the standard it takes the words `NaN`,
`Infinity` and `-Infinity`; it refuses control characters inside strings and anything but blanks
around the value. Of two members with one name the later value counts, in the earlier place.

Escapes can spell half of a surrogate pair without the other half, which is no character. The
readers are told which character stands in for which half. Characters that do not occur elsewhere
keep the halves apart from each other and from all else.

The readers of a value and of its parts call each other on a rest that only gets shorter, and
take a bound on the number of calls that the length of the text supplies.
-/

namespace StyleAudit.Json.Reader

/-- The blanks of JSON. -/
def isBlank (c : Char) : Bool := c = ' ' || c = '\t' || c = '\n' || c = '\r'

/-- What follows the blanks at the start. -/
def skipBlanks (t : Text) : Text := t.dropWhile isBlank

/-- The value of a hexadecimal digit. -/
def digitValue? (c : Char) : Option Nat :=
  if '0' ≤ c && c ≤ '9' then some (c.toNat - '0'.toNat)
  else if 'a' ≤ c && c ≤ 'f' then some (c.toNat - 'a'.toNat + 10)
  else if 'A' ≤ c && c ≤ 'F' then some (c.toNat - 'A'.toNat + 10)
  else none

/-- The unit that four hexadecimal digits spell. -/
def hexUnit? (a b c d : Char) : Option Nat := do
  return (((← digitValue? a) * 16 + (← digitValue? b)) * 16 + (← digitValue? c)) * 16
    + (← digitValue? d)

/-- The code point that a one-letter escape stands for. -/
def shortEscape? : Char → Option Char
  | '"' => some '"'
  | '\\' => some '\\'
  | '/' => some '/'
  | 'b' => some '\x08'
  | 'f' => some '\x0c'
  | 'n' => some '\n'
  | 'r' => some '\r'
  | 't' => some '\t'
  | _ => none

/-- The units of a string up to its closing quote, and what follows. A unit is a code point or
half of a pair written as two escapes. -/
def units? : Text → Option (List Nat × Text)
  | [] => none
  | '"' :: rest => some ([], rest)
  | '\\' :: 'u' :: a :: b :: c :: d :: rest => do
    let unit ← hexUnit? a b c d
    let (more, after) ← units? rest
    return (unit :: more, after)
  | '\\' :: e :: rest => do
    let c ← shortEscape? e
    let (more, after) ← units? rest
    return (c.toNat :: more, after)
  | c :: rest =>
    if c.toNat < 0x20 || c = '\\' then none
    else do
      let (more, after) ← units? rest
      return (c.toNat :: more, after)

/-- The code point that a unit is by itself; half of a pair has another one stand in for it. -/
def single (standIn : Nat → Char) (unit : Nat) : Char :=
  if 0xD800 ≤ unit && unit < 0xE000 then standIn unit else Char.ofNat unit

/-- The code points of a list of units: two halves of a pair make one. -/
def joinPairs (standIn : Nat → Char) : List Nat → Text
  | high :: low :: rest =>
    if 0xD800 ≤ high && high < 0xDC00 && 0xDC00 ≤ low && low < 0xE000 then
      Char.ofNat (0x10000 + (high - 0xD800) * 0x400 + (low - 0xDC00)) :: joinPairs standIn rest
    else single standIn high :: joinPairs standIn (low :: rest)
  | [unit] => [single standIn unit]
  | [] => []
termination_by units => units.length

/-- A string whose opening quote has been read. -/
def string? (standIn : Nat → Char) (t : Text) : Option (String × Text) :=
  (units? t).map fun (units, rest) => (String.ofList (joinPairs standIn units), rest)

/-- The number a run of decimal digits denotes. -/
def natural (digits : Text) : Nat :=
  digits.foldl (fun n c => 10 * n + (c.toNat - '0'.toNat)) 0

/-- A decimal digit. -/
def isDigit (c : Char) : Bool := '0' ≤ c && c ≤ '9'

/-- The exponent of a number, and what follows: none when there is no complete exponent. -/
def exponent? : Text → Option (Int × Text)
  | e :: rest =>
    if e = 'e' || e = 'E' then
      let (sign, body) := match rest with
        | '-' :: r => (-1, r)
        | '+' :: r => (1, r)
        | r => ((1 : Int), r)
      let digits := body.takeWhile isDigit
      if digits.isEmpty then none else some (sign * natural digits, body.dropWhile isDigit)
    else none
  | [] => none

/-- The digits after the point of a number, and what follows. -/
def fraction? : Text → Option (Text × Text)
  | '.' :: rest =>
    let digits := rest.takeWhile isDigit
    if digits.isEmpty then none else some (digits, rest.dropWhile isDigit)
  | _ => none

/-- A number whose sign has been read. A leading zero stands alone. -/
def unsigned? (negative : Bool) (t : Text) : Option (Json × Text) :=
  let whole := match t with
    | '0' :: _ => ['0']
    | _ => t.takeWhile isDigit
  if whole.isEmpty then none
  else
    let rest := t.drop whole.length
    let (digits, afterFraction) := (fraction? rest).getD ([], rest)
    let (power, after) := (exponent? afterFraction).getD (0, afterFraction)
    if after.length = rest.length then
      let n : Int := natural whole
      some (.int (if negative then -n else n), after)
    else
      some (.real (Binary64.ofDecimal negative (natural (whole ++ digits)) (power - digits.length)),
        after)

/-- The words a value may be. -/
def words : List (Text × Json) :=
  [("null".toList, .null), ("true".toList, .bool true), ("false".toList, .bool false),
   ("NaN".toList, .real Binary64.nan), ("Infinity".toList, .real (Binary64.infinity false)),
   ("-Infinity".toList, .real (Binary64.infinity true))]

/-- A value that has no parts: a word or a number. -/
def scalar? (t : Text) : Option (Json × Text) :=
  match words.find? fun w => w.1.isPrefixOf t with
  | some (word, value) => some (value, t.drop word.length)
  | none => match t with
    | '-' :: rest => unsigned? true rest
    | _ => unsigned? false t

mutual

/-- A value at the start of a text, and what follows. -/
def value? (standIn : Nat → Char) : Nat → Text → Option (Json × Text)
  | 0, _ => none
  | bound + 1, t =>
    match t with
    | '"' :: rest => (string? standIn rest).map fun (s, after) => (.str s, after)
    | '[' :: rest =>
      match skipBlanks rest with
      | ']' :: after => some (.arr [], after)
      | first => (items? standIn bound first).map fun (items, after) => (.arr items, after)
    | '\x7b' :: rest =>
      match skipBlanks rest with
      | '\x7d' :: after => some (.obj [], after)
      | first => (members? standIn bound first).map fun (members, after) =>
        (.obj (Dictionary.ofList members), after)
    | _ => scalar? t

/-- One or more items up to the closing bracket. -/
def items? (standIn : Nat → Char) : Nat → Text → Option (List Json × Text)
  | 0, _ => none
  | bound + 1, t => do
    let (item, rest) ← value? standIn bound t
    match skipBlanks rest with
    | ']' :: after => return ([item], after)
    | ',' :: more =>
      let (items, after) ← items? standIn bound (skipBlanks more)
      return (item :: items, after)
    | _ => none

/-- One or more members up to the closing brace. -/
def members? (standIn : Nat → Char) : Nat → Text → Option (List (String × Json) × Text)
  | 0, _ => none
  | bound + 1, t =>
    match t with
    | '"' :: start => do
      let (name, rest) ← string? standIn start
      match skipBlanks rest with
      | ':' :: body =>
        let (value, rest) ← value? standIn bound (skipBlanks body)
        match skipBlanks rest with
        | '\x7d' :: after => return ([(name, value)], after)
        | ',' :: more =>
          let (members, after) ← members? standIn bound (skipBlanks more)
          return ((name, value) :: members, after)
        | _ => none
      | _ => none
    | _ => none

end

end Reader

/-- The value of a JSON text; none when it is malformed. -/
def parseWith? (standIn : Nat → Char) (t : Text) : Option Json :=
  match Reader.value? standIn (t.length + 1) (Reader.skipBlanks t) with
  | some (value, rest) => if (Reader.skipBlanks rest).isEmpty then some value else none
  | none => none

/-- The last code points there are stand in for the halves of pairs. -/
def standIn (half : Nat) : Char := Char.ofNat (0x10F800 + (half - 0xD800))

/-- The value of a JSON text, with the last code points for halves of pairs. -/
def parse? (t : Text) : Option Json := parseWith? standIn t

end StyleAudit.Json
