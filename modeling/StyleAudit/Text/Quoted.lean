import StyleAudit.Text.Printable

/-!
# Quoted text

The form in which messages show a text that may hold anything: between single quotes, or between
double quotes when it holds single ones and no double ones. A backslash, the quote in use, line
feed, carriage return and tab are written with a backslash; every other code point that is not
printable is written by its number, in the shortest of three widths.
-/

namespace StyleAudit.Text

/-- The hexadecimal digits of a number, at least `width` of them, small letters. -/
def hex (width n : Nat) : Text :=
  let digits := Nat.toDigits 16 n
  List.replicate (width - digits.length) '0' ++ digits

/-- One code point of a text between the quotes `mark`. -/
def quotedChar (mark c : Char) : Text :=
  if c = mark || c = '\\' then ['\\', c]
  else if c = '\n' then ['\\', 'n']
  else if c = '\r' then ['\\', 'r']
  else if c = '\t' then ['\\', 't']
  else if isPrintable c then [c]
  else if c.toNat < 0x100 then '\\' :: 'x' :: hex 2 c.toNat
  else if c.toNat < 0x10000 then '\\' :: 'u' :: hex 4 c.toNat
  else '\\' :: 'U' :: hex 8 c.toNat

/-- A text between quotes. -/
def quoted (t : Text) : String :=
  let mark := if t.contains '\'' && !t.contains '"' then '"' else '\''
  String.ofList (mark :: t.flatMap (quotedChar mark) ++ [mark])

end StyleAudit.Text
