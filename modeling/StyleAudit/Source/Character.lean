import StyleAudit.Text.Basic

/-!
# Classes of code points and what a text starts with

The decisions of the reader rest on these classes and on three looks ahead: whether a text
starts with an escape, with an identifier or with a number.
-/

namespace StyleAudit.Source

/-- An ASCII letter. -/
def isLetter (c : Char) : Bool := ('a' ≤ c && c ≤ 'z') || ('A' ≤ c && c ≤ 'Z')

/-- A code point outside ASCII. -/
def isNonAscii (c : Char) : Bool := 0x80 ≤ c.toNat

/-- A code point that can start an identifier. -/
def isIdentStart (c : Char) : Bool := isLetter c || isNonAscii c || c = '_'

/-- An ASCII digit. -/
def isDigit (c : Char) : Bool := '0' ≤ c && c ≤ '9'

/-- Tab, line feed or space. -/
def isBlank (c : Char) : Bool := c = '\t' || c = '\n' || c = ' '

/-- A hexadecimal digit of either case. -/
def isHex (c : Char) : Bool := isDigit c || ('a' ≤ c && c ≤ 'f') || ('A' ≤ c && c ≤ 'F')

/-- A code point that can stand in an identifier. -/
def isIdent (c : Char) : Bool := isIdentStart c || isDigit c || c = '-'

/-- A control character that a URL without quotes may not hold. -/
def isUnprintable (c : Char) : Bool :=
  c.toNat ≤ 0x08 || c.toNat = 0x0B || (0x0E ≤ c.toNat && c.toNat ≤ 0x1F) || c.toNat = 0x7F

/-- A quotation mark. -/
def isQuote (c : Char) : Bool := c = '"' || c = '\''

/-- A backslash starts an escape unless a line feed or nothing follows it. -/
def startsEscape : Text → Bool
  | '\\' :: c :: _ => c != '\n'
  | _ => false

/-- An identifier starts with a code point of that class, with an escape, with two hyphens, or
with one hyphen and one of the first two. -/
def startsIdent : Text → Bool
  | [] => false
  | c :: rest =>
    if c = '-' then
      match rest with
      | [] => false
      | d :: _ => isIdentStart d || d = '-' || startsEscape rest
    else isIdentStart c || startsEscape (c :: rest)

/-- A number starts with a digit, or with a point and a digit, either after a sign or not. -/
def startsNumber : Text → Bool
  | [] => false
  | c :: rest =>
    if c = '+' || c = '-' then
      match rest with
      | [] => false
      | d :: more => isDigit d || (d = '.' && more.head?.any isDigit)
    else if c = '.' then rest.head?.any isDigit
    else isDigit c

end StyleAudit.Source
