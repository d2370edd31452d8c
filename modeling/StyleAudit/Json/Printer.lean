import StyleAudit.Json.Basic
import StyleAudit.Number.Shortest
import StyleAudit.Text.Quoted

/-!
# Writing JSON

Two layouts of one value: on a single line, and one member or item to a line, indented by two.
Both are plain ASCII: other code points are written as escapes, those above the first plane as
two. `spelled` is the form in which messages show a value.
-/

namespace StyleAudit.Json

/-- An escape of one 16-bit unit. -/
def escapedUnit (n : Nat) : Text := '\\' :: 'u' :: Text.hex 4 n

/-- One code point of a string. -/
def escapedChar (c : Char) : Text :=
  if c = '"' || c = '\\' then ['\\', c]
  else if c = '\n' then ['\\', 'n']
  else if c = '\r' then ['\\', 'r']
  else if c = '\t' then ['\\', 't']
  else if c = '\x08' then ['\\', 'b']
  else if c = '\x0c' then ['\\', 'f']
  else if 0x20 ≤ c.toNat && c.toNat < 0x7F then [c]
  else if c.toNat < 0x10000 then escapedUnit c.toNat
  else
    let offset := c.toNat - 0x10000
    escapedUnit (0xD800 + offset / 0x400) ++ escapedUnit (0xDC00 + offset % 0x400)

/-- A string between quotes. -/
def escaped (s : String) : String :=
  String.ofList ('"' :: s.toList.flatMap escapedChar ++ ['"'])

/-- A value without parts. -/
def scalar : Json → String
  | null => "null"
  | bool b => if b then "true" else "false"
  | int n => s!"{n}"
  | real x =>
    if x.isNaN then "NaN"
    else if x.isInfinite then (if x.isNegative then "-Infinity" else "Infinity")
    else x.render
  | str s => escaped s
  | arr _ => "[]"
  | obj _ => "\x7b\x7d"

mutual

/-- A value on one line. -/
def compact : Json → String
  | arr items => "[" ++ ", ".intercalate (compactItems items) ++ "]"
  | obj members => "\x7b" ++ ", ".intercalate (compactMembers members) ++ "\x7d"
  | value => value.scalar

/-- Each item on one line. -/
def compactItems : List Json → List String
  | [] => []
  | item :: rest => compact item :: compactItems rest

/-- Each member on one line. -/
def compactMembers : List (String × Json) → List String
  | [] => []
  | (name, value) :: rest => (escaped name ++ ": " ++ compact value) :: compactMembers rest

end

/-- Parts between brackets, each on a line of its own below the given margin. -/
def enclosed (left right margin : String) (parts : List String) : String :=
  if parts.isEmpty then left ++ right
  else
    let inner := "\n" ++ margin ++ "  "
    left ++ inner ++ ("," ++ inner).intercalate parts ++ "\n" ++ margin ++ right

mutual

/-- A value over several lines, below a margin. -/
def indented (margin : String) : Json → String
  | arr items => enclosed "[" "]" margin (indentedItems (margin ++ "  ") items)
  | obj members => enclosed "\x7b" "\x7d" margin (indentedMembers (margin ++ "  ") members)
  | value => value.scalar

/-- Each item over several lines. -/
def indentedItems (margin : String) : List Json → List String
  | [] => []
  | item :: rest => indented margin item :: indentedItems margin rest

/-- Each member over several lines. -/
def indentedMembers (margin : String) : List (String × Json) → List String
  | [] => []
  | (name, value) :: rest =>
    (escaped name ++ ": " ++ indented margin value) :: indentedMembers margin rest

end

mutual

/-- How messages show a value: words with a capital, strings quoted, parts between brackets. -/
def spelled : Json → String
  | null => "None"
  | bool b => if b then "True" else "False"
  | int n => s!"{n}"
  | real x => x.render
  | str s => Text.quoted s.toList
  | arr items => "[" ++ ", ".intercalate (spelledItems items) ++ "]"
  | obj members => "\x7b" ++ ", ".intercalate (spelledMembers members) ++ "\x7d"

/-- Each item as messages show it. -/
def spelledItems : List Json → List String
  | [] => []
  | item :: rest => spelled item :: spelledItems rest

/-- Each member as messages show it. -/
def spelledMembers : List (String × Json) → List String
  | [] => []
  | (name, value) :: rest =>
    (Text.quoted name.toList ++ ": " ++ spelled value) :: spelledMembers rest

end

/-- A value as text: a string stands for itself, anything else is shown as in messages. -/
def text : Json → String
  | str s => s
  | value => value.spelled

end StyleAudit.Json
