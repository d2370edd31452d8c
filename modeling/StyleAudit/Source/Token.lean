import StyleAudit.Source.Numeral
import StyleAudit.Source.Position
import StyleAudit.Text.Quoted

/-!
# Tokens

A token is a kind with what it carries, and the span of the source it was read from. Names,
strings and URLs are kept decoded, without the marks around them.
-/

namespace StyleAudit

/-- The three pairs of brackets. -/
inductive Bracket where
  | curly
  | square
  | round
deriving DecidableEq, Repr

namespace Bracket

/-- The opening half of a pair. -/
def left : Bracket → Char
  | curly => '\x7b'
  | square => '['
  | round => '('

/-- The closing half of a pair. -/
def right : Bracket → Char
  | curly => '\x7d'
  | square => ']'
  | round => ')'

/-- The word for a pair in the names of its tokens. -/
def word : Bracket → String
  | curly => "CurlyBracket"
  | square => "SquareBracket"
  | round => "Parantheses"

end Bracket

/-- What a token is, with what it carries. -/
inductive Token.Kind where
  | ident (name : Text)
  | function (name : Text)
  | atKeyword (name : Text)
  | hash (name : Text) (isId : Bool)
  | string (text : Text)
  | badString (text : Text)
  | url (text : Text)
  | badUrl (text : Text)
  | delim (c : Char)
  | colon
  | semicolon
  | comma
  | opening (bracket : Bracket)
  | closing (bracket : Bracket)
  | number (value : Numeral)
  | percentage (value : Numeral)
  | dimension (value : Numeral) (unit : Text)
  | comment (text : Text)
  | whitespace (text : Text)
  | cdo
  | cdc
  | eof
deriving DecidableEq, Repr

/-- A kind of token and where it stands. -/
structure Token where
  kind : Token.Kind
  span : Span
deriving DecidableEq, Repr

namespace Token.Kind

/-- The name of the class of tokens. -/
def className : Kind → String
  | ident _ => "Ident"
  | function _ => "Function"
  | atKeyword _ => "AtKeyword"
  | hash _ _ => "Hash"
  | string _ => "String"
  | badString _ => "BadString"
  | url _ => "Url"
  | badUrl _ => "BadUrl"
  | delim _ => "Delim"
  | colon => "Colon"
  | semicolon => "Semicolon"
  | comma => "Comma"
  | opening b => "L" ++ b.word
  | closing b => "R" ++ b.word
  | number _ => "Number"
  | percentage _ => "Percentage"
  | dimension _ _ => "Dimension"
  | comment _ => "Comment"
  | whitespace _ => "Whitespace"
  | cdo => "CDO"
  | cdc => "CDC"
  | eof => "EOF"

/-- The text that a token carries: names, strings and URLs decoded, a comment with its marks, a
number without a percent sign. -/
def raw : Kind → Text
  | ident t | function t | atKeyword t | hash t _ | string t | badString t | url t | badUrl t
  | comment t | whitespace t => t
  | delim c => [c]
  | colon => [':']
  | semicolon => [';']
  | comma => [',']
  | opening b => [b.left]
  | closing b => [b.right]
  | number n | percentage n => n.text
  | dimension n unit => n.text ++ unit
  | cdo => ['<', '!', '-', '-']
  | cdc => ['-', '-', '>']
  | eof => []

/-- The token as text: the marks of functions, at-keywords, hashes, URLs and percentages are
added, and a string is quoted. -/
def text (k : Kind) : String :=
  match k with
  | function t => String.ofList (t ++ ['('])
  | atKeyword t => String.ofList ('@' :: t)
  | hash t _ => String.ofList ('#' :: t)
  | string t => Text.quoted t
  | url t => "url(" ++ String.ofList t ++ ")"
  | percentage n => String.ofList (n.text ++ ['%'])
  | _ => String.ofList k.raw

/-- The delimiter a text spells: it has exactly one code point. -/
def delim? : Text → Option Kind
  | [c] => some (delim c)
  | _ => none

/-- What is wrong with a text that spells no delimiter. -/
def delimMessage (t : Text) : String :=
  "A delimiter is exactly one code point, got " ++ Text.quoted t

/-- Whether a token is white space. -/
def isWhitespace : Kind → Bool
  | whitespace _ => true
  | _ => false

/-- Whether a token is a comment. -/
def isComment : Kind → Bool
  | comment _ => true
  | _ => false

/-- The text inside the marks of a comment, as far as they are there. -/
def commentBody (t : Text) : Text :=
  let body := if ['/', '*'].isPrefixOf t then t.drop 2 else t
  if ['*', '/'].isSuffixOf body then body.take (body.length - 2) else body

end Token.Kind

/-- A token as it is listed: its class, what it carries and where it starts. -/
def Token.describe (t : Token) : String :=
  t.kind.className ++ "(" ++ Text.quoted t.kind.raw ++ " @ " ++ t.span.start.render ++ ")"

/-- Where the name of a function token ends, the parenthesis being its last code point. -/
def Span.nameEnd (s : Span) : Position := ⟨s.stop.line, s.stop.column - 1⟩

end StyleAudit
