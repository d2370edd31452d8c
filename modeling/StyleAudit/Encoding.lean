import StyleAudit.Text.Lower

/-!
# From bytes to text

How files are read as text. Decoding is strict: bytes that an encoding does not define make the
whole undecodable. A stylesheet may name its encoding in a rule at its very start, which is kept in
the text so that positions stay those of the file; otherwise it is UTF-8, with or without a byte
order mark.

What a name stands for is not for the program to say: the encodings there are come from outside, as
`Codecs`, and they may fail in ways of their own. The program is run with those that are written
out here.
-/

namespace StyleAudit

/-- The encodings that are written out. -/
inductive Encoding where
  | utf8
  | utf8Marked
  | latin1
  | windows1252
  | ascii
deriving DecidableEq, Repr

namespace Encoding

/-- The text of bytes that each stand for one code point. -/
def decodeBytes (decode : Nat → Option Nat) (bytes : ByteArray) : Option Text :=
  bytes.data.toList.mapM fun b => (decode b.toNat).map Char.ofNat

/-- The code points of the bytes from 80 to 9F in the Windows encoding; five are undefined. -/
def windowsSpecials : List (Option Nat) :=
  [some 0x20AC, none, some 0x201A, some 0x0192, some 0x201E, some 0x2026, some 0x2020, some 0x2021,
   some 0x02C6, some 0x2030, some 0x0160, some 0x2039, some 0x0152, none, some 0x017D, none,
   none, some 0x2018, some 0x2019, some 0x201C, some 0x201D, some 0x2022, some 0x2013, some 0x2014,
   some 0x02DC, some 0x2122, some 0x0161, some 0x203A, some 0x0153, none, some 0x017E, some 0x0178]

/-- The text of some bytes; none if they are undefined in the encoding. -/
def decode? (e : Encoding) (bytes : ByteArray) : Option Text :=
  match e with
  | utf8 => (String.fromUTF8? bytes).map String.toList
  | utf8Marked => (String.fromUTF8? bytes).map fun s =>
    match s.toList with
    | '\uFEFF' :: rest => rest
    | t => t
  | latin1 => decodeBytes some bytes
  | windows1252 => decodeBytes (fun b =>
      if 0x80 ≤ b && b < 0xA0 then (windowsSpecials[b - 0x80]?).join else some b) bytes
  | ascii => decodeBytes (fun b => if b < 0x80 then some b else none) bytes

/-- A name of an encoding as its words of letters, digits and points, joined by underscores. -/
def foldName (name : Text) : Text :=
  let words := name.splitBy fun a b => isWordChar a == isWordChar b
  ['_'].intercalate (words.filter fun w => w.all isWordChar)
where
  /-- Whether a character belongs to a word. -/
  isWordChar (c : Char) : Bool := c.isAlphanum || c = '.'

/-- The name proper of each encoding. -/
def properName : Encoding → String
  | utf8 => "utf_8"
  | utf8Marked => "utf_8_sig"
  | latin1 => "latin_1"
  | windows1252 => "cp1252"
  | ascii => "ascii"

/-- The other names of each encoding. -/
def aliases : Encoding → List String
  | utf8 => ["utf8", "u8", "utf", "utf8_ucs2", "utf8_ucs4", "cp65001"]
  | utf8Marked => []
  | latin1 =>
    ["latin1", "iso_8859_1", "iso8859_1", "iso8859", "8859", "cp819", "latin", "l1",
     "csisolatin1", "ibm819", "iso_8859_1_1987", "iso_ir_100"]
  | windows1252 => ["windows_1252", "1252"]
  | ascii =>
    ["us_ascii", "us", "646", "ansi_x3.4_1968", "ansi_x3_4_1968", "ansi_x3.4_1986", "cp367",
     "csascii", "ibm367", "iso646_us", "iso_646.irv_1991", "iso_ir_6"]

/-- All encodings that are written out. -/
def all : List Encoding := [utf8, utf8Marked, latin1, windows1252, ascii]

/-- A name with its points made underscores. -/
def withoutPoints (name : Text) : Text := name.map fun c => if c = '.' then '_' else c

/-- The encoding of a name in small letters. In a name other than the proper one a point may stand
for an underscore. -/
def ofName? (name : Text) : Option Encoding :=
  let folded := foldName name
  let isAlias (t : Text) (e : Encoding) : Bool := e.aliases.contains (String.ofList t)
  all.find? fun e =>
    isAlias folded e || isAlias (withoutPoints folded) e || e.properName = String.ofList folded

end Encoding

/-! ## Encodings by name -/

/-- The ways in which bytes are no text in the encoding of a name: the encoding does not define
them, there is no encoding of that name for texts, or it fails in a way of its own. -/
inductive CodecError (ε : Type) where
  | undecodable
  | unknownName
  | other (e : ε)
deriving DecidableEq, Repr

/-- The encodings there are: the text of some bytes in the encoding of a name. An encoding that can
spell half of a surrogate pair has a character stand in for it. -/
abbrev Codecs (ε : Type) := Text → ByteArray → Except (CodecError ε) Text

/-- The encodings that are written out, by their names. -/
def Encoding.codecs : Codecs Empty := fun name bytes =>
  match ofName? name with
  | none => .error .unknownName
  | some e => match e.decode? bytes with
    | some t => .ok t
    | none => .error .undecodable

/-! ## Stylesheets -/

/-- The ways in which the bytes of a stylesheet are no text: those of encodings, and that the name
of the encoding cannot be one, since it holds the code point zero. -/
inductive EncodingError (ε : Type) where
  | undecodable
  | unknownName (name : Text)
  | invalidName
  | other (e : ε)
deriving DecidableEq, Repr

/-- The failure of an encoding that a stylesheet names. -/
def EncodingError.ofCodec {ε : Type} (name : Text) : CodecError ε → EncodingError ε
  | .undecodable => .undecodable
  | .unknownName => .unknownName name
  | .other e => .other e

namespace Encoding

/-- How a rule starts that names the encoding. -/
def ruleStart : List UInt8 := "@charset \"".toUTF8.data.toList

/-- The bytes of the name in a rule at the very start that names the encoding. -/
def declaredName? (bytes : List UInt8) : Option (List UInt8) :=
  if ruleStart.isPrefixOf bytes then
    let body := bytes.drop ruleStart.length
    let name := body.takeWhile (· ≠ 0x22)
    if !name.isEmpty && [0x22, 0x3B].isPrefixOf (body.drop name.length) then some name else none
  else none

/-- The name of an encoding in small letters; none if its bytes are not in ASCII. -/
def nameText? (name : List UInt8) : Option Text := (ascii.decode? ⟨name.toArray⟩).map Text.lower

/-- The text of a stylesheet, given the encodings there are. -/
def decodeWith {ε : Type} (codecs : Codecs ε) (bytes : ByteArray) :
    Except (EncodingError ε) Text :=
  match declaredName? bytes.data.toList with
  | none => match utf8Marked.decode? bytes with
    | some t => .ok t
    | none => .error .undecodable
  | some name => match nameText? name with
    | none => .error .undecodable
    | some name =>
      if name.contains '\x00' then .error .invalidName
      else (codecs name bytes).mapError (.ofCodec name)

/-- The text of a stylesheet in one of the encodings that are written out. -/
def decodeStylesheet (bytes : ByteArray) : Except (EncodingError Empty) Text :=
  decodeWith codecs bytes

end Encoding

end StyleAudit
