import StyleAudit.Cursor
import StyleAudit.Source.Lexing
import StyleAudit.Source.Lines

/-!
# Reading a source step by step

The readers of single tokens, escapes and names, applied where a cursor stands in a normalized
source. Each returns what it read, the error it found if any, and the cursor behind it.

From a negative index reading goes on from the end of the source to its start. Only what is looked
for as a whole does not: the end of a comment, and the marks that hide a stylesheet inside another
document.
-/

namespace StyleAudit.Source

/-- What a step read, the error it found, and where it left the cursor. -/
structure Step (α : Type) where
  value : Except Lost α
  error? : Option SyntaxError
  cursor : Cursor Char

/-- A cursor at the start of a source, which is normalized first. -/
def cursor (source : Text) : Cursor Char := .ofList (normalize source)

/-- The position at which a cursor stands. -/
def position (c : Cursor Char) : Position := .ofIndex c.items c.index

/-- The token of a kind between two places of a cursor. -/
def tokenBetween (kind : Token.Kind) (start stop : Cursor Char) : Token :=
  ⟨kind, ⟨position start, position stop⟩⟩

/-- The comment at the cursor. Its end is looked for behind its two opening marks; its text is
what of the source lies between its start and its end. -/
def readComment (c : Cursor Char) : Step Token :=
  let stop : Cursor Char × Option SyntaxError :=
    match closeComment? (c.onwards (c.index + 2)) with
    | some (_, after) => ({ c with index := (c.items.length - after.length : Nat) }, none)
    | none => ({ c with index := c.items.length }, some ⟨.commentNotClosed, position c.forth⟩)
  let start := c.items.length - (c.onwards c.index).length
  let text := (c.items.take stop.1.index.toNat).drop start
  ⟨.ok (tokenBetween (.comment text) c stop.1), stop.2, stop.1⟩

/-- The token that starts with `d` and goes on with `rest`, if `onwards` follows `d` in the source
itself: a mark of another document counts only there. -/
def scanMark (onwards : Text) (d : Char) (rest : Text) : Scan :=
  let s := scan d rest
  if (s.kind = .cdc || s.kind = .cdo) && !(s.kind.raw.drop 1).isPrefixOf onwards then
    if d = '-' then scanName (d :: rest) else .sound (.delim d) rest
  else s

/-- The token at the cursor; at the end of the source the one that marks it. -/
def readToken (c : Cursor Char) : Step Token :=
  if c.isLost then ⟨.error .lost, none, c.forth⟩
  else match c.ahead with
    | [] => ⟨.ok (tokenBetween .eof c c), none, c⟩
    | d :: rest =>
      if d = '/' && rest.head? = some '*' then readComment c
      else
        let s := scanMark (c.onwards (c.index + 1)) d rest
        ⟨.ok (tokenBetween s.kind c (c.leave s.rest)),
          s.flaw.map fun (fault, left) => ⟨fault, position (c.leave left)⟩, c.leave s.rest⟩

/-- The code point of the escape at the cursor, the backslash having been read. -/
def readEscape (c : Cursor Char) : Step Char :=
  if c.isLost then ⟨.error .lost, none, c.forth⟩
  else
    let error? := if c.ahead.isEmpty then some ⟨.escapeAtEnd, position c⟩ else none
    ⟨.ok (escape c.ahead).1, error?, c.leave (escape c.ahead).2⟩

/-- The name at the cursor. -/
def readName (c : Cursor Char) : Step Text :=
  if c.isLost then ⟨.error .lost, none, c⟩
  else ⟨.ok (name c.ahead).1, none, c.leave (name c.ahead).2⟩

end StyleAudit.Source
