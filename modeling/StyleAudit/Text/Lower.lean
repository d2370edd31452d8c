import StyleAudit.Text.Basic
import StyleAudit.Text.Case

/-!
# Small letters

`Text.lower` writes a text in small letters. It works letter by letter with one exception: a
capital sigma becomes the final form when it ends a word, that is, when the nearest letter
before it has case and the nearest one after it has not, code points that do not end a word
being passed over on both sides.
-/

namespace StyleAudit.Text

/-- Whether a code point is a letter that has case. -/
def isCased (c : Char) : Bool := inRanges c.toNat Case.cased

/-- Whether a code point is passed over when the end of a word is looked for. -/
def isIgnorable (c : Char) : Bool := inRanges c.toNat Case.ignorable

/-- The run of letters that a code point belongs to. -/
def caseRun? (n : Nat) : Option Case.Run :=
  Case.runs.find? fun r => r.first ≤ n && n ≤ r.last && (n - r.first) % r.step == 0

/-- The small form of a single letter; anything else stands for itself. The dotted capital I is
the one letter whose small form has two code points. -/
def lowerChar (c : Char) : Text :=
  if c = '\u0130' then ['i', '\u0307']
  else match caseRun? c.toNat with
    | some r => [Char.ofNat (c.toNat + r.shift).toNat]
    | none => [c]

/-- Whether the first code point that can end a word is a letter with case. -/
def startsCased (t : Text) : Bool :=
  match t.dropWhile isIgnorable with
  | c :: _ => isCased c
  | [] => false

/-- The small form of a text of which something came before: `inWord` tells whether the nearest
code point before it, ignorable ones aside, is a letter with case. -/
def lowerAfter (inWord : Bool) : Text → Text
  | [] => []
  | c :: rest =>
    let small := if c = 'Σ' then [if inWord && !startsCased rest then 'ς' else 'σ'] else lowerChar c
    small ++ lowerAfter (if isIgnorable c then inWord else isCased c) rest

/-- A text in small letters. -/
def lower (t : Text) : Text := lowerAfter false t

end StyleAudit.Text
