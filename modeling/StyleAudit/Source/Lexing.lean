import StyleAudit.Source.Lexeme

/-!
# Reading a source into tokens

A source is read in three steps. `normalize` makes every line end a line feed and replaces the
code point zero. `lexemes` cuts the text into slices, one to a token, without regard to place.
`place` gives each lexeme its span by counting through the slices, and turns flaws into errors.
-/

namespace StyleAudit.Source

/-- A source in which line feeds alone end lines and no code point is zero. -/
def normalize : Text → Text
  | [] => []
  | '\r' :: '\n' :: rest => '\n' :: normalize rest
  | c :: rest =>
    (if c = '\r' || c = '\x0c' then '\n' else if c = '\x00' then replacement else c)
      :: normalize rest

theorem normalize_pair (rest : Text) :
    normalize ('\r' :: '\n' :: rest) = '\n' :: normalize rest := by
  rw [normalize]

theorem normalize_return {rest : Text} (h : rest.head? ≠ some '\n') :
    normalize ('\r' :: rest) = '\n' :: normalize rest := by
  rw [normalize]
  · rfl
  · rintro after - rfl
    exact h rfl

theorem normalize_cons {c : Char} (h : c ≠ '\r') (rest : Text) :
    normalize (c :: rest) =
      (if c = '\x0c' then '\n' else if c = '\x00' then replacement else c) :: normalize rest := by
  rw [normalize]
  · simp [h]
  · intro _ hc
    exact absurd hc h

/-- A token, the part of the text it was read from, and the fault found in it with the text read
from the start of the token until it was noticed. -/
structure Lexeme where
  kind : Token.Kind
  slice : Text
  flaw : Option (Fault × Text)
deriving DecidableEq, Repr

/-- What of `t` has been read when `rest` is left. -/
def consumed (t rest : Text) : Text := t.take (t.length - rest.length)

theorem consumed_append {t rest : Text} (h : rest <:+ t) : consumed t rest ++ rest = t := by
  obtain ⟨s, rfl⟩ := h
  simp [consumed]

/-- The lexeme of a step of reading that started at `t`. -/
def Scan.lexeme (t : Text) (s : Scan) : Lexeme where
  kind := s.kind
  slice := consumed t s.rest
  flaw := s.flaw.map fun (fault, rest) => (fault, consumed t rest)

/-- The lexemes of a text. -/
def lexemes (t : Text) : List Lexeme :=
  match t with
  | [] => []
  | c :: rest =>
    have := (scan_suffix c rest).length_le
    (scan c rest).lexeme (c :: rest) :: lexemes (scan c rest).rest
termination_by t.length
decreasing_by simp only [List.length_cons]; omega

@[simp] theorem lexemes_nil : lexemes [] = [] := by rw [lexemes]

theorem lexemes_cons (c : Char) (rest : Text) :
    lexemes (c :: rest) = (scan c rest).lexeme (c :: rest) :: lexemes (scan c rest).rest := by
  rw [lexemes]

/-- The error of a lexeme that starts at a position, if it has a flaw. -/
def Lexeme.error? (l : Lexeme) (p : Position) : Option SyntaxError :=
  l.flaw.map fun (fault, before) => ⟨fault, p.advance before⟩

/-- The lexeme as a token that starts at a position. -/
def Lexeme.token (l : Lexeme) (p : Position) : Token := ⟨l.kind, ⟨p, p.advance l.slice⟩⟩

/-- The tokens of a source, ending with the one that marks the end, and the errors found. -/
structure Tokens where
  tokens : List Token
  errors : List SyntaxError
deriving DecidableEq, Repr

/-- The tokens of a list of lexemes that starts at a position. -/
def place (p : Position) : List Lexeme → Tokens
  | [] => ⟨[⟨.eof, ⟨p, p⟩⟩], []⟩
  | l :: rest =>
    let more := place (p.advance l.slice) rest
    ⟨l.token p :: more.tokens, (l.error? p).toList ++ more.errors⟩

/-- The tokens of a source and its errors, in order. -/
def tokenize (source : Text) : Tokens := place .start (lexemes (normalize source))

end StyleAudit.Source
