import StyleAudit.Source.Lexing
import StyleAudit.Tree.Parsing

/-!
# Stylesheets

`Stylesheet.parse` reads a source: into tokens, and the tokens without comments into rules. In
strict mode the first error is the result, and errors of the tokens come before all others; in
tolerant mode the errors of the tokens and then those of the tree are kept with the rules.
-/

namespace StyleAudit

/-- The rules of a stylesheet and the errors recorded while reading it. -/
structure Stylesheet where
  rules : List Node
  errors : List SyntaxError
deriving Inhabited

namespace Stylesheet

/-- Tokens as components, without the comments. -/
def components (tokens : List Token) : List Component :=
  (tokens.filter fun t => !t.kind.isComment).map .token

/-- The stylesheet of a list of components. -/
def ofComponents (mode : Mode) (cs : List Component) : Except SyntaxError Stylesheet :=
  match ruleList mode true cs with
  | .done rules errors => .ok ⟨rules, errors⟩
  | .halted error _ => .error error

/-- The stylesheet of a list of tokens, whatever errors were found in them. -/
def ofTokens (mode : Mode) (tokens : List Token) : Except SyntaxError Stylesheet :=
  ofComponents mode (components tokens)

/-- The stylesheet of a source whose tokens have been read. -/
def ofLexed (mode : Mode) (lexed : Source.Tokens) : Except SyntaxError Stylesheet :=
  match mode, lexed.errors with
  | .strict, error :: _ => .error error
  | _, errors => do
    let sheet ← ofTokens mode lexed.tokens
    return { sheet with errors := errors ++ sheet.errors }

/-- The stylesheet of a source. -/
def parse (mode : Mode) (source : Text) : Except SyntaxError Stylesheet :=
  ofLexed mode (Source.tokenize source)

/-- A stylesheet as it is listed. -/
def describe (s : Stylesheet) : String :=
  "Stylesheet(\n  " ++ "\n  ".intercalate (s.rules.map Node.describe) ++ "\n)"

end Stylesheet

end StyleAudit
