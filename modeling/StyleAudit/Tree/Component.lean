import StyleAudit.Source.Token

/-!
# Components

A component is a token, a function with its arguments, or what a pair of brackets encloses. The
span of the closing token is kept if there was one: a function or block that was still open at
the end of the source has none, and ends where the last thing in it ends.
-/

namespace StyleAudit

/-- A token, a function or a bracketed block. The span of a function's token, its parenthesis
included, and of an opening bracket comes first; then the contents; then the span of the closing
token, unless it is missing. -/
inductive Component where
  | token (t : Token)
  | function (name : Text) (head : Span) (values : List Component) (closing : Option Span)
  | block (bracket : Bracket) (opening : Span) (values : List Component) (closing : Option Span)
deriving Repr, Inhabited

namespace Component

/-- Where a component starts. -/
def start : Component → Position
  | token t => t.span.start
  | function _ head _ _ => head.start
  | block _ opening _ _ => opening.start

mutual

/-- Where a component ends. -/
def stop : Component → Position
  | token t => t.span.stop
  | function _ head values closing =>
    match closing with
    | some s => s.stop
    | none => lastStop head.stop values
  | block _ opening values closing =>
    match closing with
    | some s => s.stop
    | none => lastStop opening.stop values

/-- Where the last of some components ends; the given position if there are none. -/
def lastStop (p : Position) : List Component → Position
  | [] => p
  | c :: rest => lastStop c.stop rest

end

/-- The part of the source a component was read from. -/
def span (c : Component) : Span := ⟨c.start, c.stop⟩

mutual

/-- The number of tokens, functions and blocks in a component. -/
def weight : Component → Nat
  | token _ => 1
  | function _ _ values _ => 1 + weights values
  | block _ _ values _ => 1 + weights values

/-- The number of tokens, functions and blocks in a list of components. -/
def weights : List Component → Nat
  | [] => 0
  | c :: rest => weight c + weights rest

end

theorem weight_pos (c : Component) : 0 < c.weight := by
  cases c <;> simp only [weight] <;> omega

/-- The kind of a component that is a token. -/
def kind? : Component → Option Token.Kind
  | token t => some t.kind
  | _ => none

/-- Whether a component is white space. -/
def isWhitespace (c : Component) : Bool := c.kind?.any Token.Kind.isWhitespace

/-- Whether a component is the mark of the end of the source. -/
def isEof (c : Component) : Bool := c.kind? == some .eof

/-- Whether a component is a semicolon. -/
def isSemicolon (c : Component) : Bool := c.kind? == some .semicolon

/-- Whether a component is a colon. -/
def isColon (c : Component) : Bool := c.kind? == some .colon

/-- Whether a component is one of the marks that hide a stylesheet inside another document. -/
def isDocumentMark (c : Component) : Bool := c.kind? == some .cdo || c.kind? == some .cdc

/-- Whether a component is an at-keyword. -/
def isAtKeyword (c : Component) : Bool :=
  match c.kind? with
  | some (.atKeyword _) => true
  | _ => false

/-- The name of a component that is an identifier. -/
def ident? (c : Component) : Option Text :=
  match c.kind? with
  | some (.ident name) => some name
  | _ => none

/-- The token a component starts with. -/
def leading : Component → Token
  | token t => t
  | function name head _ _ => ⟨.function name, head⟩
  | block bracket opening _ _ => ⟨.opening bracket, opening⟩

mutual

/-- A component as it is listed. -/
def describe : Component → String
  | token t => t.describe
  | function name _ values _ =>
    "Function(" ++ Text.quoted name ++ ", [" ++ ", ".intercalate (describeEach values) ++ "])"
  | block bracket _ values _ =>
    "Block(" ++ Text.quoted [bracket.left] ++ ", [" ++ ", ".intercalate (describeEach values)
      ++ "])"

/-- Each of some components as it is listed. -/
def describeEach : List Component → List String
  | [] => []
  | c :: rest => describe c :: describeEach rest

end

/-- A list of components as it is listed. -/
def describeAll (cs : List Component) : String :=
  "[" ++ ", ".intercalate (describeEach cs) ++ "]"

end Component

/-- The contents of a pair of curly brackets. -/
structure Block where
  opening : Span
  values : List Component
  closing : Option Span
deriving Repr, Inhabited

namespace Block

/-- A block as a component. -/
def component (b : Block) : Component := .block .curly b.opening b.values b.closing

/-- The part of the source a block was read from. -/
def span (b : Block) : Span := b.component.span

end Block

/-- A component that is a block between curly brackets, as such. -/
def Component.curly? : Component → Option Block
  | block .curly opening values closing => some ⟨opening, values, closing⟩
  | _ => none

theorem Component.curly?_eq_some {c : Component} {b : Block} (h : c.curly? = some b) :
    c = b.component := by
  cases c with
  | token t => cases h
  | function => cases h
  | block bracket opening values closing =>
    cases bracket with
    | curly => cases h; rfl
    | square => cases h
    | round => cases h

end StyleAudit
