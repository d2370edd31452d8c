import StyleAudit.Source.Position
import StyleAudit.Text.Quoted

/-!
# What can be wrong with a stylesheet

A fault is a cause; its wording is in `Fault.message`. An error is a fault at a position.
-/

namespace StyleAudit

/-- The ways in which a stylesheet can be malformed. The first eight are found while reading
tokens, the others while putting them together. -/
inductive Fault where
  | commentNotClosed
  | stringNotClosed
  | stringBroken
  | escapeAtEnd
  | urlNotClosed
  | urlCharacter
  | urlBackslash
  | strayBackslash
  | blockNotClosed
  | functionNotClosed
  | ruleNotClosed
  | nameExpected
  | colonExpected
  | valueMissing (property : Text)
deriving DecidableEq, Repr

/-- The wording of a fault. -/
def Fault.message : Fault → String
  | commentNotClosed => "Comment not closed"
  | stringNotClosed => "String was not closed"
  | stringBroken => "String literal not closed"
  | escapeAtEnd => "Escape at end of input"
  | urlNotClosed => "Url not closed"
  | urlCharacter => "Invalid character in url"
  | urlBackslash => "Invalid backslash in url"
  | strayBackslash => "Invalid backslash"
  | blockNotClosed => "Block was not closed"
  | functionNotClosed => "Function was not closed"
  | ruleNotClosed => "Qualified rule is not closed"
  | nameExpected => "Expected a property name"
  | colonExpected => "Expected a colon"
  | valueMissing property => "Missing value for " ++ Text.quoted property

/-- A fault and where it was found. -/
structure SyntaxError where
  fault : Fault
  position : Position
deriving DecidableEq, Repr

/-- An error as it is printed. -/
def SyntaxError.render (e : SyntaxError) : String :=
  e.fault.message ++ " at " ++ e.position.render

end StyleAudit
