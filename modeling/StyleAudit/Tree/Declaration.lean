import StyleAudit.Source.SyntaxError
import StyleAudit.Text.Lower
import StyleAudit.Tree.Component

/-!
# Declarations

A declaration is a property name, a colon and a value. `Declaration.ofComponents` reads it from
the components between two semicolons: blanks around the parts are dropped, and a value that ends
with an exclamation mark directly before the word `important` loses both and is marked. Only a
custom property may have an empty value.

The components are those of a list that has been made ready for reading: there is neither a comment
among them nor the mark of the end.
-/

namespace StyleAudit

/-- A property name with its span, the components of the value, and whether it is important. -/
structure Declaration where
  name : Text
  span : Span
  values : List Component
  important : Bool
deriving Repr, Inhabited

/-- Whether a property is one that authors define: its name starts with two hyphens. -/
def isCustomProperty (name : Text) : Bool := ['-', '-'].isPrefixOf name

namespace Declaration

/-- A value without the mark of importance at its end, and whether the mark was there. -/
def splitImportant (values : List Component) : List Component × Bool :=
  match values.reverse with
  | .token ⟨.ident word, _⟩ :: .token ⟨.delim mark, _⟩ :: before =>
    if mark = '!' && Text.lower word = "important".toList then
      ((before.dropWhile Component.isWhitespace).reverse, true)
    else (values, false)
  | _ => (values, false)

/-- The declaration that a list of components spells, or what is wrong with it. Comments and the
mark of the end have been taken out of the list before. -/
def ofComponents (cs : List Component) : Except SyntaxError Declaration :=
  match cs.dropWhile Component.isWhitespace with
  | .token ⟨.ident name, span⟩ :: rest =>
    match rest.dropWhile Component.isWhitespace with
    | .token ⟨.colon, _⟩ :: body =>
      let (values, important) := splitImportant (trim Component.isWhitespace body)
      if values.isEmpty && !isCustomProperty name then .error ⟨.valueMissing name, span.stop⟩
      else .ok ⟨name, span, values, important⟩
    | _ => .error ⟨.colonExpected, span.stop⟩
  | _ => .error ⟨.nameExpected, (cs.head?.map Component.start).getD .start⟩

end Declaration

end StyleAudit
