import StyleAudit.Tree.Declaration

/-!
# The tree of a stylesheet

A node is a declaration, a rule with a selector, an at-rule, or a piece that could not be
understood, kept with the error that says why. Rules hold the components of their block as well
as the nodes read from them.
-/

namespace StyleAudit

/-- A construct of a stylesheet. -/
inductive Node where
  | declaration (d : Declaration)
  | rule (prelude : List Component) (block : Block) (children : List Node)
  | atRule (name : Text) (span : Span) (prelude : List Component) (block : Option Block)
      (children : List Node)
  | malformed (values : List Component) (error : SyntaxError)
deriving Inhabited

namespace Node

mutual

/-- A node as it is listed. -/
def describe : Node → String
  | declaration d =>
    "Decl(" ++ (if d.important then "!, " else "") ++ Text.quoted d.name ++ ", "
      ++ Component.describeAll d.values ++ ")"
  | rule prelude _ children =>
    "QualifiedRule(prelude=" ++ Component.describeAll prelude ++ ", children=["
      ++ ", ".intercalate (describeEach children) ++ "])"
  | atRule name _ prelude block _ =>
    "AtRule(" ++ Text.quoted name ++ ", prelude=" ++ Component.describeAll prelude ++ ", block="
      ++ (if block.isSome then "\x7b...\x7d" else "None") ++ ")"
  | malformed values _ => "Raw(" ++ Component.describeAll values ++ ")"

/-- Each of some nodes as it is listed. -/
def describeEach : List Node → List String
  | [] => []
  | n :: rest => describe n :: describeEach rest

end

end Node

end StyleAudit
