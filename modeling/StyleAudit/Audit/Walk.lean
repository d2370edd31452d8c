import StyleAudit.Audit.Diagnostic
import StyleAudit.Audit.Exemption
import StyleAudit.Feature.Media
import StyleAudit.Support.Scope
import StyleAudit.Tree.Stylesheet

/-!
# The audit of a stylesheet

A walk visits the nodes of a stylesheet in source order, with the scope of the support rules that
are open. Every feature is checked against the allowed names, then against the scope, then
against the data; what is left is reported. Malformed pieces are passed over.
-/

namespace StyleAudit

/-- What an audit goes by. -/
structure Audit where
  configuration : Configuration
  database : Database

/-- Something that happened on a walk. -/
inductive Event where
  | reported (d : Diagnostic)
  | entered (position : Position) (depth : Nat) (keys : List Feature.Key)
  | skipped (error : SyntaxError)
deriving DecidableEq, Repr

/-- The diagnostic of an event that reports one. -/
def Event.diagnostic? : Event → Option Diagnostic
  | reported d => some d
  | _ => none

/-- Where a walk is: the scope, and what happened so far. -/
structure Walk where
  scope : Scope
  events : List Event

namespace Walk

/-- The start of a walk. -/
def start : Walk := ⟨.outermost, []⟩

/-- A walk on which something happened. -/
def note (w : Walk) (e : Event) : Walk := { w with events := w.events ++ [e] }

/-- A walk that enters a support rule. -/
def enter (w : Walk) (position : Position) (keys : List Feature.Key) : Walk :=
  let scope := w.scope.enter keys
  { w with scope }.note (.entered position scope.depth keys)

/-- A walk that leaves the innermost support rule. -/
def leave (w : Walk) : Walk := { w with scope := w.scope.leave }

end Walk

/-- The features of an at-rule: its name, and the media features of a rule that holds queries. -/
def Feature.ofAtRule (name : Text) (span : Span) (prelude : List Component) : List Feature :=
  match ofAtRule? name span with
  | none => []
  | some f =>
    f :: (if f.key = "media".toList || f.key = "import".toList then
      mediaConditions (mediaQueries prelude) else [])

namespace Audit

/-- A walk on which a feature has been checked. -/
def check (a : Audit) (w : Walk) (f : Feature) : Walk :=
  if a.configuration.exempts f then w
  else if w.scope.allows f.scopeKey then w
  else if a.configuration.available.supports a.database f.kind f.key then w
  else w.note (.reported (.ofFeature f a.configuration.available.toJson))

/-- A walk on which some features have been checked. -/
def checkAll (a : Audit) (w : Walk) (features : List Feature) : Walk := features.foldl a.check w

mutual

/-- A walk that has visited a node. -/
def visit (a : Audit) (w : Walk) : Node → Walk
  | .declaration d => a.checkAll w (Feature.ofDeclaration d)
  | .rule prelude _ children => a.visitAll (a.checkAll w (Feature.selectors prelude)) children
  | .atRule name span prelude _ children =>
    let w := a.checkAll w (Feature.ofAtRule name span prelude)
    if isSupportRule name then
      (a.visitAll (w.enter span.start (Condition.ofComponents prelude).asserted) children).leave
    else a.visitAll w children
  | .malformed _ error => w.note (.skipped error)

/-- A walk that has visited some nodes in order. -/
def visitAll (a : Audit) (w : Walk) : List Node → Walk
  | [] => w
  | n :: rest => a.visitAll (a.visit w n) rest

end

/-- What happens on the walk of a stylesheet. -/
def events (a : Audit) (sheet : Stylesheet) : List Event := (a.visitAll .start sheet.rules).events

/-- The diagnostics of a stylesheet, in order. -/
def diagnostics (a : Audit) (sheet : Stylesheet) : List Diagnostic :=
  (a.events sheet).filterMap Event.diagnostic?

/-- The diagnostics of a source. -/
def lint (a : Audit) (mode : Mode) (source : Text) : Except SyntaxError (List Diagnostic) :=
  (Stylesheet.parse mode source).map a.diagnostics

end Audit

end StyleAudit
