import StyleAudit.Availability.Database

/-!
# Thresholds

A threshold is a level of availability or a year. A record meets a level if its status is that
level or better, and a year if it has been available since then or earlier. A feature without a
record is supported.
-/

namespace StyleAudit

/-- The availability that is asked for. -/
inductive Threshold where
  | widely
  | newly
  | year (y : Int)
deriving DecidableEq, Repr, Inhabited

namespace Threshold

/-- The availability that is asked for, as it is told: the word of a level, or a year. -/
def toJson : Threshold → Json
  | widely => .str "widely"
  | newly => .str "newly"
  | year y => .int y

/-- Whether a record meets the threshold. -/
def isMetBy (t : Threshold) (r : Record) : Bool :=
  match t with
  | widely => r.status = .widely
  | newly => r.status = .newly || r.status = .widely
  | year y => r.since.any fun since => decide (since ≤ y)

/-- Whether a feature counts as supported. -/
def supports (t : Threshold) (d : Database) (kind : Feature.Kind) (key : Text) : Bool :=
  match d.get? kind key with
  | none => true
  | some r => t.isMetBy r

/-- The threshold that a JSON value spells: one of the two words or an integer. -/
def ofJson? : Json → Option Threshold
  | .str s => if s = "widely" then some widely else if s = "newly" then some newly else none
  | .int y => some (year y)
  | _ => none

end Threshold

end StyleAudit
