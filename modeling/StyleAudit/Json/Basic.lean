import StyleAudit.Dictionary
import StyleAudit.Number.Binary64

/-!
# JSON values

Options and availability data are JSON. A number written with a point or an exponent is a double
and never an integer, and the members of an object keep their order.
-/

namespace StyleAudit

/-- A JSON value. -/
inductive Json where
  | null
  | bool (b : Bool)
  | int (n : Int)
  | real (x : Binary64)
  | str (s : String)
  | arr (items : List Json)
  | obj (members : List (String × Json))
deriving Inhabited, Repr

namespace Json

mutual

/-- Whether two values are equal. -/
def beq : Json → Json → Bool
  | null, null => true
  | bool a, bool b => a == b
  | int a, int b => a == b
  | real a, real b => a == b
  | str a, str b => a == b
  | arr a, arr b => beqItems a b
  | obj a, obj b => beqMembers a b
  | _, _ => false

/-- Whether two lists of values are equal. -/
def beqItems : List Json → List Json → Bool
  | [], [] => true
  | a :: s, b :: t => beq a b && beqItems s t
  | _, _ => false

/-- Whether two lists of members are equal. -/
def beqMembers : List (String × Json) → List (String × Json) → Bool
  | [], [] => true
  | (m, a) :: s, (n, b) :: t => m == n && beq a b && beqMembers s t
  | _, _ => false

end

mutual

theorem eq_of_beq {a b : Json} (h : beq a b = true) : a = b := by
  cases a <;> cases b <;> simp only [beq, Bool.false_eq_true] at h
  · rfl
  · rw [LawfulBEq.eq_of_beq h]
  · rw [LawfulBEq.eq_of_beq h]
  · rw [LawfulBEq.eq_of_beq h]
  · rw [LawfulBEq.eq_of_beq h]
  · rw [eq_of_beqItems h]
  · rw [eq_of_beqMembers h]

theorem eq_of_beqItems {s t : List Json} (h : beqItems s t = true) : s = t := by
  match s, t with
  | [], [] => rfl
  | [], _ :: _ => simp [beqItems] at h
  | _ :: _, [] => simp [beqItems] at h
  | a :: s, b :: t =>
    simp only [beqItems, Bool.and_eq_true] at h
    rw [eq_of_beq h.1, eq_of_beqItems h.2]

theorem eq_of_beqMembers {s t : List (String × Json)} (h : beqMembers s t = true) : s = t := by
  match s, t with
  | [], [] => rfl
  | [], _ :: _ => simp [beqMembers] at h
  | _ :: _, [] => simp [beqMembers] at h
  | (m, a) :: s, (n, b) :: t =>
    simp only [beqMembers, Bool.and_eq_true] at h
    rw [LawfulBEq.eq_of_beq h.1.1, eq_of_beq h.1.2, eq_of_beqMembers h.2]

end

mutual

theorem beq_self (a : Json) : beq a a = true := by
  cases a with
  | arr items => simpa only [beq] using beqItems_self items
  | obj members => simpa only [beq] using beqMembers_self members
  | _ => simp [beq]

theorem beqItems_self (s : List Json) : beqItems s s = true := by
  match s with
  | [] => rfl
  | a :: s => simp [beqItems, beq_self a, beqItems_self s]

theorem beqMembers_self (s : List (String × Json)) : beqMembers s s = true := by
  match s with
  | [] => rfl
  | (m, a) :: s => simp [beqMembers, beq_self a, beqMembers_self s]

end

instance : DecidableEq Json := fun a b =>
  decidable_of_iff (beq a b = true) ⟨eq_of_beq, fun h => h ▸ beq_self a⟩

/-- A name as a value. -/
def ofText (t : List Char) : Json := str (String.ofList t)

/-- The members of an object. -/
def members? : Json → Option (Dictionary String Json)
  | obj members => some members
  | _ => none

/-- The text of a string. -/
def string? : Json → Option String
  | str s => some s
  | _ => none

/-- The value of an integer. -/
def int? : Json → Option Int
  | int n => some n
  | _ => none

/-- The member of an object with a name; none when it is missing or this is no object. -/
def get? (json : Json) (name : String) : Option Json :=
  json.members?.bind (Dictionary.get? name)

/-- The name by which messages call the type of a value. -/
def typeName : Json → String
  | null => "NoneType"
  | bool _ => "bool"
  | int _ => "int"
  | real _ => "float"
  | str _ => "str"
  | arr _ => "list"
  | obj _ => "dict"

end Json

end StyleAudit
