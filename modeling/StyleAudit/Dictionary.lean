/-!
# Dictionaries in order of insertion

A dictionary is a list of pairs. `put` replaces the value of a key that is present, in its place,
and adds a new key at the end; `get?` finds the value of a key. The order is part of the value:
objects, records and results are listed in it.
-/

namespace StyleAudit

/-- Keys with their values, in the order in which the keys were first put. -/
abbrev Dictionary (α β : Type) := List (α × β)

namespace Dictionary

variable {α β : Type} [DecidableEq α]

/-- The value of a key. -/
def get? (key : α) : Dictionary α β → Option β
  | [] => none
  | (k, v) :: rest => if k = key then some v else get? key rest

/-- The dictionary with the key's value set. -/
def put (key : α) (value : β) : Dictionary α β → Dictionary α β
  | [] => [(key, value)]
  | (k, v) :: rest => if k = key then (k, value) :: rest else (k, v) :: put key value rest

/-- The dictionary of a list of pairs, of which a later one replaces an earlier one. -/
def ofList (pairs : List (α × β)) : Dictionary α β :=
  pairs.foldl (fun d p => put p.1 p.2 d) []

/-- The keys in order. -/
def keys (d : Dictionary α β) : List α := d.map Prod.fst

/-- The values in order. -/
def values (d : Dictionary α β) : List β := d.map Prod.snd

theorem get?_put (key other : α) (value : β) (d : Dictionary α β) :
    get? other (put key value d) = if other = key then some value else get? other d := by
  induction d with
  | nil => grind [put, get?]
  | cons p rest ih => grind [put, get?]

theorem keys_put (key : α) (value : β) (d : Dictionary α β) :
    keys (put key value d) = if key ∈ keys d then keys d else keys d ++ [key] := by
  induction d with
  | nil => simp [put, keys]
  | cons p rest ih => grind [put, keys]

end Dictionary

end StyleAudit
