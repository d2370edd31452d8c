import Mathlib.Data.List.Basic
import Mathlib.Logic.Function.Iterate
import StyleAudit.Support.Scope

/-!
# What a scope owes to its history

A scope is a stack, and each of its frames holds what all the frames below it
hold. Support rules that have been left must not show in it: after any sequence
of entering and leaving, the scope is the one that entering just the rules which
are still open would have made (`run_outermost`). Everything else is read off
from that scope, by induction on the open rules.

That a rule is left as it was entered needs the place where it was entered. It is
found by going back over the sequence past everything that was opened and closed
since (`exists_entry`), and what lies between leaves no trace (`Balanced.run`).
-/

namespace StyleAudit.Scope

/-- What is done with a scope: a support rule is entered, the innermost of those
that are open is left, or a feature is looked up. Something that fails inside of
rules leaves them one after the other, as the end of their bodies does. -/
inductive Action where
  | enter (prelude : List Component)
  | leave
  | ask (f : Feature)

/-- The keys that the condition of a support rule asserts. -/
def granted (prelude : List Component) : List Feature.Key :=
  (Condition.ofComponents prelude).asserted

/-- The scope after an action. -/
def act (s : Scope) : Action → Scope
  | .enter prelude => s.enter (granted prelude)
  | .leave => s.leave
  | .ask _ => s

/-- The scope after some actions. -/
def run (s : Scope) (actions : List Action) : Scope := actions.foldl act s

/-- The rules that are open after an action, the innermost first. -/
def actOn (rules : List (List Component)) : Action → List (List Component)
  | .enter prelude => prelude :: rules
  | .leave => rules.tail
  | .ask _ => rules

/-- The rules that are open after some actions, the innermost first. -/
def openRules (actions : List Action) : List (List Component) := actions.foldl actOn []

theorem run_append (s : Scope) (first second : List Action) :
    s.run (first ++ second) = (s.run first).run second := List.foldl_append ..

theorem openRules_concat (actions : List Action) (a : Action) :
    openRules (actions ++ [a]) = actOn (openRules actions) a := by
  rw [openRules, List.foldl_append]
  rfl

/-! ## The scope of the open rules -/

/-- The scope inside of some rules, the innermost of which comes first. -/
def inside (rules : List (List Component)) : Scope :=
  rules.foldr (fun prelude s => s.enter (granted prelude)) outermost

theorem act_inside (rules : List (List Component)) (a : Action) :
    (inside rules).act a = inside (actOn rules a) := by
  cases a with
  | enter prelude => rfl
  | ask f => rfl
  | leave =>
      cases rules with
      | nil => rfl
      | cons prelude rules => exact leave_enter ..

/-- A scope shows the rules that are open, and nothing of those that were left. -/
theorem run_outermost (actions : List Action) :
    outermost.run actions = inside (openRules actions) := by
  have h : (inside []).run actions = inside (actions.foldl actOn []) :=
    List.foldl_hom inside act_inside
  exact h

theorem depth_inside (rules : List (List Component)) : (inside rules).depth = rules.length := by
  induction rules with
  | nil => rfl
  | cons prelude rules ih =>
      rw [List.length_cons, ← ih]
      rfl

theorem keys_inside_cons (prelude : List Component) (rules : List (List Component)) :
    (inside (prelude :: rules)).keys = (inside rules).keys ++ granted prelude := rfl

theorem mem_keys_inside (rules : List (List Component)) (key : Feature.Key) :
    key ∈ (inside rules).keys ↔ ∃ prelude ∈ rules, key ∈ granted prelude := by
  induction rules with
  | nil => simp [inside]
  | cons prelude rules ih =>
      rw [keys_inside_cons, List.mem_append, ih]
      simp only [List.mem_cons, exists_eq_or_imp]
      exact or_comm

theorem leave_iterate_inside (n : Nat) (rules : List (List Component)) :
    leave^[n] (inside rules) = inside (rules.drop n) := by
  induction n with
  | zero => rfl
  | succ n ih =>
      rw [Function.iterate_succ_apply', ih, ← List.tail_drop]
      exact act_inside _ .leave

theorem keys_inside_tail_subset (rules : List (List Component)) :
    (inside rules.tail).keys ⊆ (inside rules).keys := by
  cases rules with
  | nil => exact List.Subset.refl _
  | cons prelude rules => exact List.subset_append_left ..

/-! ## Where a rule was entered -/

/-- Actions that leave the rules which they enter, and no others. -/
inductive Balanced : List Action → Prop
  | nil : Balanced []
  | ask (f : Feature) {rest : List Action} (h : Balanced rest) : Balanced (.ask f :: rest)
  | rule (prelude : List Component) {inner rest : List Action} (hi : Balanced inner)
      (hr : Balanced rest) : Balanced (.enter prelude :: (inner ++ .leave :: rest))

theorem Balanced.append {first second : List Action} (h : Balanced first)
    (h' : Balanced second) : Balanced (first ++ second) := by
  induction h with
  | nil => exact h'
  | ask f _ ih => exact .ask f ih
  | rule prelude hi _ _ ih =>
      rw [List.cons_append, List.append_assoc]
      exact .rule prelude hi ih

/-- What is balanced leaves no trace, in whatever scope it is done. -/
theorem Balanced.run {actions : List Action} (h : Balanced actions) (s : Scope) :
    s.run actions = s := by
  induction h generalizing s with
  | nil => rfl
  | ask f _ ih => exact ih s
  | @rule prelude inner rest _ _ ihi ihr =>
      have hentered : s.run (.enter prelude :: (inner ++ .leave :: rest)) =
          (s.enter (granted prelude)).run (inner ++ .leave :: rest) := rfl
      have hleft : (s.enter (granted prelude)).run (.leave :: rest) = s.run rest := rfl
      rw [hentered, run_append, ihi, hleft, ihr]

/-- The innermost open rule was entered at some point, and all that was entered
since has been left. The induction is on the length, as a rule that was left is
skipped together with all that it held. -/
theorem exists_entry {actions : List Action} {prelude : List Component}
    {outer : List (List Component)} (h : openRules actions = prelude :: outer) :
    ∃ before inner, actions = before ++ .enter prelude :: inner ∧ Balanced inner ∧
      openRules before = outer := by
  induction hn : actions.length using Nat.strongRecOn generalizing actions prelude outer with
  | ind n ih =>
      rcases List.eq_nil_or_concat' actions with rfl | ⟨earlier, a, rfl⟩
      · cases h
      · rw [openRules_concat] at h
        have hshort : earlier.length < n := by
          rw [← hn, List.length_append]
          exact Nat.lt_succ_self _
        cases a with
        | enter other =>
            cases h
            exact ⟨earlier, [], rfl, .nil, rfl⟩
        | ask f =>
            obtain ⟨before, inner, rfl, hinner, houter⟩ := ih _ hshort h rfl
            refine ⟨before, inner ++ [.ask f], ?_, hinner.append (.ask f .nil), houter⟩
            rw [List.append_assoc, List.cons_append]
        | leave =>
            cases hopen : openRules earlier with
            | nil =>
                rw [hopen] at h
                cases h
            | cons other rules =>
                obtain rfl : rules = prelude :: outer := by rwa [hopen] at h
                obtain ⟨middle, closed, rfl, hclosed, hmiddle⟩ := ih _ hshort hopen rfl
                have hshorter : middle.length < n := by
                  rw [List.length_append] at hshort
                  omega
                obtain ⟨before, inner, rfl, hinner, houter⟩ := ih _ hshorter hmiddle rfl
                refine ⟨before, inner ++ .enter other :: (closed ++ [.leave]), ?_,
                  hinner.append (.rule other hclosed .nil), houter⟩
                simp only [List.append_assoc, List.cons_append]

/-! ## The invariant -/

/-- After any sequence of actions the scope is as deep as there are open rules, it
holds the keys of exactly these rules, it allows the features that have one of
these keys, and a frame holds all that the frames around it hold. Leaving the
innermost rule leads back to the scope in which it was entered, and the scope
outside of all rules is the empty one. -/
theorem scope_after_actions (actions : List Action) :
    let s := outermost.run actions
    let rules := openRules actions
    s.depth = rules.length ∧
    (∀ key, key ∈ s.keys ↔ ∃ prelude ∈ rules, key ∈ (Condition.ofComponents prelude).asserted) ∧
    (∀ f : Feature, s.allows f.scopeKey = true ↔
      ∃ prelude ∈ rules, (f.kind, f.key) ∈ (Condition.ofComponents prelude).asserted) ∧
    (∀ n, (leave^[n + 1] s).keys ⊆ (leave^[n] s).keys) ∧
    (∀ prelude outer, rules = prelude :: outer → ∃ before inner,
      actions = before ++ .enter prelude :: inner ∧ Balanced inner ∧ openRules before = outer ∧
      outermost.run (actions ++ [.leave]) = outermost.run before) ∧
    (rules = [] → s = outermost ∧ s.keys = []) := by
  intro s rules
  have hs : s = inside rules := run_outermost actions
  refine ⟨?_, ?_, ?_, ?_, ?_, ?_⟩
  · rw [hs, depth_inside]
  · intro key
    rw [hs]
    exact mem_keys_inside rules key
  · intro f
    rw [hs, allows, List.contains_iff_mem]
    exact mem_keys_inside rules f.scopeKey
  · intro n
    rw [hs, leave_iterate_inside, leave_iterate_inside, ← List.tail_drop]
    exact keys_inside_tail_subset _
  · intro prelude outer hrules
    obtain ⟨before, inner, hactions, hinner, houter⟩ := exists_entry hrules
    refine ⟨before, inner, hactions, hinner, houter, ?_⟩
    rw [hactions, List.append_assoc, run_append]
    exact (Balanced.rule prelude hinner .nil).run _
  · intro hrules
    rw [hs, hrules]
    exact ⟨rfl, rfl⟩

end StyleAudit.Scope
