import Mathlib.Data.Prod.Lex
import StyleAudit.Source.Position

/-!
# Positions in source order

A position comes before another if its line does, or if it stands further left
on the same line. Reading a code point always moves on in this order: a line
feed to a later line, anything else to a later column. So a text that is not
empty leads to a later position, and the position of an offset is where reading
the text before it leads.
-/

namespace StyleAudit.Position

/-- Line and column as one value, compared line first. -/
def rank (p : Position) : ℤ ×ₗ ℤ := toLex (p.line, p.column)

theorem rank_injective : Function.Injective rank := by
  intro p q h
  have hpair : (p.line, p.column) = (q.line, q.column) := toLex.injective h
  cases p
  cases q
  cases hpair
  rfl

instance : LinearOrder Position := LinearOrder.lift' rank rank_injective

theorem lt_iff {p q : Position} :
    p < q ↔ p.line < q.line ∨ p.line = q.line ∧ p.column < q.column :=
  Prod.Lex.lt_iff

theorem lt_step (p : Position) (c : Char) : p < p.step c := by
  rw [lt_iff, step]
  split
  · exact Or.inl (Int.lt_succ p.line)
  · exact Or.inr ⟨rfl, Int.lt_succ p.column⟩

theorem le_advance (p : Position) (t : Text) : p ≤ p.advance t := by
  induction t generalizing p with
  | nil => exact le_refl p
  | cons c t ih =>
      rw [advance_cons]
      exact (lt_step p c).le.trans (ih (p.step c))

theorem lt_advance {t : Text} (ht : t ≠ []) (p : Position) :
    p < p.advance t := by
  cases t with
  | nil => exact absurd rfl ht
  | cons c t =>
      rw [advance_cons]
      exact (lt_step p c).trans_le (le_advance (p.step c) t)

theorem advance_take_le (p : Position) (t : Text) (n : Nat) :
    p.advance (t.take n) ≤ p.advance t := by
  have h := le_advance (p.advance (t.take n)) (t.drop n)
  rwa [← advance_append, List.take_append_drop] at h

theorem line_advance (p : Position) (t : Text) :
    (p.advance t).line = p.line + t.count '\n' := by
  induction t generalizing p with
  | nil => simp
  | cons c t ih =>
      rw [advance_cons, ih, List.count_cons, step]
      by_cases hc : c = '\n'
      · simp only [hc, if_true, beq_self_eq_true]
        push_cast
        omega
      · simp [hc]

/-- Inside a source the position of an offset is that of the text before it. -/
theorem ofOffset_append (before after : Text) :
    ofOffset (before ++ after) before.length = start.advance before := by
  have hlen : before.length - (before ++ after).length = 0 := by
    rw [List.length_append]
    omega
  rw [ofOffset, List.take_left, hlen]
  simp

theorem ofOffset_length (source : Text) :
    ofOffset source source.length = start.advance source := by
  have h := ofOffset_append source []
  rwa [List.append_nil] at h

end StyleAudit.Position
