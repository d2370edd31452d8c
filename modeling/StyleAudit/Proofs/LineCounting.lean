import Mathlib.Data.List.DropRight
import StyleAudit.Proofs.Tiling

/-!
# Positions are counts

The line of an index is one more than the line feeds before it, and its column is one
more than the code points since the last of them, or since the start. That holds for
every index of a source, the one at its end included, also where a line starts there
or is empty.

A later index has a later position, as there is something to read between the two.
So no two indices share a position, and where something starts and stops says which
part of the source it is.
-/

namespace StyleAudit

namespace Position

variable {text : Text} {i j : Nat}

theorem column_start_advance (t : Text) :
    (start.advance t).column = 1 + (t.rtakeWhile (· ≠ '\n')).length := by
  induction t using List.reverseRecOn with
  | nil => rfl
  | append_singleton t c ih =>
      rw [advance_append, advance_cons, advance_nil, step]
      by_cases hc : c = '\n'
      · rw [if_pos hc, List.rtakeWhile_concat_neg _ _ _ (by simp [hc])]
        rfl
      · rw [if_neg hc, List.rtakeWhile_concat_pos _ _ _ (by simp [hc]), ih,
          List.length_append, List.length_singleton]
        push_cast
        omega

theorem ofIndex_eq_advance (hi : i ≤ text.length) :
    ofIndex text i = start.advance (text.take i) := by
  have h := ofOffset_append (text.take i) (text.drop i)
  rw [List.take_append_drop, List.length_take_of_le hi] at h
  rw [ofIndex_natCast, h]

theorem ofIndex_eq_counts (hi : i ≤ text.length) :
    ofIndex text i =
      ⟨1 + (text.take i).count '\n',
        1 + ((text.take i).rtakeWhile (· ≠ '\n')).length⟩ := by
  have hline := line_advance start (text.take i)
  have hcolumn := column_start_advance (text.take i)
  rw [ofIndex_eq_advance hi, ← hcolumn]
  exact congrArg (mk · _) hline

/-- Where an empty line starts, where the line behind it does, and at the end. -/
example : [2, 3, 5].map (ofIndex "a\n\nb\n".toList) = [⟨2, 1⟩, ⟨3, 1⟩, ⟨4, 1⟩] := by
  decide +kernel

/-- Between two indices lies the text with which one comes from the first to the
second. -/
theorem take_append_drop_take (text : Text) (hij : i ≤ j) :
    text.take i ++ (text.take j).drop i = text.take j := by
  have h := List.take_append_drop i (text.take j)
  rwa [List.take_take, Nat.min_eq_left hij] at h

theorem ofIndex_lt_ofIndex (hij : i < j) (hj : j ≤ text.length) :
    ofIndex text i < ofIndex text j := by
  have hne : (text.take j).drop i ≠ [] := by
    rw [Ne, List.drop_eq_nil_iff, List.length_take_of_le hj]
    omega
  rw [ofIndex_eq_advance (hij.le.trans hj), ofIndex_eq_advance hj,
    ← take_append_drop_take text hij.le, advance_append]
  exact lt_advance hne _

theorem ofIndex_inj (hi : i ≤ text.length) (hj : j ≤ text.length) :
    ofIndex text i = ofIndex text j ↔ i = j := by
  refine ⟨fun h => ?_, fun h => h ▸ rfl⟩
  rcases Nat.lt_trichotomy i j with hlt | heq | hgt
  · exact absurd h (ofIndex_lt_ofIndex hlt hj).ne
  · exact heq
  · exact absurd h (ofIndex_lt_ofIndex hgt hi).ne'

/-- The span between two indices covers what stands between them. -/
theorem slice_ofIndex (hij : i ≤ j) (hj : j ≤ text.length) :
    (⟨ofIndex text i, ofIndex text j⟩ : Span).slice text = (text.take j).drop i := by
  have h := Span.slice_piece (text.take i) ((text.take j).drop i) (text.drop j)
  rwa [← advance_append, ← List.append_assoc, take_append_drop_take text hij,
    List.take_append_drop, ← ofIndex_eq_advance (hij.trans hj),
    ← ofIndex_eq_advance hj] at h

end Position

namespace Source

/-- Where an index of a source stands, as looked up, is counted in lines and columns;
later indices stand later; and a span between two of them covers the part of the source
between them, and is the span of no other part. -/
theorem positions_count_lines (source : Text) :
    (∀ i ≤ (normalize source).length,
      position ⟨normalize source, i⟩ =
        ⟨1 + ((normalize source).take i).count '\n',
          1 + (((normalize source).take i).rtakeWhile (· ≠ '\n')).length⟩) ∧
    (∀ i j : Nat, i < j → j ≤ (normalize source).length →
      position ⟨normalize source, i⟩ < position ⟨normalize source, j⟩) ∧
    (∀ i j : Nat, i ≤ j → j ≤ (normalize source).length →
      (⟨position ⟨normalize source, i⟩, position ⟨normalize source, j⟩⟩ : Span).slice
        (normalize source) = ((normalize source).take j).drop i) ∧
    ∀ i j i' j' : Nat, i ≤ (normalize source).length → j ≤ (normalize source).length →
      i' ≤ (normalize source).length → j' ≤ (normalize source).length →
      (⟨position ⟨normalize source, i⟩, position ⟨normalize source, j⟩⟩ : Span) =
        ⟨position ⟨normalize source, i'⟩, position ⟨normalize source, j'⟩⟩ →
      i = i' ∧ j = j' := by
  refine ⟨fun i hi => Position.ofIndex_eq_counts hi,
    fun i j hij hj => Position.ofIndex_lt_ofIndex hij hj,
    fun i j hij hj => Position.slice_ofIndex hij hj,
    fun i j i' j' hi hj hi' hj' hspan => ?_⟩
  rw [Span.mk.injEq] at hspan
  exact ⟨(Position.ofIndex_inj hi hi').1 hspan.1, (Position.ofIndex_inj hj hj').1 hspan.2⟩

end Source

end StyleAudit
