import Mathlib.Data.List.Induction
import StyleAudit.Proofs.PositionOrder
import StyleAudit.Source.Lines

/-!
# Looking a position up is reading up to it

There are two ways to the position of an index. It is looked up in the table of the
places where lines start, by a search that halves the table; and it is where reading
the text before the index leads. This file shows that both are the same for every
index that is not negative, those beyond the end included.

Where a source is cut in two, so is its table: the starts that come from the first
part do not lie behind the cut, and those that come from the second do. The search
for an index between them keeps the number of the former between its two bounds,
whichever half of the table it goes on with. That the table is in order is not even
needed: a search meets no more of it than which side of the cut a start is on.
-/

namespace StyleAudit

/-! ## The table of a text -/

theorem laterStarts_append (offset : Nat) (s t : Text) :
    laterStarts offset (s ++ t) =
      laterStarts offset s ++ laterStarts (offset + s.length) t := by
  induction s generalizing offset with
  | nil => rfl
  | cons c s ih =>
      have hlen : offset + (c :: s).length = offset + 1 + s.length := by
        rw [List.length_cons]
        omega
      rw [List.cons_append, laterStarts, laterStarts, ih, hlen]
      split <;> rfl

theorem laterStarts_bounds {offset i : Nat} {t : Text} (h : i ∈ laterStarts offset t) :
    offset < i ∧ i ≤ offset + t.length := by
  induction t generalizing offset with
  | nil => cases h
  | cons c t ih =>
      have hrest (h : i ∈ laterStarts (offset + 1) t) :
          offset < i ∧ i ≤ offset + (c :: t).length := by
        have := ih h
        rw [List.length_cons]
        omega
      rw [laterStarts] at h
      split at h
      · rcases List.mem_cons.1 h with rfl | h
        · rw [List.length_cons]
          omega
        · exact hrest h
      · exact hrest h

namespace Lines

variable {l : Lines} {index : Int} {k : Nat}

theorem starts_append (before after : Text) :
    (ofText (before ++ after)).starts =
      (ofText before).starts ++ (laterStarts before.length after).toArray := by
  simp [ofText, laterStarts_append]

theorem start_le {t : Text} {i : Nat} (hi : i < (ofText t).starts.size) :
    (ofText t).starts[i] ≤ t.length := by
  have hmem : (ofText t).starts[i] ∈ 0 :: laterStarts 0 t :=
    List.mem_toArray.1 (Array.getElem_mem hi)
  rcases List.mem_cons.1 hmem with hzero | hlater
  · rw [hzero]
    exact Nat.zero_le _
  · have := laterStarts_bounds hlater
    omega

/-! ## The search -/

/-- An index cuts a table behind its first `k` starts: these do not lie behind it, and
all others do. -/
structure Cut (l : Lines) (index : Int) (k : Nat) : Prop where
  le_size : k ≤ l.starts.size
  before : ∀ i (hi : i < l.starts.size), i < k → l.starts[i] ≤ index
  behind : ∀ i (hi : i < l.starts.size), k ≤ i → index < l.starts[i]

/-- A search finds the cut, as long as it is between the bounds of the search. -/
theorem Cut.search_eq (h : l.Cut index k) {low high : Nat} (hsize : high ≤ l.starts.size)
    (hlow : low ≤ k) (hhigh : k ≤ high) : l.search index low high hsize = k := by
  fun_induction search l index low high hsize with
  | case1 low high hsize hlt middle hbehind ih =>
      -- A start behind the index is behind the cut.
      refine ih hlow (Nat.le_of_not_lt fun hmiddle => ?_)
      exact absurd (h.before middle _ hmiddle) (Int.not_le.2 hbehind)
  | case2 low high hsize hlt middle hle ih =>
      refine ih (Nat.lt_of_not_le fun hmiddle => ?_) hhigh
      exact hle (h.behind middle _ hmiddle)
  | case3 low high hsize hstop => omega

theorem Cut.line_eq (h : l.Cut index k) : l.line index = k :=
  h.search_eq (Nat.le_refl _) (Nat.zero_le _) h.le_size

theorem Cut.position_eq (h : l.Cut index k) :
    l.position index = ⟨k, index - l.start k h.le_size + 1⟩ := by
  obtain rfl : l.line index = k := h.line_eq
  rfl

/-- An index behind the first part of a source, but not behind a start that comes from
the second, cuts the table where the source is cut. -/
theorem cut_append {before after : Text} (hbefore : before.length ≤ index)
    (hafter : ∀ i ∈ laterStarts before.length after, index < i) :
    (ofText (before ++ after)).Cut index (ofText before).starts.size := by
  have hstarts := starts_append before after
  refine ⟨?_, fun i hi hk => ?_, fun i hi hk => ?_⟩
  · rw [hstarts, Array.size_append]
    exact Nat.le_add_right _ _
  · have hle := start_le hk
    simp only [hstarts, Array.getElem_append_left hk]
    omega
  · simp only [hstarts, Array.getElem_append_right hk]
    exact hafter _ (List.mem_toArray.1 (Array.getElem_mem _))

/-! ## The position -/

/-- The last start in the table of a text. -/
def last (t : Text) : Nat := (ofText t).start (ofText t).starts.size (Nat.le_refl _)

/-- Reading a text leads to its last line, and as far behind the start of that as the
text goes on. -/
theorem start_advance (t : Text) :
    Position.start.advance t = ⟨(ofText t).starts.size, t.length - last t + 1⟩ := by
  induction t using List.reverseRecOn with
  | nil => rfl
  | append_singleton t c ih =>
      -- A line feed at the end adds a start, anything else leaves the table as it is.
      have hstarts := starts_append t [c]
      rw [Position.advance_append, ih, Position.advance_cons, Position.advance_nil,
        Position.step]
      by_cases hc : c = '\n'
      · have hpush : (ofText (t ++ [c])).starts = (ofText t).starts.push (t.length + 1) := by
          rw [hstarts, laterStarts, if_pos hc]
          rfl
        have hlast : last (t ++ [c]) = t.length + 1 := by simp [last, start, hpush]
        rw [if_pos hc, hpush, hlast]
        simp
      · have hsame : (ofText (t ++ [c])).starts = (ofText t).starts := by
          rw [hstarts, laterStarts, if_neg hc]
          exact Array.append_empty
        have hlast : last (t ++ [c]) = last t := by simp [last, start, hsame]
        rw [if_neg hc, hsame, hlast]
        simp only [Position.mk.injEq, true_and, List.length_append, List.length_singleton]
        push_cast
        omega

/-- Where a source is cut in two, the last start of the first part is that of the line
in which the cut is. -/
theorem start_cut (before after : Text)
    (h : (ofText before).starts.size ≤ (ofText (before ++ after)).starts.size) :
    (ofText (before ++ after)).start (ofText before).starts.size h = last before := by
  have hpos := (ofText before).size_pos
  have hlast : (ofText before).starts.size - 1 < (ofText before).starts.size := by omega
  rw [last, start, start, if_neg (by omega), if_neg (by omega)]
  simp only [starts_append, Array.getElem_append_left hlast]

/-- From the cut on, the column goes on counting up to the next start. -/
theorem position_append (before after : Text) (hbefore : before.length ≤ index)
    (hafter : ∀ i ∈ laterStarts before.length after, index < i) :
    (ofText (before ++ after)).position index =
      ⟨(Position.start.advance before).line,
        (Position.start.advance before).column + (index - before.length)⟩ := by
  rw [(cut_append hbefore hafter).position_eq, start_cut, start_advance]
  simp only [Position.mk.injEq, true_and]
  omega

end Lines

/-- The position that is looked up is the one that is read up to. -/
theorem Position.ofIndex_natCast (source : Text) (offset : Nat) :
    ofIndex source offset = ofOffset source offset := by
  rw [ofIndex, ofOffset]
  rcases Nat.le_total offset source.length with hle | hge
  · have hlen := List.length_take_of_le hle
    have hbefore : ((source.take offset).length : Int) ≤ offset := by omega
    have h := Lines.position_append (source.take offset) (source.drop offset) hbefore
      fun i hi => by have := laterStarts_bounds hi; omega
    rw [List.take_append_drop] at h
    rw [h]
    simp only [mk.injEq, true_and]
    omega
  · have hbefore : (source.length : Int) ≤ offset := by omega
    have h := Lines.position_append source [] hbefore
      fun i hi => absurd hi List.not_mem_nil
    rw [List.append_nil] at h
    rw [h, List.take_of_length_le hge]
    simp only [mk.injEq, true_and]
    omega

end StyleAudit
