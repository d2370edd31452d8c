import StyleAudit.Text.Lower

/-!
# Small letters stay as they are

A text in small letters is not changed by putting it into small letters again, nor is
any text that is put together from the letters of such texts. This comes from the table
of letters alone: the small form of a letter is never a letter that has another one,
which is checked for whole runs of letters at a time, and a letter without another form
stands for itself wherever it is. What stands around a letter matters for the capital
sigma only, and that is not among the small forms.
-/

namespace StyleAudit.Text

/-- Whether letters from `low` to `high`, all of them or every second one, are
outside a run. -/
def avoids (low high step : Nat) (r : Case.Run) : Bool :=
  high.blt r.first || r.last.blt low ||
    ((step.beq 2 || low.beq high) && r.step.beq 2 && Nat.beq ((low + r.first) % 2) 1)

/-- Whether the small forms of the letters of a run are letters outside all runs. -/
def isFinal (r : Case.Run) : Bool :=
  let low := (r.first + r.shift).toNat
  let high := (r.last + r.shift).toNat
  Nat.blt 0 low && (high.blt 0x130 || Nat.blt 0x130 low) &&
    Case.runs.all (avoids low high r.step)

theorem isFinal_of_mem : ∀ r ∈ Case.runs, isFinal r = true :=
  List.all_eq_true.1 (by decide +kernel : Case.runs.all isFinal = true)

theorem caseRun?_zero : caseRun? 0 = none := by decide +kernel

/-- A letter in a run has a small form in no run. -/
theorem caseRun?_shift {n : Nat} {r : Case.Run} (h : caseRun? n = some r) :
    (n + r.shift).toNat ≠ 0x130 ∧ caseRun? (n + r.shift).toNat = none := by
  have hfinal := isFinal_of_mem r (List.mem_of_find?_eq_some h)
  have hn := List.find?_some h
  simp only [isFinal, Bool.and_eq_true, Bool.or_eq_true, Nat.blt_eq, List.all_eq_true] at hfinal
  simp only [Bool.and_eq_true, decide_eq_true_eq, beq_iff_eq] at hn
  obtain ⟨⟨hlow, hdotted⟩, havoids⟩ := hfinal
  refine ⟨by omega, List.find?_eq_none.2 fun r' hr' => ?_⟩
  have hr := havoids r' hr'
  simp only [avoids, Bool.and_eq_true, Bool.or_eq_true, Nat.blt_eq, Nat.beq_eq] at hr
  simp only [Bool.and_eq_true, decide_eq_true_eq, beq_iff_eq]
  rintro ⟨⟨hfirst, hlast⟩, hstep'⟩
  rcases hr with (hr | hr) | ⟨⟨hstep | hone, htwo⟩, hodd⟩
  · omega
  · omega
  · rw [hstep] at hn
    rw [htwo] at hstep'
    omega
  · rw [htwo] at hstep'
    omega

/-- A letter that is its own small form. -/
def IsSmall (c : Char) : Prop := c ≠ '\u0130' ∧ caseRun? c.toNat = none

instance : DecidablePred IsSmall := fun _ => inferInstanceAs (Decidable (_ ∧ _))

theorem IsSmall.lowerChar {c : Char} (h : IsSmall c) : lowerChar c = [c] := by
  rw [Text.lowerChar, if_neg h.1, h.2]

theorem isSmall_ofNat {n : Nat} (hn : n ≠ 0x130) (h : caseRun? n = none) :
    IsSmall (Char.ofNat n) := by
  by_cases hvalid : n.isValidChar
  · have htoNat : (Char.ofNat n).toNat = n := by
      rw [Char.ofNat, dif_pos hvalid]
      rfl
    refine ⟨?_, by rw [htoNat]; exact h⟩
    intro hdotted
    rw [hdotted] at htoNat
    exact hn htoNat.symm
  · rw [Char.ofNat, dif_neg hvalid]
    exact ⟨by decide, caseRun?_zero⟩

theorem isSmall_of_mem_lowerChar {c d : Char} (h : d ∈ lowerChar c) : IsSmall d := by
  unfold lowerChar at h
  split at h
  · have hdotted : IsSmall 'i' ∧ IsSmall '\u0307' := by decide +kernel
    exact List.forall_mem_cons.2 ⟨hdotted.1, List.forall_mem_singleton.2 hdotted.2⟩ d h
  · next hc =>
      split at h
      · next r hrun =>
          rw [List.mem_singleton.1 h]
          exact isSmall_ofNat (caseRun?_shift hrun).1 (caseRun?_shift hrun).2
      · next hrun =>
          rw [List.mem_singleton.1 h]
          exact ⟨hc, hrun⟩

theorem isSmall_of_mem_lowerAfter {inWord : Bool} {t : Text} {d : Char}
    (h : d ∈ lowerAfter inWord t) : IsSmall d := by
  induction t generalizing inWord with
  | nil => cases h
  | cons c t ih =>
      rw [lowerAfter, List.mem_append] at h
      rcases h with h | h
      · split at h
        · have hsigma : IsSmall 'ς' ∧ IsSmall 'σ' := by decide +kernel
          rw [List.mem_singleton] at h
          rw [h]
          split
          · exact hsigma.1
          · exact hsigma.2
        · exact isSmall_of_mem_lowerChar h
      · exact ih h

/-- Whether the nearest code point at the end of a text, ignorable ones aside, is a
letter with case, given whether it is so in front of the text. -/
def inWordAfter (inWord : Bool) (t : Text) : Bool :=
  t.foldl (fun inWord c => if isIgnorable c then inWord else isCased c) inWord

/-- Small letters stay as they are, whatever comes behind them. -/
theorem lowerAfter_append {s : Text} (inWord : Bool) (hs : ∀ c ∈ s, IsSmall c) (t : Text) :
    lowerAfter inWord (s ++ t) = s ++ lowerAfter (inWordAfter inWord s) t := by
  have hsigma : ¬ IsSmall 'Σ' := by decide +kernel
  induction s generalizing inWord with
  | nil => rfl
  | cons c s ih =>
      have hc := hs c List.mem_cons_self
      have hne : c ≠ 'Σ' := by
        rintro rfl
        exact hsigma hc
      rw [List.cons_append, lowerAfter, if_neg hne, hc.lowerChar,
        ih _ fun d hd => hs d (List.mem_cons_of_mem _ hd)]
      rfl

theorem isSmall_of_mem_lower {t : Text} {d : Char} (h : d ∈ lower t) : IsSmall d :=
  isSmall_of_mem_lowerAfter h

theorem lower_eq_self_iff {t : Text} : lower t = t ↔ ∀ c ∈ t, IsSmall c := by
  constructor
  · intro h c hc
    rw [← h] at hc
    exact isSmall_of_mem_lower hc
  · intro h
    have happend := lowerAfter_append false h []
    rwa [List.append_nil, lowerAfter, List.append_nil] at happend

theorem lower_lower (t : Text) : lower (lower t) = lower t :=
  lower_eq_self_iff.2 fun _ => isSmall_of_mem_lower

/-- Small forms stay small when they are joined, though what a letter becomes depends on
those around it. -/
theorem lower_joined (a b : Text) :
    lower (lower a ++ ':' :: lower b) = lower a ++ ':' :: lower b := by
  have hcolon : IsSmall ':' := by decide +kernel
  refine lower_eq_self_iff.2 fun c hc => ?_
  rcases List.mem_append.1 hc with hc | hc
  · exact isSmall_of_mem_lower hc
  · rcases List.mem_cons.1 hc with rfl | hc
    · exact hcolon
    · exact isSmall_of_mem_lower hc

end StyleAudit.Text
