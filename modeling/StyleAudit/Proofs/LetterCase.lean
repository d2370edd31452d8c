import StyleAudit.Proofs.Respelling

/-!
# Letter case

`Text.fold` makes the capitals of the basic alphabet small, one by one, and
leaves everything else alone. Small letters, `Text.lower`, know all alphabets and
look at what is around a letter; they do not see whether a text was folded
before. That makes folding a respelling, and the readers of trees come with it.

Whatever a reader asks of a character alone is settled by `toLower_invariant`,
which leaves twenty-six instances to try.
-/

namespace StyleAudit

open Source

namespace Text

/-! ## Folding -/

/-- The letters that folding changes. -/
def capitals : Text := "ABCDEFGHIJKLMNOPQRSTUVWXYZ".toList

/-- A text with its capitals made small. -/
def fold (t : Text) : Text := t.map Char.toLower

theorem toLower_eq_or_mem_capitals (c : Char) : c.toLower = c ∨ c ∈ capitals := by
  have hrange : ∀ n < 91, 65 ≤ n → Char.ofNat n ∈ capitals := by decide
  unfold Char.toLower
  split
  · next h =>
      have hlow : 65 ≤ c.toNat := UInt32.le_iff_toNat_le.1 h.1
      have hhigh : c.toNat ≤ 90 := UInt32.le_iff_toNat_le.1 h.2
      refine .inr ?_
      rw [← Char.ofNat_toNat c]
      exact hrange c.toNat (by omega) hlow
  · exact .inl rfl

/-- What does not tell a capital from its small form does not depend on case.
The hypothesis is a test of the list and not a quantifier, which would be
decided by trying all characters there are. -/
theorem toLower_invariant {α : Type} [DecidableEq α] (f : Char → α)
    (h : (capitals.all fun c => f c.toLower = f c) = true) (c : Char) :
    f c.toLower = f c := by
  rcases toLower_eq_or_mem_capitals c with hc | hc
  · rw [hc]
  · exact of_decide_eq_true (List.all_eq_true.1 h c hc)

theorem isLetter_toLower : ∀ c : Char, isLetter c.toLower = isLetter c :=
  toLower_invariant _ (by decide)

theorem toLower_of_not_isLetter {c : Char} (h : isLetter c = false) :
    c.toLower = c := by
  have hletters : capitals.all isLetter = true := by decide
  rcases toLower_eq_or_mem_capitals c with hc | hc
  · exact hc
  · rw [List.all_eq_true.1 hletters c hc] at h
    cases h

/-- Only a letter can be mistaken for another code point. -/
theorem toLower_eq_iff {x : Char} (hx : isLetter x = false) (c : Char) :
    c.toLower = x ↔ c = x := by
  constructor
  · intro h
    rw [← h, isLetter_toLower] at hx
    rw [← h, toLower_of_not_isLetter hx]
  · intro h
    rw [h, toLower_of_not_isLetter hx]

theorem toLower_toLower (c : Char) : c.toLower.toLower = c.toLower :=
  toLower_invariant _ (by decide) c

@[simp] theorem fold_nil : fold [] = [] := rfl

@[simp] theorem fold_cons (c : Char) (t : Text) :
    fold (c :: t) = c.toLower :: fold t := rfl

theorem fold_cons_of_not_isLetter {c : Char} (h : isLetter c = false) (t : Text) :
    fold (c :: t) = c :: fold t := by
  rw [fold_cons, toLower_of_not_isLetter h]

theorem fold_append (s t : Text) : fold (s ++ t) = fold s ++ fold t :=
  List.map_append

theorem fold_drop (n : Nat) (t : Text) : (fold t).drop n = fold (t.drop n) :=
  List.map_drop.symm

theorem fold_take (n : Nat) (t : Text) : (fold t).take n = fold (t.take n) :=
  List.map_take.symm

@[simp] theorem length_fold (t : Text) : (fold t).length = t.length :=
  List.length_map _

theorem fold_fold (t : Text) : fold (fold t) = fold t := by
  unfold fold
  rw [List.map_map]
  congr 1
  exact funext toLower_toLower

theorem fold_of_not_isLetter {t : Text} (h : ∀ c ∈ t, isLetter c = false) :
    fold t = t := by
  unfold fold
  rw [List.map_congr_left fun c hc => toLower_of_not_isLetter (h c hc), List.map_id']

section

variable {p : Char → Bool} (hp : ∀ c : Char, p c.toLower = p c) (t : Text)
include hp

theorem takeWhile_fold : (fold t).takeWhile p = fold (t.takeWhile p) := by
  unfold fold
  rw [List.takeWhile_map]
  congr 2
  exact funext hp

theorem dropWhile_fold : (fold t).dropWhile p = fold (t.dropWhile p) := by
  unfold fold
  rw [List.dropWhile_map]
  congr 2
  exact funext hp

theorem head?_any_fold : (fold t).head?.any p = t.head?.any p := by
  cases t with
  | nil => rfl
  | cons c t => exact hp c

end

theorem head?_fold_eq_some {x : Char} (hx : isLetter x = false) (t : Text) :
    (fold t).head? = some x ↔ t.head? = some x := by
  cases t with
  | nil => rfl
  | cons c t =>
      rw [fold_cons, List.head?_cons, List.head?_cons, Option.some.injEq,
        Option.some.injEq, toLower_eq_iff hx]

theorem isPrefixOf_fold {mark : Text} (h : mark.any isLetter = false) (t : Text) :
    mark.isPrefixOf (fold t) = mark.isPrefixOf t := by
  induction mark generalizing t with
  | nil => rfl
  | cons x mark ih =>
      cases t with
      | nil => rfl
      | cons c t =>
          rw [List.any_cons, Bool.or_eq_false_iff] at h
          have hx := toLower_eq_iff h.1 c
          rw [fold_cons, List.isPrefixOf, List.isPrefixOf, ih h.2]
          congr 1
          rw [Bool.eq_iff_iff, beq_iff_eq, beq_iff_eq, eq_comm, hx, eq_comm]

/-! ## Small letters -/

theorem isCased_toLower : ∀ c : Char, isCased c.toLower = isCased c :=
  toLower_invariant _ (by decide +kernel)

theorem isIgnorable_toLower : ∀ c : Char, isIgnorable c.toLower = isIgnorable c :=
  toLower_invariant _ (by decide +kernel)

theorem lowerChar_toLower : ∀ c : Char, lowerChar c.toLower = lowerChar c :=
  toLower_invariant _ (by decide +kernel)

theorem startsCased_fold (t : Text) : startsCased (fold t) = startsCased t := by
  unfold startsCased
  rw [dropWhile_fold isIgnorable_toLower]
  cases t.dropWhile isIgnorable with
  | nil => rfl
  | cons c rest => exact isCased_toLower c

theorem lowerAfter_fold (inWord : Bool) (t : Text) :
    lowerAfter inWord (fold t) = lowerAfter inWord t := by
  induction t generalizing inWord with
  | nil => rfl
  | cons c t ih =>
      rw [fold_cons, lowerAfter, lowerAfter, lowerChar_toLower, startsCased_fold,
        isIgnorable_toLower, isCased_toLower, ih]
      simp (disch := decide) only [toLower_eq_iff]

theorem lower_fold (t : Text) : lower (fold t) = lower t := lowerAfter_fold false t

theorem lower_eq_of_fold_eq {s t : Text} (h : fold s = fold t) : lower s = lower t := by
  rw [← lower_fold s, h, lower_fold]

end Text

open Text (fold)

theorem isCustomProperty_fold (name : Text) :
    isCustomProperty (fold name) = isCustomProperty name :=
  Text.isPrefixOf_fold (by decide) name

/-- The respelling that makes capitals small and leaves everything in place. -/
def Respelling.letterCase : Respelling where
  name := fold
  place := id
  lower_name := Text.lower_fold
  custom_name := isCustomProperty_fold
  nesting_name := by decide

end StyleAudit
