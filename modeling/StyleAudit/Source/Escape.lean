import StyleAudit.Source.Character

/-!
# Escapes and names

`escape` reads what follows a backslash: up to six hexadecimal digits and one blank after them,
or else a single code point. Numbers that are no scalar value stand for the replacement
character, and so does zero. `name` reads the longest run of identifier code points and escapes.
Both return what is left, which is always a suffix of what they were given.
-/

namespace StyleAudit.Source

/-- The character that stands for what cannot be represented. -/
def replacement : Char := '\uFFFD'

/-- The value of a hexadecimal digit. -/
def hexDigit (c : Char) : Nat :=
  if isDigit c then c.toNat - '0'.toNat
  else if 'a' ≤ c && c ≤ 'f' then c.toNat - 'a'.toNat + 10
  else c.toNat - 'A'.toNat + 10

/-- The value of a run of hexadecimal digits. -/
def hexValue (digits : Text) : Nat := digits.foldl (fun n c => 16 * n + hexDigit c) 0

/-- The code point of a number. -/
def codePoint (n : Nat) : Char :=
  if n = 0 || 0x10FFFF < n || (0xD800 ≤ n && n ≤ 0xDFFF) then replacement else Char.ofNat n

/-- A text without the blank it may start with. -/
def dropBlank : Text → Text
  | [] => []
  | c :: rest => if isBlank c then rest else c :: rest

/-- The code point that an escape stands for and what follows it; the backslash has been read. -/
def escape : Text → Char × Text
  | [] => (replacement, [])
  | c :: rest =>
    if isHex c then
      let more := (rest.take 5).takeWhile isHex
      (codePoint (hexValue (c :: more)), dropBlank (rest.drop more.length))
    else (c, rest)

/-- One code point of a name, as such or by an escape, and what follows it. -/
def nameChar? : Text → Option (Char × Text)
  | [] => none
  | c :: rest =>
    if isIdent c then some (c, rest)
    else if startsEscape (c :: rest) then some (escape rest)
    else none

theorem dropBlank_suffix (t : Text) : dropBlank t <:+ t := by
  unfold dropBlank
  split
  · exact List.suffix_refl _
  · split
    · exact List.suffix_cons ..
    · exact List.suffix_refl _

theorem escape_cons_suffix (c : Char) (t : Text) : (escape (c :: t)).2 <:+ t := by
  unfold escape
  simp only
  split
  · exact (dropBlank_suffix _).trans (List.drop_suffix ..)
  · exact List.suffix_refl _

theorem escape_suffix (t : Text) : (escape t).2 <:+ t := by
  cases t with
  | nil => exact List.suffix_refl _
  | cons c t => exact (escape_cons_suffix c t).trans (List.suffix_cons ..)

theorem nameChar?_suffix {c d : Char} {t rest : Text} (h : nameChar? (c :: t) = some (d, rest)) :
    rest <:+ t := by
  unfold nameChar? at h
  simp only at h
  split at h
  · cases h
    exact List.suffix_refl _
  · split at h
    · rw [Option.some.injEq] at h
      have := escape_suffix t
      rwa [h] at this
    · cases h

theorem nameChar?_length {t rest : Text} {d : Char} (h : nameChar? t = some (d, rest)) :
    rest.length < t.length := by
  cases t with
  | nil => cases h
  | cons c t =>
    have := (nameChar?_suffix h).length_le
    simp only [List.length_cons]
    omega

/-- The longest name at the start of a text, decoded, and what follows it. -/
def name (t : Text) : Text × Text :=
  match h : nameChar? t with
  | none => ([], t)
  | some (c, rest) =>
    have : rest.length < t.length := nameChar?_length h
    let more := name rest
    (c :: more.1, more.2)
termination_by t.length

theorem name_eq_of_none {t : Text} (h : nameChar? t = none) : name t = ([], t) := by
  rw [name]
  split
  · rfl
  · next h' => rw [h] at h'; cases h'

theorem name_eq_of_some {t rest : Text} {c : Char} (h : nameChar? t = some (c, rest)) :
    name t = (c :: (name rest).1, (name rest).2) := by
  rw [name]
  split
  · next h' => rw [h] at h'; cases h'
  · next h' =>
    rw [h] at h'
    cases h'
    rfl

theorem name_suffix (t : Text) : (name t).2 <:+ t := by
  fun_induction name t with
  | case1 t h => exact List.suffix_refl _
  | case2 t c rest h _ more ih =>
    cases t with
    | nil => cases h
    | cons d t => exact ih.trans ((nameChar?_suffix h).trans (List.suffix_cons ..))

/-- A text that starts with a code point of a name loses it to the name. -/
theorem name_cons_suffix {c : Char} {t : Text} (h : (nameChar? (c :: t)).isSome) :
    (name (c :: t)).2 <:+ t := by
  obtain ⟨⟨d, rest⟩, h⟩ := Option.isSome_iff_exists.1 h
  rw [name_eq_of_some h]
  exact (name_suffix rest).trans (nameChar?_suffix h)

end StyleAudit.Source
