import StyleAudit.Proofs.Continuation

/-!
# Readers in front of a slash

A reader takes some of a text and leaves the rest. It looks further than it takes,
by up to three characters. So what it takes of `u ++ x`, where it leaves `v ++ x`,
may depend on `x`. It does not change if `x` is exchanged for a text that starts
with a slash: a slash is no part of a name or of a number, no blank and no mark
of a string, and it stops every run. In front of it, no reader takes more than
it did.

Where a reader would take less, this is because it found what it looked for in
`x`. But then it took that too, and left less than `x`; lengths rule this out.

There are the exceptions that the last character of `u` is a backslash, which
escapes a slash but not a line feed, that a string was broken off by a line feed
in `x`, and that blanks were followed by the mark of a string in `x`. They are
hypotheses about what is left, `v`.
-/

namespace StyleAudit.Source

section

variable {u v x : Text} (y : Text)

/-- Nothing is read of a text that is left. -/
theorem not_suffix_of_lt {t : Text} (h : v ++ x <:+ t) (ht : t.length < x.length) : False := by
  have hle := h.length_le
  rw [List.length_append] at hle
  omega

theorem exists_of_suffix {t : Text} (h : v ++ x <:+ t) : ∃ w, t = w ++ x := by
  obtain ⟨s, rfl⟩ := h
  exact ⟨s ++ v, by rw [List.append_assoc]⟩

theorem eq_nil_of_suffix (h : v ++ x <:+ x) : v = [] := by
  have hle := h.length_le
  rw [List.length_append] at hle
  exact List.eq_nil_of_length_eq_zero (by omega)

/-- A reader that always takes something takes it in front of what is left. -/
theorem ne_nil_of_takes {f : Text → Text} (hf : ∀ c t, f (c :: t) <:+ t) (hx : x ≠ [])
    (h : f (u ++ x) = v ++ x) : u ≠ [] := by
  rintro rfl
  obtain ⟨c, t, rfl⟩ := List.exists_cons_of_ne_nil hx
  exact not_suffix_of_lt (h ▸ hf c t) (by simp)

/-! ## Runs of characters -/

theorem dropWhile_slash {p : Char → Bool} (hp : p '/' = false)
    (h : (u ++ x).dropWhile p = v ++ x) :
    (u ++ '/' :: y).dropWhile p = v ++ '/' :: y ∧
      (u ++ '/' :: y).takeWhile p = (u ++ x).takeWhile p := by
  induction u with
  | nil =>
      have hv : v = [] := eq_nil_of_suffix (h ▸ List.dropWhile_suffix p)
      have htake : x.takeWhile p = [] := by
        have hsplit := List.takeWhile_append_dropWhile (p := p) (l := x)
        rw [show x.dropWhile p = x by simpa [hv] using h] at hsplit
        simpa using hsplit
      simp [hp, hv, htake]
  | cons c u ih =>
      simp only [List.cons_append, List.dropWhile_cons, List.takeWhile_cons] at h ⊢
      split
      · next hc =>
          rw [if_pos hc] at h
          exact ⟨(ih h).1, by rw [(ih h).2]⟩
      · next hc =>
          rw [if_neg hc, ← List.cons_append] at h
          rw [← List.append_cancel_right h]
          exact ⟨rfl, rfl⟩

theorem head?_of_dropWhile {p : Char → Bool} (h : (u ++ x).dropWhile p = v ++ x) :
    (u ++ x).head?.any p = u.head?.any p := by
  cases u with
  | cons c u => rfl
  | nil =>
      cases x with
      | nil => rfl
      | cons c t =>
          by_cases hc : p c = true
          · rw [List.nil_append, List.dropWhile_cons_of_pos hc] at h
            exact (not_suffix_of_lt (h ▸ List.dropWhile_suffix p) (by simp)).elim
          · simpa using hc

theorem dropBlank_slash (h : dropBlank (u ++ x) = v ++ x) :
    dropBlank (u ++ '/' :: y) = v ++ '/' :: y := by
  cases u with
  | nil =>
      have hv : v = [] := eq_nil_of_suffix (h ▸ dropBlank_suffix x)
      rw [hv]
      rfl
  | cons c u =>
      rw [dropBlank_append (by simp)] at h ⊢
      rw [List.append_cancel_right h]

/-- The digits of an escape, of which there is a limited number, and the blank
behind them. -/
theorem hexDigits_slash {n : Nat}
    (h : dropBlank ((u ++ x).drop (((u ++ x).take n).takeWhile isHex).length) = v ++ x) :
    ((u ++ '/' :: y).take n).takeWhile isHex = ((u ++ x).take n).takeWhile isHex ∧
      dropBlank ((u ++ '/' :: y).drop (((u ++ x).take n).takeWhile isHex).length) =
        v ++ '/' :: y := by
  induction u generalizing n with
  | nil =>
      have hdigits : (x.take n).takeWhile isHex = [] := by
        have hle := (h ▸ dropBlank_suffix _ : v ++ x <:+ _).length_le
        rw [List.length_append, List.length_drop, List.nil_append] at hle
        have hshort : ((x.take n).takeWhile isHex).length ≤ x.length :=
          Nat.le_trans (List.takeWhile_prefix _).length_le (List.length_take_le' ..)
        exact List.eq_nil_of_length_eq_zero (by omega)
      simp only [List.nil_append, hdigits] at h ⊢
      refine ⟨?_, dropBlank_slash y (u := []) h⟩
      cases n <;> rfl
  | cons c u ih =>
      cases n with
      | zero => exact ⟨rfl, dropBlank_slash y h⟩
      | succ n =>
          simp only [List.cons_append, List.take_succ_cons, List.takeWhile_cons] at h ⊢
          split
          · next hc =>
              rw [if_pos hc] at h
              exact ⟨by rw [(ih h).1], (ih h).2⟩
          · next hc =>
              rw [if_neg hc] at h
              exact ⟨rfl, dropBlank_slash y (u := c :: u) h⟩

/-! ## Names -/

theorem escape_takes (hx : x ≠ []) (h : (escape (u ++ x)).2 = v ++ x) : u ≠ [] :=
  ne_nil_of_takes (f := fun t => (escape t).2) escape_cons_suffix hx h

theorem escape_slash (hx : x ≠ []) (h : (escape (u ++ x)).2 = v ++ x) :
    escape (u ++ '/' :: y) = ((escape (u ++ x)).1, v ++ '/' :: y) := by
  cases u with
  | nil =>
      obtain ⟨d, t, rfl⟩ := List.exists_cons_of_ne_nil hx
      exact (not_suffix_of_lt (h ▸ escape_cons_suffix d t) (by simp)).elim
  | cons c u =>
      rw [List.cons_append, escape] at h
      rw [List.cons_append, List.cons_append, escape, escape]
      split
      · next hc =>
          simp only [if_pos hc] at h
          obtain ⟨hdigits, hrest⟩ := hexDigits_slash y h
          simp only [hdigits, hrest]
      · next hc =>
          simp only [if_neg hc] at h
          rw [List.append_cancel_right h]

theorem startsEscape_slash (hu : u ≠ []) (hback : u ≠ ['\\']) :
    startsEscape (u ++ '/' :: y) = startsEscape (u ++ x) := by
  match u with
  | [] => exact absurd rfl hu
  | [c] =>
      have hc : c ≠ '\\' := fun hc => hback (by rw [hc])
      simp [startsEscape_cons, hc]
  | c :: d :: u => simp [startsEscape_cons]

theorem nameChar?_slash_none (h : nameChar? (u ++ x) = none) (hu : u ≠ ['\\']) :
    nameChar? (u ++ '/' :: y) = none := by
  cases u with
  | nil => rfl
  | cons c u =>
      have hescape := startsEscape_slash (x := x) y (List.cons_ne_nil c u) hu
      rw [List.cons_append] at h hescape ⊢
      rw [nameChar?] at h ⊢
      split at h
      · cases h
      · next hident =>
          split at h
          · cases h
          · next hstarts =>
              rw [List.cons_append] at hescape
              rw [if_neg hident, hescape, if_neg hstarts]

theorem nameChar?_slash_some (hx : x ≠ []) {d : Char}
    (h : nameChar? (u ++ x) = some (d, v ++ x)) :
    nameChar? (u ++ '/' :: y) = some (d, v ++ '/' :: y) := by
  cases u with
  | nil =>
      have hlt := nameChar?_length h
      rw [List.length_append, List.nil_append] at hlt
      omega
  | cons c u =>
      rw [List.cons_append, nameChar?] at h
      rw [List.cons_append, nameChar?]
      split at h
      · next hident =>
          rw [if_pos hident]
          rw [Option.some.injEq, Prod.mk.injEq] at h
          rw [h.1, List.append_cancel_right h.2]
      · next hident =>
          split at h
          · next hstarts =>
              rw [Option.some.injEq] at h
              have hrest : (escape (u ++ x)).2 = v ++ x := by rw [h]
              have hback : c :: u ≠ ['\\'] := by
                intro hu
                obtain ⟨e, t, rfl⟩ := List.exists_cons_of_ne_nil hx
                rw [List.cons.injEq] at hu
                rw [hu.2] at hrest
                exact not_suffix_of_lt (hrest ▸ escape_cons_suffix e t) (by simp)
              have hescape := startsEscape_slash (x := x) y (List.cons_ne_nil c u) hback
              rw [List.cons_append, List.cons_append] at hescape
              rw [if_neg hident, hescape, if_pos hstarts, escape_slash y hx hrest, h]
          · cases h

theorem name_slash (hx : x ≠ []) (h : (name (u ++ x)).2 = v ++ x) (hv : v ≠ ['\\']) :
    name (u ++ '/' :: y) = ((name (u ++ x)).1, v ++ '/' :: y) := by
  induction hn : u.length using Nat.strongRecOn generalizing u with
  | ind n ih =>
      cases hchar : nameChar? (u ++ x) with
      | none =>
          rw [name_eq_of_none hchar] at h ⊢
          have huv : u = v := List.append_cancel_right h
          rw [name_eq_of_none (nameChar?_slash_none y hchar (huv ▸ hv)), huv]
      | some read =>
          obtain ⟨d, rest⟩ := read
          rw [name_eq_of_some hchar] at h ⊢
          obtain ⟨w, rfl⟩ := exists_of_suffix (h ▸ name_suffix rest : v ++ x <:+ rest)
          have hlt := nameChar?_length hchar
          rw [List.length_append, List.length_append] at hlt
          rw [name_eq_of_some (nameChar?_slash_some y hx hchar),
            ih w.length (by omega) h rfl]

/-! ## Looking ahead -/

/-- A name does not reach into what is left. -/
theorem name_stays {t rest : Text} {d : Char} (h : (name t).2 = v ++ x)
    (hchar : nameChar? t = some (d, rest)) : ∃ w, rest = w ++ x := by
  rw [name_eq_of_some hchar] at h
  exact exists_of_suffix (h ▸ name_suffix rest)

theorem nameChar?_of_escape {rest : Text} (h : startsEscape ('\\' :: rest) = true) :
    nameChar? ('\\' :: rest) = some (escape rest) := by
  rw [nameChar?, if_neg (by decide), if_pos h]

theorem not_startsEscape_of_name (hx : x ≠ []) (h : (name ('\\' :: x)).2 = v ++ x) :
    startsEscape ('\\' :: x) = false := by
  rw [Bool.eq_false_iff]
  intro hstarts
  obtain ⟨w, hw⟩ := name_stays h (nameChar?_of_escape hstarts)
  exact escape_takes (u := []) hx hw rfl

/-- A backslash that a name comes to in front of what is left ends it. -/
theorem eq_backslash_of_name (hx : x ≠ []) (h : (name ('\\' :: x)).2 = v ++ x) :
    v = ['\\'] := by
  have hnone : nameChar? ('\\' :: x) = none := by
    rw [nameChar?, if_neg (by decide), not_startsEscape_of_name hx h]
    rfl
  rw [name_eq_of_none hnone] at h
  obtain rfl : ['\\'] = v := List.append_cancel_right h
  rfl

section

variable {q : Char → Bool}

/-- A look at the first character, or at an escape in its place, that finds what a
name can start with finds it in front of what is left. -/
theorem startsName_slash_true (hq : ∀ c, q c = true → isIdent c = true) (hx : x ≠ [])
    (h : ((u ++ x).head?.any q || startsEscape (u ++ x)) = true)
    (hname : (name (u ++ x)).2 = v ++ x) :
    ((u ++ '/' :: y).head?.any q || startsEscape (u ++ '/' :: y)) = true := by
  cases u with
  | nil =>
      obtain ⟨d, t, rfl⟩ := List.exists_cons_of_ne_nil hx
      have hchar : (nameChar? (d :: t)).isSome = true := by
        rcases Bool.or_eq_true_iff.1 h with hd | hstarts
        · simp [nameChar?, hq d hd]
        · exact nameChar?_of_startsEscape hstarts
      exact (not_suffix_of_lt (hname ▸ name_cons_suffix hchar) (by simp)).elim
  | cons c u =>
      by_cases hback : c :: u = ['\\']
      · rw [hback, List.singleton_append] at h hname
        rw [not_startsEscape_of_name hx hname, Bool.or_false] at h
        rw [hback]
        simpa using .inl h
      · rw [startsEscape_slash (x := x) y (by simp) hback]
        exact h

theorem startsName_slash_false (hq : q '/' = false)
    (h : ((u ++ x).head?.any q || startsEscape (u ++ x)) = false) (hu : u ≠ ['\\']) :
    ((u ++ '/' :: y).head?.any q || startsEscape (u ++ '/' :: y)) = false := by
  cases u with
  | nil => simp [startsEscape_cons, hq]
  | cons c u =>
      rw [startsEscape_slash (x := x) y (by simp) hu]
      exact h

end

theorem startsIdent_eq_head (c : Char) (rest : Text) :
    startsIdent (c :: rest) =
      if c = '-' then
        rest.head?.any (fun d => isIdentStart d || d = '-') || startsEscape rest
      else (c :: rest).head?.any isIdentStart || startsEscape (c :: rest) := by
  rw [startsIdent_cons]
  rfl

theorem startsIdent_slash_true (hx : x ≠ []) (h : startsIdent (u ++ x) = true)
    (hname : (name (u ++ x)).2 = v ++ x) : startsIdent (u ++ '/' :: y) = true := by
  cases u with
  | nil =>
      obtain ⟨d, t, rfl⟩ := List.exists_cons_of_ne_nil hx
      have hrest := name_cons_suffix (nameChar?_of_startsIdent h)
      exact (not_suffix_of_lt (hname ▸ hrest) (by simp)).elim
  | cons c u =>
      rw [List.cons_append, startsIdent_eq_head] at h ⊢
      split at h
      · next hc =>
          subst hc
          have hchar : nameChar? ('-' :: (u ++ x)) = some ('-', u ++ x) := rfl
          rw [List.cons_append, name_eq_of_some hchar] at hname
          rw [if_pos rfl]
          refine startsName_slash_true y (fun c hc => ?_) hx h hname
          rcases Bool.or_eq_true_iff.1 hc with hc | hc
          · simp [isIdent, hc]
          · simp [isIdent, of_decide_eq_true hc]
      · next hc =>
          rw [if_neg hc]
          exact startsName_slash_true (u := c :: u) y (fun c hc => by simp [isIdent, hc]) hx h
            hname

theorem startsIdent_slash_false (h : startsIdent (u ++ x) = false) (hu : u ≠ ['\\'])
    (hhyphen : u ≠ ['-', '\\']) : startsIdent (u ++ '/' :: y) = false := by
  cases u with
  | nil => rfl
  | cons c u =>
      rw [List.cons_append, startsIdent_eq_head] at h ⊢
      split at h
      · next hc =>
          subst hc
          rw [if_pos rfl]
          exact startsName_slash_false y (by decide) h fun hw => hhyphen (by rw [hw])
      · next hc =>
          rw [if_neg hc]
          exact startsName_slash_false (u := c :: u) y (by decide) h hu

theorem startsIdent_slash (hx : x ≠ []) (hname : (name (u ++ x)).2 = v ++ x)
    (hv : v ≠ ['\\']) : startsIdent (u ++ '/' :: y) = startsIdent (u ++ x) := by
  cases h : startsIdent (u ++ x) with
  | true => exact startsIdent_slash_true y hx h hname
  | false =>
      refine startsIdent_slash_false y h ?_ ?_
      · rintro rfl
        exact hv (eq_backslash_of_name hx hname)
      · rintro rfl
        have hhyphen : nameChar? ('-' :: '\\' :: x) = some ('-', '\\' :: x) := rfl
        rw [List.cons_append, List.singleton_append, name_eq_of_some hhyphen] at hname
        exact hv (eq_backslash_of_name hx hname)

/-! ## Numbers -/

open Numeral (takeSign takeFraction takeExponent)

theorem takeSign_cases (t : Text) :
    takeSign t = ([], t) ∨ (takeSign t).2.length + 1 ≤ t.length := by
  cases t with
  | nil => exact .inl rfl
  | cons c t =>
      rw [takeSign]
      split
      · exact .inr (by simp)
      · exact .inl rfl

/-- A fraction takes the point and a digit, or nothing. -/
theorem takeFraction_cases (t : Text) :
    takeFraction t = ([], t) ∨ (takeFraction t).2.length + 2 ≤ t.length := by
  match t with
  | [] => exact .inl rfl
  | [c] => exact .inl (by simp [takeFraction])
  | c :: d :: rest =>
      have hle := (List.dropWhile_suffix (l := rest) isDigit).length_le
      rw [takeFraction_cons]
      split
      · split
        · exact .inr (by simp only [List.length_cons]; omega)
        · exact .inl rfl
      · exact .inl rfl

/-- An exponent takes its mark and a digit, or nothing. -/
theorem takeExponent_cases (t : Text) :
    takeExponent t = ([], t) ∨ (takeExponent t).2.length + 2 ≤ t.length := by
  match t with
  | [] => exact .inl rfl
  | [e] => exact .inl rfl
  | e :: s :: rest =>
      have hle := (List.dropWhile_suffix (l := rest) isDigit).length_le
      rw [takeExponent]
      split
      · split
        · exact .inr (by simp only [List.length_cons]; omega)
        · split
          · exact .inr (by simp only [List.length_cons]; omega)
          · exact .inl rfl
      · exact .inl rfl

/-- A reader that takes nothing, or else more than there is in front of what is
left, takes nothing. -/
theorem eq_of_takes {f : Text → Text × Text} {n : Nat}
    (hf : f (u ++ x) = ([], u ++ x) ∨ (f (u ++ x)).2.length + n ≤ (u ++ x).length)
    (hu : u.length < n) (h : (f (u ++ x)).2 = v ++ x) :
    f (u ++ x) = ([], u ++ x) ∧ v = u := by
  rcases hf with hf | hf
  · rw [hf] at h
    exact ⟨hf, (List.append_cancel_right h).symm⟩
  · rw [h, List.length_append, List.length_append] at hf
    omega

theorem takeSign_slash (h : (takeSign (u ++ x)).2 = v ++ x) :
    takeSign (u ++ '/' :: y) = ((takeSign (u ++ x)).1, v ++ '/' :: y) := by
  cases u with
  | nil =>
      obtain ⟨heq, rfl⟩ := eq_of_takes (takeSign_cases _) (by simp) h
      rw [heq]
      rfl
  | cons c u =>
      simp only [List.cons_append, takeSign] at h ⊢
      split at h
      · next hc => rw [if_pos hc, if_pos hc, List.append_cancel_right h]
      · next hc =>
          obtain rfl : c :: u = v := List.append_cancel_right h
          rw [if_neg hc, if_neg hc]
          rfl

theorem takeFraction_slash (h : (takeFraction (u ++ x)).2 = v ++ x) :
    takeFraction (u ++ '/' :: y) = ((takeFraction (u ++ x)).1, v ++ '/' :: y) := by
  match u with
  | [] =>
      obtain ⟨heq, rfl⟩ := eq_of_takes (takeFraction_cases _) (by simp) h
      rw [heq]
      simp [takeFraction]
  | [c] =>
      obtain ⟨heq, rfl⟩ := eq_of_takes (takeFraction_cases _) (by simp) h
      have hslash : isDigit '/' = false := by decide
      rw [heq]
      simp [takeFraction_cons, hslash]
  | c :: d :: u =>
      simp only [List.cons_append, takeFraction_cons] at h ⊢
      split at h
      · next hc =>
          rw [if_pos hc, if_pos hc]
          split at h
          · next hd =>
              obtain ⟨hdrop, htake⟩ := dropWhile_slash y (p := isDigit) (by decide) h
              rw [if_pos hd, if_pos hd, hdrop, htake]
          · next hd =>
              obtain rfl : c :: d :: u = v := List.append_cancel_right h
              rw [if_neg hd, if_neg hd]
              rfl
      · next hc =>
          obtain rfl : c :: d :: u = v := List.append_cancel_right h
          rw [if_neg hc, if_neg hc]
          rfl

theorem takeExponent_slash (h : (takeExponent (u ++ x)).2 = v ++ x) :
    takeExponent (u ++ '/' :: y) = ((takeExponent (u ++ x)).1, v ++ '/' :: y) := by
  match u with
  | [] =>
      obtain ⟨heq, rfl⟩ := eq_of_takes (takeExponent_cases _) (by simp) h
      rw [heq]
      cases y with
      | nil => rfl
      | cons d y => simp [takeExponent]
  | [e] =>
      obtain ⟨heq, rfl⟩ := eq_of_takes (takeExponent_cases _) (by simp) h
      have hslash : isDigit '/' = false := by decide
      rw [heq]
      simp [takeExponent, hslash]
  | e :: s :: u =>
      have hhead := head?_append_cons y (p := isDigit) (d := '/') (by decide) u
      simp only [List.cons_append, takeExponent] at h ⊢
      by_cases he : (e = 'e' || e = 'E') = true
      · rw [if_pos he] at h
        rw [if_pos he, if_pos he]
        by_cases hs : isDigit s = true
        · rw [if_pos hs] at h
          obtain ⟨hdrop, htake⟩ := dropWhile_slash y (p := isDigit) (by decide) h
          rw [if_pos hs, if_pos hs, hdrop, htake]
        · rw [if_neg hs] at h
          rw [if_neg hs, if_neg hs, hhead]
          split at h
          · next hsign =>
              obtain ⟨hdrop, htake⟩ := dropWhile_slash y (p := isDigit) (by decide) h
              rw [head?_of_dropWhile h] at hsign ⊢
              rw [if_pos hsign, if_pos hsign, hdrop, htake]
          · next hsign =>
              have hfirst : ¬ ((s = '+' || s = '-') && u.head?.any isDigit) = true := by
                cases u with
                | nil => simp
                | cons d u => exact hsign
              obtain rfl : e :: s :: u = v := List.append_cancel_right h
              rw [if_neg hsign, if_neg hfirst]
              rfl
      · rw [if_neg he] at h
        obtain rfl : e :: s :: u = v := List.append_cancel_right h
        rw [if_neg he, if_neg he]
        rfl

theorem numeral_scan_slash (h : (Numeral.scan (u ++ x)).2 = v ++ x) :
    Numeral.scan (u ++ '/' :: y) = ((Numeral.scan (u ++ x)).1, v ++ '/' :: y) := by
  have hexponent := h
  rw [Numeral.scan_rest] at hexponent
  obtain ⟨w₃, hfraction⟩ := exists_of_suffix
    (hexponent ▸ Numeral.takeExponent_suffix _ : v ++ x <:+ _)
  obtain ⟨w₂, hwhole⟩ := exists_of_suffix
    (hfraction ▸ Numeral.takeFraction_suffix _ : w₃ ++ x <:+ _)
  obtain ⟨w₁, hsign⟩ := exists_of_suffix
    (hwhole ▸ List.dropWhile_suffix _ : w₂ ++ x <:+ _)
  rw [hfraction] at hexponent
  rw [hwhole] at hfraction
  rw [hsign] at hwhole
  obtain ⟨hdrop, htake⟩ := dropWhile_slash y (p := isDigit) (by decide) hwhole
  simp only [Numeral.scan, takeSign_slash y hsign, hsign, hdrop, htake,
    hwhole, takeFraction_slash y hfraction, hfraction, takeExponent_slash y hexponent]

theorem takeWhile_ne_nil {p : Char → Bool} {t : Text} :
    t.takeWhile p ≠ [] ↔ t.head?.any p = true := by
  cases t with
  | nil => simp
  | cons c t => by_cases hc : p c = true <;> simp [hc]

/-- What looks like a number has a digit behind its sign, or a point and a digit. -/
theorem startsNumber_eq (t : Text) :
    startsNumber t = ((takeSign t).2.head?.any isDigit ||
      ((takeSign t).2.head? = some '.' && ((takeSign t).2.drop 1).head?.any isDigit)) := by
  cases t with
  | nil => rfl
  | cons c t =>
      rw [startsNumber_cons, takeSign]
      split
      · rfl
      · by_cases hc : c = '.'
        · subst hc
          simp [show isDigit '.' = false by decide]
        · simp [hc]

/-- What looks like a number has a digit before or behind its point. -/
theorem startsNumber_iff (t : Text) :
    startsNumber t = true ↔
      (Numeral.scan t).1.whole ≠ [] ∨ (Numeral.scan t).1.fraction ≠ [] := by
  have hwhole : (Numeral.scan t).1.whole = (takeSign t).2.takeWhile isDigit := rfl
  have hfraction : (Numeral.scan t).1.fraction =
      (takeFraction ((takeSign t).2.dropWhile isDigit)).1 := rfl
  rw [startsNumber_eq, hwhole, hfraction, takeWhile_ne_nil, Bool.or_eq_true]
  generalize (takeSign t).2 = w
  by_cases hdigit : w.head?.any isDigit = true
  · simp [hdigit]
  · have hdrop : w.dropWhile isDigit = w := by
      cases w with
      | nil => rfl
      | cons c w => exact List.dropWhile_cons_of_neg (by simpa using hdigit)
    rw [hdrop]
    rcases w with _ | ⟨c, _ | ⟨d, rest⟩⟩
    · simp [takeFraction]
    · simp [takeFraction]
    · rw [takeFraction_cons]
      by_cases hc : c = '.' <;> by_cases hd : isDigit d = true <;> simp [hc, hd]

theorem startsNumber_slash_true (h : startsNumber (u ++ x) = true)
    (hscan : (Numeral.scan (u ++ x)).2 = v ++ x) : startsNumber (u ++ '/' :: y) = true := by
  rw [startsNumber_iff] at h ⊢
  rw [numeral_scan_slash y hscan]
  exact h

theorem startsNumber_slash_false (h : startsNumber (u ++ x) = false) :
    startsNumber (u ++ '/' :: y) = false := by
  have hslash : isDigit '/' = false := by decide
  match u with
  | [] => simp [startsNumber_cons, hslash]
  | [c] =>
      simp only [List.singleton_append, startsNumber_cons] at h ⊢
      split
      · simp [hslash]
      · next hc =>
          rw [if_neg hc] at h
          split
          · simp [hslash]
          · next hdot => simpa [hdot] using h
  | [c, d] =>
      simp only [List.cons_append, List.nil_append, startsNumber_cons] at h ⊢
      split
      · next hc =>
          rw [if_pos hc, Bool.or_eq_false_iff] at h
          simpa [hslash] using h.1
      · next hc =>
          rw [if_neg hc] at h
          exact h
  | c :: d :: e :: u =>
      simp only [List.cons_append, startsNumber_cons] at h ⊢
      exact h

/-! ## Comments, strings and URLs -/

theorem closeComment?_cons_suffix {c : Char} {t text after : Text}
    (h : closeComment? (c :: t) = some (text, after)) : after <:+ t := by
  rw [closeComment?] at h
  split at h
  · cases h
    exact List.drop_suffix ..
  · obtain ⟨⟨inner, after'⟩, hinner, heq⟩ := Option.map_eq_some_iff.1 h
    cases heq
    exact closeComment?_suffix hinner

theorem closeComment?_slash (hx : x ≠ []) {text : Text}
    (h : closeComment? (u ++ x) = some (text, v ++ x)) :
    closeComment? (u ++ '/' :: y) = some (text, v ++ '/' :: y) := by
  obtain ⟨e, t, rfl⟩ := List.exists_cons_of_ne_nil hx
  induction u generalizing text with
  | nil => exact (not_suffix_of_lt (closeComment?_cons_suffix h) (by simp)).elim
  | cons c u ih =>
      cases u with
      | nil =>
          -- The mark that closes would have to end behind what is left.
          rw [List.singleton_append, closeComment?] at h
          split at h
          · have hrest := (Prod.mk.inj (Option.some.inj h)).2
            exact (not_suffix_of_lt (hrest ▸ List.suffix_rfl : v ++ e :: t <:+ t)
              (by simp)).elim
          · obtain ⟨⟨inner, after⟩, hinner, heq⟩ := Option.map_eq_some_iff.1 h
            cases heq
            exact (not_suffix_of_lt (closeComment?_cons_suffix hinner) (by simp)).elim
      | cons d u =>
          rw [List.cons_append, closeComment?] at h
          rw [List.cons_append, closeComment?]
          split at h
          · next hend =>
              rw [if_pos (by simpa using hend)]
              have hrest := Prod.mk.inj (Option.some.inj h)
              rw [← hrest.1, ← List.append_cancel_right (show u ++ _ = v ++ _ from hrest.2)]
              rfl
          · next hend =>
              obtain ⟨⟨inner, after⟩, hinner, heq⟩ := Option.map_eq_some_iff.1 h
              cases heq
              rw [if_neg (by simpa using hend), ih hinner]
              rfl

/-- A string that is not broken before what is left ends where it did. -/
theorem stringBody_slash (mark : Char) (hx : x ≠ [])
    (h : (stringBody mark (u ++ x)).2.2 = v ++ x)
    (hbroken : (stringBody mark (u ++ x)).2.1 = .broken → v ≠ []) :
    stringBody mark (u ++ '/' :: y) =
      ((stringBody mark (u ++ x)).1, (stringBody mark (u ++ x)).2.1, v ++ '/' :: y) := by
  generalize ht : u ++ x = t at h hbroken ⊢
  fun_induction stringBody mark t generalizing u with
  | case1 => exact absurd (List.append_eq_nil_iff.1 ht).2 hx
  | case2 rest =>
      dsimp only at h
      subst h
      obtain rfl : u = mark :: v := List.append_cancel_right ht
      rw [List.cons_append, stringBody.eq_def]
      simp
  | case3 rest hmark =>
      dsimp only at h
      rw [h] at ht
      obtain rfl : u = v := List.append_cancel_right ht
      obtain ⟨c, u, rfl⟩ := List.exists_cons_of_ne_nil (hbroken rfl)
      obtain rfl : c = '\n' := (List.cons.inj h).1.symm
      rw [List.cons_append, stringBody.eq_def]
      simp [hmark]
  | case4 => exact absurd (List.append_eq_nil_iff.1 h.symm).2 hx
  | case5 after hmark hline ih =>
      obtain ⟨w, rfl⟩ := exists_of_suffix (h ▸ stringBody_suffix mark after)
      obtain rfl : u = '\\' :: '\n' :: w := List.append_cancel_right ht
      rw [List.cons_append, List.cons_append, stringBody, if_neg hmark, if_neg hline,
        if_pos rfl]
      exact ih rfl h hbroken
  | case6 d after hd _ decoded more hmark hline =>
      rename_i ih
      obtain ⟨w, hw⟩ := exists_of_suffix (h ▸ stringBody_suffix mark decoded.2 : v ++ x <:+ _)
      obtain ⟨w', rfl⟩ := exists_of_suffix (hw ▸ escape_cons_suffix d after : w ++ x <:+ _)
      obtain rfl : u = '\\' :: d :: w' := List.append_cancel_right ht
      have hescape := escape_slash y (u := d :: w') hx hw
      rw [List.cons_append, List.cons_append] at hescape
      rw [List.cons_append, List.cons_append, stringBody, if_neg hmark, if_neg hline,
        if_pos rfl]
      simp only [if_neg hd, hescape, ih hw.symm h hbroken, decoded, more]
  | case7 c rest hmark hline hback more =>
      rename_i ih
      obtain ⟨w, rfl⟩ := exists_of_suffix (h ▸ stringBody_suffix mark rest : v ++ x <:+ _)
      obtain rfl : u = c :: w := List.append_cancel_right ht
      rw [List.cons_append, stringBody.eq_def]
      simp only [if_neg hmark, if_neg hline, if_neg hback, ih rfl h hbroken, more]

theorem badUrlRest_cons_suffix (c : Char) (t : Text) : badUrlRest (c :: t) <:+ t := by
  rw [badUrlRest]
  split
  · exact List.suffix_rfl
  · split
    · exact (badUrlRest_suffix _).trans (escape_suffix t)
    · exact badUrlRest_suffix t

theorem startsEscape_cons_slash {c : Char} (hu : u ≠ []) :
    startsEscape (c :: (u ++ '/' :: y)) = startsEscape (c :: (u ++ x)) :=
  startsEscape_slash (u := c :: u) y (by simp) (by simp [hu])

theorem badUrlRest_slash (hx : x ≠ []) (h : badUrlRest (u ++ x) = v ++ x) :
    badUrlRest (u ++ '/' :: y) = v ++ '/' :: y := by
  generalize ht : u ++ x = t at h
  fun_induction badUrlRest t generalizing u with
  | case1 => exact absurd (List.append_eq_nil_iff.1 ht).2 hx
  | case2 rest =>
      subst h
      obtain rfl : u = ')' :: v := List.append_cancel_right ht
      rw [List.cons_append, badUrlRest, if_pos rfl]
  | case3 c rest hc hescape _ ih =>
      obtain ⟨w, hw⟩ := exists_of_suffix (h ▸ badUrlRest_suffix _ : v ++ x <:+ _)
      obtain ⟨w', rfl⟩ := exists_of_suffix (hw ▸ escape_suffix rest : w ++ x <:+ _)
      obtain rfl : u = c :: w' := List.append_cancel_right ht
      have hw' := escape_takes hx hw
      rw [List.cons_append, badUrlRest, if_neg hc, startsEscape_cons_slash y hw', if_pos hescape,
        escape_slash y hx hw]
      exact ih hw.symm h
  | case4 c rest hc hescape ih =>
      obtain ⟨w, rfl⟩ := exists_of_suffix (h ▸ badUrlRest_suffix _ : v ++ x <:+ _)
      obtain rfl : u = c :: w := List.append_cancel_right ht
      have hw := ne_nil_of_takes badUrlRest_cons_suffix hx h
      rw [List.cons_append, badUrlRest, if_neg hc, startsEscape_cons_slash y hw, if_neg hescape]
      exact ih rfl h

theorem urlBody_cons_suffix (c : Char) (t : Text) : (urlBody (c :: t)).2.2 <:+ t := by
  rw [urlBody.eq_def]
  dsimp only
  split
  · exact List.suffix_rfl
  · split
    · have hdrop := List.dropWhile_suffix (l := t) isBlank
      split
      · exact List.nil_suffix
      · next d after hafter =>
          rw [hafter] at hdrop
          split
          · exact (List.suffix_cons d after).trans hdrop
          · exact (badUrlRest_suffix _).trans hdrop
    · split
      · exact badUrlRest_suffix t
      · split
        · split
          · exact (urlBody_suffix _).trans (escape_suffix t)
          · exact badUrlRest_suffix t
        · exact urlBody_suffix t

/-- How a URL ends in front of a text, and in front of another. -/
inductive UrlEnd.Meets (x z : Text) : UrlEnd → UrlEnd → Prop where
  | closed : Meets x z .closed .closed
  | spaced : Meets x z .spaced .spaced
  | invalid (fault : Fault) (w : Text) :
      Meets x z (.invalid fault (w ++ x)) (.invalid fault (w ++ z))

theorem urlBody_slash (hx : x ≠ []) (h : (urlBody (u ++ x)).2.2 = v ++ x) :
    ∃ ending, UrlEnd.Meets x ('/' :: y) (urlBody (u ++ x)).2.1 ending ∧
      urlBody (u ++ '/' :: y) = ((urlBody (u ++ x)).1, ending, v ++ '/' :: y) := by
  generalize ht : u ++ x = t at h ⊢
  fun_induction urlBody t generalizing u with
  | case1 => exact absurd (List.append_eq_nil_iff.1 ht).2 hx
  | case2 rest =>
      dsimp only at h
      subst h
      obtain rfl : u = ')' :: v := List.append_cancel_right ht
      refine ⟨_, .closed, ?_⟩
      rw [List.cons_append, urlBody.eq_def]
      simp
  | case3 => exact absurd (List.append_eq_nil_iff.1 h.symm).2 hx
  | case4 c rest hc hblank after hrest =>
      dsimp only at h
      subst h
      obtain ⟨w, rfl⟩ := exists_of_suffix ((List.suffix_cons ..).trans
        (hrest ▸ List.dropWhile_suffix _ : ')' :: (v ++ x) <:+ rest))
      obtain rfl : u = c :: w := List.append_cancel_right ht
      obtain ⟨hdrop, -⟩ := dropWhile_slash y (p := isBlank) (by decide)
        (show _ = (')' :: v) ++ x from hrest)
      refine ⟨_, .closed, ?_⟩
      rw [List.cons_append, urlBody, if_neg hc, if_pos hblank, hdrop]
      rfl
  | case5 c rest hc hblank d after hrest hd =>
      dsimp only at h
      obtain ⟨w, hw⟩ := exists_of_suffix (h ▸ badUrlRest_suffix _ : v ++ x <:+ _)
      obtain ⟨w', rfl⟩ := exists_of_suffix
        ((hrest.trans hw) ▸ List.dropWhile_suffix _ : w ++ x <:+ rest)
      obtain rfl : u = c :: w' := List.append_cancel_right ht
      obtain ⟨hdrop, -⟩ := dropWhile_slash y (p := isBlank) (by decide) (hrest.trans hw)
      rw [hw] at h
      obtain ⟨e, w, rfl⟩ := List.exists_cons_of_ne_nil
        (ne_nil_of_takes badUrlRest_cons_suffix hx h)
      obtain rfl : d = e := (List.cons.inj hw).1
      have hbad := badUrlRest_slash y hx h
      rw [List.cons_append] at hbad
      refine ⟨_, .spaced, ?_⟩
      rw [List.cons_append, urlBody, if_neg hc, if_pos hblank, hdrop, List.cons_append]
      simp only [if_neg hd, hbad]
  | case6 c rest hc hblank hquote =>
      dsimp only at h
      obtain ⟨w, rfl⟩ := exists_of_suffix (h ▸ badUrlRest_suffix _ : v ++ x <:+ _)
      obtain rfl : u = c :: w := List.append_cancel_right ht
      refine ⟨_, .invalid _ w, ?_⟩
      rw [List.cons_append, urlBody, if_neg hc, if_neg hblank, if_pos hquote,
        badUrlRest_slash y hx h]
  | case7 rest _ decoded more hc hblank hquote hescape =>
      rename_i ih
      obtain ⟨w, hw⟩ := exists_of_suffix (h ▸ urlBody_suffix decoded.2 : v ++ x <:+ _)
      obtain ⟨w', rfl⟩ := exists_of_suffix (hw ▸ escape_suffix rest : w ++ x <:+ _)
      obtain rfl : u = '\\' :: w' := List.append_cancel_right ht
      have hw' := escape_takes hx hw
      obtain ⟨ending, hending, hbody⟩ := ih hw.symm h
      refine ⟨ending, hending, ?_⟩
      rw [List.cons_append, urlBody, if_neg hc, if_neg hblank, if_neg hquote,
        if_pos rfl, startsEscape_cons_slash y hw', if_pos hescape]
      simp only [escape_slash y hx hw, hbody, decoded, more]
  | case8 rest hc hblank hquote hescape =>
      dsimp only at h
      obtain ⟨w, rfl⟩ := exists_of_suffix (h ▸ badUrlRest_suffix _ : v ++ x <:+ _)
      obtain rfl : u = '\\' :: w := List.append_cancel_right ht
      have hw := ne_nil_of_takes badUrlRest_cons_suffix hx h
      refine ⟨_, .invalid _ w, ?_⟩
      rw [List.cons_append, urlBody, if_neg hc, if_neg hblank, if_neg hquote,
        if_pos rfl, startsEscape_cons_slash y hw, if_neg hescape, badUrlRest_slash y hx h]
  | case9 c rest hc hblank hquote hback more =>
      rename_i ih
      obtain ⟨w, rfl⟩ := exists_of_suffix (h ▸ urlBody_suffix rest : v ++ x <:+ _)
      obtain rfl : u = c :: w := List.append_cancel_right ht
      obtain ⟨ending, hending, hbody⟩ := ih rfl h
      refine ⟨ending, hending, ?_⟩
      rw [List.cons_append, urlBody, if_neg hc, if_neg hblank, if_neg hquote,
        if_neg hback, hbody]

theorem dropBlanksButLast_slash (hv : v ≠ []) (h : dropBlanksButLast (u ++ x) = v ++ x) :
    dropBlanksButLast (u ++ '/' :: y) = v ++ '/' :: y := by
  have hslash : isBlank '/' = false := by decide
  induction u with
  | nil => exact absurd (eq_nil_of_suffix (h ▸ dropBlanksButLast_suffix x)) hv
  | cons a u ih =>
      cases u with
      | nil =>
          have hva : [a] = v := by
            cases x with
            | nil => simpa [dropBlanksButLast] using h
            | cons b t =>
                rw [List.singleton_append, dropBlanksButLast] at h
                split at h
                · exact absurd (eq_nil_of_suffix (h ▸ dropBlanksButLast_suffix _)) hv
                · obtain rfl : [a] = v := List.append_cancel_right h
                  rfl
          rw [← hva]
          simp [dropBlanksButLast, hslash]
      | cons b u =>
          rw [List.cons_append, List.cons_append, dropBlanksButLast] at h ⊢
          split at h
          · next hblank =>
              rw [if_pos hblank]
              exact ih h
          · next hblank =>
              obtain rfl : a :: b :: u = v := List.append_cancel_right h
              rw [if_neg hblank]
              rfl

theorem startsQuoted_slash (hv : v ≠ [])
    (h : startsQuoted (v ++ x) = true → ∀ c, v = [c] → isBlank c = false) :
    startsQuoted (v ++ '/' :: y) = startsQuoted (v ++ x) := by
  match v with
  | [] => exact absurd rfl hv
  | c :: d :: v => rfl
  | [c] =>
      have hslash : isQuote '/' = false := by decide
      cases hquoted : startsQuoted ([c] ++ x) with
      | true =>
          have hblank := h hquoted c rfl
          simp_all [startsQuoted]
      | false =>
          rw [List.singleton_append, startsQuoted, Bool.or_eq_false_iff] at hquoted
          simp [startsQuoted, hquoted.1, hslash]

end

end StyleAudit.Source
