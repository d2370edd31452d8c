import Mathlib.Computability.RegularExpressions
import Mathlib.Data.List.Basic
import Mathlib.Data.Nat.Digits.Defs
import StyleAudit.Proofs.Interruption
import StyleAudit.Proofs.Lookahead
import StyleAudit.Proofs.Tiling

/-!
# Numbers are the longest match of their grammar

The reader of numbers takes a sign, digits, a fraction and an exponent, one after
the other, and each of them looks ahead before it takes anything: a point counts
only with a digit behind it, the mark of an exponent only with a digit, or with a
sign and a digit. The grammar of numbers is one regular expression and knows of no
looking ahead; in it the digits in front of a point belong to the point.

That the reader takes what matches is a matter of sorting its parts. That nothing
longer matches is shown from the other end: whatever matches, the reader leaves no
more than what is behind it. Each of the four parts is read to its end if a match
goes on behind it, because what goes on starts with no digit.

Whether a number is read at all is decided by looking at three code points. The
grammar decides the same: a number is read where, and only where, some text that
matches stands at the front.
-/

namespace StyleAudit

open Source (isDigit isDigit_iff)

namespace Numeral

/-! ## The grammar -/

/-- Any one of the code points of a text. -/
def oneOf (t : Text) : RegularExpression Char := t.foldr (fun c r => .char c + r) 0

/-- A part that may be missing. -/
def optional (r : RegularExpression Char) : RegularExpression Char := 1 + r

/-- A sign. -/
def signs : RegularExpression Char := oneOf ['+', '-']

/-- A decimal digit. -/
def digit : RegularExpression Char := oneOf "0123456789".toList

/-- Digits, one at least. -/
def digits : RegularExpression Char := digit * digit.star

/-- An exponent: `[eE][+-]?[0-9]+`. -/
def exponents : RegularExpression Char := oneOf ['e', 'E'] * optional signs * digits

/-- A number: `[+-]?([0-9]*\.)?[0-9]+([eE][+-]?[0-9]+)?`. -/
def grammar : RegularExpression Char :=
  optional signs * optional (digit.star * .char '.') * digits * optional exponents

/-- What is read as a number that need not be an integer, its value given in decimals:
`[+-]?([0-9]+\.?|[0-9]*\.[0-9]+)([eE][+-]?[0-9]+)?`. -/
def reals : RegularExpression Char :=
  optional signs * (digits * optional (.char '.') + digit.star * .char '.' * digits) *
    optional exponents

theorem mem_oneOf {t w : Text} : w ∈ (oneOf t).matches' ↔ ∃ c ∈ t, w = [c] := by
  induction t with
  | nil => simp [oneOf]
  | cons c t ih =>
      have hcons : oneOf (c :: t) = .char c + oneOf t := rfl
      rw [hcons, RegularExpression.matches'_add, Language.mem_add, ih, List.exists_mem_cons_iff]
      rfl

theorem mem_optional {r : RegularExpression Char} {w : Text} :
    w ∈ (optional r).matches' ↔ w = [] ∨ w ∈ r.matches' := by
  rw [optional, RegularExpression.matches'_add, Language.mem_add,
    RegularExpression.matches'_epsilon, Language.mem_one]

theorem mem_mul {r s : RegularExpression Char} {w : Text} :
    w ∈ (r * s).matches' ↔ ∃ u ∈ r.matches', ∃ v ∈ s.matches', u ++ v = w := by
  rw [RegularExpression.matches'_mul, Language.mem_mul]

theorem mem_sign {w : Text} : w ∈ signs.matches' ↔ w = ['+'] ∨ w = ['-'] := by
  simp [signs, mem_oneOf]

theorem mem_digit {w : Text} : w ∈ digit.matches' ↔ ∃ c, isDigit c = true ∧ w = [c] := by
  rw [digit, mem_oneOf]
  exact exists_congr fun c => and_congr_left' isDigit_iff.symm

theorem mem_digit_star {w : Text} :
    w ∈ digit.star.matches' ↔ ∀ c ∈ w, isDigit c = true := by
  rw [RegularExpression.matches'_star, Language.mem_kstar]
  constructor
  · rintro ⟨parts, rfl, hparts⟩ c hc
    obtain ⟨part, hpart, hmem⟩ := List.mem_flatten.1 hc
    obtain ⟨d, hd, rfl⟩ := mem_digit.1 (hparts part hpart)
    rw [List.mem_singleton.1 hmem]
    exact hd
  · intro h
    refine ⟨w.map fun c => [c], ?_, fun part hpart => ?_⟩
    · rw [← List.flatMap_def, List.flatMap_singleton']
    · obtain ⟨c, hc, rfl⟩ := List.mem_map.1 hpart
      exact mem_digit.2 ⟨c, h c hc, rfl⟩

theorem mem_digits {w : Text} :
    w ∈ digits.matches' ↔ w ≠ [] ∧ ∀ c ∈ w, isDigit c = true := by
  rw [digits, mem_mul]
  constructor
  · rintro ⟨u, hu, v, hv, rfl⟩
    obtain ⟨c, hc, rfl⟩ := mem_digit.1 hu
    exact ⟨by simp, List.forall_mem_cons.2 ⟨hc, mem_digit_star.1 hv⟩⟩
  · rintro ⟨hne, hdigits⟩
    obtain ⟨c, v, rfl⟩ := List.exists_cons_of_ne_nil hne
    obtain ⟨hc, hv⟩ := List.forall_mem_cons.1 hdigits
    exact ⟨[c], mem_digit.2 ⟨c, hc, rfl⟩, v, mem_digit_star.2 hv, rfl⟩

/-! ## What is read matches -/

theorem takeSign_mem (t : Text) : (takeSign t).1 ∈ (optional signs).matches' := by
  rw [mem_optional, mem_sign]
  cases t with
  | nil => exact .inl rfl
  | cons c t =>
      rw [takeSign]
      split
      · next hc => simpa using hc
      · exact .inl rfl

theorem takeSign_append (t : Text) : (takeSign t).1 ++ (takeSign t).2 = t := by
  cases t with
  | nil => rfl
  | cons c t =>
      rw [takeSign]
      split <;> rfl

/-- Digits behind a point, as written with it. -/
def pointed (fraction : Text) : Text := if fraction.isEmpty then [] else '.' :: fraction

theorem text_eq (n : Numeral) :
    n.text = n.sign ++ (n.whole ++ (pointed n.fraction ++ n.exponent)) := by
  rw [text, pointed, List.append_assoc, List.append_assoc]

theorem takeFraction_append (t : Text) :
    pointed (takeFraction t).1 ++ (takeFraction t).2 = t := by
  unfold takeFraction
  split
  · split
    · simp [pointed, List.takeWhile_append_dropWhile]
    · rfl
  · rfl

theorem takeFraction_digits (t : Text) : ∀ c ∈ (takeFraction t).1, isDigit c = true := by
  unfold takeFraction
  split
  · split
    · next hd => exact List.forall_mem_cons.2 ⟨hd, fun _ hc => List.mem_takeWhile_imp hc⟩
    · simp
  · simp

theorem takeExponent_append (t : Text) : (takeExponent t).1 ++ (takeExponent t).2 = t := by
  unfold takeExponent
  split
  · split
    · split
      · simp [List.takeWhile_append_dropWhile]
      · split
        · simp [List.takeWhile_append_dropWhile]
        · rfl
    · rfl
  · rfl

theorem mem_exponents {w : Text} :
    w ∈ exponents.matches' ↔ ∃ mark sign ds, (mark = 'e' ∨ mark = 'E') ∧
      sign ∈ (optional signs).matches' ∧ ds ∈ digits.matches' ∧ w = mark :: (sign ++ ds) := by
  rw [exponents, mem_mul]
  constructor
  · rintro ⟨u, hu, ds, hds, rfl⟩
    obtain ⟨v, hv, sign, hsign, rfl⟩ := mem_mul.1 hu
    obtain ⟨mark, hmark, rfl⟩ := mem_oneOf.1 hv
    exact ⟨mark, sign, ds, by simpa using hmark, hsign, hds, by simp⟩
  · rintro ⟨mark, sign, ds, hmark, hsign, hds, rfl⟩
    refine ⟨mark :: sign, mem_mul.2 ⟨[mark], ?_, sign, hsign, rfl⟩, ds, hds, rfl⟩
    exact mem_oneOf.2 ⟨mark, by simpa using hmark, rfl⟩

theorem takeExponent_mem (t : Text) : (takeExponent t).1 ∈ (optional exponents).matches' := by
  rw [mem_optional, mem_exponents]
  unfold takeExponent
  split
  · next e s rest =>
      split
      · next he =>
          have hmark : e = 'e' ∨ e = 'E' := by simpa using he
          split
          · next hs =>
              refine .inr ⟨e, [], _, hmark, mem_optional.2 (.inl rfl), mem_digits.2 ?_, rfl⟩
              exact ⟨by simp, List.forall_mem_cons.2 ⟨hs, fun _ hc => List.mem_takeWhile_imp hc⟩⟩
          · split
            · next hs =>
                rw [Bool.and_eq_true] at hs
                refine .inr ⟨e, [s], rest.takeWhile isDigit, hmark, ?_, mem_digits.2 ?_, rfl⟩
                · exact mem_optional.2 (.inr (mem_sign.2 (by simpa using hs.1)))
                · exact ⟨Source.takeWhile_ne_nil.2 hs.2, fun _ hc => List.mem_takeWhile_imp hc⟩
            · exact .inl rfl
      · exact .inl rfl
  · exact .inl rfl

theorem text_append (t : Text) : (scan t).1.text ++ (scan t).2 = t := by
  have hsign := takeSign_append t
  have hwhole := List.takeWhile_append_dropWhile (p := isDigit) (l := (takeSign t).2)
  have hfraction := takeFraction_append ((takeSign t).2.dropWhile isDigit)
  have hexponent := takeExponent_append (takeFraction ((takeSign t).2.dropWhile isDigit)).2
  rw [text_eq, scan_rest, List.append_assoc, List.append_assoc, List.append_assoc]
  show (takeSign t).1 ++ ((takeSign t).2.takeWhile isDigit ++
    (pointed (takeFraction ((takeSign t).2.dropWhile isDigit)).1 ++
      ((takeExponent (takeFraction ((takeSign t).2.dropWhile isDigit)).2).1 ++ _))) = t
  rw [hexponent, hfraction, hwhole, hsign]

theorem mem_grammar {w : Text} :
    w ∈ grammar.matches' ↔ ∃ sign front ds exponent, sign ∈ (optional signs).matches' ∧
      front ∈ (optional (digit.star * .char '.')).matches' ∧ ds ∈ digits.matches' ∧
      exponent ∈ (optional exponents).matches' ∧
      w = sign ++ (front ++ (ds ++ exponent)) := by
  simp only [grammar, mem_mul]
  constructor
  · rintro ⟨_, ⟨_, ⟨sign, hsign, front, hfront, rfl⟩, ds, hds, rfl⟩, exponent, hexponent, rfl⟩
    exact ⟨sign, front, ds, exponent, hsign, hfront, hds, hexponent, by simp⟩
  · rintro ⟨sign, front, ds, exponent, hsign, hfront, hds, hexponent, rfl⟩
    exact ⟨_, ⟨_, ⟨sign, hsign, front, hfront, rfl⟩, ds, hds, rfl⟩, exponent, hexponent, by simp⟩

/-- What a reader of numbers leaves of its parts, put together again. -/
structure Written (n : Numeral) : Prop where
  sign : n.sign ∈ (optional signs).matches'
  whole : ∀ c ∈ n.whole, isDigit c = true
  fraction : ∀ c ∈ n.fraction, isDigit c = true
  exponent : n.exponent ∈ (optional exponents).matches'
  nonempty : n.whole ≠ [] ∨ n.fraction ≠ []

theorem scan_written {t : Text} (h : Source.startsNumber t = true) : (scan t).1.Written where
  sign := takeSign_mem t
  whole := fun _ hc => List.mem_takeWhile_imp hc
  fraction := takeFraction_digits _
  exponent := takeExponent_mem _
  nonempty := (Source.startsNumber_iff t).1 h

namespace Written

variable {n : Numeral}

/-- Digits in front of a point belong to it; without a point they are the number. -/
theorem text_cases (h : n.Written) :
    (n.fraction = [] ∧ n.whole ∈ digits.matches' ∧ n.text = n.sign ++ (n.whole ++ n.exponent)) ∨
      (n.fraction ∈ digits.matches' ∧
        n.text = n.sign ++ ((n.whole ++ ['.']) ++ (n.fraction ++ n.exponent))) := by
  rw [text_eq]
  by_cases hfraction : n.fraction = []
  · have hne : n.whole ≠ [] := h.nonempty.resolve_right (by simp [hfraction])
    refine .inl ⟨hfraction, mem_digits.2 ⟨hne, h.whole⟩, ?_⟩
    rw [hfraction]
    rfl
  · refine .inr ⟨mem_digits.2 ⟨hfraction, h.fraction⟩, ?_⟩
    simp [pointed, hfraction]

theorem mem_grammar (h : n.Written) : n.text ∈ grammar.matches' := by
  rw [Numeral.mem_grammar]
  rcases h.text_cases with ⟨-, hwhole, htext⟩ | ⟨hfraction, htext⟩
  · exact ⟨n.sign, [], n.whole, n.exponent, h.sign, mem_optional.2 (.inl rfl), hwhole, h.exponent,
      htext⟩
  · refine ⟨n.sign, n.whole ++ ['.'], n.fraction, n.exponent, h.sign, mem_optional.2 (.inr ?_),
      hfraction, h.exponent, htext⟩
    exact mem_mul.2 ⟨n.whole, mem_digit_star.2 h.whole, ['.'], rfl, rfl⟩

theorem mem_reals (h : n.Written) : n.text ∈ reals.matches' := by
  rw [reals, mem_mul]
  rcases h.text_cases with ⟨-, hwhole, htext⟩ | ⟨hfraction, htext⟩
  · refine ⟨n.sign ++ n.whole, mem_mul.2 ⟨n.sign, h.sign, n.whole, .inl ?_, rfl⟩, n.exponent,
      h.exponent, by rw [htext, List.append_assoc]⟩
    exact mem_mul.2 ⟨n.whole, hwhole, [], mem_optional.2 (.inl rfl), List.append_nil _⟩
  · refine ⟨n.sign ++ ((n.whole ++ ['.']) ++ n.fraction),
      mem_mul.2 ⟨n.sign, h.sign, _, .inr ?_, rfl⟩, n.exponent, h.exponent,
      by rw [htext]; simp only [List.append_assoc]⟩
    exact mem_mul.2 ⟨n.whole ++ ['.'],
      mem_mul.2 ⟨n.whole, mem_digit_star.2 h.whole, ['.'], rfl, rfl⟩, n.fraction, hfraction, rfl⟩

theorem isInteger_iff (h : n.Written) :
    n.isInteger = true ↔ ∀ c ∈ n.text, c ≠ '.' ∧ c ≠ 'e' ∧ c ≠ 'E' := by
  have hdigit : ∀ c, isDigit c = true → c ≠ '.' ∧ c ≠ 'e' ∧ c ≠ 'E' := by
    intro c hc
    refine ⟨?_, ?_, ?_⟩ <;>
      · rintro rfl
        cases hc
  have hsign : ∀ c ∈ n.sign, c ≠ '.' ∧ c ≠ 'e' ∧ c ≠ 'E' := by
    have hmem := h.sign
    rw [mem_optional, mem_sign] at hmem
    rcases hmem with hs | hs | hs <;> simp [hs]
  rw [isInteger, Bool.and_eq_true, List.isEmpty_iff, List.isEmpty_iff, text_eq]
  constructor
  · rintro ⟨hfraction, hexponent⟩ c hc
    rw [hfraction, hexponent] at hc
    rcases List.mem_append.1 hc with hc | hc
    · exact hsign c hc
    · exact hdigit c (h.whole c (by simpa [pointed] using hc))
  · intro hall
    refine ⟨?_, ?_⟩
    · by_contra hne
      exact (hall '.' (by simp [pointed, hne])).1 rfl
    · rcases mem_optional.1 h.exponent with hnil | hmem
      · exact hnil
      · obtain ⟨mark, sign, ds, hmark, -, -, htext⟩ := mem_exponents.1 hmem
        have hmarked := (hall mark (by simp [htext])).2
        rcases hmark with rfl | rfl
        · exact absurd rfl hmarked.1
        · exact absurd rfl hmarked.2

end Written

/-! ## What integers denote -/

/-- The number that decimal digits denote, the last of them counting once; none for
anything else. -/
def naturalOf? (t : Text) : Option Nat :=
  if t ≠ [] ∧ t.all isDigit = true then
    some (Nat.ofDigits 10 (t.reverse.map fun c => c.toNat - '0'.toNat))
  else none

/-- The integer that a sign, or none, and decimal digits denote; none for anything
else. -/
def integerOf? : Text → Option Int
  | '+' :: t => (naturalOf? t).map fun n => (n : Int)
  | '-' :: t => (naturalOf? t).map fun n => -(n : Int)
  | t => (naturalOf? t).map fun n => (n : Int)

theorem foldl_eq_ofDigits (base : Nat) (value : Char → Nat) (t : Text) :
    t.foldl (fun n c => base * n + value c) 0 = Nat.ofDigits base (t.reverse.map value) := by
  rw [Nat.ofDigits_eq_foldr, List.foldr_map, List.foldr_reverse]
  congr 1
  funext n c
  exact Nat.add_comm _ _

theorem naturalOf?_eq {t : Text} (h : t ∈ digits.matches') : naturalOf? t = some (natural t) := by
  have hdigits : t ≠ [] ∧ t.all isDigit = true := (mem_digits.1 h).imp_right List.all_eq_true.2
  rw [naturalOf?, if_pos hdigits, natural, foldl_eq_ofDigits]

theorem Written.integerOf?_text {n : Numeral} (h : n.Written) (hinteger : n.isInteger = true) :
    integerOf? n.text = some n.integer := by
  rw [isInteger, Bool.and_eq_true, List.isEmpty_iff, List.isEmpty_iff] at hinteger
  obtain ⟨hfraction, hexponent⟩ := hinteger
  have hdigits : n.whole ∈ digits.matches' :=
    mem_digits.2 ⟨h.nonempty.resolve_right (by simp [hfraction]), h.whole⟩
  have htext : n.text = n.sign ++ n.whole := by
    rw [text_eq, hfraction, hexponent]
    simp [pointed]
  have hvalue := naturalOf?_eq hdigits
  have hmem := h.sign
  rw [mem_optional, mem_sign] at hmem
  rw [htext, integer, isNegative]
  rcases hmem with hs | hs | hs
  · -- no sign, so the first code point is a digit
    obtain ⟨c, ds, hwhole⟩ := List.exists_cons_of_ne_nil (mem_digits.1 hdigits).1
    have hc : isDigit c = true := h.whole c (by simp [hwhole])
    rw [hs, List.nil_append, integerOf?, hvalue]
    · rfl
    · rintro t heq
      rw [hwhole, List.cons.injEq] at heq
      rw [heq.1] at hc
      cases hc
    · rintro t heq
      rw [hwhole, List.cons.injEq] at heq
      rw [heq.1] at hc
      cases hc
  · rw [hs, List.singleton_append, integerOf?, hvalue]
    rfl
  · rw [hs, List.singleton_append, integerOf?, hvalue]
    rfl

/-! ## Nothing longer matches -/

theorem digits_head {ds : Text} (h : ds ∈ digits.matches') :
    ∃ c rest, ds = c :: rest ∧ isDigit c = true ∧ ∀ d ∈ rest, isDigit d = true := by
  obtain ⟨hne, hall⟩ := mem_digits.1 h
  obtain ⟨c, rest, rfl⟩ := List.exists_cons_of_ne_nil hne
  exact ⟨c, rest, rfl, List.forall_mem_cons.1 hall⟩

theorem takeExponent_leaves {e : Text} (he : e ∈ (optional exponents).matches') (u : Text) :
    (takeExponent (e ++ u)).2 <:+ u := by
  rcases mem_optional.1 he with rfl | he
  · exact takeExponent_suffix u
  · obtain ⟨mark, sign, ds, hmark, hsign, hds, rfl⟩ := mem_exponents.1 he
    obtain ⟨c, rest, rfl, hc, hrest⟩ := digits_head hds
    have hletter : (mark = 'e' || mark = 'E') = true := by simpa using hmark
    have hdrop : (rest ++ u).dropWhile isDigit <:+ u := by
      rw [List.dropWhile_append_of_pos hrest]
      exact List.dropWhile_suffix _
    rw [mem_optional, mem_sign] at hsign
    rcases hsign with rfl | rfl | rfl
    · simp only [List.nil_append, List.cons_append, takeExponent, if_pos hletter, if_pos hc]
      exact hdrop
    · have hplus : isDigit '+' = false := by decide
      simpa [takeExponent, hletter, hplus, hc] using hdrop
    · have hminus : isDigit '-' = false := by decide
      simpa [takeExponent, hletter, hminus, hc] using hdrop

/-- No digit is taken off an exponent, so it is still read behind a run of digits. -/
theorem dropWhile_leaves {e : Text} (he : e ∈ (optional exponents).matches') (u : Text) :
    (takeExponent ((e ++ u).dropWhile isDigit)).2 <:+ u ∧
      (takeExponent (takeFraction ((e ++ u).dropWhile isDigit)).2).2 <:+ u := by
  have hread := takeExponent_leaves he u
  rcases mem_optional.1 he with rfl | hmem
  · have hdrop : (([] : Text) ++ u).dropWhile isDigit <:+ u := List.dropWhile_suffix _
    exact ⟨(takeExponent_suffix _).trans hdrop,
      (takeExponent_suffix _).trans ((takeFraction_suffix _).trans hdrop)⟩
  · obtain ⟨mark, sign, ds, hmark, -, -, rfl⟩ := mem_exponents.1 hmem
    have hdigit : isDigit mark = false := by rcases hmark with rfl | rfl <;> rfl
    have hpoint : mark ≠ '.' := by rcases hmark with rfl | rfl <;> decide
    have hdrop : ((mark :: (sign ++ ds)) ++ u).dropWhile isDigit = (mark :: (sign ++ ds)) ++ u :=
      List.dropWhile_cons_of_neg (by simp [hdigit])
    have hfraction : takeFraction ((mark :: (sign ++ ds)) ++ u) =
        ([], (mark :: (sign ++ ds)) ++ u) := by
      rw [List.cons_append, takeFraction]
      rintro d rest heq
      rw [List.cons.injEq] at heq
      exact hpoint heq.1
    rw [hdrop, hfraction]
    exact ⟨hread, hread⟩

/-- Behind the sign of a number a digit stands, or a point and a digit. -/
theorem front_head {front ds x : Text}
    (hfront : front ∈ (optional (digit.star * .char '.')).matches') (hds : ds ∈ digits.matches') :
    ∃ c rest, front ++ (ds ++ x) = c :: rest ∧
      (isDigit c = true ∨ c = '.' ∧ rest.head?.any isDigit = true) := by
  obtain ⟨d, more, rfl, hd, -⟩ := digits_head hds
  rcases mem_optional.1 hfront with rfl | hfront
  · exact ⟨d, more ++ x, rfl, .inl hd⟩
  · obtain ⟨w, hw, _, rfl, rfl⟩ := mem_mul.1 hfront
    cases w with
    | nil => exact ⟨'.', _, rfl, .inr ⟨rfl, by simpa using hd⟩⟩
    | cons c w => exact ⟨c, _, rfl, .inl (mem_digit_star.1 hw c List.mem_cons_self)⟩

theorem takeSign_leaves {sign : Text} (hsign : sign ∈ (optional signs).matches') {c : Char}
    (hc : isDigit c = true ∨ c = '.') (rest : Text) :
    (takeSign (sign ++ c :: rest)).2 = c :: rest := by
  rw [mem_optional, mem_sign] at hsign
  rcases hsign with rfl | rfl | rfl
  · rw [List.nil_append, takeSign, if_neg]
    simp only [Bool.or_eq_true, decide_eq_true_eq, not_or]
    refine ⟨?_, ?_⟩ <;>
      · rintro rfl
        revert hc
        decide
  · rfl
  · rfl

theorem scan_leaves {w : Text} (h : w ∈ grammar.matches') (u : Text) :
    (scan (w ++ u)).2 <:+ u := by
  obtain ⟨sign, front, ds, exponent, hsign, hfront, hds, hexponent, rfl⟩ := mem_grammar.1 h
  obtain ⟨c, rest, hcons, hc⟩ := front_head (x := exponent ++ u) hfront hds
  have hbehind : (takeSign ((sign ++ (front ++ (ds ++ exponent))) ++ u)).2 =
      front ++ (ds ++ (exponent ++ u)) := by
    simp only [List.append_assoc]
    rw [hcons]
    exact takeSign_leaves hsign (hc.imp_right And.left) rest
  have hleaves := dropWhile_leaves hexponent u
  obtain ⟨d, more, rfl, hd, hmore⟩ := digits_head hds
  rw [scan_rest, hbehind]
  rcases mem_optional.1 hfront with rfl | hfront
  · -- without a point the digits are those in front of it
    rw [List.nil_append, List.dropWhile_append_of_pos (List.forall_mem_cons.2 ⟨hd, hmore⟩)]
    exact hleaves.2
  · obtain ⟨w, hw, _, rfl, rfl⟩ := mem_mul.1 hfront
    have hpoint : isDigit '.' = false := by decide
    rw [List.append_assoc, List.dropWhile_append_of_pos (mem_digit_star.1 hw),
      List.singleton_append, List.dropWhile_cons_of_neg (by simp [hpoint]), List.cons_append,
      takeFraction, if_pos hd, List.dropWhile_append_of_pos hmore]
    exact hleaves.1

theorem startsNumber_of_mem {w u : Text} (h : w ∈ grammar.matches') :
    Source.startsNumber (w ++ u) = true := by
  obtain ⟨sign, front, ds, exponent, hsign, hfront, hds, hexponent, rfl⟩ := mem_grammar.1 h
  obtain ⟨c, rest, hcons, hc⟩ := front_head (x := exponent ++ u) hfront hds
  have hbehind := takeSign_leaves hsign (hc.imp_right And.left) rest
  simp only [List.append_assoc]
  rw [Source.startsNumber_eq, hcons, hbehind]
  rcases hc with hc | ⟨rfl, hrest⟩
  · simp [hc]
  · simp [hrest]

/-- What it means that a numeral stands at the front of a text: it matches the grammar
and all else that matches is a beginning of it. It is an integer just if it has neither
a point nor an exponent, and then its value is what its digits denote; else its text is
one that a decimal number can be read from. -/
structure StandsAt (n : Numeral) (t : Text) : Prop where
  spelled : n.text ∈ grammar.matches'
  front : n.text <+: t
  longest : ∀ w ∈ grammar.matches', w <+: t → w <+: n.text
  isInteger : n.isInteger = true ↔ ∀ c ∈ n.text, c ≠ '.' ∧ c ≠ 'e' ∧ c ≠ 'E'
  integer : n.isInteger = true → integerOf? n.text = some n.integer
  real : n.isInteger = false → n.text ∈ reals.matches'

theorem scan_standsAt {t : Text} (h : Source.startsNumber t = true) : (scan t).1.StandsAt t where
  spelled := (scan_written h).mem_grammar
  front := ⟨(scan t).2, text_append t⟩
  longest := by
    rintro w hw ⟨u, rfl⟩
    -- what matches leaves `u`, and no less is read
    obtain ⟨more, hmore⟩ := scan_leaves hw u
    have htext := text_append (w ++ u)
    refine ⟨more, (List.append_left_inj (scan (w ++ u)).2).1 ?_⟩
    rw [htext, List.append_assoc, hmore]
  isInteger := (scan_written h).isInteger_iff
  integer := (scan_written h).integerOf?_text
  real := fun _ => (scan_written h).mem_reals

end Numeral

/-- The numeral that a token carries. -/
def Token.Kind.numeral? : Token.Kind → Option Numeral
  | .number n | .percentage n | .dimension n _ => some n
  | _ => none

namespace Source

theorem scan_of_startsNumber {c : Char} {rest : Text} (h : startsNumber (c :: rest) = true) :
    scan c rest = scanNumber (c :: rest) := by
  have hdigits : ∀ c ∈ "0123456789".toList, scan c rest = scanNumber (c :: rest) := by
    simp only [String.reduceToList, List.forall_mem_cons]
    exact ⟨rfl, rfl, rfl, rfl, rfl, rfl, rfl, rfl, rfl, rfl, List.forall_mem_nil _⟩
  have hfirst : (c = '+' ∨ c = '-' ∨ c = '.') ∨ isDigit c = true := by
    rw [startsNumber_cons] at h
    split at h
    · next hc =>
        rw [Bool.or_eq_true, decide_eq_true_eq, decide_eq_true_eq] at hc
        exact .inl (hc.imp_right .inl)
    · split at h
      · next hc => exact .inl (.inr (.inr hc))
      · exact .inr h
  rcases hfirst with (rfl | rfl | rfl) | hdigit
  · simp [scan, isQuote, h]
  · simp [scan, isQuote, h]
  · simp [scan, isQuote, h]
  · exact hdigits c (isDigit_iff.1 hdigit)

theorem numeral?_scanNumber (t : Text) :
    (scanNumber t).kind.numeral? = some (Numeral.scan t).1 := by
  rcases scanNumber_kind t with h | h | ⟨unit, h⟩ <;>
    · rw [h]
      rfl

/-- A numeral is scanned where a number starts, and it is the one that stands there. -/
theorem numeral?_scan (c : Char) (rest : Text) :
    (scan c rest).kind.numeral? =
      if startsNumber (c :: rest) = true then some (Numeral.scan (c :: rest)).1 else none := by
  split
  · next h => rw [scan_of_startsNumber h, numeral?_scanNumber]
  · next h =>
      have hnumber : reader (scan c rest).kind ≠ .number := fun hreader =>
        h (scan_eq_scanNumber hreader).1
      cases hkind : (scan c rest).kind with
      | number | percentage | dimension =>
          rw [hkind] at hnumber
          exact absurd rfl hnumber
      | _ => rfl

theorem startsNumber_iff_exists (t : Text) :
    startsNumber t = true ↔ ∃ w ∈ Numeral.grammar.matches', w <+: t := by
  constructor
  · intro h
    exact ⟨_, (Numeral.scan_standsAt h).spelled, (Numeral.scan_standsAt h).front⟩
  · rintro ⟨w, hw, u, rfl⟩
    exact Numeral.startsNumber_of_mem hw

/-- From whatever place of a source a token is read, it carries a numeral if and only if
something stands there that matches the grammar of numbers; and the numeral is then the
longest match, an integer exactly if it is written as one, with the value its digits
denote. -/
theorem number_read_longest (source : Text) {i : Nat} (hi : i < (normalize source).length) :
    ∃ (t : Token) (error? : Option SyntaxError) (next : Cursor Char),
      readToken ⟨normalize source, i⟩ = ⟨.ok t, error?, next⟩ ∧
      (t.kind.numeral?.isSome = true ↔
        ∃ w ∈ Numeral.grammar.matches', w <+: (normalize source).drop i) ∧
      ∀ n, t.kind.numeral? = some n → n.StandsAt ((normalize source).drop i) := by
  obtain ⟨c, rest, htext, hstep⟩ := readToken_index hi
  have hahead : (normalize source).drop i = c :: rest := by
    conv_lhs => rw [htext]
    rw [List.drop_left' (List.length_take_of_le hi.le)]
  refine ⟨((scan c rest).lexeme (c :: rest)).token _, _, _, hstep, ?_, fun n hn => ?_⟩
  · show (scan c rest).kind.numeral?.isSome = true ↔ _
    rw [numeral?_scan, hahead, ← startsNumber_iff_exists]
    split
    · next h => exact iff_of_true rfl h
    · next h => exact iff_of_false Bool.false_ne_true h
  · have hkind : (scan c rest).kind.numeral? = some n := hn
    rw [numeral?_scan] at hkind
    split at hkind
    · next hstarts =>
        cases hkind
        rw [hahead]
        exact Numeral.scan_standsAt hstarts
    · cases hkind

/-- A sign, no digit in front of the point, an exponent with a sign of its own, and a unit
that could have been the mark of another exponent. -/
theorem number_read_longest_dimension :
    let source := "a +.5e-3e+".toList
    ∃ (t : Token) (error? : Option SyntaxError) (next : Cursor Char) (n : Numeral),
      readToken ⟨source, 2⟩ = ⟨.ok t, error?, next⟩ ∧ t.kind = .dimension n ['e'] ∧
        n.text = "+.5e-3".toList ∧ n.StandsAt "+.5e-3e+".toList := by
  intro source
  obtain ⟨t, error?, next, hstep, -, hnumeral⟩ := number_read_longest source (i := 2) (by decide)
  have hread : (readToken ⟨source, 2⟩).value.toOption.map Token.kind =
      some (.dimension ⟨['+'], [], ['5'], ['e', '-', '3']⟩ ['e']) := by
    decide +kernel
  have hkind : t.kind = .dimension ⟨['+'], [], ['5'], ['e', '-', '3']⟩ ['e'] := by
    have hvalue : (readToken ⟨source, 2⟩).value = .ok t := congrArg Step.value hstep
    rw [hvalue] at hread
    exact Option.some.inj hread
  exact ⟨t, error?, next, _, hstep, hkind, rfl, hnumeral _ (by rw [hkind]; rfl)⟩

end Source

end StyleAudit
