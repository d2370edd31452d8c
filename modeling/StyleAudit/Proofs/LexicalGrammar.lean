import Mathlib.Data.List.Chain
import StyleAudit.Proofs.FunctionNames
import StyleAudit.Proofs.NumberGrammar

/-!
# Tokens are written as the grammar says

Which reader a token is given to is decided by looking at its first code points; what
the token takes is decided later, by the loops of the reader. The grammar here knows
of neither. A name is a list of pieces, each of them a code point as such or an
escape, and it is an identifier by its first two pieces. How a token may be written
follows from its kind.

The two meet in `exists_pieces`: whatever the text, what is read off it as a name is
written in pieces, and the looking ahead sees of them just what makes an identifier
of the name. That is all that is needed of the decisions, since each branch of `scan`
keeps what was seen before it was chosen.

An escape ends where it cannot go on, so whether a piece is written properly depends
on the text behind it, and so do the pieces of a name on what follows the name.
-/

namespace StyleAudit.Source

open Position (start)

/-! ## Names -/

/-- A part of a name as it is written: a code point as such, a backslash with
hexadecimal digits and with the blank behind them, if that belongs to it, or a
backslash with another code point. -/
inductive Piece where
  | plain (c : Char)
  | hex (digits : Text) (blank : Option Char)
  | literal (c : Char)
deriving DecidableEq, Repr

/-- The text of a piece. -/
def Piece.text : Piece → Text
  | plain c => [c]
  | hex digits blank => '\\' :: (digits ++ blank.toList)
  | literal c => ['\\', c]

/-- Whether a piece is an escape. -/
def Piece.isEscape : Piece → Bool
  | plain _ => false
  | hex _ _ => true
  | literal _ => true

/-- What may be written as a piece in front of a text. An escape has one digit at least
and six at most; it takes as many as it can, and then a blank if there is one. -/
inductive Piece.Fits (after : Text) : Piece → Prop where
  | plain {c : Char} (h : isIdent c = true) : Fits after (.plain c)
  | hex {digits : Text} {blank : Option Char} (hne : digits ≠ []) (hlength : digits.length ≤ 6)
      (hdigits : ∀ d ∈ digits, isHex d = true)
      (hstop : digits.length < 6 → (blank.toList ++ after).head?.any isHex = false)
      (hblank : ∀ b ∈ blank, isBlank b = true)
      (hnone : blank = none → after.head?.any isBlank = false) : Fits after (.hex digits blank)
  | literal {c : Char} (hline : c ≠ '\n') (hhex : isHex c = false) : Fits after (.literal c)

/-- What a piece stands for. The digits of an escape are those of a number; if this is
zero or no Unicode scalar value, the escape stands for the replacement character. -/
inductive Piece.Means : Piece → Char → Prop where
  | plain (c : Char) : Means (.plain c) c
  | scalar {digits : Text} {blank : Option Char} {c : Char}
      (h : c.toNat = Nat.ofDigits 16 (digits.reverse.map hexDigit)) (hc : c ≠ '\x00') :
      Means (.hex digits blank) c
  | replaced {digits : Text} {blank : Option Char}
      (h : Nat.ofDigits 16 (digits.reverse.map hexDigit) = 0 ∨
        ¬ (Nat.ofDigits 16 (digits.reverse.map hexDigit)).isValidChar) :
      Means (.hex digits blank) replacement
  | literal (c : Char) : Means (.literal c) c

/-- The text of pieces one after the other. -/
def written (pieces : List Piece) : Text := pieces.flatMap Piece.text

/-- Pieces of which each fits in front of the text of the others and of what follows. -/
def Fit : List Piece → Text → Prop
  | [], _ => True
  | p :: pieces, after => p.Fits (written pieces ++ after) ∧ Fit pieces after

/-- Whether a name is an identifier: it starts with a code point that can start one, with
an escape, with two hyphens, or with a hyphen and one of the first two. -/
def identifies : List Piece → Bool
  | [] => false
  | .plain c :: pieces =>
    isIdentStart c ||
      c = '-' && pieces.head?.any fun
        | .plain d => isIdentStart d || d = '-'
        | _ => true
  | _ :: _ => true

/-- What it means that pieces are a name in front of a text, and that this name is read
as `name`: there are pieces, they fit and stand for its code points, and no further
piece follows them. None of its code points is zero, all are scalar values. -/
structure NamedBy (name : Text) (pieces : List Piece) (after : Text) : Prop where
  nonempty : pieces ≠ []
  fit : Fit pieces after
  means : List.Forall₂ Piece.Means pieces name
  noIdent : after.head?.any isIdent = false
  noEscape : startsEscape after = false
  scalar : ∀ c ∈ name, c ≠ '\x00' ∧ c.toNat.isValidChar

/-- How a token of a kind is written in front of a text. Comments, strings, URLs and
tokens that are always written alike are not described. -/
def Conforms (slice after : Text) : Token.Kind → Prop
  | .ident name => ∃ pieces, NamedBy name pieces after ∧ identifies pieces = true ∧
      slice = written pieces ∧ after.head? ≠ some '('
  | .function name => ∃ pieces blanks, NamedBy name pieces ('(' :: (blanks ++ after)) ∧
      identifies pieces = true ∧ slice = written pieces ++ '(' :: blanks ∧
      (∀ c ∈ blanks, isBlank c = true) ∧ (Text.lower name ≠ ['u', 'r', 'l'] → blanks = [])
  | .atKeyword name => ∃ pieces, NamedBy name pieces after ∧ identifies pieces = true ∧
      slice = '@' :: written pieces
  | .hash name isId => ∃ pieces, NamedBy name pieces after ∧
      (isId = true ↔ identifies pieces = true) ∧ slice = '#' :: written pieces
  | .dimension n unit => ∃ pieces, NamedBy unit pieces after ∧ identifies pieces = true ∧
      slice = n.text ++ written pieces ∧ n.StandsAt (slice ++ after)
  | .percentage n => slice = n.text ++ ['%'] ∧ n.StandsAt (slice ++ after)
  | .number n => slice = n.text ∧ n.StandsAt (slice ++ after)
  | .whitespace blanks => slice = blanks ∧ blanks ≠ [] ∧ (∀ c ∈ blanks, isBlank c = true) ∧
      after.head?.any isBlank = false
  | _ => True

/-! ## What is read as a name is written in pieces -/

theorem written_cons (p : Piece) (pieces : List Piece) :
    written (p :: pieces) = p.text ++ written pieces := rfl

theorem takeWhile_take_stop (p : Char → Bool) {n : Nat} {t : Text}
    (h : ((t.take n).takeWhile p).length < n) :
    (t.drop ((t.take n).takeWhile p).length).head?.any p = false := by
  induction n generalizing t with
  | zero => exact absurd h (Nat.not_lt_zero _)
  | succ n ih =>
      cases t with
      | nil => rfl
      | cons c t =>
          rw [List.take_succ_cons] at h ⊢
          by_cases hc : p c = true
          · rw [List.takeWhile_cons_of_pos hc, List.length_cons] at h ⊢
            rw [List.drop_succ_cons]
            exact ih (by omega)
          · rw [List.takeWhile_cons_of_neg hc]
            simpa using hc

theorem takeWhile_take_append (p : Char → Bool) (n : Nat) (t : Text) :
    (t.take n).takeWhile p ++ t.drop ((t.take n).takeWhile p).length = t :=
  List.prefix_iff_eq_append.1 ((List.takeWhile_prefix p).trans (List.take_prefix n t))

theorem dropBlank_split (t : Text) :
    ∃ blank : Option Char, blank.toList ++ dropBlank t = t ∧ (∀ b ∈ blank, isBlank b = true) ∧
      (blank = none → (dropBlank t).head?.any isBlank = false) := by
  cases t with
  | nil => exact ⟨none, rfl, by simp, fun _ => rfl⟩
  | cons c t =>
      rw [dropBlank]
      split
      · next hc => exact ⟨some c, rfl, by simpa using hc, by simp⟩
      · next hc => exact ⟨none, rfl, by simp, fun _ => by simpa using hc⟩

theorem toNat_ofNat {n : Nat} (h : n.isValidChar) : (Char.ofNat n).toNat = n := by
  rw [Char.ofNat, dif_pos h]
  rfl

/-- The number of an escape is that of its digits, and is read as the grammar says. -/
theorem means_hex (digits : Text) (blank : Option Char) :
    (Piece.hex digits blank).Means (codePoint (hexValue digits)) := by
  have hvalue : hexValue digits = Nat.ofDigits 16 (digits.reverse.map hexDigit) :=
    Numeral.foldl_eq_ofDigits 16 hexDigit digits
  rw [hvalue]
  generalize hn : Nat.ofDigits 16 (digits.reverse.map hexDigit) = n
  unfold codePoint
  split
  · next hbad =>
      simp only [Bool.or_eq_true, Bool.and_eq_true, decide_eq_true_eq] at hbad
      refine .replaced ?_
      rw [hn, Nat.isValidChar]
      omega
  · next hgood =>
      simp only [Bool.or_eq_true, Bool.and_eq_true, decide_eq_true_eq] at hgood
      have hvalid : n.isValidChar := by
        rw [Nat.isValidChar]
        omega
      have hnat : (Char.ofNat n).toNat = n := toNat_ofNat hvalid
      refine .scalar (hnat.trans hn.symm) fun hzero => ?_
      rw [hzero] at hnat
      have hzeroNat : '\x00'.toNat = 0 := rfl
      omega

/-- A backslash and what `escape` reads behind it, if this starts with a digit. -/
theorem exists_hex {c : Char} (hc : isHex c = true) (t : Text) :
    ∃ p : Piece, p.text ++ (escape (c :: t)).2 = '\\' :: c :: t ∧ p.Fits (escape (c :: t)).2 ∧
      p.Means (escape (c :: t)).1 := by
  have happend := takeWhile_take_append isHex 5 t
  have hstop := takeWhile_take_stop isHex (n := 5) (t := t)
  have hlength : ((t.take 5).takeWhile isHex).length ≤ 5 :=
    ((List.takeWhile_prefix _).length_le).trans (List.length_take_le _ _)
  have hmore : ∀ d ∈ (t.take 5).takeWhile isHex, isHex d = true :=
    fun _ hd => List.mem_takeWhile_imp hd
  rw [escape, if_pos hc]
  dsimp only
  generalize (t.take 5).takeWhile isHex = more at happend hstop hlength hmore ⊢
  obtain ⟨blank, hblank, hblanks, hnone⟩ := dropBlank_split (t.drop more.length)
  refine ⟨.hex (c :: more) blank, ?_, ?_, means_hex _ _⟩
  · rw [Piece.text, List.cons_append, List.cons_append, List.cons_append, List.append_assoc,
      hblank, happend]
  · refine .hex (by simp) ?_ (List.forall_mem_cons.2 ⟨hc, hmore⟩) (fun hlt => ?_) hblanks hnone
    · rw [List.length_cons]
      omega
    · rw [hblank]
      rw [List.length_cons] at hlt
      exact hstop (by omega)

theorem exists_escape {t : Text} (h : startsEscape ('\\' :: t) = true) :
    ∃ p : Piece, p.text ++ (escape t).2 = '\\' :: t ∧ p.Fits (escape t).2 ∧
      p.Means (escape t).1 := by
  cases t with
  | nil => cases h
  | cons c t =>
      have hline : c ≠ '\n' := by simpa [startsEscape] using h
      by_cases hc : isHex c = true
      · exact exists_hex hc t
      · rw [escape, if_neg hc]
        exact ⟨.literal c, rfl, .literal hline (by simpa using hc), .literal c⟩

theorem eq_backslash_of_startsEscape {c : Char} {t : Text}
    (h : startsEscape (c :: t) = true) : c = '\\' := by
  unfold startsEscape at h
  split at h
  · next heq => exact (List.cons.inj heq).1
  · cases h

theorem exists_piece {t rest : Text} {c : Char} (h : nameChar? t = some (c, rest)) :
    ∃ p : Piece, p.text ++ rest = t ∧ p.Fits rest ∧ p.Means c := by
  cases t with
  | nil => cases h
  | cons d t =>
      rw [nameChar?] at h
      split at h
      · next hd =>
          cases h
          exact ⟨.plain c, rfl, .plain hd, .plain c⟩
      · split at h
        · next hescape =>
            obtain rfl := eq_backslash_of_startsEscape hescape
            have hread := exists_escape hescape
            rw [Option.some.inj h] at hread
            exact hread
        · cases h

theorem nameChar?_eq_none {t : Text} :
    nameChar? t = none ↔ t.head?.any isIdent = false ∧ startsEscape t = false := by
  cases t with
  | nil => exact iff_of_true rfl ⟨rfl, rfl⟩
  | cons c t =>
      rw [nameChar?]
      by_cases hc : isIdent c = true
      · simp [hc]
      · by_cases hescape : startsEscape (c :: t) = true
        · simp [hc, hescape]
        · simp [hc, hescape]

/-- Whatever the text, what is read off it as a name is written in pieces, and no
further piece follows. -/
theorem exists_pieces (t : Text) :
    ∃ pieces, written pieces ++ (name t).2 = t ∧ Fit pieces (name t).2 ∧
      List.Forall₂ Piece.Means pieces (name t).1 ∧ nameChar? (name t).2 = none := by
  induction t using name.induct with
  | case1 t h =>
      rw [name_eq_of_none h]
      exact ⟨[], rfl, trivial, .nil, h⟩
  | case2 t c rest h _ ih =>
      obtain ⟨p, htext, hfits, hmeans⟩ := exists_piece h
      obtain ⟨pieces, hwritten, hfit, hall, hend⟩ := ih
      rw [name_eq_of_some h]
      refine ⟨p :: pieces, ?_, ⟨?_, hfit⟩, .cons hmeans hall, hend⟩
      · rw [written_cons, List.append_assoc, hwritten, htext]
      · rw [hwritten]
        exact hfits

/-! ## What is seen of the pieces by looking ahead -/

theorem Piece.Fits.startsEscape {p : Piece} {after : Text} (h : p.Fits after) :
    Source.startsEscape (p.text ++ after) = p.isEscape := by
  cases h with
  | @plain c hc =>
      refine Bool.eq_false_iff.2 fun hescape => ?_
      obtain rfl := eq_backslash_of_startsEscape hescape
      cases hc
  | @hex digits blank hne _ hdigits _ _ _ =>
      obtain ⟨d, more, rfl⟩ := List.exists_cons_of_ne_nil hne
      have hline : d ≠ '\n' := by
        rintro rfl
        exact absurd (hdigits _ List.mem_cons_self) (by decide)
      simpa [Piece.text, Piece.isEscape, Source.startsEscape] using hline
  | literal hline _ => simpa [Piece.text, Piece.isEscape, Source.startsEscape] using hline

/-- Behind a hyphen an identifier goes on with a second hyphen, or with what could have
started one itself. -/
theorem second_written {pieces : List Piece} {after : Text} (h : Fit pieces after)
    (hend : nameChar? after = none) :
    ((written pieces ++ after).head?.any (fun d => isIdentStart d || d = '-') ||
        startsEscape (written pieces ++ after)) =
      pieces.head?.any fun
        | .plain d => isIdentStart d || d = '-'
        | _ => true := by
  cases pieces with
  | nil =>
      obtain ⟨hident, hescape⟩ := nameChar?_eq_none.1 hend
      rw [written, List.flatMap_nil, List.nil_append, hescape, Bool.or_false]
      cases after with
      | nil => rfl
      | cons d after =>
          simp only [List.head?_cons, Option.any_some, isIdent, Bool.or_eq_false_iff] at hident
          show (isIdentStart d || decide (d = '-')) = false
          rw [hident.1.1, hident.2, Bool.or_false]
  | cons p pieces =>
      have hseen := h.1.startsEscape
      rw [← List.append_assoc, ← written_cons] at hseen
      rw [hseen]
      cases p with
      | plain d => exact Bool.or_false _
      | hex digits blank => exact Bool.or_true _
      | literal d => exact Bool.or_true _

/-- A name is an identifier if and only if looking ahead takes it for one. -/
theorem startsIdent_written {pieces : List Piece} {after : Text} (h : Fit pieces after)
    (hend : nameChar? after = none) :
    startsIdent (written pieces ++ after) = identifies pieces := by
  cases pieces with
  | nil =>
      refine Bool.eq_false_iff.2 fun hstarts => ?_
      have hsome := nameChar?_of_startsIdent hstarts
      rw [written, List.flatMap_nil, List.nil_append, hend] at hsome
      cases hsome
  | cons p pieces =>
      have hseen := h.1.startsEscape
      rw [← List.append_assoc, ← written_cons] at hseen
      cases p with
      | plain c =>
          have htext : written (.plain c :: pieces) ++ after = c :: (written pieces ++ after) :=
            rfl
          rw [htext] at hseen ⊢
          rw [startsIdent_cons, hseen, second_written h.2 hend, identifies]
          by_cases hc : c = '-'
          · subst hc
            rfl
          · rw [if_neg hc, decide_eq_false hc]
            simp [Piece.isEscape]
      | hex digits blank =>
          have htext : written (.hex digits blank :: pieces) ++ after =
              '\\' :: (digits ++ blank.toList ++ written pieces ++ after) := by
            simp [written_cons, Piece.text]
          rw [htext] at hseen ⊢
          rw [startsIdent_cons, if_neg (by decide), hseen]
          rfl
      | literal c =>
          have htext : written (.literal c :: pieces) ++ after =
              '\\' :: c :: (written pieces ++ after) := rfl
          rw [htext] at hseen ⊢
          rw [startsIdent_cons, if_neg (by decide), hseen]
          rfl

theorem not_mem_of_means {pieces : List Piece} {name : Text}
    (h : List.Forall₂ Piece.Means pieces name) (hzero : '\x00' ∉ written pieces) :
    '\x00' ∉ name := by
  induction h with
  | nil => exact List.not_mem_nil
  | @cons p c pieces name hp _ ih =>
      rw [written_cons, List.mem_append, not_or] at hzero
      rw [List.mem_cons, not_or]
      refine ⟨?_, ih hzero.2⟩
      cases hp with
      | plain => exact fun hc => hzero.1 (List.mem_singleton.2 hc)
      | scalar _ hc => exact fun heq => hc heq.symm
      | replaced => decide
      | literal => exact fun hc => hzero.1 (List.mem_cons_of_mem _ (List.mem_singleton.2 hc))

/-- A name that starts at the front of a text is written in pieces, and it is an
identifier just if one starts there. -/
theorem exists_namedBy {t : Text} (hzero : '\x00' ∉ t) (h : (nameChar? t).isSome = true) :
    ∃ pieces, written pieces ++ (name t).2 = t ∧ NamedBy (name t).1 pieces (name t).2 ∧
      startsIdent t = identifies pieces := by
  obtain ⟨pieces, htext, hfit, hmeans, hend⟩ := exists_pieces t
  obtain ⟨hident, hescape⟩ := nameChar?_eq_none.1 hend
  have hstarts := startsIdent_written hfit hend
  rw [htext] at hstarts
  refine ⟨pieces, htext, ⟨?_, hfit, hmeans, hident, hescape, fun c hc => ⟨?_, c.valid⟩⟩, hstarts⟩
  · rintro rfl
    rw [written, List.flatMap_nil, List.nil_append] at htext
    rw [htext] at hend
    rw [hend] at h
    cases h
  · rintro rfl
    refine not_mem_of_means hmeans (fun hmem => hzero ?_) hc
    rw [← htext]
    exact List.mem_append_left _ hmem

/-! ## Each reader keeps to the grammar -/

theorem scanName_ident {t text : Text} (h : (scanName t).kind = .ident text) :
    name t = (text, (scanName t).rest) ∧ (scanName t).rest.head? ≠ some '(' := by
  rw [scanName_eq] at h ⊢
  by_cases hhead : (name t).2.head? = some '('
  · rw [if_pos hhead, scanCall] at h
    obtain ⟨more, hurl | hurl⟩ := scanUrl_kind (dropBlanksButLast ((name t).2.drop 1))
    all_goals
      split at h
      · split at h
        · cases h
        · rw [hurl] at h
          cases h
      · cases h
  · rw [if_neg hhead] at h ⊢
    cases h
    exact ⟨rfl, hhead⟩

section readers

variable {t slice : Text} (hzero : '\x00' ∉ t)
include hzero

theorem scanName_conforms (hstarts : startsIdent t = true)
    (hslice : slice ++ (scanName t).rest = t) :
    Conforms slice (scanName t).rest (scanName t).kind := by
  obtain ⟨pieces, htext, hnamed, hidentifies⟩ :=
    exists_namedBy hzero (nameChar?_of_startsIdent hstarts)
  rw [hstarts] at hidentifies
  obtain ⟨text, hkind | hkind | hkind | hkind⟩ := scanName_kind t
  · obtain ⟨hname, hhead⟩ := scanName_ident hkind
    rw [hname] at htext hnamed
    rw [hkind]
    exact ⟨pieces, hnamed, hidentifies.symm,
      List.append_cancel_right (hslice.trans htext.symm), hhead⟩
  · obtain ⟨gap, after, hname, rfl, hblank, hgap⟩ := scanName_function hkind
    rw [hname] at htext hnamed
    rw [hkind]
    refine ⟨pieces, gap, hnamed, hidentifies.symm, ?_, hblank, fun hurl => ?_⟩
    · refine List.append_cancel_right (hslice.trans (htext.symm.trans ?_))
      rw [List.append_assoc, List.cons_append]
    · exact hgap.2 fun hspaced => hurl hspaced.1
  · rw [hkind]
    trivial
  · rw [hkind]
    trivial

theorem scanNumber_conforms (hstarts : startsNumber t = true)
    (hslice : slice ++ (scanNumber t).rest = t) :
    Conforms slice (scanNumber t).rest (scanNumber t).kind := by
  have hstands := Numeral.scan_standsAt hstarts
  have htext := Numeral.text_append t
  rw [scanNumber_eq] at hslice ⊢
  by_cases hunit : startsIdent (Numeral.scan t).2 = true
  · rw [if_pos hunit] at hslice ⊢
    have hrest : '\x00' ∉ (Numeral.scan t).2 := fun hmem => hzero (by
      rw [← htext]
      exact List.mem_append_right _ hmem)
    obtain ⟨pieces, hwritten, hnamed, hidentifies⟩ :=
      exists_namedBy hrest (nameChar?_of_startsIdent hunit)
    refine ⟨pieces, hnamed, hidentifies.symm.trans hunit, ?_, hslice.symm ▸ hstands⟩
    refine (List.append_left_inj (name (Numeral.scan t).2).2).1 (hslice.trans ?_)
    rw [List.append_assoc, hwritten, htext]
  · rw [if_neg hunit] at hslice ⊢
    by_cases hpercent : (Numeral.scan t).2.head? = some '%'
    · rw [if_pos hpercent] at hslice ⊢
      obtain ⟨after, hafter⟩ := List.head?_eq_some_iff.1 hpercent
      refine ⟨?_, hslice.symm ▸ hstands⟩
      refine (List.append_left_inj ((Numeral.scan t).2.drop 1)).1 (hslice.trans ?_)
      rw [hafter] at htext ⊢
      rw [List.append_assoc]
      exact htext.symm
    · rw [if_neg hpercent] at hslice ⊢
      exact ⟨List.append_cancel_right (hslice.trans htext.symm), hslice.symm ▸ hstands⟩

theorem scanHash_conforms (hslice : slice ++ (scanHash t).rest = '#' :: t) :
    Conforms slice (scanHash t).rest (scanHash t).kind := by
  unfold scanHash at hslice ⊢
  by_cases hsome : (nameChar? t).isSome = true
  · rw [if_pos hsome] at hslice ⊢
    obtain ⟨pieces, htext, hnamed, hidentifies⟩ := exists_namedBy hzero hsome
    refine ⟨pieces, hnamed, by rw [hidentifies], ?_⟩
    refine (List.append_left_inj (name t).2).1 (hslice.trans ?_)
    rw [List.cons_append, htext]
  · rw [if_neg hsome]
    trivial

end readers

theorem head?_dropWhile_any (p : Char → Bool) (t : Text) :
    (t.dropWhile p).head?.any p = false := by
  have h := List.head?_dropWhile_not p t
  cases hhead : (t.dropWhile p).head? with
  | none => rfl
  | some c => simpa [hhead] using h

theorem scan_conforms {c : Char} {rest slice : Text} (hzero : '\x00' ∉ c :: rest)
    (hslice : slice ++ (scan c rest).rest = c :: rest) :
    Conforms slice (scan c rest).rest (scan c rest).kind := by
  have h := branch_scan c rest
  generalize scan c rest = s at h hslice ⊢
  have hrest : '\x00' ∉ rest := fun hmem => hzero (List.mem_cons_of_mem c hmem)
  cases h with
  | comment =>
      obtain ⟨text, htext⟩ := scanComment_kind (rest.drop 1)
      rw [htext]
      trivial
  | string =>
      obtain ⟨text, htext | htext⟩ := scanString_kind c rest <;>
        · rw [htext]
          trivial
  | hash hc =>
      subst hc
      exact scanHash_conforms hrest hslice
  | number hstarts => exact scanNumber_conforms hzero hstarts hslice
  | name hstarts => exact scanName_conforms hzero hstarts hslice
  | keyword hc hstarts =>
      subst hc
      obtain ⟨pieces, htext, hnamed, hidentifies⟩ :=
        exists_namedBy hrest (nameChar?_of_startsIdent hstarts)
      refine ⟨pieces, hnamed, hidentifies.symm.trans hstarts, ?_⟩
      refine (List.append_left_inj (name rest).2).1 (hslice.trans ?_)
      rw [List.cons_append, htext]
  | blank hc =>
      refine ⟨?_, List.cons_ne_nil _ _, ?_, ?_⟩
      · refine (List.append_left_inj (rest.dropWhile isBlank)).1 (hslice.trans ?_)
        rw [List.cons_append, List.takeWhile_append_dropWhile]
      · exact List.forall_mem_cons.2 ⟨hc, fun _ hd => List.mem_takeWhile_imp hd⟩
      · exact head?_dropWhile_any isBlank rest
  | punctuation =>
      obtain ⟨b, hkind | hkind⟩ | hkind | hkind | hkind | hkind := punctuation_kind c <;>
        · rw [Scan.sound, hkind]
          trivial
  | closingMark => trivial
  | openingMark => trivial
  | stray => trivial
  | delim => trivial

/-! ## The tokens of a source -/

theorem zero_not_mem_normalize (source : Text) : '\x00' ∉ normalize source := by
  fun_induction normalize source with
  | case1 => exact List.not_mem_nil
  | case2 rest ih => simpa using ih
  | case3 c rest _ ih =>
      rw [List.mem_cons, not_or]
      refine ⟨?_, ih⟩
      split
      · decide
      · split
        · decide
        · next hzero => exact fun heq => hzero heq.symm

/-- White space starts with a blank, and is taken as far as it goes. -/
theorem blank_of_isWhitespace {c : Char} {rest : Text} (hzero : '\x00' ∉ c :: rest)
    (h : (scan c rest).kind.isWhitespace = true) :
    isBlank c = true ∧ (scan c rest).rest.head?.any isBlank = false := by
  have happend := consumed_append ((scan_suffix c rest).trans (List.suffix_cons c rest))
  have hconforms := scan_conforms hzero happend
  cases hkind : (scan c rest).kind with
  | whitespace blanks =>
      rw [hkind] at hconforms
      obtain ⟨hslice, hne, hall, hstop⟩ := hconforms
      obtain ⟨d, more, rfl⟩ := List.exists_cons_of_ne_nil hne
      rw [hslice, List.cons_append, List.cons.injEq] at happend
      refine ⟨?_, hstop⟩
      rw [← happend.1]
      exact hall d List.mem_cons_self
  | _ =>
      rw [hkind] at h
      cases h

theorem isChain_place {after : Text} (hzero : '\x00' ∉ after) (p : Position) :
    (place p (lexemes after)).tokens.IsChain fun t u =>
      t.kind.isWhitespace = true → u.kind.isWhitespace = false := by
  induction after using lexemes.induct generalizing p with
  | case1 =>
      rw [lexemes_nil]
      exact List.isChain_singleton _
  | case2 c rest _ ih =>
      have hrest : '\x00' ∉ (scan c rest).rest := fun hmem =>
        hzero (List.mem_cons_of_mem c ((scan_suffix c rest).subset hmem))
      rw [lexemes_cons, place, List.isChain_cons]
      refine ⟨fun u hu hwhite => ?_, ih hrest _⟩
      have hstop := (blank_of_isWhitespace hzero hwhite).2
      cases hleft : (scan c rest).rest with
      | nil =>
          rw [hleft, lexemes_nil] at hu
          cases hu
          rfl
      | cons d more =>
          rw [hleft] at hrest hstop
          rw [hleft, lexemes_cons] at hu
          cases hu
          refine Bool.eq_false_iff.2 fun hnext => ?_
          have hblank := (blank_of_isWhitespace hrest hnext).1
          rw [List.head?_cons, Option.any_some, hblank] at hstop
          cases hstop

/-- Every token of a source spans a piece of it that is written as the grammar says of
its kind, in front of what follows there. Between two tokens of white space there is
always another one, so that white space is not only taken as far as it goes, but also
from where the token before it ends, and that is no white space. A source is a list of
scalar values: one with a surrogate outside of a pair is not considered. -/
theorem tokens_conform (source : Text) :
    (∀ t ∈ (tokenize source).tokens, ∃ before slice after,
      normalize source = before ++ (slice ++ after) ∧
        t.span = ⟨start.advance before, start.advance (before ++ slice)⟩ ∧
        t.span.slice (normalize source) = slice ∧ Conforms slice after t.kind) ∧
      (tokenize source).tokens.IsChain fun t u =>
        t.kind.isWhitespace = true → u.kind.isWhitespace = false := by
  have hzero := zero_not_mem_normalize source
  refine ⟨fun t ht => ?_, isChain_place hzero start⟩
  by_cases hkind : t.kind = .eof
  · obtain ⟨body, htokens, hbody, -⟩ := (tiling_tokenize source).split_last
    rw [htokens, List.mem_append, List.mem_singleton] at ht
    obtain rfl := ht.resolve_left fun hmem => (hbody t hmem).1 hkind
    refine ⟨normalize source, [], [], by simp, by simp, ?_, trivial⟩
    simpa using Span.slice_piece (normalize source) [] []
  · obtain ⟨before, c, rest, hsource, rfl⟩ := exists_scan_of_mem_place [] ht hkind
    have happend := consumed_append ((scan_suffix c rest).trans (List.suffix_cons c rest))
    rw [List.nil_append] at hsource
    rw [hsource] at hzero
    refine ⟨before, _, _, hsource.trans (congrArg (before ++ ·) happend.symm), ?_, ?_,
      scan_conforms (fun hmem => hzero (List.mem_append_right _ hmem)) happend⟩
    · rw [Position.advance_append]
      rfl
    · rw [hsource]
      conv_lhs => arg 2; rw [← happend]
      exact Span.slice_piece before _ _

/-- The letter behind six digits is no digit of the escape, which makes an identifier of
a name that could not be one with the digit itself. -/
theorem tokens_conform_hash :
    let source := "a #\\000031b".toList
    let hash : Token := ⟨.hash ['1', 'b'] true, ⟨⟨1, 3⟩, ⟨1, 12⟩⟩⟩
    hash ∈ (tokenize source).tokens ∧
      ∃ pieces after, NamedBy ['1', 'b'] pieces after ∧ identifies pieces = true ∧
        hash.span.slice source = '#' :: written pieces := by
  intro source hash
  have hmem : hash ∈ (tokenize source).tokens := by decide +kernel
  obtain ⟨before, slice, after, -, -, hspan, pieces, hnamed, hid, hslice⟩ :=
    (tokens_conform source).1 hash hmem
  exact ⟨hmem, pieces, after, hnamed, hid.1 rfl, hspan.trans hslice⟩

end StyleAudit.Source
