import StyleAudit.Proofs.Concatenation

/-!
# Texts spelled with escapes

Any text can be written with escapes alone: for each code point a backslash, its
number in hexadecimal digits, and one blank that ends the digits. Written so it is
nothing but backslashes, digits and blanks, and a blank never stands where a
reader could see it, since the escape in front takes it away. So a code point may
be one that would end a name, a string or a URL, or that may not stand there at
all: what the readers of the three decide by are the backslashes.

The digits may be in letters of either case, and zeros may stand in front as long
as there are six digits at most; `Denotes` says which digits are meant. Zero itself
has no escape, as its number stands for the replacement character.
-/

namespace StyleAudit.Source

open Text (fold)

/-! ## The number of a code point -/

/-- The digits that may be written for a code point: those of its number, in
letters of either case, with zeros in front, and six at most. -/
def Denotes (digits : Text) (c : Char) : Prop :=
  digits.length ≤ 6 ∧
    ∃ zeros, fold digits = List.replicate zeros '0' ++ Nat.toDigits 16 c.toNat

theorem isHex_digitChar : ∀ d < 16, isHex d.digitChar = true := by decide

theorem hexDigit_digitChar : ∀ d < 16, hexDigit d.digitChar = d := by decide

theorem hexValue_append_singleton (digits : Text) (c : Char) :
    hexValue (digits ++ [c]) = 16 * hexValue digits + hexDigit c := by
  rw [hexValue, List.foldl_append]
  rfl

theorem isHex_of_mem_toDigits (n : Nat) : ∀ c ∈ Nat.toDigits 16 n, isHex c = true := by
  induction n using Nat.strongRecOn with
  | ind n ih =>
      rw [Nat.toDigits_eq_if (by decide)]
      split
      · next hn => simpa using isHex_digitChar n hn
      · next hn =>
          rw [List.forall_mem_append]
          exact ⟨ih (n / 16) (by omega), by simpa using isHex_digitChar _ (Nat.mod_lt n (by decide))⟩

theorem hexValue_toDigits (n : Nat) : hexValue (Nat.toDigits 16 n) = n := by
  induction n using Nat.strongRecOn with
  | ind n ih =>
      rw [Nat.toDigits_eq_if (by decide)]
      split
      · next hn => simpa [hexValue] using hexDigit_digitChar n hn
      · next hn =>
          rw [hexValue_append_singleton, ih (n / 16) (by omega),
            hexDigit_digitChar _ (Nat.mod_lt n (by decide))]
          omega

theorem hexValue_zeros (zeros : Nat) (digits : Text) :
    hexValue (List.replicate zeros '0' ++ digits) = hexValue digits := by
  induction zeros with
  | zero => rfl
  | succ zeros ih =>
      rw [List.replicate_succ, List.cons_append, ← ih]
      rfl

theorem Denotes.isHex {digits : Text} {c : Char} (h : Denotes digits c) :
    ∀ d ∈ digits, isHex d = true := by
  obtain ⟨_, zeros, hfold⟩ := h
  intro d hd
  rw [← isHex_toLower]
  have hmem : d.toLower ∈ fold digits := List.mem_map_of_mem hd
  rw [hfold, List.mem_append] at hmem
  rcases hmem with hmem | hmem
  · rw [List.eq_of_mem_replicate hmem]
    rfl
  · exact isHex_of_mem_toDigits _ _ hmem

theorem Denotes.hexValue {digits : Text} {c : Char} (h : Denotes digits c) :
    hexValue digits = c.toNat := by
  obtain ⟨zeros, hfold⟩ := h.2
  rw [← hexValue_fold h.isHex, hfold, hexValue_zeros, hexValue_toDigits]

theorem Denotes.ne_nil {digits : Text} {c : Char} (h : Denotes digits c) : digits ≠ [] := by
  rintro rfl
  obtain ⟨zeros, hfold⟩ := h.2
  have hlength := congrArg List.length hfold
  have hpos := Nat.length_toDigits_pos (b := 16) (n := c.toNat)
  simp only [Text.fold_nil, List.length_nil, List.length_append] at hlength
  omega

theorem codePoint_toNat {c : Char} (h : c ≠ '\x00') : codePoint c.toNat = c := by
  have hzero : c.toNat ≠ 0 := fun h0 => h (Char.toNat_inj.1 h0)
  have hvalid : c.toNat < 0xD800 ∨ 0xDFFF < c.toNat ∧ c.toNat < 0x110000 := c.valid
  rw [codePoint, if_neg, Char.ofNat_toNat]
  simp only [Bool.or_eq_true, Bool.and_eq_true, decide_eq_true_eq]
  omega

/-! ## One escape -/

/-- An escape takes its digits and the blank behind them. -/
theorem escape_denotes {digits : Text} {c blank : Char} (h : Denotes digits c)
    (hc : c ≠ '\x00') (hblank : isBlank blank = true) (rest : Text) :
    escape (digits ++ blank :: rest) = (c, rest) := by
  have hhex := h.isHex
  have hvalue := h.hexValue
  have hstop : isHex blank = false := by
    simp only [isBlank, Bool.or_eq_true, decide_eq_true_eq] at hblank
    rcases hblank with (rfl | rfl) | rfl <;> rfl
  cases digits with
  | nil => exact absurd rfl h.ne_nil
  | cons d more =>
      obtain ⟨hd, hmore⟩ := List.forall_mem_cons.1 hhex
      have hlength : more.length ≤ 5 := by
        have := h.1
        rw [List.length_cons] at this
        omega
      have htaken : ((more ++ blank :: rest).take 5).takeWhile isHex = more := by
        obtain ⟨k, hk⟩ : ∃ k, 5 = more.length + k := ⟨5 - more.length, by omega⟩
        rw [hk, List.take_length_add_append, List.takeWhile_append_of_pos hmore]
        cases k with
        | zero => rw [List.take_zero, List.takeWhile_nil, List.append_nil]
        | succ k =>
            rw [List.take_succ_cons, List.takeWhile_cons_of_neg (by simp [hstop]),
              List.append_nil]
      rw [List.cons_append, escape, if_pos hd]
      simp only [htaken, List.drop_left, dropBlank, if_pos hblank, hvalue, codePoint_toNat hc]

/-- A text that is written with one escape for each code point. -/
inductive Escaped : Text → Text → Prop
  | nil : Escaped [] []
  | cons {c blank : Char} {digits x e : Text} (hc : c ≠ '\x00') (hdigits : Denotes digits c)
      (hblank : isBlank blank = true) (h : Escaped x e) :
      Escaped (c :: x) ('\\' :: (digits ++ blank :: e))

theorem startsEscape_denotes {digits : Text} {c : Char} (h : Denotes digits c) (rest : Text) :
    startsEscape ('\\' :: (digits ++ rest)) = true := by
  cases digits with
  | nil => exact absurd rfl h.ne_nil
  | cons d more =>
      have hd := h.isHex d List.mem_cons_self
      have hline : d ≠ '\n' := by
        rintro rfl
        cases hd
      simpa [startsEscape] using hline

theorem nameChar?_denotes {digits : Text} {c blank : Char} (h : Denotes digits c)
    (hc : c ≠ '\x00') (hblank : isBlank blank = true) (rest : Text) :
    nameChar? ('\\' :: (digits ++ blank :: rest)) = some (c, rest) := by
  have hident : isIdent '\\' = false := by decide
  rw [nameChar?, hident, if_neg Bool.false_ne_true, if_pos (startsEscape_denotes h _),
    escape_denotes h hc hblank]

/-! ## Names, strings and URLs -/

theorem name_escaped {x e : Text} (h : Escaped x e) : name e = (x, []) := by
  induction h with
  | nil => exact name_eq_of_none rfl
  | cons hc hdigits hblank _ ih => rw [name_eq_of_some (nameChar?_denotes hdigits hc hblank _), ih]

/-- A string is closed by its own mark only, whatever it holds in escapes. -/
theorem stringBody_escaped {mark : Char} (hmark : isQuote mark = true) {x e : Text}
    (h : Escaped x e) (rest : Text) :
    stringBody mark (e ++ mark :: rest) = (x, .closed, rest) := by
  have hne : '\\' ≠ mark := by
    rintro rfl
    cases hmark
  induction h with
  | nil =>
      rw [List.nil_append, stringBody.eq_def]
      simp only [if_true]
  | @cons c blank digits x e hc hdigits hblank _ ih =>
      have hescape := escape_denotes hdigits hc hblank (e ++ mark :: rest)
      have hstart := startsEscape_denotes hdigits (blank :: e ++ mark :: rest)
      cases digits with
      | nil => exact absurd rfl hdigits.ne_nil
      | cons d more =>
          have hline : d ≠ '\n' := by simpa [startsEscape] using hstart
          have hbreak : '\\' ≠ '\n' := by decide
          simp only [List.cons_append, List.append_assoc] at hescape ⊢
          rw [stringBody.eq_def]
          simp only [if_neg hne, if_neg hbreak, if_true, if_neg hline, hescape, ih]

theorem urlBody_escaped {x e : Text} (h : Escaped x e) (rest : Text) :
    urlBody (e ++ ')' :: rest) = (x, .closed, rest) := by
  induction h with
  | nil =>
      rw [List.nil_append, urlBody.eq_def]
      simp only [if_true]
  | @cons c blank digits x e hc hdigits hblank _ ih =>
      have hescape := escape_denotes hdigits hc hblank (e ++ ')' :: rest)
      have hstart := startsEscape_denotes hdigits (blank :: (e ++ ')' :: rest))
      have hclose : '\\' ≠ ')' := by decide
      have hspace : isBlank '\\' = false := by decide
      have hother : (isQuote '\\' || '\\' = '(' || isUnprintable '\\') = false := by decide
      simp only [List.cons_append, List.append_assoc] at hescape hstart ⊢
      rw [urlBody.eq_def]
      simp only [if_neg hclose, hspace, Bool.false_eq_true, if_false, hother, if_true, hstart,
        hescape, ih]

/-! ## Sources of one token -/

/-- The tokens of a source that is one token as a whole. -/
def Tokens.single (kind : Token.Kind) (source : Text) : Tokens :=
  let stop := Position.start.advance source
  ⟨[⟨kind, ⟨.start, stop⟩⟩, ⟨.eof, ⟨stop, stop⟩⟩], []⟩

theorem tokenize_of_scan {c : Char} {rest : Text} {kind : Token.Kind}
    (hplain : normalize (c :: rest) = c :: rest) (h : scan c rest = .sound kind []) :
    tokenize (c :: rest) = .single kind (c :: rest) := by
  have hslice : consumed (c :: rest) [] = c :: rest := by simp [consumed]
  rw [tokenize, hplain, lexemes_cons, h, Scan.lexeme_sound, hslice]
  simp only [Scan.sound, lexemes_nil, place, Lexeme.token, Lexeme.error?, Tokens.single]
  rfl

/-- Code points that reading does not replace. -/
def Plain (t : Text) : Prop := ∀ c ∈ t, c ≠ '\r' ∧ c ≠ '\x0c' ∧ c ≠ '\x00'

theorem normalize_of_plain {t : Text} (h : Plain t) : normalize t = t := by
  induction t with
  | nil => rfl
  | cons c t ih =>
      obtain ⟨⟨hreturn, hfeed, hzero⟩, ht⟩ := List.forall_mem_cons.1 h
      rw [normalize_cons hreturn, if_neg hfeed, if_neg hzero, ih ht]

theorem ne_of_isHex {c : Char} (h : isHex c = true) : c ≠ '\r' ∧ c ≠ '\x0c' ∧ c ≠ '\x00' := by
  refine ⟨?_, ?_, ?_⟩ <;>
    · rintro rfl
      cases h

theorem Escaped.plain {x e : Text} (h : Escaped x e) : Plain e := by
  induction h with
  | nil => exact fun _ hc => absurd hc List.not_mem_nil
  | @cons c blank digits x e hc hdigits hblank _ ih =>
      refine List.forall_mem_cons.2 ⟨by decide, List.forall_mem_append.2 ⟨?_, ?_⟩⟩
      · exact fun d hd => ne_of_isHex (hdigits.isHex d hd)
      · refine List.forall_mem_cons.2 ⟨?_, ih⟩
        simp only [isBlank, Bool.or_eq_true, decide_eq_true_eq] at hblank
        rcases hblank with (rfl | rfl) | rfl <;> decide

theorem Escaped.exists_cons {x e : Text} (h : Escaped x e) (hx : x ≠ []) :
    ∃ rest, e = '\\' :: rest ∧ startsEscape ('\\' :: rest) = true := by
  cases h with
  | nil => exact absurd rfl hx
  | cons _ hdigits _ _ => exact ⟨_, rfl, startsEscape_denotes hdigits _⟩

/-! ## The five places of a name -/

section places

variable {x e : Text} (hx : x ≠ []) (h : Escaped x e)
include hx h

theorem tokenize_escaped_ident : tokenize e = .single (.ident x) e := by
  obtain ⟨rest, rfl, hescape⟩ := h.exists_cons hx
  refine tokenize_of_scan (normalize_of_plain h.plain) ?_
  have hscan : scan '\\' rest = if startsEscape ('\\' :: rest) then scanName ('\\' :: rest)
      else ⟨.delim '\\', rest, some (.strayBackslash, rest)⟩ := rfl
  rw [hscan, if_pos hescape, scanName]
  simp only [name_escaped h]

theorem startsIdent_escaped : startsIdent e = true := by
  obtain ⟨rest, rfl, hescape⟩ := h.exists_cons hx
  rw [startsIdent_cons, if_neg (by decide), hescape, Bool.or_true]

theorem tokenize_escaped_atKeyword :
    tokenize ('@' :: e) = .single (.atKeyword x) ('@' :: e) := by
  have hplain : Plain ('@' :: e) := List.forall_mem_cons.2 ⟨by decide, h.plain⟩
  refine tokenize_of_scan (normalize_of_plain hplain) ?_
  have hscan : scan '@' e = if startsIdent e then .sound (.atKeyword (name e).1) (name e).2
      else .sound (.delim '@') e := rfl
  rw [hscan, if_pos (startsIdent_escaped hx h), name_escaped h]

theorem tokenize_escaped_hash :
    tokenize ('#' :: e) = .single (.hash x true) ('#' :: e) := by
  have hplain : Plain ('#' :: e) := List.forall_mem_cons.2 ⟨by decide, h.plain⟩
  refine tokenize_of_scan (normalize_of_plain hplain) ?_
  have hident := startsIdent_escaped hx h
  have hscan : scan '#' e = scanHash e := rfl
  rw [hscan, scanHash, if_pos (nameChar?_of_startsIdent hident), name_escaped h, hident]

theorem tokenize_escaped_url :
    tokenize ("url(".toList ++ e ++ [')']) = .single (.url x) ("url(".toList ++ e ++ [')']) := by
  have hplain : Plain ("url(".toList ++ e ++ [')']) := by
    refine List.forall_mem_append.2 ⟨List.forall_mem_append.2 ⟨?_, h.plain⟩, ?_⟩ <;> simp
  refine tokenize_of_scan (normalize_of_plain hplain) ?_
  obtain ⟨rest, he, _⟩ := h.exists_cons hx
  have hname : name ('u' :: 'r' :: 'l' :: '(' :: (e ++ [')'])) =
      (['u', 'r', 'l'], '(' :: (e ++ [')'])) := by
    rw [name_eq_of_some rfl, name_eq_of_some rfl, name_eq_of_some rfl, name_eq_of_none rfl]
  have hlower : Text.lower ['u', 'r', 'l'] = ['u', 'r', 'l'] := by decide
  have hinner : dropBlanksButLast (e ++ [')']) = e ++ [')'] := by
    rw [he]
    cases rest <;> rfl
  have hquoted : startsQuoted (e ++ [')']) = false := by
    rw [he]
    rfl
  have hblanks : (e ++ [')']).dropWhile isBlank = e ++ [')'] := by
    rw [he]
    rfl
  have hscan : scan 'u' ('r' :: 'l' :: '(' :: (e ++ [')'])) =
      scanName ('u' :: 'r' :: 'l' :: '(' :: (e ++ [')'])) := rfl
  refine hscan.trans ?_
  rw [scanName]
  simp only [hname, hlower, if_true, hinner, hquoted, Bool.false_eq_true, if_false]
  rw [scanUrl, hblanks, urlBody_escaped h]

end places

theorem tokenize_escaped_string {mark : Char} (hmark : isQuote mark = true) {x e : Text}
    (h : Escaped x e) :
    tokenize (mark :: (e ++ [mark])) = .single (.string x) (mark :: (e ++ [mark])) := by
  have hquote : mark = '"' ∨ mark = '\'' := by simpa [isQuote] using hmark
  have hmarks : Plain [mark] := by
    rcases hquote with rfl | rfl <;> simp [Plain]
  have hplain : Plain (mark :: (e ++ [mark])) :=
    List.forall_mem_cons.2 ⟨hmarks mark List.mem_cons_self,
      List.forall_mem_append.2 ⟨h.plain, hmarks⟩⟩
  refine tokenize_of_scan (normalize_of_plain hplain) ?_
  have hscan : scan mark (e ++ [mark]) = scanString mark (e ++ [mark]) := by
    rcases hquote with rfl | rfl <;> rfl
  rw [hscan, scanString, stringBody_escaped hmark h]

/-- A text written with an escape for each code point is read as that text: as a
name by itself, behind an at sign and behind a hash mark, as a string between
marks of either kind, and as a URL. There is no error, and nothing but the end
follows. -/
theorem escaped_text_decoded {x e : Text} (hx : x ≠ []) (h : Escaped x e) :
    tokenize e = .single (.ident x) e ∧
    tokenize ('@' :: e) = .single (.atKeyword x) ('@' :: e) ∧
    tokenize ('#' :: e) = .single (.hash x true) ('#' :: e) ∧
    (∀ mark, isQuote mark = true →
      tokenize (mark :: (e ++ [mark])) = .single (.string x) (mark :: (e ++ [mark]))) ∧
    tokenize ("url(".toList ++ e ++ [')']) = .single (.url x) ("url(".toList ++ e ++ [')']) :=
  ⟨tokenize_escaped_ident hx h, tokenize_escaped_atKeyword hx h, tokenize_escaped_hash hx h,
    fun _ hmark => tokenize_escaped_string hmark h, tokenize_escaped_url hx h⟩

/-- A line feed and a parenthesis, with digits of both cases, zeros and two kinds
of blanks. -/
theorem escaped_text_decoded_marks :
    let e := "\\00000A\n\\29\t\\1f60A ".toList
    tokenize e = .single (.ident ['\n', ')', '😊']) e ∧
      tokenize ("url(".toList ++ e ++ [')']) =
        .single (.url ['\n', ')', '😊']) ("url(".toList ++ e ++ [')']) := by
  intro e
  have hfeed : Denotes "00000A".toList '\n' := ⟨by decide, 5, by decide⟩
  have hround : Denotes "29".toList ')' := ⟨by decide, 0, by decide⟩
  have hface : Denotes "1f60A".toList '😊' := ⟨by decide, 0, by decide⟩
  have h : Escaped ['\n', ')', '😊'] e :=
    .cons (by decide) hfeed rfl (.cons (by decide) hround rfl (.cons (by decide) hface rfl .nil))
  have hread := escaped_text_decoded (by decide) h
  exact ⟨hread.1, hread.2.2.2.2⟩

end StyleAudit.Source
