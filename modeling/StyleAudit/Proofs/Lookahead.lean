import Mathlib.Logic.Basic
import StyleAudit.Source.Lexing

/-!
# What the first code points decide

`scan` looks at a few code points and hands the text over to one of its readers. A
statement about all tokens has to be made of each reader, and nothing else: which
reader it is, and what was seen before it was chosen, is said here once, as one
constructor to a branch of `scan`. Branches that come to the same are one
constructor. Two branches read a name, and both have seen the start of an
identifier; three read a number or the sign of one, and have seen the start of a
number.

The kinds of token that a reader can give are said here as well, one lemma to a
reader. Read the other way they tell from a token which reader has made it (`scan_read`).
-/

namespace StyleAudit.Source

/-- How a token that starts with `c` and goes on with `rest` is read, with what was
seen of the text before. -/
inductive Branch (c : Char) (rest : Text) : Scan → Prop where
  | comment (hc : c = '/') (hrest : rest.head? = some '*') :
      Branch c rest (scanComment (rest.drop 1))
  | string (hc : isQuote c = true) : Branch c rest (scanString c rest)
  | hash (hc : c = '#') : Branch c rest (scanHash rest)
  | number (h : startsNumber (c :: rest) = true) : Branch c rest (scanNumber (c :: rest))
  | closingMark (hc : c = '-') (h : ['-', '>'].isPrefixOf rest = true) :
      Branch c rest (.sound .cdc (rest.drop 2))
  | openingMark (hc : c = '<') (h : ['!', '-', '-'].isPrefixOf rest = true) :
      Branch c rest (.sound .cdo (rest.drop 3))
  | name (h : startsIdent (c :: rest) = true) : Branch c rest (scanName (c :: rest))
  | keyword (hc : c = '@') (h : startsIdent rest = true) :
      Branch c rest (.sound (.atKeyword (Source.name rest).1) (Source.name rest).2)
  | stray (hc : c = '\\') (h : startsEscape (c :: rest) = false) :
      Branch c rest ⟨.delim c, rest, some (.strayBackslash, rest)⟩
  | blank (hc : isBlank c = true) :
      Branch c rest
        (.sound (.whitespace (c :: rest.takeWhile isBlank)) (rest.dropWhile isBlank))
  | delim : Branch c rest (.sound (.delim c) rest)
  | punctuation : Branch c rest (.sound (punctuation c) rest)

theorem isDigit_iff {c : Char} : isDigit c = true ↔ c ∈ "0123456789".toList := by
  have hrange : ∀ n < 58, 48 ≤ n → Char.ofNat n ∈ "0123456789".toList := by decide
  constructor
  · intro h
    simp only [isDigit, Bool.and_eq_true, decide_eq_true_eq] at h
    have hlow : 48 ≤ c.toNat := UInt32.le_iff_toNat_le.1 h.1
    have hhigh : c.toNat ≤ 57 := UInt32.le_iff_toNat_le.1 h.2
    rw [← Char.ofNat_toNat c]
    exact hrange c.toNat (by omega) hlow
  · intro h
    have hdigits : "0123456789".toList.all isDigit = true := by decide
    exact List.all_eq_true.1 hdigits c h

theorem startsNumber_of_isDigit {c : Char} (h : isDigit c = true) (rest : Text) :
    startsNumber (c :: rest) = true := by
  have hplus : c ≠ '+' := by
    rintro rfl
    cases h
  have hminus : c ≠ '-' := by
    rintro rfl
    cases h
  have hpoint : c ≠ '.' := by
    rintro rfl
    cases h
  simp [startsNumber, hplus, hminus, hpoint, h]

theorem startsIdent_of_isIdentStart {c : Char} (h : isIdentStart c = true) (rest : Text) :
    startsIdent (c :: rest) = true := by
  have hhyphen : c ≠ '-' := by
    rintro rfl
    cases h
  simp [startsIdent, hhyphen, h]

theorem branch_scan (c : Char) (rest : Text) : Branch c rest (scan c rest) := by
  unfold scan
  refine iteInduction (fun h => ?comment) fun _ => ?_
  case comment =>
    rw [Bool.and_eq_true, decide_eq_true_eq, decide_eq_true_eq] at h
    exact .comment h.1 h.2
  refine iteInduction (fun h => .string h) fun _ => ?_
  refine iteInduction (fun h => .hash h) fun _ => ?_
  refine iteInduction (fun h => .number (Bool.and_eq_true_iff.1 h).2) fun _ => ?_
  refine iteInduction (fun hc => ?hyphen) fun _ => ?_
  case hyphen =>
    refine iteInduction (fun h => .closingMark hc h) fun _ => ?_
    exact iteInduction (fun h => .name h) fun _ => .delim
  refine iteInduction (fun h => ?_) fun _ => ?_
  · rw [Bool.and_eq_true, decide_eq_true_eq] at h
    exact .openingMark h.1 h.2
  refine iteInduction (fun hc => ?keyword) fun _ => ?_
  case keyword => exact iteInduction (fun h => .keyword hc h) fun _ => .delim
  refine iteInduction (fun hc => ?backslash) fun _ => ?_
  case backslash =>
    refine iteInduction (fun h => .name ?_) fun h => .stray hc (Bool.eq_false_iff.2 h)
    subst hc
    simp [startsIdent, h]
  refine iteInduction (fun h => .number (startsNumber_of_isDigit h rest)) fun _ => ?_
  refine iteInduction (fun h => .name (startsIdent_of_isIdentStart h rest)) fun _ => ?_
  exact iteInduction (fun h => .blank h) fun _ => .punctuation

/-! ## The kinds that each reader gives -/

theorem scanComment_kind (t : Text) : ∃ text, (scanComment t).kind = .comment text := by
  unfold scanComment
  split
  · exact ⟨_, rfl⟩
  · exact ⟨_, rfl⟩

theorem scanString_kind (mark : Char) (t : Text) :
    ∃ text, (scanString mark t).kind = .string text ∨
      (scanString mark t).kind = .badString text := by
  unfold scanString
  split
  · exact ⟨_, .inl rfl⟩
  · exact ⟨_, .inl rfl⟩
  · exact ⟨_, .inr rfl⟩

theorem scanUrl_kind (t : Text) :
    ∃ text, (scanUrl t).kind = .url text ∨ (scanUrl t).kind = .badUrl text := by
  unfold scanUrl
  split
  · exact ⟨_, .inl rfl⟩
  · exact ⟨_, .inl rfl⟩
  · exact ⟨_, .inr rfl⟩
  · exact ⟨_, .inr rfl⟩

theorem scanName_kind (t : Text) :
    ∃ text, (scanName t).kind = .ident text ∨ (scanName t).kind = .function text ∨
      (scanName t).kind = .url text ∨ (scanName t).kind = .badUrl text := by
  unfold scanName
  dsimp only
  split
  · exact ⟨_, .inl rfl⟩
  · split
    · split
      · split
        · exact ⟨_, .inr (.inl rfl)⟩
        · obtain ⟨text, htext⟩ := scanUrl_kind (dropBlanksButLast _)
          exact ⟨text, .inr (.inr htext)⟩
      · exact ⟨_, .inr (.inl rfl)⟩
    · exact ⟨_, .inl rfl⟩

theorem scanNumber_kind (t : Text) :
    (scanNumber t).kind = .number (Numeral.scan t).1 ∨
      (scanNumber t).kind = .percentage (Numeral.scan t).1 ∨
      ∃ unit, (scanNumber t).kind = .dimension (Numeral.scan t).1 unit := by
  unfold scanNumber
  dsimp only
  split
  · exact .inr (.inr ⟨_, rfl⟩)
  · split
    · exact .inl rfl
    · split
      · exact .inr (.inl rfl)
      · exact .inl rfl

theorem scanHash_kind (t : Text) :
    (∃ text isId, (scanHash t).kind = .hash text isId) ∨ (scanHash t).kind = .delim '#' := by
  unfold scanHash
  split
  · exact .inl ⟨_, _, rfl⟩
  · exact .inr rfl

/-- A code point that is a token of its own is a bracket, one of three marks, or none. -/
theorem punctuation_kind (c : Char) :
    (∃ b, punctuation c = .opening b ∨ punctuation c = .closing b) ∨
      punctuation c = .comma ∨ punctuation c = .colon ∨ punctuation c = .semicolon ∨
      punctuation c = .delim c := by
  unfold punctuation
  split <;> simp

/-! ## The readers that give a kind -/

/-- What gives tokens of a kind: one of three readers, the marks that hide a stylesheet
and end a source, or anything else. -/
inductive Reader where
  | name
  | number
  | string
  | mark
  | other
deriving DecidableEq, Repr

/-- What gives tokens of a kind. -/
def reader : Token.Kind → Reader
  | .ident _ | .function _ | .url _ | .badUrl _ => .name
  | .number _ | .percentage _ | .dimension _ _ => .number
  | .string _ | .badString _ => .string
  | .cdo | .cdc | .eof => .mark
  | _ => .other

/-- What a scan must be to give a token of its kind. -/
def Scan.Read (c : Char) (rest : Text) (s : Scan) : Prop :=
  match reader s.kind with
  | .name => startsIdent (c :: rest) = true ∧ s = scanName (c :: rest)
  | .number => startsNumber (c :: rest) = true ∧ s = scanNumber (c :: rest)
  | .string => isQuote c = true ∧ s = scanString c rest
  | .mark => s.kind ≠ .eof ∧ (s.kind.raw.drop 1).isPrefixOf rest = true
  | .other => True

theorem scan_read (c : Char) (rest : Text) : (scan c rest).Read c rest := by
  have h := branch_scan c rest
  generalize scan c rest = s at h ⊢
  unfold Scan.Read
  cases h with
  | comment =>
      obtain ⟨text, hkind⟩ := scanComment_kind (rest.drop 1)
      rw [hkind]
      trivial
  | string hc =>
      obtain ⟨text, hkind | hkind⟩ := scanString_kind c rest <;>
        · rw [hkind]
          exact ⟨hc, rfl⟩
  | hash =>
      obtain ⟨text, isId, hkind⟩ | hkind := scanHash_kind rest <;>
        · rw [hkind]
          trivial
  | number h =>
      rcases scanNumber_kind (c :: rest) with hkind | hkind | ⟨unit, hkind⟩ <;>
        · rw [hkind]
          exact ⟨h, rfl⟩
  | name h =>
      obtain ⟨text, hkind | hkind | hkind | hkind⟩ := scanName_kind (c :: rest) <;>
        · rw [hkind]
          exact ⟨h, rfl⟩
  | punctuation =>
      obtain ⟨b, hkind | hkind⟩ | hkind | hkind | hkind | hkind := punctuation_kind c <;>
        · rw [Scan.sound, hkind]
          trivial
  | closingMark _ h => exact ⟨by simp [Scan.sound], h⟩
  | openingMark _ h => exact ⟨by simp [Scan.sound], h⟩
  | keyword => trivial
  | stray => trivial
  | blank => trivial
  | delim => trivial

section read

variable {c : Char} {rest : Text}

theorem scan_eq_scanName (h : reader (scan c rest).kind = .name) :
    startsIdent (c :: rest) = true ∧ scan c rest = scanName (c :: rest) := by
  have hread := scan_read c rest
  rwa [Scan.Read, h] at hread

theorem scan_eq_scanNumber (h : reader (scan c rest).kind = .number) :
    startsNumber (c :: rest) = true ∧ scan c rest = scanNumber (c :: rest) := by
  have hread := scan_read c rest
  rwa [Scan.Read, h] at hread

theorem scan_eq_scanString (h : reader (scan c rest).kind = .string) :
    isQuote c = true ∧ scan c rest = scanString c rest := by
  have hread := scan_read c rest
  rwa [Scan.Read, h] at hread

/-- A mark stands in the text: its first code point has been read and the others follow. -/
theorem isPrefixOf_of_mark (h : reader (scan c rest).kind = .mark) :
    (scan c rest).kind ≠ .eof ∧ ((scan c rest).kind.raw.drop 1).isPrefixOf rest = true := by
  have hread := scan_read c rest
  rwa [Scan.Read, h] at hread

end read

theorem scan_kind_ne_eof (c : Char) (rest : Text) : (scan c rest).kind ≠ .eof := by
  intro h
  refine (isPrefixOf_of_mark ?_).1 h
  rw [h]
  rfl

end StyleAudit.Source
