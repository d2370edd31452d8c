import StyleAudit.Proofs.LetterCase

/-!
# The tokens of a folded source

A source and the folded source are cut into tokens at the same places. The
lemmas follow the readers from the smallest up: each is applied to a folded text
and compared with what it does on the text itself. What is left to be read is
the rest folded. What has been read is the same after folding; it need not be
folded already, since an escape can spell a capital without being written with
one. `Scan.Folded` says this of a single token, and `tokenize_fold` of a source:
the tokens have equal places, and equal kinds and texts once letter case is
respelled.
-/

namespace StyleAudit.Source

open Text (fold fold_cons fold_cons_of_not_isLetter fold_fold toLower_eq_iff
  toLower_invariant toLower_toLower takeWhile_fold dropWhile_fold head?_any_fold
  head?_fold_eq_some)

/-! ## Classes -/

theorem isIdentStart_toLower : ∀ c : Char, isIdentStart c.toLower = isIdentStart c :=
  toLower_invariant _ (by decide)

theorem isDigit_toLower : ∀ c : Char, isDigit c.toLower = isDigit c :=
  toLower_invariant _ (by decide)

theorem isBlank_toLower : ∀ c : Char, isBlank c.toLower = isBlank c :=
  toLower_invariant _ (by decide)

theorem isHex_toLower : ∀ c : Char, isHex c.toLower = isHex c :=
  toLower_invariant _ (by decide)

theorem isIdent_toLower : ∀ c : Char, isIdent c.toLower = isIdent c :=
  toLower_invariant _ (by decide)

theorem isQuote_toLower : ∀ c : Char, isQuote c.toLower = isQuote c :=
  toLower_invariant _ (by decide)

theorem isLetter_of_isDigit {c : Char} (h : isDigit c = true) :
    isLetter c = false := by
  have hsmall : ∀ n < 58, isLetter (Char.ofNat n) = false := by decide
  rw [isDigit, Bool.and_eq_true, decide_eq_true_eq, decide_eq_true_eq] at h
  have hhigh : c.toNat ≤ 57 := UInt32.le_iff_toNat_le.1 h.2
  rw [← Char.ofNat_toNat c]
  exact hsmall c.toNat (by omega)

theorem fold_takeWhile_isDigit (t : Text) :
    fold (t.takeWhile isDigit) = t.takeWhile isDigit :=
  Text.fold_of_not_isLetter fun c hc =>
    isLetter_of_isDigit (List.all_eq_true.1 List.all_takeWhile c hc)

/-! ## Looking ahead -/

theorem startsEscape_cons (c : Char) (rest : Text) :
    startsEscape (c :: rest) = (c = '\\' && rest.head?.any (· != '\n')) := by
  cases rest with
  | nil => simp [startsEscape]
  | cons d rest =>
      by_cases hc : c = '\\'
      · subst hc
        rfl
      · simp [startsEscape, hc]

theorem startsEscape_fold (t : Text) : startsEscape (fold t) = startsEscape t := by
  cases t with
  | nil => rfl
  | cons c rest =>
      have hline (d : Char) : (d.toLower != '\n') = (d != '\n') :=
        toLower_invariant (· != '\n') (by decide) d
      rw [fold_cons, startsEscape_cons, startsEscape_cons, head?_any_fold hline]
      simp (disch := decide) only [toLower_eq_iff]

theorem startsIdent_cons (c : Char) (rest : Text) :
    startsIdent (c :: rest) =
      if c = '-' then
        rest.head?.any (fun d => isIdentStart d || d = '-') || startsEscape rest
      else isIdentStart c || startsEscape (c :: rest) := by
  cases rest <;> rfl

theorem startsIdent_fold (t : Text) : startsIdent (fold t) = startsIdent t := by
  cases t with
  | nil => rfl
  | cons c rest =>
      have hsecond (d : Char) : (isIdentStart d.toLower || d.toLower = '-') =
          (isIdentStart d || d = '-') :=
        toLower_invariant (fun d => isIdentStart d || d = '-') (by decide) d
      have hescape := startsEscape_fold (c :: rest)
      rw [fold_cons] at hescape ⊢
      rw [startsIdent_cons, startsIdent_cons, startsEscape_fold, hescape,
        head?_any_fold hsecond, isIdentStart_toLower]
      simp (disch := decide) only [toLower_eq_iff]

theorem startsNumber_cons (c : Char) (rest : Text) :
    startsNumber (c :: rest) =
      if c = '+' || c = '-' then
        rest.head?.any isDigit ||
          (rest.head? = some '.' && (rest.drop 1).head?.any isDigit)
      else if c = '.' then rest.head?.any isDigit
      else isDigit c := by
  cases rest with
  | nil => rfl
  | cons d rest => simp [startsNumber]

theorem startsNumber_fold (t : Text) : startsNumber (fold t) = startsNumber t := by
  cases t with
  | nil => rfl
  | cons c rest =>
      rw [fold_cons, startsNumber_cons, startsNumber_cons, Text.fold_drop,
        head?_any_fold isDigit_toLower, head?_any_fold isDigit_toLower,
        isDigit_toLower]
      simp (disch := decide) only [toLower_eq_iff, head?_fold_eq_some]

/-! ## Escapes and names -/

theorem hexValue_fold {digits : Text} (h : ∀ c ∈ digits, isHex c = true) :
    hexValue (fold digits) = hexValue digits := by
  have hdigit (c : Char) : (if isHex c.toLower then hexDigit c.toLower else 0) =
      if isHex c then hexDigit c else 0 :=
    toLower_invariant (fun c => if isHex c then hexDigit c else 0) (by decide) c
  unfold hexValue
  generalize 0 = start
  induction digits generalizing start with
  | nil => rfl
  | cons c digits ih =>
      have hc := hdigit c
      rw [isHex_toLower, if_pos (h c List.mem_cons_self),
        if_pos (h c List.mem_cons_self)] at hc
      rw [fold_cons, List.foldl_cons, List.foldl_cons, hc]
      exact ih (fun d hd => h d (List.mem_cons_of_mem _ hd)) _

theorem dropBlank_fold (t : Text) : dropBlank (fold t) = fold (dropBlank t) := by
  cases t with
  | nil => rfl
  | cons c rest =>
      rw [fold_cons, dropBlank, dropBlank, isBlank_toLower]
      split <;> rfl

/-- An escape by number is the same character in both, one by itself the same
after folding. -/
theorem escape_fold (t : Text) :
    (escape (fold t)).1.toLower = (escape t).1.toLower ∧
      (escape (fold t)).2 = fold (escape t).2 := by
  cases t with
  | nil => exact ⟨rfl, rfl⟩
  | cons c rest =>
      simp only [fold_cons, escape, isHex_toLower, Text.fold_take,
        takeWhile_fold isHex_toLower, Text.length_fold, Text.fold_drop,
        dropBlank_fold]
      split
      · next hc =>
          have hdigits : ∀ d ∈ c :: (rest.take 5).takeWhile isHex,
              isHex d = true := by
            intro d hd
            rcases List.mem_cons.1 hd with rfl | hd
            · exact hc
            · exact List.all_eq_true.1 List.all_takeWhile d hd
          have hvalue := hexValue_fold hdigits
          rw [fold_cons] at hvalue
          rw [hvalue]
          exact ⟨rfl, rfl⟩
      · exact ⟨toLower_toLower c, rfl⟩

theorem nameChar?_fold_cons (c : Char) (rest : Text) :
    nameChar? (fold (c :: rest)) =
      if isIdent c then some (c.toLower, fold rest)
      else if startsEscape (c :: rest) then some (escape (fold rest))
      else none := by
  rw [← startsEscape_fold, fold_cons, nameChar?, isIdent_toLower]

theorem nameChar?_fold_none {t : Text} (h : nameChar? t = none) :
    nameChar? (fold t) = none := by
  cases t with
  | nil => rfl
  | cons c rest =>
      rw [nameChar?_fold_cons]
      rw [nameChar?] at h
      split at h
      · cases h
      · next hident =>
          split at h
          · cases h
          · next hescape => rw [if_neg hident, if_neg hescape]

theorem nameChar?_fold_some {t rest : Text} {c : Char}
    (h : nameChar? t = some (c, rest)) :
    ∃ d, nameChar? (fold t) = some (d, fold rest) ∧ d.toLower = c.toLower := by
  cases t with
  | nil => cases h
  | cons b after =>
      rw [nameChar?_fold_cons]
      rw [nameChar?] at h
      split at h
      · next hident =>
          cases h
          exact ⟨_, if_pos hident, toLower_toLower c⟩
      · next hident =>
          split at h
          · next hescape =>
              rw [Option.some.injEq] at h
              obtain ⟨hchar, hrest⟩ := escape_fold after
              rw [h] at hchar hrest
              refine ⟨(escape (fold after)).1, ?_, hchar⟩
              rw [if_neg hident, if_pos hescape, ← hrest]
          · cases h

theorem nameChar?_isSome_fold (t : Text) :
    (nameChar? (fold t)).isSome = (nameChar? t).isSome := by
  cases h : nameChar? t with
  | none => rw [nameChar?_fold_none h]
  | some read =>
      obtain ⟨d, hd, _⟩ := nameChar?_fold_some h
      rw [hd]
      rfl

theorem name_fold (t : Text) :
    fold (name (fold t)).1 = fold (name t).1 ∧
      (name (fold t)).2 = fold (name t).2 := by
  fun_induction name t with
  | case1 t h =>
      rw [name_eq_of_none (nameChar?_fold_none h)]
      exact ⟨rfl, rfl⟩
  | case2 t c rest h _ more ih =>
      obtain ⟨d, hd, hcase⟩ := nameChar?_fold_some h
      rw [name_eq_of_some hd]
      refine ⟨?_, ih.2⟩
      rw [fold_cons, fold_cons, hcase, ih.1]

/-! ## Numbers -/

theorem takeSign_fold (t : Text) :
    Numeral.takeSign (fold t) =
      ((Numeral.takeSign t).1, fold (Numeral.takeSign t).2) := by
  cases t with
  | nil => rfl
  | cons c rest =>
      rw [fold_cons, Numeral.takeSign, Numeral.takeSign]
      simp (disch := decide) only [toLower_eq_iff]
      split
      · next hsign =>
          rw [Bool.or_eq_true, decide_eq_true_eq, decide_eq_true_eq] at hsign
          have hc : isLetter c = false := by
            rcases hsign with rfl | rfl <;> rfl
          rw [Text.toLower_of_not_isLetter hc]
      · rfl

theorem takeFraction_cons (c d : Char) (rest : Text) :
    Numeral.takeFraction (c :: d :: rest) =
      if c = '.' then
        if isDigit d then (d :: rest.takeWhile isDigit, rest.dropWhile isDigit)
        else ([], c :: d :: rest)
      else ([], c :: d :: rest) := by
  by_cases hc : c = '.'
  · subst hc
    rw [if_pos rfl, Numeral.takeFraction]
  · rw [if_neg hc, Numeral.takeFraction]
    intro d rest h
    cases h
    exact hc rfl

theorem takeFraction_fold (t : Text) :
    Numeral.takeFraction (fold t) =
      ((Numeral.takeFraction t).1, fold (Numeral.takeFraction t).2) := by
  match t with
  | [] => rfl
  | [c] => simp [Numeral.takeFraction]
  | c :: d :: rest =>
      rw [fold_cons, fold_cons, takeFraction_cons, takeFraction_cons,
        isDigit_toLower, takeWhile_fold isDigit_toLower,
        dropWhile_fold isDigit_toLower, fold_takeWhile_isDigit]
      simp (disch := decide) only [toLower_eq_iff]
      split
      · split
        · next hd => rw [Text.toLower_of_not_isLetter (isLetter_of_isDigit hd)]
        · rfl
      · rfl

theorem takeExponent_fold (t : Text) :
    Numeral.takeExponent (fold t) =
      (fold (Numeral.takeExponent t).1, fold (Numeral.takeExponent t).2) := by
  match t with
  | [] => rfl
  | [c] => rfl
  | e :: s :: rest =>
      have hmark : (e.toLower = 'e' || e.toLower = 'E') = (e = 'e' || e = 'E') :=
        toLower_invariant (fun e => e = 'e' || e = 'E') (by decide) e
      rw [fold_cons, fold_cons, Numeral.takeExponent, Numeral.takeExponent,
        hmark, isDigit_toLower, head?_any_fold isDigit_toLower,
        takeWhile_fold isDigit_toLower, dropWhile_fold isDigit_toLower]
      simp (disch := decide) only [toLower_eq_iff]
      split
      · split
        · rfl
        · split <;> rfl
      · rfl

theorem numeral_scan_fold (t : Text) :
    Numeral.scan (fold t) =
      (Respelling.letterCase.numeral (Numeral.scan t).1,
        fold (Numeral.scan t).2) := by
  unfold Numeral.scan
  simp only [takeSign_fold, takeWhile_fold isDigit_toLower, fold_takeWhile_isDigit,
    dropWhile_fold isDigit_toLower, takeFraction_fold, takeExponent_fold]
  rfl

/-! ## Comments, strings and URLs -/

theorem closeComment?_fold (t : Text) :
    closeComment? (fold t) =
      (closeComment? t).map fun (text, after) => (fold text, fold after) := by
  induction t with
  | nil => rfl
  | cons c rest ih =>
      rw [fold_cons, closeComment?, closeComment?, ih, Text.fold_drop]
      simp (disch := decide) only [toLower_eq_iff, head?_fold_eq_some]
      split
      · rfl
      · rw [Option.map_map, Option.map_map]
        rfl

theorem stringBody_fold {mark : Char} (hmark : isLetter mark = false) (t : Text) :
    fold (stringBody mark (fold t)).1 = fold (stringBody mark t).1 ∧
      (stringBody mark (fold t)).2 =
        ((stringBody mark t).2.1, fold (stringBody mark t).2.2) := by
  fun_induction stringBody mark t with
  | case1 =>
      rw [Text.fold_nil, stringBody]
      exact ⟨rfl, rfl⟩
  | case2 rest =>
      rw [fold_cons_of_not_isLetter hmark, stringBody.eq_def]
      simp only [if_true, Text.fold_nil, and_self]
  | case3 rest hc =>
      rw [fold_cons_of_not_isLetter rfl, stringBody.eq_def]
      simp only [if_neg hc, if_true, Text.fold_nil, and_self]
  | case4 hc hline =>
      rw [fold_cons_of_not_isLetter rfl, Text.fold_nil, stringBody, if_neg hc,
        if_neg hline, if_pos rfl]
      exact ⟨rfl, rfl⟩
  | case5 after hc hline ih =>
      rw [fold_cons_of_not_isLetter rfl, fold_cons_of_not_isLetter rfl, stringBody,
        if_neg hc, if_neg hline, if_pos rfl]
      exact ih
  | case6 d after hd _ decoded more hc hline ih =>
      obtain ⟨hchar, hrest⟩ := escape_fold (d :: after)
      rw [fold_cons_of_not_isLetter rfl, fold_cons, stringBody, if_neg hc,
        if_neg hline, if_pos rfl]
      rw [fold_cons] at hchar hrest
      simp only [toLower_eq_iff (x := '\n') rfl, if_neg hd, hrest]
      refine ⟨?_, ih.2⟩
      rw [fold_cons, fold_cons, hchar, ih.1]
  | case7 c rest hc hline hescape more ih =>
      rw [fold_cons, stringBody.eq_def]
      simp (disch := assumption) only [toLower_eq_iff hmark,
        toLower_eq_iff (x := '\n') rfl, toLower_eq_iff (x := '\\') rfl, if_neg]
      refine ⟨?_, ih.2⟩
      rw [fold_cons, fold_cons, toLower_toLower, ih.1]

theorem badUrlRest_fold (t : Text) : badUrlRest (fold t) = fold (badUrlRest t) := by
  fun_induction badUrlRest t with
  | case1 => rw [Text.fold_nil, badUrlRest]
  | case2 rest => rw [fold_cons_of_not_isLetter rfl, badUrlRest, if_pos rfl]
  | case3 c rest hc hescape _ ih =>
      rw [← startsEscape_fold, fold_cons] at hescape
      rw [fold_cons, badUrlRest, if_neg (by rwa [toLower_eq_iff rfl]),
        if_pos hescape, (escape_fold rest).2, ih]
  | case4 c rest hc hescape ih =>
      rw [← startsEscape_fold, fold_cons] at hescape
      rw [fold_cons, badUrlRest, if_neg (by rwa [toLower_eq_iff rfl]),
        if_neg hescape, ih]

/-- The end of a URL in a folded text. -/
def UrlEnd.fold : UrlEnd → UrlEnd
  | .invalid fault rest => .invalid fault (Text.fold rest)
  | ending => ending

theorem urlBody_fold (t : Text) :
    fold (urlBody (fold t)).1 = fold (urlBody t).1 ∧
      (urlBody (fold t)).2 =
        ((urlBody t).2.1.fold, fold (urlBody t).2.2) := by
  have hinvalid (c : Char) :
      (isQuote c.toLower || c.toLower = '(' || isUnprintable c.toLower) =
        (isQuote c || c = '(' || isUnprintable c) :=
    toLower_invariant (fun c => isQuote c || c = '(' || isUnprintable c)
      (by decide) c
  fun_induction urlBody t with
  | case1 =>
      rw [Text.fold_nil, urlBody]
      exact ⟨rfl, rfl⟩
  | case2 rest =>
      rw [fold_cons_of_not_isLetter rfl, urlBody, if_pos rfl]
      exact ⟨rfl, rfl⟩
  | case3 c rest hc hblank hrest =>
      rw [fold_cons, urlBody, if_neg (by rwa [toLower_eq_iff rfl]),
        isBlank_toLower, if_pos hblank, dropWhile_fold isBlank_toLower, hrest]
      exact ⟨rfl, rfl⟩
  | case4 c rest hc hblank after hrest =>
      rw [fold_cons, urlBody, if_neg (by rwa [toLower_eq_iff rfl]),
        isBlank_toLower, if_pos hblank, dropWhile_fold isBlank_toLower, hrest]
      exact ⟨rfl, rfl⟩
  | case5 c rest hc hblank d after hrest hd =>
      have hbad := badUrlRest_fold (d :: after)
      rw [fold_cons, urlBody, if_neg (by rwa [toLower_eq_iff rfl]),
        isBlank_toLower, if_pos hblank, dropWhile_fold isBlank_toLower, hrest]
      rw [fold_cons] at hbad ⊢
      simp only [toLower_eq_iff (x := ')') rfl, if_neg hd, hbad, true_and]
      rfl
  | case6 c rest hc hblank hchar =>
      rw [fold_cons, urlBody, if_neg (by rwa [toLower_eq_iff rfl]),
        isBlank_toLower, if_neg hblank, hinvalid, if_pos hchar, badUrlRest_fold]
      exact ⟨rfl, rfl⟩
  | case7 rest _ decoded more hc hblank hchar hescape ih =>
      obtain ⟨hcode, hrest⟩ := escape_fold rest
      rw [← startsEscape_fold, fold_cons_of_not_isLetter rfl] at hescape
      rw [fold_cons_of_not_isLetter rfl, urlBody, if_neg hc, if_neg hblank,
        if_neg hchar, if_pos rfl, if_pos hescape]
      simp only [hrest]
      refine ⟨?_, ih.2⟩
      rw [fold_cons, fold_cons, hcode, ih.1]
  | case8 rest hc hblank hchar hescape =>
      rw [← startsEscape_fold, fold_cons_of_not_isLetter rfl] at hescape
      rw [fold_cons_of_not_isLetter rfl, urlBody, if_neg hc, if_neg hblank,
        if_neg hchar, if_pos rfl, if_neg hescape, badUrlRest_fold]
      exact ⟨rfl, rfl⟩
  | case9 c rest hc hblank hchar hescape more ih =>
      rw [fold_cons, urlBody, if_neg (by rwa [toLower_eq_iff rfl]),
        isBlank_toLower, if_neg hblank, hinvalid, if_neg hchar,
        if_neg (by rwa [toLower_eq_iff rfl])]
      refine ⟨?_, ih.2⟩
      rw [fold_cons, fold_cons, toLower_toLower, ih.1]

theorem dropBlanksButLast_fold (t : Text) :
    dropBlanksButLast (fold t) = fold (dropBlanksButLast t) := by
  fun_induction dropBlanksButLast t with
  | case1 a b rest hblank ih =>
      rw [fold_cons, fold_cons, dropBlanksButLast, isBlank_toLower, isBlank_toLower,
        if_pos hblank]
      exact ih
  | case2 a b rest hblank =>
      rw [fold_cons, fold_cons, dropBlanksButLast, isBlank_toLower, isBlank_toLower,
        if_neg hblank]
  | case3 t ht =>
      match t with
      | [] => rfl
      | [c] => rfl
      | a :: b :: rest => exact absurd rfl (ht a b rest)

theorem startsQuoted_fold (t : Text) : startsQuoted (fold t) = startsQuoted t := by
  cases t with
  | nil => rfl
  | cons c rest =>
      rw [fold_cons, startsQuoted, startsQuoted, isQuote_toLower, isBlank_toLower,
        head?_any_fold isQuote_toLower]

/-! ## Tokens -/

open Respelling (letterCase)

/-- What one step of reading found in a text, and what it found in the folded
text. -/
structure Scan.Folded (s s' : Scan) : Prop where
  kind : letterCase.kind s'.kind = letterCase.kind s.kind
  rest : s'.rest = fold s.rest
  flaw : s'.flaw = s.flaw.map fun (fault, rest) => (fault, fold rest)

namespace Scan

theorem Folded.sound {kind kind' : Token.Kind} {rest rest' : Text}
    (hkind : letterCase.kind kind' = letterCase.kind kind)
    (hrest : rest' = fold rest) :
    Folded (.sound kind rest) (.sound kind' rest') :=
  ⟨hkind, hrest, rfl⟩

theorem Folded.ite {p p' : Prop} [Decidable p] [Decidable p'] {s t s' t' : Scan}
    (hp : p' ↔ p) (hs : p → Folded s s') (ht : ¬ p → Folded t t') :
    Folded (if p then s else t) (if p' then s' else t') := by
  by_cases h : p
  · rw [if_pos h, if_pos (hp.2 h)]
    exact hs h
  · rw [if_neg h, if_neg (mt hp.1 h)]
    exact ht h

end Scan

open Scan (Folded)

theorem scanComment_fold (t : Text) :
    Folded (scanComment t) (scanComment (fold t)) := by
  unfold scanComment
  rw [closeComment?_fold]
  cases closeComment? t with
  | none =>
      exact ⟨congrArg Token.Kind.comment (fold_fold ('/' :: '*' :: t)), rfl, rfl⟩
  | some read =>
      refine Folded.sound (congrArg Token.Kind.comment ?_) rfl
      show fold ('/' :: '*' :: fold read.1 ++ ['*', '/']) =
        fold ('/' :: '*' :: read.1 ++ ['*', '/'])
      rw [Text.fold_append, fold_cons, fold_cons, fold_fold, Text.fold_append]
      rfl

theorem scanString_fold {mark : Char} (hmark : isLetter mark = false) (t : Text) :
    Folded (scanString mark t) (scanString mark (fold t)) := by
  obtain ⟨htext, hend⟩ := stringBody_fold hmark t
  unfold scanString
  generalize stringBody mark (fold t) = read' at htext hend ⊢
  generalize stringBody mark t = read at htext hend ⊢
  obtain ⟨text, ending, after⟩ := read
  obtain ⟨text', _, _⟩ := read'
  cases hend
  cases ending with
  | closed => exact .sound (congrArg Token.Kind.string htext) rfl
  | cut => exact ⟨congrArg Token.Kind.string htext, rfl, rfl⟩
  | broken =>
      refine ⟨congrArg Token.Kind.badString htext, rfl, ?_⟩
      simp only [Text.fold_drop, Option.map_some]

theorem scanUrl_fold (t : Text) : Folded (scanUrl t) (scanUrl (fold t)) := by
  obtain ⟨htext, hend⟩ := urlBody_fold (t.dropWhile isBlank)
  unfold scanUrl
  rw [dropWhile_fold isBlank_toLower]
  generalize urlBody (fold (t.dropWhile isBlank)) = read' at htext hend ⊢
  generalize urlBody (t.dropWhile isBlank) = read at htext hend ⊢
  obtain ⟨text, ending, after⟩ := read
  obtain ⟨text', _, _⟩ := read'
  cases hend
  cases ending with
  | closed => exact .sound (congrArg Token.Kind.url htext) rfl
  | cut => exact ⟨congrArg Token.Kind.url htext, rfl, rfl⟩
  | spaced => exact .sound (congrArg Token.Kind.badUrl htext) rfl
  | invalid fault noticed => exact ⟨congrArg Token.Kind.badUrl htext, rfl, rfl⟩

theorem scanName_fold (t : Text) : Folded (scanName t) (scanName (fold t)) := by
  obtain ⟨htext, hrest⟩ := name_fold t
  have hident := congrArg Token.Kind.ident htext
  have hfunction := congrArg Token.Kind.function htext
  unfold scanName
  simp only [hrest, Text.lower_eq_of_fold_eq htext]
  cases (name t).2 with
  | nil => exact .sound hident rfl
  | cons c after =>
      simp only [fold_cons, dropBlanksButLast_fold, startsQuoted_fold]
      refine .ite (toLower_eq_iff rfl c) (fun _ => ?_) fun _ => .sound hident rfl
      refine .ite .rfl (fun _ => ?_) fun _ => .sound hfunction rfl
      exact .ite .rfl (fun _ => .sound hfunction rfl) fun _ => scanUrl_fold _

theorem scanNumber_fold (t : Text) :
    Folded (scanNumber t) (scanNumber (fold t)) := by
  have hnumeral (n : Numeral) :
      letterCase.numeral (letterCase.numeral n) = letterCase.numeral n := by
    unfold Respelling.numeral
    rw [show letterCase.name (letterCase.name n.exponent) =
      letterCase.name n.exponent from fold_fold n.exponent]
  unfold scanNumber
  simp only [numeral_scan_fold, startsIdent_fold]
  refine .ite .rfl (fun _ => ?_) fun _ => ?_
  · obtain ⟨htext, hrest⟩ := name_fold (Numeral.scan t).2
    have hkind := congr (congrArg Token.Kind.dimension
      (hnumeral (Numeral.scan t).1)) htext
    exact .sound hkind hrest
  · cases (Numeral.scan t).2 with
    | nil => exact .sound (congrArg Token.Kind.number (hnumeral _)) rfl
    | cons c after =>
        exact .ite (toLower_eq_iff rfl c)
          (fun _ => .sound (congrArg Token.Kind.percentage (hnumeral _)) rfl)
          fun _ => .sound (congrArg Token.Kind.number (hnumeral _)) rfl

theorem scanHash_fold (t : Text) : Folded (scanHash t) (scanHash (fold t)) := by
  obtain ⟨htext, hrest⟩ := name_fold t
  unfold scanHash
  rw [nameChar?_isSome_fold, startsIdent_fold]
  exact .ite .rfl
    (fun _ => .sound (congrArg (Token.Kind.hash · _) htext) hrest)
    fun _ => .sound rfl rfl

/-- A source and the folded source are read token by token in the same way. -/
theorem scan_fold (c : Char) (rest : Text) :
    Folded (scan c rest) (scan c.toLower (fold rest)) := by
  have hself {x : Char} (hx : isLetter x = false) (h : c = x) : c.toLower = c := by
    rw [h, Text.toLower_of_not_isLetter hx]
  have hname := scanName_fold (c :: rest)
  have hnumber := scanNumber_fold (c :: rest)
  have hstart := startsNumber_fold (c :: rest)
  have hident := startsIdent_fold (c :: rest)
  have hescape := startsEscape_fold (c :: rest)
  rw [fold_cons] at hname hnumber hstart hident hescape
  obtain ⟨htext, hrest⟩ := name_fold rest
  unfold scan
  rw [isQuote_toLower, hstart, hident, hescape, isDigit_toLower,
    isIdentStart_toLower, isBlank_toLower, startsIdent_fold,
    Text.isPrefixOf_fold (by decide), Text.isPrefixOf_fold (by decide),
    takeWhile_fold isBlank_toLower, dropWhile_fold isBlank_toLower,
    Text.fold_drop, Text.fold_drop, Text.fold_drop]
  simp only [toLower_eq_iff (x := '/') rfl, toLower_eq_iff (x := '#') rfl,
    toLower_eq_iff (x := '+') rfl, toLower_eq_iff (x := '-') rfl,
    toLower_eq_iff (x := '.') rfl, toLower_eq_iff (x := '<') rfl,
    toLower_eq_iff (x := '@') rfl, toLower_eq_iff (x := '\\') rfl,
    head?_fold_eq_some (x := '*') rfl]
  refine .ite .rfl (fun _ => scanComment_fold _) fun _ => ?_
  refine .ite .rfl (fun h => ?quote) fun _ => ?_
  case quote =>
    have hquote : isLetter c = false := by
      rw [isQuote, Bool.or_eq_true, decide_eq_true_eq, decide_eq_true_eq] at h
      rcases h with rfl | rfl <;> rfl
    rw [Text.toLower_of_not_isLetter hquote]
    exact scanString_fold hquote rest
  refine .ite .rfl (fun _ => scanHash_fold rest) fun _ => ?_
  refine .ite .rfl (fun _ => hnumber) fun _ => ?_
  refine .ite .rfl (fun h => ?hyphen) fun _ => ?_
  case hyphen =>
    rw [hself rfl h] at hname ⊢
    refine .ite .rfl (fun _ => .sound rfl rfl) fun _ => ?_
    exact .ite .rfl (fun _ => hname) fun _ => .sound rfl rfl
  refine .ite .rfl (fun _ => .sound rfl rfl) fun _ => ?_
  refine .ite .rfl (fun h => ?keyword) fun _ => ?_
  case keyword =>
    rw [hself rfl h]
    exact .ite .rfl
      (fun _ => .sound (congrArg Token.Kind.atKeyword htext) hrest)
      fun _ => .sound rfl rfl
  refine .ite .rfl (fun h => ?backslash) fun _ => ?_
  case backslash =>
    rw [hself rfl h] at hname ⊢
    exact .ite .rfl (fun _ => hname) fun _ => ⟨rfl, rfl, rfl⟩
  refine .ite .rfl (fun _ => hnumber) fun _ => ?_
  refine .ite .rfl (fun _ => hname) fun h => ?_
  refine .ite .rfl (fun h => ?blank) fun _ => ?_
  case blank =>
    refine .sound (congrArg Token.Kind.whitespace ?_) rfl
    exact fold_fold (c :: rest.takeWhile isBlank)
  have hletter : isLetter c = false := by
    simp only [isIdentStart, Bool.or_eq_true, not_or, Bool.not_eq_true] at h
    exact h.1.1
  rw [Text.toLower_of_not_isLetter hletter]
  exact .sound rfl rfl

/-! ## Lexemes -/

theorem consumed_fold (t rest : Text) :
    consumed (fold t) (fold rest) = fold (consumed t rest) := by
  rw [consumed, Text.length_fold, Text.length_fold, Text.fold_take, consumed]

/-- A lexeme with the letters of its token and of its text folded. -/
def Lexeme.fold (l : Lexeme) : Lexeme where
  kind := letterCase.kind l.kind
  slice := Text.fold l.slice
  flaw := l.flaw.map fun (fault, before) =>
    (letterCase.fault fault, Text.fold before)

theorem Scan.Folded.lexeme {s s' : Scan} (h : Folded s s') (t : Text) :
    (s'.lexeme (fold t)).fold = (s.lexeme t).fold := by
  obtain ⟨kind, rest, flaw⟩ := s
  obtain ⟨kind', rest', flaw'⟩ := s'
  obtain ⟨hkind, hrest, hflaw⟩ := h
  simp only at hkind hrest hflaw
  unfold Scan.lexeme Lexeme.fold
  rw [hkind, hrest, hflaw, consumed_fold, fold_fold]
  cases flaw with
  | none => rfl
  | some found => 
      simp only [Option.map_some, consumed_fold, fold_fold]

theorem lexemes_fold (t : Text) :
    (lexemes (fold t)).map Lexeme.fold = (lexemes t).map Lexeme.fold := by
  fun_induction lexemes t with
  | case1 => rw [Text.fold_nil, lexemes_nil]
  | case2 c rest _ ih =>
      have hscan := scan_fold c rest
      have hlexeme := hscan.lexeme (c :: rest)
      rw [fold_cons] at hlexeme ⊢
      rw [lexemes_cons, List.map_cons, List.map_cons, hlexeme, hscan.rest, ih]

theorem advance_fold (p : Position) (t : Text) : p.advance (fold t) = p.advance t := by
  induction t generalizing p with
  | nil => rfl
  | cons c t ih =>
      have hstep : p.step c.toLower = p.step c := by
        unfold Position.step
        simp only [toLower_eq_iff (x := '\n') rfl]
      rw [fold_cons, Position.advance_cons, Position.advance_cons, hstep, ih]

theorem Lexeme.token_fold (l : Lexeme) (p : Position) :
    l.fold.token p = letterCase.token (l.token p) := by
  unfold Lexeme.token
  rw [show l.fold.slice = Text.fold l.slice from rfl, advance_fold]
  rfl

theorem Lexeme.error?_fold (l : Lexeme) (p : Position) :
    l.fold.error? p = (l.error? p).map letterCase.error := by
  obtain ⟨kind, slice, flaw⟩ := l
  cases flaw with
  | none => rfl
  | some found =>
      show some (SyntaxError.mk _ (p.advance (Text.fold found.2))) = _
      rw [advance_fold]
      rfl

theorem place_fold (p : Position) (ls : List Lexeme) :
    place p (ls.map Lexeme.fold) = letterCase.tokens (place p ls) := by
  induction ls generalizing p with
  | nil => rfl
  | cons l ls ih =>
      have hslice : p.advance l.fold.slice = p.advance l.slice :=
        advance_fold p l.slice
      rw [List.map_cons, place, place, hslice, ih, Lexeme.token_fold,
        Lexeme.error?_fold]
      unfold Respelling.tokens
      rw [List.map_cons, List.map_append]
      cases l.error? p <;> rfl

theorem normalize_fold (t : Text) : normalize (fold t) = fold (normalize t) := by
  fun_induction normalize t with
  | case1 => rfl
  | case2 rest ih =>
      rw [fold_cons_of_not_isLetter rfl, fold_cons_of_not_isLetter rfl, normalize, ih,
        fold_cons_of_not_isLetter rfl]
  | case3 c rest h ih =>
      -- No line end of two code points can come about by folding.
      have hline (after : Text) (hc : c.toLower = '\r')
          (hrest : fold rest = '\n' :: after) : False := by
        have hhead := (head?_fold_eq_some (x := '\n') rfl rest).1 (by rw [hrest]; rfl)
        obtain ⟨after, hrest⟩ := List.head?_eq_some_iff.1 hhead
        exact h after ((toLower_eq_iff rfl c).1 hc) hrest
      rw [fold_cons, normalize, ih, fold_cons]
      rotate_left
      · exact hline
      simp only [toLower_eq_iff (x := '\r') rfl, toLower_eq_iff (x := '\x0c') rfl,
        toLower_eq_iff (x := '\x00') rfl]
      congr 1
      split
      · rfl
      · split <;> rfl

theorem tokenize_fold (source : Text) :
    letterCase.tokens (tokenize (fold source)) = letterCase.tokens (tokenize source) := by
  rw [tokenize, tokenize, normalize_fold, ← place_fold, lexemes_fold, place_fold]

end StyleAudit.Source
