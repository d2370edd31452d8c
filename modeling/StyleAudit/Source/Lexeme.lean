import StyleAudit.Source.Escape
import StyleAudit.Source.SyntaxError
import StyleAudit.Source.Token
import StyleAudit.Text.Lower

/-!
# Reading one token

`scan` reads the token at the start of a non-empty text. Each of its parts takes the text from a
given point on and returns what it read and what is left; a flaw carries what was left when it
was noticed. The main statement is `scan_suffix`: what is left is a suffix of everything but the
first code point, so that reading token by token comes to an end and loses nothing.
-/

namespace StyleAudit.Source

open Token (Kind)

/-- What one step of reading found: the token, what is left, and a flaw with what was left when
it was noticed. -/
structure Scan where
  kind : Kind
  rest : Text
  flaw : Option (Fault × Text)
deriving DecidableEq, Repr

/-- A token without flaw. -/
def Scan.sound (kind : Kind) (rest : Text) : Scan := ⟨kind, rest, none⟩

/-! ## Comments -/

/-- The text of a comment up to its end mark, and what follows; none if the mark is missing. -/
def closeComment? : Text → Option (Text × Text)
  | [] => none
  | c :: rest =>
    if c = '*' && rest.head? = some '/' then some ([], rest.drop 1)
    else (closeComment? rest).map fun (text, after) => (c :: text, after)

/-- A comment whose two opening marks have been read; the flaw is noticed before the second. -/
def scanComment (rest : Text) : Scan :=
  match closeComment? rest with
  | some (text, after) => .sound (.comment ('/' :: '*' :: text ++ ['*', '/'])) after
  | none => ⟨.comment ('/' :: '*' :: rest), [], some (.commentNotClosed, '*' :: rest)⟩

/-! ## Strings -/

/-- How a string can end: by its quote, before a line feed, or with the source. -/
inductive StringEnd where
  | closed
  | broken
  | cut
deriving DecidableEq, Repr

/-- The text of a string between the quotes `mark`, how it ends, and what follows. A backslash
before a line feed continues the string on the next line. -/
def stringBody (mark : Char) (t : Text) : Text × StringEnd × Text :=
  match t with
  | [] => ([], .cut, [])
  | c :: rest =>
    if c = mark then ([], .closed, rest)
    else if c = '\n' then ([], .broken, c :: rest)
    else if c = '\\' then
      match rest with
      | [] => ([], .cut, [])
      | d :: after =>
        if d = '\n' then stringBody mark after
        else
          have := (escape_cons_suffix d after).length_le
          let decoded := escape (d :: after)
          let more := stringBody mark decoded.2
          (decoded.1 :: more.1, more.2)
    else
      let more := stringBody mark rest
      (c :: more.1, more.2)
termination_by t.length
decreasing_by all_goals simp only [List.length_cons] at *; omega

/-- A string whose opening quote has been read. A broken string is noticed behind the line feed,
which is nevertheless left to be read. -/
def scanString (mark : Char) (rest : Text) : Scan :=
  match stringBody mark rest with
  | (text, .closed, after) => .sound (.string text) after
  | (text, .cut, after) => ⟨.string text, after, some (.stringNotClosed, after)⟩
  | (text, .broken, after) => ⟨.badString text, after, some (.stringBroken, after.drop 1)⟩

/-! ## URLs -/

/-- What follows a URL that went wrong: everything behind the next parenthesis that closes and
is not escaped. -/
def badUrlRest (t : Text) : Text :=
  match t with
  | [] => []
  | c :: rest =>
    if c = ')' then rest
    else if startsEscape (c :: rest) then
      have := (escape_suffix rest).length_le
      badUrlRest (escape rest).2
    else badUrlRest rest
termination_by t.length
decreasing_by all_goals simp only [List.length_cons] at *; omega

/-- How a URL can end: by its parenthesis, with the source, at a blank that is followed by
something else, or at a code point that is not allowed; the last with what follows it. -/
inductive UrlEnd where
  | closed
  | cut
  | spaced
  | invalid (fault : Fault) (rest : Text)
deriving DecidableEq, Repr

/-- The text of a URL without quotes, how it ends, and what follows. -/
def urlBody (t : Text) : Text × UrlEnd × Text :=
  match t with
  | [] => ([], .cut, [])
  | c :: rest =>
    if c = ')' then ([], .closed, rest)
    else if isBlank c then
      match rest.dropWhile isBlank with
      | [] => ([], .cut, [])
      | d :: after =>
        if d = ')' then ([], .closed, after) else ([], .spaced, badUrlRest (d :: after))
    else if isQuote c || c = '(' || isUnprintable c then
      ([], .invalid .urlCharacter rest, badUrlRest rest)
    else if c = '\\' then
      if startsEscape (c :: rest) then
        have := (escape_suffix rest).length_le
        let decoded := escape rest
        let more := urlBody decoded.2
        (decoded.1 :: more.1, more.2)
      else ([], .invalid .urlBackslash rest, badUrlRest rest)
    else
      let more := urlBody rest
      (c :: more.1, more.2)
termination_by t.length
decreasing_by all_goals simp only [List.length_cons] at *; omega

/-- A URL whose parenthesis has been read. -/
def scanUrl (rest : Text) : Scan :=
  match urlBody (rest.dropWhile isBlank) with
  | (text, .closed, after) => .sound (.url text) after
  | (text, .cut, after) => ⟨.url text, after, some (.urlNotClosed, after)⟩
  | (text, .spaced, after) => .sound (.badUrl text) after
  | (text, .invalid fault noticed, after) => ⟨.badUrl text, after, some (fault, noticed)⟩

/-- A text without the blanks it starts with, the last of them excepted. -/
def dropBlanksButLast : Text → Text
  | a :: b :: rest =>
    if isBlank a && isBlank b then dropBlanksButLast (b :: rest) else a :: b :: rest
  | t => t

/-- Whether a text starts with a quotation mark, at once or after one blank. -/
def startsQuoted : Text → Bool
  | [] => false
  | c :: rest => isQuote c || (isBlank c && rest.head?.any isQuote)

/-! ## Names and numbers -/

/-- A name: an identifier, or a function if a parenthesis follows. After the name `url` the
parenthesis starts a URL, unless that is quoted: then it is a function that has taken all but one
of the blanks before the quotation mark. -/
def scanName (t : Text) : Scan :=
  let read := name t
  match read.2 with
  | [] => .sound (.ident read.1) []
  | c :: after =>
    if c = '(' then
      if Text.lower read.1 = ['u', 'r', 'l'] then
        let inner := dropBlanksButLast after
        if startsQuoted inner then .sound (.function read.1) inner else scanUrl inner
      else .sound (.function read.1) after
    else .sound (.ident read.1) (c :: after)

/-- A number with a unit, with a percent sign, or alone. -/
def scanNumber (t : Text) : Scan :=
  let read := Numeral.scan t
  if startsIdent read.2 then .sound (.dimension read.1 (name read.2).1) (name read.2).2
  else match read.2 with
    | [] => .sound (.number read.1) []
    | c :: after =>
      if c = '%' then .sound (.percentage read.1) after else .sound (.number read.1) (c :: after)

/-- A hash, or the mark alone if no name follows. -/
def scanHash (rest : Text) : Scan :=
  if (nameChar? rest).isSome then .sound (.hash (name rest).1 (startsIdent rest)) (name rest).2
  else .sound (.delim '#') rest

/-- The code points that are always tokens of their own. -/
def punctuation : Char → Kind
  | '(' => .opening .round
  | ')' => .closing .round
  | '[' => .opening .square
  | ']' => .closing .square
  | '\x7b' => .opening .curly
  | '\x7d' => .closing .curly
  | ',' => .comma
  | ':' => .colon
  | ';' => .semicolon
  | c => .delim c

/-- The token at the start of a text, which is given as its first code point and the others. -/
def scan (c : Char) (rest : Text) : Scan :=
  if c = '/' && rest.head? = some '*' then scanComment (rest.drop 1)
  else if isQuote c then scanString c rest
  else if c = '#' then scanHash rest
  else if (c = '+' || c = '-' || c = '.') && startsNumber (c :: rest) then scanNumber (c :: rest)
  else if c = '-' then
    if ['-', '>'].isPrefixOf rest then .sound .cdc (rest.drop 2)
    else if startsIdent (c :: rest) then scanName (c :: rest)
    else .sound (.delim c) rest
  else if c = '<' && ['!', '-', '-'].isPrefixOf rest then .sound .cdo (rest.drop 3)
  else if c = '@' then
    if startsIdent rest then .sound (.atKeyword (name rest).1) (name rest).2
    else .sound (.delim c) rest
  else if c = '\\' then
    if startsEscape (c :: rest) then scanName (c :: rest)
    else ⟨.delim c, rest, some (.strayBackslash, rest)⟩
  else if isDigit c then scanNumber (c :: rest)
  else if isIdentStart c then scanName (c :: rest)
  else if isBlank c then .sound (.whitespace (c :: rest.takeWhile isBlank)) (rest.dropWhile isBlank)
  else .sound (punctuation c) rest

/-! ## Nothing is read twice and something is always read -/

theorem closeComment?_suffix {t text after : Text} (h : closeComment? t = some (text, after)) :
    after <:+ t := by
  induction t generalizing text after with
  | nil => cases h
  | cons c rest ih =>
    unfold closeComment? at h
    split at h
    · cases h
      exact (List.drop_suffix ..).trans (List.suffix_cons ..)
    · obtain ⟨⟨text', after'⟩, hrest, heq⟩ := Option.map_eq_some_iff.1 h
      cases heq
      exact (ih hrest).trans (List.suffix_cons ..)

theorem scanComment_suffix (t : Text) : (scanComment t).rest <:+ t := by
  unfold scanComment
  split
  · next h => exact closeComment?_suffix h
  · exact List.nil_suffix

theorem stringBody_suffix (mark : Char) (t : Text) : (stringBody mark t).2.2 <:+ t := by
  fun_induction stringBody mark t with
  | case1 => exact List.suffix_refl _
  | case2 rest => exact List.suffix_cons ..
  | case3 rest => exact List.suffix_refl _
  | case4 => exact List.nil_suffix
  | case5 _ _ after ih =>
    exact ih.trans ((List.suffix_cons ..).trans (List.suffix_cons ..))
  | case6 _ _ d after _ _ _ _ ih =>
    exact ih.trans ((escape_suffix _).trans (List.suffix_cons ..))
  | case7 _ _ _ _ _ _ ih => exact ih.trans (List.suffix_cons ..)

theorem scanString_suffix (mark : Char) (t : Text) : (scanString mark t).rest <:+ t := by
  have h := stringBody_suffix mark t
  unfold scanString
  split <;> next hb => rw [hb] at h; exact h

theorem badUrlRest_suffix (t : Text) : badUrlRest t <:+ t := by
  fun_induction badUrlRest t with
  | case1 => exact List.suffix_refl _
  | case2 => exact List.suffix_cons ..
  | case3 _ rest _ _ _ ih => exact ih.trans ((escape_suffix rest).trans (List.suffix_cons ..))
  | case4 _ rest _ _ ih => exact ih.trans (List.suffix_cons ..)

theorem urlBody_suffix (t : Text) : (urlBody t).2.2 <:+ t := by
  fun_induction urlBody t with
  | case1 => exact List.suffix_refl _
  | case2 => exact List.suffix_cons ..
  | case3 => exact List.nil_suffix
  | case4 c rest _ _ after h =>
    have : after <:+ rest.dropWhile isBlank := h ▸ List.suffix_cons ..
    exact this.trans ((List.dropWhile_suffix _).trans (List.suffix_cons ..))
  | case5 c rest _ _ d after h =>
    have : d :: after <:+ rest := h ▸ List.dropWhile_suffix _
    exact (badUrlRest_suffix _).trans (this.trans (List.suffix_cons ..))
  | case6 => exact (badUrlRest_suffix _).trans (List.suffix_cons ..)
  | case7 rest _ _ _ _ _ _ _ ih =>
    exact ih.trans ((escape_suffix rest).trans (List.suffix_cons ..))
  | case8 => exact (badUrlRest_suffix _).trans (List.suffix_cons ..)
  | case9 _ rest _ _ _ _ _ ih => exact ih.trans (List.suffix_cons ..)

theorem scanUrl_suffix (t : Text) : (scanUrl t).rest <:+ t := by
  have h := (urlBody_suffix (t.dropWhile isBlank)).trans (List.dropWhile_suffix _)
  unfold scanUrl
  split <;> next hb => rw [hb] at h; exact h

theorem dropBlanksButLast_suffix (t : Text) : dropBlanksButLast t <:+ t := by
  fun_induction dropBlanksButLast t with
  | case1 a b rest _ ih => exact ih.trans (List.suffix_cons ..)
  | case2 => exact List.suffix_refl _
  | case3 => exact List.suffix_refl _

/-- What a name leaves is what reading the name left, or less. -/
theorem scanName_suffix (t : Text) : (scanName t).rest <:+ (name t).2 := by
  unfold scanName
  simp only
  split
  · exact List.nil_suffix
  · next c after h =>
    rw [h]
    split
    · split
      · split
        · exact (dropBlanksButLast_suffix after).trans (List.suffix_cons ..)
        · exact (scanUrl_suffix _).trans
            ((dropBlanksButLast_suffix after).trans (List.suffix_cons ..))
      · exact List.suffix_cons ..
    · exact List.suffix_refl _

theorem scanNumber_suffix (t : Text) : (scanNumber t).rest <:+ (Numeral.scan t).2 := by
  unfold scanNumber
  simp only
  split
  · exact name_suffix _
  · split
    · exact List.nil_suffix
    · next h =>
      rw [h]
      split
      · exact List.suffix_cons ..
      · exact List.suffix_refl _

theorem scanHash_suffix (t : Text) : (scanHash t).rest <:+ t := by
  unfold scanHash
  split
  · exact name_suffix t
  · exact List.suffix_refl _

/-- A text that starts an identifier starts with a code point of a name. -/
theorem nameChar?_of_startsIdent {t : Text} (h : startsIdent t = true) :
    (nameChar? t).isSome := by
  cases t with
  | nil => cases h
  | cons c rest =>
    unfold startsIdent at h
    unfold nameChar?
    simp only at h ⊢
    split at h
    · next hc => simp [hc, isIdent]
    · split
      · rfl
      · next hi =>
        have hs : isIdentStart c = false := by
          simp only [isIdent, Bool.or_eq_true, not_or, Bool.not_eq_true] at hi
          exact hi.1.1
        simp only [hs, Bool.false_or] at h
        rw [if_pos h]
        rfl

theorem nameChar?_of_startsEscape {t : Text} (h : startsEscape t = true) :
    (nameChar? t).isSome := by
  cases t with
  | nil => cases h
  | cons c rest =>
    unfold nameChar?
    simp only
    split
    · rfl
    · simp

/-- A text that starts a number loses its first code point to it. -/
theorem numeral_scan_suffix {c : Char} {rest : Text} (h : startsNumber (c :: rest) = true) :
    (Numeral.scan (c :: rest)).2 <:+ rest := by
  rw [Numeral.scan_rest]
  have tail (t : Text) : (Numeral.takeExponent (Numeral.takeFraction t).2).2 <:+ t :=
    (Numeral.takeExponent_suffix _).trans (Numeral.takeFraction_suffix _)
  by_cases hsign : c = '+' ∨ c = '-'
  · have : (Numeral.takeSign (c :: rest)).2 = rest := by
      rcases hsign with rfl | rfl <;> rfl
    rw [this]
    exact (tail _).trans (List.dropWhile_suffix _)
  · have hs : (Numeral.takeSign (c :: rest)).2 = c :: rest := by
      unfold Numeral.takeSign
      simp only
      rw [if_neg (by simpa using hsign)]
    rw [hs]
    by_cases hd : isDigit c = true
    · rw [List.dropWhile_cons, if_pos hd]
      exact (tail _).trans (List.dropWhile_suffix _)
    · rw [List.dropWhile_cons, if_neg hd]
      have hdot : c = '.' := by
        unfold startsNumber at h
        simp only at h
        rw [if_neg (by simpa using hsign)] at h
        split at h
        · assumption
        · exact absurd h hd
      subst hdot
      have hr : rest.head?.any isDigit = true := by
        simpa [startsNumber] using h
      cases rest with
      | nil => cases hr
      | cons d more =>
        have hd' : isDigit d = true := by simpa using hr
        have : (Numeral.takeFraction ('.' :: d :: more)).2 = more.dropWhile isDigit := by
          simp [Numeral.takeFraction, hd']
        rw [this]
        exact (Numeral.takeExponent_suffix _).trans
          ((List.dropWhile_suffix _).trans (List.suffix_cons ..))

theorem Scan.rest_ite {p : Prop} [Decidable p] {a b : Scan} {t : Text}
    (ha : p → a.rest <:+ t) (hb : ¬ p → b.rest <:+ t) : (if p then a else b).rest <:+ t := by
  by_cases h : p
  · rw [if_pos h]
    exact ha h
  · rw [if_neg h]
    exact hb h

/-- A token takes at least the first code point, and what it leaves is a suffix of the others. -/
theorem scan_suffix (c : Char) (rest : Text) : (scan c rest).rest <:+ rest := by
  have hname (h : (nameChar? (c :: rest)).isSome) : (scanName (c :: rest)).rest <:+ rest :=
    (scanName_suffix _).trans (name_cons_suffix h)
  have hnumber (h : startsNumber (c :: rest) = true) : (scanNumber (c :: rest)).rest <:+ rest :=
    (scanNumber_suffix _).trans (numeral_scan_suffix h)
  have hself : rest <:+ rest := List.suffix_refl _
  unfold scan
  refine Scan.rest_ite (fun _ => ?comment) fun _ => ?_
  case comment => exact (scanComment_suffix _).trans (List.drop_suffix ..)
  refine Scan.rest_ite (fun _ => scanString_suffix c rest) fun _ => ?_
  refine Scan.rest_ite (fun _ => scanHash_suffix rest) fun _ => ?_
  refine Scan.rest_ite (fun h => hnumber (Bool.and_eq_true_iff.1 h).2) fun _ => ?_
  refine Scan.rest_ite (fun _ => ?hyphen) fun _ => ?_
  case hyphen =>
    refine Scan.rest_ite (fun _ => List.drop_suffix ..) fun _ => ?_
    exact Scan.rest_ite (fun h => hname (nameChar?_of_startsIdent h)) fun _ => hself
  refine Scan.rest_ite (fun _ => List.drop_suffix ..) fun _ => ?_
  refine Scan.rest_ite (fun _ => ?keyword) fun _ => ?_
  case keyword => exact Scan.rest_ite (fun _ => name_suffix rest) fun _ => hself
  refine Scan.rest_ite (fun _ => ?backslash) fun _ => ?_
  case backslash =>
    exact Scan.rest_ite (fun h => hname (nameChar?_of_startsEscape h)) fun _ => hself
  refine Scan.rest_ite (fun h => hnumber ?_) fun _ => ?_
  · have h1 : c ≠ '+' := fun e => by subst e; cases h
    have h2 : c ≠ '-' := fun e => by subst e; cases h
    have h3 : c ≠ '.' := fun e => by subst e; cases h
    simp [startsNumber, h1, h2, h3, h]
  refine Scan.rest_ite (fun h => hname ?_) fun _ => ?_
  · simp [nameChar?, isIdent, h]
  exact Scan.rest_ite (fun _ => List.dropWhile_suffix _) fun _ => hself

end StyleAudit.Source
