import Mathlib.Data.List.TakeWhile
import StyleAudit.Proofs.FoldedTokens
import StyleAudit.Proofs.Stepwise

/-!
# Reading up to the end of a line

What stands before a line feed is read without regard to what stands behind it,
up to the last token. No look ahead crosses a line feed: it is no digit, starts
no name and closes nothing. So a token that leaves something unread is the same
whatever is put behind the text after a line feed; this goes reader by reader,
and a reader whose result is not empty at the end has met no end on its way.

The last token is another matter. A name may end with an escape, which takes the
line feed in; a blank goes on with it; a URL may still be open. Tokens that end
with a mark of their own do none of that, and a text whose last token is closed
in this way, or a blank, is read as it was: `lexemes_before_lineFeed`.
-/

namespace StyleAudit

/-- Whether tokens of a kind end with a mark of their own, or are blank. -/
def Token.Kind.isClosed : Token.Kind → Bool
  | comment _ | cdo | cdc | semicolon | closing _ | whitespace _ => true
  | _ => false

namespace Source

variable (more : Text)

/-! ## Looking ahead -/

theorem takeWhile_lineFeed {p : Char → Bool} (hp : p '\n' = false) (t : Text) :
    (t ++ '\n' :: more).takeWhile p = t.takeWhile p := by
  induction t with
  | nil => simp [hp]
  | cons c t ih => simp only [List.cons_append, List.takeWhile_cons, ih]

theorem dropWhile_lineFeed {p : Char → Bool} (hp : p '\n' = false) (t : Text) :
    (t ++ '\n' :: more).dropWhile p = t.dropWhile p ++ '\n' :: more := by
  induction t with
  | nil => simp [hp]
  | cons c t ih =>
      simp only [List.cons_append, List.dropWhile_cons, ih]
      split <;> rfl

theorem head?_append_cons {p : Char → Bool} {d : Char} (hp : p d = false) (t : Text) :
    (t ++ d :: more).head?.any p = t.head?.any p := by
  cases t with
  | nil => simp [hp]
  | cons c t => rfl

theorem startsEscape_lineFeed (t : Text) :
    startsEscape (t ++ '\n' :: more) = startsEscape t := by
  cases t with
  | nil => rfl
  | cons c t =>
      rw [List.cons_append, startsEscape_cons, startsEscape_cons, head?_append_cons]
      rfl

theorem startsIdent_lineFeed (t : Text) :
    startsIdent (t ++ '\n' :: more) = startsIdent t := by
  cases t with
  | nil => rfl
  | cons c t =>
      have hescape := startsEscape_lineFeed more (c :: t)
      rw [List.cons_append] at hescape ⊢
      rw [startsIdent_cons, startsIdent_cons, hescape, startsEscape_lineFeed,
        head?_append_cons]
      rfl

theorem startsNumber_lineFeed (t : Text) :
    startsNumber (t ++ '\n' :: more) = startsNumber t := by
  cases t with
  | nil => rfl
  | cons c t =>
      rw [List.cons_append, startsNumber_cons, startsNumber_cons,
        head?_append_cons more (by decide)]
      cases t with
      | nil => simp
      | cons d t =>
          rw [List.cons_append, List.drop_succ_cons, List.drop_zero,
            head?_append_cons more (by decide)]
          rfl

/-! ## Names and numbers -/

theorem dropBlank_append {t : Text} (h : t ≠ []) (s : Text) :
    dropBlank (t ++ s) = dropBlank t ++ s := by
  cases t with
  | nil => exact absurd rfl h
  | cons c t =>
      rw [List.cons_append, dropBlank, dropBlank]
      split <;> rfl

theorem takeWhile_take_lineFeed {p : Char → Bool} (hp : p '\n' = false) (t : Text)
    (n : Nat) : ((t ++ '\n' :: more).take n).takeWhile p = (t.take n).takeWhile p := by
  induction t generalizing n with
  | nil => cases n <;> simp [hp]
  | cons c t ih =>
      cases n with
      | zero => rfl
      | succ n => simp only [List.cons_append, List.take_succ_cons, List.takeWhile_cons, ih]

/-- An escape that leaves something has not met the end. -/
theorem escape_lineFeed {t : Text} (h : (escape t).2 ≠ []) :
    escape (t ++ '\n' :: more) = ((escape t).1, (escape t).2 ++ '\n' :: more) := by
  cases t with
  | nil => exact absurd rfl h
  | cons c t =>
      rw [escape] at h
      rw [List.cons_append, escape, escape]
      split
      · next hhex =>
          simp only [if_pos hhex] at h
          dsimp only
          rw [takeWhile_take_lineFeed more (by decide)]
          generalize hdigits : (t.take 5).takeWhile isHex = digits at h ⊢
          have hlength : digits.length ≤ t.length := by
            rw [← hdigits]
            exact Nat.le_trans (List.takeWhile_prefix _).length_le
              (List.length_take_le' ..)
          have hleft : t.drop digits.length ≠ [] := by
            intro hnil
            rw [hnil] at h
            exact h rfl
          rw [List.drop_append_of_le_length hlength, dropBlank_append hleft]
      · rfl

theorem nameChar?_lineFeed_none {t : Text} (h : nameChar? t = none) :
    nameChar? (t ++ '\n' :: more) = none := by
  cases t with
  | nil => rfl
  | cons c t =>
      have hescape := startsEscape_lineFeed more (c :: t)
      rw [List.cons_append] at hescape ⊢
      rw [nameChar?] at h ⊢
      rw [hescape]
      split
      · next hident =>
          rw [if_pos hident] at h
          cases h
      · next hident =>
          rw [if_neg hident] at h
          split
          · next hstarts =>
              rw [if_pos hstarts] at h
              cases h
          · rfl

theorem nameChar?_lineFeed_some {t rest : Text} {d : Char}
    (h : nameChar? t = some (d, rest)) (hrest : rest ≠ []) :
    nameChar? (t ++ '\n' :: more) = some (d, rest ++ '\n' :: more) := by
  cases t with
  | nil => cases h
  | cons c t =>
      have hescape := startsEscape_lineFeed more (c :: t)
      rw [List.cons_append] at hescape ⊢
      rw [nameChar?] at h ⊢
      rw [hescape]
      split
      · next hident =>
          rw [if_pos hident] at h
          cases h
          rfl
      · next hident =>
          rw [if_neg hident] at h
          split
          · next hstarts =>
              rw [if_pos hstarts, Option.some.injEq] at h
              have hleft : (escape t).2 ≠ [] := by
                rw [h]
                exact hrest
              rw [escape_lineFeed more hleft, h]
          · next hstarts =>
              rw [if_neg hstarts] at h
              cases h

theorem name_lineFeed {t : Text} (h : (name t).2 ≠ []) :
    name (t ++ '\n' :: more) = ((name t).1, (name t).2 ++ '\n' :: more) := by
  fun_induction name t with
  | case1 t hnone => rw [name_eq_of_none (nameChar?_lineFeed_none more hnone)]
  | case2 t c rest hsome _ tail ih =>
      have hrest : rest ≠ [] := by
        rintro rfl
        exact h (List.suffix_nil.1 (name_suffix []))
      rw [name_eq_of_some (nameChar?_lineFeed_some more hsome hrest), ih h]

theorem takeSign_lineFeed (t : Text) :
    Numeral.takeSign (t ++ '\n' :: more) =
      ((Numeral.takeSign t).1, (Numeral.takeSign t).2 ++ '\n' :: more) := by
  cases t with
  | nil => rfl
  | cons c t =>
      rw [List.cons_append, Numeral.takeSign, Numeral.takeSign]
      split <;> rfl

theorem takeFraction_lineFeed (t : Text) :
    Numeral.takeFraction (t ++ '\n' :: more) =
      ((Numeral.takeFraction t).1, (Numeral.takeFraction t).2 ++ '\n' :: more) := by
  match t with
  | [] => rfl
  | [c] =>
      rw [List.singleton_append, takeFraction_cons]
      by_cases hc : c = '.'
      · subst hc
        rfl
      · simp [Numeral.takeFraction, hc]
  | c :: d :: rest =>
      rw [List.cons_append, List.cons_append, takeFraction_cons, takeFraction_cons,
        takeWhile_lineFeed more (by decide), dropWhile_lineFeed more (by decide)]
      split
      · split <;> rfl
      · rfl

theorem takeExponent_lineFeed (t : Text) :
    Numeral.takeExponent (t ++ '\n' :: more) =
      ((Numeral.takeExponent t).1, (Numeral.takeExponent t).2 ++ '\n' :: more) := by
  match t with
  | [] =>
      cases more with
      | nil => rfl
      | cons d more => simp [Numeral.takeExponent]
  | [c] =>
      simp only [List.singleton_append, Numeral.takeExponent]
      split
      · rfl
      · rfl
  | e :: s :: rest =>
      simp only [List.cons_append, Numeral.takeExponent,
        takeWhile_lineFeed more (p := isDigit) (by decide),
        dropWhile_lineFeed more (p := isDigit) (by decide),
        head?_append_cons more (p := isDigit) (d := '\n') (by decide)]
      split
      · split
        · rfl
        · split <;> rfl
      · rfl

theorem numeral_scan_lineFeed (t : Text) :
    Numeral.scan (t ++ '\n' :: more) =
      ((Numeral.scan t).1, (Numeral.scan t).2 ++ '\n' :: more) := by
  simp only [Numeral.scan, takeSign_lineFeed, takeWhile_lineFeed more (p := isDigit) (by decide),
    dropWhile_lineFeed more (p := isDigit) (by decide), takeFraction_lineFeed,
    takeExponent_lineFeed]

/-! ## Comments, strings and URLs -/

theorem closeComment?_append {t text after : Text}
    (h : closeComment? t = some (text, after)) :
    closeComment? (t ++ '\n' :: more) = some (text, after ++ '\n' :: more) := by
  induction t generalizing text after with
  | nil => cases h
  | cons c t ih =>
      have hhead : ((t ++ '\n' :: more).head? = some '/') = (t.head? = some '/') := by
        cases t <;> simp
      rw [closeComment?] at h
      rw [List.cons_append, closeComment?]
      simp only [hhead]
      split at h
      · next hend =>
          cases h
          rw [if_pos hend]
          cases t with
          | nil => simp at hend
          | cons d t => rfl
      · next hend =>
          obtain ⟨⟨inner, after⟩, hinner, heq⟩ := Option.map_eq_some_iff.1 h
          cases heq
          rw [if_neg hend, ih hinner]
          rfl

theorem stringBody_lineFeed {mark : Char} {t : Text}
    (h : (stringBody mark t).2.1 = .closed) :
    stringBody mark (t ++ '\n' :: more) =
      ((stringBody mark t).1, .closed, (stringBody mark t).2.2 ++ '\n' :: more) := by
  fun_induction stringBody mark t with
  | case1 => cases h
  | case2 rest => rw [List.cons_append, stringBody.eq_def]; simp
  | case3 => cases h
  | case4 => cases h
  | case5 after hc hline ih =>
      rw [List.cons_append, List.cons_append, stringBody, if_neg hc, if_neg hline,
        if_pos rfl]
      exact ih h
  | case6 d after hd _ decoded tail hc hline ih =>
      have hleft : (escape (d :: after)).2 ≠ [] := by
        intro hnil
        simp only [tail, decoded, hnil, stringBody] at h
        cases h
      have hescape := escape_lineFeed more hleft
      rw [List.cons_append] at hescape
      rw [List.cons_append, List.cons_append, stringBody, if_neg hc, if_neg hline,
        if_pos rfl]
      simp only [if_neg hd, hescape, ih h, decoded, tail]
  | case7 c rest hc hline hescape tail ih =>
      rw [List.cons_append, stringBody.eq_def]
      simp only [if_neg hc, if_neg hline, if_neg hescape, ih h, tail]

theorem badUrlRest_lineFeed {t : Text} (h : badUrlRest t ≠ []) :
    badUrlRest (t ++ '\n' :: more) = badUrlRest t ++ '\n' :: more := by
  fun_induction badUrlRest t with
  | case1 => exact absurd rfl h
  | case2 rest => rw [List.cons_append, badUrlRest, if_pos rfl]
  | case3 c rest hc hescape _ ih =>
      have hleft : (escape rest).2 ≠ [] := by
        intro hnil
        rw [hnil, badUrlRest] at h
        exact h rfl
      have hstarts := startsEscape_lineFeed more (c :: rest)
      rw [List.cons_append] at hstarts
      rw [List.cons_append, badUrlRest, if_neg hc, hstarts, if_pos hescape,
        escape_lineFeed more hleft]
      exact ih h
  | case4 c rest hc hescape ih =>
      have hstarts := startsEscape_lineFeed more (c :: rest)
      rw [List.cons_append] at hstarts
      rw [List.cons_append, badUrlRest, if_neg hc, hstarts, if_neg hescape]
      exact ih h

theorem dropWhile_append_of_ne_nil {p : Char → Bool} {t : Text}
    (h : t.dropWhile p ≠ []) (s : Text) :
    (t ++ s).dropWhile p = t.dropWhile p ++ s := by
  rw [List.dropWhile_append, if_neg]
  simpa using h

theorem takeWhile_append_of_dropWhile {p : Char → Bool} {t : Text}
    (h : t.dropWhile p ≠ []) (s : Text) : (t ++ s).takeWhile p = t.takeWhile p := by
  induction t with
  | nil => exact absurd rfl h
  | cons c t ih =>
      rw [List.cons_append, List.takeWhile_cons, List.takeWhile_cons]
      split
      · next hc =>
          rw [List.dropWhile_cons_of_pos hc] at h
          rw [ih h]
      · rfl

/-- A URL that has ended, be it at a blank, before the end of the text. -/
theorem urlBody_lineFeed {t : Text}
    (hend : (urlBody t).2.1 = .closed ∨ (urlBody t).2.1 = .spaced)
    (h : (urlBody t).2.2 ≠ []) :
    urlBody (t ++ '\n' :: more) =
      ((urlBody t).1, (urlBody t).2.1, (urlBody t).2.2 ++ '\n' :: more) := by
  fun_induction urlBody t with
  | case1 => exact absurd rfl h
  | case2 rest => rw [List.cons_append, urlBody.eq_def]; simp
  | case3 => exact absurd rfl h
  | case4 c rest hc hblank after hrest =>
      have hdrop := dropWhile_append_of_ne_nil (p := isBlank) (t := rest)
        (by simp [hrest]) ('\n' :: more)
      rw [List.cons_append, urlBody, if_neg hc, if_pos hblank, hdrop, hrest]
      simp
  | case5 c rest hc hblank d after hrest hd =>
      have hdrop := dropWhile_append_of_ne_nil (p := isBlank) (t := rest)
        (by simp [hrest]) ('\n' :: more)
      have hbad := badUrlRest_lineFeed more h
      rw [List.cons_append, urlBody, if_neg hc, if_pos hblank, hdrop, hrest]
      rw [List.cons_append] at hbad ⊢
      simp only [if_neg hd, hbad]
  | case6 => simp at hend
  | case7 rest _ decoded tail hc hblank hquote hescape ih =>
      have hleft : (escape rest).2 ≠ [] := by
        intro hnil
        simp only [tail, decoded, hnil, urlBody] at h
        exact h rfl
      have hstarts := startsEscape_lineFeed more ('\\' :: rest)
      rw [List.cons_append] at hstarts
      rw [List.cons_append, urlBody, if_neg hc, if_neg hblank, if_neg hquote,
        if_pos rfl, hstarts, if_pos hescape]
      simp only [escape_lineFeed more hleft, ih hend h, decoded, tail]
  | case8 => simp at hend
  | case9 c rest hc hblank hquote hback tail ih =>
      rw [List.cons_append, urlBody, if_neg hc, if_neg hblank, if_neg hquote,
        if_neg hback, ih hend h]

theorem dropBlanksButLast_append {t : Text} (h : t.dropWhile isBlank ≠ [])
    (s : Text) : dropBlanksButLast (t ++ s) = dropBlanksButLast t ++ s := by
  fun_induction dropBlanksButLast t with
  | case1 a b rest hblank ih =>
      rw [Bool.and_eq_true] at hblank
      rw [List.dropWhile_cons_of_pos hblank.1] at h
      rw [List.cons_append, List.cons_append, dropBlanksButLast, if_pos (by simp [hblank])]
      exact ih h
  | case2 a b rest hblank =>
      rw [List.cons_append, List.cons_append, dropBlanksButLast, if_neg hblank]
  | case3 t hshort =>
      rcases t with _ | ⟨c, _ | ⟨d, rest⟩⟩
      · exact absurd rfl h
      · cases hc : isBlank c with
        | true => simp [hc] at h
        | false =>
            cases s with
            | nil => rfl
            | cons d s => simp [dropBlanksButLast, hc]
      · exact absurd rfl (hshort c d rest)

/-- Blanks but one are dropped before what is not blank, if there is any. -/
theorem dropWhile_dropBlanksButLast (t : Text) :
    (dropBlanksButLast t).dropWhile isBlank = t.dropWhile isBlank := by
  fun_induction dropBlanksButLast t with
  | case1 a b rest hblank ih =>
      rw [Bool.and_eq_true] at hblank
      rw [ih, List.dropWhile_cons_of_pos hblank.1]
  | case2 => rfl
  | case3 => rfl

theorem startsQuoted_lineFeed {t : Text} (h : t ≠ []) :
    startsQuoted (t ++ '\n' :: more) = startsQuoted t := by
  cases t with
  | nil => exact absurd rfl h
  | cons c t =>
      rw [List.cons_append, startsQuoted, startsQuoted, head?_append_cons more (by decide)]

/-! ## One token -/

/-- A scan, and the scan of the same text with a line feed and more behind it.
Blanks at the end of the text go on with the blanks behind it. -/
inductive Scan.Follows : Scan → Scan → Prop where
  | same (kind : Token.Kind) (rest : Text) :
      Follows (.sound kind rest) (.sound kind (rest ++ '\n' :: more))
  | blank (u v : Text) :
      Follows (.sound (.whitespace u) [])
        (.sound (.whitespace v) (more.dropWhile isBlank))

/-- Whether a scan that has no flaw and is not cut short by the end of the text
goes on as it should. -/
def Scan.Continued (s s' : Scan) : Prop :=
  s.flaw = none → s.rest ≠ [] ∨ s.kind.isClosed = true → Scan.Follows more s s'

namespace Scan.Continued

variable {more} {s s' : Scan}

theorem sound (kind : Token.Kind) (t : Text) :
    Continued more (.sound kind t) (.sound kind (t ++ '\n' :: more)) :=
  fun _ _ => .same kind t

theorem of_flaw (h : s.flaw ≠ none) : Continued more s s' :=
  fun hflaw _ => absurd hflaw h

/-- A token that is not closed has to leave something. -/
theorem of_open {kind : Token.Kind} {t : Text} (hkind : kind.isClosed = false)
    (h : t ≠ [] → s' = .sound kind (t ++ '\n' :: more)) :
    Continued more (.sound kind t) s' := by
  intro _ hopen
  rcases hopen with hrest | hclosed
  · rw [h hrest]
    exact .same kind t
  · rw [show (Scan.sound kind t).kind = kind from rfl, hkind] at hclosed
    cases hclosed

theorem ite {p : Prop} [Decidable p] {a b a' b' : Scan}
    (ha : p → Continued more a a') (hb : ¬ p → Continued more b b') :
    Continued more (if p then a else b) (if p then a' else b') := by
  by_cases h : p
  · rw [if_pos h, if_pos h]
    exact ha h
  · rw [if_neg h, if_neg h]
    exact hb h

end Scan.Continued

open Scan (Continued)

theorem scanComment_lineFeed (t : Text) :
    Continued more (scanComment t) (scanComment (t ++ '\n' :: more)) := by
  unfold scanComment
  cases h : closeComment? t with
  | some found =>
      rw [closeComment?_append more h]
      exact .sound _ _
  | none => exact .of_flaw (by simp)

theorem scanString_lineFeed (mark : Char) (t : Text) :
    Continued more (scanString mark t) (scanString mark (t ++ '\n' :: more)) := by
  unfold scanString
  cases hend : (stringBody mark t).2.1 with
  | closed =>
      have hbody := stringBody_lineFeed more hend
      generalize stringBody mark t = body at hend hbody ⊢
      obtain ⟨text, ending, after⟩ := body
      cases hend
      rw [hbody]
      exact .sound _ _
  | broken =>
      generalize stringBody mark t = body at hend ⊢
      obtain ⟨text, ending, after⟩ := body
      cases hend
      exact .of_flaw (by simp)
  | cut =>
      generalize stringBody mark t = body at hend ⊢
      obtain ⟨text, ending, after⟩ := body
      cases hend
      exact .of_flaw (by simp)

theorem scanUrl_of_blank {t : Text} (h : t.dropWhile isBlank = []) :
    (scanUrl t).flaw ≠ none := by
  rw [scanUrl, h, urlBody]
  simp

theorem scanUrl_lineFeed (t : Text) :
    Continued more (scanUrl t) (scanUrl (t ++ '\n' :: more)) := by
  by_cases hblank : t.dropWhile isBlank = []
  · exact .of_flaw (scanUrl_of_blank hblank)
  · have hbody := urlBody_lineFeed more (t := t.dropWhile isBlank)
    unfold scanUrl
    rw [dropWhile_append_of_ne_nil hblank]
    generalize urlBody (t.dropWhile isBlank) = body at hbody ⊢
    obtain ⟨text, ending, after⟩ := body
    cases ending with
    | closed =>
        refine .of_open rfl fun hrest => ?_
        rw [hbody (.inl rfl) hrest]
    | spaced =>
        refine .of_open rfl fun hrest => ?_
        rw [hbody (.inr rfl) hrest]
    | cut => exact .of_flaw (by simp)
    | invalid fault noticed => exact .of_flaw (by simp)

theorem startsQuoted_of_blank {t : Text} (h : t.dropWhile isBlank = []) :
    startsQuoted t = false := by
  have hquote {c : Char} (hc : isBlank c = true) : isQuote c = false := by
    simp only [isBlank, Bool.or_eq_true, decide_eq_true_eq] at hc
    rcases hc with (rfl | rfl) | rfl <;> rfl
  rw [List.dropWhile_eq_nil_iff] at h
  cases t with
  | nil => rfl
  | cons c t =>
      rw [startsQuoted, hquote (h c List.mem_cons_self), Bool.false_or]
      cases t with
      | nil => simp
      | cons d t => simp [hquote (h d (by simp))]

theorem scanName_lineFeed (t : Text) :
    Continued more (scanName t) (scanName (t ++ '\n' :: more)) := by
  have hname := name_lineFeed more (t := t)
  unfold scanName
  generalize name t = read at hname ⊢
  obtain ⟨text, rest⟩ := read
  cases rest with
  | nil => exact .of_open rfl fun hrest => absurd rfl hrest
  | cons c after =>
      rw [hname (by simp)]
      refine .ite (fun _ => .ite (fun _ => ?url) fun _ => .sound _ _) fun _ => .sound _ _
      by_cases hblank : after.dropWhile isBlank = []
      · rw [← dropWhile_dropBlanksButLast] at hblank
        simp only [startsQuoted_of_blank hblank]
        exact .of_flaw (scanUrl_of_blank hblank)
      · have hinner : dropBlanksButLast after ≠ [] := by
          intro hnil
          rw [← dropWhile_dropBlanksButLast, hnil] at hblank
          exact hblank rfl
        show Continued more
          (if startsQuoted (dropBlanksButLast after) = true then _ else _)
          (if startsQuoted (dropBlanksButLast (after ++ '\n' :: more)) = true then
            .sound _ (dropBlanksButLast (after ++ '\n' :: more))
            else scanUrl (dropBlanksButLast (after ++ '\n' :: more)))
        rw [dropBlanksButLast_append hblank, startsQuoted_lineFeed more hinner]
        exact .ite (fun _ => .sound _ _) fun _ => scanUrl_lineFeed more _

theorem scanNumber_lineFeed (t : Text) :
    Continued more (scanNumber t) (scanNumber (t ++ '\n' :: more)) := by
  unfold scanNumber
  simp only [numeral_scan_lineFeed, startsIdent_lineFeed]
  generalize Numeral.scan t = read
  obtain ⟨value, rest⟩ := read
  refine .ite (fun _ => ?_) fun _ => ?_
  · refine .of_open rfl fun hrest => ?_
    rw [name_lineFeed more hrest]
  · cases rest with
    | nil => exact .of_open rfl fun hrest => absurd rfl hrest
    | cons c after => exact .ite (fun _ => .sound _ _) fun _ => .sound _ _

theorem scanHash_lineFeed (t : Text) :
    Continued more (scanHash t) (scanHash (t ++ '\n' :: more)) := by
  unfold scanHash
  cases hchar : nameChar? t with
  | none =>
      rw [nameChar?_lineFeed_none more hchar]
      exact .sound _ _
  | some read =>
      obtain ⟨d, rest⟩ := read
      refine .of_open rfl fun hleft => ?_
      have hrest : rest ≠ [] := by
        rintro rfl
        rw [name_eq_of_some hchar] at hleft
        exact hleft (List.suffix_nil.1 (name_suffix []))
      rw [nameChar?_lineFeed_some more hchar hrest, name_lineFeed more hleft,
        startsIdent_lineFeed]
      rfl

theorem isPrefixOf_append_cons {stop : Char} {p : Text} (hp : stop ∉ p) (t : Text) :
    p.isPrefixOf (t ++ stop :: more) = p.isPrefixOf t := by
  induction p generalizing t with
  | nil => rfl
  | cons c p ih =>
      rw [List.mem_cons, not_or] at hp
      cases t with
      | nil => simp [List.isPrefixOf, Ne.symm hp.1]
      | cons d t => simp [List.isPrefixOf, ih hp.2]

theorem drop_append_of_isPrefixOf {p t : Text} (h : p.isPrefixOf t = true) (s : Text) :
    (t ++ s).drop p.length = t.drop p.length ++ s :=
  List.drop_append_of_le_length (List.isPrefixOf_iff_prefix.1 h).length_le

theorem scan_lineFeed (c : Char) (rest : Text) :
    Continued more (scan c rest) (scan c (rest ++ '\n' :: more)) := by
  have hnumber := startsNumber_lineFeed more (c :: rest)
  have hident := startsIdent_lineFeed more (c :: rest)
  have hescape := startsEscape_lineFeed more (c :: rest)
  have hname := scanName_lineFeed more (c :: rest)
  have hscan := scanNumber_lineFeed more (c :: rest)
  have hhead : ((rest ++ '\n' :: more).head? = some '*') = (rest.head? = some '*') := by
    cases rest <;> simp
  rw [List.cons_append] at hnumber hident hescape hname hscan
  unfold scan
  rw [hnumber, hident, hescape, isPrefixOf_append_cons more (by decide),
    isPrefixOf_append_cons more (by decide), startsIdent_lineFeed]
  simp only [hhead]
  refine .ite (fun h => ?comment) fun _ => ?_
  case comment =>
    obtain ⟨d, t, rfl⟩ : ∃ d t, rest = d :: t := by
      cases rest with
      | nil => simp at h
      | cons d t => exact ⟨d, t, rfl⟩
    exact scanComment_lineFeed more t
  refine .ite (fun _ => scanString_lineFeed more c rest) fun _ => ?_
  refine .ite (fun _ => scanHash_lineFeed more rest) fun _ => ?_
  refine .ite (fun _ => hscan) fun _ => ?_
  refine .ite (fun _ => ?hyphen) fun _ => ?_
  case hyphen =>
    refine .ite (fun h => ?_) fun _ => .ite (fun _ => hname) fun _ => .sound _ _
    rw [show 2 = ['-', '>'].length from rfl, drop_append_of_isPrefixOf h]
    exact .sound _ _
  refine .ite (fun h => ?_) fun _ => ?_
  · rw [Bool.and_eq_true] at h
    rw [show 3 = ['!', '-', '-'].length from rfl, drop_append_of_isPrefixOf h.2]
    exact .sound _ _
  refine .ite (fun _ => ?keyword) fun _ => ?_
  case keyword =>
    refine .ite (fun _ => ?_) fun _ => .sound _ _
    refine .of_open rfl fun hrest => ?_
    rw [name_lineFeed more hrest]
  refine .ite (fun _ => ?backslash) fun _ => ?_
  case backslash => exact .ite (fun _ => hname) fun _ => .of_flaw (by simp)
  refine .ite (fun _ => hscan) fun _ => ?_
  refine .ite (fun _ => hname) fun _ => ?_
  refine .ite (fun _ => ?blank) fun _ => .sound _ _
  by_cases hrest : rest.dropWhile isBlank = []
  · intro _ _
    rw [hrest, List.dropWhile_append, if_pos (by simp [hrest])]
    exact .blank _ _
  · rw [takeWhile_append_of_dropWhile hrest, dropWhile_append_of_ne_nil hrest]
    exact .sound _ _

/-! ## Lexemes -/

theorem slices_lexemes (t : Text) : (lexemes t).flatMap Lexeme.slice = t := by
  induction t using lexemes.induct with
  | case1 => rw [lexemes_nil, List.flatMap_nil]
  | case2 c rest _ ih =>
      rw [lexemes_cons, List.flatMap_cons, ih]
      exact consumed_append ((scan_suffix c rest).trans (List.suffix_cons c rest))

/-- Whether lexemes are blank and spell a text. -/
structure Lexeme.Blank (u : Text) (ls : List Lexeme) : Prop where
  blank : ∀ l ∈ ls, l.kind.isWhitespace = true ∧ l.flaw = none
  slices : ls.flatMap Lexeme.slice = u

theorem Lexeme.Blank.whitespace (u v : Text) :
    Lexeme.Blank v [⟨.whitespace u, v, none⟩] :=
  ⟨by simp [Token.Kind.isWhitespace], by simp⟩

theorem Scan.lexeme_sound (t rest : Text) (kind : Token.Kind) :
    (Scan.sound kind rest).lexeme t = ⟨kind, consumed t rest, none⟩ := rfl

theorem scan_of_isBlank {c : Char} (h : isBlank c = true) (rest : Text) :
    scan c rest =
      .sound (.whitespace (c :: rest.takeWhile isBlank)) (rest.dropWhile isBlank) := by
  simp only [isBlank, Bool.or_eq_true, decide_eq_true_eq] at h
  rcases h with (rfl | rfl) | rfl <;> rfl

theorem lexemes_blank (t : Text) :
    ∃ gap, lexemes t = gap ++ lexemes (t.dropWhile isBlank) ∧
      Lexeme.Blank (t.takeWhile isBlank) gap := by
  cases t with
  | nil => exact ⟨[], rfl, by simp, rfl⟩
  | cons c rest =>
      by_cases hc : isBlank c = true
      · have hslice := consumed_of_append (c :: rest.takeWhile isBlank)
          (rest.dropWhile isBlank)
        rw [List.cons_append, List.takeWhile_append_dropWhile] at hslice
        rw [lexemes_cons, scan_of_isBlank hc, List.dropWhile_cons_of_pos hc,
          List.takeWhile_cons_of_pos hc, Scan.lexeme_sound, hslice]
        exact ⟨[_], rfl, .whitespace _ _⟩
      · rw [List.dropWhile_cons_of_neg hc, List.takeWhile_cons_of_neg hc]
        exact ⟨[], rfl, by simp, rfl⟩

theorem consumed_append_append (t rest s : Text) :
    consumed (t ++ s) (rest ++ s) = consumed t rest := by
  rw [consumed, consumed, List.length_append, List.length_append,
    Nat.add_sub_add_right, List.take_append_of_le_length (Nat.sub_le ..)]

/-- A text without flaws whose last token is closed or blank is read the same
with a line feed and more behind it, up to the blanks at its end; these go on
with the line feed and the blanks behind it. -/
theorem lexemes_before_lineFeed {t : Text} (hflaw : ∀ l ∈ lexemes t, l.flaw = none)
    (hlast : ∀ l ∈ (lexemes t).getLast?, l.kind.isClosed = true) :
    ∃ body gap gap' u, lexemes t = body ++ gap ∧
      lexemes (t ++ '\n' :: more) =
        body ++ (gap' ++ lexemes (more.dropWhile isBlank)) ∧
      Lexeme.Blank u gap ∧
      Lexeme.Blank (u ++ '\n' :: more.takeWhile isBlank) gap' := by
  induction t using lexemes.induct with
  | case1 =>
      obtain ⟨gap, heq, hgap⟩ := lexemes_blank ('\n' :: more)
      exact ⟨[], [], gap, [], by simp, heq, ⟨by simp, rfl⟩, hgap⟩
  | case2 c rest _ ih =>
      have hscan := scan_lineFeed more c rest
      rw [lexemes_cons] at hflaw hlast
      rw [List.cons_append, lexemes_cons, lexemes_cons]
      generalize scan c rest = s at ih hscan hflaw hlast ⊢
      generalize scan c (rest ++ '\n' :: more) = s' at hscan ⊢
      have hs : s.flaw = none := by
        simpa [Scan.lexeme] using hflaw _ List.mem_cons_self
      have hopen : s.rest ≠ [] ∨ s.kind.isClosed = true := by
        by_cases hrest : s.rest = []
        · rw [hrest, lexemes_nil] at hlast
          exact .inr (hlast _ rfl)
        · exact .inl hrest
      cases hscan hs hopen with
      | same kind left =>
          obtain ⟨body, gap, gap', u, hleft, hmore, hgap, hgap'⟩ :=
            ih (fun l hl => hflaw l (List.mem_cons_of_mem _ hl))
              (fun l hl => hlast l (by
                rw [List.getLast?_cons]
                simp_all))
          refine ⟨(Scan.sound kind left).lexeme (c :: rest) :: body, gap, gap', u,
            ?_, ?_, hgap, hgap'⟩
          · rw [List.cons_append, ← hleft]
          · rw [List.cons_append, ← hmore, Scan.lexeme_sound, Scan.lexeme_sound,
              ← List.cons_append, consumed_append_append]
            rfl
      | blank v w =>
          have hslice : consumed (c :: rest) [] = c :: rest := by
            simpa using consumed_of_append (c :: rest) []
          have hslice' : consumed (c :: (rest ++ '\n' :: more)) (more.dropWhile isBlank) =
              c :: rest ++ '\n' :: more.takeWhile isBlank := by
            simpa using consumed_of_append
              (c :: rest ++ '\n' :: more.takeWhile isBlank) (more.dropWhile isBlank)
          rw [Scan.lexeme_sound, Scan.lexeme_sound, hslice, hslice',
            show lexemes (Scan.sound (.whitespace v) []).rest = [] from lexemes_nil]
          exact ⟨[], [_], [_], c :: rest, rfl, rfl, .whitespace _ _, .whitespace _ _⟩

end Source

end StyleAudit
