import StyleAudit.Proofs.CommentTransparency

/-!
# Bad tokens that nothing reports

A string with a line feed in it and a URL that went wrong are kept as bad tokens. Of
the four places that make one, three note a flaw. The fourth is the URL that a blank
interrupts: what follows the blank is passed over up to the parenthesis, and the
token is made without a flaw. So a bad token is reported, unless the text it starts
at is such a URL; and strict mode, which stops at the first error, lets it through.

`UrlBroken` says of a text that it starts so, without reference to the reader: the
name, the parenthesis, code points that a URL may hold, a blank, and behind the
blanks something that is not the closing parenthesis.
-/

namespace StyleAudit

/-- Whether a token is a string or a URL that went wrong. -/
def Token.Kind.isBad : Token.Kind → Bool
  | .badString _ | .badUrl _ => true
  | _ => false

namespace Source

/-! ## URLs -/

/-- A code point that stands for itself in a URL without quotes. -/
def isUrlChar (c : Char) : Bool :=
  !(c = ')' || isBlank c || isQuote c || c = '(' || isUnprintable c || c = '\\')

/-- What of a text can stand in a URL without quotes, given as the text and what is
left of it. -/
inductive UrlRun : Text → Text → Prop where
  | done (t : Text) : UrlRun t t
  | plain {c : Char} {t rest : Text} (hc : isUrlChar c = true) (h : UrlRun t rest) :
      UrlRun (c :: t) rest
  | escaped {t rest : Text} (hescape : startsEscape ('\\' :: t) = true)
      (h : UrlRun (escape t).2 rest) : UrlRun ('\\' :: t) rest

/-- The contents of a URL have a blank in them, and not only at their end. -/
def UrlBreaks (t : Text) : Prop :=
  ∃ (b : Char) (inside : Text) (d : Char) (more : Text), UrlRun t (b :: inside) ∧
    isBlank b = true ∧ inside.dropWhile isBlank = d :: more ∧ d ≠ ')'

/-- A text that starts with a URL without quotes which a blank interrupts. -/
def UrlBroken (t : Text) : Prop :=
  Text.lower (name t).1 = ['u', 'r', 'l'] ∧
    ∃ after, (name t).2 = '(' :: after ∧ UrlBreaks (after.dropWhile isBlank)

theorem UrlBreaks.plain {c : Char} {t : Text} (hc : isUrlChar c = true) (h : UrlBreaks t) :
    UrlBreaks (c :: t) := by
  obtain ⟨b, inside, d, more, hrun, hend⟩ := h
  exact ⟨b, inside, d, more, .plain hc hrun, hend⟩

theorem UrlBreaks.escaped {t : Text} (hescape : startsEscape ('\\' :: t) = true)
    (h : UrlBreaks (escape t).2) : UrlBreaks ('\\' :: t) := by
  obtain ⟨b, inside, d, more, hrun, hend⟩ := h
  exact ⟨b, inside, d, more, .escaped hescape hrun, hend⟩

theorem urlBreaks_of_spaced {t : Text} (h : (urlBody t).2.1 = .spaced) : UrlBreaks t := by
  fun_induction urlBody t with
  | case1 | case2 | case3 | case4 | case6 | case8 => cases h
  | case5 c rest _ hblank d after hrest hd =>
      exact ⟨c, rest, d, after, .done _, hblank, hrest, hd⟩
  | case7 rest _ _ _ _ _ _ hescape ih => exact (ih h).escaped hescape
  | case9 c rest hclose hblank hother hback _ ih =>
      refine (ih h).plain ?_
      simp_all [isUrlChar]

theorem spaced_of_run {t : Text} {b d : Char} {inside more : Text}
    (h : UrlRun t (b :: inside)) (hblank : isBlank b = true)
    (hinside : inside.dropWhile isBlank = d :: more) (hd : d ≠ ')') :
    (urlBody t).2.1 = .spaced := by
  generalize hend : b :: inside = rest at h
  induction h with
  | done t =>
      subst hend
      have hb : b ≠ ')' := by
        rintro rfl
        cases hblank
      rw [urlBody]
      simp only [hb, hblank, if_false, if_true]
      split
      · next hnil => cases hnil.symm.trans hinside
      · next hcons =>
          cases hcons.symm.trans hinside
          rw [if_neg hd]
  | @plain c t rest hc _ ih =>
      rw [urlBody]
      simp_all [isUrlChar]
  | @escaped t rest hescape _ ih =>
      have hother : ¬ (isQuote '\\' || '\\' = '(' || isUnprintable '\\') = true := by decide
      rw [urlBody, if_neg (by decide), if_neg (by decide), if_neg hother, if_pos rfl,
        if_pos hescape]
      exact ih hend

theorem spaced_iff_urlBreaks {t : Text} : (urlBody t).2.1 = .spaced ↔ UrlBreaks t :=
  ⟨urlBreaks_of_spaced,
    fun ⟨_, _, _, _, hrun, hblank, hinside, hd⟩ => spaced_of_run hrun hblank hinside hd⟩

/-! ## Names -/

/-- The code points that tell one branch of `scan` from another, except those of names. -/
def marks : Text := "/\"'#+-.<@\\0123456789".toList

theorem mem_marks_of_isDigit {c : Char} (h : isDigit c = true) : c ∈ marks := by
  have hmarks : ("0123456789".toList.all fun d => marks.contains d) = true := by decide
  exact List.contains_iff_mem.1 (List.all_eq_true.1 hmarks c (isDigit_iff.1 h))

theorem not_mem_marks {c : Char} (h : isIdentStart c = true) : c ∉ marks := by
  have hmarks : (marks.all fun c => !isIdentStart c) = true := by decide
  intro hc
  have hother := List.all_eq_true.1 hmarks c hc
  rw [h] at hother
  cases hother

theorem isIdentStart_of_lower {c : Char} {t small : Text} (hc : isIdent c = true)
    (h : Text.lower (c :: t) = 'u' :: small) : isIdentStart c = true := by
  by_contra hstart
  have hmarks : (marks.all fun c => Text.lowerChar c = [c] ∧ c ≠ 'Σ' ∧ c ≠ 'u') = true := by
    decide +kernel
  have hc : c ∈ marks := by
    rw [isIdent, Bool.or_eq_true, Bool.or_eq_true, decide_eq_true_eq] at hc
    rcases hc with (hident | hdigit) | rfl
    · exact absurd hident hstart
    · exact mem_marks_of_isDigit hdigit
    · decide
  obtain ⟨hlower, hsigma, hu⟩ := of_decide_eq_true (List.all_eq_true.1 hmarks c hc)
  rw [Text.lower, Text.lowerAfter, if_neg hsigma, hlower] at h
  exact hu (List.cons.inj h).1

theorem scan_of_isIdentStart {c : Char} (h : isIdentStart c = true) (rest : Text) :
    scan c rest = scanName (c :: rest) := by
  have hne {x : Char} (hx : x ∈ marks) : c ≠ x := by
    rintro rfl
    exact not_mem_marks h hx
  have hquote : ¬ isQuote c = true := by
    simp [isQuote, hne (x := '"') (by decide), hne (x := '\'') (by decide)]
  have hnumber : ¬ ((c = '+' || c = '-' || c = '.') && startsNumber (c :: rest)) = true := by
    simp [hne (x := '+') (by decide), hne (x := '-') (by decide), hne (x := '.') (by decide)]
  rw [scan, if_neg (by simp [hne (x := '/') (by decide)]), if_neg hquote,
    if_neg (hne (by decide)), if_neg hnumber, if_neg (hne (by decide)),
    if_neg (by simp [hne (x := '<') (by decide)]), if_neg (hne (by decide)),
    if_neg (hne (by decide)), if_neg fun hdigit => not_mem_marks h (mem_marks_of_isDigit hdigit),
    if_pos h]

/-- A text that starts with the name of URLs is read as a name. -/
theorem scan_of_urlName {c : Char} {rest : Text}
    (h : Text.lower (name (c :: rest)).1 = ['u', 'r', 'l']) :
    scan c rest = scanName (c :: rest) := by
  cases hchar : nameChar? (c :: rest) with
  | none =>
      rw [name_eq_of_none hchar] at h
      cases h
  | some found =>
      rw [name_eq_of_some hchar] at h
      unfold nameChar? at hchar
      dsimp only at hchar
      split at hchar
      · next hident =>
          cases hchar
          exact scan_of_isIdentStart (isIdentStart_of_lower hident h) rest
      · split at hchar
        · next hescape =>
            have hback := hescape
            rw [startsEscape_cons, Bool.and_eq_true, decide_eq_true_eq] at hback
            obtain rfl := hback.1
            rw [scan_backslash, if_pos hescape]
        · cases hchar

/-! ## One token -/

/-- A scan that makes a bad token and notes no flaw. -/
def Scan.Silent (s : Scan) : Prop := s.kind.isBad = true ∧ s.flaw = none

@[simp] theorem Scan.silent_sound {kind : Token.Kind} {rest : Text} :
    (Scan.sound kind rest).Silent ↔ kind.isBad = true := and_iff_left rfl

theorem silent_scanUrl {t : Text} : (scanUrl t).Silent ↔ UrlBreaks (t.dropWhile isBlank) := by
  rw [← spaced_iff_urlBreaks, scanUrl]
  split <;> next hbody => simp [hbody, Scan.Silent, Scan.sound, Token.Kind.isBad]

theorem not_urlBreaks_quote {q : Char} (h : isQuote q = true) (t : Text) :
    ¬ UrlBreaks (q :: t) := by
  rintro ⟨b, inside, d, more, hrun, hblank, -⟩
  rw [isQuote, Bool.or_eq_true, decide_eq_true_eq, decide_eq_true_eq] at h
  rcases h with rfl | rfl <;> cases hrun with
  | done => cases hblank
  | plain hc => cases hc

/-- What starts with a quotation mark, or would after one blank, is no URL at all. -/
theorem not_urlBreaks_of_quoted {t : Text} (h : startsQuoted t = true) :
    ¬ UrlBreaks (t.dropWhile isBlank) := by
  have hquote {q : Char} (hq : isQuote q = true) : ¬ isBlank q = true := by
    rw [isQuote, Bool.or_eq_true, decide_eq_true_eq, decide_eq_true_eq] at hq
    rcases hq with rfl | rfl <;> decide
  cases t with
  | nil => cases h
  | cons c rest =>
      rw [startsQuoted, Bool.or_eq_true, Bool.and_eq_true] at h
      rcases h with hc | ⟨hblank, hrest⟩
      · rw [List.dropWhile_cons_of_neg (hquote hc)]
        exact not_urlBreaks_quote hc rest
      · cases rest with
        | nil => cases hrest
        | cons q more =>
            have hq : isQuote q = true := by simpa using hrest
            rw [List.dropWhile_cons_of_pos hblank, List.dropWhile_cons_of_neg (hquote hq)]
            exact not_urlBreaks_quote hq more

theorem silent_scanName {t : Text} : (scanName t).Silent ↔ UrlBroken t := by
  unfold scanName UrlBroken
  dsimp only
  cases (name t).2 with
  | nil => simp [Token.Kind.isBad]
  | cons c after =>
      dsimp only
      split
      · next hc =>
          subst hc
          split
          · next hurl =>
              have hinner := dropWhile_dropBlanksButLast after
              split
              · next hquoted =>
                  have hbreaks := not_urlBreaks_of_quoted hquoted
                  rw [hinner] at hbreaks
                  simp [Token.Kind.isBad, hbreaks]
              · rw [silent_scanUrl, hinner]
                simp [hurl]
          · next hurl => simp [Token.Kind.isBad, hurl]
      · next hc => simp [Token.Kind.isBad, hc]

theorem scanString_not_silent (mark : Char) (t : Text) : ¬ (scanString mark t).Silent := by
  unfold scanString
  split <;> simp [Scan.Silent, Scan.sound, Token.Kind.isBad]

theorem urlBroken_of_silent {c : Char} {rest : Text} (h : (scan c rest).Silent) :
    UrlBroken (c :: rest) := by
  cases hkind : (scan c rest).kind with
  | badUrl text =>
      have hreader : reader (scan c rest).kind = .name := by rw [hkind]; rfl
      rw [(scan_eq_scanName hreader).2] at h
      exact silent_scanName.1 h
  | badString text =>
      have hreader : reader (scan c rest).kind = .string := by rw [hkind]; rfl
      rw [(scan_eq_scanString hreader).2] at h
      exact absurd h (scanString_not_silent c rest)
  | _ =>
      rw [Scan.Silent, hkind] at h
      cases h.1

/-- A bad token is made in silence where a URL is interrupted by a blank, and nowhere else. -/
theorem silent_scan {c : Char} {rest : Text} :
    (scan c rest).Silent ↔ UrlBroken (c :: rest) := by
  refine ⟨fun h => urlBroken_of_silent h, fun h => ?_⟩
  rw [scan_of_urlName h.1]
  exact silent_scanName.2 h

/-! ## All tokens of a source -/

/-- The tokens of a list of lexemes that starts at a position, each with the error that
was found in it. -/
def readings (p : Position) : List Lexeme → List (Token × Option SyntaxError)
  | [] => []
  | l :: rest => (l.token p, l.error? p) :: readings (p.advance l.slice) rest

/-- The tokens of a source, each with the error that was found in it. -/
def reported (source : Text) : List (Token × Option SyntaxError) :=
  readings .start (lexemes (normalize source))

theorem place_readings (p : Position) (ls : List Lexeme) :
    place p ls =
      ⟨(readings p ls).map Prod.fst ++
          [⟨.eof, ⟨p.advance (ls.flatMap Lexeme.slice), p.advance (ls.flatMap Lexeme.slice)⟩⟩],
        (readings p ls).filterMap Prod.snd⟩ := by
  induction ls generalizing p with
  | nil => rfl
  | cons l ls ih =>
      rw [place, ih, readings, List.flatMap_cons, Position.advance_append]
      cases l.error? p <;> simp

/-- A URL that a blank interrupts starts at a place of a source. -/
def BrokenAt (source : Text) (p : Position) : Prop :=
  ∃ before after, normalize source = before ++ after ∧ Position.start.advance before = p ∧
    UrlBroken after

theorem brokenAt_iff {source before after : Text} (h : normalize source = before ++ after) :
    BrokenAt source (Position.start.advance before) ↔ UrlBroken after := by
  refine ⟨?_, fun hbroken => ⟨before, after, h, rfl, hbroken⟩⟩
  rintro ⟨front, back, hsource, hplace, hbroken⟩
  rw [h] at hsource
  obtain rfl : before = front := Position.eq_of_advance_eq hsource hplace.symm
  rwa [List.append_cancel_left hsource]

theorem silent_readings {source before after : Text}
    (h : normalize source = before ++ after) :
    ∀ r ∈ readings (Position.start.advance before) (lexemes after),
      r.1.kind.isBad = true ∧ r.2 = none ↔ BrokenAt source r.1.span.start := by
  induction after using lexemes.induct generalizing before with
  | case1 =>
      rw [lexemes_nil, readings]
      exact List.forall_mem_nil _
  | case2 c rest _ ih =>
      have happend := consumed_append ((scan_suffix c rest).trans (List.suffix_cons c rest))
      rw [lexemes_cons, readings, List.forall_mem_cons]
      constructor
      · rw [Lexeme.token, brokenAt_iff h, ← silent_scan]
        simp [Scan.Silent, Scan.lexeme, Lexeme.error?]
      · rw [← Position.advance_append]
        refine ih (h.trans ?_)
        rw [List.append_assoc]
        exact congrArg (before ++ ·) happend.symm

/-- A token that is bad has an error, unless a URL that a blank interrupts starts there. -/
theorem silent_reported {source : Text} {r : Token × Option SyntaxError}
    (h : r ∈ reported source) :
    r.1.kind.isBad = true ∧ r.2 = none ↔ BrokenAt source r.1.span.start :=
  silent_readings (List.nil_append (normalize source)).symm r h

theorem isBad_iff_brokenAt {source : Text} (h : (tokenize source).errors = [])
    {t : Token} (ht : t ∈ (tokenize source).tokens) :
    t.kind.isBad = true ↔ BrokenAt source t.span.start := by
  rw [tokenize, place_readings] at h ht
  rw [List.mem_append, List.mem_singleton] at ht
  rcases ht with ht | rfl
  · obtain ⟨r, hr, rfl⟩ := List.mem_map.1 ht
    have hsound : r.2 = none := by
      rw [List.filterMap_eq_nil_iff] at h
      exact h r hr
    rw [← silent_reported hr]
    exact (and_iff_left hsound).symm
  · rw [slices_lexemes, brokenAt_iff (List.append_nil _).symm]
    refine iff_of_false Bool.false_ne_true ?_
    rintro ⟨hname, -⟩
    rw [name_eq_of_none rfl] at hname
    cases hname

end Source

/-! ## The tree -/

namespace Node

open Component (tokensIn)

mutual

/-- The tokens that a node keeps, in its components and in the nodes of its block. -/
def tokens : Node → List Token
  | declaration d => ⟨.ident d.name, d.span⟩ :: tokensIn d.values
  | rule prelude block children =>
      tokensIn prelude ++ (block.component.tokens ++ tokensAll children)
  | atRule name span prelude block children =>
      ⟨.atKeyword name, span⟩ ::
        (tokensIn prelude ++ (tokensIn (block.map Block.component).toList ++ tokensAll children))
  | malformed values _ => tokensIn values

/-- The tokens that some nodes keep. -/
def tokensAll : List Node → List Token
  | [] => []
  | n :: rest => tokens n ++ tokensAll rest

end

mutual

theorem exists_own_of_mem_tokens {n : Node} {t : Token} (ht : t ∈ n.tokens) :
    ∃ m ∈ n.within, ∀ own, m.Own own → t ∈ own := by
  match n with
  | declaration d =>
      refine ⟨_, mem_within_self _, fun own hown => ?_⟩
      rw [tokens] at ht
      cases hown
      exact List.cons_subset_cons _ (List.subset_cons_self ..) ht
  | rule prelude block children =>
      rw [tokens, ← List.append_assoc, List.mem_append] at ht
      rcases ht with hself | hinner
      · refine ⟨_, mem_within_self _, fun own hown => ?_⟩
        cases hown
        exact hself
      · obtain ⟨m, hm, hown⟩ := exists_own_of_mem_tokensAll hinner
        rw [within]
        exact ⟨m, List.mem_cons_of_mem _ hm, hown⟩
  | atRule name span prelude block children =>
      rw [tokens, ← List.append_assoc, ← List.cons_append, List.mem_append] at ht
      rcases ht with hself | hinner
      · refine ⟨_, mem_within_self _, fun own hown => ?_⟩
        cases hown
        exact hself
      · obtain ⟨m, hm, hown⟩ := exists_own_of_mem_tokensAll hinner
        rw [within]
        exact ⟨m, List.mem_cons_of_mem _ hm, hown⟩
  | malformed values error =>
      refine ⟨_, mem_within_self _, fun own hown => ?_⟩
      rw [tokens] at ht
      cases hown
      exact ht

/-- Each token that some nodes keep is one that a node among or in them is written with. -/
theorem exists_own_of_mem_tokensAll {nodes : List Node} {t : Token} (ht : t ∈ tokensAll nodes) :
    ∃ m ∈ withinAll nodes, ∀ own, m.Own own → t ∈ own := by
  match nodes with
  | [] =>
      rw [tokensAll] at ht
      cases ht
  | n :: rest =>
      rw [tokensAll, List.mem_append] at ht
      rw [withinAll]
      rcases ht with hn | hrest
      · obtain ⟨m, hm, hown⟩ := exists_own_of_mem_tokens hn
        exact ⟨m, List.mem_append_left _ hm, hown⟩
      · obtain ⟨m, hm, hown⟩ := exists_own_of_mem_tokensAll hrest
        exact ⟨m, List.mem_append_right _ hm, hown⟩

end

end Node

namespace Stylesheet

open Source (tokenize reported BrokenAt)

theorem tokensAll_subset_of_strict {source : Text} {sheet : Stylesheet}
    (h : parse .strict source = .ok sheet) :
    Node.tokensAll sheet.rules ⊆ (tokenize source).tokens := by
  intro t ht
  obtain ⟨n, hn, hkept⟩ := Node.exists_own_of_mem_tokensAll ht
  obtain ⟨own, hown, hsub⟩ := writtenIn_of_parse (parse_tolerant_of_strict h) n hn
  exact List.mem_of_mem_filter (hsub.subset (hkept own hown))

/-- Which bad tokens are reported. The tokens of a source go with the errors that were
found in them; a bad one goes without, if and only if the text at its start is a URL
that a blank interrupts. So a stylesheet that is read in strict mode can have bad tokens,
in its tree too, but only where such a URL starts; and there it always has one. -/
theorem bad_tokens_reported (source : Text) :
    (∃ span, tokenize source =
        ⟨(reported source).map Prod.fst ++ [⟨.eof, span⟩],
          (reported source).filterMap Prod.snd⟩) ∧
      (∀ r ∈ reported source,
        r.1.kind.isBad = true ∧ r.2 = none ↔ BrokenAt source r.1.span.start) ∧
      ∀ sheet, parse .strict source = .ok sheet →
        Node.tokensAll sheet.rules ⊆ (tokenize source).tokens ∧
        ∀ t ∈ (tokenize source).tokens,
          t.kind.isBad = true ↔ BrokenAt source t.span.start :=
  ⟨⟨_, Source.place_readings _ _⟩, fun _ => Source.silent_reported, fun _ h =>
    ⟨tokensAll_subset_of_strict h, fun _ =>
      Source.isBad_iff_brokenAt (clean_of_strict h).2.1⟩⟩

theorem bad_tokens_reported_behind_rule :
    let source := "a\x7b\x7db\x7bc:URL( x\ty )\x7d".toList
    ∃ sheet, parse .strict source = .ok sheet ∧
      ∃ t ∈ (tokenize source).tokens, t.kind = .badUrl ['x'] ∧
        BrokenAt source t.span.start ∧ t.span.start = ⟨1, 8⟩ := by
  intro source
  have haccepted : (parse .strict source).map Stylesheet.errors = .ok [] := by decide +kernel
  have ht : ⟨.badUrl ['x'], ⟨⟨1, 8⟩, ⟨1, 18⟩⟩⟩ ∈ (tokenize source).tokens := by decide +kernel
  cases hparse : parse .strict source with
  | error e =>
      rw [hparse] at haccepted
      cases haccepted
  | ok sheet =>
      have hbad := ((bad_tokens_reported source).2.2 sheet hparse).2 _ ht
      exact ⟨sheet, rfl, _, ht, rfl, hbad.1 rfl, rfl⟩

/-- Strict mode accepts a bad URL. The blank in it is noted nowhere, and the token
stands among the tokens and in the tree. -/
theorem blank_in_url_accepted :
    let source := "a\x7bb:url(a b)\x7d".toList
    let bad : Token := ⟨.badUrl ['a'], ⟨⟨1, 5⟩, ⟨1, 13⟩⟩⟩
    (tokenize source).errors = [] ∧ bad ∈ (tokenize source).tokens ∧
      ∃ sheet, parse .strict source = .ok sheet ∧ bad ∈ Node.tokensAll sheet.rules := by
  intro source bad
  have htree : ((parse .strict source).map fun s => decide (bad ∈ Node.tokensAll s.rules)) =
      .ok true := by
    decide +kernel
  refine ⟨by decide +kernel, by decide +kernel, ?_⟩
  cases hparse : parse .strict source with
  | error e =>
      rw [hparse] at htree
      cases htree
  | ok sheet =>
      rw [hparse] at htree
      exact ⟨sheet, rfl, of_decide_eq_true (Except.ok.inj htree)⟩

end Stylesheet

end StyleAudit
