import StyleAudit.Proofs.Interruption

/-!
# Putting a comment in

A scan that leaves `v ++ x` is the same scan if `x` is exchanged for a text that
starts with a slash, unless what it leaves is one of a few that `Token.Kind.Leaves`
excludes. This goes branch by branch: the tests of a scan come out as they did
(`Stops.ite`), for each of them looks at what the reader behind it would take.

What a token leaves in front of the comment is spelled by the tokens behind it. So
the excluded cases can be told by the kinds of the last two tokens in front of the
comment (`Token.Kind.Admit`), and an induction on the text carries the scans over
to the lexemes. A comment itself is one lexeme, whatever is in front of it.
-/

namespace StyleAudit

/-- Whether tokens of a kind open a URL that is quoted. -/
def Token.Kind.isUrlFunction : Token.Kind → Bool
  | function name => Text.lower name = ['u', 'r', 'l']
  | _ => false

/-- Whether tokens of a kind are strings that the end of a line has broken off. -/
def Token.Kind.isBadString : Token.Kind → Bool
  | badString _ => true
  | _ => false

/-- What a token may leave in front of the place where a comment is put in. A
backslash would escape the mark of the comment, be it behind a hyphen or not; a
string that was broken off would go on; a URL would not be seen to be quoted. -/
structure Token.Kind.Leaves (kind : Token.Kind) (v : Text) : Prop where
  backslash : v ≠ ['\\']
  hyphen : v ≠ ['-', '\\']
  broken : kind.isBadString = true → v ≠ []
  stray : kind = .delim '\\' → v ≠ []
  quoted : kind.isUrlFunction = true → v ≠ [] ∧ ∀ c, v = [c] → Source.isBlank c = false

/-- Whether a comment may be put in behind tokens of some kinds. The last of them may
not be such that the mark of the comment would go on with it, nor the blank that a
URL has left in front of its quotation mark. -/
structure Token.Kind.Admit (kinds : List Token.Kind) : Prop where
  last : ∀ k ∈ kinds.getLast?,
    k.isBadString = false ∧ k ≠ .delim '\\' ∧ k.isUrlFunction = false
  quoted : ∀ init k l, kinds = init ++ [k, l] → k.isUrlFunction = true →
    l.isWhitespace = false

theorem Token.Kind.Admit.tail {k : Token.Kind} {kinds : List Token.Kind}
    (h : Admit (k :: kinds)) : Admit kinds := by
  refine ⟨fun l hl => h.last l ?_, fun init f l heq => h.quoted (k :: init) f l (by rw [heq]; rfl)⟩
  rw [List.getLast?_cons, Option.mem_def.1 hl]
  rfl

theorem Token.Kind.Admit.concat {before : List Token} {t : Token}
    (hbroken : t.kind.isBadString = false) (hstray : t.kind ≠ .delim '\\')
    (hurl : t.kind.isUrlFunction = false)
    (hquoted : ∀ f ∈ before.getLast?, f.kind.isUrlFunction = true →
      t.kind.isWhitespace = false) :
    Admit ((before ++ [t]).map Token.kind) := by
  rw [List.map_append, List.map_singleton]
  refine ⟨fun k hk => ?last, fun init k l heq hk => ?quoted⟩
  case last =>
    rw [List.getLast?_concat, Option.mem_some_iff] at hk
    subst hk
    exact ⟨hbroken, hstray, hurl⟩
  case quoted =>
    obtain ⟨hbefore, hlast⟩ := List.append_inj' (heq.trans (List.append_cons init k [l])) rfl
    obtain rfl : t.kind = l := (List.cons.inj hlast).1
    have hkind : before.getLast?.map Token.kind = some k := by
      rw [← List.getLast?_map, hbefore, List.getLast?_concat]
    obtain ⟨f, hf, rfl⟩ := Option.map_eq_some_iff.1 hkind
    exact hquoted f hf hk

namespace Source

/-! ## One token -/

/-- A scan that ends in front of a text, and the same scan in front of another. -/
inductive Scan.Meets (x z : Text) : Scan → Scan → Prop where
  | sound (kind : Token.Kind) (v : Text) :
      Meets x z (.sound kind (v ++ x)) (.sound kind (v ++ z))
  | flawed (kind : Token.Kind) (v : Text) (fault : Fault) (w : Text) :
      Meets x z ⟨kind, v ++ x, some (fault, w ++ x)⟩ ⟨kind, v ++ z, some (fault, w ++ z)⟩

/-- Whether a scan ends as it did if a comment is put in where it may be. -/
def Scan.Stops (x z : Text) (s s' : Scan) : Prop :=
  ∀ v, s.rest = v ++ x → s.kind.Leaves v → Scan.Meets x z s s'

namespace Scan.Stops

variable {x z : Text} {a a' b b' : Scan}

theorem sound (kind : Token.Kind) (u : Text) :
    Stops x z (.sound kind (u ++ x)) (.sound kind (u ++ z)) :=
  fun _ _ _ => .sound kind u

theorem of_eq {kind : Token.Kind} {rest : Text}
    (h : ∀ v, rest = v ++ x → kind.Leaves v → a' = .sound kind (v ++ z)) :
    Stops x z (.sound kind rest) a' := by
  intro v hrest hleaves
  obtain rfl : rest = v ++ x := hrest
  rw [h v rfl hleaves]
  exact .sound kind v

/-- Two scans that go the same way as far as they end where they may. -/
theorem ite {p q : Prop} [Decidable p] [Decidable q]
    (hp : ∀ v, p → a.rest = v ++ x → a.kind.Leaves v → q)
    (hq : ∀ v, ¬ p → b.rest = v ++ x → b.kind.Leaves v → ¬ q)
    (ha : p → Stops x z a a') (hb : ¬ p → Stops x z b b') :
    Stops x z (if p then a else b) (if q then a' else b') := by
  intro v hrest hleaves
  by_cases h : p
  · rw [if_pos h] at hrest hleaves ⊢
    rw [if_pos (hp v h hrest hleaves)]
    exact ha h v hrest hleaves
  · rw [if_neg h] at hrest hleaves ⊢
    rw [if_neg (hq v h hrest hleaves)]
    exact hb h v hrest hleaves

theorem ite_same {p : Prop} [Decidable p] (ha : p → Stops x z a a')
    (hb : ¬ p → Stops x z b b') :
    Stops x z (if p then a else b) (if p then a' else b') :=
  .ite (fun _ h _ _ => h) (fun _ h _ _ => h) ha hb

theorem and {q r r' : Bool} (hb : Stops x z b b')
    (h : Stops x z b b' → Stops x z (if r then a else b) (if r' then a' else b')) :
    Stops x z (if q && r then a else b) (if q && r' then a' else b') := by
  cases q with
  | true => exact h hb
  | false => exact hb

/-- A mark that is looked for is found in front of what is left, or not at all. -/
theorem head {u y : Text} {d : Char} {f : Text → Scan} (hd : d ≠ '/') (hx : x ≠ [])
    (hsuffix : ∀ t, (f t).rest <:+ t)
    (hf : ∀ w, Stops x ('/' :: y) (f (w ++ x)) (f (w ++ '/' :: y)))
    (hb : Stops x ('/' :: y) b b') :
    Stops x ('/' :: y) (if (u ++ x).head? = some d then f ((u ++ x).drop 1) else b)
      (if (u ++ '/' :: y).head? = some d then f ((u ++ '/' :: y).drop 1) else b') := by
  cases u with
  | cons c u => exact .ite_same (fun _ => hf u) fun _ => hb
  | nil =>
      obtain ⟨e, t, rfl⟩ := List.exists_cons_of_ne_nil hx
      refine .ite (fun v _ hrest _ => ?_) (fun _ _ _ _ => ?_) (fun _ => ?_) fun _ => hb
      · exact (not_suffix_of_lt (hrest ▸ hsuffix _) (by simp)).elim
      · simpa using Ne.symm hd
      · intro v hrest _
        exact (not_suffix_of_lt (hrest ▸ hsuffix _) (by simp)).elim

end Scan.Stops

section

variable {u v x : Text} (y : Text)

open Scan (Stops Meets)

theorem scanComment_slash (hx : x ≠ []) (u : Text) :
    Stops x ('/' :: y) (scanComment (u ++ x)) (scanComment (u ++ '/' :: y)) := by
  unfold scanComment
  cases hclose : closeComment? (u ++ x) with
  | none =>
      intro v hrest _
      exact absurd (List.append_eq_nil_iff.1 hrest.symm).2 hx
  | some found =>
      obtain ⟨text, after⟩ := found
      refine .of_eq fun v hrest _ => ?_
      subst hrest
      rw [closeComment?_slash y hx hclose]

theorem scanString_slash (hx : x ≠ []) (mark : Char) (u : Text) :
    Stops x ('/' :: y) (scanString mark (u ++ x)) (scanString mark (u ++ '/' :: y)) := by
  intro v hrest hleaves
  have hbody := stringBody_slash (u := u) (v := v) y mark hx
  unfold scanString at hrest hleaves ⊢
  generalize stringBody mark (u ++ x) = body at hrest hleaves hbody ⊢
  obtain ⟨text, ending, after⟩ := body
  cases ending with
  | closed =>
      obtain rfl : after = v ++ x := hrest
      rw [hbody rfl (by simp)]
      exact .sound _ v
  | cut =>
      obtain rfl : after = v ++ x := hrest
      rw [hbody rfl (by simp)]
      exact .flawed _ v _ v
  | broken =>
      obtain rfl : after = v ++ x := hrest
      have hv : v ≠ [] := hleaves.broken rfl
      obtain ⟨c, v, rfl⟩ := List.exists_cons_of_ne_nil hv
      rw [hbody rfl fun _ => hv]
      exact .flawed _ (c :: v) _ v

theorem scanUrl_rest (t : Text) :
    (scanUrl t).rest = (urlBody (t.dropWhile isBlank)).2.2 := by
  unfold scanUrl
  split <;> next hbody => simp only [hbody, Scan.sound]

theorem scanUrl_cons_suffix (c : Char) (t : Text) : (scanUrl (c :: t)).rest <:+ t := by
  rw [scanUrl_rest, List.dropWhile_cons]
  split
  · exact (urlBody_suffix _).trans (List.dropWhile_suffix _)
  · exact urlBody_cons_suffix c t

theorem scanUrl_slash (hx : x ≠ []) (h : (scanUrl (u ++ x)).rest = v ++ x) :
    Meets x ('/' :: y) (scanUrl (u ++ x)) (scanUrl (u ++ '/' :: y)) := by
  rw [scanUrl_rest] at h
  obtain ⟨w, hw⟩ := exists_of_suffix (h ▸ urlBody_suffix _ : v ++ x <:+ _)
  obtain ⟨hdrop, -⟩ := dropWhile_slash y (p := isBlank) (by decide) hw
  rw [hw] at h
  obtain ⟨ending, hending, hbody⟩ := urlBody_slash y hx h
  unfold scanUrl
  rw [hw, hdrop, hbody]
  generalize urlBody (w ++ x) = body at h hending ⊢
  obtain ⟨text, end₀, after⟩ := body
  obtain rfl : after = v ++ x := h
  cases hending with
  | closed => exact .sound _ v
  | spaced => exact .sound _ v
  | invalid fault w => exact .flawed _ v fault w

/-- What the parenthesis behind a name starts. -/
def scanCall (text after : Text) : Scan :=
  if Text.lower text = ['u', 'r', 'l'] then
    if startsQuoted (dropBlanksButLast after) then
      .sound (.function text) (dropBlanksButLast after)
    else scanUrl (dropBlanksButLast after)
  else .sound (.function text) after

theorem scanCall_suffix (text after : Text) : (scanCall text after).rest <:+ after :=
  Scan.rest_ite (fun _ => Scan.rest_ite (fun _ => dropBlanksButLast_suffix after)
      fun _ => (scanUrl_suffix _).trans (dropBlanksButLast_suffix after))
    fun _ => List.suffix_rfl

theorem scanCall_slash (hx : x ≠ []) (text u : Text) :
    Stops x ('/' :: y) (scanCall text (u ++ x)) (scanCall text (u ++ '/' :: y)) := by
  refine .ite_same (fun htext => ?url) fun _ => .sound _ u
  intro v hrest hleaves
  by_cases hquoted : startsQuoted (dropBlanksButLast (u ++ x)) = true
  · rw [if_pos hquoted] at hrest hleaves ⊢
    have hinner : dropBlanksButLast (u ++ x) = v ++ x := hrest
    obtain ⟨hv, hblank⟩ := hleaves.quoted (by simpa [Scan.sound, Token.Kind.isUrlFunction])
    rw [hinner] at hquoted ⊢
    rw [dropBlanksButLast_slash y hv hinner, startsQuoted_slash y hv fun _ => hblank,
      if_pos hquoted]
    exact .sound _ v
  · rw [if_neg hquoted] at hrest ⊢
    obtain ⟨w, hw⟩ := exists_of_suffix (hrest ▸ scanUrl_suffix _ : v ++ x <:+ _)
    rw [hw] at hrest hquoted ⊢
    have hwnil := ne_nil_of_takes (f := fun t => (scanUrl t).rest) scanUrl_cons_suffix hx hrest
    rw [dropBlanksButLast_slash y hwnil hw,
      startsQuoted_slash y hwnil fun h => absurd h hquoted, if_neg hquoted]
    exact scanUrl_slash y hx hrest

theorem scanName_eq (t : Text) :
    scanName t =
      if (name t).2.head? = some '(' then scanCall (name t).1 ((name t).2.drop 1)
      else .sound (.ident (name t).1) (name t).2 := by
  rw [scanName]
  cases (name t).2 with
  | nil => rfl
  | cons c after => simp [scanCall]

theorem scanName_slash (hx : x ≠ []) (u : Text) :
    Stops x ('/' :: y) (scanName (u ++ x)) (scanName (u ++ '/' :: y)) := by
  intro v hrest hleaves
  obtain ⟨w, hw⟩ := exists_of_suffix (hrest ▸ scanName_suffix _ : v ++ x <:+ _)
  have hback : w ≠ ['\\'] := by
    rintro rfl
    rw [scanName_eq, hw, if_neg (by simp)] at hrest
    obtain rfl : ['\\'] = v := List.append_cancel_right hrest
    exact hleaves.backslash rfl
  rw [scanName_eq, hw] at hrest hleaves ⊢
  rw [scanName_eq, name_slash y hx hw hback]
  exact Stops.head (by decide) hx (scanCall_suffix _) (scanCall_slash y hx _) (.sound _ w)
    v hrest hleaves

theorem scanNumber_eq (t : Text) :
    scanNumber t =
      if startsIdent (Numeral.scan t).2 then
        .sound (.dimension (Numeral.scan t).1 (name (Numeral.scan t).2).1)
          (name (Numeral.scan t).2).2
      else if (Numeral.scan t).2.head? = some '%' then
        .sound (.percentage (Numeral.scan t).1) ((Numeral.scan t).2.drop 1)
      else .sound (.number (Numeral.scan t).1) (Numeral.scan t).2 := by
  rw [scanNumber]
  cases (Numeral.scan t).2 with
  | nil => rfl
  | cons c after => simp

theorem scanNumber_slash (hx : x ≠ []) (u : Text) :
    Stops x ('/' :: y) (scanNumber (u ++ x)) (scanNumber (u ++ '/' :: y)) := by
  intro v hrest hleaves
  obtain ⟨w, hw⟩ := exists_of_suffix (hrest ▸ scanNumber_suffix _ : v ++ x <:+ _)
  rw [scanNumber_eq, hw] at hrest hleaves ⊢
  rw [scanNumber_eq, numeral_scan_slash y hw]
  generalize (Numeral.scan (u ++ x)).1 = n at hrest hleaves ⊢
  refine Stops.ite (fun v h hrest _ => startsIdent_slash_true y hx h hrest)
    (fun v h hrest hleaves => ?alone) (fun _ => .of_eq fun v hrest hleaves => ?unit)
    (fun _ => .head (by decide) hx (fun _ => List.suffix_rfl) (.sound (.percentage n))
      (.sound (.number n) w)) v hrest hleaves
  case unit => rw [name_slash y hx hrest hleaves.backslash]
  case alone =>
    have hends (hhead : (w ++ x).head? ≠ some '%') : v = w := by
      rw [if_neg hhead] at hrest
      exact (List.append_cancel_right hrest).symm
    rw [Bool.not_eq_true] at h ⊢
    refine startsIdent_slash_false y h ?_ ?_
    · rintro rfl
      exact hleaves.backslash (hends (by simp))
    · rintro rfl
      exact hleaves.hyphen (hends (by simp))

theorem scanHash_slash (hx : x ≠ []) (u : Text) :
    Stops x ('/' :: y) (scanHash (u ++ x)) (scanHash (u ++ '/' :: y)) := by
  refine .ite (fun v h hrest _ => ?name) (fun v h hrest hleaves => ?mark)
    (fun h => .of_eq fun v hrest hleaves => ?_) fun _ => .sound _ u
  case name =>
    obtain ⟨⟨d, rest⟩, hchar⟩ := Option.isSome_iff_exists.1 h
    obtain ⟨w, rfl⟩ := name_stays hrest hchar
    rw [nameChar?_slash_some y hx hchar]
    rfl
  case mark =>
    obtain rfl : u = v := List.append_cancel_right hrest
    rw [Option.not_isSome_iff_eq_none] at h ⊢
    exact nameChar?_slash_none y h hleaves.backslash
  rw [name_slash y hx hrest hleaves.backslash,
    startsIdent_slash y hx hrest hleaves.backslash]

/-- A run of marks that is looked for is found in front of what is left, or not at
all. -/
theorem marks_slash {p : Text} {kind : Token.Kind} {b b' : Scan} (hp : '/' ∉ p)
    (hb : Stops x ('/' :: y) b b') (u : Text) :
    Stops x ('/' :: y)
      (if p.isPrefixOf (u ++ x) then .sound kind ((u ++ x).drop p.length) else b)
      (if p.isPrefixOf (u ++ '/' :: y) then .sound kind ((u ++ '/' :: y).drop p.length)
        else b') := by
  have hfront {v : Text} (h : p.isPrefixOf (u ++ x) = true)
      (hrest : (u ++ x).drop p.length = v ++ x) : u = p ++ v := by
    obtain ⟨t, ht⟩ := List.isPrefixOf_iff_prefix.1 h
    rw [← ht, List.drop_left] at hrest
    rw [hrest, ← List.append_assoc] at ht
    exact (List.append_cancel_right ht).symm
  refine .ite (fun v h hrest _ => ?_) (fun v h _ _ => ?_)
    (fun h => .of_eq fun v hrest _ => ?_) fun _ => hb
  · rw [hfront h hrest, List.append_assoc]
    exact List.isPrefixOf_iff_prefix.2 (List.prefix_append ..)
  · rw [isPrefixOf_append_cons y hp]
    intro hu
    exact h (List.isPrefixOf_iff_prefix.2
      ((List.isPrefixOf_iff_prefix.1 hu).trans (List.prefix_append ..)))
  · rw [hfront h hrest, List.append_assoc, List.drop_left]

theorem scan_slash (hx : x ≠ []) (c : Char) (u : Text) :
    Stops x ('/' :: y) (scan c (u ++ x)) (scan c (u ++ '/' :: y)) := by
  have hname : Stops x ('/' :: y) (scanName (c :: (u ++ x)))
      (scanName (c :: (u ++ '/' :: y))) := scanName_slash y hx (c :: u)
  have hscan : Stops x ('/' :: y) (scanNumber (c :: (u ++ x)))
      (scanNumber (c :: (u ++ '/' :: y))) := scanNumber_slash y hx (c :: u)
  unfold scan
  refine .and ?_ fun hb => ?comment
  case comment =>
    simp only [decide_eq_true_eq]
    exact .head (by decide) hx scanComment_suffix (scanComment_slash y hx) hb
  refine .ite_same (fun _ => scanString_slash y hx c u) fun _ => ?_
  refine .ite_same (fun _ => scanHash_slash y hx u) fun _ => ?_
  refine .and ?_ fun hb => .ite (fun v h hrest _ => ?number) (fun v h _ _ => ?none)
    (fun _ => hscan) fun _ => hb
  case number =>
    obtain ⟨w, hw⟩ := exists_of_suffix (hrest ▸ scanNumber_suffix _ : v ++ x <:+ _)
    exact startsNumber_slash_true (u := c :: u) y h hw
  case none =>
    rw [Bool.not_eq_true] at h ⊢
    exact startsNumber_slash_false (u := c :: u) y h
  refine .ite_same (fun hc => ?hyphen) fun _ => ?_
  case hyphen =>
    refine marks_slash (p := ['-', '>']) y (by decide) ?_ u
    refine .ite (fun v h hrest _ => ?ident) (fun v h hrest hleaves => ?alone)
      (fun _ => hname) fun _ => .sound _ u
    case ident =>
      obtain ⟨w, hw⟩ := exists_of_suffix (hrest ▸ scanName_suffix _ : v ++ x <:+ _)
      exact startsIdent_slash_true (u := c :: u) y hx h hw
    case alone =>
      obtain rfl : u = v := List.append_cancel_right hrest
      rw [Bool.not_eq_true] at h ⊢
      exact startsIdent_slash_false (u := c :: u) y h (by simp [hc])
        (by simpa [hc] using hleaves.backslash)
  refine .and ?_ fun hb => marks_slash (p := ['!', '-', '-']) y (by decide) hb u
  refine .ite_same (fun _ => ?keyword) fun _ => ?_
  case keyword =>
    refine .ite (fun v h hrest _ => startsIdent_slash_true y hx h hrest)
      (fun v h hrest hleaves => ?alone) (fun _ => .of_eq fun v hrest hleaves => ?name)
      fun _ => .sound _ u
    case name => rw [name_slash y hx hrest hleaves.backslash]
    case alone =>
      obtain rfl : u = v := List.append_cancel_right hrest
      rw [Bool.not_eq_true] at h ⊢
      exact startsIdent_slash_false y h hleaves.backslash hleaves.hyphen
  refine .ite_same (fun hc => ?backslash) fun _ => ?_
  case backslash =>
    subst hc
    refine .ite (fun v h hrest _ => ?escaped) (fun v h hrest hleaves => ?stray) (fun _ => hname)
      fun _ v hrest _ => .flawed _ u _ u
    case escaped =>
      obtain ⟨w, hw⟩ := exists_of_suffix (hrest ▸ scanName_suffix _ : v ++ x <:+ _)
      obtain ⟨w', hw'⟩ := name_stays hw (nameChar?_of_escape h)
      rw [startsEscape_cons_slash y (escape_takes hx hw')]
      exact h
    case stray =>
      obtain rfl : u = v := List.append_cancel_right hrest
      rw [startsEscape_cons_slash y (hleaves.stray rfl)]
      exact h
  refine .ite_same (fun _ => hscan) fun _ => ?_
  refine .ite_same (fun _ => hname) fun _ => ?_
  refine .ite_same (fun _ => .of_eq fun v hrest _ => ?blank) fun _ => .sound _ u
  case blank =>
    obtain ⟨hdrop, htake⟩ := dropWhile_slash y (p := isBlank) (by decide) hrest
    rw [hdrop, htake]

end

/-! ## Lexemes -/

theorem Scan.Meets.rest {x z v : Text} {s s' : Scan} (h : Scan.Meets x z s s')
    (hrest : s.rest = v ++ x) : s'.rest = v ++ z := by
  cases h with
  | sound kind w =>
      obtain rfl : w = v := List.append_cancel_right hrest
      rfl
  | flawed kind w =>
      obtain rfl : w = v := List.append_cancel_right hrest
      rfl

theorem Scan.Meets.lexeme {x z : Text} {s s' : Scan} (h : Scan.Meets x z s s') (u : Text) :
    s'.lexeme (u ++ z) = s.lexeme (u ++ x) := by
  cases h with
  | sound kind w => simp only [Scan.lexeme_sound, consumed_append_append]
  | flawed kind w fault w' =>
      simp only [Scan.lexeme, Option.map_some, consumed_append_append]

/-- A flaw that is noticed in front of what is left. -/
theorem Scan.Meets.flaw_prefix {x z : Text} {s s' : Scan} (h : Scan.Meets x z s s')
    (u : Text) : ∀ fault before, (s.lexeme (u ++ x)).flaw = some (fault, before) →
      before <+: u := by
  intro fault before hflaw
  cases h with
  | sound kind w => cases hflaw
  | flawed kind w fault w' =>
      simp only [Scan.lexeme, Option.map_some, consumed_append_append] at hflaw
      obtain ⟨-, rfl⟩ := Prod.mk.inj (Option.some.inj hflaw)
      exact List.take_prefix ..

/-- Lexemes that spell a text, and no flaw of which was noticed behind it. -/
inductive Spells : Text → List Lexeme → Prop where
  | nil : Spells [] []
  | cons {l : Lexeme} {ls : List Lexeme} {t rest : Text} (htext : t = l.slice ++ rest)
      (hflaw : ∀ fault before, l.flaw = some (fault, before) → before <+: t)
      (hrest : Spells rest ls) : Spells t (l :: ls)

theorem spells_lexemes (t : Text) : Spells t (lexemes t) := by
  induction t using lexemes.induct with
  | case1 =>
      rw [lexemes_nil]
      exact .nil
  | case2 c rest _ ih =>
      rw [lexemes_cons]
      refine .cons ?_ (fun fault before hflaw => ?_) ih
      · exact (consumed_append ((scan_suffix c rest).trans (List.suffix_cons c rest))).symm
      · obtain ⟨noticed, -, heq⟩ := Option.map_eq_some_iff.1 hflaw
        obtain ⟨-, rfl⟩ := Prod.mk.inj heq
        exact List.take_prefix ..

section

variable {u x : Text} {ms : List Lexeme}

/-- The lexemes in front of what is left spell the text in front of it. -/
theorem slices_of_lexemes (h : lexemes (u ++ x) = ms ++ lexemes x) :
    ms.flatMap Lexeme.slice = u := by
  have hslices := slices_lexemes (u ++ x)
  rw [h, List.flatMap_append, slices_lexemes] at hslices
  exact List.append_cancel_right hslices

theorem eq_nil_of_lexemes (h : lexemes x = ms ++ lexemes x) : ms = [] :=
  List.self_eq_append_left.1 h

theorem lexemes_step {c : Char} (h : lexemes (c :: (u ++ x)) = ms ++ lexemes x) :
    ∃ v more, ms = (scan c (u ++ x)).lexeme (c :: (u ++ x)) :: more ∧
      (scan c (u ++ x)).rest = v ++ x ∧ lexemes (v ++ x) = more ++ lexemes x := by
  have hslices := slices_of_lexemes (u := c :: u) h
  cases ms with
  | nil => cases hslices
  | cons m more =>
      rw [lexemes_cons, List.cons_append, List.cons.injEq] at h
      have hrest := slices_lexemes (scan c (u ++ x)).rest
      rw [h.2, List.flatMap_append, slices_lexemes] at hrest
      exact ⟨more.flatMap Lexeme.slice, more, by rw [h.1], hrest.symm, hrest ▸ h.2⟩

theorem scan_backslash (rest : Text) :
    scan '\\' rest =
      if startsEscape ('\\' :: rest) then scanName ('\\' :: rest)
      else ⟨.delim '\\', rest, some (.strayBackslash, rest)⟩ := rfl

theorem scan_hyphen_backslash (rest : Text) :
    scan '-' ('\\' :: rest) =
      if startsEscape ('\\' :: rest) then scanName ('-' :: '\\' :: rest)
      else .sound (.delim '-') ('\\' :: rest) := rfl

/-- A backslash that is read without what is behind it is read alone. -/
theorem lexemes_backslash (hx : x ≠ []) (h : lexemes ('\\' :: x) = ms ++ lexemes x) :
    ms.map Lexeme.kind = [.delim '\\'] := by
  obtain ⟨v, more, rfl, hrest, hmore⟩ := lexemes_step (u := []) h
  rw [List.nil_append, scan_backslash] at hrest ⊢
  split at hrest
  · next hstarts =>
      obtain ⟨w, hw⟩ := exists_of_suffix (hrest ▸ scanName_suffix _ : v ++ x <:+ _)
      rw [not_startsEscape_of_name hx hw] at hstarts
      cases hstarts
  · next hstarts =>
      obtain rfl : [] = v := List.append_cancel_right hrest
      rw [if_neg hstarts, eq_nil_of_lexemes hmore]
      rfl

theorem lexemes_hyphen_backslash (hx : x ≠ [])
    (h : lexemes ('-' :: '\\' :: x) = ms ++ lexemes x) :
    .delim '\\' ∈ (ms.map Lexeme.kind).getLast? := by
  obtain ⟨v, more, rfl, hrest, hmore⟩ := lexemes_step (u := ['\\']) h
  rw [List.singleton_append, scan_hyphen_backslash] at hrest
  split at hrest
  · next hstarts =>
      obtain ⟨w, hw⟩ := exists_of_suffix (hrest ▸ scanName_suffix _ : v ++ x <:+ _)
      have hhyphen : nameChar? ('-' :: '\\' :: x) = some ('-', '\\' :: x) := rfl
      rw [name_eq_of_some hhyphen] at hw
      rw [not_startsEscape_of_name hx hw] at hstarts
      cases hstarts
  · obtain rfl : ['\\'] = v := List.append_cancel_right hrest
    rw [List.map_cons, lexemes_backslash hx hmore]
    rfl

/-- A blank that is read without what is behind it is read alone. -/
theorem lexemes_isBlank {c : Char} (hc : isBlank c = true)
    (h : lexemes (c :: x) = ms ++ lexemes x) :
    ∃ k, ms.map Lexeme.kind = [k] ∧ k.isWhitespace = true := by
  obtain ⟨v, more, rfl, hrest, hmore⟩ := lexemes_step (u := []) h
  rw [List.nil_append, scan_of_isBlank hc] at hrest ⊢
  replace hrest : x.dropWhile isBlank = v ++ x := hrest
  obtain rfl : v = [] := eq_nil_of_suffix (hrest ▸ List.dropWhile_suffix isBlank)
  rw [eq_nil_of_lexemes hmore]
  exact ⟨_, rfl, rfl⟩

/-- What a token leaves that is followed by others up to the comment. -/
theorem leaves_of_kinds {k : Token.Kind} (hx : x ≠ [])
    (h : Token.Kind.Admit (k :: ms.map Lexeme.kind))
    (hms : lexemes (u ++ x) = ms ++ lexemes x) : k.Leaves u := by
  have hnil : u = [] → k.isBadString = false ∧ k ≠ .delim '\\' ∧ k.isUrlFunction = false := by
    rintro rfl
    rw [eq_nil_of_lexemes hms] at h
    exact h.last k rfl
  refine ⟨?_, ?_, fun hk hu => ?_, fun hk hu => (hnil hu).2.1 hk, fun hk => ⟨fun hu => ?_, ?_⟩⟩
  · rintro rfl
    refine (h.tail.last _ ?_).2.1 rfl
    rw [lexemes_backslash hx hms]
    rfl
  · rintro rfl
    exact (h.tail.last _ (lexemes_hyphen_backslash hx hms)).2.1 rfl
  · rw [(hnil hu).1] at hk
    cases hk
  · rw [(hnil hu).2.2] at hk
    cases hk
  · rintro c rfl
    rw [Bool.eq_false_iff]
    intro hc
    obtain ⟨l, hl, hblank⟩ := lexemes_isBlank hc hms
    rw [hl] at h
    rw [h.quoted [] k l rfl hk] at hblank
    cases hblank

/-- A comment that is put in where it may be leaves the lexemes in front of it as they
were, and no flaw in them was noticed behind it. -/
theorem lexemes_slash (y : Text) (hx : x ≠ []) (h : lexemes (u ++ x) = ms ++ lexemes x)
    (hkinds : Token.Kind.Admit (ms.map Lexeme.kind)) :
    lexemes (u ++ '/' :: y) = ms ++ lexemes ('/' :: y) ∧ Spells u ms := by
  induction hn : u.length using Nat.strongRecOn generalizing u ms with
  | ind n ih =>
      cases u with
      | nil =>
          rw [eq_nil_of_lexemes h]
          exact ⟨rfl, .nil⟩
      | cons c u =>
          have hslices := slices_of_lexemes h
          obtain ⟨v, more, rfl, hrest, hmore⟩ := lexemes_step h
          rw [List.map_cons] at hkinds
          have hmeets := scan_slash y hx c u v hrest (leaves_of_kinds hx hkinds hmore)
          have hle := (hrest ▸ scan_suffix c (u ++ x) : v ++ x <:+ _).length_le
          rw [List.length_append, List.length_append] at hle
          obtain ⟨hlexemes, hspells⟩ := ih v.length
            (by simp only [List.length_cons] at hn; omega) hmore hkinds.tail rfl
          have hlexeme := hmeets.lexeme (c :: u)
          rw [List.cons_append, List.cons_append] at hlexeme
          refine ⟨?_, .cons ?_ (hmeets.flaw_prefix (c :: u)) hspells⟩
          · rw [List.cons_append, lexemes_cons, hmeets.rest hrest, hlexeme, hlexemes,
              List.cons_append]
          · rw [← hslices, List.flatMap_cons, slices_of_lexemes hmore]

end

/-! ## The comment -/

theorem closeComment?_of_not_infix {c : Text} (hc : ¬ ['*', '/'] <:+: c) (x : Text) :
    closeComment? (c ++ '*' :: '/' :: x) = some (c, x) := by
  induction c with
  | nil => rfl
  | cons d c ih =>
      have hend : ¬ (d = '*' && (c ++ '*' :: '/' :: x).head? = some '/') = true := by
        rw [Bool.and_eq_true, decide_eq_true_eq, decide_eq_true_eq]
        rintro ⟨rfl, hhead⟩
        cases c with
        | nil => simp at hhead
        | cons e c =>
            obtain rfl : e = '/' := Option.some.inj hhead
            exact hc ⟨[], c, rfl⟩
      rw [List.cons_append, closeComment?, if_neg hend,
        ih fun h => hc (h.trans (List.suffix_cons d c).isInfix)]
      rfl

/-- The spelling of a comment. -/
def comment (c : Text) : Text := '/' :: '*' :: c ++ ['*', '/']

theorem lexemes_comment {c : Text} (hc : ¬ ['*', '/'] <:+: c) (x : Text) :
    lexemes (comment c ++ x) = ⟨.comment (comment c), comment c, none⟩ :: lexemes x := by
  have htext : comment c ++ x = '/' :: '*' :: (c ++ '*' :: '/' :: x) := by
    simp [comment]
  have hscan : scan '/' ('*' :: (c ++ '*' :: '/' :: x)) =
      .sound (.comment (comment c)) x := by
    show scanComment (c ++ '*' :: '/' :: x) = _
    rw [scanComment, closeComment?_of_not_infix hc]
    rfl
  rw [htext, lexemes_cons, hscan, Scan.lexeme_sound, ← htext, consumed_of_append]
  rfl

end Source

end StyleAudit
