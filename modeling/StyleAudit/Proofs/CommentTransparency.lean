import StyleAudit.Proofs.CommentInsertion
import StyleAudit.Proofs.Concatenation
import StyleAudit.Proofs.FeatureStops

/-!
# Comments are transparent

With a comment put in between two tokens, the source has the tokens it had and the
comment. Those in front of the comment stand where they stood; those behind it on
the same line are as many columns further to the right as the comment takes. That
is, without these columns each place is what it was (`Position.without`).

Trees and diagnostics are made of tokens, and where things stand has no influence
on what they are. So what is read of the one source is a respelling of what is read
of the other, one that changes places alone. The one place that is made and not
copied is the end of the name of a function, a column in front of its parenthesis;
it moves with the parenthesis, as the comment takes more than a column.

Moving places back says little about those that are inside the comment. There are
none: a construct starts where a token does and stops where a token does, or the
name in it.
-/

namespace StyleAudit

/-! ## Places -/

namespace Position

/-- Whether a place is inside what takes `k` columns from a place on. -/
def Inside (o : Position) (k : Nat) (p : Position) : Prop :=
  p.line = o.line ∧ o.column < p.column ∧ p.column < o.column + k

/-- Whether a place is in front of what takes `k` columns from a place on, or behind it. -/
def Beside (o : Position) (k : Nat) (p : Position) : Prop :=
  p < o ∨ ⟨o.line, o.column + k⟩ ≤ p

/-- A place as it is without what takes `k` columns from a place on: what is behind it
on the line moves to the left. -/
def without (o : Position) (k : Nat) (p : Position) : Position :=
  if p.line = o.line ∧ o.column + k ≤ p.column then ⟨p.line, p.column - k⟩ else p

section

variable {o p : Position} {k : Nat}

theorem not_inside_of_le (h : p ≤ o) : ¬ o.Inside k p :=
  fun hp => not_lt.2 h (lt_iff.2 (.inr ⟨hp.1.symm, hp.2.1⟩))

theorem not_inside_of_ge (h : ⟨o.line, o.column + k⟩ ≤ p) : ¬ o.Inside k p :=
  fun hp => not_lt.2 h (lt_iff.2 (.inr ⟨hp.1, hp.2.2⟩))

theorem without_of_le (hk : 0 < k) (h : p ≤ o) : o.without k p = p := by
  refine if_neg fun hp => not_lt.2 h (lt_iff.2 (.inr ⟨hp.1.symm, ?_⟩))
  omega

/-- What is next to a place moves with it, unless it is inside. -/
theorem without_left (hk : 2 ≤ k) (h : ¬ o.Inside k ⟨p.line, p.column - 1⟩) :
    o.without k ⟨p.line, p.column - 1⟩ =
      ⟨(o.without k p).line, (o.without k p).column - 1⟩ := by
  unfold without
  by_cases hline : p.line = o.line
  · have hcolumn : p.column - 1 ≤ o.column ∨ o.column + k ≤ p.column - 1 := by
      by_contra hout
      exact h ⟨hline, show o.column < p.column - 1 by omega,
        show p.column - 1 < o.column + k by omega⟩
    simp only [hline, true_and]
    rcases hcolumn with hle | hge
    · rw [if_neg (by omega), if_neg (by omega), hline]
    · rw [if_pos hge, if_pos (by omega)]
      simp only [mk.injEq, true_and]
      omega
  · rw [if_neg fun hp => hline hp.1, if_neg fun hp => hline hp.1]

end

theorem without_advance {o : Position} {k : Nat} {column : Int}
    (hcolumn : o.column ≤ column) (t : Text) :
    o.without k (advance ⟨o.line, column + k⟩ t) = advance ⟨o.line, column⟩ t := by
  induction t generalizing column with
  | nil =>
      have hbehind : o.column + k ≤ column + k := by omega
      rw [advance_nil, advance_nil, without, if_pos ⟨rfl, hbehind⟩]
      simp only [mk.injEq, true_and]
      omega
  | cons c t ih =>
      rw [advance_cons, advance_cons, step, step]
      split
      · refine if_neg fun h => ?_
        have hline := h.1
        rw [line_advance] at hline
        simp only at hline
        omega
      · have hstep := ih (show o.column ≤ column + 1 by omega)
        rw [show column + 1 + (k : Int) = column + k + 1 by omega] at hstep
        exact hstep

theorem advance_of_not_mem {t : Text} (h : '\n' ∉ t) (p : Position) :
    p.advance t = ⟨p.line, p.column + t.length⟩ := by
  induction t generalizing p with
  | nil => simp
  | cons c t ih =>
      rw [List.mem_cons, not_or] at h
      rw [advance_cons, ih h.2, step, if_neg (Ne.symm h.1), List.length_cons]
      simp only [mk.injEq, true_and]
      push_cast
      omega

/-- A text is known by what it starts and the place that it leads to. -/
theorem eq_of_advance_eq {p : Position} {s t x y : Text} (h : s ++ x = t ++ y)
    (hplace : p.advance s = p.advance t) : s = t := by
  have hnil {u : Text} {q : Position} (hu : q.advance u = q) : u = [] := by
    by_contra hne
    exact (lt_advance hne q).ne hu.symm
  rcases List.append_eq_append_iff.1 h with ⟨u, rfl, -⟩ | ⟨u, rfl, -⟩
  · rw [advance_append] at hplace
    rw [hnil hplace.symm, List.append_nil]
  · rw [advance_append] at hplace
    rw [hnil hplace, List.append_nil]

end Position

namespace Respelling

open Source (Spells Lexeme)

/-- A respelling that changes places alone, as moving down does. -/
def ofPlaces (place : Position → Position) : Respelling :=
  { down 0 with place := place }

/-- Whether the places of a text that starts at `p` become those that it has if it
starts at `q`. -/
def Moves (r : Respelling) (p q : Position) (t : Text) : Prop :=
  ∀ w, w <+: t → r.place (p.advance w) = q.advance w

theorem Moves.rest {r : Respelling} {p q : Position} {s t : Text}
    (h : r.Moves p q (s ++ t)) : r.Moves (p.advance s) (q.advance s) t := by
  intro w hw
  rw [← Position.advance_append, ← Position.advance_append]
  exact h _ ((List.prefix_append_right_inj s).2 hw)

theorem tokens_place {f : Position → Position} {p q : Position} {t : Text} {ls : List Lexeme}
    (hs : Spells t ls) (h : (ofPlaces f).Moves p q t) :
    (ofPlaces f).tokens (Source.place p ls) = Source.place q ls := by
  induction hs generalizing p q with
  | nil =>
      have hp : f p = q := h [] List.prefix_rfl
      rw [Source.place, Source.place, ← hp]
      rfl
  | @cons l ls t rest htext hflaw _ ih =>
      subst htext
      have hp : f p = q := h [] (List.nil_prefix)
      have hslice : f (p.advance l.slice) = q.advance l.slice := h _ (List.prefix_append ..)
      have htoken : (ofPlaces f).token (l.token p) = l.token q := by
        unfold Lexeme.token Respelling.token
        rw [kind_eq _ fun _ => rfl]
        exact congrArg (Token.mk l.kind) (congrArg₂ Span.mk hp hslice)
      have herror : (l.error? p).toList.map (ofPlaces f).error = (l.error? q).toList := by
        cases hcase : l.flaw with
        | none => simp [Lexeme.error?, hcase]
        | some flaw =>
            have hmoved : (ofPlaces f).error ⟨flaw.1, p.advance flaw.2⟩ =
                ⟨flaw.1, q.advance flaw.2⟩ := by
              rw [error_eq _ fun _ => rfl]
              exact congrArg (SyntaxError.mk flaw.1) (h _ (hflaw _ _ hcase))
            simp [Lexeme.error?, hcase, hmoved]
      rw [Source.place, Source.place, ← ih h.rest, ← htoken, ← herror]
      simp [tokens]

end Respelling

namespace Source

/-! ## The tokens on both sides -/

theorem kinds_spread (p : Position) (ls : List Lexeme) :
    (spread p ls).map Token.kind = ls.map Lexeme.kind := by
  induction ls generalizing p with
  | nil => rfl
  | cons l ls ih => rw [spread, List.map_cons, List.map_cons, ih, Lexeme.token]

theorem length_spread (p : Position) (ls : List Lexeme) :
    (spread p ls).length = ls.length := by
  simpa using congrArg List.length (kinds_spread p ls)

/-- Lexemes are cut where a text is. -/
theorem lexemes_cut {t : Text} {ms ls : List Lexeme} (h : lexemes t = ms ++ ls) :
    ∃ u x, t = u ++ x ∧ ls = lexemes x := by
  induction ms generalizing t with
  | nil => exact ⟨[], t, rfl, h.symm⟩
  | cons m ms ih =>
      cases t with
      | nil => simp at h
      | cons c rest =>
          rw [lexemes_cons, List.cons_append, List.cons.injEq] at h
          obtain ⟨u, x, hrest, hls⟩ := ih h.2
          obtain ⟨s, hs⟩ := scan_suffix c rest
          refine ⟨c :: s ++ u, x, ?_, hls⟩
          rw [List.append_assoc, ← hrest, List.cons_append, hs]

theorem stop_of_spread {p : Position} {ms : List Lexeme} {before : List Token} {t : Token}
    (h : spread p ms = before ++ [t]) :
    t.span.stop = p.advance (ms.flatMap Lexeme.slice) := by
  rcases List.eq_nil_or_concat ms with rfl | ⟨init, m, rfl⟩
  · simp [spread] at h
  · rw [List.concat_eq_append] at h ⊢
    rw [spread_append] at h
    obtain ⟨-, hlast⟩ := List.append_inj' h rfl
    rw [← (List.cons.inj hlast).1, List.flatMap_append, Position.advance_append]
    simp [Lexeme.token]

/-- Tokens that stop at the end of a part of the text are those of the lexemes of that
part, and those of the rest follow. -/
theorem cut_of_tokens {u x : Text} {before after : List Token} {t next : Token}
    (htokens : (place .start (lexemes (u ++ x))).tokens = before ++ t :: next :: after)
    (hplace : Position.start.advance u = t.span.stop) :
    ∃ ms, lexemes (u ++ x) = ms ++ lexemes x ∧ spread .start ms = before ++ [t] ∧
      (place (.advance .start u) (lexemes x)).tokens = next :: after := by
  obtain ⟨span, hspan⟩ := exists_place_tokens .start (lexemes (u ++ x))
  have hlength : before.length + 1 ≤ (lexemes (u ++ x)).length := by
    have hlengths := congrArg List.length (hspan.symm.trans htokens)
    simp only [List.length_append, List.length_cons, List.length_nil, length_spread] at hlengths
    omega
  have hcut := (List.take_append_drop (before.length + 1) (lexemes (u ++ x))).symm
  obtain ⟨w, z, htext, hrest⟩ := lexemes_cut hcut
  generalize hms : (lexemes (u ++ x)).take (before.length + 1) = ms at hcut
  rw [hrest] at hcut
  have hslices : ms.flatMap Lexeme.slice = w := slices_of_lexemes (htext ▸ hcut)
  rw [hcut, place_append, hslices] at htokens
  have hfront : (spread .start ms).length = (before ++ [t]).length := by
    rw [length_spread, ← hms, List.length_take, Nat.min_eq_left hlength, List.length_append]
    rfl
  obtain ⟨hspread, htail⟩ := List.append_inj (htokens.trans (List.append_cons ..)) hfront
  have hstop := stop_of_spread hspread
  rw [hslices] at hstop
  obtain rfl : u = w := Position.eq_of_advance_eq htext (hplace.trans hstop)
  obtain rfl : x = z := List.append_cancel_left htext
  exact ⟨ms, hcut, hspread, htail⟩

/-! ## Normal form -/

/-- A code point as it is in a normal form, if it ends no line. -/
def substitute (c : Char) : Char := if c = '\x00' then replacement else c

theorem normalize_eq_map {s : Text} (h : ∀ c ∈ s, c ≠ '\r' ∧ c ≠ '\x0c') :
    normalize s = s.map substitute := by
  induction s with
  | nil => rfl
  | cons c s ih =>
      obtain ⟨hc, hs⟩ := List.forall_mem_cons.1 h
      rw [normalize_cons hc.1, if_neg hc.2, ih hs]
      rfl

theorem substitute_eq_iff {c d : Char} (hd : d ≠ '\x00') (hr : d ≠ replacement) :
    substitute c = d ↔ c = d := by
  unfold substitute
  split
  · next hc =>
      rw [hc]
      exact iff_of_false (Ne.symm hr) (Ne.symm hd)
  · exact Iff.rfl

theorem advance_substitute (p : Position) (s : Text) :
    p.advance (s.map substitute) = p.advance s := by
  induction s generalizing p with
  | nil => rfl
  | cons c s ih =>
      have hstep : p.step (substitute c) = p.step c := by
        simp only [Position.step, substitute_eq_iff (d := '\n') (by decide) (by decide)]
      rw [List.map_cons, Position.advance_cons, Position.advance_cons, hstep, ih]

theorem not_infix_substitute {c : Text} (h : ¬ ['*', '/'] <:+: c) :
    ¬ ['*', '/'] <:+: c.map substitute := by
  rintro ⟨s, t, hmap⟩
  obtain ⟨front, t', rfl, hfront, -⟩ := List.map_eq_append_iff.1 hmap.symm
  obtain ⟨s', marks, rfl, -, hmarks⟩ := List.map_eq_append_iff.1 hfront
  obtain ⟨a, rest, rfl, ha, hrest⟩ := List.map_eq_cons_iff.1 hmarks
  obtain ⟨b, rest, rfl, hb, hnil⟩ := List.map_eq_cons_iff.1 hrest
  rw [List.map_eq_nil_iff] at hnil
  rw [substitute_eq_iff (by decide) (by decide)] at ha hb
  subst ha hb hnil
  exact h ⟨s', t', rfl⟩

/-! ## Both sources -/

/-- A comment as a token. -/
def commentToken (o : Position) (c : Text) : Token :=
  ⟨.comment (comment c), ⟨o, ⟨o.line, o.column + (c.length + 4 : Nat)⟩⟩⟩

theorem length_comment (c : Text) : (comment c).length = c.length + 4 := by
  simp [comment]

theorem map_comment (c : Text) :
    (comment c).map substitute = comment (c.map substitute) := by
  have hslash : substitute '/' = '/' := rfl
  have hstar : substitute '*' = '*' := rfl
  simp [comment, hslash, hstar]

/-- Tokens in front of a place and behind it, with the latter moved. -/
theorem tokens_between {f : Position → Position} {u x : Text} {ms : List Lexeme}
    {p q : Position} (hms : Spells u ms)
    (hu : (Respelling.ofPlaces f).Moves .start .start u)
    (hx : (Respelling.ofPlaces f).Moves p q x) :
    (Respelling.ofPlaces f).tokens
        ⟨spread .start ms ++ (place p (lexemes x)).tokens,
          (place .start ms).errors ++ (place p (lexemes x)).errors⟩ =
      ⟨spread .start ms ++ (place q (lexemes x)).tokens,
        (place .start ms).errors ++ (place q (lexemes x)).errors⟩ := by
  have hfront := Respelling.tokens_place hms hu
  have hspread : (spread .start ms).map (Respelling.ofPlaces f).token = spread .start ms := by
    obtain ⟨span, hspan⟩ := exists_place_tokens .start ms
    have hmap := congrArg Tokens.tokens hfront
    rw [hspan, Respelling.tokens, hspan, List.map_append] at hmap
    exact List.append_inj_left hmap (List.length_map _)
  have herrors : (place .start ms).errors.map (Respelling.ofPlaces f).error =
      (place .start ms).errors := congrArg Tokens.errors hfront
  rw [← Respelling.tokens_place (spells_lexemes x) hx]
  simp only [Respelling.tokens, List.map_append, hspread, herrors]

theorem moves_of_le {f : Position → Position} {o : Position} (hf : ∀ p, p ≤ o → f p = p)
    {u : Text} (hu : Position.start.advance u = o) :
    (Respelling.ofPlaces f).Moves .start .start u := by
  rintro w ⟨v, rfl⟩
  rw [Position.advance_append] at hu
  exact hf _ (hu ▸ Position.le_advance _ v)

section

variable {u x c : Text} {before after : List Token} {t next : Token}

/-- The tokens of a text that a comment is put into. Without the comment, the places
of the others move to those that they have in the text without it, and none of them
is inside the comment. -/
theorem place_comment
    (htokens : (place .start (lexemes (u ++ x))).tokens = before ++ t :: next :: after)
    (hplace : Position.start.advance u = t.span.stop) (hnext : next.kind ≠ .eof)
    (hkinds : Token.Kind.Admit ((before ++ [t]).map Token.kind))
    (hc : ¬ ['*', '/'] <:+: c) (hline : '\n' ∉ c) :
    ∃ (front tail : List Token) (errors : List SyntaxError),
      place .start (lexemes (u ++ (comment c ++ x))) =
        ⟨front ++ commentToken t.span.stop c :: tail, errors⟩ ∧
      (Respelling.ofPlaces (t.span.stop.without (c.length + 4))).tokens ⟨front ++ tail, errors⟩ =
        place .start (lexemes (u ++ x)) ∧
      ∀ f, (∀ p, ¬ t.span.stop.Inside (c.length + 4) p → f p = p) →
        (Respelling.ofPlaces f).tokens ⟨front ++ tail, errors⟩ = ⟨front ++ tail, errors⟩ := by
  obtain ⟨ms, hms, hspread, htail⟩ := cut_of_tokens htokens hplace
  have hx : x ≠ [] := by
    rintro rfl
    rw [lexemes_nil] at htail
    exact hnext (congrArg Token.kind (List.cons.inj htail).1).symm
  rw [← hspread, kinds_spread] at hkinds
  obtain ⟨hlexemes, hspells⟩ := lexemes_slash ('*' :: c ++ ['*', '/'] ++ x) hx hms hkinds
  have hslices := slices_of_lexemes hms
  generalize t.span.stop = o at hplace ⊢
  have hwidth : o.advance (comment c) = ⟨o.line, o.column + (c.length + 4 : Nat)⟩ := by
    rw [Position.advance_of_not_mem (by simpa [comment] using hline), length_comment]
  refine ⟨spread .start ms, (place (o.advance (comment c)) (lexemes x)).tokens,
    (place .start ms).errors ++ (place (o.advance (comment c)) (lexemes x)).errors,
    ?commented, ?without, fun f hf => ?inside⟩
  case commented =>
    rw [show u ++ (comment c ++ x) = u ++ '/' :: ('*' :: c ++ ['*', '/'] ++ x) by rfl,
      hlexemes,
      show '/' :: ('*' :: c ++ ['*', '/'] ++ x) = comment c ++ x by rfl, lexemes_comment hc,
      place_append, hslices, hplace, commentToken, ← hwidth]
    rfl
  case without =>
    rw [hms, place_append, hslices, hplace]
    refine tokens_between hspells
      (moves_of_le (fun p => Position.without_of_le (Nat.succ_pos _)) hplace) fun w _ => ?_
    rw [hwidth]
    exact Position.without_advance (le_refl _) w
  case inside =>
    refine tokens_between hspells
      (moves_of_le (fun p hp => hf p (Position.not_inside_of_le hp)) hplace) fun w _ => ?_
    exact hf _ (Position.not_inside_of_ge (hwidth ▸ Position.le_advance _ w))

end

section

variable {s₁ s₂ c : Text} {before after : List Token} {t next : Token}

/-- The same of a source, for which the comment has no effect but on places. -/
theorem tokenize_comment (hplain : ∀ d ∈ s₁ ++ s₂, d ≠ '\r' ∧ d ≠ '\x0c')
    (htokens : (tokenize (s₁ ++ s₂)).tokens = before ++ t :: next :: after)
    (hplace : Position.start.advance s₁ = t.span.stop) (hnext : next.kind ≠ .eof)
    (hkinds : Token.Kind.Admit ((before ++ [t]).map Token.kind))
    (hc : ¬ ['*', '/'] <:+: c) (hline : ∀ d ∈ c, d ≠ '\n' ∧ d ≠ '\r' ∧ d ≠ '\x0c') :
    ∃ (front tail : List Token) (errors : List SyntaxError),
      tokenize (s₁ ++ comment c ++ s₂) =
        ⟨front ++ commentToken t.span.stop (c.map substitute) :: tail, errors⟩ ∧
      (Respelling.ofPlaces (t.span.stop.without (c.length + 4))).tokens ⟨front ++ tail, errors⟩ =
        tokenize (s₁ ++ s₂) ∧
      ∀ f, (∀ p, ¬ t.span.stop.Inside (c.length + 4) p → f p = p) →
        (Respelling.ofPlaces f).tokens ⟨front ++ tail, errors⟩ = ⟨front ++ tail, errors⟩ := by
  have hold : tokenize (s₁ ++ s₂) =
      place .start (lexemes (s₁.map substitute ++ s₂.map substitute)) := by
    rw [tokenize, normalize_eq_map hplain, List.map_append]
  have hcomment : ∀ d ∈ comment c, d ≠ '\r' ∧ d ≠ '\x0c' := by
    intro d hd
    simp only [comment, List.cons_append, List.mem_cons, List.mem_append, List.not_mem_nil,
      or_false] at hd
    rcases hd with rfl | rfl | hd | rfl | rfl
    · decide
    · decide
    · exact (hline d hd).2
    · decide
    · decide
  have hnew : tokenize (s₁ ++ comment c ++ s₂) =
      place .start (lexemes (s₁.map substitute ++
        (comment (c.map substitute) ++ s₂.map substitute))) := by
    rw [tokenize, normalize_eq_map, List.append_assoc, List.map_append, List.map_append,
      map_comment]
    simp only [List.forall_mem_append] at hplain ⊢
    exact ⟨⟨hplain.1, hcomment⟩, hplain.2⟩
  have hbreak : '\n' ∉ c.map substitute := by
    intro hmem
    obtain ⟨d, hd, hsub⟩ := List.mem_map.1 hmem
    rw [substitute_eq_iff (by decide) (by decide)] at hsub
    exact (hline d hd).1 hsub
  rw [hold] at htokens ⊢
  rw [hnew]
  rw [← advance_substitute] at hplace
  rw [show c.length = (c.map substitute).length from (List.length_map _).symm]
  exact place_comment htokens hplace hnext hkinds (not_infix_substitute hc) hbreak

end

/-! ## Places around the comment -/

theorem nameEnd_le (s : Span) : s.nameEnd ≤ s.stop := by
  rw [← not_lt, Position.lt_iff, Span.nameEnd]
  simp only [lt_self_iff_false, true_and, false_or, not_lt]
  omega

theorem le_nameEnd {p : Position} {s : Span} (h : p < s.stop) : p ≤ s.nameEnd := by
  rw [← not_lt, Position.lt_iff, Span.nameEnd]
  rcases Position.lt_iff.1 h with hline | ⟨hline, hcolumn⟩
  · simp only
    omega
  · simp only
    omega

section

variable {source c : Text} {front tail : List Token} {o : Position} {t : Token}

/-- Tokens around a comment stop where it starts, or in front of it, or else they start
where it stops, or behind it. -/
theorem beside_of_tokens
    (htokens : (tokenize source).tokens = front ++ commentToken o c :: tail) :
    (∀ t ∈ front, t.span.start < t.span.stop ∧ t.span.stop ≤ o) ∧
      ∀ t ∈ tail, ⟨o.line, o.column + (c.length + 4 : Nat)⟩ ≤ t.span.start := by
  have hordered := (tiling_tokenize source).pairwise
  rw [htokens, List.pairwise_append, List.pairwise_cons] at hordered
  obtain ⟨-, ⟨htail, -⟩, hfront⟩ := hordered
  exact ⟨fun t ht => hfront t ht _ List.mem_cons_self, fun t ht => (htail t ht).2⟩

/-- So they do not stop inside it, nor do the names in them. -/
theorem not_inside_of_mem
    (htokens : (tokenize source).tokens = front ++ commentToken o c :: tail)
    (ht : t ∈ (tokenize source).tokens) (hcomment : t.kind.isComment = false)
    (heof : t.kind ≠ .eof) :
    ¬ o.Inside (c.length + 4) t.span.stop ∧ ¬ o.Inside (c.length + 4) t.span.nameEnd := by
  obtain ⟨hfront, htail⟩ := beside_of_tokens htokens
  obtain ⟨body, hbody, hnonempty, -⟩ := (tiling_tokenize source).split_last
  have hproper : t.span.start < t.span.stop := by
    rw [hbody, List.mem_append, List.mem_singleton] at ht
    rcases ht with ht | rfl
    · exact (hnonempty t ht).2
    · exact absurd rfl heof
  rw [htokens, List.mem_append, List.mem_cons] at ht
  rcases ht with ht | rfl | ht
  · have hle := (hfront t ht).2
    exact ⟨Position.not_inside_of_le hle,
      Position.not_inside_of_le ((nameEnd_le t.span).trans hle)⟩
  · cases hcomment
  · have hlt := (htail t ht).trans_lt hproper
    exact ⟨Position.not_inside_of_ge hlt.le, Position.not_inside_of_ge (le_nameEnd hlt)⟩

end

end Source

/-! ## Trees and diagnostics -/

namespace Stylesheet

/-- Whether no place that a stylesheet has kept is one of those in `S`: it is the same
wherever they are moved to. -/
def Avoids (S : Position → Prop) (sheet : Stylesheet) : Prop :=
  ∀ f : Position → Position, (∀ p, ¬ S p → f p = p) →
    (Respelling.ofPlaces f).sheet sheet = sheet

/-- A comment is not read. -/
theorem ofLexed_comment (mode : Mode) {mark : Token} (h : mark.kind.isComment = true)
    (front tail : List Token) (errors : List SyntaxError) :
    ofLexed mode ⟨front ++ mark :: tail, errors⟩ = ofLexed mode ⟨front ++ tail, errors⟩ := by
  have htokens : ofTokens mode (front ++ mark :: tail) = ofTokens mode (front ++ tail) := by
    rw [ofTokens, ofTokens, components, components, List.filter_append, List.filter_append,
      List.filter_cons_of_neg (by simpa using h)]
  unfold ofLexed
  rw [htokens]

section

variable {source c : Text} {front tail : List Token} {o : Position} {sheet : Stylesheet}

/-- No construct starts inside a comment, nor where it does. -/
theorem beside_of_comment
    (htokens : (Source.tokenize source).tokens = front ++ Source.commentToken o c :: tail)
    {errors : List SyntaxError} (h : ofLexed .tolerant ⟨front ++ tail, errors⟩ = .ok sheet) :
    ∀ p ∈ Node.startsAll sheet.rules, o.Beside (c.length + 4) p := by
  obtain ⟨hfront, htail⟩ := Source.beside_of_tokens htokens
  have hsub : Node.startsAll sheet.rules ⊆ (front ++ tail).map fun t => t.span.start := by
    cases hread : ofTokens .tolerant (front ++ tail) with
    | error e =>
        simp only [ofLexed, hread] at h
        cases h
    | ok read =>
        simp only [ofLexed, hread] at h
        cases h
        exact (starts_ofTokens hread).subset
  intro p hp
  obtain ⟨t, ht, rfl⟩ := List.mem_map.1 (hsub hp)
  rcases List.mem_append.1 ht with ht | ht
  · exact .inl ((hfront t ht).1.trans_le (hfront t ht).2)
  · exact .inr (htail t ht)

/-- No use stops inside a comment. -/
theorem stop_of_comment
    (htokens : (Source.tokenize source).tokens = front ++ Source.commentToken o c :: tail)
    (h : parse .tolerant source = .ok sheet) :
    ∀ use ∈ Node.occurrencesIn sheet.rules,
      ¬ o.Inside (c.length + 4) use.feature.span.stop := by
  intro use huse
  obtain ⟨t, ht, hstop⟩ := stopsIn_of_parse h huse
  simp only [body, List.mem_filter, Bool.and_eq_true, Bool.not_eq_true', decide_eq_true_eq] at ht
  obtain ⟨ht, hcomment, heof⟩ := ht
  obtain ⟨hend, hname⟩ := Source.not_inside_of_mem htokens ht hcomment heof
  rcases hstop with hstop | hstop
  · rwa [hstop]
  · rwa [hstop]

end

section

variable {s₁ s₂ c : Text} {before after : List Token} {t next : Token}

/-- What is read with a comment put in is what is read without it, up to places that
are all outside the comment. -/
theorem parse_comment (hplain : ∀ d ∈ s₁ ++ s₂, d ≠ '\r' ∧ d ≠ '\x0c')
    (htokens : (Source.tokenize (s₁ ++ s₂)).tokens = before ++ t :: next :: after)
    (hplace : Position.start.advance s₁ = t.span.stop) (hnext : next.kind ≠ .eof)
    (hkinds : Token.Kind.Admit ((before ++ [t]).map Token.kind))
    (hc : ¬ ['*', '/'] <:+: c) (hline : ∀ d ∈ c, d ≠ '\n' ∧ d ≠ '\r' ∧ d ≠ '\x0c') :
    let o := t.span.stop
    let k := c.length + 4
    let r := Respelling.ofPlaces (o.without k)
    (∀ mode, parse mode (s₁ ++ s₂) =
      r.result r.sheet (parse mode (s₁ ++ Source.comment c ++ s₂))) ∧
    ∃ sheet, parse .tolerant (s₁ ++ Source.comment c ++ s₂) = .ok sheet ∧
      sheet.Avoids (o.Inside k) ∧ (∀ p ∈ Node.startsAll sheet.rules, o.Beside k p) ∧
      ∀ use ∈ Node.occurrencesIn sheet.rules, ¬ o.Inside k use.feature.span.stop := by
  intro o k r
  obtain ⟨front, tail, errors, hnew, hold, hfixed⟩ :=
    Source.tokenize_comment hplain htokens hplace hnext hkinds hc hline
  have hlength : k = (c.map Source.substitute).length + 4 := by rw [List.length_map]
  have hspelled := congrArg Source.Tokens.tokens hnew
  have hparse (mode : Mode) : parse mode (s₁ ++ Source.comment c ++ s₂) =
      ofLexed mode ⟨front ++ tail, errors⟩ := by
    rw [parse, hnew, ofLexed_comment mode rfl]
  obtain ⟨rules, faults, hrules⟩ := exists_ruleList_tolerant
    (components (Source.tokenize (s₁ ++ Source.comment c ++ s₂)).tokens)
  obtain ⟨sheet, htolerant⟩ : ∃ sheet,
      parse .tolerant (s₁ ++ Source.comment c ++ s₂) = .ok sheet :=
    ⟨_, parse_tolerant_of_ruleList hrules⟩
  refine ⟨fun mode => ?moved, sheet, htolerant, fun f hf => ?avoids,
    hlength ▸ beside_of_comment hspelled ((hparse .tolerant).symm.trans htolerant),
    hlength ▸ stop_of_comment hspelled htolerant⟩
  case moved => rw [hparse, ← r.ofLexed_tokens, hold, parse]
  case avoids =>
    have hlexed := (Respelling.ofPlaces f).ofLexed_tokens .tolerant ⟨front ++ tail, errors⟩
    rw [hfixed f hf, ← hparse, htolerant] at hlexed
    exact (Except.ok.inj hlexed).symm

end

end Stylesheet

/-- A use that does not stop inside a comment is moved as a whole if the comment is
left out. -/
theorem Feature.Respelled.span_without {o : Position} {k : Nat} {f g : Feature}
    (h : f.Respelled (.ofPlaces (o.without k)) g) (hk : 2 ≤ k)
    (hstop : ¬ o.Inside k f.span.stop) :
    g.span = (Respelling.ofPlaces (o.without k)).span f.span := by
  refine congrArg₂ Span.mk h.start ?_
  rcases h.stop with hplace | ⟨head, hname, hname'⟩
  · exact hplace
  · rw [hname] at hstop
    rw [hname', hname]
    exact (Position.without_left hk hstop).symm

namespace Audit

section

variable (a : Audit) {o : Position} {k : Nat} {sheet : Stylesheet}

theorem diagnostics_without (hk : 2 ≤ k)
    (hstop : ∀ use ∈ Node.occurrencesIn sheet.rules, ¬ o.Inside k use.feature.span.stop) :
    a.diagnostics ((Respelling.ofPlaces (o.without k)).sheet sheet) =
      (a.diagnostics sheet).map (Diagnostic.moved (.ofPlaces (o.without k))) := by
  have hwithout := (Respelling.ofPlaces (o.without k)).occurrencesIn_nodes sheet.rules
  rw [diagnostics_eq_reports, diagnostics_eq_reports]
  refine a.reports_moved (((List.forall₂_and_left _ _).2 ⟨hstop, hwithout⟩).imp ?_)
  rintro use use' ⟨huse, hwithout⟩
  exact hwithout.moved (fun _ => rfl) (hwithout.feature.span_without hk huse)

theorem diagnostics_beside
    (hstart : ∀ p ∈ Node.startsAll sheet.rules, o.Beside k p)
    (hstop : ∀ use ∈ Node.occurrencesIn sheet.rules, ¬ o.Inside k use.feature.span.stop) :
    ∀ d ∈ a.diagnostics sheet, o.Beside k d.span.start ∧ ¬ o.Inside k d.span.stop := by
  intro d hd
  rw [diagnostics_eq_reports] at hd
  obtain ⟨use, huse, rfl⟩ := List.mem_map.1 hd
  have hmem := (List.mem_filter.1 huse).1
  exact ⟨hstart _ ((Node.starts_occurrencesIn sheet.rules).subset
    (List.mem_map_of_mem (f := fun use => use.feature.span.start) hmem)), hstop use hmem⟩

end

/-- Comments are not seen. Into a source without carriage returns and form feeds, let a
comment on one line be put in between two tokens, of which the first is neither a
broken string nor a stray backslash nor the start of a quoted URL, nor the blank
behind such a start. Then what is read is the same as without the comment, but for
the places behind it on the line, and so is what is reported, whatever is audited. -/
theorem comment_transparent {s₁ s₂ c : Text} {before after : List Token} {t next : Token}
    (hplain : ∀ d ∈ s₁ ++ s₂, d ≠ '\r' ∧ d ≠ '\x0c')
    (htokens : (Source.tokenize (s₁ ++ s₂)).tokens = before ++ t :: next :: after)
    (hplace : Position.start.advance s₁ = t.span.stop) (hnext : next.kind ≠ .eof)
    (hbroken : t.kind.isBadString = false) (hstray : t.kind ≠ .delim '\\')
    (hurl : t.kind.isUrlFunction = false)
    (hquoted : ∀ f ∈ before.getLast?, f.kind.isUrlFunction = true →
      t.kind.isWhitespace = false)
    (hc : ¬ ['*', '/'] <:+: c) (hline : ∀ d ∈ c, d ≠ '\n' ∧ d ≠ '\r' ∧ d ≠ '\x0c') :
    let o := t.span.stop
    let k := c.length + 4
    let r := Respelling.ofPlaces (o.without k)
    (∃ sheet, Stylesheet.parse .tolerant (s₁ ++ Source.comment c ++ s₂) = .ok sheet ∧
      Stylesheet.parse .tolerant (s₁ ++ s₂) = .ok (r.sheet sheet) ∧
      sheet.Avoids (o.Inside k) ∧ ∀ p ∈ Node.startsAll sheet.rules, o.Beside k p) ∧
    ∀ a : Audit,
      (∀ mode, a.lint mode (s₁ ++ s₂) =
        r.result (List.map (Diagnostic.moved r))
          (a.lint mode (s₁ ++ Source.comment c ++ s₂))) ∧
      ∃ diagnostics, a.lint .tolerant (s₁ ++ Source.comment c ++ s₂) = .ok diagnostics ∧
        ∀ d ∈ diagnostics, o.Beside k d.span.start ∧ ¬ o.Inside k d.span.stop := by
  intro o k r
  obtain ⟨hmoved, sheet, htolerant, havoids, hstart, hstop⟩ :=
    Stylesheet.parse_comment hplain htokens hplace hnext (.concat hbroken hstray hurl hquoted)
      hc hline
  refine ⟨⟨sheet, htolerant, ?read, havoids, hstart⟩,
    fun a => ⟨fun mode => ?lint, a.diagnostics sheet, ?reported,
      a.diagnostics_beside hstart hstop⟩⟩
  case read =>
    rw [hmoved, htolerant]
    rfl
  case reported =>
    rw [lint, htolerant]
    rfl
  case lint =>
    rw [lint, lint, hmoved]
    cases hmode : Stylesheet.parse mode (s₁ ++ Source.comment c ++ s₂) with
    | error e => rfl
    | ok read =>
        have hread : read = sheet := by
          cases mode with
          | strict =>
              exact Except.ok.inj
                ((Stylesheet.parse_tolerant_of_strict hmode).symm.trans htolerant)
          | tolerant => exact Except.ok.inj (hmode.symm.trans htolerant)
        subst hread
        exact congrArg Except.ok (a.diagnostics_without (Nat.le_add_left 2 _) hstop)

/-- A comment behind the colon of a pseudo-class: its use is longer by it, and the
property behind it is moved. -/
theorem comment_transparent_pseudo_class :
    let a : Audit := ⟨{}, .ofRecords "" [⟨"has".toList, .selector, .newly, none⟩,
      ⟨"zoom".toList, .property, .newly, none⟩]⟩
    let source := "a:has(b)\x7bzoom: 0\x7d".toList
    let commented := "a:/*x*/has(b)\x7bzoom: 0\x7d".toList
    let r := Respelling.ofPlaces (Position.without ⟨1, 3⟩ 5)
    (∃ sheet, Stylesheet.parse .tolerant commented = .ok sheet ∧
      Stylesheet.parse .tolerant source = .ok (r.sheet sheet)) ∧
    (∀ mode, a.lint mode source =
      r.result (List.map (Diagnostic.moved r)) (a.lint mode commented)) ∧
    ∃ diagnostics, a.lint .tolerant commented = .ok diagnostics ∧
      diagnostics.map Diagnostic.span =
        [⟨⟨1, 2⟩, ⟨1, 11⟩⟩, ⟨⟨1, 15⟩, ⟨1, 19⟩⟩] ∧
      (diagnostics.map (Diagnostic.moved r)).map Diagnostic.span =
        [⟨⟨1, 2⟩, ⟨1, 6⟩⟩, ⟨⟨1, 10⟩, ⟨1, 14⟩⟩] ∧
      ∀ d ∈ diagnostics, Position.Beside ⟨1, 3⟩ 5 d.span.start := by
  intro a source commented r
  have htokens : (Source.tokenize ("a:".toList ++ "has(b)\x7bzoom: 0\x7d".toList)).tokens =
      [⟨.ident "a".toList, ⟨⟨1, 1⟩, ⟨1, 2⟩⟩⟩] ++
        ⟨.colon, ⟨⟨1, 2⟩, ⟨1, 3⟩⟩⟩ :: ⟨.function "has".toList, ⟨⟨1, 3⟩, ⟨1, 7⟩⟩⟩ ::
          (Source.tokenize source).tokens.drop 3 := by
    decide +kernel
  obtain ⟨⟨sheet, hparse, hsource, -⟩, hlint⟩ :=
    comment_transparent (c := ['x']) (by simp) htokens rfl (by decide) rfl (by decide) rfl
      (by decide) (by decide) (by simp)
  obtain ⟨hsame, diagnostics, hread, hbeside⟩ := hlint a
  refine ⟨⟨sheet, hparse, hsource⟩, hsame, diagnostics, hread, ?_⟩
  have hspans : (a.lint .tolerant commented).map (List.map Diagnostic.span) =
      .ok [⟨⟨1, 2⟩, ⟨1, 11⟩⟩, ⟨⟨1, 15⟩, ⟨1, 19⟩⟩] := by
    decide +kernel
  rw [show a.lint .tolerant commented = .ok diagnostics from hread] at hspans
  have hmoved : (diagnostics.map (Diagnostic.moved r)).map Diagnostic.span =
      (diagnostics.map Diagnostic.span).map r.span := by
    rw [List.map_map, List.map_map]
    rfl
  rw [hmoved, Except.ok.inj hspans]
  exact ⟨rfl, rfl, fun d hd => (hbeside d hd).1⟩

/-- The blank in front of the string of a quoted URL has to be excepted. A URL is not
quoted if there is a comment behind this blank, and it cannot hold the mark of the
string; so there is an error, and what is read differs in more than its places. -/
theorem comment_behind_blank_of_url :
    let source := "a\x7bb:url( \"x\")\x7d".toList
    let commented := "a\x7bb:url( /*c*/\"x\")\x7d".toList
    source = "a\x7bb:url( ".toList ++ "\"x\")\x7d".toList ∧
    commented = "a\x7bb:url( ".toList ++ Source.comment ['c'] ++ "\"x\")\x7d".toList ∧
    ((Source.tokenize source).tokens.drop 5).take 2 =
      [⟨.whitespace [' '], ⟨⟨1, 9⟩, ⟨1, 10⟩⟩⟩, ⟨.string ['x'], ⟨⟨1, 10⟩, ⟨1, 13⟩⟩⟩] ∧
    Position.start.advance "a\x7bb:url( ".toList = ⟨1, 10⟩ ∧
    (Stylesheet.parse .tolerant source).map Stylesheet.errors = .ok [] ∧
    (Stylesheet.parse .tolerant commented).map Stylesheet.errors =
      .ok [⟨.urlCharacter, ⟨1, 16⟩⟩] ∧
    ∀ r : Respelling, Stylesheet.parse .tolerant source ≠
      r.result r.sheet (Stylesheet.parse .tolerant commented) := by
  intro source commented
  have hsource : (Stylesheet.parse .tolerant source).map Stylesheet.errors = .ok [] := by
    decide +kernel
  have hcommented : (Stylesheet.parse .tolerant commented).map Stylesheet.errors =
      .ok [⟨.urlCharacter, ⟨1, 16⟩⟩] := by
    decide +kernel
  refine ⟨by decide +kernel, by decide +kernel, by decide +kernel, by decide +kernel,
    hsource, hcommented, fun r hsame => ?_⟩
  rw [hsame] at hsource
  generalize Stylesheet.parse .tolerant commented = read at hsource hcommented
  cases read with
  | error e => cases hcommented
  | ok sheet =>
      have herrors : sheet.errors.map r.error = [] := Except.ok.inj hsource
      rw [show sheet.errors = [⟨.urlCharacter, ⟨1, 16⟩⟩] from Except.ok.inj hcommented] at herrors
      cases herrors

end Audit

end StyleAudit
