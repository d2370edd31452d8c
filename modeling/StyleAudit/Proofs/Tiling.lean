import Mathlib.Data.List.Chain
import StyleAudit.Proofs.Stepwise

/-!
# Tokens tile the source

Every step of reading takes at least one code point and leaves a suffix of what
was ahead. That is all it needs for the tokens to lie on the source like tiles:
the first at its start, each where the one before it stops, none of them empty,
and the mark of the end behind the last.

The tiling is stated twice. `Tiling` is the shape an induction wants: it walks
along the tokens with the text that has been read so far. `Tiles` says what a
reader of the tokens can rely on, without a word about how they were read, and
the two halves of it that speak of the source speak of positions only: the part
of a source that a span covers is what stands at the positions inside it.
-/

namespace StyleAudit

/-! ## The part of a source that a span covers -/

namespace Span

/-- What of a text that starts at a position stands inside the span. -/
def sliceFrom (s : Span) (p : Position) : Text → Text
  | [] => []
  | c :: rest =>
      if s.start ≤ p ∧ p < s.stop then c :: s.sliceFrom (p.step c) rest
      else s.sliceFrom (p.step c) rest

/-- The part of a source that the span covers. -/
def slice (s : Span) (source : Text) : Text := s.sliceFrom .start source

theorem sliceFrom_append (s : Span) (p : Position) (t u : Text) :
    s.sliceFrom p (t ++ u) = s.sliceFrom p t ++ s.sliceFrom (p.advance t) u := by
  induction t generalizing p with
  | nil => rfl
  | cons c t ih =>
      rw [List.cons_append, sliceFrom, sliceFrom, Position.advance_cons, ih]
      split <;> rfl

theorem sliceFrom_eq_nil_of_le_start {s : Span} {p : Position} {t : Text}
    (h : p.advance t ≤ s.start) : s.sliceFrom p t = [] := by
  induction t generalizing p with
  | nil => rfl
  | cons c t ih =>
      rw [Position.advance_cons] at h
      have hlt : p < s.start :=
        ((Position.lt_step p c).trans_le (Position.le_advance _ t)).trans_le h
      rw [sliceFrom, if_neg (fun hin => absurd hin.1 (not_le.2 hlt)), ih h]

theorem sliceFrom_eq_self {s : Span} {p : Position} {t : Text}
    (hstart : s.start ≤ p) (hstop : p.advance t ≤ s.stop) :
    s.sliceFrom p t = t := by
  induction t generalizing p with
  | nil => rfl
  | cons c t ih =>
      rw [Position.advance_cons] at hstop
      have hstep := Position.lt_step p c
      have hlt : p < s.stop :=
        (hstep.trans_le (Position.le_advance _ t)).trans_le hstop
      rw [sliceFrom, if_pos ⟨hstart, hlt⟩, ih (hstart.trans hstep.le) hstop]

theorem sliceFrom_eq_nil_of_stop_le {s : Span} {p : Position} (t : Text)
    (h : s.stop ≤ p) : s.sliceFrom p t = [] := by
  induction t generalizing p with
  | nil => rfl
  | cons c t ih =>
      rw [sliceFrom, if_neg (fun hin => absurd hin.2 (not_lt.2 h)),
        ih (h.trans (Position.lt_step p c).le)]

/-- The span of a piece of a source covers just that piece. -/
theorem slice_piece (before piece after : Text) :
    (⟨Position.start.advance before,
      (Position.start.advance before).advance piece⟩ : Span).slice
        (before ++ (piece ++ after)) = piece := by
  rw [slice, sliceFrom_append, sliceFrom_append,
    sliceFrom_eq_nil_of_le_start (le_refl _),
    sliceFrom_eq_self (le_refl _) (le_refl _),
    sliceFrom_eq_nil_of_stop_le after (le_refl _), List.append_nil,
    List.nil_append]

end Span

namespace Source

open Position (start)

/-! ## The tiling -/

/-- Tokens that cover what follows `before` in a source, piece by piece, up to
the mark of its end. -/
inductive Tiling (source : Text) : Text → List Token → Prop where
  | stop :
      Tiling source source
        [⟨.eof, ⟨start.advance source, start.advance source⟩⟩]
  | step {before piece after : Text} {kind : Token.Kind}
      {tokens : List Token} (hsource : source = before ++ (piece ++ after))
      (hpiece : piece ≠ []) (hkind : kind ≠ .eof)
      (hrest : Tiling source (before ++ piece) tokens) :
      Tiling source before
        (⟨kind, ⟨start.advance before,
          (start.advance before).advance piece⟩⟩ :: tokens)

theorem consumed_ne_nil (c : Char) {rest left : Text} (h : left <:+ rest) :
    consumed (c :: rest) left ≠ [] := by
  intro hnil
  have happend := consumed_append (h.trans (List.suffix_cons c rest))
  rw [hnil, List.nil_append] at happend
  have hle := h.length_le
  rw [happend, List.length_cons] at hle
  omega

theorem tiling_lexemes (before after : Text) :
    Tiling (before ++ after) before
      (place (start.advance before) (lexemes after)).tokens := by
  induction after using lexemes.induct generalizing before with
  | case1 =>
      rw [lexemes_nil, List.append_nil]
      exact .stop
  | case2 c rest _ ih =>
      rw [lexemes_cons]
      have hsuffix := scan_suffix c rest
      have happend :=
        consumed_append (hsuffix.trans (List.suffix_cons c rest))
      have h := ih (before ++ consumed (c :: rest) (scan c rest).rest)
      rw [List.append_assoc, happend, Position.advance_append] at h
      exact .step (congrArg (before ++ ·) happend.symm)
        (consumed_ne_nil c hsuffix) (scan_kind_ne_eof c rest) h

theorem tiling_tokenize (source : Text) :
    Tiling (normalize source) [] (tokenize source).tokens :=
  tiling_lexemes [] (normalize source)

namespace Tiling

variable {source before : Text} {tokens : List Token}

theorem head_start (h : Tiling source before tokens) :
    tokens.head?.map (fun t => t.span.start) = some (start.advance before) := by
  cases h with
  | stop => rfl
  | step => rfl

theorem linked (h : Tiling source before tokens) :
    tokens.IsChain fun t u =>
      t.span.start < t.span.stop ∧ t.span.stop = u.span.start := by
  induction h with
  | stop => exact List.isChain_singleton _
  | @step before piece after kind tokens _ hpiece _ hrest ih =>
      have hhead := hrest.head_start
      cases tokens with
      | nil => exact List.isChain_singleton _
      | cons u rest =>
          rw [List.head?_cons, Option.map_some, Option.some.injEq] at hhead
          rw [List.isChain_cons_cons]
          refine ⟨⟨Position.lt_advance hpiece _, ?_⟩, ih⟩
          rw [hhead, Position.advance_append]

/-- Tokens in order do not overlap. -/
theorem pairwise (h : Tiling source before tokens) :
    tokens.Pairwise fun t u => t.span.start < t.span.stop ∧ t.span.stop ≤ u.span.start := by
  have htrans : Trans (fun t u : Token => t.span.start < t.span.stop ∧ t.span.stop ≤ u.span.start)
      (fun t u : Token => t.span.start < t.span.stop ∧ t.span.stop ≤ u.span.start)
      (fun t u : Token => t.span.start < t.span.stop ∧ t.span.stop ≤ u.span.start) :=
    ⟨fun htu huv => ⟨htu.1, (htu.2.trans huv.1.le).trans huv.2⟩⟩
  rw [← List.isChain_iff_pairwise]
  exact h.linked.imp fun t u htu => ⟨htu.1, htu.2.le⟩

/-- No token starts before the first or stops behind the end. -/
theorem bounds (h : Tiling source before tokens) :
    ∀ t ∈ tokens, start.advance before ≤ t.span.start ∧ t.span.start ≤ t.span.stop ∧
      t.span.stop ≤ start.advance source := by
  induction h with
  | stop => exact List.forall_mem_singleton.2 ⟨le_refl _, le_refl _, le_refl _⟩
  | @step before piece after kind tokens hsource _ _ _ ih =>
      refine List.forall_mem_cons.2 ⟨⟨le_refl _, Position.le_advance _ _, ?_⟩, fun t ht => ?_⟩
      · rw [hsource, Position.advance_append, Position.advance_append]
        exact Position.le_advance _ _
      · obtain ⟨hstart, hstop⟩ := ih t ht
        rw [Position.advance_append] at hstart
        exact ⟨(Position.le_advance _ _).trans hstart, hstop⟩

/-- Each token starts after the one before it. -/
theorem starts_increasing (h : Tiling source before tokens) :
    (tokens.map fun t => t.span.start).Pairwise (· < ·) := by
  rw [← List.isChain_iff_pairwise, List.isChain_map]
  exact h.linked.imp fun t u htu => htu.1.trans_eq htu.2

/-- All tokens but the last cover something, and together they cover what
follows `before`. -/
theorem split_last (h : Tiling source before tokens) :
    ∃ body, tokens = body ++
        [⟨.eof, ⟨start.advance source, start.advance source⟩⟩] ∧
      (∀ t ∈ body, t.kind ≠ .eof ∧ t.span.start < t.span.stop) ∧
      before ++ body.flatMap (fun t => t.span.slice source) = source := by
  induction h with
  | stop => exact ⟨[], rfl, by simp, by simp⟩
  | @step before piece after kind tokens hsource hpiece hkind _ ih =>
      obtain ⟨body, rfl, hbody, hcover⟩ := ih
      refine ⟨_ :: body, rfl, ?_, ?_⟩
      · intro t ht
        rcases List.mem_cons.1 ht with rfl | ht
        · exact ⟨hkind, Position.lt_advance hpiece _⟩
        · exact hbody t ht
      · have hslice := Span.slice_piece before piece after
        rw [← hsource] at hslice
        rw [List.flatMap_cons, hslice, ← List.append_assoc]
        exact hcover

end Tiling

/-- What it means that tokens tile a source: all of them but the last are no
marks of the end and cover something, each starts where the one before stops and
the first at the start, the last marks the end of the source and covers nothing,
and the parts covered make up the source. -/
structure Tiles (source : Text) (body : List Token) (last : Token) : Prop where
  nonempty : ∀ t ∈ body, t.kind ≠ .eof ∧ t.span.start < t.span.stop
  first : (body ++ [last]).head?.map (fun t => t.span.start) = some start
  adjacent : (body ++ [last]).IsChain fun t u => t.span.stop = u.span.start
  ending : last.kind = .eof ∧
    last.span.start = Position.ofOffset source source.length ∧
    last.span.stop = Position.ofOffset source source.length
  covered : body.flatMap (fun t => t.span.slice source) = source

theorem tiles_tokenize (source : Text) :
    ∃ body last, (tokenize source).tokens = body ++ [last] ∧
      Tiles (normalize source) body last := by
  have h := tiling_tokenize source
  obtain ⟨body, htokens, hbody, hcover⟩ := h.split_last
  have hend := (Position.ofOffset_length (normalize source)).symm
  refine ⟨body, _, htokens, hbody, ?_, ?_, ⟨rfl, hend, hend⟩, hcover⟩
  · rw [← htokens]
    exact h.head_start
  · rw [← htokens]
    exact h.linked.imp fun _ _ htu => htu.2

/-- A step from inside the source reads a token and moves the cursor on, but not
beyond the end; the token spans just what the cursor moved over. -/
theorem readToken_advances {text : Text} {i : Nat} (hi : i < text.length) :
    ∃ (t : Token) (error? : Option SyntaxError) (j : Nat),
      readToken ⟨text, i⟩ = ⟨.ok t, error?, ⟨text, j⟩⟩ ∧ t.kind ≠ .eof ∧
      i < j ∧ j ≤ text.length ∧
      t.span = ⟨Position.ofOffset text i, Position.ofOffset text j⟩ := by
  obtain ⟨c, rest, htext, hread⟩ := readToken_index hi
  generalize hbefore : text.take i = before at htext hread
  obtain rfl : before.length = i := hbefore ▸ List.length_take_of_le hi.le
  subst htext
  have hsuffix := scan_suffix c rest
  have happend := consumed_append (hsuffix.trans (List.suffix_cons c rest))
  have hslice := List.length_pos_iff.2 (consumed_ne_nil c hsuffix)
  generalize hpiece : consumed (c :: rest) (scan c rest).rest = piece at *
  rw [Scan.step, Scan.lexeme, hpiece, Cursor.between, List.append_assoc, happend] at hread
  refine ⟨_, _, (before ++ piece).length, hread, scan_kind_ne_eof c rest,
    ?_, ?_, ?_⟩
  · rw [List.length_append]
    omega
  · rw [← happend, ← List.append_assoc]
    exact (List.prefix_append _ _).length_le
  · rw [Position.ofOffset_append, ← happend, ← List.append_assoc,
      Position.ofOffset_append, Position.advance_append]
    rfl

/-- Reading a source comes to an end, and its tokens tile it. Stepping from the
front until the end is met reads exactly these tokens; and from wherever in the
source a step is made, it moves on and stays inside. Integers are exact however long
they are: what an interpreter says of more than 4300 digits is not considered. -/
theorem tokens_tile_source (source : Text) :
    Reads (cursor source) (tokenize source).tokens (tokenize source).errors ∧
    (∃ body last, (tokenize source).tokens = body ++ [last] ∧
      Tiles (normalize source) body last) ∧
    ∀ i, i < (normalize source).length →
      ∃ (t : Token) (error? : Option SyntaxError) (j : Nat),
        readToken ⟨normalize source, i⟩ = ⟨.ok t, error?, ⟨normalize source, j⟩⟩ ∧
        t.kind ≠ .eof ∧ i < j ∧ j ≤ (normalize source).length ∧
        t.span = ⟨Position.ofOffset (normalize source) i,
          Position.ofOffset (normalize source) j⟩ :=
  ⟨reads_tokenize source, tiles_tokenize source,
    fun _ hi => readToken_advances hi⟩

end Source

end StyleAudit
