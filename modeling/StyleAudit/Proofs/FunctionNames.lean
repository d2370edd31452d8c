import StyleAudit.Proofs.BadTokens
import StyleAudit.Proofs.OwnTokens

/-!
# Where the name of a function ends

The token of a function ends behind its parenthesis, and the end of its name is taken
to be one column in front of that. This is where the parenthesis stands, as long as it
is the last code point of the token. There is one reader that goes on: behind the
parenthesis of a URL, if a quotation mark follows, all blanks but the last are taken
into the token. With one blank, or none, nothing is taken; with more the name seems to
end behind the parenthesis, and in column zero of a later line if a line feed is the
last blank taken.

`SpacedUrl` says when that is, by the name and what stands behind the parenthesis. The
features of selectors that are functions end where the names do, so the same condition
decides whether they end at the parenthesis.
-/

namespace StyleAudit

open Component (tokensIn partsAll)

/-- A function that is named like a URL, and has two blanks or more behind its
parenthesis. -/
def SpacedUrl (name behind : Text) : Prop :=
  Text.lower name = ['u', 'r', 'l'] ∧
    ∃ a b more, behind = a :: b :: more ∧ Source.isBlank a = true ∧ Source.isBlank b = true

namespace Source

open Position (start)

/-! ## Names that are scanned as functions -/

theorem dropBlanksButLast_gap (t : Text) :
    ∃ gap, t = gap ++ dropBlanksButLast t ∧ ∀ c ∈ gap, isBlank c = true := by
  fun_induction dropBlanksButLast t with
  | case1 a b more hblank ih =>
      obtain ⟨gap, hgap, hall⟩ := ih
      refine ⟨a :: gap, ?_, List.forall_mem_cons.2 ⟨(Bool.and_eq_true_iff.1 hblank).1, hall⟩⟩
      rw [List.cons_append, ← hgap]
  | case2 => exact ⟨[], rfl, List.forall_mem_nil _⟩
  | case3 => exact ⟨[], rfl, List.forall_mem_nil _⟩

theorem dropBlanksButLast_split (t : Text) :
    ∃ gap, t = gap ++ dropBlanksButLast t ∧ (∀ c ∈ gap, isBlank c = true) ∧
      (gap = [] ↔ ¬ ∃ a b more, t = a :: b :: more ∧ isBlank a = true ∧ isBlank b = true) := by
  obtain ⟨gap, hgap, hall⟩ := dropBlanksButLast_gap t
  refine ⟨gap, hgap, hall, ?_, fun hnone => ?_⟩
  · rintro rfl ⟨a, b, more, rfl, ha, hb⟩
    -- one blank at least has been dropped, so the lengths differ
    rw [List.nil_append, dropBlanksButLast, if_pos (by simp [ha, hb])] at hgap
    have hle := (dropBlanksButLast_suffix (b :: more)).length_le
    rw [← hgap, List.length_cons, List.length_cons] at hle
    omega
  · have hkept : dropBlanksButLast t = t := by
      unfold dropBlanksButLast
      split
      · next a b more =>
          refine if_neg fun hblank => hnone ⟨a, b, more, rfl, ?_⟩
          exact Bool.and_eq_true_iff.1 hblank
      · rfl
    rw [hkept] at hgap
    exact List.append_left_eq_self.1 hgap.symm

/-- A name that is scanned as a function is followed by a parenthesis, and behind it
nothing is taken but the blanks of a spaced URL. -/
theorem scanName_function {t : Text} {text : Text} (h : (scanName t).kind = .function text) :
    ∃ gap after, name t = (text, '(' :: (gap ++ after)) ∧ (scanName t).rest = after ∧
      (∀ c ∈ gap, isBlank c = true) ∧ (gap = [] ↔ ¬ SpacedUrl text (gap ++ after)) := by
  rw [scanName_eq] at h ⊢
  by_cases hhead : (name t).2.head? = some '('
  · rw [if_pos hhead] at h ⊢
    obtain ⟨behind, hbehind⟩ := List.head?_eq_some_iff.1 hhead
    rw [hbehind, List.drop_succ_cons, List.drop_zero, scanCall] at h ⊢
    have hread : name t = ((name t).1, '(' :: behind) := by rw [← hbehind]
    by_cases hurl : Text.lower (name t).1 = ['u', 'r', 'l']
    · rw [if_pos hurl] at h ⊢
      by_cases hquoted : startsQuoted (dropBlanksButLast behind) = true
      · rw [if_pos hquoted] at h ⊢
        obtain rfl : (name t).1 = text := Token.Kind.function.inj h
        obtain ⟨gap, hgap, hall, hnone⟩ := dropBlanksButLast_split behind
        refine ⟨gap, dropBlanksButLast behind, ?_, rfl, hall, ?_⟩
        · rw [← hgap]
          exact hread
        · rw [← hgap, hnone, SpacedUrl, and_iff_right hurl]
      · rw [if_neg hquoted] at h
        obtain ⟨more, hkind | hkind⟩ := scanUrl_kind (dropBlanksButLast behind) <;>
          · rw [hkind] at h
            cases h
    · rw [if_neg hurl] at h ⊢
      obtain rfl : (name t).1 = text := Token.Kind.function.inj h
      exact ⟨[], behind, hread, rfl, List.forall_mem_nil _,
        iff_of_true rfl fun hspaced => hurl hspaced.1⟩
  · rw [if_neg hhead] at h
    cases h

/-! ## The tokens of a source -/

/-- Every token but the last is what is scanned at its place in the source. -/
theorem exists_scan_of_mem_place (before : Text) {after : Text} {t : Token}
    (h : t ∈ (place (start.advance before) (lexemes after)).tokens) (hkind : t.kind ≠ .eof) :
    ∃ front c rest, before ++ after = front ++ c :: rest ∧
      t = ((scan c rest).lexeme (c :: rest)).token (start.advance front) := by
  induction after using lexemes.induct generalizing before with
  | case1 =>
      rw [lexemes_nil, place, List.mem_singleton] at h
      rw [h] at hkind
      exact absurd rfl hkind
  | case2 c rest _ ih =>
      rw [lexemes_cons, place, List.mem_cons] at h
      rcases h with rfl | h
      · exact ⟨before, c, rest, rfl, rfl⟩
      · have happend := consumed_append ((scan_suffix c rest).trans (List.suffix_cons c rest))
        rw [← Position.advance_append] at h
        obtain ⟨front, d, more, heq, rfl⟩ := ih _ h
        refine ⟨front, d, more, ?_, rfl⟩
        rw [← heq, List.append_assoc]
        exact congrArg (before ++ ·) happend.symm

end Source

namespace Position

theorem nameEnd_step {s q : Position} {c : Char} (hc : c ≠ '\n') :
    (⟨s, q.step c⟩ : Span).nameEnd = q := by
  rw [step, if_neg hc, Span.nameEnd]
  dsimp only
  rw [Int.add_sub_cancel]

theorem lt_nameEnd_step {p q s : Position} (h : p < q) (c : Char) :
    p < (⟨s, q.step c⟩ : Span).nameEnd := by
  by_cases hc : c = '\n'
  · -- the name would end in column zero of the next line
    rw [step, if_pos hc, Span.nameEnd, lt_iff]
    rcases lt_iff.1 h with hline | ⟨hline, -⟩
    · exact .inl (by dsimp only; omega)
    · exact .inl (by dsimp only; omega)
  · rw [nameEnd_step hc]
    exact h

/-- No line and no column of a source is before the first. -/
theorem one_le_advance (t : Text) :
    1 ≤ (start.advance t).line ∧ 1 ≤ (start.advance t).column := by
  induction t using List.reverseRecOn with
  | nil => exact ⟨le_refl _, le_refl _⟩
  | append_singleton t c ih =>
      rw [advance_append, advance_cons, advance_nil, step]
      split
      · exact ⟨by dsimp only; omega, le_refl _⟩
      · exact ⟨ih.1, by dsimp only; omega⟩

end Position

open Position (start)

open Source (tokenize normalize)

/-- Where the name of a function ends that starts at a place of a source. It is written
as `written`, which is read as `name`; the parenthesis stands behind it, and then
`behind` follows. Unless this is a spaced URL the end is where the parenthesis stands, a
place counted from one, and what is in front of it is just the name; else the end is
somewhere behind the parenthesis. -/
structure NamedUpTo (source name : Text) (first stop : Position)
    (before written behind : Text) : Prop where
  source_eq : normalize source = before ++ (written ++ '(' :: behind)
  name_eq : Source.name (written ++ '(' :: behind) = (name, '(' :: behind)
  first_eq : first = start.advance before
  anchored : ¬ SpacedUrl name behind →
    stop = start.advance (before ++ written) ∧ 1 ≤ stop.line ∧ 1 ≤ stop.column ∧
      (⟨first, stop⟩ : Span).slice (normalize source) = written
  beyond : SpacedUrl name behind → start.advance (before ++ written) < stop

theorem exists_namedUpTo {source name : Text} {t : Token} (h : t ∈ (tokenize source).tokens)
    (hkind : t.kind = .function name) :
    ∃ before written behind,
      NamedUpTo source name t.span.start t.span.nameEnd before written behind := by
  obtain ⟨before, c, rest, hsource, rfl⟩ :=
    Source.exists_scan_of_mem_place [] h (by rw [hkind]; nofun)
  have hscan : Source.scan c rest = Source.scanName (c :: rest) := by
    refine (Source.scan_eq_scanName ?_).2
    have hfunction : (Source.scan c rest).kind = .function name := hkind
    rw [hfunction]
    rfl
  rw [hscan] at hkind ⊢
  obtain ⟨gap, after, hname, hrest, -, hgap⟩ := Source.scanName_function hkind
  obtain ⟨written, hwritten⟩ := Source.name_suffix (c :: rest)
  rw [hname] at hwritten
  have hslice : Source.consumed (c :: rest) (Source.scanName (c :: rest)).rest =
      written ++ '(' :: gap := by
    rw [hrest, ← hwritten, ← Source.consumed_of_append (written ++ '(' :: gap) after,
      List.append_assoc, List.cons_append]
  rw [← hwritten] at hname hsource
  rw [List.nil_append] at hsource
  have hstop : (((Source.scanName (c :: rest)).lexeme (c :: rest)).token
      (start.advance before)).span.stop = start.advance (before ++ (written ++ '(' :: gap)) := by
    rw [← hslice, Position.advance_append]
    rfl
  have hend : (((Source.scanName (c :: rest)).lexeme (c :: rest)).token
      (start.advance before)).span.nameEnd =
        (⟨start.advance before, start.advance (before ++ (written ++ '(' :: gap))⟩ :
          Span).nameEnd := by
    rw [← hstop]
    rfl
  rw [hend]
  refine ⟨before, written, gap ++ after, hsource, hname, rfl, fun hspaced => ?_,
    fun hspaced => ?_⟩
  · -- the parenthesis is the last code point
    obtain rfl : gap = [] := hgap.2 hspaced
    rw [← List.append_assoc, Position.advance_append, Position.advance_cons,
      Position.advance_nil, Position.nameEnd_step (by decide)]
    refine ⟨rfl, (Position.one_le_advance _).1, (Position.one_le_advance _).2, ?_⟩
    rw [hsource, Position.advance_append]
    exact Span.slice_piece before written _
  · have hne : gap ≠ [] := fun hnil => hgap.1 hnil hspaced
    obtain ⟨init, last, rfl⟩ := (List.eq_nil_or_concat gap).resolve_left hne
    rw [List.concat_eq_append, ← List.append_assoc, Position.advance_append _ (before ++ written),
      Position.advance_cons, Position.advance_append _ init, Position.advance_cons,
      Position.advance_nil]
    refine Position.lt_nameEnd_step ?_ last
    exact (Position.lt_step _ _).trans_le (Position.le_advance _ _)

namespace Stylesheet

/-- What a function among the parts of a prelude starts with is a token of the source. -/
theorem function_mem_tokenize {source : Text} {mode : Mode} {sheet : Stylesheet}
    (hparse : parse mode source = .ok sheet) {prelude : List Component} {block : Block}
    {children : List Node} (hrule : .rule prelude block children ∈ Node.withinAll sheet.rules)
    {name : Text} {head : Span} {values : List Component} {closing : Option Span}
    (hpart : .function name head values closing ∈ partsAll prelude) :
    ⟨.function name, head⟩ ∈ (tokenize source).tokens := by
  have htolerant : parse .tolerant source = .ok sheet := by
    cases mode with
    | strict => exact parse_tolerant_of_strict hparse
    | tolerant => exact hparse
  obtain ⟨own, hown, hsub⟩ := writtenIn_of_parse htolerant _ hrule
  cases hown with
  | rule =>
      have hin : ⟨.function name, head⟩ ∈ tokensIn prelude :=
        (Component.tokens_sublist_of_partsAll hpart).subset (Component.leading_mem_tokens _)
      exact List.mem_of_mem_filter (hsub.subset (List.mem_append_left _ hin))

/-- The name of a function ends where its parenthesis stands, unless this is a spaced
URL. So does every feature that a function in a selector gives, in whichever mode the
source is read; for a spaced URL both end somewhere behind the parenthesis. -/
theorem function_name_ends_at_parenthesis (source : Text) :
    (∀ t ∈ (tokenize source).tokens, ∀ name, t.kind = .function name →
        ∃ before written behind,
          NamedUpTo source name t.span.start t.span.nameEnd before written behind) ∧
      ∀ mode sheet, parse mode source = .ok sheet → ∀ prelude block children,
        .rule prelude block children ∈ Node.withinAll sheet.rules →
        ∀ f ∈ Feature.selectors prelude, f.SelectedIn prelude ∧
          ∀ name head values closing, .function name head values closing ∈ partsAll prelude →
            Feature.Selects (.function name head values closing) f →
            ∃ before written behind,
              NamedUpTo source name head.start f.span.stop before written behind := by
  refine ⟨fun t ht name hname => exists_namedUpTo ht hname, ?_⟩
  intro mode sheet hparse prelude block children hrule f hf
  refine ⟨Feature.selectedIn_of_mem_selectors hf, ?_⟩
  intro name head values closing hpart hselects
  cases hselects with
  | pseudoFunction first hvendor =>
      exact exists_namedUpTo (function_mem_tokenize hparse hrule hpart) rfl

theorem function_name_ends_at_parenthesis_escaped :
    let source := "a:\\6e ot(b)\x7b\x7d".toList
    let head : Span := ⟨⟨1, 3⟩, ⟨1, 10⟩⟩
    ⟨.function "not".toList, head⟩ ∈ (tokenize source).tokens ∧
      ∃ before written behind,
        NamedUpTo source "not".toList head.start head.nameEnd before written behind ∧
          head.nameEnd = start.advance (before ++ written) := by
  intro source head
  have hmem : ⟨.function "not".toList, head⟩ ∈ (tokenize source).tokens := by decide +kernel
  obtain ⟨before, written, behind, hnamed⟩ :=
    (function_name_ends_at_parenthesis source).1 _ hmem _ rfl
  refine ⟨hmem, before, written, behind, hnamed, (hnamed.anchored ?_).1⟩
  exact fun hspaced => absurd hspaced.1 (by decide)

/-- Two line feeds behind the parenthesis of a URL, and its name ends in column zero of
the next line. The feature of the selector ends there too, although the parenthesis is
the sixth code point of the first line. -/
theorem spaced_url_ends_behind_parenthesis :
    let source := "a:url(\n\n\"x\")\x7b\x7d".toList
    let head : Span := ⟨⟨1, 3⟩, ⟨2, 1⟩⟩
    source.take 6 = "a:url(".toList ∧ Position.ofOffset source 5 = ⟨1, 6⟩ ∧
      ⟨.function "url".toList, head⟩ ∈ (tokenize source).tokens ∧ head.nameEnd = ⟨2, 0⟩ ∧
      (parse .strict source).map (fun sheet =>
          (Node.occurrencesIn sheet.rules).map fun o => (o.feature.kind, o.feature.span)) =
        .ok [(.selector, ⟨⟨1, 2⟩, ⟨2, 0⟩⟩)] := by
  decide +kernel

end Stylesheet

end StyleAudit
