import Mathlib.Data.List.TakeWhile
import StyleAudit.Proofs.ConditionReading
import StyleAudit.Proofs.Leaves
import StyleAudit.Proofs.ModeAgreement
import StyleAudit.Proofs.Respelling
import StyleAudit.Proofs.SourceOrder

/-!
# Every token is in the tree once

The readers of the tree cut what they are given into segments and make a node of
each. On the outermost level they cut tokens, and group them while they do;
inside a block they cut components that have been grouped before. In both cases
what was read can be put together again from the nodes.

`Outline` says what the tokens of a source are, given its rules: the rules
written out one after the other, and between them only blanks, the marks that
hide a stylesheet inside another document, and the semicolon behind a rule that
has no block. A construct that the end of the source cuts off stands last.
`Laid` says the same of the values of a block, given the nodes in it, and so on
down through all blocks; there the constructs are set apart by blanks and
semicolons, and a declaration is `Spelled` out with the blanks and the mark of
importance that its node does not keep.
-/

namespace StyleAudit

open Component (tokensIn leaves Grouped Loose)

open Condition (Blank)

/-! ## Declarations -/

/-- What follows the value of a declaration: blanks, and the mark of importance
among them if the declaration is important. -/
inductive Declaration.Ending : Bool → List Component → Prop where
  | plain {blanks : List Component} (h : Blank blanks) : Ending false blanks
  | marked {before after : List Component} {mark word : Token} {text : Text}
      (hbefore : Blank before) (hmark : mark.kind = .delim '!')
      (hword : word.kind = .ident text)
      (htext : Text.lower text = "important".toList) (hafter : Blank after) :
      Ending true (before ++ .token mark :: .token word :: after)

/-- The components that spell a declaration. -/
inductive Declaration.Spelled : Declaration → List Component → Prop where
  | intro {d : Declaration} {before after ending : List Component}
      {colon : Token} (hbefore : Blank before) (hcolon : colon.kind = .colon)
      (hafter : Blank after) (hending : Ending d.important ending) :
      Spelled d (.token ⟨.ident d.name, d.span⟩ ::
        (before ++ .token colon :: (after ++ (d.values ++ ending))))

theorem exists_blank_dropWhile (cs : List Component) :
    ∃ blanks, Blank blanks ∧ cs = blanks ++ cs.dropWhile Component.isWhitespace :=
  ⟨cs.takeWhile Component.isWhitespace,
    fun _ hc => List.mem_takeWhile_imp hc,
    (List.takeWhile_append_dropWhile ..).symm⟩

theorem exists_blank_dropTrailing (cs : List Component) :
    ∃ blanks, Blank blanks ∧ cs = dropTrailing Component.isWhitespace cs ++ blanks := by
  obtain ⟨blanks, hblanks, heq⟩ := exists_blank_dropWhile cs.reverse
  refine ⟨blanks.reverse, fun c hc => hblanks c (List.mem_reverse.1 hc), ?_⟩
  rw [dropTrailing, ← List.reverse_append, ← heq, List.reverse_reverse]

namespace Declaration

theorem ending_splitImportant (values : List Component) :
    ∃ ending, values = (splitImportant values).1 ++ ending ∧
      ∀ blanks, Blank blanks → Ending (splitImportant values).2 (ending ++ blanks) := by
  have hplain : ∃ ending : List Component, values = values ++ ending ∧
      ∀ blanks, Blank blanks → Ending false (ending ++ blanks) :=
    ⟨[], (List.append_nil _).symm, fun _ h => .plain h⟩
  unfold splitImportant
  split
  · next word wordSpan mark markSpan before heq =>
      split
      · next hmark =>
          rw [Bool.and_eq_true, decide_eq_true_eq, decide_eq_true_eq] at hmark
          obtain ⟨gap, hgap, hbefore⟩ := exists_blank_dropTrailing before.reverse
          rw [dropTrailing, List.reverse_reverse] at hbefore
          have hvalues : values = before.reverse ++
              [.token ⟨.delim mark, markSpan⟩, .token ⟨.ident word, wordSpan⟩] := by
            rw [← List.reverse_reverse values, heq]
            simp
          refine ⟨gap ++ [.token ⟨.delim mark, markSpan⟩,
            .token ⟨.ident word, wordSpan⟩], ?_, fun blanks hblanks => ?_⟩
          · rw [← List.append_assoc, ← hbefore, ← hvalues]
          · rw [List.append_assoc]
            exact .marked hgap (congrArg _ hmark.1) rfl hmark.2 hblanks
      · exact hplain
  · exact hplain

/-- A declaration is spelled by the components it was read from, if they do not
start with a blank. -/
theorem spelled_of_ofComponents {c : Component} {rest : List Component}
    {d : Declaration} (hc : c.isWhitespace = false)
    (h : ofComponents (c :: rest) = .ok d) : Spelled d (c :: rest) := by
  unfold ofComponents at h
  rw [List.dropWhile_cons_of_neg (by simp [hc])] at h
  split at h
  · next name span rest heq =>
      cases heq
      split at h
      · next colonSpan body hcolon =>
          dsimp only at h
          split at h
          · cases h
          · cases h
            obtain ⟨before, hbefore, hrest⟩ := exists_blank_dropWhile rest
            obtain ⟨after, hafter, hbody⟩ := exists_blank_dropWhile body
            obtain ⟨blanks, hblanks, htrim⟩ := exists_blank_dropTrailing
              (body.dropWhile Component.isWhitespace)
            obtain ⟨ending, hsplit, hending⟩ :=
              ending_splitImportant (trim Component.isWhitespace body)
            -- the name stands first; the rest is put together piece by piece
            have hvalue : body = after ++
                ((splitImportant (trim Component.isWhitespace body)).1 ++
                  (ending ++ blanks)) := by
              rw [← List.append_assoc _ ending, ← hsplit]
              exact hbody.trans (congrArg (after ++ ·) htrim)
            have hall := hrest.trans (congrArg (before ++ ·) hcolon)
            rw [hall, congrArg (before ++ .token ⟨.colon, colonSpan⟩ :: ·) hvalue]
            exact .intro hbefore rfl hafter (hending blanks hblanks)
      · cases h
  · cases h

end Declaration

/-! ## Blocks -/

/-- The values of a block are the segments of the nodes in it, one after the
other, with blanks and semicolons between them; and so are those of every block
inside. -/
inductive Laid : List Component → List Node → Prop where
  | done : Laid [] []
  | separator {c : Component} {cs : List Component} {nodes : List Node}
      (hc : c.isWhitespace = true ∨ c.isSemicolon = true) (h : Laid cs nodes) :
      Laid (c :: cs) nodes
  | declaration {d : Declaration} {own cs : List Component} {nodes : List Node}
      (hown : d.Spelled own) (h : Laid cs nodes) :
      Laid (own ++ cs) (.declaration d :: nodes)
  | rule {prelude cs : List Component} {block : Block}
      {children nodes : List Node} (hblock : Laid block.values children)
      (h : Laid cs nodes) :
      Laid (prelude ++ block.component :: cs) (.rule prelude block children :: nodes)
  | atRule {name : Text} {span : Span} {prelude cs : List Component}
      {block : Block} {children nodes : List Node}
      (hblock : Laid block.values children) (h : Laid cs nodes) :
      Laid (.token ⟨.atKeyword name, span⟩ :: (prelude ++ block.component :: cs))
        (.atRule name span prelude (some block) children :: nodes)
  | statement {name : Text} {span : Span} {prelude cs : List Component}
      {ending : Component} {nodes : List Node}
      (hending : ending.isSemicolon = true) (h : Laid cs nodes) :
      Laid (.token ⟨.atKeyword name, span⟩ :: (prelude ++ ending :: cs))
        (.atRule name span prelude none [] :: nodes)
  | unended {name : Text} {span : Span} {prelude : List Component} :
      Laid (.token ⟨.atKeyword name, span⟩ :: prelude)
        [.atRule name span prelude none []]
  | malformed {values cs : List Component} {error : SyntaxError}
      {nodes : List Node} (hvalues : values ≠ []) (h : Laid cs nodes) :
      Laid (values ++ cs) (.malformed values error :: nodes)

/-- The nodes of a construct are those of its block, and none without a block. -/
def LaidIn : Option Block → List Node → Prop
  | some block, children => Laid block.values children
  | none, children => children = []

open Outcome (Ensures)

namespace Segment

/-- What a segment in a block can come to, with some nodes in a block of its own. -/
inductive Item (s : Segment) (P : List Node → Prop) : Node → Prop where
  | rule {b : Block} {children : List Node} (hb : s.block = some b) (h : P children) :
      Item s P (.rule s.values b children)
  | declaration {d : Declaration} (hb : s.block = none)
      (hd : Declaration.ofComponents s.values = .ok d) : Item s P (.declaration d)
  | malformed (hb : s.block = none) (e : SyntaxError) :
      Item s P (.malformed s.values e)

/-- What a segment at the outermost level can come to. -/
inductive Outer (s : Segment) (P : List Node → Prop) : Option Node → Prop where
  | rule {b : Block} {children : List Node} (hb : s.block = some b) (h : P children) :
      Outer s P (some (.rule s.values b children))
  | blank (hb : s.block = none) (hvalues : s.values = []) : Outer s P none
  | malformed (hb : s.block = none) (hvalues : s.values ≠ []) (e : SyntaxError) :
      Outer s P (some (.malformed s.values e))

variable {s : Segment} {mode : Mode} {nodes : Outcome (List Node)}
  {P : List Node → Prop}

theorem atRule_ensures (keyword : Token) (h : Ensures P nodes) :
    Ensures (fun n => ∃ children, P children ∧
        n = .atRule keyword.kind.raw keyword.span s.values s.block children)
      (s.atRule mode keyword nodes) := by
  refine .report_then ?_ mode s.errors
  exact (h.inside s.rest).bind fun children hchildren =>
    .pure ⟨children, hchildren, rfl⟩

theorem item_ensures (h : Ensures P nodes) : Ensures (s.Item P) (s.item mode nodes) := by
  refine .report_then ?_ mode s.errors
  split
  · next b hb =>
      exact (h.inside s.rest).bind fun children hchildren => .pure (.rule hb hchildren)
  · next hb =>
      split
      · next d hd => exact .pure (.declaration hb hd)
      · next e _ =>
          refine .report_then ?_ mode _
          exact .pure (.malformed hb e)

theorem rule?_ensures (h : Ensures P nodes) :
    Ensures (s.Outer P) (s.rule? mode nodes) := by
  refine .report_then ?_ mode s.errors
  split
  · next b hb =>
      exact (h.inside s.rest).bind fun children hchildren => .pure (.rule hb hchildren)
  · next hb hvalues => exact .pure (.blank hb hvalues)
  · next c rest hb hvalues =>
      refine .report_then ?_ mode _
      exact .pure (.malformed hb (by simp [hvalues]) _)

end Segment

theorem contents_ensures {mode : Mode} {block : Option Block}
    (h : ∀ b, block = some b → Ensures (Laid b.values) (styleBlock mode b.values)) :
    Ensures (LaidIn block) (contents mode block) := by
  cases block with
  | none => exact .pure rfl
  | some b => exact h b rfl

theorem Component.eq_of_isAtKeyword {c : Component} (h : c.isAtKeyword = true) :
    ∃ name span, c = .token ⟨.atKeyword name, span⟩ := by
  unfold isAtKeyword at h
  split at h
  · next name hkind =>
      cases c with
      | token t =>
          obtain ⟨kind, span⟩ := t
          cases hkind
          exact ⟨name, span, rfl⟩
      | function => cases hkind
      | block => cases hkind
  · cases h

theorem grouped_block {s : Segment} {b : Block} (hb : s.block = some b)
    (h : ∀ c ∈ s.parts, Grouped c) : ∀ c ∈ b.values, Grouped c := by
  rw [Segment.parts_of_block hb] at h
  cases h b.component (by simp) with
  | block hvalues => exact hvalues

/-- Among grouped components the segment of an at-rule is cut off with the block
or the semicolon that ends it, or is all there is. -/
theorem atSegment_of_grouped {cs : List Component} (h : ∀ c ∈ cs, Grouped c) :
    (∃ b, (atSegment cs).block = some b ∧
      cs = (atSegment cs).values ++ b.component :: (atSegment cs).rest) ∨
    ((atSegment cs).block = none ∧ cs = (atSegment cs).values ∧
      (atSegment cs).rest = []) ∨
    ((atSegment cs).block = none ∧ ∃ c, c.isSemicolon = true ∧
      cs = (atSegment cs).values ++ c :: (atSegment cs).rest) := by
  have hcut := segment_of_grouped true true h
  rcases close_segment_cases true true cs with ⟨b, hb, hrest⟩ | ⟨hb, hend⟩
  · rw [Segment.parts_of_block hb, ← hrest, List.append_assoc] at hcut
    exact .inl ⟨b, hb, hcut.symm⟩
  · rw [Segment.parts_of_no_block hb] at hcut
    rcases hend with ⟨hnone, hrest⟩ | ⟨c, hrest, hc⟩
    · rw [hnone, List.append_nil] at hcut
      exact .inr (.inl ⟨hb, hcut.symm, hrest⟩)
    · rw [hrest] at hcut
      have heof := (h c (hcut ▸ by simp)).isEof
      exact .inr (.inr ⟨hb, c, by simpa [heof] using hc, hcut.symm⟩)

theorem Laid.eq_nil {cs : List Component} {nodes : List Node} (h : Laid cs nodes)
    (hcs : cs = []) : nodes = [] := by
  cases h with
  | done => rfl
  | declaration hown =>
      cases hown
      cases hcs
  | malformed hvalues => exact absurd (List.append_eq_nil_iff.1 hcs).1 hvalues
  | rule => simp at hcs
  | _ => cases hcs

/-- The keyword of an at-rule and the segment behind it, laid before the rest. -/
theorem Laid.keyword {name : Text} {span : Span} {cs : List Component}
    {children nodes : List Node} (hcs : ∀ c ∈ cs, Grouped c)
    (hchildren : LaidIn (atSegment cs).block children)
    (hnodes : Laid (atSegment cs).rest nodes) :
    Laid (.token ⟨.atKeyword name, span⟩ :: cs)
      (.atRule name span (atSegment cs).values (atSegment cs).block children ::
        nodes) := by
  rcases atSegment_of_grouped hcs with ⟨b, hb, hcut⟩ | ⟨hb, hcut, hrest⟩ |
    ⟨hb, c, hc, hcut⟩
  · rw [hb] at hchildren ⊢
    generalize atSegment cs = s at hnodes hcut ⊢
    subst hcut
    exact .atRule hchildren hnodes
  · rw [hb] at hchildren ⊢
    obtain rfl : children = [] := hchildren
    rw [hnodes.eq_nil hrest, ← hcut]
    exact .unended
  · rw [hb] at hchildren ⊢
    obtain rfl : children = [] := hchildren
    generalize atSegment cs = s at hnodes hcut ⊢
    subst hcut
    exact .statement hc hnodes

/-- Any other segment in a block, laid before the rest. -/
theorem Laid.item {c : Component} {rest : List Component} {n : Node}
    {nodes : List Node} (h : ∀ d ∈ c :: rest, Grouped d)
    (hskip : ¬ (c.isWhitespace || c.isSemicolon) = true) (heof : ¬ c.isEof = true)
    (hn : (itemSegment c rest).Item (LaidIn (itemSegment c rest).block) n)
    (hnodes : Laid (itemSegment c rest).rest nodes) : Laid (c :: rest) (n :: nodes) := by
  have hcut : (itemSegment c rest).parts ++ (itemSegment c rest).rest = c :: rest :=
    segment_of_grouped true _ h
  cases hn with
  | rule hb hchildren =>
      rw [hb] at hchildren
      rw [Segment.parts_of_block hb, List.append_assoc] at hcut
      rw [← hcut]
      exact .rule hchildren hnodes
  | declaration hb hd =>
      rw [Segment.parts_of_no_block hb] at hcut
      have hne := Respelling.itemSegment_values_ne_nil hskip heof hb
      have hc : c.isWhitespace = false := by simp_all
      rcases List.append_eq_cons_iff.1 hcut with ⟨hnil, _⟩ | ⟨values, hvalues, _⟩
      · exact absurd hnil hne
      · rw [hvalues] at hd
        rw [← hcut, hvalues]
        exact .declaration (Declaration.spelled_of_ofComponents hc hd) hnodes
  | malformed hb e =>
      rw [Segment.parts_of_no_block hb] at hcut
      rw [← hcut]
      exact .malformed (Respelling.itemSegment_values_ne_nil hskip heof hb) hnodes

theorem laid_styleBlock {mode : Mode} {cs : List Component}
    (h : ∀ c ∈ cs, Grouped c) : Ensures (Laid cs) (styleBlock mode cs) := by
  induction cs using styleBlock.induct with
  | case1 =>
      rw [styleBlock_nil]
      exact .pure .done
  | case2 c rest hskip ih =>
      rw [styleBlock_cons, if_pos hskip]
      have hc : c.isWhitespace = true ∨ c.isSemicolon = true := by simpa using hskip
      exact (ih (List.forall_mem_cons.1 h).2).mono fun nodes => .separator hc
  | case3 c rest _ heof =>
      rw [(h c List.mem_cons_self).isEof] at heof
      cases heof
  | case4 c rest hskip heof hat ihblock ihrest =>
      rw [styleBlock_cons, if_neg hskip, if_neg heof, if_pos hat]
      obtain ⟨name, span, rfl⟩ := Component.eq_of_isAtKeyword hat
      have hrest := (List.forall_mem_cons.1 h).2
      have hparts : ∀ c ∈ (atSegment rest).parts, Grouped c :=
        grouped_segment true true (.of_grouped hrest)
      have hafter := fun c hc => hrest c ((suffix_atSegment rest).subset hc)
      have hcontents := contents_ensures fun b hb =>
        ihblock b hb (grouped_block hb hparts)
      refine (Segment.atRule_ensures _ hcontents).bind fun n hn =>
        (ihrest hafter).bind fun nodes hnodes => .pure ?_
      obtain ⟨children, hchildren, rfl⟩ := hn
      exact .keyword hrest hchildren hnodes
  | case5 c rest hskip heof hat ihblock ihrest =>
      rw [styleBlock_cons, if_neg hskip, if_neg heof, if_neg hat]
      have hparts : ∀ d ∈ (itemSegment c rest).parts, Grouped d :=
        grouped_segment true _ (.of_grouped h)
      have hafter := fun d hd => h d ((suffix_itemSegment c rest).subset hd)
      have hcontents := contents_ensures fun b hb =>
        ihblock b hb (grouped_block hb hparts)
      exact (Segment.item_ensures hcontents).bind fun n hn =>
        (ihrest hafter).bind fun nodes hnodes => .pure (.item h hskip heof hn hnodes)

theorem contents_laid (mode : Mode) {block : Option Block}
    (h : ∀ b, block = some b → ∀ c ∈ b.values, Grouped c) :
    Ensures (LaidIn block) (contents mode block) :=
  contents_ensures fun b hb => laid_styleBlock (h b hb)

/-! ## The outermost level -/

/-- The tokens of a source, comments aside, are its rules written out one after
the other, with blanks and document marks between them. A rule without a block
is ended by a semicolon, which is no part of it; what the end of the source cuts
off stands last. The blocks of the rules are laid out as `Laid` says. -/
inductive Outline : List Token → List Node → Prop where
  | done : Outline [] []
  | gap {t : Token} {ts : List Token} {nodes : List Node}
      (ht : t.kind.isWhitespace = true ∨ t.kind = .cdo ∨ t.kind = .cdc)
      (h : Outline ts nodes) : Outline (t :: ts) nodes
  | rule {prelude : List Component} {block : Block} {ts : List Token}
      {children nodes : List Node} (hblock : Laid block.values children)
      (h : Outline ts nodes) :
      Outline (tokensIn prelude ++ (block.component.tokens ++ ts))
        (.rule prelude block children :: nodes)
  | atRule {name : Text} {span : Span} {prelude : List Component} {block : Block}
      {ts : List Token} {children nodes : List Node}
      (hblock : Laid block.values children) (h : Outline ts nodes) :
      Outline (⟨.atKeyword name, span⟩ ::
          (tokensIn prelude ++ (block.component.tokens ++ ts)))
        (.atRule name span prelude (some block) children :: nodes)
  | statement {name : Text} {span : Span} {prelude : List Component}
      {ending : Token} {ts : List Token} {nodes : List Node}
      (hending : ending.kind = .semicolon) (h : Outline ts nodes) :
      Outline (⟨.atKeyword name, span⟩ :: (tokensIn prelude ++ ending :: ts))
        (.atRule name span prelude none [] :: nodes)
  | unended {name : Text} {span : Span} {prelude : List Component} :
      Outline (⟨.atKeyword name, span⟩ :: tokensIn prelude)
        [.atRule name span prelude none []]
  | malformed {values : List Component} {error : SyntaxError}
      (hvalues : values ≠ []) :
      Outline (tokensIn values) [.malformed values error]

/-- Components that are left of a source: the mark of the end stands last. -/
structure Component.Unread (cs : List Component) : Prop where
  loose : Loose cs
  last : ∀ {c rest}, c :: rest <:+ cs → c.isEof = true → rest = []

theorem Component.Unread.of_suffix {cs ds : List Component} (h : Unread cs)
    (hds : ds <:+ cs) : Unread ds :=
  ⟨h.loose.of_suffix hds, fun hc => h.last (hc.trans hds)⟩

open Component (Unread)

theorem Component.eq_of_isGap {c : Component}
    (h : (c.isWhitespace || (true && c.isDocumentMark)) = true) :
    ∃ t : Token, c = .token t ∧ t.kind ≠ .eof ∧
      (t.kind.isWhitespace = true ∨ t.kind = .cdo ∨ t.kind = .cdc) := by
  cases c with
  | token t =>
      have ht : t.kind.isWhitespace = true ∨ t.kind = .cdo ∨ t.kind = .cdc := by
        simpa [isWhitespace, isDocumentMark, kind?] using h
      refine ⟨t, rfl, ?_, ht⟩
      intro heof
      simp [heof, Token.Kind.isWhitespace] at ht
  | function => cases h
  | block => cases h

theorem Component.eq_of_isSemicolon {c : Component} (h : c.isSemicolon = true) :
    ∃ t : Token, c = .token t ∧ t.kind = .semicolon := by
  cases c with
  | token t => exact ⟨t, rfl, by simpa [isSemicolon, kind?] using h⟩
  | function => cases h
  | block => cases h

theorem Component.tokensIn_append_block (values : List Component) (b : Block) :
    tokensIn (values ++ [b.component]) = tokensIn values ++ b.component.tokens := by
  rw [tokensIn_append, tokensIn, tokensIn, List.append_nil]

/-- A segment takes the tokens up to and with the block that ends it; without a
block all of them, or those up to a semicolon, which is then the next. -/
theorem leaves_close {semicolons : Bool} {cs : List Component} {s : Segment}
    (h : Unread cs) (hs : (segment semicolons true cs).close = s) :
    (∀ b, s.block = some b →
      leaves cs = tokensIn s.values ++ (b.component.tokens ++ leaves s.rest)) ∧
    (s.block = none →
      s.rest = [] ∧ leaves cs = tokensIn s.values ∨
      semicolons = true ∧ ∃ t : Token, t.kind = .semicolon ∧
        leaves cs = tokensIn s.values ++ t :: leaves s.rest) := by
  have hparts := Component.leaves_of_grouped (grouped_segment semicolons true h.loose)
  have hleaves : leaves cs = _ := leaves_segment semicolons true
  have hsuffix : _ <:+ cs := suffix_segment semicolons true
  rw [hparts] at hleaves
  subst hs
  rcases close_segment_cases semicolons true cs with ⟨b, hb, hrest⟩ | ⟨hb, hend⟩
  · refine ⟨fun b' hb' => ?_, fun hnone => absurd (hb.symm.trans hnone) (by simp)⟩
    obtain rfl : b = b' := Option.some.inj (hb.symm.trans hb')
    rw [Segment.parts_of_block hb, Component.tokensIn_append_block, ← hrest,
      List.append_assoc] at hleaves
    exact hleaves
  · refine ⟨fun b' hb' => absurd (hb.symm.trans hb') (by simp), fun _ => ?_⟩
    rw [Segment.parts_of_no_block hb] at hleaves
    rcases hend with ⟨hnone, hrest⟩ | ⟨c, hnext, hc⟩
    · rw [hnone, Component.leaves_nil, List.append_nil] at hleaves
      exact .inl ⟨hrest, hleaves⟩
    · rw [hnext] at hleaves hsuffix
      rw [Component.leaves_cons] at hleaves
      by_cases heof : c.isEof = true
      · have hrest := h.last hsuffix heof
        rw [hrest, Component.leaves_eof heof, Component.leaves_nil,
          List.append_nil, List.append_nil] at hleaves
        exact .inl ⟨hrest, hleaves⟩
      · simp only [heof, Bool.false_or, Bool.and_eq_true] at hc
        obtain ⟨t, rfl, ht⟩ := Component.eq_of_isSemicolon hc.2
        rw [Component.leaves_token (by simp [ht])] at hleaves
        exact .inr ⟨hc.1, t, ht, hleaves⟩

theorem Outline.eq_nil {ts : List Token} {nodes : List Node} (h : Outline ts nodes)
    (hts : ts = []) : nodes = [] := by
  cases h with
  | done => rfl
  | rule => simp [Block.component, Component.tokens] at hts
  | @malformed values _ hvalues =>
      cases values with
      | nil => exact absurd rfl hvalues
      | cons c rest =>
          rw [tokensIn] at hts
          exact absurd (List.append_eq_nil_iff.1 hts).1 c.tokens_ne_nil
  | _ => cases hts

/-- The keyword of an at-rule and the segment behind it, before the rest. -/
theorem Outline.keyword {name : Text} {span : Span} {cs : List Component}
    {children nodes : List Node} (h : Unread cs)
    (hchildren : LaidIn (atSegment cs).block children)
    (hnodes : Outline (leaves (atSegment cs).rest) nodes) :
    Outline (⟨.atKeyword name, span⟩ :: leaves cs)
      (.atRule name span (atSegment cs).values (atSegment cs).block children ::
        nodes) := by
  obtain ⟨hsome, hnone⟩ := leaves_close h (rfl : _ = atSegment cs)
  cases hb : (atSegment cs).block with
  | some b =>
      rw [hb] at hchildren
      rw [hsome b hb]
      exact .atRule hchildren hnodes
  | none =>
      rw [hb] at hchildren
      obtain rfl : children = [] := hchildren
      rcases hnone hb with ⟨hend, hleaves⟩ | ⟨_, t, ht, hleaves⟩
      · rw [hend, Component.leaves_nil] at hnodes
        rw [hleaves, hnodes.eq_nil rfl]
        exact .unended
      · rw [hleaves]
        exact .statement ht hnodes

/-- Any other segment at the outermost level, before the rest. -/
theorem Outline.outer {cs : List Component} {n? : Option Node} {nodes : List Node}
    (h : Unread cs) (hn : (ruleSegment cs).Outer (LaidIn (ruleSegment cs).block) n?)
    (hnodes : Outline (leaves (ruleSegment cs).rest) nodes) :
    Outline (leaves cs) (n?.toList ++ nodes) := by
  obtain ⟨hsome, hnone⟩ := leaves_close h (rfl : _ = ruleSegment cs)
  -- no semicolon ends such a segment, so without a block it is all there is
  have hwhole (hb : (ruleSegment cs).block = none) :
      leaves (ruleSegment cs).rest = [] ∧ leaves cs = tokensIn (ruleSegment cs).values := by
    rcases hnone hb with ⟨hend, hleaves⟩ | ⟨hfalse, _⟩
    · exact ⟨by rw [hend, Component.leaves_nil], hleaves⟩
    · cases hfalse
  cases hn with
  | rule hb hchildren =>
      rw [hb] at hchildren
      rw [hsome _ hb]
      exact .rule hchildren hnodes
  | blank hb hvalues =>
      rw [(hwhole hb).1] at hnodes
      rw [(hwhole hb).2, hvalues]
      exact hnodes
  | malformed hb hvalues e =>
      rw [(hwhole hb).2, hnodes.eq_nil (hwhole hb).1]
      exact .malformed hvalues

theorem outline_ruleList {mode : Mode} {cs : List Component} (h : Unread cs) :
    Ensures (Outline (leaves cs)) (ruleList mode true cs) := by
  induction cs using ruleList.induct true with
  | case1 =>
      rw [ruleList, Component.leaves_nil]
      exact .pure .done
  | case2 c rest hskip ih =>
      rw [ruleList, if_pos hskip, Component.leaves_cons]
      obtain ⟨t, rfl, ht, hkind⟩ := Component.eq_of_isGap hskip
      rw [Component.leaves_token ht]
      exact (ih (h.of_suffix (List.suffix_cons _ rest))).mono fun nodes => .gap hkind
  | case3 c rest hskip heof =>
      rw [ruleList, if_neg hskip, if_pos heof, Component.leaves_cons,
        Component.leaves_eof heof, h.last List.suffix_rfl heof, Component.leaves_nil]
      exact .pure .done
  | case4 c rest hskip heof hat s ih =>
      rw [ruleList, if_neg hskip, if_neg heof, if_pos hat]
      obtain ⟨name, span, rfl⟩ := Component.eq_of_isAtKeyword hat
      have hrest := h.of_suffix (List.suffix_cons _ rest)
      have hparts : ∀ c ∈ s.parts, Grouped c := grouped_segment true true hrest.loose
      have hcontents := contents_laid mode fun b hb => grouped_block hb hparts
      have hafter := ih (hrest.of_suffix (suffix_atSegment rest))
      refine (Segment.atRule_ensures _ hcontents).bind fun n hn =>
        hafter.bind fun nodes hnodes => .pure ?_
      obtain ⟨children, hchildren, rfl⟩ := hn
      rw [Component.leaves_cons, Component.leaves_token (by simp)]
      exact .keyword hrest hchildren hnodes
  | case5 c rest hskip heof hat s ih =>
      rw [ruleList, if_neg hskip, if_neg heof, if_neg hat]
      have hparts : ∀ d ∈ s.parts, Grouped d := grouped_segment false true h.loose
      have hcontents := contents_laid mode fun b hb => grouped_block hb hparts
      have hafter := ih (h.of_suffix (suffix_ruleSegment (c :: rest)))
      exact (Segment.rule?_ensures hcontents).bind fun n? hn =>
        hafter.bind fun nodes hnodes => .pure (.outer h hn hnodes)

/-! ## Sources -/

namespace Stylesheet

theorem components_append (ts us : List Token) :
    components (ts ++ us) = components ts ++ components us := by
  rw [components, List.filter_append, List.map_append, components, components]

theorem components_end {last : Token} (hlast : last.kind = .eof) :
    components [last] = [.token last] := by
  simp [components, hlast, Token.Kind.isComment]

theorem unread_components {body : List Token} {last : Token}
    (hbody : ∀ t ∈ body, t.kind ≠ .eof) (hlast : last.kind = .eof) :
    Unread (components (body ++ [last])) := by
  rw [components_append, components_end hlast, components]
  refine ⟨fun c hc => ?_, fun {c rest} hsuffix heof => ?_⟩
  · rw [List.mem_append, List.mem_map, List.mem_singleton] at hc
    rcases hc with ⟨t, _, rfl⟩ | rfl
    · exact .inl ⟨t, rfl⟩
    · exact .inl ⟨last, rfl⟩
  · -- whatever stands before something else is one of the tokens of the body
    rcases List.eq_nil_or_concat rest with rfl | ⟨rest, x, rfl⟩
    · rfl
    · obtain ⟨before, heq⟩ := hsuffix
      rw [List.concat_eq_append, ← List.cons_append, ← List.append_assoc] at heq
      have hc : c ∈ before ++ c :: rest := by simp
      rw [(List.append_inj' heq rfl).1] at hc
      obtain ⟨t, ht, rfl⟩ := List.mem_map.1 hc
      exact absurd (Component.isEof_token.1 heof) (hbody t (List.mem_of_mem_filter ht))

theorem leaves_components {body : List Token} {last : Token}
    (hbody : ∀ t ∈ body, t.kind ≠ .eof) (hlast : last.kind = .eof) :
    leaves (components (body ++ [last])) =
      body.filter fun t => !t.kind.isComment := by
  rw [components_append, components_end hlast, Component.leaves_append,
    Component.leaves_eof (Component.isEof_token.2 hlast),
    List.append_nil, leaves, components, Component.tokensIn_token, List.filter_eq_self]
  intro t ht
  simpa using hbody t (List.mem_of_mem_filter ht)

theorem exists_ruleList_tolerant (cs : List Component) :
    ∃ rules errors, ruleList .tolerant true cs = .done rules errors := by
  have h := ruleList_agree true cs
  generalize ruleList .strict true cs = x, ruleList .tolerant true cs = y at h ⊢
  cases h with
  | clean => exact ⟨_, _, rfl⟩
  | faulty => exact ⟨_, _, rfl⟩

theorem parse_tolerant_of_ruleList {source : Text} {rules : List Node}
    {errors : List SyntaxError}
    (h : ruleList .tolerant true (components (Source.tokenize source).tokens) =
      .done rules errors) :
    parse .tolerant source = .ok ⟨rules, (Source.tokenize source).errors ++ errors⟩ := by
  simp only [parse, ofLexed, ofTokens, ofComponents, h]
  rfl

/-- Every source is read in tolerant mode. -/
theorem exists_parse_tolerant (source : Text) : ∃ sheet, parse .tolerant source = .ok sheet := by
  obtain ⟨rules, errors, hrules⟩ :=
    exists_ruleList_tolerant (components (Source.tokenize source).tokens)
  exact ⟨_, parse_tolerant_of_ruleList hrules⟩

/-- Nothing is lost between the tokens of a source and its tree, and nothing is
put in twice. The tokens without the comments and the mark of the end are the
rules written out, each with its keyword, its prelude and its block, with only
blanks, document marks and the semicolons behind rules without a block between
them; and the values of every block are, in the same way, the segments of the
nodes in it. -/
theorem tree_keeps_tokens (source : Text) :
    ∃ sheet body last, parse .tolerant source = .ok sheet ∧
      (Source.tokenize source).tokens = body ++ [last] ∧ last.kind = .eof ∧
      (∀ t ∈ body, t.kind ≠ .eof) ∧
      Outline (body.filter fun t => !t.kind.isComment) sheet.rules := by
  obtain ⟨body, last, htokens, htiles⟩ := Source.tiles_tokenize source
  have hbody := fun t ht => (htiles.nonempty t ht).1
  have hlast := htiles.ending.1
  obtain ⟨rules, errors, hrules⟩ :=
    exists_ruleList_tolerant (components (Source.tokenize source).tokens)
  have houtline : Ensures _ (ruleList .tolerant true (components (body ++ [last]))) :=
    outline_ruleList (unread_components hbody hlast)
  rw [← htokens, hrules, htokens, leaves_components hbody hlast] at houtline
  exact ⟨_, body, last, parse_tolerant_of_ruleList hrules, htokens, hlast, hbody,
    houtline⟩

end Stylesheet

end StyleAudit
