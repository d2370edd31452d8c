import StyleAudit.Proofs.GroupedParsing
import StyleAudit.Proofs.Restart

/-!
# What is wrong with a declaration stays in it

A block is read segment by segment, and how far a segment goes is found out
while it is read: up to a semicolon, or up to a block between curly brackets
unless the segment is a custom property. Where no bracket is left open a
semicolon ends every kind of segment, so nothing that stands behind it has a
part in what is read before it. The segment then goes on in the same way whether
the semicolon comes or the components end; only what is left differs.

So a block with a semicolon in it is read as its two halves are. What the first
half ends in does not matter: the prelude of an at-rule, a custom property with
blocks in it, a rule, or a declaration that cannot be understood. In tolerant
mode the errors of the two halves add up, and a malformed declaration between
two semicolons is one node and one error among those of its neighbours.
-/

namespace StyleAudit

open Condition (Blank wordOf)

namespace Component

/-- Whether a component stands for itself: it opens no bracket, and it does not
mark the end of the source. -/
def Whole (c : Component) : Prop := c.isEof = false ∧ Opening.of? c = none

theorem takeValue_of_whole {c : Component} (rest : List Component) (h : c.Whole) :
    takeValue c rest = ⟨c, rest, []⟩ := by
  rw [takeValue, h.2]

end Component

open Component (Whole takeValue_of_whole)

/-! ## Segments in front of a semicolon -/

section segment

variable {semicolons braces : Bool} {A : List Component}

theorem segment_errors_of_whole (hA : ∀ c ∈ A, Whole c) :
    (segment semicolons braces A).errors = [] := by
  induction A using segment_induct semicolons braces with
  | nil => rw [segment]
  | stop c rest hstop => rw [segment_stop hstop]
  | block c rest b hstop hbraces hb =>
      rw [segment_block hstop hbraces hb, takeValue_of_whole rest (hA c List.mem_cons_self)]
  | value c rest hstop hvalue ih =>
      have htake := takeValue_of_whole rest (hA c List.mem_cons_self)
      rw [htake] at ih
      rw [segment_value hstop hvalue, htake]
      exact ih fun d hd => hA d (List.mem_cons_of_mem c hd)

theorem whole_of_suffix {ds : List Component} (hA : ∀ c ∈ A, Whole c) (hds : ds <:+ A) :
    ∀ c ∈ ds, Whole c := fun c hc => hA c (hds.subset hc)

/-- A segment that has come to the end of its components has no block, and
nothing is left of them. -/
theorem Segment.of_not_ended {s : Segment} (h : ¬ s.Ended) : s.block = none ∧ s.rest = [] := by
  rw [Ended, not_or, not_not, Option.not_isSome_iff_eq_none] at h
  exact h

/-- A semicolon ends a segment just where the end of the components would. -/
theorem segment_semicolon (hA : ∀ c ∈ A, Whole c) (span : Span) (B : List Component) :
    segment true braces (A ++ .token ⟨.semicolon, span⟩ :: B) =
      (segment true braces A).extend (.token ⟨.semicolon, span⟩ :: B) := by
  have hclean : (segment true braces A).errors = [] := segment_errors_of_whole hA
  by_cases hend : (segment true braces A).Ended
  · exact segment_append_of_ended hclean hend _
  · obtain ⟨hblock, hrest⟩ := Segment.of_not_ended hend
    rw [segment_append_of_open hclean hend, segment_stop rfl, Segment.extend, hblock, hrest,
      hclean, List.append_nil]
    rfl

end segment

/-! ## Readings in tolerant mode -/

namespace Outcome

/-- A node and those behind it, each with the errors recorded for it. -/
theorem done_cons {x : Outcome Node} {xs : Outcome (List Node)} {n : Node} {nodes : List Node}
    {errors more : List SyntaxError} (hx : x = done n errors) (hxs : xs = done nodes more) :
    (do return (← x) :: (← xs)) = done (n :: nodes) (errors ++ more) := by
  subst hx hxs
  change done (n :: nodes) (errors ++ (more ++ [])) = _
  rw [List.append_nil]

end Outcome

namespace Segment

variable {s : Segment} {children : List Node} {errors : List SyntaxError}

theorem atRule_done (keyword : Token) :
    s.atRule .tolerant keyword (.done children errors) =
      .done (.atRule keyword.kind.raw keyword.span s.values s.block children)
        (s.errors.map Found.error ++ errors) := by
  change Outcome.done _ (s.errors.map Found.error ++ (errors ++ [])) = _
  rw [List.append_nil]

/-- What is left behind a segment has no part in the node that it is. -/
theorem exists_item_done (s : Segment) (children : List Node) (errors : List SyntaxError) :
    ∃ n recorded, ∀ rest, Segment.item { s with rest } .tolerant (.done children errors) =
      .done n recorded := by
  obtain ⟨values, block, _, found⟩ := s
  cases block with
  | some b =>
      exact ⟨.rule values b children, found.map Found.error ++ (errors ++ []), fun rest => rfl⟩
  | none =>
      cases hd : Declaration.ofComponents values with
      | ok d =>
          refine ⟨.declaration d, found.map Found.error ++ [], fun rest => ?_⟩
          simp only [item, hd]
          rfl
      | error e =>
          refine ⟨.malformed values e, found.map Found.error ++ ([e] ++ []), fun rest => ?_⟩
          simp only [item, hd]
          rfl

end Segment

section styleBlock

variable {c : Component} {rest : List Component} {children nodes : List Node}
  {errors more : List SyntaxError}

theorem styleBlock_skip (mode : Mode) (rest : List Component)
    (h : (c.isWhitespace || c.isSemicolon) = true) :
    styleBlock mode (c :: rest) = styleBlock mode rest := by
  rw [styleBlock_cons, if_pos h]

theorem styleBlock_blank_append (mode : Mode) {blanks : List Component} (h : Blank blanks)
    (cs : List Component) : styleBlock mode (blanks ++ cs) = styleBlock mode cs := by
  induction blanks with
  | nil => rfl
  | cons c blanks ih =>
      rw [List.cons_append, styleBlock_skip mode _ (by rw [h.head]; rfl), ih h.tail]

theorem styleBlock_atRule_done (hskip : ¬ (c.isWhitespace || c.isSemicolon) = true)
    (heof : ¬ c.isEof = true) (hat : c.isAtKeyword = true)
    (hchildren : contents .tolerant (atSegment rest).block = .done children errors)
    (hnodes : styleBlock .tolerant (atSegment rest).rest = .done nodes more) :
    styleBlock .tolerant (c :: rest) =
      .done (.atRule c.leading.kind.raw c.leading.span (atSegment rest).values
          (atSegment rest).block children :: nodes)
        (((atSegment rest).errors.map Found.error ++ errors) ++ more) := by
  rw [styleBlock_cons, if_neg hskip, if_neg heof, if_pos hat, hchildren]
  exact Outcome.done_cons (Segment.atRule_done c.leading) hnodes

theorem styleBlock_item_done {n : Node} (hskip : ¬ (c.isWhitespace || c.isSemicolon) = true)
    (heof : ¬ c.isEof = true) (hat : ¬ c.isAtKeyword = true)
    (hitem : (itemSegment c rest).item .tolerant
      (contents .tolerant (itemSegment c rest).block) = .done n errors)
    (hnodes : styleBlock .tolerant (itemSegment c rest).rest = .done nodes more) :
    styleBlock .tolerant (c :: rest) = .done (n :: nodes) (errors ++ more) := by
  rw [styleBlock_cons, if_neg hskip, if_neg heof, if_neg hat]
  exact Outcome.done_cons hitem hnodes

end styleBlock

/-! ## Two halves of a block -/

section halves

variable {A B : List Component} {nodes : List Node} {errors : List SyntaxError}

/-- What is left of the first half behind a closed segment, with the semicolon
and the second half behind it, is read as the rest of both. -/
theorem styleBlock_close_extend {s : Segment} {span : Span}
    (h : styleBlock .tolerant (s.close.rest ++ .token ⟨.semicolon, span⟩ :: B) =
      .done nodes errors) :
    styleBlock .tolerant (s.extend (.token ⟨.semicolon, span⟩ :: B)).close.rest =
      .done nodes errors := by
  by_cases hend : s.Ended
  · rw [Segment.close_extend hend]
    exact h
  · -- the segment takes the semicolon, which would have been passed over
    obtain ⟨hblock, hrest⟩ := Segment.of_not_ended hend
    simp only [Segment.close, hblock, hrest, Option.isSome_none, Bool.false_eq_true, if_false,
      List.drop_nil, List.nil_append] at h
    simp only [Segment.close, Segment.extend, hblock, hrest, Option.isSome_none,
      Bool.false_eq_true, if_false, List.nil_append, List.drop_succ_cons, List.drop_zero]
    rwa [styleBlock_skip .tolerant B rfl] at h

/-- A block is read up to a semicolon as if it ended there, and then as if it
started there. -/
theorem exists_styleBlock_semicolon (hA : ∀ c ∈ A, Whole c) :
    ∃ nodes errors, styleBlock .tolerant A = .done nodes errors ∧
      ∀ span B more found, styleBlock .tolerant B = .done more found →
        styleBlock .tolerant (A ++ .token ⟨.semicolon, span⟩ :: B) =
          .done (nodes ++ more) (errors ++ found) := by
  induction A using styleBlock.induct with
  | case1 =>
      refine ⟨[], [], by rw [styleBlock_nil]; rfl, fun span B more found hB => ?_⟩
      rw [List.nil_append, styleBlock_skip .tolerant B rfl, hB]
      rfl
  | case2 c rest hskip ih =>
      obtain ⟨nodes, errors, hA, hmore⟩ := ih (whole_of_suffix hA (List.suffix_cons c rest))
      refine ⟨nodes, errors, by rw [styleBlock_skip .tolerant rest hskip, hA], ?_⟩
      intro span B more found hB
      rw [List.cons_append, styleBlock_skip .tolerant _ hskip, hmore span B more found hB]
  | case3 c rest hskip heof =>
      rw [(hA c List.mem_cons_self).1] at heof
      cases heof
  | case4 c rest hskip heof hat ihblock ihrest =>
      have hrest := whole_of_suffix hA (List.suffix_cons c rest)
      obtain ⟨nodes, errors, hnodes, hmore⟩ :=
        ihrest (whole_of_suffix hrest (suffix_atSegment rest))
      obtain ⟨children, own, hchildren⟩ := exists_contents_tolerant (atSegment rest).block
      refine ⟨_, _, styleBlock_atRule_done hskip heof hat hchildren hnodes, ?_⟩
      intro span B more found hB
      have hsegment : atSegment (rest ++ .token ⟨.semicolon, span⟩ :: B) =
          ((segment true true rest).extend _).close :=
        congrArg Segment.close (segment_semicolon hrest span B)
      have hleft := styleBlock_close_extend (hmore span B more found hB)
      rw [List.cons_append,
        styleBlock_atRule_done hskip heof hat (by rw [hsegment]; exact hchildren)
          (by rw [hsegment]; exact hleft), hsegment]
      simp only [List.cons_append, List.append_assoc]
      rfl
  | case5 c rest hskip heof hat ihblock ihrest =>
      obtain ⟨nodes, errors, hnodes, hmore⟩ :=
        ihrest (whole_of_suffix hA (suffix_itemSegment c rest))
      obtain ⟨children, own, hchildren⟩ := exists_contents_tolerant (itemSegment c rest).block
      obtain ⟨n, recorded, hn⟩ := Segment.exists_item_done (itemSegment c rest) children own
      refine ⟨n :: nodes, recorded ++ errors,
        styleBlock_item_done hskip heof hat (by rw [hchildren]; exact hn _) hnodes, ?_⟩
      intro span B more found hB
      have hsegment : itemSegment c (rest ++ .token ⟨.semicolon, span⟩ :: B) =
          (itemSegment c rest).extend (.token ⟨.semicolon, span⟩ :: B) :=
        segment_semicolon hA span B
      have hitem : (itemSegment c (rest ++ .token ⟨.semicolon, span⟩ :: B)).item .tolerant
          (contents .tolerant (itemSegment c (rest ++ .token ⟨.semicolon, span⟩ :: B)).block) =
            .done n recorded := by
        rw [hsegment]
        exact (congrArg _ hchildren).trans (hn _)
      rw [List.cons_append, styleBlock_item_done hskip heof hat hitem
        (by rw [hsegment]; exact hmore span B more found hB), List.cons_append, List.append_assoc]

end halves

/-! ## A declaration between two semicolons -/

/-- Components that a block has no other use for than a declaration: no blank
and no at-keyword stands first, no semicolon and, unless the property is a
custom one, no block between curly brackets is among them. -/
structure Declaration.Attempt (c : Component) (rest : List Component) : Prop where
  whole : ∀ d ∈ c :: rest, d.Whole
  start : c.isWhitespace = false ∧ c.isAtKeyword = false
  semicolon : ∀ d ∈ c :: rest, d.isSemicolon = false
  block : c.ident?.any isCustomProperty = true ∨ ∀ d ∈ c :: rest, d.curly? = none

theorem segment_of_attempt {braces : Bool} {cs : List Component} (hwhole : ∀ d ∈ cs, Whole d)
    (hsemicolon : ∀ d ∈ cs, d.isSemicolon = false)
    (hblock : braces = false ∨ ∀ d ∈ cs, d.curly? = none) :
    segment true braces cs = ⟨cs, none, [], []⟩ := by
  induction cs with
  | nil => rw [segment]
  | cons c rest ih =>
      rw [List.forall_mem_cons] at hwhole hsemicolon
      have hvalue : braces = true → c.curly? = none := fun hbraces =>
        hblock.elim (fun h => Bool.noConfusion (h.symm.trans hbraces)) fun h =>
          h c List.mem_cons_self
      have hrest := ih hwhole.2 hsemicolon.2
        (hblock.imp_right fun h d hd => h d (List.mem_cons_of_mem c hd))
      have htake := takeValue_of_whole rest hwhole.1
      rw [segment_value (by rw [hwhole.1.1, hsemicolon.1]; rfl) (by rw [htake]; exact hvalue),
        htake]
      dsimp only
      rw [hrest]
      rfl

/-- A declaration that is malformed is one node, kept as it stands, and one
error. -/
theorem styleBlock_malformed {c : Component} {rest : List Component} {e : SyntaxError}
    (h : Declaration.Attempt c rest)
    (he : Declaration.ofComponents (c :: rest) = .error e) :
    styleBlock .tolerant (c :: rest) = .done [.malformed (c :: rest) e] [e] := by
  have hsegment : itemSegment c rest = ⟨c :: rest, none, [], []⟩ :=
    segment_of_attempt h.whole h.semicolon (h.block.imp_left fun hcustom => by rw [hcustom]; rfl)
  have hitem : (itemSegment c rest).item .tolerant
      (contents .tolerant (itemSegment c rest).block) = .done (.malformed (c :: rest) e) [e] := by
    rw [hsegment]
    simp only [Segment.item, he]
    rfl
  have hskip : ¬ (c.isWhitespace || c.isSemicolon) = true := by
    simp [h.start.1, h.semicolon c List.mem_cons_self]
  have heof : ¬ c.isEof = true := by simp [(h.whole c List.mem_cons_self).1]
  have hnodes : styleBlock .tolerant (itemSegment c rest).rest = .done [] [] := by
    rw [hsegment, styleBlock_nil]
    rfl
  exact styleBlock_item_done hskip heof (by simp [h.start.2]) hitem hnodes

/-- Error recovery is local to one declaration. In tolerant mode what stands on
the two sides of a semicolon gives its nodes and its errors, one after the other,
as if it stood alone, whatever the first half ends in; and a malformed
declaration in between adds one malformed node and its error, and nothing else
changes. -/
theorem recovery_ends_at_semicolon {A : List Component} (hA : ∀ c ∈ A, Whole c)
    (B : List Component) :
    ∃ before errorsBefore after errorsAfter,
      styleBlock .tolerant A = .done before errorsBefore ∧
      styleBlock .tolerant B = .done after errorsAfter ∧
      (∀ span, styleBlock .tolerant (A ++ .token ⟨.semicolon, span⟩ :: B) =
        .done (before ++ after) (errorsBefore ++ errorsAfter)) ∧
      ∀ (span span' : Span) (blanks : List Component) (c : Component) (rest : List Component)
        (e : SyntaxError), Blank blanks → Declaration.Attempt c rest →
        Declaration.ofComponents (c :: rest) = .error e →
        styleBlock .tolerant (A ++ .token ⟨.semicolon, span⟩ ::
            (blanks ++ (c :: rest) ++ .token ⟨.semicolon, span'⟩ :: B)) =
          .done (before ++ .malformed (c :: rest) e :: after)
            (errorsBefore ++ e :: errorsAfter) := by
  obtain ⟨before, errorsBefore, hbefore, hsplit⟩ := exists_styleBlock_semicolon hA
  obtain ⟨after, errorsAfter, hafter⟩ := exists_contents_tolerant (some ⟨default, B, none⟩)
  refine ⟨before, errorsBefore, after, errorsAfter, hbefore, hafter,
    fun span => hsplit span B after errorsAfter hafter, ?_⟩
  intro span span' blanks c rest e hblanks hattempt he
  obtain ⟨own, errorsOwn, hown, hmore⟩ := exists_styleBlock_semicolon hattempt.whole
  rw [styleBlock_malformed hattempt he] at hown
  obtain ⟨rfl, rfl⟩ := Outcome.done.inj hown
  refine hsplit span _ _ _ ?_
  rw [List.append_assoc, styleBlock_blank_append .tolerant hblanks]
  exact hmore span' B after errorsAfter hafter

/-- In `@layer x; color red; gap: normal` the keyword of the rule, the missing
colon and the declaration behind it have nothing to do with one another. -/
theorem recovery_ends_at_semicolon_in_prelude :
    let semicolon : Component := .token ⟨.semicolon, default⟩
    let blank : Component := .token ⟨.whitespace [' '], default⟩
    let layer : List Component := [.token ⟨.atKeyword "layer".toList, default⟩, blank, wordOf "x"]
    let color : List Component := [wordOf "color", blank, wordOf "red"]
    let gap : List Component :=
      [wordOf "gap", .token ⟨.colon, default⟩, blank, wordOf "normal"]
    let error : SyntaxError := ⟨.colonExpected, (default : Span).stop⟩
    styleBlock .tolerant (layer ++ semicolon :: ([blank] ++ color ++ semicolon :: gap)) =
      .done [.atRule "layer".toList default [blank, wordOf "x"] none [],
          .malformed color error,
          .declaration ⟨"gap".toList, default, [wordOf "normal"], false⟩]
        [error] := by
  intro semicolon blank layer color gap error
  have hlayer : ∀ c ∈ layer, Whole c := by
    simp only [layer, List.forall_mem_cons]
    exact ⟨⟨rfl, rfl⟩, ⟨rfl, rfl⟩, ⟨rfl, rfl⟩, nofun⟩
  have hattempt : Declaration.Attempt (wordOf "color") [blank, wordOf "red"] := by
    constructor
    · simp only [List.forall_mem_cons]
      exact ⟨⟨rfl, rfl⟩, ⟨rfl, rfl⟩, ⟨rfl, rfl⟩, nofun⟩
    · exact ⟨rfl, rfl⟩
    · simp only [List.forall_mem_cons]
      exact ⟨rfl, rfl, rfl, nofun⟩
    · right
      simp only [List.forall_mem_cons]
      exact ⟨rfl, rfl, rfl, nofun⟩
  obtain ⟨before, errorsBefore, after, errorsAfter, hbefore, hafter, -, hmiddle⟩ :=
    recovery_ends_at_semicolon hlayer gap
  have hrule : styleBlock .tolerant layer =
      .done [.atRule "layer".toList default [blank, wordOf "x"] none []] [] := by
    with_unfolding_all rfl
  have hgap : styleBlock .tolerant gap =
      .done [.declaration ⟨"gap".toList, default, [wordOf "normal"], false⟩] [] := by
    with_unfolding_all rfl
  obtain ⟨rfl, rfl⟩ := Outcome.done.inj (hbefore.symm.trans hrule)
  obtain ⟨rfl, rfl⟩ := Outcome.done.inj (hafter.symm.trans hgap)
  have hblank : Blank [blank] := by
    simp only [Blank, List.forall_mem_singleton]
    rfl
  exact hmiddle default default [blank] (wordOf "color") [blank, wordOf "red"] error hblank
    hattempt rfl

end StyleAudit
