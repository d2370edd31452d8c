import StyleAudit.Proofs.LocalRecovery
import StyleAudit.Proofs.StackMatching

/-!
# What is recorded in tolerant mode

One list takes up the errors of the tokens, of brackets that nothing closes and of
constructs that cannot be understood, from all depths. The last kind goes with the tree:
each malformed node was made where its error was recorded, and the readers make the nodes
in source order, the ones in a block before what follows it. `Faithful` says that nothing
but the errors of the nodes has been recorded, and it holds of the reading of a block,
where all brackets have been matched before.

On the outermost level brackets are matched on the way, segment by segment. A bracket that
is left open takes everything up to the end, so only one segment can meet such errors, and
nothing is left behind it. They are recorded before the errors of what that segment is
made into, and so they stand in one piece among those of the nodes (`Interrupted`); and as
a matcher that has come to the end still has those brackets on its stack, it tells which
they are.

The places of errors are those of code points or of tokens: a malformed node has its error
where one of its tokens starts or stops, and a bracket where it was opened.
-/

namespace StyleAudit

open Component (tokensIn Grouped Unread)

/-! ## The errors of nodes -/

namespace Node

/-- The error of a malformed node. -/
def fault? : Node → Option SyntaxError
  | malformed _ error => some error
  | _ => none

/-- The errors of some nodes and of all nodes in their blocks, in source order. -/
def faults (nodes : List Node) : List SyntaxError := (withinAll nodes).filterMap fault?

/-- Whether an error stands where a token of a malformed node starts or stops. -/
def Placed : Node → Prop
  | malformed values error =>
      ∃ t ∈ tokensIn values, error.position = t.span.start ∨ error.position = t.span.stop
  | _ => True

/-- Whether errors are those of some nodes, and stand where these have tokens. -/
structure Faithful (nodes : List Node) (errors : List SyntaxError) : Prop where
  errors_eq : errors = faults nodes
  placed : ∀ n ∈ withinAll nodes, n.Placed

section Faithful

variable {nodes more children : List Node} {errors found : List SyntaxError}

theorem Faithful.nil : Faithful [] [] := by
  refine ⟨?_, ?_⟩
  · rw [faults, withinAll, List.filterMap_nil]
  · exact fun _ hn => absurd hn not_mem_withinAll_nil

theorem Faithful.append (h : Faithful nodes errors) (hmore : Faithful more found) :
    Faithful (nodes ++ more) (errors ++ found) := by
  refine ⟨?_, ?_⟩
  · rw [h.errors_eq, hmore.errors_eq, faults, faults, faults, withinAll_append,
      List.filterMap_append]
  · rw [withinAll_append]
    exact List.forall_mem_append.2 ⟨h.placed, hmore.placed⟩

theorem Faithful.rule (prelude : List Component) (block : Block) (h : Faithful children errors) :
    Faithful [rule prelude block children] errors := by
  have hwithin : withinAll [.rule prelude block children] =
      .rule prelude block children :: withinAll children := by
    rw [withinAll, within, withinAll, List.append_nil]
  refine ⟨?_, ?_⟩
  · rw [faults, hwithin, List.filterMap_cons_none rfl]
    exact h.errors_eq
  · rw [hwithin]
    exact List.forall_mem_cons.2 ⟨trivial, h.placed⟩

theorem Faithful.atRule (name : Text) (span : Span) (prelude : List Component)
    (block : Option Block) (h : Faithful children errors) :
    Faithful [atRule name span prelude block children] errors := by
  have hwithin : withinAll [.atRule name span prelude block children] =
      .atRule name span prelude block children :: withinAll children := by
    rw [withinAll, within, withinAll, List.append_nil]
  refine ⟨?_, ?_⟩
  · rw [faults, hwithin, List.filterMap_cons_none rfl]
    exact h.errors_eq
  · rw [hwithin]
    exact List.forall_mem_cons.2 ⟨trivial, h.placed⟩

theorem Faithful.declaration (d : Declaration) : Faithful [declaration d] [] := by
  have hwithin : withinAll [.declaration d] = [.declaration d] := by
    rw [withinAll, within, withinAll, List.append_nil]
  refine ⟨?_, ?_⟩
  · rw [faults, hwithin]
    rfl
  · rw [hwithin]
    exact List.forall_mem_singleton.2 trivial

theorem Faithful.malformed {values : List Component} {error : SyntaxError}
    (h : (malformed values error).Placed) : Faithful [.malformed values error] [error] := by
  have hwithin : withinAll [.malformed values error] = [.malformed values error] := by
    rw [withinAll, within, withinAll, List.append_nil]
  refine ⟨?_, ?_⟩
  · rw [faults, hwithin]
    rfl
  · rw [hwithin]
    exact List.forall_mem_singleton.2 h

end Faithful

end Node

open Node (Faithful faults)

/-! ## Readings that finish -/

namespace Outcome

variable {α β : Type} {P : α → List SyntaxError → Prop} {Q : β → List SyntaxError → Prop}

/-- Whether a reading finishes, and what holds of its result and the errors recorded. -/
def Records (P : α → List SyntaxError → Prop) : Outcome α → Prop
  | done a errors => P a errors
  | halted _ _ => False

theorem Records.pure {a : α} (h : P a []) : Records P (Pure.pure a : Outcome α) := h

theorem Records.bind {x : Outcome α} {f : α → Outcome β} (hx : Records P x)
    (hf : ∀ a errors, P a errors → Records (fun b more => Q b (errors ++ more)) (f a)) :
    Records Q (x >>= f) := by
  cases x with
  | halted error rest => exact hx.elim
  | done a errors =>
      have h := hf a errors hx
      show Records Q (Outcome.bind (done a errors) f)
      rw [Outcome.bind]
      cases hfa : f a with
      | halted error rest =>
          rw [hfa] at h
          exact h.elim
      | done b more =>
          rw [hfa] at h
          exact h

theorem Records.inside {x : Outcome α} (hx : Records P x) (rest : List Component) :
    Records P (x.inside rest) := by
  cases x with
  | halted error left => exact hx.elim
  | done a errors => exact hx

/-- Errors that are reported come before all others. -/
theorem Records.report_then {f : Unit → Outcome β} {found : List Found}
    (hf : Records (fun b more => Q b (found.map Found.error ++ more)) (f ())) :
    Records Q (Mode.tolerant.report found >>= f) := by
  refine Records.bind (P := fun _ errors => errors = found.map Found.error) rfl ?_
  rintro _ errors rfl
  exact hf

end Outcome

open Outcome (Records)

namespace Declaration

/-- What is wrong with a declaration is found where a component of it starts or a name in
it stops. -/
theorem exists_place {cs : List Component} {e : SyntaxError} (hne : cs ≠ [])
    (h : ofComponents cs = .error e) :
    ∃ t ∈ tokensIn cs, e.position = t.span.start ∨ e.position = t.span.stop := by
  have hname {name : Text} {span : Span} {rest : List Component}
      (hcs : cs.dropWhile Component.isWhitespace = .token ⟨.ident name, span⟩ :: rest) :
      ⟨.ident name, span⟩ ∈ tokensIn cs :=
    Component.token_mem_tokensIn ((List.dropWhile_suffix _).subset (hcs ▸ List.mem_cons_self))
  unfold ofComponents at h
  split at h
  · next name span rest hcs =>
      split at h
      · dsimp only at h
        split at h
        · cases h
          exact ⟨_, hname hcs, .inr rfl⟩
        · cases h
      · cases h
        exact ⟨_, hname hcs, .inr rfl⟩
  · cases h
    cases cs with
    | nil => exact absurd rfl hne
    | cons c rest =>
        refine ⟨c.leading, ?_, .inl ?_⟩
        · exact (Component.tokens_sublist List.mem_cons_self).subset c.leading_mem_tokens
        · cases c <;> rfl

end Declaration

namespace Segment

variable {s : Segment} {nodes : Outcome (List Node)}

/-- What a segment records: the errors found in it, and then those of the nodes it is. -/
def Notes (s : Segment) (nodes : List Node) (errors : List SyntaxError) : Prop :=
  ∃ own, errors = s.errors.map Found.error ++ own ∧ Faithful nodes own

theorem atRule_records (keyword : Token) (h : Records Faithful nodes) :
    Records (fun n => s.Notes [n]) (s.atRule .tolerant keyword nodes) := by
  refine .report_then ((h.inside s.rest).bind fun children errors hchildren => .pure ?_)
  exact ⟨errors ++ [], rfl, by rw [List.append_nil]; exact hchildren.atRule _ _ _ _⟩

theorem item_records (hne : s.block = none → s.values ≠ []) (h : Records Faithful nodes) :
    Records (fun n => s.Notes [n]) (s.item .tolerant nodes) := by
  refine .report_then ?_
  split
  · next b hb =>
      refine (h.inside s.rest).bind fun children errors hchildren => .pure ?_
      exact ⟨errors ++ [], rfl, by rw [List.append_nil]; exact hchildren.rule _ _⟩
  · next hb =>
      split
      · next d hd => exact .pure ⟨[], rfl, .declaration d⟩
      · next e he =>
          refine .report_then (.pure ?_)
          exact ⟨[e], rfl, .malformed (Declaration.exists_place (hne hb) he)⟩

theorem rule?_records (h : Records Faithful nodes) :
    Records (fun n? => s.Notes n?.toList) (s.rule? .tolerant nodes) := by
  refine .report_then ?_
  split
  · next b hb =>
      refine (h.inside s.rest).bind fun children errors hchildren => .pure ?_
      exact ⟨errors ++ [], rfl, by rw [List.append_nil]; exact hchildren.rule _ _⟩
  · exact .pure ⟨[], rfl, .nil⟩
  · next c rest hb hvalues =>
      refine .report_then (.pure ?_)
      refine ⟨_, rfl, .malformed ⟨c.leading, ?_, .inl ?_⟩⟩
      · rw [hvalues]
        exact (Component.tokens_sublist List.mem_cons_self).subset c.leading_mem_tokens
      · cases c <;> rfl

end Segment

/-! ## Blocks -/

theorem contents_records {block : Option Block}
    (h : ∀ b, block = some b → Records Faithful (styleBlock .tolerant b.values)) :
    Records Faithful (contents .tolerant block) := by
  cases block with
  | none => exact .pure .nil
  | some b => exact h b rfl

theorem Component.Grouped.whole {c : Component} (h : c.Grouped) : c.Whole := ⟨h.isEof, h.of?⟩

/-- A node and those behind it, if no error has been found before. -/
theorem Outcome.Records.cons {s : Segment} {x : Outcome Node} {y : Outcome (List Node)}
    (hs : s.errors = []) (hx : Records (fun n => s.Notes [n]) x) (hy : Records Faithful y) :
    Records Faithful (do return (← x) :: (← y)) := by
  refine hx.bind fun n errors hn => hy.bind fun nodes more hnodes => .pure ?_
  obtain ⟨own, rfl, hown⟩ := hn
  rw [hs, List.map_nil, List.nil_append, List.append_nil]
  exact hown.append hnodes

/-- In a block nothing is recorded but the errors of the nodes in it. -/
theorem styleBlock_records {cs : List Component} (h : ∀ c ∈ cs, Grouped c) :
    Records Faithful (styleBlock .tolerant cs) := by
  induction cs using styleBlock.induct with
  | case1 =>
      rw [styleBlock_nil]
      exact .pure .nil
  | case2 c rest hskip ih =>
      rw [styleBlock_cons, if_pos hskip]
      exact ih (List.forall_mem_cons.1 h).2
  | case3 c rest _ heof =>
      rw [(h c List.mem_cons_self).isEof] at heof
      cases heof
  | case4 c rest hskip heof hat ihblock ihrest =>
      rw [styleBlock_cons, if_neg hskip, if_neg heof, if_pos hat]
      have hrest := (List.forall_mem_cons.1 h).2
      have hparts : ∀ c ∈ (atSegment rest).parts, Grouped c :=
        grouped_segment true true (.of_grouped hrest)
      have hclean : (atSegment rest).errors = [] :=
        segment_errors_of_whole fun d hd => (hrest d hd).whole
      have hcontents := contents_records fun b hb => ihblock b hb (grouped_block hb hparts)
      have hafter := ihrest fun d hd => hrest d ((suffix_atSegment rest).subset hd)
      exact .cons hclean (Segment.atRule_records _ hcontents) hafter
  | case5 c rest hskip heof hat ihblock ihrest =>
      rw [styleBlock_cons, if_neg hskip, if_neg heof, if_neg hat]
      have hparts : ∀ d ∈ (itemSegment c rest).parts, Grouped d :=
        grouped_segment true _ (.of_grouped h)
      have hclean : (itemSegment c rest).errors = [] :=
        segment_errors_of_whole fun d hd => (h d hd).whole
      have hcontents := contents_records fun b hb => ihblock b hb (grouped_block hb hparts)
      have hafter := ihrest fun d hd => h d ((suffix_itemSegment c rest).subset hd)
      refine .cons hclean (Segment.item_records (fun hb => ?_) hcontents) hafter
      exact Respelling.itemSegment_values_ne_nil hskip heof hb

/-! ## Segments that meet the end -/

section spent

variable {cs : List Component}

theorem enclose_errors_or_rest (o : Opening) (h : Unread cs) :
    (enclose o cs).errors = [] ∨ (enclose o cs).rest = [] := by
  induction o, cs using enclose_induct with
  | nil o =>
      rw [enclose_nil]
      exact .inr rfl
  | eof o c rest heof =>
      rw [enclose_eof rest o heof]
      exact .inr (h.last List.suffix_rfl heof)
  | closed o c rest span heof hcloses =>
      rw [enclose_closed rest heof hcloses]
      exact .inl rfl
  | opened o c rest inner heof hcloses hinner ihinner ihmore =>
      have hrest := h.of_suffix (List.suffix_cons c rest)
      rw [enclose_opened rest heof hcloses hinner]
      rcases ihmore (hrest.of_suffix (suffix_enclose inner rest)) with hmore | hmore
      · rcases ihinner hrest with hinside | hinside
        · exact .inl (List.append_eq_nil_iff.2 ⟨hinside, hmore⟩)
        · -- the inner bracket has taken all there was
          rw [hinside, enclose_nil]
          exact .inr rfl
      · exact .inr hmore
  | plain o c rest heof hcloses hopening ih =>
      rw [enclose_plain rest heof hcloses hopening]
      exact ih (h.of_suffix (List.suffix_cons c rest))

theorem takeValue_errors_or_rest {c : Component} {rest : List Component}
    (h : Unread (c :: rest)) : (takeValue c rest).errors = [] ∨ (takeValue c rest).rest = [] := by
  unfold takeValue
  split
  · next o _ => exact enclose_errors_or_rest o (h.of_suffix (List.suffix_cons c rest))
  · exact .inl rfl

/-- A segment in which a bracket is not closed leaves nothing. -/
theorem segment_errors_or_rest (semicolons braces : Bool) (h : Unread cs) :
    (segment semicolons braces cs).errors = [] ∨ (segment semicolons braces cs).rest = [] := by
  induction cs using segment_induct semicolons braces with
  | nil =>
      rw [segment]
      exact .inl rfl
  | stop c rest hstop =>
      rw [segment_stop hstop]
      exact .inl rfl
  | block c rest b hstop hbraces hb =>
      rw [segment_block hstop hbraces hb]
      exact takeValue_errors_or_rest h
  | value c rest hstop hvalue ih =>
      have hsuffix := (suffix_takeValue c rest).trans (List.suffix_cons c rest)
      rw [segment_value hstop hvalue]
      rcases ih (h.of_suffix hsuffix) with hmore | hmore
      · rcases takeValue_errors_or_rest h with hfirst | hfirst
        · exact .inl (List.append_eq_nil_iff.2 ⟨hfirst, hmore⟩)
        · rw [hfirst, segment]
          exact .inr rfl
      · exact .inr hmore

end spent

/-! ## The outermost level -/

/-- Errors of brackets that are not closed, in one piece among those of some nodes. -/
def Interrupted (unclosed : List SyntaxError) (nodes : List Node) (errors : List SyntaxError) :
    Prop :=
  ∃ before after, errors = before ++ (unclosed ++ after) ∧ Faithful nodes (before ++ after)

theorem Interrupted.nil : Interrupted [] [] [] := ⟨[], [], rfl, .nil⟩

/-- What a segment records, before what is recorded behind it; brackets have been left open
in one of the two at most. -/
theorem Interrupted.cons {s : Segment} {nodes more : List Node}
    {errors found unclosed : List SyntaxError} (h : s.Notes nodes errors)
    (hmore : Interrupted unclosed more found) (hspent : s.errors = [] ∨ unclosed = []) :
    Interrupted (s.errors.map Found.error ++ unclosed) (nodes ++ more) (errors ++ found) := by
  obtain ⟨own, rfl, hown⟩ := h
  obtain ⟨before, after, rfl, hfaithful⟩ := hmore
  have hall := hown.append hfaithful
  rcases hspent with hspent | rfl
  · refine ⟨own ++ before, after, ?_, ?_⟩
    · rw [hspent, List.map_nil, List.nil_append, List.nil_append, List.append_assoc]
    · rwa [List.append_assoc]
  · refine ⟨[], own ++ (before ++ after), ?_, hall⟩
    simp only [List.nil_append, List.append_nil, List.append_assoc]

/-- Behind a segment in which a bracket is not closed none is left to be matched. -/
theorem close_errors_or_unclosed (semicolons : Bool) {cs : List Component} {s : Segment}
    (h : Unread cs) (hs : (segment semicolons true cs).close = s) :
    s.errors = [] ∨ (groupingErrors s.rest).map Found.error = [] := by
  subst hs
  refine (segment_errors_or_rest semicolons true h).imp_right fun hrest => ?_
  have hclose : (segment semicolons true cs).close.rest = [] :=
    List.suffix_nil.1 (hrest ▸ suffix_close _)
  rw [hclose, groupingErrors_nil, List.map_nil]

theorem ruleList_records {cs : List Component} (h : Unread cs) :
    Records (Interrupted ((groupingErrors cs).map Found.error)) (ruleList .tolerant true cs) := by
  induction cs using ruleList.induct true with
  | case1 =>
      rw [ruleList, groupingErrors_nil]
      exact .pure .nil
  | case2 c rest hskip ih =>
      rw [ruleList, if_pos hskip, (grouped_gap rest hskip).2]
      exact ih (h.of_suffix (List.suffix_cons c rest))
  | case3 c rest hskip heof =>
      rw [ruleList, if_neg hskip, if_pos heof, groupingErrors_eof heof]
      exact .pure .nil
  | case4 c rest hskip heof hat s ih =>
      obtain ⟨name, span, rfl⟩ := Component.eq_of_isAtKeyword hat
      have hrest := h.of_suffix (List.suffix_cons _ rest)
      have hparts : ∀ c ∈ s.parts, Grouped c := grouped_segment true true hrest.loose
      have hcontents := contents_records fun b hb => styleBlock_records (grouped_block hb hparts)
      have hafter := ih (hrest.of_suffix (suffix_atSegment rest))
      have hfound := (close_segment_grouped hrest (rfl : _ = s)).2
      rw [ruleList, if_neg hskip, if_neg heof, if_pos hat,
        (grouped_plain (by simpa using heof) rfl).2, hfound, List.map_append]
      refine (Segment.atRule_records _ hcontents).bind fun n errors hn =>
        hafter.bind fun nodes found hnodes => .pure ?_
      rw [List.append_nil]
      exact .cons hn hnodes (close_errors_or_unclosed true hrest rfl)
  | case5 c rest hskip heof hat s ih =>
      have hparts : ∀ d ∈ s.parts, Grouped d := grouped_segment false true h.loose
      have hcontents := contents_records fun b hb => styleBlock_records (grouped_block hb hparts)
      have hafter := ih (h.of_suffix (suffix_ruleSegment (c :: rest)))
      have hfound := (close_segment_grouped h (rfl : _ = s)).2
      rw [ruleList, if_neg hskip, if_neg heof, if_neg hat, hfound, List.map_append]
      refine (Segment.rule?_records hcontents).bind fun n? errors hn =>
        hafter.bind fun nodes found hnodes => .pure ?_
      rw [List.append_nil]
      exact .cons hn hnodes (close_errors_or_unclosed false h rfl)

/-! ## Places -/

open Position (start)

/-- The errors of tokens stand where a part of the source has been read. -/
theorem Source.errors_bounds (before after : Text) :
    ∀ e ∈ (place (start.advance before) (lexemes after)).errors,
      start.advance before ≤ e.position ∧ e.position ≤ start.advance (before ++ after) := by
  induction after using lexemes.induct generalizing before with
  | case1 =>
      rw [lexemes_nil]
      exact List.forall_mem_nil _
  | case2 c rest _ ih =>
      rw [lexemes_cons, place]
      refine List.forall_mem_append.2 ⟨fun e he => ?_, fun e he => ?_⟩
      · obtain ⟨⟨fault, read⟩, hflaw, rfl⟩ := Option.map_eq_some_iff.1 (Option.mem_toList.1 he)
        obtain ⟨⟨found, left⟩, -, heq⟩ := Option.map_eq_some_iff.1 hflaw
        obtain ⟨-, rfl⟩ := Prod.mk.inj heq
        -- what had been read when the flaw was noticed is the front of what is ahead
        rw [Position.advance_append]
        exact ⟨Position.le_advance _ _, Position.advance_take_le _ _ _⟩
      · have happend := consumed_append ((scan_suffix c rest).trans (List.suffix_cons c rest))
        rw [← Position.advance_append] at he
        obtain ⟨hstart, hstop⟩ := ih _ e he
        refine ⟨?_, ?_⟩
        · rw [Position.advance_append] at hstart
          exact (Position.le_advance _ _).trans hstart
        · rw [List.append_assoc] at hstop
          exact happend ▸ hstop

namespace Matcher

/-- The openings on the stack of a matcher. -/
def openings (m : Matcher) : List Opening := m.stack.map Frame.opening

theorem openings_put (m : Matcher) (c : Component) : (m.put c).openings = m.openings := by
  obtain ⟨stack, outside⟩ := m
  cases stack <;> rfl

/-- A step puts nothing on the stack but what the token opens. -/
theorem openings_step (m : Matcher) (t : Token) :
    ∀ o ∈ (m.step t).openings, o.span = t.span ∨ o ∈ m.openings := by
  obtain ⟨kind, span⟩ := t
  have hput (c : Component) : ∀ o ∈ (m.put c).openings, o.span = span ∨ o ∈ m.openings :=
    fun o ho => .inr (openings_put m c ▸ ho)
  cases kind with
  | opening bracket => exact List.forall_mem_cons.2 ⟨.inl rfl, fun o ho => .inr ho⟩
  | function name => exact List.forall_mem_cons.2 ⟨.inl rfl, fun o ho => .inr ho⟩
  | closing bracket =>
      show ∀ o ∈ (m.close bracket span).openings, o.span = span ∨ o ∈ m.openings
      unfold close
      split
      · exact hput _
      · next f below hstack =>
          split
          · intro o ho
            rw [openings_put] at ho
            refine .inr ?_
            rw [openings, hstack]
            exact List.mem_cons_of_mem _ ho
          · exact hput _
  | _ => exact hput _

/-- What is still open has been opened by one of the tokens. -/
theorem openings_run (m : Matcher) (ts : List Token) :
    ∀ o ∈ (m.run ts).openings, (∃ t ∈ ts, o.span = t.span) ∨ o ∈ m.openings := by
  induction ts generalizing m with
  | nil => exact fun o ho => .inr ho
  | cons t ts ih =>
      intro o ho
      rcases ih (m.step t) o ho with ⟨u, hu, hspan⟩ | hstep
      · exact .inl ⟨u, List.mem_cons_of_mem t hu, hspan⟩
      · rcases openings_step m t o hstep with hspan | hopen
        · exact .inl ⟨t, List.mem_cons_self, hspan⟩
        · exact .inr hopen

end Matcher

namespace Stylesheet

/-- Where the tokens of a source are. -/
theorem bounds_of_mem_body {source : Text} {t : Token} (h : t ∈ body source) :
    start ≤ t.span.start ∧ t.span.start ≤ t.span.stop ∧
      t.span.stop ≤ start.advance (Source.normalize source) :=
  (Source.tiling_tokenize source).bounds t (List.mem_of_mem_filter h)

theorem bounds_of_lexed {source : Text} :
    ∀ e ∈ (Source.tokenize source).errors,
      start ≤ e.position ∧ e.position ≤ start.advance (Source.normalize source) :=
  Source.errors_bounds [] (Source.normalize source)

theorem bounds_of_unclosed {source : Text} :
    ∀ e ∈ Matcher.unclosed (Matcher.run .empty (body source)).stack,
      start ≤ e.position ∧ e.position ≤ start.advance (Source.normalize source) := by
  intro e he
  obtain ⟨f, hf, rfl⟩ := List.mem_map.1 he
  rcases Matcher.openings_run .empty (body source) f.opening (List.mem_map_of_mem hf) with
    ⟨t, ht, hspan⟩ | hnone
  · obtain ⟨hstart, hle, hstop⟩ := bounds_of_mem_body ht
    show start ≤ f.opening.span.start ∧ f.opening.span.start ≤ _
    rw [hspan]
    exact ⟨hstart, hle.trans hstop⟩
  · cases hnone

theorem bounds_of_fault {source : Text} {sheet : Stylesheet}
    (hparse : parse .tolerant source = .ok sheet)
    (hplaced : ∀ n ∈ Node.withinAll sheet.rules, n.Placed) :
    ∀ e ∈ faults sheet.rules,
      start ≤ e.position ∧ e.position ≤ start.advance (Source.normalize source) := by
  intro e he
  obtain ⟨n, hn, hfault⟩ := List.mem_filterMap.1 he
  cases n with
  | malformed values error =>
      obtain rfl := Option.some.inj hfault
      obtain ⟨t, ht, hposition⟩ := hplaced _ hn
      obtain ⟨own, hown, hsub⟩ := writtenIn_of_parse hparse _ hn
      cases hown with
      | malformed =>
          obtain ⟨hstart, hle, hstop⟩ := bounds_of_mem_body (hsub.subset ht)
          rcases hposition with hposition | hposition
          · rw [hposition]
            exact ⟨hstart, hle.trans hstop⟩
          · rw [hposition]
            exact ⟨hstart.trans hle, hstop⟩
  | _ => cases hfault

/-- What is recorded for a source: the errors of its tokens, and then those of its malformed
nodes in the order of the tree, with those of the brackets that are open at the end in one
piece among them. All stand between the start and the end of the source. -/
theorem errors_recorded (source : Text) :
    ∃ sheet before after, parse .tolerant source = .ok sheet ∧
      sheet.errors = (Source.tokenize source).errors ++
        (before ++ (Matcher.unclosed (Matcher.run .empty (body source)).stack ++ after)) ∧
      faults sheet.rules = before ++ after ∧
      (∃ init, (Source.tokenize source).tokens = init ++
        [⟨.eof, ⟨start.advance (Source.normalize source),
          start.advance (Source.normalize source)⟩⟩]) ∧
      ∀ e ∈ sheet.errors,
        start ≤ e.position ∧ e.position ≤ start.advance (Source.normalize source) := by
  obtain ⟨rules, errors, hrules⟩ :=
    exists_ruleList_tolerant (components (Source.tokenize source).tokens)
  have hparse := parse_tolerant_of_ruleList hrules
  have hrecords := ruleList_records (unread_tokenize source)
  obtain ⟨last, hlast, hcomponents⟩ := components_tokenize source
  have hkinds : ∀ t ∈ body source, t.kind ≠ .eof := fun t ht => (body_kind ht).1
  rw [hrules, hcomponents, (Matcher.grouped_matched hlast (body source) hkinds []).2] at hrecords
  obtain ⟨before, after, herrors, hfaithful⟩ := hrecords
  obtain ⟨init, htokens, -⟩ := (Source.tiling_tokenize source).split_last
  refine ⟨_, before, after, hparse, congrArg (_ ++ ·) herrors, hfaithful.errors_eq.symm,
    ⟨init, htokens⟩, ?_⟩
  have hfault := bounds_of_fault hparse hfaithful.placed
  rw [show faults rules = before ++ after from hfaithful.errors_eq.symm,
    List.forall_mem_append] at hfault
  show ∀ e ∈ (Source.tokenize source).errors ++ errors, _
  rw [herrors]
  simp only [List.forall_mem_append]
  exact ⟨bounds_of_lexed, hfault.1, bounds_of_unclosed, hfault.2⟩

end Stylesheet

end StyleAudit
