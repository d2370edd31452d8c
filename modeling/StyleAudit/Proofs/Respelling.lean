import StyleAudit.Tree.Stylesheet

/-!
# Reading does not look at names or places

A respelling changes how names are written and where things stand. It keeps what
the readers of a tree ask of a name: its small form, and whether it is that of a
custom property. Every other question that a reader asks of a component is about
the kind of a token.

So reading commutes with respelling, reader by reader: respelled components give
the respelled tree, and the same errors in respelled places. The lemmas go
through grouping, segments, declarations and the two levels of rules in that
order, each from the one before.
-/

namespace StyleAudit

/-- A change of names and places. Names keep their small form and whether they
are custom properties; the name that the nesting selector has without its being
written stays as it is. -/
structure Respelling where
  name : Text → Text
  place : Position → Position
  lower_name : ∀ t, Text.lower (name t) = Text.lower t
  custom_name : ∀ t, isCustomProperty (name t) = isCustomProperty t
  nesting_name : name "nesting".toList = "nesting".toList

namespace Respelling

variable (r : Respelling)

/-! ## Tokens and components -/

def span (s : Span) : Span := ⟨r.place s.start, r.place s.stop⟩

/-- A numeral has letters only in the mark of its exponent. -/
def numeral (n : Numeral) : Numeral := { n with exponent := r.name n.exponent }

def kind : Token.Kind → Token.Kind
  | .ident t => .ident (r.name t)
  | .function t => .function (r.name t)
  | .atKeyword t => .atKeyword (r.name t)
  | .hash t isId => .hash (r.name t) isId
  | .string t => .string (r.name t)
  | .badString t => .badString (r.name t)
  | .url t => .url (r.name t)
  | .badUrl t => .badUrl (r.name t)
  | .number n => .number (r.numeral n)
  | .percentage n => .percentage (r.numeral n)
  | .dimension n unit => .dimension (r.numeral n) (r.name unit)
  | .comment t => .comment (r.name t)
  | .whitespace t => .whitespace (r.name t)
  | k => k

def token (t : Token) : Token := ⟨r.kind t.kind, r.span t.span⟩

theorem kind_eq (h : ∀ t, r.name t = t) (k : Token.Kind) : r.kind k = k := by
  cases k <;> simp [kind, numeral, h]

mutual

def component : Component → Component
  | .token t => .token (r.token t)
  | .function name head values closing =>
      .function (r.name name) (r.span head) (components values)
        (closing.map r.span)
  | .block bracket opening values closing =>
      .block bracket (r.span opening) (components values) (closing.map r.span)

def components : List Component → List Component
  | [] => []
  | c :: rest => component c :: components rest

end

theorem components_eq_map (cs : List Component) :
    r.components cs = cs.map r.component := by
  induction cs with
  | nil => rw [components, List.map_nil]
  | cons c cs ih => rw [components, ih, List.map_cons]

theorem component_token (t : Token) :
    r.component (.token t) = .token (r.token t) := by rw [component]

theorem component_function (name : Text) (head : Span)
    (values : List Component) (closing : Option Span) :
    r.component (.function name head values closing) =
      .function (r.name name) (r.span head) (values.map r.component)
        (closing.map r.span) := by
  rw [component, components_eq_map]

theorem component_block (bracket : Bracket) (opening : Span)
    (values : List Component) (closing : Option Span) :
    r.component (.block bracket opening values closing) =
      .block bracket (r.span opening) (values.map r.component)
        (closing.map r.span) := by
  rw [component, components_eq_map]

theorem start_component (c : Component) :
    (r.component c).start = r.place c.start := by
  cases c with
  | token t => rw [component_token]; rfl
  | function => rw [component_function]; rfl
  | block => rw [component_block]; rfl

theorem kind?_component (c : Component) :
    (r.component c).kind? = c.kind?.map r.kind := by
  cases c with
  | token t => rw [component_token]; rfl
  | function => rw [component_function]; rfl
  | block => rw [component_block]; rfl

theorem isWhitespace_component (c : Component) :
    (r.component c).isWhitespace = c.isWhitespace := by
  rw [Component.isWhitespace, kind?_component, Component.isWhitespace]
  cases c.kind? with
  | none => rfl
  | some k => cases k <;> rfl

/-- A token without text is found wherever it was. -/
theorem kind?_component_beq {k : Token.Kind}
    (h : ∀ k', r.kind k' = k ↔ k' = k) (c : Component) :
    ((r.component c).kind? == some k) = (c.kind? == some k) := by
  rw [kind?_component, Bool.eq_iff_iff, beq_iff_eq, beq_iff_eq]
  cases c.kind? with
  | none => simp
  | some k' => simp [h k']

theorem isEof_component (c : Component) : (r.component c).isEof = c.isEof :=
  r.kind?_component_beq (fun k => by cases k <;> simp [kind]) c

theorem isSemicolon_component (c : Component) :
    (r.component c).isSemicolon = c.isSemicolon :=
  r.kind?_component_beq (fun k => by cases k <;> simp [kind]) c

theorem isColon_component (c : Component) :
    (r.component c).isColon = c.isColon :=
  r.kind?_component_beq (fun k => by cases k <;> simp [kind]) c

theorem isDocumentMark_component (c : Component) :
    (r.component c).isDocumentMark = c.isDocumentMark := by
  rw [Component.isDocumentMark,
    r.kind?_component_beq (fun k => by cases k <;> simp [kind]),
    r.kind?_component_beq (fun k => by cases k <;> simp [kind]),
    Component.isDocumentMark]

theorem isAtKeyword_component (c : Component) :
    (r.component c).isAtKeyword = c.isAtKeyword := by
  rw [Component.isAtKeyword, kind?_component, Component.isAtKeyword]
  cases c.kind? with
  | none => rfl
  | some k => cases k <;> rfl

theorem ident?_component (c : Component) :
    (r.component c).ident? = c.ident?.map r.name := by
  rw [Component.ident?, kind?_component, Component.ident?]
  cases c.kind? with
  | none => rfl
  | some k => cases k <;> rfl

theorem leading_component (c : Component) :
    (r.component c).leading = r.token c.leading := by
  cases c with
  | token t => rw [component_token]; rfl
  | function => rw [component_function]; rfl
  | block => rw [component_block]; rfl

/-- A way to drop components that does not look at names or places. -/
theorem dropWhile_component (cs : List Component) :
    (cs.map r.component).dropWhile Component.isWhitespace =
      (cs.dropWhile Component.isWhitespace).map r.component := by
  rw [List.dropWhile_map]
  congr 2
  exact funext r.isWhitespace_component

theorem trim_component (cs : List Component) :
    trim Component.isWhitespace (cs.map r.component) =
      (trim Component.isWhitespace cs).map r.component := by
  rw [trim, dropWhile_component, dropTrailing, ← List.map_reverse,
    dropWhile_component, ← List.map_reverse, trim, dropTrailing]

/-! ## Grouping -/

def fault : Fault → Fault
  | .valueMissing property => .valueMissing (r.name property)
  | f => f

def error (e : SyntaxError) : SyntaxError := ⟨r.fault e.fault, r.place e.position⟩

theorem error_eq (h : ∀ t, r.name t = t) (e : SyntaxError) :
    r.error e = ⟨e.fault, r.place e.position⟩ := by
  obtain ⟨fault, position⟩ := e
  cases fault <;> simp [error, Respelling.fault, h]

def found (f : Found) : Found := ⟨r.error f.error, f.rest.map r.component⟩

def opening (o : Opening) : Opening := ⟨o.name?.map r.name, o.bracket, r.span o.span⟩

def enclosed (e : Enclosed) : Enclosed :=
  ⟨e.values.map r.component, e.closing.map r.span, e.rest.map r.component,
    e.errors.map r.found⟩

def taken (t : Taken) : Taken :=
  ⟨r.component t.value, t.rest.map r.component, t.errors.map r.found⟩

def block (b : Block) : Block :=
  ⟨r.span b.opening, b.values.map r.component, b.closing.map r.span⟩

def segment (s : Segment) : Segment :=
  ⟨s.values.map r.component, s.block.map r.block, s.rest.map r.component,
    s.errors.map r.found⟩

theorem of?_component (c : Component) :
    Opening.of? (r.component c) = (Opening.of? c).map r.opening := by
  cases c with
  | token t =>
      obtain ⟨kind, span⟩ := t
      rw [component_token]
      cases kind <;> rfl
  | function => rw [component_function]; rfl
  | block => rw [component_block]; rfl

theorem closes?_component (bracket : Bracket) (c : Component) :
    (r.component c).closes? bracket = (c.closes? bracket).map r.span := by
  cases c with
  | token t =>
      obtain ⟨kind, span⟩ := t
      rw [component_token]
      cases kind with
      | closing b =>
          show (if b = bracket then _ else _) = Option.map _ (if b = bracket then _ else _)
          split <;> rfl
      | _ => rfl
  | function => rw [component_function]; rfl
  | block => rw [component_block]; rfl

theorem component_opening (o : Opening) (values : List Component)
    (closing : Option Span) :
    (r.opening o).component (values.map r.component) (closing.map r.span) =
      r.component (o.component values closing) := by
  obtain ⟨name?, bracket, span⟩ := o
  cases name? with
  | none => exact (r.component_block bracket span values closing).symm
  | some name => exact (r.component_function name span values closing).symm

theorem unclosed_opening (o : Opening) :
    (r.opening o).unclosed = r.error o.unclosed := by
  obtain ⟨name?, bracket, span⟩ := o
  cases name? <;> rfl

theorem curly?_component (c : Component) :
    (r.component c).curly? = c.curly?.map r.block := by
  cases c with
  | token t => rw [component_token]; rfl
  | function => rw [component_function]; rfl
  | block bracket =>
      rw [component_block]
      cases bracket <;> rfl

theorem enclose_component (o : Opening) (cs : List Component) :
    enclose (r.opening o) (cs.map r.component) = r.enclosed (enclose o cs) := by
  cases cs with
  | nil =>
      rw [List.map_nil, enclose_nil, enclose_nil, unclosed_opening]
      rfl
  | cons c rest =>
      rw [List.map_cons, enclose_cons, enclose_cons, isEof_component,
        closes?_component, of?_component, unclosed_opening]
      cases c.isEof with
      | true => rfl
      | false =>
          have hbracket : (r.opening o).bracket = o.bracket := rfl
          rw [hbracket]
          cases c.closes? o.bracket with
          | some span => rfl
          | none =>
              cases Opening.of? c with
              | none =>
                  have hrest := enclose_component o rest
                  simp only [Option.map_none, hrest]
                  rfl
              | some inner =>
                  have hweight := weights_enclose inner rest
                  have hinner := enclose_component inner rest
                  have hrest := enclose_component o (enclose inner rest).rest
                  simp only [Option.map_some, hinner, Respelling.enclosed] at hrest ⊢
                  simp only [hrest, component_opening, Bool.false_eq_true,
                    if_false, Option.map_none, List.map_append, List.map_cons]
termination_by Component.weights cs
decreasing_by
  all_goals
    have hc := c.weight_pos
    simp only [Component.weights]
    omega

theorem takeValue_component (c : Component) (rest : List Component) :
    takeValue (r.component c) (rest.map r.component) =
      r.taken (takeValue c rest) := by
  unfold takeValue
  rw [of?_component]
  cases Opening.of? c with
  | none => rfl
  | some o =>
      simp only [Option.map_some, enclose_component, Respelling.taken,
        Respelling.enclosed, component_opening]

theorem segment_component (semicolons braces : Bool) (cs : List Component) :
    StyleAudit.segment semicolons braces (cs.map r.component) =
      r.segment (StyleAudit.segment semicolons braces cs) := by
  have hcurly (c : Component) :
      (if braces then (r.component c).curly? else none) =
        (if braces then c.curly? else none).map r.block := by
    rw [curly?_component]
    cases braces <;> rfl
  fun_induction StyleAudit.segment semicolons braces cs with
  | case1 =>
      rw [List.map_nil, StyleAudit.segment]
      rfl
  | case2 c rest hend =>
      rw [List.map_cons, StyleAudit.segment, isEof_component,
        isSemicolon_component, if_pos hend]
      rfl
  | case3 c rest hend block hblock =>
      have hvalue := hcurly (takeValue c rest).value
      rw [show (if braces then (takeValue c rest).value.curly? else none) =
        some block from by simpa using hblock] at hvalue
      rw [List.map_cons, StyleAudit.segment, isEof_component,
        isSemicolon_component, if_neg hend, takeValue_component]
      simp only [Respelling.taken, hvalue, Option.map_some]
      rfl
  | case4 c rest hend hblock more ih =>
      have hvalue := hcurly (takeValue c rest).value
      rw [show (if braces then (takeValue c rest).value.curly? else none) =
        none from by simpa using hblock] at hvalue
      rw [List.map_cons, StyleAudit.segment, isEof_component,
        isSemicolon_component, if_neg hend, takeValue_component]
      simp only [Respelling.taken, hvalue, Option.map_none, ih,
        Respelling.segment, List.map_cons, List.map_append, more]

theorem close_segment (s : Segment) : (r.segment s).close = r.segment s.close := by
  unfold Segment.close Respelling.segment
  simp only [Option.isSome_map]
  split
  · rfl
  · rw [List.map_drop]

theorem atSegment_component (cs : List Component) :
    atSegment (cs.map r.component) = r.segment (atSegment cs) := by
  rw [atSegment, segment_component, close_segment, atSegment]

theorem ruleSegment_component (cs : List Component) :
    ruleSegment (cs.map r.component) = r.segment (ruleSegment cs) := by
  rw [ruleSegment, segment_component, close_segment, ruleSegment]

theorem itemSegment_component (c : Component) (rest : List Component) :
    itemSegment (r.component c) (rest.map r.component) =
      r.segment (itemSegment c rest) := by
  have hcustom : (r.component c).ident?.any isCustomProperty =
      c.ident?.any isCustomProperty := by
    rw [ident?_component]
    cases c.ident? with
    | none => rfl
    | some name => exact r.custom_name name
  rw [itemSegment, hcustom, ← List.map_cons, segment_component, itemSegment]

/-! ## Declarations -/

def declaration (d : Declaration) : Declaration :=
  ⟨r.name d.name, r.span d.span, d.values.map r.component, d.important⟩

/-- A result with its value changed and its error respelled. -/
def result {α β : Type} (g : α → β) : Except SyntaxError α → Except SyntaxError β
  | .ok a => .ok (g a)
  | .error e => .error (r.error e)

theorem splitImportant_component (values : List Component) :
    Declaration.splitImportant (values.map r.component) =
      ((Declaration.splitImportant values).1.map r.component,
        (Declaration.splitImportant values).2) := by
  have hreverse : (values.map r.component).reverse =
      values.reverse.map r.component := List.map_reverse.symm
  unfold Declaration.splitImportant
  rw [hreverse]
  -- Only the last two components are looked at.
  match values.reverse with
  | [] => rfl
  | .function .. :: _ => rw [List.map_cons, component_function]
  | .block .. :: _ => rw [List.map_cons, component_block]
  | .token ⟨kind, span⟩ :: rest =>
      rw [List.map_cons, component_token]
      cases kind with
      | ident word =>
          match rest with
          | [] => rfl
          | .function .. :: _ => rw [List.map_cons, component_function]; rfl
          | .block .. :: _ => rw [List.map_cons, component_block]; rfl
          | .token ⟨kind, span⟩ :: before =>
              rw [List.map_cons, component_token]
              cases kind with
              | delim mark =>
                  simp only [token, kind, r.lower_name, dropWhile_component,
                    ← List.map_reverse]
                  split <;> rfl
              | _ => rfl
      | _ => rfl

/-- The declaration of respelled components. Where there are none the error
stands at the start of a source, which a respelling need not keep. -/
theorem declaration_component {cs : List Component} (hcs : cs ≠ []) :
    Declaration.ofComponents (cs.map r.component) =
      r.result r.declaration (Declaration.ofComponents cs) := by
  have hstart : ((cs.map r.component).head?.map Component.start).getD .start =
      r.place ((cs.head?.map Component.start).getD .start) := by
    cases cs with
    | nil => exact absurd rfl hcs
    | cons c rest => exact r.start_component c
  unfold Declaration.ofComponents
  rw [dropWhile_component, hstart]
  match cs.dropWhile Component.isWhitespace with
  | [] => rfl
  | .function .. :: _ => rw [List.map_cons, component_function]; rfl
  | .block .. :: _ => rw [List.map_cons, component_block]; rfl
  | .token ⟨kind, span⟩ :: rest =>
      rw [List.map_cons, component_token]
      cases kind with
      | ident name =>
          simp only [token, kind, dropWhile_component]
          match rest.dropWhile Component.isWhitespace with
          | [] => rfl
          | .function .. :: _ => rw [List.map_cons, component_function]; rfl
          | .block .. :: _ => rw [List.map_cons, component_block]; rfl
          | .token ⟨kind, _⟩ :: body =>
              rw [List.map_cons, component_token]
              cases kind with
              | colon =>
                  simp only [token, kind, trim_component,
                    splitImportant_component, List.isEmpty_map, r.custom_name]
                  split <;> rfl
              | _ => rfl
      | _ => rfl

/-! ## Outcomes -/

mutual

def node : Node → Node
  | .declaration d => .declaration (r.declaration d)
  | .rule prelude block children =>
      .rule (prelude.map r.component) (r.block block) (nodes children)
  | .atRule name span prelude block children =>
      .atRule (r.name name) (r.span span) (prelude.map r.component)
        (block.map r.block) (nodes children)
  | .malformed values error =>
      .malformed (values.map r.component) (r.error error)

def nodes : List Node → List Node
  | [] => []
  | n :: rest => node n :: nodes rest

end

theorem nodes_append (ns more : List Node) :
    r.nodes (ns ++ more) = r.nodes ns ++ r.nodes more := by
  induction ns with
  | nil => rw [nodes, List.nil_append, List.nil_append]
  | cons n ns ih => rw [List.cons_append, nodes, nodes, ih, List.cons_append]

section Outcomes

variable {α α' β β' : Type}

/-- An outcome with its value changed and its errors and rest respelled. -/
def outcome (g : α → α') : Outcome α → Outcome α'
  | .done a errors => .done (g a) (errors.map r.error)
  | .halted e rest => .halted (r.error e) (rest.map r.component)

theorem outcome_pure (g : α → α') (a : α) :
    (pure (g a) : Outcome α') = r.outcome g (pure a) := rfl

theorem outcome_bind {g : α → α'} {h : β → β'} {x : Outcome α} {x' : Outcome α'}
    {f : α → Outcome β} {f' : α' → Outcome β'} (hx : x' = r.outcome g x)
    (hf : ∀ a, f' (g a) = r.outcome h (f a)) :
    (x' >>= f') = r.outcome h (x >>= f) := by
  subst hx
  cases x with
  | halted e rest => rfl
  | done a errors =>
      show Outcome.bind (.done (g a) (errors.map r.error)) f' =
        r.outcome h (Outcome.bind (.done a errors) f)
      simp only [Outcome.bind, hf a]
      cases f a with
      | halted e rest => rfl
      | done b more => simp only [outcome, List.map_append]

theorem outcome_inside (g : α → α') (x : Outcome α) (rest : List Component) :
    (r.outcome g x).inside (rest.map r.component) =
      r.outcome g (x.inside rest) := by
  cases x <;> rfl

theorem outcome_report (mode : Mode) (errors : List Found) :
    mode.report (errors.map r.found) = r.outcome id (mode.report errors) := by
  cases mode with
  | strict => cases errors <;> rfl
  | tolerant =>
      simp only [Mode.report, outcome, List.map_map]
      rfl

end Outcomes

/-! ## The readers of rules -/

section Segments

variable {mode : Mode} {nodes nodes' : Outcome (List Node)}

theorem atRule_segment (s : Segment) {keyword : Token}
    (hraw : (r.kind keyword.kind).raw = r.name keyword.kind.raw)
    (hnodes : nodes' = r.outcome r.nodes nodes) :
    (r.segment s).atRule mode (r.token keyword) nodes' =
      r.outcome r.node (s.atRule mode keyword nodes) := by
  unfold Segment.atRule
  refine r.outcome_bind (r.outcome_report mode s.errors) fun _ => ?_
  refine r.outcome_bind (hnodes ▸ r.outcome_inside _ nodes s.rest) fun children => ?_
  rw [← outcome_pure, node]
  simp only [token, segment, hraw]

theorem rule?_segment (s : Segment) (hnodes : nodes' = r.outcome r.nodes nodes) :
    (r.segment s).rule? mode nodes' =
      r.outcome (Option.map r.node) (s.rule? mode nodes) := by
  obtain ⟨values, block, rest, errors⟩ := s
  unfold Segment.rule?
  refine r.outcome_bind (r.outcome_report mode errors) fun _ => ?_
  cases block with
  | some block =>
      refine r.outcome_bind (hnodes ▸ r.outcome_inside _ nodes rest)
        fun children => ?_
      rw [← outcome_pure, Option.map_some, node]
      rfl
  | none =>
      cases values with
      | nil => rfl
      | cons c values =>
          have hmalformed : (⟨.ruleNotClosed, (r.component c).start⟩ : SyntaxError) =
              r.error ⟨.ruleNotClosed, c.start⟩ := by
            rw [start_component]
            rfl
          simp only [segment, Option.map_none, List.map_cons, hmalformed]
          refine r.outcome_bind (r.outcome_report mode [⟨_, rest⟩]) fun _ => ?_
          rw [← outcome_pure, Option.map_some, node]
          rfl

theorem item_segment (s : Segment) (hvalues : s.block = none → s.values ≠ [])
    (hnodes : nodes' = r.outcome r.nodes nodes) :
    (r.segment s).item mode nodes' = r.outcome r.node (s.item mode nodes) := by
  obtain ⟨values, block, rest, errors⟩ := s
  unfold Segment.item
  refine r.outcome_bind (r.outcome_report mode errors) fun _ => ?_
  cases block with
  | some block =>
      refine r.outcome_bind (hnodes ▸ r.outcome_inside _ nodes rest)
        fun children => ?_
      rw [← outcome_pure, node]
      rfl
  | none =>
      simp only [segment, Option.map_none, r.declaration_component (hvalues rfl)]
      cases Declaration.ofComponents values with
      | ok d =>
          simp only [result]
          rw [← outcome_pure, node]
      | error e =>
          simp only [result]
          refine r.outcome_bind (r.outcome_report mode [⟨e, rest⟩]) fun _ => ?_
          rw [← outcome_pure, node]

end Segments

theorem raw_leading {c : Component} (h : c.isAtKeyword = true) :
    (r.kind c.leading.kind).raw = r.name c.leading.kind.raw := by
  cases c with
  | token t =>
      obtain ⟨kind, span⟩ := t
      cases kind with
      | atKeyword name => rfl
      | _ => cases h
  | function => cases h
  | block => cases h

theorem contents_block {mode : Mode} {block : Option Block}
    (h : ∀ b, block = some b → styleBlock mode (b.values.map r.component) =
      r.outcome r.nodes (styleBlock mode b.values)) :
    contents mode (block.map r.block) =
      r.outcome r.nodes (contents mode block) := by
  cases block with
  | none => exact r.outcome_pure r.nodes []
  | some b => exact h b rfl

/-- One construct and all that follow it. -/
theorem outcome_cons {x x' : Outcome Node} {xs xs' : Outcome (List Node)}
    (hx : x' = r.outcome r.node x) (hxs : xs' = r.outcome r.nodes xs) :
    (do return (← x') :: (← xs')) =
      r.outcome r.nodes (do return (← x) :: (← xs)) := by
  refine r.outcome_bind hx fun n => r.outcome_bind hxs fun ns => ?_
  rw [← outcome_pure, nodes]

/-- An item that ends without a block holds at least what it starts with. -/
theorem itemSegment_values_ne_nil {c : Component} {rest : List Component}
    (hskip : ¬ (c.isWhitespace || c.isSemicolon) = true) (heof : ¬ c.isEof = true)
    (hblock : (itemSegment c rest).block = none) :
    (itemSegment c rest).values ≠ [] := by
  rw [Bool.or_eq_true, not_or] at hskip
  have hend : ¬ (c.isEof || (true && c.isSemicolon)) = true := by
    rw [Bool.true_and, Bool.or_eq_true]
    exact not_or.2 ⟨heof, hskip.2⟩
  unfold itemSegment at hblock ⊢
  rw [StyleAudit.segment, if_neg hend] at hblock ⊢
  split at hblock
  · cases hblock
  · exact List.cons_ne_nil _ _

theorem styleBlock_component (mode : Mode) (cs : List Component) :
    styleBlock mode (cs.map r.component) =
      r.outcome r.nodes (styleBlock mode cs) := by
  induction cs using styleBlock.induct with
  | case1 =>
      rw [List.map_nil, styleBlock_nil]
      rfl
  | case2 c rest hskip ih =>
      rw [List.map_cons, styleBlock_cons, styleBlock_cons, isWhitespace_component,
        isSemicolon_component, if_pos hskip, if_pos hskip]
      exact ih
  | case3 c rest hskip heof =>
      rw [List.map_cons, styleBlock_cons, styleBlock_cons, isWhitespace_component,
        isSemicolon_component, isEof_component, if_neg hskip, if_neg hskip,
        if_pos heof, if_pos heof]
      rfl
  | case4 c rest hskip heof hat ihblock ihrest =>
      rw [List.map_cons, styleBlock_cons, styleBlock_cons, isWhitespace_component,
        isSemicolon_component, isEof_component, isAtKeyword_component,
        if_neg hskip, if_neg hskip, if_neg heof, if_neg heof, if_pos hat,
        if_pos hat, atSegment_component, leading_component]
      exact r.outcome_cons (r.atRule_segment (atSegment rest) (r.raw_leading hat)
        (r.contents_block ihblock)) ihrest
  | case5 c rest hskip heof hat ihblock ihrest =>
      rw [List.map_cons, styleBlock_cons, styleBlock_cons, isWhitespace_component,
        isSemicolon_component, isEof_component, isAtKeyword_component,
        if_neg hskip, if_neg hskip, if_neg heof, if_neg heof, if_neg hat,
        if_neg hat, itemSegment_component]
      exact r.outcome_cons (r.item_segment (itemSegment c rest)
        (itemSegment_values_ne_nil hskip heof) (r.contents_block ihblock)) ihrest

theorem ruleList_component (mode : Mode) (outermost : Bool)
    (cs : List Component) :
    ruleList mode outermost (cs.map r.component) =
      r.outcome r.nodes (ruleList mode outermost cs) := by
  have hcontents (block : Option Block) : contents mode (block.map r.block) =
      r.outcome r.nodes (contents mode block) :=
    r.contents_block fun b _ => r.styleBlock_component mode b.values
  induction cs using ruleList.induct outermost with
  | case1 =>
      rw [List.map_nil, ruleList]
      rfl
  | case2 c rest hskip ih =>
      rw [List.map_cons, ruleList, ruleList, isWhitespace_component,
        isDocumentMark_component, if_pos hskip, if_pos hskip]
      exact ih
  | case3 c rest hskip heof =>
      rw [List.map_cons, ruleList, ruleList, isWhitespace_component,
        isDocumentMark_component, isEof_component, if_neg hskip, if_neg hskip,
        if_pos heof, if_pos heof]
      rfl
  | case4 c rest hskip heof hat s ih =>
      rw [List.map_cons, ruleList, ruleList, isWhitespace_component,
        isDocumentMark_component, isEof_component, isAtKeyword_component,
        if_neg hskip, if_neg hskip, if_neg heof, if_neg heof, if_pos hat,
        if_pos hat, atSegment_component, leading_component]
      exact r.outcome_cons (r.atRule_segment s (r.raw_leading hat)
        (hcontents s.block)) ih
  | case5 c rest hskip heof hat s ih =>
      rw [List.map_cons, ruleList, ruleList, isWhitespace_component,
        isDocumentMark_component, isEof_component, isAtKeyword_component,
        if_neg hskip, if_neg hskip, if_neg heof, if_neg heof, if_neg hat,
        if_neg hat, ← List.map_cons, ruleSegment_component]
      refine r.outcome_bind (r.rule?_segment s (hcontents s.block))
        fun node? => r.outcome_bind ih fun ns => ?_
      rw [← outcome_pure, nodes_append]
      cases node? with
      | none => rw [Option.map_none, Option.toList_none, nodes]
      | some n =>
          rw [Option.map_some, Option.toList_some, Option.toList_some, nodes, nodes]

/-! ## Stylesheets -/

def tokens (t : Source.Tokens) : Source.Tokens :=
  ⟨t.tokens.map r.token, t.errors.map r.error⟩

def sheet (s : Stylesheet) : Stylesheet := ⟨r.nodes s.rules, s.errors.map r.error⟩

theorem components_token (ts : List Token) :
    Stylesheet.components (ts.map r.token) =
      (Stylesheet.components ts).map r.component := by
  have hcomment (t : Token) : (r.token t).kind.isComment = t.kind.isComment := by
    obtain ⟨kind, span⟩ := t
    cases kind <;> rfl
  unfold Stylesheet.components
  rw [List.filter_map, List.map_map, List.map_map]
  simp only [Function.comp_def, hcomment, component_token]

theorem ofTokens_token (mode : Mode) (ts : List Token) :
    Stylesheet.ofTokens mode (ts.map r.token) =
      r.result r.sheet (Stylesheet.ofTokens mode ts) := by
  unfold Stylesheet.ofTokens Stylesheet.ofComponents
  rw [components_token, ruleList_component]
  cases ruleList mode true (Stylesheet.components ts) <;> rfl

/-- Respelled tokens give the respelled stylesheet, or the same error in a
respelled place. -/
theorem ofLexed_tokens (mode : Mode) (lexed : Source.Tokens) :
    Stylesheet.ofLexed mode (r.tokens lexed) =
      r.result r.sheet (Stylesheet.ofLexed mode lexed) := by
  obtain ⟨ts, errors⟩ := lexed
  have hsheet (errors : List SyntaxError) :
      (do
        let sheet ← Stylesheet.ofTokens mode (ts.map r.token)
        return { sheet with errors := errors.map r.error ++ sheet.errors }) =
      r.result r.sheet (do
        let sheet ← Stylesheet.ofTokens mode ts
        return { sheet with errors := errors ++ sheet.errors }) := by
    rw [ofTokens_token]
    cases Stylesheet.ofTokens mode ts with
    | error e => rfl
    | ok s =>
        show Except.ok (Stylesheet.mk _ (_ ++ _)) = Except.ok (Stylesheet.mk _ _)
        rw [List.map_append]
        rfl
  cases mode with
  | strict =>
      cases errors with
      | nil => exact hsheet []
      | cons e more => rfl
  | tolerant => exact hsheet errors

end Respelling

end StyleAudit
