import Mathlib.Data.List.Infix
import Mathlib.Data.List.Nodup
import StyleAudit.Proofs.Continuation
import StyleAudit.Proofs.Lossless

/-!
# Rules that have ended

A bracket that has been closed is closed for good, whatever comes later; the
same is true of a segment that has ended. So a reading that comes to the end of
its components between two rules, without an error, can be continued: read
together with what follows, it gives the rules it gave, and then those of what
follows as if they stood alone.

That the end comes between two rules has to be known. A bracket or a rule that
is still open at the end is an error, so a reading without errors rules them
out. An at-rule may be ended by the end of the source without any error; this
one case has to be excluded: every at-rule without a block is `Ended`.
-/

namespace StyleAudit

open Component (tokensIn leaves Loose)

open Condition (Blank)

/-! ## Brackets -/

/-- What has been read without an error is read again in front of anything. -/
theorem enclose_append {o : Opening} {cs : List Component}
    (h : (enclose o cs).errors = []) (tail : List Component) :
    enclose o (cs ++ tail) =
      ⟨(enclose o cs).values, (enclose o cs).closing, (enclose o cs).rest ++ tail, []⟩ := by
  induction o, cs using enclose_induct with
  | nil o => simp [enclose_nil] at h
  | eof o c rest heof => simp [enclose_eof rest o heof] at h
  | closed o c rest span heof hcloses =>
      rw [List.cons_append, enclose_closed _ heof hcloses, enclose_closed _ heof hcloses]
  | opened o c rest inner heof hcloses hinner ihinner ihmore =>
      rw [enclose_opened _ heof hcloses hinner] at h
      rw [List.append_eq_nil_iff] at h
      rw [List.cons_append, enclose_opened _ heof hcloses hinner,
        enclose_opened _ heof hcloses hinner, ihinner h.1]
      dsimp only
      rw [ihmore h.2]
      rfl
  | plain o c rest heof hcloses hopening ih =>
      rw [enclose_plain _ heof hcloses hopening] at h
      rw [List.cons_append, enclose_plain _ heof hcloses hopening,
        enclose_plain _ heof hcloses hopening, ih h]

/-- A bracket that has been closed was closed by the last of what was taken. -/
theorem enclose_split {o : Opening} {cs : List Component}
    (h : (enclose o cs).errors = []) :
    ∃ before c, cs = before ++ c :: (enclose o cs).rest ∧
      (c.closes? o.bracket).isSome = true := by
  induction o, cs using enclose_induct with
  | nil o => simp [enclose_nil] at h
  | eof o c rest heof => simp [enclose_eof rest o heof] at h
  | closed o c rest span heof hcloses =>
      rw [enclose_closed _ heof hcloses]
      exact ⟨[], c, rfl, by rw [hcloses]; rfl⟩
  | opened o c rest inner heof hcloses hinner ihinner ihmore =>
      rw [enclose_opened _ heof hcloses hinner] at h ⊢
      rw [List.append_eq_nil_iff] at h
      obtain ⟨first, d, hfirst, _⟩ := ihinner h.1
      obtain ⟨second, e, hsecond, he⟩ := ihmore h.2
      refine ⟨c :: (first ++ d :: second), e, ?_, he⟩
      have hrest := hfirst.trans (congrArg (first ++ d :: ·) hsecond)
      simpa using hrest
  | plain o c rest heof hcloses hopening ih =>
      rw [enclose_plain _ heof hcloses hopening] at h ⊢
      obtain ⟨before, d, hrest, hd⟩ := ih h
      exact ⟨c :: before, d, congrArg (c :: ·) hrest, hd⟩

/-- Components in which no bracket is closed that was opened before them. -/
def Spent (tail : List Component) : Prop := ∀ o, (enclose o tail).errors ≠ []

theorem Component.eq_of_isWhitespace {c : Component} (h : c.isWhitespace = true) :
    ∃ text span, c = .token ⟨.whitespace text, span⟩ := by
  cases c with
  | token t =>
      obtain ⟨kind, span⟩ := t
      cases kind with
      | whitespace text => exact ⟨text, span, rfl⟩
      | _ => cases h
  | function => cases h
  | block => cases h

theorem spent_blank {gap : List Component} {e : Component} (hgap : Blank gap)
    (he : e.isEof = true) : Spent (gap ++ [e]) := by
  intro o
  induction gap with
  | nil => simp [enclose_eof [] o he]
  | cons c gap ih =>
      obtain ⟨text, span, rfl⟩ := Component.eq_of_isWhitespace hgap.head
      rw [List.cons_append, enclose_plain _ rfl rfl rfl]
      exact ih hgap.tail

/-- What is closed before spent components is closed without them. -/
theorem enclose_errors_of_spent {tail : List Component} (htail : Spent tail)
    {o : Opening} {cs : List Component} (h : (enclose o (cs ++ tail)).errors = []) :
    (enclose o cs).errors = [] := by
  induction o, cs using enclose_induct with
  | nil o => exact absurd h (htail o)
  | eof o c rest heof => simp [enclose_eof _ o heof] at h
  | closed o c rest span heof hcloses => rw [enclose_closed _ heof hcloses]
  | opened o c rest inner heof hcloses hinner ihinner ihmore =>
      rw [List.cons_append, enclose_opened _ heof hcloses hinner,
        List.append_eq_nil_iff] at h
      have hinside := ihinner h.1
      rw [enclose_append hinside] at h
      rw [enclose_opened _ heof hcloses hinner, List.append_eq_nil_iff]
      exact ⟨hinside, ihmore h.2⟩
  | plain o c rest heof hcloses hopening ih =>
      rw [List.cons_append, enclose_plain _ heof hcloses hopening] at h
      rw [enclose_plain _ heof hcloses hopening]
      exact ih h

/-! ## Segments -/

theorem Opening.bracket_of_curly? {o : Opening} {values : List Component}
    {closing : Option Span} {b : Block}
    (h : (o.component values closing).curly? = some b) : o.bracket = .curly := by
  unfold component at h
  split at h
  · cases h
  · cases hbracket : o.bracket with
    | curly => rfl
    | square =>
        rw [hbracket] at h
        cases h
    | round =>
        rw [hbracket] at h
        cases h

section takeValue

variable {c : Component} {rest : List Component}

theorem takeValue_append (h : (takeValue c rest).errors = []) (tail : List Component) :
    takeValue c (rest ++ tail) =
      ⟨(takeValue c rest).value, (takeValue c rest).rest ++ tail, []⟩ := by
  unfold takeValue at h ⊢
  split
  · next o ho =>
      simp only [ho] at h
      rw [enclose_append h]
  · rfl

theorem takeValue_errors_of_spent {tail : List Component} (htail : Spent tail)
    (h : (takeValue c (rest ++ tail)).errors = []) : (takeValue c rest).errors = [] := by
  unfold takeValue at h ⊢
  split
  · next o ho =>
      simp only [ho] at h
      exact enclose_errors_of_spent htail h
  · rfl

/-- A block that has been read ends with the token that closed it. -/
theorem takeValue_split {b : Block} (hc : c.curly? = none)
    (h : (takeValue c rest).errors = []) (hb : (takeValue c rest).value.curly? = some b) :
    ∃ before d, rest = before ++ d :: (takeValue c rest).rest ∧
      (d.closes? .curly).isSome = true := by
  unfold takeValue at h hb ⊢
  split
  · next o ho =>
      simp only [ho] at h hb
      have hsplit := enclose_split h
      rw [Opening.bracket_of_curly? hb] at hsplit
      exact hsplit
  · next ho =>
      simp only [ho] at hb
      rw [hc] at hb
      cases hb

end takeValue

namespace Segment

/-- Whether a segment has ended before the end of its components. -/
def Ended (s : Segment) : Prop := s.block.isSome = true ∨ s.rest ≠ []

/-- A segment with more behind what follows it. -/
def extend (s : Segment) (tail : List Component) : Segment :=
  { s with rest := s.rest ++ tail }

theorem close_extend {s : Segment} (h : s.Ended) (tail : List Component) :
    (s.extend tail).close = s.close.extend tail := by
  unfold close extend
  cases hb : s.block with
  | some b => simp
  | none =>
      rcases h with hsome | hrest
      · rw [hb] at hsome
        cases hsome
      · cases hs : s.rest with
        | nil => exact absurd hs hrest
        | cons c rest => simp

end Segment

section segment

variable {semicolons braces : Bool} {cs : List Component}

theorem segment_append_of_ended (h : (segment semicolons braces cs).errors = [])
    (hend : (segment semicolons braces cs).Ended) (tail : List Component) :
    segment semicolons braces (cs ++ tail) =
      (segment semicolons braces cs).extend tail := by
  induction cs using segment_induct semicolons braces with
  | nil => simp [segment, Segment.Ended] at hend
  | stop c rest hstop => rw [List.cons_append, segment_stop hstop, segment_stop hstop]; rfl
  | block c rest b hstop hbraces hb =>
      rw [segment_block hstop hbraces hb] at h ⊢
      have hclean : (takeValue c rest).errors = [] := h
      have happend := takeValue_append hclean tail
      rw [List.cons_append, segment_block hstop hbraces (by rw [happend]; exact hb),
        happend, hclean]
      rfl
  | value c rest hstop hvalue ih =>
      rw [segment_value hstop hvalue] at h hend ⊢
      rw [List.append_eq_nil_iff] at h
      have happend := takeValue_append h.1 tail
      rw [List.cons_append, segment_value hstop (by rw [happend]; exact hvalue),
        happend]
      dsimp only
      rw [ih h.2 hend, h.1]
      rfl

theorem segment_append_of_open (h : (segment semicolons braces cs).errors = [])
    (hend : ¬ (segment semicolons braces cs).Ended) (tail : List Component) :
    segment semicolons braces (cs ++ tail) =
      ⟨(segment semicolons braces cs).values ++ (segment semicolons braces tail).values,
        (segment semicolons braces tail).block, (segment semicolons braces tail).rest,
        (segment semicolons braces tail).errors⟩ := by
  induction cs using segment_induct semicolons braces with
  | nil => rw [segment]; rfl
  | stop c rest hstop =>
      rw [segment_stop hstop] at hend
      exact absurd (.inr (List.cons_ne_nil c rest)) hend
  | block c rest b hstop hbraces hb =>
      rw [segment_block hstop hbraces hb] at hend
      exact absurd (.inl rfl) hend
  | value c rest hstop hvalue ih =>
      rw [segment_value hstop hvalue] at h hend ⊢
      rw [List.append_eq_nil_iff] at h
      have happend := takeValue_append h.1 tail
      rw [List.cons_append, segment_value hstop (by rw [happend]; exact hvalue),
        happend]
      dsimp only
      rw [ih h.2 hend]
      rfl

/-- Either the next value is a block that ends a segment, or it goes into it. -/
theorem block_or_value (braces : Bool) (c : Component) (rest : List Component) :
    (∃ b, braces = true ∧ (takeValue c rest).value.curly? = some b) ∨
      (braces = true → (takeValue c rest).value.curly? = none) := by
  cases hb : (takeValue c rest).value.curly? with
  | none => exact .inr fun _ => rfl
  | some b =>
      cases braces with
      | true => exact .inl ⟨b, rfl, rfl⟩
      | false => exact .inr fun h => Bool.noConfusion h

theorem takeValue_errors_of_segment {c : Component} {rest : List Component}
    (hstop : (c.isEof || (semicolons && c.isSemicolon)) = false)
    (h : (segment semicolons braces (c :: rest)).errors = []) :
    (takeValue c rest).errors = [] := by
  rcases block_or_value braces c rest with ⟨b, hbraces, hb⟩ | hvalue
  · rwa [segment_block hstop hbraces hb] at h
  · rw [segment_value hstop hvalue, List.append_eq_nil_iff] at h
    exact h.1

theorem segment_values_ne_nil {c : Component} {rest : List Component}
    (hstop : (c.isEof || (semicolons && c.isSemicolon)) = false)
    (h : (segment semicolons braces (c :: rest)).block = none) :
    (segment semicolons braces (c :: rest)).values ≠ [] := by
  rcases block_or_value braces c rest with ⟨b, hbraces, hb⟩ | hvalue
  · rw [segment_block hstop hbraces hb] at h
    cases h
  · rw [segment_value hstop hvalue]
    exact List.cons_ne_nil _ _

theorem segment_errors_of_spent {tail : List Component} (htail : Spent tail)
    (h : (segment semicolons braces (cs ++ tail)).errors = []) :
    (segment semicolons braces cs).errors = [] := by
  induction cs using segment_induct semicolons braces with
  | nil => rw [segment]
  | stop c rest hstop => rw [segment_stop hstop]
  | block c rest b hstop hbraces hb =>
      rw [segment_block hstop hbraces hb]
      exact takeValue_errors_of_spent htail (takeValue_errors_of_segment hstop h)
  | value c rest hstop hvalue ih =>
      have hvalues := takeValue_errors_of_spent htail
        (takeValue_errors_of_segment hstop h)
      have happend := takeValue_append hvalues tail
      rw [List.cons_append, segment_value hstop (by rw [happend]; exact hvalue),
        happend] at h
      rw [segment_value hstop hvalue, List.append_eq_nil_iff]
      exact ⟨hvalues, ih h⟩

/-- Whether a component is a token that is closed or blank. -/
def Component.isBoundary (c : Component) : Bool := c.kind?.any Token.Kind.isClosed

theorem Component.isBoundary_of_closes? {c : Component} {b : Bracket}
    (h : (c.closes? b).isSome = true) : c.isBoundary = true := by
  unfold closes? at h
  split at h
  · rfl
  · cases h

/-- A segment that has ended without errors ends with a token that is closed. -/
theorem segment_split (hcs : ∀ c ∈ cs, c.isEof = false ∧ c.curly? = none)
    (h : (segment semicolons braces cs).errors = [])
    (hend : (segment semicolons braces cs).Ended) :
    ∃ before d, cs = before ++ d :: (segment semicolons braces cs).close.rest ∧
      d.isBoundary = true := by
  induction cs using segment_induct semicolons braces with
  | nil => simp [segment, Segment.Ended] at hend
  | stop c rest hstop =>
      obtain ⟨heof, _⟩ := hcs c List.mem_cons_self
      rw [segment_stop hstop]
      refine ⟨[], c, rfl, ?_⟩
      simp only [heof, Bool.false_or, Bool.and_eq_true] at hstop
      obtain ⟨t, rfl, ht⟩ := Component.eq_of_isSemicolon hstop.2
      simp [Component.isBoundary, Component.kind?, ht, Token.Kind.isClosed]
  | block c rest b hstop hbraces hb =>
      rw [segment_block hstop hbraces hb] at h ⊢
      obtain ⟨before, d, hrest, hd⟩ :=
        takeValue_split (hcs c List.mem_cons_self).2 h hb
      exact ⟨c :: before, d, congrArg (c :: ·) hrest,
        Component.isBoundary_of_closes? hd⟩
  | value c rest hstop hvalue ih =>
      rw [segment_value hstop hvalue] at h hend ⊢
      rw [List.append_eq_nil_iff] at h
      obtain ⟨first, hfirst⟩ := suffix_takeValue c rest
      have hleft : ∀ d ∈ (takeValue c rest).rest, d.isEof = false ∧ d.curly? = none :=
        fun d hd => hcs d (List.mem_cons_of_mem c
          ((suffix_takeValue c rest).subset hd))
      obtain ⟨before, d, hrest, hd⟩ := ih hleft h.2 hend
      refine ⟨c :: (first ++ before), d, ?_, hd⟩
      have hall := hfirst.symm.trans (congrArg (first ++ ·) hrest)
      rw [List.cons_append, List.append_assoc]
      exact congrArg (c :: ·) hall

end segment

/-! ## Outcomes without errors -/

namespace Outcome

variable {α β : Type}

theorem bind_eq_clean {x : Outcome α} {f : α → Outcome β} {b : β} :
    x >>= f = done b [] ↔ ∃ a, x = done a [] ∧ f a = done b [] := by
  constructor
  · intro h
    change Outcome.bind x f = done b [] at h
    cases x with
    | halted e rest => cases h
    | done a errors =>
        rw [Outcome.bind] at h
        cases hfa : f a with
        | halted e rest =>
            rw [hfa] at h
            cases h
        | done b' more =>
            rw [hfa] at h
            injection h with hb herrors
            rw [List.append_eq_nil_iff] at herrors
            exact ⟨a, by rw [herrors.1], by rw [hfa, hb, herrors.2]⟩
  · rintro ⟨a, rfl, ha⟩
    change Outcome.bind (done a []) f = done b []
    rw [Outcome.bind, ha]
    rfl

theorem bind_clean (a : α) (f : α → Outcome β) : (done a [] >>= f) = f a := by
  change Outcome.bind (done a []) f = f a
  rw [Outcome.bind]
  cases f a <;> rfl

theorem inside_eq_clean {x : Outcome α} {rest : List Component} {a : α} :
    x.inside rest = done a [] ↔ x = done a [] := by
  cases x with
  | done b errors => exact Iff.rfl
  | halted e left => exact ⟨nofun, nofun⟩

theorem report_eq_clean {errors : List Found} :
    Mode.tolerant.report errors = done () [] ↔ errors = [] := by
  cases errors with
  | nil => simp [Mode.report]
  | cons e errors => simp [Mode.report]

end Outcome

open Outcome (bind_eq_clean bind_clean inside_eq_clean report_eq_clean)

namespace Segment

variable {s : Segment} {nodes : Outcome (List Node)}

theorem atRule_eq_clean {keyword : Token} {n : Node} :
    s.atRule .tolerant keyword nodes = .done n [] ↔
      s.errors = [] ∧ ∃ children, nodes = .done children [] ∧
        n = .atRule keyword.kind.raw keyword.span s.values s.block children := by
  unfold atRule
  constructor
  · intro h
    obtain ⟨_, hreport, h⟩ := bind_eq_clean.1 h
    obtain ⟨children, hnodes, h⟩ := bind_eq_clean.1 h
    cases h
    exact ⟨report_eq_clean.1 hreport, children, inside_eq_clean.1 hnodes, rfl⟩
  · rintro ⟨herrors, children, hnodes, rfl⟩
    refine bind_eq_clean.2 ⟨(), report_eq_clean.2 herrors, ?_⟩
    exact bind_eq_clean.2 ⟨children, inside_eq_clean.2 hnodes, rfl⟩

theorem rule?_eq_clean {n? : Option Node} :
    s.rule? .tolerant nodes = .done n? [] ↔
      s.errors = [] ∧
        ((∃ b children, s.block = some b ∧ nodes = .done children [] ∧
            n? = some (.rule s.values b children)) ∨
          s.block = none ∧ s.values = [] ∧ n? = none) := by
  unfold rule?
  constructor
  · intro h
    obtain ⟨_, hreport, h⟩ := bind_eq_clean.1 h
    refine ⟨report_eq_clean.1 hreport, ?_⟩
    split at h
    · next b hb =>
        obtain ⟨children, hnodes, h⟩ := bind_eq_clean.1 h
        cases h
        exact .inl ⟨b, children, hb, inside_eq_clean.1 hnodes, rfl⟩
    · next hb hvalues =>
        cases h
        exact .inr ⟨hb, hvalues, rfl⟩
    · obtain ⟨_, hfound, _⟩ := bind_eq_clean.1 h
      exact absurd (report_eq_clean.1 hfound) (List.cons_ne_nil _ _)
  · rintro ⟨herrors, ⟨b, children, hb, hnodes, rfl⟩ | ⟨hb, hvalues, rfl⟩⟩
    · refine bind_eq_clean.2 ⟨(), report_eq_clean.2 herrors, ?_⟩
      rw [hb]
      exact bind_eq_clean.2 ⟨children, inside_eq_clean.2 hnodes, rfl⟩
    · refine bind_eq_clean.2 ⟨(), report_eq_clean.2 herrors, ?_⟩
      rw [hb, hvalues]
      rfl

end Segment

/-! ## Rules -/

theorem ruleList_skip {c : Component} (mode : Mode) (rest : List Component)
    (h : (c.isWhitespace || (true && c.isDocumentMark)) = true) :
    ruleList mode true (c :: rest) = ruleList mode true rest := by
  rw [ruleList, if_pos h]

theorem ruleList_blank_append (mode : Mode) {gap : List Component} (h : Blank gap)
    (cs : List Component) : ruleList mode true (gap ++ cs) = ruleList mode true cs := by
  induction gap with
  | nil => rfl
  | cons c gap ih =>
      rw [List.cons_append, ruleList_skip mode _ (by rw [h.head]; rfl), ih h.tail]

theorem ruleList_eof {e : Component} (mode : Mode) (he : e.isEof = true) :
    ruleList mode true [e] = .done [] [] := by
  have hkind : e.kind? = some .eof := by simpa [Component.isEof] using he
  have hskip : ¬ (e.isWhitespace || (true && e.isDocumentMark)) = true := by
    simp [Component.isWhitespace, Component.isDocumentMark, hkind, Token.Kind.isWhitespace]
  rw [ruleList, if_neg hskip, if_pos he]
  rfl

/-- A reading of rules that others stand before. -/
def Outcome.after (rules : List Node) : Outcome (List Node) → Outcome (List Node)
  | done nodes errors => done (rules ++ nodes) errors
  | halted e rest => halted e rest

theorem Outcome.after_nil (x : Outcome (List Node)) : x.after [] = x := by
  cases x <;> rfl

theorem Outcome.after_after (rules more : List Node) (x : Outcome (List Node)) :
    (x.after more).after rules = x.after (rules ++ more) := by
  cases x with
  | halted e rest => rfl
  | done nodes errors => simp only [after, List.append_assoc]

theorem Outcome.bind_after (rules : List Node) (x : Outcome (List Node)) :
    (do return rules ++ (← x)) = x.after rules := by
  cases x with
  | halted e rest => rfl
  | done nodes errors =>
      change Outcome.done (rules ++ nodes) (errors ++ []) = .done (rules ++ nodes) errors
      rw [List.append_nil]

section ruleList

variable {c : Component} {rest : List Component} {rules : List Node}
  (hskip : ¬ (c.isWhitespace || (true && c.isDocumentMark)) = true)
  (heof : ¬ c.isEof = true)
include hskip heof

theorem ruleList_atRule (hat : c.isAtKeyword = true)
    (herrors : (atSegment rest).errors = []) {children : List Node}
    (hchildren : contents .tolerant (atSegment rest).block = .done children []) :
    ruleList .tolerant true (c :: rest) =
      (ruleList .tolerant true (atSegment rest).rest).after
        [.atRule c.leading.kind.raw c.leading.span (atSegment rest).values
          (atSegment rest).block children] := by
  have hnode : (atSegment rest).atRule .tolerant c.leading _ = _ :=
    Segment.atRule_eq_clean.2 ⟨herrors, children, hchildren, rfl⟩
  rw [ruleList, if_neg hskip, if_neg heof, if_pos hat]
  dsimp only
  rw [hnode, bind_clean]
  exact Outcome.bind_after [_] _

theorem ruleList_atRule_clean (hat : c.isAtKeyword = true)
    (h : ruleList .tolerant true (c :: rest) = .done rules []) :
    (atSegment rest).errors = [] ∧
      ∃ children nodes, contents .tolerant (atSegment rest).block = .done children [] ∧
        ruleList .tolerant true (atSegment rest).rest = .done nodes [] ∧
        rules = .atRule c.leading.kind.raw c.leading.span (atSegment rest).values
          (atSegment rest).block children :: nodes := by
  rw [ruleList, if_neg hskip, if_neg heof, if_pos hat] at h
  obtain ⟨n, hn, h⟩ := bind_eq_clean.1 h
  obtain ⟨nodes, hnodes, h⟩ := bind_eq_clean.1 h
  cases h
  obtain ⟨herrors, children, hchildren, rfl⟩ := Segment.atRule_eq_clean.1 hn
  exact ⟨herrors, children, nodes, hchildren, hnodes, rfl⟩

theorem ruleList_rule (hat : ¬ c.isAtKeyword = true)
    (herrors : (ruleSegment (c :: rest)).errors = []) {b : Block} {children : List Node}
    (hb : (ruleSegment (c :: rest)).block = some b)
    (hchildren : contents .tolerant (some b) = .done children []) :
    ruleList .tolerant true (c :: rest) =
      (ruleList .tolerant true (ruleSegment (c :: rest)).rest).after
        [.rule (ruleSegment (c :: rest)).values b children] := by
  have hnode := Segment.rule?_eq_clean.2
    ⟨herrors, .inl ⟨b, children, hb, hchildren, rfl⟩⟩
  rw [ruleList, if_neg hskip, if_neg heof, if_neg hat]
  dsimp only
  rw [hb, hnode, bind_clean]
  exact Outcome.bind_after [_] _

theorem ruleList_rule_clean (hat : ¬ c.isAtKeyword = true)
    (h : ruleList .tolerant true (c :: rest) = .done rules []) :
    (ruleSegment (c :: rest)).errors = [] ∧
      ∃ b children nodes, (ruleSegment (c :: rest)).block = some b ∧
        contents .tolerant (some b) = .done children [] ∧
        ruleList .tolerant true (ruleSegment (c :: rest)).rest = .done nodes [] ∧
        rules = .rule (ruleSegment (c :: rest)).values b children :: nodes := by
  rw [ruleList, if_neg hskip, if_neg heof, if_neg hat] at h
  obtain ⟨n?, hn, h⟩ := bind_eq_clean.1 h
  obtain ⟨nodes, hnodes, h⟩ := bind_eq_clean.1 h
  cases h
  obtain ⟨herrors, ⟨b, children, hb, hchildren, rfl⟩ | ⟨hb, hvalues, _⟩⟩ :=
    Segment.rule?_eq_clean.1 hn
  · rw [hb] at hchildren
    exact ⟨herrors, b, children, nodes, hb, hchildren, hnodes, rfl⟩
  · -- without a block there would be a prelude, and so an error
    exact absurd hvalues (segment_values_ne_nil (by simpa using heof) hb)

end ruleList

/-- Whether a node that is an at-rule without a block is followed, in the tokens, by
the semicolon that ended it. -/
def Node.Ended (tokens : List Token) : Node → Prop
  | .atRule name span prelude none _ =>
      ∃ ending after, ending.kind = .semicolon ∧
        ⟨.atKeyword name, span⟩ :: tokensIn prelude ++ ending :: after <:+ tokens
  | _ => True

theorem exists_ending_iff {first tokens : List Token} :
    (∃ ending after, ending.kind = .semicolon ∧ first ++ ending :: after <:+ tokens) ↔
      ∃ us ∈ tokens.tails, first <+: us ∧
        ∃ ending ∈ us[first.length]?, ending.kind = .semicolon := by
  constructor
  · rintro ⟨ending, after, hending, hsuffix⟩
    exact ⟨_, (List.mem_tails _ _).2 hsuffix, List.prefix_append _ _, ending, by simp,
      hending⟩
  · rintro ⟨us, hus, ⟨rest, rfl⟩, ending, hget, hending⟩
    cases rest with
    | nil => simp at hget
    | cons t after =>
        obtain rfl : t = ending := by simpa using hget
        exact ⟨t, after, hending, (List.mem_tails _ _).1 hus⟩

instance (tokens : List Token) (n : Node) : Decidable (n.Ended tokens) :=
  match n with
  | .atRule _ _ _ none _ => decidable_of_iff' _ exists_ending_iff
  | .atRule _ _ _ (some _) _ => .isTrue trivial
  | .declaration _ => .isTrue trivial
  | .rule _ _ _ => .isTrue trivial
  | .malformed _ _ => .isTrue trivial

/-- Whether every at-rule without a block has been ended by a semicolon. -/
def AtRulesEnded (tokens : List Token) (nodes : List Node) : Prop :=
  ∀ n ∈ nodes, n.Ended tokens

instance (tokens : List Token) (nodes : List Node) :
    Decidable (AtRulesEnded tokens nodes) :=
  inferInstanceAs (Decidable (∀ n ∈ nodes, n.Ended tokens))

theorem AtRulesEnded.of_subset {tokens : List Token} {nodes more : List Node}
    (h : AtRulesEnded tokens more) (hsubset : nodes ⊆ more) : AtRulesEnded tokens nodes :=
  fun n hn => h n (hsubset hn)

theorem suffix_tokensIn {cs ds : List Component} (tail : List Component) (h : ds <:+ cs) :
    tokensIn (ds ++ tail) <:+ tokensIn (cs ++ tail) := by
  obtain ⟨before, rfl⟩ := h
  rw [List.append_assoc, Component.tokensIn_append before]
  exact List.suffix_append _ _

theorem eq_of_suffix_of_nodup {ts us vs : List Token} {t : Token} (h : ts.Nodup)
    (hus : t :: us <:+ ts) (hvs : t :: vs <:+ ts) : us = vs := by
  obtain ⟨before, rfl⟩ := hus
  obtain ⟨before', heq⟩ := hvs
  have hmem := (List.nodup_cons.1 (List.nodup_middle.1 h)).1
  rw [List.mem_append, not_or] at hmem
  exact ((List.append_cons_inj_of_notMem hmem.1 hmem.2).1 heq.symm).2.2

/-- An at-rule that the end of the source cuts off is not ended. -/
theorem not_ended_of_open {ts : List Token} {name : Text} {span : Span}
    {cs : List Component} {e : Component} {prelude : List Component}
    (hts : ts.Nodup) (hcs : Loose cs) (he : e.isEof = true)
    (hvalues : (segment true true cs).values = prelude)
    (hblock : (segment true true cs).block = none)
    (hrest : (segment true true cs).rest = [e])
    (hsuffix : ⟨.atKeyword name, span⟩ :: tokensIn cs <:+ ts)
    (hended : AtRulesEnded ts [.atRule name span prelude none []]) : False := by
  obtain ⟨ending, after, hending, hend⟩ := hended _ (List.mem_singleton.2 rfl)
  rw [List.cons_append] at hend
  have htokens := eq_of_suffix_of_nodup hts hsuffix hend
  have hgrouped := Component.leaves_of_grouped (grouped_segment true true hcs)
  rw [Segment.parts_of_no_block hblock, hvalues] at hgrouped
  have hleaves : leaves cs = tokensIn prelude := by
    rw [leaves_segment true true, Segment.parts_of_no_block hblock, hvalues, hrest,
      Component.leaves_eof he, List.append_nil, hgrouped]
  rw [leaves, htokens, List.filter_append, List.filter_cons_of_pos (by simp [hending])]
    at hleaves
  rw [leaves] at hgrouped
  rw [hgrouped] at hleaves
  simp at hleaves

/-- Components that come from a source, without the mark of its end. -/
def Component.Tokens (cs : List Component) : Prop :=
  ∀ c ∈ cs, c.isEof = false ∧ ∃ t, c = .token t

namespace Component.Tokens

variable {cs : List Component}

theorem of_suffix {ds : List Component} (h : Tokens cs) (hds : ds <:+ cs) : Tokens ds :=
  fun c hc => h c (hds.subset hc)

theorem curly? (h : Tokens cs) : ∀ c ∈ cs, c.isEof = false ∧ c.curly? = none := by
  intro c hc
  obtain ⟨heof, t, rfl⟩ := h c hc
  exact ⟨heof, rfl⟩

theorem loose (h : Tokens cs) {gap : List Component} {e : Component} (hgap : Blank gap)
    (he : e.isEof = true) : Loose (cs ++ (gap ++ [e])) := by
  intro c hc
  rw [List.mem_append, List.mem_append, List.mem_singleton] at hc
  rcases hc with hc | hc | rfl
  · exact .inl (h c hc).2
  · obtain ⟨text, span, rfl⟩ := Component.eq_of_isWhitespace (hgap c hc)
    exact .inl ⟨_, rfl⟩
  · cases c with
    | token t => exact .inl ⟨t, rfl⟩
    | function => cases he
    | block => cases he

end Component.Tokens

theorem boundary_append {before rest : List Component} {d : Component}
    (hd : d.isBoundary = true) (hrest : ∀ c ∈ rest.getLast?, c.isBoundary = true) :
    ∀ c ∈ (before ++ d :: rest).getLast?, c.isBoundary = true := by
  intro c hc
  rw [List.getLast?_append, List.getLast?_cons] at hc
  cases hlast : rest.getLast? with
  | none =>
      obtain rfl : d = c := by simpa [hlast] using hc
      exact hd
  | some x =>
      obtain rfl : x = c := by simpa [hlast] using hc
      exact hrest x (by rw [hlast]; rfl)

theorem Component.isBoundary_of_isGap {c : Component}
    (h : (c.isWhitespace || (true && c.isDocumentMark)) = true) :
    c.isBoundary = true := by
  obtain ⟨t, rfl, _, ht⟩ := Component.eq_of_isGap h
  obtain ⟨kind, span⟩ := t
  rcases ht with ht | ht | ht
  · cases kind with
    | whitespace => rfl
    | _ => cases ht
  · cases ht
    rfl
  · cases ht
    rfl

theorem segment_blank {semicolons braces : Bool} {gap : List Component} {e : Component}
    (hgap : Blank gap) (he : e.isEof = true) :
    segment semicolons braces (gap ++ [e]) = ⟨gap, none, [e], []⟩ := by
  induction gap with
  | nil => exact segment_stop (by rw [he]; rfl)
  | cons c gap ih =>
      obtain ⟨text, span, rfl⟩ := Component.eq_of_isWhitespace hgap.head
      rw [List.cons_append, segment_value (by cases semicolons <;> rfl) fun _ => rfl]
      have htake := takeValue_of_grouped (gap ++ [e])
        (.token rfl (by simp) : Component.Grouped (.token ⟨.whitespace text, span⟩))
      rw [htake, ih hgap.tail]
      rfl

/-- A reading of tokens, up to blanks and the mark of the end, that meets no
error and in which every at-rule has ended. -/
structure Finished (ts : List Token) (tail cs : List Component) (rules : List Node) :
    Prop where
  tokens : Component.Tokens cs
  suffix : tokensIn (cs ++ tail) <:+ ts
  ended : AtRulesEnded ts rules
  clean : ruleList .tolerant true (cs ++ tail) = .done rules []

/-- A step of such a reading takes some components, up to a closed token, and
makes the same rules of them whatever follows. -/
structure Finished.Step (ts : List Token) (end₀ cs left : List Component)
    (rules own nodes : List Node) : Prop where
  rules_eq : rules = own ++ nodes
  rest : Finished ts end₀ left nodes
  split : ∃ before d, cs = before ++ d :: left ∧ d.isBoundary = true
  goes : ∀ tail, ruleList .tolerant true (cs ++ tail) =
    (ruleList .tolerant true (left ++ tail)).after own

theorem atSegment_append {cs : List Component}
    (hclean : (segment true true cs).errors = []) (hend : (segment true true cs).Ended)
    (tail : List Component) : atSegment (cs ++ tail) = (atSegment cs).extend tail := by
  rw [atSegment, segment_append_of_ended hclean hend, Segment.close_extend hend]
  rfl

theorem ruleSegment_append {cs : List Component}
    (hclean : (segment false true cs).errors = []) (hend : (segment false true cs).Ended)
    (tail : List Component) : ruleSegment (cs ++ tail) = (ruleSegment cs).extend tail := by
  rw [ruleSegment, segment_append_of_ended hclean hend, Segment.close_extend hend]
  rfl

namespace Finished

variable {ts : List Token} {c e : Component} {rest gap : List Component}
  {rules : List Node}

theorem step_skip {end₀ : List Component} (h : Finished ts end₀ (c :: rest) rules)
    (hskip : (c.isWhitespace || (true && c.isDocumentMark)) = true) :
    Step ts end₀ (c :: rest) rest rules [] rules := by
  have hsuffix := suffix_tokensIn end₀ (List.suffix_cons c rest)
  have hclean := h.clean
  rw [List.cons_append, ruleList_skip _ _ hskip] at hclean
  refine ⟨rfl, ⟨h.tokens.of_suffix (List.suffix_cons c rest), hsuffix.trans h.suffix,
    h.ended, hclean⟩, ⟨[], c, rfl, Component.isBoundary_of_isGap hskip⟩, fun tail => ?_⟩
  rw [List.cons_append, ruleList_skip _ _ hskip, Outcome.after_nil]

theorem step_atRule (hts : ts.Nodup) (hgap : Blank gap) (he : e.isEof = true)
    (hskip : ¬ (c.isWhitespace || (true && c.isDocumentMark)) = true)
    (heof : ¬ c.isEof = true) (hat : c.isAtKeyword = true)
    (h : Finished ts (gap ++ [e]) (c :: rest) rules) :
    ∃ own nodes, Step ts (gap ++ [e]) (c :: rest) (atSegment rest).rest rules own nodes := by
  have hrest := h.tokens.of_suffix (List.suffix_cons c rest)
  have hread : ruleList .tolerant true (c :: (rest ++ (gap ++ [e]))) = .done rules [] :=
    h.clean
  obtain ⟨herrors, children, nodes, hchildren, hnodes, rfl⟩ :=
    ruleList_atRule_clean hskip heof hat hread
  have hclean : (segment true true rest).errors = [] :=
    segment_errors_of_spent (spent_blank hgap he) herrors
  by_cases hend : (segment true true rest).Ended
  · have happend := atSegment_append hclean hend
    have hleft := (suffix_atSegment rest).trans (List.suffix_cons c rest)
    obtain ⟨before, d, hsplit, hd⟩ := segment_split hrest.curly? hclean hend
    rw [happend] at hnodes hchildren
    refine ⟨[_], nodes, rfl, ⟨h.tokens.of_suffix hleft,
      (suffix_tokensIn _ hleft).trans h.suffix,
      h.ended.of_subset (List.subset_cons_self _ _), hnodes⟩,
      ⟨c :: before, d, congrArg (c :: ·) hsplit, hd⟩, fun tail => ?_⟩
    have hgoes : ruleList .tolerant true (c :: (rest ++ tail)) = _ :=
      ruleList_atRule hskip heof hat (by rw [happend]; exact hclean)
        (by rw [happend]; exact hchildren)
    rw [happend] at hgoes ⊢
    exact hgoes
  · -- the end of the source would have ended the rule
    have hopen := segment_append_of_open hclean hend (gap ++ [e])
    rw [segment_blank hgap he] at hopen
    have hblock : (segment true true (rest ++ (gap ++ [e]))).block = none := by
      rw [hopen]
    obtain ⟨name, span, rfl⟩ := Component.eq_of_isAtKeyword hat
    have hended : AtRulesEnded ts [.atRule name span _ _ children] :=
      h.ended.of_subset fun n hn => List.mem_cons.2 (.inl (List.mem_singleton.1 hn))
    rw [show (atSegment (rest ++ (gap ++ [e]))).block = none from hblock]
      at hchildren hended
    cases hchildren
    exact (not_ended_of_open hts (hrest.loose hgap he) he rfl hblock
      (by rw [hopen]) h.suffix hended).elim

theorem step_rule (hgap : Blank gap) (he : e.isEof = true)
    (hskip : ¬ (c.isWhitespace || (true && c.isDocumentMark)) = true)
    (heof : ¬ c.isEof = true) (hat : ¬ c.isAtKeyword = true)
    (h : Finished ts (gap ++ [e]) (c :: rest) rules) :
    ∃ own nodes, Step ts (gap ++ [e]) (c :: rest) (ruleSegment (c :: rest)).rest rules own
      nodes := by
  have hread : ruleList .tolerant true (c :: (rest ++ (gap ++ [e]))) = .done rules [] :=
    h.clean
  obtain ⟨herrors, b, children, nodes, hb, hchildren, hnodes, rfl⟩ :=
    ruleList_rule_clean hskip heof hat hread
  have hclean : (segment false true (c :: rest)).errors = [] :=
    segment_errors_of_spent (spent_blank hgap he) herrors
  by_cases hend : (segment false true (c :: rest)).Ended
  · have happend (tail : List Component) :
        ruleSegment (c :: (rest ++ tail)) = (ruleSegment (c :: rest)).extend tail :=
      ruleSegment_append hclean hend tail
    have hleft := suffix_ruleSegment (c :: rest)
    rw [happend] at hnodes hb
    refine ⟨[_], nodes, rfl, ⟨h.tokens.of_suffix hleft,
      (suffix_tokensIn _ hleft).trans h.suffix,
      h.ended.of_subset (List.subset_cons_self _ _), hnodes⟩,
      segment_split h.tokens.curly? hclean hend, fun tail => ?_⟩
    have hgoes : ruleList .tolerant true (c :: (rest ++ tail)) = _ :=
      ruleList_rule hskip heof hat (by rw [happend]; exact hclean)
        (by rw [happend]; exact hb) hchildren
    rw [happend] at hgoes ⊢
    exact hgoes
  · -- the end of the source would have cut the rule off
    have hopen := segment_append_of_open hclean hend (gap ++ [e])
    rw [segment_blank hgap he] at hopen
    have hblock : (segment false true (c :: (rest ++ (gap ++ [e])))).block = none := by
      rw [← List.cons_append, hopen]
    exact absurd (hblock.symm.trans hb) (by simp)

theorem Step.goes_on {end₀ cs left : List Component} {own nodes : List Node}
    (h : Step ts end₀ cs left rules own nodes)
    (hleft : (∀ c ∈ left.getLast?, c.isBoundary = true) ∧
      ∀ tail, ruleList .tolerant true (left ++ tail) =
        (ruleList .tolerant true tail).after nodes) :
    (∀ c ∈ cs.getLast?, c.isBoundary = true) ∧
      ∀ tail, ruleList .tolerant true (cs ++ tail) =
        (ruleList .tolerant true tail).after rules := by
  refine ⟨?_, fun tail => ?_⟩
  · obtain ⟨before, d, rfl, hd⟩ := h.split
    exact boundary_append hd hleft.1
  · rw [h.goes, hleft.2, Outcome.after_after, h.rules_eq]

/-- A reading without errors that comes to the end between two rules goes on
with the rules of whatever follows; and it ends with a closed token. -/
theorem goes_on (hts : ts.Nodup) (hgap : Blank gap) (he : e.isEof = true)
    {cs : List Component} : ∀ rules, Finished ts (gap ++ [e]) cs rules →
      (∀ c ∈ cs.getLast?, c.isBoundary = true) ∧
        ∀ tail, ruleList .tolerant true (cs ++ tail) =
          (ruleList .tolerant true tail).after rules := by
  induction cs using ruleList.induct true with
  | case1 =>
      intro rules h
      have hclean := h.clean
      rw [List.nil_append, ruleList_blank_append _ hgap, ruleList_eof _ he] at hclean
      cases hclean
      exact ⟨by simp, fun tail => (Outcome.after_nil _).symm⟩
  | case2 c rest hskip ih =>
      intro rules h
      have hstep := h.step_skip hskip
      exact hstep.goes_on (ih _ hstep.rest)
  | case3 c rest _ heof =>
      intro rules h
      rw [(h.tokens c List.mem_cons_self).1] at heof
      cases heof
  | case4 c rest hskip heof hat s ih =>
      intro rules h
      obtain ⟨own, nodes, hstep⟩ := h.step_atRule hts hgap he hskip heof hat
      exact hstep.goes_on (ih _ hstep.rest)
  | case5 c rest hskip heof hat s ih =>
      intro rules h
      obtain ⟨own, nodes, hstep⟩ := h.step_rule hgap he hskip heof hat
      exact hstep.goes_on (ih _ hstep.rest)

end Finished

end StyleAudit
