import StyleAudit.Proofs.Lossless
import StyleAudit.Proofs.Stepwise
import StyleAudit.Tree.Stepping

/-!
# Grouping first changes nothing

The readers of rules take tokens and group them as they go, and they take
components that have been grouped before. Taking one component after the other
until the end is what a segment does that nothing but the end can stop, so
`grouped` is such a segment, and the whole comparison rests on one fact about
segments: cut from the grouped components, a segment is the same, has no errors,
and what it leaves is what the other one leaves, grouped.

Its errors are those of brackets that nothing closed. They are found while
grouping, so they are missing when the components are grouped already; where
every bracket has been closed there are none, and then the errors agree as well.
Strict reading needs no argument of its own: its result can be read off the
result of tolerant reading.
-/

namespace StyleAudit

/-! ## Brackets that have been closed -/

namespace Component

mutual

/-- Whether every function and block in a component has been closed. -/
def isClosed : Component → Bool
  | token _ => true
  | function _ _ values closing => closing.isSome && areClosed values
  | block _ _ values closing => closing.isSome && areClosed values

/-- Whether every function and block in some components has been closed. -/
def areClosed : List Component → Bool
  | [] => true
  | c :: rest => isClosed c && areClosed rest

end

theorem areClosed_cons {c : Component} {cs : List Component} :
    areClosed (c :: cs) = true ↔ c.isClosed = true ∧ areClosed cs = true := by
  rw [areClosed, Bool.and_eq_true]

end Component

open Component (areClosed areClosed_cons)

theorem Opening.isClosed_component (o : Opening) (values : List Component)
    (closing : Option Span) :
    (o.component values closing).isClosed = true ↔
      closing.isSome = true ∧ areClosed values = true := by
  unfold component
  split <;> rw [Component.isClosed, Bool.and_eq_true]

theorem errors_enclose {o : Opening} {cs : List Component}
    (hclosing : (enclose o cs).closing.isSome = true)
    (hvalues : areClosed (enclose o cs).values = true) : (enclose o cs).errors = [] := by
  induction o, cs using enclose_induct with
  | nil o =>
      rw [enclose_nil] at hclosing
      cases hclosing
  | eof o c rest heof =>
      rw [enclose_eof rest o heof] at hclosing
      cases hclosing
  | closed o c rest span heof hcloses => rw [enclose_closed rest heof hcloses]
  | opened o c rest inner heof hcloses hinner ihinner ihmore =>
      rw [enclose_opened rest heof hcloses hinner] at hclosing hvalues ⊢
      obtain ⟨hfirst, hmore⟩ := areClosed_cons.1 hvalues
      obtain ⟨hclosed, hinside⟩ := (inner.isClosed_component _ _).1 hfirst
      exact List.append_eq_nil_iff.2 ⟨ihinner hclosed hinside, ihmore hclosing hmore⟩
  | plain o c rest heof hcloses hopening ih =>
      rw [enclose_plain rest heof hcloses hopening] at hclosing hvalues ⊢
      exact ih hclosing (areClosed_cons.1 hvalues).2

theorem errors_takeValue {c : Component} {rest : List Component}
    (h : (takeValue c rest).value.isClosed = true) : (takeValue c rest).errors = [] := by
  unfold takeValue at h ⊢
  split at h
  · next o _ =>
      obtain ⟨hclosing, hvalues⟩ := (o.isClosed_component _ _).1 h
      exact errors_enclose hclosing hvalues
  · rfl

/-! ## Grouped components -/

/-- The components that are taken one after the other until the end. -/
def grouped (cs : List Component) : List Component := (segment false false cs).values

/-- The errors that are found when components are grouped. -/
def groupingErrors (cs : List Component) : List Found := (segment false false cs).errors

@[simp] theorem grouped_nil : grouped [] = [] := by rw [grouped, segment]

@[simp] theorem groupingErrors_nil : groupingErrors [] = [] := by
  rw [groupingErrors, segment]

section grouped

variable {c : Component} {rest : List Component}

theorem grouped_eof (h : c.isEof = true) : grouped (c :: rest) = [] := by
  rw [grouped, segment_stop (by simp [h])]

theorem grouped_value (h : c.isEof = false) :
    grouped (c :: rest) = (takeValue c rest).value :: grouped (takeValue c rest).rest := by
  rw [grouped, segment_value (by simp [h]) (by simp), grouped]

theorem groupingErrors_eof (h : c.isEof = true) : groupingErrors (c :: rest) = [] := by
  rw [groupingErrors, segment_stop (by simp [h])]

theorem groupingErrors_value (h : c.isEof = false) :
    groupingErrors (c :: rest) =
      (takeValue c rest).errors ++ groupingErrors (takeValue c rest).rest := by
  rw [groupingErrors, segment_value (by simp [h]) (by simp), groupingErrors]

/-- A component that opens nothing is taken as it is. -/
theorem grouped_plain (heof : c.isEof = false) (hopening : Opening.of? c = none) :
    grouped (c :: rest) = c :: grouped rest ∧
      groupingErrors (c :: rest) = groupingErrors rest := by
  have htaken : takeValue c rest = ⟨c, rest, []⟩ := by rw [takeValue, hopening]
  rw [grouped_value heof, groupingErrors_value heof, htaken]
  exact ⟨rfl, rfl⟩

/-- What has been taken opens nothing, so taking it again takes it alone. -/
theorem takeValue_value (more : List Component) :
    takeValue (takeValue c rest).value more = ⟨(takeValue c rest).value, more, []⟩ := by
  have hopening : Opening.of? (takeValue c rest).value = none := by
    unfold takeValue
    split
    · next o _ =>
        dsimp only
        unfold Opening.component
        split <;> rfl
    · next h => exact h
  rw [takeValue, hopening]

/-- What is taken is the component itself, or it is no token. -/
theorem value_cases : (takeValue c rest).value = c ∨ (takeValue c rest).value.kind? = none := by
  unfold takeValue
  split
  · next o _ =>
      dsimp only
      unfold Opening.component
      split <;> exact .inr rfl
  · exact .inl rfl

theorem value_stop {semicolons : Bool}
    (h : (c.isEof || (semicolons && c.isSemicolon)) = false) :
    ((takeValue c rest).value.isEof ||
      (semicolons && (takeValue c rest).value.isSemicolon)) = false := by
  rcases (value_cases : (takeValue c rest).value = c ∨ _) with hvalue | hvalue
  · rw [hvalue]
    exact h
  · simp [Component.isEof, Component.isSemicolon, hvalue]

theorem opening_of_semicolon (h : c.isSemicolon = true) : Opening.of? c = none := by
  obtain ⟨t, rfl, ht⟩ := Component.eq_of_isSemicolon h
  obtain ⟨kind, span⟩ := t
  cases ht
  rfl

end grouped

/-- So is what stands between the rules of a source. -/
theorem grouped_gap {c : Component} (rest : List Component)
    (h : (c.isWhitespace || (true && c.isDocumentMark)) = true) :
    grouped (c :: rest) = c :: grouped rest ∧
      groupingErrors (c :: rest) = groupingErrors rest := by
  obtain ⟨⟨kind, span⟩, rfl, heof, hkind⟩ := Component.eq_of_isGap h
  have hopening : Opening.of? (.token ⟨kind, span⟩) = none := by
    rcases hkind with hkind | rfl | rfl
    · cases kind with
      | whitespace => rfl
      | _ => cases hkind
    · rfl
    · rfl
  exact grouped_plain (Component.not_isEof_token.2 heof) hopening

theorem groupingErrors_of_areClosed {cs : List Component}
    (h : areClosed (grouped cs) = true) : groupingErrors cs = [] := by
  induction cs using segment_induct false false with
  | nil => exact groupingErrors_nil
  | stop c rest hstop => exact groupingErrors_eof (by simpa using hstop)
  | block c rest b hstop hbraces => cases hbraces
  | value c rest hstop hvalue ih =>
      have heof : c.isEof = false := by simpa using hstop
      rw [grouped_value heof] at h
      obtain ⟨hfirst, hmore⟩ := areClosed_cons.1 h
      rw [groupingErrors_value heof, errors_takeValue hfirst, ih hmore]
      rfl

/-- A segment of the grouped components is that of the components they were
grouped from, up to the errors found on the way. -/
theorem segment_grouped (semicolons braces : Bool) (cs : List Component) :
    segment semicolons braces (grouped cs) =
        ⟨(segment semicolons braces cs).values, (segment semicolons braces cs).block,
          grouped (segment semicolons braces cs).rest, []⟩ ∧
      groupingErrors cs = (segment semicolons braces cs).errors ++
        groupingErrors (segment semicolons braces cs).rest := by
  induction cs using segment_induct semicolons braces with
  | nil => simp [segment]
  | stop c rest hstop =>
      rw [segment_stop hstop]
      refine ⟨?_, rfl⟩
      by_cases heof : c.isEof = true
      · rw [grouped_eof heof, segment]
      · -- a semicolon, which is taken as it is and stops the segment again
        rw [Bool.not_eq_true] at heof
        have hsemicolon : (semicolons && c.isSemicolon) = true := by simpa [heof] using hstop
        have hopening := opening_of_semicolon (Bool.and_eq_true_iff.1 hsemicolon).2
        rw [(grouped_plain heof hopening).1, segment_stop hstop]
  | block c rest b hstop hbraces hb =>
      have heof : c.isEof = false := (Bool.or_eq_false_iff.1 hstop).1
      have hagain : takeValue (takeValue c rest).value (grouped (takeValue c rest).rest) = _ :=
        takeValue_value _
      rw [segment_block hstop hbraces hb, grouped_value heof, groupingErrors_value heof,
        segment_block (value_stop hstop) hbraces (by rw [hagain]; exact hb), hagain]
      exact ⟨rfl, rfl⟩
  | value c rest hstop hvalue ih =>
      have heof : c.isEof = false := (Bool.or_eq_false_iff.1 hstop).1
      have hagain : takeValue (takeValue c rest).value (grouped (takeValue c rest).rest) = _ :=
        takeValue_value _
      rw [segment_value hstop hvalue, grouped_value heof, groupingErrors_value heof,
        segment_value (value_stop hstop) (by rw [hagain]; exact hvalue), hagain, ih.1, ih.2]
      exact ⟨rfl, by simp only [List.append_assoc]⟩

open Component (Unread)

/-- What is left without a semicolon or the end is the same before and after. -/
theorem grouped_drop {semicolons : Bool} {c : Component} {rest : List Component}
    (hc : (c.isEof || (semicolons && c.isSemicolon)) = true)
    (hlast : c.isEof = true → rest = []) :
    (grouped (c :: rest)).drop 1 = grouped rest ∧
      groupingErrors (c :: rest) = groupingErrors rest := by
  by_cases heof : c.isEof = true
  · rw [hlast heof, grouped_eof heof, groupingErrors_eof heof, grouped_nil, groupingErrors_nil]
    exact ⟨rfl, rfl⟩
  · rw [Bool.not_eq_true] at heof
    have hsemicolon : c.isSemicolon = true := by
      simp only [heof, Bool.false_or, Bool.and_eq_true] at hc
      exact hc.2
    obtain ⟨hgrouped, herrors⟩ : grouped (c :: rest) = _ ∧ groupingErrors (c :: rest) = _ :=
      grouped_plain heof (opening_of_semicolon hsemicolon)
    rw [hgrouped, herrors]
    exact ⟨rfl, rfl⟩

theorem close_segment_grouped {semicolons : Bool} {cs : List Component} {s : Segment}
    (h : Unread cs) (hs : (segment semicolons true cs).close = s) :
    (segment semicolons true (grouped cs)).close = ⟨s.values, s.block, grouped s.rest, []⟩ ∧
      groupingErrors cs = s.errors ++ groupingErrors s.rest := by
  obtain ⟨hsegment, herrors⟩ := segment_grouped semicolons true cs
  have hsuffix : _ <:+ cs := suffix_segment semicolons true
  have hend (hb : (segment semicolons true cs).block = none) := segment_end hb
  rw [hsegment, herrors]
  subst hs
  generalize segment semicolons true cs = s at hsuffix hend ⊢
  obtain ⟨values, block, rest, errors⟩ := s
  cases block with
  | some b => exact ⟨rfl, rfl⟩
  | none =>
      rcases hend rfl with hrest | ⟨c, more, hrest, hc⟩
      · obtain rfl : rest = [] := hrest
        exact ⟨by simp [Segment.close], rfl⟩
      · obtain rfl : rest = c :: more := hrest
        obtain ⟨hdrop, hmore⟩ := grouped_drop hc (h.last hsuffix)
        simp only [Segment.close, Option.isSome_none, Bool.false_eq_true, if_false, hdrop]
        exact ⟨rfl, congrArg (errors ++ ·) hmore⟩

/-! ## Readings that differ in errors -/

namespace Outcome

variable {α β : Type} {P : Prop}

/-- Two readings that finish with one value, and with the same errors if `P`. -/
def Same (P : Prop) (x y : Outcome α) : Prop :=
  ∃ a errors errors', x = done a errors ∧ y = done a errors' ∧ (P → errors' = errors)

theorem Same.pure (a : α) : Same P (Pure.pure a : Outcome α) (Pure.pure a : Outcome α) :=
  ⟨a, [], [], rfl, rfl, fun _ => rfl⟩

theorem Same.bind {x y : Outcome α} {f g : α → Outcome β} (h : Same P x y)
    (hf : ∀ a, Same P (f a) (g a)) : Same P (x >>= f) (y >>= g) := by
  obtain ⟨a, errors, errors', rfl, rfl, heq⟩ := h
  obtain ⟨b, more, more', hfa, hga, hmore⟩ := hf a
  refine ⟨b, errors ++ more, errors' ++ more', ?_, ?_, fun hP => ?_⟩
  · show Outcome.bind (done a errors) f = _
    simp only [Outcome.bind, hfa]
  · show Outcome.bind (done a errors') g = _
    simp only [Outcome.bind, hga]
  · rw [heq hP, hmore hP]

theorem Same.mono {Q : Prop} {x y : Outcome α} (h : Same P x y) (hPQ : Q → P) : Same Q x y := by
  obtain ⟨a, errors, errors', hx, hy, heq⟩ := h
  exact ⟨a, errors, errors', hx, hy, fun hQ => heq (hPQ hQ)⟩

theorem Same.report {errors : List Found} (h : P → errors = []) :
    Same P (Mode.tolerant.report errors) (Mode.tolerant.report []) := by
  refine ⟨(), _, _, rfl, rfl, fun hP => ?_⟩
  rw [h hP]

end Outcome

open Outcome (Same)

namespace Segment

variable {P : Prop} {s : Segment} {nodes : List Node} {errors : List SyntaxError}

theorem atRule_same (keyword : Token) (herrors : P → s.errors = []) (rest : List Component) :
    Same P (s.atRule .tolerant keyword (.done nodes errors))
      (Segment.atRule ⟨s.values, s.block, rest, []⟩ .tolerant keyword (.done nodes errors)) :=
  (Same.report herrors).bind fun _ =>
    Same.bind ⟨nodes, errors, errors, rfl, rfl, fun _ => rfl⟩ fun _ => .pure _

theorem rule?_same (herrors : P → s.errors = []) (rest : List Component) :
    Same P (s.rule? .tolerant (.done nodes errors))
      (Segment.rule? ⟨s.values, s.block, rest, []⟩ .tolerant (.done nodes errors)) := by
  refine (Same.report herrors).bind fun _ => ?_
  dsimp only
  split
  · exact Same.bind ⟨nodes, errors, errors, rfl, rfl, fun _ => rfl⟩ fun _ => .pure _
  · exact .pure _
  · exact Same.bind ⟨(), _, _, rfl, rfl, fun _ => rfl⟩ fun _ => .pure _

end Segment

theorem exists_contents_tolerant (block : Option Block) :
    ∃ nodes errors, contents .tolerant block = .done nodes errors := by
  have h := contents_agree_all block
  generalize contents .strict block = x, contents .tolerant block = y at h ⊢
  cases h with
  | clean => exact ⟨_, _, rfl⟩
  | faulty => exact ⟨_, _, rfl⟩

section ruleList

variable {P : Prop} {c d : Component} {rest rest' : List Component}

theorem ruleList_atRule_same (hskip : ¬ (c.isWhitespace || (true && c.isDocumentMark)) = true)
    (heof : ¬ c.isEof = true) (hat : c.isAtKeyword = true)
    (hsegment : atSegment rest' = ⟨(atSegment rest).values, (atSegment rest).block,
      grouped (atSegment rest).rest, []⟩) (herrors : P → (atSegment rest).errors = [])
    (hmore : Same P (ruleList .tolerant true (atSegment rest).rest)
      (ruleList .tolerant true (grouped (atSegment rest).rest))) :
    Same P (ruleList .tolerant true (c :: rest)) (ruleList .tolerant true (c :: rest')) := by
  obtain ⟨nodes, errors, hcontents⟩ := exists_contents_tolerant (atSegment rest).block
  rw [ruleList.eq_def _ _ (c :: rest), ruleList.eq_def _ _ (c :: rest')]
  simp only [if_neg hskip, if_neg heof, if_pos hat, hsegment, hcontents]
  exact (Segment.atRule_same c.leading herrors _).bind fun n => hmore.bind fun ns => .pure _

theorem ruleList_rule_same (hskip : ¬ (c.isWhitespace || (true && c.isDocumentMark)) = true)
    (heof : ¬ c.isEof = true) (hat : ¬ c.isAtKeyword = true)
    (hd : d = c ∨ d.kind? = none)
    (hsegment : ruleSegment (d :: rest') = ⟨(ruleSegment (c :: rest)).values,
      (ruleSegment (c :: rest)).block, grouped (ruleSegment (c :: rest)).rest, []⟩)
    (herrors : P → (ruleSegment (c :: rest)).errors = [])
    (hmore : Same P (ruleList .tolerant true (ruleSegment (c :: rest)).rest)
      (ruleList .tolerant true (grouped (ruleSegment (c :: rest)).rest))) :
    Same P (ruleList .tolerant true (c :: rest)) (ruleList .tolerant true (d :: rest')) := by
  obtain ⟨nodes, errors, hcontents⟩ := exists_contents_tolerant (ruleSegment (c :: rest)).block
  have hd : ¬ (d.isWhitespace || (true && d.isDocumentMark)) = true ∧ ¬ d.isEof = true ∧
      ¬ d.isAtKeyword = true := by
    rcases hd with rfl | hd
    · exact ⟨hskip, heof, hat⟩
    · simp [Component.isWhitespace, Component.isDocumentMark, Component.isEof,
        Component.isAtKeyword, hd]
  rw [ruleList.eq_def _ _ (c :: rest), ruleList.eq_def _ _ (d :: rest')]
  simp only [if_neg hskip, if_neg heof, if_neg hat, if_neg hd.1, if_neg hd.2.1,
    if_neg hd.2.2, hsegment, hcontents]
  exact (Segment.rule?_same herrors _).bind fun n => hmore.bind fun ns => .pure _

end ruleList

/-- Tolerant reading gives the same rules before and after grouping, and where
grouping finds no error the same errors. -/
theorem ruleList_grouped {cs : List Component} (h : Unread cs) :
    Same (groupingErrors cs = []) (ruleList .tolerant true cs)
      (ruleList .tolerant true (grouped cs)) := by
  induction cs using ruleList.induct true with
  | case1 =>
      rw [grouped_nil, ruleList]
      exact .pure []
  | case2 c rest hskip ih =>
      obtain ⟨hgrouped, herrors⟩ := grouped_gap rest hskip
      rw [hgrouped, herrors, ruleList.eq_def _ _ (_ :: rest), ruleList.eq_def _ _ (_ :: grouped _)]
      simp only [if_pos hskip]
      exact ih (h.of_suffix (List.suffix_cons _ rest))
  | case3 c rest hskip heof =>
      rw [grouped_eof heof, ruleList.eq_def _ _ (c :: rest), ruleList.eq_def _ _ []]
      simp only [if_neg hskip, if_pos heof]
      exact .pure []
  | case4 c rest hskip heof hat s ih =>
      have hrest := h.of_suffix (List.suffix_cons c rest)
      obtain ⟨hsegment, hfound⟩ := close_segment_grouped hrest (rfl : _ = atSegment rest)
      obtain ⟨name, span, rfl⟩ := Component.eq_of_isAtKeyword hat
      obtain ⟨hgrouped, herrors⟩ := grouped_plain (by simpa using heof) rfl
      rw [hgrouped, herrors, hfound, List.append_eq_nil_iff]
      refine ruleList_atRule_same hskip heof hat hsegment And.left ?_
      exact (ih (hrest.of_suffix (suffix_atSegment rest))).mono And.right
  | case5 c rest hskip heof hat s ih =>
      obtain ⟨hsegment, hfound⟩ := close_segment_grouped h (rfl : _ = ruleSegment (c :: rest))
      have hgrouped : grouped (c :: rest) = _ := grouped_value (Bool.eq_false_iff.2 heof)
      rw [hfound, List.append_eq_nil_iff]
      rw [hgrouped] at hsegment ⊢
      refine ruleList_rule_same hskip heof hat value_cases hsegment And.left ?_
      exact (ih (h.of_suffix (suffix_ruleSegment _))).mono And.right

/-! ## Taking one component after the other -/

namespace Cursor

variable {α : Type} {before after rest : List α}

theorem forth_between (before rest : List α) (a : α) :
    (between before (a :: rest)).forth = between (before ++ [a]) rest := by
  simp [between, forth]

theorem exists_leave_eq_between (before : List α) (h : rest <:+ after) :
    ∃ read, (between before after).leave rest = between read rest := by
  obtain ⟨taken, rfl⟩ := h
  refine ⟨before ++ taken, ?_⟩
  rw [leave_between, between]
  simp

theorem peek_between (before after : List α) :
    (between before after).peek 1 = .ok after.head? := by
  have hindex : (between before after).index + 1 - 1 = before.length + (0 : Nat) := by
    rw [between_index]
    omega
  have hlost : (between before after).isLostAt (before.length + (0 : Nat)) = false := by
    rw [isLostAt, decide_eq_false_iff_not, between_items]
    omega
  rw [peek, hindex, hlost, onwards_between]
  rfl

end Cursor

namespace Tree.Reader

open Cursor (between)

/-- Taking one component after the other, with all that it encloses, until the
end is ahead. -/
inductive Takes : Reader → List Component → Reader → Prop where
  | done {r : Reader} {c : Component} (hpeek : r.peek 1 = .ok c) (heof : c.isEof = true) :
      Takes r [] r
  | value {r r' left : Reader} {c value : Component} {cs : List Component}
      (hpeek : r.peek 1 = .ok c) (heof : c.isEof = false)
      (hvalue : r.value = .ok (.ok value, r')) (hmore : Takes r' cs left) :
      Takes r (value :: cs) left

/-- A reader takes the same components whenever it is run. -/
theorem Takes.unique {r left left' : Reader} {cs ds : List Component}
    (hcs : r.Takes cs left) (hds : r.Takes ds left') : cs = ds := by
  induction hcs generalizing ds with
  | done hpeek heof =>
      cases hds with
      | done => rfl
      | value hpeek' heof' =>
          obtain rfl := Except.ok.inj (hpeek.symm.trans hpeek')
          rw [heof] at heof'
          cases heof'
  | value hpeek heof hvalue _ ih =>
      cases hds with
      | done hpeek' heof' =>
          obtain rfl := Except.ok.inj (hpeek.symm.trans hpeek')
          rw [heof] at heof'
          cases heof'
      | value _ _ hvalue' hmore' =>
          obtain ⟨hfirst, rfl⟩ := Prod.mk.inj (Except.ok.inj (hvalue.symm.trans hvalue'))
          rw [Except.ok.inj hfirst, ih hmore']

theorem peek_between (before cs : List Component) (mode : Mode) (errors : List SyntaxError) :
    peek ⟨between before cs, mode, errors⟩ 1 = .ok (cs.head?.getD missing) := by
  rw [peek, Cursor.peek_between]
  rfl

/-- The next component, the cursor behind it, and the errors of what was not closed in it. -/
theorem value_eq_takeValue (before : List Component) (c : Component) (rest : List Component)
    (errors : List SyntaxError) :
    value ⟨between before (c :: rest), .tolerant, errors⟩ =
      .ok (.ok (takeValue c rest).value,
        ⟨(between (before ++ [c]) rest).leave (takeValue c rest).rest, .tolerant,
          errors ++ (takeValue c rest).errors.map Found.error⟩) := by
  have hadvance : advance ⟨between before (c :: rest), .tolerant, errors⟩ =
      (c, ⟨between (before ++ [c]) rest, .tolerant, errors⟩) := by
    simp only [advance, Cursor.ahead_between, Cursor.forth_between]
  simp only [value, hadvance, Cursor.ahead_between, attempt, Cursor.isLost_between,
    Bool.false_eq_true, if_false]
  rw [← List.append_nil ((takeValue c rest).errors.map Found.error)]
  rfl

theorem value_between (before : List Component) (c : Component) (rest : List Component)
    (errors : List SyntaxError) :
    ∃ read errors', value ⟨between before (c :: rest), .tolerant, errors⟩ =
      .ok (.ok (takeValue c rest).value,
        ⟨between read (takeValue c rest).rest, .tolerant, errors'⟩) := by
  obtain ⟨read, hread⟩ := Cursor.exists_leave_eq_between (before ++ [c])
    (suffix_takeValue c rest)
  exact ⟨read, _, hread ▸ value_eq_takeValue before c rest errors⟩

theorem takes_grouped (before cs : List Component) (errors : List SyntaxError) :
    ∃ left, Takes ⟨between before cs, .tolerant, errors⟩ (grouped cs) left := by
  induction cs using segment_induct false false generalizing before errors with
  | nil =>
      rw [grouped_nil]
      exact ⟨_, .done (peek_between before [] _ _) rfl⟩
  | stop c rest hstop =>
      have heof : c.isEof = true := by simpa using hstop
      rw [grouped_eof heof]
      exact ⟨_, .done (peek_between before (c :: rest) _ _) heof⟩
  | block c rest b hstop hbraces => cases hbraces
  | value c rest hstop hvalue ih =>
      have heof : c.isEof = false := by simpa using hstop
      obtain ⟨read, errors', hread⟩ := value_between before c rest errors
      obtain ⟨left, hleft⟩ := ih read errors'
      rw [grouped_value heof]
      exact ⟨left, .value (peek_between before (c :: rest) _ _) heof hread hleft⟩

end Tree.Reader

/-! ## Stylesheets -/

namespace Stylesheet

theorem unread_tokenize (source : Text) : Unread (components (Source.tokenize source).tokens) := by
  obtain ⟨body, last, htokens, htiles⟩ := Source.tiles_tokenize source
  rw [htokens]
  exact unread_components (fun t ht => (htiles.nonempty t ht).1) htiles.ending.1

/-- What tolerant reading gives determines what strict reading gives. -/
theorem ofComponents_strict_congr {cs ds : List Component}
    (h : ofComponents .tolerant cs = ofComponents .tolerant ds) :
    ofComponents .strict cs = ofComponents .strict ds := by
  obtain ⟨sheet, hcs, hclean, hfaulty⟩ := ofComponents_agree cs
  obtain ⟨sheet', hds, hclean', hfaulty'⟩ := ofComponents_agree ds
  obtain rfl : sheet = sheet' := Except.ok.inj (hcs.symm.trans (h.trans hds))
  cases herrors : sheet.errors with
  | nil => rw [(hclean herrors).1, (hclean' herrors).1]
  | cons e more =>
      have hhead : sheet.errors.head? = some e := by rw [herrors]; rfl
      rw [hfaulty e hhead, hfaulty' e hhead]

/-- The tokens of a source, and the components that are taken from them one after
the other until the end, are read as the same rules. If every function and block
among the components has been closed the errors are the same as well, and both
modes give the same result. -/
theorem grouped_before_reading (source : Text) :
    let tokens := components (Source.tokenize source).tokens
    let reader := Tree.Reader.ofComponents .tolerant tokens
    (∃ values left, reader.Takes values left) ∧
    ∀ values left, reader.Takes values left →
      (∃ sheet sheet', ofComponents .tolerant tokens = .ok sheet ∧
        ofComponents .tolerant values = .ok sheet' ∧ sheet'.rules = sheet.rules) ∧
      (areClosed values = true →
        ∀ mode, ofComponents mode values = ofComponents mode tokens) := by
  intro tokens reader
  obtain ⟨rest, htakes⟩ := Tree.Reader.takes_grouped [] tokens []
  refine ⟨⟨grouped tokens, rest, htakes⟩, fun values left hleft => ?_⟩
  obtain rfl : values = grouped tokens := hleft.unique htakes
  obtain ⟨rules, errors, errors', htokens, hvalues, hsame⟩ :=
    ruleList_grouped (unread_tokenize source)
  have hread : ofComponents .tolerant tokens = .ok ⟨rules, errors⟩ := by
    rw [ofComponents, htokens]
  have hgrouped : ofComponents .tolerant (grouped tokens) = .ok ⟨rules, errors'⟩ := by
    rw [ofComponents, hvalues]
  refine ⟨⟨_, _, hread, hgrouped, rfl⟩, fun hclosed => ?_⟩
  have htolerant : ofComponents .tolerant (grouped tokens) = ofComponents .tolerant tokens := by
    rw [hread, hgrouped, hsame (groupingErrors_of_areClosed hclosed)]
  intro mode
  cases mode with
  | strict => exact ofComponents_strict_congr htolerant
  | tolerant => exact htolerant

end Stylesheet

end StyleAudit
