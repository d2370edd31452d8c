import StyleAudit.Proofs.GroupedParsing
import StyleAudit.Proofs.TidyLists

/-!
# Grouping is matching with a stack

Brackets are grouped by readers that call each other: a bracket that is opened inside
another one is read to its end before the other one is read on. Here the same is said
without recursion. A `Matcher` goes through the tokens one by one; an opening goes on top
of its stack, and a closing token takes the top off, if that is its partner, and is put
with the other tokens if not. What stands behind an opening is collected in its `Frame`.

`contents_enclose` carries the file. Where a reader is inside a bracket, the matcher has
the frame of that bracket on its stack, and everything that the reader does happens on top
of it. So the reader comes to the closing token when the matcher takes the frame off, and
if it comes to the end of the source instead, the frames still on the stack are the
brackets for which an error is found: the innermost first, since the readers return in
that order. The readers around it find a list with nothing left in it, not even the mark
of the end, which `Ahead.nil` allows for.
-/

namespace StyleAudit

open Component (tokensIn leaves Grouped)

/-- An opening that has not been closed, with what has been read behind it. -/
structure Frame where
  opening : Opening
  values : List Component

/-- The openings that have not been closed, the innermost first, and what stands outside
of all brackets. -/
structure Matcher where
  stack : List Frame
  outside : List Component

namespace Matcher

def empty : Matcher := ⟨[], []⟩

/-- The matcher with another component behind the innermost opening. -/
def put (m : Matcher) (c : Component) : Matcher :=
  match m.stack with
  | [] => ⟨[], m.outside ++ [c]⟩
  | f :: below => ⟨⟨f.opening, f.values ++ [c]⟩ :: below, m.outside⟩

def push (m : Matcher) (o : Opening) : Matcher := ⟨⟨o, []⟩ :: m.stack, m.outside⟩

/-- A closing token takes the innermost opening off if that is its partner. -/
def close (m : Matcher) (bracket : Bracket) (span : Span) : Matcher :=
  match m.stack with
  | [] => m.put (.token ⟨.closing bracket, span⟩)
  | f :: below =>
    if f.opening.bracket = bracket then
      (⟨below, m.outside⟩ : Matcher).put (f.opening.component f.values (some span))
    else m.put (.token ⟨.closing bracket, span⟩)

def step (m : Matcher) (t : Token) : Matcher :=
  match t.kind with
  | .opening bracket => m.push ⟨none, bracket, t.span⟩
  | .function name => m.push ⟨some name, .round, t.span⟩
  | .closing bracket => m.close bracket t.span
  | _ => m.put (.token t)

def run (m : Matcher) (ts : List Token) : Matcher := ts.foldl step m

/-- What frames come to if nothing closes them, each being the last thing in the next. -/
def unwound (stack : List Frame) : List Component :=
  stack.foldl (fun inner f => [f.opening.component (f.values ++ inner) none]) []

/-- The errors of frames that nothing closes. -/
def unclosed (stack : List Frame) : List SyntaxError := stack.map fun f => f.opening.unclosed

@[simp] theorem run_nil (m : Matcher) : m.run [] = m := rfl

@[simp] theorem run_cons (m : Matcher) (t : Token) (ts : List Token) :
    m.run (t :: ts) = (m.step t).run ts := rfl

theorem run_append (m : Matcher) (ts us : List Token) :
    m.run (ts ++ us) = (m.run ts).run us := List.foldl_append ..

theorem unwound_append (stack : List Frame) (f : Frame) :
    unwound (stack ++ [f]) = [f.opening.component (f.values ++ unwound stack) none] := by
  rw [unwound, List.foldl_append, List.foldl_cons, List.foldl_nil, unwound]

theorem unclosed_append (stack below : List Frame) :
    unclosed (stack ++ below) = unclosed stack ++ unclosed below := List.map_append ..

/-! ## Steps -/

section step

variable {t : Token} {o inner : Opening} {values : List Component} {below : List Frame}
  {outside : List Component} {span : Span}

theorem step_opened (m : Matcher) (h : Opening.of? (.token t) = some o) :
    m.step t = m.push o := by
  obtain ⟨kind, span⟩ := t
  cases kind with
  | opening bracket => cases h; rfl
  | function name => cases h; rfl
  | _ => cases h

theorem eq_of_closes? {bracket : Bracket} (h : (Component.token t).closes? bracket = some span) :
    t = ⟨.closing bracket, span⟩ := by
  unfold Component.closes? at h
  split at h
  · next heq =>
      split at h
      · next hbracket =>
          cases h
          cases heq
          rw [hbracket]
      · cases h
  · cases h

theorem step_closed (o : Opening) (values : List Component) (below : List Frame)
    (outside : List Component) (span : Span) :
    (⟨⟨o, values⟩ :: below, outside⟩ : Matcher).step ⟨.closing o.bracket, span⟩ =
      (⟨below, outside⟩ : Matcher).put (o.component values (some span)) := by
  show close ⟨⟨o, values⟩ :: below, outside⟩ o.bracket span = _
  exact if_pos rfl

theorem step_plain (values : List Component) (below : List Frame) (outside : List Component)
    (hopening : Opening.of? (.token t) = none)
    (hcloses : (Component.token t).closes? o.bracket = none) :
    (⟨⟨o, values⟩ :: below, outside⟩ : Matcher).step t =
      ⟨⟨o, values ++ [.token t]⟩ :: below, outside⟩ := by
  obtain ⟨kind, span⟩ := t
  cases kind with
  | opening bracket => cases hopening
  | function name => cases hopening
  | closing bracket =>
      have hother : o.bracket ≠ bracket := by
        rintro rfl
        rw [Component.closes?, if_pos rfl] at hcloses
        cases hcloses
      show close ⟨⟨o, values⟩ :: below, outside⟩ bracket span = _
      exact if_neg hother
  | _ => rfl

theorem step_outside (hopening : Opening.of? (.token t) = none) :
    (⟨[], outside⟩ : Matcher).step t = ⟨[], outside ++ [.token t]⟩ := by
  obtain ⟨kind, span⟩ := t
  cases kind with
  | opening bracket => cases hopening
  | function name => cases hopening
  | _ => rfl

end step

/-! ## Runs -/

/-- Whether something holds before and after every step of a run. -/
def Throughout (P : Matcher → Prop) (m : Matcher) : List Token → Prop
  | [] => P m
  | t :: ts => P m ∧ Throughout P (m.step t) ts

section Throughout

variable {P Q : Matcher → Prop} {m : Matcher} {ts us : List Token}

theorem Throughout.mono (h : Throughout P m ts) (hPQ : ∀ m, P m → Q m) : Throughout Q m ts := by
  induction ts generalizing m with
  | nil => exact hPQ m h
  | cons t ts ih => exact ⟨hPQ m h.1, ih h.2⟩

theorem Throughout.append (hts : Throughout P m ts) (hus : Throughout P (m.run ts) us) :
    Throughout P m (ts ++ us) := by
  induction ts generalizing m with
  | nil => exact hus
  | cons t ts ih => exact ⟨hts.1, ih hts.2 hus⟩

theorem throughout_iff : Throughout P m ts ↔ ∀ p, p <+: ts → P (m.run p) := by
  induction ts generalizing m with
  | nil => simp [Throughout]
  | cons t ts ih =>
      rw [Throughout, ih]
      refine ⟨fun h p hp => ?_, fun h => ⟨h [] (List.nil_prefix), fun p hp => ?_⟩⟩
      · cases p with
        | nil => exact h.1
        | cons u p =>
            obtain ⟨rfl, htail⟩ := List.cons_prefix_cons.1 hp
            exact h.2 p htail
      · exact h (t :: p) (List.cons_prefix_cons.2 ⟨rfl, hp⟩)

end Throughout

/-- Whether the matcher is inside a bracket, with nothing changed below its frame. -/
def Within (o : Opening) (below : List Frame) (outside : List Component) (m : Matcher) : Prop :=
  ∃ above values, m = ⟨above ++ ⟨o, values⟩ :: below, outside⟩

theorem within_top (o : Opening) (values : List Component) (below : List Frame)
    (outside : List Component) :
    Within o below outside ⟨⟨o, values⟩ :: below, outside⟩ := ⟨[], values, rfl⟩

theorem Within.outer {o inner : Opening} {values : List Component} {below : List Frame}
    {outside : List Component} {m : Matcher} (h : Within inner (⟨o, values⟩ :: below) outside m) :
    Within o below outside m := by
  obtain ⟨above, inside, rfl⟩ := h
  exact ⟨above ++ [⟨inner, inside⟩], values, by rw [List.append_assoc]; rfl⟩

/-- Whether tokens lead, inside a bracket, to some more frames on top of its own and some
more components in it, and never out of it. -/
def Leads (o : Opening) (ts : List Token) (above : List Frame) (collected : List Component) :
    Prop :=
  ∀ values below outside,
    run ⟨⟨o, values⟩ :: below, outside⟩ ts =
        ⟨above ++ ⟨o, values ++ collected⟩ :: below, outside⟩ ∧
      Throughout (Within o below outside) ⟨⟨o, values⟩ :: below, outside⟩ ts

section Leads

variable {o inner : Opening} {t : Token} {ts us : List Token} {above : List Frame}
  {cs ds : List Component}

theorem Leads.nil (o : Opening) : Leads o [] [] [] := by
  intro values below outside
  rw [run_nil, List.append_nil]
  exact ⟨rfl, within_top o values below outside⟩

theorem Leads.append (hts : Leads o ts [] cs) (hus : Leads o us above ds) :
    Leads o (ts ++ us) above (cs ++ ds) := by
  intro values below outside
  obtain ⟨hrun, hthroughout⟩ := hts values below outside
  obtain ⟨hrun', hthroughout'⟩ := hus (values ++ cs) below outside
  refine ⟨?_, hthroughout.append ?_⟩
  · rw [run_append, hrun, ← List.append_assoc]
    exact hrun'
  · rw [hrun]
    exact hthroughout'

theorem Leads.plain (hopening : Opening.of? (.token t) = none)
    (hcloses : (Component.token t).closes? o.bracket = none) :
    Leads o [t] [] [.token t] := by
  intro values below outside
  have hstep := step_plain values below outside hopening hcloses
  refine ⟨hstep, within_top o values below outside, ?_⟩
  rw [hstep]
  exact within_top o _ below outside

/-- A bracket that is opened inside and not closed. -/
theorem Leads.opened (hinner : Opening.of? (.token t) = some inner)
    (h : Leads inner ts above cs) : Leads o (t :: ts) (above ++ [⟨inner, cs⟩]) [] := by
  intro values below outside
  obtain ⟨hrun, hthroughout⟩ := h [] (⟨o, values⟩ :: below) outside
  have hstep : step ⟨⟨o, values⟩ :: below, outside⟩ t =
      ⟨⟨inner, []⟩ :: ⟨o, values⟩ :: below, outside⟩ := step_opened _ hinner
  refine ⟨?_, within_top o values below outside, ?_⟩
  · rw [run_cons, hstep, hrun, List.append_nil, List.nil_append, List.append_assoc]
    rfl
  · rw [hstep]
    exact hthroughout.mono fun m => Within.outer

/-- A bracket that is opened and closed inside. -/
theorem Leads.nested (hinner : Opening.of? (.token t) = some inner)
    (h : Leads inner ts [] cs) (span : Span) :
    Leads o (t :: (ts ++ [⟨.closing inner.bracket, span⟩])) []
      [inner.component cs (some span)] := by
  intro values below outside
  obtain ⟨hrun, hthroughout⟩ := h.opened (o := o) hinner values below outside
  rw [List.append_nil, List.nil_append, List.singleton_append] at hrun
  have hclosed : run ⟨⟨o, values⟩ :: below, outside⟩
      (t :: (ts ++ [⟨.closing inner.bracket, span⟩])) =
        ⟨⟨o, values ++ [inner.component cs (some span)]⟩ :: below, outside⟩ := by
    rw [← List.cons_append, run_append, hrun]
    exact step_closed inner cs _ outside span
  refine ⟨hclosed, ?_⟩
  rw [← List.cons_append]
  refine hthroughout.append ?_
  rw [hrun]
  refine ⟨⟨[⟨inner, cs⟩], values, rfl⟩, ?_⟩
  rw [step_closed]
  exact within_top o _ below outside

end Leads

/-! ## What is ahead of a reader -/

/-- The components of some tokens with the mark of the end behind them, or nothing at all
once that mark has been taken. -/
inductive Ahead (last : Component) : List Token → List Component → Prop where
  | nil : Ahead last [] []
  | tokens {ts : List Token} (h : ∀ t ∈ ts, t.kind ≠ .eof) :
      Ahead last ts (ts.map .token ++ [last])

section Ahead

variable {last c : Component} {ts : List Token} {rest : List Component}

theorem Ahead.eof (h : Ahead last ts (c :: rest)) (heof : c.isEof = true) :
    ts = [] ∧ rest = [] := by
  generalize hcs : c :: rest = cs at h
  cases h with
  | nil => cases hcs
  | tokens hkinds =>
      cases ts with
      | nil =>
          cases hcs
          exact ⟨rfl, rfl⟩
      | cons t ts =>
          cases hcs
          exact absurd (Component.isEof_token.1 heof) (hkinds t List.mem_cons_self)

theorem Ahead.cons (hlast : last.isEof = true) (h : Ahead last ts (c :: rest))
    (heof : c.isEof = false) :
    ∃ t us, ts = t :: us ∧ c = .token t ∧ (∀ u ∈ us, u.kind ≠ .eof) ∧
      rest = us.map .token ++ [last] := by
  generalize hcs : c :: rest = cs at h
  cases h with
  | nil => cases hcs
  | tokens hkinds =>
      cases ts with
      | nil =>
          cases hcs
          rw [hlast] at heof
          cases heof
      | cons t ts =>
          cases hcs
          exact ⟨t, ts, rfl, rfl, (List.forall_mem_cons.1 hkinds).2, rfl⟩

end Ahead

/-! ## What an opening encloses -/

/-- How a matcher sees what is behind an opening. Either the closing token comes, and the
tokens up to it lead to the contents; or the end comes first, and they lead to frames that
nothing closes. -/
inductive Contents (last : Component) (o : Opening) (ts : List Token) (e : Enclosed) : Prop where
  | closed {inside left : List Token} {span : Span}
      (hts : ts = inside ++ ⟨.closing o.bracket, span⟩ :: left)
      (hleft : ∀ t ∈ left, t.kind ≠ .eof) (hclosing : e.closing = some span)
      (hrest : e.rest = left.map .token ++ [last]) (herrors : e.errors = [])
      (hleads : Leads o inside [] e.values)
  | ended {above : List Frame} {collected : List Component}
      (hclosing : e.closing = none) (hrest : e.rest = [])
      (hvalues : e.values = collected ++ unwound above)
      (herrors : e.errors.map Found.error = unclosed above ++ [o.unclosed])
      (hleads : Leads o ts above collected)

section Contents

variable {last : Component} {o inner : Opening} {t : Token} {ts us : List Token}
  {e : Enclosed} {c : Component}

theorem Contents.finish (last : Component) (o : Opening) :
    Contents last o [] ⟨[], none, [], [⟨o.unclosed, []⟩]⟩ :=
  @Contents.ended last o [] _ [] [] rfl rfl rfl rfl (.nil o)

theorem Contents.cons (hts : Leads o ts [] [c]) (h : Contents last o us e) :
    Contents last o (ts ++ us) ⟨c :: e.values, e.closing, e.rest, e.errors⟩ := by
  cases h with
  | closed hus hleft hclosing hrest herrors hleads =>
      rw [hus, ← List.append_assoc]
      exact .closed rfl hleft hclosing hrest herrors (hts.append hleads)
  | @ended above collected hclosing hrest hvalues herrors hleads =>
      refine .ended hclosing hrest ?_ herrors (hts.append hleads)
      rw [hvalues, List.append_assoc, List.singleton_append]

/-- Where the inner bracket is not closed the end has been taken, and the outer one is not
closed either. -/
theorem Contents.opened (hinner : Opening.of? (.token t) = some inner)
    (hclosing : e.closing = none) {above : List Frame} {collected : List Component}
    (hvalues : e.values = collected ++ unwound above)
    (herrors : e.errors.map Found.error = unclosed above ++ [inner.unclosed])
    (hleads : Leads inner ts above collected) :
    Contents last o (t :: ts) ⟨[inner.component e.values e.closing], none, [],
      e.errors ++ [⟨o.unclosed, []⟩]⟩ := by
  refine .ended rfl rfl ?_ ?_ (hleads.opened hinner)
  · rw [hvalues, hclosing, unwound_append, List.nil_append]
  · rw [List.map_append, herrors, unclosed_append]
    rfl

end Contents

theorem contents_enclose {last : Component} (hlast : last.isEof = true) (o : Opening)
    {ts : List Token} {cs : List Component} (h : Ahead last ts cs) :
    Contents last o ts (enclose o cs) := by
  induction o, cs using enclose_induct generalizing ts with
  | nil o =>
      generalize hcs : ([] : List Component) = cs at h
      cases h with
      | nil =>
          rw [enclose_nil]
          exact .finish last o
      | tokens => simp at hcs
  | eof o c rest heof =>
      obtain ⟨rfl, rfl⟩ := h.eof heof
      rw [enclose_eof [] o heof]
      exact .finish last o
  | closed o c rest span heof hcloses =>
      obtain ⟨t, us, rfl, rfl, hus, rfl⟩ := h.cons hlast heof
      rw [enclose_closed _ heof hcloses]
      obtain rfl := eq_of_closes? hcloses
      refine .closed ?_ hus rfl rfl rfl (.nil o)
      rfl
  | opened o c rest inner heof hcloses hinner ihinner ihmore =>
      obtain ⟨t, us, rfl, rfl, hus, rfl⟩ := h.cons hlast heof
      rw [enclose_opened _ heof hcloses hinner]
      cases ihinner (.tokens hus) with
      | @closed inside left span hts hleft hclosing hrest herrors hleads =>
          rw [hrest] at ihmore
          have hmore := (ihmore (.tokens hleft)).cons (hleads.nested (o := o) hinner span)
          have hsplit : t :: us =
              (t :: (inside ++ [⟨.closing inner.bracket, span⟩])) ++ left := by
            rw [hts, List.cons_append, List.append_assoc, List.singleton_append]
          rw [hsplit, hrest, hclosing, herrors, List.nil_append]
          exact hmore
      | ended hclosing hrest hvalues herrors hleads =>
          rw [hrest, enclose_nil]
          exact .opened hinner hclosing hvalues herrors hleads
  | plain o c rest heof hcloses hopening ih =>
      obtain ⟨t, us, rfl, rfl, hus, rfl⟩ := h.cons hlast heof
      rw [enclose_plain _ heof hcloses hopening]
      exact .cons (.plain hopening hcloses) (ih (.tokens hus))

/-! ## Components outside of all brackets -/

/-- Whether tokens are read as one component, which is complete with the last of them and
not before. -/
structure Completes (read : List Token) (c : Component) : Prop where
  run_eq : ∀ outside, run ⟨[], outside⟩ read = ⟨[], outside ++ [c]⟩
  open_inside : ∀ p, p <+: read → p ≠ [] → p ≠ read → (run empty p).stack ≠ []

/-- Whether tokens are read as one component that is still open behind them, with the
frames of a stack. -/
structure LeavesOpen (read : List Token) (stack : List Frame) (c : Component) : Prop where
  run_eq : ∀ outside, run ⟨[], outside⟩ read = ⟨stack, outside⟩
  open_inside : ∀ p, p <+: read → p ≠ [] → (run empty p).stack ≠ []
  unwound_eq : unwound stack = [c]

section takeValue

variable {last t : Token} {ts : List Token} {o : Opening}

theorem Within.stack_ne_nil {below : List Frame} {outside : List Component} {m : Matcher}
    (h : Within o below outside m) : m.stack ≠ [] := by
  obtain ⟨above, values, rfl⟩ := h
  exact List.append_ne_nil_of_right_ne_nil above (List.cons_ne_nil _ _)

theorem completes_plain (hopening : Opening.of? (.token t) = none) : Completes [t] (.token t) := by
  refine ⟨fun outside => step_outside hopening, fun p hp hne hread => ?_⟩
  cases p with
  | nil => exact absurd rfl hne
  | cons u p =>
      obtain ⟨rfl, htail⟩ := List.cons_prefix_cons.1 hp
      exact absurd (congrArg (u :: ·) (List.prefix_nil.1 htail)) hread

/-- Behind an opening the stack is not empty before the bracket has been closed. -/
theorem Leads.open_inside {above : List Frame} {collected : List Component}
    (h : Leads o ts above collected) (hopening : Opening.of? (.token t) = some o)
    {p : List Token} (hp : p <+: t :: ts) (hne : p ≠ []) : (run empty p).stack ≠ [] := by
  cases p with
  | nil => exact absurd rfl hne
  | cons u p =>
      obtain ⟨rfl, htail⟩ := List.cons_prefix_cons.1 hp
      have hwithin := throughout_iff.1 (h [] [] []).2 p htail
      rw [run_cons, step_opened empty hopening]
      exact hwithin.stack_ne_nil

theorem Leads.completes {collected : List Component} (h : Leads o ts [] collected)
    (hopening : Opening.of? (.token t) = some o) (span : Span) :
    Completes (t :: (ts ++ [⟨.closing o.bracket, span⟩])) (o.component collected (some span)) := by
  refine ⟨fun outside => ?_, fun p hp hne hread => ?_⟩
  · rw [run_cons, step_opened _ hopening, run_append]
    show run (run ⟨[⟨o, []⟩], outside⟩ ts) _ = _
    rw [(h [] [] outside).1]
    exact step_closed o collected [] outside span
  · rw [← List.cons_append] at hp hread
    exact h.open_inside hopening ((List.prefix_concat_iff.1 hp).resolve_left hread) hne

theorem Leads.leavesOpen {above : List Frame} {collected : List Component}
    (h : Leads o ts above collected) (hopening : Opening.of? (.token t) = some o) :
    LeavesOpen (t :: ts) (above ++ [⟨o, collected⟩])
      (o.component (collected ++ unwound above) none) := by
  refine ⟨fun outside => ?_, fun p hp hne => h.open_inside hopening hp hne,
    unwound_append above _⟩
  rw [run_cons, step_opened _ hopening]
  exact (h [] [] outside).1

/-- What is taken from the tokens of a source is what a matcher reads: a component that it
has completed, with all that follows left; or one that it leaves open, with nothing left
and an error for each frame on its stack. -/
theorem takeValue_matched (hlast : last.kind = .eof) (hts : ∀ u ∈ ts, u.kind ≠ .eof)
    {taken : Taken} (htaken : takeValue (.token t) (ts.map .token ++ [.token last]) = taken) :
    (∃ read left, t :: ts = read ++ left ∧ read ≠ [] ∧ Completes read taken.value ∧
        taken.rest = left.map .token ++ [.token last] ∧ taken.errors = []) ∨
      ∃ stack, LeavesOpen (t :: ts) stack taken.value ∧ taken.rest = [] ∧
        taken.errors.map Found.error = unclosed stack := by
  subst htaken
  unfold takeValue
  split
  · next o hopening =>
      dsimp only
      cases contents_enclose (Component.isEof_token.2 hlast) o (.tokens hts) with
      | @closed inside left span hinside hleft hclosing hrest herrors hleads =>
          refine .inl ⟨t :: (inside ++ [⟨.closing o.bracket, span⟩]), left, ?_,
            List.cons_ne_nil _ _, ?_, hrest, herrors⟩
          · rw [hinside, List.cons_append, List.append_assoc, List.singleton_append]
          · rw [hclosing]
            exact hleads.completes hopening span
      | @ended above collected hclosing hrest hvalues herrors hleads =>
          refine .inr ⟨above ++ [⟨o, collected⟩], ?_, hrest, ?_⟩
          · rw [hclosing, hvalues]
            exact hleads.leavesOpen hopening
          · rw [herrors, unclosed_append]
            rfl
  · next hopening =>
      exact .inl ⟨[t], ts, rfl, List.cons_ne_nil _ _, completes_plain hopening, rfl, rfl⟩

theorem loose_tokens (ts : List Token) : Component.Loose (ts.map .token) := by
  intro c hc
  obtain ⟨t, -, rfl⟩ := List.mem_map.1 hc
  exact .inl ⟨t, rfl⟩

theorem leaves_tokens (hlast : last.kind = .eof) (hts : ∀ u ∈ ts, u.kind ≠ .eof) :
    leaves (ts.map .token ++ [.token last]) = ts := by
  rw [Component.leaves_append, Component.leaves_eof (Component.isEof_token.2 hlast),
    List.append_nil, leaves, Component.tokensIn_token, List.filter_eq_self]
  simpa using hts

/-- What is taken has the tokens that have been read. -/
theorem tokens_takeValue (hlast : last.kind = .eof) (hts : ∀ u ∈ t :: ts, u.kind ≠ .eof)
    {taken : Taken} (htaken : takeValue (.token t) (ts.map .token ++ [.token last]) = taken) :
    t :: ts = taken.value.tokens ++ leaves taken.rest := by
  subst htaken
  have hleaves := leaves_takeValue (.token t) (ts.map .token ++ [.token last])
  have hloose : Component.Loose (.token t :: (ts.map .token ++ [.token last])) := by
    simpa using loose_tokens (t :: ts ++ [last])
  have ht : t.kind ≠ .eof := hts t List.mem_cons_self
  have hgrouped := grouped_takeValue hloose (Component.not_isEof_token.2 ht)
  rw [Component.leaves_of_grouped (List.forall_mem_singleton.2 hgrouped), tokensIn, tokensIn,
    List.append_nil] at hleaves
  rw [← hleaves]
  exact (leaves_tokens hlast hts).symm

/-- Taking one component after the other is running the matcher to the end. -/
theorem grouped_matched (hlast : last.kind = .eof) (ts : List Token)
    (hts : ∀ u ∈ ts, u.kind ≠ .eof) (outside : List Component) :
    outside ++ grouped (ts.map .token ++ [.token last]) =
        (run ⟨[], outside⟩ ts).outside ++ unwound (run ⟨[], outside⟩ ts).stack ∧
      (groupingErrors (ts.map .token ++ [.token last])).map Found.error =
        unclosed (run ⟨[], outside⟩ ts).stack := by
  match ts with
  | [] =>
      have heof := Component.isEof_token.2 hlast
      rw [List.map_nil, List.nil_append, grouped_eof heof, groupingErrors_eof heof]
      exact ⟨rfl, rfl⟩
  | t :: ts =>
      obtain ⟨ht, hrest⟩ := List.forall_mem_cons.1 hts
      have heof : (Component.token t).isEof = false := Component.not_isEof_token.2 ht
      rw [List.map_cons, List.cons_append, grouped_value heof, groupingErrors_value heof]
      generalize htaken : takeValue (.token t) (ts.map .token ++ [.token last]) = taken
      rcases takeValue_matched hlast hrest htaken with
        ⟨read, left, hsplit, hne, hcompletes, hleft, herrors⟩ | ⟨stack, hopen, hleft, herrors⟩
      · have hlength : left.length < (t :: ts).length := by
          rw [hsplit, List.length_append]
          have := List.length_pos_iff.2 hne
          omega
        have hkinds : ∀ u ∈ left, u.kind ≠ .eof := fun u hu =>
          hts u (hsplit ▸ List.mem_append_right read hu)
        obtain ⟨hvalues, hmore⟩ := grouped_matched hlast left hkinds (outside ++ [taken.value])
        rw [hsplit, run_append, hcompletes.run_eq outside, hleft, herrors, List.nil_append,
          ← hvalues, List.append_assoc]
        exact ⟨rfl, hmore⟩
      · rw [hopen.run_eq outside, hleft, grouped_nil, groupingErrors_nil, List.append_nil,
          herrors, hopen.unwound_eq]
        exact ⟨rfl, rfl⟩
termination_by ts.length
decreasing_by exact hlength

end takeValue

end Matcher

/-! ## Sources -/

namespace Stylesheet

open Matcher (Completes LeavesOpen unclosed)

open StyleAudit.Tree (Reader)

theorem components_tokenize (source : Text) :
    ∃ last, last.kind = .eof ∧
      components (Source.tokenize source).tokens =
        (body source).map .token ++ [.token last] := by
  obtain ⟨inner, last, htokens, -, hlast, hbody⟩ := exists_body source
  refine ⟨last, hlast, ?_⟩
  rw [htokens, components_append, components_end hlast, hbody, components]

theorem drop_body {source : Text} {i : Nat} (hi : i < (body source).length) :
    ∃ before t after, body source = before ++ t :: after ∧ before.length = i ∧
      (body source).drop i = t :: after := by
  refine ⟨(body source).take i, (body source)[i], (body source).drop (i + 1), ?_,
    List.length_take_of_le hi.le, List.drop_eq_getElem_cons hi⟩
  rw [← List.drop_eq_getElem_cons hi, List.take_append_drop]

/-- Whether a component is what a matcher reads where some tokens are ahead; how many
tokens have been taken then, and what errors found. All tokens in a component that is
complete have been taken; one that is still open at the end of the source has the mark of
the end taken as well. -/
inductive Matched (ahead : List Token) (c : Component) : Nat → List SyntaxError → Prop where
  | complete {left : List Token} (hahead : ahead = c.tokens ++ left)
      (h : Completes c.tokens c) : Matched ahead c c.tokens.length []
  | unclosed {stack : List Frame} (hahead : ahead = c.tokens)
      (h : LeavesOpen c.tokens stack c) :
      Matched ahead c (c.tokens.length + 1) (unclosed stack)

theorem matched_takeValue {last t : Token} {ts : List Token} (hlast : last.kind = .eof)
    (hts : ∀ u ∈ t :: ts, u.kind ≠ .eof) {taken : Taken}
    (htaken : takeValue (.token t) (ts.map .token ++ [.token last]) = taken) :
    ∃ count, Matched (t :: ts) taken.value count (taken.errors.map Found.error) ∧
      count + taken.rest.length = ts.length + 2 := by
  have htokens := Matcher.tokens_takeValue hlast hts htaken
  have hrest := (List.forall_mem_cons.1 hts).2
  rcases Matcher.takeValue_matched hlast hrest htaken with
    ⟨read, left, hsplit, -, hcompletes, hleft, herrors⟩ | ⟨stack, hopen, hleft, herrors⟩
  · have hkinds : ∀ u ∈ left, u.kind ≠ .eof := fun u hu =>
      hts u (hsplit ▸ List.mem_append_right read hu)
    rw [hleft, Matcher.leaves_tokens hlast hkinds] at htokens
    obtain rfl : read = taken.value.tokens :=
      List.append_cancel_right (hsplit.symm.trans htokens)
    rw [herrors]
    refine ⟨_, .complete htokens hcompletes, ?_⟩
    have hlength := congrArg List.length htokens
    simp only [List.length_cons, List.length_append] at hlength
    rw [hleft, List.length_append, List.length_map, List.length_singleton]
    omega
  · rw [hleft, Component.leaves_nil, List.append_nil] at htokens
    rw [htokens] at hopen
    rw [herrors]
    refine ⟨_, .unclosed htokens hopen, ?_⟩
    have hlength := congrArg List.length htokens
    rw [List.length_cons] at hlength
    rw [hleft, List.length_nil]
    omega

/-- A component that is taken anywhere in a source in tolerant mode is what a matcher reads
there, and no list in it holds an opening, a comment, the mark of the end or its own
closing token. The same goes for all lists in the tree of the source. -/
theorem brackets_matched_by_stack (source : Text) :
    (∃ last, last.kind = .eof ∧ components (Source.tokenize source).tokens =
        (body source).map .token ++ [.token last]) ∧
      (∀ i : Nat, i < (body source).length → ∀ errors, ∃ c count found,
        Reader.value ⟨⟨components (Source.tokenize source).tokens, i⟩, .tolerant, errors⟩ =
          .ok (.ok c, ⟨⟨components (Source.tokenize source).tokens, (i + count : Nat)⟩,
            .tolerant, errors ++ found⟩) ∧
        Matched ((body source).drop i) c count found ∧ c.Tidy) ∧
      ∃ sheet, parse .tolerant source = .ok sheet ∧
        ∀ n ∈ Node.withinAll sheet.rules, n.Tidy := by
  obtain ⟨last, hlast, hcomponents⟩ := components_tokenize source
  refine ⟨⟨last, hlast, hcomponents⟩, fun i hi errors => ?_, tidy_of_parse source⟩
  obtain ⟨before, t, after, hbody, rfl, hdrop⟩ := drop_body hi
  have hkinds : ∀ u ∈ t :: after, u.kind ≠ .eof := fun u hu =>
    (body_kind (hbody ▸ List.mem_append_right before hu)).1
  have hsplit : components (Source.tokenize source).tokens =
      before.map .token ++ .token t :: (after.map .token ++ [.token last]) := by
    rw [hcomponents, hbody, List.map_append, List.append_assoc]
    rfl
  have hbare : Component.Bare (.token t :: (after.map .token ++ [.token last])) :=
    (bare_components (Source.tokenize source).tokens).of_suffix
      (hsplit ▸ List.suffix_append _ _)
  have heof : (Component.token t).isEof = false :=
    Component.not_isEof_token.2 (hkinds t List.mem_cons_self)
  have htidy := Component.tidy_takeValue hbare heof
  have hvalue := Reader.value_eq_takeValue (before.map .token) (.token t)
    (after.map .token ++ [.token last]) errors
  generalize htaken : takeValue (.token t) (after.map .token ++ [.token last]) = taken
    at htidy hvalue
  obtain ⟨count, hmatched, hcount⟩ := matched_takeValue hlast hkinds htaken
  rw [hdrop, hsplit]
  refine ⟨taken.value, count, _, ?_, hmatched, htidy⟩
  have hle := (suffix_takeValue (.token t) (after.map .token ++ [.token last])).length_le
  rw [htaken, List.length_append, List.length_map, List.length_singleton] at hle
  have hindex : (before.map Component.token ++ [Component.token t]).length +
      ((after.map Component.token ++ [Component.token last]).length - taken.rest.length) =
        before.length + count := by
    simp only [List.length_append, List.length_map, List.length_singleton]
    omega
  rw [Cursor.leave_between, hindex, List.append_assoc] at hvalue
  simpa [Cursor.between] using hvalue

theorem brackets_matched_by_stack_unclosed :
    let source := "f([)".toList
    0 < (body source).length ∧ ∃ c count,
      Matched ((body source).drop 0) c count
        [⟨.blockNotClosed, ⟨1, 3⟩⟩, ⟨.functionNotClosed, ⟨1, 1⟩⟩] := by
  intro source
  have hpos : 0 < (body source).length := by decide +kernel
  obtain ⟨c, count, found, hvalue, hmatched, -⟩ :=
    (brackets_matched_by_stack source).2.1 0 hpos []
  have herrors : (Reader.value ⟨⟨components (Source.tokenize source).tokens, (0 : Nat)⟩,
      .tolerant, []⟩).map (fun x => x.2.errors) =
        .ok [⟨.blockNotClosed, ⟨1, 3⟩⟩, ⟨.functionNotClosed, ⟨1, 1⟩⟩] := by
    decide +kernel
  rw [hvalue] at herrors
  obtain rfl := Except.ok.inj herrors
  exact ⟨hpos, c, count, hmatched⟩

/-- A block that is not closed has two tokens, and three have been taken: the mark of the
end with them. -/
theorem end_taken_from_open_block :
    let source := "(a".toList
    (body source).length = 2 ∧
      (Reader.value ⟨⟨components (Source.tokenize source).tokens, (0 : Nat)⟩, .tolerant,
          []⟩).map (fun x => (x.1.map Component.tokens, x.2.cursor.index)) =
        .ok (.ok (body source), 3) := by
  decide +kernel

end Stylesheet

end StyleAudit
