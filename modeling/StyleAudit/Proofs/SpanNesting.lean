import StyleAudit.Proofs.FeatureStops
import StyleAudit.Proofs.TidyLists

/-!
# Spans nest and follow each other

The end of a block is found in three ways: where its closing token ends, where the last
thing in it ends if it has none, and where its opening ends if there is nothing in it
either. In all of them it is the end of the last token that the block was read from, and
its start is that of the first. So what is known of tokens is enough: none is empty, and
each ends before the next one starts. This is `Ordered`, which holds of the tokens of a
source, and of any that are left of them if some are passed over, as comments are.

That the end is the last one is an induction over a component and the list of what is in
it at the same time; the list is met with a position that everything in it starts behind.
-/

namespace StyleAudit

open scoped List

open Component (tokensIn partsAll)

/-- Tokens none of which is empty, each behind the one before it. -/
structure Ordered (ts : List Token) : Prop where
  nonempty : ∀ t ∈ ts, t.span.start < t.span.stop
  apart : ts.Pairwise fun t u => t.span.stop ≤ u.span.start

namespace Ordered

variable {t : Token} {ts us : List Token}

theorem sublist (h : Ordered us) (hts : ts <+ us) : Ordered ts :=
  ⟨fun t ht => h.nonempty t (hts.subset ht), h.apart.sublist hts⟩

theorem cons (h : Ordered (t :: ts)) : ∀ u ∈ ts, t.span.stop ≤ u.span.start :=
  (List.pairwise_cons.1 h.apart).1

theorem tail (h : Ordered (t :: ts)) : Ordered ts := h.sublist (List.sublist_cons_self t ts)

theorem left (h : Ordered (ts ++ us)) : Ordered ts := h.sublist (List.sublist_append_left ts us)

theorem right (h : Ordered (ts ++ us)) : Ordered us := h.sublist (List.sublist_append_right ts us)

theorem append (h : Ordered (ts ++ us)) (ht : t ∈ ts) :
    ∀ u ∈ us, t.span.stop ≤ u.span.start :=
  (List.pairwise_append.1 h.apart).2.2 t ht

end Ordered

theorem Stylesheet.ordered_body (source : Text) : Ordered (body source) := by
  have htiling := Source.tiling_tokenize source
  obtain ⟨all, htokens, hall, -⟩ := htiling.split_last
  refine ⟨fun t ht => ?_, ?_⟩
  · have hmem := List.mem_of_mem_filter ht
    rw [htokens, List.mem_append, List.mem_singleton] at hmem
    rcases hmem with hmem | rfl
    · exact (hall t hmem).2
    · exact absurd rfl (body_kind ht).1
  · exact (htiling.pairwise.imp fun h => h.2).filter _

namespace Component

/-! ## Where components start and end -/

theorem tokens_eq_cons (c : Component) :
    ∃ rest, c.tokens = c.leading :: rest ∧ c.start = c.leading.span.start := by
  cases c with
  | token t => exact ⟨[], by rw [tokens]; rfl, rfl⟩
  | function | block => exact ⟨_, by rw [tokens]; rfl, rfl⟩

theorem start_le {c : Component} (h : Ordered c.tokens) :
    ∀ t ∈ c.tokens, c.start ≤ t.span.start := by
  obtain ⟨rest, htokens, hstart⟩ := c.tokens_eq_cons
  intro t ht
  rw [htokens] at h ht
  rw [hstart]
  rcases List.mem_cons.1 ht with rfl | ht
  · exact le_refl _
  · exact (h.nonempty _ List.mem_cons_self).le.trans (h.cons t ht)

/-- What ends before a closing token starts has ended when that token ends. -/
theorem stop_le_closer {head : Token} {values : List Component} {bracket : Bracket} {closing : Span}
    (h : Ordered (head :: (tokensIn values ++ bracket.closer (some closing)))) :
    ∀ t ∈ head :: (tokensIn values ++ bracket.closer (some closing)),
      t.span.stop ≤ closing.stop := by
  intro t ht
  have hcloser : ⟨.closing bracket, closing⟩ ∈ bracket.closer (some closing) :=
    List.mem_singleton_self _
  have hspan : closing.start < closing.stop :=
    h.nonempty _ (List.mem_cons_of_mem _ (List.mem_append_right _ hcloser))
  rw [← List.cons_append, List.mem_append] at ht
  rw [← List.cons_append] at h
  rcases ht with ht | ht
  · exact (h.append ht _ hcloser).trans hspan.le
  · rw [List.mem_singleton.1 ht]

mutual

/-- A component ends where the last of its tokens does. -/
theorem stop_le (c : Component) (h : Ordered c.tokens) : ∀ t ∈ c.tokens, t.span.stop ≤ c.stop := by
  match c with
  | .token u =>
      rw [tokens, stop]
      exact List.forall_mem_singleton.2 (le_refl _)
  | .function name head values (some closing) | .block bracket opening values (some closing) =>
      rw [tokens] at h ⊢
      rw [stop]
      exact stop_le_closer h
  | .function name head values none | .block bracket opening values none =>
      rw [tokens, Bracket.closer, List.append_nil] at h ⊢
      rw [stop]
      exact List.forall_mem_cons.2 (stop_le_last _ values h.tail h.cons)

/-- So does a list of components, if there is anything in it. -/
theorem stop_le_last (p : Position) (cs : List Component) (h : Ordered (tokensIn cs))
    (hp : ∀ t ∈ tokensIn cs, p ≤ t.span.start) :
    p ≤ lastStop p cs ∧ ∀ t ∈ tokensIn cs, t.span.stop ≤ lastStop p cs := by
  match cs with
  | [] =>
      rw [lastStop, tokensIn]
      exact ⟨le_refl p, List.forall_mem_nil _⟩
  | c :: rest =>
      rw [tokensIn] at h hp ⊢
      rw [lastStop]
      obtain ⟨last, hlast, hstop⟩ := c.exists_stop
      have hc := stop_le c h.left
      have hbehind : ∀ t ∈ tokensIn rest, c.stop ≤ t.span.start := by
        rw [hstop]
        exact h.append hlast
      obtain ⟨hle, hrest⟩ := stop_le_last c.stop rest h.right hbehind
      refine ⟨?_, List.forall_mem_append.2 ⟨fun t ht => (hc t ht).trans hle, hrest⟩⟩
      calc
        p ≤ last.span.start := hp last (List.mem_append_left _ hlast)
        _ ≤ last.span.stop := (h.left.nonempty last hlast).le
        _ = c.stop := hstop.symm
        _ ≤ lastStop c.stop rest := hle

end

theorem start_lt_stop {c : Component} (h : Ordered c.tokens) : c.start < c.stop := by
  obtain ⟨last, hlast, hstop⟩ := c.exists_stop
  rw [hstop]
  exact (start_le h last hlast).trans_lt (h.nonempty last hlast)

/-- A component whose tokens are some of another one's lies within it. -/
theorem within_of_subset {c p : Component} (hp : Ordered p.tokens) (h : c.tokens ⊆ p.tokens) :
    p.start ≤ c.start ∧ c.stop ≤ p.stop := by
  obtain ⟨first, htokens, hstart⟩ := c.tokens_eq_cons
  obtain ⟨last, hlast, hstop⟩ := c.exists_stop
  rw [hstart, hstop]
  exact ⟨start_le hp _ (h (htokens ▸ List.mem_cons_self)), stop_le p hp last (h hlast)⟩

/-- What ends before all tokens of a component start, ends before it starts. -/
theorem le_start {p : Position} {c : Component} (h : ∀ t ∈ c.tokens, p ≤ t.span.start) :
    p ≤ c.start := by
  obtain ⟨rest, htokens, hstart⟩ := c.tokens_eq_cons
  rw [hstart]
  exact h _ (htokens ▸ List.mem_cons_self)

/-- What starts behind all tokens of a component, starts behind its end. -/
theorem stop_le_of {p : Position} {c : Component} (h : ∀ t ∈ c.tokens, t.span.stop ≤ p) :
    c.stop ≤ p := by
  obtain ⟨last, hlast, hstop⟩ := c.exists_stop
  rw [hstop]
  exact h last hlast

/-! ## Lists of components -/

/-- Components none of which is empty, each behind the one before it. -/
structure InOrder (cs : List Component) : Prop where
  nonempty : ∀ c ∈ cs, c.start < c.stop
  apart : cs.IsChain fun c d => c.stop ≤ d.start

/-- Components in order, and so is what is in each of them, at any depth; and it lies
between the start and the end of what it is in. -/
structure Nested (cs : List Component) : Prop where
  inOrder : InOrder cs
  inside : ∀ p ∈ partsAll cs, InOrder p.inner ∧
    ∀ c ∈ p.inner, p.start ≤ c.start ∧ c.stop ≤ p.stop

theorem inOrder_of_ordered {cs : List Component} (h : Ordered (tokensIn cs)) : InOrder cs := by
  refine ⟨fun c hc => start_lt_stop (h.sublist (tokens_sublist hc)), List.Pairwise.isChain ?_⟩
  induction cs with
  | nil => exact .nil
  | cons c rest ih =>
      rw [tokensIn] at h
      obtain ⟨last, hlast, hstop⟩ := c.exists_stop
      refine .cons (fun d hd => le_start fun t ht => ?_) (ih h.right)
      rw [hstop]
      exact h.append hlast t ((tokens_sublist hd).subset ht)

theorem nested_of_ordered {cs : List Component} (h : Ordered (tokensIn cs)) : Nested cs := by
  refine ⟨inOrder_of_ordered h, fun p hp => ?_⟩
  have hpart := h.sublist (tokens_sublist_of_partsAll hp)
  have hinner := tokensIn_inner_sublist p
  refine ⟨inOrder_of_ordered (hpart.sublist hinner), fun c hc => within_of_subset hpart ?_⟩
  exact ((tokens_sublist hc).trans hinner).subset

/-- What ends before some tokens start, ends before the components that they make. -/
theorem le_starts {p : Position} {cs : List Component} (h : ∀ t ∈ tokensIn cs, p ≤ t.span.start) :
    ∀ c ∈ cs, p ≤ c.start :=
  fun _ hc => le_start fun t ht => h t ((tokens_sublist hc).subset ht)

end Component

/-! ## Nodes -/

namespace Node

/-- The components of a node are nested; the name or the keyword ends before they start,
and the prelude before the block does. -/
def Nested : Node → Prop
  | declaration d => Component.Nested d.values ∧ ∀ c ∈ d.values, d.span.stop < c.start
  | rule prelude block _ =>
      Component.Nested prelude ∧ Component.Nested [block.component] ∧
        ∀ c ∈ prelude, c.stop ≤ block.span.start
  | atRule _ span prelude block _ =>
      Component.Nested prelude ∧ (∀ c ∈ prelude, span.stop ≤ c.start) ∧
        ∀ b, block = some b → Component.Nested [b.component] ∧ span.stop ≤ b.span.start ∧
          ∀ c ∈ prelude, c.stop ≤ b.span.start
  | malformed values _ => Component.Nested values

section

variable {prelude : List Component} {block : Block}

/-- A prelude and the block behind it. -/
theorem nested_of_prelude (h : Ordered (tokensIn prelude ++ tokensIn [block.component])) :
    Component.Nested prelude ∧ Component.Nested [block.component] ∧
      ∀ c ∈ prelude, c.stop ≤ block.span.start := by
  refine ⟨Component.nested_of_ordered h.left, Component.nested_of_ordered h.right, ?_⟩
  intro c hc
  refine Component.stop_le_of fun t ht => ?_
  have hbehind := h.append ((Component.tokens_sublist hc).subset ht)
  exact Component.le_starts hbehind block.component (List.mem_singleton_self _)

theorem nested_of_own {n : Node} {own : List Token} (hown : n.Own own) (h : Ordered own) :
    n.Nested := by
  cases hown with
  | @declaration d colon hcolon =>
      refine ⟨Component.nested_of_ordered h.tail.tail, fun c hc => ?_⟩
      calc
        d.span.stop ≤ colon.span.start := h.cons colon List.mem_cons_self
        _ < colon.span.stop := h.tail.nonempty colon List.mem_cons_self
        _ ≤ c.start := Component.le_starts h.tail.cons c hc
  | rule =>
      refine nested_of_prelude ?_
      rw [tokensIn, tokensIn, List.append_nil]
      exact h
  | @atRule name span prelude block children =>
      have hkeyword := h.cons
      refine ⟨Component.nested_of_ordered h.tail.left, ?_, ?_⟩
      · exact Component.le_starts fun t ht => hkeyword t (List.mem_append_left _ ht)
      · rintro b rfl
        obtain ⟨-, hblock, hbefore⟩ := nested_of_prelude h.tail
        refine ⟨hblock, ?_, hbefore⟩
        exact Component.le_starts (fun t ht => hkeyword t (List.mem_append_right _ ht))
          b.component (List.mem_singleton_self _)
  | malformed => exact Component.nested_of_ordered h

end

end Node

/-- The components of a tree are nested, all of them in the list they stand in, and so are
the parts of its nodes. -/
theorem Stylesheet.spans_nested (source : Text) :
    ∃ sheet, parse .tolerant source = .ok sheet ∧ ∀ n ∈ Node.withinAll sheet.rules, n.Nested := by
  obtain ⟨sheet, hparse⟩ := exists_parse_tolerant source
  refine ⟨sheet, hparse, fun n hn => ?_⟩
  obtain ⟨own, hown, hsub⟩ := writtenIn_of_parse hparse n hn
  exact Node.nested_of_own hown ((ordered_body source).sublist hsub)

end StyleAudit
