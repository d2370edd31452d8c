import StyleAudit.Proofs.Lossless

/-!
# The tokens that a node is written with

`Outline` and `Laid` say how the tokens of a source are divided among its rules, and
those of a block among the nodes in it. Seen from a single node, wherever it is in the
tree, they say this: the tokens that it is written with itself, those of its keyword or
name, of its prelude and of its block, are tokens of the source, in their order. So what
is known of the order of all tokens is known of the parts of each node.

The tokens of a block are those of the nodes in it once more. A node does not own these
alone, and `Node.Own` is not meant to add up to the source.
-/

namespace StyleAudit

open scoped List

open Component (tokensIn)

namespace Component

theorem leading_mem_tokens (c : Component) : c.leading ∈ c.tokens := by
  cases c <;> simp [tokens, leading]

theorem tokensIn_inner_sublist (c : Component) : tokensIn c.inner <+ c.tokens := by
  cases c with
  | token t =>
      rw [inner, tokensIn]
      exact List.nil_sublist _
  | function | block =>
      rw [tokens]
      exact (List.sublist_append_left _ _).trans (List.sublist_cons_self _ _)

theorem tokens_sublist {c : Component} {cs : List Component} (h : c ∈ cs) :
    c.tokens <+ tokensIn cs := by
  obtain ⟨before, after, rfl⟩ := List.append_of_mem h
  rw [tokensIn_append, tokensIn]
  exact (List.sublist_append_left _ _).trans (List.sublist_append_right _ _)

theorem token_mem_tokensIn {t : Token} {cs : List Component} (h : .token t ∈ cs) :
    t ∈ tokensIn cs :=
  (tokens_sublist h).subset (leading_mem_tokens (.token t))

mutual

theorem tokens_sublist_of_parts {p c : Component} (hp : p ∈ c.parts) : p.tokens <+ c.tokens := by
  match c with
  | .token t =>
      rw [parts, List.mem_singleton] at hp
      rw [hp]
  | .function name head values closing =>
      rw [parts, List.mem_cons] at hp
      rcases hp with rfl | hp
      · exact List.Sublist.refl _
      · exact (tokens_sublist_of_partsAll hp).trans
          (tokensIn_inner_sublist (.function name head values closing))
  | .block bracket opening values closing =>
      rw [parts, List.mem_cons] at hp
      rcases hp with rfl | hp
      · exact List.Sublist.refl _
      · exact (tokens_sublist_of_partsAll hp).trans
          (tokensIn_inner_sublist (.block bracket opening values closing))

theorem tokens_sublist_of_partsAll {p : Component} {cs : List Component} (hp : p ∈ partsAll cs) :
    p.tokens <+ tokensIn cs := by
  match cs with
  | [] =>
      rw [partsAll] at hp
      cases hp
  | c :: rest =>
      rw [partsAll, List.mem_append] at hp
      rw [tokensIn]
      rcases hp with hp | hp
      · exact (tokens_sublist_of_parts hp).trans (List.sublist_append_left _ _)
      · exact (tokens_sublist_of_partsAll hp).trans (List.sublist_append_right _ _)

end

end Component

namespace Node

/-- The tokens that a node is written with: its keyword, its prelude and its block, or
the name, the colon and the value of a declaration. -/
inductive Own : Node → List Token → Prop where
  | declaration {d : Declaration} {colon : Token} (hcolon : colon.kind = .colon) :
      Own (declaration d) (⟨.ident d.name, d.span⟩ :: colon :: tokensIn d.values)
  | rule {prelude : List Component} {block : Block} {children : List Node} :
      Own (rule prelude block children) (tokensIn prelude ++ block.component.tokens)
  | atRule {name : Text} {span : Span} {prelude : List Component} {block : Option Block}
      {children : List Node} :
      Own (atRule name span prelude block children)
        (⟨.atKeyword name, span⟩ ::
          (tokensIn prelude ++ tokensIn (block.map Block.component).toList))
  | malformed {values : List Component} {error : SyntaxError} :
      Own (malformed values error) (tokensIn values)

/-- Whether what a node is written with is among some tokens, in their order. -/
def WrittenIn (ts : List Token) (n : Node) : Prop := ∃ own, n.Own own ∧ own <+ ts

theorem WrittenIn.mono {ts us : List Token} {n : Node} (h : n.WrittenIn ts) (hts : ts <+ us) :
    n.WrittenIn us := by
  obtain ⟨own, hown, hsub⟩ := h
  exact ⟨own, hown, hsub.trans hts⟩

section

variable {n : Node} {ts : List Token} {name : Text} {span : Span} {prelude : List Component}
  {block : Block} {children nodes : List Node}

theorem mem_withinAll_leaf {m : Node} (hm : m.within = [m]) (h : n ∈ withinAll (m :: nodes)) :
    n = m ∨ n ∈ withinAll nodes := by
  rw [withinAll, hm, List.mem_append, List.mem_singleton] at h
  exact h

theorem mem_withinAll_rule (h : n ∈ withinAll (rule prelude block children :: nodes)) :
    n = rule prelude block children ∨ n ∈ withinAll children ∨ n ∈ withinAll nodes := by
  rw [withinAll, within, List.mem_append, List.mem_cons, or_assoc] at h
  exact h

theorem mem_withinAll_atRule {block : Option Block}
    (h : n ∈ withinAll (atRule name span prelude block children :: nodes)) :
    n = atRule name span prelude block children ∨ n ∈ withinAll children ∨
      n ∈ withinAll nodes := by
  rw [withinAll, within, List.mem_append, List.mem_cons, or_assoc] at h
  exact h

/-! The nodes of a rule that stands in front of others, given those of its block. -/

theorem writtenIn_rule (hchildren : ∀ n ∈ withinAll children, n.WrittenIn (tokensIn block.values))
    (hnodes : ∀ n ∈ withinAll nodes, n.WrittenIn ts) :
    ∀ n ∈ withinAll (rule prelude block children :: nodes),
      n.WrittenIn (tokensIn prelude ++ (block.component.tokens ++ ts)) := by
  intro n hn
  rcases mem_withinAll_rule hn with rfl | hn | hn
  · exact ⟨_, .rule, (List.sublist_append_left _ _).append_left _⟩
  · have hblock := Component.tokensIn_inner_sublist block.component
    exact (hchildren n hn).mono ((hblock.trans (List.sublist_append_left _ _)).trans
      (List.sublist_append_right _ _))
  · exact (hnodes n hn).mono ((List.sublist_append_right _ _).trans
      (List.sublist_append_right _ _))

theorem writtenIn_atRule
    (hchildren : ∀ n ∈ withinAll children, n.WrittenIn (tokensIn block.values))
    (hnodes : ∀ n ∈ withinAll nodes, n.WrittenIn ts) :
    ∀ n ∈ withinAll (atRule name span prelude (some block) children :: nodes),
      n.WrittenIn (⟨.atKeyword name, span⟩ ::
        (tokensIn prelude ++ (block.component.tokens ++ ts))) := by
  intro n hn
  rcases mem_withinAll_atRule hn with rfl | hn | hn
  · refine ⟨_, .atRule, List.Sublist.cons_cons _ (List.Sublist.append_left ?_ _)⟩
    simp [tokensIn]
  all_goals
    have hrule : ∀ n ∈ withinAll (rule prelude block children :: nodes),
        n.WrittenIn (tokensIn prelude ++ (block.component.tokens ++ ts)) :=
      writtenIn_rule hchildren hnodes
    refine (hrule n ?_).mono (List.sublist_cons_self _ _)
    rw [withinAll, within, List.mem_append, List.mem_cons]
    tauto

theorem writtenIn_statement {ending : Token} (hnodes : ∀ n ∈ withinAll nodes, n.WrittenIn ts) :
    ∀ n ∈ withinAll (atRule name span prelude none [] :: nodes),
      n.WrittenIn (⟨.atKeyword name, span⟩ :: (tokensIn prelude ++ ending :: ts)) := by
  intro n hn
  rcases mem_withinAll_atRule hn with rfl | hn | hn
  · refine ⟨_, .atRule, List.Sublist.cons_cons _ (List.Sublist.append_left ?_ _)⟩
    exact List.nil_sublist _
  · exact absurd hn not_mem_withinAll_nil
  · exact (hnodes n hn).mono (((List.sublist_cons_self _ _).trans
      (List.sublist_append_right _ _)).trans (List.sublist_cons_self _ _))

theorem writtenIn_unended :
    ∀ n ∈ withinAll [atRule name span prelude none []],
      n.WrittenIn (⟨.atKeyword name, span⟩ :: tokensIn prelude) := by
  intro n hn
  rcases mem_withinAll_atRule hn with rfl | hn | hn
  · refine ⟨_, .atRule, List.Sublist.cons_cons _ ?_⟩
    simp [tokensIn]
  all_goals exact absurd hn not_mem_withinAll_nil

theorem writtenIn_malformed {values : List Component} {error : SyntaxError}
    (hnodes : ∀ n ∈ withinAll nodes, n.WrittenIn ts) :
    ∀ n ∈ withinAll (malformed values error :: nodes), n.WrittenIn (tokensIn values ++ ts) := by
  intro n hn
  rcases mem_withinAll_leaf (by rw [within]) hn with rfl | hn
  · exact ⟨_, .malformed, List.sublist_append_left _ _⟩
  · exact (hnodes n hn).mono (List.sublist_append_right _ _)

theorem writtenIn_declaration {d : Declaration} {own : List Component} (hown : d.Spelled own)
    (hnodes : ∀ n ∈ withinAll nodes, n.WrittenIn ts) :
    ∀ n ∈ withinAll (declaration d :: nodes), n.WrittenIn (tokensIn own ++ ts) := by
  intro n hn
  rcases mem_withinAll_leaf (by rw [within]) hn with rfl | hn
  · cases hown with
    | @intro before after ending colon _ hcolon _ _ =>
        refine ⟨_, .declaration hcolon, List.Sublist.trans ?_ (List.sublist_append_left _ _)⟩
        have hvalues : tokensIn d.values <+
            tokensIn after ++ (tokensIn d.values ++ tokensIn ending) :=
          (List.sublist_append_left _ _).trans (List.sublist_append_right _ _)
        simp only [tokensIn, Component.tokens, Component.tokensIn_append, List.cons_append,
          List.nil_append]
        exact ((hvalues.cons_cons colon).trans (List.sublist_append_right _ _)).cons_cons _
  · exact (hnodes n hn).mono (List.sublist_append_right _ _)

end

theorem writtenIn_of_laid {cs : List Component} {nodes : List Node} (h : Laid cs nodes) :
    ∀ n ∈ withinAll nodes, n.WrittenIn (tokensIn cs) := by
  induction h with
  | done => exact fun _ hn => absurd hn not_mem_withinAll_nil
  | separator _ _ ih =>
      rw [tokensIn]
      exact fun n hn => (ih n hn).mono (List.sublist_append_right _ _)
  | declaration hown _ ih =>
      rw [Component.tokensIn_append]
      exact writtenIn_declaration hown ih
  | rule _ _ ihchildren ih =>
      rw [Component.tokensIn_append, tokensIn]
      exact writtenIn_rule ihchildren ih
  | atRule _ _ ihchildren ih =>
      rw [tokensIn, Component.tokens, Component.tokensIn_append, tokensIn]
      exact writtenIn_atRule ihchildren ih
  | statement hending _ ih =>
      obtain ⟨t, rfl, -⟩ := Component.eq_of_isSemicolon hending
      rw [tokensIn, Component.tokens, Component.tokensIn_append, tokensIn, Component.tokens]
      exact writtenIn_statement ih
  | unended =>
      rw [tokensIn, Component.tokens]
      exact writtenIn_unended
  | malformed _ _ ih =>
      rw [Component.tokensIn_append]
      exact writtenIn_malformed ih

/-- Whatever a node of a tree is written with is among the tokens of the source, in
their order. -/
theorem writtenIn_of_outline {ts : List Token} {nodes : List Node} (h : Outline ts nodes) :
    ∀ n ∈ withinAll nodes, n.WrittenIn ts := by
  induction h with
  | done => exact fun _ hn => absurd hn not_mem_withinAll_nil
  | gap _ _ ih => exact fun n hn => (ih n hn).mono (List.sublist_cons_self _ _)
  | rule hblock _ ih => exact writtenIn_rule (writtenIn_of_laid hblock) ih
  | atRule hblock _ ih => exact writtenIn_atRule (writtenIn_of_laid hblock) ih
  | statement _ _ ih => exact writtenIn_statement ih
  | unended => exact writtenIn_unended
  | @malformed values error _ =>
      have hnone : ∀ n ∈ withinAll [], n.WrittenIn [] :=
        fun _ hn => absurd hn not_mem_withinAll_nil
      have hmalformed : ∀ n ∈ withinAll [malformed values error],
          n.WrittenIn (tokensIn values ++ []) := writtenIn_malformed hnone
      rwa [List.append_nil] at hmalformed

end Node

namespace Stylesheet

/-- The tokens of a source that are neither comments nor the mark of its end. -/
def body (source : Text) : List Token :=
  (Source.tokenize source).tokens.filter fun t => !t.kind.isComment && t.kind ≠ .eof

theorem body_kind {source : Text} {t : Token} (ht : t ∈ body source) :
    t.kind ≠ .eof ∧ t.kind.isComment = false := by
  obtain ⟨hcomment, heof⟩ := Bool.and_eq_true_iff.1 (List.mem_filter.1 ht).2
  exact ⟨of_decide_eq_true heof, by simpa using hcomment⟩

/-- The tokens of a source are its body and comments, and then the mark of the end. -/
theorem exists_body (source : Text) :
    ∃ inner last, (Source.tokenize source).tokens = inner ++ [last] ∧
      (∀ t ∈ inner, t.kind ≠ .eof) ∧ last.kind = .eof ∧
      body source = inner.filter fun t => !t.kind.isComment := by
  obtain ⟨inner, last, htokens, htiles⟩ := Source.tiles_tokenize source
  have hinner := fun t ht => (htiles.nonempty t ht).1
  refine ⟨inner, last, htokens, hinner, htiles.ending.1, ?_⟩
  have hfilter : inner.filter (fun t => !t.kind.isComment && t.kind ≠ .eof) =
      inner.filter fun t => !t.kind.isComment :=
    List.filter_congr fun t ht => by simp [hinner t ht]
  rw [body, htokens, List.filter_append, hfilter]
  simp [htiles.ending.1]

/-- The rules of a source outline its body. -/
theorem outline_of_parse {source : Text} {sheet : Stylesheet}
    (h : parse .tolerant source = .ok sheet) :
    Outline (body source) sheet.rules := by
  obtain ⟨inner, last, htokens, hinner, hlast, hbody⟩ := exists_body source
  obtain ⟨rules, errors, hrules⟩ :=
    exists_ruleList_tolerant (components (Source.tokenize source).tokens)
  obtain rfl := Except.ok.inj ((parse_tolerant_of_ruleList hrules).symm.trans h)
  have houtline : Outcome.Ensures _
      (ruleList .tolerant true (components (inner ++ [last]))) :=
    outline_ruleList (unread_components hinner hlast)
  rw [← htokens, hrules, htokens, leaves_components hinner hlast, ← hbody] at houtline
  exact houtline

theorem writtenIn_of_parse {source : Text} {sheet : Stylesheet}
    (h : parse .tolerant source = .ok sheet) :
    ∀ n ∈ Node.withinAll sheet.rules, n.WrittenIn (body source) :=
  Node.writtenIn_of_outline (outline_of_parse h)

end Stylesheet

end StyleAudit
