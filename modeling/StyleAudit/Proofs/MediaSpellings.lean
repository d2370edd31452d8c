import Mathlib.Data.List.Basic
import StyleAudit.Proofs.ConditionReading
import StyleAudit.Proofs.FeatureParts
import StyleAudit.Proofs.LetterCase
import StyleAudit.Proofs.SmallLetters

/-!
# The spellings of a media feature

A media feature can be asked for by its name alone, by a value behind a colon, and by
one or two values that it is compared with, on either side of it; and its name can
start with the mark of a range. All of these are the same feature. `Names` are the
forms of a term and `Written` those of the name.

Where the name comes first, the reader looks at the component behind it and at nothing
else, so the value can be anything. Where a value comes first, the reader looks for an
identifier behind a comparison, and it finds the name because there is no other
identifier in the value.

A term that holds other terms is no form of any feature: what stands between the terms
are words, blanks and commas, and none of them is a comparison or a colon
(`mediaName?_group`). So the terms are found at any depth, one after the other.
-/

namespace StyleAudit.Feature

open Condition (Blank)

/-! ## Names with the mark of a range -/

/-- The marks with which the two spellings of a range start. -/
def rangeMarks : List Text := ["min-".toList, "max-".toList]

theorem mem_rangeMarks {mark : Text} :
    mark ∈ rangeMarks ↔ mark = "min-".toList ∨ mark = "max-".toList := by
  simp [rangeMarks]

/-- The ways of writing the name of a media feature: as it is, or behind the mark of a
range in letters of any case. -/
inductive Written (n : Text) : Text → Prop where
  | plain : Written n n
  | range {mark : Text} (h : Text.fold mark ∈ rangeMarks) : Written n (mark ++ n)

/-- A mark ends outside of any word, so that a name is the same behind it. -/
theorem lower_append_of_mem_rangeMarks {mark : Text} (h : mark ∈ rangeMarks) (n : Text) :
    Text.lower (mark ++ n) = mark ++ Text.lower n := by
  have hsmall : ∀ mark ∈ rangeMarks, Text.lower mark = mark := by decide +kernel
  have hend : ∀ mark ∈ rangeMarks, Text.inWordAfter false mark = false := by decide +kernel
  rw [Text.lower, Text.lowerAfter_append false (Text.lower_eq_self_iff.1 (hsmall mark h)),
    hend mark h, Text.lower]

theorem lower_range {mark : Text} (h : Text.fold mark ∈ rangeMarks) (n : Text) :
    Text.lower (mark ++ n) = Text.fold mark ++ Text.lower n := by
  rw [← Text.lower_fold, Text.fold_append, lower_append_of_mem_rangeMarks h, Text.lower_fold]

section

variable {n written : Text} (h : Written n written)
include h

theorem Written.isVendorPrefixed (hvendor : isVendorPrefixed n = false) :
    isVendorPrefixed written = false := by
  cases h with
  | plain => exact hvendor
  | range hmark =>
      rw [Feature.isVendorPrefixed, lower_range hmark]
      rcases mem_rangeMarks.1 hmark with h | h
      · rw [h]
        rfl
      · rw [h]
        rfl

theorem Written.mediaKey (hrange : ∀ mark ∈ rangeMarks, ¬ mark <+: Text.lower n) :
    mediaKey written = Text.lower n := by
  cases h with
  | plain =>
      have hplain (mark : Text) (h : mark ∈ rangeMarks) :
          mark.isPrefixOf (Text.lower n) = false :=
        Bool.eq_false_iff.2 fun hprefix => hrange mark h (List.isPrefixOf_iff_prefix.1 hprefix)
      rw [Feature.mediaKey, hplain _ (mem_rangeMarks.2 (.inl rfl)),
        hplain _ (mem_rangeMarks.2 (.inr rfl))]
      rfl
  | range hmark =>
      rw [Feature.mediaKey, lower_range hmark]
      rcases mem_rangeMarks.1 hmark with h | h
      · rw [h]
        rfl
      · rw [h]
        rfl

end

/-! ## Forms of terms -/

/-- The comparisons of a range. -/
inductive Comparison where
  | less
  | atMost
  | greater
  | atLeast
  | equal

/-- The marks that a comparison is written with. -/
def Comparison.marks : Comparison → Text
  | less => ['<']
  | atMost => ['<', '=']
  | greater => ['>']
  | atLeast => ['>', '=']
  | equal => ['=']

/-- Whether components are the marks of a comparison, one for each. -/
def Comparison.Spelled (op : Comparison) (cs : List Component) : Prop :=
  cs.map Component.kind? = op.marks.map fun mark => some (.delim mark)

/-- The forms of a term that asks for the feature of a name: the name alone, before a
colon or a comparison with anything behind it, or behind a comparison with a value in
front that has no identifier, whatever follows. So a value that the name is compared
with from both sides is of the last form. -/
inductive Names (name : Component) : List Component → Prop where
  | alone {before after : List Component} (hbefore : Blank before) (hafter : Blank after) :
      Names name (before ++ name :: after)
  | valued {before between : List Component} (hbefore : Blank before)
      (hbetween : Blank between) (colon : Span) (value : List Component) :
      Names name (before ++ name :: (between ++ .token ⟨.colon, colon⟩ :: value))
  | compared {before between marks : List Component} {op : Comparison}
      (hbefore : Blank before) (hbetween : Blank between) (hop : op.Spelled marks)
      (value : List Component) :
      Names name (before ++ name :: (between ++ (marks ++ value)))
  | behind {value marks between : List Component} {op : Comparison}
      (hvalue : ∀ c ∈ value, identifier? c = none) (hop : op.Spelled marks)
      (hbetween : Blank between) (rest : List Component) :
      Names name (value ++ (marks ++ (between ++ name :: rest)))

/-! ## Reading a term -/

/-- What is left of some components without the blanks. -/
def solid (cs : List Component) : List Component := cs.filter fun c => !c.isWhitespace

theorem solid_append (cs ds : List Component) : solid (cs ++ ds) = solid cs ++ solid ds :=
  List.filter_append cs ds

theorem solid_cons {c : Component} (h : c.isWhitespace = false) (cs : List Component) :
    solid (c :: cs) = c :: solid cs :=
  List.filter_cons_of_pos (by rw [h]; rfl)

theorem solid_blank {cs : List Component} (h : Blank cs) : solid cs = [] := by
  rw [solid, List.filter_eq_nil_iff]
  intro c hc
  rw [h c hc]
  exact Bool.false_ne_true

theorem mem_of_mem_solid {c : Component} {cs : List Component} (h : c ∈ solid cs) : c ∈ cs :=
  (List.mem_filter.1 h).1

/-- A part of a comparison is a mark, and so neither a blank nor an identifier. -/
theorem of_isComparison {c : Component} (h : isComparison c = true) :
    c.isWhitespace = false ∧ identifier? c = none := by
  unfold isComparison at h
  split at h
  · next mark hkind =>
      cases c with
      | function | block => cases hkind
      | token t =>
          obtain ⟨kind, span⟩ := t
          cases hkind
          exact ⟨rfl, rfl⟩
  · cases h

theorem Comparison.Spelled.isComparison {op : Comparison} {marks : List Component}
    (h : op.Spelled marks) : ∀ m ∈ marks, isComparison m = true := by
  intro m hm
  have hmarks : op.marks.all (fun mark => mark = '<' || mark = '>' || mark = '=') = true := by
    cases op <;> decide
  have hkind : m.kind? ∈ op.marks.map fun mark => some (.delim mark) := by
    rw [← h]
    exact List.mem_map_of_mem hm
  obtain ⟨mark, hmark, heq⟩ := List.mem_map.1 hkind
  rw [Feature.isComparison, ← heq]
  exact List.all_eq_true.1 hmarks mark hmark

theorem Comparison.Spelled.ne_nil {op : Comparison} {marks : List Component}
    (h : op.Spelled marks) : marks ≠ [] := by
  rintro rfl
  cases op <;> cases h

theorem Comparison.Spelled.solid {op : Comparison} {marks : List Component}
    (h : op.Spelled marks) : solid marks = marks := by
  rw [Feature.solid, List.filter_eq_self]
  intro m hm
  rw [(of_isComparison (h.isComparison m hm)).1]
  rfl

/-- The reader goes past whatever is in front of a comparison, as long as there is no
identifier. -/
theorem compared?_append {cs : List Component} {m name : Component} {found : Text × Span}
    (hcs : ∀ c ∈ cs, identifier? c = none) (hm : isComparison m = true)
    (hname : identifier? name = some found) (rest : List Component) :
    compared? (cs ++ m :: name :: rest) = some found := by
  induction cs with
  | nil => rw [List.nil_append, compared?, if_pos hm, hname]
  | cons c cs ih =>
      have hnext : ∃ d more, cs ++ m :: name :: rest = d :: more ∧ identifier? d = none := by
        cases cs with
        | nil => exact ⟨m, name :: rest, rfl, (of_isComparison hm).2⟩
        | cons d cs =>
            exact ⟨d, cs ++ m :: name :: rest, rfl, hcs d (by simp)⟩
      obtain ⟨d, more, heq, hd⟩ := hnext
      have ih := ih fun e he => hcs e (List.mem_cons_of_mem c he)
      rw [heq] at ih
      rw [List.cons_append, heq, compared?, hd, ite_self]
      exact ih

section

variable {values rest : List Component} {name : Component} {found : Text × Span}
  (hname : identifier? name = some found)
include hname

/-- A name that comes first is that of the term if nothing follows, or a colon or a
comparison does. -/
theorem mediaName?_first (hvalues : solid values = name :: rest)
    (hrest : ∀ d ∈ rest.head?, (d.isColon || isComparison d) = true) :
    mediaName? values = some found := by
  unfold mediaName?
  rw [← solid, hvalues]
  simp only [hname]
  cases rest with
  | nil => rfl
  | cons d rest => exact if_pos (hrest d rfl)

/-- A name that is not first is that of the term if it is the first identifier and
stands behind a comparison. -/
theorem mediaName?_behind {before : List Component} {m : Component}
    (hvalues : solid values = before ++ m :: name :: rest)
    (hbefore : ∀ c ∈ before, identifier? c = none) (hm : isComparison m = true) :
    mediaName? values = some found := by
  have hcompared := compared?_append hbefore hm hname rest
  unfold mediaName?
  rw [← solid, hvalues]
  cases before with
  | nil =>
      simp only [List.nil_append, (of_isComparison hm).2]
      exact hcompared
  | cons c before =>
      simp only [List.cons_append, hbefore c List.mem_cons_self]
      exact hcompared

end

theorem Names.mediaName? {n : Text} {span : Span} {values : List Component}
    (h : Names (.token ⟨.ident n, span⟩) values) :
    mediaName? values = some (n, span) := by
  have hname : identifier? (.token ⟨.ident n, span⟩) = some (n, span) := rfl
  have hsolid (cs : List Component) :
      solid (.token ⟨.ident n, span⟩ :: cs) = .token ⟨.ident n, span⟩ :: solid cs :=
    solid_cons rfl cs
  cases h with
  | @alone before after hbefore hafter =>
      have hvalues : solid (before ++ .token ⟨.ident n, span⟩ :: after) =
          [.token ⟨.ident n, span⟩] := by
        rw [solid_append, solid_blank hbefore, List.nil_append, hsolid, solid_blank hafter]
      exact mediaName?_first hname hvalues nofun
  | @valued before between hbefore hbetween colon value =>
      have hvalues : solid (before ++ .token ⟨.ident n, span⟩ ::
          (between ++ .token ⟨.colon, colon⟩ :: value)) =
          .token ⟨.ident n, span⟩ :: .token ⟨.colon, colon⟩ :: solid value := by
        rw [solid_append, solid_blank hbefore, List.nil_append, hsolid, solid_append,
          solid_blank hbetween, List.nil_append, solid_cons rfl]
      refine mediaName?_first hname hvalues ?_
      rintro d ⟨⟩
      rfl
  | @compared before between marks op hbefore hbetween hop value =>
      have hvalues : solid (before ++ .token ⟨.ident n, span⟩ ::
          (between ++ (marks ++ value))) =
          .token ⟨.ident n, span⟩ :: (marks ++ solid value) := by
        rw [solid_append, solid_blank hbefore, List.nil_append, hsolid, solid_append,
          solid_blank hbetween, List.nil_append, solid_append, hop.solid]
      refine mediaName?_first hname hvalues ?_
      intro d hd
      rw [List.head?_append_of_ne_nil _ hop.ne_nil] at hd
      rw [hop.isComparison d (List.mem_of_mem_head? hd), Bool.or_true]
  | @behind value marks between op hvalue hop hbetween rest =>
      -- only the last mark stands directly in front of the name
      obtain ⟨front, m, rfl⟩ := (List.eq_nil_or_concat' marks).resolve_left hop.ne_nil
      have hvalues : solid (value ++ (front ++ [m] ++ (between ++
          .token ⟨.ident n, span⟩ :: rest))) =
          (solid value ++ front) ++ m :: .token ⟨.ident n, span⟩ :: solid rest := by
        rw [solid_append, solid_append, hop.solid, solid_append, solid_blank hbetween,
          List.nil_append, hsolid]
        simp only [List.append_assoc, List.singleton_append]
      refine mediaName?_behind hname hvalues ?_ ?_
      · intro c hc
        rcases List.mem_append.1 hc with hc | hc
        · exact hvalue c (mem_of_mem_solid hc)
        · exact (of_isComparison (hop.isComparison c (List.mem_append_left _ hc))).2
      · exact hop.isComparison m (List.mem_append_right _ List.mem_cons_self)

/-! ## Terms in a prelude -/

/-- The contents of a term that asks for a media feature in one of the ways, and the
feature. -/
inductive Term : List Component → Feature → Prop where
  | named {n written : Text} {span : Span} {values : List Component}
      (hvendor : isVendorPrefixed n = false)
      (hrange : ∀ mark ∈ rangeMarks, ¬ mark <+: Text.lower n)
      (hwritten : Written n written) (hnames : Names (.token ⟨.ident written, span⟩) values) :
      Term values ⟨.mediaCondition, Text.lower n, span, [("condition", .ofText written)]⟩

theorem Term.mediaConditionsOf {values : List Component} {f : Feature} (h : Term values f)
    (opening : Span) (closing : Option Span) :
    mediaConditionsOf (.block .round opening values closing) = [f] := by
  cases h with
  | named hvendor hrange hwritten hnames =>
      rw [Feature.mediaConditionsOf, hnames.mediaName?]
      simp only [hwritten.isVendorPrefixed hvendor, hwritten.mediaKey hrange]
      rfl

/-- Whether a component can stand between terms: a blank, a comma, or a word such as
those of a conjunction, a disjunction and a negation. -/
def isBetweenTerms (c : Component) : Bool :=
  match c.kind? with
  | some (.whitespace _) | some .comma | some (.ident _) => true
  | _ => false

/-- Preludes made of terms, and the features in them. Between the terms there are words,
blanks and commas, and terms can stand in further parentheses, at least one in each
pair. -/
inductive Queries : List Component → List Feature → Prop where
  | nil : Queries [] []
  | between {c : Component} {cs : List Component} {features : List Feature}
      (hc : isBetweenTerms c = true) (h : Queries cs features) : Queries (c :: cs) features
  | term {values cs : List Component} {f : Feature} {features : List Feature}
      (opening : Span) (closing : Option Span) (hterm : Term values f)
      (h : Queries cs features) :
      Queries (.block .round opening values closing :: cs) (f :: features)
  | group {values cs : List Component} {inner features : List Feature}
      (opening : Span) (closing : Option Span) (hinner : Queries values inner)
      (hsome : inner ≠ []) (h : Queries cs features) :
      Queries (.block .round opening values closing :: cs) (inner ++ features)

theorem of_isBetweenTerms {c : Component} (h : isBetweenTerms c = true) :
    mediaConditionsOf c = [] ∧ c.isColon = false ∧ isComparison c = false := by
  unfold isBetweenTerms at h
  cases c with
  | function | block => cases h
  | token t =>
      obtain ⟨kind, span⟩ := t
      rw [mediaConditionsOf]
      cases kind with
      | whitespace | comma | ident => exact ⟨rfl, rfl, rfl⟩
      | _ => cases h

theorem Queries.no_marks {cs : List Component} {features : List Feature}
    (h : Queries cs features) : ∀ c ∈ cs, c.isColon = false ∧ isComparison c = false := by
  induction h with
  | nil => nofun
  | between hc _ ih => exact List.forall_mem_cons.2 ⟨(of_isBetweenTerms hc).2, ih⟩
  | term _ _ _ _ ih => exact List.forall_mem_cons.2 ⟨⟨rfl, rfl⟩, ih⟩
  | group _ _ _ _ _ _ ih => exact List.forall_mem_cons.2 ⟨⟨rfl, rfl⟩, ih⟩

theorem Queries.exists_term {cs : List Component} {features : List Feature}
    (h : Queries cs features) (hsome : features ≠ []) : ∃ c ∈ cs, c.kind? = none := by
  induction h with
  | nil => exact absurd rfl hsome
  | between _ _ ih =>
      obtain ⟨c, hc, hkind⟩ := ih hsome
      exact ⟨c, List.mem_cons_of_mem _ hc, hkind⟩
  | term => exact ⟨_, List.mem_cons_self, rfl⟩
  | group => exact ⟨_, List.mem_cons_self, rfl⟩

theorem compared?_eq_none {cs : List Component} (h : ∀ c ∈ cs, isComparison c = false) :
    compared? cs = none := by
  match cs with
  | [] | [_] => rfl
  | c :: d :: rest =>
      rw [compared?, if_neg (ne_true_of_eq_false (h c List.mem_cons_self))]
      exact compared?_eq_none fun e he => h e (List.mem_cons_of_mem c he)

/-- What has no comparison and no colon names a feature only if it is a single word. -/
theorem mediaName?_group {values : List Component}
    (hmarks : ∀ c ∈ values, c.isColon = false ∧ isComparison c = false)
    (hterm : ∃ c ∈ values, c.kind? = none) : mediaName? values = none := by
  obtain ⟨t, ht, hkind⟩ := hterm
  have ht : t ∈ solid values := by
    refine List.mem_filter.2 ⟨ht, ?_⟩
    rw [Condition.isWhitespace_of_kind?_none hkind]
    rfl
  have hmarks : ∀ c ∈ solid values, c.isColon = false ∧ isComparison c = false :=
    fun c hc => hmarks c (mem_of_mem_solid hc)
  unfold mediaName?
  rw [← solid]
  split
  · rfl
  · next c rest hvalues =>
      rw [hvalues] at ht hmarks
      split
      · next found hfound =>
          split
          · -- the only component would be a word and a term
            rw [List.mem_singleton.1 ht] at hkind
            rw [token_of_identifier? hfound] at hkind
            cases hkind
          · next d more =>
              obtain ⟨hcolon, hcomparison⟩ := hmarks d (by simp)
              rw [hcolon, hcomparison]
              rfl
      · exact compared?_eq_none fun d hd => (hmarks d hd).2

theorem Queries.mediaConditions {cs : List Component} {features : List Feature}
    (h : Queries cs features) : mediaConditions cs = features := by
  induction h with
  | nil => rw [Feature.mediaConditions]
  | between hc _ ih =>
      rw [Feature.mediaConditions, ih, (of_isBetweenTerms hc).1, List.nil_append]
  | term opening closing hterm _ ih =>
      rw [Feature.mediaConditions, ih, hterm.mediaConditionsOf]
      rfl
  | group opening closing hinner hsome _ ihinner ih =>
      rw [Feature.mediaConditions, ih, mediaConditionsOf,
        mediaName?_group hinner.no_marks (hinner.exists_term hsome), ihinner]

/-- However a media feature is asked for, with the mark of a range or without one, the
term has one feature: its key is the name without the mark in small letters, and it
stands where the name does. In a prelude of such terms, at any depth of parentheses,
the features come in the order of the terms. -/
theorem media_spellings_agree {n : Text} (hvendor : isVendorPrefixed n = false)
    (hrange : ∀ mark ∈ rangeMarks, ¬ mark <+: Text.lower n) :
    (∀ (written : Text) (span : Span) (values : List Component) (opening : Span)
      (closing : Option Span), Written n written →
      Names (.token ⟨.ident written, span⟩) values →
      mediaConditions [.block .round opening values closing] =
        [⟨.mediaCondition, Text.lower n, span, [("condition", .ofText written)]⟩]) ∧
    ∀ (prelude : List Component) (features : List Feature), Queries prelude features →
      mediaConditions prelude = features := by
  constructor
  · intro written span values opening closing hwritten hnames
    rw [mediaConditions, mediaConditions, List.append_nil]
    exact (Term.named hvendor hrange hwritten hnames).mediaConditionsOf opening closing
  · intro prelude features h
    exact h.mediaConditions

/-- A name of one letter, which is no final one behind the mark of a range either. It is
compared with a value in front of it, and in a group it stands before a colon. -/
theorem media_spellings_agree_sigma :
    let name (written : String) (column : Int) : Component :=
      .token ⟨.ident written.toList, ⟨⟨1, column⟩, ⟨1, column + 1⟩⟩⟩
    let feature (written : String) (column : Int) : Feature :=
      ⟨.mediaCondition, "σ".toList, ⟨⟨1, column⟩, ⟨1, column + 1⟩⟩, [("condition", .str written)]⟩
    let mark (c : Char) : Component := .token ⟨.delim c, default⟩
    let value : Component := .function "calc".toList default [Condition.wordOf "e"] none
    let compared : List Component := [value, mark '>', mark '=', name "Σ" 2, mark '<', value]
    let ranged : List Component := [name "mIn-Σ" 7, .token ⟨.colon, default⟩, value]
    mediaConditions [Condition.groupOf compared] = [feature "Σ" 2] ∧
      mediaConditions [Condition.wordOf "NOT", Condition.groupOf [Condition.groupOf compared,
        Condition.wordOf "or", Condition.groupOf ranged]] = [feature "Σ" 2, feature "mIn-Σ" 7] := by
  intro name feature mark value compared ranged
  have hvendor : isVendorPrefixed "Σ".toList = false := by decide +kernel
  have hrange : ∀ mark ∈ rangeMarks, ¬ mark <+: Text.lower "Σ".toList := by decide +kernel
  have hmark : Text.fold "mIn-".toList ∈ rangeMarks := by decide +kernel
  have hwritten : Written "Σ".toList "mIn-Σ".toList := .range hmark
  have hvalue : ∀ c ∈ [value], identifier? c = none := by
    intro c hc
    rw [List.mem_singleton.1 hc]
    rfl
  have hop : Comparison.atLeast.Spelled [mark '>', mark '='] := rfl
  have hblank : Blank [] := .nil
  have hcompared : Names (name "Σ" 2) compared := .behind hvalue hop hblank _
  have hranged : Names (name "mIn-Σ" 7) ranged := .valued hblank hblank _ _
  have hlower : Text.lower "Σ".toList = "σ".toList := by decide +kernel
  obtain ⟨hterm, hprelude⟩ := media_spellings_agree hvendor hrange
  rw [hlower] at hterm
  refine ⟨hterm _ _ _ _ _ .plain hcompared, hprelude _ _ ?_⟩
  have hfirst : Term compared (feature "Σ" 2) := by
    have h := Term.named hvendor hrange .plain hcompared
    rwa [hlower] at h
  have hsecond : Term ranged (feature "mIn-Σ" 7) := by
    have h := Term.named hvendor hrange hwritten hranged
    rwa [hlower] at h
  exact .between rfl (.group default none
    (.term default none hfirst (.between rfl (.term default none hsecond .nil))) nofun .nil)

end StyleAudit.Feature
