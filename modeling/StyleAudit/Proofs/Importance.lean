import StyleAudit.Proofs.ConditionGrammar
import StyleAudit.Proofs.Lossless
import StyleAudit.Proofs.SelfGuard

/-!
# The mark of importance has to be written without a gap

A value may end with an exclamation mark and the word `important`, and blanks
may stand in four places around the two. Three of them do not matter: what is
read of a value has been trimmed, and so is what is left of it when the mark has
been taken off. The reader looks at the last two components of the trimmed
value, so in the fourth place, between the exclamation mark and the word, a
blank hides the mark from it.

`Marked` gives a body, the components after the colon, as what stands before the
mark, the gap in the mark, and the word. What a declaration makes of its body
then depends on the gap alone. The features show the difference: of a mark
without a gap they show nothing, and with a gap the word is one more keyword of
the value.
-/

namespace StyleAudit

open Condition (Blank wordOf)

/-! ## Trimming -/

section trim

variable {α : Type} {p : α → Bool} {a b : α}

theorem dropTrailing_append_cons (ha : p a = false) (xs : List α) {ys : List α}
    (hys : ∀ y ∈ ys, p y = true) : dropTrailing p (xs ++ a :: ys) = xs ++ [a] := by
  rw [dropTrailing, List.reverse_append, List.reverse_cons, List.append_assoc,
    List.dropWhile_append_of_pos fun y hy => hys y (List.mem_reverse.1 hy), List.singleton_append,
    List.dropWhile_cons_of_neg (by simp [ha]), List.reverse_cons, List.reverse_reverse]

theorem dropWhile_append_cons (ha : p a = false) (xs ys : List α) :
    (xs ++ a :: ys).dropWhile p = xs.dropWhile p ++ a :: ys := by
  induction xs with
  | nil => rw [List.nil_append, List.dropWhile_cons_of_neg (by simp [ha]), List.dropWhile_nil]; rfl
  | cons x xs ih =>
      rw [List.cons_append, List.dropWhile_cons, List.dropWhile_cons, ih]
      split <;> rfl

/-- Two elements that are kept keep what is between them. -/
theorem trim_append_cons_cons (ha : p a = false) (hb : p b = false) (xs ys : List α)
    {zs : List α} (hzs : ∀ z ∈ zs, p z = true) :
    trim p (xs ++ a :: (ys ++ b :: zs)) = xs.dropWhile p ++ a :: (ys ++ [b]) := by
  rw [trim, dropWhile_append_cons ha, ← List.cons_append, ← List.append_assoc,
    dropTrailing_append_cons hb _ hzs, List.append_assoc, List.cons_append]

end trim

namespace Declaration

/-! ## Values that end with the mark -/

/-- A body that ends with the mark of importance, as what stands before the
mark, the blanks between the exclamation mark and the word, and the word with
its span. -/
inductive Marked : List Component → List Component → List Component → Text → Span → Prop where
  | intro {before gap after : List Component} {word : Text} (mark span : Span)
      (hgap : Blank gap) (hword : Text.lower word = "important".toList) (hafter : Blank after) :
      Marked
        (before ++ .token ⟨.delim '!', mark⟩ :: (gap ++ .token ⟨.ident word, span⟩ :: after))
        before gap word span

theorem splitImportant_marked (before : List Component) (mark span : Span) {word : Text}
    (hword : Text.lower word = "important".toList) :
    splitImportant (before ++ [.token ⟨.delim '!', mark⟩, .token ⟨.ident word, span⟩]) =
      (dropTrailing Component.isWhitespace before, true) := by
  unfold splitImportant
  rw [List.reverse_append]
  simp only [List.reverse_cons, List.reverse_nil, List.nil_append, List.cons_append, hword,
    decide_true, Bool.and_self, if_true, dropTrailing]

/-- Without the mark at its end a value is left as it is. -/
theorem splitImportant_unmarked {values : List Component}
    (h : ∀ before mark word span, Text.lower word = "important".toList →
      values ≠ before ++ [.token ⟨.delim '!', mark⟩, .token ⟨.ident word, span⟩]) :
    splitImportant values = (values, false) := by
  unfold splitImportant
  split
  · next word wordSpan mark markSpan before heq =>
      split
      · next hmark =>
          rw [Bool.and_eq_true, decide_eq_true_eq, decide_eq_true_eq] at hmark
          refine absurd ?_ (h before.reverse markSpan word wordSpan hmark.2)
          rw [← List.reverse_reverse values, heq, hmark.1]
          simp
      · rfl
  · rfl

/-- Behind a gap the mark is not at the end any more. -/
theorem splitImportant_gap (before : List Component) {gap : List Component} (mark span : Span)
    (word : Text) (hgap : Blank gap) (hne : gap ≠ []) :
    splitImportant (before ++ .token ⟨.delim '!', mark⟩ :: (gap ++ [.token ⟨.ident word, span⟩])) =
      (before ++ .token ⟨.delim '!', mark⟩ :: (gap ++ [.token ⟨.ident word, span⟩]), false) := by
  refine splitImportant_unmarked fun before' mark' word' span' _ heq => ?_
  obtain ⟨gap, blank, rfl⟩ := (List.eq_nil_or_concat gap).resolve_left hne
  rw [List.concat_eq_append] at hgap heq
  -- the last but one is the exclamation mark and a blank at once
  have hsplit : (before ++ .token ⟨.delim '!', mark⟩ :: gap) ++
        [blank, .token ⟨.ident word, span⟩] =
      before' ++ [.token ⟨.delim '!', mark'⟩, .token ⟨.ident word', span'⟩] := by
    simpa using heq
  obtain ⟨-, hlast⟩ := List.append_inj' hsplit rfl
  have hblank := hgap blank (by simp)
  rw [(List.cons.inj hlast).1] at hblank
  cases hblank

/-! ## Features of the value -/

/-- An exclamation mark and blanks are no features. -/
theorem flatMap_ofValue_gap (property : Text) (mark : Span) {gap : List Component}
    (hgap : Blank gap) (c : Component) :
    (.token ⟨.delim '!', mark⟩ :: (gap ++ [c])).flatMap (Feature.ofValue property) =
      Feature.ofValue property c := by
  have hblanks : gap.flatMap (Feature.ofValue property) = [] :=
    List.flatMap_eq_nil_iff.2 fun b hb => Condition.ofValue_of_isWhitespace property (hgap b hb)
  rw [List.flatMap_cons, List.flatMap_append, hblanks, List.flatMap_singleton]
  rfl

theorem isVendorPrefixed_important {word : Text} (h : Text.lower word = "important".toList) :
    Feature.isVendorPrefixed word = false := by
  rw [Feature.isVendorPrefixed, h]
  decide

/-- The keyword that the word of a mark is for the property of a declaration;
none if nothing of the declaration is a feature. -/
def wordFeature (d : Declaration) (word : Text) (span : Span) : List Feature :=
  if isCustomProperty d.name || Feature.isVendorPrefixed d.name then []
  else [⟨.propertyValue, Feature.propertyValueKey d.name word, span,
    [("property", .ofText d.name), ("value", .ofText word)]⟩]

/-- With a gap in the mark a declaration has the features of what stands before
the mark, and then the word. -/
theorem ofDeclaration_gap {d : Declaration} {before gap : List Component} {mark span : Span}
    {word : Text} (hgap : Blank gap) (hword : Text.lower word = "important".toList)
    (hd : d.values = before.dropWhile Component.isWhitespace ++
      .token ⟨.delim '!', mark⟩ :: (gap ++ [.token ⟨.ident word, span⟩])) :
    Feature.ofDeclaration d =
      Feature.ofDeclaration { d with values := trim Component.isWhitespace before } ++
        wordFeature d word span := by
  have hblank {c : Component} := Condition.ofValue_of_isWhitespace d.name (c := c)
  unfold Feature.ofDeclaration wordFeature
  split
  · rfl
  · rw [hd, List.flatMap_append, Condition.flatMap_dropWhile (fun c => hblank),
      flatMap_ofValue_gap d.name mark hgap, Condition.flatMap_trim (fun c => hblank),
      List.cons_append, Feature.ofValue, if_neg (by simp [isVendorPrefixed_important hword])]

/-! ## What becomes of a mark -/

theorem trim_marked {body before gap : List Component} {word : Text} {span : Span}
    (h : Marked body before gap word span) :
    Blank gap ∧ Text.lower word = "important".toList ∧
      ∃ mark, trim Component.isWhitespace body = before.dropWhile Component.isWhitespace ++
        .token ⟨.delim '!', mark⟩ :: (gap ++ [.token ⟨.ident word, span⟩]) := by
  cases h with
  | intro mark span hgap hword hafter =>
      exact ⟨hgap, hword, mark, trim_append_cons_cons rfl rfl _ _ hafter⟩

/-- A trimmed body that ends with the mark is a body that does. -/
theorem marked_of_trim {body before : List Component} {mark span : Span} {word : Text}
    (hword : Text.lower word = "important".toList)
    (h : trim Component.isWhitespace body =
      before ++ [.token ⟨.delim '!', mark⟩, .token ⟨.ident word, span⟩]) :
    ∃ before', Marked body before' [] word span := by
  obtain ⟨lead, hlead, hbody⟩ := exists_blank_dropWhile body
  obtain ⟨after, hafter, htrim⟩ :=
    exists_blank_dropTrailing (body.dropWhile Component.isWhitespace)
  rw [show dropTrailing _ _ = _ from h] at htrim
  refine ⟨lead ++ before, ?_⟩
  have hmarked : Marked ((lead ++ before) ++ _) (lead ++ before) [] word span :=
    .intro mark span Blank.nil hword hafter
  rw [hbody, htrim]
  simpa using hmarked

/-! ## Declarations -/

/-- The components after the colon of a declaration: blanks aside, its name and
a colon come first. -/
def HasBody (d : Declaration) (cs body : List Component) : Prop :=
  ∃ (blanks between : List Component) (colon : Span), Blank blanks ∧ Blank between ∧
    cs = blanks ++ .token ⟨.ident d.name, d.span⟩ ::
      (between ++ .token ⟨.colon, colon⟩ :: body)

theorem exists_hasBody {cs : List Component} {d : Declaration} (h : ofComponents cs = .ok d) :
    ∃ body, d.HasBody cs body := by
  obtain ⟨rest, colon, body, hname, hcolon, -⟩ := of_ofComponents_eq_ok h
  obtain ⟨blanks, hblanks, hcs⟩ := exists_blank_dropWhile cs
  obtain ⟨between, hbetween, hrest⟩ := exists_blank_dropWhile rest
  refine ⟨body, blanks, between, colon, hblanks, hbetween, ?_⟩
  rw [hcs, hname, hrest, hcolon]

theorem splitImportant_of_hasBody {cs body : List Component} {d : Declaration}
    (h : ofComponents cs = .ok d) (hbody : d.HasBody cs body) :
    splitImportant (trim Component.isWhitespace body) = (d.values, d.important) := by
  obtain ⟨blanks, between, colon, hblanks, hbetween, rfl⟩ := hbody
  obtain ⟨rest, colon', body', hname, hcolon, hsplit⟩ := of_ofComponents_eq_ok h
  rw [hblanks.dropWhile_append, List.dropWhile_cons_of_neg Bool.false_ne_true] at hname
  rw [← (List.cons.inj hname).2, hbetween.dropWhile_append,
    List.dropWhile_cons_of_neg Bool.false_ne_true] at hcolon
  rwa [(List.cons.inj hcolon).2]

/-- A declaration is important just if its body ends with the mark of importance
and nothing stands between the exclamation mark and the word, whatever blanks
there are elsewhere; its value is then what stands before the mark, and
otherwise the whole body, trimmed in either case. So the word of a mark with a
gap is in the value, and it is one more keyword among the features. -/
theorem important_iff_mark_without_gap {cs : List Component} {d : Declaration}
    (h : ofComponents cs = .ok d) :
    (∃ body, d.HasBody cs body) ∧
    ∀ body, d.HasBody cs body →
      (∀ before gap word span, Marked body before gap word span →
        (d.important = true ↔ gap = []) ∧
        d.values = trim Component.isWhitespace (if gap.isEmpty then before else body) ∧
        Feature.ofDeclaration d =
          Feature.ofDeclaration { d with values := trim Component.isWhitespace before } ++
            (if gap.isEmpty then [] else wordFeature d word span)) ∧
      ((∀ before gap word span, ¬ Marked body before gap word span) →
        d.important = false ∧ d.values = trim Component.isWhitespace body) := by
  refine ⟨exists_hasBody h, fun body hbody => ?_⟩
  have hsplit := splitImportant_of_hasBody h hbody
  constructor
  · intro before gap word span hmarked
    obtain ⟨hgap, hword, mark, htrim⟩ := trim_marked hmarked
    cases hempty : gap.isEmpty with
    | true =>
        obtain rfl := List.isEmpty_iff.1 hempty
        rw [htrim, List.nil_append, splitImportant_marked _ mark span hword] at hsplit
        obtain ⟨hvalues, himportant⟩ := Prod.mk.inj hsplit
        have hd : { d with values := trim Component.isWhitespace before } = d := by
          rw [trim, hvalues]
        refine ⟨by simp [← himportant], hvalues.symm, ?_⟩
        rw [hd, if_pos rfl, List.append_nil]
    | false =>
        have hne : gap ≠ [] := by simpa using hempty
        have hwhole := splitImportant_gap (before.dropWhile Component.isWhitespace) mark span word
          hgap hne
        rw [← htrim, hsplit] at hwhole
        obtain ⟨hvalues, himportant⟩ := Prod.mk.inj hwhole
        refine ⟨by simp [himportant, hne], hvalues, ?_⟩
        exact ofDeclaration_gap hgap hword (hvalues.trans htrim)
  · intro hunmarked
    rw [splitImportant_unmarked fun before mark word span hword htrim => ?_] at hsplit
    · obtain ⟨hvalues, himportant⟩ := Prod.mk.inj hsplit
      exact ⟨himportant.symm, hvalues.symm⟩
    · obtain ⟨before', hmarked⟩ := marked_of_trim hword htrim
      exact hunmarked before' [] word span hmarked

/-- In `color : red !IMPORTANT` blanks stand in three places, and the letters
are capitals; with one in the fourth place the word is a value. -/
theorem important_iff_mark_without_gap_in_capitals :
    let blank : Component := .token ⟨.whitespace [' '], default⟩
    let colon : Component := .token ⟨.colon, default⟩
    let mark : Component := .token ⟨.delim '!', default⟩
    let red : List Component := [blank, wordOf "red", blank]
    let color (gap : List Component) : List Component :=
      [wordOf "color", blank, colon] ++ (red ++ mark :: (gap ++ [wordOf "IMPORTANT", blank]))
    (∃ d, ofComponents (color []) = .ok d ∧ d.important = true ∧ d.values = [wordOf "red"]) ∧
    ∃ d, ofComponents (color [blank]) = .ok d ∧ ¬ d.important = true ∧
      ∃ f ∈ Feature.ofDeclaration d, f.key = "color:important".toList := by
  intro blank colon mark red color
  have hword : Text.lower "IMPORTANT".toList = "important".toList := by decide +kernel
  have hblank : Blank [blank] := by
    simp only [Blank, List.forall_mem_singleton]
    rfl
  have hplain : ofComponents (color []) = .ok ⟨"color".toList, default, [wordOf "red"], true⟩ := by
    rfl
  have hgap : ofComponents (color [blank]) =
      .ok ⟨"color".toList, default, [wordOf "red", blank, mark, blank, wordOf "IMPORTANT"],
        false⟩ := by
    rfl
  have hnone : Marked (red ++ mark :: ([] ++ [wordOf "IMPORTANT", blank])) red [] _ default :=
    .intro default default Blank.nil hword hblank
  have hone :
      Marked (red ++ mark :: ([blank] ++ [wordOf "IMPORTANT", blank])) red [blank] _ default :=
    .intro default default hblank hword hblank
  obtain ⟨himportant, hvalues, -⟩ := ((important_iff_mark_without_gap hplain).2 _
    ⟨[], [blank], default, Blank.nil, hblank, rfl⟩).1 _ _ _ _ hnone
  obtain ⟨hignored, -, hfeatures⟩ := ((important_iff_mark_without_gap hgap).2 _
    ⟨[], [blank], default, Blank.nil, hblank, rfl⟩).1 _ _ _ _ hone
  refine ⟨⟨_, hplain, himportant.2 rfl, hvalues⟩, _, hgap, by simp [hignored], ?_⟩
  rw [hfeatures]
  refine ⟨_, List.mem_append_right _ (List.mem_singleton_self _), by decide +kernel⟩

/-- In `color: red ! important` the mark is overlooked. The value ends with it,
and the word is checked as a keyword of the property. -/
theorem spaced_mark_overlooked :
    let blank : Component := .token ⟨.whitespace [' '], default⟩
    let mark : Component := .token ⟨.delim '!', default⟩
    let body : List Component := [blank, wordOf "red", blank, mark, blank, wordOf "important"]
    Marked body [blank, wordOf "red", blank] [blank] "important".toList default ∧
    ∃ d, ofComponents (wordOf "color" :: .token ⟨.colon, default⟩ :: body) = .ok d ∧
      d.important = false ∧
      d.values = [wordOf "red", blank, mark, blank, wordOf "important"] ∧
      (Feature.ofDeclaration d).map Feature.key =
        ["color".toList, "color:red".toList, "color:important".toList] := by
  intro blank mark body
  have hword : Text.lower "important".toList = "important".toList := by decide +kernel
  have hblank : Blank [blank] := by
    simp only [Blank, List.forall_mem_singleton]
    rfl
  have hmarked : Marked ([blank, wordOf "red", blank] ++ mark :: ([blank] ++ [wordOf "important"]))
      _ [blank] _ default := .intro default default hblank hword Blank.nil
  refine ⟨hmarked, _, rfl, rfl, rfl, ?_⟩
  decide +kernel

end Declaration

end StyleAudit
