import StyleAudit.Proofs.ConditionReading

/-!
# What the word of a negation keeps from being asserted

A term behind the word of a negation should contribute nothing to what a
condition asserts. The reader takes the word for a negation only where it comes
first; anywhere else in a list it is one more term, which asserts nothing itself
and leaves the next one as it is. So there are two cases, and no third.

If the list in which the word stands is withheld, or one of the groups around
it stands in a list that is, then exchanging the negated term changes nothing. A
list is withheld if it starts with the word or holds the word of a disjunction.
In the remaining case every key of the negated term is asserted, as if the word
were not there; `negation_overlooked` is the smallest instance.

The whole argument is about exchanging one component that is not a token for
another in a list: neither the words of the list nor the question of whether it
is a test of a declaration can depend on it.
-/

namespace StyleAudit.Condition

/-- Whether a component is a term in parentheses. -/
def isParenthesized : Component → Bool
  | .block .round _ _ _ => true
  | _ => false

/-- Whether a component is a test of a selector. -/
def isSelectorTest : Component → Bool
  | .function name _ _ _ => Text.lower name = "selector".toList
  | _ => false

theorem kind?_of_isParenthesized {c : Component} (h : isParenthesized c = true) :
    c.kind? = none := by
  cases c with
  | token t => cases h
  | function => rfl
  | block => rfl

theorem kind?_of_isSelectorTest {c : Component} (h : isSelectorTest c = true) :
    c.kind? = none := by
  cases c with
  | token t => cases h
  | function => rfl
  | block => rfl

/-! ## Exchanging a component that is no token -/

section

variable {c d : Component} (hc : c.kind? = none) (hd : d.kind? = none)
  (before after : List Component)
include hc hd

theorem startsNegated_exchange :
    startsNegated (before ++ c :: after) = startsNegated (before ++ d :: after) := by
  induction before with
  | nil =>
      rw [startsNegated_term after .nil hc, startsNegated_term after .nil hd]
  | cons b before ih =>
      rw [startsNegated, startsNegated, List.cons_append, List.cons_append,
        List.dropWhile_cons, List.dropWhile_cons]
      split
      · exact ih
      · rfl

theorem isWithheld_exchange :
    isWithheld (before ++ c :: after) = isWithheld (before ++ d :: after) := by
  have hor {x : Component} (hx : x.kind? = none) : isOr x = false :=
    isWord_of_kind?_none _ hx
  rw [isWithheld, isWithheld, startsNegated_exchange hc hd, List.any_append,
    List.any_append, List.any_cons, List.any_cons, hor hc, hor hd]

omit hd in
/-- What a list asserts, seen from one of its terms. -/
theorem asserted_around :
    (ofComponents (before ++ c :: after)).asserted =
      if isWithheld (before ++ c :: after) then []
      else assertedAll (ofTerms before) ++
        ((ofTerm c).asserted ++ assertedAll (ofTerms after)) := by
  rw [asserted_ofComponents, ofTerms_append, assertedAll_append,
    ofTerms_term after (isWhitespace_of_kind?_none hc) (isOperator_of_kind?_none hc),
    assertedAll]

/-- A list asserts the same as long as its terms do, and whatever they do if it
is withheld. -/
theorem asserted_exchange
    (h : isWithheld (before ++ c :: after) = false →
      (ofTerm c).asserted = (ofTerm d).asserted) :
    (ofComponents (before ++ c :: after)).asserted =
      (ofComponents (before ++ d :: after)).asserted := by
  rw [asserted_around hc, asserted_around hd, isWithheld_exchange hc hd]
  split
  · rfl
  · next hheld =>
      rw [h]
      rw [isWithheld_exchange hc hd]
      exact Bool.eq_false_iff.2 hheld

theorem declaration?_exchange (h : declaration? (before ++ c :: after) = none) :
    declaration? (before ++ d :: after) = none := by
  -- Only the first two components that are not blank are looked at, and each of
  -- them either stands in front of the exchanged one or comes too late.
  have hrest {rest : List Component} {x : Component} (hx : x.kind? = none) :
      (rest ++ x :: after).dropWhile Component.isWhitespace =
        rest.dropWhile Component.isWhitespace ++ x :: after := by
    rw [List.dropWhile_append]
    split
    · next hnil =>
        rw [List.isEmpty_iff.1 hnil, List.nil_append, List.dropWhile_cons_of_neg
          (ne_true_of_eq_false (isWhitespace_of_kind?_none hx))]
    · rfl
  unfold declaration? at h ⊢
  rw [hrest hc] at h
  rw [hrest hd]
  cases hname : before.dropWhile Component.isWhitespace with
  | nil =>
      have hnone := declaration?_cons_term after hd
      rw [declaration?, List.dropWhile_cons_of_neg
        (ne_true_of_eq_false (isWhitespace_of_kind?_none hd))] at hnone
      exact hnone
  | cons name rest =>
      rw [hname] at h
      rw [List.cons_append] at h ⊢
      split
      · next word span more heq =>
          cases heq
          simp only [hrest hc] at h
          rw [hrest hd]
          cases hcolon : rest.dropWhile Component.isWhitespace with
          | nil =>
              cases d with
              | token t => cases hd
              | function => rfl
              | block => rfl
          | cons colon body =>
              rw [hcolon] at h
              rw [List.cons_append] at h ⊢
              split
              · next colonSpan tail heq =>
                  cases heq
                  cases h
              · rfl
      · rfl

end

theorem ofTerm_group {values : List Component} (opening : Span)
    (closing : Option Span) (h : declaration? values = none) :
    ofTerm (.block .round opening values closing) = ofComponents values := by
  rw [ofTerm, h]

/-! ## Negated terms -/

/-- Two preludes that differ in one term, which directly follows the word of a
negation, blanks aside, at any depth of groups. A group is what stands in
parentheses and is no test of a declaration. `withheld` tells whether the list
with the word, or a list with one of the groups around it, is withheld. -/
inductive Exchanged (t t' : Component) :
    (withheld : Bool) → List Component → List Component → Prop where
  | operand {word : Component} {between : List Component}
      (before after : List Component) (hword : isNot word = true)
      (hbetween : Blank between) :
      Exchanged t t' (isWithheld ((before ++ word :: between) ++ t :: after))
        ((before ++ word :: between) ++ t :: after)
        ((before ++ word :: between) ++ t' :: after)
  | inside {withheld : Bool} {values values' : List Component}
      (before after : List Component) (opening : Span) (closing : Option Span)
      (hgroup : declaration? values = none)
      (h : Exchanged t t' withheld values values') :
      Exchanged t t'
        (withheld ||
          isWithheld (before ++ .block .round opening values closing :: after))
        (before ++ .block .round opening values closing :: after)
        (before ++ .block .round opening values' closing :: after)

section

variable {t t' : Component} (ht : t.kind? = none) (ht' : t'.kind? = none)
include ht ht'

theorem Exchanged.declaration?_eq_none {withheld : Bool}
    {p p' : List Component} (h : Exchanged t t' withheld p p')
    (hp : declaration? p = none) : declaration? p' = none := by
  cases h with
  | operand before after hword hbetween =>
      exact declaration?_exchange ht ht' _ _ hp
  | inside before after opening closing hgroup h =>
      exact declaration?_exchange rfl rfl _ _ hp

theorem Exchanged.asserted_eq {withheld : Bool} {p p' : List Component}
    (h : Exchanged t t' withheld p p') (hheld : withheld = true) :
    (ofComponents p).asserted = (ofComponents p').asserted := by
  induction h with
  | operand before after hword hbetween =>
      refine asserted_exchange ht ht' _ _ fun hfree => ?_
      rw [hheld] at hfree
      cases hfree
  | inside before after opening closing hgroup h ih =>
      refine asserted_exchange rfl rfl _ _ fun hfree => ?_
      rw [hfree, Bool.or_false] at hheld
      rw [ofTerm_group opening closing hgroup,
        ofTerm_group opening closing (h.declaration?_eq_none ht ht' hgroup)]
      exact ih hheld

omit ht' in
theorem Exchanged.asserted_subset {withheld : Bool} {p p' : List Component}
    (h : Exchanged t t' withheld p p') (hfree : withheld = false) :
    (ofTerm t).asserted ⊆ (ofComponents p).asserted := by
  induction h with
  | operand before after hword hbetween =>
      rw [asserted_around ht, hfree, if_neg Bool.false_ne_true]
      exact fun key hkey => List.mem_append_right _ (List.mem_append_left _ hkey)
  | inside before after opening closing hgroup h ih =>
      obtain ⟨hinner, houter⟩ := Bool.or_eq_false_iff.1 hfree
      rw [asserted_around rfl, houter, if_neg Bool.false_ne_true,
        ofTerm_group opening closing hgroup]
      exact fun key hkey =>
        List.mem_append_right _ (List.mem_append_left _ (ih hinner hkey))

end

/-- A term in parentheses or a test of a selector that directly follows the word
of a negation contributes nothing where the word is heeded: exchanging it for
any term in parentheses leaves what the prelude asserts unchanged. Where it is
not, all that the term asserts is asserted by the prelude. -/
theorem negated_term_exchanged {t t' : Component}
    (ht : isParenthesized t = true ∨ isSelectorTest t = true)
    (ht' : isParenthesized t' = true) {withheld : Bool}
    {p p' : List Component} (h : Exchanged t t' withheld p p') :
    (withheld = true →
      (ofComponents p).asserted = (ofComponents p').asserted) ∧
    (withheld = false → (ofTerm t).asserted ⊆ (ofComponents p).asserted) := by
  have hkind : t.kind? = none :=
    ht.elim kind?_of_isParenthesized kind?_of_isSelectorTest
  exact ⟨h.asserted_eq hkind (kind?_of_isParenthesized ht'),
    h.asserted_subset hkind⟩

/-- In `(a: b) and (not (c: d))` the negated term can be exchanged for any other. -/
theorem negated_term_exchanged_in_group :
    (ofComponents [testOf "a" "b", wordOf "and",
        groupOf [wordOf "not", testOf "c" "d"]]).asserted =
      (ofComponents [testOf "a" "b", wordOf "and",
        groupOf [wordOf "not", groupOf [wordOf "x"]]]).asserted := by
  have hnot : isNot (wordOf "not") = true := by decide +kernel
  have hinner : Exchanged (testOf "c" "d") (groupOf [wordOf "x"]) _ _ _ :=
    .operand [] [] hnot Blank.nil
  have h := hinner.inside [testOf "a" "b", wordOf "and"] [] default none rfl
  exact (negated_term_exchanged (.inl rfl) rfl h).1 (by decide +kernel)

/-- In `(a: b) and not (c: d)` the word of the negation is overlooked: the
condition asserts `c: d`, and no longer does so with another term in its
place. -/
theorem negation_overlooked :
    (∃ withheld, Exchanged (testOf "c" "d") (groupOf [wordOf "x"]) withheld
      [testOf "a" "b", wordOf "and", wordOf "not", testOf "c" "d"]
      [testOf "a" "b", wordOf "and", wordOf "not", groupOf [wordOf "x"]]) ∧
    (.property, "c".toList) ∈ (ofComponents [testOf "a" "b", wordOf "and",
      wordOf "not", testOf "c" "d"]).asserted ∧
    (.property, "c".toList) ∉ (ofComponents [testOf "a" "b", wordOf "and",
      wordOf "not", groupOf [wordOf "x"]]).asserted := by
  have hnot : isNot (wordOf "not") = true := by decide +kernel
  refine ⟨⟨_, .operand [testOf "a" "b", wordOf "and"] [] hnot Blank.nil⟩, ?_, ?_⟩
  · decide +kernel
  · decide +kernel

end StyleAudit.Condition
