import StyleAudit.Proofs.Occurrences

/-!
# Names with a vendor's mark

Every resolver asks whether a name starts with a vendor's mark before it makes a
feature of it, and makes the key from the name afterwards. For all kinds but one
the key, or each half of it, is just the name in small letters, in which the
mark was looked for, so no such key is ever looked up. The key of a media
feature lacks the mark of a range that its name may start with, and behind that
mark the resolver has not looked: `min--moz-device-pixel-ratio` does not start
like a vendor's name, but its key does.

That this is the only way is said twice, of the features and of the data. Two
sets of data that differ in records of vendors' names alone give the same
diagnostics, those about such ranges aside. The data is asked for the small form
of a key once more, but that is the key itself (`Form.lower_key`).
-/

namespace StyleAudit

/-! ## Keys of features -/

namespace Feature

/-- Whether a key starts with a vendor's mark. -/
def hasVendorMark (key : Text) : Bool := vendorMarks.any fun mark => mark.isPrefixOf key

/-- Whether a name is the mark of a range with a vendor's name behind it. -/
def isVendorRange (name : Text) : Bool :=
  let key := Text.lower name
  ("min-".toList.isPrefixOf key || "max-".toList.isPrefixOf key) &&
    hasVendorMark (key.drop 4)

/-- Whether what belongs to a feature of some kind names a range of a vendor. -/
def namesVendorRange (kind : Kind) (details : Details) : Bool :=
  kind = .mediaCondition &&
    match Dictionary.get? "condition" details with
    | some (.str name) => isVendorRange name.toList
    | _ => false

/-- The parts of the key of a feature: the property and the value, or all of it. -/
def keyParts (f : Feature) : List Text :=
  match f.kind, f.details with
  | .propertyValue, [(_, .str property), (_, .str value)] =>
      [Text.lower property.toList, Text.lower value.toList]
  | _, _ => [f.key]

/-- Whether the key of a feature or a part of it starts with a vendor's mark. -/
def hasMarkedKey (f : Feature) : Bool := (f.key :: f.keyParts).any hasVendorMark

theorem Form.key_eq_intercalate {f : Feature} (hf : f.Form) :
    f.key = List.intercalate [':'] f.keyParts := by
  cases hf with
  | value span hcustom hproperty hvendor =>
      simp [keyParts, Json.ofText, propertyValueKey, List.intercalate, List.intersperse]
  | _ => simp [keyParts, List.intercalate]

/-- A mark has no colon, so it does not reach behind the property of a key. -/
theorem hasVendorMark_append (key value : Text) :
    hasVendorMark (key ++ ':' :: value) = hasVendorMark key := by
  have hcolon : ∀ mark ∈ vendorMarks, ':' ∉ mark := by decide
  refine Bool.eq_iff_iff.2 ?_
  simp only [hasVendorMark, List.any_eq_true, List.isPrefixOf_iff_prefix]
  refine exists_congr fun mark => and_congr_right fun hmark => ⟨fun h => ?_, fun h => ?_⟩
  · rcases Nat.le_total mark.length key.length with hle | hle
    · exact List.prefix_of_prefix_length_le h (List.prefix_append _ _) hle
    · -- a longer mark would hold the colon behind the property
      obtain ⟨rest, rfl⟩ := List.prefix_of_prefix_length_le (List.prefix_append _ _) h hle
      cases rest with
      | nil => simp
      | cons c rest =>
          have hprefix : c :: rest <+: ':' :: value := (List.prefix_append_right_inj key).1 h
          have hc : c = ':' := (List.cons_prefix_cons.1 hprefix).1
          refine absurd ?_ (hcolon _ hmark)
          simp [hc]
  · exact h.trans (List.prefix_append _ _)

theorem hasVendorMark_mediaKey {name : Text} (h : isVendorPrefixed name = false) :
    hasVendorMark (mediaKey name) = isVendorRange name := by
  unfold mediaKey isVendorRange
  simp only []
  split
  · next hrange => rw [hrange, Bool.true_and]
  · next hrange =>
      rw [Bool.eq_false_iff.2 hrange, Bool.false_and]
      exact h

theorem hasMarkedKey_of_keyParts {f : Feature} (h : f.keyParts = [f.key]) :
    f.hasMarkedKey = hasVendorMark f.key := by
  rw [hasMarkedKey, h, List.any_cons, List.any_cons, List.any_nil, Bool.or_false, Bool.or_self]

/-- A key is marked just for a media feature whose name hides the mark. -/
theorem Form.hasMarkedKey_eq {f : Feature} (hf : f.Form) :
    f.hasMarkedKey = namesVendorRange f.kind f.details := by
  cases hf with
  | @value property name span hcustom hproperty hvendor =>
      have hmarks : hasVendorMark (Text.lower property) = false ∧
          hasVendorMark (Text.lower name) = false := ⟨hproperty, hvendor⟩
      simp [hasMarkedKey, keyParts, Json.ofText, propertyValueKey, hasVendorMark_append, hmarks,
        namesVendorRange]
  | media span hvendor =>
      rw [hasMarkedKey_of_keyParts rfl, hasVendorMark_mediaKey hvendor]
      simp [namesVendorRange, Dictionary.get?, Json.ofText]
  | nesting span =>
      rw [hasMarkedKey_of_keyParts rfl]
      rfl
  | property span hcustom hvendor =>
      rw [hasMarkedKey_of_keyParts rfl]
      exact hvendor
  | function span hvendor | atRule span hvendor | pseudo span hvendor =>
      rw [hasMarkedKey_of_keyParts rfl]
      exact hvendor

end Feature

/-! ## Data without vendors' names -/

/-- Two databases that have the same records under all keys that are made from
names without a vendor's mark. -/
structure Database.AgreeUnmarked (d d' : Database) : Prop where
  key : ∀ kind key, kind ≠ .propertyValue → Feature.isVendorPrefixed key = false →
    d.get? kind key = d'.get? kind key
  value : ∀ property value, Feature.isVendorPrefixed property = false →
    Feature.isVendorPrefixed value = false →
    d.get? .propertyValue (Feature.propertyValueKey property value) =
      d'.get? .propertyValue (Feature.propertyValueKey property value)

theorem Database.AgreeUnmarked.get? {d d' : Database} (h : d.AgreeUnmarked d')
    {f : Feature} (hf : f.Form) (hmark : f.hasMarkedKey = false) :
    d.get? f.kind f.key = d'.get? f.kind f.key := by
  by_cases hkind : f.kind = .propertyValue
  · cases hf with
    | value span hcustom hproperty hvendor => exact h.value _ _ hproperty hvendor
    | _ => cases hkind
  · refine h.key _ _ hkind ?_
    have hkey : Feature.hasVendorMark f.key = false := by
      rw [Feature.hasMarkedKey, List.any_cons, Bool.or_eq_false_iff] at hmark
      exact hmark.1
    rw [← hkey, Feature.isVendorPrefixed, hf.lower_key, Feature.hasVendorMark]

namespace Audit

open Feature (namesVendorRange)

theorem offends_of_agreeUnmarked {c : Configuration} {d d' : Database} (h : d.AgreeUnmarked d')
    {f : Feature} (hf : f.Form) (hmark : f.hasMarkedKey = false)
    (granted : List Feature.Key) :
    Offends ⟨c, d⟩ f granted ↔ Offends ⟨c, d'⟩ f granted := by
  simp only [Offends, h.get? hf hmark]

/-- Whatever a resolver is given, a feature that it makes has a key with a
vendor's mark, in the property or the value of a property value as well as at
the start, if and only if it is a media feature whose name has the mark behind
that of a range. All features of a stylesheet are made so, and its diagnostics,
those about such ranges aside, do not depend on records of vendors' names. -/
theorem vendor_mark_only_behind_range_mark {f : Feature} (hf : f.Resolved)
    (sheet : Stylesheet) :
    (f.key = List.intercalate [':'] f.keyParts ∧
      f.hasMarkedKey = namesVendorRange f.kind f.details) ∧
    (∀ o ∈ Node.occurrencesIn sheet.rules, o.feature.Resolved) ∧
    ∀ (c : Configuration) (d d' : Database), d.AgreeUnmarked d' →
      (diagnostics ⟨c, d⟩ sheet).filter (fun x => !namesVendorRange x.kind x.details) =
        (diagnostics ⟨c, d'⟩ sheet).filter fun x => !namesVendorRange x.kind x.details := by
  refine ⟨⟨hf.form.key_eq_intercalate, hf.form.hasMarkedKey_eq⟩, fun o ho => ?_,
    fun c d d' h => ?_⟩
  · obtain ⟨n, hn⟩ := Node.exists_of_mem_occurrencesIn ho
    exact Node.resolved_of_mem_features hn
  · rw [diagnostics_eq_reports, diagnostics_eq_reports]
    simp only [reports, List.filter_map, List.filter_filter, List.nil_append]
    congr 1
    refine List.filter_congr fun o ho => ?_
    have hform := Node.form_of_mem_occurrencesIn ho
    cases hrange : namesVendorRange o.feature.kind o.feature.details with
    | true => simp [Diagnostic.ofFeature, hrange]
    | false =>
        have hmark := hform.hasMarkedKey_eq.trans hrange
        simp only [offends_of_agreeUnmarked h hform hmark]

/-- Two media features with a vendor's name, one of them behind the mark of a
range, and data about the property of a vendor. -/
theorem vendor_mark_only_behind_range_mark_of_two :
    let vendor : Database := ⟨"", [((.property, "-moz-x".toList),
      ⟨"-moz-x".toList, .property, .notBaseline, none⟩)]⟩
    let sheet : Stylesheet :=
      ⟨[.rule [] ⟨default, [], none⟩ [.declaration ⟨"-moz-x".toList, default, [], false⟩]], []⟩
    let range : Feature := ⟨.mediaCondition, "-moz-y".toList, default,
      [("condition", .str "Max--moz-y")]⟩
    range.hasMarkedKey = true ∧
      (diagnostics ⟨{}, vendor⟩ sheet).filter (fun x => !namesVendorRange x.kind x.details) =
        (diagnostics ⟨{}, ⟨"", []⟩⟩ sheet).filter fun x => !namesVendorRange x.kind x.details := by
  intro vendor sheet range
  have hterm : range ∈ Feature.mediaConditions
      [.block .round default [.token ⟨.ident "-moz-y".toList, default⟩] none,
        .block .round default [.token ⟨.ident "Max--moz-y".toList, default⟩] none] := by
    decide +kernel
  obtain ⟨⟨_, hmarked⟩, _, hdatabases⟩ :=
    vendor_mark_only_behind_range_mark (.media _ hterm) sheet
  constructor
  · rw [hmarked]
    decide +kernel
  · refine hdatabases {} vendor ⟨"", []⟩ ⟨fun kind key hkind hkey => ?_, fun _ _ _ _ => ?_⟩
    · have hne : Text.lower key ≠ "-moz-x".toList := by
        intro h
        rw [Feature.isVendorPrefixed, h] at hkey
        exact absurd hkey (by decide)
      have hentry : ((.property, "-moz-x".toList) : Feature.Key) ≠ (kind, Text.lower key) :=
        fun h => hne (congrArg Prod.snd h).symm
      simp only [Database.get?, Dictionary.get?, vendor, if_neg hentry]
    · simp [Database.get?, Dictionary.get?, vendor]

/-- The name of a media feature passes for one that is no vendor's, and the key
that decides about it is a vendor's. -/
theorem range_mark_hides_vendor_mark :
    let source := "@media (min--moz-device-pixel-ratio: 2) \x7b\x7d".toList
    let key : Feature.Key := (.mediaCondition, "-moz-device-pixel-ratio".toList)
    (Stylesheet.parse .strict source).toOption.map (fun sheet =>
        (Node.occurrencesIn sheet.rules).map fun o =>
          (o.feature.scopeKey, o.feature.hasMarkedKey)) =
      some [((.atRule, "media".toList), false), (key, true)] ∧
    (lint ⟨{}, ⟨"", [(key, ⟨key.2, key.1, .newly, none⟩)]⟩⟩ .strict source).toOption =
      some [⟨.mediaCondition, [("condition", .str "min--moz-device-pixel-ratio")], .str "widely",
        ⟨⟨1, 9⟩, ⟨1, 36⟩⟩⟩] := by
  intro source key
  constructor <;> decide +kernel

end Audit

end StyleAudit
