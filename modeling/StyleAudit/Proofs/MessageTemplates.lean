import StyleAudit.Audit.Diagnostic

/-!
# Messages are filled templates

For each kind of feature there is a template: a text in which words between curly
brackets stand for values. `fill` puts the values in as it reads the template from
front to back; a value goes into the message as it is and is never read again, so it
does not matter what is in it.

If a year is asked for, the end of the template is exchanged for another, before any
value is put in. What comes out is what `Diagnostic.message?` puts together, for
whatever details a diagnostic has: the same message, or none because the same name
is missing.
-/

namespace StyleAudit

namespace Template

/-- A template with values put in: `word?` is what has been read of the word of a place
for a value, inside its brackets. There is none if a word has no value, or a bracket
is not closed. -/
def fillFrom (values : Text → Option Text) : Option Text → Text → Option Text
  | none, [] => some []
  | none, c :: rest =>
      if c = '\x7b' then fillFrom values (some []) rest
      else (fillFrom values none rest).map (c :: ·)
  | some _, [] => none
  | some word, c :: rest =>
      if c = '\x7d' then do
        let value ← values word
        let more ← fillFrom values none rest
        return value ++ more
      else fillFrom values (some (word ++ [c])) rest

/-- A template with values put in for the words between its brackets. -/
def fill (values : Text → Option Text) (template : Text) : Option Text :=
  fillFrom values none template

/-- A text with one phrase exchanged for another wherever it stands: `skip` is how much
is still to be passed over of the phrase that was found last. -/
def exchangeFrom (old new : Text) : Nat → Text → Text
  | _, [] => []
  | 0, c :: rest =>
      if old.isPrefixOf (c :: rest) then new ++ exchangeFrom old new (old.length - 1) rest
      else c :: exchangeFrom old new 0 rest
  | skip + 1, _ :: rest => exchangeFrom old new skip rest

/-- A text with one phrase exchanged for another wherever it stands. -/
def exchange (old new t : Text) : Text := exchangeFrom old new 0 t

/-- The place of a value in a template. -/
def place (word : String) : Text := '\x7b' :: (word.toList ++ ['\x7d'])

/-- What a template starts with, whatever is asked for. -/
def subject : Feature.Kind → Text
  | .property => "Property '".toList ++ (place "property" ++ ['\''])
  | .propertyValue =>
      "Value '".toList ++ (place "value" ++
        ("' of property '".toList ++ (place "property" ++ ['\''])))
  | .atRule => "At-rule '@".toList ++ (place "atRule" ++ ['\''])
  | .selector => "Selector '".toList ++ (place "selector" ++ ['\''])
  | .function => "Function '".toList ++ (place "function" ++ ['\''])
  | .mediaCondition => "Media condition '".toList ++ (place "condition" ++ ['\''])

/-- What a template ends with if a level is asked for. -/
def notALevel : Text :=
  " is not a ".toList ++ (place "availability" ++ " available baseline feature.".toList)

/-- What it ends with instead if a year is. -/
def asOfYear : Text := " is not available as of ".toList ++ (place "availability" ++ ['.'])

/-- The template of a kind, for a level. -/
def ofKind (kind : Feature.Kind) : Text := subject kind ++ notALevel

/-- The template of a kind: for a year, or for a level. -/
def select (kind : Feature.Kind) (year : Bool) : Text :=
  if year then exchange notALevel asOfYear (ofKind kind) else ofKind kind

/-! ## Putting in values -/

section

variable (values : Text → Option Text)

theorem fill_plain {t : Text} (h : '\x7b' ∉ t) (rest : Text) :
    fill values (t ++ rest) = (fill values rest).map (t ++ ·) := by
  induction t with
  | nil => simp
  | cons c t ih =>
      rw [List.mem_cons, not_or] at h
      rw [fill, List.cons_append, fillFrom, if_neg (Ne.symm h.1)]
      rw [show fillFrom values none (t ++ rest) = _ from ih h.2, Option.map_map]
      rfl

theorem fillFrom_word {word : Text} (h : '\x7d' ∉ word) (before rest : Text) :
    fillFrom values (some before) (word ++ '\x7d' :: rest) = do
      let value ← values (before ++ word)
      let more ← fill values rest
      return value ++ more := by
  induction word generalizing before with
  | nil =>
      rw [List.nil_append, fillFrom, if_pos rfl, List.append_nil]
      rfl
  | cons c word ih =>
      rw [List.mem_cons, not_or] at h
      rw [List.cons_append, fillFrom, if_neg (Ne.symm h.1), ih h.2, List.append_assoc,
        List.singleton_append]

theorem fill_place {word : String} (hword : '\x7d' ∉ word.toList) {before : Text}
    (hbefore : '\x7b' ∉ before) (rest : Text) :
    fill values (before ++ (place word ++ rest)) =
      (values word.toList).bind fun value =>
        (fill values rest).map fun more => before ++ (value ++ more) := by
  rw [fill_plain values hbefore, place, List.cons_append, List.append_assoc,
    List.singleton_append, fill, fillFrom, if_pos rfl, fillFrom_word values hword, List.nil_append]
  cases values word.toList <;> cases fill values rest <;> rfl

end

theorem exchange_ofKind (kind : Feature.Kind) :
    exchange notALevel asOfYear (ofKind kind) = subject kind ++ asOfYear := by
  cases kind <;> decide +kernel

end Template

/-! ## Messages -/

namespace Diagnostic

/-- What a word in a template stands for. -/
def value? (d : Diagnostic) (word : Text) : Option Text :=
  (Dictionary.get? (String.ofList word) d.data).map fun value => value.text.toList

theorem value?_availability (d : Diagnostic) :
    d.value? "availability".toList = some d.availability.text.toList := by
  rw [value?, String.ofList_toList, data, Dictionary.get?_put, if_pos rfl, Option.map_some]

theorem value?_detail (d : Diagnostic) {detail : String} (h : detail ≠ "availability") :
    d.value? detail.toList =
      (Dictionary.get? detail d.details).map fun value => value.text.toList := by
  rw [value?, String.ofList_toList, data, Dictionary.get?_put, if_neg h]

theorem fill_complaint (d : Diagnostic) :
    Template.fill d.value?
        (if isYear d.availability then Template.asOfYear else Template.notALevel) =
      some (complaint d.availability).toList := by
  have hend {t : Text} (h : '\x7b' ∉ t) : Template.fill d.value? t = some t := by
    simpa [Template.fill, Template.fillFrom] using Template.fill_plain d.value? h []
  have hfill {before after : Text} (hbefore : '\x7b' ∉ before) (hafter : '\x7b' ∉ after) :
      Template.fill d.value? (before ++ (Template.place "availability" ++ after)) =
        some (before ++ (d.availability.text.toList ++ after)) := by
    rw [Template.fill_place _ (by decide) hbefore, value?_availability, hend hafter]
    rfl
  unfold complaint
  split
  · refine (hfill (by decide) (by decide)).trans ?_
    simp
  · refine (hfill (by decide) (by decide)).trans ?_
    simp

/-- A message is the filled template of its kind. -/
theorem message?_eq_fill (d : Diagnostic) :
    d.message?.map String.toList =
      Template.fill d.value? (Template.select d.kind (isYear d.availability)) := by
  have hselect : Template.select d.kind (isYear d.availability) = Template.subject d.kind ++
      if isYear d.availability then Template.asOfYear else Template.notALevel := by
    rw [Template.select, Template.exchange_ofKind, Template.ofKind]
    split <;> rfl
  have hending := fill_complaint d
  rw [hselect]
  generalize (if isYear d.availability then Template.asOfYear else Template.notALevel) = ending
    at hending ⊢
  have hplace (before detail : String) (hdetail : detail ≠ "availability")
      (hbefore : '\x7b' ∉ before.toList) (hword : '\x7d' ∉ detail.toList) :
      Template.fill d.value? (before.toList ++ (Template.place detail ++ (['\''] ++ ending))) =
        (Dictionary.get? detail d.details).map fun value =>
          before.toList ++ (value.text.toList ++ '\'' :: (complaint d.availability).toList) := by
    rw [Template.fill_place _ hword hbefore, value?_detail d hdetail,
      Template.fill_plain _ (by decide), hending]
    cases Dictionary.get? detail d.details <;> rfl
  unfold message? subject? Template.subject
  cases d.kind with
  | propertyValue =>
      simp only [List.append_assoc]
      rw [Template.fill_place _ (by decide) (by decide), value?_detail d (by decide),
        hplace "' of property '" "property" (by decide) (by decide) (by decide)]
      cases Dictionary.get? "value" d.details with
      | none => rfl
      | some value =>
          cases Dictionary.get? "property" d.details with
          | none => rfl
          | some name => exact congrArg some (by simp)
  | property | atRule | selector | function | mediaCondition =>
      simp only [List.append_assoc]
      rw [hplace]
      · cases Dictionary.get? _ d.details with
        | none => rfl
        | some name => exact congrArg some (by simp)
      all_goals decide

end Diagnostic

end StyleAudit
