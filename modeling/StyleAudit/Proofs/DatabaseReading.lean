import Mathlib.Data.List.Forall2
import StyleAudit.Availability.Database
import StyleAudit.Proofs.Dictionaries

/-!
# Which documents are availability data

The entries of a section are put into a dictionary under their keys in small letters
before any of them is read. Keys that differ in the document can agree in small letters,
and of such entries only the last is still there to be read: what is wrong with the
others goes unnoticed. `Malformed` says what can be wrong with a document, given which
entries are looked at, and the main statement is that a document is rejected if and only
if it is malformed with regard to the entries that count.

All the steps of reading are of one form, a run over a list that ends with the first
failure, so success is described by one lemma for the run (`mapM_eq_ok_iff`), one for a
section and one for an entry.
-/

namespace StyleAudit

theorem exists_left_of_forall₂ {α β : Type} {R : α → β → Prop} {xs : List α} {ys : List β}
    (h : List.Forall₂ R xs ys) {y : β} (hy : y ∈ ys) : ∃ x ∈ xs, R x y := by
  induction h with
  | nil => cases hy
  | @cons x _ xs _ hxy _ ih =>
      rcases List.mem_cons.1 hy with rfl | hy
      · exact ⟨x, List.mem_cons_self, hxy⟩
      · obtain ⟨x', hx', hR⟩ := ih hy
        exact ⟨x', List.mem_cons_of_mem _ hx', hR⟩

theorem exists_right_of_forall₂ {α β : Type} {R : α → β → Prop} {xs : List α} {ys : List β}
    (h : List.Forall₂ R xs ys) {x : α} (hx : x ∈ xs) : ∃ y ∈ ys, R x y :=
  exists_left_of_forall₂ h.flip hx

theorem mapM_eq_ok_iff {α β ε : Type} {f : α → Except ε β} {xs : List α} {ys : List β} :
    xs.mapM f = .ok ys ↔ List.Forall₂ (fun x y => f x = .ok y) xs ys := by
  induction xs generalizing ys with
  | nil =>
      rw [List.mapM_nil, List.forall₂_nil_left_iff]
      exact ⟨fun h => (Except.ok.inj h).symm, fun h => h ▸ rfl⟩
  | cons x xs ih =>
      rw [List.mapM_cons, List.forall₂_cons_left_iff]
      constructor
      · intro h
        cases hx : f x with
        | error e =>
            rw [hx] at h
            cases h
        | ok y =>
            rw [hx] at h
            cases hxs : xs.mapM f with
            | error e =>
                rw [hxs] at h
                cases h
            | ok zs =>
                rw [hxs] at h
                cases h
                exact ⟨y, zs, rfl, ih.1 hxs, rfl⟩
      · rintro ⟨y, zs, hx, hxs, rfl⟩
        rw [hx, ih.2 hxs]
        rfl

theorem exists_mapM_eq_ok_iff {α β ε : Type} {f : α → Except ε β} {xs : List α} :
    (∃ ys, xs.mapM f = .ok ys) ↔ ∀ x ∈ xs, ∃ y, f x = .ok y := by
  simp only [mapM_eq_ok_iff]
  induction xs with
  | nil => exact iff_of_true ⟨[], .nil⟩ (List.forall_mem_nil _)
  | cons x xs ih =>
      rw [List.forall_mem_cons, ← ih]
      constructor
      · rintro ⟨_, _ | ⟨hx, hxs⟩⟩
        exact ⟨⟨_, hx⟩, _, hxs⟩
      · rintro ⟨⟨y, hx⟩, ys, hxs⟩
        exact ⟨y :: ys, .cons hx hxs⟩

namespace Database

/-! ## Entries -/

/-- What it means that an entry spells a record. -/
structure Spells (entry : Json) (kind : Feature.Kind) (key : Text) (r : Record) : Prop where
  key : r.key = key
  kind : r.kind = kind
  status : entry.get? "status" = some (.str r.status.word)
  since : entry.get? "since" = r.since.map .int ∨
    r.since = none ∧ entry.get? "since" = some .null

/-- What can be wrong with an entry: it is no object, its status is none of the three
words, or there is a year that is neither null nor an integer. -/
inductive Faulty (entry : Json) : Prop where
  | notAnObject (h : entry.members? = none)
  | status (h : ∀ s : Status, entry.get? "status" ≠ some (.str s.word))
  | since {value : Json} (h : entry.get? "since" = some value) (hnull : value ≠ .null)
      (hyear : ∀ year, value ≠ .int year)

theorem ofWord?_eq_some {word : String} {s : Status} :
    Status.ofWord? word = some s ↔ word = s.word := by
  constructor
  · intro h
    have hfound := List.find?_some (p := fun x : Status => decide (x.word = word)) h
    exact (of_decide_eq_true hfound).symm
  · rintro rfl
    cases s <;> rfl

theorem status_eq_some {value? : Option Json} {s : Status} :
    (value?.getD .null).string?.bind Status.ofWord? = some s ↔ value? = some (.str s.word) := by
  cases value? with
  | none => constructor <;> intro h <;> cases h
  | some value =>
      cases value with
      | str word =>
          rw [Option.some.injEq, Json.str.injEq]
          exact ofWord?_eq_some
      | _ => constructor <;> intro h <;> cases h

theorem record_eq_ok_iff {kind : Feature.Kind} {key : Text} {entry : Json} {r : Record} :
    record kind key entry = .ok r ↔ Spells entry kind key r := by
  cases entry with
  | obj members =>
      unfold record
      simp only [Json.members?]
      constructor
      · intro h
        split at h
        · next s hs =>
            have hstatus := status_eq_some.1 hs
            split at h
            · next hsince =>
                cases h
                refine ⟨rfl, rfl, hstatus, ?_⟩
                rcases Option.getD_eq_iff.1 hsince with hnull | ⟨hnone, -⟩
                · exact .inr ⟨rfl, hnull⟩
                · exact .inl hnone
            · next year hsince =>
                cases h
                rcases Option.getD_eq_iff.1 hsince with hyear | ⟨-, hnone⟩
                · exact ⟨rfl, rfl, hstatus, .inl hyear⟩
                · cases hnone
            · cases h
        · cases h
      · rintro ⟨rfl, rfl, hstatus, hsince⟩
        have hget : ∀ name, (Json.obj members).get? name = Dictionary.get? name members :=
          fun _ => rfl
        rw [hget] at hstatus hsince
        obtain ⟨key, kind, status, since⟩ := r
        rw [status_eq_some.2 hstatus]
        rcases hsince with hsince | ⟨hnone, hnull⟩
        · rw [hsince]
          cases since <;> rfl
        · rw [hnull]
          cases hnone
          rfl
  | _ =>
      constructor
      · intro h
        cases h
      · intro h
        cases h.status

/-- A year is left out, null or an integer, or there is something wrong with it. -/
theorem exists_record_iff {kind : Feature.Kind} {key : Text} {entry : Json} :
    (∃ r, record kind key entry = .ok r) ↔ ¬ Faulty entry := by
  simp only [record_eq_ok_iff]
  constructor
  · rintro ⟨r, -, -, hstatus, hsince⟩ hfaulty
    cases hfaulty with
    | notAnObject h =>
        rw [Json.get?, h] at hstatus
        cases hstatus
    | status h => exact h r.status hstatus
    | since h hnull hyear =>
        rw [h] at hsince
        rcases hsince with hsince | ⟨-, hsince⟩
        · cases hr : r.since with
          | none =>
              rw [hr] at hsince
              cases hsince
          | some year =>
              rw [hr] at hsince
              exact hyear year (Option.some.inj hsince)
        · exact hnull (Option.some.inj hsince)
  · intro hsound
    have hstatus : ∃ s : Status, entry.get? "status" = some (.str s.word) :=
      not_forall_not.1 fun h => hsound (.status h)
    obtain ⟨s, hs⟩ := hstatus
    cases hsince : entry.get? "since" with
    | none => exact ⟨⟨key, kind, s, none⟩, rfl, rfl, hs, .inl hsince⟩
    | some value =>
        by_cases hnull : value = .null
        · exact ⟨⟨key, kind, s, none⟩, rfl, rfl, hs, .inr ⟨rfl, by rw [hsince, hnull]⟩⟩
        · by_cases hyear : ∃ year, value = .int year
          · obtain ⟨year, rfl⟩ := hyear
            exact ⟨⟨key, kind, s, some year⟩, rfl, rfl, hs, .inl hsince⟩
          · exact absurd (.since hsince hnull fun year h => hyear ⟨year, h⟩) hsound

/-! ## Sections -/

/-- The members of the section of a kind; none if it is missing or no object. -/
def sectionMembers (json : Json) (kind : Feature.Kind) : Dictionary String Json :=
  ((json.get? kind.sectionName).bind Json.members?).getD []

/-- The entries of the section of a kind as they stand in a document, each under its key
in small letters. In the section of property values this is made of the name of the
property and that of the value. -/
def entriesIn (json : Json) : Feature.Kind → List (Text × Json)
  | .propertyValue => (sectionMembers json .propertyValue).flatMap fun property =>
      (property.2.members?.getD []).map fun value =>
        (Text.lower property.1.toList ++ ':' :: Text.lower value.1.toList, value.2)
  | kind => (sectionMembers json kind).map fun m => (Text.lower m.1.toList, m.2)

/-- What it means that a section has the form of one, whatever its entries are: it is
missing or an object, and the values of each property are an object. -/
structure Formed (json : Json) (kind : Feature.Kind) : Prop where
  object : ∀ value, json.get? kind.sectionName = some value → value.members?.isSome = true
  values : kind = .propertyValue →
    ∀ property ∈ sectionMembers json kind, property.2.members?.isSome = true

/-- What can be wrong with a document, if of its entries those are looked at that are
said to be: it is no object, a section is there and no object, the values of a property
are no object, or an entry is faulty. -/
inductive Malformed (json : Json) (looked : Feature.Kind → Text → Json → Prop) : Prop where
  | document (h : json.members? = none)
  | notASection {kind : Feature.Kind} {value : Json} (h : json.get? kind.sectionName = some value)
      (hvalue : value.members? = none)
  | values {property : String × Json} (h : property ∈ sectionMembers json .propertyValue)
      (hproperty : property.2.members? = none)
  | entry {kind : Feature.Kind} {key : Text} {entry : Json} (h : looked kind key entry)
      (hentry : Faulty entry)

theorem mapM_valueEntries? (members : Dictionary String Json) :
    (members.mapM fun m => valueEntries? m.1.toList m.2).map List.flatten =
      if ∀ m ∈ members, m.2.members?.isSome = true then
        some (members.flatMap fun property =>
          (property.2.members?.getD []).map fun value =>
            (Text.lower property.1.toList ++ ':' :: Text.lower value.1.toList, value.2))
      else none := by
  induction members with
  | nil => rfl
  | cons m members ih =>
      rw [List.mapM_cons, List.flatMap_cons]
      cases hm : m.2.members? with
      | none =>
          rw [if_neg fun h => by simpa [hm] using h m List.mem_cons_self, valueEntries?, hm]
          rfl
      | some values =>
          have hall : (∀ p ∈ m :: members, p.2.members?.isSome = true) ↔
              ∀ p ∈ members, p.2.members?.isSome = true := by
            rw [List.forall_mem_cons, hm]
            exact and_iff_right rfl
          have hstep : ∀ (first : List (Text × Json)) (rest : Option (List (List (Text × Json)))),
              (rest.bind fun rest => some (first :: rest)).map List.flatten =
                (rest.map List.flatten).map (first ++ ·) := by
            intro first rest
            cases rest <;> rfl
          rw [valueEntries?, hm]
          refine (hstep _ _).trans ?_
          rw [ih]
          by_cases hmembers : ∀ p ∈ members, p.2.members?.isSome = true
          · rw [if_pos hmembers, if_pos (hall.2 hmembers)]
            rfl
          · rw [if_neg hmembers, if_neg (mt hall.1 hmembers)]
            rfl

theorem sectionEntries?_of_values {json : Json} {kind : Feature.Kind}
    (h : kind = .propertyValue →
      ∀ property ∈ sectionMembers json kind, property.2.members?.isSome = true) :
    sectionEntries? kind (sectionMembers json kind) = some (entriesIn json kind) := by
  cases kind with
  | propertyValue => rw [sectionEntries?, mapM_valueEntries?, if_pos (h rfl), entriesIn]
  | _ => rfl

theorem values_of_sectionEntries? {json : Json} {kind : Feature.Kind}
    {entries : List (Text × Json)}
    (h : sectionEntries? kind (sectionMembers json kind) = some entries) :
    kind = .propertyValue →
      ∀ property ∈ sectionMembers json kind, property.2.members?.isSome = true := by
  rintro rfl
  rw [sectionEntries?, mapM_valueEntries?] at h
  split at h
  · assumption
  · cases h

section reading

variable {members : Dictionary String Json} {kind : Feature.Kind}

theorem sectionRecords_of_formed (h : Formed (.obj members) kind) :
    sectionRecords members kind =
      (Dictionary.ofList (entriesIn (.obj members) kind)).mapM
        fun e => do return ((kind, e.1), ← record kind e.1 e.2) := by
  have hentries := sectionEntries?_of_values h.values
  have hobject := h.object
  unfold sectionRecords
  unfold sectionMembers at hentries
  cases hsection : Dictionary.get? kind.sectionName members with
  | none =>
      have hget : (Json.obj members).get? kind.sectionName = none := hsection
      rw [hget] at hentries
      have hempty : sectionEntries? kind [] = some (entriesIn (.obj members) kind) := hentries
      simp only [pure_bind, hempty]
  | some value =>
      have hget : (Json.obj members).get? kind.sectionName = some value := hsection
      obtain ⟨inner, hinner⟩ := Option.isSome_iff_exists.1 (hobject value hget)
      rw [hget, Option.bind_some, hinner, Option.getD_some] at hentries
      simp only [hinner, pure_bind, hentries]

theorem formed_of_sectionRecords {records : List (Feature.Key × Record)}
    (h : sectionRecords members kind = .ok records) : Formed (.obj members) kind := by
  unfold sectionRecords at h
  cases hsection : Dictionary.get? kind.sectionName members with
  | none =>
      have hget : (Json.obj members).get? kind.sectionName = none := hsection
      refine ⟨fun value hvalue => ?_, fun _ property hproperty => ?_⟩
      · rw [hget] at hvalue
        cases hvalue
      · rw [sectionMembers, hget] at hproperty
        cases hproperty
  | some value =>
      have hget : (Json.obj members).get? kind.sectionName = some value := hsection
      cases hinner : value.members? with
      | none =>
          simp only [hsection, hinner] at h
          cases h
      | some inner =>
          have hmembers : sectionMembers (.obj members) kind = inner := by
            rw [sectionMembers, hget, Option.bind_some, hinner, Option.getD_some]
          cases hentries : sectionEntries? kind inner with
          | none =>
              simp only [hsection, hinner, pure_bind, hentries] at h
              cases h
          | some entries =>
              refine ⟨fun value' hvalue => ?_, values_of_sectionEntries? (hmembers ▸ hentries)⟩
              rw [hget, Option.some.injEq] at hvalue
              rw [← hvalue, hinner]
              rfl

theorem keyed_eq_ok_iff {e : Text × Json} {p : Feature.Key × Record} :
    (do return ((kind, e.1), ← record kind e.1 e.2) : Except DatabaseError _) = .ok p ↔
      p.1 = (kind, e.1) ∧ Spells e.2 kind e.1 p.2 := by
  rw [← record_eq_ok_iff]
  cases record kind e.1 e.2 with
  | error =>
      constructor
      · intro h
        cases h
      · intro h
        cases h.2
  | ok r =>
      constructor
      · intro h
        cases h
        exact ⟨rfl, rfl⟩
      · rintro ⟨hkey, hrecord⟩
        obtain ⟨key, r'⟩ := p
        cases hkey
        cases hrecord
        rfl

theorem sectionRecords_eq_ok_iff {records : List (Feature.Key × Record)} :
    sectionRecords members kind = .ok records ↔
      Formed (.obj members) kind ∧
        List.Forall₂ (fun e p => p.1 = (kind, e.1) ∧ Spells e.2 kind e.1 p.2)
          (Dictionary.ofList (entriesIn (.obj members) kind)) records := by
  constructor
  · intro h
    have hformed := formed_of_sectionRecords h
    rw [sectionRecords_of_formed hformed, mapM_eq_ok_iff] at h
    simp only [keyed_eq_ok_iff] at h
    exact ⟨hformed, h⟩
  · rintro ⟨hformed, h⟩
    rw [sectionRecords_of_formed hformed, mapM_eq_ok_iff]
    simp only [keyed_eq_ok_iff]
    exact h

theorem exists_sectionRecords_iff :
    (∃ records, sectionRecords members kind = .ok records) ↔
      Formed (.obj members) kind ∧
        ∀ e ∈ Dictionary.ofList (entriesIn (.obj members) kind), ¬ Faulty e.2 := by
  constructor
  · rintro ⟨records, h⟩
    have hformed := formed_of_sectionRecords h
    rw [sectionRecords_of_formed hformed] at h
    refine ⟨hformed, fun e he => ?_⟩
    obtain ⟨p, hp⟩ := exists_mapM_eq_ok_iff.1 ⟨records, h⟩ e he
    exact exists_record_iff.1 ⟨p.2, record_eq_ok_iff.2 (keyed_eq_ok_iff.1 hp).2⟩
  · rintro ⟨hformed, h⟩
    rw [sectionRecords_of_formed hformed, exists_mapM_eq_ok_iff]
    intro e he
    obtain ⟨r, hr⟩ := exists_record_iff.2 (h e he)
    exact ⟨((kind, e.1), r), keyed_eq_ok_iff.2 ⟨rfl, record_eq_ok_iff.1 hr⟩⟩

end reading

/-! ## Documents -/

theorem ofJson_eq_ok_iff {json : Json} {db : Database} :
    ofJson json = .ok db ↔
      ∃ members sections, json = .obj members ∧
        Feature.Kind.all.mapM (sectionRecords members) = .ok sections ∧
        db = ⟨((Dictionary.get? "version" members).getD (.str "")).text,
          Dictionary.ofList sections.flatten⟩ := by
  unfold ofJson
  cases json with
  | obj members =>
      simp only [Json.members?]
      cases hsections : Feature.Kind.all.mapM (sectionRecords members) with
      | error =>
          refine iff_of_false (fun h => by cases h) ?_
          rintro ⟨_, _, hjson, h, -⟩
          cases hjson
          rw [hsections] at h
          cases h
      | ok sections =>
          constructor
          · intro h
            cases h
            exact ⟨members, sections, rfl, hsections, rfl⟩
          · rintro ⟨_, _, hjson, h, rfl⟩
            cases hjson
            rw [hsections] at h
            cases h
            rfl
  | _ =>
      constructor
      · intro h
        cases h
      · rintro ⟨_, _, h, -⟩
        cases h

theorem mem_all (kind : Feature.Kind) : kind ∈ Feature.Kind.all := by
  cases kind <;> decide

theorem exists_ofJson_iff {json : Json} :
    (∃ db, ofJson json = .ok db) ↔
      ¬ Malformed json fun kind => Dictionary.Last (entriesIn json kind) := by
  constructor
  · rintro ⟨db, h⟩ hmalformed
    obtain ⟨members, sections, rfl, hsections, -⟩ := ofJson_eq_ok_iff.1 h
    have hread := fun kind => exists_sectionRecords_iff.1
      (exists_mapM_eq_ok_iff.1 ⟨sections, hsections⟩ kind (mem_all kind))
    cases hmalformed with
    | document h => cases h
    | @notASection kind value h hvalue =>
        have hobject := (hread kind).1.object value h
        rw [hvalue] at hobject
        cases hobject
    | @values property h hproperty =>
        have hvalues := (hread .propertyValue).1.values rfl property h
        rw [hproperty] at hvalues
        cases hvalues
    | @entry kind key entry h hentry =>
        exact (hread kind).2 (key, entry) (Dictionary.mem_ofList.2 h) hentry
  · intro hsound
    cases json with
    | obj members =>
        have hread : ∀ kind ∈ Feature.Kind.all, ∃ records,
            sectionRecords members kind = .ok records := by
          intro kind _
          refine exists_sectionRecords_iff.2 ⟨⟨fun value h => ?_, ?_⟩, ?_⟩
          · by_contra hvalue
            exact hsound (.notASection h (Option.not_isSome_iff_eq_none.1 hvalue))
          · rintro rfl property h
            by_contra hproperty
            exact hsound (.values h (Option.not_isSome_iff_eq_none.1 hproperty))
          · exact fun e he hfaulty => hsound (.entry (Dictionary.mem_ofList.1 he) hfaulty)
        obtain ⟨sections, hsections⟩ := exists_mapM_eq_ok_iff.2 hread
        exact ⟨_, ofJson_eq_ok_iff.2 ⟨members, sections, rfl, hsections, rfl⟩⟩
    | _ => exact absurd (.document rfl) hsound

theorem exists_error_iff {ε α : Type} (x : Except ε α) :
    (∃ e, x = .error e) ↔ ¬ ∃ a, x = .ok a := by
  cases x with
  | error e =>
      refine iff_of_true ⟨e, rfl⟩ ?_
      rintro ⟨a, h⟩
      cases h
  | ok a =>
      refine iff_of_false ?_ fun h => h ⟨a, rfl⟩
      rintro ⟨e, h⟩
      cases h

theorem Malformed.mono {json : Json} {looked looked' : Feature.Kind → Text → Json → Prop}
    (h : Malformed json looked)
    (himp : ∀ kind key entry, looked kind key entry → looked' kind key entry) :
    Malformed json looked' := by
  cases h with
  | document h => exact .document h
  | notASection h hvalue => exact .notASection h hvalue
  | values h hproperty => exact .values h hproperty
  | entry h hentry => exact .entry (himp _ _ _ h) hentry

/-- A document is rejected if and only if it is malformed with regard to the entries that
count, of which there is one to a key in small letters; if it is not rejected, a database
is read. What is rejected is always malformed, and where no two keys of a section agree in
small letters, all that is malformed is rejected. The limits of an interpreter, on the depth
of a recursion and on the digits of an integer that is told (4300), are not considered. -/
theorem rejected_iff_malformed (json : Json) :
    ((∃ error, ofJson json = .error error) ↔
        Malformed json fun kind => Dictionary.Last (entriesIn json kind)) ∧
      ((∃ db, ofJson json = .ok db) ↔
        ¬ Malformed json fun kind => Dictionary.Last (entriesIn json kind)) ∧
      ((∃ error, ofJson json = .error error) →
        Malformed json fun kind key entry => (key, entry) ∈ entriesIn json kind) ∧
      ((∀ kind, (Dictionary.keys (entriesIn json kind)).Nodup) →
        ((∃ error, ofJson json = .error error) ↔
          Malformed json fun kind key entry => (key, entry) ∈ entriesIn json kind)) := by
  have hrejected : (∃ error, ofJson json = .error error) ↔
      Malformed json fun kind => Dictionary.Last (entriesIn json kind) := by
    rw [exists_error_iff, exists_ofJson_iff, not_not]
  refine ⟨hrejected, exists_ofJson_iff, fun h => ?_, fun hnodup => ?_⟩
  · exact (hrejected.1 h).mono fun _ _ _ hlast => hlast.mem
  · rw [hrejected]
    refine ⟨fun h => h.mono fun _ _ _ hlast => hlast.mem, fun h => h.mono ?_⟩
    intro kind key entry hmem
    rw [← Dictionary.mem_ofList, Dictionary.ofList_of_nodup (hnodup kind)]
    exact hmem

/-- Two values of a property, whose keys differ, and the year of the second is a truth
value. -/
theorem rejected_iff_malformed_year :
    let json : Json := .obj [("propertyValues", .obj [("Color", .obj [
      ("red", .obj [("status", .str "widely"), ("since", .int 2015)]),
      ("Blue", .obj [("status", .str "newly"), ("since", .bool true)])])])]
    (∀ kind, (Dictionary.keys (entriesIn json kind)).Nodup) ∧
      ∃ error, ofJson json = .error error := by
  intro json
  have hnodup : ∀ kind, (Dictionary.keys (entriesIn json kind)).Nodup := by
    intro kind
    cases kind <;> decide +kernel
  refine ⟨hnodup, ((rejected_iff_malformed json).2.2.2 hnodup).2 ?_⟩
  have hentry : ("color:blue".toList, .obj [("status", .str "newly"), ("since", .bool true)]) ∈
      entriesIn json .propertyValue := by
    decide +kernel
  exact .entry hentry (.since rfl (by decide) fun year h => by cases h)

/-- An entry with a status that is none is not noticed if a later one has the same key in
small letters. -/
theorem faulty_entry_accepted :
    let json : Json := .obj [("properties", .obj [
      ("A", .obj [("status", .str "sometimes")]), ("a", .obj [("status", .str "widely")])])]
    (Malformed json fun kind key entry => (key, entry) ∈ entriesIn json kind) ∧
      ¬ ∃ error, ofJson json = .error error := by
  intro json
  have hentry : ("a".toList, .obj [("status", .str "sometimes")]) ∈ entriesIn json .property := by
    decide +kernel
  have hread : ofJson json = .ok ⟨"", [((.property, ['a']), ⟨['a'], .property, .widely, none⟩)]⟩ :=
    rfl
  refine ⟨.entry hentry (.status ?_), ?_⟩
  · intro s
    cases s <;> decide
  · rintro ⟨error, herror⟩
    rw [hread] at herror
    cases herror

end Database

end StyleAudit
