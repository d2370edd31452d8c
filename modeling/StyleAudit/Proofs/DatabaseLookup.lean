import StyleAudit.Proofs.DatabaseReading
import StyleAudit.Proofs.SmallLetters

/-!
# What is found in availability data

Keys are put into small letters three times: when a document is read, when a database is
made from records, and when a record is looked up. The key of a value is even joined from
two halves that are in small letters already, and then looked up by the small form of the
whole. That none of this makes a difference is one fact about letters, `Text.lower_joined`.

The sections of a document are dictionaries of their own before they are joined, and they
have no key in common, as the kind is part of it. So the dictionary of the whole is just
the sections in a row (`entries_eq_flatten`), and what is said of one section holds of all.
-/

namespace StyleAudit

namespace Database

/-! ## Keys in small letters -/

theorem lower_of_mem_keys {json : Json} {kind : Feature.Kind} {key : Text}
    (h : key ∈ Dictionary.keys (entriesIn json kind)) : Text.lower key = key := by
  obtain ⟨entry, hmem⟩ := Dictionary.mem_keys.1 h
  cases kind with
  | propertyValue =>
      obtain ⟨property, -, hvalue⟩ := List.mem_flatMap.1 hmem
      obtain ⟨value, -, heq⟩ := List.mem_map.1 hvalue
      cases heq
      exact Text.lower_joined _ _
  | _ =>
      obtain ⟨m, -, heq⟩ := List.mem_map.1 hmem
      cases heq
      exact Text.lower_lower _

theorem Spells.unique {entry : Json} {kind : Feature.Kind} {key : Text} {r r' : Record}
    (h : Spells entry kind key r) (h' : Spells entry kind key r') : r = r' :=
  Except.ok.inj ((record_eq_ok_iff.2 h).symm.trans (record_eq_ok_iff.2 h'))

/-! ## The sections in a row -/

section sections

variable {members : Dictionary String Json} {kinds : List Feature.Kind}
  {sections : List (List (Feature.Key × Record))}

/-- The records of a section, in the order in which their keys first occur in it. -/
theorem keys_of_sectionRecords {kind : Feature.Kind} {records : List (Feature.Key × Record)}
    (h : sectionRecords members kind = .ok records) :
    Dictionary.keys records =
      (Dictionary.keys (entriesIn (.obj members) kind)).eraseDups.map fun key => (kind, key) := by
  rw [sectionRecords_eq_ok_iff] at h
  obtain ⟨-, h⟩ := h
  rw [← Dictionary.keys_ofList]
  generalize Dictionary.ofList (entriesIn (.obj members) kind) = entries at h
  induction h with
  | nil => rfl
  | cons hp _ ih => exact List.cons_eq_cons.2 ⟨hp.1, ih⟩

theorem keys_flatten
    (h : List.Forall₂ (fun kind records => sectionRecords members kind = .ok records)
      kinds sections) :
    Dictionary.keys sections.flatten = kinds.flatMap fun kind =>
      (Dictionary.keys (entriesIn (.obj members) kind)).eraseDups.map fun key => (kind, key) := by
  induction h with
  | nil => rfl
  | cons hrecords _ ih =>
      rw [List.flatten_cons, Dictionary.keys_append, ih, keys_of_sectionRecords hrecords,
        List.flatMap_cons]

end sections

/-- Kinds and keys as they are listed, of which none occurs twice. -/
theorem nodup_listed (json : Json) :
    (Feature.Kind.all.flatMap fun kind =>
      (Dictionary.keys (entriesIn json kind)).eraseDups.map fun key => (kind, key)).Nodup := by
  rw [List.nodup_flatMap]
  constructor
  · intro kind _
    rw [← Dictionary.keys_ofList]
    exact (Dictionary.nodup_keys_ofList _).map fun _ _ heq => (Prod.mk.inj heq).2
  · have hkinds : Feature.Kind.all.Nodup := by decide
    refine hkinds.imp fun hne p ha hb => ?_
    obtain ⟨_, -, rfl⟩ := List.mem_map.1 ha
    obtain ⟨_, -, heq⟩ := List.mem_map.1 hb
    exact hne (congrArg Prod.fst heq).symm

section lookup

variable {json : Json} {db : Database} (h : ofJson json = .ok db)
include h

theorem entries_eq_flatten :
    ∃ members sections, json = .obj members ∧
      List.Forall₂ (fun kind records => sectionRecords members kind = .ok records)
        Feature.Kind.all sections ∧
      db.entries = sections.flatten := by
  obtain ⟨members, sections, rfl, hsections, rfl⟩ := ofJson_eq_ok_iff.1 h
  rw [mapM_eq_ok_iff] at hsections
  refine ⟨members, sections, rfl, hsections, Dictionary.ofList_of_nodup ?_⟩
  rw [keys_flatten hsections]
  exact nodup_listed _

theorem keys_entries :
    Dictionary.keys db.entries = Feature.Kind.all.flatMap fun kind =>
      (Dictionary.keys (entriesIn json kind)).eraseDups.map fun key => (kind, key) := by
  obtain ⟨members, sections, rfl, hsections, hentries⟩ := entries_eq_flatten h
  rw [hentries, keys_flatten hsections]

/-- A record is there for the last entry with its key, and for no other. -/
theorem mem_entries {kind : Feature.Kind} {key : Text} {r : Record} :
    ((kind, key), r) ∈ db.entries ↔
      ∃ entry, Dictionary.Last (entriesIn json kind) key entry ∧ Spells entry kind key r := by
  obtain ⟨members, sections, rfl, hsections, hentries⟩ := entries_eq_flatten h
  rw [hentries]
  constructor
  · intro hmem
    obtain ⟨records, hrecords, hmem⟩ := List.mem_flatten.1 hmem
    obtain ⟨kind', -, hread⟩ := exists_left_of_forall₂ hsections hrecords
    obtain ⟨⟨key', entry⟩, hentry, hkey, hspells⟩ :=
      exists_left_of_forall₂ (sectionRecords_eq_ok_iff.1 hread).2 hmem
    cases hkey
    exact ⟨entry, Dictionary.mem_ofList.1 hentry, hspells⟩
  · rintro ⟨entry, hlast, hspells⟩
    obtain ⟨records, hrecords, hread⟩ := exists_right_of_forall₂ hsections (mem_all kind)
    obtain ⟨⟨key', r'⟩, hmem, hkey, hspells'⟩ :=
      exists_right_of_forall₂ (sectionRecords_eq_ok_iff.1 hread).2 (Dictionary.mem_ofList.2 hlast)
    cases hkey
    rw [hspells.unique hspells']
    exact List.mem_flatten.2 ⟨records, hrecords, hmem⟩

theorem nodup_keys_entries : (Dictionary.keys db.entries).Nodup := by
  rw [keys_entries h]
  exact nodup_listed json

theorem get?_eq_some_iff {kind : Feature.Kind} {key : Text} {r : Record} :
    db.get? kind key = some r ↔
      ∃ entry, Dictionary.Last (entriesIn json kind) (Text.lower key) entry ∧
        Spells entry kind (Text.lower key) r := by
  rw [← mem_entries h]
  exact ⟨Dictionary.mem_of_get?_eq_some, Dictionary.get?_of_mem (nodup_keys_entries h)⟩

/-- What a record is listed under is its own kind and key, and this is in small letters. -/
theorem keyed_of_mem_entries {p : Feature.Key × Record} (hp : p ∈ db.entries) :
    (p.2.kind, p.2.key) = p.1 ∧ Text.lower p.2.key = p.2.key := by
  obtain ⟨⟨kind, key⟩, r⟩ := p
  obtain ⟨entry, hlast, hspells⟩ := (mem_entries h).1 hp
  have hkey := lower_of_mem_keys (Dictionary.mem_keys.2 ⟨entry, hlast.mem⟩)
  dsimp only
  rw [hspells.kind, hspells.key]
  exact ⟨rfl, hkey⟩

end lookup

/-- What it means that a database says what a document says. Under a key in letters of
any case stands the record of the last entry whose key agrees with it in small letters,
and none if there is no such entry. Listed are the keys of the document in small letters,
each once, by kind and then in the order in which they first occur. -/
structure Mirrors (json : Json) (db : Database) : Prop where
  found : ∀ kind key r, db.get? kind key = some r ↔
    ∃ entry, Dictionary.Last (entriesIn json kind) (Text.lower key) entry ∧
      Spells entry kind (Text.lower key) r
  absent : ∀ kind key, db.get? kind key = none ↔
    Text.lower key ∉ Dictionary.keys (entriesIn json kind)
  contained : ∀ kind key, db.contains kind key = true ↔ ∃ r, db.get? kind key = some r
  listed : db.records.map (fun r => (r.kind, r.key)) =
    Feature.Kind.all.flatMap fun kind =>
      (Dictionary.keys (entriesIn json kind)).eraseDups.map fun key => (kind, key)
  once : (db.records.map fun r => (r.kind, r.key)).Nodup

theorem map_records {json : Json} {db : Database} (h : ofJson json = .ok db) :
    db.records.map (fun r => (r.kind, r.key)) = Dictionary.keys db.entries := by
  rw [records, Dictionary.values, List.map_map, Dictionary.keys]
  exact List.map_congr_left fun p hp => (keyed_of_mem_entries h hp).1

theorem mirrors_of_ofJson {json : Json} {db : Database} (h : ofJson json = .ok db) :
    Mirrors json db where
  found _ _ _ := get?_eq_some_iff h
  absent kind key := by
    rw [get?, Dictionary.get?_eq_none, keys_entries h]
    refine not_congr ?_
    simp only [List.mem_flatMap, List.mem_map, List.mem_eraseDups, Prod.mk.injEq]
    constructor
    · rintro ⟨_, -, _, hmem, rfl, rfl⟩
      exact hmem
    · exact fun hmem => ⟨kind, mem_all kind, _, hmem, rfl, rfl⟩
  contained kind key := by rw [contains, Option.isSome_iff_exists]
  listed := (map_records h).trans (keys_entries h)
  once := by
    rw [map_records h]
    exact nodup_keys_entries h

theorem entries_ofRecords {json : Json} {db : Database} (h : ofJson json = .ok db)
    (version : String) : (ofRecords version db.records).entries = db.entries := by
  have hsame : ∀ p ∈ db.entries, ((p.2.kind, Text.lower p.2.key), p.2) = id p := by
    intro p hp
    obtain ⟨hkey, hlower⟩ := keyed_of_mem_entries h hp
    rw [hlower, hkey]
    rfl
  have hpairs : db.records.map (fun r => ((r.kind, Text.lower r.key), r)) = db.entries := by
    rw [records, Dictionary.values, List.map_map]
    exact (List.map_congr_left hsame).trans (List.map_id _)
  rw [ofRecords, hpairs]
  exact Dictionary.ofList_of_nodup (nodup_keys_entries h)

/-- Every document that is read is mirrored by the database that is read from it, and the
records of this database, taken in order, make a database that lists the same and in which
the same is found. -/
theorem lookup_mirrors_document {json : Json} {db : Database} (h : ofJson json = .ok db) :
    Mirrors json db ∧ ∀ version,
      (ofRecords version db.records).records = db.records ∧
        ∀ kind key, (ofRecords version db.records).get? kind key = db.get? kind key := by
  refine ⟨mirrors_of_ofJson h, fun version => ⟨?_, fun kind key => ?_⟩⟩
  · rw [records, entries_ofRecords h, records]
  · rw [get?, entries_ofRecords h, get?]

/-- The later of two entries counts. Of the two halves of a key each has a sigma of its
own, which is the final one behind a word; in the whole in capitals the first would not be
final and the second would, so under that nothing is found. -/
theorem lookup_mirrors_document_sigma :
    let newly : Json := .obj [("status", .str "newly")]
    let widely : Json := .obj [("status", .str "widely"), ("since", .int 2017)]
    let json : Json := .obj [
      ("propertyValues", .obj [("ΟΔΟΣ", .obj [("Σ", newly)])]),
      ("properties", .obj [("Gap", newly), ("gaP", widely)])]
    ∃ db, ofJson json = .ok db ∧
      db.get? .property "GAP".toList = some ⟨"gap".toList, .property, .widely, some 2017⟩ ∧
      (ofRecords "" db.records).get? .propertyValue "Οδος:σ".toList =
        some ⟨"οδος:σ".toList, .propertyValue, .newly, none⟩ ∧
      db.get? .propertyValue "ΟΔΟΣ:Σ".toList = none := by
  intro newly widely json
  obtain ⟨db, h⟩ : ∃ db, ofJson json = .ok db := by
    have hread : (ofJson json).toBool = true := by decide +kernel
    cases h : ofJson json with
    | error =>
        rw [h] at hread
        cases hread
    | ok db => exact ⟨db, rfl⟩
  obtain ⟨hmirrors, hrebuilt⟩ := lookup_mirrors_document h
  refine ⟨db, h, ?_, ?_, ?_⟩
  · have hentries : entriesIn json .property = [("gap".toList, newly), ("gap".toList, widely)] := by
      decide +kernel
    refine (hmirrors.found _ _ _).2
      ⟨widely, ⟨[("gap".toList, newly)], [], ?_, List.not_mem_nil⟩, ?_⟩
    · rw [hentries]
      rfl
    · exact ⟨rfl, rfl, rfl, .inl rfl⟩
  · rw [(hrebuilt "").2]
    have hentries : entriesIn json .propertyValue = [("οδος:σ".toList, newly)] := by
      decide +kernel
    refine (hmirrors.found _ _ _).2 ⟨newly, ⟨[], [], ?_, List.not_mem_nil⟩, ?_⟩
    · rw [hentries]
      decide +kernel
    · exact ⟨by decide +kernel, rfl, rfl, .inl rfl⟩
  · refine (hmirrors.absent _ _).2 ?_
    decide +kernel

end Database

end StyleAudit
