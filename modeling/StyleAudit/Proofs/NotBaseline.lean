import StyleAudit.Proofs.DatabaseLookup
import StyleAudit.Proofs.Occurrences

/-!
# When a feature outside the baseline is accepted

A record has a status and, apart from it, a year or none. The two levels of a
threshold ask for the status alone, and a feature that is not in the baseline
meets neither. A year asks for the year alone. Nothing ties the two together:
the reader of availability data takes the year of an entry whatever its status,
so a feature can be outside the baseline and still have a year, and then every
threshold from that year on accepts it.

The main statement gives the exact condition, down to the entry of the document
that was read; where it fails, every use of the feature is reported that is
neither allowed nor granted. `year_accepts_not_baseline` is a document that
meets it.
-/

namespace StyleAudit

/-! ## The entry of a record -/

namespace Database

/-- Whether a document has an entry under a key in small letters, in the section
of a kind. -/
def Holds (json : Json) (kind : Feature.Kind) (key : Text) (entry : Json) : Prop :=
  ∃ members entries, (json.get? kind.sectionName).bind Json.members? = some members ∧
    sectionEntries? kind members = some entries ∧ (key, entry) ∈ entries

theorem holds_of_mem {members : Dictionary String Json} {kind : Feature.Kind}
    (hformed : Formed (.obj members) kind) {key : Text} {entry : Json}
    (h : (key, entry) ∈ entriesIn (.obj members) kind) :
    Holds (.obj members) kind key entry := by
  have hentries := sectionEntries?_of_values hformed.values
  unfold sectionMembers at hentries
  cases hsection : ((Json.obj members).get? kind.sectionName).bind Json.members? with
  | none =>
      have hempty : sectionEntries? kind [] = some [] := by cases kind <;> rfl
      rw [hsection, Option.getD_none, hempty, Option.some.injEq] at hentries
      rw [← hentries] at h
      cases h
  | some inner =>
      rw [hsection] at hentries
      exact ⟨inner, _, hsection, hentries, h⟩

/-- Every record of a database that was read from a document is what an entry of
the document spells. -/
theorem exists_entry_of_get? {json : Json} {db : Database} (h : ofJson json = .ok db)
    {kind : Feature.Kind} {key : Text} {r : Record} (hr : db.get? kind key = some r) :
    ∃ entry, Holds json kind (Text.lower key) entry ∧
      record kind (Text.lower key) entry = .ok r := by
  obtain ⟨entry, hlast, hspells⟩ := (get?_eq_some_iff h).1 hr
  obtain ⟨members, sections, rfl, hsections, -⟩ := entries_eq_flatten h
  obtain ⟨records, -, hread⟩ := exists_right_of_forall₂ hsections (mem_all kind)
  exact ⟨entry, holds_of_mem (formed_of_sectionRecords hread) hlast.mem,
    record_eq_ok_iff.2 hspells⟩

/-- The status and the year of a record come from two members of the entry, and
neither asks for the other. -/
theorem of_record_eq_ok {kind : Feature.Kind} {key : Text} {entry : Json} {r : Record}
    (h : record kind key entry = .ok r) :
    entry.get? "status" = some (.str r.status.word) ∧
      ∀ year, r.since = some year ↔ entry.get? "since" = some (.int year) := by
  obtain ⟨-, -, hstatus, hsince⟩ := record_eq_ok_iff.1 h
  refine ⟨hstatus, fun year => ?_⟩
  rcases hsince with hsince | ⟨hnone, hnull⟩
  · rw [hsince]
    cases r.since <;> simp
  · rw [hnone, hnull]
    simp

end Database

/-! ## Thresholds -/

/-- Whether a threshold is a year in which a record has been available already,
whatever its status. -/
def Threshold.Reaches (t : Threshold) (r : Record) : Prop :=
  ∃ y since, t = .year y ∧ r.since = some since ∧ since ≤ y

theorem Threshold.isMetBy_iff_reaches {r : Record} (h : r.status = .notBaseline)
    (t : Threshold) : t.isMetBy r = true ↔ t.Reaches r := by
  unfold Reaches
  cases t with
  | widely => simp [isMetBy, h]
  | newly => simp [isMetBy, h]
  | year y => simp [isMetBy, Option.any_eq_true]

namespace Audit

theorem mem_diagnostics_of_offends {a : Audit} {sheet : Stylesheet} {o : Occurrence}
    (ho : o ∈ Node.occurrencesIn sheet.rules) (hoffends : a.Offends o.feature o.granted) :
    .ofFeature o.feature a.configuration.available.toJson ∈ a.diagnostics sheet := by
  rw [diagnostics_eq_reports]
  refine List.mem_map_of_mem (List.mem_filter.2 ⟨ho, ?_⟩)
  rw [List.nil_append]
  exact decide_eq_true hoffends

/-- A feature with a record outside the baseline is accepted just by the years
from that of the record on, which is the one in the entry that was read; if it
has none, by no threshold. Wherever it is not accepted, every use of it is
reported that no list allows and no support rule around it grants. -/
theorem not_baseline_reported_unless_year {json : Json} {db : Database}
    (hdb : Database.ofJson json = .ok db) {kind : Feature.Kind} {key : Text}
    {r : Record} (hr : db.get? kind key = some r) (hstatus : r.status = .notBaseline) :
    (∃ entry, Database.Holds json kind (Text.lower key) entry ∧
      entry.get? "status" = some (.str "not-baseline") ∧
      ∀ year, r.since = some year ↔ entry.get? "since" = some (.int year)) ∧
    (∀ t : Threshold, t.supports db kind key = true ↔ t.Reaches r) ∧
    ∀ (c : Configuration) (sheet : Stylesheet), ¬ c.available.Reaches r →
      ∀ o ∈ Node.occurrencesIn sheet.rules, o.feature.kind = kind →
        Text.lower o.feature.key = Text.lower key → ¬ c.Exempt o.feature →
        o.feature.scopeKey ∉ o.granted →
        .ofFeature o.feature c.available.toJson ∈ diagnostics ⟨c, db⟩ sheet := by
  refine ⟨?_, ?_, ?_⟩
  · obtain ⟨entry, hentry, hrecord⟩ := Database.exists_entry_of_get? hdb hr
    obtain ⟨hword, hsince⟩ := Database.of_record_eq_ok hrecord
    rw [hstatus] at hword
    exact ⟨entry, hentry, hword, hsince⟩
  · intro t
    rw [Threshold.supports, hr]
    exact t.isMetBy_iff_reaches hstatus
  · intro c sheet hyear o ho hkind hkey hexempt hgranted
    refine mem_diagnostics_of_offends (a := ⟨c, db⟩) ho ⟨hexempt, hgranted, r, ?_, ?_⟩
    · rw [Database.get?, hkind, hkey]
      exact hr
    · rw [Bool.eq_false_iff]
      exact fun hmet => hyear ((c.available.isMetBy_iff_reaches hstatus).1 hmet)

/-- A document with one property, outside the baseline and with a year: the year
before does not accept it, and its use in a rule is reported. -/
theorem not_baseline_reported_unless_year_2019 :
    let json : Json := .obj [("properties", .obj [("Odd",
      .obj [("status", .str "not-baseline"), ("since", .int 2019)])])]
    let odd : Declaration := ⟨"odd".toList, default, [], false⟩
    let sheet : Stylesheet :=
      ⟨[.rule [] ⟨default, [], none⟩ [.declaration odd]], []⟩
    ∃ db, Database.ofJson json = .ok db ∧
      Threshold.supports (.year 2019) db .property "odd".toList = true ∧
      Threshold.supports (.year 2018) db .property "odd".toList = false ∧
      ⟨.property, [("property", .str "odd")], .int 2018, default⟩ ∈
        diagnostics ⟨{ available := .year 2018 }, db⟩ sheet := by
  intro json odd sheet
  have hdb : ∃ db, Database.ofJson json = .ok db ∧ db.get? .property "odd".toList =
      some ⟨"odd".toList, .property, .notBaseline, some 2019⟩ := ⟨_, rfl, rfl⟩
  obtain ⟨db, hjson, hr⟩ := hdb
  obtain ⟨_, hsupports, hreported⟩ := not_baseline_reported_unless_year hjson hr rfl
  have hreach : ¬ Threshold.Reaches (.year 2018)
      ⟨"odd".toList, .property, .notBaseline, some 2019⟩ := by
    rintro ⟨y, since, hy, hsince, hle⟩
    cases hy
    cases hsince
    exact absurd hle (by decide)
  have huses : Node.occurrencesIn sheet.rules =
      [.bare ⟨.property, "odd".toList, default, [("property", .str "odd")]⟩] := rfl
  refine ⟨db, hjson, ?_, ?_, ?_⟩
  · exact (hsupports (.year 2019)).2 ⟨2019, 2019, rfl, rfl, by decide⟩
  · rw [Bool.eq_false_iff]
    exact fun h => hreach ((hsupports (.year 2018)).1 h)
  · exact hreported { available := .year 2018 } sheet hreach _
      (huses ▸ List.mem_singleton_self _) rfl rfl (by decide)
      List.not_mem_nil

/-- A year accepts a feature that is not in the baseline: nothing is reported
where it is used, with no list and no support rule that would let it pass. -/
theorem year_accepts_not_baseline :
    ∃ db, Database.ofJson (.obj [("properties", .obj [("odd",
        .obj [("status", .str "not-baseline"), ("since", .int 2019)])])]) = .ok db ∧
      db.get? .property "odd".toList =
        some ⟨"odd".toList, .property, .notBaseline, some 2019⟩ ∧
      Threshold.supports (.year 2020) db .property "odd".toList = true ∧
      lint ⟨{ available := .year 2020 }, db⟩ .strict
        "a \x7b odd: 1 \x7d".toList = .ok [] :=
  ⟨_, rfl, rfl, rfl, by decide +kernel⟩

end Audit

end StyleAudit
