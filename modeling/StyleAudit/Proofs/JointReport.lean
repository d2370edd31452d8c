import StyleAudit.Proofs.Dictionaries
import StyleAudit.Proofs.RunEndings

/-!
# All files or none

A run collects the diagnostics of its files before it writes anything, and keeps
them under the paths. So there is a report of all files or none at all: the first
file that cannot be audited ends the run, with the status two if it fails. A path
that is named twice is audited twice, with the same diagnostics, and the second
time they replace the first in their place; what is reported are therefore the
distinct paths in the order in which they first occur (`ofList_map`).

A file that breaks a run off takes the failures of the files behind it away, as
they are not read any more. That is the one exception to a failure ending the run
wherever it stands.

As with the endings of runs, this is said of any environment: the options are those
that its validator accepts, the texts those that its encodings make of the files, and
the colors what its markup makes of their tags.
-/

namespace StyleAudit

namespace Command

/-! ## Reports of results -/

/-- What a text says of a file that has diagnostics: a line with its path, a line
for each of them, and an empty line. -/
def Palette.passage (p : Palette) (path : Text) (ds : List Diagnostic) : String :=
  String.ofList path ++ "\n" ++ String.join (ds.map p.line) ++ "\n"

/-- What a text ends with. -/
def totalLine (n : Nat) : String := toString n ++ if n = 1 then " problem\n" else " problems\n"

theorem totalLine_ne_empty (n : Nat) : totalLine n ≠ "" := by
  rw [totalLine, Ne, String.append_eq_empty_iff]
  split <;> exact fun h => absurd h.2 (by decide)

section results

variable (ds : Text → List Diagnostic) (paths : List Text)

/-- The results of paths of which each has its diagnostics. -/
def Results.of : Results := paths.map fun path => (path, ds path)

/-- The paths that have diagnostics. -/
def unclean : List Text := paths.filter fun path => ds path ≠ []

variable {ds paths}

theorem unclean_cons (path : Text) : unclean ds (path :: paths) =
    if ds path = [] then unclean ds paths else path :: unclean ds paths := by
  rw [unclean, List.filter_cons]
  by_cases h : ds path = [] <;> simp [h, unclean]

theorem unclean_eq_nil_iff : unclean ds paths = [] ↔ ∀ path ∈ paths, ds path = [] := by
  simp [unclean, List.filter_eq_nil_iff]

theorem anyReported_of_iff : (Results.of ds paths).anyReported ↔ ∃ path ∈ paths, ds path ≠ [] := by
  simp [Results.of, Results.anyReported]

theorem total_of : (Results.of ds paths).total = ((unclean ds paths).flatMap ds).length := by
  induction paths with
  | nil => rfl
  | cons path paths ih =>
      change (ds path).length + (Results.of ds paths).total = _
      rw [ih, unclean_cons]
      split
      · next h => rw [h, List.length_nil, Nat.zero_add]
      · rw [List.flatMap_cons, List.length_append]

theorem total_of_eq_zero_iff : (Results.of ds paths).total = 0 ↔ unclean ds paths = [] := by
  induction paths with
  | nil => exact iff_of_true rfl rfl
  | cons path paths ih =>
      change (ds path).length + (Results.of ds paths).total = 0 ↔ _
      rw [Nat.add_eq_zero_iff, List.length_eq_zero_iff, ih, unclean_cons]
      split
      · next h => exact and_iff_right h
      · next h => exact iff_of_false (fun hboth => h hboth.1) (List.cons_ne_nil _ _)

theorem join_paragraph (p : Palette) :
    String.join ((Results.of ds paths).map fun entry => p.paragraph entry.1 entry.2) =
      String.join ((unclean ds paths).map fun path => p.passage path (ds path)) := by
  induction paths with
  | nil => rfl
  | cons path paths ih =>
      change String.join (p.paragraph path (ds path) :: (Results.of ds paths).map _) = _
      rw [String.join_cons, ih, unclean_cons, Palette.paragraph]
      by_cases h : ds path = []
      · simp [h]
      · simp [h, String.join_cons, Palette.passage]

theorem toJson_of : (Results.of ds paths).toJson = .arr (paths.map fun path =>
    .obj [("filePath", .str (String.ofList path)),
      ("messages", .arr ((ds path).map Diagnostic.toJson))]) := by
  rw [Results.toJson, Results.of, List.map_map]
  rfl

theorem text_of (p : Palette) : (Results.of ds paths).text p =
    if unclean ds paths = [] then ""
    else String.join ((unclean ds paths).map fun path => p.passage path (ds path)) ++
      totalLine ((unclean ds paths).flatMap ds).length := by
  rw [Results.text, join_paragraph]
  by_cases h : unclean ds paths = []
  · rw [if_pos h, if_pos (total_of_eq_zero_iff.2 h), h]
    rfl
  · rw [if_neg h, if_neg (mt total_of_eq_zero_iff.1 h), total_of, totalLine]
    split <;> simp [String.append_assoc]

theorem text_of_eq_empty_iff (p : Palette) :
    (Results.of ds paths).text p = "" ↔ unclean ds paths = [] := by
  rw [text_of]
  split
  · next h => exact iff_of_true rfl h
  · next h =>
      refine iff_of_false ?_ h
      rw [String.append_eq_empty_iff]
      exact fun hempty => totalLine_ne_empty _ hempty.2

end results

/-! ## Runs that report -/

section reports

variable {ε : Type} (env : Environment ε)

/-- The marks that the text of a run is written with. -/
def Arguments.palette (a : Arguments) (terminal : Bool) : Palette :=
  if terminal && !a.noColor then .colors env.markup else .plain

/-- What a run reports of its files, given the diagnostics at each path. The JSON has
an entry for every distinct path. The text has a passage for every one with
diagnostics, and then their number; there is none if the status is zero. -/
structure Arguments.Reports (a : Arguments) (terminal : Bool) (ds : Text → List Diagnostic)
    (f : Finished) : Prop where
  status_one : f.status = 1 ↔ ∃ path ∈ a.files, ds path ≠ []
  status_zero : f.status = 0 ↔ ∀ path ∈ a.files, ds path = []
  json : a.json = true → f.output =
    (Json.arr (a.files.eraseDups.map fun path =>
      .obj [("filePath", .str (String.ofList path)),
        ("messages", .arr ((ds path).map Diagnostic.toJson))])).indented "" ++ "\n"
  text_empty : a.json = false → (f.output = "" ↔ f.status = 0)
  text : a.json = false → f.status = 1 →
    let listed := unclean ds a.files.eraseDups
    f.output =
      String.join (listed.map fun path => (a.palette env terminal).passage path (ds path)) ++
        totalLine (listed.flatMap ds).length

variable {env}

theorem Arguments.Reports.status_le {a : Arguments} {terminal : Bool}
    {ds : Text → List Diagnostic} {f : Finished} (h : a.Reports env terminal ds f) :
    f.status ≤ 1 := by
  by_cases hclean : ∀ path ∈ a.files, ds path = []
  · rw [h.status_zero.2 hclean]
    exact Nat.zero_le 1
  · exact Nat.le_of_eq (h.status_one.2 (by simpa using hclean))

theorem reports_of_results (env : Environment ε) (a : Arguments) (terminal : Bool)
    (ds : Text → List Diagnostic) (log : List LogEntry) :
    let results := Results.of ds a.files.eraseDups
    a.Reports env terminal ds
      ⟨if results.anyReported then 1 else 0, a.report env terminal results, log⟩ := by
  intro results
  have hany : results.anyReported ↔ ∃ path ∈ a.files, ds path ≠ [] := by
    simp only [results, anyReported_of_iff, List.mem_eraseDups]
  have hone : (if results.anyReported then 1 else 0) = 1 ↔ results.anyReported := by
    split <;> simp [*]
  have hzero : (if results.anyReported then 1 else 0) = 0 ↔ ¬ results.anyReported := by
    split <;> simp [*]
  have hclean : ¬ results.anyReported ↔ unclean ds a.files.eraseDups = [] := by
    simp only [hany, unclean_eq_nil_iff, List.mem_eraseDups, not_exists, not_and, not_not]
  have htext (hjson : a.json = false) :
      a.report env terminal results = results.text (a.palette env terminal) := by
    simp [Arguments.report, Arguments.palette, hjson]
  refine ⟨hone.trans hany, ?_, fun hjson => ?_, fun hjson => ?_, fun hjson hstatus => ?_⟩
  · simp only [hzero, hclean, unclean_eq_nil_iff, List.mem_eraseDups]
  · simp only [Arguments.report, if_pos hjson, Results.json, results, toJson_of]
  · rw [hzero, hclean, htext hjson, text_of_eq_empty_iff]
  · have hlisted : unclean ds a.files.eraseDups ≠ [] :=
      fun h => hclean.2 h (hone.1 hstatus)
    rw [htext hjson, text_of, if_neg hlisted]

theorem audit_reports (terminal : Bool) {a : Arguments} {files : Files} {audit : Audit}
    {ds : Text → List Diagnostic}
    (h : ∀ path ∈ a.files, Audited env audit a.mode files path (ds path)) :
    ∃ f, a.audit env terminal files audit = .finished f ∧ a.Reports env terminal ds f := by
  obtain ⟨log, hlog⟩ := audit_of_audited terminal h
  rw [Dictionary.ofList_map] at hlog
  refine ⟨_, hlog, ?_⟩
  exact reports_of_results env a terminal ds log

end reports

/-! ## Files that stop a run -/

section stopped

variable {ε : Type} {env : Environment ε} {audit : Audit} {mode : Mode} {files : Files}
  {path : Text} {ds : List Diagnostic}

theorem Audited.unique {ds' : List Diagnostic} (h : Audited env audit mode files path ds)
    (h' : Audited env audit mode files path ds') : ds = ds' := by
  rw [← (auditFile_answers env audit mode files path).ok_iff] at h h'
  exact Except.ok.inj (h.symm.trans h')

theorem Audited.not_fails (h : Audited env audit mode files path ds) :
    ¬ SheetFails env files mode path := by
  intro hfails
  obtain ⟨message, hfailed⟩ := exists_failed_of_fails audit hfails
  rw [((auditFile_answers env audit mode files path).ok_iff ds).2 h] at hfailed
  cases hfailed

theorem Audited.not_breaks (h : Audited env audit mode files path ds) :
    ¬ ∃ b, SheetBreaks env files path b := by
  rintro ⟨b, hbreaks⟩
  have hbroken : (auditFile env audit mode files path).outcome = _ := error_of_breaks hbreaks
  rw [((auditFile_answers env audit mode files path).ok_iff ds).2 h] at hbroken
  cases hbroken

end stopped

/-- Of three properties that leave nothing out, the second holds of the first that
has not the first one, if it holds of some and the third of none before it. -/
theorem exists_first_of_before {α : Type} {p q r : α → Prop} (h : ∀ x, p x ∨ q x ∨ r x)
    {xs before after : List α} {x : α} (hxs : xs = before ++ x :: after) (hx : q x)
    (hbefore : ∀ y ∈ before, ¬ r y) :
    ∃ before' x' after', xs = before' ++ x' :: after' ∧ (∀ y ∈ before', p y) ∧ q x' := by
  rcases forall_or_exists_first p before with hall | ⟨front, y, back, rfl, hfront, hy⟩
  · exact ⟨before, x, after, hxs, hall, hx⟩
  -- It is not `x` but an earlier one, of which the third property is ruled out.
  · have hnot : ¬ r y := hbefore y (List.mem_append_right _ List.mem_cons_self)
    refine ⟨front, y, back ++ x :: after, ?_, hfront, ?_⟩
    · rw [hxs, List.append_assoc, List.cons_append]
    · exact ((h y).resolve_left hy).resolve_right hnot

section stopping

variable {ε : Type} {env : Environment ε} {a : Arguments} (terminal : Bool) {files : Files}
  {audit : Audit}

/-- A run reports, or its first file that is not audited stops it. -/
theorem audit_cases (env : Environment ε) (a : Arguments) (terminal : Bool) (files : Files)
    (audit : Audit) :
    (∃ ds, (∀ path ∈ a.files, Audited env audit a.mode files path (ds path)) ∧
      ∃ f, a.audit env terminal files audit = .finished f ∧ a.Reports env terminal ds f) ∨
    ∃ before path after, a.files = before ++ path :: after ∧
      (∀ q ∈ before, ∃ ds, Audited env audit a.mode files q ds) ∧
      ((SheetFails env files a.mode path ∧
          ∃ log, a.audit env terminal files audit = .finished ⟨2, "", log⟩) ∨
        ∃ b, SheetBreaks env files path b ∧ a.audit env terminal files audit = .broken b) := by
  rcases forall_or_exists_first (fun path => ∃ ds, Audited env audit a.mode files path ds) a.files
    with hall | ⟨before, path, after, hfiles, hbefore, hpath⟩
  · obtain ⟨ds, hds⟩ := exists_diagnostics hall
    exact .inl ⟨ds, hds, audit_reports terminal hds⟩
  · refine .inr ⟨before, path, after, hfiles, hbefore, ?_⟩
    rcases (audited_or_fails_or_breaks env audit a.mode files path).resolve_left hpath with
      h | ⟨b, h⟩
    · exact .inl ⟨h, audit_of_fails terminal hfiles hbefore h⟩
    · exact .inr ⟨b, h, audit_of_breaks terminal hfiles hbefore h⟩

theorem audit_ends_with_two_iff :
    (∃ log, a.audit env terminal files audit = .finished ⟨2, "", log⟩) ↔
    ∃ before path after, a.files = before ++ path :: after ∧ SheetFails env files a.mode path ∧
      ∀ q ∈ before, ¬ ∃ b, SheetBreaks env files q b := by
  constructor
  · rintro ⟨log, hlog⟩
    rcases audit_cases env a terminal files audit with
      ⟨ds, -, f, hf, hreports⟩ | ⟨before, path, after, hfiles, hbefore, ⟨h, -⟩ | ⟨b, -, h⟩⟩
    · rw [hlog] at hf
      cases hf
      exact absurd hreports.status_le (Nat.not_succ_le_self 1)
    · refine ⟨before, path, after, hfiles, h, fun q hq => ?_⟩
      obtain ⟨ds, hds⟩ := hbefore q hq
      exact hds.not_breaks
    · rw [hlog] at h
      cases h
  · rintro ⟨before, path, after, hfiles, h, hbefore⟩
    obtain ⟨before', path', after', hfiles', haudited, h'⟩ :=
      exists_first_of_before (audited_or_fails_or_breaks env audit a.mode files) hfiles h hbefore
    exact audit_of_fails terminal hfiles' haudited h'

theorem audit_breaks_off_iff : (∃ b, a.audit env terminal files audit = .broken b) ↔
    ∃ before path after, a.files = before ++ path :: after ∧
      (∃ b, SheetBreaks env files path b) ∧ ∀ q ∈ before, ¬ SheetFails env files a.mode q := by
  constructor
  · rintro ⟨b, hb⟩
    rcases audit_cases env a terminal files audit with
      ⟨ds, -, f, hf, -⟩ | ⟨before, path, after, hfiles, hbefore, ⟨-, log, hlog⟩ | ⟨b', h, -⟩⟩
    · rw [hb] at hf
      cases hf
    · rw [hb] at hlog
      cases hlog
    · refine ⟨before, path, after, hfiles, ⟨b', h⟩, fun q hq => ?_⟩
      obtain ⟨ds, hds⟩ := hbefore q hq
      exact hds.not_fails
  · rintro ⟨before, path, after, hfiles, h, hbefore⟩
    have hall (q : Text) : (∃ ds, Audited env audit a.mode files q ds) ∨
        (∃ b, SheetBreaks env files q b) ∨ SheetFails env files a.mode q :=
      (audited_or_fails_or_breaks env audit a.mode files q).imp_right Or.symm
    obtain ⟨before', path', after', hfiles', haudited, b, h'⟩ :=
      exists_first_of_before hall hfiles h hbefore
    exact ⟨b, audit_of_breaks terminal hfiles' haudited h'⟩

end stopping

/-- A run whose options and data are accepted. The first file that fails ends it with
the status two and no report, wherever that file stands, unless a file in front of it
makes the run break off; if no file does either, all files are reported. -/
theorem files_reported_together {ε : Type} (env : Environment ε) (a : Arguments)
    (terminal : Bool) (files : Files) {c : Configuration} {d : Database}
    (hc : a.Configures env files c) (hd : a.Supplies env files d) :
    ((∃ log, a.runIn env terminal files = .finished ⟨2, "", log⟩) ↔
      ∃ before path after, a.files = before ++ path :: after ∧ SheetFails env files a.mode path ∧
        ∀ q ∈ before, ¬ ∃ b, SheetBreaks env files q b) ∧
    ((∃ b, a.runIn env terminal files = .broken b) ↔
      ∃ before path after, a.files = before ++ path :: after ∧
        (∃ b, SheetBreaks env files path b) ∧ ∀ q ∈ before, ¬ SheetFails env files a.mode q) ∧
    ((∀ path ∈ a.files, ¬ SheetFails env files a.mode path ∧ ¬ ∃ b, SheetBreaks env files path b) →
      ∃ ds, (∀ path ∈ a.files, Audited env ⟨c, d⟩ a.mode files path (ds path)) ∧
        ∃ f, a.runIn env terminal files = .finished f ∧ a.Reports env terminal ds f) := by
  rw [runIn_of_setup terminal hc hd]
  refine ⟨audit_ends_with_two_iff terminal, audit_breaks_off_iff terminal, fun h => ?_⟩
  have haudited : ∀ path ∈ a.files, ∃ ds, Audited env ⟨c, d⟩ a.mode files path ds := by
    intro path hpath
    obtain ⟨hfails, hbreaks⟩ := h path hpath
    exact (audited_or_fails_or_breaks env ⟨c, d⟩ a.mode files path).resolve_right
      (not_or.2 ⟨hfails, hbreaks⟩)
  obtain ⟨ds, hds⟩ := exists_diagnostics haudited
  exact ⟨ds, hds, audit_reports terminal hds⟩

/-- Two files are named three times, and one of them has a diagnostic: it is listed
once. A missing file behind them takes the report away. -/
theorem files_reported_together_repeated :
    let odd : Text := "a.css".toList
    let plain : Text := "b.css".toList
    let data : Text := "d.json".toList
    let files : Files := fun path =>
      if path = odd then .ok "a\x7bo:1\x7d".toUTF8
      else if path = plain then .ok "a\x7b\x7d".toUTF8
      else if path = data then
        .ok "\x7b\"properties\":\x7b\"o\":\x7b\"status\":\"not-baseline\"\x7d\x7d\x7d".toUTF8
      else .error .missing
    let a : Arguments := { files := [odd, plain, odd], database := some (some data) }
    let late : Arguments := { a with files := [odd, plain, odd, "c.css".toList] }
    let d : Database :=
      ⟨"", [((.property, ['o']), ⟨['o'], .property, .notBaseline, none⟩)]⟩
    let e : Diagnostic :=
      ⟨.property, [("property", .str "o")], .str "widely", ⟨1, 3⟩, ⟨1, 4⟩⟩
    a.Configures .standard files {} ∧ a.Supplies .standard files d ∧
      late.Supplies .standard files d ∧
      (∃ f, a.run false files = .finished f ∧ f.status = 1 ∧
        f.output = Palette.plain.passage odd [e] ++ "1 problem\n") ∧
      ∃ log, late.run false files = .finished ⟨2, "", log⟩ := by
  intro odd plain data files a late d e
  have hc : a.Configures .standard files {} := ⟨[], .inl ⟨rfl, rfl⟩, rfl⟩
  have hjson : HoldsJson .standard files data
      (.obj [("properties", .obj [("o", .obj [("status", .str "not-baseline")])])]) :=
    ⟨_, ⟨_, ⟨by decide, rfl⟩, rfl⟩, by decide +kernel⟩
  have hd : a.Supplies .standard files d := .inr ⟨data, rfl, _, hjson, rfl⟩
  have hodd : Audited .standard ⟨{}, d⟩ .strict files odd [e] :=
    ⟨_, _, ⟨by decide, rfl⟩, rfl, by decide +kernel⟩
  have hplain : Audited .standard ⟨{}, d⟩ .strict files plain [] :=
    ⟨_, _, ⟨by decide, rfl⟩, rfl, by decide +kernel⟩
  have hnamed : ∀ path ∈ a.files, path = odd ∨ path = plain := by simp [a]
  refine ⟨hc, hd, hd, ?_, ?_⟩
  · obtain ⟨-, -, hall⟩ := files_reported_together .standard a false files hc hd
    obtain ⟨ds, hds, f, hrun, hreports⟩ := hall fun path hpath => by
      rcases hnamed path hpath with rfl | rfl
      · exact ⟨hodd.not_fails, hodd.not_breaks⟩
      · exact ⟨hplain.not_fails, hplain.not_breaks⟩
    have hone : ds odd = [e] := (hds odd (by simp [a])).unique hodd
    have hnone : ds plain = [] := (hds plain (by simp [a])).unique hplain
    have hstatus : f.status = 1 := hreports.status_one.2 ⟨odd, by simp [a], by simp [hone]⟩
    have hfiles : a.files.eraseDups = [odd, plain] := rfl
    have hlisted : unclean ds a.files.eraseDups = [odd] := by
      rw [hfiles, unclean_cons, unclean_cons, hone, hnone]
      rfl
    have hpalette : a.palette .standard false = .plain := rfl
    have htotal : totalLine [e].length = "1 problem\n" := by decide
    refine ⟨f, hrun, hstatus, ?_⟩
    rw [hreports.text rfl hstatus, hlisted, List.map_singleton, List.flatMap_singleton, hone,
      htotal, hpalette, String.join_cons, String.join_nil, String.append_empty]
  · obtain ⟨hfailed, -⟩ := files_reported_together .standard late false files hc hd
    refine hfailed.2 ⟨[odd, plain, odd], "c.css".toList, [], rfl, .unopened (by decide) rfl, ?_⟩
    intro q hq
    rcases hnamed q hq with rfl | rfl
    · exact hodd.not_breaks
    · exact hplain.not_breaks

/-- A missing file that does not end the run: the file in front of it gives a name for
its encoding that holds the code point zero, and the run breaks off there. -/
theorem missing_file_behind_breakage :
    let broken : Text := "n.css".toList
    let missing : Text := "missing.css".toList
    let files : Files := fun path =>
      if path = broken then .ok "@charset \"\x00\";".toUTF8 else .error .missing
    let a : Arguments := { files := [broken, missing] }
    Invocation.ofArguments [broken, missing] = .run a ∧
      a.Configures .standard files {} ∧ a.Supplies .standard files .bundled ∧
      SheetFails .standard files a.mode missing ∧ a.run false files = .broken .invalidName := by
  intro broken missing files a
  have hc : a.Configures .standard files {} := ⟨[], .inl ⟨rfl, rfl⟩, rfl⟩
  have hd : a.Supplies .standard files .bundled := .inl ⟨rfl, rfl⟩
  have hname : Encoding.declaredName? "@charset \"\x00\";".toUTF8.data.toList = some [0] := rfl
  have hbreaks : SheetBreaks .standard files broken .invalidName :=
    .name ⟨by decide, rfl⟩ hname (by simp) List.mem_cons_self
  have hwords : classifyAll? [broken, missing] = some [.plain broken, .plain missing] := by decide
  refine ⟨?_, hc, hd, .unopened (by decide) rfl, ?_⟩
  · rw [Invocation.ofArguments, hwords]
    simp [interpret, Word.isPlain, Word.file?, Progress.takeRun, Progress.finish, a,
      List.takeWhile_cons, List.dropWhile_cons]
  · rw [Arguments.run, runIn_of_setup false hc hd]
    exact audit_of_breaks false rfl (List.forall_mem_nil _) hbreaks

end Command

end StyleAudit
