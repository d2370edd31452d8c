import StyleAudit.Command.Run
import StyleAudit.Proofs.DeclaredEncoding

/-!
# How a run ends

Whatever the files hold, a run comes to an end with one of three statuses, or it
breaks off. The readers of files answer in three ways: with what they were asked
for, with a failure that is logged and ends the run with the status two, or with a
breakage that nothing takes care of. `Answers` says of a reader when it does the
first and when the last; what is left are the failures.

A run breaks off at five places only. Options and data that are no UTF-8 do so,
which in a stylesheet is a failure like any other; a flag for a file without a
path does; so does the code point zero, in a path or in the name that a
stylesheet gives for its encoding; and so does an encoding that fails in a way of
its own. As everything is read in order, the options first and the stylesheets
last, what comes behind a failure does not count.

All this holds in any environment: whatever the validator says of the options,
whichever encodings there are and however they fail, and whatever stands in for the
halves of pairs that JSON can spell. Among the last are characters that the files do
not have elsewhere, by which these halves are kept apart as if they were characters.
-/

namespace StyleAudit

namespace Command

/-! ## Answers of readers -/

/-- What a reader answers: when it gives a value, and when it breaks off. In all
other cases it fails. -/
structure Answers {ε α : Type} (r : Except (Stop ε) α) (value : α → Prop)
    (breakage : Break ε → Prop) : Prop where
  ok_iff : ∀ x, r = .ok x ↔ value x
  broken_iff : ∀ b, r = .error (.broken b) ↔ breakage b

namespace Answers

variable {ε α β : Type} {r : Except (Stop ε) α} {value : α → Prop} {breakage : Break ε → Prop}

theorem ok (x : α) : Answers (.ok x : Except (Stop ε) α) (· = x) fun _ => False where
  ok_iff y := by
    rw [Except.ok.injEq]
    exact eq_comm
  broken_iff b := iff_of_false (fun h => by cases h) id

theorem failed (message : String) :
    Answers (.error (.failed message) : Except (Stop ε) α) (fun _ => False) fun _ => False where
  ok_iff x := iff_of_false (fun h => by cases h) id
  broken_iff b := iff_of_false (fun h => by cases h) id

theorem broken (b : Break ε) :
    Answers (.error (.broken b) : Except (Stop ε) α) (fun _ => False) (· = b) where
  ok_iff x := iff_of_false (fun h => by cases h) id
  broken_iff b' := by
    rw [Except.error.injEq, Stop.broken.injEq]
    exact eq_comm

/-- What goes wrong elsewhere is told as a failure. -/
theorem mapError {ω : Type} (x : Except ω α) (message : ω → String) :
    Answers (x.mapError fun e => (Stop.failed (message e) : Stop ε)) (fun y => x = .ok y)
      fun _ => False := by
  cases x with
  | ok y =>
      refine ⟨fun z => ?_, fun b => iff_of_false (fun h => by cases h) id⟩
      change (Except.ok y : Except (Stop ε) α) = .ok z ↔ _
      rw [Except.ok.injEq, Except.ok.injEq]
  | error e =>
      refine ⟨fun z => ?_, fun b => iff_of_false (fun h => by cases h) id⟩
      exact iff_of_false (fun h => by cases h) fun h => by cases h

theorem congr {value' : α → Prop} {breakage' : Break ε → Prop} (h : Answers r value breakage)
    (hvalue : ∀ x, value x ↔ value' x) (hbreakage : ∀ b, breakage b ↔ breakage' b) :
    Answers r value' breakage' where
  ok_iff x := (h.ok_iff x).trans (hvalue x)
  broken_iff b := (h.broken_iff b).trans (hbreakage b)

/-- Of two readers in a row, the second answers what the first has read. -/
theorem bind {next : α → Except (Stop ε) β} {value' : α → β → Prop}
    {breakage' : α → Break ε → Prop} (h : Answers r value breakage)
    (hnext : ∀ x, value x → Answers (next x) (value' x) (breakage' x)) :
    Answers (r >>= next) (fun y => ∃ x, value x ∧ value' x y)
      fun b => breakage b ∨ ∃ x, value x ∧ breakage' x b := by
  cases r with
  | ok x =>
      have hx : value x := (h.ok_iff x).1 rfl
      have honly : ∀ x', value x' → x' = x := by
        intro x' hx'
        cases (h.ok_iff x').2 hx'
        rfl
      have hclean : ∀ b, ¬ breakage b := fun b hb => by cases (h.broken_iff b).2 hb
      refine (hnext x hx).congr (fun y => ?_) fun b => ?_
      · exact ⟨fun hy => ⟨x, hx, hy⟩, fun ⟨x', hx', hy⟩ => honly x' hx' ▸ hy⟩
      · constructor
        · exact fun hb => .inr ⟨x, hx, hb⟩
        · rintro (hb | ⟨x', hx', hb⟩)
          · exact absurd hb (hclean b)
          · exact honly x' hx' ▸ hb
  | error why =>
      -- Nothing was read, so that all there is to say is what the first reader said.
      have hnone : ∀ x, ¬ value x := fun x hx => by cases (h.ok_iff x).2 hx
      refine ⟨fun y => iff_of_false (fun h => by cases h) fun ⟨x, hx, _⟩ => hnone x hx,
        fun b => ?_⟩
      have hb : (Except.error why >>= next) = .error (.broken b) ↔
          (Except.error why : Except (Stop ε) α) = .error (.broken b) := by
        constructor <;>
          · intro heq
            cases heq
            rfl
      rw [hb, h.broken_iff b]
      exact ⟨.inl, fun h => h.resolve_right fun ⟨x, hx, _⟩ => hnone x hx⟩

/-- A second reader that never breaks off adds no breakage. -/
theorem andThen {next : α → Except (Stop ε) β} {value' : α → β → Prop}
    (h : Answers r value breakage)
    (hnext : ∀ x, value x → Answers (next x) (value' x) fun _ => False) :
    Answers (r >>= next) (fun y => ∃ x, value x ∧ value' x y) breakage :=
  (h.bind hnext).congr (fun _ => Iff.rfl) fun b => by simp

end Answers

/-! ## Files -/

section files

variable {ε : Type} (env : Environment ε)

/-- A path leads to a file with some content. -/
def Opens (files : Files) (path : Text) (bytes : ByteArray) : Prop :=
  '\x00' ∉ path ∧ files path = .ok bytes

theorem readBytes_answers (files : Files) (path : Text) :
    Answers (readBytes files path : Except (Stop ε) ByteArray) (Opens files path)
      fun b => b = .invalidName ∧ '\x00' ∈ path := by
  unfold readBytes Opens
  by_cases hpath : '\x00' ∈ path
  · rw [if_pos (List.contains_iff_mem.2 hpath)]
    refine (Answers.broken _).congr (fun bytes => ?_) fun b => ?_
    · exact iff_of_false id fun h => h.1 hpath
    · exact ⟨fun h => ⟨h, hpath⟩, And.left⟩
  · rw [if_neg (mt List.contains_iff_mem.1 hpath)]
    cases hfile : files path with
    | ok content =>
        refine (Answers.ok content).congr (fun bytes => ?_) fun b => ?_
        · rw [and_iff_right hpath, Except.ok.injEq]
          exact eq_comm
        · exact iff_of_false id fun h => hpath h.2
    | error e =>
        refine (Answers.failed _).congr (fun bytes => ?_) fun b => ?_
        · exact iff_of_false id fun h => by cases h.2
        · exact iff_of_false id fun h => hpath h.2

/-- The file at a path holds a text in UTF-8. -/
def HoldsText (files : Files) (path t : Text) : Prop :=
  ∃ bytes, Opens files path bytes ∧ Encoding.utf8.decode? bytes = some t

/-- A file that has to be UTF-8 makes a run break off. -/
inductive TextBreaks (files : Files) (path : Text) : Break ε → Prop
  | path (h : '\x00' ∈ path) : TextBreaks files path .invalidName
  | content {bytes : ByteArray} (h : Opens files path bytes)
      (hd : Encoding.utf8.decode? bytes = none) : TextBreaks files path .undecodable

theorem readText_answers (files : Files) (path : Text) :
    Answers (readText files path : Except (Stop ε) Text) (HoldsText files path)
      (TextBreaks files path) := by
  have heq : (readText files path : Except (Stop ε) Text) = readBytes files path >>= fun bytes =>
      (Encoding.utf8.decode? bytes).elim (.error (.broken .undecodable)) .ok := by
    unfold readText
    congr
    funext bytes
    cases Encoding.utf8.decode? bytes <;> rfl
  have hdecode (bytes : ByteArray) : Answers
      ((Encoding.utf8.decode? bytes).elim (.error (.broken .undecodable)) .ok :
        Except (Stop ε) Text)
      (fun t => Encoding.utf8.decode? bytes = some t)
      fun b => b = .undecodable ∧ Encoding.utf8.decode? bytes = none := by
    cases Encoding.utf8.decode? bytes with
    | some t => exact (Answers.ok t).congr (fun t' => by simp [eq_comm]) fun b => by simp
    | none => exact (Answers.broken _).congr (fun t' => by simp) fun b => by simp
  rw [heq]
  refine ((readBytes_answers files path).bind fun bytes _ => hdecode bytes).congr
    (fun t => Iff.rfl) fun b => ?_
  constructor
  · rintro (⟨rfl, h⟩ | ⟨bytes, h, rfl, hd⟩)
    · exact .path h
    · exact .content h hd
  · rintro (h | ⟨h, hd⟩)
    · exact .inl ⟨rfl, h⟩
    · exact .inr ⟨_, h, rfl, hd⟩

/-- The file at a path holds a JSON value. -/
def HoldsJson (files : Files) (path : Text) (json : Json) : Prop :=
  ∃ t, HoldsText files path t ∧ Json.parseWith? env.standIn t = some json

theorem readOptions_answers (files : Files) (path : Text) :
    Answers (readOptions env files path) (fun options => HoldsJson env files path (.obj options))
      (TextBreaks files path) := by
  refine (readText_answers files path).andThen fun t _ => ?_
  cases Json.parseWith? env.standIn t with
  | none => exact (Answers.failed _).congr (fun _ => by simp) fun _ => Iff.rfl
  | some json =>
      cases json with
      | obj members =>
          exact (Answers.ok members).congr (fun _ => by simp [eq_comm]) fun _ => Iff.rfl
      | _ => exact (Answers.failed _).congr (fun _ => by simp) fun _ => Iff.rfl

theorem readDatabase_answers (files : Files) (path : Text) :
    Answers (readDatabase env files path)
      (fun d => ∃ json, HoldsJson env files path json ∧ Database.ofJson json = .ok d)
      (TextBreaks files path) := by
  have heq : readDatabase env files path = readText files path >>= fun t =>
      (Json.parseWith? env.standIn t).elim (.error (.failed (byWord "DatabaseError")))
        fun json => (Database.ofJson json).mapError fun e => .failed e.message := by
    unfold readDatabase
    congr
    funext t
    cases Json.parseWith? env.standIn t <;> rfl
  have hparsed (t : Text) : Answers
      ((Json.parseWith? env.standIn t).elim (.error (.failed (byWord "DatabaseError")))
        fun json => (Database.ofJson json).mapError fun e => .failed e.message :
        Except (Stop ε) Database)
      (fun d => ∃ json, Json.parseWith? env.standIn t = some json ∧ Database.ofJson json = .ok d)
      fun _ => False := by
    cases Json.parseWith? env.standIn t with
    | none => exact (Answers.failed _).congr (fun _ => by simp) fun _ => Iff.rfl
    | some json =>
        simp only [Option.some.injEq, exists_eq_left']
        exact Answers.mapError _ _
  rw [heq]
  refine ((readText_answers files path).andThen fun t _ => hparsed t).congr
    (fun d => ?_) fun _ => Iff.rfl
  constructor
  · rintro ⟨t, ht, json, hjson, hd⟩
    exact ⟨json, ⟨t, ht, hjson⟩, hd⟩
  · rintro ⟨json, ⟨t, ht, hjson⟩, hd⟩
    exact ⟨t, ht, json, hjson, hd⟩

/-! ## Flags for files -/

/-- A flag for a file makes a run break off: it has no path, or its file does. -/
inductive FlagBreaks (files : Files) : Option Value → Break ε → Prop
  | noPath : FlagBreaks files (some none) .noPath
  | file {path : Text} {b : Break ε} (h : TextBreaks files path b) :
      FlagBreaks files (some (some path)) b

/-- What is read from the file of a flag, or `absent` if the flag was not given. -/
def ofFlag {α : Type} (flag : Option Value) (absent : α) (read : Text → Except (Stop ε) α) :
    Except (Stop ε) α :=
  match flag with
  | some value => pathOf value >>= read
  | none => .ok absent

theorem ofFlag_answers {α : Type} {files : Files} {flag : Option Value} {absent : α}
    {read : Text → Except (Stop ε) α} {holds : Text → α → Prop}
    (h : ∀ path, Answers (read path) (holds path) (TextBreaks files path)) :
    Answers (ofFlag flag absent read)
      (fun x => (flag = none ∧ x = absent) ∨ ∃ path, flag = some (some path) ∧ holds path x)
      (FlagBreaks files flag) := by
  rcases flag with _ | _ | path
  · refine (Answers.ok absent).congr (fun x => by simp) fun b => ?_
    exact iff_of_false id fun h => by cases h
  · refine (Answers.broken .noPath).congr (fun x => by simp) fun b => ?_
    constructor
    · rintro rfl
      exact .noPath
    · rintro ⟨⟩
      rfl
  · refine (h path).congr (fun x => by simp) fun b => ?_
    constructor
    · exact .file
    · rintro ⟨⟩
      assumption

/-- The options that a command line has from its file. -/
def Arguments.FileOptions (a : Arguments) (files : Files) (options : Configuration.Options) :
    Prop :=
  (a.config = none ∧ options = []) ∨
    ∃ path, a.config = some (some path) ∧ HoldsJson env files path (.obj options)

/-- The configuration that comes of a command line and its file of options. -/
def Arguments.Configures (a : Arguments) (files : Files) (c : Configuration) : Prop :=
  ∃ options, a.FileOptions env files options ∧
    Configuration.ofJsonWith env.validate (.obj (a.options options)) = .ok c

/-- The database that comes of a command line and its file of data. -/
def Arguments.Supplies (a : Arguments) (files : Files) (d : Database) : Prop :=
  (a.database = none ∧ d = .bundled) ∨
    ∃ path, a.database = some (some path) ∧
      ∃ json, HoldsJson env files path json ∧ Database.ofJson json = .ok d

theorem configuration_eq (a : Arguments) (files : Files) :
    a.configuration env files = ofFlag a.config [] (readOptions env files) >>= fun options =>
      match Configuration.ofJsonWith env.validate (.obj (a.options options)) with
      | .ok c => .ok c
      | .error _ => .error (.failed (byWord "ConfigurationError")) := by
  unfold Arguments.configuration
  rcases a.config with _ | _ | path <;> rfl

theorem configuration_answers (a : Arguments) (files : Files) :
    Answers (a.configuration env files) (a.Configures env files) (FlagBreaks files a.config) := by
  rw [configuration_eq]
  refine (ofFlag_answers fun path => readOptions_answers env files path).andThen
    fun options _ => ?_
  cases Configuration.ofJsonWith env.validate (.obj (a.options options)) with
  | ok c => exact (Answers.ok c).congr (fun _ => by simp [eq_comm]) fun _ => Iff.rfl
  | error e => exact (Answers.failed _).congr (fun _ => by simp) fun _ => Iff.rfl

theorem Arguments.readDatabase_answers (a : Arguments) (files : Files) :
    Answers (a.readDatabase env files) (a.Supplies env files) (FlagBreaks files a.database) := by
  have heq : a.readDatabase env files =
      ofFlag a.database .bundled (Command.readDatabase env files) := by
    unfold Arguments.readDatabase
    cases a.database <;> rfl
  rw [heq]
  exact ofFlag_answers fun path => Command.readDatabase_answers env files path

/-! ## Stylesheets -/

/-- The mode in which a command line has its stylesheets read. -/
def Arguments.mode (a : Arguments) : Mode := if a.tolerant then .tolerant else .strict

/-- A stylesheet makes a run break off: its path holds the code point zero, the name
that it gives for its encoding does, or the encoding fails in a way of its own. -/
inductive SheetBreaks (files : Files) (path : Text) : Break ε → Prop
  | path (h : '\x00' ∈ path) : SheetBreaks files path .invalidName
  | name {bytes : ByteArray} {name : List UInt8} (h : Opens files path bytes)
      (hname : Encoding.declaredName? bytes.data.toList = some name)
      (hascii : ∀ b ∈ name, b < 0x80) (hzero : 0 ∈ name) : SheetBreaks files path .invalidName
  | encoding {bytes : ByteArray} {name : List UInt8} {t : Text} {e : ε}
      (h : Opens files path bytes)
      (hname : Encoding.declaredName? bytes.data.toList = some name)
      (ht : Encoding.nameText? name = some t) (hzero : 0 ∉ name)
      (hcodec : env.codecs t bytes = .error (.other e)) : SheetBreaks files path (.encoding e)

/-- A stylesheet cannot be audited: there is no file, its bytes are not in its
encoding, the encoding is not known, or the text is refused in the given mode. -/
inductive SheetFails (files : Files) (mode : Mode) (path : Text) : Prop
  | unopened {e : FileError} (hpath : '\x00' ∉ path) (h : files path = .error e)
  | undecodable {bytes : ByteArray} (h : Opens files path bytes)
      (hdecode : Encoding.decodeWith env.codecs bytes = .error .undecodable)
  | unknownEncoding {bytes : ByteArray} {name : Text} (h : Opens files path bytes)
      (hdecode : Encoding.decodeWith env.codecs bytes = .error (.unknownName name))
  | malformed {bytes : ByteArray} {t : Text} {e : SyntaxError} (h : Opens files path bytes)
      (hdecode : Encoding.decodeWith env.codecs bytes = .ok t)
      (hparse : Stylesheet.parse mode t = .error e)

/-- A stylesheet has the given diagnostics. -/
def Audited (audit : Audit) (mode : Mode) (files : Files) (path : Text)
    (ds : List Diagnostic) : Prop :=
  ∃ bytes t, Opens files path bytes ∧ Encoding.decodeWith env.codecs bytes = .ok t ∧
    audit.lint mode t = .ok ds

theorem Stop.ofEncoding_eq_broken_iff {e : EncodingError ε} {b : Break ε} :
    Stop.ofEncoding e = .broken b ↔
      (e = .invalidName ∧ b = .invalidName) ∨ ∃ e', e = .other e' ∧ b = .encoding e' := by
  cases e <;> simp [Stop.ofEncoding, eq_comm]

theorem sheetBreaks_iff {files : Files} {path : Text} {b : Break ε} :
    SheetBreaks env files path b ↔ (b = .invalidName ∧ '\x00' ∈ path) ∨
      ∃ bytes, Opens files path bytes ∧
        ∃ e, Encoding.decodeWith env.codecs bytes = .error e ∧ Stop.ofEncoding e = .broken b := by
  constructor
  · rintro (h | ⟨h, hname, hascii, hzero⟩ | ⟨h, hname, ht, hzero, hcodec⟩)
    · exact .inl ⟨rfl, h⟩
    · exact .inr ⟨_, h, _, Encoding.decodeWith_eq_invalidName_iff.2 ⟨_, hname, hascii, hzero⟩, rfl⟩
    · exact .inr ⟨_, h, _, Encoding.decodeWith_eq_other_iff.2 ⟨_, _, hname, ht, hzero, hcodec⟩,
        rfl⟩
  · rintro (⟨rfl, h⟩ | ⟨bytes, h, e, hdecode, hb⟩)
    · exact .path h
    · rcases Stop.ofEncoding_eq_broken_iff.1 hb with ⟨rfl, rfl⟩ | ⟨e', rfl, rfl⟩
      · obtain ⟨name, hname, hascii, hzero⟩ := Encoding.decodeWith_eq_invalidName_iff.1 hdecode
        exact .name h hname hascii hzero
      · obtain ⟨name, t, hname, ht, hzero, hcodec⟩ := Encoding.decodeWith_eq_other_iff.1 hdecode
        exact .encoding h hname ht hzero hcodec

theorem readStylesheet_answers (files : Files) (path : Text) :
    Answers (readStylesheet env files path)
      (fun t => ∃ bytes, Opens files path bytes ∧ Encoding.decodeWith env.codecs bytes = .ok t)
      (SheetBreaks env files path) := by
  have hdecode (bytes : ByteArray) : Answers
      ((Encoding.decodeWith env.codecs bytes).mapError Stop.ofEncoding)
      (fun t => Encoding.decodeWith env.codecs bytes = .ok t)
      fun b => ∃ e, Encoding.decodeWith env.codecs bytes = .error e ∧
        Stop.ofEncoding e = .broken b := by
    cases Encoding.decodeWith env.codecs bytes with
    | ok t => exact (Answers.ok t).congr (fun _ => by simp [eq_comm]) fun _ => by simp
    | error e =>
        refine ⟨fun t => iff_of_false (fun h => by cases h) (fun h => by cases h), fun b => ?_⟩
        change (Except.error (Stop.ofEncoding e) : Except (Stop ε) Text) = .error (.broken b) ↔ _
        simp
  refine ((readBytes_answers files path).bind fun bytes _ => hdecode bytes).congr
    (fun _ => Iff.rfl) fun b => ?_
  exact (sheetBreaks_iff env).symm

section audited

variable (audit : Audit) (mode : Mode) (files : Files)

theorem auditSource_outcome (path source : Text) :
    (auditSource audit mode path source : FileResult ε).outcome =
      (audit.lint mode source).mapError fun e => .failed e.render := by
  cases h : Stylesheet.ofLexed mode (Source.tokenize source) <;>
    simp only [auditSource, Audit.lint, Stylesheet.parse, h] <;> rfl

theorem auditSource_answers (path source : Text) :
    Answers (auditSource audit mode path source : FileResult ε).outcome
      (fun ds => audit.lint mode source = .ok ds) fun _ => False := by
  rw [auditSource_outcome]
  exact Answers.mapError _ _

theorem auditFile_answers (path : Text) :
    Answers (auditFile env audit mode files path).outcome (Audited env audit mode files path)
      (SheetBreaks env files path) := by
  have heq : (auditFile env audit mode files path).outcome = readStylesheet env files path >>=
      fun source => (auditSource audit mode path source).outcome := by
    unfold auditFile
    cases readStylesheet env files path <;> rfl
  rw [heq]
  refine ((readStylesheet_answers env files path).andThen fun source _ =>
    auditSource_answers audit mode path source).congr (fun ds => ?_) fun _ => Iff.rfl
  constructor
  · rintro ⟨t, ⟨bytes, h, hdecode⟩, hlint⟩
    exact ⟨bytes, t, h, hdecode, hlint⟩
  · rintro ⟨bytes, t, h, hdecode, hlint⟩
    exact ⟨t, ⟨bytes, h, hdecode⟩, hlint⟩

theorem audited_or_fails_or_breaks (path : Text) :
    (∃ ds, Audited env audit mode files path ds) ∨ SheetFails env files mode path ∨
      ∃ b, SheetBreaks env files path b := by
  by_cases hpath : '\x00' ∈ path
  · exact .inr (.inr ⟨_, .path hpath⟩)
  · cases hfile : files path with
    | error e => exact .inr (.inl (.unopened hpath hfile))
    | ok bytes =>
        have hopen : Opens files path bytes := ⟨hpath, hfile⟩
        rcases hdecode : Encoding.decodeWith env.codecs bytes with (_ | name | _ | e) | t
        · exact .inr (.inl (.undecodable hopen hdecode))
        · exact .inr (.inl (.unknownEncoding hopen hdecode))
        · exact .inr (.inr ⟨_, (sheetBreaks_iff env).2 (.inr ⟨bytes, hopen, _, hdecode, rfl⟩)⟩)
        · exact .inr (.inr ⟨_, (sheetBreaks_iff env).2 (.inr ⟨bytes, hopen, _, hdecode, rfl⟩)⟩)
        · cases hparse : Stylesheet.parse mode t with
          | error e => exact .inr (.inl (.malformed hopen hdecode hparse))
          | ok sheet =>
              refine .inl ⟨audit.diagnostics sheet, bytes, t, hopen, hdecode, ?_⟩
              rw [Audit.lint, hparse]
              rfl

end audited

end files

/-! ## One after the other -/

/-- Either all have a property, or there is a first one that has it not. -/
theorem forall_or_exists_first {α : Type} (p : α → Prop) (xs : List α) :
    (∀ x ∈ xs, p x) ∨
      ∃ before x after, xs = before ++ x :: after ∧ (∀ y ∈ before, p y) ∧ ¬ p x := by
  induction xs with
  | nil => exact .inl fun x hx => absurd hx List.not_mem_nil
  | cons x xs ih =>
      by_cases hx : p x
      · rcases ih with hall | ⟨before, y, after, rfl, hbefore, hy⟩
        · exact .inl (List.forall_mem_cons.2 ⟨hx, hall⟩)
        · exact .inr ⟨x :: before, y, after, rfl, List.forall_mem_cons.2 ⟨hx, hbefore⟩, hy⟩
      · exact .inr ⟨[], x, xs, rfl, fun y hy => absurd hy List.not_mem_nil, hx⟩

section collected

variable {ε : Type} {env : Environment ε} {audit : Audit} {mode : Mode} {files : Files}

theorem auditFiles_of_audited {paths : List Text} {ds : Text → List Diagnostic}
    (h : ∀ path ∈ paths, Audited env audit mode files path (ds path)) (results : Results) :
    (auditFiles env audit mode files paths results).1 =
      .ok (paths.foldl (fun r path => Dictionary.put path (ds path) r) results) := by
  induction paths generalizing results with
  | nil => rfl
  | cons path paths ih =>
      obtain ⟨hpath, hpaths⟩ := List.forall_mem_cons.1 h
      have houtcome := ((auditFile_answers env audit mode files path).ok_iff _).2 hpath
      simp only [auditFiles, houtcome, List.foldl_cons]
      exact ih hpaths _

/-- The first file that is not audited decides. -/
theorem auditFiles_of_error {before after : List Text} {path : Text} {why : Stop ε}
    (hbefore : ∀ q ∈ before, ∃ ds, Audited env audit mode files q ds)
    (hpath : (auditFile env audit mode files path).outcome = .error why) (results : Results) :
    (auditFiles env audit mode files (before ++ path :: after) results).1 =
      .error (why.atFile path) := by
  induction before generalizing results with
  | nil => simp only [List.nil_append, auditFiles, hpath]
  | cons q before ih =>
      obtain ⟨⟨ds, hq⟩, hbefore⟩ := List.forall_mem_cons.1 hbefore
      have houtcome := ((auditFile_answers env audit mode files q).ok_iff _).2 hq
      simp only [List.cons_append, auditFiles, houtcome]
      exact ih hbefore _

theorem readStylesheet_of_opens {path : Text} {bytes : ByteArray} (h : Opens files path bytes) :
    readStylesheet env files path =
      (Encoding.decodeWith env.codecs bytes).mapError .ofEncoding := by
  rw [readStylesheet, ((readBytes_answers files path).ok_iff bytes).2 h]
  rfl

theorem exists_failed_of_fails (audit : Audit) {path : Text} (h : SheetFails env files mode path) :
    ∃ message, (auditFile env audit mode files path).outcome = .error (.failed message) := by
  cases h with
  | @unopened e hpath h =>
      have hread : readStylesheet env files path = .error (.failed (byWord e.word)) := by
        rw [readStylesheet, readBytes, if_neg (mt List.contains_iff_mem.1 hpath), h]
        rfl
      exact ⟨byWord e.word, by simp only [auditFile, hread]⟩
  | undecodable h hdecode =>
      refine ⟨byWord "UnicodeDecodeError", ?_⟩
      rw [auditFile, readStylesheet_of_opens h, hdecode]
      rfl
  | unknownEncoding h hdecode =>
      refine ⟨byWord "LookupError", ?_⟩
      rw [auditFile, readStylesheet_of_opens h, hdecode]
      rfl
  | @malformed bytes t e h hdecode hparse =>
      have hread : readStylesheet env files path = .ok t := by
        rw [readStylesheet_of_opens h, hdecode]
        rfl
      refine ⟨e.render, ?_⟩
      simp only [auditFile, hread, auditSource_outcome, Audit.lint, hparse]
      rfl

theorem error_of_breaks {path : Text} {b : Break ε} (h : SheetBreaks env files path b) :
    (auditFile env audit mode files path).outcome = .error (.broken b) :=
  ((auditFile_answers env audit mode files path).broken_iff b).2 h

end collected

/-! ## Runs -/

section runs

variable {ε : Type} {env : Environment ε} {a : Arguments} (terminal : Bool) {files : Files}
  {audit : Audit}

theorem audit_eq (env : Environment ε) (a : Arguments) (terminal : Bool) (files : Files)
    (audit : Audit) :
    ∃ log, a.audit env terminal files audit =
      match (auditFiles env audit a.mode files a.files []).1 with
      | .error why => .stopped log why
      | .ok results =>
        .finished ⟨if results.anyReported then 1 else 0, a.report env terminal results, log⟩ := by
  refine ⟨.loaded audit.database :: (auditFiles env audit a.mode files a.files []).2, ?_⟩
  have hmode : a.mode = if a.tolerant then .tolerant else .strict := rfl
  rw [Arguments.audit, ← hmode]
  rcases auditFiles env audit a.mode files a.files [] with ⟨_ | _, _⟩ <;> rfl

theorem audit_of_audited {ds : Text → List Diagnostic}
    (h : ∀ path ∈ a.files, Audited env audit a.mode files path (ds path)) :
    ∃ log, a.audit env terminal files audit =
      let results : Results := Dictionary.ofList (a.files.map fun path => (path, ds path))
      .finished ⟨if results.anyReported then 1 else 0, a.report env terminal results, log⟩ := by
  obtain ⟨log, hlog⟩ := audit_eq env a terminal files audit
  refine ⟨log, ?_⟩
  rw [hlog, auditFiles_of_audited h, Dictionary.ofList, List.foldl_map]

/-- A file that fails ends the run, if all in front of it are audited. -/
theorem audit_of_fails {before after : List Text} {path : Text}
    (hfiles : a.files = before ++ path :: after)
    (hbefore : ∀ q ∈ before, ∃ ds, Audited env audit a.mode files q ds)
    (h : SheetFails env files a.mode path) :
    ∃ log, a.audit env terminal files audit = .finished ⟨2, "", log⟩ := by
  obtain ⟨message, hfailed⟩ := exists_failed_of_fails audit h
  obtain ⟨log, hlog⟩ := audit_eq env a terminal files audit
  rw [hlog, hfiles, auditFiles_of_error hbefore hfailed]
  exact ⟨_, rfl⟩

theorem audit_of_breaks {before after : List Text} {path : Text} {b : Break ε}
    (hfiles : a.files = before ++ path :: after)
    (hbefore : ∀ q ∈ before, ∃ ds, Audited env audit a.mode files q ds)
    (h : SheetBreaks env files path b) : a.audit env terminal files audit = .broken b := by
  obtain ⟨log, hlog⟩ := audit_eq env a terminal files audit
  rw [hlog, hfiles, auditFiles_of_error hbefore (error_of_breaks h)]
  rfl

/-- What a run goes by before it comes to the stylesheets. -/
def Arguments.setup (env : Environment ε) (a : Arguments) (files : Files) :
    Except (Stop ε) Audit := do
  return ⟨← a.configuration env files, ← a.readDatabase env files⟩

theorem runIn_eq (env : Environment ε) (a : Arguments) (terminal : Bool) (files : Files) :
    a.runIn env terminal files =
    match a.setup env files with
    | .ok audit => a.audit env terminal files audit
    | .error why => .stopped [] why := rfl

theorem setup_answers (env : Environment ε) (a : Arguments) (files : Files) :
    Answers (a.setup env files)
      (fun audit =>
        a.Configures env files audit.configuration ∧ a.Supplies env files audit.database)
      fun b => FlagBreaks files a.config b ∨
        ∃ c, a.Configures env files c ∧ FlagBreaks files a.database b := by
  refine ((configuration_answers env a files).bind fun c _ =>
    (a.readDatabase_answers env files).andThen fun d _ => Answers.ok (⟨c, d⟩ : Audit)).congr
    (fun audit => ?_) fun b => Iff.rfl
  constructor
  · rintro ⟨c, hc, d, hd, rfl⟩
    exact ⟨hc, hd⟩
  · rintro ⟨hc, hd⟩
    exact ⟨_, hc, _, hd, rfl⟩

theorem runIn_of_setup {c : Configuration} {d : Database} (hc : a.Configures env files c)
    (hd : a.Supplies env files d) :
    a.runIn env terminal files = a.audit env terminal files ⟨c, d⟩ := by
  rw [runIn_eq, ((setup_answers env a files).ok_iff ⟨c, d⟩).2 ⟨hc, hd⟩]

end runs

/-- What makes a run break off: the options, the data if the options are accepted,
or a stylesheet if both are accepted and all stylesheets before it are audited. -/
inductive Arguments.BreaksOff {ε : Type} (env : Environment ε) (a : Arguments) (files : Files) :
    Break ε → Prop
  | options {b : Break ε} (h : FlagBreaks files a.config b) : a.BreaksOff env files b
  | data {b : Break ε} {c : Configuration} (hc : a.Configures env files c)
      (h : FlagBreaks files a.database b) : a.BreaksOff env files b
  | stylesheet {b : Break ε} {c : Configuration} {d : Database} {before after : List Text}
      {path : Text}
      (hc : a.Configures env files c) (hd : a.Supplies env files d)
      (hfiles : a.files = before ++ path :: after)
      (hbefore : ∀ q ∈ before, ∃ ds, Audited env ⟨c, d⟩ a.mode files q ds)
      (h : SheetBreaks env files path b) : a.BreaksOff env files b

/-- Nothing is in the way of a run: the options and the data are there, in UTF-8
and JSON, and accepted, and every stylesheet is there, in its encoding, and
accepted in the mode that was asked for. -/
def Arguments.Unhindered {ε : Type} (env : Environment ε) (a : Arguments) (files : Files) :
    Prop :=
  ∃ c d, a.Configures env files c ∧ a.Supplies env files d ∧
    ∀ path ∈ a.files, ∃ ds, Audited env ⟨c, d⟩ a.mode files path ds

section endings

variable {ε : Type} {env : Environment ε} {a : Arguments} (terminal : Bool) {files : Files}

theorem runIn_of_breaksOff {b : Break ε} (h : a.BreaksOff env files b) :
    a.runIn env terminal files = .broken b := by
  cases h with
  | options h =>
      rw [runIn_eq, ((setup_answers env a files).broken_iff b).2 (.inl h)]
      rfl
  | data hc h =>
      rw [runIn_eq, ((setup_answers env a files).broken_iff b).2 (.inr ⟨_, hc, h⟩)]
      rfl
  | stylesheet hc hd hfiles hbefore h =>
      rw [runIn_of_setup terminal hc hd]
      exact audit_of_breaks terminal hfiles hbefore h

/-- Files that each have diagnostics have them by a function of the path. -/
theorem exists_diagnostics {audit : Audit} {mode : Mode} {paths : List Text}
    (h : ∀ path ∈ paths, ∃ ds, Audited env audit mode files path ds) :
    ∃ ds : Text → List Diagnostic, ∀ path ∈ paths, Audited env audit mode files path (ds path) := by
  have htotal : ∀ path, ∃ ds, path ∈ paths → Audited env audit mode files path ds := by
    intro path
    by_cases hpath : path ∈ paths
    · obtain ⟨ds, hds⟩ := h path hpath
      exact ⟨ds, fun _ => hds⟩
    · exact ⟨[], fun hmem => absurd hmem hpath⟩
  exact Classical.axiomOfChoice htotal

theorem runIn_of_unhindered (h : a.Unhindered env files) :
    ∃ f, a.runIn env terminal files = .finished f ∧ (f.status = 0 ∨ f.status = 1) := by
  obtain ⟨c, d, hc, hd, hall⟩ := h
  obtain ⟨ds, hds⟩ := exists_diagnostics hall
  obtain ⟨log, hlog⟩ := audit_of_audited terminal hds
  rw [runIn_of_setup terminal hc hd, hlog]
  refine ⟨_, rfl, ?_⟩
  dsimp only
  split
  · exact .inr rfl
  · exact .inl rfl

/-- What is in the way of a run that does not break off ends it with the status two,
and nothing is written. -/
theorem runIn_of_hindered (h : ¬ a.Unhindered env files) (hbreak : ¬ ∃ b, a.BreaksOff env files b) :
    ∃ log, a.runIn env terminal files = .finished ⟨2, "", log⟩ := by
  cases hsetup : a.setup env files with
  | error why =>
      rw [runIn_eq, hsetup]
      cases why with
      | failed message => exact ⟨_, rfl⟩
      | broken b =>
          rcases ((setup_answers env a files).broken_iff b).1 hsetup with hb | ⟨c, hc, hb⟩
          · exact absurd ⟨b, .options hb⟩ hbreak
          · exact absurd ⟨b, .data hc hb⟩ hbreak
  | ok audit =>
      obtain ⟨hc, hd⟩ := ((setup_answers env a files).ok_iff audit).1 hsetup
      rw [runIn_of_setup terminal hc hd]
      rcases forall_or_exists_first
          (fun path => ∃ ds, Audited env audit a.mode files path ds) a.files
        with hall | ⟨before, path, after, hfiles, hbefore, hpath⟩
      · exact absurd ⟨_, _, hc, hd, hall⟩ h
      · rcases audited_or_fails_or_breaks env audit a.mode files path with
          haudited | hfails | ⟨b, hb⟩
        · exact absurd haudited hpath
        · exact audit_of_fails terminal hfiles hbefore hfails
        · exact absurd ⟨b, .stylesheet hc hd hfiles hbefore hb⟩ hbreak

end endings

/-- A run breaks off in the cases of `BreaksOff`. In all other cases it comes to an
end with one of the statuses zero, one and two, and two means that something was in
the way. -/
theorem run_breaks_off_or_ends {ε : Type} (env : Environment ε) (a : Arguments)
    (terminal : Bool) (files : Files) :
    (∃ b, a.runIn env terminal files = .broken b ∧ a.BreaksOff env files b) ∨
    (∃ f, a.runIn env terminal files = .finished f ∧ (¬ ∃ b, a.BreaksOff env files b) ∧
      f.status ∈ [0, 1, 2] ∧ (f.status = 2 ↔ ¬ a.Unhindered env files)) := by
  by_cases hbreak : ∃ b, a.BreaksOff env files b
  · obtain ⟨b, hb⟩ := hbreak
    exact .inl ⟨b, runIn_of_breaksOff terminal hb, hb⟩
  · refine .inr ?_
    by_cases h : a.Unhindered env files
    · obtain ⟨f, hrun, hstatus⟩ := runIn_of_unhindered terminal h
      refine ⟨f, hrun, hbreak, ?_, ?_⟩
      · rcases hstatus with hstatus | hstatus <;> simp [hstatus]
      · refine iff_of_false ?_ (not_not_intro h)
        omega
    · obtain ⟨log, hrun⟩ := runIn_of_hindered terminal h hbreak
      exact ⟨_, hrun, hbreak, by simp, iff_of_true rfl h⟩

/-- Options that are no UTF-8: the command line is an ordinary one, and the run
breaks off where a missing file of options would end it with the status two. -/
theorem options_not_utf8_break_off :
    let options : Text := "c.json".toList
    let files : Files := fun path => if path = options then .ok ⟨#[0xFF]⟩ else .ok ⟨#[]⟩
    let a : Arguments := { files := ["a.css".toList], config := some (some options) }
    Invocation.ofArguments ["a.css".toList, "--config".toList, options] = .run a ∧
      a.run false files = .broken .undecodable ∧
      ∃ log, a.run false (fun _ => .error .missing) = .finished ⟨2, "", log⟩ := by
  intro options files a
  have hopen : Opens files options ⟨#[0xFF]⟩ := ⟨by decide, rfl⟩
  have hdecode : Encoding.utf8.decode? ⟨#[0xFF]⟩ = none := by decide
  have hwords : classifyAll? ["a.css".toList, "--config".toList, options] =
      some [.plain "a.css".toList, .flag .config false none, .plain options] := by decide
  refine ⟨?_, runIn_of_breaksOff false (.options (.file (.content hopen hdecode))), _, rfl⟩
  rw [Invocation.ofArguments, hwords]
  simp [interpret, Word.isPlain, Word.file?, Progress.takeRun, Progress.takeValue,
    Flag.takesValue, Arguments.setValue?, Progress.finish, a]

end Command

end StyleAudit
