import StyleAudit.Json.Basic
import StyleAudit.Text.Digit

/-!
# Arguments

The words of a command line are files, flags and values of flags. A long flag may be shortened as
long as it stays unambiguous, and its value may follow an equals sign; short flags may be written
together, also behind an equals sign; a word of two hyphens makes files of all words behind it,
and as a value behind an equals sign it stands for no value. The files stand together in one run.

Words are first classified one by one, and then taken in order. The first one that asks for help,
asks for the version or is wrong decides; whether something was left over or missing is asked at
the end.
-/

namespace StyleAudit.Command

/-- The flags. -/
inductive Flag where
  | help
  | available
  | allowProperty
  | allowAtRule
  | allowSelector
  | config
  | database
  | tolerant
  | format
  | noColor
  | verbose
  | version
deriving DecidableEq, Repr

namespace Flag

/-- The spellings of the flags. -/
def spellings : List (Text × Flag) :=
  [("-h".toList, help), ("--help".toList, help), ("--available".toList, available),
   ("--allow-property".toList, allowProperty), ("--allow-at-rule".toList, allowAtRule),
   ("--allow-selector".toList, allowSelector), ("--config".toList, config),
   ("--database".toList, database), ("--tolerant".toList, tolerant), ("--format".toList, format),
   ("--no-color".toList, noColor), ("-v".toList, verbose), ("--verbose".toList, verbose),
   ("--version".toList, version)]

/-- The flag of a spelling. -/
def ofSpelling? (t : Text) : Option Flag :=
  (spellings.find? fun s => s.1 = t).map Prod.snd

/-- Whether a flag has a value. -/
def takesValue : Flag → Bool
  | available | allowProperty | allowAtRule | allowSelector | config | database | format => true
  | help | tolerant | noColor | verbose | version => false

end Flag

/-! ## Classification -/

/-- What a word is: a file or the value of a flag, the word of two hyphens, a flag with what is
attached to it in the same word, or something that looks like a flag. -/
inductive Word where
  | plain (t : Text)
  | separator
  | flag (f : Flag) (isShort : Bool) (attached : Option Text)
  | unknown
deriving DecidableEq, Repr

/-- The word of two hyphens. -/
def separatorText : Text := "--".toList

/-- A text without the line feed that it may end with. -/
def withoutLineEnd (t : Text) : Text := if t.getLast? = some '\n' then t.dropLast else t

/-- Whether a word looks like a negative number; a line feed at its end is of no account. -/
def isNegativeNumber (t : Text) : Bool :=
  let isDigit (c : Char) : Bool := (Text.Digit.value? c).isSome
  match withoutLineEnd t with
  | '-' :: body =>
    let whole := body.takeWhile isDigit
    match body.drop whole.length with
    | [] => !whole.isEmpty
    | '.' :: fraction => !fraction.isEmpty && fraction.all isDigit
    | _ => false
  | _ => false

/-- The two parts of a word around its first equals sign. -/
def splitEquals (t : Text) : Text × Option Text :=
  match t.dropWhile (· ≠ '=') with
  | _ :: value => (t.takeWhile (· ≠ '='), some value)
  | [] => (t, none)

/-- The flags that a word which starts with a hyphen can mean without being one in full. -/
def candidates (t : Text) : List Word :=
  if separatorText.isPrefixOf t then
    let (start, attached) := splitEquals t
    (Flag.spellings.filter fun s => start.isPrefixOf s.1).map fun s => .flag s.2 false attached
  else
    (Flag.spellings.filter fun s => s.1 = t.take 2).map fun s => .flag s.2 true (some (t.drop 2))

/-- What a word is; none if it can mean several flags. -/
def classify? (t : Text) : Option Word :=
  match t with
  | '-' :: rest =>
    let isShort := rest.head? ≠ some '-'
    match Flag.ofSpelling? t with
    | some f => some (.flag f isShort none)
    | none =>
      if rest.isEmpty then some (.plain t)
      else
        let (name, attached) := splitEquals t
        match Flag.ofSpelling? name with
        | some f => some (.flag f isShort attached)
        | none => match candidates t with
          | [word] => some word
          | [] => some (if isNegativeNumber t || t.contains ' ' then .plain t else .unknown)
          | _ => none
  | _ => some (.plain t)

/-- What the words of a command line are; none if one can mean several flags. -/
def classifyAll? : List Text → Option (List Word)
  | [] => some []
  | t :: rest =>
    if t = separatorText then some (.separator :: rest.map .plain)
    else do return (← classify? t) :: (← classifyAll? rest)

/-! ## Interpretation -/

/-- The value given to a flag: none if it was given as the word of two hyphens. -/
abbrev Value := Option Text

/-- The value that is attached to a flag. -/
def Value.ofAttached (t : Text) : Value := if t = separatorText then none else some t

/-- A value as an option: none is an empty list. -/
def Value.toJson : Value → Json
  | some t => .ofText t
  | none => .arr []

/-- What a command line asks for. -/
structure Arguments where
  files : List Text := []
  available : Option Json := none
  allowProperties : List Value := []
  allowAtRules : List Value := []
  allowSelectors : List Value := []
  config : Option Value := none
  database : Option Value := none
  tolerant : Bool := false
  json : Bool := false
  noColor : Bool := false
  verbose : Bool := false

/-- A command line: a wrong one, one that asks for help or the version, or a run. -/
inductive Invocation where
  | usage
  | help
  | version
  | run (a : Arguments)

namespace Arguments

/-- The threshold that a value spells: a number if it is one of digits. -/
def threshold? (value : Value) : Option Json :=
  match value with
  | some t => if Text.isNumeral t then (Text.natural? t).map fun n => .int n else some value.toJson
  | none => some value.toJson

/-- Whether a value asks for the report as JSON; none if it asks for no report there is. -/
def isJson? (value : Value) : Option Bool :=
  match value with
  | some t =>
    if t = "json".toList then some true else if t = "text".toList then some false else none
  | none => some false

/-- The arguments with the value of a flag; none if the value is wrong. -/
def setValue? (a : Arguments) (f : Flag) (value : Value) : Option Arguments :=
  match f with
  | .available => (threshold? value).map fun t => { a with available := some t }
  | .allowProperty => some { a with allowProperties := a.allowProperties ++ [value] }
  | .allowAtRule => some { a with allowAtRules := a.allowAtRules ++ [value] }
  | .allowSelector => some { a with allowSelectors := a.allowSelectors ++ [value] }
  | .config => some { a with config := some value }
  | .database => some { a with database := some value }
  | .format => (isJson? value).map fun json => { a with json }
  | _ => some a

/-- The arguments with flags that have no value, or the first of them that ends the command. -/
def setAll (a : Arguments) : List Flag → Except Invocation Arguments
  | [] => .ok a
  | .help :: _ => .error .help
  | .version :: _ => .error .version
  | .tolerant :: rest => setAll { a with tolerant := true } rest
  | .noColor :: rest => setAll { a with noColor := true } rest
  | .verbose :: rest => setAll { a with verbose := true } rest
  | _ :: rest => setAll a rest

end Arguments

/-- The short flags written behind another one; none if a letter is no flag. -/
def cluster? (t : Text) : Option (List Flag) := t.mapM fun c => Flag.ofSpelling? ['-', c]

/-- The command line so far: the arguments, whether the files have been found, and whether a word
was left over. -/
structure Progress where
  arguments : Arguments := {}
  filesFound : Bool := false
  leftOver : Bool := false

/-- Whether a word is no flag. -/
def Word.isPlain : Word → Bool
  | .plain _ | .separator => true
  | _ => false

/-- The text of a word that is a file. -/
def Word.file? : Word → Option Text
  | .plain t => some t
  | _ => none

namespace Progress

/-- The first run of words that are no flags are the files; any other is left over, and so is one
without files. -/
def takeRun (p : Progress) (run : List Word) : Progress :=
  let files := run.filterMap Word.file?
  if p.filesFound || files.isEmpty then { p with leftOver := true }
  else { p with filesFound := true, arguments := { p.arguments with files } }

/-- The command line, all words having been taken. -/
def finish (p : Progress) : Invocation :=
  if p.leftOver || !p.filesFound then .usage else .run p.arguments

/-- Flags without values. -/
def takeFlags (p : Progress) (flags : List Flag) : Except Invocation Progress :=
  (p.arguments.setAll flags).map fun arguments => { p with arguments }

/-- A flag with its value. -/
def takeValue (p : Progress) (f : Flag) (value : Value) : Except Invocation Progress :=
  match p.arguments.setValue? f value with
  | some arguments => .ok { p with arguments }
  | none => .error .usage

/-- A flag with what is attached to it: its value, or other short flags. -/
def takeAttached (p : Progress) (f : Flag) (isShort : Bool) (attached : Text) :
    Except Invocation Progress :=
  if f.takesValue then p.takeValue f (.ofAttached attached)
  else if isShort && !attached.isEmpty then
    match cluster? attached with
    | some flags => p.takeFlags (f :: flags)
    | none => .error .usage
  else .error .usage

end Progress

/-- The command line of some words, after those that have been taken. -/
def interpret (p : Progress) (words : List Word) : Invocation :=
  match words with
  | [] => p.finish
  | .unknown :: rest => interpret { p with leftOver := true } rest
  | .flag f isShort (some attached) :: rest =>
    match p.takeAttached f isShort attached with
    | .ok p => interpret p rest
    | .error i => i
  | .flag f _ none :: rest =>
    if f.takesValue then
      match rest with
      | .plain value :: after =>
        match p.takeValue f (some value) with
        | .ok p => interpret p after
        | .error i => i
      | _ => .usage
    else
      match p.takeFlags [f] with
      | .ok p => interpret p rest
      | .error i => i
  | word :: rest =>
    interpret (p.takeRun (word :: rest.takeWhile Word.isPlain)) (rest.dropWhile Word.isPlain)
termination_by words.length
decreasing_by
  all_goals simp only [List.length_cons]
  · omega
  · omega
  · omega
  · omega
  · exact Nat.lt_succ_of_le (List.dropWhile_suffix _).length_le

/-- The command line of some arguments. -/
def Invocation.ofArguments (args : List Text) : Invocation :=
  match classifyAll? args with
  | some words => interpret {} words
  | none => .usage

end StyleAudit.Command
