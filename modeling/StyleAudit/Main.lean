import StyleAudit.Command.Run

/-!
# The program

Reads the files that the command line names, runs, and writes what the run has written. All that
is decided here is how the reading of a file went.
-/

namespace StyleAudit.Command

/-- How the reading of a file failed; a directory that stands where a file should, and a file
where a directory should, are told apart by the number of the failure, and so is a name that is
too long. -/
def FileError.ofFailure : IO.Error → FileError
  | .inappropriateType _ 21 _ => .isDirectory
  | .inappropriateType _ _ _ => .notDirectory
  | .invalidArgument _ 36 _ => .nameTooLong
  | _ => .missing

/-- The content of a file, or why there is none. -/
def readContent (path : Text) : IO (Except FileError ByteArray) := do
  try return .ok (← IO.FS.readBinFile (String.ofList path))
  catch e => return .error (.ofFailure e)

/-- The files that a command line names. -/
def Arguments.paths (a : Arguments) : List Text :=
  a.config.join.toList ++ a.database.join.toList ++ a.files

/-- The files that a command line names, with their contents. -/
def Arguments.readFiles (a : Arguments) : IO Files := do
  let contents ← a.paths.mapM fun path => return (path, ← readContent path)
  return fun path => (contents.lookup path).getD (.error .missing)

/-- What is told about a run that breaks off. -/
def Break.message {ε : Type} : Break ε → String
  | undecodable => "a file is not UTF-8\n"
  | noPath => "a flag for a file has no path\n"
  | invalidName => "a name holds the code point zero\n"
  | encoding _ => "an encoding fails\n"

/-- How the program is called. -/
def usageLine : String := "usage: cssbaseline FILE... [options]\n"

/-- Runs the program, and gives its exit status. -/
def runProgram (args : List String) : IO UInt32 := do
  let output ← IO.getStdout
  let log ← IO.getStderr
  match Invocation.ofArguments (args.map String.toList) with
  | .usage => log.putStr usageLine; return 2
  | .help => output.putStr usageLine; return 0
  | .version => output.putStr versionLine; return 0
  | .run a =>
    match a.run (← output.isTty) (← a.readFiles) with
    | .finished f =>
      log.putStr (a.shownLog f.log)
      output.putStr f.output
      return UInt32.ofNat f.status
    | .broken b => log.putStr b.message; return 1

end StyleAudit.Command

/-- The program. -/
def main (args : List String) : IO UInt32 := StyleAudit.Command.runProgram args
