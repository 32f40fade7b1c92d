import EdgeProbe.CommandLine.Run
import EdgeProbe.Text.Utf8

/-!
# The program

Connects the command to the arguments, the environment and the file system it was started with.
-/

namespace EdgeProbe

/-- The number of an error, which some operations give negated. -/
def errorNumber (code : UInt32) : UInt32 :=
  if code < 0x80000000 then code else 0 - code

/-- An error that is known by its number, or else by what the system says. -/
def FileError.ofNumber (code : UInt32) (said : String) : FileError :=
  match (errorNumber code).toNat with
  | 20 => .notDirectory
  | 21 => .isDirectory
  | 36 => .nameTooLong
  | number => ⟨.other, said ++ " (os error " ++ toString number ++ ")"⟩

/-- What the system says about a file operation that failed. -/
def FileError.ofSystem : IO.Error → FileError
  | .noFileOrDirectory _ _ _ => .noEntry
  | .alreadyExists _ _ _ => .alreadyExists
  | .inappropriateType _ code said => .ofNumber code said
  | .invalidArgument _ code said => .ofNumber code said
  | .permissionDenied _ code said => .ofNumber code said
  | .resourceExhausted _ code said => .ofNumber code said
  | e => ⟨.other, toString e⟩

/-- Runs a file operation for its result or for what the system says. -/
def attempt {α : Type} (operation : IO α) : IO (Except FileError α) := do
  match ← operation.toBaseIO with
  | .ok a => return .ok a
  | .error e => return .error (.ofSystem e)

def bytesOf (content : List UInt8) : ByteArray :=
  ⟨content.toArray⟩

def createNew (path : String) (content : List UInt8) : IO Unit := do
  let handle ← IO.FS.Handle.mk path .writeNew
  handle.write (bytesOf content)

/-- The files of the system. -/
def systemFiles : FileAccess IO where
  readText path := do
    match ← attempt (IO.FS.readBinFile path) with
    | .error e => return .error e
    | .ok bytes => return (Text.decode? bytes.toList).elim (.error .notText) .ok
  isPresent path := return (← attempt (IO.FS.realPath path)).toBool
  remove path := attempt (IO.FS.removeFile path)
  create path content := attempt (createNew path content)
  overwrite path content := attempt (IO.FS.writeBinFile path (bytesOf content))

/-- The variables that a run looks at, as they are set. -/
def environment : IO Variables := do
  let values ← Command.variableNames.mapM fun name => return (name, ← IO.getEnv name)
  return fun name => (values.lookup name).join

/-- A seed for runs that are not given one. -/
def drawSeed : IO UInt64 := do
  return ofLeBytes (← IO.getRandomBytes 8).toList

def runCommand (command : Command) : IO UInt32 := do
  let vars ← environment
  let report ← command.run systemFiles vars (← drawSeed)
  let quiet := (vars "AFL_QUIET").isSome
  IO.eprint (report.text quiet command.verbose)
  return report.result.exitCode

end EdgeProbe

open EdgeProbe in
def main (args : List String) : IO UInt32 := do
  match Arguments.command args with
  | .ok command => runCommand command
  | .error .version =>
    IO.print versionText
    return 0
  | .error .help =>
    IO.print helpText
    return 0
  | .error .usage =>
    IO.eprint helpText
    return 2
