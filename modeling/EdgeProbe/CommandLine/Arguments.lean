import EdgeProbe.Settings.Environment

/-!
# Arguments of the command

Options may come before and after the input, and one that takes a value may have it in the next
argument, after an equals sign or, for the short form, right behind the letter. Two hyphens end the
options. No option may be repeated.
-/

namespace EdgeProbe

inductive OptionName where
  | output | artifactsDir | seed | verbose | help | version
  deriving DecidableEq, Inhabited

namespace OptionName

def ofLong? (name : String) : Option OptionName :=
  [("output", output), ("artifacts-dir", artifactsDir), ("seed", seed), ("verbose", verbose),
    ("help", help), ("version", version)].lookup name

def ofShort? (letter : Char) : Option OptionName :=
  [('o', output), ('v', verbose), ('h', help), ('V', version)].lookup letter

def takesValue : OptionName → Bool
  | output | artifactsDir | seed => true
  | verbose | help | version => false

end OptionName

structure Arguments where
  input : Option String := none
  output : Option String := none
  artifactsDir : Option String := none
  seed : Option UInt64 := none
  verbose : Bool := false
  deriving DecidableEq, Inhabited

/-- Why the command does not run. -/
inductive ArgumentsEnd where
  | usage
  | help
  | version
  deriving DecidableEq, Inhabited

/-- A command that is fit to run. -/
structure Command where
  input : String
  output : String
  artifactsDir : Option String
  seed : Option UInt64
  verbose : Bool
  deriving DecidableEq, Inhabited

namespace Arguments

def usage {α : Type} : Except ArgumentsEnd α := .error .usage

/-- Notes the value of an option. -/
def setValue (a : Arguments) (name : OptionName) (value : String) : Except ArgumentsEnd Arguments :=
  match name with
  | .output =>
    if a.output.isSome || value.isEmpty then usage else .ok { a with output := some value }
  | .artifactsDir =>
    if a.artifactsDir.isSome || value.isEmpty then usage
    else .ok { a with artifactsDir := some value }
  | .seed =>
    if a.seed.isSome then usage
    else
      match decimalWord? value.toList with
      | some n => .ok { a with seed := some (UInt64.ofNat n) }
      | none => usage
  | .verbose | .help | .version => usage

/-- Notes an option without a value. -/
def setFlag (a : Arguments) (name : OptionName) : Except ArgumentsEnd Arguments :=
  match name with
  | .verbose => if a.verbose then usage else .ok { a with verbose := true }
  | .help => .error .help
  | .version => .error .version
  | .output | .artifactsDir | .seed => usage

def setInput (a : Arguments) (value : String) : Except ArgumentsEnd Arguments :=
  if a.input.isSome || value.isEmpty then usage else .ok { a with input := some value }

/-- The argument has the form of an option. -/
def looksLikeOption (arg : String) : Bool :=
  match arg.toList with
  | '-' :: _ :: _ => true
  | _ => false

/-- The name and the value of a long option, which begins after its two hyphens. -/
def splitLong (body : List Char) : String × Option String :=
  let name := String.ofList (body.takeWhile (· != '='))
  match body.dropWhile (· != '=') with
  | [] => (name, none)
  | _ :: value => (name, some (String.ofList value))

/-- Goes through the letters behind one hyphen. If the last one takes a value that is still to come,
its name is left over. -/
def shortOptions (a : Arguments) : List Char → Except ArgumentsEnd (Arguments × Option OptionName)
  | [] => .ok (a, none)
  | letter :: rest =>
    match OptionName.ofShort? letter with
    | none => usage
    | some name =>
      if name.takesValue then
        match rest with
        | [] => .ok (a, some name)
        | '=' :: value => (a.setValue name (String.ofList value)).map (·, none)
        | value => (a.setValue name (String.ofList value)).map (·, none)
      else
        match a.setFlag name with
        | .ok a => shortOptions a rest
        | .error e => .error e

/-- Goes through a long option. If its value is still to come, its name is left over. -/
def longOption (a : Arguments) (body : List Char) :
    Except ArgumentsEnd (Arguments × Option OptionName) :=
  let (text, value) := splitLong body
  match OptionName.ofLong? text, value with
  | none, _ => usage
  | some name, some value =>
    if name.takesValue then (a.setValue name value).map (·, none) else usage
  | some name, none =>
    if name.takesValue then .ok (a, some name) else (a.setFlag name).map (·, none)

/-- Goes through arguments behind which there are no options. -/
def operands (a : Arguments) (args : List String) : Except ArgumentsEnd Arguments :=
  args.foldlM setInput a

/-- Goes through arguments, the first of which may be the value of an option. -/
def scan (a : Arguments) : Option OptionName → List String → Except ArgumentsEnd Arguments
  | none, [] => .ok a
  | some _, [] => usage
  | some name, arg :: rest =>
    if looksLikeOption arg then usage
    else
      match a.setValue name arg with
      | .ok a => scan a none rest
      | .error e => .error e
  | none, arg :: rest =>
    match arg.toList with
    | ['-', '-'] => operands a rest
    | '-' :: '-' :: body =>
      match a.longOption body with
      | .ok (a, waiting) => scan a waiting rest
      | .error e => .error e
    | '-' :: c :: body =>
      match a.shortOptions (c :: body) with
      | .ok (a, waiting) => scan a waiting rest
      | .error e => .error e
    | _ =>
      match a.setInput arg with
      | .ok a => scan a none rest
      | .error e => .error e

/-- The command that arguments make. The input and the output must be given. -/
def command (args : List String) : Except ArgumentsEnd Command := do
  let a ← scan {} none args
  match a.input, a.output with
  | some input, some output =>
    return { input, output, artifactsDir := a.artifactsDir, seed := a.seed, verbose := a.verbose }
  | _, _ => usage

end Arguments

def versionText : String := "bcfuzz-instrument 0.6.0\n"

def helpText : String :=
  "Adds edge coverage, comparison splitting and a dictionary to a module\n\n" ++
  "Usage: bcfuzz-instrument [OPTIONS] --output <OUTPUT> <INPUT>\n\n" ++
  "Arguments:\n" ++
  "  <INPUT>  Module to instrument, as JSON\n\n" ++
  "Options:\n" ++
  "  -o, --output <OUTPUT>                Where to write the instrumented module\n" ++
  "      --artifacts-dir <ARTIFACTS_DIR>  Write the artifacts to this directory instead of the " ++
  "AFL_BCCLANG_* paths\n" ++
  "      --seed <SEED>                    Seed for identifier draws, for reproducible builds\n" ++
  "  -v, --verbose                        Also print debug records\n" ++
  "  -h, --help                           Print help\n" ++
  "  -V, --version                        Print version\n"

end EdgeProbe
