/-!
# Log records

Passes report what they do as records. `Record.line` is how one is shown, with its pairs from the
last to the first, and `Verbosity.shows` tells which ones are shown at all.
-/

namespace EdgeProbe.Log

inductive Level where
  | error | warning | info | debug
  deriving DecidableEq, Inhabited

def Level.label : Level → String
  | .error => "[-] PROGRAM ABORT : "
  | .warning => "[!] WARNING: "
  | .info => "[+] "
  | .debug => "[*] "

def Level.rank : Level → Nat
  | .error => 0
  | .warning => 1
  | .info => 2
  | .debug => 3

structure Record where
  level : Level
  message : String
  pairs : List (String × String) := []
  deriving DecidableEq, Inhabited

def Record.line (r : Record) : String :=
  r.level.label ++ r.message ++
    String.join (r.pairs.reverse.map fun pair => " " ++ pair.1 ++ "=" ++ pair.2) ++ "\n"

/-- The least important level that is shown. -/
structure Verbosity where
  least : Level
  deriving DecidableEq, Inhabited

namespace Verbosity

/-- Quiet runs show warnings and errors only, whether verbose or not. -/
def of (quiet verbose : Bool) : Verbosity :=
  if quiet then ⟨.warning⟩ else if verbose then ⟨.debug⟩ else ⟨.info⟩

def shows (v : Verbosity) (r : Record) : Bool :=
  r.level.rank ≤ v.least.rank

/-- The text that records make. -/
def text (v : Verbosity) (records : List Record) : String :=
  String.join ((records.filter v.shows).map Record.line)

end Verbosity

end EdgeProbe.Log
