import EdgeProbe.Code.Value
import EdgeProbe.Settings.Config
import EdgeProbe.Validity.Flaw

/-!
# What can go wrong

`Fatal` lists the conditions that abandon a run, each with its message. `Fault` lists the
assumptions on a module or on a request whose violation leaves nothing sensible to do: names that
stand for nothing, memory accesses wider than a word, and the like. Faults have no message; a
caller learns only that one arose.
-/

namespace EdgeProbe

inductive Fault where
  | danglingBlock (id : BlockId)
  | danglingInst (id : InstId)
  | danglingGlobal (id : GlobalId)
  | danglingFunction (id : FuncId)
  /-- An instruction was appended before a block was chosen for it. -/
  | noCurrentBlock
  /-- The type of a value was asked for that depends on itself. -/
  | cyclicType (id : InstId)
  /-- The bytes at an address were asked for that is computed from itself. -/
  | cyclicAddress (id : InstId)
  /-- An integer without any bit was asked for its sign bit. -/
  | noSignBit
  /-- A load or store of more bytes than a word has. -/
  | wideAccess (size : Nat)
  /-- The walk up from a block to those that dominate it does not end. -/
  | endlessDominators
  /-- More memory was asked for than addresses can name. -/
  | outOfMemory (size : Nat)
  deriving DecidableEq, Inhabited

/-- A result, unless an assumption was violated on the way to it. -/
abbrev Checked := Except Fault

namespace Checked

theorem bind_eq_ok {ε α β : Type} {x : Except ε α} {f : α → Except ε β} {b : β} :
    x >>= f = .ok b ↔ ∃ a, x = .ok a ∧ f a = .ok b := by
  constructor
  · intro h
    cases x with
    | ok a => exact ⟨a, rfl, h⟩
    | error fault => cases h
  · rintro ⟨a, rfl, h⟩
    exact h

theorem pure_eq_ok {ε α : Type} {a b : α} : (pure a : Except ε α) = .ok b ↔ a = b :=
  ⟨Except.ok.inj, congrArg Except.ok⟩

end Checked

/-- One more than the largest number of bytes that addresses can name. -/
def addressBound : Nat := 0x8000000000000000

/-- Sets room for some bytes aside. -/
def reserve (bytes : Nat) : Checked Unit :=
  if bytes < addressBound then .ok () else .error (.outOfMemory bytes)

inductive Fatal where
  | missingSelection (setting expected : String)
  | invalidSelection (setting value expected : String)
  | invalidMapSize (value : String)
  | mapSizeOverflow (requested : Nat)
  | missingOutputPath (setting : String)
  | outputExists (path : String)
  | unsupportedWidth (function : String) (width : Nat)
  | switchPresent (function : String) (block : BlockId)
  | sharedLandingPad (function : String) (block : BlockId) (predecessors : Nat)
  | alreadyInstrumented (function name : String)
  | fanOutExceeded (function : String) (limit : Nat)
  | verification (function : String) (flaw : Flaw)
  deriving DecidableEq, Inhabited

namespace Fatal

def message : Fatal → String
  | missingSelection setting expected =>
    setting ++ " is not set. Must be \x7b" ++ expected ++ "\x7d"
  | invalidSelection setting value expected =>
    "Invalid " ++ setting ++ "=" ++ value ++ ". Must be \x7b" ++ expected ++ "\x7d"
  | invalidMapSize value => "Invalid AFL_MAP_SIZE=" ++ value ++ ", expected a size in KiB"
  | mapSizeOverflow requested =>
    "Overflow map size " ++ toString requested ++ " KiB. Max value accepted is " ++
      toString largestMapSizeKib
  | missingOutputPath setting => setting ++ " not defined"
  | outputExists path => "File " ++ path ++ " already exists"
  | unsupportedWidth function width =>
    "Unsupported integer width " ++ toString width ++ " in function " ++ function
  | switchPresent function block =>
    "Found switch instruction in " ++ function ++ "/" ++ block.text ++
      ". Lower switches before instrumenting"
  | sharedLandingPad function block predecessors =>
    "Landing pad " ++ block.text ++ " in " ++ function ++ " has " ++ toString predecessors ++
      " predecessors"
  | alreadyInstrumented function name =>
    "Unique successor " ++ name ++ " in " ++ function ++ " already instrumented"
  | fanOutExceeded function limit =>
    "More than " ++ toString limit ++ " dictionary entries attached to one instruction in " ++
      function
  | verification function flaw => "Invalid IR in " ++ function ++ ": " ++ flaw.message

end Fatal

end EdgeProbe
