import EdgeProbe.Literal.Consumer
import EdgeProbe.Text.Utf8
import EdgeProbe.Log
import EdgeProbe.Token.Provenance

/-!
# Literals found at instructions

Each kind of literal has a function that says what is found at one instruction, without touching
anything: the literals, with the instruction that shall carry them, and remarks for the log.
-/

namespace EdgeProbe

structure Literal where
  function : FuncId
  inst : InstId
  bytes : List UInt8
  text : Bool
  provenance : String
  origin : Origin
  /-- The token goes to those who read the result of the instruction. -/
  atUsers : Bool
  deriving DecidableEq, Inhabited

inductive Finding where
  | literal (l : Literal)
  | remark (r : Log.Record)
  deriving DecidableEq, Inhabited

namespace Module

variable (m : Module) (id : FuncId) (f : Function)

/-- An array that is copied out of a constant global to where a comparison call reads it. -/
def arraysAt (inst : InstId) : Checked (List Finding) := do
  let callee? ← m.cCallee? f inst
  if !(callee?.any fun name => Text.startsWith name "llvm.memcpy") then return []
  match (← f.kind inst).args with
  | .inst target :: source :: _ =>
    match ← m.constantBytes? f source with
    | none => return []
    | some data =>
      (← m.compareConsumers f target inst).mapM fun consumer => do
        let isMemcmp := (← m.cCallee? f consumer) == some "memcmp"
        return .literal {
          function := id, inst := consumer
          bytes := if isMemcmp then data else beforeNul data
          text := true, provenance := ← f.provenance inst
          origin := .arrayLiteral, atUsers := true }
  | _ => return []

/-- An integer that is stored to where a comparison call reads it. -/
def storesAt (inst : InstId) : Checked (List Finding) := do
  match ← f.kind inst with
  | .store (.const constant) (.inst ptr) =>
    match constant.leBytes? with
    | none => return []
    | some bytes =>
      (← m.compareConsumers f ptr inst).mapM fun consumer =>
        return .literal {
          function := id, inst := consumer, bytes, text := true
          provenance := ← f.provenance consumer, origin := .storedConstant, atUsers := true }
  | _ => return []

end Module

namespace Initializer

mutual

/-- The integers of whole bytes in a structure, at every depth. -/
def integerFields : Initializer → List (List UInt8)
  | .struct fields => integersAmong fields
  | _ => []

def integersAmong : List Initializer → List (List UInt8)
  | [] => []
  | field :: rest => field.asField ++ integersAmong rest

/-- What a field contributes. -/
def asField : Initializer → List (List UInt8)
  | .struct fields => integersAmong fields
  | .int width bits => (Constant.ofWord width bits).leBytes?.toList
  | _ => []

end

end Initializer

namespace Module

variable (m : Module) (id : FuncId) (f : Function)

/-- The integer fields of a constant structure that is passed to a call. -/
def structFieldsAt (inst : InstId) : Checked (List Finding) := do
  match ← m.cCallee? f inst with
  | none => return []
  | some _ =>
    let found ← (← f.kind inst).args.mapM fun
      | .global g => do
        let g ← m.global g
        match g.contents with
        | some (.struct fields) =>
          if g.constant then
            (Initializer.struct fields).integerFields.mapM fun bytes =>
              return .literal {
                function := id, inst, bytes, text := false
                provenance := ← f.provenance inst, origin := .structField, atUsers := false }
          else return []
        | _ => return []
      | _ => return []
    return found.flatten

/-- The remark on the use of an environment variable. -/
def environmentRemark (name? : Option (List UInt8)) : Log.Record :=
  match name? with
  | some name =>
    { level := .warning
      message := "Environment variable '" ++ Text.decodeLossy (beforeNul name) ++ "' used" }
  | none => { level := .warning, message := "(Non-constant?) Environment variable used" }

/-- The strings that are passed to a call. -/
def callStringsAt (ignored : List String) (inst : InstId) : Checked (List Finding) := do
  match ← f.kind inst with
  | .call (.direct target) args _ =>
    let target ← m.function target
    if target.isIntrinsic || isDenied target.name ignored then return []
    if target.name == "getenv" then
      let name? ←
        match args.head? with
        | some arg => m.constantBytes? f arg
        | none => pure none
      return [.remark (environmentRemark name?)]
    if target.conv == .c && compareFunctions.contains target.name then return []
    let found ← args.mapM fun arg => do
      match ← m.constantBytes? f arg with
      | none | some [] => return []
      | some bytes =>
        return [Finding.literal {
          function := id, inst, bytes, text := true
          provenance := ← f.provenance inst, origin := .callArgument, atUsers := false }]
    return found.flatten
  | _ => return []

/-- What is found at the live instructions of all functions, in order. -/
def findings (m : Module) (findAt : FuncId → Function → InstId → Checked (List Finding)) :
    Checked (List Finding) := do
  let found ← m.functionIds.mapM fun id => do
    let f ← m.function id
    return (← (← f.liveInsts).mapM (findAt id f)).flatten
  return found.flatten

end Module

end EdgeProbe
