import EdgeProbe.Literal.Finding
import EdgeProbe.Pass

/-!
# Harvesting literals

Literals whose length is within the limits become tokens on the instruction that consumes them, or
on the comparisons and phis that read its result.
-/

namespace EdgeProbe

/-- The remark on a literal that is too short or too long. -/
def invalidLength (bytes : List UInt8) : Log.Record :=
  { level := .warning
    message := "Ignoring token of invalid length '" ++ Text.decodeLossy bytes ++ "'" }

/-- The token for some bytes, if their length is within the limits. -/
def Token.ofBytes? (limits : Limits) (text : Bool) (bytes : List UInt8) (provenance : String)
    (origin : Origin) : Option Token :=
  (Token.encode? limits text bytes).map fun value => { value, provenance, origin }

def Literal.token? (l : Literal) (limits : Limits) : Option Token :=
  Token.ofBytes? limits l.text l.bytes l.provenance l.origin

/-- What a finding adds to the log. -/
def Finding.records (limits : Limits) : Finding → List Log.Record
  | .remark record => [record]
  | .literal l => if (l.token? limits).isSome then [] else [invalidLength l.bytes]

/-- The literal of a finding with its token, if it has one. -/
def Finding.planned (limits : Limits) : Finding → List (Literal × Token)
  | .remark _ => []
  | .literal l => ((l.token? limits).map (l, ·)).toList

namespace Edit

/-- The comparisons and phis that read the result of an instruction. -/
def resultUsers (id : InstId) : Edit (List InstId) :=
  query fun f => do
    (← f.instUsers id).filterM fun user => do
      match ← f.kind user with
      | .icmp _ _ _ | .phi _ _ => return true
      | _ => return false

/-- Puts a token on the comparisons and phis that read the result of an instruction, and counts
them. -/
def attachToResultUsers (id : InstId) (token : Token) (limits : Limits) : Edit Nat := do
  let users ← resultUsers id
  users.forM fun user => attach user token limits
  return users.length

/-- Puts the token of a literal where it belongs, and counts how often. -/
def attachLiteral (l : Literal) (token : Token) (limits : Limits) : Edit Nat := do
  if l.atUsers then attachToResultUsers l.inst token limits
  else do
    attach l.inst token limits
    return 1

end Edit

namespace Pass

/-- Turns findings into tokens. All are found before the first one is attached. -/
def harvestWith (limits : Limits)
    (findAt : Module → FuncId → Function → InstId → Checked (List Finding)) : Pass Nat := do
  let found ← query fun m => m.findings (findAt m)
  reportAll (found.flatMap (Finding.records limits))
  sumOver (found.flatMap (Finding.planned limits)) fun (l, token) =>
    inFunction l.function (Edit.attachLiteral l token limits)

def harvestArrays (limits : Limits) : Pass Nat :=
  harvestWith limits Module.arraysAt

def harvestStores (limits : Limits) : Pass Nat :=
  harvestWith limits Module.storesAt

def harvestStructs (limits : Limits) : Pass Nat :=
  harvestWith limits Module.structFieldsAt

def harvestCallStrings (config : Config) : Pass Nat :=
  harvestWith config.limits fun m id f inst => m.callStringsAt id f config.ignoreStringsTo inst

end Pass

structure HarvestStats where
  arrays : Nat := 0
  stores : Nat := 0
  structFields : Nat := 0
  callStrings : Nat := 0
  deriving DecidableEq, Inhabited

def HarvestStats.total (s : HarvestStats) : Nat :=
  s.arrays + s.stores + s.structFields + s.callStrings

namespace Pass

/-- The closing remark of a pass that records tokens. -/
def reportRecorded (count : Nat) (pairs : List (String × String) := []) : Pass Unit :=
  if count = 0 then warn "No entries added to DICT."
  else info ("Added " ++ toString count ++ " entries to DICT.") pairs

def harvest (config : Config) : Pass HarvestStats := do
  let arrays ← harvestArrays config.limits
  let stores ← harvestStores config.limits
  let structFields ← harvestStructs config.limits
  let callStrings ← harvestCallStrings config
  let stats : HarvestStats := { arrays, stores, structFields, callStrings }
  reportRecorded stats.total
    [("arrays", toString arrays), ("stores", toString stores),
      ("struct_fields", toString structFields), ("call_strings", toString callStrings)]
  return stats

end Pass

end EdgeProbe
