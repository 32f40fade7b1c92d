import EdgeProbe.Lowering.Chain

/-!
# Lowering selections

A selection on a one-bit condition becomes a branch to two fresh blocks, joined by the phi that the
selection turns into.
-/

namespace EdgeProbe

/-- The live selections that are decided by one bit. -/
def Function.selects (f : Function) : Checked (List InstId) := do
  (← f.liveInsts).filterM fun id => do
    match ← f.kind id with
    | .select cond _ _ => return (← f.valueType cond) == .i1
    | _ => return false

namespace Edit

/-- Splits off the three blocks that a selection needs. -/
def splitThrice (l : Label) (id : InstId) : Edit (Option (BlockId × BlockId × BlockId)) := do
  match ← splitAt l id ".True" with
  | none => return none
  | some (_, onTrue) =>
    match ← splitAt l id ".False" with
    | none => return none
    | some (_, onFalse) =>
      match ← splitAt l id ".End" with
      | none => return none
      | some (_, join) => return some (onTrue, onFalse, join)

/-- Lowers a selection, if it is one still, and counts it. -/
def lowerSelect (count : Nat) (id : InstId) : Edit Nat := do
  match ← kind id with
  | .select cond ifTrue ifFalse =>
    let ty ← query (·.instType id)
    match ← query (·.position? id) with
    | none => return 0
    | some (parent, _) =>
      let name := (← query (·.block parent)).givenName
      let l ← labelFor (name ++ ".S2B." ++ toString count) id
      match ← splitThrice l id with
      | none => return 0
      | some (onTrue, onFalse, join) =>
        setTerminator parent (.condBr cond onTrue onFalse)
        setTerminator onTrue (.br join)
        replaceKind id (.phi ty [(ifTrue, onTrue), (ifFalse, onFalse)])
        return 1
  | _ => return 0

/-- Lowers the selections of a function, numbered on from `count`. -/
def lowerSelects (count : Nat) : Edit Nat := do
  (← query Function.selects).foldlM (fun count id => return count + (← lowerSelect count id)) count

end Edit

namespace Pass

def lowerSelects : Pass Nat := do
  let count ← (← functionIds).foldlM
    (fun count id => inFunction id (Edit.lowerSelects count)) 0
  if count = 0 then warn "No instrumentation SELECT found."
  else info ("Instrumented " ++ toString count ++ " SELECT.")
  return count

end Pass

end EdgeProbe
