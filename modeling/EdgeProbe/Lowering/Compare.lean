import EdgeProbe.Literal.Harvest
import EdgeProbe.Lowering.Chain
import EdgeProbe.Lowering.Magic

/-!
# Taking integer comparisons apart

Three steps, each over the whole module. Comparisons that allow equality become a strict one
and an equality. Signed ones compare the signs first. What is left, equalities and unsigned strict
comparisons, is halved from 64 bits down to eight, the upper halves deciding first. Before that the
constant of an equality becomes a token, which stays with the comparison of the upper halves.
-/

namespace EdgeProbe

structure CompareStats where
  /-- Comparisons that allowed equality. -/
  simplified : Nat := 0
  /-- Signed comparisons. -/
  signNormalized : Nat := 0
  /-- Comparisons, of those in the program, that were halved. -/
  halved : Nat := 0
  /-- Comparisons whose constant was recorded. -/
  recorded : Nat := 0
  deriving DecidableEq, Inhabited

def CompareStats.updates (s : CompareStats) : Nat :=
  s.simplified + s.signNormalized + s.halved

/-- The comparison an instruction is. -/
def InstKind.comparison? : InstKind → Option (Predicate × Value × Value)
  | .icmp pred lhs rhs => some (pred, lhs, rhs)
  | _ => none

namespace Predicate

/-- The predicate without equality. -/
def strict : Predicate → Predicate
  | .uge => .ugt
  | .sge => .sgt
  | .ule => .ult
  | _ => .slt

/-- The unsigned order that decides when the signs agree. -/
def unsigned : Predicate → Predicate
  | .sgt => .ugt
  | _ => .ult

/-- The order of sign bits that decides when they differ: the greater number has the smaller one. -/
def ofSigns : Predicate → Predicate
  | .sgt => .ult
  | _ => .ugt

/-- The opposite strict order. -/
def converse : Predicate → Predicate
  | .ugt => .ult
  | _ => .ugt

end Predicate

namespace Edit

/-- Turns a comparison that allows equality into a strict one which, when it fails, an equality
follows. -/
def simplify (id : InstId) : Edit Unit := do
  match (← kind id).comparison? with
  | none => return ()
  | some (pred, lhs, rhs) =>
    let l ← labelFor "C2U." id
    match ← splitAt l id "NewBB.ICmp" with
    | none => return ()
    | some (head, join) =>
      let strict ← emitValue l head (.icmp pred.strict lhs rhs) "ICmp.NewPred"
      let middle ← blockBefore l "InjectedMBB" join
      let equal ← emitValue l middle (.icmp .eq lhs rhs) "ICmp.ICMP_EQ"
      setTerminator middle (.br join)
      setTerminator head (.condBr strict join middle)
      replaceKind id (.phi .i1 [(equal, middle), (.ofBool true, head)])

/-- The sign bit of a value. -/
def emitSign (l : Label) (block : BlockId) (value shift : Value) (n : String) : Edit Value := do
  let shifted ← emitValue l block (.binary .lshr value shift) ("LShr" ++ n)
  emitValue l block (.cast .trunc shifted 1) ("Lower" ++ n)

/-- Turns a signed comparison into one of the signs and, when they agree, an unsigned one. -/
def normalizeSign (width : Nat) (id : InstId) : Edit Unit := do
  match (← kind id).comparison? with
  | none => return ()
  | some (pred, lhs, rhs) =>
    let l ← labelFor "C2U.SimplifySign." id
    match ← splitAt l id "NewBB" with
    | none => return ()
    | some (head, join) =>
      if width = 0 then query fun _ => throw .noSignBit
      let shift := Value.ofWord width (UInt64.ofNat (width - 1))
      let sign0 ← emitSign l head lhs shift "0"
      let sign1 ← emitSign l head rhs shift "1"
      let sameSign ← emitValue l head (.icmp .eq sign0 sign1) "EQ01"
      let signBlock ← blockBefore l "NewBB.SignNEq" join
      let bySign ← emitValue l signBlock (.icmp pred.ofSigns sign0 sign1) "ICmp.Sign"
      setTerminator signBlock (.br join)
      let middle ← blockBefore l "NewBB.SignEq" join
      let byValue ← emitValue l middle (.icmp pred.unsigned lhs rhs) "ICmp.NewPred"
      setTerminator middle (.br join)
      setTerminator head (.condBr sameSign middle signBlock)
      replaceKind id (.phi .i1 [(byValue, middle), (bySign, signBlock)])

/-- Simplifies the comparisons of a function that allow equality, and counts them. -/
def simplifyAll : Edit Nat := do
  let sites ← query fun f => f.candidates [.uge, .sge, .ule, .sle]
  sites.forM fun site => simplify site.1
  return sites.length

/-- Normalizes the signed comparisons of a function, and counts them. -/
def normalizeSigns : Edit Nat := do
  let sites ← query fun f => f.candidates [.sgt, .slt]
  sites.forM fun site => normalizeSign site.2 site.1
  return sites.length

/-- The upper half of a value. -/
def emitHigh (l : Label) (block : BlockId) (width : Nat) (value : Value) (n : String) :
    Edit Value := do
  let amount := Value.ofWord width (UInt64.ofNat (width / 2))
  let shifted ← emitValue l block (.binary .lshr value amount) ("Upper" ++ n)
  emitValue l block (.cast .trunc shifted (width / 2)) ("TruncUpper" ++ n)

/-- The lower half of a value. -/
def emitLow (l : Label) (block : BlockId) (width : Nat) (value : Value) (n : String) :
    Edit Value :=
  emitValue l block (.cast .trunc value (width / 2)) ("Lower" ++ n)

/-- Compares the lower halves of two values in a block of their own that leads to the join. -/
def compareLow (l : Label) (name : String) (width : Nat) (pred : Predicate) (lhs rhs : Value)
    (join : BlockId) : Edit (BlockId × InstId) := do
  let block ← blockBefore l name join
  let low0 ← emitLow l block width lhs "0"
  let low1 ← emitLow l block width rhs "1"
  let low ← emit l block (.icmp pred low0 low1) "ICmp.Low"
  setTerminator block (.br join)
  return (block, low)

/-- Finishes the halving of an equality, whose token goes to the comparison of the upper halves. -/
def halveEquality (l : Label) (width : Nat) (id : InstId) (pred : Predicate) (lhs rhs : Value)
    (head join : BlockId) (high : InstId) : Edit Unit := do
  let (lowBlock, low) ← compareLow l "NewBB.ICmp.Low" width pred lhs rhs join
  if pred == .eq then setTerminator head (.condBr (.inst high) lowBlock join)
  else setTerminator head (.condBr (.inst high) join lowBlock)
  replaceKind id (.phi .i1 [(.inst low, lowBlock), (.ofBool (pred == .ne), head)])
  setAnnotations fun a => a.moveOrigin id high .comparedInteger
  markSplit high
  markSplit low

/-- Finishes the halving of an order: when the upper halves do not decide for it, they may decide
against it, and only then the lower ones are compared. -/
def halveOrder (l : Label) (width : Nat) (id : InstId) (pred : Predicate) (lhs rhs : Value)
    (head join : BlockId) (high : InstId) (high0 high1 : Value) : Edit Unit := do
  let inverseBlock ← blockBefore l "NewBB.Inv_cmp" join
  let inverse ← emitValue l inverseBlock (.icmp pred.converse high0 high1) "ICmp.Inv"
  setTerminator head (.condBr (.inst high) join inverseBlock)
  let (lowBlock, low) ← compareLow l "LowerBB.Low" width pred lhs rhs join
  setTerminator inverseBlock (.condBr inverse join lowBlock)
  replaceKind id
    (.phi .i1 [(.inst low, lowBlock), (.ofBool true, head), (.ofBool false, inverseBlock)])

/-- Replaces a comparison by comparisons of half the width. -/
def halve (width : Nat) (id : InstId) (pred : Predicate) (lhs rhs : Value) : Edit Unit := do
  let l ← labelFor ("C2U.HalfCompare." ++ toString (width / 2) ++ ".") id
  match ← splitAt l id "NewBB.ICmp.High.False" with
  | none => return ()
  | some (head, join) =>
    let high0 ← emitHigh l head width lhs "0"
    let high1 ← emitHigh l head width rhs "1"
    let high ← emit l head (.icmp pred high0 high1) "ICmp.High"
    if pred.isEquality then halveEquality l width id pred lhs rhs head join high
    else halveOrder l width id pred lhs rhs head join high high0 high1

end Edit

namespace Function

/-- Whether an integer of a comparison is wider than a word, and how wide. -/
def wideComparison? (f : Function) : List InstId → Checked (Option Nat)
  | [] => return none
  | id :: rest => do
    match (← f.kind id).comparison? with
    | some (_, lhs, _) =>
      match ← f.intWidth? lhs with
      | some width => if 64 < width then return some width else f.wideComparison? rest
      | none => f.wideComparison? rest
    | none => f.wideComparison? rest

end Function

namespace Pass

/-- Refuses a function with a comparison of integers wider than a word. -/
def checkWidths (id : FuncId) : Pass Unit := do
  let f ← query (·.function id)
  match ← query fun _ => do f.wideComparison? (← f.liveInsts) with
  | some width => throw (.unsupportedWidth f.name width)
  | none => return ()

/-- The bytes of the first constant integer among the operands of an equality. -/
def comparedBytes? (lhs rhs : Value) : Option (List UInt8) :=
  (([lhs, rhs].find? Value.isConstInt).bind Value.const?).bind Constant.leBytes?

/-- Records the constant of an equality. Tells whether there is one, even if its bytes are too few
or too many for a token. -/
def recordCompared (config : Config) (function : FuncId) (id : InstId) (lhs rhs : Value) :
    Pass Bool := do
  match comparedBytes? lhs rhs with
  | none => return false
  | some bytes =>
    let provenance ← query fun m => do (← m.function function).provenance id
    match Token.ofBytes? config.limits false bytes provenance .comparedInteger with
    | some token => inFunction function (Edit.attach id token config.limits)
    | none => report (invalidLength bytes)
    return true

/-- What becomes of a comparison: whether it was recorded, and whether it is one of the program's
own that was halved. -/
structure Halving where
  recorded : Bool := false
  halved : Bool := false

/-- Records a comparison and halves it, as far as the settings ask for that. -/
def halveCompare (config : Config) (function : FuncId) (width : Nat) (id : InstId) :
    Pass Halving := do
  let inst ← query fun m => do (← m.function function).inst id
  match inst.kind.comparison? with
  | none => return {}
  | some (pred, lhs, rhs) =>
    let recorded ←
      if !inst.split && pred.isEquality then recordCompared config function id lhs rhs
      else pure false
    if recorded && config.convert != .all then return { recorded }
    if config.convert == .none || width ≤ 8 then return { recorded }
    let name := (← query (·.function function)).name
    debug ("splitting " ++ toString width ++ "-bit " ++ pred.mnemonic ++ " in " ++ name)
    inFunction function (Edit.halve width id pred lhs rhs)
    return { recorded, halved := !inst.split }

/-- Goes over the comparisons of a function that have some width. -/
def halveCompares (config : Config) (width : Nat) (stats : CompareStats) (function : FuncId) :
    Pass CompareStats := do
  let sites ← query fun m => do (← m.function function).candidates [.eq, .ne, .ugt, .ult]
  (sites.filter fun site => site.2 == width).foldlM (fun stats site => do
    let done ← halveCompare config function width site.1
    return { stats with
      recorded := stats.recorded + done.recorded.toNat
      halved := stats.halved + done.halved.toNat }) stats

/-- The steps that leave only equalities and unsigned strict comparisons. -/
def normalizeCompares (stats : CompareStats) (function : FuncId) : Pass CompareStats := do
  let simplified ← inFunction function Edit.simplifyAll
  let signNormalized ← inFunction function Edit.normalizeSigns
  return { stats with
    simplified := stats.simplified + simplified
    signNormalized := stats.signNormalized + signNormalized }

/-- The closing remarks. -/
def reportCompares (stats : CompareStats) : Pass Unit := do
  if stats.updates = 0 then warn "No instrumentation ICMP found."
  else
    info ("Instrumented " ++ toString stats.updates ++ " ICMP.")
      [("simplified", toString stats.simplified),
        ("sign_normalized", toString stats.signNormalized), ("halved", toString stats.halved)]
  reportRecorded stats.recorded

def splitCompares (config : Config) : Pass CompareStats := do
  let ids ← functionIds
  ids.forM checkWidths
  let stats ←
    if config.convert == .none then pure {} else ids.foldlM normalizeCompares {}
  let stats ← [64, 32, 16, 8].foldlM
    (fun stats width => ids.foldlM (halveCompares config width) stats) stats
  reportCompares stats
  return stats

end Pass

end EdgeProbe
