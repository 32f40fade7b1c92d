import EdgeProbe.Code.Function

/-!
# Comparisons that are left alone

Comparisons with the values that a fuzzer tries anyway are not worth taking apart: equality with
zero or one, and any comparison with zero, one or minus one that orders or reads the result of a
call.
-/

namespace EdgeProbe

/-- The constant integer among two operands, and the other one. -/
def constantOperand? : Value → Value → Option (Constant × Value)
  | .const (.int width bits), rhs => some (.int width bits, rhs)
  | lhs, .const (.int width bits) => some (.int width bits, lhs)
  | _, _ => none

def InstKind.isCall : InstKind → Bool
  | .call _ _ _ => true
  | _ => false

namespace Function

def readsCall (f : Function) (value : Value) : Checked Bool :=
  match value.inst? with
  | some id => (f.kind id).map InstKind.isCall
  | none => return false

def isMagic (f : Function) (pred : Predicate) (lhs rhs : Value) : Checked Bool := do
  match constantOperand? lhs rhs with
  | none => return false
  | some (constant, other) =>
    let small := constant.isZero || constant.isOne
    if pred.isEquality && small then return true
    let isCall ← f.readsCall other
    return (isCall || !pred.isEquality) && (small || constant.isMinusOne)

/-- The width of a comparison, with one of some predicates and of integers, that is worth taking
apart. -/
def candidateWidth? (f : Function) (preds : List Predicate) (id : InstId) :
    Checked (Option Nat) := do
  match ← f.kind id with
  | .icmp pred lhs rhs =>
    if !preds.contains pred then return none
    match ← f.intWidth? lhs with
    | none => return none
    | some width =>
      if (← f.intWidth? rhs) != some width then return none
      if ← f.isMagic pred lhs rhs then return none
      return some width
  | _ => return none

/-- The live comparisons that are worth taking apart, with their width. -/
def candidates (f : Function) (preds : List Predicate) : Checked (List (InstId × Nat)) := do
  let found ← (← f.liveInsts).mapM fun id => do
    return ((← f.candidateWidth? preds id).map (id, ·)).toList
  return found.flatten

end Function

end EdgeProbe
