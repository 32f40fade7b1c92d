import EdgeProbe.Code.Operator
import EdgeProbe.Code.Value

/-!
# Instructions and terminators

`InstKind` lists every operation that does not end a block and `Terminator` every one that does.
The edges of the flow graph are the successors of the terminators, numbered from zero.
-/

namespace EdgeProbe

inductive Callee where
  | direct (id : FuncId)
  | indirect (target : Value)
  deriving DecidableEq, Inhabited

/-- The operands of a call: the target, when it is computed, before the arguments. -/
def Callee.operands (callee : Callee) (args : List Value) : List Value :=
  match callee with
  | .direct _ => args
  | .indirect target => target :: args

inductive CallConv where
  | c | fast | cold
  deriving DecidableEq, Inhabited

inductive InstKind where
  | phi (ty : Ty) (incoming : List (Value × BlockId))
  /-- Marks its block as the target of exceptional edges. -/
  | landingPad
  | icmp (pred : Predicate) (lhs rhs : Value)
  | binary (op : BinOp) (lhs rhs : Value)
  | cast (op : CastOp) (value : Value) (width : Nat)
  | select (cond onTrue onFalse : Value)
  | load (ty : Ty) (ptr : Value)
  | store (value ptr : Value)
  /-- The address that lies `offset` bytes after `base`. -/
  | gep (base offset : Value)
  | alloca (size : Nat)
  | call (callee : Callee) (args : List Value) (ret : Ty)
  deriving DecidableEq, Inhabited

namespace InstKind

def operands : InstKind → List Value
  | .phi _ incoming => incoming.map (·.1)
  | .landingPad | .alloca _ => []
  | .icmp _ lhs rhs | .binary _ lhs rhs => [lhs, rhs]
  | .cast _ value _ => [value]
  | .select cond onTrue onFalse => [cond, onTrue, onFalse]
  | .load _ ptr => [ptr]
  | .store value ptr => [value, ptr]
  | .gep base offset => [base, offset]
  | .call callee args _ => callee.operands args

def isPhi : InstKind → Bool
  | .phi _ _ => true
  | _ => false

def isLandingPad : InstKind → Bool
  | .landingPad => true
  | _ => false

end InstKind

inductive Terminator where
  | ret (value : Option Value)
  | br (target : BlockId)
  | condBr (cond : Value) (onTrue onFalse : BlockId)
  | switch (value : Value) (default : BlockId) (cases : List (UInt64 × BlockId))
  | invoke (callee : Callee) (args : List Value) (normal unwind : BlockId)
  | resume (value : Value)
  | unreachable
  deriving DecidableEq, Inhabited

namespace Terminator

def successors : Terminator → List BlockId
  | .ret _ | .resume _ | .unreachable => []
  | .br target => [target]
  | .condBr _ onTrue onFalse => [onTrue, onFalse]
  | .switch _ default cases => default :: cases.map (·.2)
  | .invoke _ _ normal unwind => [normal, unwind]

/-- Makes the edge with this number lead to `target`; nothing changes where there is none. -/
def setSuccessor (term : Terminator) (index : Nat) (target : BlockId) : Terminator :=
  match term, index with
  | .br _, 0 => .br target
  | .condBr cond _ onFalse, 0 => .condBr cond target onFalse
  | .condBr cond onTrue _, 1 => .condBr cond onTrue target
  | .switch value _ cases, 0 => .switch value target cases
  | .switch value default cases, k + 1 =>
    .switch value default (cases.modify k fun case => (case.1, target))
  | .invoke callee args _ unwind, 0 => .invoke callee args target unwind
  | .invoke callee args normal _, 1 => .invoke callee args normal target
  | term, _ => term

def operands : Terminator → List Value
  | .ret value => value.toList
  | .br _ | .unreachable => []
  | .condBr cond _ _ => [cond]
  | .switch value _ _ => [value]
  | .invoke callee args _ _ => callee.operands args
  | .resume value => [value]

def mnemonic : Terminator → String
  | .ret _ => "ret"
  | .br _ | .condBr _ _ _ => "br"
  | .switch _ _ _ => "switch"
  | .invoke _ _ _ _ => "invoke"
  | .resume _ => "resume"
  | .unreachable => "unreachable"

end Terminator

end EdgeProbe
