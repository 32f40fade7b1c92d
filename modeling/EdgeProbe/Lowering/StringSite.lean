import EdgeProbe.Literal.Consumer
import EdgeProbe.Log
import EdgeProbe.Token.Provenance

/-!
# Comparison calls of known length

A call that compares strings or memory can be taken apart when it is known how many bytes it looks
at: a constant bound says so, or a constant string with the NUL that ends it.
-/

namespace EdgeProbe

inductive CompareFamily where
  | strcmp | strncmp | memcmp
  deriving DecidableEq, Inhabited

namespace CompareFamily

/-- The family of a function, and whether it ignores case. -/
def ofName? (name : String) : Option (CompareFamily × Bool) :=
  [("strcmp", (strcmp, false)), ("strcasecmp", (strcmp, true)), ("strncmp", (strncmp, false)),
    ("strncasecmp", (strncmp, true)), ("memcmp", (memcmp, false))].lookup name

/-- The comparison ends at the first NUL. -/
def isString (family : CompareFamily) : Bool :=
  family != memcmp

def arity : CompareFamily → Nat
  | strcmp => 2
  | strncmp | memcmp => 3

end CompareFamily

/-- One side of a comparison. -/
inductive Side where
  | bytes (data : List UInt8)
  | pointer (value : Value)
  deriving DecidableEq, Inhabited

structure StringSite where
  call : InstId
  family : CompareFamily
  foldCase : Bool
  len : Nat
  lhs : Side
  rhs : Side
  /-- The bytes that are compared with, when one side is constant. -/
  keyword : Option (List UInt8)
  deriving DecidableEq, Inhabited

def StringSite.bothVariable (site : StringSite) : Bool :=
  site.keyword.isNone

/-- What looking at an instruction leads to. -/
inductive Inspection where
  | nothing
  | remark (r : Log.Record)
  | site (s : StringSite)
  deriving DecidableEq, Inhabited

/-- The function has the prototype of its family and is called accordingly. -/
def Function.hasPrototype (target : Function) (family : CompareFamily) (args : List Value) : Bool :=
  target.ret == .i32 && target.params.length == family.arity &&
    (target.params.take 2).all (· == .ptr) && args.length == family.arity

/-- How many bytes are compared with a constant string: at most up to the NUL that ends it. -/
def stringLength (data : List UInt8) (limit : Option Nat) : Nat :=
  let withNul := min ((beforeNul data).length + 1) data.length
  match limit with
  | some n => min n withNul
  | none => withNul

def twoConstants (provenance : String) : Log.Record :=
  { level := .warning
    message := "Found comparison between two constant strings (" ++ provenance ++ ")!?" }

def overlongRegion (provenance : String) (len size : Nat) : Log.Record :=
  { level := .warning
    message := "Found a memcmp() bug (" ++ provenance ++ ")"
    pairs := [("length", toString len), ("literal", toString size)] }

def notUnrolled (name provenance : String) (len limit : Nat) : Log.Record :=
  { level := .debug
    message :=
      "Not unrolling " ++ name ++ " over " ++ toString len ++ " bytes (" ++ provenance ++ ")"
    pairs := [("limit", toString limit)] }

namespace Module

variable (m : Module) (f : Function) (limits : Limits)

/-- Decides about a call once the length and the keyword are known. -/
def inspectLength (call : InstId) (name : String) (family : CompareFamily) (foldCase : Bool)
    (lhs rhs : Side) (len : Nat) (keyword : Option (List UInt8)) : Checked Inspection := do
  if len = 0 then return .nothing
  if limits.maxUnrollLen < len then
    return .remark (notUnrolled name (← f.provenance call) len limits.maxUnrollLen)
  return .site { call, family, foldCase, len, lhs, rhs, keyword }

/-- Decides about a call with one constant side. -/
def inspectConstant (call : InstId) (name : String) (family : CompareFamily) (foldCase : Bool)
    (lhs rhs : Side) (data : List UInt8) (limit : Option Nat) : Checked Inspection := do
  if family.isString then
    let len := stringLength data limit
    inspectLength f limits call name family foldCase lhs rhs len (some (data.take len))
  else
    let len := limit.getD 0
    if data.length < len then
      return .remark (overlongRegion (← f.provenance call) len data.length)
    inspectLength f limits call name family foldCase lhs rhs len (some (data.take len))

/-- Decides about a call of the family with its operands. -/
def inspectCall (call : InstId) (name : String) (family : CompareFamily) (foldCase : Bool)
    (first second : Value) (limit : Option Nat) : Checked Inspection := do
  match ← m.constantBytes? f first, ← m.constantBytes? f second with
  | none, none =>
    match limit with
    | none => return .nothing
    | some len =>
      inspectLength f limits call name family foldCase (.pointer first) (.pointer second) len none
  | some _, some _ => return .remark (twoConstants (← f.provenance call))
  | some data, none =>
    inspectConstant f limits call name family foldCase (.bytes data) (.pointer second) data limit
  | none, some data =>
    inspectConstant f limits call name family foldCase (.pointer first) (.bytes data) data limit

/-- Looks at an instruction. A bound that is not constant is no bound at all. -/
def inspect (call : InstId) : Checked Inspection := do
  match ← f.kind call with
  | .call (.direct target) args _ =>
    let target ← m.function target
    if target.conv != .c then return .nothing
    match CompareFamily.ofName? target.name with
    | none => return .nothing
    | some (family, foldCase) =>
      if !target.hasPrototype family args then return .nothing
      match family, args with
      | .strcmp, [a, b] => m.inspectCall f limits call target.name family foldCase a b none
      | .strncmp, [a, b, n] | .memcmp, [a, b, n] =>
        match n with
        | .const (.int _ bits) =>
          m.inspectCall f limits call target.name family foldCase a b (some bits.toNat)
        | _ => do
          let _ ← m.constantBytes? f a
          let _ ← m.constantBytes? f b
          return .nothing
      | _, _ => return .nothing
  | _ => return .nothing

/-- Looks at the live instructions of a function. -/
def inspections : Checked (List Inspection) := do
  (← f.liveInsts).mapM (m.inspect f limits)

end Module

end EdgeProbe
