import EdgeProbe.Literal.Harvest
import EdgeProbe.Lowering.Chain
import EdgeProbe.Lowering.StringSite

/-!
# Taking string comparisons apart

A call of known length becomes a chain of blocks, one for each byte, which is left as soon as two
bytes differ. The call turns into the phi of their differences. Before that, the constant side
becomes a token on the readers of the result; when the call is taken apart, the token goes to the
first difference.
-/

namespace EdgeProbe

structure StringStats where
  strcmp : Nat := 0
  strncmp : Nat := 0
  memcmp : Nat := 0
  bothVariable : Nat := 0
  recorded : Nat := 0
  deriving DecidableEq, Inhabited

/-- Counts a call that is taken apart. -/
def StringStats.count (s : StringStats) (site : StringSite) : StringStats :=
  let s := { s with bothVariable := s.bothVariable + site.bothVariable.toNat }
  match site.family with
  | .strcmp => { s with strcmp := s.strcmp + 1 }
  | .strncmp => { s with strncmp := s.strncmp + 1 }
  | .memcmp => { s with memcmp := s.memcmp + 1 }

/-- A token of the class of strings that is the only one of its class. -/
def Token.isString (t : Token) : Bool :=
  t.origin.tagClass == .s2u && t.slot.isNone

/-- Some reader of the result of a call carries a string already. -/
def Function.hasResultToken (f : Function) (call : InstId) : Checked Bool := do
  return (← f.instUsers call).any fun user => (f.annotations.get user).any Token.isString

namespace Edit

/-- A constant of 32 bits. -/
def word32 (n : Nat) : Value :=
  .ofWord 32 (UInt64.ofNat n)

/-- Takes the strings from the comparisons and phis among instructions, and returns the first. -/
def takeStrings : Option Token → List InstId → Edit (Option Token)
  | found, [] => return found
  | found, user :: rest => do
    match ← kind user with
    | .icmp _ _ _ | .phi _ _ =>
      let taken := ((← get).annotations.take user Token.isString).1
      setAnnotations fun a => (a.take user Token.isString).2
      takeStrings (found.or taken.head?) rest
    | _ => takeStrings found rest

/-- The small letter of a character: 32 more if it is one of the 26 capitals. -/
def emitLower (l : Label) (block : BlockId) (c : Value) : Edit Value := do
  let offset ← emitValue l block (.binary .sub c (word32 65)) "Upper.Offset"
  let isUpper ← emitValue l block (.icmp .ult offset (word32 26)) "Upper.Is"
  let lowered ← emitValue l block (.binary .add c (word32 32)) "Upper.Lowered"
  emitValue l block (.select isUpper lowered c) "Lower"

/-- A byte of one side, as a number of 32 bits. -/
def emitByte (l : Label) (block : BlockId) (side : Side) (index : Nat) (foldCase : Bool) :
    Edit Value := do
  match side with
  | .bytes data => return word32 (Text.foldCase foldCase (data.getD index 0)).toNat
  | .pointer ptr =>
    let addr ← emitValue l block (.gep ptr (.ofWord 64 (UInt64.ofNat index))) "GEP"
    let byte ← emitValue l block (.load .i8 addr) "Load"
    let wide ← emitValue l block (.cast .zext byte 32) "ZExt"
    if foldCase then emitLower l block wide else return wide

/-- Subtracts the bytes at an index; yields the first one and the difference. -/
def emitDifference (l : Label) (site : StringSite) (limits : Limits) (token : Option Token)
    (block : BlockId) (index : Nat) : Edit (Value × Value) := do
  let lhs ← emitByte l block site.lhs index site.foldCase
  let rhs ← emitByte l block site.rhs index site.foldCase
  let difference ← emit l block (.binary .sub lhs rhs) "Diff"
  if let some token := token then attach difference token limits
  return (lhs, .inst difference)

/-- Whether to go on to the next byte. Where no side says how long it is, a NUL ends both. -/
def emitContinue (l : Label) (site : StringSite) (block : BlockId) (lhs difference : Value) :
    Edit Value := do
  let same ← emitValue l block (.icmp .eq difference (word32 0)) "Same"
  if site.family.isString && site.bothVariable then
    let notNul ← emitValue l block (.icmp .ne lhs (word32 0)) "NotNul"
    emitValue l block (.binary .and same notNul) "Continue"
  else return same

/-- Fills the blocks of the chain from one on, after which as many are `left`. Yields the
differences with their blocks. -/
def emitChain (l : Label) (site : StringSite) (limits : Limits) (join : BlockId) :
    Nat → Option Token → BlockId → Nat → Edit (List (Value × BlockId))
  | 0, token, block, index => do
    let (_, difference) ← emitDifference l site limits token block index
    setTerminator block (.br join)
    return [(difference, block)]
  | left + 1, token, block, index => do
    let (lhs, difference) ← emitDifference l site limits token block index
    let next ← blockBefore l "New.Cmp" join
    let goOn ← emitContinue l site block lhs difference
    setTerminator block (.condBr goOn next join)
    return (difference, block) :: (← emitChain l site limits join left none next (index + 1))

/-- How many bytes a difference and its block take while the chain is made. -/
def entrySize : Nat := 24

/-- Sets room for all the differences of a chain aside. -/
def reserveEntries (count : Nat) : Edit Unit :=
  query fun _ => reserve (count * entrySize)

/-- Puts a chain of blocks in the place of a call. -/
def unroll (site : StringSite) (limits : Limits) : Edit Unit := do
  let token ← takeStrings none (← query (·.instUsers site.call))
  let l ← labelFor "S2U." site.call
  match ← splitAt l site.call "End" with
  | none => return ()
  | some (head, join) =>
    let first ← blockBefore l "New.Cmp" join
    setTerminator head (.br first)
    reserveEntries site.len
    let incoming ← emitChain l site limits join (site.len - 1) token first 0
    replaceKind site.call (.phi .i32 incoming)

end Edit

namespace Pass

/-- Records the constant side of a comparison on the readers of its result, and counts them. -/
def recordKeyword (config : Config) (function : FuncId) (call : InstId) (keyword : List UInt8) :
    Pass Nat := do
  let provenance ← query fun m => do (← m.function function).provenance call
  match Token.ofBytes? config.limits true keyword provenance .comparedString with
  | some token => inFunction function (Edit.attachToResultUsers call token config.limits)
  | none =>
    report (invalidLength keyword)
    return 0

/-- The settings ask for a comparison to be taken apart. -/
def wantsUnrolling (config : Config) (function : FuncId) (site : StringSite) : Pass Bool := do
  match config.convert with
  | .none => return false
  | .all => return true
  | .notDict =>
    if site.keyword.isSome then return false
    return !(← query fun m => do (← m.function function).hasResultToken site.call)

def splitString (config : Config) (function : FuncId) (stats : StringStats) (site : StringSite) :
    Pass StringStats := do
  let recorded ←
    match site.keyword with
    | some keyword => recordKeyword config function site.call keyword
    | none => pure 0
  let stats := { stats with recorded := stats.recorded + recorded }
  if ← wantsUnrolling config function site then
    inFunction function (Edit.unroll site config.limits)
    return stats.count site
  else return stats

/-- Reports what an inspection has to say, and yields what it leads to. -/
def sitesOf : List Inspection → Pass (List StringSite)
  | [] => return []
  | .nothing :: rest => sitesOf rest
  | .remark r :: rest => do
    report r
    sitesOf rest
  | .site s :: rest => return s :: (← sitesOf rest)

/-- Takes apart the comparisons that were in a function before the first of them was. -/
def splitStringsIn (config : Config) (stats : StringStats) (function : FuncId) :
    Pass StringStats := do
  let found ← query fun m => do m.inspections (← m.function function) config.limits
  (← sitesOf found).foldlM (splitString config function) stats

def reportCount (count : Nat) (what : String) : Pass Unit :=
  if count = 0 then warn ("No instrumentation " ++ what ++ " found.")
  else info ("Instrumented " ++ toString count ++ " " ++ what ++ ".")

def splitStrings (config : Config) : Pass StringStats := do
  let stats ← (← functionIds).foldlM (splitStringsIn config) {}
  reportCount stats.strcmp "STRCMP"
  reportCount stats.strncmp "STRNCMP"
  reportCount stats.memcmp "MEMCMP"
  if 0 < stats.bothVariable then
    info ("Instrumented " ++ toString stats.bothVariable ++ " variable-only compare(s).")
  reportRecorded stats.recorded
  return stats

end Pass

end EdgeProbe
