import EdgeProbe.Code.Function
import EdgeProbe.Sorted.Set
import EdgeProbe.Text.Hex

/-!
# Dictionaries

A dictionary is the set of tokens with the tags they are known under, one for each probe that leads
to them. It is kept in order of tokens and then of tags, so the order of recording leaves no trace.
-/

namespace EdgeProbe

namespace Dictionary

/-- A token with a tag it is known under. -/
structure Record where
  token : String
  tag : String
  deriving DecidableEq, Inhabited

namespace Record

/-- Records come by token, and those of one token by tag. -/
instance : Ord Record where
  compare := compareLex (compareOn token) (compareOn tag)

instance : Std.TransOrd Record :=
  inferInstanceAs (Std.TransCmp (compareLex (compareOn token) (compareOn tag)))

instance : Std.LawfulEqOrd Record where
  compare_self := Std.ReflOrd.compare_self
  eq_of_compare {a b} h := by
    have ⟨htoken, htag⟩ := Ordering.then_eq_eq.mp h
    cases a
    cases b
    exact congr (congrArg mk (Std.LawfulEqOrd.eq_of_compare htoken))
      (Std.LawfulEqOrd.eq_of_compare htag)

end Record

end Dictionary

structure Dictionary where
  records : SortedSet Dictionary.Record := .empty
  deriving DecidableEq, Inhabited

namespace Dictionary

/-- The tag of a token as seen through the probe with this identifier. -/
def tagFor (token : Token) (id : Nat) : String :=
  token.tag ++ "_" ++ String.ofList (Text.hexPadded 8 id)

def record (d : Dictionary) (token : Token) (id : Nat) : Dictionary :=
  ⟨d.records.insert ⟨token.value, tagFor token id⟩⟩

theorem mem_record {d : Dictionary} {token : Token} {id : Nat} {r : Record} :
    r ∈ (d.record token id).records ↔ r = ⟨token.value, tagFor token id⟩ ∨ r ∈ d.records :=
  SortedSet.mem_insert

/-- Records the tokens of every instruction in a block. -/
def recordBlock (d : Dictionary) (f : Function) (block : BlockId) (id : Nat) :
    Checked Dictionary := do
  let tokens := (← f.block block).insts.flatMap f.annotations.get
  return tokens.foldl (fun d token => d.record token id) d

def size (d : Dictionary) : Nat :=
  d.records.size

def isEmpty (d : Dictionary) : Bool :=
  d.records.isEmpty

/-- Of records with one token, which are adjacent, the first. `last` is the token before. -/
def firstOfEach : Option String → List Record → List Record
  | _, [] => []
  | last, r :: rest =>
    if last == some r.token then firstOfEach last rest
    else r :: firstOfEach (some r.token) rest

def entries (d : Dictionary) : DictType → List Record
  | .normal => firstOfEach none d.records.members
  | .optimized => d.records.members

def line (r : Record) : String :=
  "AFL_" ++ r.tag ++ "=\"" ++ r.token ++ "\"\n"

def header (dictType : DictType) (counter : CounterMode) (buildId : UInt64) : String :=
  "# AFL_DICT_TYPE=" ++ dictType.text ++ "; AFL_COVERAGE_TYPE=" ++ counter.text ++
    "; AFL_BUILD_ID=" ++ String.ofList (Text.hexPadded 16 buildId.toNat) ++ "\n"

/-- The dictionary file. -/
def render (d : Dictionary) (dictType : DictType) (counter : CounterMode) (buildId : UInt64) :
    String :=
  header dictType counter buildId ++ String.join ((d.entries dictType).map line)

end Dictionary

/-- Some instruction of the block carries a token. -/
def Function.blockHasTokens (f : Function) (block : BlockId) : Checked Bool := do
  return (← f.block block).insts.any fun inst => !(f.annotations.get inst).isEmpty

end EdgeProbe
