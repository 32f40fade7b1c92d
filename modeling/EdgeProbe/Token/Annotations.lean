import EdgeProbe.Code.Value
import EdgeProbe.Sorted.Map
import EdgeProbe.Token.Entry

/-!
# Tokens on instructions

While a function is being edited its tokens stay with the instruction that consumes them.
`Annotations` holds them by ascending instruction. An instruction whose tokens have all been taken
keeps an empty list.
-/

namespace EdgeProbe

instance : Ord InstId where
  compare a b := compare a.index b.index

instance : Std.TransOrd InstId where
  eq_swap := Std.OrientedOrd.eq_swap (α := Nat)
  isLE_trans := Std.TransOrd.isLE_trans (α := Nat)

instance : Std.LawfulEqOrd InstId where
  compare_self := Std.ReflOrd.compare_self (α := Nat)
  eq_of_compare h := congrArg InstId.mk (Std.LawfulEqOrd.eq_of_compare h)

structure Annotations where
  lists : SortedMap InstId (List Token) := .empty
  deriving DecidableEq, Inhabited

namespace Annotations

/-- Replaces the tokens of an instruction, which then has a list even if it is empty. -/
def modify (a : Annotations) (inst : InstId) (f : List Token → List Token) : Annotations :=
  ⟨a.lists.update inst fun tokens => f (tokens.getD [])⟩

/-- Gives an instruction a list, empty if it had none. -/
def touch (a : Annotations) (inst : InstId) : Annotations :=
  a.modify inst id

def get (a : Annotations) (inst : InstId) : List Token :=
  (a.lists.get? inst).getD []

theorem get_modify (a : Annotations) (inst : InstId) (f : List Token → List Token) (i : InstId) :
    (a.modify inst f).get i = if i = inst then f (a.get inst) else a.get i := by
  unfold modify get
  rw [SortedMap.get?_update]
  split <;> rfl

def contains (a : Annotations) (inst : InstId) : Bool :=
  a.lists.contains inst

/-- How many tokens of a class have a slot. -/
def usedSlots (tokens : List Token) (tagClass : TagClass) : Nat :=
  tokens.countP fun t => t.origin.tagClass == tagClass && t.slot.isSome

/-- Puts a token on an instruction. One of an origin that allows several gets the next slot, if
the limit leaves one; any other replaces the one of its class that has no slot. -/
def attach? (a : Annotations) (inst : InstId) (token : Token) (limits : Limits) :
    Option Annotations :=
  let tagClass := token.origin.tagClass
  if token.origin.isMultiple then
    let used := usedSlots (a.get inst) tagClass
    if limits.maxFanOut ≤ used then none
    else some (a.modify inst fun tokens => tokens ++ [{ token with slot := some used }])
  else
    some (a.modify inst fun tokens =>
      (tokens.filter fun t => !(t.origin.tagClass == tagClass && t.slot.isNone)) ++
        [{ token with slot := none }])

/-- Removes the tokens of an instruction that are chosen, and returns them. -/
def take (a : Annotations) (inst : InstId) (chosen : Token → Bool) : List Token × Annotations :=
  if a.contains inst then
    ((a.get inst).filter chosen, a.modify inst fun tokens => tokens.filter (!chosen ·))
  else ([], a)

/-- Moves the tokens of an origin from one instruction to the end of another's. -/
def moveOrigin (a : Annotations) (source target : InstId) (origin : Origin) : Annotations :=
  let (moved, rest) := a.take source fun t => t.origin == origin
  if moved.isEmpty then rest else rest.modify target fun tokens => tokens ++ moved

def isEmpty (a : Annotations) : Bool :=
  a.lists.entries.all fun entry => entry.2.isEmpty

/-- Every token with its instruction, by ascending instruction. -/
def toList (a : Annotations) : List (InstId × Token) :=
  a.lists.entries.flatMap fun entry => entry.2.map fun token => (entry.1, token)

end Annotations

end EdgeProbe
