/-!
# JSON values

`Json` is the value tree that texts of the interchange format denote. Objects keep their members in
the order written, repeated names included, because what a repeated name means is for the reader of
a record or of a map to say. Whole numbers are exact and unbounded. A record is given by name, as an
object, or by position, as an array. By name, members it does not know are ignored and one that is
given twice is refused. By position, nothing may follow the last field. A variant without fields is
its name; one with fields is an object with one member.
-/

namespace EdgeProbe

/-! ## Values -/

/-- The name of a member. One written with an escape is the name all the same, but not a numeral. -/
structure Json.Name where
  text : String
  escaped : Bool := false
  deriving DecidableEq, Inhabited

instance : Coe String Json.Name where
  coe text := { text }

inductive Json where
  | null
  | bool (value : Bool)
  | int (value : Int)
  /-- A number written with a fraction, an exponent or as a negative zero, kept as its token. -/
  | real (token : String)
  | str (text : String)
  | arr (items : List Json)
  | obj (members : List (Json.Name × Json))
  /-- Well-formed, but with an unpaired surrogate where a string is needed: it can be skipped and
  never used. -/
  | unpaired
  deriving Inhabited

namespace Json

def ofNat (n : Nat) : Json := .int (n : Int)

def ofList {α : Type} (encode : α → Json) (items : List α) : Json :=
  .arr (items.map encode)

def ofOption {α : Type} (encode : α → Json) : Option α → Json
  | none => .null
  | some value => encode value

def ofBytes (bytes : List UInt8) : Json :=
  .arr (bytes.map fun byte => ofNat byte.toNat)

/-- The value of the last member with this name. -/
def member? (name : String) : Json → Option Json
  | .obj members => members.foldl (fun found m => if m.1.text == name then some m.2 else found) none
  | _ => none

mutual

/-- How many containers stand one inside the other. -/
def nesting : Json → Nat
  | .arr items => itemsNesting items + 1
  | .obj members => membersNesting members + 1
  | _ => 0

def itemsNesting : List Json → Nat
  | [] => 0
  | item :: rest => max item.nesting (itemsNesting rest)

def membersNesting : List (Name × Json) → Nat
  | [] => 0
  | (_, value) :: rest => max value.nesting (membersNesting rest)

end

end Json

/-! ## Records, variants and scalars -/

namespace Json

/-- A whole number below the bound. -/
def natBelow? (bound : Nat) : Json → Option Nat
  | .int value => if 0 ≤ value ∧ value.toNat < bound then some value.toNat else none
  | _ => none

def nat32? : Json → Option Nat := natBelow? UInt32.size

def nat64? : Json → Option Nat := natBelow? UInt64.size

def word? (value : Json) : Option UInt64 :=
  (nat64? value).map UInt64.ofNat

def byte? (value : Json) : Option UInt8 :=
  (natBelow? 256 value).map UInt8.ofNat

def bool? : Json → Option Bool
  | .bool value => some value
  | _ => none

def string? : Json → Option String
  | .str text => some text
  | _ => none

def list? {α : Type} (item? : Json → Option α) : Json → Option (List α)
  | .arr items => items.mapM item?
  | _ => none

def pair? {α β : Type} (first? : Json → Option α) (second? : Json → Option β) :
    Json → Option (α × β)
  | .arr [a, b] => do return (← first? a, ← second? b)
  | _ => none

/-- An explicit null stands for absence. -/
def option? {α : Type} (value? : Json → Option α) : Json → Option (Option α)
  | .null => some none
  | value => (value? value).map some

/-- The members of an object without repetition: of those with one name the last counts. -/
def map? {α β : Type} (key? : Name → Option α) (value? : Json → Option β) :
    Json → Option (List (α × β))
  | .obj members => members.mapM fun (name, value) => do return (← key? name, ← value? value)
  | _ => none

/-- The fields given for a record. -/
structure Record where
  byName : Bool
  given : List (String × Json)

/-- No name is repeated. -/
def distinctNames : List (String × Json) → Bool
  | [] => true
  | (name, _) :: rest => !(rest.any fun m => m.1 == name) && distinctNames rest

def record? (fields : List String) : Json → Option Record
  | .obj members =>
    let given := (members.map fun m => (m.1.text, m.2)).filter fun m => fields.contains m.1
    if distinctNames given then some ⟨true, given⟩ else none
  | .arr items =>
    if items.length ≤ fields.length then some ⟨false, fields.zip items⟩ else none
  | _ => none

namespace Record

def find? (r : Record) (field : String) : Option Json :=
  (r.given.find? fun m => m.1 == field).map (·.2)

/-- A field that must be given. -/
def required {α : Type} (r : Record) (field : String) (value? : Json → Option α) : Option α :=
  r.find? field >>= value?

/-- A field with a value to take when it is not given. -/
def withDefault {α : Type} (r : Record) (field : String) (default : α)
    (value? : Json → Option α) : Option α :=
  match r.find? field with
  | some value => value? value
  | none => some default

/-- A field that may be absent by name, but has its place in the order. -/
def nullable {α : Type} (r : Record) (field : String) (value? : Json → Option α) :
    Option (Option α) :=
  match r.find? field with
  | some value => option? value? value
  | none => if r.byName then some none else none

end Record

/-- The name of a variant and what it holds. -/
def variant? : Json → Option (String × Option Json)
  | .str name => some (name, none)
  | .obj [(name, value)] => some (name.text, some value)
  | _ => none

/-- A variant that holds nothing, written alone or with a null. -/
def isUnit : Option Json → Bool
  | none => true
  | some .null => true
  | some _ => false

/-- One of several names, each a variant that holds nothing. -/
def choice? {α : Type} (table : List (String × α)) (value : Json) : Option α := do
  let (name, payload) ← variant? value
  if isUnit payload then table.lookup name else none

end Json

end EdgeProbe
