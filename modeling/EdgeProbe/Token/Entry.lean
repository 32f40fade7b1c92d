import EdgeProbe.Settings.Config
import EdgeProbe.Text.Hex

/-!
# Tokens

Tokens are told apart by where their literal was found. Several origins share a class, which is
what a dictionary tag begins with. A token is a literal written so that it can stand between double
quotes on a line of a dictionary: a byte that could be mistaken there becomes a backslash, an `x`
and two hexadecimal digits. With it goes a fragment of a tag that says where the literal was found.
-/

namespace EdgeProbe

/-! ## Where tokens come from -/

inductive Origin where
  /-- The constant operand of an integer equality. -/
  | comparedInteger
  /-- The constant operand of a string or memory comparison. -/
  | comparedString
  /-- A constant array that is copied and later compared. -/
  | arrayLiteral
  /-- An integer that is stored to memory and later compared. -/
  | storedConstant
  /-- An integer field of a constant structure passed to a call. -/
  | structField
  /-- A string literal passed to any other call. -/
  | callArgument
  deriving DecidableEq, Inhabited

inductive TagClass where
  | c2u | s2u | sic
  deriving DecidableEq, Inhabited

def TagClass.text : TagClass → String
  | .c2u => "C2U"
  | .s2u => "S2U"
  | .sic => "SIC"

namespace Origin

def tagClass : Origin → TagClass
  | .comparedInteger => .c2u
  | .comparedString | .arrayLiteral | .storedConstant | .structField => .s2u
  | .callArgument => .sic

/-- One instruction may carry several tokens of this origin, each in a slot of its own. -/
def isMultiple : Origin → Bool
  | .structField | .callArgument => true
  | _ => false

end Origin

/-! ## Tokens -/

structure Token where
  value : String
  provenance : String
  origin : Origin
  /-- The place among the tokens of one class on one instruction, for origins that may have
  several. -/
  slot : Option Nat := none
  deriving DecidableEq, Inhabited

namespace Token

def escapeByte (byte : UInt8) : List Char :=
  '\\' :: 'x' :: Text.hexField 2 byte.toNat

/-- A byte that text tokens hold as it is: printable, and with no meaning in a dictionary line. -/
def isPlain (byte : UInt8) : Bool :=
  0x20 ≤ byte && byte < 0x7f && byte != 0x3d && byte != 0x22 && byte != 0x5c

def encodeByte (text : Bool) (byte : UInt8) : List Char :=
  if text && isPlain byte then [Char.ofNat byte.toNat] else escapeByte byte

/-- Text tokens lose one trailing NUL. -/
def withoutTerminator (text : Bool) (bytes : List UInt8) : List UInt8 :=
  if text && bytes.getLast? == some 0 then bytes.dropLast else bytes

/-- The written form of a literal whose length is within the limits. -/
def encode? (limits : Limits) (text : Bool) (bytes : List UInt8) : Option String :=
  if bytes.length < limits.minTokenLen ∨ limits.maxTokenLen < bytes.length then none
  else some (String.ofList ((withoutTerminator text bytes).flatMap (encodeByte text)))

/-- The tag of a token before the identifier of a probe is put to it. -/
def tag (token : Token) : String :=
  match token.slot with
  | some n => token.origin.tagClass.text ++ "_" ++ toString n ++ "_" ++ token.provenance
  | none => token.origin.tagClass.text ++ "_" ++ token.provenance

end Token

end EdgeProbe
