import EdgeProbe.Word

/-!
# Initial contents of globals

The image of a structure gives each field the alignment that its kind asks for and fills the gaps,
also the one at the end, with zeros.
-/

namespace EdgeProbe

inductive Initializer where
  | int (width : Nat) (bits : UInt64)
  | bytes (data : List UInt8)
  | struct (fields : List Initializer)
  | zero (size : Nat)
  deriving Inhabited

namespace Initializer

mutual

/-- Integers are aligned to the power of two that holds them, structures like the field that asks
for most, and other data not at all. -/
def align : Initializer → Nat
  | .int width _ => (byteCount width).nextPowerOfTwo
  | .bytes _ | .zero _ => 1
  | .struct fields => alignAll fields

def alignAll : List Initializer → Nat
  | [] => 1
  | field :: rest => max field.align (alignAll rest)

end

/-- Zeros that bring an image to a multiple of the alignment. -/
def padded (image : List UInt8) (align : Nat) : List UInt8 :=
  image ++ List.replicate (roundUp image.length align - image.length) 0

mutual

/-- The bytes in memory. Integers have at most eight. -/
def toBytes : Initializer → List UInt8
  | .int width bits => leBytes (min (byteCount width) 8) bits
  | .bytes data => data
  | .zero size => List.replicate size 0
  | .struct fields => padded (fieldBytes [] fields) (alignAll fields)

/-- The image so far, followed by the fields. -/
def fieldBytes (image : List UInt8) : List Initializer → List UInt8
  | [] => image
  | field :: rest => fieldBytes (padded image field.align ++ field.toBytes) rest

end

end Initializer

end EdgeProbe
