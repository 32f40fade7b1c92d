/-!
# Words of up to 64 bits

A value of an integer type is held in 64 bits of which the low ones, as many as the type is wide,
count. `mask` keeps them, `signExtend` reads them as a two's complement number, and `leBytes` and
`ofLeBytes` go to memory and back.
-/

namespace EdgeProbe

/-- The low bits of a word, as many as the width says. -/
def mask (width : Nat) (bits : UInt64) : UInt64 :=
  if 64 ≤ width then bits else bits &&& ((1 <<< UInt64.ofNat width) - 1)

/-- The two's complement number in the low bits. No width at all is read as the full one. -/
def signExtend (width : Nat) (bits : UInt64) : Int64 :=
  if width = 0 ∨ 64 ≤ width then bits.toInt64
  else
    let shift := 64 - width
    (bits <<< UInt64.ofNat shift).toInt64 >>> Int64.ofNat shift

/-- How many bytes hold this many bits. -/
def byteCount (width : Nat) : Nat :=
  (width + 7) / 8

/-- The lowest bytes of a word, the least significant first. -/
def leBytes : Nat → UInt64 → List UInt8
  | 0, _ => []
  | count + 1, bits => bits.toUInt8 :: leBytes count (bits >>> 8)

/-- The word with these lowest bytes, the least significant first. -/
def ofLeBytes : List UInt8 → UInt64
  | [] => 0
  | byte :: rest => byte.toUInt64 ||| (ofLeBytes rest <<< 8)

/-- The least multiple of `step` that is at least `n`; `n` itself when there is no step. -/
def roundUp (n step : Nat) : Nat :=
  if n % step = 0 then n else n + (step - n % step)

end EdgeProbe
