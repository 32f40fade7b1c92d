/-!
# Numbers in hexadecimal

Lower-case digits, with no more zeros in front than a field needs.
-/

namespace EdgeProbe.Text

def hexDigit (n : Nat) : Char :=
  if n < 10 then Char.ofNat ('0'.toNat + n) else Char.ofNat ('a'.toNat + (n - 10))

/-- The `count` lowest digits, the most significant first. -/
def hexField : Nat → Nat → List Char
  | 0, _ => []
  | count + 1, n => hexField count (n / 16) ++ [hexDigit (n % 16)]

/-- How many digits a number needs, at least one. -/
def hexLength (n : Nat) : Nat :=
  if n < 16 then 1 else hexLength (n / 16) + 1
termination_by n

/-- As many digits as the number needs. -/
def hex (n : Nat) : List Char :=
  hexField (hexLength n) n

/-- At least `width` digits. -/
def hexPadded (width n : Nat) : List Char :=
  hexField (max width (hexLength n)) n

end EdgeProbe.Text
