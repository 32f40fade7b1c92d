import Mathlib.Algebra.Order.Ring.Nat
import EdgeProbe.Code.Operator
import EdgeProbe.Word.Lemmas

/-!
# Arithmetic of vectors of bits

The operators compute with words of 64 bits what the arithmetic of bit vectors of the width says
(`BinOp.onVectors`). Of the amount of a shift only the low 32 bits are looked at, so that a shift by
the width or more is right as long as these, too, come to the width. Main statement:
`BinOp.evaluate_onVectors`. Where they do not, a word may stay as it is although all of its bits are
to go (`BinOp.evaluate_shl_far`).
-/

namespace EdgeProbe

/-- A vector of at most 64 bits as a word. -/
def wordOf {width : Nat} (x : BitVec width) : UInt64 :=
  UInt64.ofNat x.toNat

section

variable {width : Nat}

theorem toNat_wordOf (hle : width ≤ 64) (x : BitVec width) : (wordOf x).toNat = x.toNat := by
  have hpow : 2 ^ width ≤ 2 ^ 64 := Nat.pow_le_pow_right (by decide) hle
  rw [wordOf, UInt64.toNat_ofNat', Nat.mod_eq_of_lt (Nat.lt_of_lt_of_le x.isLt hpow)]

theorem mask_wordOf (hle : width ≤ 64) (x : BitVec width) : mask width (wordOf x) = wordOf x := by
  apply UInt64.toNat_inj.mp
  rw [toNat_mask, toNat_wordOf hle, Nat.mod_eq_of_lt x.isLt]

/-- A word read as a number of some width has the sign that the vector has. -/
theorem toInt_signExtend_wordOf (hpos : 0 < width) (hle : width ≤ 64) (x : BitVec width) :
    (signExtend width (wordOf x)).toInt = x.toInt := by
  rw [toInt_signExtend hpos hle, toNat_wordOf hle, BitVec.toInt_eq_toNat_bmod]

theorem natCast_toNat_eq_emod (x : BitVec width) : (x.toNat : Int) = x.toInt % 2 ^ width := by
  have hlt : (x.toNat : Int) < 2 ^ width := by exact_mod_cast x.isLt
  have hmod := Int.bmod_emod (x := x.toNat) (m := 2 ^ width)
  rw [BitVec.toInt_eq_toNat_bmod]
  push_cast at hmod
  rw [hmod, Int.emod_eq_of_lt (Int.natCast_nonneg _) hlt]

/-- Reduction modulo a power of two of a word can be put off until the end. -/
theorem mod_mod_two_pow (hle : width ≤ 64) (n : Nat) : n % 2 ^ 64 % 2 ^ width = n % 2 ^ width :=
  Nat.mod_mod_of_dvd n (Nat.pow_dvd_pow 2 hle)

end

/-- What a number larger in size leaves of another one is its sign. -/
theorem ediv_of_lt {z b : Int} (hlow : -b ≤ z) (hhigh : z < b) :
    z / b = if z < 0 then -1 else 0 := by
  split
  next hneg =>
    have hparts : z + b + b * -1 = z ∧ 0 ≤ z + b ∧ z + b < b := by omega
    exact ((Int.ediv_emod_unique (by omega)).mpr hparts).1
  next hpos => exact Int.ediv_eq_zero_of_lt (by omega) hhigh

namespace BinOp

/-- The operation on vectors of some width. A shift may be by any number of bits. -/
def onVectors (op : BinOp) {width : Nat} (x y : BitVec width) : BitVec width :=
  match op with
  | .add => x + y
  | .sub => x - y
  | .mul => x * y
  | .and => x &&& y
  | .or => x ||| y
  | .xor => x ^^^ y
  | .shl => x <<< y.toNat
  | .lshr => x >>> y.toNat
  | .ashr => x.sshiftRight y.toNat

def isShift : BinOp → Bool
  | .shl | .lshr | .ashr => true
  | _ => false

section

variable {width : Nat} (hle : width ≤ 64) (x y : BitVec width)
include hle

theorem toNat_evaluate_add : (add.evaluate width (wordOf x) (wordOf y)).toNat = (x + y).toNat := by
  rw [evaluate, toNat_mask, UInt64.toNat_add, toNat_wordOf hle, toNat_wordOf hle,
    mod_mod_two_pow hle, BitVec.toNat_add]

theorem toNat_evaluate_sub : (sub.evaluate width (wordOf x) (wordOf y)).toNat = (x - y).toNat := by
  have hy := y.isLt
  have hpow : 2 ^ 64 = 2 ^ width * 2 ^ (64 - width) := by
    rw [← Nat.pow_add]
    congr 1
    omega
  have hpos : 0 < 2 ^ (64 - width) := Nat.two_pow_pos _
  have hcut : 2 ^ 64 - y.toNat = (2 ^ width - y.toNat) + 2 ^ width * (2 ^ (64 - width) - 1) := by
    rw [Nat.mul_sub, Nat.mul_one, ← hpow]
    have hle' : 2 ^ width ≤ 2 ^ 64 := Nat.pow_le_pow_right (by decide) hle
    omega
  rw [evaluate, toNat_mask, UInt64.toNat_sub, toNat_wordOf hle, toNat_wordOf hle,
    mod_mod_two_pow hle, BitVec.toNat_sub, hcut, Nat.add_right_comm, Nat.add_mul_mod_self_left]

theorem toNat_evaluate_mul : (mul.evaluate width (wordOf x) (wordOf y)).toNat = (x * y).toNat := by
  rw [evaluate, toNat_mask, UInt64.toNat_mul, toNat_wordOf hle, toNat_wordOf hle,
    mod_mod_two_pow hle, BitVec.toNat_mul]

theorem toNat_evaluate_and :
    (and.evaluate width (wordOf x) (wordOf y)).toNat = (x &&& y).toNat := by
  rw [evaluate, toNat_mask, UInt64.toNat_and, toNat_wordOf hle, toNat_wordOf hle,
    ← BitVec.toNat_and, Nat.mod_eq_of_lt (x &&& y).isLt]

theorem toNat_evaluate_or : (or.evaluate width (wordOf x) (wordOf y)).toNat = (x ||| y).toNat := by
  rw [evaluate, toNat_mask, UInt64.toNat_or, toNat_wordOf hle, toNat_wordOf hle,
    ← BitVec.toNat_or, Nat.mod_eq_of_lt (x ||| y).isLt]

theorem toNat_evaluate_xor :
    (xor.evaluate width (wordOf x) (wordOf y)).toNat = (x ^^^ y).toNat := by
  rw [evaluate, toNat_mask, UInt64.toNat_xor, toNat_wordOf hle, toNat_wordOf hle,
    ← BitVec.toNat_xor, Nat.mod_eq_of_lt (x ^^^ y).isLt]

/-- The amount of a shift is what the low 32 bits say. -/
theorem toNat_amount : (wordOf y).toUInt32.toNat = y.toNat % 2 ^ 32 := by
  rw [UInt64.toNat_toUInt32, toNat_wordOf hle]

omit hle in
theorem toNat_ofNat_mod {amount : Nat} (h : amount < 64) :
    (UInt64.ofNat amount).toNat % 64 = amount := by
  rw [UInt64.toNat_ofNat']
  omega

theorem toNat_evaluate_shl :
    (shl.evaluate width (wordOf x) (wordOf y)).toNat = (x <<< (y.toNat % 2 ^ 32)).toNat := by
  rw [evaluate, toNat_mask, toNat_amount hle y, BitVec.toNat_shiftLeft]
  split
  next hlt =>
    rw [UInt64.toNat_shiftLeft, toNat_ofNat_mod hlt, toNat_wordOf hle, mod_mod_two_pow hle]
  next hge =>
    have hdvd : 2 ^ width ∣ x.toNat <<< (y.toNat % 2 ^ 32) := by
      rw [Nat.shiftLeft_eq]
      exact Dvd.dvd.mul_left (Nat.pow_dvd_pow 2 (by omega)) _
    rw [Nat.mod_eq_zero_of_dvd hdvd]
    exact Nat.zero_mod _

theorem toNat_evaluate_lshr :
    (lshr.evaluate width (wordOf x) (wordOf y)).toNat = (x >>> (y.toNat % 2 ^ 32)).toNat := by
  have hx := x.isLt
  rw [evaluate, toNat_mask, toNat_amount hle y, BitVec.toNat_ushiftRight]
  split
  next hlt =>
    rw [mask_wordOf hle, UInt64.toNat_shiftRight, toNat_ofNat_mod hlt, toNat_wordOf hle,
      Nat.shiftRight_eq_div_pow, Nat.mod_eq_of_lt (Nat.lt_of_le_of_lt (Nat.div_le_self _ _) hx)]
  next hge =>
    have hpow : 2 ^ width ≤ 2 ^ (y.toNat % 2 ^ 32) := Nat.pow_le_pow_right (by decide) (by omega)
    rw [Nat.shiftRight_eq_div_pow, Nat.div_eq_of_lt (Nat.lt_of_lt_of_le hx hpow)]
    exact Nat.zero_mod _

/-- A vector has no bits from the 63rd on other than its sign. -/
theorem toInt_ediv_min (n : Nat) :
    x.toInt / ((2 ^ min n 63 : Nat) : Int) = x.toInt / ((2 ^ n : Nat) : Int) := by
  by_cases h : n ≤ 63
  · rw [Nat.min_eq_left h]
  · have hlow := BitVec.le_toInt x
    have hhigh := BitVec.toInt_lt (x := x)
    have hfar : ∀ k, 63 ≤ k → x.toInt / ((2 ^ k : Nat) : Int) = if x.toInt < 0 then -1 else 0 := by
      intro k hk
      have hpow : (2 : Int) ^ (width - 1) ≤ ((2 ^ k : Nat) : Int) := by
        exact_mod_cast Nat.pow_le_pow_right (n := 2) (by decide) (by omega : width - 1 ≤ k)
      exact ediv_of_lt (by omega) (by omega)
    rw [Nat.min_eq_right (by omega), hfar 63 le_rfl, hfar n (by omega)]

theorem toNat_evaluate_ashr (hpos : 0 < width) :
    (ashr.evaluate width (wordOf x) (wordOf y)).toNat
      = (x.sshiftRight (y.toNat % 2 ^ 32)).toNat := by
  rw [evaluate, toNat_mask, toNat_amount hle y]
  generalize y.toNat % 2 ^ 32 = amount
  have hmin : min amount 63 < 64 := by omega
  have hshift : (signExtend width (wordOf x) >>> Int64.ofNat (min amount 63)).toBitVec.toInt
      = x.toInt / ((2 ^ amount : Nat) : Int) := by
    rw [Int64.toBitVec_shiftRight, BitVec.sshiftRight', toNat_smod_ofNat hmin,
      BitVec.toInt_sshiftRight, Int.shiftRight_eq_div_pow]
    show (signExtend width (wordOf x)).toInt / _ = _
    rw [toInt_signExtend_wordOf hpos hle, toInt_ediv_min hle]
  have hdvd : (2 : Int) ^ width ∣ 2 ^ 64 := pow_dvd_pow 2 hle
  apply Int.ofNat_inj.mp
  rw [natCast_toNat_eq_emod, BitVec.toInt_sshiftRight, Int.shiftRight_eq_div_pow, ← hshift,
    ← Int.emod_emod_of_dvd _ hdvd,
    ← natCast_toNat_eq_emod]
  push_cast
  rfl

end

/-- What a shift by the whole width leaves. -/
def fill (op : BinOp) {width : Nat} (x : BitVec width) : BitVec width :=
  if op = .ashr ∧ x.msb = true then BitVec.allOnes width else 0

theorem sshiftRight_eq_fill {width amount : Nat} (x : BitVec width) (h : width ≤ amount) :
    x.sshiftRight amount = ashr.fill x := by
  ext i hi
  have hbeyond : ¬ amount + i < width := by omega
  cases hmsb : x.msb <;> simp [fill, BitVec.getElem_sshiftRight, hbeyond, hmsb]

theorem onVectors_eq_fill {op : BinOp} (hop : op.isShift = true) {width : Nat} {x y : BitVec width}
    (hfar : width ≤ y.toNat) : op.onVectors x y = op.fill x := by
  cases op with
  | add | sub | mul | and | or | xor => cases hop
  | shl => exact BitVec.shiftLeft_eq_zero hfar
  | lshr => exact BitVec.ushiftRight_eq_zero hfar
  | ashr => exact sshiftRight_eq_fill x hfar

/-- Looking at the low 32 bits of an amount only changes nothing where they come to the width
whenever the amount does. -/
theorem toNat_evaluate_of_isShift {op : BinOp} (hop : op.isShift = true) {width : Nat}
    (hpos : 0 < width) (hle : width ≤ 64) (x y : BitVec width)
    (hamount : width ≤ y.toNat → width ≤ y.toNat % 2 ^ 32) :
    (op.evaluate width (wordOf x) (wordOf y)).toNat = (op.onVectors x y).toNat := by
  by_cases hfar : width ≤ y.toNat
  · rw [onVectors_eq_fill hop hfar]
    cases op with
    | add | sub | mul | and | or | xor => cases hop
    | shl => rw [toNat_evaluate_shl hle x y, BitVec.shiftLeft_eq_zero (hamount hfar)]; rfl
    | lshr => rw [toNat_evaluate_lshr hle x y, BitVec.ushiftRight_eq_zero (hamount hfar)]; rfl
    | ashr => rw [toNat_evaluate_ashr hle x y hpos, sshiftRight_eq_fill x (hamount hfar)]
  · have hsame : y.toNat % 2 ^ 32 = y.toNat := Nat.mod_eq_of_lt (by omega)
    cases op with
    | add | sub | mul | and | or | xor => cases hop
    | shl => rw [toNat_evaluate_shl hle x y, hsame]; rfl
    | lshr => rw [toNat_evaluate_lshr hle x y, hsame]; rfl
    | ashr => rw [toNat_evaluate_ashr hle x y hpos, hsame]; rfl

/-- The arithmetic is that of bit vectors, and a shift by the width or more leaves nothing but the
fill. -/
theorem evaluate_onVectors (op : BinOp) {width : Nat} (hpos : 0 < width) (hle : width ≤ 64)
    (x y : BitVec width)
    (hamount : op.isShift = true → width ≤ y.toNat → width ≤ y.toNat % 2 ^ 32) :
    (op.evaluate width (wordOf x) (wordOf y)).toNat = (op.onVectors x y).toNat ∧
      (op.isShift = true → width ≤ y.toNat →
        (op.evaluate width (wordOf x) (wordOf y)).toNat = (op.fill x).toNat) := by
  have hvectors : (op.evaluate width (wordOf x) (wordOf y)).toNat = (op.onVectors x y).toNat := by
    cases op with
    | add => exact toNat_evaluate_add hle x y
    | sub => exact toNat_evaluate_sub hle x y
    | mul => exact toNat_evaluate_mul hle x y
    | and => exact toNat_evaluate_and hle x y
    | or => exact toNat_evaluate_or hle x y
    | xor => exact toNat_evaluate_xor hle x y
    | shl | lshr | ashr => exact toNat_evaluate_of_isShift rfl hpos hle x y (hamount rfl)
  refine ⟨hvectors, fun hop hfar => ?_⟩
  rw [hvectors, onVectors_eq_fill hop hfar]

/-- Minus five in a width of eight, shifted by one bit and by as many as the width. -/
theorem evaluate_onVectors_ashr :
    (ashr.evaluate 8 (wordOf 0xfb#8) (wordOf 1#8)).toNat = 0xfd ∧
      (ashr.evaluate 8 (wordOf 0xfb#8) (wordOf 8#8)).toNat = 0xff :=
  ⟨(evaluate_onVectors ashr (by decide) (by decide) 0xfb#8 1#8 (by decide)).1,
    (evaluate_onVectors ashr (by decide) (by decide) 0xfb#8 8#8 (by decide)).2 rfl (by decide)⟩

/-- A shift by 2 ^ 32 bits leaves the word as it is. -/
theorem evaluate_shl_far :
    (shl.evaluate 64 (wordOf 1#64) (wordOf 0x100000000#64)).toNat = 1 ∧
      (shl.onVectors 1#64 0x100000000#64).toNat = 0 :=
  ⟨by decide, by rw [onVectors_eq_fill rfl (by decide)]; rfl⟩

end BinOp

end EdgeProbe
