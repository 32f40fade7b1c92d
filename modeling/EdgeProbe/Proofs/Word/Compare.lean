import Mathlib.Tactic
import EdgeProbe.Code.Operator
import EdgeProbe.Lowering.Compare
import EdgeProbe.Word.Lemmas

/-!
# Laws of comparisons

How a comparison of words is put together from others: one that allows equality from a strict one
and an equality, a signed one from the signs and an unsigned one, and one of some width from those
of the halves.
-/

namespace EdgeProbe

variable {width : Nat} {x y : UInt64}

theorem signExtend_mask_injective
    (h : signExtend width (mask width x) = signExtend width (mask width y)) :
    mask width x = mask width y := by
  obtain rfl | hpos := Nat.eq_zero_or_pos width
  · apply UInt64.toNat_inj.mp
    rw [toNat_mask, toNat_mask, pow_zero, Nat.mod_one, Nat.mod_one]
  by_cases hle : width ≤ 64
  · have hint := congrArg Int64.toInt h
    rw [toInt_signExtend hpos hle, toInt_signExtend hpos hle] at hint
    apply UInt64.toNat_inj.mp
    have hmod := congrArg (fun n : Int => n % ((2 ^ width : Nat) : Int)) hint
    simp only [Int.bmod_emod, toNat_mask, ← Int.natCast_emod, Nat.mod_mod] at hmod
    rw [toNat_mask, toNat_mask]
    exact_mod_cast hmod
  · rw [mask_of_le (by omega), mask_of_le (by omega), signExtend, if_pos (.inr (by omega)),
      signExtend, if_pos (.inr (by omega))] at h
    rw [mask_of_le (by omega), mask_of_le (by omega)]
    exact UInt64.toBitVec_inj.mp (congrArg Int64.toBitVec h)

namespace Predicate

/-! ## Comparisons as those of numbers -/

theorem evaluate_eq : eq.evaluate width x y = decide (x.toNat % 2 ^ width = y.toNat % 2 ^ width) := by
  rw [← toNat_mask, ← toNat_mask]
  simp only [evaluate, UInt64.toNat_inj]
  rfl

theorem evaluate_ne : ne.evaluate width x y = !eq.evaluate width x y :=
  rfl

theorem evaluate_ugt :
    ugt.evaluate width x y = decide (y.toNat % 2 ^ width < x.toNat % 2 ^ width) := by
  rw [← toNat_mask, ← toNat_mask]
  rfl

theorem evaluate_ult :
    ult.evaluate width x y = decide (x.toNat % 2 ^ width < y.toNat % 2 ^ width) := by
  rw [← toNat_mask, ← toNat_mask]
  rfl

theorem evaluate_sgt (hpos : 0 < width) (hle : width ≤ 64) : sgt.evaluate width x y =
    decide (((y.toNat % 2 ^ width : Nat) : Int).bmod (2 ^ width) <
      ((x.toNat % 2 ^ width : Nat) : Int).bmod (2 ^ width)) := by
  rw [← toNat_mask, ← toNat_mask, ← toInt_signExtend hpos hle, ← toInt_signExtend hpos hle]
  simp only [← Int64.lt_iff_toInt_lt]
  rfl

theorem evaluate_slt_eq_sgt : slt.evaluate width x y = sgt.evaluate width y x := by
  simp only [evaluate]

theorem evaluate_ult_eq_ugt : ult.evaluate width x y = ugt.evaluate width y x := by
  simp only [evaluate]

/-- A comparison that allows equality is a strict one or an equality. -/
theorem evaluate_strict {pred : Predicate} (hpred : pred ∈ [uge, sge, ule, sle]) :
    pred.evaluate width x y = (pred.strict.evaluate width x y || eq.evaluate width x y) := by
  have hsigned : signExtend width (mask width x) = signExtend width (mask width y) ↔
      mask width x = mask width y :=
    ⟨signExtend_mask_injective, congrArg _⟩
  have hunsigned : ∀ a b : UInt64, a ≤ b ↔ a < b ∨ b = a := by
    intro a b
    rw [UInt64.le_iff_toNat_le, UInt64.lt_iff_toNat_lt, ← UInt64.toNat_inj]
    omega
  simp only [List.mem_cons, List.not_mem_nil, or_false] at hpred
  rw [Bool.eq_iff_iff, Bool.or_eq_true]
  obtain rfl | rfl | rfl | rfl := hpred
  · simp only [strict, evaluate, decide_eq_true_eq, beq_iff_eq]
    exact hunsigned _ _
  · simp only [strict, evaluate, decide_eq_true_eq, beq_iff_eq]
    rw [Int64.le_iff_lt_or_eq, eq_comm, hsigned]
  · simp only [strict, evaluate, decide_eq_true_eq, beq_iff_eq]
    rw [hunsigned, eq_comm]
  · simp only [strict, evaluate, decide_eq_true_eq, beq_iff_eq]
    rw [Int64.le_iff_lt_or_eq, hsigned]

end Predicate

/-! ## Signs -/

/-- A shift by less than a word has bits, by an amount that the width has room for. -/
theorem toNat_lshr {amount : Nat} (hamount : amount < 64) (hroom : amount < 2 ^ width) :
    (BinOp.lshr.evaluate width x (mask width (UInt64.ofNat amount))).toNat =
      x.toNat % 2 ^ width / 2 ^ amount := by
  have hsize : amount < UInt64.size := hamount.trans (by decide)
  have hword : (mask width (UInt64.ofNat amount)).toNat = amount := by
    rw [toNat_mask, UInt64.toNat_ofNat_of_lt' hsize, Nat.mod_eq_of_lt hroom]
  have hlow : (mask width (UInt64.ofNat amount)).toUInt32.toNat = amount := by
    rw [UInt64.toNat_toUInt32, hword]
    omega
  have hlt : x.toNat % 2 ^ width / 2 ^ amount < 2 ^ width :=
    (Nat.div_le_self _ _).trans_lt (Nat.mod_lt _ (Nat.two_pow_pos width))
  simp only [BinOp.evaluate, hlow, if_pos hamount]
  rw [toNat_mask, UInt64.toNat_shiftRight, toNat_mask, UInt64.toNat_ofNat_of_lt' hsize,
    Nat.mod_eq_of_lt hamount, Nat.shiftRight_eq_div_pow, Nat.mod_eq_of_lt hlt]

/-- The highest bit of a word of some width, as it is computed. -/
def signBit (width : Nat) (x : UInt64) : UInt64 :=
  mask 1 (mask width (BinOp.lshr.evaluate width x (mask width (UInt64.ofNat (width - 1)))))

theorem toNat_signBit (hpos : 0 < width) (hle : width ≤ 64) :
    (signBit width x).toNat = x.toNat % 2 ^ width / 2 ^ (width - 1) := by
  have hroom : width - 1 < 2 ^ width :=
    (Nat.lt_two_pow_self).trans (Nat.pow_lt_pow_right (by decide) (by omega))
  have hsplit : 2 ^ width = 2 ^ (width - 1) * 2 := by rw [← pow_succ]; congr 1; omega
  have hbit : x.toNat % 2 ^ width / 2 ^ (width - 1) < 2 := by
    rw [Nat.div_lt_iff_lt_mul (Nat.two_pow_pos _), Nat.mul_comm, ← hsplit]
    exact Nat.mod_lt _ (Nat.two_pow_pos width)
  have hwide : x.toNat % 2 ^ width / 2 ^ (width - 1) < 2 ^ width :=
    (Nat.div_le_self _ _).trans_lt (Nat.mod_lt _ (Nat.two_pow_pos width))
  rw [signBit, toNat_mask, toNat_mask, toNat_lshr (by omega) hroom, Nat.mod_eq_of_lt hwide,
    pow_one, Nat.mod_eq_of_lt hbit]

/-- A number below twice `half` as a balanced one. -/
theorem bmod_two_mul {half n : Nat} (h : n < 2 * half) :
    (n : Int).bmod (2 * half) = if n < half then (n : Int) else n - 2 * half := by
  rw [Int.bmod_def, ← Int.natCast_emod, Nat.mod_eq_of_lt h]
  split <;> split <;> omega

namespace Predicate

theorem evaluate_sgt_signs (hpos : 0 < width) (hle : width ≤ 64) : sgt.evaluate width x y =
    if eq.evaluate 1 (signBit width x) (signBit width y) then ugt.evaluate width x y
    else ult.evaluate 1 (signBit width x) (signBit width y) := by
  have hsplit : 2 ^ width = 2 * 2 ^ (width - 1) := by
    rw [← pow_succ']
    congr 1
    omega
  have hx : x.toNat % 2 ^ width < 2 * 2 ^ (width - 1) :=
    hsplit ▸ Nat.mod_lt _ (Nat.two_pow_pos width)
  have hy : y.toNat % 2 ^ width < 2 * 2 ^ (width - 1) :=
    hsplit ▸ Nat.mod_lt _ (Nat.two_pow_pos width)
  rw [evaluate_sgt hpos hle, evaluate_eq, evaluate_ugt, evaluate_ult, toNat_signBit hpos hle,
    toNat_signBit hpos hle]
  generalize x.toNat % 2 ^ width = a at hx ⊢
  generalize y.toNat % 2 ^ width = b at hy ⊢
  have hmodulus : ((2 ^ width : Nat)) = 2 * 2 ^ (width - 1) := hsplit
  rw [hmodulus, bmod_two_mul hx, bmod_two_mul hy]
  have hhalf := Nat.two_pow_pos (width - 1)
  generalize 2 ^ (width - 1) = half at hx hy hhalf ⊢
  have hdiv : ∀ n, n < 2 * half → n / half = if n < half then 0 else 1 := by
    intro n hn
    split
    · next hlt => exact Nat.div_eq_of_lt hlt
    · next hge => exact Nat.div_eq_of_lt_le (by omega) (by omega)
  rw [hdiv a hx, hdiv b hy]
  by_cases ha : a < half <;> by_cases hb : b < half
  · simp [ha, hb]
  · simp [ha, hb]
    omega
  · simp [ha, hb]
    omega
  · simp [ha, hb]

/-- Which way a signed comparison goes is a matter of the signs where they differ, and of the words
where they do not. -/
theorem evaluate_signs {pred : Predicate} (hpred : pred ∈ [sgt, slt]) (hpos : 0 < width)
    (hle : width ≤ 64) : pred.evaluate width x y =
      if eq.evaluate 1 (signBit width x) (signBit width y) then pred.unsigned.evaluate width x y
      else pred.ofSigns.evaluate 1 (signBit width x) (signBit width y) := by
  have hsymm : eq.evaluate 1 (signBit width x) (signBit width y) =
      eq.evaluate 1 (signBit width y) (signBit width x) := by
    rw [evaluate_eq, evaluate_eq]
    exact decide_eq_decide.mpr eq_comm
  simp only [List.mem_cons, List.not_mem_nil, or_false] at hpred
  obtain rfl | rfl := hpred
  · simp only [unsigned, ofSigns]
    exact evaluate_sgt_signs hpos hle
  · rw [evaluate_slt_eq_sgt, evaluate_sgt_signs hpos hle, hsymm]
    simp only [unsigned, ofSigns, evaluate_ult_eq_ugt]

end Predicate

/-! ## Halves -/

/-- The upper half of a word of some width, as it is computed. -/
def upperHalf (width : Nat) (x : UInt64) : UInt64 :=
  mask (width / 2) (mask width
    (BinOp.lshr.evaluate width x (mask width (UInt64.ofNat (width / 2)))))

/-- The lower half of a word of some width, as it is computed. -/
def lowerHalf (width : Nat) (x : UInt64) : UInt64 :=
  mask (width / 2) (mask width x)

section

variable {half : Nat} (hwidth : width = 2 * half) (hpos : 0 < half) (hle : width ≤ 64)
include hwidth

theorem two_pow_width : 2 ^ width = 2 ^ half * 2 ^ half := by
  rw [hwidth, two_mul, pow_add]

include hpos hle in
theorem toNat_upperHalf_mod :
    (upperHalf width x).toNat % 2 ^ half = x.toNat % 2 ^ width / 2 ^ half := by
  have hdiv : width / 2 = half := by omega
  have hroom : half < 2 ^ width := by
    rw [hwidth]
    exact Nat.lt_two_pow_self.trans (Nat.pow_lt_pow_right (by decide) (by omega))
  have hlt : x.toNat % 2 ^ width / 2 ^ half < 2 ^ half := by
    rw [Nat.div_lt_iff_lt_mul (Nat.two_pow_pos half), ← two_pow_width hwidth]
    exact Nat.mod_lt _ (Nat.two_pow_pos width)
  have hwide : x.toNat % 2 ^ width / 2 ^ half < 2 ^ width :=
    (Nat.div_le_self _ _).trans_lt (Nat.mod_lt _ (Nat.two_pow_pos width))
  rw [upperHalf, hdiv, toNat_mask, toNat_mask, toNat_lshr (by omega) hroom,
    Nat.mod_eq_of_lt hwide, Nat.mod_eq_of_lt hlt, Nat.mod_eq_of_lt hlt]

theorem toNat_lowerHalf_mod :
    (lowerHalf width x).toNat % 2 ^ half = x.toNat % 2 ^ width % 2 ^ half := by
  have hdiv : width / 2 = half := by omega
  rw [lowerHalf, hdiv, toNat_mask, toNat_mask, Nat.mod_mod]

end

/-- Numbers are compared by their quotients, and by their remainders if those agree. -/
theorem lt_iff_div_mod (m n k : Nat) :
    m < n ↔ m / k < n / k ∨ m / k = n / k ∧ m % k < n % k := by
  have hm := Nat.div_add_mod m k
  have hn := Nat.div_add_mod n k
  constructor
  · intro hlt
    obtain hdiv | hdiv := Nat.lt_or_eq_of_le (Nat.div_le_div_right (c := k) hlt.le)
    · exact .inl hdiv
    · exact .inr ⟨hdiv, by rw [hdiv] at hm; omega⟩
  · rintro (hdiv | ⟨hdiv, hmod⟩)
    · exact Nat.lt_of_div_lt_div hdiv
    · rw [hdiv] at hm
      omega

theorem eq_iff_div_mod (m n k : Nat) : m = n ↔ m / k = n / k ∧ m % k = n % k := by
  constructor
  · rintro rfl
    exact ⟨rfl, rfl⟩
  · rintro ⟨hdiv, hmod⟩
    rw [← Nat.div_add_mod m k, hdiv, hmod, Nat.div_add_mod]

namespace Predicate

section

variable {half : Nat} (hwidth : width = 2 * half) (hpos : 0 < half) (hle : width ≤ 64)
include hwidth hpos hle

theorem evaluate_eq_halves : eq.evaluate width x y =
    (eq.evaluate half (upperHalf width x) (upperHalf width y) &&
      eq.evaluate half (lowerHalf width x) (lowerHalf width y)) := by
  rw [evaluate_eq, evaluate_eq, evaluate_eq, toNat_upperHalf_mod hwidth hpos hle,
    toNat_upperHalf_mod hwidth hpos hle, toNat_lowerHalf_mod hwidth, toNat_lowerHalf_mod hwidth,
    ← Bool.decide_and]
  exact decide_eq_decide.mpr (eq_iff_div_mod _ _ _)

theorem evaluate_ugt_halves : ugt.evaluate width x y =
    if ugt.evaluate half (upperHalf width x) (upperHalf width y) then true
    else if ult.evaluate half (upperHalf width x) (upperHalf width y) then false
    else ugt.evaluate half (lowerHalf width x) (lowerHalf width y) := by
  rw [evaluate_ugt, evaluate_ugt, evaluate_ult, evaluate_ugt, toNat_upperHalf_mod hwidth hpos hle,
    toNat_upperHalf_mod hwidth hpos hle, toNat_lowerHalf_mod hwidth, toNat_lowerHalf_mod hwidth]
  have hlt := lt_iff_div_mod (y.toNat % 2 ^ width) (x.toNat % 2 ^ width) (2 ^ half)
  simp only [hlt, decide_eq_true_eq]
  split
  · next hupper => simp [hupper]
  · next hupper =>
    split
    · next hconverse =>
      have hne := hconverse.ne'
      simp [hupper, hne]
    · next hconverse =>
      have heq := Nat.le_antisymm (Nat.le_of_not_lt hconverse) (Nat.le_of_not_lt hupper)
      simp [heq]

theorem evaluate_halves {pred : Predicate} (hpred : pred ∈ [ugt, ult]) :
    pred.evaluate width x y =
      if pred.evaluate half (upperHalf width x) (upperHalf width y) then true
      else if pred.converse.evaluate half (upperHalf width x) (upperHalf width y) then false
      else pred.evaluate half (lowerHalf width x) (lowerHalf width y) := by
  simp only [List.mem_cons, List.not_mem_nil, or_false] at hpred
  obtain rfl | rfl := hpred
  · simp only [converse]
    exact evaluate_ugt_halves hwidth hpos hle
  · rw [evaluate_ult_eq_ugt, evaluate_ugt_halves hwidth hpos hle]
    simp only [converse, evaluate_ult_eq_ugt]

end

end Predicate

end EdgeProbe
