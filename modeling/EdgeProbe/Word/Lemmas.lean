import Mathlib.Algebra.Group.Nat.Defs
import EdgeProbe.Word

/-!
# Laws of words

What the operations on words say about numbers: `mask` is a remainder (`toNat_mask`), `signExtend` a
balanced one (`toInt_signExtend`), and a word comes back from memory as it went there
(`ofLeBytes_leBytes`).
-/

namespace EdgeProbe

theorem mask_of_le {width : Nat} (h : 64 ≤ width) (bits : UInt64) : mask width bits = bits :=
  if_pos h

/-- Masking is reduction modulo a power of two. -/
theorem toNat_mask (width : Nat) (bits : UInt64) :
    (mask width bits).toNat = bits.toNat % 2 ^ width := by
  unfold mask
  split
  next h =>
    have hle : 2 ^ 64 ≤ 2 ^ width := Nat.pow_le_pow_right (by decide) h
    exact (Nat.mod_eq_of_lt (Nat.lt_of_lt_of_le bits.toNat_lt hle)).symm
  next h =>
    have hw : width < 64 := by omega
    have hlt : 2 ^ width < 2 ^ 64 := Nat.pow_lt_pow_right (by decide) hw
    have hshift : (1 <<< UInt64.ofNat width : UInt64).toNat = 2 ^ width := by
      simp [UInt64.toNat_shiftLeft, Nat.mod_eq_of_lt hw, Nat.shiftLeft_eq]
      omega
    have hpos : 0 < 2 ^ width := Nat.two_pow_pos width
    rw [UInt64.toNat_and, UInt64.toNat_sub_of_le, hshift]
    · exact Nat.and_two_pow_sub_one_eq_mod _ _
    · rw [UInt64.le_iff_toNat_le, hshift]
      exact hpos

/-- A byte has eight bits at most. -/
theorem mask_toUInt64 {width : Nat} (h : 8 ≤ width) (x : UInt8) :
    mask width x.toUInt64 = x.toUInt64 := by
  apply UInt64.toNat_inj.mp
  have hpow : 2 ^ 8 ≤ 2 ^ width := Nat.pow_le_pow_right (by decide) h
  rw [toNat_mask, UInt8.toNat_toUInt64, Nat.mod_eq_of_lt (Nat.lt_of_lt_of_le x.toNat_lt hpow)]

@[simp] theorem length_leBytes (count : Nat) (bits : UInt64) :
    (leBytes count bits).length = count := by
  induction count generalizing bits with
  | zero => rfl
  | succ count ih => simp [leBytes, ih]

theorem toNat_ofLeBytes_cons (byte : UInt8) (rest : List UInt8)
    (h : (ofLeBytes rest).toNat < 2 ^ 56) :
    (ofLeBytes (byte :: rest)).toNat = byte.toNat + 256 * (ofLeBytes rest).toNat := by
  have hbyte : byte.toNat < 2 ^ 8 := byte.toNat_lt
  have hshift : (ofLeBytes rest <<< 8).toNat = (ofLeBytes rest).toNat <<< 8 := by
    have hlt : (ofLeBytes rest).toNat <<< 8 < 2 ^ 64 := by
      rw [Nat.shiftLeft_eq]
      omega
    exact (UInt64.toNat_shiftLeft _ _).trans (Nat.mod_eq_of_lt hlt)
  rw [ofLeBytes, UInt64.toNat_or, UInt8.toNat_toUInt64, hshift, Nat.or_comm,
    ← Nat.shiftLeft_add_eq_or_of_lt hbyte, Nat.shiftLeft_eq]
  omega

theorem toNat_ofLeBytes_lt (bytes : List UInt8) (h : bytes.length ≤ 8) :
    (ofLeBytes bytes).toNat < 2 ^ (8 * bytes.length) := by
  induction bytes with
  | nil => decide
  | cons byte rest ih =>
    rw [List.length_cons] at h
    have hlt := ih (by omega)
    have hle : 2 ^ (8 * rest.length) ≤ 2 ^ 56 := Nat.pow_le_pow_right (by decide) (by omega)
    have hbyte : byte.toNat < 256 := byte.toNat_lt
    rw [toNat_ofLeBytes_cons byte rest (by omega), List.length_cons, Nat.mul_succ, Nat.pow_add]
    omega

/-- A word is its lowest bytes, as far as they go. -/
theorem ofLeBytes_leBytes (count : Nat) (h : count ≤ 8) (bits : UInt64) :
    ofLeBytes (leBytes count bits) = mask (8 * count) bits := by
  apply UInt64.toNat_inj.mp
  rw [toNat_mask]
  induction count generalizing bits with
  | zero => simp [leBytes, ofLeBytes, Nat.mod_one]
  | succ count ih =>
    have hlt := toNat_ofLeBytes_lt (leBytes count (bits >>> 8)) (by simp; omega)
    have hle : 2 ^ (8 * count) ≤ 2 ^ 56 := Nat.pow_le_pow_right (by decide) (by omega)
    rw [leBytes, toNat_ofLeBytes_cons _ _ (by simp at hlt; omega), ih (by omega)]
    simp [Nat.shiftRight_eq_div_pow, Nat.mul_add, Nat.pow_add]
    rw [Nat.mul_comm (2 ^ (8 * count)), Nat.mod_mul]

theorem le_roundUp (n step : Nat) : n ≤ roundUp n step := by
  unfold roundUp
  split <;> omega

theorem dvd_roundUp (n : Nat) {step : Nat} (h : 0 < step) : step ∣ roundUp n step := by
  unfold roundUp
  split
  next hn => exact Nat.dvd_of_mod_eq_zero hn
  next hn =>
    have hlt := Nat.mod_lt n h
    have hdiv := Nat.div_add_mod n step
    exact ⟨n / step + 1, by rw [Nat.mul_succ]; omega⟩

/-- Balanced remainders scale with an even modulus. -/
theorem mul_bmod_mul_of_even (k : Nat) (a : Int) (n : Nat) (hk : 0 < k) (hn : n % 2 = 0) :
    (k * a).bmod (k * n) = k * a.bmod n := by
  obtain ⟨m, rfl⟩ : ∃ m, n = 2 * m := ⟨n / 2, by omega⟩
  have hk' : (0 : Int) < k := by omega
  have hhalf : (((k * (2 * m) : Nat) : Int) + 1) / 2 = k * m := by
    rw [Nat.mul_left_comm]
    push_cast
    omega
  have hhalf' : (((2 * m : Nat) : Int) + 1) / 2 = m := by omega
  rw [Int.bmod_def, Int.bmod_def, hhalf, hhalf', Int.natCast_mul k, Int.mul_emod_mul_of_pos _ _ hk']
  by_cases h : a % ((2 * m : Nat) : Int) < m
  · rw [if_pos h, if_pos (Int.mul_lt_mul_of_pos_left h hk')]
  · rw [if_neg h, if_neg (fun hlt => h (Int.lt_of_mul_lt_mul_left hlt (Int.le_of_lt hk'))),
      Int.mul_sub]

/-- Amounts below the width of a word shift by what they say. -/
theorem toNat_smod_ofNat {shift : Nat} (h : shift < 64) :
    ((Int64.ofNat shift).toBitVec.smod 64).toNat = shift := by
  have : ∀ s < 64, ((Int64.ofNat s).toBitVec.smod 64).toNat = s := by decide
  exact this shift h

/-- The sign counts the highest bit of the width as negative. -/
theorem toInt_signExtend {width : Nat} (h : 0 < width) (hle : width ≤ 64) (bits : UInt64) :
    (signExtend width bits).toInt = (bits.toNat : Int).bmod (2 ^ width) := by
  unfold signExtend
  split
  next hw =>
    obtain rfl : width = 64 := by omega
    rw [← UInt64.toNat_toBitVec]
    exact BitVec.toInt_eq_toNat_bmod bits.toBitVec
  next hw =>
    have hs : 64 - width < 64 := by omega
    have hpow : 2 ^ 64 = 2 ^ (64 - width) * 2 ^ width := by
      rw [← Nat.pow_add]
      congr 1
      omega
    have heven : 2 ^ width % 2 = 0 := by
      obtain ⟨w, rfl⟩ : ∃ w, width = w + 1 := ⟨width - 1, by omega⟩
      omega
    have hleft : (UInt64.ofNat (64 - width)).toBitVec % 64 = BitVec.ofNat 64 (64 - width) := by
      apply BitVec.eq_of_toNat_eq
      simp
      omega
    dsimp only
    rw [← Int64.toInt_toBitVec, Int64.toBitVec_shiftRight, BitVec.sshiftRight',
      BitVec.toInt_sshiftRight, toNat_smod_ofNat hs, UInt64.toBitVec_toInt64,
      UInt64.toBitVec_shiftLeft, hleft, BitVec.shiftLeft_eq', BitVec.toInt_shiftLeft,
      Int.shiftRight_eq_div_pow]
    simp only [BitVec.toNat_ofNat, Nat.shiftLeft_eq, UInt64.toNat_toBitVec]
    rw [Nat.mod_eq_of_lt (by omega : 64 - width < 2 ^ 64), hpow, Int.natCast_mul,
      Int.mul_comm, mul_bmod_mul_of_even _ _ _ (Nat.two_pow_pos _) heven]
    exact Int.mul_ediv_cancel_left _ (by have := Nat.two_pow_pos (64 - width); omega)

end EdgeProbe
