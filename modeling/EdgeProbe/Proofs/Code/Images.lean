import Mathlib.Algebra.Group.Nat.Defs
import Mathlib.Data.Nat.Init
import EdgeProbe.Code.Initializer
import EdgeProbe.Word.Lemmas

/-!
# Images of structures

Where the leaves of a structure stand in its image. A field is laid out as if its image began at
zero (`exists_laid`), and putting it behind what is there moves all of its leaves by a multiple of
its alignment. All alignments are powers of two, so that of a leaf divides that of everything around
it, and the leaf keeps its alignment however deep it stands. Main statement: `struct_laid`.
-/

namespace EdgeProbe.Initializer

mutual

/-- What is no structure, in the order of declaration. -/
def leaves : Initializer → List Initializer
  | .struct fields => leavesAll fields
  | .int width bits => [.int width bits]
  | .bytes data => [.bytes data]
  | .zero size => [.zero size]

def leavesAll : List Initializer → List Initializer
  | [] => []
  | field :: rest => field.leaves ++ leavesAll rest

end

/-! ### Alignments -/

mutual

theorem isPowerOfTwo_align : ∀ init : Initializer, init.align.isPowerOfTwo
  | .int width _ => Nat.isPowerOfTwo_nextPowerOfTwo (byteCount width)
  | .bytes _ | .zero _ => Nat.isPowerOfTwo_one
  | .struct fields => isPowerOfTwo_alignAll fields

theorem isPowerOfTwo_alignAll : ∀ fields : List Initializer, (alignAll fields).isPowerOfTwo
  | [] => Nat.isPowerOfTwo_one
  | field :: rest => by
    rw [alignAll]
    rcases Nat.le_total field.align (alignAll rest) with h | h
    · rw [Nat.max_eq_right h]
      exact isPowerOfTwo_alignAll rest
    · rw [Nat.max_eq_left h]
      exact isPowerOfTwo_align field

end

theorem align_pos (init : Initializer) : 0 < init.align :=
  Nat.pos_of_isPowerOfTwo init.isPowerOfTwo_align

theorem alignAll_pos (fields : List Initializer) : 0 < alignAll fields :=
  Nat.pos_of_isPowerOfTwo (isPowerOfTwo_alignAll fields)

theorem dvd_of_isPowerOfTwo {m n : Nat} (hm : m.isPowerOfTwo) (hn : n.isPowerOfTwo) (h : m ≤ n) :
    m ∣ n := by
  obtain ⟨i, rfl⟩ := hm
  obtain ⟨j, rfl⟩ := hn
  exact Nat.pow_dvd_pow 2 ((Nat.pow_le_pow_iff_right (by decide)).mp h)

theorem align_dvd_alignAll_cons (field : Initializer) (rest : List Initializer) :
    field.align ∣ alignAll (field :: rest) :=
  dvd_of_isPowerOfTwo (isPowerOfTwo_align field) (isPowerOfTwo_alignAll _) (Nat.le_max_left _ _)

theorem alignAll_dvd_alignAll_cons (field : Initializer) (rest : List Initializer) :
    alignAll rest ∣ alignAll (field :: rest) :=
  dvd_of_isPowerOfTwo (isPowerOfTwo_alignAll rest) (isPowerOfTwo_alignAll _) (Nat.le_max_right _ _)

mutual

/-- What is around a leaf is aligned for the leaf, too. -/
theorem align_dvd_of_mem_leaves {leaf : Initializer} :
    ∀ init : Initializer, leaf ∈ init.leaves → leaf.align ∣ init.align
  | .int _ _, h | .bytes _, h | .zero _, h => by
    obtain rfl := List.mem_singleton.mp h
    exact Nat.dvd_refl _
  | .struct fields, h => align_dvd_of_mem_leavesAll fields h

theorem align_dvd_of_mem_leavesAll {leaf : Initializer} :
    ∀ fields : List Initializer, leaf ∈ leavesAll fields → leaf.align ∣ alignAll fields
  | [], h => nomatch h
  | field :: rest, h => by
    rcases List.mem_append.mp h with h | h
    · exact Nat.dvd_trans (align_dvd_of_mem_leaves field h) (align_dvd_alignAll_cons field rest)
    · exact Nat.dvd_trans (align_dvd_of_mem_leavesAll rest h) (alignAll_dvd_alignAll_cons field rest)

end

/-! ### Leaves in an image -/

/-- A leaf and where its bytes begin. -/
structure Placed where
  offset : Nat
  leaf : Initializer

namespace Placed

def stop (p : Placed) : Nat :=
  p.offset + p.leaf.toBytes.length

def shift (start : Nat) (p : Placed) : Placed :=
  { p with offset := start + p.offset }

@[simp] theorem shift_leaf (start : Nat) (p : Placed) : (p.shift start).leaf = p.leaf := rfl

@[simp] theorem shift_offset (start : Nat) (p : Placed) :
    (p.shift start).offset = start + p.offset := rfl

@[simp] theorem shift_stop (start : Nat) (p : Placed) :
    (p.shift start).stop = start + p.stop :=
  Nat.add_assoc _ _ _

end Placed

/-- An image consists of these leaves, one after the other and each aligned, and of zeros between
them. -/
structure Laid (image : List UInt8) (placed : List Placed) : Prop where
  apart : placed.Pairwise fun p q => p.stop ≤ q.offset
  stop_le : ∀ p ∈ placed, p.stop ≤ image.length
  bytes : ∀ p ∈ placed, ∀ i (h : i < p.leaf.toBytes.length),
    image[p.offset + i]? = some p.leaf.toBytes[i]
  aligned : ∀ p ∈ placed, p.leaf.align ∣ p.offset
  zeros : ∀ i, i < image.length → (∀ p ∈ placed, i < p.offset ∨ p.stop ≤ i) → image[i]? = some 0

theorem laid_leaf (leaf : Initializer) : Laid leaf.toBytes [⟨0, leaf⟩] where
  apart := List.pairwise_singleton _ _
  stop_le := by simp [Placed.stop]
  bytes := by
    intro p hp i hi
    obtain rfl := List.mem_singleton.mp hp
    simp
  aligned := by simp
  zeros := by
    intro i hi hout
    have := hout _ (List.mem_singleton_self _)
    simp only [Placed.stop] at this
    omega

theorem laid_nil : Laid [] [] where
  apart := List.Pairwise.nil
  stop_le := by simp
  bytes := by simp
  aligned := by simp
  zeros := by simp

namespace Laid

variable {image image' : List UInt8} {placed placed' : List Placed}

/-- What has the alignment of its leaves may be put behind another image. -/
theorem append (h : Laid image placed) (h' : Laid image' placed')
    (haligned : ∀ p ∈ placed', p.leaf.align ∣ image.length) :
    Laid (image ++ image') (placed ++ placed'.map (·.shift image.length)) where
  apart := by
    refine List.pairwise_append.mpr ⟨h.apart, ?_, ?_⟩
    · refine List.pairwise_map.mpr (h'.apart.imp fun hle => ?_)
      simpa using hle
    · intro p hp q hq
      obtain ⟨q, -, rfl⟩ := List.mem_map.mp hq
      exact Nat.le_trans (h.stop_le p hp) (Nat.le_add_right _ _)
  stop_le := by
    intro p hp
    rw [List.length_append]
    rcases List.mem_append.mp hp with hp | hp
    · exact Nat.le_add_right_of_le (h.stop_le p hp)
    · obtain ⟨q, hq, rfl⟩ := List.mem_map.mp hp
      simpa using h'.stop_le q hq
  bytes := by
    intro p hp i hi
    rcases List.mem_append.mp hp with hp | hp
    · have hstop := h.stop_le p hp
      rw [Placed.stop] at hstop
      rw [List.getElem?_append_left (by omega)]
      exact h.bytes p hp i hi
    · obtain ⟨q, hq, rfl⟩ := List.mem_map.mp hp
      rw [Placed.shift_offset, Nat.add_assoc, List.getElem?_append_right (by omega),
        Nat.add_sub_cancel_left]
      exact h'.bytes q hq i hi
  aligned := by
    intro p hp
    rcases List.mem_append.mp hp with hp | hp
    · exact h.aligned p hp
    · obtain ⟨q, hq, rfl⟩ := List.mem_map.mp hp
      exact Nat.dvd_add (haligned q hq) (h'.aligned q hq)
  zeros := by
    intro i hi hout
    rw [List.length_append] at hi
    by_cases hlt : i < image.length
    · rw [List.getElem?_append_left hlt]
      exact h.zeros i hlt fun p hp => hout p (List.mem_append_left _ hp)
    · rw [List.getElem?_append_right (by omega)]
      refine h'.zeros _ (by omega) fun p hp => ?_
      have := hout _ (List.mem_append_right _ (List.mem_map_of_mem hp))
      simp only [Placed.shift_offset, Placed.shift_stop] at this
      omega

theorem zeros_after (h : Laid image placed) (count : Nat) :
    Laid (image ++ List.replicate count 0) placed := by
  have hzeros : Laid (List.replicate count 0) [] :=
    { laid_nil with
      stop_le := by simp
      bytes := by simp
      zeros := fun i hi _ => by
        rw [List.length_replicate] at hi
        simp [hi] }
  simpa using h.append hzeros (by simp)

end Laid

theorem length_padded (image : List UInt8) (align : Nat) :
    (padded image align).length = roundUp image.length align := by
  have := le_roundUp image.length align
  rw [padded, List.length_append, List.length_replicate]
  omega

/-! ### Structures -/

mutual

/-- Everything is laid out so that what begins at its alignment has its leaves aligned. -/
theorem exists_laid : ∀ init : Initializer,
    ∃ placed : List Placed, placed.map (·.leaf) = init.leaves ∧ Laid init.toBytes placed
  | .int width bits => ⟨[⟨0, .int width bits⟩], rfl, laid_leaf _⟩
  | .bytes data => ⟨[⟨0, .bytes data⟩], rfl, laid_leaf _⟩
  | .zero size => ⟨[⟨0, .zero size⟩], rfl, laid_leaf _⟩
  | .struct fields => by
    obtain ⟨placed, hleaves, hlaid⟩ := exists_laid_fields fields laid_nil
    exact ⟨placed, hleaves, hlaid.zeros_after _⟩

/-- Fields come after what is there, each one's leaves in their order. -/
theorem exists_laid_fields : ∀ (fields : List Initializer) {image : List UInt8}
    {placed : List Placed}, Laid image placed →
    ∃ placed' : List Placed, placed'.map (·.leaf) = placed.map (·.leaf) ++ leavesAll fields ∧
      Laid (fieldBytes image fields) placed'
  | [], image, placed, h => ⟨placed, (List.append_nil _).symm, h⟩
  | field :: rest, image, placed, h => by
    obtain ⟨inner, hinner, hfield⟩ := exists_laid field
    have haligned : ∀ p ∈ inner, p.leaf.align ∣ (padded image field.align).length := by
      intro p hp
      have hmem : p.leaf ∈ field.leaves := by
        rw [← hinner]
        exact List.mem_map_of_mem hp
      rw [length_padded]
      exact Nat.dvd_trans (align_dvd_of_mem_leaves field hmem) (dvd_roundUp _ field.align_pos)
    obtain ⟨placed', hleaves, hlaid⟩ :=
      exists_laid_fields rest ((h.zeros_after _).append hfield haligned)
    refine ⟨placed', ?_, hlaid⟩
    rw [hleaves, leavesAll, ← hinner]
    simp [Function.comp_def]

end

/-- The bytes of a word are its digits. -/
theorem getElem_leBytes (count : Nat) (bits : UInt64) (i : Nat)
    (h : i < (leBytes count bits).length) :
    (leBytes count bits)[i] = UInt8.ofNat (bits.toNat / 256 ^ i) := by
  induction count generalizing bits i with
  | zero => exact absurd h (Nat.not_lt_zero i)
  | succ count ih =>
    cases i with
    | zero =>
      rw [Nat.pow_zero, Nat.div_one]
      rfl
    | succ i =>
      have hshift : (bits >>> 8).toNat = bits.toNat / 256 := by
        rw [UInt64.toNat_shiftRight, Nat.shiftRight_eq_div_pow]
        rfl
      rw [length_leBytes] at h
      have htail := ih (bits >>> 8) i (by rw [length_leBytes]; omega)
      rw [hshift, Nat.div_div_eq_div_mul, ← Nat.pow_succ'] at htail
      exact htail

/-- An integer of at most 64 bits has all of its bytes in its image. -/
theorem toBytes_int {width : Nat} (h : width ≤ 64) (bits : UInt64) :
    (int width bits).toBytes = leBytes (byteCount width) bits := by
  have hbytes : byteCount width ≤ 8 := by
    unfold byteCount
    omega
  rw [toBytes, Nat.min_eq_left hbytes]

/-- The leaves of a structure stand in its image in the order of their declaration, one after the
other and with zeros in between; integers stand where their own alignment allows, and the image ends
where that of the structure does. -/
theorem struct_laid (fields : List Initializer)
    (hnarrow : ∀ width bits, .int width bits ∈ (struct fields).leaves → width ≤ 64) :
    ∃ placed : List Placed, placed.map (·.leaf) = (struct fields).leaves ∧
      Laid (struct fields).toBytes placed ∧
      (∀ p ∈ placed, ∀ width bits, p.leaf = .int width bits →
        (byteCount width).nextPowerOfTwo ∣ p.offset ∧
        p.stop = p.offset + byteCount width ∧
        ∀ i < byteCount width,
          (struct fields).toBytes[p.offset + i]? = some (UInt8.ofNat (bits.toNat / 256 ^ i))) ∧
      (struct fields).align ∣ (struct fields).toBytes.length := by
  obtain ⟨placed, hleaves, hlaid⟩ := exists_laid (struct fields)
  refine ⟨placed, hleaves, hlaid, ?_, ?_⟩
  · intro p hp width bits hint
    have hmem : .int width bits ∈ (struct fields).leaves := by
      rw [← hleaves, ← hint]
      exact List.mem_map_of_mem hp
    have hbytes : p.leaf.toBytes = leBytes (byteCount width) bits := by
      rw [hint, toBytes_int (hnarrow width bits hmem)]
    have haligned := hlaid.aligned p hp
    rw [hint] at haligned
    refine ⟨haligned, by rw [Placed.stop, hbytes, length_leBytes], fun i hi => ?_⟩
    have hlt : i < p.leaf.toBytes.length := by rwa [hbytes, length_leBytes]
    rw [hlaid.bytes p hp i hlt]
    simp only [hbytes, getElem_leBytes]
  · rw [toBytes, length_padded]
    exact dvd_roundUp _ (alignAll_pos fields)

/-- A structure inside of a structure, with leaves of several kinds around it. -/
def nested : List Initializer :=
  [.int 8 0xaa, .struct [.bytes [1], .struct [.int 32 0x01020304]], .zero 3, .int 12 0x0bcd]

theorem toBytes_nested : (struct nested).toBytes =
    [0xaa, 0, 0, 0, 1, 0, 0, 0, 4, 3, 2, 1, 0, 0, 0, 0, 0xcd, 0x0b, 0, 0] := by
  decide +kernel

theorem nested_laid : ∃ placed : List Placed,
    placed.map (·.leaf) = [.int 8 0xaa, .bytes [1], .int 32 0x01020304, .zero 3, .int 12 0x0bcd] ∧
      Laid [0xaa, 0, 0, 0, 1, 0, 0, 0, 4, 3, 2, 1, 0, 0, 0, 0, 0xcd, 0x0b, 0, 0] placed := by
  have hnarrow : ∀ width bits, .int width bits ∈ (struct nested).leaves → width ≤ 64 := by
    intro width bits hmem
    simp only [nested, leaves, leavesAll, List.cons_append, List.nil_append, List.mem_cons,
      Initializer.int.injEq, reduceCtorEq, List.not_mem_nil, or_false, false_or] at hmem
    omega
  obtain ⟨placed, hleaves, hlaid, -, -⟩ := struct_laid nested hnarrow
  rw [toBytes_nested] at hlaid
  exact ⟨placed, hleaves, hlaid⟩

end EdgeProbe.Initializer
