import EdgeProbe.Proofs.Machine.Contents

/-!
# How far comparisons read

A comparison of strings reads both up to the first difference, the first NUL or its bound, and its
result is the difference of the bytes that it read last. `Memory.Compares` follows it byte by byte,
`Chained` a chain of tests that each look at one byte. Where the chain is as long as the comparison
may go on, both come to the same bytes (`Memory.Compares.chained`, `Memory.compareRegions_chained`).
-/

namespace EdgeProbe

namespace Memory

/-- How many bytes of either string a comparison reads if it comes to an end. -/
def comparedFrom (m : Memory) (ignoreCase : Bool) : Nat → UInt64 → UInt64 → Nat
  | 0, _, _ => 0
  | left + 1, lhs, rhs =>
    match m.byte lhs, m.byte rhs with
    | .ok a, .ok b =>
      if Text.foldCase ignoreCase a != Text.foldCase ignoreCase b || Text.foldCase ignoreCase a == 0
      then 1
      else m.comparedFrom ignoreCase left (lhs + 1) (rhs + 1) + 1
    | _, _ => 0

/-- A comparison of at most `left` bytes that comes to an end after it has read so many of them, with
its result. -/
inductive Compares (m : Memory) (ignoreCase : Bool) :
    Nat → UInt64 → UInt64 → Nat → Int64 → Prop
  | spent {lhs rhs : UInt64} : Compares m ignoreCase 0 lhs rhs 0 0
  | stop {left : Nat} {lhs rhs : UInt64} {a b : UInt8} (ha : m.byte lhs = .ok a)
    (hb : m.byte rhs = .ok b)
    (h : Text.foldCase ignoreCase a = Text.foldCase ignoreCase b → Text.foldCase ignoreCase a = 0) :
    Compares m ignoreCase (left + 1) lhs rhs 1
      (byteDifference (Text.foldCase ignoreCase a) (Text.foldCase ignoreCase b))
  | next {left reads : Nat} {lhs rhs : UInt64} {a b : UInt8} {result : Int64}
    (ha : m.byte lhs = .ok a) (hb : m.byte rhs = .ok b)
    (hsame : Text.foldCase ignoreCase a = Text.foldCase ignoreCase b)
    (hnul : Text.foldCase ignoreCase a ≠ 0)
    (h : Compares m ignoreCase left (lhs + 1) (rhs + 1) reads result) :
    Compares m ignoreCase (left + 1) lhs rhs (reads + 1) result

variable {m : Memory} {ignoreCase : Bool} {left n reads : Nat} {lhs rhs : UInt64} {result : Int64}

theorem compareFrom_compares (h : m.compareFrom ignoreCase left lhs rhs = .ok result) :
    m.Compares ignoreCase left lhs rhs (m.comparedFrom ignoreCase left lhs rhs) result := by
  induction left generalizing lhs rhs with
  | zero =>
    obtain rfl := Except.ok.inj h
    exact .spent
  | succ left ih =>
    obtain ⟨a, ha, h⟩ := Checked.bind_eq_ok.mp h
    obtain ⟨b, hb, h⟩ := Checked.bind_eq_ok.mp h
    rw [comparedFrom, ha, hb]
    dsimp only at h ⊢
    split at h
    · next hstop =>
      obtain rfl := Except.ok.inj h
      rw [if_pos hstop]
      rw [Bool.or_eq_true, bne_iff_ne, beq_iff_eq] at hstop
      exact .stop ha hb fun hsame => hstop.resolve_left fun hne => hne hsame
    · next hgo =>
      rw [if_neg hgo]
      rw [Bool.or_eq_true, bne_iff_ne, beq_iff_eq, not_or, not_not] at hgo
      exact .next ha hb hgo.1 hgo.2 (ih h)

namespace Compares

theorem reads_le (h : m.Compares ignoreCase left lhs rhs reads result) : reads ≤ left := by
  induction h with
  | spent => exact le_rfl
  | stop => exact Nat.succ_le_succ (Nat.zero_le _)
  | next _ _ _ _ _ ih => exact Nat.succ_le_succ ih

/-- A tighter bound that is not reached either makes no difference. -/
theorem shorten (h : m.Compares ignoreCase left lhs rhs reads result) (hreads : reads ≤ n)
    (hle : n ≤ left) : m.Compares ignoreCase n lhs rhs reads result := by
  induction h generalizing n with
  | spent =>
    obtain rfl := Nat.le_zero.mp hle
    exact .spent
  | stop ha hb hstop =>
    obtain ⟨n, rfl⟩ := Nat.exists_eq_add_of_le' hreads
    exact .stop ha hb hstop
  | next ha hb hsame hnul _ ih =>
    obtain ⟨n, rfl⟩ := Nat.exists_eq_add_of_le' (Nat.one_le_of_lt hreads)
    exact .next ha hb hsame hnul (ih (by omega) (by omega))

theorem byte_bounds {addr : UInt64} {a : UInt8} (h : m.byte addr = .ok a) :
    reserved ≤ addr.toNat ∧ addr.toNat + 1 ≤ m.size := by
  unfold byte at h
  split at h
  · next hbounds => exact inBounds_iff.mp hbounds
  · cases h

/-- A comparison with no end of its own runs into the end of memory, so a looser bound makes no
difference. -/
theorem loosen (h : m.Compares ignoreCase left lhs rhs reads result) (hleft : m.size < left)
    (hle : left ≤ n) : m.Compares ignoreCase n lhs rhs reads result := by
  have hcases : left = 0 ∨ lhs.toNat + left ≤ m.size ∨
      ∀ n, left ≤ n → m.Compares ignoreCase n lhs rhs reads result := by
    clear hleft hle
    induction h with
    | spent => exact .inl rfl
    | stop ha hb hstop =>
      refine .inr (.inr fun n hle => ?_)
      obtain ⟨n, rfl⟩ := Nat.exists_eq_add_of_le' (Nat.one_le_of_lt hle)
      exact .stop ha hb hstop
    | @next left reads lhs rhs a b result ha hb hsame hnul h ih =>
      obtain ⟨-, hlhs⟩ := byte_bounds ha
      obtain rfl | hmemory | hlonger := ih
      · exact .inr (.inl hlhs)
      · cases h with
        | spent => exact .inr (.inl hlhs)
        | stop ha' | next ha' =>
          -- The next byte is in bounds too, so its address has not gone around.
          have hnext := (byte_bounds ha').1
          have hsum : (lhs + 1).toNat = (lhs.toNat + 1) % 2 ^ 64 := UInt64.toNat_add lhs 1
          have hlt := lhs.toNat_lt
          unfold reserved at hnext
          refine .inr (.inl ?_)
          omega
      · refine .inr (.inr fun n hle => ?_)
        obtain ⟨n, rfl⟩ := Nat.exists_eq_add_of_le' (Nat.one_le_of_lt hle)
        exact .next ha hb hsame hnul (hlonger n (by omega))
  obtain hzero | hmemory | hlonger := hcases
  · omega
  · omega
  · exact hlonger n hle

theorem succ_add (addr : UInt64) (k : Nat) :
    addr + 1 + UInt64.ofNat k = addr + UInt64.ofNat (k + 1) := by
  rw [UInt64.add_assoc, UInt64.ofNat_add, UInt64.add_comm 1]
  rfl

/-- Before the byte that is read last the strings are the same, without a NUL. -/
theorem before (h : m.Compares ignoreCase left lhs rhs reads result) {k : Nat} (hk : k + 1 < reads) :
    ∃ a b, m.byte (lhs + UInt64.ofNat k) = .ok a ∧ m.byte (rhs + UInt64.ofNat k) = .ok b ∧
      Text.foldCase ignoreCase a = Text.foldCase ignoreCase b ∧
      Text.foldCase ignoreCase a ≠ 0 := by
  induction h generalizing k with
  | spent => omega
  | stop => omega
  | @next left reads lhs rhs a b result ha hb hsame hnul _ ih =>
    cases k with
    | zero => exact ⟨a, b, by simpa using ha, by simpa using hb, hsame, hnul⟩
    | succ k =>
      have hlater := ih (k := k) (by omega)
      rwa [succ_add, succ_add] at hlater

end Compares

end Memory

/-! ## Chains of tests -/

/-- A chain of tests at indices in a row, after the first of which as many remain, comes to an end at
some bytes: those that it is left at, as they differ or are a NUL that is looked for, or the last
ones. -/
inductive Chained (left right : Nat → UInt8 → Prop) (checksNul : Bool) :
    Nat → Nat → UInt8 → UInt8 → Prop
  | last {index : Nat} {x y : UInt8} (hx : left index x) (hy : right index y) :
    Chained left right checksNul index 0 x y
  | stop {index remaining : Nat} {x y : UInt8} (hx : left index x) (hy : right index y)
    (h : x = y → checksNul = true ∧ x = 0) : Chained left right checksNul index (remaining + 1) x y
  | next {index remaining : Nat} {x x' y' : UInt8} (hx : left index x) (hy : right index x)
    (hnul : checksNul = true → x ≠ 0)
    (h : Chained left right checksNul (index + 1) remaining x' y') :
    Chained left right checksNul index (remaining + 1) x' y'

variable {left right : Nat → UInt8 → Prop} {checksNul : Bool} {index remaining : Nat}

@[simp] theorem byteDifference_self (x : UInt8) : byteDifference x x = 0 := by
  simp [byteDifference]

theorem foldCase_eq_zero (ignoreCase : Bool) (x : UInt8) :
    Text.foldCase ignoreCase x = 0 ↔ x = 0 := by
  cases ignoreCase with
  | false => rfl
  | true =>
    have hall : ∀ n : Fin 256, Text.lowerByte (UInt8.ofFin n) = 0 ↔ UInt8.ofFin n = 0 := by
      decide +kernel
    exact hall x.toFin

namespace Memory

variable {m : Memory} {ignoreCase : Bool} {reads : Nat} {lhs rhs : UInt64} {result : Int64}

/-- A chain of as many tests as the comparison may look at bytes comes to its result. It has to look
for a NUL unless none can come before the last byte. -/
theorem Compares.chained (h : m.Compares ignoreCase (remaining + 1) lhs rhs reads result)
    (hleft : ∀ k < reads, ∀ a, m.byte (lhs + UInt64.ofNat k) = .ok a →
      left (index + k) (Text.foldCase ignoreCase a))
    (hright : ∀ k < reads, ∀ b, m.byte (rhs + UInt64.ofNat k) = .ok b →
      right (index + k) (Text.foldCase ignoreCase b))
    (hnul : checksNul = false → ∀ k < remaining, ∀ a b, m.byte (lhs + UInt64.ofNat k) = .ok a →
      m.byte (rhs + UInt64.ofNat k) = .ok b →
      Text.foldCase ignoreCase a = Text.foldCase ignoreCase b → Text.foldCase ignoreCase a ≠ 0) :
    ∃ x y, Chained left right checksNul index remaining x y ∧ byteDifference x y = result := by
  induction remaining generalizing index lhs rhs reads with
  | zero =>
    cases h with
    | @stop _ _ _ a b ha hb hstop =>
      have hx := hleft 0 (by omega) a (by simpa using ha)
      have hy := hright 0 (by omega) b (by simpa using hb)
      exact ⟨_, _, .last hx hy, rfl⟩
    | @next _ _ _ _ a b _ ha hb hsame _ h =>
      cases h
      have hx := hleft 0 (by omega) a (by simpa using ha)
      have hy := hright 0 (by omega) b (by simpa using hb)
      exact ⟨_, _, .last hx hy, by rw [hsame, byteDifference_self]⟩
  | succ remaining ih =>
    cases h with
    | @stop _ _ _ a b ha hb hstop =>
      have hx := hleft 0 (by omega) a (by simpa using ha)
      have hy := hright 0 (by omega) b (by simpa using hb)
      refine ⟨_, _, .stop hx hy fun hsame => ⟨?_, hstop hsame⟩, rfl⟩
      by_contra hchecks
      rw [Bool.not_eq_true] at hchecks
      exact hnul hchecks 0 (by omega) a b (by simpa using ha) (by simpa using hb) hsame (hstop hsame)
    | @next _ reads _ _ a b _ ha hb hsame hne h =>
      have hx := hleft 0 (by omega) a (by simpa using ha)
      have hy := hright 0 (by omega) b (by simpa using hb)
      have hleft' : ∀ k < reads, ∀ a, m.byte (lhs + 1 + UInt64.ofNat k) = .ok a →
          left (index + 1 + k) (Text.foldCase ignoreCase a) := by
        intro k hk a ha
        rw [Compares.succ_add] at ha
        rw [Nat.add_assoc, Nat.add_comm 1]
        exact hleft (k + 1) (by omega) a ha
      have hright' : ∀ k < reads, ∀ b, m.byte (rhs + 1 + UInt64.ofNat k) = .ok b →
          right (index + 1 + k) (Text.foldCase ignoreCase b) := by
        intro k hk b hb
        rw [Compares.succ_add] at hb
        rw [Nat.add_assoc, Nat.add_comm 1]
        exact hright (k + 1) (by omega) b hb
      obtain ⟨x, y, hchained, hresult⟩ := ih h hleft' hright' fun hchecks k hk a b ha hb => by
        rw [Compares.succ_add] at ha hb
        exact hnul hchecks (k + 1) (by omega) a b ha hb
      exact ⟨x, y, .next hx (hsame ▸ hy) (fun _ => hne) hchained, hresult⟩

/-- A chain of tests over bytes in a row comes to the first that differ. -/
theorem chained_find? {pairs : List (UInt8 × UInt8)} (hpairs : pairs.length = remaining + 1)
    (hbytes : ∀ k (hk : k < pairs.length),
      left (index + k) pairs[k].1 ∧ right (index + k) pairs[k].2) :
    ∃ x y, Chained left right false index remaining x y ∧
      byteDifference x y = (pairs.find? fun pair => pair.1 != pair.2).elim 0
        fun pair => byteDifference pair.1 pair.2 := by
  induction pairs generalizing index remaining with
  | nil => cases hpairs
  | cons pair rest ih =>
    obtain ⟨a, b⟩ := pair
    obtain ⟨hx, hy⟩ := hbytes 0 (Nat.zero_lt_succ _)
    by_cases hsame : a = b
    · subst hsame
      rw [List.find?_cons_of_neg (by simp)]
      cases remaining with
      | zero =>
        obtain rfl := List.eq_nil_of_length_eq_zero (Nat.succ.inj hpairs)
        exact ⟨a, a, .last hx hy, by simp⟩
      | succ remaining =>
        have hrest : ∀ k (hk : k < rest.length),
            left (index + 1 + k) rest[k].1 ∧ right (index + 1 + k) rest[k].2 := by
          intro k hk
          have hlater := hbytes (k + 1) (Nat.succ_lt_succ hk)
          rwa [← Nat.add_assoc, Nat.add_right_comm] at hlater
        obtain ⟨x, y, hchained, hresult⟩ := ih (Nat.succ.inj hpairs) hrest
        exact ⟨x, y, .next hx hy nofun hchained, hresult⟩
    · rw [List.find?_cons_of_pos (by simpa using hsame)]
      cases remaining with
      | zero => exact ⟨a, b, .last hx hy, rfl⟩
      | succ remaining => exact ⟨a, b, .stop hx hy fun heq => absurd heq hsame, rfl⟩

/-- The bytes of a region that is read are those at the addresses in a row. -/
theorem byte_of_read {addr : UInt64} {len : Nat} {data : Array UInt8}
    (h : m.read addr len = .ok data) (hbound : m.size < sizeBound) :
    data.size = len ∧ ∀ k (hk : k < data.size), m.byte (addr + UInt64.ofNat k) = .ok data[k] := by
  unfold read at h
  split at h
  next hbounds =>
    obtain rfl := Except.ok.inj h
    have hlt : m.size < 2 ^ 63 := hbound
    obtain ⟨hreserved, hsize⟩ := inBounds_iff.mp hbounds
    have hlen : (m.bytes.extract addr.toNat (addr.toNat + len)).size = len := by
      have : m.size = m.bytes.size := rfl
      rw [Array.size_extract]
      omega
    refine ⟨hlen, fun k hk => ?_⟩
    rw [hlen] at hk
    have hsum : (addr + UInt64.ofNat k).toNat = addr.toNat + k := by
      rw [UInt64.toNat_add, UInt64.toNat_ofNat', Nat.mod_eq_of_lt (by omega : k < 2 ^ 64),
        Nat.mod_eq_of_lt (by omega)]
    have hbyte : m.inBounds (addr + UInt64.ofNat k) 1 = true :=
      inBounds_iff.mpr ⟨by omega, by omega⟩
    rw [byte, if_pos hbyte, hsum, Array.getElem_extract, Array.getD_eq_getD_getElem?,
      Array.getElem?_eq_getElem, Option.getD_some]
  next => cases h

/-- A chain of as many tests as the regions have bytes comes to the result of comparing them. -/
theorem compareRegions_chained (hbound : m.size < sizeBound)
    (h : m.compareRegions lhs rhs (remaining + 1) = .ok result)
    (hleft : ∀ k < remaining + 1, ∀ a, m.byte (lhs + UInt64.ofNat k) = .ok a → left k a)
    (hright : ∀ k < remaining + 1, ∀ b, m.byte (rhs + UInt64.ofNat k) = .ok b → right k b) :
    ∃ x y, Chained left right false 0 remaining x y ∧ byteDifference x y = result := by
  obtain ⟨a, ha, h⟩ := Checked.bind_eq_ok.mp h
  obtain ⟨b, hb, h⟩ := Checked.bind_eq_ok.mp h
  obtain ⟨hsizeA, hbyteA⟩ := byte_of_read ha hbound
  obtain ⟨hsizeB, hbyteB⟩ := byte_of_read hb hbound
  have hlength : (a.toList.zip b.toList).length = remaining + 1 := by simp [hsizeA, hsizeB]
  have hbytes : ∀ k (hk : k < (a.toList.zip b.toList).length),
      left (0 + k) (a.toList.zip b.toList)[k].1 ∧ right (0 + k) (a.toList.zip b.toList)[k].2 := by
    intro k hk
    rw [hlength] at hk
    rw [List.getElem_zip, Nat.zero_add]
    exact ⟨hleft k hk _ (hbyteA k (by omega)), hright k hk _ (hbyteB k (by omega))⟩
  obtain ⟨x, y, hchained, hresult⟩ := chained_find? hlength hbytes
  refine ⟨x, y, hchained, hresult.trans ?_⟩
  rw [← Array.toList_zip, Array.find?_toList]
  cases hfind : (a.zip b).find? fun pair => pair.1 != pair.2 with
  | none =>
    rw [hfind] at h
    exact Except.ok.inj h
  | some pair =>
    rw [hfind] at h
    exact Except.ok.inj h

end Memory

end EdgeProbe
