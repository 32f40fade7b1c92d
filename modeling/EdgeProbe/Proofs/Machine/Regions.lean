import EdgeProbe.Proofs.Machine.Contents

/-!
# Regions of memory

What is written to one region leaves the others alone. So whatever is asked of a memory, one call
after the other, regions stay apart and hold what was put there last. Main statement:
`Memory.regions_isolated`.
-/

namespace EdgeProbe

namespace Memory

variable {m m' m'' : Memory} {addr other : UInt64} {len size : Nat} {bytes data : List UInt8}

/-- The bytes of a region are the same in both memories. -/
def SameAt (addr : UInt64) (len : Nat) (m m' : Memory) : Prop :=
  ∀ k < len, m'.bytes[addr.toNat + k]? = m.bytes[addr.toNat + k]?

theorem SameAt.refl (addr : UInt64) (len : Nat) (m : Memory) : m.SameAt addr len m :=
  fun _ _ => rfl

/-- What a region holds it holds as long as it stays the same. -/
theorem Holds.of_same (h : m.Holds addr bytes) (hpos : 0 < bytes.length)
    (hsame : SameAt addr bytes.length m m') : m'.Holds addr bytes := by
  obtain ⟨hreserved, -, hbytes⟩ := h
  have hall : ∀ k < bytes.length, m'.bytes[addr.toNat + k]? = bytes[k]? := fun k hk =>
    (hsame k hk).trans (hbytes k hk)
  refine ⟨hreserved, ?_, hall⟩
  have hlast := hall (bytes.length - 1) (by omega)
  rw [List.getElem?_eq_getElem (by omega)] at hlast
  obtain ⟨hlt, -⟩ := Array.getElem?_eq_some_iff.mp hlast
  change _ ≤ m'.bytes.size
  omega

theorem Holds.readWord_eq {count : Nat} {word : UInt64} (h : m.Holds addr (leBytes count word))
    (hcount : count ≤ 8) : m.readWord addr count = .ok (mask (8 * count) word) := by
  have hread := h.read_eq
  rw [length_leBytes] at hread
  rw [readWord, if_neg (Nat.not_lt.mpr hcount), hread]
  dsimp only
  rw [ofLeBytes_leBytes count hcount]

/-- A region that holds zeros holds them at its beginning. -/
theorem Holds.take {count : Nat} (h : m.Holds addr (List.replicate size 0)) (hle : count ≤ size) :
    m.Holds addr (leBytes count 0) := by
  obtain ⟨hreserved, hsize, hbytes⟩ := h
  rw [List.length_replicate] at hsize hbytes
  have hzeros : leBytes count 0 = List.replicate count 0 := by
    clear hle
    induction count with
    | zero => rfl
    | succ count ih => rw [leBytes, List.replicate_succ, ← ih]; rfl
  rw [hzeros]
  refine ⟨hreserved, by rw [List.length_replicate]; omega, fun k hk => ?_⟩
  rw [List.length_replicate] at hk
  rw [hbytes k (by omega), List.getElem?_replicate, List.getElem?_replicate, if_pos (by omega),
    if_pos hk]

/-! ## Single calls -/

/-- The memory afterwards has some bytes at an address, and is as it was elsewhere. -/
structure Overwritten (m : Memory) (addr : UInt64) (data : List UInt8) (m' : Memory) : Prop where
  size : m'.size = m.size
  kept : m'.kept = m.kept
  within : reserved ≤ addr.toNat ∧ addr.toNat + data.length ≤ m.size
  bytes : ∀ i, m'.bytes[i]? =
    if addr.toNat ≤ i ∧ i < addr.toNat + data.length then data[i - addr.toNat]? else m.bytes[i]?

/-- A region can be written that holds something. -/
theorem Holds.write_eq (h : m.Holds addr bytes) (hlength : data.length = bytes.length) :
    write addr data m = .ok () { m with bytes := overwrite m.bytes addr.toNat data } := by
  obtain ⟨hreserved, hsize, -⟩ := h
  exact write_eq_ok.mpr ⟨inBounds_iff.mpr ⟨hreserved, hlength ▸ hsize⟩, rfl⟩

/-- A write changes its own bytes. -/
theorem write_overwritten (h : write addr data m = .ok () m') : m.Overwritten addr data m' := by
  obtain ⟨hin, rfl⟩ := write_eq_ok.mp h
  obtain ⟨hreserved, hsize⟩ := inBounds_iff.mp hin
  exact ⟨size_overwrite _ _ _, rfl, ⟨hreserved, hsize⟩, fun i => getElem?_overwrite _ _ _ i hsize⟩

/-- A write changes nothing outside its region. -/
theorem write_sameAt (h : write addr data m = .ok () m')
    (hapart : addr.toNat + data.length ≤ other.toNat ∨ other.toNat + len ≤ addr.toNat) :
    m.SameAt other len m' := by
  intro k hk
  rw [(write_overwritten h).bytes, if_neg (by omega)]

/-- What is written is there. -/
theorem write_holds (h : write addr data m = .ok () m') : m'.Holds addr data := by
  have hwritten := write_overwritten h
  refine ⟨hwritten.within.1, hwritten.within.2.trans hwritten.size.ge, fun k hk => ?_⟩
  rw [hwritten.bytes, if_pos (by omega), Nat.add_sub_cancel_left]

/-- A write that is out of bounds changes nothing. -/
theorem write_error {cause : Stop} (h : write addr data m = .error cause m') : m' = m := by
  unfold write at h
  split at h
  · cases h
  · exact (EStateM.Result.error.inj h).2.symm

theorem writeWord_eq {count : Nat} (hcount : count ≤ 8) (value : UInt64) :
    writeWord addr count value = write addr (leBytes count value) :=
  if_neg (Nat.not_lt.mpr hcount)

theorem getElem?_of_lt {i : Nat} (h : i < m.size) : m.bytes[i]? = some (m.bytes.getD i 0) := by
  rw [Array.getD_eq_getD_getElem?, Array.getElem?_eq_getElem h, Option.getD_some]

theorem getD_of_le {i : Nat} (h : m.size ≤ i) : m.bytes.getD i 0 = 0 := by
  rw [Array.getD_eq_getD_getElem?, Array.getElem?_eq_none h, Option.getD_none]

/-- A fresh region is all that was appended but for the padding in front of it, and no byte that was
there has changed. -/
theorem alloc_region (h : alloc len m = .ok addr m') :
    8 ∣ addr.toNat ∧ m'.size = addr.toNat + max len 1 ∧
      ∀ i, m'.bytes.getD i 0 = m.bytes.getD i 0 := by
  obtain ⟨-, hstart, -, -⟩ := alloc_appends h
  simp only [alloc] at h
  split at h
  next hstop =>
    obtain ⟨haddr, hm'⟩ := EStateM.Result.ok.inj h
    have hlt : roundUp m.size 8 + max len 1 < 2 ^ 63 := hstop
    have hnat : addr.toNat = roundUp m.size 8 := by
      rw [← haddr, UInt64.toNat_ofNat', Nat.mod_eq_of_lt (by omega)]
    refine ⟨hnat ▸ dvd_roundUp _ (by decide), ?_, fun i => ?_⟩
    · have hle := le_roundUp m.size 8
      rw [← hm', hnat, size, Array.size_append, Array.size_replicate, ← size]
      omega
    · rw [← hm', Array.getD_eq_getD_getElem?, Array.getD_eq_getD_getElem?]
      by_cases hi : i < m.bytes.size
      · rw [Array.getElem?_append_left hi]
      · rw [Array.getElem?_append_right (Nat.le_of_not_lt hi), Array.getElem?_replicate,
          Array.getElem?_eq_none (Nat.le_of_not_lt hi)]
        split <;> rfl
  next => cases h

/-- A fresh region holds zeros. -/
theorem alloc_holds (h : alloc len m = .ok addr m') (hm : reserved ≤ m.size) :
    m'.Holds addr (List.replicate len 0) := by
  obtain ⟨-, hstart, hstop, -⟩ := alloc_appends h
  obtain ⟨-, -, hbytes⟩ := alloc_region h
  refine ⟨hm.trans hstart, by rwa [List.length_replicate], fun k hk => ?_⟩
  rw [List.length_replicate] at hk
  rw [getElem?_of_lt (by omega), hbytes, getD_of_le (by omega), List.getElem?_replicate, if_pos hk]

theorem alloc_error {cause : Stop} (h : alloc len m = .error cause m') : m' = m := by
  simp only [alloc] at h
  split at h
  · cases h
  · exact (EStateM.Result.error.inj h).2.symm

/-- There is room for what a fresh region is made for. -/
theorem allocBytes_error {cause : Stop} (h : allocBytes data m = .error cause m')
    (hm : reserved ≤ m.size) : m' = m := by
  obtain halloc | ⟨addr, m₁, halloc, h⟩ := Access.bind_eq_error.mp h
  · exact alloc_error halloc
  · obtain ⟨-, hstart, hstop, -⟩ := alloc_appends halloc
    have hwrite : write addr data m₁ =
        .ok () { m₁ with bytes := overwrite m₁.bytes addr.toNat data } :=
      write_eq_ok.mpr ⟨inBounds_iff.mpr ⟨hm.trans hstart, hstop⟩, rfl⟩
    obtain hout | ⟨-, m₂, -, h⟩ := Access.bind_eq_error.mp h
    · cases hwrite.symm.trans hout
    · cases h

/-- The bytes that are read are those at the addresses in a row. -/
theorem read_bytes {bytes : Array UInt8} (h : m.read addr len = .ok bytes) :
    bytes.size = len ∧ ∀ k < len, bytes[k]? = some (m.bytes.getD (addr.toNat + k) 0) := by
  unfold read at h
  split at h
  · next hin =>
    obtain rfl := Except.ok.inj h
    obtain ⟨-, hsize⟩ := inBounds_iff.mp hin
    change _ ≤ m.bytes.size at hsize
    refine ⟨by rw [Array.size_extract]; omega, fun k hk => ?_⟩
    rw [Array.getElem?_extract, if_pos (by omega), getElem?_of_lt (show _ < m.bytes.size by omega)]
  · cases h

/-! ## Any calls in a row -/

/-- A call that may change memory. -/
inductive Call where
  | alloc (len : Nat)
  | allocBytes (data : List UInt8)
  | write (addr : UInt64) (data : List UInt8)
  | writeWord (addr : UInt64) (size : Nat) (value : UInt64)

/-- The bytes that a call has put at an address, which is that of a fresh region or one that was
asked for. -/
structure Put where
  addr : UInt64
  bytes : List UInt8
  fresh : Bool
  deriving DecidableEq

/-- Where a region ends that was made for the bytes. It has one byte if there are none. -/
def Put.stop (p : Put) : Nat :=
  p.addr.toNat + max p.bytes.length 1

def Put.byteAt? (p : Put) (i : Nat) : Option UInt8 :=
  if p.addr.toNat ≤ i then p.bytes[i - p.addr.toNat]? else none

/-- What was put last at an index, the last put being the first. -/
def lastPut? (puts : List Put) (i : Nat) : Option UInt8 :=
  puts.findSome? (·.byteAt? i)

def Call.run : Call → Access Put
  | alloc len => do return ⟨← Memory.alloc len, List.replicate len 0, true⟩
  | allocBytes data => do return ⟨← Memory.allocBytes data, data, true⟩
  | write addr data => do
    Memory.write addr data
    return ⟨addr, data, false⟩
  | writeWord addr size value => do
    Memory.writeWord addr size value
    return ⟨addr, leBytes size value, false⟩

/-- Makes one call after the other, also after one that failed, and collects what the others have
put. -/
def runCalls : List Call → List Put × Memory → List Put × Memory
  | [], s => s
  | call :: rest, (puts, m) =>
    match call.run m with
    | .ok p m' => runCalls rest (p :: puts, m')
    | .error _ m' => runCalls rest (puts, m')

/-- What a call does that has put some bytes: they are there and all else is as it was, and a fresh
region for them comes behind all there was. -/
structure Accepts (m : Memory) (p : Put) (m' : Memory) : Prop where
  grows : m.size ≤ m'.size
  bytes : ∀ i, m'.bytes.getD i 0 = (p.byteAt? i).getD (m.bytes.getD i 0)
  region : p.fresh = true → 8 ∣ p.addr.toNat ∧ m.size ≤ p.addr.toNat ∧ p.stop ≤ m'.size

theorem Overwritten.getD (h : m.Overwritten addr data m') (fresh : Bool) (i : Nat) :
    m'.bytes.getD i 0 = ((Put.mk addr data fresh).byteAt? i).getD (m.bytes.getD i 0) := by
  rw [Array.getD_eq_getD_getElem?, h.bytes, Put.byteAt?]
  dsimp only
  by_cases hle : addr.toNat ≤ i
  · rw [if_pos hle]
    by_cases hlt : i < addr.toNat + data.length
    · rw [if_pos ⟨hle, hlt⟩, List.getElem?_eq_getElem (by omega)]
      rfl
    · rw [if_neg (fun h => hlt h.2), List.getElem?_eq_none (by omega), Option.getD_none,
        Array.getD_eq_getD_getElem?]
  · rw [if_neg hle, if_neg (fun h => hle h.1), Option.getD_none, Array.getD_eq_getD_getElem?]

theorem alloc_accepts (h : alloc len m = .ok addr m') :
    m.Accepts ⟨addr, List.replicate len 0, true⟩ m' := by
  obtain ⟨hgrows, hstart, -, -⟩ := alloc_appends h
  obtain ⟨haligned, hstop, hbytes⟩ := alloc_region h
  refine ⟨hgrows.1, fun i => ?_, fun _ => ⟨haligned, hstart, ?_⟩⟩
  · rw [hbytes, Put.byteAt?]
    split
    · next hle =>
      rw [getD_of_le (hstart.trans hle), List.getElem?_replicate]
      split <;> rfl
    · rfl
  · rw [Put.stop, List.length_replicate, hstop]

theorem allocBytes_accepts (h : allocBytes data m = .ok addr m') :
    m.Accepts ⟨addr, data, true⟩ m' := by
  obtain ⟨addr, m₁, halloc, h⟩ := Access.bind_eq_ok.mp h
  obtain ⟨⟨⟩, m₂, hwrite, h⟩ := Access.bind_eq_ok.mp h
  obtain ⟨rfl, rfl⟩ := EStateM.Result.ok.inj h
  obtain ⟨hgrows, hstart, -, -⟩ := alloc_appends halloc
  obtain ⟨haligned, hstop, hbytes⟩ := alloc_region halloc
  have hover := write_overwritten hwrite
  refine ⟨hgrows.1.trans hover.size.ge, fun i => ?_, fun _ => ⟨haligned, hstart, ?_⟩⟩
  · rw [hover.getD true, hbytes]
  · rw [hover.size, hstop, Put.stop]

theorem write_accepts (h : write addr data m = .ok () m') : m.Accepts ⟨addr, data, false⟩ m' :=
  ⟨(write_overwritten h).size.ge, (write_overwritten h).getD false, nofun⟩

variable {call : Call} {calls : List Call} {p : Put} {puts : List Put} {m₀ : Memory}

theorem Call.run_accepts (h : call.run m = .ok p m') : m.Accepts p m' := by
  cases call with
  | alloc len =>
    obtain ⟨addr, m₁, halloc, h⟩ := Access.bind_eq_ok.mp h
    obtain ⟨rfl, rfl⟩ := EStateM.Result.ok.inj h
    exact alloc_accepts halloc
  | allocBytes data =>
    obtain ⟨addr, m₁, halloc, h⟩ := Access.bind_eq_ok.mp h
    obtain ⟨rfl, rfl⟩ := EStateM.Result.ok.inj h
    exact allocBytes_accepts halloc
  | write addr data =>
    obtain ⟨⟨⟩, m₁, hwrite, h⟩ := Access.bind_eq_ok.mp h
    obtain ⟨rfl, rfl⟩ := EStateM.Result.ok.inj h
    exact write_accepts hwrite
  | writeWord addr size value =>
    obtain ⟨⟨⟩, m₁, hwrite, h⟩ := Access.bind_eq_ok.mp h
    obtain ⟨rfl, rfl⟩ := EStateM.Result.ok.inj h
    unfold Memory.writeWord at hwrite
    split at hwrite
    · cases hwrite
    · exact write_accepts hwrite

/-- A call that fails changes nothing. -/
theorem Call.run_error {cause : Stop} (h : call.run m = .error cause m') (hm : reserved ≤ m.size) :
    m' = m := by
  cases call with
  | alloc len =>
    obtain halloc | ⟨addr, m₁, -, h⟩ := Access.bind_eq_error.mp h
    · exact alloc_error halloc
    · cases h
  | allocBytes data =>
    obtain halloc | ⟨addr, m₁, -, h⟩ := Access.bind_eq_error.mp h
    · exact allocBytes_error halloc hm
    · cases h
  | write addr data =>
    obtain hwrite | ⟨-, m₁, -, h⟩ := Access.bind_eq_error.mp h
    · exact write_error hwrite
    · cases h
  | writeWord addr size value =>
    obtain hwrite | ⟨-, m₁, -, h⟩ := Access.bind_eq_error.mp h
    · unfold Memory.writeWord at hwrite
      split at hwrite
      · exact (EStateM.Result.error.inj hwrite).2.symm
      · exact write_error hwrite
    · cases h

/-- Regions that were handed out since some memory lie behind it and apart, and each byte is the one
that was put last or, without any, the one there was. -/
structure Isolated (m₀ : Memory) (puts : List Put) (m : Memory) : Prop where
  grown : m₀.size ≤ m.size
  regions : ∀ p ∈ puts, p.fresh = true →
    8 ∣ p.addr.toNat ∧ m₀.size ≤ p.addr.toNat ∧ p.stop ≤ m.size
  apart : (puts.filter (·.fresh)).Pairwise fun later earlier => earlier.stop ≤ later.addr.toNat
  bytes : ∀ i, m.bytes.getD i 0 = (lastPut? puts i).getD (m₀.bytes.getD i 0)

theorem Isolated.refl (m₀ : Memory) : m₀.Isolated [] m₀ :=
  ⟨le_rfl, nofun, .nil, fun _ => rfl⟩

theorem Isolated.accept (h : m₀.Isolated puts m) (hp : m.Accepts p m') :
    m₀.Isolated (p :: puts) m' where
  grown := h.grown.trans hp.grows
  regions q hq hfresh := by
    obtain rfl | hq := List.mem_cons.mp hq
    · obtain ⟨haligned, hstart, hstop⟩ := hp.region hfresh
      exact ⟨haligned, h.grown.trans hstart, hstop⟩
    · obtain ⟨haligned, hstart, hstop⟩ := h.regions q hq hfresh
      exact ⟨haligned, hstart, hstop.trans hp.grows⟩
  apart := by
    rw [List.filter_cons]
    split
    · next hfresh =>
      refine .cons (fun q hq => ?_) h.apart
      obtain ⟨hq, hearlier⟩ := List.mem_filter.mp hq
      exact (h.regions q hq hearlier).2.2.trans (hp.region hfresh).2.1
    · exact h.apart
  bytes i := by
    rw [hp.bytes, h.bytes, lastPut?, lastPut?, List.findSome?_cons]
    cases p.byteAt? i <;> rfl

theorem Isolated.runCalls (h : m₀.Isolated puts m) (hm : reserved ≤ m₀.size) (calls : List Call) :
    m₀.Isolated (runCalls calls (puts, m)).1 (runCalls calls (puts, m)).2 := by
  induction calls generalizing puts m with
  | nil => exact h
  | cons call rest ih =>
    rw [Memory.runCalls]
    split
    · next hrun => exact ih (h.accept (Call.run_accepts hrun))
    · next hrun =>
      obtain rfl := Call.run_error hrun (hm.trans h.grown)
      exact ih h

/-- Whatever calls have been made on a memory, whether they succeeded or not, the regions that were
handed out are aligned, behind the reserved bytes, readable and apart, and each byte that is read is
the one that was put last at its address, or the one there was before the first call. The next
region that is handed out holds zeros, a write changes its own bytes, and a call that fails changes
nothing. -/
theorem regions_isolated (hm : reserved ≤ m₀.size) (hrun : runCalls calls ([], m₀) = (puts, m)) :
    (∀ p ∈ puts, p.fresh = true → 8 ∣ p.addr.toNat ∧ 16 ≤ p.addr.toNat ∧
      ∃ bytes, m.read p.addr p.bytes.length = .ok bytes) ∧
    (puts.filter (·.fresh)).Pairwise (fun later earlier => earlier.stop ≤ later.addr.toNat) ∧
    (∀ addr len bytes, m.read addr len = .ok bytes → bytes.size = len ∧ ∀ k < len, bytes[k]? =
      some ((lastPut? puts (addr.toNat + k)).getD (m₀.bytes.getD (addr.toNat + k) 0))) ∧
    (∀ len addr m', alloc len m = .ok addr m' →
      m'.read addr len = .ok (Array.replicate len 0)) ∧
    (∀ addr data m', write addr data m = .ok () m' → m.Overwritten addr data m') ∧
    (∀ addr size value m', size ≤ 8 → writeWord addr size value m = .ok () m' →
      m.Overwritten addr (leBytes size value) m') ∧
    ∀ (call : Call) cause m', call.run m = .error cause m' → m' = m := by
  obtain ⟨hgrown, hregions, hapart, hbytes⟩ : m₀.Isolated puts m := by
    have h := (Isolated.refl m₀).runCalls hm calls
    rwa [hrun] at h
  have hreserved : reserved ≤ m.size := hm.trans hgrown
  refine ⟨fun p hp hfresh => ?_, hapart, fun addr len bytes hread => ?_, fun len addr m' h => ?_,
    fun _ _ _ h => write_overwritten h, fun addr size value m' hsize h => ?_,
    fun call cause m' h => Call.run_error h hreserved⟩
  · obtain ⟨haligned, hstart, hstop⟩ := hregions p hp hfresh
    have hfits : p.addr.toNat + p.bytes.length ≤ m.size :=
      (Nat.add_le_add_left (le_max_left _ _) _).trans hstop
    exact ⟨haligned, hm.trans hstart, _, if_pos (inBounds_iff.mpr ⟨hm.trans hstart, hfits⟩)⟩
  · obtain ⟨hlen, hread⟩ := read_bytes hread
    exact ⟨hlen, fun k hk => by rw [hread k hk, hbytes]⟩
  · have hread := (alloc_holds h hreserved).read_eq
    rwa [List.length_replicate, List.toArray_replicate] at hread
  · rw [writeWord_eq hsize] at h
    exact write_overwritten h

/-- Regions of no byte and of three, writes to them and to the padding between them, and two out of
bounds. -/
def assortedCalls : List Call :=
  [.alloc 0, .allocBytes [1, 2, 3], .write 24 [9], .writeWord 16 2 0xabcd, .write 8 [1],
    .write 26 [7, 7], .alloc 5]

theorem assortedCalls_isolated :
    reserved ≤ empty.size ∧ (runCalls assortedCalls ([], empty)).1 =
      [⟨32, [0, 0, 0, 0, 0], true⟩, ⟨16, [0xcd, 0xab], false⟩, ⟨24, [9], false⟩,
        ⟨24, [1, 2, 3], true⟩, ⟨16, [], true⟩] ∧
    ∀ bytes, (runCalls assortedCalls ([], empty)).2.read 24 3 = .ok bytes →
      bytes[0]? = some 9 ∧ bytes[1]? = some 2 := by
  have hm : reserved ≤ empty.size := by decide
  have hputs : (runCalls assortedCalls ([], empty)).1 =
      [⟨32, [0, 0, 0, 0, 0], true⟩, ⟨16, [0xcd, 0xab], false⟩, ⟨24, [9], false⟩,
        ⟨24, [1, 2, 3], true⟩, ⟨16, [], true⟩] := by decide
  obtain ⟨-, -, hread, -⟩ :=
    regions_isolated hm (Prod.mk.eta.symm : runCalls assortedCalls ([], empty) = _)
  refine ⟨hm, hputs, fun bytes h => ?_⟩
  obtain ⟨-, hbytes⟩ := hread 24 3 bytes h
  rw [hputs] at hbytes
  exact ⟨hbytes 0 (by decide), hbytes 1 (by decide)⟩

end Memory

end EdgeProbe
