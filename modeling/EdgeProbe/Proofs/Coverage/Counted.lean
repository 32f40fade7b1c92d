import EdgeProbe.Proofs.Coverage.Classic
import EdgeProbe.Proofs.Coverage.Reported
import EdgeProbe.Proofs.Machine.Leads

/-!
# What dense probes count

The code of a dense probe reads the address of the map and adds its slot to it, and the byte there
goes up by one (`DenseAt.bump_step`). The slot is the identifier of the probe. So each run adds to
every place of the map how often it passes the site of the probe with that identifier, as long as the
program writes neither the map nor the word that leads there. Main statement:
`World.CountsDense.tallies`.
-/

namespace EdgeProbe

namespace World

variable {w : World} {a : Activation} {frame : Frame} {s : Store} {caller : Caller} {i : InstId}

theorem eval_inst {id : InstId} {value : UInt64} (h : frame[id]? = some value) :
    w.eval a frame (.inst id) s = .ok value s := by
  rw [eval, h]
  rfl

theorem eval_global {id : GlobalId} {addr : UInt64} (h : w.globalAddr id = .ok addr) :
    w.eval a frame (.global id) s = .ok addr s := by
  rw [eval, h]
  rfl

theorem step_load_ptr {ptr : Value} {addr raw : UInt64}
    (hkind : a.function.kind i = .ok (.load .ptr ptr)) (haddr : w.eval a frame ptr s = .ok addr s)
    (hread : s.memory.readWord addr 8 = .ok raw) : w.step caller a frame i s = .ok raw s := by
  rw [step, hkind, Exec.ofChecked_ok, pure_bind]
  refine Exec.bind_eq_ok.mpr ⟨addr, s, haddr, Exec.bind_eq_ok.mpr ⟨.ok raw, s, ?_, rfl⟩⟩
  exact congrArg (EStateM.Result.ok · s) hread

theorem step_load_int {width : Nat} {ptr : Value} {addr raw : UInt64}
    (hkind : a.function.kind i = .ok (.load (.int width) ptr))
    (haddr : w.eval a frame ptr s = .ok addr s)
    (hread : s.memory.readWord addr (Ty.int width).storeSize = .ok raw) :
    w.step caller a frame i s = .ok (mask width raw) s := by
  rw [step, hkind, Exec.ofChecked_ok, pure_bind]
  refine Exec.bind_eq_ok.mpr ⟨addr, s, haddr, Exec.bind_eq_ok.mpr ⟨.ok raw, s, ?_, rfl⟩⟩
  exact congrArg (EStateM.Result.ok · s) hread

theorem step_binary_of_eval {op : BinOp} {lhs rhs : Value} {width : Nat} {x y : UInt64}
    (hkind : a.function.kind i = .ok (.binary op lhs rhs))
    (hwidth : a.function.intWidth? (.inst i) = .ok (some width))
    (hx : w.eval a frame lhs s = .ok x s) (hy : w.eval a frame rhs s = .ok y s) :
    w.step caller a frame i s = .ok (op.evaluate width x y) s := by
  rw [step_binary hkind hwidth]
  exact Exec.bind_eq_ok.mpr ⟨x, s, hx, Exec.bind_eq_ok.mpr ⟨y, s, hy, rfl⟩⟩

theorem step_gep {base offset : Value} {width : Nat} {x y : UInt64}
    (hkind : a.function.kind i = .ok (.gep base offset))
    (hwidth : a.function.intWidth? offset = .ok (some width))
    (hx : w.eval a frame offset s = .ok x s) (hy : w.eval a frame base s = .ok y s) :
    w.step caller a frame i s = .ok (y + (signExtend width x).toUInt64) s := by
  rw [step, hkind, Exec.ofChecked_ok, pure_bind]
  dsimp only
  rw [widthOf_eq hwidth, pure_bind]
  exact Exec.bind_eq_ok.mpr ⟨x, s, hx, Exec.bind_eq_ok.mpr ⟨y, s, hy, rfl⟩⟩

theorem step_store {value ptr : Value} {ty : Ty} {bits addr : UInt64} {memory : Memory}
    (hkind : a.function.kind i = .ok (.store value ptr)) (hty : a.function.valueType value = .ok ty)
    (hbits : w.eval a frame value s = .ok bits s) (haddr : w.eval a frame ptr s = .ok addr s)
    (hwrite : Memory.writeWord addr ty.storeSize bits s.memory = .ok () memory) :
    w.step caller a frame i s = .ok 0 { s with memory } := by
  rw [step, hkind, Exec.ofChecked_ok, pure_bind]
  dsimp only
  rw [hty, Exec.ofChecked_ok, pure_bind]
  refine Exec.bind_eq_ok.mpr ⟨bits, s, hbits, Exec.bind_eq_ok.mpr ⟨addr, s, haddr,
    Exec.bind_eq_ok.mpr ⟨(), { s with memory }, ?_, rfl⟩⟩⟩
  rw [Exec.access_apply, hwrite]

end World

/-- Adding one to a byte, as probes do it. -/
theorem evaluate_add_one (byte : UInt8) :
    BinOp.add.evaluate 8 byte.toUInt64 (mask 8 1) = (byte + 1).toUInt64 := by
  apply UInt64.toNat_inj.mp
  have hone : mask 8 1 = 1 := by decide
  have hbyte := byte.toNat_lt
  rw [BinOp.evaluate, hone, toNat_mask, UInt64.toNat_add, UInt8.toNat_toUInt64,
    UInt8.toNat_toUInt64,
    UInt8.toNat_add]
  simp only [UInt64.reduceToNat, UInt8.reduceToNat]
  omega

theorem leBytes_one (byte : UInt8) : leBytes 1 byte.toUInt64 = [byte] := by
  simp [leBytes]

namespace Memory

variable {m : Memory} {addr : UInt64} {byte : UInt8}

/-- A byte that is there can be read. -/
theorem readWord_one (hreserved : reserved ≤ addr.toNat) (hbyte : m.bytes[addr.toNat]? = some byte) :
    m.readWord addr 1 = .ok byte.toUInt64 := by
  have hlt := (Array.getElem?_eq_some_iff.mp hbyte).1
  have hholds : m.Holds addr (leBytes 1 byte.toUInt64) := by
    rw [leBytes_one]
    refine ⟨hreserved, hlt, fun k hk => ?_⟩
    obtain rfl : k = 0 := Nat.lt_one_iff.mp hk
    exact hbyte
  rw [hholds.readWord_eq (by decide)]
  exact congrArg Except.ok (mask_toUInt64 le_rfl byte)

/-- It can be written, too. -/
theorem writeWord_one (hreserved : reserved ≤ addr.toNat) (hbyte : m.bytes[addr.toNat]? = some byte)
    (new : UInt8) : writeWord addr 1 new.toUInt64 m =
      .ok () { m with bytes := m.bytes.set! addr.toNat new } := by
  have hlt := (Array.getElem?_eq_some_iff.mp hbyte).1
  have hin : m.inBounds addr [new].length = true := inBounds_iff.mpr ⟨hreserved, hlt⟩
  rw [writeWord_eq (by decide), leBytes_one, write, if_pos hin]
  rfl

end Memory

namespace Function

variable {f : Function} {hooks : Hooks} {area : GlobalId} {first slot : Nat}

/-- The code that counts at a slot of its own is there from an instruction on. -/
structure DenseAt (f : Function) (area : GlobalId) (first slot : Nat) : Prop where
  base : f.kind ⟨first⟩ = .ok (.load .ptr (.global area))
  counter : f.kind ⟨first + 1⟩ = .ok (.gep (.inst ⟨first⟩) (.ofWord 64 (UInt64.ofNat slot)))
  count : f.kind ⟨first + 2⟩ = .ok (.load .i8 (.inst ⟨first + 1⟩))
  more : f.kind ⟨first + 3⟩ = .ok (.binary .add (.inst ⟨first + 2⟩) (.ofWord 8 1))
  bump : f.kind ⟨first + 4⟩ = .ok (.store (.inst ⟨first + 3⟩) (.inst ⟨first + 1⟩))

theorem CountsAt.dense (h : f.CountsAt hooks first slot) (hprevious : hooks.previous = none) :
    f.DenseAt hooks.area first slot := by
  have hcode : ∀ (k : Nat) kind, (hooks.countCode first slot)[k]? = some kind →
      f.kind ⟨first + k⟩ = .ok kind := h
  rw [Hooks.countCode, hprevious] at hcode
  exact {
    base := hcode 0 _ rfl
    counter := hcode 1 _ rfl
    count := hcode 2 _ rfl
    more := hcode 3 _ rfl
    bump := hcode 4 _ rfl }

/-- What is computed from an instruction of a known type has that type. -/
theorem valueType_of_binary {id operand : InstId} {op : BinOp} {rhs : Value} {kind : InstKind} {ty : Ty}
    (hid : f.kind id = .ok (.binary op (.inst operand) rhs)) (hoperand : f.kind operand = .ok kind)
    (hty : kind.fixedType? = some ty) : f.valueType (.inst id) = .ok ty := by
  obtain ⟨depth, hdepth⟩ : ∃ depth, f.insts.size = depth + 1 :=
    ⟨f.insts.size - 1, by have := index_lt_of_kind hid; omega⟩
  rw [valueType, hdepth, valueTypeWithin_of_typeOperand? hid rfl,
    valueTypeWithin_of_fixedType? hoperand hty]

/-- What has been counted is a byte. -/
theorem DenseAt.type_more (h : f.DenseAt area first slot) :
    f.valueType (.inst ⟨first + 3⟩) = .ok .i8 :=
  valueType_of_binary h.more h.count rfl

end Function

namespace Function.DenseAt

variable {w : World} {a : Activation} {frame : Frame} {s : Store} {caller : Caller} {area : GlobalId}
  {first slot : Nat} {counter : UInt64} {byte : UInt8} (h : a.function.DenseAt area first slot)
include h

theorem base_step {addr map : UInt64} (haddr : w.globalAddr area = .ok addr)
    (hread : s.memory.readWord addr 8 = .ok map) : w.step caller a frame ⟨first⟩ s = .ok map s :=
  World.step_load_ptr h.base (World.eval_global haddr) hread

theorem counter_step {map : UInt64} (hbase : frame[(⟨first⟩ : InstId)]? = some map) :
    w.step caller a frame ⟨first + 1⟩ s = .ok (map + UInt64.ofNat slot) s := by
  have hwidth : a.function.intWidth? (.ofWord 64 (UInt64.ofNat slot)) = .ok (some 64) := by
    rw [Function.intWidth?, Function.valueType_ofWord]
    rfl
  rw [World.step_gep h.counter hwidth rfl (World.eval_inst hbase)]
  simp [signExtend, mask]

theorem count_step (hcounter : frame[(⟨first + 1⟩ : InstId)]? = some counter)
    (hreserved : Memory.reserved ≤ counter.toNat)
    (hbyte : s.memory.bytes[counter.toNat]? = some byte) :
    w.step caller a frame ⟨first + 2⟩ s = .ok byte.toUInt64 s := by
  rw [World.step_load_int h.count (World.eval_inst hcounter)
    (Memory.readWord_one hreserved hbyte), mask_toUInt64 le_rfl]

theorem more_step (hcount : frame[(⟨first + 2⟩ : InstId)]? = some byte.toUInt64) :
    w.step caller a frame ⟨first + 3⟩ s = .ok (byte + 1).toUInt64 s := by
  have hwidth : a.function.intWidth? (.inst ⟨first + 3⟩) = .ok (some 8) := by
    rw [Function.intWidth?, h.type_more]
    rfl
  rw [World.step_binary_of_eval h.more hwidth (World.eval_inst hcount) rfl, evaluate_add_one]

/-- The last step writes the byte that has been counted up. -/
theorem bump_step (hcounter : frame[(⟨first + 1⟩ : InstId)]? = some counter)
    (hreserved : Memory.reserved ≤ counter.toNat)
    (hbyte : s.memory.bytes[counter.toNat]? = some byte) {new : UInt8}
    (hmore : frame[(⟨first + 3⟩ : InstId)]? = some new.toUInt64) :
    w.step caller a frame ⟨first + 4⟩ s =
      .ok 0 { s with memory := { s.memory with bytes := s.memory.bytes.set! counter.toNat new } } :=
  World.step_store h.bump h.type_more (World.eval_inst hmore) (World.eval_inst hcounter)
    (Memory.writeWord_one hreserved hbyte new)

end Function.DenseAt

/-! ## Runs -/

/-- Where the word is that says where the coverage map is, and where the map is itself. -/
structure MapLayout where
  area : UInt64
  map : UInt64
  size : Nat

namespace MapLayout

/-- The map comes after the word, and all of it can be addressed. -/
structure Apart (l : MapLayout) : Prop where
  area : l.area.toNat + 8 ≤ l.map.toNat
  map : l.map.toNat + l.size < 2 ^ 63

/-- The word leads to the map, which is there. -/
structure InPlace (l : MapLayout) (m : Memory) : Prop where
  area : m.Holds l.area (leBytes 8 l.map)
  reserved : Memory.reserved ≤ l.map.toNat
  map : ∀ k < l.size, ∃ byte, m.bytes[l.map.toNat + k]? = some byte

/-- Neither the word nor the map is changed. -/
structure Spares (l : MapLayout) (m m' : Memory) : Prop where
  area : m.SameAt l.area 8 m'
  map : m.SameAt l.map l.size m'

/-- Each place in the map has been counted up as often as it is listed. -/
def Adds (l : MapLayout) (places : List Nat) (m m' : Memory) : Prop :=
  l.InPlace m → l.InPlace m' ∧ ∀ k < l.size, m'.bytes[l.map.toNat + k]? =
    m.bytes[l.map.toNat + k]?.map (· + UInt8.ofNat (places.count k))

variable {l : MapLayout} {m m₁ m' : Memory}

theorem Spares.adds (h : l.Spares m m') : l.Adds [] m m' := by
  intro hm
  refine ⟨⟨hm.area.of_same (by simp) (by simpa using h.area), hm.reserved, fun k hk => ?_⟩,
    fun k hk => ?_⟩
  · obtain ⟨byte, hbyte⟩ := hm.map k hk
    exact ⟨byte, (h.map k hk).trans hbyte⟩
  · obtain ⟨byte, hbyte⟩ := hm.map k hk
    rw [h.map k hk, hbyte]
    simp

theorem adds_nil (l : MapLayout) (m : Memory) : l.Adds [] m m :=
  Spares.adds ⟨.refl _ _ _, .refl _ _ _⟩

theorem Adds.append {places places' : List Nat} (h : l.Adds places m m₁)
    (h' : l.Adds places' m₁ m') : l.Adds (places ++ places') m m' := by
  intro hm
  obtain ⟨hm₁, hcounts⟩ := h hm
  obtain ⟨hm', hcounts'⟩ := h' hm₁
  refine ⟨hm', fun k hk => ?_⟩
  rw [hcounts' k hk, hcounts k hk, Option.map_map, List.count_append, UInt8.ofNat_add]
  congr 1
  funext byte
  exact UInt8.add_assoc _ _ _

/-- A place of the map is where its number says. -/
theorem Apart.toNat_place (hl : l.Apart) {slot : Nat} (hslot : slot < l.size) :
    (l.map + UInt64.ofNat slot).toNat = l.map.toNat + slot := by
  have hmap := hl.map
  rw [UInt64.toNat_add, UInt64.toNat_ofNat', Nat.mod_eq_of_lt (a := slot) (by omega),
    Nat.mod_eq_of_lt (by omega)]

/-- One place is counted up. -/
theorem Apart.adds_one (hl : l.Apart) {slot : Nat} (hslot : slot < l.size) {byte : UInt8}
    (hbyte : m.bytes[(l.map + UInt64.ofNat slot).toNat]? = some byte) :
    l.Adds [slot] m
      { m with bytes := m.bytes.set! (l.map + UInt64.ofNat slot).toNat (byte + 1) } := by
  rw [hl.toNat_place hslot] at hbyte ⊢
  have hlt := (Array.getElem?_eq_some_iff.mp hbyte).1
  have hset : ∀ k, (m.bytes.set! (l.map.toNat + slot) (byte + 1))[k]? =
      if l.map.toNat + slot = k then some (byte + 1) else m.bytes[k]? := by
    intro k
    rw [Array.set!_eq_setIfInBounds, Array.getElem?_setIfInBounds, if_pos hlt]
  intro hm
  have hplace : ∀ k < l.size,
      (m.bytes.set! (l.map.toNat + slot) (byte + 1))[l.map.toNat + k]? =
        m.bytes[l.map.toNat + k]?.map (· + UInt8.ofNat ([slot].count k)) := by
    intro k hk
    rw [hset]
    by_cases heq : slot = k
    · subst heq
      rw [if_pos rfl, hbyte]
      simp
    · obtain ⟨old, hold⟩ := hm.map k hk
      rw [if_neg (by omega), hold, List.count_singleton]
      simp [heq]
  refine ⟨⟨hm.area.of_same (by simp) fun k hk => ?_, hm.reserved, fun k hk => ?_⟩, hplace⟩
  · have harea := hl.area
    rw [length_leBytes] at hk
    exact (hset _).trans (if_neg (by omega))
  · obtain ⟨old, hold⟩ := hm.map k hk
    rw [hplace k hk, hold]
    exact ⟨_, rfl⟩

/-- What the code of a probe has computed before its instruction at this position. -/
structure Pending (l : MapLayout) (frame : Frame) (m : Memory) (first slot k : Nat) : Prop where
  base : k = 1 → frame[(⟨first⟩ : InstId)]? = some l.map
  counter : 2 ≤ k → frame[(⟨first + 1⟩ : InstId)]? = some (l.map + UInt64.ofNat slot)
  count : k = 3 → ∃ byte, m.bytes[(l.map + UInt64.ofNat slot).toNat]? = some byte ∧
    frame[(⟨first + 2⟩ : InstId)]? = some byte.toUInt64
  more : k = 4 → ∃ byte, m.bytes[(l.map + UInt64.ofNat slot).toNat]? = some byte ∧
    frame[(⟨first + 3⟩ : InstId)]? = some (byte + 1).toUInt64

theorem pending_zero (l : MapLayout) (frame : Frame) (m : Memory) (first slot : Nat) :
    l.Pending frame m first slot 0 :=
  ⟨nofun, nofun, nofun, nofun⟩

/-- Each instruction that counts computes what the next one needs, and the last one counts. -/
theorem Pending.next {w : World} {a : Activation} {frame : Frame} {s s' : Store} {caller : Caller}
    {area : GlobalId} {first slot k : Nat} {value : UInt64} (hl : l.Apart) (hslot : slot < l.size)
    (harea : w.globalAddr area = .ok l.area) (hat : a.function.DenseAt area first slot) (hk : k < 5)
    (hm : l.InPlace s.memory) (h : l.Pending frame s.memory first slot k)
    (hstep : w.step caller a frame ⟨first + k⟩ s = .ok value s') :
    l.Adds (if k = 4 then [slot] else []) s.memory s'.memory ∧
      (k < 4 → l.Pending (frame.insert ⟨first + k⟩ value) s'.memory first slot (k + 1)) := by
  have hplace := hl.toNat_place hslot
  obtain ⟨byte, hbyte⟩ := hm.map slot hslot
  rw [← hplace] at hbyte
  have hreserved : Memory.reserved ≤ (l.map + UInt64.ofNat slot).toNat := by
    have hmap := hm.reserved
    omega
  have hinsert : ∀ j v, k ≠ j → frame[(⟨first + j⟩ : InstId)]? = some v →
      (frame.insert ⟨first + k⟩ value)[(⟨first + j⟩ : InstId)]? = some v := by
    intro j v hne hv
    rw [Std.HashMap.getElem?_insert, if_neg (by simpa using hne), hv]
  have hself : (frame.insert ⟨first + k⟩ value)[(⟨first + k⟩ : InstId)]? = some value :=
    Std.HashMap.getElem?_insert_self
  obtain rfl | rfl | rfl | rfl | rfl : k = 0 ∨ k = 1 ∨ k = 2 ∨ k = 3 ∨ k = 4 := by omega
  · have hread : s.memory.readWord l.area 8 = .ok l.map := by
      rw [hm.area.readWord_eq le_rfl, mask_of_le le_rfl]
    obtain ⟨rfl, rfl⟩ :=
      EStateM.Result.ok.inj ((hat.base_step harea hread).symm.trans hstep)
    exact ⟨l.adds_nil _, fun _ => ⟨fun _ => hself, nofun, nofun, nofun⟩⟩
  · obtain ⟨rfl, rfl⟩ :=
      EStateM.Result.ok.inj ((hat.counter_step (h.base rfl)).symm.trans hstep)
    exact ⟨l.adds_nil _, fun _ => ⟨nofun, fun _ => hself, nofun, nofun⟩⟩
  · obtain ⟨rfl, rfl⟩ := EStateM.Result.ok.inj
      ((hat.count_step (h.counter le_rfl) hreserved hbyte).symm.trans hstep)
    exact ⟨l.adds_nil _, fun _ => ⟨nofun, fun _ => hinsert 1 _ (by decide) (h.counter le_rfl),
      fun _ => ⟨byte, hbyte, hself⟩, nofun⟩⟩
  · obtain ⟨found, hfound, hcount⟩ := h.count rfl
    obtain ⟨rfl, rfl⟩ := EStateM.Result.ok.inj ((hat.more_step hcount).symm.trans hstep)
    exact ⟨l.adds_nil _, fun _ => ⟨nofun, fun _ => hinsert 1 _ (by decide) (h.counter (by decide)),
      nofun, fun _ => ⟨found, hfound, hself⟩⟩⟩
  · obtain ⟨found, hfound, hmore⟩ := h.more rfl
    obtain ⟨-, rfl⟩ := EStateM.Result.ok.inj
      ((hat.bump_step (h.counter (by decide)) hreserved hfound hmore).symm.trans hstep)
    exact ⟨hl.adds_one hslot hfound, fun hlt => absurd hlt (lt_irrefl 4)⟩

/-- What is known of memory and of the values computed so far at a moment. -/
def Facts (l : MapLayout) (stands : FuncId → List Stand) (moment : Moment) : Prop :=
  l.InPlace moment.store.memory ∧
    match moment.place with
    | .arriving _ => True
    | .within _ insts frame => ∀ s ∈ stands moment.id, ∀ k < 5,
      insts.head? = some ⟨s.first + (k + 1)⟩ →
        l.Pending frame moment.store.memory (s.first + 1) s.planned.slot k

end MapLayout

namespace World

variable {w : World} {hooks : Hooks} {hook : FuncId} {base : FuncId → Nat}
  {plan : List PlannedProbe} {stands : FuncId → List Stand} {l : MapLayout} {a : Activation}
  {frame : Frame} {s s₁ s₂ : Store}

/-- In a sound activation an instruction in the middle of a probe comes after the one before it. -/
theorem Carries.previous (h : w.Carries hooks hook base plan stands) {id : FuncId} {n : Nat}
    {es : List BlockId} {block : BlockId} {i : InstId} {insts : List InstId}
    (hsound : w.SoundMoment ⟨id, a, n, es, .within block (i :: insts) frame, s⟩) {t : Stand}
    (ht : t ∈ stands id) {k : Nat} (hk : k + 1 < (t.code hooks).length)
    (hhead : insts.head? = some ⟨t.first + (k + 1)⟩) : i = ⟨t.first + k⟩ := by
  obtain ⟨f, hcarries⟩ := h.functions id a.function hsound.known hsound.body
  obtain ⟨hlive, blk, phis, before, hblk, -, hinsts, -⟩ := hsound.exists_before hcarries.tidy
  obtain ⟨rest, rfl⟩ := List.head?_eq_some_iff.mp hhead
  have hinsts' : blk.insts = (before ++ [i]) ++ ⟨t.first + (k + 1)⟩ :: rest := by
    rw [hinsts, List.append_assoc]
    rfl
  obtain ⟨front, hfront⟩ := hcarries.exists_previous ht hlive hblk hinsts' hk
  exact List.singleton_inj.mp (List.append_inj' hfront rfl).2

/-- The functions of the world carry probes that count each at a place of its own. -/
structure CountsDense (w : World) (hooks : Hooks) (hook : FuncId) (base : FuncId → Nat)
    (plan : List PlannedProbe) (stands : FuncId → List Stand) (l : MapLayout) : Prop
    extends w.Carries hooks hook base plan stands where
  hasNoPrevious : hooks.previous = none
  area : w.globalAddr hooks.area = .ok l.area
  apart : l.Apart
  slots : ∀ planned ∈ plan, planned.slot = planned.id ∧ planned.id < l.size

namespace CountsDense

variable (h : w.CountsDense hooks hook base plan stands l)
include h

theorem length_code (t : Stand) : (t.code hooks).length = 6 := by
  rw [Stand.code, Hooks.probeCode, Hooks.traceCode, Hooks.countCode, h.traces, h.hasNoPrevious]
  rfl

theorem slot {id : FuncId} {t : Stand} (ht : t ∈ stands id) :
    t.planned.slot = t.planned.id ∧ t.planned.slot < l.size := by
  have hmem : t.planned ∈ (stands id).map Stand.planned := List.mem_map_of_mem ht
  rw [h.placed, List.mem_reverse] at hmem
  obtain ⟨hslot, hlt⟩ := h.slots t.planned (List.mem_of_mem_filter hmem)
  exact ⟨hslot, hslot ▸ hlt⟩

/-- The code that counts comes after the call of the trace hook. -/
theorem dense {f f₁ : Function} {id : FuncId} (hcarries : f.Equipped hooks (base id) id (stands id) f₁)
    {t : Stand} (ht : t ∈ stands id) : f₁.DenseAt hooks.area (t.first + 1) t.planned.slot := by
  have hcounts : f₁.CountsAt hooks (t.first + 1) t.planned.slot := by
    intro k kind hk
    rw [Nat.add_assoc, Nat.add_comm 1]
    refine hcarries.code t ht (k + 1) kind ?_
    rw [Stand.code, Hooks.probeCode, Hooks.traceCode, h.traces]
    exact hk
  exact hcounts.dense h.hasNoPrevious

/-- After an instruction of the program no probe is in the middle of its code. -/
theorem facts_of_program {id : FuncId} {n n' : Nat} {es es' : List BlockId} {block : BlockId}
    {i : InstId} {insts : List InstId} {frame' : Frame}
    (hsound : w.SoundMoment ⟨id, a, n, es, .within block (i :: insts) frame, s⟩)
    (hi : ∀ t ∈ stands id, ∀ k < 5, i ≠ ⟨t.first + k⟩) (hm : l.InPlace s₁.memory) :
    l.Facts stands ⟨id, a, n', es', .within block insts frame', s₁⟩ := by
  refine ⟨hm, fun t ht k hk hhead => absurd ?_ (hi t ht k hk)⟩
  exact h.previous hsound ht (by rw [h.length_code]; omega) hhead

/-- No block is entered in the middle of a probe: phis come before what is entered, and probes have
none. -/
theorem head?_entered_ne {f f₁ : Function} {id : FuncId}
    (hcarries : f.Equipped hooks (base id) id (stands id) f₁) {block : BlockId} {b : Block}
    {phis : List InstId} (hlive : block ∈ f₁.layout) (hb : f₁.block block = .ok b)
    (hphis : f₁.phis block = .ok phis) {t : Stand} (ht : t ∈ stands id) {k : Nat} (hk : k < 5) :
    (b.insts.drop phis.length).head? ≠ some ⟨t.first + (k + 1)⟩ := by
  intro hhead
  obtain ⟨blk, hblk, hlead⟩ := Function.phis_eq_ok hphis
  obtain rfl := Except.ok.inj (hblk.symm.trans hb)
  obtain ⟨back, hinsts, hall, -⟩ := Function.leading_eq_ok hlead
  obtain ⟨rest, hrest⟩ := List.head?_eq_some_iff.mp hhead
  rw [hinsts, List.drop_left] at hrest
  rw [hrest] at hinsts
  have hlt : k + 1 < (t.code hooks).length := by
    rw [h.length_code]
    omega
  obtain ⟨front, hfront⟩ := hcarries.exists_previous ht hlive hblk hinsts hlt
  obtain ⟨kind, hkind, hphi⟩ := hall ⟨t.first + k⟩ (by rw [hfront]; simp)
  have hcode := List.getElem?_eq_getElem (Nat.lt_of_succ_lt hlt)
  obtain rfl := Except.ok.inj (hkind.symm.trans (hcarries.code t ht k _ hcode))
  obtain ⟨hplain, -⟩ := Hooks.plain_of_mem_probeCode (List.mem_of_getElem? hcode)
  rw [hplain] at hphi
  cases hphi

/-- An instruction that counts adds what is due at it, and leaves the next one what it needs. -/
theorem counted {f : Function} {id : FuncId} {n n' : Nat} {es es' : List BlockId} {block : BlockId}
    {insts : List InstId} {t : Stand} {k : Nat} {value : UInt64}
    (hsound : w.SoundMoment ⟨id, a, n, es, .within block (⟨t.first + (k + 1)⟩ :: insts) frame, s⟩)
    (hcarries : f.Equipped hooks (base id) id (stands id) a.function) (ht : t ∈ stands id)
    (hk : k < 5) (hm : l.InPlace s₁.memory)
    (hnow : l.Pending frame s₁.memory (t.first + 1) t.planned.slot k)
    (hstep : w.step w.alone a frame ⟨t.first + (k + 1)⟩ s₁ = .ok value s₂) :
    l.Adds (Stand.firing (stands id) 5 ⟨t.first + (k + 1)⟩) s₁.memory s₂.memory ∧
      l.Facts stands ⟨id, a, n', es', .within block insts
        (frame.insert ⟨t.first + (k + 1)⟩ value), s₂⟩ := by
  obtain ⟨hslot, hbound⟩ := h.slot ht
  have hplace : t.first + (k + 1) = t.first + 1 + k := by omega
  have hfires : Stand.firing (stands id) 5 ⟨t.first + (k + 1)⟩ =
      if k = 4 then [t.planned.slot] else [] := by
    rw [hcarries.firing_code ht (by rw [h.length_code]; omega) (by rw [h.length_code]; decide),
      hslot]
    simp
  rw [hfires]
  rw [hplace] at hstep ⊢
  obtain ⟨hadds, hnext⟩ :=
    MapLayout.Pending.next h.apart hbound h.area (h.dense hcarries ht) hk hm hnow hstep
  refine ⟨hadds, (hadds hm).1, fun u hu j hj hhead => ?_⟩
  have hprevious := h.previous hsound hu (by rw [h.length_code]; omega) hhead
  have hindex : t.first + (k + 1) = u.first + j := congrArg InstId.index hprevious
  obtain rfl := hcarries.eq_of_shared ht hu (by rw [h.length_code]; omega)
    (by rw [h.length_code]; omega) hindex
  obtain rfl : j = k + 1 := by omega
  exact hnext (by omega)

/-- The map counts the identifiers of the probes at the sites that a run passes. -/
theorem tallies : w.Accounts
    (fun moment => w.SoundMoment moment ∧
      w.ProgramKeeps l.Spares (fun id i => i.index < base id) moment)
    (l.Facts stands) (fun id => Stand.firing (stands id) 5) (markOf plan)
    (fun ids s s' => l.Adds ids s.memory s'.memory) where
  append := .append
  entry hid hentry := h.work_entry (fun _ t _ => by rw [h.length_code]; decide) hid hentry
  edge := by
    rintro id a n es block frame s b k target ⟨hsound, -⟩ hb hk
    obtain ⟨f, hcarries⟩ := h.functions id a.function hsound.known hsound.body
    obtain ⟨hlive, -⟩ := hsound.exists_before hcarries.tidy
    exact h.work_edge (fun _ t _ => by rw [h.length_code]; decide) hsound.known hlive hb hk
  enter := by
    rintro id a n es c s s₁ b phis values ⟨hsound, -⟩ ⟨hm, -⟩ hb hphis hvalues
    obtain rfl := ((w.fixed_enteredPhis a c.frame c.source phis).eq_ok hvalues).1
    refine ⟨l.adds_nil _, hm, fun t ht k hk hhead => ?_⟩
    obtain ⟨f, hcarries⟩ := h.functions id a.function hsound.known hsound.body
    obtain ⟨hlive, -⟩ := (hsound.enter hb hphis hvalues).exists_before hcarries.tidy
    exact absurd hhead (h.head?_entered_ne hcarries hlive hb hphis ht hk)
  execute := by
    rintro id a n es block i insts frame s s₁ s₂ kind value ⟨hsound, hkeeps⟩ ⟨hm, hpending⟩ htick
      hkind hcall hstep
    have hs₁ : s₁.memory = s.memory := by rw [(Exec.tick_eq htick).2]
    obtain ⟨f, hcarries⟩ := h.functions id a.function hsound.known hsound.body
    obtain ⟨hlive, blk, phis, before, hblk, -, hinsts, -⟩ := hsound.exists_before hcarries.tidy
    have hlisted : a.function.Listed i block before.length :=
      ⟨hlive, blk, hblk, by rw [hinsts]; simp⟩
    obtain ⟨hlt, hcases⟩ | ⟨t, ht, k, hk, rfl⟩ := hcarries.listed_cases hlisted hkind
    · have hadds : l.Adds [] s.memory s₂.memory := by
        refine MapLayout.Spares.adds (hs₁ ▸ ?_)
        obtain hprogram | hstill : i.index < base id ∨ kind.touches = false := by
          obtain hprogram | hphi | rfl := hcases
          · exact .inl hprogram
          · cases kind <;> first | exact .inr rfl | cases hphi
          · exact .inr rfl
        · exact (hkeeps hprogram s₁ htick).of_ok hstep
        · rw [(still_step hkind hstill s₁).of_ok hstep]
          exact ⟨.refl _ _ _, .refl _ _ _⟩
      refine ⟨(hcarries.firing_of_lt hlt).symm ▸ hadds, h.facts_of_program hsound ?_ (hadds hm).1⟩
      rintro t ht k hk rfl
      have hbound := (hcarries.bounds t ht).1
      dsimp only at hlt
      omega
    · obtain ⟨rfl, heq⟩ | ⟨hpos, -⟩ := h.code_cases hk
      · rw [heq] at hcall
        cases hcall
      obtain ⟨k, rfl⟩ : ∃ j, k = j + 1 := ⟨k - 1, by omega⟩
      have hlt := (List.getElem?_eq_some_iff.mp hk).1
      rw [h.length_code] at hlt
      have hnow := hpending t ht k (by omega) rfl
      rw [← hs₁] at hm hnow ⊢
      exact h.counted hsound hcarries ht (by omega) hm hnow hstep
  declared := by
    rintro id callId a n es block i insts frame s s₁ s₂ s₃ callee args ret values f value
      ⟨hsound, hkeeps⟩ ⟨hm, -⟩ htick hkind htarget hf hentry hcall
    have hs₁ : s₁.memory = s.memory := by rw [(Exec.tick_eq htick).2]
    obtain ⟨hprogram, hlt, hdue⟩ | ⟨t, ht, rfl, rfl, rfl, rfl⟩ :=
      h.declared_cases hsound hkind htarget hf
    · have hstep : w.step w.alone a frame i s₁ = .ok value s₃ :=
        (congrFun (step_call hkind) s₁).trans ((performCall_of_target htarget).trans
          ((congrFun (enter_of_bodiless hf hentry) s₂).trans hcall))
      have hadds : l.Adds [] s.memory s₃.memory :=
        MapLayout.Spares.adds (hs₁ ▸ (hkeeps hprogram s₁ htick).of_ok hstep)
      have hnone := hdue 5
      rw [List.flatMap_cons, List.append_eq_nil_iff] at hnone
      refine ⟨hnone.1.symm ▸ hadds, h.facts_of_program hsound ?_ (hadds hm).1⟩
      rintro t ht k - rfl
      have hfirst := hlt t ht
      dsimp only at hfirst
      omega
    · obtain ⟨g, hcarries⟩ := h.functions id a.function hsound.known hsound.body
      have hs₃ : s₃.memory = s.memory := by rw [trace_of_hook hcall, hs₁]
      have hnone : Stand.firing (stands id) 5 ⟨t.first + 0⟩ = [] := by
        rw [hcarries.firing_code ht (by rw [h.length_code]; decide) (by rw [h.length_code]; decide)]
        rfl
      refine ⟨(show Stand.firing (stands id) 5 ⟨t.first⟩ = [] from hnone) ▸ hs₃ ▸ l.adds_nil _,
        hs₃ ▸ hm, fun u hu j hj hhead => ?_⟩
      have hprevious := h.previous hsound hu (by rw [h.length_code]; omega) hhead
      have hindex : t.first + 0 = u.first + j := congrArg InstId.index hprevious
      obtain rfl := hcarries.eq_of_shared ht hu (by rw [h.length_code]; decide)
        (by rw [h.length_code]; omega) hindex
      obtain rfl : j = 0 := by omega
      exact l.pending_zero _ _ _ _
  call := by
    rintro id callId a n es block entry i insts frame s s₁ s₂ callee args ret values f ⟨hsound, -⟩
      ⟨hm, -⟩ htick hkind htarget hf hentry
    have hs₂ : s₂.memory = s.memory := by
      rw [((w.fixed_target a frame callee args).eq_ok htarget).1, (Exec.tick_eq htick).2]
    obtain ⟨-, hlt, hdue⟩ | ⟨t, -, -, rfl, -⟩ := h.declared_cases hsound hkind htarget hf
    · refine ⟨hdue 5, hs₂ ▸ l.adds_nil _, ⟨hs₂ ▸ hm, trivial⟩, fun xs value s₃ hadds =>
        h.facts_of_program hsound ?_ (hadds (hs₂ ▸ hm)).1⟩
      rintro t ht k - rfl
      have hfirst := hlt t ht
      dsimp only at hfirst
      omega
    · cases hentry
  branch := by
    rintro id a n es block b frame s s₁ s₂ c - ⟨hm, -⟩ - htick hcalls hterm
    have hs₂ : s₂.memory = s.memory := by
      rw [((fixed_runTerminator hcalls).eq_ok hterm).1, (Exec.tick_eq htick).2]
    exact ⟨hs₂ ▸ l.adds_nil _, hs₂ ▸ hm, trivial⟩
  invokeDeclared := by
    rintro id callId a n es block normal unwind b frame s s₁ s₂ s₃ callee args values f value
      ⟨-, hkeeps⟩ ⟨hm, -⟩ hb hterm htick htarget hf hentry hcall
    have hs₁ : s₁.memory = s.memory := by rw [(Exec.tick_eq htick).2]
    have hleave : w.runTerminator w.alone a frame block b.term s₁ =
        .ok (.jump ⟨frame, some block, normal⟩) s₃ := by
      rw [hterm, runTerminator_invoke]
      exact Exec.bind_eq_ok.mpr ⟨value, s₃, (performCall_of_target htarget).trans
        ((congrFun (enter_of_bodiless hf hentry) s₂).trans hcall), rfl⟩
    have hadds : l.Adds [] s.memory s₃.memory :=
      MapLayout.Spares.adds (hs₁ ▸ (hkeeps b s₁ hb htick).of_ok hleave)
    exact ⟨hadds, (hadds hm).1, trivial⟩
  invoke := by
    rintro id callId a n es block entry normal unwind b frame s s₁ s₂ callee args values f - ⟨hm, -⟩
      - - htick htarget - -
    have hs₂ : s₂.memory = s.memory := by
      rw [((w.fixed_target a frame callee args).eq_ok htarget).1, (Exec.tick_eq htick).2]
    exact ⟨hs₂ ▸ l.adds_nil _, ⟨hs₂ ▸ hm, trivial⟩, fun xs s₃ hadds => ⟨(hadds (hs₂ ▸ hm)).1, trivial⟩⟩
  result := by
    rintro id a n es block b frame s s₁ s₂ v - - - htick hterm
    have hs₂ : s₂.memory = s.memory := by
      rw [((fixed_runTerminator (calls_of_result hterm)).eq_ok hterm).1, (Exec.tick_eq htick).2]
    exact hs₂ ▸ l.adds_nil _

end CountsDense

end World

end EdgeProbe
