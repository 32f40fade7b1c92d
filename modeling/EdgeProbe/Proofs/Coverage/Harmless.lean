import EdgeProbe.Proofs.Coverage.Counted
import EdgeProbe.Proofs.Machine.Weaving

/-!
# The code of probes does no harm

Wherever a machine has its coverage map, the code of a probe runs to its end, and changes nothing but
the map and the word of the last probe. It leaves both such that the next probe finds them as it
needs them. Main statement: `World.Supplies.harmless`.
-/

namespace EdgeProbe

namespace InstId

/-- So many instructions from this index on. -/
def row (first n : Nat) : List InstId :=
  (List.range' first n).map InstId.mk

theorem row_add (first n k : Nat) : row first (n + k) = row first n ++ row (first + n) k := by
  rw [row, row, row, ← List.map_append, List.range'_append_1]

theorem le_of_mem_row {first n : Nat} {i : InstId} (h : i ∈ row first n) : first ≤ i.index := by
  obtain ⟨k, hk, rfl⟩ := List.mem_map.mp h
  exact (List.mem_range'_1.mp hk).1

end InstId

theorem Stand.ids_eq (hooks : Hooks) (s : Stand) :
    s.ids hooks = InstId.row s.first (s.code hooks).length := by
  rw [Stand.ids, InstId.row, List.range'_eq_map_range, List.map_map]
  rfl

namespace World

variable {w : World} {a : Activation} {frame frame₁ frame' : Frame} {s s₁ s' : Store} {size : Nat}
  {hidden : Nat → Prop} {ready : Memory → Prop} {f : Function} {code code' : List InstId}

theorem Proceeds.append (h : w.Proceeds a code frame s frame₁ s₁)
    (h' : w.Proceeds a code' frame₁ s₁ frame' s') : w.Proceeds a (code ++ code') frame s frame' s' := by
  induction h with
  | done => exact h'
  | next h _ ih => exact .next h (ih h')

/-- What an instruction computes is there only from its index on. -/
theorem Proceeds.agree (h : w.Proceeds a code frame s frame' s') (hcode : ∀ i ∈ code, size ≤ i.index) :
    Agree size frame frame' := by
  induction h with
  | done => exact .refl _ _
  | next _ _ ih =>
    obtain ⟨hfirst, hrest⟩ := List.forall_mem_cons.mp hcode
    exact ((Agree.refl _ _).insert_above hfirst _).trans (ih hrest)

/-- Code of later instructions computes nothing that was there before. -/
theorem harmless_row {first n : Nat} (h : ∀ args frame t, ready t.memory → ∃ frame₁ t₁,
      w.Proceeds ⟨f, args⟩ (InstId.row first n) frame t frame₁ t₁ ∧
        t.memory.AgreeOutside hidden t₁.memory ∧ ready t₁.memory) (hsize : size ≤ first) :
    w.Harmless f size hidden ready (InstId.row first n) := by
  intro args frame t ht
  obtain ⟨frame₁, t₁, hproceeds, hout, hready⟩ := h args frame t ht
  exact ⟨frame₁, t₁, hproceeds.agree fun i hi => hsize.trans (InstId.le_of_mem_row hi), hout, hready,
    hproceeds⟩

theorem harmless_nil (w : World) (f : Function) (size : Nat) (hidden : Nat → Prop)
    (ready : Memory → Prop) : w.Harmless f size hidden ready [] :=
  fun _ frame t ht => ⟨frame, t, .refl _ _, .refl _ _, ht, .done⟩

theorem Harmless.append (h : w.Harmless f size hidden ready code)
    (h' : w.Harmless f size hidden ready code') :
    w.Harmless f size hidden ready (code ++ code') := by
  intro args frame t ht
  obtain ⟨frame₁, t₁, hagree, hout, hready, hproceeds⟩ := h args frame t ht
  obtain ⟨frame₂, t₂, hagree', hout', hready', hproceeds'⟩ := h' args frame₁ t₁ hready
  exact ⟨frame₂, t₂, hagree.trans hagree', hout.trans hout', hready', hproceeds.append hproceeds'⟩

theorem harmless_flatMap {α : Type} {xs : List α} {codeOf : α → List InstId}
    (h : ∀ x ∈ xs, w.Harmless f size hidden ready (codeOf x)) :
    w.Harmless f size hidden ready (xs.flatMap codeOf) := by
  induction xs with
  | nil => exact w.harmless_nil f size hidden ready
  | cons x rest ih =>
    obtain ⟨hfirst, hrest⟩ := List.forall_mem_cons.mp h
    exact hfirst.append (ih hrest)

end World

/-- What is written where nothing but hidden bytes are leaves the rest alone. -/
theorem Memory.agreeOutside_of_write {hidden : Nat → Prop} {addr : UInt64} {data : List UInt8}
    {m m' : Memory} (h : write addr data m = .ok () m')
    (hhidden : ∀ k < data.length, hidden (addr.toNat + k)) : m.AgreeOutside hidden m' := by
  have hover := write_overwritten h
  refine ⟨hover.size, hover.kept, fun k hk => ?_⟩
  rw [hover.bytes, if_neg]
  rintro ⟨hle, hlt⟩
  obtain ⟨j, rfl⟩ := Nat.exists_eq_add_of_le hle
  exact hk (hhidden j (by omega))

/-! ## Where probes find what they work with -/

/-- The word that leads to the map, the map and, in classic mode, the word of the last probe. -/
structure ProbeLayout extends MapLayout where
  previous : Option UInt64

namespace ProbeLayout

variable {l : ProbeLayout} {m m' : Memory}

/-- One comes after the other. -/
structure Apart (l : ProbeLayout) : Prop extends l.toMapLayout.Apart where
  between : ∀ p, l.previous = some p →
    l.area.toNat + 8 ≤ p.toNat ∧ p.toNat + 4 ≤ l.map.toNat

/-- The map is there, and the last probe has left less than the largest power of two within it. -/
structure Ready (l : ProbeLayout) (m : Memory) : Prop extends l.toMapLayout.InPlace m where
  last : ∀ p, l.previous = some p → ∃ last : UInt64, last.toNat < 2 ^ Nat.log2 l.size ∧
    m.Holds p (leBytes 4 last)

/-- The byte is one of those that probes work with. -/
inductive Hides (l : ProbeLayout) : Nat → Prop
  | area {k : Nat} (hk : k < 8) : Hides l (l.area.toNat + k)
  | previous {p : UInt64} {k : Nat} (hp : l.previous = some p) (hk : k < 4) : Hides l (p.toNat + k)
  | map {k : Nat} (hk : k < l.size) : Hides l (l.map.toNat + k)

/-- Nothing else matters to probes. -/
theorem Ready.of_inside (h : l.Ready m) (hsame : m.AgreeInside l.Hides m') : l.Ready m' where
  area := h.area.of_same (by simp) fun k hk => hsame _ (.area (by simpa using hk))
  reserved := h.reserved
  map := fun k hk => by
    obtain ⟨byte, hbyte⟩ := h.map k hk
    exact ⟨byte, (hsame _ (.map hk)).trans hbyte⟩
  last := fun p hp => by
    obtain ⟨last, hlast, hholds⟩ := h.last p hp
    exact ⟨last, hlast, hholds.of_same (by simp) fun k hk => hsame _ (.previous hp (by simpa using hk))⟩

/-- Bytes that were there are there. -/
theorem Ready.exists_byte (h : l.Ready m) (hsize : m'.size = m.size) {k : Nat} (hk : k < l.size) :
    ∃ byte, m'.bytes[l.map.toNat + k]? = some byte := by
  obtain ⟨byte, hbyte⟩ := h.map k hk
  have hlt : l.map.toNat + k < m'.bytes.size :=
    (Array.getElem?_eq_some_iff.mp hbyte).1.trans_eq hsize.symm
  exact ⟨_, Array.getElem?_eq_getElem hlt⟩

/-- A probe counts. -/
theorem Ready.write_map (h : l.Ready m) (hl : l.Apart) {addr : UInt64} {byte : UInt8}
    (hle : l.map.toNat ≤ addr.toNat) (hlt : addr.toNat < l.map.toNat + l.size)
    (hwrite : Memory.write addr [byte] m = .ok () m') :
    m.AgreeOutside l.Hides m' ∧ l.Ready m' := by
  have hout : m.AgreeOutside l.Hides m' := Memory.agreeOutside_of_write hwrite fun k hk => by
    obtain rfl := Nat.lt_one_iff.mp hk
    obtain ⟨j, hj⟩ := Nat.exists_eq_add_of_le hle
    rw [hj]
    exact .map (by omega)
  have harea := hl.area
  refine ⟨hout, ⟨⟨?_, h.reserved, fun k => h.exists_byte hout.size⟩, fun p hp => ?_⟩⟩
  · exact h.area.of_same (by simp) (Memory.write_sameAt hwrite (.inr (by simpa using by omega)))
  · obtain ⟨last, hlast, hholds⟩ := h.last p hp
    have hbetween := hl.between p hp
    exact ⟨last, hlast, hholds.of_same (by simp)
      (Memory.write_sameAt hwrite (.inr (by simpa using by omega)))⟩

/-- A probe leaves half its slot. -/
theorem Ready.write_last (h : l.Ready m) (hl : l.Apart) {p word : UInt64} (hp : l.previous = some p)
    (hword : word.toNat < 2 ^ Nat.log2 l.size)
    (hwrite : Memory.write p (leBytes 4 word) m = .ok () m') :
    m.AgreeOutside l.Hides m' ∧ l.Ready m' := by
  have hout : m.AgreeOutside l.Hides m' :=
    Memory.agreeOutside_of_write hwrite fun k hk => .previous hp (by simpa using hk)
  obtain ⟨harea, -⟩ := hl.between p hp
  refine ⟨hout, ⟨⟨?_, h.reserved, fun k => h.exists_byte hout.size⟩, fun p' hp' => ?_⟩⟩
  · exact h.area.of_same (by simp) (Memory.write_sameAt hwrite (.inr (by simpa using harea)))
  · obtain rfl := Option.some.inj (hp.symm.trans hp')
    exact ⟨word, hword, Memory.write_holds hwrite⟩

end ProbeLayout

namespace Function

variable {f : Function} {base offset : Value} {hooks : Hooks} {area previous : GlobalId}
  {first slot : Nat}

/-- The code that counts up the byte at an offset is there from an instruction on. -/
structure BumpsAt (f : Function) (base offset : Value) (first : Nat) : Prop where
  counter : f.kind ⟨first⟩ = .ok (.gep base offset)
  count : f.kind ⟨first + 1⟩ = .ok (.load .i8 (.inst ⟨first⟩))
  more : f.kind ⟨first + 2⟩ = .ok (.binary .add (.inst ⟨first + 1⟩) (.ofWord 8 1))
  bump : f.kind ⟨first + 3⟩ = .ok (.store (.inst ⟨first + 2⟩) (.inst ⟨first⟩))

theorem DenseAt.bumpsAt (h : f.DenseAt area first slot) :
    f.BumpsAt (.inst ⟨first⟩) (.ofWord 64 (UInt64.ofNat slot)) (first + 1) :=
  ⟨h.counter, h.count, h.more, h.bump⟩

theorem ClassicAt.bumpsAt (h : f.ClassicAt area previous first slot) :
    f.BumpsAt (.inst ⟨first⟩) (.inst ⟨first + 3⟩) (first + 4) :=
  ⟨h.counter, h.count, h.more, h.bump⟩

end Function

namespace World

variable {w : World} {a : Activation} {frame : Frame} {t : Store} {l : ProbeLayout}
  {area previous : GlobalId} {first slot : Nat} {i : InstId}

theorem getElem?_insert_of_ne {j : InstId} (h : i.index ≠ j.index) (value : UInt64) :
    (frame.insert i value)[j]? = frame[j]? := by
  rw [Std.HashMap.getElem?_insert, if_neg]
  exact fun heq => h (congrArg InstId.index (beq_iff_eq.mp heq))

theorem step_zext {caller : Caller} {value : Value} {width source : Nat} {x : UInt64}
    (hkind : a.function.kind i = .ok (.cast .zext value width))
    (hwidth : a.function.intWidth? value = .ok (some source))
    (hx : w.eval a frame value t = .ok x t) :
    w.step caller a frame i t = .ok (mask width (mask source x)) t := by
  rw [step, hkind, Exec.ofChecked_ok, pure_bind]
  dsimp only
  rw [widthOf_eq hwidth, pure_bind]
  exact Exec.bind_eq_ok.mpr ⟨x, t, hx, rfl⟩

/-- The byte at an offset into the map is counted up. -/
theorem proceeds_bumps {base offset : Value} {x : UInt64}
    (hat : a.function.BumpsAt base offset first) (hl : l.Apart) (ht : l.Ready t.memory)
    (hbase : w.eval a frame base t = .ok l.map t) (hoffset : w.eval a frame offset t = .ok x t)
    (hwidth : a.function.intWidth? offset = .ok (some 64)) (hx : x.toNat < l.size) :
    ∃ frame₁ t₁, w.Proceeds a (InstId.row first 4) frame t frame₁ t₁ ∧
      t.memory.AgreeOutside l.Hides t₁.memory ∧ l.Ready t₁.memory := by
  have hmap := hl.map
  have hplace : (l.map + x).toNat = l.map.toNat + x.toNat := by
    rw [UInt64.toNat_add, Nat.mod_eq_of_lt (by omega)]
  obtain ⟨byte, hbyte⟩ := ht.map x.toNat hx
  rw [← hplace] at hbyte
  have hreserved : Memory.reserved ≤ (l.map + x).toNat := by
    have := ht.reserved
    omega
  have hwrite := Memory.writeWord_one hreserved hbyte (byte + 1)
  have htype := Function.valueType_of_binary hat.more hat.count rfl
  -- The place is computed, its byte is read and counted up, and what comes of that is written there.
  have hcounter : w.step w.alone a frame ⟨first⟩ t = .ok (l.map + x) t := by
    rw [step_gep hat.counter hwidth hoffset hbase]
    simp [signExtend]
  have hcount : w.step w.alone a (frame.insert ⟨first⟩ (l.map + x)) ⟨first + 1⟩ t =
      .ok byte.toUInt64 t := by
    rw [step_load_int hat.count (eval_inst Std.HashMap.getElem?_insert_self)
      (Memory.readWord_one hreserved hbyte), mask_toUInt64 le_rfl]
  have hmore : w.step w.alone a ((frame.insert ⟨first⟩ (l.map + x)).insert ⟨first + 1⟩ byte.toUInt64)
      ⟨first + 2⟩ t = .ok (byte + 1).toUInt64 t := by
    rw [step_binary_of_eval hat.more (congrArg (Except.map Ty.intWidth?) htype)
      (eval_inst Std.HashMap.getElem?_insert_self) rfl, evaluate_add_one]
  have hplaced : (((frame.insert ⟨first⟩ (l.map + x)).insert ⟨first + 1⟩ byte.toUInt64).insert
      ⟨first + 2⟩ (byte + 1).toUInt64)[(⟨first⟩ : InstId)]? = some (l.map + x) := by
    rw [getElem?_insert_of_ne (by simp), getElem?_insert_of_ne (by simp),
      Std.HashMap.getElem?_insert_self]
  have hbump : w.step w.alone a (((frame.insert ⟨first⟩ (l.map + x)).insert ⟨first + 1⟩
      byte.toUInt64).insert ⟨first + 2⟩ (byte + 1).toUInt64) ⟨first + 3⟩ t = .ok 0 _ :=
    step_store hat.bump htype (eval_inst Std.HashMap.getElem?_insert_self) (eval_inst hplaced) hwrite
  rw [Memory.writeWord_eq (by decide), leBytes_one] at hwrite
  obtain ⟨hout, hready⟩ := ht.write_map hl (by omega) (by omega) hwrite
  exact ⟨_, _, .next (.plain hat.counter rfl hcounter) (.next (.plain hat.count rfl hcount)
    (.next (.plain hat.more rfl hmore) (.next (.plain hat.bump rfl hbump) .done))), hout, hready⟩

/-- A probe in dense mode counts at its slot. -/
theorem proceeds_dense (hat : a.function.DenseAt area first slot) (hl : l.Apart)
    (harea : w.globalAddr area = .ok l.area) (hslot : slot < l.size) (ht : l.Ready t.memory) :
    ∃ frame₁ t₁, w.Proceeds a (InstId.row first 5) frame t frame₁ t₁ ∧
      t.memory.AgreeOutside l.Hides t₁.memory ∧ l.Ready t₁.memory := by
  have hmap := hl.map
  have hread : t.memory.readWord l.area 8 = .ok l.map := by
    rw [ht.area.readWord_eq le_rfl, mask_of_le le_rfl]
  have hoffset : ∀ frame, w.eval a frame (.ofWord 64 (UInt64.ofNat slot)) t =
      .ok (UInt64.ofNat slot) t := fun frame => congrArg (EStateM.Result.ok · t) (mask_of_le le_rfl _)
  have hwidth : a.function.intWidth? (.ofWord 64 (UInt64.ofNat slot)) = .ok (some 64) := by
    rw [Function.intWidth?, Function.valueType_ofWord]
    rfl
  have hsmall : (UInt64.ofNat slot).toNat < l.size := by
    rwa [UInt64.toNat_ofNat', Nat.mod_eq_of_lt (by omega)]
  have hbase : w.step w.alone a frame ⟨first⟩ t = .ok l.map t := hat.base_step harea hread
  obtain ⟨frame₁, t₁, hproceeds, hend⟩ := proceeds_bumps hat.bumpsAt hl ht
    (eval_inst Std.HashMap.getElem?_insert_self) (hoffset _) hwidth hsmall
  exact ⟨frame₁, t₁, .next (.plain hat.base rfl hbase) hproceeds, hend⟩

/-- A classic probe mixes its slot with what the last probe has left, to something that is as small. -/
theorem proceeds_mix {p last : UInt64} (hat : a.function.ClassicAt area previous first slot)
    (harea : w.globalAddr area = .ok l.area) (hprevious : w.globalAddr previous = .ok p)
    (ht : l.Ready t.memory) {bits : Nat} (hlast : last.toNat < 2 ^ bits)
    (hholds : t.memory.Holds p (leBytes 4 last)) (hslot : slot < 2 ^ bits) :
    ∃ frame₁ x, w.Proceeds a (InstId.row first 4) frame t frame₁ t ∧
      frame₁[(⟨first⟩ : InstId)]? = some l.map ∧ frame₁[(⟨first + 3⟩ : InstId)]? = some x ∧
        x.toNat < 2 ^ bits := by
  have hread : t.memory.readWord l.area 8 = .ok l.map := by
    rw [ht.area.readWord_eq le_rfl, mask_of_le le_rfl]
  have hbase : w.step w.alone a frame ⟨first⟩ t = .ok l.map t :=
    step_load_ptr hat.base (eval_global harea) hread
  obtain ⟨old, hold, hloaded⟩ : ∃ old : UInt64, old.toNat < 2 ^ bits ∧
      ∀ frame, w.step w.alone a frame ⟨first + 1⟩ t = .ok old t :=
    ⟨_, ((toNat_mask_le _ _).trans (toNat_mask_le _ _)).trans_lt hlast, fun frame =>
      step_load_int hat.last (eval_global hprevious) (hholds.readWord_eq (by decide))⟩
  have htype := Function.valueType_of_binary hat.mixed hat.last rfl
  have hwidth : a.function.intWidth? (.inst ⟨first + 2⟩) = .ok (some 32) :=
    congrArg (Except.map Ty.intWidth?) htype
  obtain ⟨mixed, hsmall, hmixed⟩ : ∃ mixed : UInt64, mixed.toNat < 2 ^ bits ∧
      ∀ frame : Frame, frame[(⟨first + 1⟩ : InstId)]? = some old →
        w.step w.alone a frame ⟨first + 2⟩ t = .ok mixed t := by
    refine ⟨_, ?_, fun frame hframe => step_binary_of_eval hat.mixed hwidth (eval_inst hframe) rfl⟩
    refine (toNat_mask_le _ _).trans_lt ?_
    rw [UInt64.toNat_xor]
    refine Nat.xor_lt_two_pow hold ((toNat_mask_le _ _).trans_lt ?_)
    exact (UInt64.toNat_ofNat' ▸ Nat.mod_le _ _).trans_lt hslot
  obtain ⟨x, hx, hwide⟩ : ∃ x : UInt64, x.toNat < 2 ^ bits ∧
      ∀ frame : Frame, frame[(⟨first + 2⟩ : InstId)]? = some mixed →
        w.step w.alone a frame ⟨first + 3⟩ t = .ok x t :=
    ⟨_, ((toNat_mask_le _ _).trans (toNat_mask_le _ _)).trans_lt hsmall, fun frame hframe =>
      step_zext hat.wide hwidth (eval_inst hframe)⟩
  refine ⟨_, x, .next (.plain hat.base rfl hbase) (.next (.plain hat.last rfl (hloaded _))
    (.next (.plain hat.mixed rfl (hmixed _ Std.HashMap.getElem?_insert_self))
      (.next (.plain hat.wide rfl (hwide _ Std.HashMap.getElem?_insert_self)) .done))), ?_,
    Std.HashMap.getElem?_insert_self, hx⟩
  rw [getElem?_insert_of_ne (by dsimp only; omega), getElem?_insert_of_ne (by dsimp only; omega),
    getElem?_insert_of_ne (by dsimp only; omega), Std.HashMap.getElem?_insert_self]

/-- A classic probe counts at what it has mixed, and leaves half its slot. -/
theorem proceeds_classic {p : UInt64} (hat : a.function.ClassicAt area previous first slot)
    (hl : l.Apart) (harea : w.globalAddr area = .ok l.area) (hp : l.previous = some p)
    (hprevious : w.globalAddr previous = .ok p) (hpos : l.size ≠ 0)
    (hslot : slot < 2 ^ Nat.log2 l.size) (ht : l.Ready t.memory) :
    ∃ frame₁ t₁, w.Proceeds a (InstId.row first 9) frame t frame₁ t₁ ∧
      t.memory.AgreeOutside l.Hides t₁.memory ∧ l.Ready t₁.memory := by
  obtain ⟨last, hlast, hholds⟩ := ht.last p hp
  obtain ⟨frame₁, x, hmixes, hbase, hoffset, hx⟩ :
      ∃ frame₁ x, w.Proceeds a (InstId.row first 4) frame t frame₁ t ∧ _ :=
    proceeds_mix hat harea hprevious ht hlast hholds hslot
  have hwidth : a.function.intWidth? (.inst ⟨first + 3⟩) = .ok (some 64) :=
    Function.intWidth?_of_fixedType? hat.wide rfl
  obtain ⟨frame₂, t₂, hbumps, hout, hready⟩ := proceeds_bumps (w := w) hat.bumpsAt hl ht
    (eval_inst hbase) (eval_inst hoffset) hwidth (hx.trans_le (Nat.log2_self_le hpos))
  obtain ⟨last₂, -, hholds₂⟩ := hready.last p hp
  have hhalf : (mask 32 (UInt64.ofNat (slot / 2))).toNat < 2 ^ Nat.log2 l.size := by
    refine (toNat_mask_le _ _).trans_lt ((UInt64.toNat_ofNat' ▸ Nat.mod_le _ _).trans_lt ?_)
    exact (Nat.div_le_self slot 2).trans_lt hslot
  obtain ⟨memory, hwrite⟩ : ∃ memory, Memory.write p
      (leBytes 4 (mask 32 (UInt64.ofNat (slot / 2)))) t₂.memory = .ok () memory :=
    ⟨_, hholds₂.write_eq (by simp)⟩
  obtain ⟨hout', hready'⟩ := hready.write_last hl hp hhalf hwrite
  rw [← Memory.writeWord_eq (by decide)] at hwrite
  have hleave : w.step w.alone a frame₂ ⟨first + 8⟩ t₂ = .ok 0 { t₂ with memory } :=
    step_store hat.leave (Function.valueType_ofWord _ _ _) rfl (eval_global hprevious) hwrite
  refine ⟨_, _, (hmixes.append hbumps).append (.next (.plain hat.leave rfl hleave) .done),
    hout.trans hout', hready'⟩

/-- The trace hook changes no memory. -/
theorem completes_hook {hook : FuncId} {id : Nat}
    (hkind : a.function.kind i = .ok (.call (.direct hook) [.ofWord 32 (UInt64.ofNat id)] .void))
    (hhook : w.module.function hook = .ok (.declare Symbol.traceHook [.i32] .void)) :
    ∃ v t₁, w.Completes (.step a frame i) t v t₁ ∧ t₁.memory = t.memory := by
  have hbuiltin : Builtin.ofName? (Function.declare Symbol.traceHook [.i32] .void).name =
      some .trace := by decide
  have hcall : w.callDeclared (.declare Symbol.traceHook [.i32] .void) [mask 32 (UInt64.ofNat id)] t =
      .ok (mask 64 0) { t with trace := (mask 32 (UInt64.ofNat id)).toUInt32 :: t.trace } := by
    unfold callDeclared
    rw [hbuiltin]
    rfl
  exact ⟨_, _, .calls hkind (.targeted rfl (.declared hhook rfl hcall)), rfl⟩

/-- A world has what the code of probes refers to. -/
structure Supplies (w : World) (hooks : Hooks) (l : ProbeLayout) : Prop where
  apart : l.Apart
  size : l.size ≠ 0
  area : w.globalAddr hooks.area = .ok l.area
  previous : ∀ g, hooks.previous = some g → ∃ p, l.previous = some p ∧ w.globalAddr g = .ok p
  trace : ∀ id, hooks.trace = some id →
    w.module.function id = .ok (.declare Symbol.traceHook [.i32] .void)

end World

/-- A probe has its slot in the map, in classic mode below the largest power of two within it. -/
structure ProbeLayout.Admits (l : ProbeLayout) (hooks : Hooks) (slot : Nat) : Prop where
  inside : slot < l.size
  drawn : ∀ g, hooks.previous = some g → slot < 2 ^ Nat.log2 l.size

namespace World.Supplies

variable {w : World} {hooks : Hooks} {l : ProbeLayout} {f : Function} {size first slot : Nat}
  (h : w.Supplies hooks l)
include h

/-- The code that counts. -/
theorem harmless_count (hslot : l.Admits hooks slot) (hat : f.CountsAt hooks first slot)
    (hsize : size ≤ first) :
    w.Harmless f size l.Hides l.Ready (InstId.row first (hooks.countCode first slot).length) := by
  refine harmless_row (fun args frame t ht => ?_) hsize
  cases hprevious : hooks.previous with
  | none =>
    have hlength : (hooks.countCode first slot).length = 5 := by
      rw [Hooks.countCode, hprevious]
      rfl
    rw [hlength]
    exact proceeds_dense (hat.dense hprevious) h.apart h.area hslot.inside ht
  | some g =>
    have hlength : (hooks.countCode first slot).length = 9 := by
      rw [Hooks.countCode, hprevious]
      rfl
    obtain ⟨p, hp, hg⟩ := h.previous g hprevious
    rw [hlength]
    exact proceeds_classic (hat.classic hprevious) h.apart h.area hp hg h.size
      (hslot.drawn g hprevious) ht

/-- The code that tells the trace hook. -/
theorem harmless_trace {id : Nat} (hcode : ∀ (k : Nat) kind, (hooks.traceCode id)[k]? = some kind →
      f.kind ⟨first + k⟩ = .ok kind) (hsize : size ≤ first) :
    w.Harmless f size l.Hides l.Ready (InstId.row first (hooks.traceCode id).length) := by
  refine harmless_row (fun args frame t ht => ?_) hsize
  cases htrace : hooks.trace with
  | none =>
    rw [Hooks.traceCode, htrace]
    exact ⟨frame, t, .done, .refl _ _, ht⟩
  | some hook =>
    rw [Hooks.traceCode, htrace] at hcode ⊢
    obtain ⟨v, t₁, hcall, hmemory⟩ :
        ∃ v t₁, w.Completes (.step ⟨f, args⟩ frame _) t v t₁ ∧ t₁.memory = t.memory :=
      completes_hook (hcode 0 _ rfl) (h.trace hook htrace)
    refine ⟨_, t₁, .next hcall .done, ?_, ?_⟩ <;> rw [hmemory]
    · exact .refl _ _
    · exact ht

/-- The code of a probe. -/
theorem harmless {s : Stand} (hslot : l.Admits hooks s.planned.slot)
    (hcode : ∀ (k : Nat) kind, (s.code hooks)[k]? = some kind → f.kind ⟨s.first + k⟩ = .ok kind)
    (hsize : size ≤ s.first) : w.Harmless f size l.Hides l.Ready (s.ids hooks) := by
  rw [Stand.ids_eq, Stand.code, Hooks.probeCode, List.length_append, InstId.row_add]
  refine (h.harmless_trace (fun k kind hk => ?_) hsize).append
    (h.harmless_count hslot (fun k kind hk => ?_) (by omega))
  · exact hcode k kind (List.getElem?_append_left (List.getElem?_eq_some_iff.mp hk).1 ▸ hk)
  · rw [Nat.add_assoc]
    refine hcode _ kind ?_
    rw [Stand.code, Hooks.probeCode, List.getElem?_append_right (by omega), Nat.add_sub_cancel_left]
    exact hk

/-- The code of all probes of a function. -/
theorem harmless_idsIn {f₀ : Function} {stands : List Stand} (hf : f₀.Instrumented hooks stands f)
    (hslots : ∀ s ∈ stands, l.Admits hooks s.planned.slot) (hsize : size ≤ f₀.insts.size) (b : BlockId) :
    w.Harmless f size l.Hides l.Ready (Stand.idsIn hooks stands b) := by
  refine harmless_flatMap fun s hs => ?_
  have hs := List.mem_of_mem_filter hs
  exact h.harmless (hslots s hs) (hf.code s hs) (hsize.trans (hf.bounds s hs).1)

end World.Supplies

end EdgeProbe
