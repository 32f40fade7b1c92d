import EdgeProbe.Proofs.Machine.Regions

/-!
# Where the coverage map is

A fresh machine with a coverage map has, in this order, the word that says where the map is, the
word of the last probe and the map, when the first two are the last globals of its module. Main
statement: `Machine.exists_layout`.
-/

namespace EdgeProbe

/-- Where the word is that says where the coverage map is, where that of the last probe is, and
where the map is itself. -/
structure CoverageLayout where
  area : UInt64
  previous : UInt64
  map : UInt64
  size : Nat

namespace CoverageLayout

/-- One comes after the other. -/
structure Apart (l : CoverageLayout) : Prop where
  area : l.area.toNat + 8 ≤ l.previous.toNat
  previous : l.previous.toNat + 4 ≤ l.map.toNat
  map : l.map.toNat + l.size < 2 ^ 63

/-- The first word leads to the map, and the second one is below a bound. -/
structure Ready (l : CoverageLayout) (bound : Nat) (m : Memory) : Prop where
  area : m.Holds l.area (leBytes 8 l.map)
  previous : ∃ last : UInt64, last.toNat < bound ∧ m.Holds l.previous (leBytes 4 last)

/-- Neither of the words is changed. -/
structure Spares (l : CoverageLayout) (m m' : Memory) : Prop where
  area : m.SameAt l.area 8 m'
  previous : m.SameAt l.previous 4 m'

variable {l : CoverageLayout} {bound : Nat} {m m' : Memory}

theorem Ready.of_spares (h : l.Ready bound m) (hspares : l.Spares m m') : l.Ready bound m' := by
  obtain ⟨last, hlast, hholds⟩ := h.previous
  exact ⟨h.area.of_same (by simp) (by simpa using hspares.area),
    last, hlast, hholds.of_same (by simp) (by simpa using hspares.previous)⟩

/-- What is written to the map is written to neither of the words. -/
theorem Apart.write_map (hl : l.Apart) {addr : UInt64} {data : List UInt8}
    (haddr : l.map.toNat ≤ addr.toNat) (h : Memory.write addr data m = .ok () m') :
    l.Spares m m' := by
  have harea := hl.area
  have hprevious := hl.previous
  exact ⟨Memory.write_sameAt h (.inr (by omega)), Memory.write_sameAt h (.inr (by omega))⟩

/-- A probe leaves half its slot. -/
theorem Ready.write_previous (h : l.Ready bound m) (hl : l.Apart) {word : UInt64}
    (hword : word.toNat < bound)
    (hwrite : Memory.write l.previous (leBytes 4 word) m = .ok () m') : l.Ready bound m' := by
  have harea := hl.area
  have hsame : m.SameAt l.area 8 m' := Memory.write_sameAt hwrite (.inr (by omega))
  exact ⟨h.area.of_same (by simp) (by simpa using hsame), word, hword, Memory.write_holds hwrite⟩

/-- The size of the first word is that of a pointer. -/
theorem Ready.readWord_area (h : l.Ready bound m) : m.readWord l.area 8 = .ok l.map := by
  rw [h.area.readWord_eq le_rfl, mask_of_le le_rfl]

theorem Ready.readWord_previous (h : l.Ready bound m) :
    ∃ last : UInt64, last.toNat < bound ∧ m.readWord l.previous 4 = .ok last := by
  obtain ⟨last, hlast, hholds⟩ := h.previous
  refine ⟨mask 32 last, ?_, hholds.readWord_eq (by decide)⟩
  rw [toNat_mask]
  exact (Nat.mod_le _ _).trans_lt hlast

end CoverageLayout

/-- A global is found by a name that none before it has. -/
theorem Module.findGlobal?_of_first {m : Module} {name : String} {k : Nat} {g : Global}
    (hk : m.globals[k]? = some g) (hg : g.name = name)
    (hfirst : ∀ j g', j < k → m.globals[j]? = some g' → g'.name ≠ name) :
    m.findGlobal? name = some ⟨k⟩ := by
  obtain ⟨hlt, rfl⟩ := Array.getElem?_eq_some_iff.mp hk
  have hfind : m.globals.findIdx? (fun g => g.name == name) = some k := by
    refine Array.findIdx?_eq_some_iff_getElem.mpr ⟨hlt, beq_iff_eq.mpr hg, fun j hj => ?_⟩
    have hne := hfirst j m.globals[j] hj (Array.getElem?_eq_getElem _)
    simpa using hne
  rw [findGlobal?, hfind]
  rfl

/-- Gives a global its region. -/
def Global.allot (g : Global) : Access UInt64 :=
  match g.contents with
  | some contents => Memory.allocBytes contents.toBytes
  | none => Memory.alloc 8

namespace Machine

variable {globals globals' : List Global} {g g' : Global} {addrs addrs' : Array UInt64}
  {m m' : Memory}

theorem placeGlobals_cons : placeGlobals (g :: globals) addrs =
    (do let addr ← g.allot; placeGlobals globals (addrs.push addr)) := by
  rw [placeGlobals, Global.allot]
  cases g.contents <;> rfl

theorem placeGlobals_append : placeGlobals (globals ++ globals') addrs =
    (do let addrs ← placeGlobals globals addrs; placeGlobals globals' addrs) := by
  induction globals generalizing addrs with
  | nil => rfl
  | cons g rest ih =>
    rw [List.cons_append, placeGlobals_cons, placeGlobals_cons, bind_assoc]
    simp only [ih]

theorem size_placeGlobals (h : placeGlobals globals addrs m = .ok addrs' m') :
    addrs'.size = addrs.size + globals.length := by
  induction globals generalizing addrs m with
  | nil =>
    obtain ⟨rfl, -⟩ := EStateM.Result.ok.inj h
    rfl
  | cons g rest ih =>
    rw [placeGlobals_cons] at h
    obtain ⟨addr, m₁, -, h⟩ := Access.bind_eq_ok.mp h
    rw [ih h, Array.size_push, List.length_cons]
    omega

/-- Two globals of unknown contents come one after the other. -/
theorem placeGlobals_pair (hg : g.contents = none) (hg' : g'.contents = none)
    (h : placeGlobals [g, g'] addrs m = .ok addrs' m') :
    ∃ addr addr' m₁, Memory.alloc 8 m = .ok addr m₁ ∧ Memory.alloc 8 m₁ = .ok addr' m' ∧
      addrs' = (addrs.push addr).push addr' := by
  rw [placeGlobals_cons, Global.allot, hg] at h
  obtain ⟨addr, m₁, hfirst, h⟩ := Access.bind_eq_ok.mp h
  rw [placeGlobals_cons, Global.allot, hg'] at h
  obtain ⟨addr', m₂, hsecond, h⟩ := Access.bind_eq_ok.mp h
  obtain ⟨rfl, rfl⟩ := EStateM.Result.ok.inj h
  exact ⟨addr, addr', m₁, hfirst, hsecond, rfl⟩

/-- The word that says where the map is is written when there is one. -/
theorem write_tellArea {machine : Machine} {area : UInt64} {bytes : List UInt8}
    (harea : machine.globalAddr? Symbol.areaPointer = some area) (hholds : m.Holds area bytes)
    (hlength : bytes.length = 8) (map : UInt64) :
    Memory.write area (leBytes 8 map) m = .ok () (m.after (machine.tellArea map)) := by
  have hwrite : Memory.write area (leBytes 8 map) m =
      .ok () { m with bytes := Memory.overwrite m.bytes area.toNat (leBytes 8 map) } :=
    hholds.write_eq (by rw [length_leBytes, hlength])
  rw [Memory.after, tellArea, harea]
  dsimp only
  rw [Memory.writeWord_eq le_rfl, hwrite]

section

variable {md : Module} {old : Array Global} {fresh mapped : Machine} {size : Nat}
  (hglobals : md.globals = old ++ #[g, g']) (hcontents : g.contents = none)
  (hcontents' : g'.contents = none)
include hglobals hcontents hcontents'

/-- The last two globals of a fresh machine. -/
theorem ofModule_words (h : ofModule md = .ok fresh) :
    fresh.world.module = md ∧ ∃ area previous : UInt64,
      fresh.world.globals[old.size]? = some area ∧
      fresh.world.globals[old.size + 1]? = some previous ∧
      area.toNat + 8 ≤ previous.toNat ∧
      fresh.store.memory.Holds area (List.replicate 8 0) ∧
      fresh.store.memory.Holds previous (List.replicate 8 0) := by
  unfold ofModule at h
  split at h
  swap
  · cases h
  next addrs m hplaced =>
  obtain rfl := Except.ok.inj h
  have hlist : md.globals.toList = old.toList ++ [g, g'] := by rw [hglobals]; simp
  rw [hlist, placeGlobals_append] at hplaced
  obtain ⟨addrs₀, m₀, hplaced₀, hplaced⟩ := Access.bind_eq_ok.mp hplaced
  have hsize : addrs₀.size = old.size := by simpa using size_placeGlobals hplaced₀
  have hm₀ : Memory.reserved ≤ m₀.size :=
    (placeGlobals_holds hplaced₀ (by decide) (by decide)).1.1
  obtain ⟨area, previous, m₁, harea, hprevious, rfl⟩ := placeGlobals_pair hcontents hcontents' hplaced
  obtain ⟨hgrows, -, hstop, -⟩ := Memory.alloc_appends harea
  obtain ⟨hgrows', hstart', -, -⟩ := Memory.alloc_appends hprevious
  refine ⟨rfl, area, previous, ?_, ?_, hstop.trans hstart',
    (Memory.alloc_holds harea hm₀).of_grows hgrows', Memory.alloc_holds hprevious (hm₀.trans hgrows.1)⟩
  · dsimp only
    rw [Array.getElem?_push_lt (by simp [hsize]), Array.getElem_push, dif_neg (by simp [hsize])]
  · dsimp only
    rw [← hsize, ← Array.size_push area, Array.getElem?_push_size]

variable (hold : ∀ g ∈ old, g.name ≠ Symbol.areaPointer ∧ g.name ≠ Symbol.previousLocation)
  (hg : g.name = Symbol.areaPointer) (hg' : g'.name = Symbol.previousLocation)
include hold hg hg'

omit hcontents hcontents' in
/-- They are found by their names. -/
theorem findGlobal?_words : md.findGlobal? Symbol.areaPointer = some ⟨old.size⟩ ∧
    md.findGlobal? Symbol.previousLocation = some ⟨old.size + 1⟩ := by
  refine ⟨Module.findGlobal?_of_first (by rw [hglobals]; simp) hg fun j g₀ hj hg₀ => ?_,
    Module.findGlobal?_of_first (by rw [hglobals]; simp) hg' fun j g₀ hj hg₀ => ?_⟩
  · rw [hglobals, Array.getElem?_append_left hj] at hg₀
    exact (hold g₀ (Array.mem_of_getElem? hg₀)).1
  · rw [hglobals] at hg₀
    obtain hlt | heq := Nat.lt_succ_iff_lt_or_eq.mp hj
    · rw [Array.getElem?_append_left hlt] at hg₀
      exact (hold g₀ (Array.mem_of_getElem? hg₀)).2
    · rw [heq] at hg₀
      obtain rfl : g = g₀ := by simpa using hg₀
      rw [hg]
      decide

/-- A machine whose module has the globals of classic probes last, with a coverage map. Before it
got that, memory may have been worked on, but for the two words. -/
theorem exists_layout {before : Machine} (hfresh : ofModule md = .ok fresh)
    (hmodule : before.world.module = fresh.world.module)
    (haddrs : before.world.globals = fresh.world.globals)
    (harea : ∀ addr, fresh.globalAddr? Symbol.areaPointer = some addr →
      fresh.store.memory.SameAt addr 8 before.store.memory)
    (hprevious : ∀ addr, fresh.globalAddr? Symbol.previousLocation = some addr →
      fresh.store.memory.SameAt addr 4 before.store.memory)
    (hmapped : before.withCoverageMap size = .ok mapped) :
    ∃ l : CoverageLayout, l.Apart ∧ l.size = size ∧ mapped.world.module = md ∧
      mapped.world.globals[old.size]? = some l.area ∧
      mapped.world.globals[old.size + 1]? = some l.previous ∧
      mapped.globalAddr? Symbol.areaPointer = some l.area ∧
      mapped.globalAddr? Symbol.previousLocation = some l.previous ∧
      mapped.coverage = some (l.map, size) ∧
      ∀ bound, 0 < bound → l.Ready bound mapped.store.memory := by
  obtain ⟨hmd, area, previous, hfirst, hsecond, hapart, hzeros, hzeros'⟩ :=
    ofModule_words hglobals hcontents hcontents' hfresh
  obtain ⟨hfind, hfind'⟩ := findGlobal?_words hglobals hold hg hg'
  have hname : ∀ machine : Machine, machine.world.module = md →
      machine.world.globals = fresh.world.globals →
      machine.globalAddr? Symbol.areaPointer = some area ∧
        machine.globalAddr? Symbol.previousLocation = some previous := by
    intro machine hm hglobals
    rw [globalAddr?, globalAddr?, hm, hfind, hfind', hglobals]
    exact ⟨hfirst, hsecond⟩
  obtain ⟨hareaName, hpreviousName⟩ := hname fresh hmd rfl
  have hzeros : before.store.memory.Holds area (List.replicate 8 0) :=
    hzeros.of_same (by decide) (harea area hareaName)
  have hzeros' : before.store.memory.Holds previous (leBytes 4 0) :=
    (hzeros'.take (by decide : 4 ≤ 8)).of_same (by decide) (hprevious previous hpreviousName)
  unfold withCoverageMap at hmapped
  split at hmapped
  swap
  · cases hmapped
  next map m hmap =>
  obtain rfl := Except.ok.inj hmapped
  -- The map comes after both words, the first of which then leads to it.
  obtain ⟨hgrows, hstart, hend, hbound⟩ := Memory.alloc_appends hmap
  have hzeros := hzeros.of_grows hgrows
  have hwrite := write_tellArea (hname before (hmodule.trans hmd) haddrs).1 hzeros rfl map
  have hsame : m.SameAt previous 4 _ :=
    Memory.write_sameAt hwrite (.inl (by rw [length_leBytes]; exact hapart))
  refine ⟨⟨area, previous, map, size⟩, ⟨hapart, ?_, hend.trans_lt hbound⟩, rfl, hmodule.trans hmd,
    haddrs ▸ hfirst, haddrs ▸ hsecond, (hname _ (hmodule.trans hmd) haddrs).1,
    (hname _ (hmodule.trans hmd) haddrs).2, rfl, fun bound hpos => ?_⟩
  · obtain ⟨-, hsize, -⟩ := hzeros'
    rw [length_leBytes] at hsize
    exact hsize.trans hstart
  · exact ⟨Memory.write_holds hwrite, 0, hpos, (hzeros'.of_grows hgrows).of_same (by decide) hsame⟩

end

end Machine

end EdgeProbe
