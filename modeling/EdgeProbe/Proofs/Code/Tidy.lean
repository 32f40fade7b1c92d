import EdgeProbe.Proofs.Code.Changes
import EdgeProbe.Proofs.Machine.Simulation
import EdgeProbe.Proofs.Validity.WellFormed

/-!
# Functions whose records agree

What the changes that passes make rely on, and keep: live blocks lead to live blocks, an instruction
stands in one place and knows its block, what is read is in the arena, and phis lead their blocks
with an entry for each edge. Well-formed functions that list no instruction twice are like this.
-/

namespace EdgeProbe

namespace Function

/-- The records of a function agree. -/
structure Tidy (f : Function) : Prop where
  closed : f.Closed
  home : ∀ id b pos, f.Listed id b pos → ∃ inst, f.inst id = .ok inst ∧ inst.block = some b
  nodup : ∀ b ∈ f.layout, ∀ blk, f.block b = .ok blk → blk.insts.Nodup
  operands : ∀ id b pos kind, f.Listed id b pos → f.kind id = .ok kind →
    ∀ value ∈ kind.operands, value.Below f.insts.size
  termOperands : ∀ b ∈ f.layout, ∀ blk, f.block b = .ok blk →
    ∀ value ∈ blk.term.operands, value.Below f.insts.size
  sources : ∀ id b pos ty incoming, f.Listed id b pos → f.kind id = .ok (.phi ty incoming) →
    ∀ entry ∈ incoming, entry.2.index < f.blocks.size
  phisLead : ∀ id b pos ty incoming, f.Listed id b pos → f.kind id = .ok (.phi ty incoming) →
    ∀ before < pos, ∀ id', f.Listed id' b before →
      ∃ ty' incoming', f.kind id' = .ok (.phi ty' incoming')
  entries : ∀ id b pos ty incoming, f.Listed id b pos → f.kind id = .ok (.phi ty incoming) →
    ∀ source ∈ f.layout, f.Edge source b → ∃ value, (value, source) ∈ incoming

variable {m : Module} {f : Function}

theorem below_of_knowsValue {value : Value} (h : m.knowsValue f value = true) :
    value.Below f.insts.size := by
  cases value with
  | inst id =>
    rw [Module.knowsValue, hasInst, decide_eq_true_eq] at h
    exact h
  | _ => trivial

theorem below_of_knowsKind {kind : InstKind} (h : m.knowsKind f kind = true) :
    ∀ value ∈ kind.operands, value.Below f.insts.size := by
  intro value hvalue
  unfold Module.knowsKind at h
  rw [Bool.and_eq_true] at h
  exact below_of_knowsValue (List.all_eq_true.mp h.1 value hvalue)

theorem below_of_knowsTerminator {term : Terminator} (h : m.knowsTerminator f term = true) :
    ∀ value ∈ term.operands, value.Below f.insts.size := by
  intro value hvalue
  unfold Module.knowsTerminator at h
  rw [Bool.and_eq_true] at h
  exact below_of_knowsValue (List.all_eq_true.mp h.1 value hvalue)

/-- The live instructions are those that the live blocks list. -/
theorem liveInsts_eq_ok {ids : List InstId} :
    f.liveInsts = .ok ids ↔
      ∃ lists, (f.layout.mapM fun b => (f.block b).map Block.insts) = .ok lists ∧
        lists.flatten = ids := by
  have hstep : (fun b => do return (← f.block b).insts : BlockId → Checked (List InstId)) =
      fun b => (f.block b).map Block.insts := by
    funext b
    cases f.block b <;> rfl
  rw [liveInsts, hstep, Checked.bind_eq_ok]
  exact exists_congr fun lists => and_congr_right fun _ => Checked.pure_eq_ok

/-- What is live can be listed. -/
theorem Closed.liveInsts_eq_ok (hf : f.Closed) : ∃ ids, f.liveInsts = .ok ids := by
  have hlists : ∀ blocks : List BlockId, (∀ b ∈ blocks, b ∈ f.layout) → ∃ lists,
      List.Forall₂ (fun b insts => (f.block b).map Block.insts = .ok insts) blocks lists := by
    intro blocks
    induction blocks with
    | nil => exact fun _ => ⟨[], .nil⟩
    | cons b rest ih =>
      intro hblocks
      obtain ⟨lists, hlists⟩ := ih fun c hc => hblocks c (List.mem_cons_of_mem _ hc)
      have hlt := hf.inArena b (hblocks b List.mem_cons_self)
      have hblk : f.block b = .ok f.blocks[b.index] := block_eq_ok.mpr (by simp [hlt])
      exact ⟨f.blocks[b.index].insts :: lists, .cons (by rw [hblk]; rfl) hlists⟩
  obtain ⟨lists, hlists⟩ := hlists f.layout fun b hb => hb
  exact ⟨lists.flatten, Function.liveInsts_eq_ok.mpr ⟨lists, Checked.mapM_eq_ok.mpr hlists, rfl⟩⟩

theorem nodup_of_liveInsts {ids : List InstId} (h : f.liveInsts = .ok ids) (hids : ids.Nodup)
    {b : BlockId} (hb : b ∈ f.layout) {blk : Block} (hblk : f.block b = .ok blk) :
    blk.insts.Nodup := by
  obtain ⟨lists, hlists, rfl⟩ := liveInsts_eq_ok.mp h
  obtain ⟨insts, hmem, hinsts⟩ := Checked.exists_result hlists hb
  rw [hblk] at hinsts
  obtain rfl : blk.insts = insts := Except.ok.inj hinsts
  exact (List.nodup_flatten.mp hids).1 _ hmem

/-- A live instruction is listed. -/
theorem listed_of_liveInsts {ids : List InstId} (h : f.liveInsts = .ok ids) {id : InstId}
    (hid : id ∈ ids) : ∃ b pos, f.Listed id b pos := by
  obtain ⟨lists, hlists, rfl⟩ := liveInsts_eq_ok.mp h
  obtain ⟨insts, hmem, hid⟩ := List.mem_flatten.mp hid
  obtain ⟨b, hb, hinsts⟩ := Checked.exists_member hlists hmem
  obtain ⟨blk, hblk, rfl⟩ := Checked.map_eq_ok.mp hinsts
  obtain ⟨pos, hpos⟩ := List.mem_iff_getElem?.mp hid
  exact ⟨b, pos, hb, blk, hblk, hpos⟩

theorem mem_liveInsts {ids : List InstId} (h : f.liveInsts = .ok ids) {id : InstId} {b : BlockId}
    {pos : Nat} (hid : f.Listed id b pos) : id ∈ ids := by
  obtain ⟨lists, hlists, rfl⟩ := liveInsts_eq_ok.mp h
  obtain ⟨hb, blk, hblk, hpos⟩ := hid
  obtain ⟨insts, hmem, hinsts⟩ := Checked.exists_result hlists hb
  rw [hblk] at hinsts
  obtain rfl : blk.insts = insts := Except.ok.inj hinsts
  exact List.mem_flatten.mpr ⟨_, hmem, List.mem_of_getElem? hpos⟩

theorem WellFormed.tidy (hf : f.WellFormed m)
    (hnodup : ∀ ids, f.liveInsts = .ok ids → ids.Nodup) : f.Tidy where
  closed := hf.closed
  home := hf.home
  nodup := by
    obtain ⟨ids, hids⟩ := hf.closed.liveInsts_eq_ok
    exact fun b hb blk hblk => nodup_of_liveInsts hids (hnodup ids hids) hb hblk
  operands := fun id b pos kind _ hkind => below_of_knowsKind (hf.knowsKind id kind hkind)
  termOperands := fun b _ blk hblk => below_of_knowsTerminator (hf.knowsTerminator b blk hblk)
  sources := by
    intro id b pos ty incoming _ hkind entry hentry
    have hknown := hf.knowsKind id _ hkind
    rw [Module.knowsKind, Bool.and_eq_true] at hknown
    simpa [hasBlock] using List.all_eq_true.mp hknown.2 entry hentry
  phisLead := by
    intro id b pos ty incoming hid hkind before hbefore id' hid'
    obtain ⟨blk, phis, hblk, hphis⟩ := hf.phis_eq_ok hid.1
    have hpos := hf.pos_lt_of_phi hid hkind hphis
    obtain ⟨blk', hblk', hlead⟩ := Function.phis_eq_ok hphis
    obtain rfl : blk' = blk := Except.ok.inj (hblk'.symm.trans hblk)
    obtain ⟨back, hinsts, -, -⟩ := leading_eq_ok hlead
    obtain ⟨-, blk'', hblk'', hget⟩ := hid'
    obtain rfl : blk'' = blk' := Except.ok.inj (hblk''.symm.trans hblk)
    apply kind_of_mem_phis hphis
    rw [hinsts, List.getElem?_append_left (by omega)] at hget
    exact List.mem_of_getElem? hget
  entries := fun id b pos ty incoming hid hkind source hsource hedge =>
    hf.exists_entry hid hkind hsource hedge

end Function

namespace Function.Tidy

variable {f : Function} {b : BlockId} {id : InstId} {pos : Nat} {ty : Ty}
  {incoming : List (Value × BlockId)}

theorem exists_kind (hf : f.Tidy) (hid : f.Listed id b pos) : ∃ kind, f.kind id = .ok kind := by
  obtain ⟨inst, hinst, -⟩ := hf.home id b pos hid
  exact ⟨inst.kind, kind_eq_ok.mpr ⟨inst, hinst, rfl⟩⟩

/-- An instruction stands in one place. -/
theorem listed_unique (hf : f.Tidy) {b' : BlockId} {pos' : Nat} (hid : f.Listed id b pos)
    (hid' : f.Listed id b' pos') : b' = b ∧ pos' = pos := by
  obtain ⟨inst, hinst, hblock⟩ := hf.home id b pos hid
  obtain ⟨inst', hinst', hblock'⟩ := hf.home id b' pos' hid'
  obtain rfl : inst = inst' := Except.ok.inj (hinst.symm.trans hinst')
  obtain rfl : b = b' := Option.some.inj (hblock.symm.trans hblock')
  obtain ⟨hb, blk, hblk, hpos⟩ := hid
  obtain ⟨-, blk', hblk', hpos'⟩ := hid'
  obtain rfl : blk = blk' := Except.ok.inj (hblk.symm.trans hblk')
  obtain ⟨hlt, hget⟩ := List.getElem?_eq_some_iff.mp hpos
  obtain ⟨hlt', hget'⟩ := List.getElem?_eq_some_iff.mp hpos'
  exact ⟨rfl, (hf.nodup b hb blk hblk).getElem_inj_iff.mp (hget'.trans hget.symm)⟩

/-- What leads the block of a tidy function can be told, as all its kinds can. -/
theorem leading_eq_ok (holds : InstKind → Bool) {ids : List InstId}
    (hids : ∀ id ∈ ids, ∃ kind, f.kind id = .ok kind) :
    ∃ front, f.leading holds ids = .ok front := by
  induction ids with
  | nil => exact ⟨[], rfl⟩
  | cons id rest ih =>
    obtain ⟨kind, hkind⟩ := hids id List.mem_cons_self
    obtain ⟨front, hfront⟩ := ih fun i hi => hids i (List.mem_cons_of_mem _ hi)
    rw [leading, hkind]
    simp only [bind, Except.bind, hfront]
    split
    · exact ⟨_, rfl⟩
    · exact ⟨_, rfl⟩

theorem phis_eq_ok (hf : f.Tidy) (hb : b ∈ f.layout) :
    ∃ blk phis, f.block b = .ok blk ∧ f.phis b = .ok phis := by
  obtain ⟨blk, hblk⟩ : ∃ blk, f.block b = .ok blk :=
    ⟨_, block_eq_ok.mpr (Array.getElem?_eq_getElem (hf.closed.inArena b hb))⟩
  obtain ⟨phis, hphis⟩ : ∃ phis, f.leading InstKind.isPhi blk.insts = .ok phis := by
    apply leading_eq_ok
    intro id hid
    obtain ⟨pos, hpos⟩ := List.mem_iff_getElem?.mp hid
    exact hf.exists_kind ⟨hb, blk, hblk, hpos⟩
  exact ⟨blk, phis, hblk, Checked.bind_eq_ok.mpr ⟨blk, hblk, hphis⟩⟩

/-- The phis of a block are its first instructions, and no other one is a phi. -/
theorem insts_eq_append (hf : f.Tidy) (hb : b ∈ f.layout) {blk : Block} {phis : List InstId}
    (hblk : f.block b = .ok blk) (hphis : f.phis b = .ok phis) :
    ∃ rest, blk.insts = phis ++ rest ∧
      ∀ id ∈ rest, ∃ kind, f.kind id = .ok kind ∧ kind.isPhi = false := by
  obtain ⟨blk', hblk', hlead⟩ := Function.phis_eq_ok hphis
  obtain rfl : blk = blk' := Except.ok.inj (hblk.symm.trans hblk')
  obtain ⟨rest, hinsts, -, hfirst⟩ := Function.leading_eq_ok hlead
  refine ⟨rest, hinsts, fun id hid => ?_⟩
  obtain ⟨pos, hpos⟩ := List.mem_iff_getElem?.mp hid
  have hlisted : f.Listed id b (phis.length + pos) :=
    ⟨hb, blk, hblk, by rw [hinsts, List.getElem?_append_right (by omega), Nat.add_sub_cancel_left,
      hpos]⟩
  obtain ⟨kind, hkind⟩ := hf.exists_kind hlisted
  refine ⟨kind, hkind, Bool.eq_false_iff.mpr fun hphi => ?_⟩
  cases kind with
  | phi ty incoming =>
    cases rest with
    | nil => cases hid
    | cons first rest =>
      obtain ⟨kind, hfirstKind, hnot⟩ := hfirst first rfl
      have hlead : f.Listed first b phis.length := ⟨hb, blk, hblk, by rw [hinsts]; simp⟩
      obtain hzero | hsucc := Nat.eq_zero_or_pos pos
      · subst hzero
        obtain rfl : first = id := by simpa using hpos
        obtain rfl : kind = .phi ty incoming := Except.ok.inj (hfirstKind.symm.trans hkind)
        cases hnot
      · obtain ⟨ty', incoming', hphi'⟩ := hf.phisLead id b _ ty incoming hlisted hkind phis.length
          (by omega) first hlead
        obtain rfl : kind = .phi ty' incoming' := Except.ok.inj (hfirstKind.symm.trans hphi')
        cases hnot
  | _ => cases hphi

/-- Behind an instruction that is not a phi there is no phi. -/
theorem not_phi_after (hf : f.Tidy) {id' : InstId} {pos' : Nat} {kind kind' : InstKind}
    (hid : f.Listed id b pos) (hkind : f.kind id = .ok kind) (hnot : kind.isPhi = false)
    (hid' : f.Listed id' b pos') (hkind' : f.kind id' = .ok kind') (hlt : pos < pos') :
    kind'.isPhi = false := by
  rw [Bool.eq_false_iff]
  intro hphi
  cases kind' with
  | phi ty incoming =>
    obtain ⟨ty', incoming', hphi'⟩ := hf.phisLead id' b pos' ty incoming hid' hkind' pos hlt id hid
    obtain rfl := Except.ok.inj (hkind.symm.trans hphi')
    cases hnot
  | _ => cases hphi

theorem mem_phis (hf : f.Tidy) (hid : f.Listed id b pos)
    (hkind : f.kind id = .ok (.phi ty incoming)) {phis : List InstId}
    (hphis : f.phis b = .ok phis) : id ∈ phis := by
  obtain ⟨hb, blk, hblk, hpos⟩ := hid
  obtain ⟨rest, hinsts, hrest⟩ := hf.insts_eq_append hb hblk hphis
  obtain hmem | hmem := List.mem_append.mp (hinsts ▸ List.mem_of_getElem? hpos)
  · exact hmem
  · obtain ⟨kind, hkind', hnot⟩ := hrest id hmem
    obtain rfl : kind = .phi ty incoming := Except.ok.inj (hkind'.symm.trans hkind)
    cases hnot

end Function.Tidy

namespace Module

variable {m : Module} {id : FuncId} {f f' : Function}

/-- The records of all functions agree. -/
def Tidy (m : Module) : Prop :=
  ∀ id f, m.function id = .ok f → f.Tidy

/-- No function lists an instruction twice. -/
def ListsOnce (m : Module) : Prop :=
  ∀ id f, m.function id = .ok f → ∀ ids, f.liveInsts = .ok ids → ids.Nodup

theorem Accepted.tidy (hm : m.Accepted) (honce : m.ListsOnce) : m.Tidy := by
  intro id f hid
  cases hbody : f.isDeclaration with
  | false => exact (hm.wellFormed hid hbody).tidy (honce id f hid)
  | true =>
    have hnone : ∀ b, b ∉ f.layout := by
      rw [List.isEmpty_iff.mp hbody]
      exact fun _ => List.not_mem_nil
    exact {
      closed := ⟨fun b hb => absurd hb (hnone b), fun a ha => absurd ha (hnone a)⟩
      home := fun _ b _ hi => absurd hi.1 (hnone b)
      nodup := fun b hb => absurd hb (hnone b)
      operands := fun _ b _ _ hi => absurd hi.1 (hnone b)
      termOperands := fun b hb => absurd hb (hnone b)
      sources := fun _ b _ _ _ hi => absurd hi.1 (hnone b)
      phisLead := fun _ b _ _ _ hi => absurd hi.1 (hnone b)
      entries := fun _ b _ _ _ hi => absurd hi.1 (hnone b) }

theorem Tidy.setFunction (hm : m.Tidy) (hid : m.function id = .ok f) (hf' : f'.Tidy) :
    (m.setFunction id f').Tidy := by
  intro i f₁ hi
  rw [function_setFunction (index_lt_of_function hid)] at hi
  split at hi
  · exact Except.ok.inj hi ▸ hf'
  · exact hm i f₁ hi

end Module

end EdgeProbe
