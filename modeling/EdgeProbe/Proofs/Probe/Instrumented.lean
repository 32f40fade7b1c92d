import EdgeProbe.Proofs.Probe.Placed

/-!
# What instrumented functions look like

Probes are placed one after another, each in what the ones before have made of the function.
`Instrumented` tells what all of them make of it in terms of the function from before: behind what
leads a block stands the code of the probes that were put into it, edges with a probe of their own
lead through its block, and everything else is as it was. `Labelled` tells what blocks are called,
`Placing` which probes stand already and which are to come. Main statements: `Instrumented.placed` and
`Placing.all`.
-/

namespace EdgeProbe

namespace Terminator

/-- The terminator whose edges lead to these blocks, where there are any. -/
def redirect (through : Nat → Option BlockId) : Terminator → Terminator
  | .br target => .br ((through 0).getD target)
  | .condBr cond onTrue onFalse =>
    .condBr cond ((through 0).getD onTrue) ((through 1).getD onFalse)
  | .switch value default cases =>
    .switch value ((through 0).getD default)
      (cases.mapIdx fun k case => (case.1, (through (k + 1)).getD case.2))
  | .invoke callee args normal unwind =>
    .invoke callee args ((through 0).getD normal) ((through 1).getD unwind)
  | term => term

theorem successors_redirect (through : Nat → Option BlockId) (term : Terminator) :
    (term.redirect through).successors =
      term.successors.mapIdx fun index target => (through index).getD target := by
  cases term with
  | switch value default cases =>
    simp only [redirect, successors, List.mapIdx_cons, List.cons.injEq, true_and]
    apply List.ext_getElem?
    intro i
    simp only [List.getElem?_map, List.getElem?_mapIdx, Option.map_map]
    rfl
  | _ => rfl

@[simp] theorem redirect_none (term : Terminator) : term.redirect (fun _ => none) = term := by
  cases term with
  | switch value default cases =>
    simp only [redirect, Option.getD_none, switch.injEq, true_and]
    apply List.ext_getElem?
    intro i
    simp [List.getElem?_mapIdx]
  | _ => rfl

/-- Leading one more edge elsewhere adds it to those that lead elsewhere. -/
theorem setSuccessor_redirect (through : Nat → Option BlockId) (term : Terminator) (index : Nat)
    (block : BlockId) : (term.redirect through).setSuccessor index block =
      term.redirect fun j => if j = index then some block else through j := by
  cases term with
  | switch value default cases =>
    cases index with
    | zero => simp [redirect, setSuccessor]
    | succ k =>
      simp only [redirect, setSuccessor, switch.injEq, true_and]
      refine ⟨by simp, ?_⟩
      apply List.ext_getElem?
      intro i
      simp only [List.getElem?_modify, List.getElem?_mapIdx, Nat.add_right_cancel_iff]
      by_cases hi : i = k
      · subst hi
        cases cases[i]? <;> simp
      · cases cases[i]? <;> simp [hi, Ne.symm hi]
  | br target => cases index <;> simp [redirect, setSuccessor]
  | condBr cond onTrue onFalse | invoke callee args onTrue onFalse =>
    rcases index with _ | _ | index <;> simp [redirect, setSuccessor]
  | ret value | resume value | unreachable => rfl

end Terminator

/-- The site is an edge. -/
def ProbeSite.IsEdge (site : ProbeSite) : Prop :=
  ∃ function block index, site = .edge function block index

/-- A probe that has been placed. -/
structure Stand where
  planned : PlannedProbe
  /-- The block that lists its code. -/
  block : BlockId
  /-- The index of the first instruction of its code. -/
  first : Nat
  /-- The edge that leads through the block, if that is there for this probe only. -/
  edge : Option (BlockId × Nat)

namespace Stand

variable (hooks : Hooks)

def code (s : Stand) : List InstKind :=
  hooks.probeCode s.first s.planned.id s.planned.slot

/-- The instructions of its code. -/
def ids (s : Stand) : List InstId :=
  (List.range (s.code hooks).length).map fun k => ⟨s.first + k⟩

/-- The block that an edge has been led through. -/
def through : List Stand → BlockId → Nat → Option BlockId
  | [], _, _ => none
  | s :: rest, b, index => if s.edge = some (b, index) then some s.block else through rest b index

/-- What probes have put into a block. The last one stands first. -/
def idsIn (stands : List Stand) (b : BlockId) : List InstId :=
  (stands.filter fun s => s.block == b).flatMap (ids hooks)

variable {hooks} {s : Stand} {stands : List Stand} {b : BlockId} {id : InstId}

theorem mem_ids : id ∈ s.ids hooks ↔
    ∃ k kind, (s.code hooks)[k]? = some kind ∧ id = ⟨s.first + k⟩ := by
  simp only [ids, List.mem_map, List.mem_range]
  constructor
  · rintro ⟨k, hk, rfl⟩
    exact ⟨k, _, List.getElem?_eq_getElem hk, rfl⟩
  · rintro ⟨k, kind, hk, rfl⟩
    exact ⟨k, (List.getElem?_eq_some_iff.mp hk).1, rfl⟩

theorem mem_idsIn : id ∈ idsIn hooks stands b ↔ ∃ s ∈ stands, s.block = b ∧ id ∈ s.ids hooks := by
  simp [idsIn, and_assoc]

theorem idsIn_cons_self :
    idsIn hooks (s :: stands) s.block = s.ids hooks ++ idsIn hooks stands s.block := by
  simp [idsIn]

theorem idsIn_cons_of_ne (hne : s.block ≠ b) : idsIn hooks (s :: stands) b = idsIn hooks stands b := by
  simp [idsIn, hne]

theorem exists_of_through {index : Nat} {block : BlockId} (h : through stands b index = some block) :
    ∃ s ∈ stands, s.edge = some (b, index) ∧ s.block = block := by
  induction stands with
  | nil => cases h
  | cons s rest ih =>
    rw [through] at h
    split at h
    · next hedge => exact ⟨s, List.mem_cons_self, hedge, Option.some.inj h⟩
    · obtain ⟨t, ht, hedge⟩ := ih h
      exact ⟨t, List.mem_cons_of_mem _ ht, hedge⟩

theorem through_eq_none {index : Nat} (h : ∀ s ∈ stands, s.edge ≠ some (b, index)) :
    through stands b index = none :=
  Option.eq_none_iff_forall_ne_some.mpr fun block hblock => by
    obtain ⟨s, hs, hedge, -⟩ := exists_of_through hblock
    exact h s hs hedge

theorem through_cons_of_inPlace (h : s.edge = none) : through (s :: stands) = through stands := by
  funext b index
  rw [through, h, if_neg nofun]

end Stand

namespace Function

variable {hooks : Hooks} {f f₁ f₂ : Function} {s : Stand} {stands : List Stand}

/-- A probe stands where it is to: at the entry, in the target of the only edge there, or in a block
on its edge. -/
inductive Serves (f : Function) (s : Stand) : ProbeSite → Prop
  | entry {function : FuncId} (hentry : f.entryBlock? = some s.block) (hedge : s.edge = none) :
    Serves f s (.entry function)
  | target {function : FuncId} {block : BlockId} {index : Nat} {succs : List BlockId}
    (hsuccs : f.successors block = .ok succs) (hindex : succs[index]? = some s.block)
    (hedge : s.edge = none)
    (hsole : ∀ a ∈ f.layout, ∀ others j, f.successors a = .ok others → others[j]? = some s.block →
      a = block ∧ j = index) : Serves f s (.edge function block index)
  | edge {function : FuncId} {block : BlockId} {index : Nat} (hedge : s.edge = some (block, index)) :
    Serves f s (.edge function block index)

/-- The site is one of the function. -/
def Fits (f : Function) : ProbeSite → Prop
  | .entry _ => f.entryBlock? ≠ none
  | .edge _ block index => block ∈ f.layout ∧
    ∃ succs target, f.successors block = .ok succs ∧ succs[index]? = some target

theorem Serves.eq_of_edge {site : ProbeSite} {block : BlockId} {index : Nat} (h : f.Serves s site)
    (hedge : s.edge = some (block, index)) : ∃ function, site = .edge function block index := by
  cases h with
  | entry _ hnone | target _ _ hnone => cases hnone.symm.trans hedge
  | @edge function _ _ hsome =>
    obtain ⟨rfl, rfl⟩ := Prod.mk.inj (Option.some.inj (hsome.symm.trans hedge))
    exact ⟨function, rfl⟩

/-- Probes have been placed in a function. The last one comes first. -/
structure Instrumented (hooks : Hooks) (f : Function) (stands : List Stand) (f' : Function) : Prop
    extends f'.Framed where
  header : f.SameHeader f'
  annotations : f'.annotations = f.annotations
  sizeBlocks : f.blocks.size ≤ f'.blocks.size
  sizeInsts : f.insts.size ≤ f'.insts.size
  live : ∀ b, b ∈ f'.layout ↔ b ∈ f.layout ∨ ∃ s ∈ stands, s.edge ≠ none ∧ s.block = b
  old : ∀ b blk pos, f.block b = .ok blk → f.firstInsertionPoint b = .ok pos → ∃ name, f'.block b =
    .ok ⟨name, blk.insts.take pos ++ Stand.idsIn hooks stands b ++ blk.insts.drop pos,
      blk.term.redirect (Stand.through stands b)⟩
  new : ∀ s ∈ stands, ∀ b index, s.edge = some (b, index) → f.blocks.size ≤ s.block.index ∧
    ∃ name succs target, f.successors b = .ok succs ∧ succs[index]? = some target ∧
      f'.block s.block = .ok ⟨name, s.ids hooks, .br target⟩
  insts : ∀ i inst, f.inst i = .ok inst → ∃ kind, f'.inst i = .ok { inst with kind } ∧
    kind.isPhi = inst.kind.isPhi ∧ (inst.kind.isPhi = false → kind = inst.kind)
  code : ∀ s ∈ stands, ∀ (k : Nat) kind, (s.code hooks)[k]? = some kind →
    f'.kind ⟨s.first + k⟩ = .ok kind
  apart : stands.Pairwise fun later earlier =>
    earlier.first + (earlier.code hooks).length ≤ later.first
  bounds : ∀ s ∈ stands, f.insts.size ≤ s.first ∧
    s.first + (s.code hooks).length ≤ f'.insts.size
  serves : ∀ s ∈ stands, f.Serves s s.planned.site

theorem name_of_withInsts {b c : BlockId} {pos : Nat} {kinds : List InstKind} {blk' : Block}
    (h : (f.withInsts b pos kinds).block c = .ok blk') :
    ∃ blk, f.block c = .ok blk ∧ blk'.name = blk.name := by
  rw [block_withInsts] at h
  split at h
  · obtain ⟨blk, hblk, rfl⟩ := Checked.map_eq_ok.mp h
    exact ⟨blk, hblk, rfl⟩
  · exact ⟨blk', h, rfl⟩

/-- Blocks are called what they were, but for those that stand for an edge, which are named for
that. -/
structure Labelled (f : Function) (stands : List Stand) (f' : Function) : Prop where
  kept : ∀ b blk blk', f.block b = .ok blk → f'.block b = .ok blk' →
    (∀ s ∈ stands, s.planned.site.IsEdge → s.block ≠ b) → blk'.name = blk.name
  marked : ∀ s ∈ stands, s.planned.site.IsEdge → ∀ blk', f'.block s.block = .ok blk' →
    Text.contains blk'.name Symbol.probeBlock = true

theorem Labelled.refl (f : Function) : f.Labelled [] f where
  kept := fun _ _ _ hblk hblk' _ => congrArg Block.name (Except.ok.inj (hblk'.symm.trans hblk))
  marked := by simp

/-- A block that stands for one more edge is named for that, and the others keep their names. -/
theorem Labelled.cons (h : f.Labelled stands f₁) (hsize : f.blocks.size ≤ f₁.blocks.size)
    (hheld : ∀ t ∈ stands, t.planned.site.IsEdge → t.block.index < f₁.blocks.size)
    (hkept : ∀ b blk₁ blk₂, f₁.block b = .ok blk₁ → f₂.block b = .ok blk₂ →
      (s.planned.site.IsEdge → s.block ≠ b) → blk₂.name = blk₁.name)
    (hmarked : s.planned.site.IsEdge → ∀ blk, f₂.block s.block = .ok blk →
      Text.contains blk.name Symbol.probeBlock = true) : f.Labelled (s :: stands) f₂ where
  kept := fun b blk blk₂ hblk hblk₂ hnot => by
    obtain ⟨hfirst, hrest⟩ := List.forall_mem_cons.mp hnot
    obtain ⟨blk₁, hblk₁⟩ := exists_block ((index_lt_of_block hblk).trans_le hsize)
    exact (hkept b blk₁ blk₂ hblk₁ hblk₂ hfirst).trans (h.kept b blk blk₁ hblk hblk₁ hrest)
  marked := by
    refine List.forall_mem_cons.mpr ⟨hmarked, fun t ht hedge blk₂ hblk₂ => ?_⟩
    by_cases hsame : s.planned.site.IsEdge ∧ s.block = t.block
    · exact hmarked hsame.1 blk₂ (hsame.2 ▸ hblk₂)
    · obtain ⟨blk₁, hblk₁⟩ := exists_block (hheld t ht hedge)
      rw [hkept t.block blk₁ blk₂ hblk₁ hblk₂ fun hs heq => hsame ⟨hs, heq⟩]
      exact h.marked t ht hedge blk₁ hblk₁

/-- How one more probe has come in: its code stands in a block that was there, or in a new one on an
edge, which the phis of the target know. -/
inductive Joined (hooks : Hooks) (f₁ : Function) (s : Stand) (f₂ : Function) : Prop
  | inPlace (hedge : s.edge = none)
    (hkinds : ∀ i kind, f₁.kind i = .ok kind → f₂.kind i = .ok kind) : Joined hooks f₁ s f₂
  | onEdge {block target : BlockId} {index : Nat} (hedge : s.edge = some (block, index))
    (hblock : s.block = ⟨f₁.blocks.size⟩)
    (h : f₁.Rerouted block index target (hooks.probeCode f₁.insts.size s.planned.id s.planned.slot)
      f₂) : Joined hooks f₁ s f₂

/-- Every block has a place behind what leads it. -/
theorem Whole.exists_firstInsertionPoint (hf : f.Whole) {b : BlockId} {blk : Block}
    (hblk : f.block b = .ok blk) : ∃ pos, f.firstInsertionPoint b = .ok pos := by
  obtain ⟨front, hfront⟩ := Tidy.leading_eq_ok (fun kind => kind.isPhi || kind.isLandingPad)
    fun id hid => exists_kind (hf.insts b blk hblk id hid)
  exact ⟨front.length, Checked.bind_eq_ok.mpr
    ⟨blk, hblk, Checked.bind_eq_ok.mpr ⟨front, hfront, rfl⟩⟩⟩

namespace Instrumented

theorem refl (hooks : Hooks) (hf : f.Framed) : Instrumented hooks f [] f where
  toFramed := hf
  header := .refl f
  annotations := rfl
  sizeBlocks := le_rfl
  sizeInsts := le_rfl
  live := fun b => by simp
  old := fun b blk pos hblk _ => ⟨blk.name, by
    have hthrough : Stand.through [] b = fun _ => none := rfl
    rw [hthrough, Terminator.redirect_none, hblk]
    simp [Stand.idsIn]⟩
  new := by simp
  insts := fun i inst hinst => ⟨inst.kind, hinst, rfl, fun _ => rfl⟩
  code := by simp
  apart := .nil
  bounds := by simp
  serves := by simp

variable (h : Instrumented hooks f stands f₁)
include h

/-- What an instruction was it is, unless that is a phi. -/
theorem kind_eq {i : InstId} {kind : InstKind} (hkind : f.kind i = .ok kind)
    (hnot : kind.isPhi = false) : f₁.kind i = .ok kind := by
  obtain ⟨inst, hinst, rfl⟩ := kind_eq_ok.mp hkind
  obtain ⟨kind', hinst', -, hsame⟩ := h.insts i inst hinst
  exact kind_eq_ok.mpr ⟨_, hinst', hsame hnot⟩

/-- What leads a block leads it still. -/
theorem leads_congr {i : InstId} {kind : InstKind} (hkind : f.kind i = .ok kind) :
    ∃ kind', f₁.kind i = .ok kind' ∧ kind'.isPhi = kind.isPhi ∧
      kind'.isLandingPad = kind.isLandingPad := by
  obtain ⟨inst, hinst, rfl⟩ := kind_eq_ok.mp hkind
  obtain ⟨kind', hinst', hphi, hsame⟩ := h.insts i inst hinst
  refine ⟨kind', kind_eq_ok.mpr ⟨_, hinst', rfl⟩, hphi, ?_⟩
  cases hcase : inst.kind.isPhi with
  | false => rw [hsame hcase]
  | true =>
    rw [hcase] at hphi
    cases hkind' : kind' with
    | phi => cases hkind₀ : inst.kind with
      | phi => rfl
      | _ => rw [hkind₀] at hcase; cases hcase
    | _ => rw [hkind'] at hphi; cases hphi

theorem kind_of_mem_idsIn {b : BlockId} {id : InstId} (hid : id ∈ Stand.idsIn hooks stands b) :
    ∃ kind, f₁.kind id = .ok kind ∧ kind.isPhi = false ∧ kind.isLandingPad = false := by
  obtain ⟨s, hs, -, hid⟩ := Stand.mem_idsIn.mp hid
  obtain ⟨k, kind, hk, rfl⟩ := Stand.mem_ids.mp hid
  exact ⟨kind, h.code s hs k kind hk, Hooks.plain_of_mem_probeCode (List.mem_of_getElem? hk)⟩

/-- Code goes where it went before any probe was placed. -/
theorem firstInsertionPoint_eq {b : BlockId} {pos : Nat} (hpos : f.firstInsertionPoint b = .ok pos) :
    f₁.firstInsertionPoint b = .ok pos := by
  obtain ⟨blk, hblk, hle, hlead⟩ := Function.firstInsertionPoint_eq_ok hpos
  obtain ⟨name, hblk₁⟩ := h.old b blk pos hblk hpos
  obtain ⟨back, hinsts, hall, hback⟩ := Function.leading_eq_ok hlead
  obtain rfl : back = blk.insts.drop pos :=
    List.append_cancel_left (hinsts.symm.trans (List.take_append_drop pos blk.insts).symm)
  have hfront : f₁.leading (fun kind => kind.isPhi || kind.isLandingPad) (blk.insts.take pos) =
      .ok (blk.insts.take pos) := by
    refine leading_congr (fun id _ kind hkind => ?_) (List.append_nil (blk.insts.take pos) ▸
      leading_append hall (by simp))
    obtain ⟨kind', hkind', hphi, hpad⟩ := h.leads_congr hkind
    exact ⟨kind', hkind', by rw [hphi, hpad]⟩
  refine Checked.bind_eq_ok.mpr ⟨_, hblk₁, Checked.bind_eq_ok.mpr ⟨blk.insts.take pos, ?_, by
    simp [hle, pure, Except.pure]⟩⟩
  dsimp only
  rw [List.append_assoc]
  cases hrest : Stand.idsIn hooks stands b ++ blk.insts.drop pos with
  | nil => rwa [List.append_nil]
  | cons id rest =>
    -- The first one behind is one of a probe or the one that was first before.
    have hid : ∃ kind, f₁.kind id = .ok kind ∧ (kind.isPhi || kind.isLandingPad) = false := by
      cases hcodes : Stand.idsIn hooks stands b with
      | nil =>
        rw [hcodes, List.nil_append] at hrest
        obtain ⟨kind, hkind, hnot⟩ := hback id (by rw [hrest]; rfl)
        obtain ⟨kind', hkind', hphi, hpad⟩ := h.leads_congr hkind
        exact ⟨kind', hkind', by rw [hphi, hpad, hnot]⟩
      | cons first others =>
        rw [hcodes] at hrest
        obtain ⟨rfl, -⟩ := List.cons.inj hrest
        obtain ⟨kind, hkind, hphi, hpad⟩ :=
          h.kind_of_mem_idsIn (hcodes ▸ List.mem_cons_self : first ∈ Stand.idsIn hooks stands b)
        exact ⟨kind, hkind, by rw [hphi, hpad]; rfl⟩
    obtain ⟨kind, hkind, hnot⟩ := hid
    exact leading_append_of_not hkind hnot hfront

/-- A probe is put into a block. -/
theorem withInsts {pos : Nat} (hfirst : s.first = f₁.insts.size) (hedge : s.edge = none)
    (hpos : f.firstInsertionPoint s.block = .ok pos) (hserves : f.Serves s s.planned.site) :
    Instrumented hooks f (s :: stands) (f₁.withInsts s.block pos (s.code hooks)) where
  header := h.header.trans ⟨_, f₁.layout, _, f₁.annotations, rfl⟩
  annotations := h.annotations
  whole := h.whole.withInsts _ _ _
  inArena := by simpa using h.inArena
  nodup := h.nodup
  sizeBlocks := by simpa using h.sizeBlocks
  sizeInsts := by
    rw [size_insts_withInsts]
    exact h.sizeInsts.trans (Nat.le_add_right _ _)
  live := fun b => by simp [h.live, hedge]
  old := fun b blk pos' hblk hpos' => by
    obtain ⟨name, hblk₁⟩ := h.old b blk pos' hblk hpos'
    refine ⟨name, ?_⟩
    rw [Stand.through_cons_of_inPlace hedge, block_withInsts, hblk₁]
    split
    · next heq =>
      subst heq
      obtain rfl := Except.ok.inj (hpos.symm.trans hpos')
      obtain ⟨blk', hblk', hle, -⟩ := firstInsertionPoint_eq_ok hpos
      obtain rfl := Except.ok.inj (hblk.symm.trans hblk')
      have hids : f₁.nextIds (s.code hooks).length = s.ids hooks := by
        rw [nextIds, Stand.ids, hfirst]
      have hlength : (blk.insts.take pos).length = pos := List.length_take_of_le hle
      rw [Stand.idsIn_cons_self, hids]
      simp only [Except.map, List.append_assoc, List.take_left' hlength, List.drop_left' hlength]
    · next hne => rw [Stand.idsIn_cons_of_ne (Ne.symm hne)]
  new := by
    obtain ⟨blk, hblk, -⟩ := firstInsertionPoint_eq_ok hpos
    refine List.forall_mem_cons.mpr ⟨fun b index hsome => ?_, fun t ht b index hsome => ?_⟩
    · cases hedge.symm.trans hsome
    · obtain ⟨hle, name, succs, target, hsuccs, hindex, hblk'⟩ := h.new t ht b index hsome
      refine ⟨hle, name, succs, target, hsuccs, hindex, ?_⟩
      have hne : t.block ≠ s.block := fun heq =>
        absurd (heq ▸ index_lt_of_block hblk) (Nat.not_lt.mpr hle)
      rw [block_withInsts, if_neg hne, hblk']
  insts := fun i inst hinst => by
    rw [inst_withInsts_of_lt _ _ _ _ ((index_lt_of_inst hinst).trans_le h.sizeInsts)]
    exact h.insts i inst hinst
  code := by
    refine List.forall_mem_cons.mpr ⟨fun k kind hk => ?_, fun t ht k kind hk => ?_⟩
    · rw [hfirst]
      exact kind_withInsts_new hk
    · have hlt := (List.getElem?_eq_some_iff.mp hk).1
      have hle := (h.bounds t ht).2
      rw [kind_withInsts_of_lt _ _ _ _ (by dsimp only; omega)]
      exact h.code t ht k kind hk
  apart := List.pairwise_cons.mpr ⟨fun t ht => hfirst ▸ (h.bounds t ht).2, h.apart⟩
  bounds := by
    rw [size_insts_withInsts]
    refine List.forall_mem_cons.mpr ⟨⟨hfirst ▸ h.sizeInsts, by rw [hfirst]⟩, fun t ht => ?_⟩
    obtain ⟨hle, hle'⟩ := h.bounds t ht
    exact ⟨hle, hle'.trans (Nat.le_add_right _ _)⟩
  serves := List.forall_mem_cons.mpr ⟨hserves, h.serves⟩

theorem withName (b : BlockId) (hb : b.index < f.blocks.size) (name : String) :
    Instrumented hooks f stands (f₁.withBlock b fun b => { b with name }) where
  header := h.header.trans ⟨_, f₁.layout, f₁.insts, f₁.annotations, rfl⟩
  annotations := h.annotations
  whole := h.whole.withName b name
  inArena := by simpa using h.inArena
  nodup := h.nodup
  sizeBlocks := by simpa using h.sizeBlocks
  sizeInsts := h.sizeInsts
  live := h.live
  old := fun c blk pos hblk hpos => by
    obtain ⟨name', hblk₁⟩ := h.old c blk pos hblk hpos
    rw [block_withBlock, hblk₁]
    split
    · exact ⟨name, rfl⟩
    · exact ⟨name', rfl⟩
  new := fun s hs c index hedge => by
    obtain ⟨hle, name', succs, target, hsuccs, hindex, hblk⟩ := h.new s hs c index hedge
    refine ⟨hle, name', succs, target, hsuccs, hindex, ?_⟩
    have hne : s.block ≠ b := by
      rintro rfl
      omega
    rw [block_withBlock, if_neg hne, hblk]
  insts := h.insts
  code := h.code
  apart := h.apart
  bounds := h.bounds
  serves := h.serves

/-- A probe is put on an edge. -/
theorem rerouted {b target : BlockId} {index : Nat} (hfirst : s.first = f₁.insts.size)
    (hblock : s.block = ⟨f₁.blocks.size⟩) (hedge : s.edge = some (b, index))
    (hb : b.index < f.blocks.size) (hnone : Stand.through stands b index = none)
    (hroute : f₁.Rerouted b index target (s.code hooks) f₂) (hwhole : f.Whole)
    (hserves : f.Serves s s.planned.site) : Instrumented hooks f (s :: stands) f₂ where
  header := h.header.trans hroute.header
  annotations := hroute.annotations.trans h.annotations
  toFramed := hroute.framed h.toFramed
  sizeBlocks := by
    rw [hroute.size]
    exact h.sizeBlocks.trans (Nat.le_succ _)
  sizeInsts := by
    rw [hroute.sizeInsts]
    exact h.sizeInsts.trans (Nat.le_add_right _ _)
  live := fun c => by
    rw [hroute.mem_layout, h.live]
    simp only [List.mem_cons, exists_eq_or_imp, hedge, hblock]
    simp only [ne_eq, reduceCtorEq, not_false_eq_true, true_and]
    tauto
  old := fun c blk pos hblk hpos => by
    obtain ⟨name, hblk₁⟩ := h.old c blk pos hblk hpos
    have hlt := index_lt_of_block hblk
    have hne : s.block ≠ c := by
      rintro rfl
      rw [hblock] at hlt
      exact absurd hlt (Nat.not_lt.mpr h.sizeBlocks)
    refine ⟨name, ?_⟩
    rw [Stand.idsIn_cons_of_ne hne]
    by_cases hc : c = b
    · subst hc
      obtain ⟨blk', hblk', -, hblk₂⟩ := hroute.source
      obtain rfl := Except.ok.inj (hblk₁.symm.trans hblk')
      rw [hblk₂, Terminator.setSuccessor_redirect, ← hblock]
      congr 3
      funext j
      simp only [Stand.through, hedge, Option.some.injEq, Prod.mk.injEq, true_and, eq_comm]
    · have hthrough : Stand.through (s :: stands) c = Stand.through stands c := by
        funext j
        rw [Stand.through, hedge, if_neg]
        rintro heq
        exact hc (Prod.mk.inj (Option.some.inj heq)).1.symm
      have hold : c.index ≠ f₁.blocks.size := (hlt.trans_le h.sizeBlocks).ne
      rw [hthrough, hroute.rest c hc hold, hblk₁]
  new := by
    refine List.forall_mem_cons.mpr ⟨fun c j hsome => ?_, fun t ht c j hsome => ?_⟩
    · obtain ⟨rfl, rfl⟩ := Prod.mk.inj (Option.some.inj (hedge.symm.trans hsome))
      obtain ⟨name, hnew⟩ := hroute.new
      obtain ⟨blk, hblk⟩ := exists_block hb
      obtain ⟨pos, hpos⟩ := hwhole.exists_firstInsertionPoint hblk
      obtain ⟨name', hblk₁⟩ := h.old b blk pos hblk hpos
      obtain ⟨blk', hblk', hindex, -⟩ := hroute.source
      obtain rfl := Except.ok.inj (hblk₁.symm.trans hblk')
      dsimp only at hindex
      rw [Terminator.successors_redirect, List.getElem?_mapIdx] at hindex
      obtain ⟨old, hold, hsame⟩ := Option.map_eq_some_iff.mp hindex
      rw [hnone, Option.getD_none] at hsame
      subst hsame
      refine ⟨by rw [hblock]; exact h.sizeBlocks, name, _, old, successors_of_block hblk, hold, ?_⟩
      rw [hblock, hnew, nextIds, Stand.ids, hfirst]
    · obtain ⟨hle, name, succs, target', hsuccs, hindex, hblk⟩ := h.new t ht c j hsome
      refine ⟨hle, name, succs, target', hsuccs, hindex, ?_⟩
      have hne : t.block ≠ b := by
        rintro rfl
        omega
      rw [hroute.rest t.block hne (index_lt_of_block hblk).ne, hblk]
  insts := fun i inst hinst => by
    obtain ⟨kind₁, hinst₁, hphi₁, hsame₁⟩ := h.insts i inst hinst
    obtain ⟨kind₂, hinst₂, hphi₂, -⟩ := hroute.insts i _ hinst₁
    refine ⟨kind₂, hinst₂, hphi₂.trans hphi₁, fun hnot => ?_⟩
    have hkept := hroute.inst_eq hinst₁ (hphi₁.trans hnot)
    exact (congrArg Inst.kind (Except.ok.inj (hinst₂.symm.trans hkept))).trans (hsame₁ hnot)
  code := by
    refine List.forall_mem_cons.mpr ⟨fun k kind hk => ?_, fun t ht k kind hk => ?_⟩
    · obtain ⟨inst, hinst, hkind, -⟩ := hroute.added k kind hk
      exact kind_eq_ok.mpr ⟨inst, hfirst ▸ hinst, hkind⟩
    · obtain ⟨inst, hinst, rfl⟩ := kind_eq_ok.mp (h.code t ht k kind hk)
      have hplain := (Hooks.plain_of_mem_probeCode (List.mem_of_getElem? hk)).1
      exact kind_eq_ok.mpr ⟨inst, hroute.inst_eq hinst hplain, rfl⟩
  apart := List.pairwise_cons.mpr ⟨fun t ht => hfirst ▸ (h.bounds t ht).2, h.apart⟩
  bounds := by
    rw [hroute.sizeInsts]
    refine List.forall_mem_cons.mpr ⟨⟨hfirst ▸ h.sizeInsts, by rw [hfirst]⟩, fun t ht => ?_⟩
    obtain ⟨hle, hle'⟩ := h.bounds t ht
    exact ⟨hle, hle'.trans (Nat.le_add_right _ _)⟩
  serves := List.forall_mem_cons.mpr ⟨hserves, h.serves⟩

/-- Edges that have no probe of their own lead where they led. -/
theorem successors_eq (hwhole : f.Whole) {b : BlockId} {succs : List BlockId}
    (hsuccs : f.successors b = .ok succs) : f₁.successors b =
      .ok (succs.mapIdx fun index target => (Stand.through stands b index).getD target) := by
  obtain ⟨blk, hblk, rfl⟩ := Checked.map_eq_ok.mp hsuccs
  obtain ⟨pos, hpos⟩ := hwhole.exists_firstInsertionPoint hblk
  obtain ⟨name, hblk₁⟩ := h.old b blk pos hblk hpos
  rw [successors_of_block hblk₁, Terminator.successors_redirect]

/-- A block that has one edge into it had none but that. -/
theorem sole {block target : BlockId} {index : Nat} {succs : List BlockId} (hwhole : f.Whole)
    (hsuccs : f.successors block = .ok succs) (hindex : succs[index]? = some target)
    (hnone : Stand.through stands block index = none)
    (hpreds : f₁.predecessors target = .ok [block]) :
    ∀ a ∈ f.layout, ∀ others j, f.successors a = .ok others → others[j]? = some target →
      a = block ∧ j = index := by
  intro a ha others j hothers hj
  have hsource : (succs.mapIdx fun i old => (Stand.through stands block i).getD old)[index]? =
      some target := by
    rw [List.getElem?_mapIdx, hindex, Option.map_some, hnone, Option.getD_none]
  cases hthrough : Stand.through stands a j with
  | none =>
    refine eq_of_predecessors_singleton h.nodup hpreds ((h.live a).mpr (.inl ha))
      (h.successors_eq hwhole hothers) (h.successors_eq hwhole hsuccs) ?_ hsource
    rw [List.getElem?_mapIdx, hj, Option.map_some, hthrough, Option.getD_none]
  | some between =>
    -- Another edge would come through a block of its own, which is not the one from before.
    obtain ⟨s, hs, hedge, rfl⟩ := Stand.exists_of_through hthrough
    obtain ⟨hle, name, others', target', hothers', hj', hblk⟩ := h.new s hs a j hedge
    obtain rfl := Except.ok.inj (hothers.symm.trans hothers')
    obtain rfl := Option.some.inj (hj.symm.trans hj')
    have hlive : s.block ∈ f₁.layout :=
      (h.live s.block).mpr (.inr ⟨s, hs, by rw [hedge]; exact nofun, rfl⟩)
    have hmem : s.block ∈ [block] := (mem_edgesInto hpreds).mpr
      ⟨hlive, [target], successors_of_block hblk, List.mem_singleton_self _⟩
    obtain ⟨blk, hblk', -⟩ := Checked.map_eq_ok.mp hsuccs
    rw [List.mem_singleton.mp hmem] at hle
    exact absurd (index_lt_of_block hblk') (Nat.not_lt.mpr hle)

/-- The block of a probe on an edge is there. -/
theorem block_lt (hwhole : f.Whole) (hs : s ∈ stands) (hedge : s.planned.site.IsEdge) :
    s.block.index < f₁.blocks.size := by
  obtain ⟨function, block, index, hsite⟩ := hedge
  have hserves := h.serves s hs
  rw [hsite] at hserves
  cases hserves with
  | target hsuccs hindex =>
    exact (hwhole.successors_lt hsuccs (List.mem_of_getElem? hindex)).trans_le h.sizeBlocks
  | edge hedge =>
    obtain ⟨-, name, succs, target, -, -, hblk⟩ := h.new s hs block index hedge
    exact index_lt_of_block hblk

/-- What placing one more probe makes of it. -/
theorem placed {planned : PlannedProbe} (hwhole : f.Whole) (hfits : f.Fits planned.site)
    (hstart : ∀ function, planned.site = .entry function → f₁ = f)
    (hfresh : ∀ function block index, planned.site = .edge function block index →
      ∀ s ∈ stands, s.edge ≠ some (block, index)) (hlabels : f.Labelled stands f₁)
    (hstep : f₁.Placed hooks planned.id planned.slot planned.site f₂) :
    ∃ s : Stand, s.planned = planned ∧ Instrumented hooks f (s :: stands) f₂ ∧
      f.Labelled (s :: stands) f₂ ∧ f₁.Joined hooks s f₂ := by
  obtain ⟨site, id, slot⟩ := planned
  dsimp only at hfits hstart hfresh hstep
  have hheld : ∀ t ∈ stands, t.planned.site.IsEdge → t.block.index < f₁.blocks.size :=
    fun t ht => h.block_lt hwhole ht
  cases hstep with
  | @bodiless function hentry => exact absurd (hstart function rfl ▸ hentry) hfits
  | @entry function entry pos hentry hpos =>
    have hsame := hstart function rfl
    refine ⟨⟨⟨.entry function, id, slot⟩, entry, f₁.insts.size, none⟩, rfl,
      h.withInsts rfl rfl (hsame ▸ hpos) (.entry (hsame ▸ hentry) rfl), ?_,
      .inPlace rfl fun i kind hkind => ?_⟩
    swap
    · exact (kind_withInsts_of_lt f₁ entry pos _ (index_lt_of_kind hkind)).trans hkind
    refine hlabels.cons h.sizeBlocks hheld (fun b blk₁ blk₂ hblk₁ hblk₂ _ => ?_) ?_
    · obtain ⟨blk, hblk, hname⟩ := name_of_withInsts hblk₂
      rw [hname, Except.ok.inj (hblk.symm.trans hblk₁)]
    · rintro ⟨function', block, index, heq⟩
      cases heq
  | @missing function block index succs hsuccs hindex =>
    obtain ⟨-, old, target, hold, htarget⟩ := hfits
    obtain rfl := Except.ok.inj ((h.successors_eq hwhole hold).symm.trans hsuccs)
    rw [List.getElem?_mapIdx, htarget] at hindex
    cases hindex
  | @target function block target index pos succs hsuccs hindex hsole hpos name hmarked =>
    obtain ⟨-, old, target', hold, htarget⟩ := hfits
    have hnone := Stand.through_eq_none (hfresh function block index rfl)
    obtain rfl := Except.ok.inj ((h.successors_eq hwhole hold).symm.trans hsuccs)
    rw [List.getElem?_mapIdx, htarget, Option.map_some, hnone, Option.getD_none] at hindex
    obtain rfl := Option.some.inj hindex
    have hlt := hwhole.successors_lt hold (List.mem_of_getElem? htarget)
    obtain ⟨blk, hblk⟩ := exists_block hlt
    obtain ⟨pos', hpos'⟩ := hwhole.exists_firstInsertionPoint hblk
    obtain rfl := Except.ok.inj (hpos.symm.trans (h.firstInsertionPoint_eq hpos'))
    obtain ⟨sources, hsources⟩ := exists_edgesInto target' h.inArena
    obtain rfl := (singlePredecessor?_eq_some hsources).mp hsole
    refine ⟨⟨⟨.edge function block index, id, slot⟩, target', f₁.insts.size, none⟩, rfl,
      (h.withName target' hlt name).withInsts rfl rfl hpos'
        (.target hold htarget rfl (h.sole hwhole hold htarget hnone hsources)), ?_,
      .inPlace rfl fun i kind hkind => ?_⟩
    swap
    · exact (kind_withInsts_of_lt _ target' pos _ (index_lt_of_kind hkind)).trans hkind
    refine hlabels.cons h.sizeBlocks hheld (fun b blk₁ blk₂ hblk₁ hblk₂ hnot => ?_)
      fun _ blk₂ hblk₂ => ?_
    · obtain ⟨blk', hblk', hsame⟩ := name_of_withInsts hblk₂
      have hne : b ≠ target' := (hnot ⟨function, block, index, rfl⟩).symm
      rw [block_withBlock, if_neg hne] at hblk'
      rw [hsame, Except.ok.inj (hblk'.symm.trans hblk₁)]
    · obtain ⟨blk', hblk', hsame⟩ := name_of_withInsts hblk₂
      rw [block_withBlock, if_pos rfl] at hblk'
      obtain ⟨old', -, rfl⟩ := Checked.map_eq_ok.mp hblk'
      rw [hsame]
      exact hmarked
  | @edge function block target index f₃ _ hroute hmarked =>
    obtain ⟨-, old, target', hold, -⟩ := hfits
    obtain ⟨blk, hblk, -⟩ := Checked.map_eq_ok.mp hold
    refine ⟨⟨⟨.edge function block index, id, slot⟩, ⟨f₁.blocks.size⟩, f₁.insts.size,
      some (block, index)⟩, rfl, h.rerouted rfl rfl rfl (index_lt_of_block hblk)
        (Stand.through_eq_none (hfresh function block index rfl)) (hroute.withInsts _) hwhole
          (.edge rfl), ?_, .onEdge rfl rfl (hroute.withInsts _)⟩
    refine hlabels.cons h.sizeBlocks hheld (fun b blk₁ blk₂ hblk₁ hblk₂ _ => ?_)
      fun _ blk₂ hblk₂ => ?_
    · obtain ⟨blk', hblk', hsame⟩ := name_of_withInsts hblk₂
      obtain ⟨term, hblk'', -⟩ := hroute.block_of_old hblk₁
      rw [hsame, Except.ok.inj (hblk'.symm.trans hblk'')]
    · obtain ⟨blk', hblk', hsame⟩ := name_of_withInsts hblk₂
      rw [hsame]
      exact hmarked blk' hblk'

end Instrumented

end Function

/-! ## One probe after another -/

namespace Function

variable {hooks : Hooks} {function : FuncId} {f f₁ f₂ : Function} {stands : List Stand}
  {planned : PlannedProbe} {plan : List PlannedProbe}

/-- Some probes of a function stand, and those of the plan are still to come. Entries come first, so
that nothing has been changed when one is due. -/
structure Placing (hooks : Hooks) (function : FuncId) (f : Function) (plan : List PlannedProbe)
    (stands : List Stand) (f₁ : Function) : Prop where
  instrumented : f.Instrumented hooks stands f₁
  labelled : f.Labelled stands f₁
  framed : f.Framed
  fits : ∀ planned ∈ plan, f.Fits planned.site
  planned : ∀ planned ∈ plan, planned.site.function = function
  stood : ∀ s ∈ stands, s.planned.site.function = function
  held : ∀ s ∈ stands, f.Fits s.planned.site
  starts : ∀ planned ∈ plan, ∀ id, planned.site = .entry id → f₁ = f
  first : plan.Pairwise fun _ later => ∀ id, later.site ≠ .entry id
  distinct : (stands.map (·.planned.site) ++ plan.map (·.site)).Nodup

namespace Placing

theorem start (hf : f.Framed) (hfits : ∀ planned ∈ plan, f.Fits planned.site)
    (hfunction : ∀ planned ∈ plan, planned.site.function = function)
    (hfirst : plan.Pairwise fun _ later => ∀ id, later.site ≠ .entry id)
    (hdistinct : (plan.map (·.site)).Nodup) : f.Placing hooks function plan [] f where
  instrumented := .refl hooks hf
  labelled := .refl f
  framed := hf
  fits := hfits
  planned := hfunction
  stood := by simp
  held := by simp
  starts := fun _ _ _ _ => rfl
  first := hfirst
  distinct := by simpa using hdistinct

/-- No probe stands for an edge that is due. -/
theorem site_ne (h : f.Placing hooks function (planned :: plan) stands f₁) {s : Stand} (hs : s ∈ stands)
    {id id' : FuncId} {block : BlockId} {index : Nat}
    (hstood : s.planned.site = .edge id block index) : planned.site ≠ .edge id' block index := by
  intro hsite
  have hfunction := h.stood s hs
  have hplanned := h.planned planned List.mem_cons_self
  have hsame : s.planned.site = planned.site := by
    rw [hstood] at hfunction ⊢
    rw [hsite] at hplanned ⊢
    rw [show id = id' from hfunction.trans hplanned.symm]
  exact (List.nodup_append.mp h.distinct).2.2 _ (List.mem_map_of_mem hs) _ List.mem_cons_self hsame

theorem fresh (h : f.Placing hooks function (planned :: plan) stands f₁) {id : FuncId}
    {block : BlockId} {index : Nat} (hsite : planned.site = .edge id block index) :
    ∀ s ∈ stands, s.edge ≠ some (block, index) := by
  intro s hs hedge
  obtain ⟨id', hstood⟩ := (h.instrumented.serves s hs).eq_of_edge hedge
  exact h.site_ne hs hstood hsite

/-- Edges that have probes of their own are live ones. -/
theorem live (h : f.Placing hooks function plan stands f₁) {s : Stand} (hs : s ∈ stands)
    {block : BlockId} {index : Nat} (hedge : s.edge = some (block, index)) : block ∈ f.layout := by
  obtain ⟨id, hsite⟩ := (h.instrumented.serves s hs).eq_of_edge hedge
  have hheld := h.held s hs
  rw [hsite] at hheld
  exact hheld.1

/-- One more probe stands. -/
theorem next (h : f.Placing hooks function (planned :: plan) stands f₁)
    (hstep : f₁.Placed hooks planned.id planned.slot planned.site f₂) :
    ∃ s : Stand, s.planned = planned ∧ f.Placing hooks function plan (s :: stands) f₂ ∧
      f₁.Joined hooks s f₂ := by
  obtain ⟨hfits, hlater⟩ := List.forall_mem_cons.mp h.fits
  obtain ⟨hplanned, hrest⟩ := List.forall_mem_cons.mp h.planned
  obtain ⟨hentries, hfirst⟩ := List.pairwise_cons.mp h.first
  obtain ⟨s, hs, hinstrumented, hlabelled, hjoined⟩ := h.instrumented.placed h.framed.whole hfits
    (h.starts planned List.mem_cons_self) (fun _ _ _ hsite => h.fresh hsite) h.labelled hstep
  refine ⟨s, hs, {
    instrumented := hinstrumented
    labelled := hlabelled
    framed := h.framed
    fits := hlater
    planned := hrest
    stood := List.forall_mem_cons.mpr ⟨by rw [hs]; exact hplanned, h.stood⟩
    held := List.forall_mem_cons.mpr ⟨by rw [hs]; exact hfits, h.held⟩
    starts := fun p hp id hsite => absurd hsite (hentries p hp id)
    first := hfirst
    distinct := ?_ }, hjoined⟩
  rw [List.map_cons, hs]
  exact List.perm_middle.nodup_iff.mp h.distinct

/-- All probes of the plan stand once they have been placed in turn. -/
theorem all (h : f.Placing hooks function plan stands f₁)
    (hturns : Edit.InTurn (fun planned f f' =>
      f.Placed hooks planned.id planned.slot planned.site f') plan f₁ f₂) :
    ∃ all, all.map Stand.planned = plan.reverse ++ stands.map Stand.planned ∧
      f.Placing hooks function [] all f₂ := by
  induction hturns generalizing stands with
  | nil => exact ⟨stands, rfl, h⟩
  | @cons planned rest f₁ f₂ f' hstep _ ih =>
    obtain ⟨s, hs, hplacing, -⟩ := h.next hstep
    obtain ⟨all, hall, hend⟩ := ih hplacing
    refine ⟨all, ?_, hend⟩
    rw [hall, List.map_cons, hs, List.reverse_cons, List.append_assoc]
    rfl

end Placing

end Function

end EdgeProbe
