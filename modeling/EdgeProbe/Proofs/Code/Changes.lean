import Mathlib.Data.List.Basic
import EdgeProbe.Code.Edit
import EdgeProbe.Proofs.Outcome

/-!
# What single changes of a function change

Each step of editing is one of a few changes: of a block in the arena, of an instruction, a new
block, a new instruction. For each of them it is said here what is found afterwards.
-/

namespace EdgeProbe

namespace Function

variable {f f' : Function}

theorem block_eq_ok {b : BlockId} {blk : Block} :
    f.block b = .ok blk ↔ f.blocks[b.index]? = some blk := by
  rw [block]
  cases f.blocks[b.index]? with
  | none => simp
  | some found => simp

theorem inst_eq_ok {id : InstId} {inst : Inst} :
    f.inst id = .ok inst ↔ f.insts[id.index]? = some inst := by
  rw [Function.inst]
  cases f.insts[id.index]? with
  | none => simp
  | some found => simp

theorem index_lt_of_block {b : BlockId} {blk : Block} (h : f.block b = .ok blk) :
    b.index < f.blocks.size := by
  rw [block_eq_ok] at h
  exact (Array.getElem?_eq_some_iff.mp h).1

theorem index_lt_of_inst {id : InstId} {inst : Inst} (h : f.inst id = .ok inst) :
    id.index < f.insts.size := by
  rw [inst_eq_ok] at h
  exact (Array.getElem?_eq_some_iff.mp h).1

theorem kind_eq_ok {id : InstId} {kind : InstKind} :
    f.kind id = .ok kind ↔ ∃ inst, f.inst id = .ok inst ∧ inst.kind = kind :=
  Checked.map_eq_ok

theorem index_lt_of_kind {id : InstId} {kind : InstKind} (h : f.kind id = .ok kind) :
    id.index < f.insts.size := by
  rw [kind_eq_ok] at h
  obtain ⟨inst, hinst, -⟩ := h
  exact index_lt_of_inst hinst

/-! ## A block -/

/-- The function with a block changed. -/
def withBlock (f : Function) (b : BlockId) (change : Block → Block) : Function :=
  { f with blocks := f.blocks.modify b.index change }

theorem modifyBlock_eq_ok {b : BlockId} {change : Block → Block} :
    f.modifyBlock b change = .ok f' ↔ b.index < f.blocks.size ∧ f' = f.withBlock b change := by
  unfold modifyBlock
  split
  · next h => simp [h, withBlock, eq_comm]
  · next h => simp [h]

section

variable (f) (b : BlockId) (change : Block → Block)

@[simp] theorem name_withBlock : (f.withBlock b change).name = f.name := rfl

@[simp] theorem params_withBlock : (f.withBlock b change).params = f.params := rfl

@[simp] theorem layout_withBlock : (f.withBlock b change).layout = f.layout := rfl

@[simp] theorem insts_withBlock : (f.withBlock b change).insts = f.insts := rfl

@[simp] theorem inst_withBlock (id : InstId) : (f.withBlock b change).inst id = f.inst id := rfl

@[simp] theorem kind_withBlock (id : InstId) : (f.withBlock b change).kind id = f.kind id := rfl

@[simp] theorem entryBlock?_withBlock : (f.withBlock b change).entryBlock? = f.entryBlock? := rfl

@[simp] theorem size_blocks_withBlock :
    (f.withBlock b change).blocks.size = f.blocks.size := by
  simp [withBlock]

theorem block_withBlock (c : BlockId) :
    (f.withBlock b change).block c = if c = b then (f.block c).map change else f.block c := by
  have hindex : c = b ↔ b.index = c.index := by
    obtain ⟨i⟩ := b
    obtain ⟨j⟩ := c
    simp [eq_comm]
  simp only [block, withBlock, Array.getElem?_modify, hindex]
  by_cases hb : b.index = c.index
  · rw [if_pos hb, if_pos hb]
    cases f.blocks[c.index]? <;> rfl
  · rw [if_neg hb, if_neg hb]

end

/-! ## An instruction -/

/-- The function with an instruction changed. -/
def withInst (f : Function) (id : InstId) (change : Inst → Inst) : Function :=
  { f with insts := f.insts.modify id.index change }

theorem modifyInst_eq_ok {id : InstId} {change : Inst → Inst} :
    f.modifyInst id change = .ok f' ↔ id.index < f.insts.size ∧ f' = f.withInst id change := by
  unfold modifyInst
  split
  · next h => simp [h, withInst, eq_comm]
  · next h => simp [h]

section

variable (f) (id : InstId) (change : Inst → Inst)

@[simp] theorem name_withInst : (f.withInst id change).name = f.name := rfl

@[simp] theorem params_withInst : (f.withInst id change).params = f.params := rfl

@[simp] theorem layout_withInst : (f.withInst id change).layout = f.layout := rfl

@[simp] theorem blocks_withInst : (f.withInst id change).blocks = f.blocks := rfl

@[simp] theorem block_withInst (b : BlockId) : (f.withInst id change).block b = f.block b := rfl

@[simp] theorem entryBlock?_withInst : (f.withInst id change).entryBlock? = f.entryBlock? := rfl

@[simp] theorem size_insts_withInst : (f.withInst id change).insts.size = f.insts.size := by
  simp [withInst]

theorem inst_withInst (i : InstId) :
    (f.withInst id change).inst i = if i = id then (f.inst i).map change else f.inst i := by
  have hindex : i = id ↔ id.index = i.index := by
    obtain ⟨j⟩ := id
    obtain ⟨k⟩ := i
    simp [eq_comm]
  simp only [Function.inst, withInst, Array.getElem?_modify, hindex]
  by_cases hid : id.index = i.index
  · rw [if_pos hid, if_pos hid]
    cases f.insts[i.index]? <;> rfl
  · rw [if_neg hid, if_neg hid]

end

/-! ## A new block -/

/-- The function with an empty block added to the layout at a position. -/
def withNewBlock (f : Function) (name : String) (pos : Nat) : Function :=
  { f with
    blocks := f.blocks.push ⟨name, [], .unreachable⟩
    layout := f.layout.insertIdx pos ⟨f.blocks.size⟩ }

theorem addBlock_eq (name : String) (after : Option BlockId) :
    f.addBlock name after =
      (f.withNewBlock name (((after.bind (f.layout.idxOf? ·)).map (· + 1)).getD f.layout.length),
        ⟨f.blocks.size⟩) :=
  rfl

theorem addBlockBefore_eq (name : String) (before : BlockId) :
    f.addBlockBefore name before =
      (f.withNewBlock name ((f.layout.idxOf? before).getD f.layout.length), ⟨f.blocks.size⟩) :=
  rfl

section

variable (f) (name : String) (pos : Nat)

@[simp] theorem name_withNewBlock : (f.withNewBlock name pos).name = f.name := rfl

@[simp] theorem params_withNewBlock : (f.withNewBlock name pos).params = f.params := rfl

@[simp] theorem insts_withNewBlock : (f.withNewBlock name pos).insts = f.insts := rfl

@[simp] theorem inst_withNewBlock (id : InstId) :
    (f.withNewBlock name pos).inst id = f.inst id := rfl

@[simp] theorem kind_withNewBlock (id : InstId) :
    (f.withNewBlock name pos).kind id = f.kind id := rfl

@[simp] theorem size_blocks_withNewBlock :
    (f.withNewBlock name pos).blocks.size = f.blocks.size + 1 := by
  simp [withNewBlock]

theorem block_withNewBlock (b : BlockId) :
    (f.withNewBlock name pos).block b =
      if b.index = f.blocks.size then .ok ⟨name, [], .unreachable⟩ else f.block b := by
  simp only [block, withNewBlock, Array.getElem?_push]
  by_cases hb : b.index = f.blocks.size
  · rw [if_pos hb, if_pos hb]
  · rw [if_neg hb, if_neg hb]

variable {f name pos}

theorem mem_layout_withNewBlock (hpos : pos ≤ f.layout.length) {b : BlockId} :
    b ∈ (f.withNewBlock name pos).layout ↔ b = ⟨f.blocks.size⟩ ∨ b ∈ f.layout :=
  List.mem_insertIdx hpos

theorem nodup_layout_withNewBlock (hpos : pos ≤ f.layout.length) (hnodup : f.layout.Nodup)
    (hnew : ⟨f.blocks.size⟩ ∉ f.layout) : (f.withNewBlock name pos).layout.Nodup :=
  (List.perm_insertIdx _ _ hpos).nodup_iff.mpr (List.nodup_cons.mpr ⟨hnew, hnodup⟩)

theorem entryBlock?_withNewBlock (hpos : 0 < pos) :
    (f.withNewBlock name pos).entryBlock? = f.entryBlock? := by
  obtain ⟨n, rfl⟩ := Nat.exists_eq_succ_of_ne_zero hpos.ne'
  simp only [entryBlock?, withNewBlock]
  cases f.layout with
  | nil => rfl
  | cons first rest => rfl

end

/-! ## A new instruction -/

/-- The function with an instruction added at the end of a block. -/
def withNewInst (f : Function) (b : BlockId) (inst : Inst) : Function :=
  { f with
    insts := f.insts.push inst
    blocks := f.blocks.modify b.index fun blk =>
      { blk with insts := blk.insts ++ [⟨f.insts.size⟩] } }

theorem pushInst_eq_ok {b : BlockId} {kind : InstKind} {name : String} {loc : Option DebugLoc}
    {id : InstId} (h : f.pushInst b kind name loc = .ok (f', id)) :
    id = ⟨f.insts.size⟩ ∧ f' = f.withNewInst b { kind, name, loc, block := some b } := by
  rw [pushInst] at h
  obtain ⟨blk, hblk, h⟩ := Checked.bind_eq_ok.mp h
  rw [insertInst] at h
  obtain ⟨changed, hchanged, h⟩ := Checked.bind_eq_ok.mp h
  obtain ⟨rfl, rfl⟩ := Prod.mk.inj (Checked.pure_eq_ok.mp h)
  obtain ⟨-, rfl⟩ := modifyBlock_eq_ok.mp hchanged
  refine ⟨rfl, ?_⟩
  simp only [withBlock, withNewInst]
  congr 1
  apply Array.ext_getElem?
  intro i
  rw [Array.getElem?_modify, Array.getElem?_modify]
  split
  · next hi =>
    subst hi
    rw [block_eq_ok.mp hblk]
    simp
  · rfl

/-- An instruction can be put at the end of any block. -/
theorem pushInst_eq {b : BlockId} (hb : b.index < f.blocks.size) (kind : InstKind) (name : String)
    (loc : Option DebugLoc) : f.pushInst b kind name loc =
      .ok (f.withNewInst b { kind, name, loc, block := some b }, ⟨f.insts.size⟩) := by
  obtain ⟨f', id, h⟩ : ∃ f' id, f.pushInst b kind name loc = .ok (f', id) := by
    have hblk : f.block b = .ok f.blocks[b.index] := block_eq_ok.mpr (Array.getElem?_eq_getElem hb)
    simp [pushInst, insertInst, modifyBlock, hblk, hb, bind, Except.bind, pure, Except.pure]
  obtain ⟨rfl, rfl⟩ := pushInst_eq_ok h
  exact h

section

variable (f) (b : BlockId) (inst : Inst)

@[simp] theorem name_withNewInst : (f.withNewInst b inst).name = f.name := rfl

@[simp] theorem params_withNewInst : (f.withNewInst b inst).params = f.params := rfl

@[simp] theorem layout_withNewInst : (f.withNewInst b inst).layout = f.layout := rfl

@[simp] theorem entryBlock?_withNewInst :
    (f.withNewInst b inst).entryBlock? = f.entryBlock? := rfl

@[simp] theorem size_blocks_withNewInst :
    (f.withNewInst b inst).blocks.size = f.blocks.size := by
  simp [withNewInst]

@[simp] theorem size_insts_withNewInst :
    (f.withNewInst b inst).insts.size = f.insts.size + 1 := by
  simp [withNewInst]

theorem block_withNewInst (c : BlockId) :
    (f.withNewInst b inst).block c =
      if c = b then (f.block c).map fun blk => { blk with insts := blk.insts ++ [⟨f.insts.size⟩] }
      else f.block c :=
  block_withBlock f b (fun blk => { blk with insts := blk.insts ++ [⟨f.insts.size⟩] }) c

theorem inst_withNewInst (id : InstId) :
    (f.withNewInst b inst).inst id = if id.index = f.insts.size then .ok inst else f.inst id := by
  simp only [Function.inst, withNewInst, Array.getElem?_push]
  by_cases hid : id.index = f.insts.size
  · rw [if_pos hid, if_pos hid]
  · rw [if_neg hid, if_neg hid]

theorem inst_withNewInst_of_lt {id : InstId} (h : id.index < f.insts.size) :
    (f.withNewInst b inst).inst id = f.inst id := by
  rw [inst_withNewInst, if_neg h.ne]

theorem kind_withNewInst_of_lt {id : InstId} (h : id.index < f.insts.size) :
    (f.withNewInst b inst).kind id = f.kind id := by
  rw [kind, kind, inst_withNewInst_of_lt f b inst h]

end

end Function

namespace Module

variable {m : Module} {f f' : Function} {id : FuncId}

theorem function_eq_ok : m.function id = .ok f ↔ m.functions[id.index]? = some f := by
  unfold function
  cases m.functions[id.index]? <;> simp

theorem function_setFunction {i : FuncId} (hid : id.index < m.functions.size) :
    (m.setFunction id f').function i = if i = id then .ok f' else m.function i := by
  unfold function setFunction
  dsimp only
  rw [Array.getElem?_setIfInBounds]
  by_cases hi : i = id
  · subst hi
    rw [if_pos rfl, if_pos hid, if_pos rfl]
  · have hne : id.index ≠ i.index := fun heq => hi (congrArg FuncId.mk heq.symm)
    rw [if_neg hne, if_neg hi]

theorem index_lt_of_function (h : m.function id = .ok f) : id.index < m.functions.size :=
  (Array.getElem?_eq_some_iff.mp (function_eq_ok.mp h)).1

theorem exists_function (hid : id.index < m.functions.size) : ∃ f, m.function id = .ok f :=
  ⟨m.functions[id.index], function_eq_ok.mpr (by simp)⟩

theorem nodup_functionIds : m.functionIds.Nodup :=
  List.nodup_range.map fun _ _ heq => FuncId.mk.inj heq

theorem mem_functionIds {id : FuncId} : id ∈ m.functionIds ↔ id.index < m.functions.size := by
  simp only [functionIds, List.mem_map, List.mem_range]
  constructor
  · rintro ⟨index, hlt, rfl⟩
    exact hlt
  · exact fun hlt => ⟨id.index, hlt, rfl⟩

/-- Functions keep their names, so the same ones are found. -/
theorem findFunction?_setFunction (hid : m.function id = .ok f) (hname : f'.name = f.name)
    (name : String) : (m.setFunction id f').findFunction? name = m.findFunction? name := by
  have hget := function_eq_ok.mp hid
  obtain ⟨_, _, ⟨functions⟩⟩ := m
  simp only [findFunction?, setFunction, List.setIfInBounds_toArray, List.findIdx?_toArray,
    List.getElem?_toArray] at hget ⊢
  congr 1
  generalize id.index = index at hget ⊢
  clear hid
  induction functions generalizing index with
  | nil => rfl
  | cons first rest ih =>
    cases index with
    | zero =>
      obtain rfl : first = f := by simpa using hget
      simp only [List.set_cons_zero, List.findIdx?_cons, hname]
    | succ index =>
      simp only [List.set_cons_succ, List.findIdx?_cons]
      rw [ih index (by simpa using hget)]

theorem setFunction_setFunction (m : Module) (id : FuncId) (f f' : Function) :
    (m.setFunction id f).setFunction id f' = m.setFunction id f' := by
  simp [setFunction]

theorem setFunction_self (hid : m.function id = .ok f) : m.setFunction id f = m := by
  have hget := function_eq_ok.mp hid
  have hfunctions : m.functions.setIfInBounds id.index f = m.functions := by
    apply Array.ext_getElem?
    intro i
    rw [Array.getElem?_setIfInBounds]
    split
    · next heq => rw [← heq, hget, if_pos (index_lt_of_function hid)]
    · rfl
  rw [setFunction, hfunctions]

end Module

/-! ## Types

The types of operands do not change while instructions stay what they are or become phis of their
own type, whatever is added.
-/

namespace InstKind

/-- The type of an instruction, if it is not that of an operand. -/
def fixedType? : InstKind → Option Ty
  | .phi ty _ | .load ty _ => some ty
  | .landingPad | .gep _ _ | .alloca _ => some .ptr
  | .icmp _ _ _ => some .i1
  | .cast _ _ width => some (.int width)
  | .store _ _ => some .void
  | .call _ _ ret => some ret
  | .binary _ _ _ | .select _ _ _ => none

/-- The operand whose type an instruction has, if its type is that of an operand. -/
def typeOperand? : InstKind → Option Value
  | .binary _ operand _ | .select _ operand _ => some operand
  | _ => none

/-- An instruction has a type of its own or that of an operand. -/
theorem type_cases (kind : InstKind) :
    (∃ ty, kind.fixedType? = some ty) ∨ ∃ operand, kind.typeOperand? = some operand := by
  cases kind with
  | binary op lhs rhs => exact .inr ⟨lhs, rfl⟩
  | select cond onTrue onFalse => exact .inr ⟨onTrue, rfl⟩
  | _ => exact .inl ⟨_, rfl⟩

end InstKind

namespace Function

variable {f f' : Function} {id : InstId} {kind : InstKind} {ty : Ty} {depth : Nat}

/-- The type of an instruction is its own, or that of an operand if there is depth left for it. -/
theorem valueTypeWithin_inst (hkind : f.kind id = .ok kind) (depth : Nat) :
    f.valueTypeWithin depth (.inst id) =
      match kind.typeOperand?, depth with
      | none, _ => .ok (kind.fixedType?.getD .void)
      | some _, 0 => .error (.cyclicType id)
      | some operand, depth + 1 => f.valueTypeWithin depth operand := by
  rw [valueTypeWithin, hkind]
  cases kind <;> cases depth <;> rfl

theorem valueTypeWithin_of_fixedType? (hkind : f.kind id = .ok kind)
    (hty : kind.fixedType? = some ty) (depth : Nat) :
    f.valueTypeWithin depth (.inst id) = .ok ty := by
  rw [valueTypeWithin_inst hkind, hty]
  cases kind <;> cases hty <;> rfl

theorem valueTypeWithin_of_typeOperand? {operand : Value} (hkind : f.kind id = .ok kind)
    (hoperand : kind.typeOperand? = some operand) (depth : Nat) :
    f.valueTypeWithin (depth + 1) (.inst id) = f.valueTypeWithin depth operand := by
  rw [valueTypeWithin_inst hkind, hoperand]

theorem valueTypeWithin_zero_of_typeOperand? {operand : Value} (hkind : f.kind id = .ok kind)
    (hoperand : kind.typeOperand? = some operand) :
    f.valueTypeWithin 0 (.inst id) = .error (.cyclicType id) := by
  rw [valueTypeWithin_inst hkind, hoperand]

/-- What is no instruction has a type by itself. -/
theorem valueTypeWithin_eq (hparams : f'.params = f.params) {value : Value}
    (hvalue : value.inst? = none) (depth depth' : Nat) :
    f'.valueTypeWithin depth' value = f.valueTypeWithin depth value := by
  cases value with
  | inst id => cases hvalue
  | arg index =>
    cases depth <;> cases depth' <;>
      exact congrArg (fun params => Except.ok (params[index]?.getD Ty.void)) hparams
  | const c => cases c <;> cases depth <;> cases depth' <;> rfl
  | global id => cases depth <;> cases depth' <;> rfl
  | func id => cases depth <;> cases depth' <;> rfl

theorem exists_kind_of_valueTypeWithin (h : f.valueTypeWithin depth (.inst id) = .ok ty) :
    ∃ kind, f.kind id = .ok kind := by
  rw [valueTypeWithin] at h
  obtain ⟨kind, hkind, -⟩ := Checked.bind_eq_ok.mp h
  exact ⟨kind, hkind⟩

/-- More depth does no harm. -/
theorem valueTypeWithin_mono {depth' : Nat} (hle : depth ≤ depth') {value : Value}
    (hty : f.valueTypeWithin depth value = .ok ty) : f.valueTypeWithin depth' value = .ok ty := by
  induction depth generalizing depth' value with
  | zero =>
    cases value with
    | inst id =>
      obtain ⟨kind, hkind⟩ := exists_kind_of_valueTypeWithin hty
      obtain ⟨ty₀, hfixed⟩ | ⟨operand, hoperand⟩ := kind.type_cases
      · rw [valueTypeWithin_of_fixedType? hkind hfixed] at hty ⊢
        exact hty
      · rw [valueTypeWithin_zero_of_typeOperand? hkind hoperand] at hty
        cases hty
    | _ => exact (valueTypeWithin_eq rfl rfl 0 depth').trans hty
  | succ depth ih =>
    cases value with
    | inst id =>
      obtain ⟨kind, hkind⟩ := exists_kind_of_valueTypeWithin hty
      obtain ⟨ty₀, hfixed⟩ | ⟨operand, hoperand⟩ := kind.type_cases
      · rw [valueTypeWithin_of_fixedType? hkind hfixed] at hty ⊢
        exact hty
      · obtain ⟨d, rfl⟩ := Nat.exists_eq_add_of_le' (Nat.lt_of_lt_of_le (Nat.succ_pos depth) hle)
        rw [valueTypeWithin_of_typeOperand? hkind hoperand] at hty ⊢
        exact ih (by omega) hty
    | _ => exact (valueTypeWithin_eq rfl rfl _ depth').trans hty

theorem valueTypeWithin_unique {depth' : Nat} {ty' : Ty} {value : Value}
    (hty : f.valueTypeWithin depth value = .ok ty)
    (hty' : f.valueTypeWithin depth' value = .ok ty') : ty = ty' := by
  have h := valueTypeWithin_mono (le_max_left depth depth') hty
  have h' := valueTypeWithin_mono (le_max_right depth depth') hty'
  exact Except.ok.inj (h.symm.trans h')

/-- What has a type in the first function has that type in the second one. -/
def TypesKept (f f' : Function) : Prop :=
  ∀ depth value ty, f.valueTypeWithin depth value = .ok ty → f'.valueTypeWithin depth value = .ok ty

/-- Types are kept where each instruction is what it was or has become a phi of its type. -/
theorem TypesKept.of_kinds (hparams : f'.params = f.params)
    (hkinds : ∀ id kind, f.kind id = .ok kind → f'.kind id = .ok kind ∨
      ∃ ty incoming, (∀ depth ty', f.valueTypeWithin depth (.inst id) = .ok ty' → ty' = ty) ∧
        f'.kind id = .ok (.phi ty incoming)) : f.TypesKept f' := by
  intro depth
  have hstep : ∀ depth (id : InstId) ty, f.valueTypeWithin depth (.inst id) = .ok ty →
      (∀ kind operand, f'.kind id = .ok kind → f.kind id = .ok kind →
        kind.typeOperand? = some operand → f'.valueTypeWithin depth (.inst id) = .ok ty) →
      f'.valueTypeWithin depth (.inst id) = .ok ty := by
    intro depth id ty hty hoperands
    obtain ⟨kind, hkind⟩ := exists_kind_of_valueTypeWithin hty
    obtain hkind' | ⟨ty₁, incoming, hunique, hphi⟩ := hkinds id kind hkind
    · obtain ⟨ty₀, hfixed⟩ | ⟨operand, hoperand⟩ := kind.type_cases
      · rw [valueTypeWithin_of_fixedType? hkind hfixed] at hty
        rw [valueTypeWithin_of_fixedType? hkind' hfixed, hty]
      · exact hoperands kind operand hkind' hkind hoperand
    · obtain rfl := hunique depth ty hty
      exact valueTypeWithin_of_fixedType? hphi rfl depth
  induction depth with
  | zero =>
    intro value ty hty
    cases value with
    | inst id =>
      refine hstep 0 id ty hty fun kind operand _ hkind hoperand => ?_
      rw [valueTypeWithin_zero_of_typeOperand? hkind hoperand] at hty
      cases hty
    | _ => exact (valueTypeWithin_eq hparams rfl 0 0).trans hty
  | succ depth ih =>
    intro value ty hty
    cases value with
    | inst id =>
      refine hstep (depth + 1) id ty hty fun kind operand hkind' hkind hoperand => ?_
      rw [valueTypeWithin_of_typeOperand? hkind hoperand] at hty
      rw [valueTypeWithin_of_typeOperand? hkind' hoperand]
      exact ih operand ty hty
    | _ => exact (valueTypeWithin_eq hparams rfl _ _).trans hty

theorem TypesKept.refl (f : Function) : f.TypesKept f :=
  fun _ _ _ h => h

theorem TypesKept.trans {f₁ : Function} (h : f.TypesKept f₁) (h' : f₁.TypesKept f') :
    f.TypesKept f' :=
  fun depth value ty hty => h' depth value ty (h depth value ty hty)

theorem TypesKept.valueType (h : f.TypesKept f') (hsize : f.insts.size ≤ f'.insts.size)
    {value : Value} (hty : f.valueType value = .ok ty) : f'.valueType value = .ok ty :=
  valueTypeWithin_mono hsize (h _ value ty hty)

theorem TypesKept.intWidth? (h : f.TypesKept f') (hsize : f.insts.size ≤ f'.insts.size)
    {value : Value} {width : Option Nat} (hwidth : f.intWidth? value = .ok width) :
    f'.intWidth? value = .ok width := by
  obtain ⟨ty, hty, rfl⟩ := Checked.map_eq_ok.mp hwidth
  exact Checked.map_eq_ok.mpr ⟨ty, h.valueType hsize hty, rfl⟩

theorem intWidth?_of_fixedType? (hkind : f.kind id = .ok kind) (hty : kind.fixedType? = some ty) :
    f.intWidth? (.inst id) = .ok ty.intWidth? :=
  Checked.map_eq_ok.mpr ⟨ty, valueTypeWithin_of_fixedType? hkind hty _, rfl⟩

theorem valueType_of_fixedType? {id : InstId} {kind : InstKind} {ty : Ty}
    (hkind : f.kind id = .ok kind) (hty : kind.fixedType? = some ty) :
    f.valueType (.inst id) = .ok ty :=
  valueTypeWithin_of_fixedType? hkind hty _

theorem valueType_ofWord (f : Function) (width : Nat) (x : UInt64) :
    f.valueType (.ofWord width x) = .ok (.int width) := by
  unfold valueType valueTypeWithin
  rfl

/-- A new instruction of the type of an operand has the width of that. -/
theorem TypesKept.intWidth?_of_typeOperand? (h : f.TypesKept f')
    (hsize : f.insts.size < f'.insts.size) {operand : Value} (hkind : f'.kind id = .ok kind)
    (hoperand : kind.typeOperand? = some operand) {width : Option Nat}
    (hwidth : f.intWidth? operand = .ok width) : f'.intWidth? (.inst id) = .ok width := by
  obtain ⟨ty, hty, rfl⟩ := Checked.map_eq_ok.mp hwidth
  obtain ⟨size, hsize'⟩ := Nat.exists_eq_add_of_le' (Nat.lt_of_le_of_lt (Nat.zero_le _) hsize)
  have hvalue : f'.valueType (.inst id) = .ok ty := by
    rw [Function.valueType, hsize', valueTypeWithin_of_typeOperand? hkind hoperand]
    exact valueTypeWithin_mono (by omega) (h _ _ _ hty)
  exact Checked.map_eq_ok.mpr ⟨ty, hvalue, rfl⟩

end Function

end EdgeProbe
