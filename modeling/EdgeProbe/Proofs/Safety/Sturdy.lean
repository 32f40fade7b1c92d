import EdgeProbe.Proofs.Safety.Chains
import EdgeProbe.Proofs.Validity.Sound

/-!
# Functions that can be worked on

What has to hold of a function for no question about it and no change of it to fault: its indices
lie in the arenas, the chains that types and addresses are followed along end, and no signed
comparison is one of integers without bits. `Function.Sturdy` is less than being accepted, and every
single change keeps it. `Function.Onward` is how a function stands to what it was before changes:
nothing has been taken away, and an instruction is what it was or a phi.
-/

namespace EdgeProbe

/-- The predicate reads its operands as numbers with a sign. -/
def Predicate.isSigned : Predicate → Bool
  | .sgt | .sge | .slt | .sle => true
  | _ => false

def InstKind.isComparison : InstKind → Bool
  | .icmp _ _ _ => true
  | _ => false

/-- The number that the last one of three arguments of a call is, if it is one. -/
def InstKind.bound? : InstKind → Option Nat
  | .call _ [_, _, .const (.int _ bits)] _ => some bits.toNat
  | _ => none

namespace Function

variable {m : Module} {f f₁ f' : Function}

/-- The block that an instruction takes for its own, if any, is in the arena. -/
def Owned (f : Function) (id : InstId) : Prop :=
  ∀ inst b, f.inst id = .ok inst → inst.block = some b → b.index < f.blocks.size

/-- The instruction is in the arena, and so is the block it takes for its own. -/
structure Held (f : Function) (id : InstId) : Prop where
  lt : id.index < f.insts.size
  owned : f.Owned id

/-- The instruction does not ask an integer without bits for its sign. -/
def ReadsBits (f : Function) (kind : InstKind) : Prop :=
  ∀ pred lhs rhs, kind = .icmp pred lhs rhs → pred.isSigned = true → ¬f.HasType lhs (.int 0)

theorem readsBits_unsigned {pred : Predicate} (h : pred.isSigned = false) (lhs rhs : Value) :
    f.ReadsBits (.icmp pred lhs rhs) := by
  intro _ _ _ heq hsigned
  obtain ⟨rfl, -, -⟩ := InstKind.icmp.inj heq
  cases h.symm.trans hsigned

theorem readsBits_other {kind : InstKind} (h : kind.isComparison = false) : f.ReadsBits kind := by
  rintro pred lhs rhs rfl
  cases h

structure Sturdy (m : Module) (f : Function) : Prop where
  layout : ∀ b ∈ f.layout, b.index < f.blocks.size
  whole : f.Whole
  owned : ∀ b ∈ f.layout, ∀ blk, f.block b = .ok blk → ∀ id ∈ blk.insts, f.Owned id
  kinds : ∀ id kind, f.kind id = .ok kind → m.knowsKind f kind = true
  types : ∀ id, id.index < f.insts.size → f.Ends InstKind.typeOperand? (.inst id)
  addresses : ∀ id, id.index < f.insts.size → f.Ends InstKind.addressBase? (.inst id)
  signs : ∀ id kind, f.kind id = .ok kind → f.ReadsBits kind

/-- The second function is what the first one has become. -/
structure Onward (f f' : Function) : Prop where
  params : f'.params = f.params
  insts : f.insts.size ≤ f'.insts.size
  blocks : f.blocks.size ≤ f'.blocks.size
  owned : ∀ id, id.index < f.insts.size → f.Owned id → f'.Owned id
  kinds : ∀ id kind, f.kind id = .ok kind →
    f'.kind id = .ok kind ∨ ∃ ty incoming, f'.kind id = .ok (.phi ty incoming)
  added : ∀ id kind, f.insts.size ≤ id.index → f'.kind id = .ok kind → kind.bound? = none

/-- Besides, no instruction has become another one, but phis may have other entries. -/
structure Steady (f f' : Function) : Prop extends f.Onward f' where
  steady : ∀ id kind, f.kind id = .ok kind → f'.kind id = .ok kind ∨
    ∃ ty incoming incoming', kind = .phi ty incoming ∧ f'.kind id = .ok (.phi ty incoming')

/-- Where the arena is as large as before, nothing has been added to it. -/
theorem added_of_size (h : f'.insts.size = f.insts.size) (id : InstId) (kind : InstKind)
    (hle : f.insts.size ≤ id.index) (hkind : f'.kind id = .ok kind) : kind.bound? = none :=
  absurd (h ▸ index_lt_of_kind hkind) (Nat.not_lt.mpr hle)

theorem Onward.refl (f : Function) : f.Onward f :=
  ⟨rfl, le_rfl, le_rfl, fun _ _ h => h, fun _ _ h => .inl h, added_of_size rfl⟩

theorem Onward.trans (h : f.Onward f₁) (h' : f₁.Onward f') : f.Onward f' where
  params := h'.params.trans h.params
  insts := h.insts.trans h'.insts
  blocks := h.blocks.trans h'.blocks
  owned := fun id hid hown => h'.owned id (hid.trans_le h.insts) (h.owned id hid hown)
  kinds := by
    intro id kind hkind
    obtain hkind₁ | ⟨ty, incoming, hphi⟩ := h.kinds id kind hkind
    · exact h'.kinds id kind hkind₁
    · obtain hphi' | hphi' := h'.kinds id _ hphi
      · exact .inr ⟨ty, incoming, hphi'⟩
      · exact .inr hphi'
  added := by
    intro id kind hle hkind
    obtain hlt | hle₁ := Nat.lt_or_ge id.index f₁.insts.size
    · obtain ⟨kind₁, hkind₁⟩ := exists_kind hlt
      have hnone := h.added id kind₁ hle hkind₁
      obtain hsame | ⟨ty, incoming, hphi⟩ := h'.kinds id kind₁ hkind₁
      · rwa [← Except.ok.inj (hsame.symm.trans hkind)]
      · obtain rfl := Except.ok.inj (hphi.symm.trans hkind)
        rfl
    · exact h'.added id kind hle₁ hkind

theorem Steady.refl (f : Function) : f.Steady f :=
  ⟨.refl f, fun _ _ h => .inl h⟩

theorem Steady.trans (h : f.Steady f₁) (h' : f₁.Steady f') : f.Steady f' where
  toOnward := h.toOnward.trans h'.toOnward
  steady := by
    intro id kind hkind
    obtain hkind₁ | ⟨ty, incoming, incoming₁, rfl, hphi⟩ := h.steady id kind hkind
    · exact h'.steady id kind hkind₁
    · obtain hphi' | ⟨ty', incoming₂, incoming', heq, hphi'⟩ := h'.steady id _ hphi
      · exact .inr ⟨ty, incoming, incoming₁, rfl, hphi'⟩
      · obtain ⟨rfl, -⟩ := InstKind.phi.inj heq
        exact .inr ⟨ty, incoming, incoming', rfl, hphi'⟩

section

variable (h : f.Onward f')
include h

theorem Onward.grows : m.Grows f m f' :=
  ⟨le_rfl, le_rfl, h.params, h.insts, h.blocks⟩

theorem Onward.knowsValue {value : Value} (hvalue : m.knowsValue f value = true) :
    m.knowsValue f' value = true :=
  h.grows.knowsValue hvalue

theorem Onward.lt_blocks {b : BlockId} (hb : b.index < f.blocks.size) :
    b.index < f'.blocks.size :=
  hb.trans_le h.blocks

theorem Onward.lt_insts {id : InstId} (hid : id.index < f.insts.size) :
    id.index < f'.insts.size :=
  hid.trans_le h.insts

theorem Onward.held {id : InstId} (hid : f.Held id) : f'.Held id :=
  ⟨h.lt_insts hid.lt, h.owned id hid.lt hid.owned⟩

/-- An instruction that is no phi is what it was. -/
theorem Onward.kind_eq {id : InstId} {kind kind' : InstKind} (hkind : f.kind id = .ok kind)
    (hkind' : f'.kind id = .ok kind') (hnot : kind'.isPhi = false) : kind' = kind := by
  obtain hsame | ⟨ty, incoming, hphi⟩ := h.kinds id kind hkind
  · exact Except.ok.inj (hkind'.symm.trans hsame)
  · obtain rfl := Except.ok.inj (hkind'.symm.trans hphi)
    cases hnot

end

theorem Steady.kind_of_not_phi (h : f.Steady f') {id : InstId} {kind : InstKind}
    (hkind : f.kind id = .ok kind) (hnot : kind.isPhi = false) : f'.kind id = .ok kind := by
  obtain hkind' | ⟨ty, incoming, incoming', rfl, -⟩ := h.steady id kind hkind
  · exact hkind'
  · cases hnot

theorem Steady.typesKept (h : f.Steady f') : f.TypesKept f' := by
  refine .of_kinds h.params fun id kind hkind => ?_
  obtain hkind' | ⟨ty, incoming, incoming', rfl, hkind'⟩ := h.steady id kind hkind
  · exact .inl hkind'
  · refine .inr ⟨ty, incoming', fun depth ty' hty => ?_, hkind'⟩
    rw [valueTypeWithin_of_fixedType? hkind rfl] at hty
    exact (Except.ok.inj hty).symm

theorem Steady.hasType (h : f.Steady f') {value : Value} {ty : Ty} (hty : f.HasType value ty) :
    f'.HasType value ty := by
  obtain ⟨depth, hty⟩ := hty
  exact ⟨depth, h.typesKept depth value ty hty⟩

/-! ## What can be asked -/

theorem knowsValue_of_knowsKind {kind : InstKind} (h : m.knowsKind f kind = true) {value : Value}
    (hvalue : value ∈ kind.operands) : m.knowsValue f value = true := by
  unfold Module.knowsKind at h
  rw [Bool.and_eq_true] at h
  exact List.all_eq_true.mp h.1 value hvalue

/-- The place of an instruction is in a block of the arena. -/
theorem Owned.exists_position? {id : InstId} (hown : f.Owned id) (hid : id.index < f.insts.size) :
    ∃ place, f.position? id = .ok place ∧
      ∀ b pos, place = some (b, pos) → b.index < f.blocks.size := by
  obtain ⟨inst, hinst⟩ := Function.exists_inst hid
  cases hb : inst.block with
  | none =>
    refine ⟨none, ?_, by simp⟩
    rw [position?, hinst]
    simp [hb, bind, Except.bind, pure, Except.pure]
  | some b =>
    have hlt := hown inst b hinst hb
    obtain ⟨blk, hblk⟩ := Function.exists_block hlt
    refine ⟨(blk.insts.idxOf? id).map fun pos => (b, pos), ?_, fun c pos heq => ?_⟩
    · rw [position?, hinst]
      simp [hb, hblk, bind, Except.bind, pure, Except.pure]
    · obtain ⟨_, -, hplace⟩ := Option.map_eq_some_iff.mp heq
      obtain ⟨rfl, -⟩ := Prod.mk.inj hplace
      exact hlt

namespace Sturdy

variable (hf : f.Sturdy m)
include hf

theorem knowsValue {id : InstId} {kind : InstKind} (hkind : f.kind id = .ok kind) {value : Value}
    (hvalue : value ∈ kind.operands) : m.knowsValue f value = true :=
  knowsValue_of_knowsKind (hf.kinds id kind hkind) hvalue

theorem ends_type {value : Value} (hvalue : m.knowsValue f value = true) :
    f.Ends InstKind.typeOperand? value := by
  cases value with
  | inst id => exact hf.types id (of_decide_eq_true hvalue)
  | _ => exact ⟨0, .other rfl⟩

theorem ends_address {value : Value} (hvalue : m.knowsValue f value = true) :
    f.Ends InstKind.addressBase? value := by
  cases value with
  | inst id => exact hf.addresses id (of_decide_eq_true hvalue)
  | _ => exact ⟨0, .other rfl⟩

theorem exists_valueType {value : Value} (hvalue : m.knowsValue f value = true) :
    ∃ ty, f.valueType value = .ok ty :=
  Function.exists_valueType (hf.ends_type hvalue)

theorem exists_constantBytes? {value : Value} (hvalue : m.knowsValue f value = true) :
    ∃ bytes?, m.constantBytes? f value = .ok bytes? := by
  have hglobal : ∀ g : GlobalId, m.knowsValue f (.global g) = true → g.index < m.globals.size :=
    fun g hg => of_decide_eq_true hg
  refine Module.exists_constantBytes? (hf.ends_address hvalue) ?_ fun id kind g hkind hbase => ?_
  · rintro g rfl
    exact hglobal g hvalue
  · exact hglobal g (hf.knowsValue hkind (InstKind.mem_operands_of_addressBase? hbase))

theorem exists_block {b : BlockId} (hb : b ∈ f.layout) : ∃ blk, f.block b = .ok blk :=
  Function.exists_block (hf.layout b hb)

theorem exists_callee {id : InstId} {target : FuncId} {args : List Value} {ret : Ty}
    (hkind : f.kind id = .ok (.call (.direct target) args ret)) : ∃ g, m.function target = .ok g := by
  have hknown := hf.kinds id _ hkind
  simp only [Module.knowsKind, Module.knowsCallee, Bool.and_eq_true, decide_eq_true_eq] at hknown
  exact ⟨m.functions[target.index], by simp [Module.function, hknown.2]⟩

end Sturdy

end Function

/-! ## Single changes

Each change that edits are made of can be made in a sturdy function, and leaves one.
-/

namespace Function

variable {m : Module} {f f' : Function}

/-- What an instruction may be after a change: what it was, a phi that has no type but one it may
have had, or, where there was none, anything that reads what was there. -/
inductive Admits (m : Module) (f f' : Function) (id : InstId) (kind : InstKind) : Prop
  | same (h : f.kind id = .ok kind)
  | phi {ty : Ty} {incoming : List (Value × BlockId)} (hkind : kind = .phi ty incoming)
    (hknown : m.knowsKind f' kind = true) (hlt : id.index < f.insts.size)
    (hty : ty = .int 0 → f.HasType (.inst id) ty)
  | new (hknown : m.knowsKind f kind = true) (hle : f.insts.size ≤ id.index)
    (hsigns : f.ReadsBits kind)

/-- A change leaves a sturdy function if it keeps indices within the arenas and lets instructions
become only what they may. -/
theorem Sturdy.become (hf : f.Sturdy m) (h : f.Onward f')
    (hlayout : ∀ b ∈ f'.layout, b.index < f'.blocks.size) (hwhole : f'.Whole)
    (howned : ∀ b ∈ f'.layout, ∀ blk, f'.block b = .ok blk → ∀ id ∈ blk.insts, f'.Owned id)
    (hadmits : ∀ id kind, f'.kind id = .ok kind → f.Admits m f' id kind) : f'.Sturdy m := by
  have hends : ∀ next : InstKind → Option Value, (∀ ty incoming, next (.phi ty incoming) = none) →
      (∀ kind operand, next kind = some operand → operand ∈ kind.operands) →
      (∀ value, m.knowsValue f value = true → f.Ends next value) →
      ∀ id : InstId, id.index < f'.insts.size → f'.Ends next (.inst id) := by
    intro next hphi hoperand hold id hid
    obtain ⟨kind, hkind⟩ := exists_kind hid
    cases hadmits id kind hkind with
    | same h₀ =>
      exact (hold (.inst id) (decide_eq_true (index_lt_of_kind h₀))).changed hphi h.kinds
    | phi heq _ _ _ => exact ⟨0, .last hkind (heq ▸ hphi _ _)⟩
    | new hknown _ _ =>
      refine .of_operand hkind fun operand hnext => ?_
      have hvalue := knowsValue_of_knowsKind hknown (hoperand kind operand hnext)
      exact (hold operand hvalue).changed hphi h.kinds
  have hreflect : ∀ value, m.knowsValue f value = true → f'.HasType value (.int 0) →
      f.HasType value (.int 0) := by
    intro value hvalue hty
    refine hty.reflect (fun v => m.knowsValue f v = true) h.params ?_ ?_ hvalue
    · exact fun id kind operand hkind hsome =>
        hf.knowsValue hkind (InstKind.mem_operands_of_typeOperand? hsome)
    · intro id hid
      obtain ⟨kind, hkind⟩ := exists_kind (f := f) (of_decide_eq_true hid)
      refine ⟨kind, hkind, (h.kinds id kind hkind).imp_right ?_⟩
      rintro ⟨ty, incoming, hphi⟩
      refine ⟨_, hphi, rfl, fun hfixed => ?_⟩
      obtain rfl := Option.some.inj hfixed
      cases hadmits id _ hphi with
      | same h₀ => exact ⟨0, valueTypeWithin_of_fixedType? h₀ rfl 0⟩
      | phi heq _ _ hty =>
        obtain ⟨rfl, -⟩ := InstKind.phi.inj heq
        exact hty rfl
      | new _ hle _ => exact absurd (index_lt_of_kind hkind) (Nat.not_lt.mpr hle)
  constructor
  · exact hlayout
  · exact hwhole
  · exact howned
  · intro id kind hkind
    cases hadmits id kind hkind with
    | same h₀ => exact h.grows.knowsKind (hf.kinds id kind h₀)
    | phi _ hknown _ _ => exact hknown
    | new hknown _ _ => exact h.grows.knowsKind hknown
  · exact hends _ (fun _ _ => rfl) (fun _ _ => InstKind.mem_operands_of_typeOperand?) fun _ => hf.ends_type
  · exact hends _ (fun _ _ => rfl) (fun _ _ => InstKind.mem_operands_of_addressBase?)
      fun _ => hf.ends_address
  · rintro id _ hkind pred lhs rhs rfl hsigned hty
    cases hadmits id _ hkind with
    | same h₀ =>
      exact hf.signs id _ h₀ pred lhs rhs rfl hsigned
        (hreflect lhs (hf.knowsValue h₀ List.mem_cons_self) hty)
    | phi heq _ _ _ => cases heq
    | new hknown _ hsigns =>
      exact hsigns pred lhs rhs rfl hsigned
        (hreflect lhs (knowsValue_of_knowsKind hknown List.mem_cons_self) hty)

/-! ## Tokens -/

theorem Onward.withAnnotations (f : Function) (annotations : Annotations) :
    f.Onward { f with annotations } :=
  ⟨rfl, le_rfl, le_rfl, fun _ _ h => h, fun _ _ h => .inl h, added_of_size rfl⟩

theorem Sturdy.withAnnotations (hf : f.Sturdy m) (annotations : Annotations) :
    Sturdy m { f with annotations } :=
  hf.become (.withAnnotations f annotations) hf.layout ⟨hf.whole.insts, hf.whole.successors⟩
    hf.owned fun _ _ h => .same h

/-! ## Blocks -/

theorem steady_withNewBlock (f : Function) (name : String) (pos : Nat) :
    f.Steady (f.withNewBlock name pos) where
  params := rfl
  insts := le_rfl
  blocks := by simp
  owned := fun id _ hown inst b hinst hb => by
    rw [size_blocks_withNewBlock]
    exact Nat.lt_succ_of_lt (hown inst b hinst hb)
  kinds := fun _ _ h => .inl h
  added := added_of_size rfl
  steady := fun _ _ h => .inl h

theorem Sturdy.withNewBlock (hf : f.Sturdy m) (name : String) (pos : Nat) :
    (f.withNewBlock name pos).Sturdy m := by
  have hsteady := f.steady_withNewBlock name pos
  refine hf.become hsteady.toOnward ?_ (hf.whole.withNewBlock name pos) ?_ fun _ _ h => .same h
  · intro b hb
    rw [size_blocks_withNewBlock]
    obtain rfl | hb := List.eq_or_mem_of_mem_insertIdx hb
    · exact Nat.lt_succ_self _
    · exact Nat.lt_succ_of_lt (hf.layout b hb)
  · intro b hb blk hblk id hid
    rw [block_withNewBlock] at hblk
    split at hblk
    · obtain rfl := Except.ok.inj hblk
      cases hid
    · next hne =>
      obtain rfl | hb := List.eq_or_mem_of_mem_insertIdx hb
      · exact absurd rfl hne
      · exact hsteady.owned id (hf.whole.insts b blk hblk id hid) (hf.owned b hb blk hblk id hid)

theorem steady_withBlock (f : Function) (b : BlockId) (change : Block → Block) :
    f.Steady (f.withBlock b change) where
  params := rfl
  insts := le_rfl
  blocks := (size_blocks_withBlock f b change).ge
  owned := fun id _ hown inst b' hinst hb => by
    rw [size_blocks_withBlock]
    exact hown inst b' hinst hb
  kinds := fun _ _ h => .inl h
  added := added_of_size rfl
  steady := fun _ _ h => .inl h

/-- A block may list what it listed and what has an owner, and lead anywhere. -/
theorem Sturdy.withBlock (hf : f.Sturdy m) {b : BlockId} {change : Block → Block}
    (hinsts : ∀ blk, f.block b = .ok blk → ∀ id ∈ (change blk).insts,
      id ∈ blk.insts ∨ id.index < f.insts.size ∧ f.Owned id)
    (hsuccs : ∀ blk, f.block b = .ok blk →
      ∀ s ∈ (change blk).term.successors, s.index < f.blocks.size) :
    (f.withBlock b change).Sturdy m := by
  have hsteady := f.steady_withBlock b change
  refine hf.become hsteady.toOnward ?_ (hf.whole.withBlock (fun blk hblk id hid => ?_) hsuccs) ?_
    fun _ _ h => .same h
  · simpa using hf.layout
  · obtain hid | ⟨hlt, -⟩ := hinsts blk hblk id hid
    · exact hf.whole.insts b blk hblk id hid
    · exact hlt
  · intro c hc blk hblk id hid
    rw [block_withBlock] at hblk
    split at hblk
    · next heq =>
      obtain rfl := heq
      obtain ⟨blk₀, hblk₀, rfl⟩ := Checked.map_eq_ok.mp hblk
      obtain hold | ⟨hlt, hown⟩ := hinsts blk₀ hblk₀ id hid
      · exact hsteady.owned id (hf.whole.insts c blk₀ hblk₀ id hold)
          (hf.owned c hc blk₀ hblk₀ id hold)
      · exact hsteady.owned id hlt hown
    · exact hsteady.owned id (hf.whole.insts c blk hblk id hid) (hf.owned c hc blk hblk id hid)

/-! ## Instructions -/

section

variable {id : InstId} {change : Inst → Inst}
  (hblock : ∀ inst, f.inst id = .ok inst → (change inst).block = inst.block ∨
    ∃ b, (change inst).block = some b ∧ b.index < f.blocks.size)
include hblock

theorem owned_withInst {i : InstId} (hown : f.Owned i) : (f.withInst id change).Owned i := by
  intro inst b hinst hb
  rw [inst_withInst] at hinst
  split at hinst
  · next heq =>
    obtain rfl := heq
    obtain ⟨inst₀, hinst₀, rfl⟩ := Checked.map_eq_ok.mp hinst
    obtain hsame | ⟨b', hb', hlt⟩ := hblock inst₀ hinst₀
    · exact hown inst₀ b hinst₀ (hsame ▸ hb)
    · obtain rfl := Option.some.inj (hb.symm.trans hb')
      exact hlt
  · exact hown inst b hinst hb

/-- An instruction may change while it stays what it is or becomes a phi. -/
theorem onward_withInst (hkind : ∀ inst, f.inst id = .ok inst →
      (change inst).kind = inst.kind ∨ ∃ ty incoming, (change inst).kind = .phi ty incoming) :
    f.Onward (f.withInst id change) where
  params := rfl
  insts := (size_insts_withInst f id change).ge
  blocks := le_rfl
  owned := fun i _ hown => owned_withInst hblock hown
  kinds := by
    intro i kind hi
    obtain ⟨inst, hinst, rfl⟩ := kind_eq_ok.mp hi
    by_cases heq : i = id
    · obtain rfl := heq
      have hchanged : (f.withInst i change).inst i = .ok (change inst) := by
        rw [inst_withInst, if_pos rfl, hinst]
        rfl
      refine (hkind inst hinst).imp (fun hsame => kind_eq_ok.mpr ⟨_, hchanged, hsame⟩) ?_
      rintro ⟨ty, incoming, hphi⟩
      exact ⟨ty, incoming, kind_eq_ok.mpr ⟨_, hchanged, hphi⟩⟩
    · refine .inl (kind_eq_ok.mpr ⟨inst, ?_, rfl⟩)
      rw [inst_withInst, if_neg heq, hinst]
  added := added_of_size (size_insts_withInst f id change)

theorem Sturdy.withInst (hf : f.Sturdy m) (hkind : ∀ inst, f.inst id = .ok inst →
      (change inst).kind = inst.kind ∨ ∃ ty incoming, (change inst).kind = .phi ty incoming ∧
        m.knowsKind f (.phi ty incoming) = true ∧ (ty = .int 0 → f.HasType (.inst id) ty)) :
    (f.withInst id change).Sturdy m := by
  have honward : f.Onward (f.withInst id change) := onward_withInst hblock fun inst hinst =>
    (hkind inst hinst).imp_right fun h => h.imp fun _ h => h.imp fun _ h => h.1
  refine hf.become honward hf.layout ⟨fun b blk hblk i hi => ?_, hf.whole.successors⟩ ?_ ?_
  · rw [size_insts_withInst]
    exact hf.whole.insts b blk hblk i hi
  · exact fun b hb blk hblk i hi => owned_withInst hblock (hf.owned b hb blk hblk i hi)
  · intro i kind hi
    obtain ⟨inst, hinst, rfl⟩ := kind_eq_ok.mp hi
    rw [inst_withInst] at hinst
    split at hinst
    · next heq =>
      obtain rfl := heq
      obtain ⟨inst₀, hinst₀, rfl⟩ := Checked.map_eq_ok.mp hinst
      obtain hsame | ⟨ty, incoming, hphi, hknown, hty⟩ := hkind inst₀ hinst₀
      · exact .same (kind_eq_ok.mpr ⟨inst₀, hinst₀, hsame.symm⟩)
      · exact .phi hphi (honward.grows.knowsKind (hphi ▸ hknown)) (index_lt_of_inst hinst₀) hty
    · exact .same (kind_eq_ok.mpr ⟨inst, hinst, rfl⟩)

end

/-- The function with an instruction added to the arena, which no block lists yet. -/
def withSpare (f : Function) (inst : Inst) : Function :=
  { f with insts := f.insts.push inst }

@[simp] theorem size_insts_withSpare (f : Function) (inst : Inst) :
    (f.withSpare inst).insts.size = f.insts.size + 1 := by
  simp [withSpare]

theorem inst_withSpare (f : Function) (inst : Inst) (id : InstId) :
    (f.withSpare inst).inst id = if id.index = f.insts.size then .ok inst else f.inst id := by
  simp only [Function.inst, withSpare, Array.getElem?_push]
  by_cases hid : id.index = f.insts.size
  · rw [if_pos hid, if_pos hid]
  · rw [if_neg hid, if_neg hid]

section

variable {inst : Inst}

theorem inst_withSpare_of_lt {id : InstId} (h : id.index < f.insts.size) :
    (f.withSpare inst).inst id = f.inst id := by
  rw [inst_withSpare, if_neg h.ne]

theorem steady_withSpare (f : Function) (hbound : inst.kind.bound? = none) :
    f.Steady (f.withSpare inst) := by
  have hkinds : ∀ id kind, f.kind id = .ok kind → (f.withSpare inst).kind id = .ok kind := by
    intro id kind hkind
    rw [Function.kind, inst_withSpare_of_lt (index_lt_of_kind hkind)]
    exact hkind
  refine ⟨⟨rfl, by simp, le_rfl, fun id hid hown => ?_, ?_, fun id kind hle hkind => ?_⟩, ?_⟩
  · intro inst' b hinst hb
    rw [inst_withSpare_of_lt hid] at hinst
    exact hown inst' b hinst hb
  · exact fun id kind h => .inl (hkinds id kind h)
  · obtain ⟨inst', hinst, rfl⟩ := kind_eq_ok.mp hkind
    rw [inst_withSpare] at hinst
    split at hinst
    · rwa [← Except.ok.inj hinst]
    · exact absurd (index_lt_of_inst hinst) (Nat.not_lt.mpr hle)
  · exact fun id kind h => .inl (hkinds id kind h)

theorem owned_withSpare {b : BlockId} (hinst : inst.block = some b) (hb : b.index < f.blocks.size) :
    (f.withSpare inst).Owned ⟨f.insts.size⟩ := by
  intro inst' b' hinst' hb'
  rw [inst_withSpare, if_pos rfl] at hinst'
  obtain rfl := Except.ok.inj hinst'
  obtain rfl := Option.some.inj (hinst.symm.trans hb')
  exact hb

theorem Sturdy.withSpare (hf : f.Sturdy m) (hknown : m.knowsKind f inst.kind = true)
    (hsigns : f.ReadsBits inst.kind) (hbound : inst.kind.bound? = none) :
    (f.withSpare inst).Sturdy m := by
  have hsteady := f.steady_withSpare hbound
  refine hf.become hsteady.toOnward hf.layout ⟨fun b blk hblk id hid => ?_, hf.whole.successors⟩
    (fun b hb blk hblk id hid => ?_) fun id kind hkind => ?_
  · exact hsteady.lt_insts (hf.whole.insts b blk hblk id hid)
  · exact hsteady.owned id (hf.whole.insts b blk hblk id hid) (hf.owned b hb blk hblk id hid)
  · obtain ⟨inst', hinst, rfl⟩ := kind_eq_ok.mp hkind
    rw [inst_withSpare] at hinst
    split at hinst
    · next heq =>
      obtain rfl := Except.ok.inj hinst
      exact .new hknown heq.ge hsigns
    · exact .same (kind_eq_ok.mpr ⟨inst', hinst, rfl⟩)

end

end Function

end EdgeProbe
