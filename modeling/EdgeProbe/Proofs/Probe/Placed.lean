import EdgeProbe.Proofs.Code.Rerouted
import EdgeProbe.Proofs.Validity.Inserted

/-!
# Probes that have been placed

A probe is put in one instruction after another. As one list, its code fits in wherever neither phis
nor a landing pad follow (`Edit.placeProbe_does`). Once a probe has been placed at a site of a
function, that code has been put in at the entry or into the target of the edge, or the edge leads
through a new block that holds it. Main statement: `Edit.placePlanned_does`.
-/

namespace EdgeProbe

/-- What holds of each member of a list and its place. -/
theorem forall_getElem?_cons_iff {α : Type} {P : Nat → α → Prop} {first : α} {rest : List α} :
    (∀ (k : Nat) a, (first :: rest)[k]? = some a → P k a) ↔
      P 0 first ∧ ∀ (k : Nat) a, rest[k]? = some a → P (k + 1) a := by
  constructor
  · exact fun h => ⟨h 0 first rfl, fun k a hk => h (k + 1) a hk⟩
  · rintro ⟨hfirst, hrest⟩ k a hk
    cases k with
    | zero => exact Option.some.inj hk ▸ hfirst
    | succ k => exact hrest k a hk

namespace Hooks

variable (hooks : Hooks)

/-- The call of the trace hook. -/
def traceCode (id : Nat) : List InstKind :=
  match hooks.trace with
  | none => []
  | some trace => [.call (.direct trace) [.ofWord 32 (UInt64.ofNat id)] .void]

/-- The code that counts, given the index of its first instruction. -/
def countCode (first slot : Nat) : List InstKind :=
  let value (n : Nat) : Value := .inst ⟨first + n⟩
  match hooks.previous with
  | none =>
    [.load .ptr (.global hooks.area), .gep (value 0) (.ofWord 64 (UInt64.ofNat slot)),
      .load .i8 (value 1), .binary .add (value 2) (.ofWord 8 1), .store (value 3) (value 1)]
  | some previous =>
    [.load .ptr (.global hooks.area), .load .i32 (.global previous),
      .binary .xor (value 1) (.ofWord 32 (UInt64.ofNat slot)), .cast .zext (value 2) 64,
      .gep (value 0) (value 3), .load .i8 (value 4), .binary .add (value 5) (.ofWord 8 1),
      .store (value 6) (value 4), .store (.ofWord 32 (UInt64.ofNat (slot / 2))) (.global previous)]

/-- The code of a probe, given the index of its first instruction. -/
def probeCode (first id slot : Nat) : List InstKind :=
  hooks.traceCode id ++ hooks.countCode (first + (hooks.traceCode id).length) slot

/-- What probes refer to is there. -/
structure Declared (m : Module) : Prop where
  area : hooks.area.index < m.globals.size
  previous : ∀ id, hooks.previous = some id → id.index < m.globals.size
  trace : ∀ id, hooks.trace = some id → ∃ g, m.function id = .ok g ∧ g.params.length = 1

variable {hooks} {m : Module} {f : Function} {b : BlockId} {pos first id slot : Nat}
  {kind : InstKind}

theorem eq_of_mem_traceCode (h : kind ∈ hooks.traceCode id) : ∃ trace, hooks.trace = some trace ∧
    kind = .call (.direct trace) [.ofWord 32 (UInt64.ofNat id)] .void := by
  unfold traceCode at h
  cases htrace : hooks.trace with
  | none => simp [htrace] at h
  | some trace => exact ⟨trace, rfl, by simpa [htrace] using h⟩

/-- What counts is neither a phi, a landing pad nor a call. -/
theorem plain_of_mem_countCode (h : kind ∈ hooks.countCode first slot) :
    kind.isPhi = false ∧ kind.isLandingPad = false ∧ kind.isCall = false := by
  unfold countCode at h
  revert kind
  cases hooks.previous with
  | none => simp [InstKind.isPhi, InstKind.isLandingPad, InstKind.isCall]
  | some previous => simp [InstKind.isPhi, InstKind.isLandingPad, InstKind.isCall]

/-- The code of a probe holds neither phis nor landing pads. -/
theorem plain_of_mem_probeCode (h : kind ∈ hooks.probeCode first id slot) :
    kind.isPhi = false ∧ kind.isLandingPad = false := by
  obtain hlead | hcount := List.mem_append.mp h
  · obtain ⟨trace, -, rfl⟩ := eq_of_mem_traceCode hlead
    exact ⟨rfl, rfl⟩
  · obtain ⟨hphi, hpad, -⟩ := plain_of_mem_countCode hcount
    exact ⟨hphi, hpad⟩

/-- What counts reads what was computed before it. -/
theorem operands_countCode (hooks : Hooks) (first slot : Nat) :
    ∀ (k : Nat) (kind : InstKind), (hooks.countCode first slot)[k]? = some kind →
      ∀ used, .inst used ∈ kind.operands → ∃ j < k, used = ⟨first + j⟩ := by
  unfold countCode
  cases hooks.previous with
  | none =>
    simp only [forall_getElem?_cons_iff, InstKind.operands, Value.ofWord]
    simp
  | some previous =>
    simp only [forall_getElem?_cons_iff, InstKind.operands, Value.ofWord]
    simp

theorem Declared.knowsValue_of_mem_countCode (h : hooks.Declared m)
    (hkind : kind ∈ hooks.countCode first slot) {value : Value} (hvalue : value ∈ kind.operands)
    (hinst : value.inst? = none) : m.knowsValue f value = true := by
  have hall : ∀ kind ∈ hooks.countCode first slot, ∀ value ∈ kind.operands,
      value.inst? = none → m.knowsValue f value = true := by
    have harea := h.area
    unfold countCode
    cases hprevious : hooks.previous with
    | none => simp [InstKind.operands, Value.inst?, Value.ofWord, Module.knowsValue, harea]
    | some previous =>
      have := h.previous previous hprevious
      simp [InstKind.operands, Value.inst?, Value.ofWord, Module.knowsValue, harea, this]
  exact hall kind hkind value hvalue hinst

/-- The two operands that are to have one type are a word and something of the width of that. -/
theorem paired_countCode (hooks : Hooks) (first slot : Nat) :
    ∀ kind ∈ hooks.countCode first slot, ∀ lhs rhs, kind.paired? = some (lhs, rhs) →
      ∃ k width x, lhs = .inst ⟨first + k⟩ ∧ rhs = .ofWord width x ∧
        ∃ read, (hooks.countCode first slot)[k]? = some read ∧
          read.fixedType? = some (.int width) := by
  unfold countCode
  cases hooks.previous with
  | none =>
    simp only [List.forall_mem_cons, List.not_mem_nil, false_implies, implies_true, and_true,
      InstKind.paired?, reduceCtorEq, true_and, Option.some.injEq, Prod.mk.injEq]
    rintro lhs rhs ⟨rfl, rfl⟩
    exact ⟨2, 8, 1, rfl, rfl, _, rfl, rfl⟩
  | some previous =>
    simp only [List.forall_mem_cons, List.not_mem_nil, false_implies, implies_true, and_true,
      InstKind.paired?, reduceCtorEq, true_and, Option.some.injEq, Prod.mk.injEq]
    constructor
    · rintro lhs rhs ⟨rfl, rfl⟩
      exact ⟨1, 32, _, rfl, rfl, _, rfl, rfl⟩
    · rintro lhs rhs ⟨rfl, rfl⟩
      exact ⟨5, 8, 1, rfl, rfl, _, rfl, rfl⟩

/-- The code of a probe may be put in behind what leads a block. -/
theorem Declared.hosts (h : hooks.Declared m)
    (hbehind : ∀ id k kind, f.Listed id b k → f.kind id = .ok kind → pos ≤ k →
      kind.isPhi = false ∧ kind.isLandingPad = false) :
    f.Hosts m b pos (hooks.probeCode f.insts.size id slot) where
  plain := fun _ hkind => plain_of_mem_probeCode hkind
  known := by
    intro kind hkind
    obtain hlead | hcount := List.mem_append.mp hkind
    · obtain ⟨trace, htrace, rfl⟩ := eq_of_mem_traceCode hlead
      obtain ⟨g, hg, -⟩ := h.trace trace htrace
      have hlt := Module.index_lt_of_function hg
      simp [Module.knowsKind, InstKind.operands, Callee.operands, Value.ofWord, Module.knowsValue,
        Module.knowsCallee, hlt]
    · have hoperands : ∀ value ∈ kind.operands,
          m.knowsValue (f.withInsts b pos (hooks.probeCode f.insts.size id slot)) value = true := by
        intro value hvalue
        cases value with
        | inst used =>
          obtain ⟨k, hk⟩ := List.mem_iff_getElem?.mp hcount
          obtain ⟨j, hj, rfl⟩ := operands_countCode _ _ _ k kind hk used hvalue
          have hlt := (List.getElem?_eq_some_iff.mp hk).1
          rw [Module.knowsValue, Function.hasInst, Function.size_insts_withInsts, probeCode,
            List.length_append, decide_eq_true_eq]
          dsimp only
          omega
        | _ => exact h.knowsValue_of_mem_countCode hcount hvalue rfl
      obtain ⟨hphi, -, hcall⟩ := plain_of_mem_countCode hcount
      unfold Module.knowsKind
      rw [Bool.and_eq_true, List.all_eq_true]
      refine ⟨hoperands, ?_⟩
      cases kind with
      | phi ty incoming => cases hphi
      | call callee args ret => cases hcall
      | _ => rfl
  operands := by
    intro k kind hk used hused
    rw [probeCode] at hk
    obtain hlt | hle := Nat.lt_or_ge k (hooks.traceCode id).length
    · rw [List.getElem?_append_left hlt] at hk
      obtain ⟨trace, -, rfl⟩ := eq_of_mem_traceCode (List.mem_of_getElem? hk)
      simp [InstKind.operands, Callee.operands, Value.ofWord] at hused
    · rw [List.getElem?_append_right hle] at hk
      obtain ⟨j, hj, rfl⟩ := operands_countCode _ _ _ _ kind hk used hused
      exact ⟨(hooks.traceCode id).length + j, by omega, by rw [Nat.add_assoc]⟩
  paired := by
    intro kind hkind lhs rhs hpair
    obtain hlead | hcount := List.mem_append.mp hkind
    · obtain ⟨trace, -, rfl⟩ := eq_of_mem_traceCode hlead
      cases hpair
    obtain ⟨k, width, x, rfl, rfl, read, hread, hty⟩ := paired_countCode _ _ _ kind hcount lhs rhs hpair
    refine ⟨.int width, ?_, Function.valueType_ofWord _ width x⟩
    have hk : (hooks.probeCode f.insts.size id slot)[(hooks.traceCode id).length + k]? = some read := by
      rw [probeCode, List.getElem?_append_right (Nat.le_add_right _ _), Nat.add_sub_cancel_left,
        hread]
    rw [Nat.add_assoc]
    exact Function.valueType_of_fixedType? (Function.kind_withInsts_new hk) hty
  arity := by
    intro target args ret hkind
    obtain hlead | hcount := List.mem_append.mp hkind
    · obtain ⟨trace, htrace, hcall⟩ := eq_of_mem_traceCode hlead
      obtain ⟨htarget, rfl, -⟩ := InstKind.call.inj hcall
      obtain rfl := Callee.direct.inj htarget
      exact h.trace target htrace
    · cases (plain_of_mem_countCode hcount).2.2
  behind := hbehind

end Hooks

namespace Edit

variable {f : Function} {b : BlockId} {blk : Block} {pos : Nat} {hooks : Hooks}
  (hblk : f.block b = .ok blk) (hpos : pos ≤ blk.insts.length)
include hblk hpos

theorem place_does (kinds : List InstKind) (kind : InstKind) {p : Nat}
    (hp : p = pos + kinds.length) :
    (place b p kind).Does (f.withInsts b pos kinds) (.inst ⟨f.insts.size + kinds.length⟩)
      (f.withInsts b pos (kinds ++ [kind])) := by
  subst hp
  refine does_bind.mpr ⟨_, _, does_apply.mpr (Function.insertInst_withInsts hblk hpos kind), ?_⟩
  exact does_pure.mpr ⟨rfl, rfl⟩

theorem placeTrace_does (id : Nat) :
    (placeTrace hooks b pos id).Does f (pos + (hooks.traceCode id).length)
      (f.withInsts b pos (hooks.traceCode id)) := by
  unfold placeTrace Hooks.traceCode
  cases hooks.trace with
  | none => exact does_pure.mpr ⟨rfl, (Function.withInsts_nil f b pos).symm⟩
  | some trace =>
    have hcall := place_does hblk hpos [] (.call (.direct trace) [.ofWord 32 (UInt64.ofNat id)] .void)
      (p := pos) rfl
    rw [Function.withInsts_nil] at hcall
    exact does_bind.mpr ⟨_, _, hcall, does_pure.mpr ⟨rfl, rfl⟩⟩

/-- A probe is put in as one list. -/
theorem placeProbe_does (id slot : Nat) :
    (placeProbe hooks b pos id slot).Does f ()
      (f.withInsts b pos (hooks.probeCode f.insts.size id slot)) := by
  unfold placeProbe
  refine does_bind.mpr ⟨_, _, placeTrace_does hblk hpos id, ?_⟩
  rw [Hooks.probeCode]
  generalize hooks.traceCode id = lead
  have hstep : ∀ kinds kind p, p = pos + lead.length + kinds.length →
      (place b p kind).Does (f.withInsts b pos (lead ++ kinds))
        (.inst ⟨f.insts.size + lead.length + kinds.length⟩)
        (f.withInsts b pos (lead ++ (kinds ++ [kind]))) := by
    intro kinds kind p hp
    have h := place_does hblk hpos (lead ++ kinds) kind (p := p) (by rw [List.length_append]; omega)
    rw [List.append_assoc, List.length_append, ← Nat.add_assoc] at h
    exact h
  have hstart : f.withInsts b pos lead = f.withInsts b pos (lead ++ []) := by rw [List.append_nil]
  rw [hstart, Hooks.countCode]
  refine does_bind.mpr ⟨_, _, hstep [] _ _ rfl, ?_⟩
  unfold placeIndex
  cases hooks.previous with
  | none =>
    refine does_bind.mpr ⟨_, _, does_pure.mpr ⟨rfl, rfl⟩, ?_⟩
    refine does_bind.mpr ⟨_, _, hstep _ _ _ rfl, ?_⟩
    refine does_bind.mpr ⟨_, _, hstep _ _ _ rfl, ?_⟩
    refine does_bind.mpr ⟨_, _, hstep _ _ _ rfl, ?_⟩
    refine does_bind.mpr ⟨_, _, hstep _ _ _ rfl, ?_⟩
    exact does_pure.mpr ⟨rfl, rfl⟩
  | some previous =>
    refine does_bind.mpr ⟨(pos + lead.length + 4, .inst ⟨f.insts.size + lead.length + 3⟩),
      f.withInsts b pos (lead ++ [.load .ptr (.global hooks.area), .load .i32 (.global previous),
        .binary .xor (.inst ⟨f.insts.size + lead.length + 1⟩) (.ofWord 32 (UInt64.ofNat slot)),
        .cast .zext (.inst ⟨f.insts.size + lead.length + 2⟩) 64]), ?_, ?_⟩
    · refine does_bind.mpr ⟨_, _, hstep _ _ _ rfl, ?_⟩
      refine does_bind.mpr ⟨_, _, hstep _ _ _ rfl, ?_⟩
      refine does_bind.mpr ⟨_, _, hstep _ _ _ rfl, ?_⟩
      exact does_pure.mpr ⟨rfl, rfl⟩
    refine does_bind.mpr ⟨_, _, hstep _ _ _ rfl, ?_⟩
    refine does_bind.mpr ⟨_, _, hstep _ _ _ rfl, ?_⟩
    refine does_bind.mpr ⟨_, _, hstep _ _ _ rfl, ?_⟩
    refine does_bind.mpr ⟨_, _, hstep _ _ _ rfl, ?_⟩
    refine does_bind.mpr ⟨_, _, hstep _ _ _ rfl, ?_⟩
    exact does_pure.mpr ⟨rfl, rfl⟩

end Edit

end EdgeProbe

/-! ## Sites -/

namespace EdgeProbe

namespace Function

/-- A probe with this number and slot has been placed at a site. -/
inductive Placed (hooks : Hooks) (id slot : Nat) (f : Function) : ProbeSite → Function → Prop
  | bodiless {function : FuncId} (hentry : f.entryBlock? = none) :
    Placed hooks id slot f (.entry function) f
  | entry {function : FuncId} {entry : BlockId} {pos : Nat} (hentry : f.entryBlock? = some entry)
    (hpos : f.firstInsertionPoint entry = .ok pos) :
    Placed hooks id slot f (.entry function)
      (f.withInsts entry pos (hooks.probeCode f.insts.size id slot))
  | missing {function : FuncId} {block : BlockId} {index : Nat} {succs : List BlockId}
    (hsuccs : f.successors block = .ok succs) (hindex : succs[index]? = none) :
    Placed hooks id slot f (.edge function block index) f
  /-- The edge is the only one into its target, which is named for that. -/
  | target {function : FuncId} {block target : BlockId} {index pos : Nat} {succs : List BlockId}
    (hsuccs : f.successors block = .ok succs) (hindex : succs[index]? = some target)
    (hsole : f.singlePredecessor? target = .ok (some block))
    (hpos : f.firstInsertionPoint target = .ok pos) {name : String}
    (hname : Text.contains name Symbol.probeBlock = true) :
    Placed hooks id slot f (.edge function block index)
      ((f.withBlock target fun b => { b with name }).withInsts target pos
        (hooks.probeCode f.insts.size id slot))
  /-- The edge leads through a new block, which has been filled in the end. -/
  | edge {function : FuncId} {block target : BlockId} {index : Nat} {f₁ : Function}
    (hsole : f.singlePredecessor? target ≠ .ok (some block))
    (h : f.Rerouted block index target [] f₁)
    (hname : ∀ blk, f₁.block ⟨f.blocks.size⟩ = .ok blk →
      Text.contains blk.name Symbol.probeBlock = true) :
    Placed hooks id slot f (.edge function block index)
      (f₁.withInsts ⟨f.blocks.size⟩ 0 (hooks.probeCode f.insts.size id slot))

variable {f f' : Function}

/-- The first position after the phis and the landing pad is one of the block. -/
theorem firstInsertionPoint_eq_ok {b : BlockId} {pos : Nat}
    (h : f.firstInsertionPoint b = .ok pos) :
    ∃ blk, f.block b = .ok blk ∧ pos ≤ blk.insts.length ∧
      f.leading (fun kind => kind.isPhi || kind.isLandingPad) blk.insts =
        .ok (blk.insts.take pos) := by
  obtain ⟨blk, hblk, h⟩ := Checked.bind_eq_ok.mp h
  obtain ⟨front, hlead, hpos⟩ := Checked.bind_eq_ok.mp h
  obtain rfl := Checked.pure_eq_ok.mp hpos
  obtain ⟨back, hinsts, -, -⟩ := leading_eq_ok hlead
  refine ⟨blk, hblk, by simp [hinsts], ?_⟩
  rw [hlead, hinsts, List.take_left]

theorem leading_withBlock (b : BlockId) (change : Block → Block) (holds : InstKind → Bool)
    (ids : List InstId) : (f.withBlock b change).leading holds ids = f.leading holds ids := by
  induction ids with
  | nil => rfl
  | cons id rest ih => rw [leading, leading, kind_withBlock, ih]

/-- What a block is named has no part in where instructions may be put in. -/
theorem firstInsertionPoint_withBlock {b c : BlockId} {change : Block → Block}
    (hinsts : ∀ blk, (change blk).insts = blk.insts) :
    (f.withBlock b change).firstInsertionPoint c = f.firstInsertionPoint c := by
  unfold firstInsertionPoint
  simp only [leading_withBlock, block_withBlock]
  split
  · cases f.block c with
    | ok blk =>
      simp only [Except.map, bind, Except.bind]
      rw [hinsts]
    | error fault => rfl
  · rfl

theorem Whole.withInsts (hf : f.Whole) (b : BlockId) (pos : Nat) (kinds : List InstKind) :
    (f.withInsts b pos kinds).Whole where
  insts := fun c blk' hblk' id hid => by
    rw [block_withInsts] at hblk'
    rw [size_insts_withInsts]
    have hold : ∀ blk, f.block c = .ok blk → ∀ id ∈ blk.insts, id.index < f.insts.size + kinds.length :=
      fun blk hblk id hid => (hf.insts c blk hblk id hid).trans_le (Nat.le_add_right _ _)
    split at hblk'
    · obtain ⟨blk, hblk, rfl⟩ := Checked.map_eq_ok.mp hblk'
      simp only [List.append_assoc, List.mem_append] at hid
      obtain hid | hid | hid := hid
      · exact hold blk hblk id (List.mem_of_mem_take hid)
      · exact (mem_nextIds.mp hid).2
      · exact hold blk hblk id (List.mem_of_mem_drop hid)
    · exact hold blk' hblk' id hid
  successors := fun c blk' hblk' s hs => by
    rw [size_blocks_withInsts]
    rw [block_withInsts] at hblk'
    split at hblk'
    · obtain ⟨blk, hblk, rfl⟩ := Checked.map_eq_ok.mp hblk'
      exact hf.successors c blk hblk s hs
    · exact hf.successors c blk' hblk' s hs

theorem Whole.withName (hf : f.Whole) (b : BlockId) (name : String) :
    (f.withBlock b fun b => { b with name }).Whole :=
  hf.withBlock (fun blk hblk => hf.insts b blk hblk) fun blk hblk => hf.successors b blk hblk

section

variable {hooks : Hooks} {id slot : Nat} {site : ProbeSite}

theorem Placed.whole (h : f.Placed hooks id slot site f') (hf : f.Whole) : f'.Whole := by
  cases h with
  | bodiless | missing => exact hf
  | entry => exact hf.withInsts _ _ _
  | target => exact (hf.withName _ _).withInsts _ _ _
  | edge _ h _ => exact (h.withInsts _).whole hf

theorem Placed.sameHeader (h : f.Placed hooks id slot site f') : f.SameHeader f' := by
  cases h with
  | bodiless | missing => exact .refl f
  | entry | target => exact ⟨_, f.layout, _, f.annotations, rfl⟩
  | edge _ h _ => exact (h.withInsts _).header

theorem Placed.mem_layout (h : f.Placed hooks id slot site f') {b : BlockId} (hb : b ∈ f.layout) :
    b ∈ f'.layout := by
  cases h with
  | bodiless | missing | entry | target => exact hb
  | edge _ h _ => exact h.mem_layout.mpr (.inr hb)

end

end Function

namespace Edit

variable {f f' : Function} {hooks : Hooks} {id slot : Nat}

theorem probeEntry_does {function : FuncId} {u : Unit}
    (h : (probeEntry hooks id slot).Does f u f') : f.Placed hooks id slot (.entry function) f' := by
  obtain ⟨g, f₁, hget, h⟩ := does_bind.mp h
  obtain ⟨rfl, rfl⟩ := does_get.mp hget
  split at h
  · next hentry =>
    obtain ⟨-, rfl⟩ := does_pure.mp h
    exact .bodiless hentry
  · next entry hentry =>
    obtain ⟨pos, f₁, hquery, h⟩ := does_bind.mp h
    obtain ⟨hpos, rfl⟩ := does_query.mp hquery
    obtain ⟨blk, hblk, hle, -⟩ := Function.firstInsertionPoint_eq_ok hpos
    obtain ⟨-, rfl⟩ := h.unique (placeProbe_does hblk hle id slot)
    exact .entry hentry hpos

theorem probeTarget_does {target : BlockId} {u : Unit}
    (h : (probeTarget hooks target id slot).Does f u f') :
    ∃ name pos, Text.contains name Symbol.probeBlock = true ∧ f.firstInsertionPoint target = .ok pos ∧
      f' = (f.withBlock target fun b => { b with name }).withInsts target pos
        (hooks.probeCode f.insts.size id slot) := by
  obtain ⟨b, f₁, hquery, h⟩ := does_bind.mp h
  obtain ⟨-, rfl⟩ := does_query.mp hquery
  split at h
  · obtain ⟨g, f₁, -, h⟩ := does_bind.mp h
    exact absurd h not_does_throw
  dsimp only at h
  have hname : Text.contains (Symbol.probeBlock ++ b.givenName ++ "." ++ toString id)
      Symbol.probeBlock = true := by
    rw [String.append_assoc, String.append_assoc]
    exact Text.contains_append _ _
  generalize Symbol.probeBlock ++ b.givenName ++ "." ++ toString id = name at h hname
  obtain ⟨u₁, f₁, hupdate, h⟩ := does_bind.mp h
  obtain ⟨-, hf₁⟩ := Function.modifyBlock_eq_ok.mp (does_update.mp hupdate)
  obtain ⟨pos, f₂, hquery, h⟩ := does_bind.mp h
  obtain ⟨hpos, rfl⟩ := does_query.mp hquery
  obtain ⟨blk, hblk, hle, -⟩ := Function.firstInsertionPoint_eq_ok hpos
  obtain ⟨-, rfl⟩ := h.unique (placeProbe_does hblk hle id slot)
  subst hf₁
  rw [Function.firstInsertionPoint_withBlock] at hpos
  · exact ⟨name, pos, hname, hpos, rfl⟩
  · exact fun _ => rfl

theorem probeEdge_does {block target : BlockId} {index : Nat} {succs : List BlockId} {u : Unit}
    (hf : f.Whole) (hsuccs : f.successors block = .ok succs) (hindex : succs[index]? = some target)
    (h : (probeEdge hooks block index target id slot).Does f u f') :
    ∃ f₁, f.Rerouted block index target [] f₁ ∧
      (∀ blk, f₁.block ⟨f.blocks.size⟩ = .ok blk →
        Text.contains blk.name Symbol.probeBlock = true) ∧
      f' = f₁.withInsts ⟨f.blocks.size⟩ 0 (hooks.probeCode f.insts.size id slot) := by
  obtain ⟨blk, hblk, rfl⟩ := Checked.map_eq_ok.mp hsuccs
  -- The new block, and the edge through it.
  obtain ⟨probe, f₁, hadd, h⟩ := does_bind.mp h
  obtain ⟨rfl, rfl⟩ := Prod.mk.inj (Except.ok.inj (does_apply.mp hadd))
  obtain ⟨u₁, f₁, hterm, h⟩ := does_bind.mp h
  obtain ⟨-, rfl⟩ := Function.modifyBlock_eq_ok.mp (does_update.mp hterm)
  obtain ⟨u₂, f₁, hredirect, h⟩ := does_bind.mp h
  obtain ⟨-, hf₁⟩ := Function.modifyBlock_eq_ok.mp (does_update.mp hredirect)
  have hinsts : ∀ i, f₁.inst i = f.inst i := fun i => by subst hf₁; rfl
  have hnew : f₁.block ⟨f.blocks.size⟩ =
      .ok ⟨Symbol.probeBlock ++ "New." ++ toString id, [], .br target⟩ := hf₁ ▸
    Function.block_new_withBlock (Function.index_lt_of_block hblk)
      (Symbol.probeBlock ++ "New." ++ toString id) _ target _
  have hdetour : f.Detour block index target [] f₁ := hf₁ ▸
    Function.detour_withBlock (Symbol.probeBlock ++ "New." ++ toString id) hblk hindex
  clear hf₁
  -- Its code is put in once the phis of the target have been told.
  have hend : ∀ succs phis f₂, f₁.successors block = .ok succs → f₁.phis target = .ok phis →
      phis.foldlM (fun g id => g.modifyInst id fun i => { i with
        kind := i.kind.retarget (succs.contains target) block ⟨f.blocks.size⟩ }) f₁ = .ok f₂ →
      (placeProbe hooks ⟨f.blocks.size⟩ 0 id slot).Does f₂ u f' →
      ∃ f₁, f.Rerouted block index target [] f₁ ∧
        (∀ blk, f₁.block ⟨f.blocks.size⟩ = .ok blk →
          Text.contains blk.name Symbol.probeBlock = true) ∧
        f' = f₁.withInsts ⟨f.blocks.size⟩ 0 (hooks.probeCode f.insts.size id slot) := by
    intro succs phis f₂ hsuccs₁ hphis hfold h
    have hrerouted := Function.Detour.rerouted hf hdetour (fun i _ => hinsts i) hsuccs₁ hphis hfold
    have hframe := (Function.foldlM_modifyInst_kinds (fun kind =>
      kind.isPhi_retarget (succs.contains target) block ⟨f.blocks.size⟩) hfold).1
    have hnew₂ := (hframe.block_eq _).trans hnew
    obtain ⟨-, rfl⟩ := h.unique (placeProbe_does hnew₂ (Nat.zero_le _) id slot)
    have hsize : f₂.insts.size = f.insts.size := hrerouted.sizeInsts
    refine ⟨f₂, hrerouted, fun blk' hblk' => ?_, by rw [hsize]⟩
    obtain rfl := Except.ok.inj (hnew₂.symm.trans hblk')
    dsimp only
    rw [String.append_assoc]
    exact Text.contains_append _ _
  obtain ⟨succs, f₂, hquery, h⟩ := does_bind.mp h
  obtain ⟨hsuccs₁, rfl⟩ := does_query.mp hquery
  split at h
  · next hkept =>
    obtain ⟨u₃, f₂, hupdate, h⟩ := does_bind.mp h
    obtain ⟨phis, hphis, hfold⟩ := Checked.bind_eq_ok.mp (does_update.mp hupdate)
    refine hend succs phis f₂ hsuccs₁ hphis ?_ h
    rw [hkept]
    exact hfold
  · next hkept =>
    obtain ⟨u₃, f₂, hupdate, h⟩ := does_bind.mp h
    obtain ⟨phis, hphis, hfold⟩ := Checked.bind_eq_ok.mp (does_update.mp hupdate)
    refine hend succs phis f₂ hsuccs₁ hphis ?_ h
    rw [Bool.eq_false_iff.mpr hkept]
    exact hfold

/-- What placing a probe does. -/
theorem placePlanned_does (hf : f.Whole) {planned : PlannedProbe} {u : Unit}
    (h : (placePlanned hooks planned).Does f u f') :
    f.Placed hooks planned.id planned.slot planned.site f' := by
  obtain ⟨site, id, slot⟩ := planned
  cases site with
  | entry function => exact probeEntry_does h
  | edge function block index =>
    obtain ⟨succs, f₁, hquery, h⟩ := does_bind.mp h
    obtain ⟨hsuccs, rfl⟩ := does_query.mp hquery
    split at h
    · next hindex =>
      obtain ⟨-, rfl⟩ := does_pure.mp h
      exact .missing hsuccs hindex
    · next target hindex =>
      obtain ⟨sole, f₁, hquery, h⟩ := does_bind.mp h
      obtain ⟨hsole, rfl⟩ := does_query.mp hquery
      split at h
      · next heq =>
        obtain ⟨name, pos, hname, hpos, rfl⟩ := probeTarget_does h
        exact .target hsuccs hindex (beq_iff_eq.mp heq ▸ hsole) hpos hname
      · next hne =>
        obtain ⟨f₁, hrerouted, hname, rfl⟩ := probeEdge_does hf hsuccs hindex h
        refine .edge (fun heq => hne ?_) hrerouted hname
        rw [Except.ok.inj (hsole.symm.trans heq)]
        exact beq_self_eq_true _

/-- Probes are placed in turn. -/
theorem placeAll_inTurn (hf : f.Whole) {plan : List PlannedProbe}
    (h : InTurn (fun planned f f' => (placePlanned hooks planned).Does f () f') plan f f') :
    InTurn (fun planned f f' => f.Placed hooks planned.id planned.slot planned.site f') plan f f' := by
  refine (h.imp (fun _ f => f.Whole) (fun planned rest f f' hf hstep => ?_) hf).1
  have hplaced := placePlanned_does hf hstep
  exact ⟨hplaced, hplaced.whole hf⟩

end Edit

end EdgeProbe
