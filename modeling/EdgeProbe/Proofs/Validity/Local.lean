import EdgeProbe.Proofs.Code.Changes
import EdgeProbe.Proofs.Validity.Passes

/-!
# Functions that read what their blocks compute

A function without phis and landing pads is accepted if each of its blocks reads only what the block
itself has computed. That can be decided with no search for dominators. Main statement:
`Module.accepted_of_isLocal`.
-/

namespace EdgeProbe

/-- The value is no instruction or one of these. -/
def Value.isAmong (ids : List InstId) : Value → Bool
  | .inst id => ids.contains id
  | _ => true

theorem Value.mem_of_isAmong {ids : List InstId} {id : InstId}
    (h : (Value.inst id).isAmong ids = true) : id ∈ ids := by
  simpa [isAmong] using h

namespace Function

def haveOneType (f : Function) (lhs rhs : Value) : Bool :=
  match f.valueType lhs, f.valueType rhs with
  | .ok l, .ok r => l == r
  | _, _ => false

theorem exists_of_haveOneType {f : Function} {lhs rhs : Value} (h : f.haveOneType lhs rhs = true) :
    ∃ ty, f.valueType lhs = .ok ty ∧ f.valueType rhs = .ok ty := by
  unfold haveOneType at h
  split at h
  · next l r hl hr =>
    obtain rfl := beq_iff_eq.mp h
    exact ⟨l, hl, hr⟩
  · cases h

/-- What is asked of an instruction behind others of its block. -/
def isLocalInst (m : Module) (f : Function) (block : BlockId) (front : List InstId) (id : InstId) :
    Bool :=
  match f.inst id with
  | .error _ => false
  | .ok inst =>
    inst.block == some block && !inst.kind.isPhi && !inst.kind.isLandingPad &&
      inst.kind.operands.all (·.isAmong front) &&
      (inst.kind.paired?.all fun operands => f.haveOneType operands.1 operands.2) &&
      match inst.kind with
      | .call (.direct target) args _ =>
        match m.function target with
        | .ok g => g.params.length == args.length
        | .error _ => false
      | _ => true

def isLocalBlock (m : Module) (f : Function) (id : BlockId) : Bool :=
  match f.block id with
  | .error _ => false
  | .ok b =>
    b.term.successors.all f.layout.contains && b.term.operands.all (·.isAmong b.insts) &&
      (b.insts.zipIdx.all fun entry => f.isLocalInst m id (b.insts.take entry.2) entry.1) &&
      match b.term with
      | .invoke _ _ _ _ => false
      | .condBr cond _ _ => f.haveOneType cond (.ofBool true)
      | _ => true

def isLocal (m : Module) (f : Function) : Bool :=
  decide f.layout.Nodup && f.layout.all (f.isLocalBlock m) &&
    (match m.checkNames f with
      | .ok () => true
      | .error _ => false) &&
    match f.liveInsts with
    | .ok ids => decide ids.Nodup
    | .error _ => false

/-- What `isLocal` says. -/
structure Local (m : Module) (f : Function) : Prop where
  layout : f.layout.Nodup
  names : m.checkNames f = .ok ()
  once : ∀ ids, f.liveInsts = .ok ids → ids.Nodup
  blocks : ∀ b ∈ f.layout, ∃ blk, f.block b = .ok blk ∧ blk.insts.Nodup ∧
    (∀ s ∈ blk.term.successors, s ∈ f.layout) ∧
    (∀ used, .inst used ∈ blk.term.operands → used ∈ blk.insts) ∧
    (∀ cond onTrue onFalse, blk.term = .condBr cond onTrue onFalse → f.valueType cond = .ok .i1) ∧
    ∀ callee args normal unwind, blk.term ≠ .invoke callee args normal unwind
  insts : ∀ id b pos, f.Listed id b pos → ∃ inst, f.inst id = .ok inst ∧ inst.block = some b ∧
    inst.kind.isPhi = false ∧ inst.kind.isLandingPad = false ∧
    (∀ used, .inst used ∈ inst.kind.operands → ∃ place < pos, f.Listed used b place) ∧
    (∀ lhs rhs, inst.kind.paired? = some (lhs, rhs) →
      ∃ ty, f.valueType lhs = .ok ty ∧ f.valueType rhs = .ok ty) ∧
    ∀ target args ret, inst.kind = .call (.direct target) args ret →
      ∃ g, m.function target = .ok g ∧ g.params.length = args.length

variable {m : Module} {f : Function}

theorem local_of_isLocal (h : f.isLocal m = true) : f.Local m := by
  unfold isLocal at h
  simp only [Bool.and_eq_true, decide_eq_true_eq, List.all_eq_true] at h
  obtain ⟨⟨⟨hlayout, hblocks⟩, hnames⟩, honce⟩ := h
  have honce : ∃ ids, f.liveInsts = .ok ids ∧ ids.Nodup := by
    split at honce
    · next ids hids => exact ⟨ids, hids, of_decide_eq_true honce⟩
    · cases honce
  obtain ⟨ids, hids, honce⟩ := honce
  refine ⟨hlayout, ?_, fun ids' hids' => Except.ok.inj (hids.symm.trans hids') ▸ honce, ?_, ?_⟩
  · split at hnames
    · assumption
    · cases hnames
  · intro b hb
    have hblock := hblocks b hb
    unfold isLocalBlock at hblock
    split at hblock
    · cases hblock
    next blk hblk =>
    simp only [Bool.and_eq_true, List.all_eq_true] at hblock
    obtain ⟨⟨⟨hsuccessors, hoperands⟩, -⟩, hterm⟩ := hblock
    refine ⟨blk, hblk, nodup_of_liveInsts hids honce hb hblk, fun s hs => ?_, fun used hused => ?_,
      fun cond onTrue onFalse heq => ?_, fun callee args normal unwind heq => ?_⟩
    · simpa using hsuccessors s hs
    · exact Value.mem_of_isAmong (hoperands _ hused)
    · rw [heq] at hterm
      obtain ⟨ty, hcond, hbit⟩ := exists_of_haveOneType hterm
      rw [hcond, ← hbit]
      exact valueType_ofWord f 1 _
    · rw [heq] at hterm
      cases hterm
  · rintro id b pos ⟨hb, blk, hblk, hpos⟩
    have hblock := hblocks b hb
    unfold isLocalBlock at hblock
    rw [hblk] at hblock
    simp only [Bool.and_eq_true, List.all_eq_true] at hblock
    obtain ⟨⟨-, hinsts⟩, -⟩ := hblock
    have hinst := hinsts (id, pos) (List.mk_mem_zipIdx_iff_getElem?.mpr hpos)
    unfold isLocalInst at hinst
    split at hinst
    · cases hinst
    next inst hfound =>
    simp only [Bool.and_eq_true, beq_iff_eq, Bool.not_eq_true', List.all_eq_true] at hinst
    obtain ⟨⟨⟨⟨⟨hparent, hphi⟩, hpad⟩, hoperands⟩, hpaired⟩, harity⟩ := hinst
    refine ⟨inst, hfound, hparent, hphi, hpad, fun used hused => ?_, fun lhs rhs hpair => ?_,
      fun target args ret hkind => ?_⟩
    · obtain ⟨place, hplace⟩ :=
        List.mem_iff_getElem?.mp (Value.mem_of_isAmong (hoperands _ hused))
      rw [List.getElem?_take] at hplace
      split at hplace
      · next hlt => exact ⟨place, hlt, hb, blk, hblk, hplace⟩
      · cases hplace
    · rw [hpair] at hpaired
      exact exists_of_haveOneType hpaired
    · rw [hkind] at harity
      dsimp only at harity
      split at harity
      · next g hg => exact ⟨g, hg, beq_iff_eq.mp harity⟩
      · cases harity

theorem named_of_checkNames (h : m.checkNames f = .ok ()) : f.Named m := by
  obtain ⟨-, hblocks, hinsts, htokens⟩ := Module.checkNames_ok h
  have hall := Module.checkBlockNames_ok hblocks
  refine ⟨?_, ?_, ?_, ?_, ?_⟩
  · exact fun b blk hblk id hid => of_decide_eq_true ((hall blk (mem_toList_blocks hblk)).1 id hid)
  · exact fun b blk hblk s hs => of_decide_eq_true ((hall blk (mem_toList_blocks hblk)).2.1 s hs)
  · exact fun b blk hblk => (hall blk (mem_toList_blocks hblk)).2.2
  · intro id kind hkind
    obtain ⟨inst, hmem, rfl⟩ := mem_toList_insts hkind
    exact Module.checkInstNames_ok hinsts inst hmem
  · intro id hid
    obtain ⟨token, htoken⟩ := List.exists_mem_of_ne_nil _ hid
    exact of_decide_eq_true (htokens (id, token) (Annotations.mem_toList.mpr htoken))

theorem Local.named (h : f.Local m) : f.Named m :=
  named_of_checkNames h.names

theorem Local.exists_kind (h : f.Local m) {id : InstId} {b : BlockId} {pos : Nat} {kind : InstKind}
    (hid : f.Listed id b pos) (hkind : f.kind id = .ok kind) :
    kind.isPhi = false ∧ kind.isLandingPad = false := by
  obtain ⟨inst, hinst, -, hphi, hpad, -⟩ := h.insts id b pos hid
  obtain rfl := Except.ok.inj ((kind_eq_ok.mpr ⟨inst, hinst, rfl⟩).symm.trans hkind)
  exact ⟨hphi, hpad⟩

theorem Local.closed (h : f.Local m) : f.Closed where
  inArena := by
    intro b hb
    obtain ⟨blk, hblk, -⟩ := h.blocks b hb
    exact index_lt_of_block hblk
  toLive := by
    rintro b hb s ⟨succs, hsuccs, hs⟩
    obtain ⟨blk, hblk, -, hsuccessors, -⟩ := h.blocks b hb
    rw [successors_of_block hblk] at hsuccs
    obtain rfl := Except.ok.inj hsuccs
    exact hsuccessors s hs

theorem Local.tidy (h : f.Local m) : f.Tidy where
  closed := h.closed
  home := by
    intro id b pos hid
    obtain ⟨inst, hinst, hparent, -⟩ := h.insts id b pos hid
    exact ⟨inst, hinst, hparent⟩
  nodup := by
    intro b hb blk hblk
    obtain ⟨blk', hblk', hnodup, -⟩ := h.blocks b hb
    obtain rfl := Except.ok.inj (hblk.symm.trans hblk')
    exact hnodup
  operands := fun id _ _ kind _ hkind => below_of_knowsKind (h.named.kinds id kind hkind)
  termOperands := fun b _ blk hblk => below_of_knowsTerminator (h.named.terminators b blk hblk)
  sources := fun _ _ _ _ _ hid hkind => by cases (h.exists_kind hid hkind).1
  phisLead := fun _ _ _ _ _ hid hkind => by cases (h.exists_kind hid hkind).1
  entries := fun _ _ _ _ _ hid hkind => by cases (h.exists_kind hid hkind).1

theorem Local.sound {exempt : BlockId → Prop} (h : f.Local m) : f.Sound m exempt where
  tidy := h.tidy
  named := h.named
  layout := h.layout
  unwind := by
    intro b hb blk hblk callee args normal unwind hterm
    obtain ⟨blk', hblk', -, -, -, -, hnot⟩ := h.blocks b hb
    obtain rfl := Except.ok.inj (hblk.symm.trans hblk')
    exact absurd hterm (hnot callee args normal unwind)
  sources := fun _ _ _ _ _ hid hkind => by cases (h.exists_kind hid hkind).1
  padsLead := fun _ _ _ hid hkind => by cases (h.exists_kind hid hkind).2
  padEdges := fun _ _ _ hid hkind => by cases (h.exists_kind hid hkind).2
  paired := by
    intro id b pos kind lhs rhs hid hkind
    obtain ⟨inst, hinst, -, -, -, -, hpaired, -⟩ := h.insts id b pos hid
    obtain rfl := Except.ok.inj ((kind_eq_ok.mpr ⟨inst, hinst, rfl⟩).symm.trans hkind)
    exact hpaired lhs rhs
  arity := by
    intro id b pos target args ret hid hkind
    obtain ⟨inst, hinst, -, -, -, -, -, harity⟩ := h.insts id b pos hid
    exact harity target args ret
      (Except.ok.inj ((kind_eq_ok.mpr ⟨inst, hinst, rfl⟩).symm.trans hkind))
  conditions := by
    intro b hb blk hblk
    obtain ⟨blk', hblk', -, -, -, hcond, -⟩ := h.blocks b hb
    obtain rfl := Except.ok.inj (hblk.symm.trans hblk')
    exact hcond
  phiUses := fun _ _ _ _ _ hid hkind => by cases (h.exists_kind hid hkind).1
  uses := by
    intro id b pos kind hid hkind _ used hused
    obtain ⟨inst, hinst, -, -, -, huses, -⟩ := h.insts id b pos hid
    obtain rfl := Except.ok.inj ((kind_eq_ok.mpr ⟨inst, hinst, rfl⟩).symm.trans hkind)
    obtain ⟨place, hlt, hplace⟩ := huses used hused
    exact ⟨b, place, hplace, fun _ => .inl ⟨rfl, fun p hp => Option.some.inj hp ▸ hlt⟩⟩
  termUses := by
    intro b hb blk hblk used hused
    obtain ⟨blk', hblk', -, -, hoperands, -⟩ := h.blocks b hb
    obtain rfl := Except.ok.inj (hblk.symm.trans hblk')
    obtain ⟨place, hplace⟩ := List.mem_iff_getElem?.mp (hoperands used hused)
    exact ⟨b, place, ⟨hb, blk, hblk, hplace⟩, fun _ => .inl ⟨rfl, nofun⟩⟩

end Function

namespace Module

/-- All functions with a body are local. -/
def isLocal (m : Module) : Bool :=
  m.functions.toList.all fun f => f.isDeclaration || f.isLocal m

variable {m : Module}

theorem local_of_isLocal (h : m.isLocal = true) {id : FuncId} {f : Function}
    (hid : m.function id = .ok f) (hbody : f.isDeclaration = false) : f.Local m := by
  have hf := List.all_eq_true.mp h f (mem_of_function hid)
  rw [hbody, Bool.false_or] at hf
  exact Function.local_of_isLocal hf

theorem accepted_of_isLocal (h : m.isLocal = true) : m.Accepted :=
  Sound.accepted fun _ _ hid hbody => (local_of_isLocal h hid hbody).sound

theorem listsOnce_of_isLocal (h : m.isLocal = true) : m.ListsOnce := by
  intro id f hid ids hids
  cases hbody : f.isDeclaration with
  | false => exact (local_of_isLocal h hid hbody).once ids hids
  | true =>
    obtain ⟨lists, hlists, rfl⟩ := Function.liveInsts_eq_ok.mp hids
    rw [List.isEmpty_iff.mp hbody] at hlists
    obtain rfl := Checked.pure_eq_ok.mp hlists
    exact List.nodup_nil

end Module

/-! ## Operands of two types -/

/-- Some live instruction asks for operands of one type and has others. -/
def Function.isMixed (f : Function) : Bool :=
  match f.liveInsts with
  | .error _ => false
  | .ok ids => ids.any fun id =>
    match f.kind id with
    | .error _ => false
    | .ok kind => kind.paired?.any fun operands => !f.haveOneType operands.1 operands.2

/-- No function of an accepted module mixes types. -/
theorem Module.Accepted.not_isMixed {m : Module} (hm : m.Accepted) {id : FuncId} {f : Function}
    (hid : m.function id = .ok f) : f.isMixed = false := by
  rw [Bool.eq_false_iff]
  intro hmixed
  unfold Function.isMixed at hmixed
  split at hmixed
  · cases hmixed
  next ids hids =>
  obtain ⟨call, hcall, hmixed⟩ := List.any_eq_true.mp hmixed
  obtain ⟨b, pos, hlisted⟩ := Function.listed_of_liveInsts hids hcall
  have hbody : f.isDeclaration = false := by
    rw [Function.isDeclaration, List.isEmpty_eq_false_iff]
    exact List.ne_nil_of_mem hlisted.1
  split at hmixed
  · cases hmixed
  next kind hkind =>
  cases hpaired : kind.paired? with
  | none => simp [hpaired] at hmixed
  | some operands =>
  obtain ⟨lhs, rhs⟩ := operands
  obtain ⟨phis, preds, -, -, hshape⟩ := (hm.wellFormed hid hbody).hasShape hlisted hkind
  obtain ⟨ty, hl, hr⟩ : ∃ ty, f.valueType lhs = .ok ty ∧ f.valueType rhs = .ok ty := by
    cases kind <;> cases hpaired <;> exact hshape
  simp [hpaired, Function.haveOneType, hl, hr] at hmixed

end EdgeProbe
