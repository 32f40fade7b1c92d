import EdgeProbe.Proofs.Code.Whole

/-!
# Functions that are accepted

`Sound` is what `Module.verify` asks of a function, in terms that a change of code can be followed
through: nothing is sorted or counted in it. Blocks may be exempt from what is asked of the edges
into a landing pad, as some are while their pads are taken apart. Main statement:
`Function.WellFormed.sound`.
-/

namespace EdgeProbe

/-- A lookup that finds something is passed by. -/
theorem Check.passes_lift_bind {α β : Type} {x : Checked α} {a : α} {k : α → Check β} {b : β}
    (hx : x = .ok a) : Check.Passes (liftM x >>= k) b ↔ (k a).Passes b := by
  rw [Check.passes_bind]
  constructor
  · rintro ⟨a', ha', h⟩
    obtain rfl := Except.ok.inj (hx.symm.trans (Check.passes_lift.mp ha'))
    exact h
  · exact fun h => ⟨a, Check.passes_lift.mpr hx, h⟩

namespace Annotations

variable {a : Annotations} {entry : InstId × Token}

theorem mem_toList : entry ∈ a.toList ↔ entry.2 ∈ a.get entry.1 := by
  obtain ⟨id, token⟩ := entry
  have hlookup : ∀ entries : List (InstId × List Token),
      entries.Pairwise (fun x y => compare x.1 y.1 = .lt) →
        ((id, token) ∈ entries.flatMap (fun e => e.2.map fun t => (e.1, t)) ↔
          token ∈ (entries.lookup id).getD []) := by
    intro entries hentries
    induction entries with
    | nil => simp
    | cons first rest ih =>
      obtain ⟨hfirst, hrest⟩ := List.pairwise_cons.mp hentries
      rw [List.flatMap_cons, List.mem_append, ih hrest, SortedMap.lookup_cons_eq_ite]
      by_cases heq : id = first.1
      · subst heq
        rw [SortedMap.lookup_eq_none_of_lt hfirst]
        simp
      · simp [heq, Ne.symm heq]
  exact hlookup a.lists.entries a.lists.ascending

end Annotations

namespace BlockId

theorem nodup_sort {ids : List BlockId} : (sort ids).Nodup ↔ ids.Nodup :=
  (List.mergeSort_perm ids _).nodup_iff

theorem pairwise_sort (ids : List BlockId) :
    (sort ids).Pairwise fun a b => a.index ≤ b.index := by
  have h : (sort ids).Pairwise fun a b => decide (a.index ≤ b.index) := List.pairwise_mergeSort
    (fun a b c hab hbc => by simp at *; omega) (fun a b => by simp; omega) ids
  exact h.imp fun hab => of_decide_eq_true hab

theorem pairwise_withoutRepeats {ids : List BlockId}
    (h : ids.Pairwise fun a b => a.index ≤ b.index) :
    (withoutRepeats ids).Pairwise fun a b => a.index < b.index := by
  induction ids with
  | nil => exact .nil
  | cons first rest ih =>
    obtain ⟨hfirst, hrest⟩ := List.pairwise_cons.mp h
    rw [withoutRepeats]
    split
    · exact ih hrest
    next hne =>
    refine List.pairwise_cons.mpr ⟨fun b hb => ?_, ih hrest⟩
    rw [mem_withoutRepeats] at hb
    refine lt_of_le_of_ne (hfirst b hb) fun heq => hne ?_
    -- The next one lies between this one and its equal.
    cases rest with
    | nil => cases hb
    | cons next more =>
      have hnext := hfirst next List.mem_cons_self
      have hle : next.index ≤ b.index := by
        obtain rfl | hb := List.mem_cons.mp hb
        · exact le_rfl
        · exact (List.pairwise_cons.mp hrest).1 b hb
      have hindex : next.index = first.index := by omega
      exact beq_iff_eq.mpr (congrArg some (congrArg BlockId.mk hindex))

/-- The sources of a phi, in order, are the predecessors without repetition exactly when they are
the predecessors and none of them is repeated. -/
theorem sort_eq_withoutRepeats_iff {sources preds : List BlockId} :
    sort sources = withoutRepeats (sort preds) ↔
      sources.Nodup ∧ ∀ b, b ∈ sources ↔ b ∈ preds := by
  have hstrict := pairwise_withoutRepeats (pairwise_sort preds)
  constructor
  · intro h
    refine ⟨?_, fun b => ?_⟩
    · rw [← nodup_sort, h]
      exact hstrict.imp fun hlt heq => absurd (congrArg index heq) hlt.ne
    · rw [← mem_sort, h, mem_withoutRepeats, mem_sort]
  · rintro ⟨hnodup, hmem⟩
    have hsorted : (sort sources).Pairwise fun a b => a.index < b.index := by
      refine ((pairwise_sort sources).and (nodup_sort.mpr hnodup)).imp ?_
      rintro a b ⟨hle, hne⟩
      exact lt_of_le_of_ne hle fun heq => hne (congrArg BlockId.mk heq)
    have : Std.Irrefl fun a b : BlockId => a.index < b.index := ⟨fun a => lt_irrefl _⟩
    refine hsorted.eq_of_mem_iff hstrict fun b => ?_
    rw [mem_sort, mem_withoutRepeats, mem_sort, hmem]

end BlockId

/-- The operands of an instruction that are to have one type. -/
def InstKind.paired? : InstKind → Option (Value × Value)
  | .icmp _ lhs rhs | .binary _ lhs rhs => some (lhs, rhs)
  | _ => none

namespace Function

/-- Every index in a function lies inside the arena it points into. -/
structure Named (m : Module) (f : Function) : Prop where
  insts : ∀ b blk, f.block b = .ok blk → ∀ id ∈ blk.insts, id.index < f.insts.size
  successors : ∀ b blk, f.block b = .ok blk → ∀ s ∈ blk.term.successors, s.index < f.blocks.size
  terminators : ∀ b blk, f.block b = .ok blk → m.knowsTerminator f blk.term = true
  kinds : ∀ id kind, f.kind id = .ok kind → m.knowsKind f kind = true
  tokens : ∀ id, f.annotations.get id ≠ [] → id.index < f.insts.size

theorem Named.whole {m : Module} {f : Function} (h : f.Named m) : f.Whole :=
  ⟨h.insts, h.successors⟩

/-- The block ends in an invocation from which the other one is reached by unwinding only. -/
def Unwinds (f : Function) (a b : BlockId) : Prop :=
  ∃ blk callee args normal, f.block a = .ok blk ∧ blk.term = .invoke callee args normal b ∧
    normal ≠ b

/-- What an accepted function that lists no instruction twice satisfies as a part of a module, but
for the edges into the landing pads of some blocks. -/
structure Sound (m : Module) (exempt : BlockId → Prop) (f : Function) : Prop where
  tidy : f.Tidy
  named : f.Named m
  layout : f.layout.Nodup
  unwind : ∀ b ∈ f.layout, ∀ blk, f.block b = .ok blk → ∀ callee args normal unwind,
    blk.term = .invoke callee args normal unwind →
      ∃ id pos, f.Listed id unwind pos ∧ f.kind id = .ok .landingPad
  sources : ∀ id b pos ty incoming, f.Listed id b pos → f.kind id = .ok (.phi ty incoming) →
    (incoming.map (·.2)).Nodup ∧ ∀ source ∈ incoming.map (·.2), source ∈ f.layout ∧ f.Edge source b
  padsLead : ∀ id b pos, f.Listed id b pos → f.kind id = .ok .landingPad →
    ∀ before < pos, ∀ id', f.Listed id' b before → ∃ ty incoming, f.kind id' = .ok (.phi ty incoming)
  padEdges : ∀ id b pos, f.Listed id b pos → f.kind id = .ok .landingPad → ¬exempt b →
    (∃ a ∈ f.layout, f.Edge a b) ∧ ∀ a ∈ f.layout, f.Edge a b → f.Unwinds a b
  paired : ∀ id b pos kind lhs rhs, f.Listed id b pos → f.kind id = .ok kind →
    kind.paired? = some (lhs, rhs) → ∃ ty, f.valueType lhs = .ok ty ∧ f.valueType rhs = .ok ty
  arity : ∀ id b pos target args ret, f.Listed id b pos →
    f.kind id = .ok (.call (.direct target) args ret) →
      ∃ g, m.function target = .ok g ∧ g.params.length = args.length
  conditions : ∀ b ∈ f.layout, ∀ blk, f.block b = .ok blk → ∀ cond onTrue onFalse,
    blk.term = .condBr cond onTrue onFalse → f.valueType cond = .ok .i1
  phiUses : ∀ id b pos ty incoming, f.Listed id b pos → f.kind id = .ok (.phi ty incoming) →
    ∀ used source, (.inst used, source) ∈ incoming → f.Precedes used source none
  uses : ∀ id b pos kind, f.Listed id b pos → f.kind id = .ok kind → kind.isPhi = false →
    ∀ used, .inst used ∈ kind.operands → f.Precedes used b (some pos)
  termUses : ∀ b ∈ f.layout, ∀ blk, f.block b = .ok blk →
    ∀ used, .inst used ∈ blk.term.operands → f.Precedes used b none

end Function

/-! ## What is known -/

namespace Module

/-- Everything that the first function, as a part of the first module, may name is there in the
second one. -/
structure Grows (m : Module) (f : Function) (m' : Module) (f' : Function) : Prop where
  globals : m.globals.size ≤ m'.globals.size
  functions : m.functions.size ≤ m'.functions.size
  params : f'.params = f.params
  insts : f.insts.size ≤ f'.insts.size
  blocks : f.blocks.size ≤ f'.blocks.size

variable {m m' : Module} {f f' : Function} (h : m.Grows f m' f')
include h

theorem Grows.knowsValue {value : Value} (hvalue : m.knowsValue f value = true) :
    m'.knowsValue f' value = true := by
  cases value with
  | inst id => exact decide_eq_true ((of_decide_eq_true hvalue).trans_le h.insts)
  | arg index =>
    rw [Module.knowsValue, h.params]
    exact hvalue
  | global id => exact decide_eq_true ((of_decide_eq_true hvalue).trans_le h.globals)
  | func id => exact decide_eq_true ((of_decide_eq_true hvalue).trans_le h.functions)
  | const c => rfl

theorem Grows.knowsCallee {callee : Callee} (hcallee : m.knowsCallee callee = true) :
    m'.knowsCallee callee = true := by
  cases callee with
  | direct id => exact decide_eq_true ((of_decide_eq_true hcallee).trans_le h.functions)
  | indirect target => rfl

theorem Grows.knowsTerminator {term : Terminator} (hterm : m.knowsTerminator f term = true) :
    m'.knowsTerminator f' term = true := by
  unfold Module.knowsTerminator at hterm ⊢
  rw [Bool.and_eq_true, List.all_eq_true] at hterm ⊢
  refine ⟨fun value hvalue => h.knowsValue (hterm.1 value hvalue), ?_⟩
  cases term with
  | invoke callee args normal unwind => exact h.knowsCallee hterm.2
  | _ => rfl

theorem Grows.knowsKind {kind : InstKind} (hkind : m.knowsKind f kind = true) :
    m'.knowsKind f' kind = true := by
  unfold Module.knowsKind at hkind ⊢
  rw [Bool.and_eq_true, List.all_eq_true] at hkind ⊢
  refine ⟨fun value hvalue => h.knowsValue (hkind.1 value hvalue), ?_⟩
  cases kind with
  | phi ty incoming =>
    refine List.all_eq_true.mpr fun entry hentry => ?_
    have hknown := List.all_eq_true.mp hkind.2 entry hentry
    exact decide_eq_true ((of_decide_eq_true hknown).trans_le h.blocks)
  | call callee args ret => exact h.knowsCallee hkind.2
  | _ => rfl

end Module

/-! ## The shape of a block -/

namespace Function

variable {f : Function} {a b : BlockId}

theorem unwindsOnlyTo_eq_true : f.unwindsOnlyTo b a = .ok true ↔ f.Unwinds a b := by
  unfold unwindsOnlyTo Unwinds
  rw [Checked.bind_eq_ok]
  constructor
  · rintro ⟨blk, hblk, h⟩
    cases hterm : blk.term with
    | invoke callee args normal unwind =>
      rw [hterm] at h
      obtain ⟨rfl, hne⟩ : unwind = b ∧ normal ≠ b := by simpa using Checked.pure_eq_ok.mp h
      exact ⟨blk, callee, args, normal, hblk, hterm, hne⟩
    | _ =>
      rw [hterm] at h
      cases h
  · rintro ⟨blk, callee, args, normal, hblk, hterm, hne⟩
    refine ⟨blk, hblk, ?_⟩
    rw [hterm]
    exact Checked.pure_eq_ok.mpr (by simpa using hne)

theorem allUnwindTo_eq_true {preds : List BlockId} (hpreds : ∀ a ∈ preds, ∃ blk, f.block a = .ok blk) :
    f.allUnwindTo b preds = .ok true ↔ ∀ a ∈ preds, f.Unwinds a b := by
  induction preds with
  | nil => exact ⟨fun _ => nofun, fun _ => rfl⟩
  | cons a rest ih =>
    obtain ⟨⟨blk, hblk⟩, hrest⟩ := List.forall_mem_cons.mp hpreds
    rw [allUnwindTo, List.forall_mem_cons, ← unwindsOnlyTo_eq_true, ← ih hrest, Checked.bind_eq_ok]
    constructor
    · rintro ⟨only, honly, h⟩
      cases only with
      | true => exact ⟨honly, h⟩
      | false => cases h
    · rintro ⟨honly, h⟩
      exact ⟨true, honly, h⟩

/-- What is asked of an instruction at a position of a block, given how many phis lead the block
and its predecessors. -/
def HasShape (m : Module) (f : Function) (b : BlockId) (phiCount : Nat) (preds : List BlockId)
    (pos : Nat) : InstKind → Prop
  | .phi _ incoming =>
    pos < phiCount ∧ (incoming.map (·.2)).Nodup ∧ ∀ s, s ∈ incoming.map (·.2) ↔ s ∈ preds
  | .landingPad => pos = phiCount ∧ preds ≠ [] ∧ ∀ a ∈ preds, f.Unwinds a b
  | .icmp _ lhs rhs | .binary _ lhs rhs =>
    ∃ ty, f.valueType lhs = .ok ty ∧ f.valueType rhs = .ok ty
  | .call (.direct target) args _ =>
    ∃ g, m.function target = .ok g ∧ g.params.length = args.length
  | _ => True

end Function

namespace Module

variable {m : Module} {f : Function} {b : BlockId} {preds : List BlockId}

theorem checkInstShape_passes_iff {name : String} {phiCount pos : Nat} {id : InstId}
    {kind : InstKind} (hkind : f.kind id = .ok kind)
    (hpreds : ∀ a ∈ preds, ∃ blk, f.block a = .ok blk) :
    (m.checkInstShape f b name phiCount preds (BlockId.withoutRepeats (BlockId.sort preds)) pos
      id).Passes () ↔ f.HasShape m b phiCount preds pos kind := by
  have hpaired : ∀ {lhs rhs : Value} {flaw : Ty → Ty → Flaw}, (Check.Passes (do
      let l ← f.valueType lhs
      let r ← f.valueType rhs
      if l != r then throw (flaw l r) : Check Unit) ()) ↔
        ∃ ty, f.valueType lhs = .ok ty ∧ f.valueType rhs = .ok ty := by
    intro lhs rhs flaw
    simp only [Check.passes_bind, Check.passes_lift, Check.passes_guard]
    constructor
    · rintro ⟨l, hl, r, hr, heq⟩
      obtain rfl : l = r := by simpa using heq
      exact ⟨l, hl, hr⟩
    · rintro ⟨ty, hl, hr⟩
      exact ⟨ty, hl, ty, hr, by simp⟩
  rw [checkInstShape, Check.passes_lift_bind hkind]
  cases kind with
  | phi ty incoming =>
    dsimp only
    rw [Check.passes_guard_bind, Check.passes_guard, Function.HasShape,
      ← BlockId.sort_eq_withoutRepeats_iff]
    simp
  | landingPad =>
    dsimp only
    rw [Check.passes_guard_bind, Check.passes_bind, Function.HasShape,
      ← Function.allUnwindTo_eq_true hpreds]
    simp only [Check.passes_lift, Check.passes_guard]
    constructor
    · rintro ⟨hpos, unwound, hunwound, h⟩
      obtain ⟨hne, rfl⟩ : preds ≠ [] ∧ unwound = true := by simpa using h
      exact ⟨by simpa using hpos, hne, hunwound⟩
    · rintro ⟨hpos, hne, hunwound⟩
      exact ⟨by simpa using hpos, true, hunwound, by simpa using hne⟩
  | icmp pred lhs rhs => exact hpaired
  | binary op lhs rhs => exact hpaired
  | call callee args ret =>
    cases callee with
    | direct target =>
      dsimp only
      simp only [Check.passes_bind, Check.passes_lift, Check.passes_guard, Function.HasShape]
      simp
    | indirect target => exact iff_of_true (Check.passes_pure.mpr rfl) trivial
  | _ => exact iff_of_true (Check.passes_pure.mpr rfl) trivial

theorem checkBlockShape_passes_iff {blk : Block} {phis : List InstId} (hblk : f.block b = .ok blk)
    (hphis : f.phis b = .ok phis) (hkinds : ∀ id ∈ blk.insts, ∃ kind, f.kind id = .ok kind)
    (hpreds : ∀ a ∈ preds, ∃ blk, f.block a = .ok blk) :
    (m.checkBlockShape f b preds).Passes () ↔
      (∀ id pos kind, blk.insts[pos]? = some id → f.kind id = .ok kind →
        f.HasShape m b phis.length preds pos kind) ∧
      ∀ cond onTrue onFalse, blk.term = .condBr cond onTrue onFalse →
        f.valueType cond = .ok .i1 := by
  rw [checkBlockShape, Check.passes_lift_bind hblk, Check.passes_lift_bind hphis, Check.passes_bind]
  have hinsts : (∀ entry ∈ blk.insts.zipIdx, (m.checkInstShape f b blk.name phis.length preds
      (BlockId.withoutRepeats (BlockId.sort preds)) entry.2 entry.1).Passes ()) ↔
      ∀ id pos kind, blk.insts[pos]? = some id → f.kind id = .ok kind →
        f.HasShape m b phis.length preds pos kind := by
    constructor
    · intro h id pos kind hpos hkind
      exact (checkInstShape_passes_iff hkind hpreds).mp
        (h (id, pos) (List.mk_mem_zipIdx_iff_getElem?.mpr hpos))
    · rintro h ⟨id, pos⟩ hmem
      have hpos := List.mk_mem_zipIdx_iff_getElem?.mp hmem
      obtain ⟨kind, hkind⟩ := hkinds id (List.mem_of_getElem? hpos)
      exact (checkInstShape_passes_iff hkind hpreds).mpr (h id pos kind hpos hkind)
  have hcondition : ∀ cond, Check.Passes (do
      if (← f.valueType cond) != .i1 then throw (.branchCondition blk.name) : Check Unit) () ↔
      f.valueType cond = .ok .i1 := by
    intro cond
    simp only [Check.passes_bind, Check.passes_lift, Check.passes_guard]
    simp
  constructor
  · rintro ⟨u, hall, h⟩
    refine ⟨hinsts.mp (Check.passes_forM.mp hall), fun cond onTrue onFalse hterm => ?_⟩
    rw [hterm] at h
    exact (hcondition cond).mp h
  · rintro ⟨hall, h⟩
    refine ⟨(), Check.passes_forM.mpr (hinsts.mpr hall), ?_⟩
    cases hterm : blk.term with
    | condBr cond onTrue onFalse => exact (hcondition cond).mpr (h cond onTrue onFalse hterm)
    | _ => simp

end Module

/-! ## From accepted to sound -/

namespace Function

variable {m : Module} {f : Function} {a b : BlockId} {exempt : BlockId → Prop}

theorem Closed.block_of_mem (hf : f.Closed) (hb : b ∈ f.layout) : ∃ blk, f.block b = .ok blk :=
  ⟨_, block_eq_ok.mpr (Array.getElem?_eq_getElem (hf.inArena b hb))⟩

theorem Closed.block_of_mem_predecessors (hf : f.Closed) {preds : List BlockId}
    (hpreds : f.predecessors b = .ok preds) : ∀ a ∈ preds, ∃ blk, f.block a = .ok blk :=
  fun _ ha => hf.block_of_mem ((mem_edgesInto hpreds).mp ha).1

/-- A block whose first instruction behind the phis is a landing pad has one. -/
theorem exists_landingPad {b : BlockId} (hb : b ∈ f.layout) (h : f.isLandingPad b = .ok true) :
    ∃ id pos, f.Listed id b pos ∧ f.kind id = .ok .landingPad := by
  unfold isLandingPad at h
  obtain ⟨blk, hblk, h⟩ := Checked.bind_eq_ok.mp h
  obtain ⟨found, hfound, h⟩ := Checked.bind_eq_ok.mp h
  cases found with
  | none => cases h
  | some id =>
    obtain ⟨kind, hkind, h⟩ := Checked.bind_eq_ok.mp h
    have hmem : id ∈ blk.insts := by
      clear h hblk
      generalize blk.insts = ids at hfound
      induction ids with
      | nil => cases hfound
      | cons first rest ih =>
        rw [firstWith?] at hfound
        obtain ⟨kind, -, hfound⟩ := Checked.bind_eq_ok.mp hfound
        split at hfound
        · obtain rfl := Option.some.inj (Except.ok.inj hfound)
          exact List.mem_cons_self
        · exact List.mem_cons_of_mem _ (ih hfound)
    obtain ⟨pos, hpos⟩ := List.mem_iff_getElem?.mp hmem
    refine ⟨id, pos, ⟨hb, blk, hblk, hpos⟩, ?_⟩
    cases kind with
    | landingPad => exact hkind
    | _ => cases h

theorem WellFormed.named (hf : f.WellFormed m) : f.Named m where
  insts := fun b blk hblk id hid => of_decide_eq_true (hf.knowsInsts b blk hblk id hid)
  successors := fun b blk hblk s hs => of_decide_eq_true (hf.knowsSuccessors b blk hblk s hs)
  terminators := hf.knowsTerminator
  kinds := hf.knowsKind
  tokens := by
    intro id hid
    obtain ⟨token, htoken⟩ := List.exists_mem_of_ne_nil _ hid
    exact of_decide_eq_true (hf.knowsTokens (id, token) (Annotations.mem_toList.mpr htoken))

theorem Named.exists_kind (hf : f.Named m) {blk : Block} (hblk : f.block b = .ok blk) :
    ∀ id ∈ blk.insts, ∃ kind, f.kind id = .ok kind := by
  intro id hid
  have hlt := hf.insts b blk hblk id hid
  exact ⟨_, kind_eq_ok.mpr ⟨_, inst_eq_ok.mpr (Array.getElem?_eq_getElem hlt), rfl⟩⟩

theorem WellFormed.blockShape (hf : f.WellFormed m) (hb : b ∈ f.layout) :
    ∃ blk phis preds, f.block b = .ok blk ∧ f.phis b = .ok phis ∧ f.predecessors b = .ok preds ∧
      (∀ id pos kind, blk.insts[pos]? = some id → f.kind id = .ok kind →
        f.HasShape m b phis.length preds pos kind) ∧
      ∀ cond onTrue onFalse, blk.term = .condBr cond onTrue onFalse →
        f.valueType cond = .ok .i1 := by
  obtain ⟨preds, hpreds, hshape⟩ := hf.shape b hb
  obtain ⟨blk, phis, hblk, hphis⟩ := hf.phis_eq_ok hb
  exact ⟨blk, phis, preds, hblk, hphis, hpreds,
    (Module.checkBlockShape_passes_iff hblk hphis (hf.named.exists_kind hblk)
      (hf.closed.block_of_mem_predecessors hpreds)).mp hshape⟩

theorem WellFormed.hasShape (hf : f.WellFormed m) {id : InstId} {pos : Nat}
    (hid : f.Listed id b pos) {kind : InstKind} (hkind : f.kind id = .ok kind) :
    ∃ phis preds, f.phis b = .ok phis ∧ f.predecessors b = .ok preds ∧
      f.HasShape m b phis.length preds pos kind := by
  obtain ⟨hb, blk, hblk, hpos⟩ := hid
  obtain ⟨blk', phis, preds, hblk', hphis, hpreds, hinsts, -⟩ := hf.blockShape hb
  obtain rfl := Except.ok.inj (hblk.symm.trans hblk')
  exact ⟨phis, preds, hphis, hpreds, hinsts id pos kind hpos hkind⟩

/-- What an invocation unwinds to has a landing pad. -/
theorem WellFormed.unwindLands (hf : f.WellFormed m) : ∀ b ∈ f.layout, ∀ blk, f.block b = .ok blk →
    ∀ callee args normal unwind, blk.term = .invoke callee args normal unwind →
      ∃ id pos, f.Listed id unwind pos ∧ f.kind id = .ok .landingPad := by
  intro b hb blk hblk callee args normal unwind hterm
  refine exists_landingPad (hf.closed.toLive b hb unwind ?_) (hf.unwind b hb blk hblk _ _ _ _ hterm)
  exact ⟨_, successors_of_block hblk, by simp [hterm, Terminator.successors]⟩

/-- Phis only stand before a landing pad. -/
theorem WellFormed.padsLead (hf : f.WellFormed m) : ∀ id b pos, f.Listed id b pos →
    f.kind id = .ok .landingPad → ∀ before < pos, ∀ id', f.Listed id' b before →
      ∃ ty incoming, f.kind id' = .ok (.phi ty incoming) := by
  intro id b pos hid hkind before hbefore id' hid'
  obtain ⟨phis, preds, hphis, hpreds, hpos, -, -⟩ := hf.hasShape hid hkind
  obtain ⟨blk, hblk, hlead⟩ := Function.phis_eq_ok hphis
  obtain ⟨back, hinsts, -, -⟩ := leading_eq_ok hlead
  obtain ⟨-, blk', hblk', hget⟩ := hid'
  obtain rfl := Except.ok.inj (hblk.symm.trans hblk')
  apply kind_of_mem_phis hphis
  rw [hinsts, List.getElem?_append_left (by omega)] at hget
  exact List.mem_of_getElem? hget

/-- Only unwinding leads to a landing pad, and something does. -/
theorem WellFormed.padEdges (hf : f.WellFormed m) {id : InstId} {pos : Nat}
    (hid : f.Listed id b pos) (hkind : f.kind id = .ok .landingPad) :
    (∃ a ∈ f.layout, f.Edge a b) ∧ ∀ a ∈ f.layout, f.Edge a b → f.Unwinds a b := by
  obtain ⟨phis, preds, -, hpreds, -, hne, hunwinds⟩ := hf.hasShape hid hkind
  obtain ⟨a, ha⟩ := List.exists_mem_of_ne_nil _ hne
  exact ⟨⟨a, (mem_edgesInto hpreds).mp ha⟩,
    fun a ha hedge => hunwinds a ((mem_edgesInto hpreds).mpr ⟨ha, hedge⟩)⟩

theorem WellFormed.sound (hf : f.WellFormed m)
    (hnodup : ∀ ids, f.liveInsts = .ok ids → ids.Nodup) : f.Sound m exempt where
  tidy := hf.tidy hnodup
  named := hf.named
  layout := hf.nodup
  unwind := hf.unwindLands
  sources := by
    intro id b pos ty incoming hid hkind
    obtain ⟨phis, preds, -, hpreds, -, hdistinct, hmem⟩ := hf.hasShape hid hkind
    exact ⟨hdistinct, fun source hsource => (mem_edgesInto hpreds).mp ((hmem source).mp hsource)⟩
  padsLead := hf.padsLead
  padEdges := fun _ _ _ hid hkind _ => hf.padEdges hid hkind
  paired := by
    intro id b pos kind lhs rhs hid hkind hpair
    obtain ⟨phis, preds, -, -, hshape⟩ := hf.hasShape hid hkind
    cases kind <;> cases hpair <;> exact hshape
  arity := by
    intro id b pos target args ret hid hkind
    obtain ⟨phis, preds, -, -, hshape⟩ := hf.hasShape hid hkind
    exact hshape
  conditions := by
    intro b hb blk hblk
    obtain ⟨blk', phis, preds, hblk', -, -, -, hterm⟩ := hf.blockShape hb
    obtain rfl := Except.ok.inj (hblk.symm.trans hblk')
    exact hterm
  phiUses := hf.phiUses
  uses := hf.uses
  termUses := hf.termUses

end Function

end EdgeProbe
