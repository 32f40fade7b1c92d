import EdgeProbe.Proofs.Validity.WellFormed
import EdgeProbe.Proofs.Flow.Path
import EdgeProbe.Proofs.Validity.Sound

/-!
# Sound functions are accepted

The other direction of `Function.WellFormed.sound`: every check that is made of a function passes if
the function is sound. The smallest functions that compute something are checked directly: one block
executes one instruction and returns its value, and they are accepted when the instruction is known
and has its shape. Main statement: `Module.Sound.accepted`.
-/

namespace EdgeProbe

namespace Function

/-- The function that executes one instruction and returns its value. -/
def sole (name : String) (params : List Ty) (ret : Ty) (kind : InstKind) : Function where
  name := name
  params := params
  ret := ret
  blocks := #[⟨"entry", [⟨0⟩], .ret (some (.inst ⟨0⟩))⟩]
  layout := [⟨0⟩]
  insts := #[{ kind, block := some ⟨0⟩ }]

end Function

namespace Module

variable {m : Module} {name : String} {params : List Ty} {ret : Ty} {kind : InstKind}

theorem sole_closed : (Function.sole name params ret kind).Closed where
  inArena := by simp [Function.sole]
  toLive := by
    rintro a ha b ⟨succs, hsuccs, hb⟩
    obtain rfl := List.mem_singleton.mp ha
    cases hsuccs
    cases hb

theorem block_sole : (Function.sole name params ret kind).block ⟨0⟩ =
    .ok ⟨"entry", [⟨0⟩], .ret (some (.inst ⟨0⟩))⟩ :=
  rfl

theorem kind_sole : (Function.sole name params ret kind).kind ⟨0⟩ = .ok kind :=
  rfl

theorem checkNames_sole (hkind : m.knowsKind (.sole name params ret kind) kind = true) :
    m.checkNames (.sole name params ret kind) = .ok () := by
  generalize hf : Function.sole name params ret kind = f at *
  have hterm : m.knowsTerminator f (.ret (some (.inst ⟨0⟩))) = true := by
    subst hf
    simp [knowsTerminator, Terminator.operands, knowsValue, Function.hasInst, Function.sole]
  have hblocks : m.checkBlockNames f 0 f.blocks.toList = .ok () := by
    have hlist : f.blocks.toList = [⟨"entry", [⟨0⟩], .ret (some (.inst ⟨0⟩))⟩] := hf ▸ rfl
    have hknown : f.hasInst ⟨0⟩ = true := hf ▸ rfl
    simp [hlist, checkBlockNames, hknown, hterm, Terminator.successors, pure, Except.pure]
  have hinsts : m.checkInstNames f 0 f.insts.toList = .ok () := by
    have hlist : f.insts.toList = [{ kind, block := some ⟨0⟩ }] := hf ▸ rfl
    simp [hlist, checkInstNames, hkind, pure, Except.pure]
  have hlayout : f.layout = [⟨0⟩] := hf ▸ rfl
  have hknown : f.hasBlock ⟨0⟩ = true := hf ▸ rfl
  have htokens : f.annotations.toList = [] := hf ▸ rfl
  simp [checkNames, hlayout, hknown, hblocks, hinsts, htokens, bind, Except.bind, pure, Except.pure]

theorem checkBlockShape_sole
    (hshape : (m.checkInstShape (.sole name params ret kind) ⟨0⟩ "entry" kind.isPhi.toNat [] [] 0
      ⟨0⟩).Passes ()) :
    (m.checkBlockShape (.sole name params ret kind) ⟨0⟩ []).Passes () := by
  have hphis : (Function.sole name params ret kind).phis ⟨0⟩ =
      .ok (if kind.isPhi then [⟨0⟩] else []) := by
    simp only [Function.phis, block_sole, bind, Except.bind, Function.leading, kind_sole]
    split <;> rfl
  rw [checkBlockShape]
  refine Check.passes_bind.mpr ⟨_, Check.passes_lift.mpr block_sole, ?_⟩
  refine Check.passes_bind.mpr ⟨_, Check.passes_lift.mpr hphis, ?_⟩
  refine Check.passes_bind.mpr ⟨(), ?_, rfl⟩
  refine Check.passes_forM.mpr fun entry hentry => ?_
  obtain rfl := List.mem_singleton.mp hentry
  have hsort : BlockId.withoutRepeats (BlockId.sort []) = [] := by
    simp [BlockId.sort, BlockId.withoutRepeats]
  rw [hsort]
  cases hphi : kind.isPhi <;> simpa [hphi] using hshape

theorem notePositions_sole : ((Function.sole name params ret kind).notePositions ∅ ⟨0⟩).Passes
    ((∅ : Positions).insert ⟨0⟩ (⟨0⟩, 0)) := by
  have hinst : (Function.sole name params ret kind).inst ⟨0⟩ =
      .ok { kind, block := some ⟨0⟩ } := rfl
  rw [Function.notePositions]
  refine Check.passes_bind.mpr ⟨_, Check.passes_lift.mpr block_sole, ?_⟩
  refine Check.passes_bind.mpr ⟨_, ?_, rfl⟩
  refine Check.passes_bind.mpr ⟨_, Check.passes_lift.mpr hinst, ?_⟩
  exact Check.passes_guard_bind.mpr ⟨by simp, rfl⟩

theorem checkBlockUses_sole {d : Dominators} (hoperands : ∀ id, .inst id ∉ kind.operands) :
    ((Function.sole name params ret kind).checkBlockUses d ((∅ : Positions).insert ⟨0⟩ (⟨0⟩, 0))
      ⟨0⟩).Passes () := by
  rw [Function.checkBlockUses]
  refine Check.passes_bind.mpr ⟨_, Check.passes_lift.mpr block_sole, ?_⟩
  refine Check.passes_bind.mpr ⟨(), Check.passes_forM.mpr fun entry hentry => ?_, ?_⟩
  · obtain rfl := List.mem_singleton.mp hentry
    unfold Function.checkOperands
    refine Check.passes_bind.mpr ⟨kind, Check.passes_lift.mpr kind_sole, ?_⟩
    cases kind with
    | phi ty incoming =>
      refine Check.passes_forM.mpr fun entry hentry => ?_
      obtain ⟨value, source⟩ := entry
      cases value with
      | inst id => exact absurd (List.mem_map_of_mem hentry) (hoperands id)
      | _ => rfl
    | _ =>
      refine Check.passes_forM.mpr fun value hvalue => ?_
      cases value with
      | inst id => exact absurd hvalue (hoperands id)
      | _ => rfl
  · refine Check.passes_forM.mpr fun value hvalue => ?_
    obtain rfl := List.mem_singleton.mp hvalue
    simp [Function.checkUse]

/-- A function of one instruction is well-formed if the instruction is known, reads no instruction
and has its shape. -/
theorem verifyFunction_sole (hkind : m.knowsKind (.sole name params ret kind) kind = true)
    (hoperands : ∀ id, .inst id ∉ kind.operands)
    (hshape : (m.checkInstShape (.sole name params ret kind) ⟨0⟩ "entry" kind.isPhi.toNat [] [] 0
      ⟨0⟩).Passes ()) :
    (m.verifyFunction (.sole name params ret kind)).Passes () := by
  have hclosed : (Function.sole name params ret kind).Closed := sole_closed
  have hnames := checkNames_sole hkind
  have hsuccs : ((Function.sole name params ret kind).checkSuccessors ⟨0⟩).Passes () := by
    rw [Function.checkSuccessors]
    exact Check.passes_bind.mpr ⟨_, Check.passes_lift.mpr block_sole, rfl⟩
  have hpositions : ((Function.sole name params ret kind).notePositions ∅ ⟨0⟩).Passes _ :=
    notePositions_sole
  obtain ⟨preds, hpreds⟩ := hclosed.predecessorMap_eq_ok
  obtain ⟨d, hd, -⟩ := Dominators.ofPredecessors_eq_ok hclosed hpreds
  have hblockShape := checkBlockShape_sole hshape
  have hnone : preds.getD ⟨0⟩ [] = [] := by
    rw [List.eq_nil_iff_forall_not_mem]
    intro a ha
    obtain ⟨halive, succs, hsuccs, hmem⟩ := (Function.mem_getD_predecessorMap hpreds ⟨0⟩).mp ha
    obtain rfl := List.mem_singleton.mp halive
    rw [Function.successors_of_block block_sole] at hsuccs
    cases hsuccs
    cases hmem
  have huses : ((Function.sole name params ret kind).checkBlockUses d
      ((∅ : Positions).insert ⟨0⟩ (⟨0⟩, 0)) ⟨0⟩).Passes () := checkBlockUses_sole hoperands
  have hlayout : (Function.sole name params ret kind).layout = [⟨0⟩] := rfl
  -- The checks say all that is needed of the function, which is not to be computed with.
  generalize Function.sole name params ret kind = f at *
  have hsole : ∀ {check : BlockId → Check Unit}, (check ⟨0⟩).Passes () →
      (f.layout.forM check).Passes () := by
    refine fun hcheck => Check.passes_forM.mpr fun b hb => ?_
    rw [hlayout] at hb
    obtain rfl := List.mem_singleton.mp hb
    exact hcheck
  rw [verifyFunction]
  refine Check.passes_bind.mpr ⟨(), congrArg Except.ok hnames, ?_⟩
  refine Check.passes_guard_bind.mpr ⟨by simp [hlayout], ?_⟩
  refine Check.passes_bind.mpr ⟨(), hsole hsuccs, ?_⟩
  refine Check.passes_bind.mpr ⟨preds, Check.passes_lift.mpr hpreds, ?_⟩
  refine Check.passes_bind.mpr ⟨(), hsole (by rw [hnone]; exact hblockShape), ?_⟩
  refine Check.passes_bind.mpr ⟨d, Check.passes_lift.mpr hd, ?_⟩
  refine Check.passes_bind.mpr ⟨_, ?_, hsole huses⟩
  rw [hlayout, List.foldlM_cons]
  exact Check.passes_bind.mpr ⟨_, hpositions, rfl⟩

/-- A module is accepted when its functions with a body are. -/
theorem accepted_of_passes
    (h : ∀ f ∈ m.functions.toList, f.isDeclaration = false → (m.verifyFunction f).Passes ()) :
    m.Accepted := by
  have hall : ∀ functions : List Function, (∀ f ∈ functions, f.isDeclaration = false →
      (m.verifyFunction f).Passes ()) → (m.verifyFunctions functions).run = .ok (.ok ()) := by
    intro functions
    induction functions with
    | nil => exact fun _ => rfl
    | cons f rest ih =>
      intro h
      obtain ⟨hf, hrest⟩ := List.forall_mem_cons.mp h
      rw [verifyFunctions]
      cases hbody : f.isDeclaration with
      | true => simpa using ih hrest
      | false =>
        have hpass : (m.verifyFunction f).run = .ok (.ok ()) := hf hbody
        rw [hpass]
        exact ih hrest
  exact hall m.functions.toList h

end Module

/-- A loop passes when each of its steps does, and does something for its member that no other step
undoes. -/
theorem Check.exists_foldlM {α β : Type} (inv : β → Prop) (done : α → β → Prop)
    {g : β → α → Check β} {l : List α} {b : β}
    (hstep : ∀ x ∈ l, ∀ b, inv b → ∃ b', Passes (g b x) b' ∧ inv b' ∧ done x b' ∧
      ∀ y, done y b → done y b') (hb : inv b) :
    ∃ b', Passes (l.foldlM g b) b' ∧ inv b' ∧ (∀ x ∈ l, done x b') ∧ ∀ y, done y b → done y b' := by
  induction l generalizing b with
  | nil => exact ⟨b, Check.passes_pure.mpr rfl, hb, by simp, fun _ h => h⟩
  | cons x rest ih =>
    obtain ⟨b₁, hpass, hinv, hdone, hkeep⟩ := hstep x List.mem_cons_self b hb
    obtain ⟨b', hpass', hinv', hdone', hkeep'⟩ :=
      ih (fun y hy => hstep y (List.mem_cons_of_mem _ hy)) hinv
    refine ⟨b', ?_, hinv', List.forall_mem_cons.mpr ⟨hkeep' x hdone, hdone'⟩,
      fun y hy => hkeep' y (hkeep y hy)⟩
    rw [List.foldlM_cons]
    exact Check.passes_bind.mpr ⟨b₁, hpass, hpass'⟩

namespace Function

variable {m : Module} {f : Function} {b : BlockId}

theorem Named.checkNames_eq_ok (hf : f.Named m) (hclosed : f.Closed) : m.checkNames f = .ok () := by
  have hblocks : ∀ (blocks : List Block) index, (∀ blk ∈ blocks,
      (∀ id ∈ blk.insts, f.hasInst id = true) ∧
      (∀ s ∈ blk.term.successors, f.hasBlock s = true) ∧ m.knowsTerminator f blk.term = true) →
      m.checkBlockNames f index blocks = .ok () := by
    intro blocks
    induction blocks with
    | nil => exact fun _ _ => rfl
    | cons blk rest ih =>
      intro index hall
      obtain ⟨⟨hinsts, hsuccs, hterm⟩, hrest⟩ := List.forall_mem_cons.mp hall
      have hinst : blk.insts.find? (!f.hasInst ·) = none :=
        List.find?_eq_none.mpr fun id hid => by simp [hinsts id hid]
      have hsucc : blk.term.successors.find? (!f.hasBlock ·) = none :=
        List.find?_eq_none.mpr fun s hs => by simp [hsuccs s hs]
      simp [Module.checkBlockNames, hinst, hsucc, hterm, ih _ hrest]
  have hinsts : ∀ (insts : List Inst) index, (∀ inst ∈ insts, m.knowsKind f inst.kind = true) →
      m.checkInstNames f index insts = .ok () := by
    intro insts
    induction insts with
    | nil => exact fun _ _ => rfl
    | cons inst rest ih =>
      intro index hall
      obtain ⟨hinst, hrest⟩ := List.forall_mem_cons.mp hall
      simp [Module.checkInstNames, hinst, ih _ hrest]
  have hlayout : f.layout.find? (!f.hasBlock ·) = none := by
    refine List.find?_eq_none.mpr fun b hb => ?_
    simpa [hasBlock] using hclosed.inArena b hb
  have htokens : (f.annotations.toList.find? fun entry => !f.hasInst entry.1) = none := by
    refine List.find?_eq_none.mpr fun entry hentry => ?_
    have hne := List.ne_nil_of_mem (Annotations.mem_toList.mp hentry)
    simpa [hasInst] using hf.tokens entry.1 hne
  have hallBlocks := hblocks f.blocks.toList 0 fun blk hblk => by
    obtain ⟨index, hindex⟩ := List.mem_iff_getElem?.mp hblk
    have hblock : f.block ⟨index⟩ = .ok blk := block_eq_ok.mpr (by simpa using hindex)
    exact ⟨fun id hid => decide_eq_true (hf.insts _ _ hblock id hid),
      fun s hs => decide_eq_true (hf.successors _ _ hblock s hs), hf.terminators _ _ hblock⟩
  have hallInsts := hinsts f.insts.toList 0 fun inst hinst => by
    obtain ⟨index, hindex⟩ := List.mem_iff_getElem?.mp hinst
    exact hf.kinds ⟨index⟩ _ (kind_eq_ok.mpr ⟨inst, inst_eq_ok.mpr (by simpa using hindex), rfl⟩)
  simp [Module.checkNames, hlayout, hallBlocks, hallInsts, htokens, bind, Except.bind, pure,
    Except.pure]

/-- Each live instruction has a noted place. -/
def AllNoted (f : Function) (b : BlockId) (positions : Positions) : Prop :=
  ∀ id pos, f.Listed id b pos → (positions[id]?).isSome

theorem Tidy.notePositions_passes (hf : f.Tidy) (hb : b ∈ f.layout) {positions : Positions}
    (hnoted : f.Noted positions) :
    ∃ positions', (f.notePositions positions b).Passes positions' ∧ f.Noted positions' ∧
      f.AllNoted b positions' ∧ ∀ b', f.AllNoted b' positions → f.AllNoted b' positions' := by
  obtain ⟨blk, hblk⟩ := hf.closed.block_of_mem hb
  have hstep : ∀ entry ∈ blk.insts.zipIdx, ∀ positions, f.Noted positions → ∃ positions',
      Check.Passes (do
        if (← f.inst entry.1).block != some b then throw (.staleParent entry.1)
        return positions.insert entry.1 (b, entry.2) : Check Positions) positions' ∧
      f.Noted positions' ∧ (positions'[entry.1]?).isSome ∧
      ∀ y : InstId × Nat, (positions[y.1]?).isSome → (positions'[y.1]?).isSome := by
    rintro ⟨id, pos⟩ hmem positions hnoted
    have hlisted : f.Listed id b pos := ⟨hb, blk, hblk, List.mk_mem_zipIdx_iff_getElem?.mp hmem⟩
    obtain ⟨inst, hinst, hparent⟩ := hf.home id b pos hlisted
    refine ⟨positions.insert id (b, pos), ?_, ?_, by simp, ?_⟩
    · rw [Check.passes_lift_bind hinst]
      exact Check.passes_guard_bind.mpr ⟨by simp [hparent], Check.passes_pure.mpr rfl⟩
    · intro i home place hi
      rw [Std.HashMap.getElem?_insert] at hi
      split at hi
      · next heq =>
        obtain rfl : id = i := by simpa using heq
        obtain ⟨rfl, rfl⟩ : b = home ∧ pos = place := by simpa using hi
        exact hlisted
      · exact hnoted i home place hi
    · intro y hy
      rw [Std.HashMap.getElem?_insert]
      split
      · rfl
      · exact hy
  obtain ⟨positions', hpass, hnoted', hdone, hkeep⟩ :=
    Check.exists_foldlM f.Noted (fun (entry : InstId × Nat) positions => (positions[entry.1]?).isSome)
      hstep hnoted
  refine ⟨positions', ?_, hnoted', ?_, ?_⟩
  · rw [notePositions, Check.passes_lift_bind hblk]
    exact hpass
  · rintro id pos ⟨-, blk', hblk', hpos⟩
    obtain rfl := Except.ok.inj (hblk.symm.trans hblk')
    exact hdone (id, pos) (List.mk_mem_zipIdx_iff_getElem?.mpr hpos)
  · exact fun b' hall id pos hid => hkeep (id, pos) (hall id pos hid)

section Uses

variable {d : Dominators} {positions : Positions} (hd : f.Dominated d) (hf : f.Tidy)
  (hnoted : f.Noted positions) (hall : ∀ b ∈ f.layout, f.AllNoted b positions)
include hd hf hnoted hall

theorem Precedes.checkUse_passes {id : InstId} {pos : Option Nat}
    (h : f.Precedes id b pos) : (f.checkUse d positions id b pos).Passes () := by
  obtain ⟨home, place, hid, hbefore⟩ := h
  obtain ⟨⟨home', place'⟩, hplace⟩ := Option.isSome_iff_exists.mp (hall home hid.1 id place hid)
  obtain ⟨rfl, rfl⟩ := hf.listed_unique hid (hnoted id home' place' hplace)
  rw [checkUse, hplace]
  dsimp only
  split
  · next hreach =>
    have hreach := (hd.reachable b).mp hreach
    have hprecedes : (if (home' == b) = true then (pos.map fun pos => decide (place' < pos)).getD true
        else d.dominates home' b) = true := by
      obtain ⟨rfl, hpos⟩ | ⟨hne, hpath⟩ := hbefore hreach
      · cases pos with
        | none => simp
        | some p => simpa using hpos p rfl
      · rw [if_neg (by simpa using hne), hd.dominates]
        exact ⟨hpath.reaches hreach, hreach, hpath⟩
    rw [hprecedes]
    rfl
  · rfl

theorem Sound.checkBlockUses_passes {exempt : BlockId → Prop} (hs : f.Sound m exempt)
    (hb : b ∈ f.layout) : (f.checkBlockUses d positions b).Passes () := by
  obtain ⟨blk, hblk⟩ := hs.tidy.closed.block_of_mem hb
  rw [checkBlockUses, Check.passes_lift_bind hblk, Check.passes_bind]
  refine ⟨(), Check.passes_forM.mpr ?_, Check.passes_forM.mpr ?_⟩
  · rintro ⟨id, pos⟩ hmem
    have hid : f.Listed id b pos := ⟨hb, blk, hblk, List.mk_mem_zipIdx_iff_getElem?.mp hmem⟩
    obtain ⟨kind, hkind⟩ := hs.tidy.exists_kind hid
    unfold checkOperands
    rw [Check.passes_lift_bind hkind]
    cases kind with
    | phi ty incoming =>
      refine Check.passes_forM.mpr ?_
      rintro ⟨value, source⟩ hentry
      cases value with
      | inst used =>
        have hsource := (hs.sources id b pos ty incoming hid hkind).2 source
          (List.mem_map_of_mem hentry)
        exact (hs.phiUses id b pos ty incoming hid hkind used source hentry).checkUse_passes hd hf
          hnoted hall
      | _ => exact Check.passes_pure.mpr rfl
    | _ =>
      refine Check.passes_forM.mpr fun value hvalue => ?_
      cases value with
      | inst used =>
        exact (hs.uses id b pos _ hid hkind rfl used hvalue).checkUse_passes hd hf hnoted hall
      | _ => exact Check.passes_pure.mpr rfl
  · intro value hvalue
    cases value with
    | inst used =>
      exact (hs.termUses b hb blk hblk used hvalue).checkUse_passes hd hf hnoted hall
    | _ => exact Check.passes_pure.mpr rfl

end Uses

/-- What is asked of a function does not change while the module around it grows. -/
theorem Sound.grown {m' : Module} {exempt : BlockId → Prop} (hf : f.Sound m exempt)
    (hgrows : m.Grows f m' f)
    (harity : ∀ id g, m.function id = .ok g →
      ∃ g', m'.function id = .ok g' ∧ g'.params.length = g.params.length) : f.Sound m' exempt :=
  { hf with
    named := { hf.named with
      terminators := fun b blk hblk => hgrows.knowsTerminator (hf.named.terminators b blk hblk)
      kinds := fun id kind hkind => hgrows.knowsKind (hf.named.kinds id kind hkind) }
    arity := fun id b pos target args ret hid hkind => by
      obtain ⟨g, hg, hlength⟩ := hf.arity id b pos target args ret hid hkind
      obtain ⟨g', hg', hsame⟩ := harity target g hg
      exact ⟨g', hg', hsame.trans hlength⟩ }

/-- A landing pad is found behind the phis. -/
theorem isLandingPad_of_lead {id : InstId} {pos : Nat} (hid : f.Listed id b pos)
    (hkind : f.kind id = .ok .landingPad) (hlead : ∀ before < pos, ∀ id', f.Listed id' b before →
      ∃ ty incoming, f.kind id' = .ok (.phi ty incoming)) : f.isLandingPad b = .ok true := by
  obtain ⟨hb, blk, hblk, hpos⟩ := hid
  have hfound : ∀ (ids : List InstId) (k : Nat), ids[k]? = some id →
      (∀ before < k, ∀ id', ids[before]? = some id' →
        ∃ ty incoming, f.kind id' = .ok (.phi ty incoming)) →
      f.firstWith? (!·.isPhi) ids = .ok (some id) := by
    intro ids
    induction ids with
    | nil => exact fun k hk => by simp at hk
    | cons first rest ih =>
      intro k hk hphis
      rw [firstWith?]
      cases k with
      | zero =>
        obtain rfl : first = id := by simpa using hk
        simp [hkind, InstKind.isPhi, bind, Except.bind, pure, Except.pure]
      | succ k =>
        obtain ⟨ty, incoming, hphi⟩ := hphis 0 (Nat.succ_pos k) first (by simp)
        simp only [hphi, InstKind.isPhi, bind, Except.bind, Bool.not_true, Bool.false_eq_true,
          if_false]
        exact ih k (by simpa using hk) fun before hbefore id' hid' =>
          hphis (before + 1) (by omega) id' (by simpa using hid')
  have hfirst := hfound blk.insts pos hpos fun before hbefore id' hid' =>
    hlead before hbefore id' ⟨hb, blk, hblk, hid'⟩
  simp [isLandingPad, hblk, hfirst, hkind, InstKind.isLandingPad, bind, Except.bind, pure,
    Except.pure]

theorem Sound.checkSuccessors_passes {exempt : BlockId → Prop} (hf : f.Sound m exempt)
    (hb : b ∈ f.layout) : (f.checkSuccessors b).Passes () := by
  obtain ⟨blk, hblk⟩ := hf.tidy.closed.block_of_mem hb
  have hlive : blk.term.successors.find? (!f.layout.contains ·) = none := by
    refine List.find?_eq_none.mpr fun s hs => ?_
    simpa using hf.tidy.closed.toLive b hb s ⟨_, successors_of_block hblk, hs⟩
  rw [checkSuccessors, Check.passes_lift_bind hblk]
  dsimp only
  rw [hlive]
  dsimp only
  cases hterm : blk.term with
  | invoke callee args normal unwind =>
    obtain ⟨id, pos, hid, hkind⟩ := hf.unwind b hb blk hblk callee args normal unwind hterm
    dsimp only
    rw [Check.passes_lift_bind (isLandingPad_of_lead hid hkind (hf.padsLead id unwind pos hid hkind))]
    exact Check.passes_pure.mpr rfl
  | _ => exact Check.passes_pure.mpr rfl

/-- A phi stands among those that lead its block, and a landing pad right behind them. -/
theorem Sound.hasShape (hf : f.Sound m fun _ => False) {id : InstId} {pos : Nat}
    (hid : f.Listed id b pos) {kind : InstKind} (hkind : f.kind id = .ok kind)
    {phis : List InstId} {preds : List BlockId} (hphis : f.phis b = .ok phis)
    (hpreds : f.predecessors b = .ok preds) : f.HasShape m b phis.length preds pos kind := by
  obtain ⟨hb, blk, hblk, hpos⟩ := hid
  have hid : f.Listed id b pos := ⟨hb, blk, hblk, hpos⟩
  obtain ⟨rest, hinsts, hrest⟩ := hf.tidy.insts_eq_append hb hblk hphis
  have hphi_lt : ∀ {id pos ty incoming}, blk.insts[pos]? = some id →
      f.kind id = .ok (.phi ty incoming) → pos < phis.length := by
    intro id pos ty incoming hpos hkind
    by_contra hle
    rw [hinsts, List.getElem?_append_right (by omega)] at hpos
    obtain ⟨kind, hkind', hnot⟩ := hrest id (List.mem_of_getElem? hpos)
    obtain rfl := Except.ok.inj (hkind.symm.trans hkind')
    cases hnot
  cases kind with
  | phi ty incoming =>
    obtain ⟨hnodup, hsources⟩ := hf.sources id b pos ty incoming hid hkind
    refine ⟨hphi_lt hpos hkind, hnodup, fun s => ?_⟩
    rw [mem_edgesInto hpreds]
    refine ⟨hsources s, fun ⟨hs, hedge⟩ => ?_⟩
    obtain ⟨value, hentry⟩ := hf.tidy.entries id b pos ty incoming hid hkind s hs hedge
    exact List.mem_map.mpr ⟨(value, s), hentry, rfl⟩
  | landingPad =>
    obtain ⟨⟨a, ha, hedge⟩, hunwinds⟩ := hf.padEdges id b pos hid hkind (by simp)
    refine ⟨le_antisymm ?_ ?_, List.ne_nil_of_mem ((mem_edgesInto hpreds).mpr ⟨ha, hedge⟩), ?_⟩
    · by_contra hlt
      obtain ⟨hlen, -⟩ := List.getElem?_eq_some_iff.mp hpos
      have hwithin : phis.length < blk.insts.length := by omega
      have hget : blk.insts[phis.length]? = some blk.insts[phis.length] :=
        List.getElem?_eq_getElem hwithin
      obtain ⟨ty, incoming, hphi⟩ := hf.padsLead id b pos hid hkind phis.length (by omega) _
        ⟨hb, blk, hblk, hget⟩
      exact absurd (hphi_lt hget hphi) (lt_irrefl _)
    · by_contra hlt
      rw [hinsts, List.getElem?_append_left (by omega)] at hpos
      obtain ⟨ty, incoming, hphi⟩ := kind_of_mem_phis hphis (List.mem_of_getElem? hpos)
      cases Except.ok.inj (hkind.symm.trans hphi)
    · intro a ha
      obtain ⟨ha, hedge⟩ := (mem_edgesInto hpreds).mp ha
      exact hunwinds a ha hedge
  | icmp pred lhs rhs => exact hf.paired id b pos _ lhs rhs hid hkind rfl
  | binary op lhs rhs => exact hf.paired id b pos _ lhs rhs hid hkind rfl
  | call callee args ret =>
    cases callee with
    | direct target => exact hf.arity id b pos target args ret hid hkind
    | indirect target => trivial
  | _ => trivial

theorem Sound.passes (hf : f.Sound m fun _ => False) : (m.verifyFunction f).Passes () := by
  obtain ⟨preds, hpreds⟩ := hf.tidy.closed.predecessorMap_eq_ok
  obtain ⟨d, hd, hdominated⟩ := Dominators.ofPredecessors_eq_ok hf.tidy.closed hpreds
  have hdominated : f.Dominated d := ⟨hdominated.1, hdominated.2⟩
  have hnone : f.Noted ∅ := fun id home place hplace => by simp at hplace
  obtain ⟨positions, hpositions, hnoted, hall, -⟩ := Check.exists_foldlM f.Noted f.AllNoted
    (fun b hb positions hnoted => hf.tidy.notePositions_passes hb hnoted) hnone
  rw [Module.verifyFunction]
  refine Check.passes_bind.mpr ⟨(), congrArg Except.ok (hf.named.checkNames_eq_ok hf.tidy.closed), ?_⟩
  refine Check.passes_guard_bind.mpr ⟨by simpa using hf.layout, ?_⟩
  refine Check.passes_bind.mpr
    ⟨(), Check.passes_forM.mpr fun b hb => hf.checkSuccessors_passes hb, ?_⟩
  rw [Check.passes_lift_bind hpreds]
  refine Check.passes_bind.mpr ⟨(), Check.passes_forM.mpr fun b hb => ?_, ?_⟩
  · obtain ⟨blk, phis, hblk, hphis⟩ := hf.tidy.phis_eq_ok hb
    have hpredecessors := predecessors_eq_getD hpreds b
    refine (Module.checkBlockShape_passes_iff hblk hphis (hf.named.exists_kind hblk)
      (hf.tidy.closed.block_of_mem_predecessors hpredecessors)).mpr ⟨?_, hf.conditions b hb blk hblk⟩
    exact fun id pos kind hpos hkind =>
      hf.hasShape ⟨hb, blk, hblk, hpos⟩ hkind hphis hpredecessors
  rw [Check.passes_lift_bind hd]
  refine Check.passes_bind.mpr ⟨positions, hpositions, Check.passes_forM.mpr fun b hb => ?_⟩
  exact hf.checkBlockUses_passes hdominated hf.tidy hnoted hall hb

end Function

namespace Module

variable {m : Module}

/-- Every function with a body is sound. -/
def Sound (m : Module) : Prop :=
  ∀ id f, m.function id = .ok f → f.isDeclaration = false → f.Sound m fun _ => False

theorem Accepted.sound (hm : m.Accepted) (honce : m.ListsOnce) : m.Sound :=
  fun id f hid hbody => (hm.wellFormed hid hbody).sound (honce id f hid)

/-- A module is accepted when its functions with a body are sound. -/
theorem Sound.accepted (hm : m.Sound) : m.Accepted := by
  refine accepted_of_passes fun f hf hbody => ?_
  obtain ⟨index, hindex⟩ := List.mem_iff_getElem?.mp hf
  refine (hm ⟨index⟩ f ?_ hbody).passes
  rw [function_eq_ok]
  simpa using hindex

theorem Sound.setFunction (hm : m.Sound) {id : FuncId} {f f' : Function}
    (hid : m.function id = .ok f) (hparams : f'.params = f.params)
    (hf' : f'.isDeclaration = false → f'.Sound m fun _ => False) : (m.setFunction id f').Sound := by
  have hgrows : ∀ g, m.Grows g (m.setFunction id f') g := fun g =>
    ⟨le_rfl, by simp [Module.setFunction], rfl, le_rfl, le_rfl⟩
  have harity : ∀ i g, m.function i = .ok g →
      ∃ g', (m.setFunction id f').function i = .ok g' ∧ g'.params.length = g.params.length := by
    intro i g hi
    rw [function_setFunction (index_lt_of_function hid)]
    split
    · next heq =>
      subst heq
      obtain rfl := Except.ok.inj (hid.symm.trans hi)
      exact ⟨f', rfl, by rw [hparams]⟩
    · exact ⟨g, hi, rfl⟩
  intro i g hi hbody
  rw [function_setFunction (index_lt_of_function hid)] at hi
  split at hi
  · obtain rfl := Except.ok.inj hi
    exact (hf' hbody).grown (hgrows f') harity
  · exact (hm i g hi hbody).grown (hgrows g) harity

end Module

end EdgeProbe
