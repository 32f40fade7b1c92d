import EdgeProbe.Lowering.Select
import EdgeProbe.Proofs.Flow.Queries
import EdgeProbe.Proofs.Lowering.Candidates
import EdgeProbe.Proofs.Safety.Course
import EdgeProbe.Proofs.Safety.Edits

/-!
# Questions about sturdy functions

Every question that a pass asks of a sturdy function has an answer, and what is named in it is in
the arenas.
-/

namespace EdgeProbe

namespace Function

open Checked

variable {m : Module} {f f' : Function} {b : BlockId} {id : InstId}

theorem Held.kind (hid : f.Held id) : Yields (f.kind id) fun kind => f.kind id = .ok kind := by
  obtain ⟨kind, hkind⟩ := exists_kind hid.lt
  exact ⟨kind, hkind, hkind⟩

theorem Held.knows (hid : f.Held id) : m.knowsValue f (.inst id) = true :=
  decide_eq_true hid.lt

namespace Sturdy

variable (hf : f.Sturdy m)
include hf

theorem held (hb : b ∈ f.layout) {blk : Block} (hblk : f.block b = .ok blk) (hid : id ∈ blk.insts) :
    f.Held id :=
  ⟨hf.whole.insts b blk hblk id hid, hf.owned b hb blk hblk id hid⟩

theorem liveInsts : Yields f.liveInsts fun ids => ∀ id ∈ ids, f.Held id := by
  unfold Function.liveInsts
  refine (Yields.mapM (q := fun ids : List InstId => ∀ id ∈ ids, f.Held id) ?_).bind
    fun lists hlists => yields_pure ?_
  · intro b hb
    obtain ⟨blk, hblk⟩ := hf.exists_block hb
    exact ⟨blk.insts, by rw [hblk]; rfl, fun id hid => hf.held hb hblk hid⟩
  · intro id hid
    obtain ⟨ids, hids, hid⟩ := List.mem_flatten.mp hid
    exact hlists ids hids id hid

/-! ## Edges -/

theorem successors_yields (hb : b.index < f.blocks.size) :
    Yields (f.successors b) fun succs => ∀ s ∈ succs, s.index < f.blocks.size := by
  obtain ⟨blk, hblk⟩ := Function.exists_block hb
  exact ⟨blk.term.successors, by rw [Function.successors, hblk]; rfl, hf.whole.successors b blk hblk⟩

theorem predecessorMap_yields : Yields f.predecessorMap fun _ => True := by
  obtain ⟨map, hmap⟩ := exists_predecessorMap hf.layout
  exact ⟨map, hmap, trivial⟩

theorem predecessors_yields (target : BlockId) :
    Yields (f.predecessors target) fun preds => ∀ b ∈ preds, b ∈ f.layout := by
  obtain ⟨preds, hpreds⟩ := exists_edgesInto target hf.layout
  exact ⟨preds, hpreds, fun b hb => ((mem_edgesInto hpreds).mp hb).1⟩

theorem singlePredecessor?_yields (target : BlockId) :
    Yields (f.singlePredecessor? target) fun _ => True := by
  obtain ⟨preds, hpreds⟩ := exists_edgesInto target hf.layout
  exact ⟨_, singlePredecessor?_eq hpreds, trivial⟩

/-! ## Placement -/

omit hf in
theorem firstWith?_yields (holds : InstKind → Bool) {ids : List InstId}
    (hids : ∀ id ∈ ids, id.index < f.insts.size) : Yields (f.firstWith? holds ids) fun found =>
      ∀ id, found = some id → id.index < f.insts.size := by
  obtain ⟨found, hfound, hlt, -⟩ := exists_firstWith? holds hids
  exact ⟨found, hfound, hlt⟩

theorem isLandingPad_yields (hb : b.index < f.blocks.size) :
    Yields (f.isLandingPad b) fun _ => True := by
  obtain ⟨leads, hleads⟩ := hf.whole.exists_isLandingPad hb
  exact ⟨leads, hleads, trivial⟩

theorem landingPadInst?_yields (hb : b.index < f.blocks.size) : Yields (f.landingPadInst? b) fun found =>
    ∀ id, found = some id → id.index < f.insts.size := by
  obtain ⟨blk, hblk⟩ := Function.exists_block hb
  refine .after hblk ?_
  exact firstWith?_yields _ (hf.whole.insts b blk hblk)

theorem firstInsertionPoint_yields (hb : b.index < f.blocks.size) :
    Yields (f.firstInsertionPoint b) fun _ => True := by
  obtain ⟨blk, hblk⟩ := Function.exists_block hb
  refine .after hblk ?_
  obtain ⟨front, hfront, -⟩ := leading_eq_ok
    (fun kind => kind.isPhi || kind.isLandingPad) (hf.whole.insts b blk hblk)
  exact .after hfront (yields_pure trivial)

/-! ## Readers -/

theorem held_of_reads {call : InstId} (h : f.Reads call id) : f.Held id := by
  obtain ⟨b, pos, hb, blk, hblk, hpos⟩ := h.listed
  exact hf.held hb hblk (List.mem_of_getElem? hpos)

theorem instUsers_yields (id : InstId) :
    Yields (f.instUsers id) fun users => ∀ user ∈ users, f.Held user := by
  obtain ⟨users, husers⟩ :=
    exists_instUsers hf.layout (fun b _ blk hblk => hf.whole.insts b blk hblk) id
  exact ⟨users, husers, fun user huser => hf.held_of_reads ((mem_instUsers husers).mp huser)⟩

/-! ## Locations -/

omit hf in
theorem firstLoc?_yields {ids : List InstId} (hids : ∀ id ∈ ids, id.index < f.insts.size) :
    Yields (f.firstLoc? ids) fun _ => True := by
  induction ids with
  | nil => exact yields_pure trivial
  | cons first rest ih =>
    obtain ⟨hfirst, hrest⟩ := List.forall_mem_cons.mp hids
    obtain ⟨inst, hinst⟩ := exists_inst hfirst
    refine .after hinst ?_
    split
    · exact yields_pure trivial
    · exact ih hrest

theorem provenance_yields (hid : f.Held id) : Yields (f.provenance id) fun _ => True := by
  refine Yields.bind (q := fun _ => True) ?_ fun loc _ => ?_
  · obtain ⟨inst, hinst⟩ := exists_inst hid.lt
    refine .after hinst ?_
    split
    · exact yields_pure trivial
    · next b _ hb =>
      obtain ⟨blk, hblk⟩ := Function.exists_block (hid.owned inst b hinst hb)
      refine .after hblk ?_
      exact firstLoc?_yields (hf.whole.insts b blk hblk)
    · exact yields_pure trivial
  · split
    · exact yields_pure trivial
    · exact yields_pure trivial

/-! ## Selections and comparisons -/

theorem held_of_listed {pos : Nat} (hid : f.Listed id b pos) : f.Held id := by
  obtain ⟨hb, blk, hblk, hpos⟩ := hid
  exact hf.held hb hblk (List.mem_of_getElem? hpos)

theorem selects_yields : Yields f.selects fun ids => ∀ id ∈ ids, f.Held id := by
  refine hf.liveInsts.bind fun ids hids => ?_
  refine (Yields.filterM fun id hid => ?_).imp fun chosen hchosen id hid =>
    hids id (hchosen id hid).1
  obtain ⟨kind, hkind, -⟩ := (hids id hid).kind
  cases kind with
  | select cond ifTrue ifFalse =>
    obtain ⟨ty, hty⟩ := hf.exists_valueType (@knowsValue _ _ hf _ _ hkind cond List.mem_cons_self)
    exact ⟨ty == .i1, Checked.bind_eq_ok.mpr ⟨_, hkind, Checked.bind_eq_ok.mpr ⟨ty, hty, rfl⟩⟩⟩
  | _ => exact ⟨false, Checked.bind_eq_ok.mpr ⟨_, hkind, rfl⟩⟩

theorem intWidth?_yields {value : Value} (hvalue : m.knowsValue f value = true) :
    Yields (f.intWidth? value) fun _ => True := by
  obtain ⟨ty, hty⟩ := hf.exists_valueType hvalue
  exact ⟨ty.intWidth?, Checked.map_eq_ok.mpr ⟨ty, hty, rfl⟩, trivial⟩

/-- An instruction is no comparison, or one of known operands. -/
theorem comparison_cases {kind : InstKind} (hkind : f.kind id = .ok kind) :
    kind.comparison? = none ∨ ∃ pred lhs rhs, kind = .icmp pred lhs rhs ∧
      m.knowsValue f lhs = true ∧ m.knowsValue f rhs = true := by
  cases kind with
  | icmp pred lhs rhs =>
    exact .inr ⟨pred, lhs, rhs, rfl, hf.knowsValue hkind (by simp [InstKind.operands]),
      hf.knowsValue hkind (by simp [InstKind.operands])⟩
  | _ => exact .inl rfl

theorem wideComparison?_yields {ids : List InstId} (hids : ∀ id ∈ ids, f.Held id) :
    Yields (f.wideComparison? ids) fun _ => True := by
  induction ids with
  | nil => exact yields_pure trivial
  | cons first rest ih =>
    obtain ⟨hfirst, hrest⟩ := List.forall_mem_cons.mp hids
    obtain ⟨kind, hkind, -⟩ := hfirst.kind
    refine .after hkind ?_
    obtain hnone | ⟨pred, lhs, rhs, rfl, hl, -⟩ := hf.comparison_cases hkind
    · rw [hnone]
      exact ih hrest
    · refine (hf.intWidth?_yields hl).bind fun width _ => ?_
      split
      · split
        · exact yields_pure trivial
        · exact ih hrest
      · exact ih hrest

omit hf in
theorem isMagic_yields (pred : Predicate) {lhs rhs : Value} (hl : m.knowsValue f lhs = true)
    (hr : m.knowsValue f rhs = true) : Yields (f.isMagic pred lhs rhs) fun _ => True := by
  have hreads : ∀ value, m.knowsValue f value = true → Yields (f.readsCall value) fun _ => True := by
    intro value hvalue
    cases value with
    | inst id =>
      obtain ⟨kind, hkind⟩ := exists_kind (of_decide_eq_true hvalue : id.index < f.insts.size)
      exact ⟨kind.isCall, Checked.map_eq_ok.mpr ⟨kind, hkind, rfl⟩, trivial⟩
    | _ => exact yields_pure trivial
  unfold Function.isMagic
  cases hoperand : constantOperand? lhs rhs with
  | none => exact yields_pure trivial
  | some operands =>
    obtain ⟨constant, other⟩ := operands
    have hother : m.knowsValue f other = true := by
      obtain rfl | rfl := constantOperand?_eq_some hoperand
      · exact hl
      · exact hr
    dsimp only
    split
    · exact yields_pure trivial
    · exact (hreads other hother).bind fun _ _ => yields_pure trivial

theorem candidateWidth?_yields (preds : List Predicate) (hid : f.Held id) :
    Yields (f.candidateWidth? preds id) fun _ => True := by
  obtain ⟨kind, hkind, -⟩ := hid.kind
  refine .after hkind ?_
  cases kind with
  | icmp pred lhs rhs =>
    have hl : m.knowsValue f lhs = true := hf.knowsValue hkind (by simp [InstKind.operands])
    have hr : m.knowsValue f rhs = true := hf.knowsValue hkind (by simp [InstKind.operands])
    dsimp only
    split
    · exact yields_pure trivial
    refine (hf.intWidth?_yields hl).bind fun left _ => ?_
    split
    · exact yields_pure trivial
    refine (hf.intWidth?_yields hr).bind fun right _ => ?_
    split
    · exact yields_pure trivial
    refine (isMagic_yields pred hl hr).bind fun magic _ => ?_
    split
    · exact yields_pure trivial
    · exact yields_pure trivial
  | _ => exact yields_pure trivial

theorem candidates_yields (preds : List Predicate) : Yields (f.candidates preds) fun sites =>
    ∀ site ∈ sites, f.Held site.1 ∧ f.Site preds site := by
  have htotal : Yields (f.candidates preds) fun _ => True := by
    refine hf.liveInsts.bind fun ids hids => ?_
    refine (Yields.each fun id hid => ?_).bind
      fun _ _ => yields_pure trivial
    exact (hf.candidateWidth?_yields preds (hids id hid)).bind fun _ _ => yields_pure trivial
  obtain ⟨sites, hsites, -⟩ := htotal
  refine ⟨sites, hsites, fun site hsite => ?_⟩
  have hfound := candidates_site hsites hsite
  obtain ⟨b, pos, hlisted⟩ := hfound.listed
  exact ⟨hf.held_of_listed hlisted, hfound⟩

end Sturdy

end Function

end EdgeProbe
