import EdgeProbe.Proofs.Code.Rerouted
import EdgeProbe.Proofs.Safety.Edits
import EdgeProbe.Proofs.Safety.Queries

/-!
# Splitting landing pads and placing probes in sturdy functions

The edits of instrumentation come to no fault in a sturdy function, whatever edge or block a probe
was planned for, as long as that block is in the arena.
-/

namespace EdgeProbe

/-- What probes refer to is declared. -/
structure Hooks.Known (m : Module) (hooks : Hooks) : Prop where
  area : hooks.area.index < m.globals.size
  previous : ∀ g, hooks.previous = some g → g.index < m.globals.size
  trace : ∀ id, hooks.trace = some id → id.index < m.functions.size

/-- The block of a site, if it has one, is in the arena. -/
def ProbeSite.InArena (f : Function) (site : ProbeSite) : Prop :=
  ∀ id block index, site = .edge id block index → block.index < f.blocks.size

theorem Function.Onward.site_inArena {f f' : Function} (h : f.Onward f') {site : ProbeSite}
    (hsite : site.InArena f) : site.InArena f' :=
  fun id block index heq => h.lt_blocks (hsite id block index heq)

theorem Module.knowsValue_global {m : Module} {g : GlobalId} (h : g.index < m.globals.size)
    (f : Function) : m.knowsValue f (.global g) = true :=
  decide_eq_true h

namespace Terminator

theorem mem_successors_setSuccessor {term : Terminator} {index : Nat} {target s : BlockId}
    (h : s ∈ (term.setSuccessor index target).successors) : s = target ∨ s ∈ term.successors := by
  rw [successors_setSuccessor] at h
  exact (List.mem_or_eq_of_mem_set h).symm

theorem mem_successors_setUnwind {term : Terminator} {target s : BlockId}
    (h : s ∈ (term.setUnwind target).successors) : s = target ∨ s ∈ term.successors := by
  cases term with
  | invoke callee args normal unwind =>
    exact @mem_successors_setSuccessor (.invoke callee args normal unwind) 1 target s h
  | _ => exact .inr h

end Terminator

namespace Function.Sturdy

open Checked

variable {m : Module} {f : Function} (hf : f.Sturdy m)
include hf

theorem sharedLandingPads_yields :
    Yields f.sharedLandingPads fun pads => ∀ pad ∈ pads, pad ∈ f.layout := by
  refine hf.predecessorMap_yields.bind fun preds _ => ?_
  refine (Yields.filterM fun pad hpad => ?_).imp fun pads hpads pad hpad => (hpads pad hpad).1
  obtain ⟨isPad, hpad, -⟩ := hf.isLandingPad_yields (hf.layout pad hpad)
  simp only [hpad, bind, Except.bind]
  split
  · exact ⟨_, rfl⟩
  · exact ⟨_, rfl⟩

omit hf in
theorem allUnwind_yields (pad : BlockId) {preds : List BlockId}
    (hpreds : ∀ b ∈ preds, b.index < f.blocks.size) :
    Yields (f.allUnwind pad preds) fun _ => True := by
  induction preds with
  | nil => exact yields_pure trivial
  | cons pred rest ih =>
    obtain ⟨hpred, hrest⟩ := List.forall_mem_cons.mp hpreds
    obtain ⟨blk, hblk⟩ := Function.exists_block hpred
    have hunwinds : Yields (f.unwindsTo pad pred) fun _ => True := by
      refine .after hblk ?_
      split
      · exact yields_pure trivial
      · exact yields_pure trivial
    refine hunwinds.bind fun unwinds _ => ?_
    split
    · exact ih hrest
    · exact yields_pure trivial

end Function.Sturdy

namespace Edit

variable {m : Module} {f : Function} (hf : f.Sturdy m)
include hf

/-! ## Landing pads -/

theorem safe_replacePhiIncomingBlock {b source target : BlockId} (hb : b.index < f.blocks.size)
    (htarget : target.index < f.blocks.size) :
    Safe m (update fun f => f.replacePhiIncomingBlock b source target) f fun _ _ => True := by
  obtain ⟨f', hchange, hf', hsteady⟩ := hf.replacePhiIncomingBlock hb source htarget
  exact safe_update ⟨f', hchange, hf', hsteady.toOnward, trivial⟩

theorem safe_copyPhiIncoming {b source copy : BlockId} (hb : b.index < f.blocks.size)
    (hcopy : copy.index < f.blocks.size) :
    Safe m (update fun f => f.copyPhiIncoming b source copy) f fun _ _ => True := by
  obtain ⟨f', hchange, hf', hsteady⟩ := hf.copyPhiIncoming hb source hcopy
  exact safe_update ⟨f', hchange, hf', hsteady.toOnward, trivial⟩

theorem safe_copyPad {pad pred : BlockId} (hpad : pad.index < f.blocks.size)
    (hpred : pred.index < f.blocks.size) (name valueName : String) (loc : Option DebugLoc)
    (n : Nat) : Safe m (copyPad pad name valueName loc n pred) f fun entry g =>
      m.knowsValue g entry.1 = true ∧ entry.2.index < g.blocks.size := by
  refine .bind (safe_addBlockBefore hf _ pad) fun copy f₁ hf₁ h₁ hcopy => ?_
  refine .bind (safe_pushInst hf₁ hcopy ⟨rfl, Function.readsBits_other rfl, rfl⟩ _ _)
    fun value f₂ hf₂ h₂ hvalue => ?_
  refine .bind (safe_setBr hf₂ (h₂.lt_blocks hcopy) ((h₁.trans h₂).lt_blocks hpad))
    fun _ f₃ hf₃ h₃ _ => ?_
  have h₁₃ : f₁.Onward f₃ := h₂.trans h₃
  have h₀₃ : f.Onward f₃ := h₁.trans h₁₃
  refine .bind (safe_modifyBlock hf₃ (h₀₃.lt_blocks hpred) (fun _ => rfl) fun blk hblk s hs => ?_)
    fun _ f₄ hf₄ h₄ _ => ?_
  · obtain rfl | hs := Terminator.mem_successors_setUnwind hs
    · exact h₁₃.lt_blocks hcopy
    · exact hf₃.whole.successors pred blk hblk s hs
  have h₁₄ : f₁.Onward f₄ := h₁₃.trans h₄
  refine .bind (safe_replacePhiIncomingBlock hf₄ ((h₁.trans h₁₄).lt_blocks hpad)
    (h₁₄.lt_blocks hcopy)) fun _ f₅ hf₅ h₅ _ => ?_
  refine safe_pure hf₅ ⟨decide_eq_true ?_, (h₁₄.trans h₅).lt_blocks hcopy⟩
  exact (h₃.trans (h₄.trans h₅)).lt_insts hvalue

theorem safe_splitLandingPad {pad : BlockId} (hpad : pad.index < f.blocks.size) :
    Safe m (splitLandingPad pad) f fun _ _ => True := by
  obtain ⟨preds, hasked, hpreds⟩ := hf.predecessors_yields pad
  obtain ⟨unwound, hunwound, -⟩ :=
    Function.Sturdy.allUnwind_yields pad fun b hb => hf.layout b (hpreds b hb)
  obtain ⟨landing?, hlanding, hlt⟩ := hf.landingPadInst?_yields hpad
  refine safe_query_bind hf hasked (safe_query_bind hf hunwound (safe_query_bind hf hlanding ?_))
  split
  · next landing =>
    obtain ⟨blk, hblk⟩ := Function.exists_block hpad
    obtain ⟨inst, hinst⟩ := Function.exists_inst (hlt landing rfl)
    refine safe_query_bind hf hblk (safe_query_bind hf hinst ?_)
    refine .bind (Course.Safe.mapM (q := fun entry g =>
      m.knowsValue g entry.1 = true ∧ entry.2.index < g.blocks.size) ?_ hf ?_) ?_
    · intro entry g g' hg hentry
      exact ⟨hg.knowsValue hentry.1, hg.lt_blocks hentry.2⟩
    · rintro ⟨pred, n⟩ hmem f' hf' h'
      refine safe_copyPad hf' (h'.lt_blocks hpad) (h'.lt_blocks (hf.layout _ (hpreds _ ?_))) ..
      exact List.mem_of_getElem? (List.mk_mem_zipIdx_iff_getElem?.mp hmem)
    · intro incoming f₁ hf₁ h₁ hincoming
      exact safe_replaceKind hf₁ (h₁.lt_insts (hlt landing rfl)) hincoming (by simp)
  · exact safe_get_bind hf (Course.safe_throw _)

theorem safe_splitSharedLandingPads : Safe m splitSharedLandingPads f fun _ _ => True := by
  obtain ⟨shared, hshared, hlive⟩ := hf.sharedLandingPads_yields
  refine safe_query_bind hf hshared ?_
  refine .bind (safe_forM hf fun pad hpad f' hf' h' => ?_) fun _ f₁ hf₁ _ _ => safe_pure hf₁ trivial
  exact safe_splitLandingPad hf' (h'.lt_blocks (hf.layout pad (hlive pad hpad)))

/-! ## Probes -/

variable {hooks : Hooks} (hhooks : hooks.Known m)

theorem safe_place {b : BlockId} (hb : b.index < f.blocks.size) {kind : InstKind}
    (hkind : f.Suits m kind) (pos : Nat) :
    Safe m (place b pos kind) f fun value g => m.knowsValue g value = true :=
  .bind (safe_insertInst hf hb hkind pos _ _) fun _ _ hg _ hid => safe_pure hg (decide_eq_true hid)

include hhooks

theorem safe_placeTrace {b : BlockId} (hb : b.index < f.blocks.size) (pos id : Nat) :
    Safe m (placeTrace hooks b pos id) f fun _ _ => True := by
  unfold placeTrace
  split
  · exact safe_pure hf trivial
  · next trace htrace =>
    refine .bind (safe_place hf hb ⟨?_, Function.readsBits_other rfl, rfl⟩ _) fun _ f₁ hf₁ _ _ =>
      safe_pure hf₁ trivial
    simp [Module.knowsKind, Module.knowsCallee, InstKind.operands, Callee.operands,
      Value.ofWord, Module.knowsValue, hhooks.trace trace htrace]

theorem safe_placeIndex {b : BlockId} (hb : b.index < f.blocks.size) (pos slot : Nat) :
    Safe m (placeIndex hooks b pos slot) f fun next g => m.knowsValue g next.2 = true := by
  unfold placeIndex
  split
  · exact safe_pure hf rfl
  · next previous hprevious =>
    have hglobal := Module.knowsValue_global (hhooks.previous previous hprevious) f
    refine .bind (safe_place hf hb (.load hglobal _) _) fun last f₁ hf₁ h₁ hlast => ?_
    refine .bind (safe_place hf₁ (h₁.lt_blocks hb) (.binary hlast rfl _) _)
      fun mixed f₂ hf₂ h₂ hmixed => ?_
    refine .bind (safe_place hf₂ ((h₁.trans h₂).lt_blocks hb) (.cast hmixed _ _) _)
      fun wide f₃ hf₃ h₃ hwide => safe_pure hf₃ hwide

theorem safe_placeProbe {b : BlockId} (hb : b.index < f.blocks.size) (pos id slot : Nat) :
    Safe m (placeProbe hooks b pos id slot) f fun _ _ => True := by
  refine .bind (safe_placeTrace hf hhooks hb pos id) fun pos f₁ hf₁ h₁ _ => ?_
  have harea := Module.knowsValue_global hhooks.area f₁
  refine .bind (safe_place hf₁ (h₁.lt_blocks hb) (.load harea _) _) fun base f₂ hf₂ h₂ hbase => ?_
  have h₀₂ : f.Onward f₂ := h₁.trans h₂
  refine .bind (safe_placeIndex hf₂ hhooks (h₀₂.lt_blocks hb) _ slot) ?_
  rintro ⟨pos, index⟩ f₃ hf₃ h₃ hindex
  have h₀₃ : f.Onward f₃ := h₀₂.trans h₃
  refine .bind (safe_place hf₃ (h₀₃.lt_blocks hb) (.gep (h₃.knowsValue hbase) hindex) _)
    fun counter f₄ hf₄ h₄ hcounter => ?_
  have h₀₄ : f.Onward f₄ := h₀₃.trans h₄
  refine .bind (safe_place hf₄ (h₀₄.lt_blocks hb) (.load hcounter _) _)
    fun count f₅ hf₅ h₅ hcount => ?_
  have h₀₅ : f.Onward f₅ := h₀₄.trans h₅
  refine .bind (safe_place hf₅ (h₀₅.lt_blocks hb) (.binary hcount rfl _) _)
    fun more f₆ hf₆ h₆ hmore => ?_
  have h₀₆ : f.Onward f₆ := h₀₅.trans h₆
  refine .bind (safe_place hf₆ (h₀₆.lt_blocks hb)
    (.store hmore ((h₅.trans h₆).knowsValue hcounter)) _) fun _ f₇ hf₇ h₇ _ => ?_
  split
  · exact safe_pure hf₇ trivial
  · next previous hprevious =>
    have hglobal := Module.knowsValue_global (hhooks.previous previous hprevious) f₇
    refine .bind (safe_place hf₇ ((h₀₆.trans h₇).lt_blocks hb) (.store rfl hglobal) _)
      fun _ f₈ hf₈ _ _ => safe_pure hf₈ trivial

theorem safe_probeEntry (id slot : Nat) : Safe m (probeEntry hooks id slot) f fun _ _ => True := by
  refine safe_get_bind hf ?_
  split
  · exact safe_pure hf trivial
  · next entry hentry =>
    have hlt : entry.index < f.blocks.size := hf.layout entry (List.mem_of_mem_head? hentry)
    obtain ⟨pos, hpos, -⟩ := hf.firstInsertionPoint_yields hlt
    exact safe_query_bind hf hpos (safe_placeProbe hf hhooks hlt pos id slot)

theorem safe_probeTarget {target : BlockId} (htarget : target.index < f.blocks.size)
    (id slot : Nat) : Safe m (probeTarget hooks target id slot) f fun _ _ => True := by
  obtain ⟨blk, hblk⟩ := Function.exists_block htarget
  refine safe_query_bind hf hblk ?_
  dsimp only
  split
  · exact safe_get_bind hf (Course.safe_throw _)
  refine .bind (safe_modifyBlock hf htarget (fun _ => rfl) fun blk hblk =>
    hf.whole.successors target blk hblk) fun _ f₁ hf₁ h₁ _ => ?_
  have hlt := h₁.lt_blocks htarget
  obtain ⟨pos, hpos, -⟩ := hf₁.firstInsertionPoint_yields hlt
  exact safe_query_bind hf₁ hpos (safe_placeProbe hf₁ hhooks hlt pos id slot)

theorem safe_probeEdge {b target : BlockId} (hb : b.index < f.blocks.size)
    (htarget : target.index < f.blocks.size) (index id slot : Nat) :
    Safe m (probeEdge hooks b index target id slot) f fun _ _ => True := by
  refine .bind (safe_addBlockBefore hf _ target) fun probe f₁ hf₁ h₁ hprobe => ?_
  refine .bind (safe_setBr hf₁ hprobe (h₁.lt_blocks htarget)) fun _ f₂ hf₂ h₂ _ => ?_
  have h₀₂ : f.Onward f₂ := h₁.trans h₂
  refine .bind (safe_modifyBlock hf₂ (h₀₂.lt_blocks hb) (fun _ => rfl) fun blk hblk s hs => ?_)
    fun _ f₃ hf₃ h₃ _ => ?_
  · obtain rfl | hs := Terminator.mem_successors_setSuccessor hs
    · exact h₂.lt_blocks hprobe
    · exact hf₂.whole.successors b blk hblk s hs
  have h₀₃ : f.Onward f₃ := h₀₂.trans h₃
  have hprobe : probe.index < f₃.blocks.size := (h₂.trans h₃).lt_blocks hprobe
  obtain ⟨succs, hsuccs, -⟩ := hf₃.successors_yields (h₀₃.lt_blocks hb)
  refine safe_query_bind hf₃ hsuccs ?_
  dsimp only
  split
  · refine .bind (safe_copyPhiIncoming hf₃ (h₀₃.lt_blocks htarget) hprobe)
      fun _ f₄ hf₄ h₄ _ => ?_
    exact safe_placeProbe hf₄ hhooks (h₄.lt_blocks hprobe) _ id slot
  · refine .bind (safe_replacePhiIncomingBlock hf₃ (h₀₃.lt_blocks htarget) hprobe)
      fun _ f₄ hf₄ h₄ _ => ?_
    exact safe_placeProbe hf₄ hhooks (h₄.lt_blocks hprobe) _ id slot

theorem safe_placePlanned {planned : PlannedProbe} (hsite : planned.site.InArena f) :
    Safe m (placePlanned hooks planned) f fun _ _ => True := by
  unfold placePlanned
  split
  · exact safe_probeEntry hf hhooks planned.id planned.slot
  · next id block index heq =>
    have hblock := hsite id block index heq
    obtain ⟨succs, hasked, hsuccs⟩ := hf.successors_yields hblock
    refine safe_query_bind hf hasked ?_
    split
    · exact safe_pure hf trivial
    · next target htarget =>
      have hlt := hsuccs target (List.mem_of_getElem? htarget)
      obtain ⟨sole, hsole, -⟩ := hf.singlePredecessor?_yields target
      refine safe_query_bind hf hsole ?_
      split
      · exact safe_probeTarget hf hhooks hlt planned.id planned.slot
      · exact safe_probeEdge hf hhooks hblock hlt index planned.id planned.slot

end Edit

end EdgeProbe
