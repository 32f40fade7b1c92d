import EdgeProbe.Proofs.Probe.Instrumented
import EdgeProbe.Proofs.Safety.Course
import EdgeProbe.Proofs.Refusal.Prepared

/-!
# When instrumenting a module is refused

A probe is refused if the edge it is for is the only one into a block that is named for a probe
already. What the edges and the names have been before the first probe was placed decides that: no
probe adds an edge to a block from before or renames the target of another. So once the landing pads
of an accepted module have been split, instrumenting it is refused at the first switch, or else at a
probe whose site is marked, and nothing else is in its way. Main statements:
`Function.Placing.placePlanned_cases` and `Module.Accepted.instrumentEdges_ends`.
-/

namespace EdgeProbe

section Refuses

variable {σ ε α β : Type} {s t : σ} {cause : ε}

/-- The computation is refused for this cause. -/
def Refuses (x : ExceptT ε (StateT σ Checked) α) (s : σ) (cause : ε) : Prop :=
  ∃ t, x s = .ok (.error cause, t)

theorem refuses_throw : Refuses (throw cause : ExceptT ε (StateT σ Checked) α) s cause :=
  ⟨s, rfl⟩

theorem Refuses.bind {x : ExceptT ε (StateT σ Checked) α} (h : Refuses x s cause)
    (k : α → ExceptT ε (StateT σ Checked) β) : Refuses (x >>= k) s cause := by
  obtain ⟨t, hx⟩ := h
  refine ⟨t, ?_⟩
  change (x s >>= fun r => ExceptT.bindCont k r.1 r.2) = _
  rw [hx]
  rfl

/-- What follows a step is refused from where that leaves off. -/
theorem Refuses.after {x : ExceptT ε (StateT σ Checked) α} {k : α → ExceptT ε (StateT σ Checked) β}
    {a : α} (hx : x s = .ok (.ok a, t)) (hk : Refuses (k a) t cause) : Refuses (x >>= k) s cause := by
  obtain ⟨u, hk⟩ := hk
  exact ⟨u, (Course.bind_of_ok hx).trans hk⟩

/-- A loop whose steps are refused where something is so of the member, and lead on elsewhere, is
refused if it is so of any. -/
theorem forM_cases {g : α → ExceptT ε (StateT σ Checked) Unit} {l : List α} (bad : α → Prop)
    (why : ε → Prop) (inv : List α → σ → Prop)
    (hstep : ∀ a rest s, inv (a :: rest) s →
      bad a ∧ (∃ cause, why cause ∧ Refuses (g a) s cause) ∨
        ¬bad a ∧ ∃ t, g a s = .ok (.ok (), t) ∧ inv rest t) (hinv : inv l s) :
    (∃ a ∈ l, bad a) ∧ (∃ cause, why cause ∧ Refuses (l.forM g) s cause) ∨
      (∀ a ∈ l, ¬bad a) ∧ ∃ t, l.forM g s = .ok (.ok (), t) := by
  induction l generalizing s with
  | nil => exact .inr ⟨by simp, s, rfl⟩
  | cons a rest ih =>
    obtain ⟨hbad, cause, hwhy, hrefuses⟩ | ⟨hgood, t, hdoes, hrest⟩ := hstep a rest s hinv
    · exact .inl ⟨⟨a, List.mem_cons_self, hbad⟩, cause, hwhy, hrefuses.bind _⟩
    obtain ⟨⟨b, hb, hbad⟩, cause, hwhy, hrefuses⟩ | ⟨hall, u, hdone⟩ := ih hrest
    · exact .inl ⟨⟨b, List.mem_cons_of_mem _ hb, hbad⟩, cause, hwhy, .after hdoes hrefuses⟩
    · exact .inr ⟨List.forall_mem_cons.mpr ⟨hgood, hall⟩, u, (Course.bind_of_ok hdoes).trans hdone⟩

end Refuses

namespace Function

variable {hooks : Hooks} {function : FuncId} {f f₁ : Function} {stands : List Stand}
  {planned : PlannedProbe} {plan : List PlannedProbe} {block target : BlockId} {index : Nat}

/-- The site is the only edge into a block that is named for a probe. -/
def Marked (f : Function) : ProbeSite → Prop
  | .entry _ => False
  | .edge _ block index => ∃ target blk, f.SoleEdge block index target ∧
    f.block target = .ok blk ∧ Text.contains blk.name Symbol.probeBlock = true

namespace Placing

variable (h : f.Placing hooks function plan stands f₁)
include h

/-- Whatever leads to a block from before does so by an edge from before, which leads there itself or
through the block of its probe. -/
theorem exists_edge (htarget : target.index < f.blocks.size) {c : BlockId} (hc : c ∈ f₁.layout)
    {others : List BlockId} {j : Nat} (hothers : f₁.successors c = .ok others)
    (hj : others[j]? = some target) : ∃ a ∈ f.layout, ∃ k succs, f.successors a = .ok succs ∧
      succs[k]? = some target ∧ (c = a ∧ j = k ∧ Stand.through stands a k = none ∨
        ∃ s ∈ stands, s.edge = some (a, k) ∧ c = s.block ∧ j = 0) := by
  obtain hold | ⟨s, hs, hedge, rfl⟩ := (h.instrumented.live c).mp hc
  · obtain ⟨old, hblk⟩ := exists_block (h.framed.inArena c hold)
    have hsuccs := h.instrumented.successors_eq h.framed.whole (successors_of_block hblk)
    obtain rfl := Except.ok.inj (hothers.symm.trans hsuccs)
    rw [List.getElem?_mapIdx, Option.map_eq_some_iff] at hj
    obtain ⟨target', htarget', hj⟩ := hj
    cases hthrough : Stand.through stands c j with
    | none =>
      rw [hthrough, Option.getD_none] at hj
      exact ⟨c, hold, j, _, successors_of_block hblk, hj ▸ htarget', .inl ⟨rfl, rfl, hthrough⟩⟩
    | some between =>
      rw [hthrough, Option.getD_some] at hj
      obtain ⟨s, hs, hedge, rfl⟩ := Stand.exists_of_through hthrough
      exact absurd (hj ▸ htarget) (Nat.not_lt.mpr (h.instrumented.new s hs c j hedge).1)
  · obtain ⟨⟨a, k⟩, hedge⟩ := Option.ne_none_iff_exists'.mp hedge
    obtain ⟨-, name, succs, target', hsuccs, hk, hblk⟩ := h.instrumented.new s hs a k hedge
    obtain rfl := Except.ok.inj (hothers.symm.trans (successors_of_block hblk))
    obtain ⟨rfl, rfl⟩ : j = 0 ∧ target' = target := by
      cases j with
      | zero => exact ⟨rfl, Option.some.inj hj⟩
      | succ j => cases hj
    exact ⟨a, h.live hs hedge, k, succs, hsuccs, hk, .inr ⟨s, hs, hedge, rfl, rfl⟩⟩

/-- The only edge into a block stays that when probes are placed on other edges. -/
theorem soleEdge_of_none (hsole : f.SoleEdge block index target)
    (hnone : ∀ s ∈ stands, s.edge ≠ some (block, index)) : f₁.SoleEdge block index target := by
  obtain ⟨succs, hsuccs, hindex⟩ := hsole.leads
  have htarget := h.framed.whole.successors_lt hsuccs (List.mem_of_getElem? hindex)
  refine ⟨(h.instrumented.live block).mpr (.inl hsole.live),
    ⟨_, h.instrumented.successors_eq h.framed.whole hsuccs, ?_⟩, fun c hc others j hothers hj => ?_⟩
  · rw [List.getElem?_mapIdx, hindex, Option.map_some, Stand.through_eq_none hnone,
      Option.getD_none]
  obtain ⟨a, ha, k, succs', hsuccs', hk, ⟨rfl, rfl, -⟩ | ⟨s, hs, hedge, -⟩⟩ :=
    h.exists_edge htarget hc hothers hj
  · exact hsole.only c ha succs' j hsuccs' hk
  · obtain ⟨rfl, rfl⟩ := hsole.only a ha succs' k hsuccs' hk
    exact absurd hedge (hnone s hs)

omit h in
/-- The target of an edge that is due is called what it was, if no other edge leads there. -/
theorem name_eq {planned : PlannedProbe} {id : FuncId}
    (h : f.Placing hooks function (planned :: plan) stands f₁)
    (hsite : planned.site = .edge id block index) (hsole : f.SoleEdge block index target)
    {blk blk₁ : Block} (hblk : f.block target = .ok blk) (hblk₁ : f₁.block target = .ok blk₁) :
    blk₁.name = blk.name := by
  refine h.labelled.kept target blk blk₁ hblk hblk₁ ?_
  rintro s hs ⟨id', block', index', hother⟩ rfl
  have hserves := h.instrumented.serves s hs
  rw [hother] at hserves
  cases hserves with
  | edge hedge =>
    exact absurd (index_lt_of_block hblk) (Nat.not_lt.mpr (h.instrumented.new s hs _ _ hedge).1)
  | target hsuccs hindex hedge honly =>
    obtain ⟨succs, hsuccs', hindex'⟩ := hsole.leads
    obtain ⟨rfl, rfl⟩ := honly block hsole.live succs index hsuccs' hindex'
    exact h.site_ne hs hother hsite

omit h in
/-- Whether an edge that is due is the only one into its target is as it was. -/
theorem predecessors_iff {planned : PlannedProbe} {id : FuncId}
    (h : f.Placing hooks function (planned :: plan) stands f₁)
    (hsite : planned.site = .edge id block index) {succs : List BlockId}
    (hsuccs : f.successors block = .ok succs) (hindex : succs[index]? = some target) :
    f₁.predecessors target = .ok [block] ↔ f.SoleEdge block index target := by
  constructor
  · intro hpreds
    have hnone := Stand.through_eq_none (h.fresh hsite)
    have hfits := h.fits planned List.mem_cons_self
    rw [hsite] at hfits
    exact ⟨hfits.1, ⟨succs, hsuccs, hindex⟩,
      h.instrumented.sole h.framed.whole hsuccs hindex hnone hpreds⟩
  · intro hsole
    exact (h.soleEdge_of_none hsole (h.fresh hsite)).predecessors_eq h.instrumented.nodup
      h.instrumented.inArena

end Placing

end Function

namespace Edit

variable (hooks : Hooks) {f : Function} {block target : BlockId} {index : Nat}

theorem exists_probeEntry (hf : f.Framed) (id slot : Nat) (hentry : f.entryBlock? ≠ none) :
    ∃ f', (probeEntry hooks id slot).Does f () f' := by
  obtain ⟨entry, hentry⟩ := Option.ne_none_iff_exists'.mp hentry
  obtain ⟨blk, hblk⟩ :=
    Function.exists_block (hf.inArena entry (Function.mem_layout_of_entryBlock? hentry))
  obtain ⟨pos, hpos⟩ := hf.whole.exists_firstInsertionPoint hblk
  obtain ⟨blk', hblk', hle, -⟩ := Function.firstInsertionPoint_eq_ok hpos
  refine ⟨f.withInsts entry pos (hooks.probeCode f.insts.size id slot),
    does_bind.mpr ⟨f, f, does_get.mpr ⟨rfl, rfl⟩, ?_⟩⟩
  rw [hentry]
  exact does_bind.mpr ⟨pos, f, does_query.mpr ⟨hpos, rfl⟩, placeProbe_does hblk' hle id slot⟩

/-- A block that is named for a probe gets none. -/
theorem refuses_probeTarget {blk : Block} (hblk : f.block target = .ok blk)
    (hmarked : Text.contains blk.name Symbol.probeBlock = true) (id slot : Nat) :
    Refuses (probeTarget hooks target id slot) f (.alreadyInstrumented f.name blk.name) := by
  refine .after (does_query.mpr ⟨hblk, rfl⟩ : (query (·.block target)).Does f blk f) ?_
  rw [if_pos hmarked]
  exact .after (does_get.mpr ⟨rfl, rfl⟩ : (get : Edit Function).Does f f f) refuses_throw

theorem exists_probeTarget (hf : f.Whole) {blk : Block} (hblk : f.block target = .ok blk)
    (hmarked : Text.contains blk.name Symbol.probeBlock = false) (id slot : Nat) :
    ∃ f', (probeTarget hooks target id slot).Does f () f' := by
  obtain ⟨pos, hpos⟩ := hf.exists_firstInsertionPoint hblk
  have hpos' : (f.withBlock target fun b => { b with
      name := Symbol.probeBlock ++ blk.givenName ++ "." ++ toString id }).firstInsertionPoint target =
        .ok pos := by
    rw [Function.firstInsertionPoint_withBlock]
    · exact hpos
    · exact fun _ => rfl
  obtain ⟨blk', hblk', hle, -⟩ := Function.firstInsertionPoint_eq_ok hpos'
  refine ⟨(f.withBlock target fun b => { b with
      name := Symbol.probeBlock ++ blk.givenName ++ "." ++ toString id }).withInsts target pos
        (hooks.probeCode f.insts.size id slot),
    does_bind.mpr ⟨blk, f, does_query.mpr ⟨hblk, rfl⟩, ?_⟩⟩
  rw [if_neg (by simp [hmarked])]
  refine does_bind.mpr ⟨(), _, does_update.mpr
    (Function.modifyBlock_eq_ok.mpr ⟨Function.index_lt_of_block hblk, rfl⟩), ?_⟩
  exact does_bind.mpr ⟨pos, _, does_query.mpr ⟨hpos', rfl⟩, placeProbe_does hblk' hle id slot⟩

/-- The edge leads through the new block before the phis of its target are told. -/
theorem exists_detour {blk : Block} (hblk : f.block block = .ok blk)
    (hindex : blk.term.successors[index]? = some target) (id slot : Nat) :
    ∃ f₁, f.Detour block index target [] f₁ ∧ ∀ f', Does (do
      if (← query (·.successors block)).contains target then
        update fun g => g.copyPhiIncoming target block ⟨f.blocks.size⟩
      else update fun g => g.replacePhiIncomingBlock target block ⟨f.blocks.size⟩
      placeProbe hooks ⟨f.blocks.size⟩ 0 id slot) f₁ () f' →
        (probeEdge hooks block index target id slot).Does f () f' := by
  have hlt := Function.index_lt_of_block hblk
  refine ⟨_, Function.detour_withBlock (Symbol.probeBlock ++ "New." ++ toString id) hblk hindex,
    fun f' h => ?_⟩
  refine does_bind.mpr ⟨_, _, does_apply.mpr
    (congrArg Except.ok (Function.addBlockBefore_eq _ target)), ?_⟩
  refine does_bind.mpr ⟨(), _,
    does_update.mpr (Function.modifyBlock_eq_ok.mpr ⟨by simp, rfl⟩), ?_⟩
  exact does_bind.mpr ⟨(), _,
    does_update.mpr (Function.modifyBlock_eq_ok.mpr ⟨by simp; omega, rfl⟩), h⟩

theorem exists_probeEdge (hf : f.Whole) {succs : List BlockId} (hsuccs : f.successors block = .ok succs)
    (hindex : succs[index]? = some target) (id slot : Nat) :
    ∃ f', (probeEdge hooks block index target id slot).Does f () f' := by
  obtain ⟨blk, hblk, rfl⟩ := Checked.map_eq_ok.mp hsuccs
  have htarget := hf.successors_lt hsuccs (List.mem_of_getElem? hindex)
  obtain ⟨f₁, hdetour, hfront⟩ := exists_detour hooks hblk hindex id slot
  obtain ⟨name, hnew⟩ := hdetour.new
  obtain ⟨succs, -, -, hsuccs₁⟩ := hdetour.successors_source
  obtain ⟨phis, hphis, hinsts⟩ := (hdetour.whole hf).exists_phis (b := target) (by
    rw [hdetour.size]
    omega)
  -- Whichever way the phis of the target are told, code is put into the new block afterwards.
  have hend : ∀ kept : Bool, ∃ f₂ f', phis.foldlM (fun g phi => Function.modifyInst g phi fun i =>
      { i with kind := i.kind.retarget kept block ⟨f.blocks.size⟩ }) f₁ = .ok f₂ ∧
        (placeProbe hooks ⟨f.blocks.size⟩ 0 id slot).Does f₂ () f' := by
    intro kept
    obtain ⟨f₂, hfold⟩ := Function.exists_foldlM_modifyInst
      (fun i => { i with kind := i.kind.retarget kept block ⟨f.blocks.size⟩ }) hinsts
    have hframe := (Function.foldlM_modifyInst_kinds
      (fun kind => kind.isPhi_retarget kept block ⟨f.blocks.size⟩) hfold).1
    exact ⟨f₂, _, hfold, placeProbe_does ((hframe.block_eq _).trans hnew) (Nat.zero_le _) id slot⟩
  cases hkept : (succs.set index ⟨f.blocks.size⟩).contains target with
  | true =>
    obtain ⟨f₂, f', hfold, hplace⟩ := hend true
    refine ⟨f', hfront f' (does_bind.mpr ⟨_, _, does_query.mpr ⟨hsuccs₁, rfl⟩, ?_⟩)⟩
    rw [if_pos hkept]
    exact does_bind.mpr ⟨(), f₂, does_update.mpr (Checked.bind_eq_ok.mpr ⟨phis, hphis, hfold⟩), hplace⟩
  | false =>
    obtain ⟨f₂, f', hfold, hplace⟩ := hend false
    refine ⟨f', hfront f' (does_bind.mpr ⟨_, _, does_query.mpr ⟨hsuccs₁, rfl⟩, ?_⟩)⟩
    rw [if_neg (Bool.eq_false_iff.mp hkept)]
    exact does_bind.mpr ⟨(), f₂, does_update.mpr (Checked.bind_eq_ok.mpr ⟨phis, hphis, hfold⟩), hplace⟩

end Edit

namespace Function.Placing

variable {hooks : Hooks} {function : FuncId} {f f₁ : Function} {stands : List Stand}
  {planned : PlannedProbe} {plan : List PlannedProbe}

/-- A probe is placed, or refused if its site is marked. -/
theorem placePlanned_cases (h : f.Placing hooks function (planned :: plan) stands f₁) :
    f.Marked planned.site ∧ (∃ name block,
      Refuses (Edit.placePlanned hooks planned) f₁ (.alreadyInstrumented name block)) ∨
    ¬f.Marked planned.site ∧ ∃ s f₂, (Edit.placePlanned hooks planned).Does f₁ () f₂ ∧
      f.Placing hooks function plan (s :: stands) f₂ := by
  have hfits := h.fits planned List.mem_cons_self
  have hwhole := h.instrumented.whole
  -- Once it is placed, it stands.
  have hplaced : ∀ f₂, (Edit.placePlanned hooks planned).Does f₁ () f₂ → ∃ s f₂,
      (Edit.placePlanned hooks planned).Does f₁ () f₂ ∧
        f.Placing hooks function plan (s :: stands) f₂ := fun f₂ hdoes => by
    obtain ⟨s, -, hnext, -⟩ := h.next (Edit.placePlanned_does hwhole hdoes)
    exact ⟨s, f₂, hdoes, hnext⟩
  obtain ⟨site, id, slot⟩ := planned
  cases site with
  | entry id' =>
    obtain rfl := h.starts _ List.mem_cons_self id' rfl
    obtain ⟨f₂, hdoes⟩ := Edit.exists_probeEntry hooks h.framed id slot hfits
    exact .inr ⟨nofun, hplaced f₂ hdoes⟩
  | edge id' block index =>
    obtain ⟨hlive, succs, target, hsuccs, hindex⟩ := hfits
    have hsuccs₁ := h.instrumented.successors_eq h.framed.whole hsuccs
    have hindex₁ : (succs.mapIdx fun i old => (Stand.through stands block i).getD old)[index]? =
        some target := by
      rw [List.getElem?_mapIdx, hindex, Option.map_some, Stand.through_eq_none (h.fresh rfl),
        Option.getD_none]
    obtain ⟨blk, hblk⟩ := exists_block (h.framed.whole.successors_lt hsuccs (List.mem_of_getElem? hindex))
    obtain ⟨blk₁, hblk₁⟩ := exists_block (hwhole.successors_lt hsuccs₁ (List.mem_of_getElem? hindex₁))
    obtain ⟨sources, hsources⟩ := exists_edgesInto target h.instrumented.inArena
    have hsingle := singlePredecessor?_eq hsources
    -- What is done once the target and its edges are known.
    have hasked : ∀ {r f₂}, (if onlyMember? sources == some block then
        Edit.probeTarget hooks target id slot
          else Edit.probeEdge hooks block index target id slot) f₁ = .ok (r, f₂) →
        Edit.placePlanned hooks ⟨.edge id' block index, id, slot⟩ f₁ = .ok (r, f₂) := by
      intro r f₂ hrun
      refine (Course.bind_of_ok (Edit.does_query.mpr ⟨hsuccs₁, rfl⟩)).trans ?_
      rw [hindex₁]
      exact (Course.bind_of_ok (Edit.does_query.mpr ⟨hsingle, rfl⟩)).trans hrun
    have hsole : sources = [block] ↔ f.SoleEdge block index target := by
      rw [← h.predecessors_iff rfl hsuccs hindex]
      exact ⟨fun heq => heq ▸ hsources, fun hpreds => Except.ok.inj (hsources.symm.trans hpreds)⟩
    by_cases honly : sources = [block]
    · have hname := h.name_eq rfl (hsole.mp honly) hblk hblk₁
      rw [onlyMember?_eq_some.mpr honly, if_pos (beq_self_eq_true _)] at hasked
      cases hmarked : Text.contains blk.name Symbol.probeBlock with
      | true =>
        obtain ⟨f₂, hrefused⟩ := Edit.refuses_probeTarget hooks hblk₁ (hname ▸ hmarked) id slot
        exact .inl ⟨⟨target, blk, hsole.mp honly, hblk, hmarked⟩, _, _, f₂, hasked hrefused⟩
      | false =>
        obtain ⟨f₂, hdoes⟩ := Edit.exists_probeTarget hooks hwhole hblk₁ (hname ▸ hmarked) id slot
        refine .inr ⟨?_, hplaced f₂ (hasked hdoes)⟩
        rintro ⟨target', blk', hsole', hblk', hmarked'⟩
        obtain ⟨succs', hsuccs', hindex'⟩ := hsole'.leads
        obtain rfl := Except.ok.inj (hsuccs.symm.trans hsuccs')
        obtain rfl := Option.some.inj (hindex.symm.trans hindex')
        obtain rfl := Except.ok.inj (hblk.symm.trans hblk')
        exact Bool.false_ne_true (hmarked.symm.trans hmarked')
    · rw [if_neg fun heq => honly (onlyMember?_eq_some.mp (beq_iff_eq.mp heq))] at hasked
      obtain ⟨f₂, hdoes⟩ := Edit.exists_probeEdge hooks hwhole hsuccs₁ hindex₁ id slot
      refine .inr ⟨?_, hplaced f₂ (hasked hdoes)⟩
      rintro ⟨target', blk', hsole', -, -⟩
      obtain ⟨succs', hsuccs', hindex'⟩ := hsole'.leads
      obtain rfl := Except.ok.inj (hsuccs.symm.trans hsuccs')
      obtain rfl := Option.some.inj (hindex.symm.trans hindex')
      exact honly (hsole.mpr hsole')

end Function.Placing

end EdgeProbe

namespace EdgeProbe

section Concludes

variable {σ ε α β : Type} {s t : σ} {cause : ε}

/-- The computation does not fault, and this holds of what it comes to, be that a refusal. -/
def Concludes (x : ExceptT ε (StateT σ Checked) α) (s : σ) (post : Except ε α → Prop) : Prop :=
  ∃ r t, x s = .ok (r, t) ∧ post r

theorem Concludes.after {x : ExceptT ε (StateT σ Checked) α} {k : α → ExceptT ε (StateT σ Checked) β}
    {a : α} {post : Except ε β → Prop} (hx : x s = .ok (.ok a, t)) (hk : Concludes (k a) t post) :
    Concludes (x >>= k) s post := by
  obtain ⟨r, u, hk, hpost⟩ := hk
  exact ⟨r, u, (Course.bind_of_ok hx).trans hk, hpost⟩

theorem Refuses.concludes {x : ExceptT ε (StateT σ Checked) α} {post : Except ε α → Prop}
    (h : Refuses x s cause) (hpost : post (.error cause)) : Concludes x s post := by
  obtain ⟨t, hx⟩ := h
  exact ⟨_, t, hx, hpost⟩

end Concludes

namespace Pass

variable {α β : Type} {s t : PassState} {config : Config} {pointedTo : Option (List String)}
  {hooks : Hooks} {plan : List PlannedProbe}

/-- The pass comes to its end whatever it begins with. -/
def Unfailing (x : Pass α) : Prop :=
  ∀ s, ∃ a t, x.Does s a t

theorem unfailing_pure (a : α) : Unfailing (pure a) :=
  fun s => ⟨a, s, does_pure.mpr ⟨rfl, rfl⟩⟩

theorem unfailing_update (change : Module → Module × α) : Unfailing (update change) :=
  fun _ => ⟨_, _, does_update.mpr ⟨rfl, rfl⟩⟩

theorem unfailing_report (record : Log.Record) : Unfailing (report record) :=
  fun _ => ⟨(), _, rfl⟩

theorem Unfailing.bind {x : Pass α} {k : α → Pass β} (hx : x.Unfailing) (hk : ∀ a, (k a).Unfailing) :
    (x >>= k).Unfailing := by
  intro s
  obtain ⟨a, t, ha⟩ := hx s
  obtain ⟨b, u, hb⟩ := hk a t
  exact ⟨b, u, does_bind.mpr ⟨a, t, ha, hb⟩⟩

theorem unfailing_declare (config : Config) : Unfailing (Hooks.declare config) := by
  refine (unfailing_update _).bind fun area => Unfailing.bind ?_ fun previous =>
    Unfailing.bind ?_ fun trace => unfailing_pure _
  · unfold Hooks.declarePrevious
    split
    · exact unfailing_pure none
    · exact (unfailing_update _).bind fun _ => unfailing_pure _
  · unfold Hooks.declareTrace
    split
    · exact unfailing_pure none
    · exact (unfailing_update _).bind fun _ => unfailing_pure _

theorem unfailing_reportProbes (config : Config) (probes areaSize : Nat) :
    Unfailing (reportProbes config probes areaSize) := by
  unfold reportProbes
  split <;> exact unfailing_report _

/-- A step that comes to its end has no part in what the pass comes to, if any state will do. -/
theorem Unfailing.concludes {x : Pass α} {k : α → Pass β} {post : Except Fatal β → Prop}
    (hx : x.Unfailing) (hk : ∀ a t, Concludes (k a) t post) : Concludes (x >>= k) s post := by
  obtain ⟨a, t, h⟩ := hx s
  exact .after h (hk a t)

theorem refuses_inFunction {id : FuncId} {edit : Edit α} {f : Function} {cause : Fatal}
    (hid : s.module.function id = .ok f) (h : Refuses edit f cause) :
    Refuses (inFunction id edit) s cause := by
  obtain ⟨f', hedit⟩ := h
  refine ⟨{ s with module := s.module.setFunction id f' }, ?_⟩
  change (s.module.function id >>= fun f => edit f >>= fun r =>
    pure (r.1, { s with module := s.module.setFunction id r.2 })) = _
  rw [hid]
  change (edit f >>= _) = _
  rw [hedit]
  rfl

/-! ## Selecting sites -/

theorem selectSites_refuses {cause : Fatal}
    (h : (s.module.probeSites config pointedTo).run = .ok (.error cause)) :
    Refuses (selectSites config pointedTo) s cause :=
  .after (does_query.mpr ⟨h, rfl⟩) refuses_throw

theorem selectSites_of_yields {sites : List ProbeSite}
    (h : (s.module.probeSites config pointedTo).Yields sites) :
    (selectSites config pointedTo).Does s sites s :=
  does_bind.mpr ⟨.ok sites, s, does_query.mpr ⟨h, rfl⟩, does_pure.mpr ⟨rfl, rfl⟩⟩

end Pass

/-! ## Placing probes -/

/-- The site is marked in its function. -/
def Module.Marked (m : Module) (site : ProbeSite) : Prop :=
  ∃ f, m.function site.function = .ok f ∧ f.Marked site

namespace Pass

variable {m : Module} {s t : PassState} {hooks : Hooks} {plan : List PlannedProbe}

/-- The probes of the plan are still to be placed in the functions of the module. -/
def Due (m : Module) (hooks : Hooks) (plan : List PlannedProbe) (s : PassState) : Prop :=
  ∀ planned ∈ plan, ∃ f f₁ stands, m.function planned.site.function = .ok f ∧
    s.module.function planned.site.function = .ok f₁ ∧
    f.Placing hooks planned.site.function
      (plan.filter fun p => p.site.function == planned.site.function) stands f₁

/-- The next probe is placed, or refused if its site is marked. -/
theorem Due.placePlanned_cases {planned : PlannedProbe} (h : Due m hooks (planned :: plan) s) :
    m.Marked planned.site ∧ (∃ cause, (∃ name block, cause = .alreadyInstrumented name block) ∧
      Refuses (inFunction planned.site.function (Edit.placePlanned hooks planned)) s cause) ∨
    ¬m.Marked planned.site ∧ ∃ t,
      (inFunction planned.site.function (Edit.placePlanned hooks planned)).Does s () t ∧
        Due m hooks plan t := by
  obtain ⟨f, f₁, stands, hf, hf₁, hplacing⟩ := h planned List.mem_cons_self
  rw [List.filter_cons_of_pos (by simp)] at hplacing
  obtain ⟨hmarked, name, block, hrefuses⟩ | ⟨hnot, s', f₂, hdoes, hnext⟩ := hplacing.placePlanned_cases
  · exact .inl ⟨⟨f, hf, hmarked⟩, _, ⟨name, block, rfl⟩, refuses_inFunction hf₁ hrefuses⟩
  refine .inr ⟨?_, _, does_inFunction.mpr ⟨f₁, f₂, hf₁, hdoes, rfl⟩, fun p hp => ?_⟩
  · rintro ⟨g, hg, hmarked⟩
    exact hnot (Except.ok.inj (hf.symm.trans hg) ▸ hmarked)
  have hset : (s.module.setFunction planned.site.function f₂).function p.site.function = _ :=
    Module.function_setFunction (Module.index_lt_of_function hf₁)
  by_cases hsame : p.site.function = planned.site.function
  · rw [if_pos hsame] at hset
    exact ⟨f, f₂, _, hsame ▸ hf, hset, hsame ▸ hnext⟩
  · obtain ⟨g, g₁, stands', hg, hg₁, hother⟩ := h p (List.mem_cons_of_mem _ hp)
    rw [List.filter_cons_of_neg (by simpa using Ne.symm hsame)] at hother
    rw [if_neg hsame] at hset
    exact ⟨g, g₁, stands', hg, hset.trans hg₁, hother⟩

/-- Before the first probe is placed all are due. -/
theorem due_start {config : Config} {pointedTo : Option (List String)} {sites : List ProbeSite}
    (hm : m.Prepared) (hsites : (m.probeSites config pointedTo).Yields sites)
    (hs : ∀ id f, m.function id = .ok f → s.module.function id = .ok f) (mapSize : Nat)
    (seed : UInt64) : Due m hooks (planProbes config mapSize seed sites) s := by
  have hsite : ∀ planned ∈ planProbes config mapSize seed sites,
      m.IsSite config pointedTo planned.site := fun planned hplanned => by
    obtain ⟨n, hn, -⟩ := mem_planProbes.mp hplanned
    exact (Module.mem_probeSites hsites).mp (List.mem_of_getElem? hn)
  have hbefore : (planProbes config mapSize seed sites).Pairwise fun a b => a.site.Before b.site := by
    rw [← List.pairwise_map, site_planProbes]
    refine Module.pairwise_probeSites hsites fun id f hf => ?_
    obtain hbody | hprepared := hm id f hf
    · rw [List.isEmpty_iff.mp hbody]
      exact .nil
    · exact hprepared.nodup
  intro planned hplanned
  obtain ⟨f, hf, hbody, -⟩ := (hsite planned hplanned).fits
  have hprepared : f.Prepared m := (hm _ f hf).resolve_left (by simp [hbody])
  exact ⟨f, f, [], hf, hs _ f hf, Module.placing_start hsite hbefore hf hprepared.framed hooks⟩

end Pass

/-! ## The pass -/

/-- What instrumenting comes to once the landing pads of a module have been split: a refusal at the
first switch, or else one for a marked site, or else each site has a probe. -/
inductive Module.Comes (m : Module) (config : Config) (pointedTo : Option (List String)) :
    Except Fatal InstrumentReport → Prop
  | switch {name : String} {b : BlockId} (h : m.firstSwitch? = some (name, b)) :
    Comes m config pointedTo (.error (.switchPresent name b))
  | marked {sites : List ProbeSite} {name block : String} (hnone : m.firstSwitch? = none)
    (hsites : (m.probeSites config pointedTo).Yields sites) (h : ∃ site ∈ sites, m.Marked site) :
    Comes m config pointedTo (.error (.alreadyInstrumented name block))
  | done {sites : List ProbeSite} {report : InstrumentReport} (hnone : m.firstSwitch? = none)
    (hsites : (m.probeSites config pointedTo).Yields sites) (h : ∀ site ∈ sites, ¬m.Marked site)
    (hprobes : report.probes = sites.length) : Comes m config pointedTo (.ok report)

namespace Pass

variable {m : Module} {s : PassState} {config : Config} {pointedTo : Option (List String)}

/-- What follows once the tokens and the lines have been recorded. -/
theorem placePlan_concludes (hm : s.module.Prepared) (hnone : s.module.firstSwitch? = none)
    {sites : List ProbeSite} (hsites : (s.module.probeSites config pointedTo).Yields sites)
    (mapSize : Nat) (seed : UInt64) (areaSize : Nat) {report : InstrumentReport}
    (hprobes : report.probes = sites.length) : Concludes (do
      let hooks ← Hooks.declare config
      (planProbes config mapSize seed sites).forM fun planned =>
        inFunction planned.site.function (Edit.placePlanned hooks planned)
      defineAccessor Symbol.areaSize areaSize
      defineAccessor Symbol.blockCount ((planProbes config mapSize seed sites).length + 1)
      reportProbes config (planProbes config mapSize seed sites).length areaSize
      return report : Pass InstrumentReport) s (s.module.Comes config pointedTo) := by
  obtain ⟨hooks, t, hdeclare⟩ := unfailing_declare config s
  have hdeclared := declare_does hdeclare
  have hdue : Due s.module hooks (planProbes config mapSize seed sites) t := by
    refine due_start hm hsites (fun id f hf => ?_) mapSize seed
    have hf := Module.function_withHooks hf config
    rw [hdeclared] at hf
    exact hf
  have hplan : (planProbes config mapSize seed sites).map (·.site) = sites := site_planProbes
  refine .after hdeclare ?_
  obtain ⟨⟨planned, hplanned, hmarked⟩, cause, ⟨name, block, rfl⟩, hrefuses⟩ | ⟨hfree, u, hdoes⟩ :=
    forM_cases (fun planned => s.module.Marked planned.site)
      (fun cause => ∃ name block, cause = Fatal.alreadyInstrumented name block)
      (Due s.module hooks) (fun _ _ _ h => h.placePlanned_cases) hdue
  · have hsite : planned.site ∈ sites := hplan ▸ List.mem_map_of_mem hplanned
    exact (hrefuses.bind _).concludes (.marked hnone hsites ⟨_, hsite, hmarked⟩)
  have hfree : ∀ site ∈ sites, ¬s.module.Marked site := fun site hsite => by
    obtain ⟨planned, hplanned, rfl⟩ := List.mem_map.mp (hplan.symm ▸ hsite)
    exact hfree planned hplanned
  refine .after hdoes ((unfailing_update _).concludes fun _ _ => (unfailing_update _).concludes
    fun _ _ => (unfailing_reportProbes _ _ _).concludes fun _ v => ?_)
  exact ⟨.ok report, v, rfl, .done hnone hsites hfree hprobes⟩

/-- What follows once the landing pads have been split. -/
theorem selectAll_concludes (hm : s.module.Prepared) (drawn : UInt64) (mapSize : Nat) : Concludes (do
      let sites ← selectSites config pointedTo
      let seed := config.seed.getD drawn
      info ("The seed used for instrumentation is " ++ toString seed.toNat)
      let plan := planProbes config mapSize seed sites
      let dictionary ← query fun m => m.recordTokens plan
      let sourceMap ←
        if config.isCoverage then do pure (some (← query fun m => m.sourceMap plan)) else pure none
      let hooks ← Hooks.declare config
      plan.forM fun planned => inFunction planned.site.function (Edit.placePlanned hooks planned)
      let probes := plan.length
      let areaSize := if config.denseIds then probes + 1 else mapSize
      defineAccessor Symbol.areaSize areaSize
      defineAccessor Symbol.blockCount (probes + 1)
      reportProbes config probes areaSize
      return {
        probes, areaSize, blockCount := probes + 1, seed, dictionary, sourceMap
        buildId := drawBuildId config seed probes } : Pass InstrumentReport) s
      (s.module.Comes config pointedTo) := by
  have hends := hm.probeSites_ends config pointedTo
  cases hswitch : s.module.firstSwitch? with
  | some switch =>
    rw [hswitch] at hends
    exact ((selectSites_refuses hends).bind _).concludes (.switch hswitch)
  | none =>
    rw [hswitch] at hends
    obtain ⟨sites, hsites⟩ := hends
    refine .after (selectSites_of_yields hsites) ?_
    have hlegible : ∀ planned ∈ planProbes config mapSize (config.seed.getD drawn) sites,
        ∃ f, s.module.SiteLegible planned.site f := fun planned hplanned => by
      obtain ⟨n, hn, -⟩ := mem_planProbes.mp hplanned
      exact hm.siteLegible ((Module.mem_probeSites hsites).mp (List.mem_of_getElem? hn))
    obtain ⟨dictionary, hdictionary, -⟩ := Module.recordTokens_yields hlegible hm.exists_block
    obtain ⟨map, hmap, -⟩ := Module.sourceMap_yields hlegible
    obtain ⟨u, t, hinfo⟩ := unfailing_report ⟨.info,
      "The seed used for instrumentation is " ++ toString (config.seed.getD drawn).toNat, []⟩ s
    have ht := module_of_report hinfo
    rw [← ht] at hm hswitch hsites hdictionary hmap ⊢
    refine .after hinfo (.after (does_query.mpr ⟨hdictionary, rfl⟩) ?_)
    dsimp only
    split
    · refine .after (does_query.mpr ⟨hmap, rfl⟩) (.after (does_pure.mpr ⟨rfl, rfl⟩) ?_)
      refine placePlan_concludes hm hswitch hsites mapSize _ _ ?_
      exact length_planProbes
    · refine .after (does_pure.mpr ⟨rfl, rfl⟩) ?_
      refine placePlan_concludes hm hswitch hsites mapSize _ _ ?_
      exact length_planProbes

/-- What instrumenting a module comes to whose landing pads can be split. -/
theorem instrumentEdges_concludes {split : PassState}
    (hsplit : (s.module.functionIds.forM splitPads).Does s () split) (hm : split.module.Prepared)
    {mapSize : Nat} (hmapSize : config.mapSize = .ok mapSize) (drawn : UInt64) : ∃ pointedTo,
      split.module.pointedTo? = .ok pointedTo ∧
      Concludes (instrumentEdges config drawn) s (split.module.Comes config pointedTo) := by
  obtain ⟨pointedTo, hpointedTo, -⟩ := Module.pointedTo?_yields split.module
  refine ⟨pointedTo, hpointedTo, ?_⟩
  unfold instrumentEdges
  rw [hmapSize]
  refine .after (does_pure.mpr ⟨rfl, rfl⟩) (.after (does_functionIds.mpr ⟨rfl, rfl⟩)
    (.after hsplit (.after (does_query.mpr ⟨hpointedTo, rfl⟩) ?_)))
  dsimp only
  split
  · obtain ⟨u, t, hinfo⟩ :=
      unfailing_report ⟨.info, "Using pointer analysis for function pointers", []⟩ split
    refine .after hinfo ?_
    rw [← module_of_report hinfo] at hm ⊢
    exact selectAll_concludes hm drawn mapSize
  · exact selectAll_concludes hm drawn mapSize

end Pass

namespace Module

variable {m : Module}

theorem firstSwitch?_isSome : m.firstSwitch?.isSome = true ↔
    ∃ f ∈ m.functions, ∃ b ∈ f.layout, f.endsInSwitch b = true := by
  simp [firstSwitch?, Function.firstSwitch?]

/-- An accepted module is refused at its first switch, or else if some site is the only edge into a
block that is named for a probe, or else gets a probe at each site. No landing pad is in the way. -/
theorem Accepted.instrumentEdges_ends (hm : m.Accepted) {config : Config} {mapSize : Nat}
    (hmapSize : config.mapSize = .ok mapSize) (drawn : UInt64) : ∃ result s,
    (Pass.instrumentEdges config drawn).runOn m = .ok (result, s) ∧
    (∀ name b count, result ≠ .error (.sharedLandingPad name b count)) ∧
    ((∃ name b, result = .error (.switchPresent name b)) ↔
      ∃ f ∈ m.functions, ∃ b ∈ f.layout, f.endsInSwitch b = true) ∧
    (∀ name b, result = .error (.switchPresent name b) ↔ m.firstSwitch? = some (name, b)) ∧
    (m.firstSwitch? = none → ∃ split pointedTo sites,
      (m.functionIds.forM Pass.splitPads).runOn m = .ok (.ok (), split) ∧
      split.module.pointedTo? = .ok pointedTo ∧
      (split.module.probeSites config pointedTo).run = .ok (.ok sites) ∧
      ((∃ name block, result = .error (.alreadyInstrumented name block)) ↔
        ∃ site ∈ sites, split.module.Marked site) ∧
      ((∀ site ∈ sites, ¬split.module.Marked site) →
        ∃ report, result = .ok report ∧ report.probes = sites.length)) := by
  obtain ⟨split, hsplit⟩ := Pass.exists_splitAllPads (s := { module := m }) hm.landed
  obtain ⟨pointedTo, hpointedTo, result, s, hrun, hcomes⟩ := Pass.instrumentEdges_concludes hsplit
    (hm.prepared (Pass.splitAllPads_does hsplit)) hmapSize drawn
  have hfirst : split.module.firstSwitch? = m.firstSwitch? :=
    hm.firstSwitch?_eq (Pass.splitAllPads_does hsplit)
  have hswitch : ∀ name b, result = .error (.switchPresent name b) ↔
      m.firstSwitch? = some (name, b) := by
    intro name b
    rw [← hfirst]
    cases hcomes with
    | switch h => simp [h]
    | marked hnone => simp [hnone]
    | done hnone => simp [hnone]
  refine ⟨result, s, hrun, ?_, ?_, hswitch, fun hnone => ?_⟩
  · rintro name b count rfl
    cases hcomes
  · simp only [hswitch]
    rw [← firstSwitch?_isSome, Option.isSome_iff_exists, Prod.exists]
  · rw [← hfirst] at hnone
    cases hcomes with
    | switch h => exact absurd (hnone.symm.trans h) nofun
    | @marked sites name block _ hsites h =>
      refine ⟨split, pointedTo, sites, hsplit, hpointedTo, hsites, ⟨fun _ => h, fun _ => ⟨_, _, rfl⟩⟩,
        fun hfree => ?_⟩
      obtain ⟨site, hsite, hmarked⟩ := h
      exact absurd hmarked (hfree site hsite)
    | @done sites report _ hsites hfree hprobes =>
      refine ⟨split, pointedTo, sites, hsplit, hpointedTo, hsites, ⟨?_, ?_⟩,
        fun _ => ⟨report, rfl, hprobes⟩⟩
      · rintro ⟨name, block, heq⟩
        cases heq
      · rintro ⟨site, hsite, hmarked⟩
        exact absurd hmarked (hfree site hsite)

theorem circling_instrumentEdges_ends : (circling ⟨1⟩).Accepted ∧
    (Config.coverage .all).mapSize = .ok largestMapSize ∧ ∃ result s,
      (Pass.instrumentEdges (.coverage .all) 0).runOn (circling ⟨1⟩) = .ok (result, s) ∧
        ∀ name b count, result ≠ .error (.sharedLandingPad name b count) := by
  have hm := accepted_of_isLocal (show (circling ⟨1⟩).isLocal = true by decide +kernel)
  have hsize : (Config.coverage .all).mapSize = .ok largestMapSize := by decide
  obtain ⟨result, s, hrun, hpads, -⟩ := hm.instrumentEdges_ends hsize 0
  exact ⟨hm, hsize, result, s, hrun, hpads⟩

end Module

end EdgeProbe
