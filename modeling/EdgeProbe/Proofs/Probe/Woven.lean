import EdgeProbe.Proofs.Probe.Correspondence
import EdgeProbe.Proofs.Validity.Probing

/-!
# What phis find in an instrumented function

A phi takes its value from the entry for the block that a run comes from. When an edge leads through
the block of a probe, that one is told instead of the source, unless the source has another edge to
the phi. So phis take along each edge what they took before (`Function.PhisKept`), whatever other
probes stand already. Main statement: `Function.Placing.all_kept`.
-/

namespace EdgeProbe

namespace InstKind

variable {kept : Bool} {source copy other : BlockId} {incoming : List (Value × BlockId)}

/-- The value that a phi with these entries takes when its block is entered from another one. -/
def valueFrom (incoming : List (Value × BlockId)) (source : BlockId) : Option Value :=
  (incoming.find? fun entry => entry.2 == source).map (·.1)

theorem valueFrom_cons (entry : Value × BlockId) (incoming : List (Value × BlockId))
    (source : BlockId) : valueFrom (entry :: incoming) source =
      if entry.2 = source then some entry.1 else valueFrom incoming source := by
  unfold valueFrom
  rw [List.find?_cons]
  by_cases h : entry.2 = source
  · rw [if_pos h, beq_iff_eq.mpr h]
    rfl
  · rw [if_neg h, beq_eq_false_iff_ne.mpr h]

theorem valueFrom_append (incoming : List (Value × BlockId)) (entry : Value × BlockId)
    (source : BlockId) : valueFrom (incoming ++ [entry]) source =
      (valueFrom incoming source).or (if entry.2 = source then some entry.1 else none) := by
  induction incoming with
  | nil => rw [List.nil_append, valueFrom_cons]; rfl
  | cons first rest ih =>
    rw [List.cons_append, valueFrom_cons, valueFrom_cons, ih]
    split <;> rfl

theorem valueFrom_eq_none (h : source ∉ incoming.map (·.2)) : valueFrom incoming source = none := by
  unfold valueFrom
  rw [Option.map_eq_none_iff, List.find?_eq_none]
  exact fun entry hentry heq => h (beq_iff_eq.mp heq ▸ List.mem_map_of_mem hentry)

/-- From the copy a phi takes what it took from the source. -/
theorem valueFrom_retarget_copy (hcopy : copy ∉ incoming.map (·.2)) :
    valueFrom (retargetIncoming kept source copy incoming) copy = valueFrom incoming source := by
  unfold retargetIncoming
  split
  · split
    · next entry hentry =>
      rw [valueFrom_append, valueFrom_eq_none hcopy, if_pos rfl, valueFrom, hentry]
      rfl
    · next hnone =>
      rw [valueFrom_eq_none hcopy, valueFrom, hnone]
      rfl
  · induction incoming with
    | nil => rfl
    | cons first rest ih =>
      rw [List.map_cons, List.mem_cons, not_or] at hcopy
      rw [List.map_cons, valueFrom_cons, valueFrom_cons, ih hcopy.2]
      by_cases hfirst : first.2 = source
      · simp [hfirst]
      · simp [hfirst, Ne.symm hcopy.1]

/-- From other blocks it takes what it took. -/
theorem valueFrom_retarget_of_ne (hne : other ≠ copy) (h : kept = true ∨ other ≠ source) :
    valueFrom (retargetIncoming kept source copy incoming) other = valueFrom incoming other := by
  unfold retargetIncoming
  split
  · split
    · rw [valueFrom_append, if_neg hne.symm, Option.or_none]
    · rfl
  · next hkept =>
    have hsource := h.resolve_left hkept
    induction incoming with
    | nil => rfl
    | cons first rest ih =>
      rw [List.map_cons, valueFrom_cons, valueFrom_cons, ih]
      by_cases hfirst : first.2 = source
      · simp [hfirst, hne.symm, hsource.symm]
      · simp [hfirst]

end InstKind

namespace Function

variable {m : Module} {hooks : Hooks} {f f₁ f₂ : Function} {s : Stand} {stands : List Stand}

/-! ## Phis -/

/-- When edges lead through other blocks, phis take along each edge what they took. -/
def PhisKept (f : Function) (through : BlockId → Nat → Option BlockId) (f₁ : Function) : Prop :=
  ∀ id b pos ty incoming, f.Listed id b pos → f.kind id = .ok (.phi ty incoming) →
    ∃ incoming₁, f₁.kind id = .ok (.phi ty incoming₁) ∧
      ∀ a ∈ f.layout, ∀ succs j, f.successors a = .ok succs → succs[j]? = some b →
        InstKind.valueFrom incoming₁ ((through a j).getD a) = InstKind.valueFrom incoming a

theorem PhisKept.refl (f : Function) : f.PhisKept (fun _ _ => none) f :=
  fun _ _ _ _ incoming _ hkind => ⟨incoming, hkind, fun _ _ _ _ _ _ => rfl⟩

namespace Instrumented

variable (h : f.Instrumented hooks stands f₁)
include h

/-- What a block lists it lists still. -/
theorem listed_of_listed (hf : f.Framed) {id : InstId} {b : BlockId} {pos : Nat}
    (hid : f.Listed id b pos) : ∃ pos', f₁.Listed id b pos' := by
  obtain ⟨hb, blk, hblk, hpos⟩ := hid
  obtain ⟨place, hplace⟩ := hf.whole.exists_firstInsertionPoint hblk
  obtain ⟨name, hblk₁⟩ := h.old b blk place hblk hplace
  have hmem : id ∈ blk.insts.take place ++ blk.insts.drop place := by
    rw [List.take_append_drop]
    exact List.mem_of_getElem? hpos
  have hmem₁ : id ∈ blk.insts.take place ++ Stand.idsIn hooks stands b ++ blk.insts.drop place := by
    rw [List.mem_append] at hmem
    simp only [List.mem_append]
    exact hmem.elim (fun h => .inl (.inl h)) .inr
  obtain ⟨pos', hpos'⟩ := List.mem_iff_getElem?.mp hmem₁
  exact ⟨pos', (h.live b).mpr (.inl hb), _, hblk₁, hpos'⟩

/-- Where an edge leads through, there is a block by now, and it has come in for that. -/
theorem through_bounds {a between : BlockId} {j : Nat}
    (hthrough : Stand.through stands a j = some between) :
    f.blocks.size ≤ between.index ∧ between.index < f₁.blocks.size := by
  obtain ⟨s, hs, hedge, rfl⟩ := Stand.exists_of_through hthrough
  obtain ⟨hle, name, succs, target, -, -, hblk⟩ := h.new s hs a j hedge
  exact ⟨hle, index_lt_of_block hblk⟩

/-- A block leads straight along an edge that has no probe of its own. -/
theorem edge_of_through {a b : BlockId} {succs : List BlockId} {j : Nat} (hf : f.Framed)
    (hsuccs : f.successors a = .ok succs) (hj : succs[j]? = some b)
    (hthrough : Stand.through stands a j = none) : ∃ succs₁, f₁.successors a = .ok succs₁ ∧
      succs₁[j]? = some b := by
  refine ⟨_, h.successors_eq hf.whole hsuccs, ?_⟩
  rw [List.getElem?_mapIdx, hj, Option.map_some, hthrough, Option.getD_none]

/-- One more edge leads through a block of its own. -/
theorem phisKept_rerouted (hf : f.Framed) (hkept : f.PhisKept (Stand.through stands) f₁)
    (htidy : f₁.Tidy) {block target : BlockId} {index : Nat} {kinds : List InstKind}
    (hroute : f₁.Rerouted block index target kinds f₂) (hlive : block ∈ f.layout)
    (hnone : Stand.through stands block index = none) (hedge : s.edge = some (block, index))
    (hblock : s.block = ⟨f₁.blocks.size⟩) : f.PhisKept (Stand.through (s :: stands)) f₂ := by
  obtain ⟨kept, htold⟩ := hroute.exists_told htidy ((h.live block).mpr (.inl hlive))
  have hblockLt := hf.inArena block hlive
  -- The edge is one of the function from before.
  obtain ⟨blk, hblk⟩ := exists_block hblockLt
  have hsuccs := successors_of_block hblk
  have htarget : blk.term.successors[index]? = some target := by
    obtain ⟨blk₁, hblk₁, hindex, -⟩ := hroute.source
    have hsuccs₁ := h.successors_eq hf.whole hsuccs
    rw [successors_of_block hblk₁] at hsuccs₁
    rw [Except.ok.inj hsuccs₁, List.getElem?_mapIdx] at hindex
    obtain ⟨old, hold, hsame⟩ := Option.map_eq_some_iff.mp hindex
    rw [hnone, Option.getD_none] at hsame
    exact hsame ▸ hold
  have hother : ∀ a j, ¬(a = block ∧ j = index) →
      Stand.through (s :: stands) a j = Stand.through stands a j := by
    intro a j hne
    rw [Stand.through, hedge, if_neg]
    intro heq
    obtain ⟨rfl, rfl⟩ := Prod.mk.inj (Option.some.inj heq)
    exact hne ⟨rfl, rfl⟩
  have hthere : Stand.through (s :: stands) block index = some ⟨f₁.blocks.size⟩ := by
    rw [Stand.through, hedge, if_pos rfl, hblock]
  intro id b pos ty incoming hid hkind
  obtain ⟨incoming₁, hkind₁, hvalues⟩ := hkept id b pos ty incoming hid hkind
  obtain ⟨pos₁, hid₁⟩ := h.listed_of_listed hf hid
  by_cases hb : b = target
  swap
  · refine ⟨incoming₁, htold.others id _ hkind₁ fun pos' hid' => ?_, fun a ha succs j hsuccs' hj => ?_⟩
    · exact absurd (htidy.listed_unique hid' hid₁).1 hb
    · rw [hother a j, hvalues a ha succs j hsuccs' hj]
      rintro ⟨rfl, rfl⟩
      obtain rfl := Except.ok.inj (hsuccs.symm.trans hsuccs')
      exact hb (Option.some.inj (hj.symm.trans htarget))
  subst hb
  refine ⟨_, htold.told id pos₁ ty incoming₁ hid₁ hkind₁, fun a ha succs j hsuccs' hj => ?_⟩
  have hfresh : (⟨f₁.blocks.size⟩ : BlockId) ∉ incoming₁.map (·.2) := by
    intro hmem
    obtain ⟨entry, hentry, heq⟩ := List.mem_map.mp hmem
    have hlt := htidy.sources id b pos₁ ty incoming₁ hid₁ hkind₁ entry hentry
    rw [heq] at hlt
    exact lt_irrefl _ hlt
  have hold := hvalues a ha succs j hsuccs' hj
  by_cases hsame : a = block ∧ j = index
  · obtain ⟨rfl, rfl⟩ := hsame
    rw [hnone, Option.getD_none] at hold
    rw [hthere, Option.getD_some, InstKind.valueFrom_retarget_copy hfresh, hold]
  rw [hother a j hsame, ← hold]
  cases hthrough : Stand.through stands a j with
  | some between =>
    obtain ⟨hle, hlt⟩ := h.through_bounds hthrough
    rw [Option.getD_some]
    refine InstKind.valueFrom_retarget_of_ne (fun heq => ?_) (.inr fun heq => ?_)
    · exact lt_irrefl _ (heq ▸ hlt)
    · exact absurd hblockLt (Nat.not_lt.mpr (heq ▸ hle))
  | none =>
    rw [Option.getD_none]
    refine InstKind.valueFrom_retarget_of_ne (fun heq => ?_) ?_
    · have hlt := (hf.inArena a ha).trans_le h.sizeBlocks
      exact lt_irrefl _ (heq ▸ hlt)
    · by_cases hsource : a = block
      swap
      · exact .inr hsource
      -- The source has another edge there, so that it stays one.
      subst hsource
      left
      obtain ⟨succs₁, hsuccs₁, hj₁⟩ := h.edge_of_through hf hsuccs' hj hthrough
      obtain ⟨succs₂, hsuccs₂, -, hset⟩ := hroute.successors_source
      obtain rfl := Except.ok.inj (hsuccs₁.symm.trans hsuccs₂)
      refine htold.kept_iff.mpr ⟨_, hset, List.mem_of_getElem? (i := j) ?_⟩
      rw [List.getElem?_set_ne fun heq => hsame ⟨rfl, heq.symm⟩, hj₁]

/-- One more probe stands. -/
theorem phisKept_joined (hf : f.Framed) (hkept : f.PhisKept (Stand.through stands) f₁)
    (htidy : f₁.Tidy) (hjoined : f₁.Joined hooks s f₂)
    (hlive : ∀ block index, s.edge = some (block, index) →
      block ∈ f.layout ∧ Stand.through stands block index = none) :
    f.PhisKept (Stand.through (s :: stands)) f₂ := by
  cases hjoined with
  | inPlace hedge hkinds =>
    rw [Stand.through_cons_of_inPlace hedge]
    intro id b pos ty incoming hid hkind
    obtain ⟨incoming₁, hkind₁, hvalues⟩ := hkept id b pos ty incoming hid hkind
    exact ⟨incoming₁, hkinds id _ hkind₁, hvalues⟩
  | onEdge hedge hblock hroute =>
    obtain ⟨hblockLive, hnone⟩ := hlive _ _ hedge
    exact h.phisKept_rerouted hf hkept htidy hroute hblockLive hnone hedge hblock

end Instrumented

/-- One more probe does not change the types of values. -/
theorem Joined.typesKept (h : f₁.Joined hooks s f₂) (hparams : f₂.params = f₁.params)
    (htidy : f₁.Tidy) (hlive : ∀ block index, s.edge = some (block, index) → block ∈ f₁.layout) :
    f₁.TypesKept f₂ := by
  cases h with
  | inPlace _ hkinds => exact .of_kinds hparams fun id kind hkind => .inl (hkinds id kind hkind)
  | onEdge hedge _ hroute =>
    obtain ⟨kept, htold⟩ := hroute.exists_told htidy (hlive _ _ hedge)
    exact htold.typesKept

/-- All probes of the plan can be placed in turn such that phis take along each edge what they took,
and values have the types that they had. -/
theorem Placing.all_kept {function : FuncId} {plan : List PlannedProbe}
    (hdeclared : hooks.Declared m) (h : f.Placing hooks function plan stands f₁)
    (hsplit : f₁.Splitting m []) (hphis : f.PhisKept (Stand.through stands) f₁)
    (htypes : f.TypesKept f₁)
    (hturns : Edit.InTurn (fun planned f f' =>
      f.Placed hooks planned.id planned.slot planned.site f') plan f₁ f₂) :
    ∃ all, all.map Stand.planned = plan.reverse ++ stands.map Stand.planned ∧
      f.Placing hooks function [] all f₂ ∧ f.PhisKept (Stand.through all) f₂ ∧ f.TypesKept f₂ := by
  induction hturns generalizing stands with
  | nil => exact ⟨stands, rfl, h, hphis, htypes⟩
  | @cons planned rest f₁ f₂ f' hstep _ ih =>
    obtain ⟨s, hs, hplacing, hjoined⟩ := h.next hstep
    have hlive : ∀ block index, s.edge = some (block, index) → block ∈ f.layout :=
      fun _ _ => hplacing.live List.mem_cons_self
    have hfresh : ∀ block index, s.edge = some (block, index) →
        Stand.through stands block index = none := by
      intro block index hedge
      obtain ⟨id, hsite⟩ := (hplacing.instrumented.serves s List.mem_cons_self).eq_of_edge hedge
      exact Stand.through_eq_none (h.fresh (hs ▸ hsite))
    have hsplit₂ : f₂.Splitting m [] := by
      refine hsplit.placed hdeclared hstep fun id block index hsite => ?_
      have hfits := h.fits planned List.mem_cons_self
      rw [hsite] at hfits
      exact (h.instrumented.live block).mpr (.inl hfits.1)
    have hphis₂ := h.instrumented.phisKept_joined h.framed hphis hsplit.sound.tidy hjoined
      fun block index hedge => ⟨hlive block index hedge, hfresh block index hedge⟩
    have hparams : f₂.params = f₁.params :=
      hplacing.instrumented.header.params.trans h.instrumented.header.params.symm
    have htypes₂ := hjoined.typesKept hparams hsplit.sound.tidy fun block index hedge =>
      (h.instrumented.live block).mpr (.inl (hlive block index hedge))
    obtain ⟨all, hall, hend⟩ := ih hplacing hsplit₂ hphis₂ (htypes.trans htypes₂)
    refine ⟨all, ?_, hend⟩
    rw [hall, List.map_cons, hs, List.reverse_cons, List.append_assoc]
    rfl

end Function

end EdgeProbe
