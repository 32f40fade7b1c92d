import EdgeProbe.Proofs.Lowering.Refined
import EdgeProbe.Proofs.Lowering.Select
import EdgeProbe.Proofs.Safety.Sturdy
import EdgeProbe.Proofs.Validity.Local

/-!
# Selections give way to branches

Only the chosen operand of a selection is read, and so it is by the phi that is reached through one
of two blocks. Each selection that is decided by one bit gives way once, and brings no new one.
Main statement: `Machine.call_lowerSelects`. What a selection chooses between may be itself where
no path leads, and then the type of the phi is looked for in vain: `Pass.lowerSelects_circular`.
-/

namespace EdgeProbe

variable {m m' : Module} {exempt : BlockId → Prop} {f f₁ f' : Function} {c : Cut}
  {join onTrue onFalse : BlockId} {cond ifTrue ifFalse : Value} {ty : Ty} {id : InstId}

/-! ## Running a branch in the place of a selection -/

section

variable (h : Opened f c join (c.selected join onTrue onFalse cond)
    (.phi ty [(ifTrue, onTrue), (ifFalse, onFalse)]) f')
  (hf : f.Tidy) (hc : c.Of f) (hkind : f.kind c.site = .ok (.select cond ifTrue ifFalse))
include h hf hc hkind

/-- Behind the branch to one of the two blocks the phi takes the operand for that block. -/
theorem Opened.runs_arm {w : World} {args : List UInt64} {frame : Frame} {arm : BlockId}
    {value : Value} (g : Guard) (fid : FuncId) (s : Store)
    (harm : arm = onTrue ∧ value = ifTrue ∨ arm = onFalse ∧ value = ifFalse)
    (hjump : ∀ caller, w.runTerminator caller ⟨f', args⟩ frame c.head (.condBr cond onTrue onFalse) =
      pure (.jump ⟨frame, some c.head, arm⟩)) :
    (∀ x, w.eval ⟨f', args⟩ frame value = pure x → w.Arrives g fid ⟨f', args⟩ s f.insts.size
      (frame.insert c.site x) ⟨c.head, .condBr cond onTrue onFalse, []⟩ frame
      ⟨join, c.term, c.after⟩) ∧
    ∀ cause, w.eval ⟨f', args⟩ frame value = throw cause →
      w.Fails g fid ⟨f', args⟩ s ⟨c.head, .condBr cond onTrue onFalse, []⟩ frame cause := by
  have hpatched := h.patched_selected hf hc hkind
  have hnodup := h.nodup
  simp only [Cut.selected, List.map_cons, List.map_nil, List.nodup_cons, List.mem_cons,
    List.not_mem_nil, or_false, not_or] at hnodup
  obtain ⟨⟨hhead, hhead'⟩, hne, -⟩ := hnodup
  obtain ⟨hmem, harmNe, hfind⟩ :
      (⟨arm, [], [], .br join⟩ : Part) ∈ c.selected join onTrue onFalse cond ∧ arm ≠ c.head ∧
        ([(ifTrue, onTrue), (ifFalse, onFalse)].find? fun entry => entry.2 == arm) =
          some (value, arm) := by
    obtain ⟨rfl, rfl⟩ | ⟨rfl, rfl⟩ := harm
    · exact ⟨by simp [Cut.selected], Ne.symm hhead, by simp⟩
    · exact ⟨by simp [Cut.selected], Ne.symm hhead', by simp [hne]⟩
  have hleads : w.Leads g fid ⟨f', args⟩ s ⟨c.head, .condBr cond onTrue onFalse, []⟩ frame
      ⟨arm, .br join, []⟩ frame := hpatched.leads_part hmem harmNe hjump
  constructor
  · intro x hx
    exact .after hleads (hpatched.arrives_join hf hc hkind rfl (.refl _ _)
      (fun _ => World.jump_br join) hfind hx)
  · intro cause hcause
    exact hleads.fails
      (hpatched.fails_join hf hc hkind rfl (fun _ => World.jump_br join) hfind hcause)

/-- The branch and the phi do what the selection did. -/
theorem Opened.simulated_selected (hty : f.instType c.site = .ok ty) : f.Simulated f' := by
  intro w w' g g' kept fid hglobals hsize
  have hpatched := h.patched_selected hf hc hkind
  have htypes := h.typesKept_selected hf hc hkind hty
  have hbelow := hf.values_below hc.listed_site hkind
  simp only [InstKind.operands, List.forall_mem_cons] at hbelow
  obtain ⟨hcond, htrue, hfalse, -⟩ := hbelow
  refine ⟨c.rename join, hpatched.functionSim hkind hf hc rfl htypes fun p hp hblock => ?_⟩
  obtain rfl : p = ⟨c.head, c.before, [], .condBr cond onTrue onFalse⟩ :=
    h.eq_of_block_eq hp (by simp [Cut.selected]) hblock
  intro n args frame frame' s hagree
  have halike := hpatched.alike htypes hglobals hsize args
  have hpermits : Exec.require (w.Permits g fid ⟨f, args⟩ frame c.site) s = .ok () s :=
    Exec.require_of_holds (World.permits_of_not_call hkind rfl)
  have hchosen : ∀ bit : UInt64, (if bit &&& 1 == 1 then ifTrue else ifFalse).Below f.insts.size := by
    intro bit
    split
    · exact htrue
    · exact hfalse
  have hstep : (do
      Exec.require (w.Permits g fid ⟨f, args⟩ frame c.site)
      w.step (w.enterIf (w.runIf g n)) ⟨f, args⟩ frame c.site) s =
      (do
        let bit ← w'.eval ⟨f', args⟩ frame' cond
        w'.eval ⟨f', args⟩ frame' (if bit &&& 1 == 1 then ifTrue else ifFalse) : Exec UInt64) s := by
    simp only [halike.eval_eq hagree hcond, halike.eval_eq hagree (hchosen _)]
    rw [← World.step_select (a := ⟨f, args⟩) hkind]
    change EStateM.bind _ _ s = _
    rw [EStateM.bind, hpermits]
  rw [hstep]
  have hcases : ∀ value, (∃ x, w'.eval ⟨f', args⟩ frame' value = pure x) ∨
      ∃ cause, w'.eval ⟨f', args⟩ frame' value = throw cause := World.eval_cases
  obtain ⟨bit, hbit⟩ | ⟨cause, hcause⟩ := hcases cond
  · have harm : (if bit &&& 1 == 1 then onTrue else onFalse) = onTrue ∧
          (if bit &&& 1 == 1 then ifTrue else ifFalse) = ifTrue ∨
        (if bit &&& 1 == 1 then onTrue else onFalse) = onFalse ∧
          (if bit &&& 1 == 1 then ifTrue else ifFalse) = ifFalse := by
      split
      · exact .inl ⟨rfl, rfl⟩
      · exact .inr ⟨rfl, rfl⟩
    obtain ⟨harrives, hfails⟩ := h.runs_arm hf hc hkind g' fid s harm
      fun _ => World.jump_condBr_bit hbit
    simp only [hbit, pure_bind]
    obtain ⟨x, hx⟩ | ⟨cause, hcause⟩ := hcases (if bit &&& 1 == 1 then ifTrue else ifFalse)
    · obtain ⟨frame₁, hagree₁, hleads⟩ := harrives x hx
      simp only [hx, Exec.pure_apply]
      refine ⟨frame₁, fun j hj => ?_, hleads⟩
      rw [hagree₁ j hj]
      exact hagree.insert c.site x j hj
    · simp only [hcause]
      exact fun _ => hfails cause hcause
  · simp only [hcause]
    refine fun _ => World.fails_terminator fun caller => ?_
    unfold World.runTerminator
    simp only [hcause]
    rfl

end

/-! ## Which selections there are -/

namespace Function

/-- A live selection that is decided by one bit. -/
structure Chooses (f : Function) (id : InstId) : Prop where
  listed : ∃ b pos, f.Listed id b pos
  decided : ∃ cond ifTrue ifFalse, f.kind id = .ok (.select cond ifTrue ifFalse) ∧
    f.valueType cond = .ok .i1

/-- A selection that is decided by one bit has become the phi behind a branch. -/
inductive Branches (f f' : Function) : Prop
  | intro {c : Cut} {join onTrue onFalse : BlockId} {cond ifTrue ifFalse : Value} {ty : Ty}
      (hc : c.Of f) (hkind : f.kind c.site = .ok (.select cond ifTrue ifFalse))
      (hty : f.instType c.site = .ok ty)
      (h : Opened f c join (c.selected join onTrue onFalse cond)
        (.phi ty [(ifTrue, onTrue), (ifFalse, onFalse)]) f')

theorem Branches.tidy (h : f.Branches f') (hf : f.Tidy) : f'.Tidy := by
  obtain ⟨hc, hkind, -, h⟩ := h
  exact (h.patched_selected hf hc hkind).tidy hf hc hkind rfl

theorem Branches.simulated (h : f.Branches f') (hf : f.Tidy) : f.Simulated f' := by
  obtain ⟨hc, hkind, hty, h⟩ := h
  exact h.simulated_selected hf hc hkind hty

/-- What decides a live selection has a type. -/
def Decided (f : Function) : Prop :=
  ∀ id b pos cond ifTrue ifFalse, f.Listed id b pos →
    f.kind id = .ok (.select cond ifTrue ifFalse) → ∃ ty, f.valueType cond = .ok ty

/-- The selections that are found are those that are decided by one bit. -/
theorem selects_eq_ok {ids live : List InstId} (hlive : f.liveInsts = .ok live)
    (h : f.selects = .ok ids) : ids.Sublist live ∧ (∀ id, id ∈ ids ↔ f.Chooses id) ∧ f.Decided := by
  obtain ⟨live', hlive', hfilter⟩ := Checked.bind_eq_ok.mp h
  obtain rfl := Except.ok.inj (hlive.symm.trans hlive')
  obtain ⟨hsub, hall⟩ := Checked.filterM_eq_ok hfilter
  refine ⟨hsub, fun id => ⟨fun hid => ?_, fun hid => ?_⟩, ?_⟩
  · obtain ⟨hmem, hchosen⟩ := Checked.mem_of_filterM hfilter hid
    obtain ⟨kind, hkind, hchosen⟩ := Checked.bind_eq_ok.mp hchosen
    refine ⟨listed_of_liveInsts hlive hmem, ?_⟩
    cases kind with
    | select cond ifTrue ifFalse =>
      obtain ⟨ty, hty, hchosen⟩ := Checked.bind_eq_ok.mp hchosen
      exact ⟨cond, ifTrue, ifFalse, hkind, by rw [hty, eq_of_beq (Checked.pure_eq_ok.mp hchosen)]⟩
    | _ => cases hchosen
  · obtain ⟨⟨b, pos, hlisted⟩, cond, ifTrue, ifFalse, hkind, hcond⟩ := hid
    refine hall id (mem_liveInsts hlive hlisted) ?_
    exact Checked.bind_eq_ok.mpr ⟨_, hkind, Checked.bind_eq_ok.mpr ⟨_, hcond, rfl⟩⟩
  · intro id b pos cond ifTrue ifFalse hlisted hkind
    obtain ⟨asked, hasked⟩ := Checked.exists_of_filterM hfilter id (mem_liveInsts hlive hlisted)
    obtain ⟨kind, hkind', hasked⟩ := Checked.bind_eq_ok.mp hasked
    obtain rfl := Except.ok.inj (hkind.symm.trans hkind')
    obtain ⟨ty, hty, -⟩ := Checked.bind_eq_ok.mp hasked
    exact ⟨ty, hty⟩

section

variable (h : Opened f c join (c.selected join onTrue onFalse cond)
    (.phi ty [(ifTrue, onTrue), (ifFalse, onFalse)]) f')
  (hf : f.Tidy) (hc : c.Of f) (hkind : f.kind c.site = .ok (.select cond ifTrue ifFalse))
  (hty : f.instType c.site = .ok ty)
include h hf hc hkind

/-- A selection of the new function is one of the old function, and not the one that gave way. -/
theorem old_of_opened {b : BlockId} {pos : Nat} {cond' ifTrue' ifFalse' : Value}
    (hlisted : f'.Listed id b pos) (hkind' : f'.kind id = .ok (.select cond' ifTrue' ifFalse')) :
    id ≠ c.site ∧ (∃ b pos, f.Listed id b pos) ∧
      f.kind id = .ok (.select cond' ifTrue' ifFalse') := by
  have hpatched := h.patched_selected hf hc hkind
  have hne : id ≠ c.site := by
    rintro rfl
    cases h.site.symm.trans hkind'
  have hempty : ∀ p ∈ c.selected join onTrue onFalse cond, p.insts = [] := by simp [Cut.selected]
  have hold : ∃ b pos, f.Listed id b pos := by
    obtain ⟨hlisted, -⟩ | ⟨-, hlisted⟩ | ⟨p, hp, -, -, k, hmem⟩ := h.listed_cases hf.closed hc hlisted
    · exact ⟨b, pos, hlisted⟩
    · exact ⟨_, _, hlisted⟩
    · rw [hempty p hp] at hmem
      cases hmem
  obtain ⟨b₀, pos₀, hlisted₀⟩ := hold
  obtain ⟨kind₀, hkind₀⟩ := hf.exists_kind hlisted₀
  exact ⟨hne, ⟨b₀, pos₀, hlisted₀⟩, hpatched.kind_of_kind (index_lt_of_kind hkind₀) hkind' rfl⟩

include hty

theorem decided_of_opened (hdecided : f.Decided) : f'.Decided := by
  intro id b pos cond' ifTrue' ifFalse' hlisted hkind'
  obtain ⟨-, ⟨b₀, pos₀, hlisted₀⟩, hkind₀⟩ := old_of_opened h hf hc hkind hlisted hkind'
  obtain ⟨ty', hty'⟩ := hdecided id b₀ pos₀ cond' ifTrue' ifFalse' hlisted₀ hkind₀
  exact ⟨ty', (h.typesKept_selected hf hc hkind hty).valueType h.sizeInsts hty'⟩

/-- The selection that gave way is gone, and the others are what they were. -/
theorem chooses_of_opened (hdecided : f.Decided) :
    f'.Chooses id ↔ f.Chooses id ∧ id ≠ c.site := by
  have hpatched := h.patched_selected hf hc hkind
  have htypes := h.typesKept_selected hf hc hkind hty
  constructor
  · rintro ⟨⟨b, pos, hlisted⟩, cond', ifTrue', ifFalse', hkind', hcond'⟩
    obtain ⟨hne, ⟨b₀, pos₀, hlisted₀⟩, hkind₀⟩ := old_of_opened h hf hc hkind hlisted hkind'
    obtain ⟨ty', hty'⟩ := hdecided id b₀ pos₀ cond' ifTrue' ifFalse' hlisted₀ hkind₀
    obtain rfl := Except.ok.inj ((htypes.valueType h.sizeInsts hty').symm.trans hcond')
    exact ⟨⟨⟨b₀, pos₀, hlisted₀⟩, cond', ifTrue', ifFalse', hkind₀, hty'⟩, hne⟩
  · rintro ⟨⟨⟨b, pos, hlisted⟩, cond', ifTrue', ifFalse', hkind', hcond'⟩, hne⟩
    refine ⟨⟨_, _, hpatched.listed_mono hf hc hlisted⟩, cond', ifTrue', ifFalse', ?_, ?_⟩
    · exact hpatched.kind_eq hne hkind' rfl
    · exact htypes.valueType h.sizeInsts hcond'

end

/-- What the loop over the selections of a function keeps, with those that are still to come. -/
structure Choosing (m : Module) (exempt : BlockId → Prop) (f : Function) (rest : List InstId)
    (f₁ : Function) : Prop where
  sound : f₁.Sound m exempt
  branches : Relation.ReflTransGen Branches f f₁
  decided : f₁.Decided
  nodup : rest.Nodup
  chooses : ∀ id, id ∈ rest ↔ f₁.Chooses id

end Function

namespace Edit

theorem lowerSelect_choosing {rest : List InstId} (h : f.Choosing m exempt (id :: rest) f₁)
    {count n : Nat} (hdoes : (lowerSelect count id).Does f₁ n f') :
    n = 1 ∧ f.Choosing m exempt rest f' := by
  obtain ⟨⟨b, pos, hlisted⟩, cond, ifTrue, ifFalse, hkind, hcond⟩ :=
    (h.chooses id).mp List.mem_cons_self
  obtain ⟨ty, hty⟩ : ∃ ty, f₁.instType id = .ok ty := by
    obtain ⟨kind, f₂, hasked, hrest⟩ := does_bind.mp hdoes
    obtain ⟨hkind', rfl⟩ := kind_does.mp hasked
    obtain rfl := Except.ok.inj (hkind.symm.trans hkind')
    obtain ⟨ty, f₂, hquery, -⟩ := does_bind.mp hrest
    exact ⟨ty, (does_query.mp hquery).1⟩
  obtain ⟨c, onTrue, onFalse, join, f₂, hdoes', rfl, hc, hopened⟩ :=
    exists_lowerSelect h.sound hlisted hkind hty count
  obtain ⟨rfl, rfl⟩ := hdoes.unique hdoes'
  have hf := h.sound.tidy
  refine ⟨rfl, hopened.sound_selected h.sound hc hkind hty hcond, h.branches.tail ⟨hc, hkind, hty, hopened⟩,
    Function.decided_of_opened hopened hf hc hkind hty h.decided, h.nodup.of_cons, fun id => ?_⟩
  rw [Function.chooses_of_opened hopened hf hc hkind hty h.decided, ← h.chooses id, List.mem_cons]
  have hnot : c.site ∉ rest := (List.nodup_cons.mp h.nodup).1
  constructor
  · exact fun hmem => ⟨.inr hmem, fun heq => hnot (heq ▸ hmem)⟩
  · exact fun ⟨hmem, hne⟩ => hmem.resolve_left hne

/-- Each selection of a function that is decided by one bit gives way once. -/
theorem lowerSelects_branches (hs : f.isDeclaration = false → f.Sound m exempt)
    (honce : ∀ live, f.liveInsts = .ok live → live.Nodup) {count n : Nat}
    (h : (lowerSelects count).Does f n f') :
    Relation.ReflTransGen Function.Branches f f' ∧ (∀ id, ¬f'.Chooses id) ∧
      ∃ ids : List InstId, ids.Nodup ∧ (∀ id, id ∈ ids ↔ f.Chooses id) ∧ n = count + ids.length := by
  cases hbody : f.isDeclaration with
  | true =>
    obtain ⟨rfl, rfl⟩ := h.unique (lowerSelects_of_isDeclaration hbody count)
    have hnone : ∀ id, ¬f'.Chooses id := by
      rintro id ⟨⟨b, pos, hlisted⟩, -⟩
      exact absurd hlisted.1 (List.isEmpty_iff.mp hbody ▸ List.not_mem_nil)
    exact ⟨.refl, hnone, [], List.nodup_nil, fun id => by simp [hnone id], rfl⟩
  | false =>
    have hs := hs hbody
    obtain ⟨ids, f₁, hquery, h⟩ := does_bind.mp h
    obtain ⟨hids, rfl⟩ := does_query.mp hquery
    obtain ⟨live, hlive⟩ := hs.tidy.closed.liveInsts_eq_ok
    obtain ⟨hsub, hchooses, hdecided⟩ := Function.selects_eq_ok hlive hids
    have hnodup : ids.Nodup := hsub.nodup (honce live hlive)
    have hend := h.foldlM_along
      (fun rest n f₁ => f.Choosing m exempt rest f₁ ∧ n + rest.length = count + ids.length)
      (fun id rest n n' f₁ f₂ hinv hstep => by
        obtain ⟨more, f₃, hdoes, hstep⟩ := does_bind.mp hstep
        obtain ⟨rfl, rfl⟩ := does_pure.mp hstep
        obtain ⟨rfl, hkept⟩ := lowerSelect_choosing hinv.1 hdoes
        refine ⟨hkept, ?_⟩
        rw [← hinv.2, List.length_cons, Nat.add_assoc, Nat.add_comm 1])
      ⟨⟨hs, .refl, hdecided, hnodup, hchooses⟩, rfl⟩
    obtain ⟨hend, hcount⟩ := hend
    exact ⟨hend.branches, fun id hid => List.not_mem_nil ((hend.chooses id).mpr hid), ids, hnodup,
      hchooses, hcount⟩

end Edit

/-! ## All functions -/

/-- A live selection of one of the functions that is decided by one bit. -/
def Module.Chooses (m : Module) (fid : FuncId) (id : InstId) : Prop :=
  ∃ f, m.function fid = .ok f ∧ f.Chooses id

/-- What the loop over the functions keeps, with those that are still to come and the number of
selections of the others. -/
structure Module.Branching (m : Module) (rest : List FuncId) (count : Nat) (m' : Module) : Prop where
  sound : m'.Sound
  steps : Module.Steps (fun _ => Function.Branches) m m'
  nodup : rest.Nodup
  kept : ∀ fid ∈ rest, m'.function fid = m.function fid
  gone : ∀ fid ∉ rest, ∀ id, ¬m'.Chooses fid id
  found : ∃ sites : List (FuncId × InstId), sites.Nodup ∧ sites.length = count ∧
    ∀ site, site ∈ sites ↔ site.1 ∉ rest ∧ m.Chooses site.1 site.2

namespace Pass

variable {s s' : PassState} {fid : FuncId}

theorem lowerSelects_branching {rest : List FuncId} {count n : Nat} (honce : m.ListsOnce)
    (h : m.Branching (fid :: rest) count s.module)
    (hdoes : (inFunction fid (Edit.lowerSelects count)).Does s n s') :
    m.Branching rest n s'.module := by
  obtain ⟨f, f', hid, hedit, rfl⟩ := does_inFunction.mp hdoes
  have hfunction : m.function fid = .ok f := (h.kept fid List.mem_cons_self).symm.trans hid
  obtain ⟨hbranches, hnone, ids, hnodup, hids, rfl⟩ :=
    Edit.lowerSelects_branches (h.sound fid f hid) (honce fid f hfunction) hedit
  obtain ⟨hnot, hrest⟩ := List.nodup_cons.mp h.nodup
  have hlt := Module.index_lt_of_function hid
  refine ⟨(inFunction_lowerSelects_sound h.sound hdoes).1,
    h.steps.trans (Module.Steps.of_function hid hbranches), hrest, fun i hi => ?_, fun i hi id => ?_, ?_⟩
  · have hne : i ≠ fid := fun heq => hnot (heq ▸ hi)
    dsimp only
    rw [Module.function_setFunction hlt, if_neg hne]
    exact h.kept i (List.mem_cons_of_mem _ hi)
  · rintro ⟨g, hg, hchooses⟩
    dsimp only at hg
    rw [Module.function_setFunction hlt] at hg
    split at hg
    · exact hnone id (Except.ok.inj hg ▸ hchooses)
    · next hne => exact h.gone i (by simp [hne, hi]) id ⟨g, hg, hchooses⟩
  · obtain ⟨sites, hsites, rfl, hmem⟩ := h.found
    have hof : ∀ id, m.Chooses fid id ↔ f.Chooses id := by
      refine fun id => ⟨?_, fun hid => ⟨f, hfunction, hid⟩⟩
      rintro ⟨g, hg, hid⟩
      exact Except.ok.inj (hfunction.symm.trans hg) ▸ hid
    refine ⟨sites ++ ids.map (fid, ·), ?_, by simp, ?_⟩
    · refine hsites.append (hnodup.map fun _ _ heq => (Prod.mk.inj heq).2) ?_
      intro site hold hnew
      obtain ⟨id, -, rfl⟩ := List.mem_map.mp hnew
      exact ((hmem _).mp hold).1 List.mem_cons_self
    · rintro ⟨i, id⟩
      rw [List.mem_append, hmem, List.mem_map]
      by_cases heq : i = fid
      · subst heq
        simp [hnot, hids, hof]
      · simp [heq, Ne.symm heq]

theorem lowerSelects_module {count : Nat} (hm : s.module.Sound) (honce : s.module.ListsOnce)
    (h : lowerSelects.Does s count s') : s.module.Branching [] count s'.module := by
  obtain ⟨fids, s₁, hids, h⟩ := does_bind.mp h
  obtain ⟨rfl, rfl⟩ := does_functionIds.mp hids
  obtain ⟨n, s₂, hloop, h⟩ := does_bind.mp h
  have hend : n = count ∧ s'.module = s₂.module := by
    dsimp only at h
    split at h
    · obtain ⟨u, s₃, hreport, h⟩ := does_bind.mp h
      obtain ⟨rfl, rfl⟩ := does_pure.mp h
      exact ⟨rfl, module_of_report hreport⟩
    · obtain ⟨u, s₃, hreport, h⟩ := does_bind.mp h
      obtain ⟨rfl, rfl⟩ := does_pure.mp h
      exact ⟨rfl, module_of_report hreport⟩
  rw [← hend.1, hend.2]
  refine hloop.foldlM_along (fun rest n s₁ => s.module.Branching rest n s₁.module)
    (fun fid rest n n' s₁ s₂ hinv hstep => lowerSelects_branching honce hinv hstep) ?_
  have hall : ∀ fid id, s.module.Chooses fid id → fid ∈ s.module.functionIds := by
    rintro fid id ⟨f, hid, -⟩
    exact Module.mem_functionIds.mpr (Module.index_lt_of_function hid)
  refine ⟨hm, .refl, Module.nodup_functionIds, fun _ _ => rfl,
    fun fid hnot id hid => hnot (hall fid id hid), [], List.nodup_nil, rfl, fun site => ?_⟩
  simp only [List.not_mem_nil, false_iff, not_and]
  exact fun hnot hid => hnot (hall _ _ hid)

end Pass

/-- In an accepted module live instructions have types unless one has its type from itself. -/
theorem Module.Accepted.typed (hm : m.Accepted) (hends : m.EndsTypes) : m.Typed := by
  intro fid f hf id b pos hid
  have hbody : f.isDeclaration = false := by
    rw [Function.isDeclaration, List.isEmpty_eq_false_iff]
    exact List.ne_nil_of_mem hid.1
  have hwell := hm.wellFormed hf hbody
  have hacyclic := hends f (Array.mem_of_getElem? (Module.function_eq_ok.mp hf)) hbody
  obtain ⟨inst, hinst, -⟩ := hwell.home id b pos hid
  refine Function.exists_valueType (hacyclic.ends (fun j kind operand hkind hnext => ?_)
    (Function.index_lt_of_inst hinst))
  exact of_decide_eq_true (Function.knowsValue_of_knowsKind (hwell.named.kinds j kind hkind)
    (InstKind.mem_operands_of_typeOperand? hnext))

/-- Where no instruction has its type from itself, lowering the selections of a module comes to its
end. It counts those that are decided by one bit, and leaves none of them. It keeps what a call ends
in, in a value or a trap, and what it leaves in memory and in the trace. -/
theorem Machine.call_lowerSelects (hm : m.Accepted) (honce : m.ListsOnce) :
    (m.EndsTypes → ∃ count s, Pass.lowerSelects.runOn m = .ok (.ok count, s)) ∧
    ∀ count s, Pass.lowerSelects.runOn m = .ok (.ok count, s) →
      (∀ fid id, ¬s.module.Chooses fid id) ∧
      {site : FuncId × InstId | m.Chooses site.1 site.2}.encard = count ∧
      ofModule s.module = (ofModule m).map (·.withModule s.module) ∧
      ∀ machine : Machine, machine.world.module = m → ∀ name args,
        Finished (machine.call name args).1 → machine.RepeatedBy s.module name args := by
  refine ⟨fun hends => Pass.exists_lowerSelects (s := { module := m }) (hm.sound honce)
    (hm.typed hends), fun count s h => ?_⟩
  have hend : m.Branching [] count s.module :=
    Pass.lowerSelects_module (s := { module := m }) (hm.sound honce) honce h
  have htidy := hm.tidy honce
  have hrefined : m.RefinedBy .free (fun cause => Finished (.error cause)) s.module :=
    hend.steps.refinedBy Exec.keeps_finished htidy fun _ _ _ hf hbranches =>
      ⟨hbranches.tidy hf, (hbranches.simulated hf).under⟩
  refine ⟨fun fid => hend.gone fid List.not_mem_nil, ?_, ofModule_withModule hrefined.globals, ?_⟩
  · obtain ⟨sites, hnodup, rfl, hmem⟩ := hend.found
    have hset : {site : FuncId × InstId | m.Chooses site.1 site.2} = sites.toFinset := by
      ext site
      simp [hmem]
    rw [hset, Set.encard_coe_eq_coe_finsetCard, List.toFinset_card_of_nodup hnodup]
  · rintro machine rfl name args hfinished
    refine hrefined.repeatedBy Exec.keeps_finished htidy (fun id n _ _ => ?_) fun cause hcause => ?_
    · rw [World.enterIf_free]
    · exact hcause ▸ hfinished

namespace Machine

def choosing : Machine where
  world := { module := .choosing, globals := #[] }
  store := { memory := .empty, stepsLeft := 2 }

theorem choosing_endsTypes : Module.choosing.EndsTypes := by
  intro f hf _
  refine Function.acyclic_of_descending ?_
  obtain rfl | hf := List.mem_cons.mp (Array.mem_def.mp hf)
  · decide
  · obtain rfl := List.mem_singleton.mp hf
    decide

theorem choosing_call : (choosing.call "choose" [1, 7, 5]).1 = .ok 7 := by
  let f : Function := .sole "choose" [.i1, .int 32, .int 32] (.int 32) (.select (.arg 0) (.arg 1) (.arg 2))
  have hid : choosing.world.module.findFunction? "choose" = some ⟨1⟩ := by
    simp [Module.findFunction?, choosing, Module.choosing, Function.atLeast, Function.sole,
      List.findIdx?_cons]
  have hcall : choosing.world.call "choose" [1, 7, 5] choosing.store =
      choosing.world.run (2 + 1) ⟨f, [1, 7, 5]⟩ ⟨∅, none, ⟨0⟩⟩ choosing.store :=
    World.call_of_found hid [1, 7, 5] choosing.store
  have hblock : f.block ⟨0⟩ = .ok ⟨"entry", [⟨0⟩], .ret (some (.inst ⟨0⟩))⟩ := rfl
  have hphis : f.phis ⟨0⟩ = .ok [] := rfl
  have hkind : (Activation.mk f [1, 7, 5]).function.kind ⟨0⟩ =
      .ok (.select (.arg 0) (.arg 1) (.arg 2)) := rfl
  have hstep : ∀ caller, choosing.world.step caller ⟨f, [1, 7, 5]⟩ ∅ ⟨0⟩ = pure 7 := by
    intro caller
    rw [World.step_select hkind]
    simp [World.eval]
  rw [call, exec, hcall, World.run_succ]
  simp [hblock, hphis, hstep, World.enteredPhis, World.setAll, World.rest_nil, World.rest_cons,
    World.runTerminator, World.eval]
  rfl

theorem choosing_call_lowerSelects : ∃ count s,
    Pass.lowerSelects.runOn .choosing = .ok (.ok count, s) ∧ (∀ fid id, ¬s.module.Chooses fid id) ∧
      {site : FuncId × InstId | Module.choosing.Chooses site.1 site.2}.encard = count ∧
      choosing.RepeatedBy s.module "choose" [1, 7, 5] := by
  obtain ⟨hcompletes, hruns⟩ :=
    call_lowerSelects Module.choosing_accepted Module.choosing_listsOnce
  obtain ⟨count, s, h⟩ := hcompletes choosing_endsTypes
  obtain ⟨hnone, hcount, -, hcalls⟩ := hruns count s h
  refine ⟨count, s, h, hnone, hcount, hcalls choosing rfl _ _ ?_⟩
  rw [choosing_call]
  exact ⟨nofun, fun _ => nofun⟩

end Machine

/-! ## A selection of itself -/

/-- Returns. No path leads to the selection, which chooses itself. -/
def Function.circular : Function where
  name := "circle"
  params := [.i1]
  ret := .void
  blocks := #[⟨"entry", [], .ret none⟩, ⟨"apart", [⟨0⟩], .ret none⟩]
  layout := [⟨0⟩, ⟨1⟩]
  insts := #[{ kind := .select (.arg 0) (.inst ⟨0⟩) (.inst ⟨0⟩), block := some ⟨1⟩ }]

def Module.circular : Module where
  name := "circular"
  functions := #[.circular]

namespace Function

theorem block_circular {b : BlockId} {blk : Block} (h : circular.block b = .ok blk) :
    (blk.insts = [] ∨ b = ⟨1⟩ ∧ blk.insts = [⟨0⟩]) ∧ blk.term = .ret none := by
  obtain ⟨index⟩ := b
  match index, h with
  | 0, h =>
    obtain rfl := Except.ok.inj h
    exact ⟨.inl rfl, rfl⟩
  | 1, h =>
    obtain rfl := Except.ok.inj h
    exact ⟨.inr ⟨rfl, rfl⟩, rfl⟩

theorem listed_circular {b : BlockId} {pos : Nat} :
    circular.Listed id b pos ↔ id = ⟨0⟩ ∧ b = ⟨1⟩ ∧ pos = 0 := by
  constructor
  · rintro ⟨-, blk, hblk, hpos⟩
    obtain ⟨hinsts | ⟨rfl, hinsts⟩, -⟩ := block_circular hblk
    · simp [hinsts] at hpos
    · rw [hinsts, List.getElem?_singleton] at hpos
      split at hpos
      · next hzero => exact ⟨(Option.some.inj hpos).symm, rfl, hzero⟩
      · cases hpos
  · rintro ⟨rfl, rfl, rfl⟩
    exact ⟨by decide, _, rfl, rfl⟩

theorem kind_circular {b : BlockId} {pos : Nat} {kind : InstKind} (hid : circular.Listed id b pos)
    (hkind : circular.kind id = .ok kind) : kind = .select (.arg 0) (.inst ⟨0⟩) (.inst ⟨0⟩) := by
  obtain ⟨rfl, -, -⟩ := listed_circular.mp hid
  exact (Except.ok.inj hkind).symm

theorem not_edge_circular (a b : BlockId) : ¬circular.Edge a b := by
  rintro ⟨succs, hsuccs, hb⟩
  obtain ⟨blk, hblk, rfl⟩ := Checked.map_eq_ok.mp hsuccs
  rw [(block_circular hblk).2] at hb
  cases hb

theorem not_reaches_circular : ¬circular.Reaches ⟨1⟩ := by
  rintro ⟨trail, path⟩
  cases path with
  | entry hentry => cases hentry
  | step _ hedge => exact not_edge_circular _ _ hedge

/-- Where no path leads nothing has to come before it is used. -/
theorem sound_circular : circular.Sound .circular fun _ => False where
  tidy := {
    closed := {
      inArena := by decide
      toLive := fun a _ b hb => absurd hb (not_edge_circular a b) }
    home := fun id b pos hid => by
      obtain ⟨rfl, rfl, -⟩ := listed_circular.mp hid
      exact ⟨_, rfl, rfl⟩
    nodup := fun b _ blk hblk => by
      obtain ⟨hinsts | ⟨-, hinsts⟩, -⟩ := block_circular hblk <;> simp [hinsts]
    operands := fun id b pos kind hid hkind value hvalue => by
      obtain rfl := kind_circular hid hkind
      simp only [InstKind.operands, List.mem_cons, List.not_mem_nil, or_false] at hvalue
      obtain rfl | rfl | rfl := hvalue
      · trivial
      · exact Nat.one_pos
      · exact Nat.one_pos
    termOperands := fun b _ blk hblk value hvalue => by
      rw [(block_circular hblk).2] at hvalue
      cases hvalue
    sources := fun id b pos ty incoming hid hkind => by cases kind_circular hid hkind
    phisLead := fun id b pos ty incoming hid hkind => by cases kind_circular hid hkind
    entries := fun id b pos ty incoming hid hkind => by cases kind_circular hid hkind }
  named := named_of_checkNames (by decide +kernel)
  layout := by decide
  unwind := fun b _ blk hblk callee args normal unwind hinvoke => by
    cases (block_circular hblk).2.symm.trans hinvoke
  sources := fun id b pos ty incoming hid hkind => by cases kind_circular hid hkind
  padsLead := fun id b pos hid hkind => by cases kind_circular hid hkind
  padEdges := fun id b pos hid hkind => by cases kind_circular hid hkind
  paired := fun id b pos kind lhs rhs hid hkind hpaired => by
    obtain rfl := kind_circular hid hkind
    cases hpaired
  arity := fun id b pos target args ret hid hkind => by cases kind_circular hid hkind
  conditions := fun b _ blk hblk cond onTrue onFalse hcond => by
    cases (block_circular hblk).2.symm.trans hcond
  phiUses := fun id b pos ty incoming hid hkind => by cases kind_circular hid hkind
  uses := fun id b pos kind hid hkind _ used hused => by
    obtain rfl := kind_circular hid hkind
    obtain rfl : used = ⟨0⟩ := by simpa [InstKind.operands] using hused
    obtain ⟨rfl, rfl, rfl⟩ := listed_circular.mp hid
    exact ⟨⟨1⟩, 0, hid, fun hreaches => absurd hreaches not_reaches_circular⟩
  termUses := fun b _ blk hblk used hused => by
    rw [(block_circular hblk).2] at hused
    cases hused

end Function

/-- The module is accepted, and its selection is decided by an argument of one bit; but the lowering
looks for its type for ever. -/
theorem Pass.lowerSelects_circular : Module.circular.Accepted ∧ Module.circular.ListsOnce ∧
    Module.circular.Chooses ⟨0⟩ ⟨0⟩ ∧
    lowerSelects.runOn .circular = .error (.cyclicType ⟨0⟩) := by
  have hfunction : ∀ fid f, Module.circular.function fid = .ok f → f = .circular := by
    rintro ⟨_ | index⟩ f hf
    · exact (Except.ok.inj hf).symm
    · cases hf
  refine ⟨Module.Sound.accepted fun fid f hf _ => ?_, fun fid f hf ids hids => ?_,
    ⟨_, rfl, ⟨⟨1⟩, 0, Function.listed_circular.mpr ⟨rfl, rfl, rfl⟩⟩, _, _, _, rfl, rfl⟩,
    Checked.eq_error_of_fault? (by decide +kernel)⟩
  · obtain rfl := hfunction fid f hf
    exact Function.sound_circular
  · obtain rfl := hfunction fid f hf
    obtain rfl := Except.ok.inj hids
    decide

end EdgeProbe
