import EdgeProbe.Proofs.Coverage.Arena
import EdgeProbe.Proofs.Lowering.Turns
import EdgeProbe.Proofs.Probe.Passes
import EdgeProbe.Proofs.Safety.Course
import EdgeProbe.Proofs.Token.Ordered

/-!
# Probes with other slots

Two computations go alike when they come to the same fault, or are refused for the same cause, or
yield what stands so to each other (`GoAlike`). So does the placing of a probe in functions that have
everything in common but the slots of the probes that are there, also if the new probes get different
slots: on the way only blocks and phis are asked for and changed, and no slot is told by them. Main
statement: `Edit.goAlike_placePlanned`.
-/

namespace EdgeProbe

variable {α β γ δ σ : Type}

/-! ## Two computations side by side -/

namespace Checked

/-- Two computations come to the same fault, or yield what stands so to each other. -/
inductive Alike (R : α → β → Prop) : Checked α → Checked β → Prop
  | fault (fault : Fault) : Alike R (.error fault) (.error fault)
  | ok {a : α} {b : β} (h : R a b) : Alike R (.ok a) (.ok b)

theorem Alike.of_eq {x y : Checked α} (h : y = x) : Alike Eq x y := by
  subst h
  cases y with
  | ok a => exact .ok rfl
  | error fault => exact .fault fault

theorem Alike.bind {R : α → β → Prop} {Q : γ → δ → Prop} {x : Checked α} {y : Checked β}
    {k : α → Checked γ} {l : β → Checked δ} (hx : Alike R x y)
    (hk : ∀ a b, R a b → Alike Q (k a) (l b)) : Alike Q (x >>= k) (y >>= l) := by
  cases hx with
  | fault fault => exact .fault fault
  | ok h => exact hk _ _ h

theorem Alike.foldlM {R : β → β → Prop} {g : β → α → Checked β}
    (hg : ∀ a b b', R b b' → Alike R (g b a) (g b' a)) (l : List α) {b b' : β} (h : R b b') :
    Alike R (l.foldlM g b) (l.foldlM g b') := by
  induction l generalizing b b' with
  | nil => exact .ok h
  | cons a rest ih =>
    rw [List.foldlM_cons, List.foldlM_cons]
    exact (hg a b b' h).bind fun _ _ => ih

end Checked

/-- Two computations on states come to the same fault, are refused for the same cause, or yield what
stands so to each other. In the last two cases they leave states that are related. -/
inductive GoAlike (R : σ → σ → Prop) (post : α → β → Prop) :
    Checked (Except Fatal α × σ) → Checked (Except Fatal β × σ) → Prop
  | fault (fault : Fault) : GoAlike R post (.error fault) (.error fault)
  | refused (cause : Fatal) {s t : σ} (h : R s t) :
    GoAlike R post (.ok (.error cause, s)) (.ok (.error cause, t))
  | done {a : α} {b : β} {s t : σ} (hpost : post a b) (h : R s t) :
    GoAlike R post (.ok (.ok a, s)) (.ok (.ok b, t))

namespace GoAlike

variable {R R' : σ → σ → Prop} {post : α → β → Prop} {s t : σ}
  {x : ExceptT Fatal (StateT σ Checked) α} {y : ExceptT Fatal (StateT σ Checked) β}

/-- What follows goes on from states that are related, perhaps less closely. -/
theorem bind_imp {k : α → ExceptT Fatal (StateT σ Checked) γ}
    {l : β → ExceptT Fatal (StateT σ Checked) δ} {post' : γ → δ → Prop}
    (hx : GoAlike R post (x s) (y t)) (hR : ∀ s t, R s t → R' s t)
    (hk : ∀ a b s' t', x s = .ok (.ok a, s') → post a b → R s' t' →
      GoAlike R' post' (k a s') (l b t')) :
    GoAlike R' post' ((x >>= k) s) ((y >>= l) t) := by
  change GoAlike R' post' (x s >>= fun r => ExceptT.bindCont k r.1 r.2)
    (y t >>= fun r => ExceptT.bindCont l r.1 r.2)
  generalize x s = outcome, y t = outcome' at hx hk
  cases hx with
  | fault fault => exact .fault fault
  | refused cause h => exact .refused cause (hR _ _ h)
  | done hpost h => exact hk _ _ _ _ rfl hpost h

theorem bind {k : α → ExceptT Fatal (StateT σ Checked) γ}
    {l : β → ExceptT Fatal (StateT σ Checked) δ} {post' : γ → δ → Prop}
    (hx : GoAlike R post (x s) (y t))
    (hk : ∀ a b s' t', x s = .ok (.ok a, s') → post a b → R s' t' →
      GoAlike R post' (k a s') (l b t')) :
    GoAlike R post' ((x >>= k) s) ((y >>= l) t) :=
  hx.bind_imp (fun _ _ => id) hk

theorem of_checked {x : Checked α} {y : Checked β} (h : Checked.Alike post x y) (hst : R s t) :
    GoAlike R post ((liftM x : ExceptT Fatal (StateT σ Checked) α) s)
      ((liftM y : ExceptT Fatal (StateT σ Checked) β) t) := by
  cases h with
  | fault fault => exact .fault fault
  | ok h => exact .done h hst

theorem forM {P : α → β → Prop} {g : α → ExceptT Fatal (StateT σ Checked) Unit}
    {g' : β → ExceptT Fatal (StateT σ Checked) Unit}
    (hg : ∀ a b s t, P a b → R s t → GoAlike R Eq (g a s) (g' b t)) {l : List α} {l' : List β}
    (hl : List.Forall₂ P l l') (h : R s t) : GoAlike R Eq (l.forM g s) (l'.forM g' t) := by
  induction hl generalizing s t with
  | nil => exact .done rfl h
  | cons hab _ ih => exact (hg _ _ s t hab h).bind fun _ _ _ _ _ _ => ih

end GoAlike

/-! ## Functions that differ in some instructions -/

namespace Function

/-- Two functions have everything in common but the kinds of instructions, and those differ in this
way. -/
structure SameBut (differ : InstId → InstKind → InstKind → Prop) (f f' : Function) : Prop where
  rest : f' = { f with insts := f'.insts }
  size : f'.insts.size = f.insts.size
  insts : ∀ id inst inst', f.inst id = .ok inst → f'.inst id = .ok inst' →
    inst' = { inst with kind := inst'.kind } ∧
      (inst'.kind = inst.kind ∨ differ id inst.kind inst'.kind)

variable {differ : InstId → InstKind → InstKind → Prop} {f f' : Function}

theorem SameBut.refl (f : Function) : f.SameBut differ f := by
  refine ⟨rfl, rfl, fun id inst inst' h h' => ?_⟩
  obtain rfl := Except.ok.inj (h.symm.trans h')
  exact ⟨rfl, .inl rfl⟩

theorem SameBut.imp {differ' : InstId → InstKind → InstKind → Prop} (h : f.SameBut differ f')
    (himp : ∀ id kind kind', differ id kind kind' → differ' id kind kind') : f.SameBut differ' f' :=
  ⟨h.rest, h.size, fun id inst inst' hid hid' =>
    (h.insts id inst inst' hid hid').imp_right (Or.imp_right (himp id _ _))⟩

/-- Where nothing differs they are the same. -/
theorem SameBut.eq (h : f.SameBut (fun _ _ _ => False) f') : f' = f := by
  have hinsts : f'.insts = f.insts := by
    refine Array.ext h.size fun i hi hi' => ?_
    have hkind : ∀ {g : Function} (hi : i < g.insts.size), g.inst ⟨i⟩ = .ok g.insts[i] :=
      fun hi => inst_eq_ok.mpr (Array.getElem?_eq_getElem hi)
    obtain ⟨hsame, heq | hfalse⟩ := h.insts ⟨i⟩ _ _ (hkind hi') (hkind hi)
    · rw [hsame, heq]
    · exact hfalse.elim
  rw [h.rest, hinsts]

section

variable (h : f.SameBut differ f')
include h

theorem SameBut.name : f'.name = f.name := by
  rw [h.rest]

theorem SameBut.entryBlock? : f'.entryBlock? = f.entryBlock? := by
  rw [h.rest]
  rfl

theorem SameBut.block (b : BlockId) : f'.block b = f.block b := by
  rw [h.rest]
  rfl

theorem SameBut.successors (b : BlockId) : f'.successors b = f.successors b := by
  rw [Function.successors, Function.successors, h.block]

theorem SameBut.singlePredecessor? (b : BlockId) : f'.singlePredecessor? b = f.singlePredecessor? b := by
  have hsole : ∀ found blocks, f'.soleEdgeInto b found blocks = f.soleEdgeInto b found blocks := by
    intro found blocks
    induction blocks generalizing found with
    | nil => rfl
    | cons source rest ih => simp only [soleEdgeInto, h.successors, ih]
  rw [Function.singlePredecessor?, Function.singlePredecessor?, hsole, h.rest]

theorem SameBut.inst_cases (id : InstId) :
    (f.inst id = .error (.danglingInst id) ∧ f'.inst id = .error (.danglingInst id)) ∨
      ∃ inst inst', f.inst id = .ok inst ∧ f'.inst id = .ok inst' := by
  by_cases hid : id.index < f.insts.size
  · exact .inr ⟨_, _, inst_eq_ok.mpr (Array.getElem?_eq_getElem hid),
      inst_eq_ok.mpr (Array.getElem?_eq_getElem (h.size.symm ▸ hid))⟩
  · refine .inl ⟨?_, ?_⟩
    · rw [Function.inst, Array.getElem?_eq_none (Nat.le_of_not_lt hid)]
    · rw [Function.inst, Array.getElem?_eq_none (by rw [h.size]; exact Nat.le_of_not_lt hid)]

theorem SameBut.leading {holds : InstKind → Bool}
    (hholds : ∀ id kind kind', differ id kind kind' → holds kind' = holds kind) (ids : List InstId) :
    f'.leading holds ids = f.leading holds ids := by
  induction ids with
  | nil => rfl
  | cons id rest ih =>
    obtain ⟨hid, hid'⟩ | ⟨inst, inst', hid, hid'⟩ := h.inst_cases id
    · simp only [Function.leading, kind, hid, hid', Except.map]
      rfl
    · have hsame : holds inst'.kind = holds inst.kind := by
        obtain ⟨-, heq | hdiffer⟩ := h.insts id inst inst' hid hid'
        · rw [heq]
        · exact hholds id _ _ hdiffer
      simp only [Function.leading, kind, hid, hid', Except.map, bind, Except.bind, hsame, ih]

/-! ### Changes of both -/

theorem SameBut.modifyBlock (b : BlockId) (change : Block → Block) :
    Checked.Alike (SameBut differ) (f.modifyBlock b change) (f'.modifyBlock b change) := by
  obtain ⟨hrest, hsize, hinsts⟩ := h
  have hblocks : f'.blocks = f.blocks := by rw [hrest]
  unfold Function.modifyBlock
  rw [hblocks]
  split
  · refine .ok ⟨?_, hsize, hinsts⟩
    rw [hrest]
  · exact .fault _

/-- Instructions that may differ are left alone. -/
theorem SameBut.modifyInst (id : InstId) {change : InstKind → InstKind}
    (hchange : ∀ id kind kind', differ id kind kind' → change kind = kind ∧ change kind' = kind') :
    Checked.Alike (SameBut differ) (f.modifyInst id fun i => { i with kind := change i.kind })
      (f'.modifyInst id fun i => { i with kind := change i.kind }) := by
  obtain ⟨hid, hid'⟩ | ⟨inst, inst', hid, hid'⟩ := h.inst_cases id
  · have hlt : ∀ {g : Function}, g.inst id = .error (.danglingInst id) → ¬id.index < g.insts.size := by
      intro g hg hlt
      cases hg.symm.trans (inst_eq_ok.mpr (Array.getElem?_eq_getElem hlt))
    rw [Function.modifyInst, Function.modifyInst, if_neg (hlt hid), if_neg (hlt hid')]
    exact .fault _
  · rw [modifyInst_eq_ok.mpr ⟨index_lt_of_inst hid, rfl⟩,
      modifyInst_eq_ok.mpr ⟨index_lt_of_inst hid', rfl⟩]
    refine .ok ⟨?_, by simpa using h.size, fun i j j' hj hj' => ?_⟩
    · conv_lhs => rw [h.rest]
      rfl
    · rw [inst_withInst] at hj hj'
      split at hj
      · next heq =>
        subst heq
        rw [if_pos rfl] at hj'
        obtain ⟨j₀, hj₀, rfl⟩ := Checked.map_eq_ok.mp hj
        obtain ⟨j₀', hj₀', rfl⟩ := Checked.map_eq_ok.mp hj'
        obtain ⟨hsame, heq | hdiffer⟩ := h.insts i j₀ j₀' hj₀ hj₀'
        · rw [hsame, heq]
          exact ⟨rfl, .inl rfl⟩
        · obtain ⟨hkind, hkind'⟩ := hchange i _ _ hdiffer
          rw [hkind, hkind']
          exact ⟨by rw [hsame], .inr hdiffer⟩
      · next hne =>
        rw [if_neg hne] at hj'
        exact h.insts i j j' hj hj'

theorem SameBut.addBlockBefore (name : String) (before : BlockId) :
    (f.addBlockBefore name before).1.SameBut differ (f'.addBlockBefore name before).1 ∧
      (f'.addBlockBefore name before).2 = (f.addBlockBefore name before).2 := by
  obtain ⟨hrest, hsize, hinsts⟩ := h
  rw [hrest]
  exact ⟨⟨rfl, hsize, hinsts⟩, rfl⟩

end

variable {hooks : Hooks} {drawn : Nat → Nat → Prop} {f f' g g' : Function}

/-- Both have the code of a probe from the same instruction on, and their slots for it were drawn like
this. One of its instructions mixes the slot in, and another one leaves half of it behind. -/
inductive OtherSlot (hooks : Hooks) (drawn : Nat → Nat → Prop) (f f' : Function) :
    InstId → InstKind → InstKind → Prop
  | mixed {previous : GlobalId} {first slot slot' : Nat} (hprevious : hooks.previous = some previous)
    (hdrawn : drawn slot slot') (hf : f.CountsAt hooks first slot)
    (hf' : f'.CountsAt hooks first slot') :
    OtherSlot hooks drawn f f' ⟨first + 2⟩
      (.binary .xor (.inst ⟨first + 1⟩) (.ofWord 32 (UInt64.ofNat slot)))
      (.binary .xor (.inst ⟨first + 1⟩) (.ofWord 32 (UInt64.ofNat slot')))
  | left {previous : GlobalId} {first slot slot' : Nat} (hprevious : hooks.previous = some previous)
    (hdrawn : drawn slot slot') (hf : f.CountsAt hooks first slot)
    (hf' : f'.CountsAt hooks first slot') :
    OtherSlot hooks drawn f f' ⟨first + 8⟩
      (.store (.ofWord 32 (UInt64.ofNat (slot / 2))) (.global previous))
      (.store (.ofWord 32 (UInt64.ofNat (slot' / 2))) (.global previous))

theorem OtherSlot.imp {id : InstId} {kind kind' : InstKind}
    (h : f.OtherSlot hooks drawn f' id kind kind')
    (hf : ∀ first slot, f.CountsAt hooks first slot → g.CountsAt hooks first slot)
    (hf' : ∀ first slot, f'.CountsAt hooks first slot → g'.CountsAt hooks first slot) :
    g.OtherSlot hooks drawn g' id kind kind' := by
  cases h with
  | mixed hprevious hdrawn hcounts hcounts' =>
    exact .mixed hprevious hdrawn (hf _ _ hcounts) (hf' _ _ hcounts')
  | left hprevious hdrawn hcounts hcounts' =>
    exact .left hprevious hdrawn (hf _ _ hcounts) (hf' _ _ hcounts')

/-- There are that many instructions that do not differ, and the others differ in slots only. -/
structure SameSince (base : Nat) (hooks : Hooks) (drawn : Nat → Nat → Prop) (f f' : Function) : Prop
    extends f.SameBut (fun id kind kind' =>
      base ≤ id.index ∧ f.OtherSlot hooks drawn f' id kind kind') f' where
  reaches : base ≤ f.insts.size

variable {base : Nat}

/-- Changes that leave everything but phis alone do no harm to the code of probes. -/
theorem SameSince.of_work {x y : Checked Function} (hbase : base ≤ f.insts.size)
    (halike : Checked.Alike (SameBut fun id kind kind' =>
      base ≤ id.index ∧ f.OtherSlot hooks drawn f' id kind kind') x y)
    (hx : ∀ g, x = .ok g → f.SameWork g) (hy : ∀ g', y = .ok g' → f'.SameWork g') :
    Checked.Alike (SameSince base hooks drawn) x y := by
  cases halike with
  | fault fault => exact .fault fault
  | ok h =>
    have hwork := hx _ rfl
    have hwork' := hy _ rfl
    exact .ok ⟨h.imp fun id kind kind' => And.imp_right fun hother =>
      hother.imp (fun _ _ h => h.of_work hwork) fun _ _ h => h.of_work hwork',
      hbase.trans hwork.size.ge⟩

end Function

/-! ## Placing probes side by side -/

/-- The slots are the same in dense mode, and in classic mode they were drawn like this. -/
structure Hooks.Slots (hooks : Hooks) (drawn : Nat → Nat → Prop) (slot slot' : Nat) : Prop where
  dense : hooks.previous = none → slot' = slot
  classic : ∀ previous, hooks.previous = some previous → drawn slot slot'

section

variable {base : Nat} {hooks : Hooks} {drawn : Nat → Nat → Prop} {slot slot' : Nat}
  (hslots : hooks.Slots drawn slot slot')
include hslots

/-- The codes of two probes differ where the slot is mixed in and where half of it is left behind. -/
theorem Hooks.Slots.countCode_cases {first k : Nat} {kind kind' : InstKind}
    (hkind : (hooks.countCode first slot)[k]? = some kind)
    (hkind' : (hooks.countCode first slot')[k]? = some kind') :
    kind' = kind ∨ ∀ {f f' : Function}, f.CountsAt hooks first slot → f'.CountsAt hooks first slot' →
      f.OtherSlot hooks drawn f' ⟨first + k⟩ kind kind' := by
  obtain ⟨hdense, hclassic⟩ := hslots
  cases hprevious : hooks.previous with
  | none =>
    obtain rfl := hdense hprevious
    exact .inl (Option.some.inj (hkind'.symm.trans hkind))
  | some previous =>
    have hdrawn := hclassic previous hprevious
    unfold countCode at hkind hkind'
    rw [hprevious] at hkind hkind'
    match k with
    | 0 | 1 | 3 | 4 | 5 | 6 | 7 => exact .inl (Option.some.inj (hkind'.symm.trans hkind))
    | 2 =>
      obtain rfl := Option.some.inj hkind
      obtain rfl := Option.some.inj hkind'
      exact .inr (.mixed hprevious hdrawn)
    | 8 =>
      obtain rfl := Option.some.inj hkind
      obtain rfl := Option.some.inj hkind'
      exact .inr (.left hprevious hdrawn)
    | k + 9 => cases hkind

/-- Each gets one more probe, at the same place. -/
theorem Function.SameSince.withProbe {f f' : Function} (h : f.SameSince base hooks drawn f')
    (b : BlockId) (pos id : Nat) :
    (f.withInsts b pos (hooks.probeCode f.insts.size id slot)).SameSince base hooks drawn
      (f'.withInsts b pos (hooks.probeCode f'.insts.size id slot')) := by
  have hsize : f'.insts.size = f.insts.size := h.size
  rw [hsize]
  have hlength : (hooks.probeCode f.insts.size id slot').length =
      (hooks.probeCode f.insts.size id slot).length := by
    simp only [Hooks.probeCode, Hooks.countCode, List.length_append]
    cases hooks.previous <;> rfl
  have hcounts := f.countsAt_withProbe hooks b pos id slot
  have hcounts' := f'.countsAt_withProbe hooks b pos id slot'
  rw [hsize] at hcounts'
  refine ⟨⟨?_, by simp [hlength, hsize], fun i inst inst' hi hi' => ?_⟩,
    h.reaches.trans (by simp)⟩
  · conv_lhs => rw [h.rest]
    simp only [withInsts, hlength, nextIds, hsize]
  obtain hlt | hle := Nat.lt_or_ge i.index f.insts.size
  · rw [inst_withInsts_of_lt _ _ _ _ hlt] at hi
    rw [inst_withInsts_of_lt _ _ _ _ (hsize ▸ hlt)] at hi'
    refine (h.insts i inst inst' hi hi').imp_right (Or.imp_right (And.imp_right fun hother => ?_))
    exact hother.imp (fun _ _ h => h.withInsts b pos _) fun _ _ h => h.withInsts b pos _
  · obtain ⟨k, hk⟩ := Nat.exists_eq_add_of_le hle
    obtain rfl : i = ⟨f.insts.size + k⟩ := congrArg InstId.mk hk
    obtain ⟨kind, hkind, rfl⟩ := inst_withInsts_new.mp hi
    rw [← hsize] at hi'
    obtain ⟨kind', hkind', rfl⟩ := inst_withInsts_new.mp hi'
    refine ⟨rfl, ?_⟩
    rw [hsize] at hkind'
    rw [Hooks.probeCode] at hkind hkind'
    obtain hlead | hcount := Nat.lt_or_ge k (hooks.traceCode id).length
    · rw [List.getElem?_append_left hlead] at hkind hkind'
      exact .inl (Option.some.inj (hkind'.symm.trans hkind))
    · rw [List.getElem?_append_right hcount] at hkind hkind'
      obtain heq | hother := hslots.countCode_cases hkind hkind'
      · exact .inl heq
      · refine .inr ⟨h.reaches.trans (Nat.le_add_right _ _), ?_⟩
        have hat := hother hcounts hcounts'
        rwa [Nat.add_assoc, Nat.add_sub_cancel' hcount] at hat

end

namespace Edit

variable {base : Nat} {hooks : Hooks} {drawn : Nat → Nat → Prop} {f f' : Function}

theorem goAlike_update {change : Function → Checked Function}
    (halike : Checked.Alike (Function.SameSince base hooks drawn) (change f) (change f')) :
    GoAlike (Function.SameSince base hooks drawn) Eq (update change f) (update change f') := by
  unfold update
  generalize change f = outcome, change f' = outcome' at halike
  cases halike with
  | fault fault => exact .fault fault
  | ok h => exact .done rfl h

section

variable (h : f.SameSince base hooks drawn f')
include h

theorem goAlike_query {question : Function → Checked α} (hasked : question f' = question f) :
    GoAlike (Function.SameSince base hooks drawn) Eq (query question f) (query question f') :=
  .of_checked (.of_eq hasked) h

theorem goAlike_modifyBlock (b : BlockId) (change : Block → Block) :
    GoAlike (Function.SameSince base hooks drawn) Eq (update (·.modifyBlock b change) f)
      (update (·.modifyBlock b change) f') :=
  goAlike_update (Function.SameSince.of_work h.reaches (h.modifyBlock b change)
    (fun _ => Function.sameWork_modifyBlock) fun _ => Function.sameWork_modifyBlock)

theorem goAlike_addBlockBefore (name : String) (before : BlockId) :
    GoAlike (Function.SameSince base hooks drawn) Eq (addBlockBefore name before f)
      (addBlockBefore name before f') := by
  obtain ⟨hsame, hid⟩ := h.addBlockBefore name before
  exact .done hid.symm ⟨hsame.imp fun _ _ _ => And.imp_right fun hother =>
    hother.imp (fun _ _ => id) fun _ _ => id, h.reaches⟩

/-- What tells the slot is neither a phi nor a landing pad. -/
theorem leading_eq {holds : InstKind → Bool}
    (hholds : ∀ kind : InstKind, kind.isPhi = false → kind.isLandingPad = false → holds kind = false)
    (ids : List InstId) : f'.leading holds ids = f.leading holds ids := by
  refine h.leading (fun id kind kind' hdiffer => ?_) ids
  obtain ⟨-, hother⟩ := hdiffer
  cases hother <;> rw [hholds _ rfl rfl, hholds _ rfl rfl]

/-- The phis of a block are changed alike. -/
theorem goAlike_changePhis (b : BlockId) {change : InstKind → InstKind}
    (hphi : ∀ kind, (change kind).isPhi = kind.isPhi)
    (hother : ∀ kind, kind.isPhi = false → change kind = kind) :
    GoAlike (Function.SameSince base hooks drawn) Eq
      (update (fun f => do (← f.phis b).foldlM (fun (f : Function) phi =>
        f.modifyInst phi fun i => { i with kind := change i.kind }) f) f)
      (update (fun f => do (← f.phis b).foldlM (fun (f : Function) phi =>
        f.modifyInst phi fun i => { i with kind := change i.kind }) f) f') := by
  have hphis : f'.phis b = f.phis b := by
    rw [Function.phis, Function.phis, h.block]
    exact congrArg (Except.bind _)
      (funext fun blk => leading_eq h (fun _ hkind _ => hkind) blk.insts)
  refine goAlike_update ((Checked.Alike.of_eq hphis).bind fun phis _ hsame => hsame ▸ ?_)
  refine .foldlM (fun phi g g' hg => Function.SameSince.of_work hg.reaches (hg.modifyInst phi ?_)
    (fun _ => Function.sameWork_modifyInst hphi hother)
      fun _ => Function.sameWork_modifyInst hphi hother) phis h
  rintro id kind kind' ⟨-, hdiffer⟩
  cases hdiffer <;> exact ⟨hother _ rfl, hother _ rfl⟩

/-- In front of which instruction a probe goes does not depend on slots. -/
theorem firstInsertionPoint_eq (b : BlockId) : f'.firstInsertionPoint b = f.firstInsertionPoint b := by
  rw [Function.firstInsertionPoint, Function.firstInsertionPoint, h.block]
  refine congrArg (Except.bind _) (funext fun blk => ?_)
  rw [leading_eq h (fun kind hphi hpad => by rw [hphi, hpad]; rfl) blk.insts]

end

section

variable {slot slot' : Nat} (hslots : hooks.Slots drawn slot slot')
  (h : f.SameSince base hooks drawn f')
include hslots h

theorem goAlike_placeProbe {b : BlockId} {blk : Block} {pos : Nat} (hblk : f.block b = .ok blk)
    (hpos : pos ≤ blk.insts.length) (id : Nat) :
    GoAlike (Function.SameSince base hooks drawn) Eq (placeProbe hooks b pos id slot f)
      (placeProbe hooks b pos id slot' f') := by
  have hplaced : (placeProbe hooks b pos id slot).Does f () _ := placeProbe_does hblk hpos id slot
  have hplaced' : (placeProbe hooks b pos id slot').Does f' () _ :=
    placeProbe_does ((h.block b).trans hblk) hpos id slot'
  rw [Does] at hplaced hplaced'
  rw [hplaced, hplaced']
  exact .done rfl (h.withProbe hslots b pos id)

/-- A probe goes in front of the first instruction of a block that is neither a phi nor a landing pad. -/
theorem goAlike_placeFirst (b : BlockId) (id : Nat) :
    GoAlike (Function.SameSince base hooks drawn) Eq
      ((do let pos ← query (·.firstInsertionPoint b); placeProbe hooks b pos id slot : Edit Unit) f)
      ((do let pos ← query (·.firstInsertionPoint b); placeProbe hooks b pos id slot' : Edit Unit) f')
    := by
  have hasked := firstInsertionPoint_eq h b
  cases hpos : f.firstInsertionPoint b with
  | error fault =>
    have hfault : ∀ {f : Function} {slot : Nat}, f.firstInsertionPoint b = .error fault →
        (do let pos ← query (·.firstInsertionPoint b); placeProbe hooks b pos id slot : Edit Unit) f =
          .error fault := by
      intro f slot hf
      refine Course.bind_of_fault ?_
      change (liftM (f.firstInsertionPoint b) : Edit Nat) f = _
      rw [hf]
      rfl
    rw [hfault hpos, hfault (hasked.trans hpos)]
    exact .fault fault
  | ok pos =>
    obtain ⟨blk, hblk, hle, -⟩ := Function.firstInsertionPoint_eq_ok hpos
    have hrun : ∀ {f : Function} {slot : Nat}, f.firstInsertionPoint b = .ok pos →
        (do let pos ← query (·.firstInsertionPoint b); placeProbe hooks b pos id slot : Edit Unit) f =
          placeProbe hooks b pos id slot f :=
      fun hf => Course.bind_of_ok (does_query.mpr ⟨hf, rfl⟩)
    rw [hrun hpos, hrun (hasked.trans hpos)]
    exact goAlike_placeProbe hslots h hblk hle id

theorem goAlike_probeEntry (id : Nat) :
    GoAlike (Function.SameSince base hooks drawn) Eq (probeEntry hooks id slot f)
      (probeEntry hooks id slot' f') := by
  have hget : GoAlike (Function.SameSince base hooks drawn) (Function.SameSince base hooks drawn)
      ((get : Edit Function) f) ((get : Edit Function) f') := .done h h
  refine hget.bind fun g g' f₁ f₁' _ hg h₁ => ?_
  rw [hg.entryBlock?]
  cases g.entryBlock? with
  | none => exact .done rfl h₁
  | some entry => exact goAlike_placeFirst hslots h₁ entry id

theorem goAlike_probeTarget (target : BlockId) (id : Nat) :
    GoAlike (Function.SameSince base hooks drawn) Eq (probeTarget hooks target id slot f)
      (probeTarget hooks target id slot' f') := by
  refine (goAlike_query h (h.block target)).bind fun blk _ f₁ f₁' _ hblk h₁ => hblk ▸ ?_
  dsimp only
  split
  · have hname : f₁'.name = f₁.name := h₁.name
    change GoAlike _ _ (.ok (.error (.alreadyInstrumented f₁.name blk.name), f₁))
      (.ok (.error (.alreadyInstrumented f₁'.name blk.name), f₁'))
    rw [hname]
    exact .refused _ h₁
  · refine (goAlike_modifyBlock h₁ target _).bind fun _ _ f₂ f₂' _ _ h₂ => ?_
    exact goAlike_placeFirst hslots h₂ target id

theorem goAlike_probeEdge (block : BlockId) (index : Nat) (target : BlockId) (id : Nat) :
    GoAlike (Function.SameSince base hooks drawn) Eq (probeEdge hooks block index target id slot f)
      (probeEdge hooks block index target id slot' f') := by
  refine (goAlike_addBlockBefore h _ target).bind fun probe _ f₁ f₁' hadd hprobe h₁ => hprobe ▸ ?_
  have hnew : probe.index < f₁.blocks.size := by
    obtain ⟨rfl, rfl⟩ := Prod.mk.inj (Except.ok.inj (does_apply.mp hadd))
    exact (Nat.lt_succ_self _).trans_eq (Array.size_push _).symm
  refine (goAlike_modifyBlock h₁ probe _).bind fun _ _ f₂ f₂' hterm _ h₂ => ?_
  have hwork₂ := Function.sameWork_modifyBlock (does_update.mp hterm)
  refine (goAlike_modifyBlock h₂ block _).bind fun _ _ f₃ f₃' hredirect _ h₃ => ?_
  have hwork₃ := hwork₂.trans (Function.sameWork_modifyBlock (does_update.mp hredirect))
  refine (goAlike_query h₃ (h₃.successors block)).bind
    fun succs _ f₄ f₄' hquery hsuccs h₄ => hsuccs ▸ ?_
  obtain ⟨-, rfl⟩ := does_query.mp hquery
  -- The new block is not lost, so there is room for the probe.
  have hend : ∀ f₅ f₅', f₃.SameWork f₅ → f₅.SameSince base hooks drawn f₅' →
      GoAlike (Function.SameSince base hooks drawn) Eq (placeProbe hooks probe 0 id slot f₅)
        (placeProbe hooks probe 0 id slot' f₅') := by
    intro f₅ f₅' hwork h₅
    obtain ⟨blk, hblk⟩ := Function.exists_block (hnew.trans_le (hwork₃.trans hwork).blocks)
    exact goAlike_placeProbe hslots h₅ hblk (Nat.zero_le _) id
  split
  · have hcopies (kind : InstKind) :
        (Function.copyIncoming block probe kind).isPhi = kind.isPhi := by
      unfold Function.copyIncoming
      cases kind <;> first | rfl | (dsimp only; split <;> rfl)
    refine (goAlike_changePhis h₄ target hcopies fun kind hkind => ?_).bind
      fun _ _ f₅ f₅' hphis _ h₅ =>
        hend f₅ f₅' (Function.sameWork_copyPhiIncoming (does_update.mp hphis)) h₅
    cases kind <;> first | rfl | cases hkind
  · have hrenames (kind : InstKind) :
        (kind.renameIncoming block probe).isPhi = kind.isPhi := by
      cases kind <;> rfl
    refine (goAlike_changePhis h₄ target hrenames fun kind hkind => ?_).bind
      fun _ _ f₅ f₅' hphis _ h₅ =>
        hend f₅ f₅' (Function.sameWork_replacePhiIncomingBlock (does_update.mp hphis)) h₅
    cases kind <;> first | rfl | cases hkind

/-- Probes at the same site do the same but for what their slots are used for. -/
theorem goAlike_placePlanned (site : ProbeSite) (id : Nat) :
    GoAlike (Function.SameSince base hooks drawn) Eq (placePlanned hooks ⟨site, id, slot⟩ f)
      (placePlanned hooks ⟨site, id, slot'⟩ f') := by
  unfold placePlanned
  cases site with
  | entry function => exact goAlike_probeEntry hslots h id
  | edge function block index =>
    refine (goAlike_query h (h.successors block)).bind fun succs _ f₁ f₁' _ hsuccs h₁ => hsuccs ▸ ?_
    cases succs[index]? with
    | none => exact .done rfl h₁
    | some target =>
      refine (goAlike_query h₁ (h₁.singlePredecessor? target)).bind
        fun pred _ f₂ f₂' _ hpred h₂ => hpred ▸ ?_
      split
      · exact goAlike_probeTarget hslots h₂ target id
      · exact goAlike_probeEdge hslots h₂ block index target id

end

end Edit

end EdgeProbe
