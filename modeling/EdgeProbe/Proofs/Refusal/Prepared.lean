import EdgeProbe.Proofs.Probe.Correspondence
import EdgeProbe.Proofs.Probe.Passes
import EdgeProbe.Proofs.Validity.OwnPads

/-!
# Modules whose landing pads have been split

What selecting sites and placing probes ask of a module: a single edge leads to each landing pad and
to each block that an invocation unwinds to, and what functions call is there. Splitting landing pads
makes an accepted module one of these, and does nothing to it afterwards. In such a module nothing but
a switch is in the way of selecting sites, and the first one is reported. Main statements:
`Module.Accepted.prepared`, `Pass.splitAllPads_does_nothing` and `Module.Prepared.probeSites_ends`.
-/

namespace EdgeProbe

open Checked

namespace Function

variable {m : Module} {f f' : Function} {b : BlockId}

/-- Some edge is the only live one into the block. -/
def EnteredOnce (f : Function) (b : BlockId) : Prop :=
  ∃ source index, f.SoleEdge source index b

structure Prepared (m : Module) (f : Function) : Prop where
  whole : f.Whole
  closed : f.Closed
  nodup : f.layout.Nodup
  callees : ∀ id b k, f.Listed id b k → ∀ target args ret,
    f.kind id = .ok (.call (.direct target) args ret) → ∃ g, m.function target = .ok g
  pads : ∀ b, f.Lands b → f.EnteredOnce b
  unwind : ∀ b ∈ f.layout, ∀ blk, f.block b = .ok blk → ∀ callee args normal unwind,
    blk.term = .invoke callee args normal unwind → f.EnteredOnce unwind

namespace Prepared

variable (hf : f.Prepared m)
include hf

theorem framed : f.Framed :=
  ⟨hf.whole, hf.closed.inArena, hf.nodup⟩

theorem predecessors_eq (h : f.EnteredOnce b) : ∃ a, f.predecessors b = .ok [a] := by
  obtain ⟨source, index, hsole⟩ := h
  exact ⟨source, hsole.predecessors_eq hf.nodup hf.closed.inArena⟩

/-- No landing pad is shared. -/
theorem sharedLandingPads_eq : f.sharedLandingPads = .ok [] := by
  obtain ⟨shared, hshared⟩ := hf.whole.exists_sharedLandingPads hf.closed
  obtain ⟨hsub, hiff⟩ := sharedLandingPads_eq_ok hshared
  cases shared with
  | nil => exact hshared
  | cons pad rest =>
    have hlive := hsub.subset (List.mem_cons_self : pad ∈ pad :: rest)
    obtain ⟨hpad, preds, hpreds, hlt⟩ := (hiff pad hlive).mp List.mem_cons_self
    obtain ⟨a, ha⟩ := hf.predecessors_eq (hf.pads pad (exists_landingPad hlive hpad))
    obtain rfl := Except.ok.inj (hpreds.symm.trans ha)
    simp at hlt

/-- Its blocks can be read. -/
theorem legible (hb : b ∈ f.layout) : m.Legible f b := by
  obtain ⟨blk, hblk⟩ := exists_block (hf.closed.inArena b hb)
  refine ⟨blk, hblk, fun id hid => ?_⟩
  obtain ⟨inst, hinst⟩ := exists_inst (hf.whole.insts b blk hblk id hid)
  obtain ⟨k, hk⟩ := List.getElem?_of_mem hid
  exact ⟨inst, hinst, fun target args ret hkind =>
    hf.callees id b k ⟨hb, blk, hblk, hk⟩ target args ret (kind_eq_ok.mpr ⟨inst, hinst, hkind⟩)⟩

end Prepared

theorem Dividing.enteredOnce (hf : f.Dividing []) (hb : f.Lands b) : f.EnteredOnce b := by
  obtain ⟨id, k, hid, hkind⟩ := hb
  have hsole := (hf.sole id b k hid hkind).resolve_left List.not_mem_nil
  obtain ⟨a, -, hpreds, succs, hsuccs, hmem⟩ := hf.landed.predecessors_eq hid hkind hsole
  obtain ⟨index, hindex⟩ := List.getElem?_of_mem hmem
  exact ⟨a, index, soleEdge_of_predecessors hf.landed.layout hpreds hsuccs hindex⟩

/-- A function whose landing pads have all been split is prepared. -/
theorem Dividing.prepared (hf : f.Dividing []) (hcallees : ∀ id target args ret,
    f.kind id = .ok (.call (.direct target) args ret) → ∃ g, m.function target = .ok g) :
    f.Prepared m where
  whole := hf.landed.whole
  closed := hf.landed.closed
  nodup := hf.landed.layout
  callees := fun id _ _ _ => hcallees id
  pads := fun _ hb => hf.enteredOnce hb
  unwind := fun b hb blk hblk callee args normal unwind hterm =>
    hf.enteredOnce (hf.landed.unwind b hb blk hblk callee args normal unwind hterm)

end Function

namespace Module

variable {m : Module}

/-- Functions that have a body are prepared. -/
def Prepared (m : Module) : Prop :=
  ∀ id f, m.function id = .ok f → f.isDeclaration = true ∨ f.Prepared m

theorem Prepared.exists_block (hm : m.Prepared) :
    ∀ id f, m.function id = .ok f → ∀ b ∈ f.layout, ∃ blk, f.block b = .ok blk := by
  intro id f hf b hb
  obtain hdeclared | hprepared := hm id f hf
  · rw [List.isEmpty_iff.mp hdeclared] at hb
    cases hb
  · exact Function.exists_block (hprepared.closed.inArena b hb)

/-- What probes at a site stand for can be read. -/
theorem Prepared.siteLegible (hm : m.Prepared) {config : Config} {pointedTo : Option (List String)}
    {site : ProbeSite} (h : m.IsSite config pointedTo site) : ∃ f, m.SiteLegible site f := by
  obtain ⟨f, hf, hbody, hfits⟩ := h.fits
  have hprepared : f.Prepared m := (hm _ f hf).resolve_left (by simp [hbody])
  refine ⟨f, hf, ?_⟩
  cases site with
  | entry id =>
    refine yields_pure fun b hb => hprepared.legible ?_
    exact List.mem_of_mem_head? (Option.mem_toList.mp hb)
  | edge id block index =>
    obtain ⟨hblock, succs, target, hsuccs, hindex⟩ := hfits
    have htarget : target ∈ f.layout :=
      hprepared.closed.toLive block hblock target ⟨succs, hsuccs, List.mem_of_getElem? hindex⟩
    refine .after hsuccs ?_
    rw [hindex]
    refine yields_pure ?_
    split
    · simpa using hprepared.legible hblock
    · simpa using ⟨hprepared.legible hblock, hprepared.legible htarget⟩

end Module

namespace Pass

variable {m : Module} {s : PassState}

/-- Splitting landing pads that are not shared changes nothing. -/
theorem splitPads_does (hm : s.module.Prepared) {id : FuncId} (hid : id ∈ s.module.functionIds) :
    (splitPads id).Does s () s := by
  obtain ⟨f, hf⟩ := Module.exists_function (Module.mem_functionIds.mp hid)
  refine does_bind.mpr ⟨f, s, does_query.mpr ⟨hf, rfl⟩, ?_⟩
  cases hbody : f.isDeclaration with
  | true => exact does_pure.mpr ⟨rfl, rfl⟩
  | false =>
    have hprepared : f.Prepared s.module := (hm id f hf).resolve_left (by simp [hbody])
    have hsplit : Edit.splitSharedLandingPads.Does f 0 f :=
      Edit.does_bind.mpr ⟨[], f, Edit.does_query.mpr ⟨hprepared.sharedLandingPads_eq, rfl⟩,
        Edit.does_bind.mpr ⟨(), f, Edit.does_pure.mpr ⟨rfl, rfl⟩, Edit.does_pure.mpr ⟨rfl, rfl⟩⟩⟩
    have hsame : { s with module := s.module.setFunction id f } = s := by
      rw [Module.setFunction_self hf]
    exact does_bind.mpr ⟨0, s, does_inFunction.mpr ⟨f, f, hf, hsplit, hsame⟩,
      does_pure.mpr ⟨rfl, rfl⟩⟩

/-- So does splitting those of all functions. -/
theorem splitAllPads_does_nothing (hm : s.module.Prepared) :
    (s.module.functionIds.forM splitPads).Does s () s := by
  have haux : ∀ ids : List FuncId, (∀ id ∈ ids, id ∈ s.module.functionIds) →
      (ids.forM splitPads).Does s () s := by
    intro ids
    induction ids with
    | nil => exact fun _ => does_pure.mpr ⟨rfl, rfl⟩
    | cons id rest ih =>
      intro hids
      obtain ⟨hid, hrest⟩ := List.forall_mem_cons.mp hids
      exact does_forM.mpr ⟨s, splitPads_does hm hid, ih hrest⟩
  exact haux _ fun _ h => h

end Pass

namespace Module

variable {m m' : Module}

theorem Accepted.landed (hm : m.Accepted) : m.Landed := by
  intro id f hid
  cases hbody : f.isDeclaration with
  | true => exact .inl rfl
  | false => exact .inr (hm.wellFormed hid hbody).landed

/-- Splitting the landing pads of an accepted module prepares it. -/
theorem Accepted.prepared (hm : m.Accepted) (h : m.EachBecomes (fun _ => Pass.PadsSplit) m') :
    m'.Prepared := by
  intro id f' hid'
  obtain ⟨f, hid, hsplit⟩ := h.exists_function hid'
  have hpads := hsplit
  obtain ⟨hbody, rfl⟩ | ⟨hbody, count, hdoes⟩ := hpads
  · exact .inl hbody
  have hwf := hm.wellFormed hid hbody
  obtain ⟨shared, f₁, -, hdoes₁, hf₁, -⟩ := Edit.exists_splitSharedLandingPads hwf.landed
  obtain ⟨-, rfl⟩ := hdoes.unique hdoes₁
  refine .inr (hf₁.prepared fun i target args ret hkind => ?_)
  obtain hold | hpad := hsplit.kind_cases hwf hkind rfl
  · have hknown := hwf.knowsKind i _ hold
    unfold Module.knowsKind at hknown
    rw [Bool.and_eq_true] at hknown
    exact exists_function (h.size ▸ of_decide_eq_true hknown.2)
  · cases hpad

end Module

/-! ## When selecting sites is refused -/

namespace Selection

variable {α β : Type}

/-- Selecting is refused for this cause, or comes to its end if there is none. -/
def Ends (x : Selection α) : Option Fatal → Prop
  | some cause => x.run = .ok (.error cause)
  | none => ∃ a, x.Yields a

theorem Yields.ends_bind {x : Selection α} {k : α → Selection β} {a : α} {cause : Option Fatal}
    (hx : x.Yields a) (hk : (k a).Ends cause) : Ends (x >>= k) cause := by
  cases cause with
  | none =>
    obtain ⟨b, hb⟩ := hk
    exact ⟨b, yields_bind.mpr ⟨a, hx, hb⟩⟩
  | some cause =>
    change (x >>= k).run = _
    rw [ExceptT.run_bind, show x.run = .ok (.ok a) from hx]
    exact hk

/-- Of two steps the first that is refused tells the cause. -/
theorem Ends.bind {x : Selection α} {k : α → Selection β} {cause cause' : Option Fatal}
    (hx : x.Ends cause) (hk : ∀ a, x.Yields a → (k a).Ends cause') :
    Ends (x >>= k) (cause.or cause') := by
  cases cause with
  | none =>
    obtain ⟨a, ha⟩ := hx
    exact ha.ends_bind (hk a ha)
  | some cause =>
    change (x >>= k).run = _
    rw [ExceptT.run_bind, show x.run = .ok (.error cause) from hx]
    rfl

theorem ends_pure (a : α) : Ends (pure a : Selection α) none :=
  ⟨a, yields_pure.mpr rfl⟩

/-- What is made of the result has no part in whether there is one. -/
theorem Ends.bind_pure {x : Selection α} {cause : Option Fatal} (hx : x.Ends cause) (g : α → β) :
    Ends (x >>= fun a => pure (g a)) cause := by
  have h := hx.bind fun a _ => ends_pure (g a)
  rwa [Option.or_none] at h

theorem ends_throw (cause : Fatal) : Ends (throw cause : Selection α) (some cause) :=
  rfl

theorem ends_after {x : Checked α} {a : α} {k : α → Selection β} {cause : Option Fatal}
    (hx : x = .ok a) (hk : (k a).Ends cause) : Ends (liftM x >>= k) cause :=
  (yields_lift.mpr hx).ends_bind hk

end Selection

namespace Terminator

def isSwitch : Terminator → Bool
  | .switch _ _ _ => true
  | _ => false

@[simp] theorem isSwitch_setSuccessor (term : Terminator) (index : Nat) (target : BlockId) :
    (term.setSuccessor index target).isSwitch = term.isSwitch := by
  cases term <;> rcases index with _ | _ | index <;> rfl

end Terminator

namespace Function

def endsInSwitch (f : Function) (b : BlockId) : Bool :=
  match f.block b with
  | .ok blk => blk.term.isSwitch
  | .error _ => false

/-- The first live block that ends in a switch. -/
def firstSwitch? (f : Function) : Option BlockId :=
  f.layout.find? f.endsInSwitch

variable {m : Module} {f : Function} {b : BlockId} {blk : Block} {config : Config}
  {preds : PredecessorMap}

theorem endsInSwitch_eq (hblk : f.block b = .ok blk) : f.endsInSwitch b = blk.term.isSwitch := by
  rw [endsInSwitch, hblk]

/-! ## Splitting landing pads -/

section

variable {f' f₁ : Function} {block target pad : BlockId} {index : Nat} {kinds : List InstKind}
  {blocks : List BlockId}

/-- A block put in that is not looked for is not found. -/
theorem find?_insertIdx {p q : BlockId → Bool} {n : Nat} (hb : p b = false)
    (h : ∀ c ∈ blocks, p c = q c) : (blocks.insertIdx n b).find? p = blocks.find? q := by
  induction n generalizing blocks with
  | zero => rw [List.insertIdx_zero, List.find?_cons, hb, List.find?_congr h]
  | succ n ih =>
    cases blocks with
    | nil => rfl
    | cons c rest =>
      obtain ⟨hc, hrest⟩ := List.forall_mem_cons.mp h
      rw [List.insertIdx_succ_cons, List.find?_cons, List.find?_cons, hc, ih hrest]

theorem Detour.endsInSwitch_eq (h : f.Detour block index target kinds f')
    (hb : b.index < f.blocks.size) : f'.endsInSwitch b = f.endsInSwitch b := by
  by_cases heq : b = block
  · subst heq
    obtain ⟨blk, hblk, -, hblk'⟩ := h.source
    rw [Function.endsInSwitch_eq hblk, Function.endsInSwitch_eq hblk']
    exact Terminator.isSwitch_setSuccessor _ _ _
  · rw [endsInSwitch, endsInSwitch, h.rest b heq hb.ne]

theorem Detour.firstSwitch?_eq (h : f.Detour block index target kinds f') (hf : f.Framed) :
    f'.firstSwitch? = f.firstSwitch? := by
  obtain ⟨name, hnew⟩ := h.new
  rw [firstSwitch?, h.layout]
  exact find?_insertIdx (Function.endsInSwitch_eq hnew)
    fun c hc => h.endsInSwitch_eq (hf.inArena c hc)

theorem Copied.firstSwitch?_eq {preds : List BlockId} {incoming : List (Value × BlockId)}
    (h : f.Copied pad preds incoming f') (hf : f.Framed) : f'.firstSwitch? = f.firstSwitch? := by
  induction h with
  | nil => rfl
  | cons h _ ih => exact (ih (h.framed hf)).trans (h.toDetour.firstSwitch?_eq hf)

/-- The pieces that a landing pad is split into end in no switch. -/
theorem PadSplit.firstSwitch?_eq (h : PadSplit pad f f') (hf : f.Framed) :
    f'.firstSwitch? = f.firstSwitch? := by
  obtain ⟨preds, landing, incoming, f₁, -, -, hcopied, rfl⟩ := h
  exact hcopied.firstSwitch?_eq hf

end

/-! ## Selecting sites -/

namespace Prepared

variable (hf : f.Prepared m)
include hf

theorem wantsProbes_ends (config : Config) (hpreds : f.predecessorMap = .ok preds)
    (hb : b ∈ f.layout) : (f.wantsProbes config preds b).Ends
      (if f.endsInSwitch b then some (.switchPresent f.name b) else none) := by
  obtain ⟨blk, hblk⟩ := exists_block (hf.closed.inArena b hb)
  obtain ⟨annotated, hannotated, -⟩ := blockHasTokens_yields hblk
  unfold wantsProbes
  split
  on_goal 2 => refine Selection.ends_after hannotated ?_
  -- Whether the block has tokens matters to the answer only.
  all_goals
    refine Selection.ends_after hblk ?_
    rw [endsInSwitch_eq hblk]
    cases hterm : blk.term with
    | switch => exact Selection.ends_throw _
    | invoke callee args normal unwind =>
      obtain ⟨a, ha⟩ := hf.predecessors_eq (hf.unwind b hb blk hblk callee args normal unwind hterm)
      have hone : preds.getD unwind [] = [a] :=
        Except.ok.inj ((predecessors_eq_getD hpreds unwind).symm.trans ha)
      dsimp only
      rw [hone]
      exact Selection.ends_pure true
    | _ => exact Selection.ends_pure _

theorem edgeSites_ends (config : Config) (id : FuncId) (hpreds : f.predecessorMap = .ok preds)
    {blocks : List BlockId} (hblocks : ∀ b ∈ blocks, b ∈ f.layout) :
    (f.edgeSites config id preds blocks).Ends
      ((blocks.find? f.endsInSwitch).map (.switchPresent f.name)) := by
  induction blocks with
  | nil => exact Selection.ends_pure []
  | cons b rest ih =>
    obtain ⟨hb, hrest⟩ := List.forall_mem_cons.mp hblocks
    have hmore : ∀ here : List ProbeSite, Selection.Ends (do
        return here ++ (← f.edgeSites config id preds rest) : Selection (List ProbeSite))
        ((rest.find? f.endsInSwitch).map (.switchPresent f.name)) := fun here =>
      (ih hrest).bind_pure fun later => here ++ later
    have hcause : ((b :: rest).find? f.endsInSwitch).map (Fatal.switchPresent f.name) =
        (if f.endsInSwitch b then some (.switchPresent f.name b) else none).or
          ((rest.find? f.endsInSwitch).map (.switchPresent f.name)) := by
      rw [List.find?_cons]
      cases f.endsInSwitch b <;> rfl
    rw [hcause]
    refine (hf.wantsProbes_ends config hpreds hb).bind fun wanted _ => ?_
    obtain ⟨blk, hblk⟩ := exists_block (hf.closed.inArena b hb)
    dsimp only
    split
    · exact Selection.ends_after (successors_of_block hblk) (hmore _)
    · exact hmore []

theorem probeSites_ends (config : Config) (pointedTo : Option (List String)) (id : FuncId) :
    (f.probeSites config pointedTo id).Ends (f.firstSwitch?.map (.switchPresent f.name)) := by
  obtain ⟨preds, hpreds⟩ := hf.closed.predecessorMap_eq_ok
  refine Selection.ends_after hpreds ?_
  exact (hf.edgeSites_ends config id hpreds fun b hb => hb).bind_pure _

end Prepared

end Function

theorem Pass.PadsSplit.firstSwitch?_eq {m : Module} {f f' : Function} (h : Pass.PadsSplit f f')
    (hwf : f.isDeclaration = false → f.WellFormed m) : f'.firstSwitch? = f.firstSwitch? := by
  have hpads := h
  obtain ⟨-, rfl⟩ | ⟨hbody, -⟩ := hpads
  · rfl
  have hwf := hwf hbody
  refine (h.keeps hwf (fun f₁ => f₁.Framed ∧ f₁.firstSwitch? = f.firstSwitch?)
    (fun pad f₁ f₂ hf₁ hsplit => ?_) ⟨⟨hwf.named.whole, hwf.closed.inArena, hwf.nodup⟩, rfl⟩).2
  exact ⟨hsplit.framed hf₁.1, (hsplit.firstSwitch?_eq hf₁.1).trans hf₁.2⟩

namespace Module

/-- The first live block that ends in a switch, and the name of its function. -/
def firstSwitch? (m : Module) : Option (String × BlockId) :=
  m.functions.toList.findSome? fun f => f.firstSwitch?.map fun b => (f.name, b)

variable {m : Module}

/-- The functions of a module are those of its ids, in turn. -/
theorem forall₂_functionIds (m : Module) :
    List.Forall₂ (fun id f => m.function id = .ok f) m.functionIds m.functions.toList := by
  refine List.forall₂_iff_get.mpr ⟨by simp [functionIds], fun i hi hi' => ?_⟩
  rw [function_eq_ok]
  simp [functionIds]

/-- Selecting sites is refused at the first switch and at nothing else. -/
theorem Prepared.probeSites_ends (hm : m.Prepared) (config : Config)
    (pointedTo : Option (List String)) :
    (m.probeSites config pointedTo).Ends (m.firstSwitch?.map fun s => .switchPresent s.1 s.2) := by
  have hids := m.forall₂_functionIds
  unfold probeSites firstSwitch?
  generalize m.functionIds = ids, m.functions.toList = functions at hids
  induction hids with
  | nil => exact Selection.ends_pure []
  | @cons id f ids functions hf _ ih =>
    have hmore : ∀ here : List ProbeSite, Selection.Ends (do
        return here ++ (← m.sitesAmong config pointedTo ids) : Selection (List ProbeSite))
        ((functions.findSome? fun f => f.firstSwitch?.map fun b => (f.name, b)).map
          fun s => .switchPresent s.1 s.2) := fun here => ih.bind_pure fun later => here ++ later
    refine Selection.ends_after hf ?_
    rw [List.findSome?_cons]
    dsimp only
    split
    · next hbody =>
      have hnone : f.firstSwitch? = none := by
        rw [Function.firstSwitch?, List.isEmpty_iff.mp hbody, List.find?_nil]
      rw [hnone]
      exact hmore []
    · next hbody =>
      have hf : f.Prepared m := (hm id f hf).resolve_left hbody
      have hends := (hf.probeSites_ends config pointedTo id).bind fun here _ => hmore here
      cases hswitch : f.firstSwitch? with
      | none =>
        rw [hswitch] at hends
        exact hends
      | some b =>
        rw [hswitch] at hends
        exact hends

/-- Splitting landing pads does not change which switch comes first. -/
theorem Accepted.firstSwitch?_eq (hm : m.Accepted) {m' : Module}
    (h : m.EachBecomes (fun _ => Pass.PadsSplit) m') : m'.firstSwitch? = m.firstSwitch? := by
  have hids : m'.functionIds = m.functionIds := by rw [functionIds, functionIds, h.size]
  have hfunctions := m.forall₂_functionIds
  have hfunctions' := hids ▸ m'.forall₂_functionIds
  unfold firstSwitch?
  generalize m.functionIds = ids, m.functions.toList = functions, m'.functions.toList = functions'
    at hfunctions hfunctions'
  clear hids
  induction hfunctions generalizing functions' with
  | nil =>
    cases hfunctions'
    rfl
  | @cons id f ids functions hf _ ih =>
    cases hfunctions' with
    | @cons _ f' _ functions' hf' hrest =>
      obtain ⟨f₁, hf₁, hsplit⟩ := h.functions id f hf
      obtain rfl := Except.ok.inj (hf'.symm.trans hf₁)
      rw [List.findSome?_cons, List.findSome?_cons, ih functions' hrest,
        hsplit.firstSwitch?_eq fun hbody => hm.wellFormed hf hbody,
        hsplit.sameHeader.name]

end Module

end EdgeProbe
