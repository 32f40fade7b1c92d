import Mathlib.Data.List.Nodup
import EdgeProbe.Probe.Site
import EdgeProbe.Proofs.Code.Changes
import EdgeProbe.Proofs.Flow.Path

/-!
# The sites that are selected

Which edges and entries are selected, in terms of the terminators and the tokens of blocks, and that
each is selected once. Main statements: `Module.mem_probeSites` and `Module.pairwise_probeSites`.
-/

namespace EdgeProbe

namespace Selection

variable {α β : Type}

/-- Selecting comes to its end, with this result. -/
def Yields (x : Selection α) (a : α) : Prop :=
  x.run = .ok (.ok a)

theorem yields_bind {x : Selection α} {k : α → Selection β} {b : β} :
    Yields (x >>= k) b ↔ ∃ a, Yields x a ∧ Yields (k a) b := by
  unfold Yields
  rw [ExceptT.run_bind, Checked.bind_eq_ok]
  constructor
  · rintro ⟨r, hr, hb⟩
    cases r with
    | ok a => exact ⟨a, hr, hb⟩
    | error cause => cases hb
  · rintro ⟨a, ha, hb⟩
    exact ⟨.ok a, ha, hb⟩

theorem yields_pure {a b : α} : Yields (pure a : Selection α) b ↔ a = b := by
  rw [Yields, ExceptT.run_pure, Checked.pure_eq_ok, Except.ok.injEq]

theorem not_yields_throw {cause : Fatal} {a : α} : ¬Yields (throw cause : Selection α) a := by
  simp [Yields, ExceptT.run_throw, pure, Except.pure]

theorem yields_lift {x : Checked α} {a : α} : Yields (liftM x : Selection α) a ↔ x = .ok a := by
  cases x with
  | ok b =>
    change Except.ok (Except.ok b) = Except.ok (Except.ok a) ↔ _
    simp
  | error fault =>
    change Except.error fault = Except.ok (Except.ok a) ↔ _
    simp

end Selection

/-- The edges of the terminator get probes whatever its block holds. -/
def Terminator.forks : Terminator → Bool
  | .condBr _ _ _ | .invoke _ _ _ _ => true
  | _ => false

namespace Function

variable {f : Function} {config : Config} {preds : PredecessorMap} {block : BlockId}

/-- The edges out of a block are to get probes: it ends in a conditional branch or an invocation, or
carries tokens in a fuzzing build. -/
def ToProbe (f : Function) (config : Config) (block : BlockId) : Prop :=
  ∃ blk, f.block block = .ok blk ∧ (blk.term.forks = true ∨
    config.isCoverage = false ∧ f.blockHasTokens block = .ok true)

/-- What selecting asks of the terminator of a block. -/
def Selectable (f : Function) (preds : PredecessorMap) (block : BlockId) : Prop :=
  ∀ blk, f.block block = .ok blk → (∀ value default cases, blk.term ≠ .switch value default cases) ∧
    ∀ callee args normal unwind, blk.term = .invoke callee args normal unwind →
      (preds.getD unwind []).length = 1

/-- What the terminator and the tokens of a block come to. -/
theorem wantsProbes_term {annotated wanted : Bool} (h : Selection.Yields (do
      match (← f.block block).term with
      | .switch _ _ _ => throw (.switchPresent f.name block)
      | .condBr _ _ _ => return true
      | .invoke _ _ _ unwind =>
        let count := (preds.getD unwind []).length
        if count != 1 then throw (.sharedLandingPad f.name unwind count)
        return true
      | .ret _ | .br _ | .resume _ | .unreachable => return annotated : Selection Bool) wanted) :
    (∃ blk, f.block block = .ok blk ∧
      (wanted = true ↔ blk.term.forks = true ∨ annotated = true)) ∧ f.Selectable preds block := by
  obtain ⟨blk, hblk, h⟩ := Selection.yields_bind.mp h
  have hblk := Selection.yields_lift.mp hblk
  have hone : ∀ blk', f.block block = .ok blk' → blk' = blk := fun blk' hblk' =>
    Except.ok.inj (hblk'.symm.trans hblk)
  cases hterm : blk.term with
  | switch value default cases =>
    rw [hterm] at h
    exact absurd h Selection.not_yields_throw
  | invoke callee args normal unwind =>
    rw [hterm] at h
    dsimp only at h
    split at h
    · exact absurd h (fun h => by
        obtain ⟨_, hthrow, -⟩ := Selection.yields_bind.mp h
        exact Selection.not_yields_throw hthrow)
    · next hcount =>
      obtain rfl := Selection.yields_pure.mp h
      refine ⟨⟨blk, hblk, by simp [hterm, Terminator.forks]⟩, fun blk' hblk' => ?_⟩
      obtain rfl := hone blk' hblk'
      refine ⟨by simp [hterm], fun callee' args' normal' unwind' hterm' => ?_⟩
      obtain ⟨-, -, -, rfl⟩ := Terminator.invoke.inj (hterm.symm.trans hterm')
      simpa using hcount
  | _ =>
    rw [hterm] at h
    obtain rfl := Selection.yields_pure.mp h
    refine ⟨⟨blk, hblk, by simp [hterm, Terminator.forks]⟩, fun blk' hblk' => ?_⟩
    obtain rfl := hone blk' hblk'
    simp [hterm]

theorem wantsProbes_yields {wanted : Bool} (h : (f.wantsProbes config preds block).Yields wanted) :
    (wanted = true ↔ f.ToProbe config block) ∧ f.Selectable preds block := by
  unfold wantsProbes at h
  split at h
  · next hcoverage =>
    obtain ⟨annotated, hpure, h⟩ := Selection.yields_bind.mp h
    obtain rfl := Selection.yields_pure.mp hpure
    obtain ⟨⟨blk, hblk, hwanted⟩, hselectable⟩ := wantsProbes_term h
    refine ⟨hwanted.trans ?_, hselectable⟩
    simp [ToProbe, hblk, hcoverage]
  · next hcoverage =>
    obtain ⟨annotated, hlift, h⟩ := Selection.yields_bind.mp h
    have htokens := Selection.yields_lift.mp hlift
    obtain ⟨⟨blk, hblk, hwanted⟩, hselectable⟩ := wantsProbes_term h
    refine ⟨hwanted.trans ?_, hselectable⟩
    simp [ToProbe, hblk, hcoverage, htokens]

/-- The edges with these numbers out of a block are different sites. -/
theorem nodup_edges (id : FuncId) (block : BlockId) (count : Nat) :
    ((List.range count).map (ProbeSite.edge id block)).Nodup :=
  List.nodup_range.map fun _ _ heq => (ProbeSite.edge.inj heq).2.2

/-- An edge is selected if its block is one of these and to be probed. -/
theorem edgeSites_yields {id : FuncId} {blocks : List BlockId} {sites : List ProbeSite}
    (h : (f.edgeSites config id preds blocks).Yields sites) :
    (∀ site, site ∈ sites ↔ ∃ block ∈ blocks, f.ToProbe config block ∧ ∃ succs,
      f.successors block = .ok succs ∧ ∃ index < succs.length, site = .edge id block index) ∧
    (blocks.Nodup → sites.Nodup) ∧ ∀ block ∈ blocks, f.Selectable preds block := by
  induction blocks generalizing sites with
  | nil =>
    obtain rfl := Selection.yields_pure.mp h
    simp
  | cons block rest ih =>
    obtain ⟨wanted, hwanted, h⟩ := Selection.yields_bind.mp h
    obtain ⟨hiff, hselectable⟩ := wantsProbes_yields hwanted
    -- The sites at this block and those at the others.
    obtain ⟨here, later, hlater, rfl, hhere, hnodup⟩ : ∃ here later,
        (f.edgeSites config id preds rest).Yields later ∧ sites = here ++ later ∧
          (∀ site, site ∈ here ↔ f.ToProbe config block ∧ ∃ succs, f.successors block = .ok succs ∧
            ∃ index < succs.length, site = .edge id block index) ∧ here.Nodup := by
      split at h
      · next hwants =>
        obtain ⟨succs, hsuccs, h⟩ := Selection.yields_bind.mp h
        have hsuccs := Selection.yields_lift.mp hsuccs
        obtain ⟨here, hpure, h⟩ := Selection.yields_bind.mp h
        obtain rfl := Selection.yields_pure.mp hpure
        obtain ⟨later, hlater, h⟩ := Selection.yields_bind.mp h
        obtain rfl := Selection.yields_pure.mp h
        refine ⟨_, later, hlater, rfl, fun site => ?_, nodup_edges id block succs.length⟩
        simp [hiff.mp hwants, hsuccs, eq_comm]
      · next hwants =>
        obtain ⟨here, hpure, h⟩ := Selection.yields_bind.mp h
        obtain rfl := Selection.yields_pure.mp hpure
        obtain ⟨later, hlater, h⟩ := Selection.yields_bind.mp h
        obtain rfl := Selection.yields_pure.mp h
        have hnot : ¬f.ToProbe config block := fun hprobe => hwants (hiff.mpr hprobe)
        exact ⟨[], later, hlater, rfl, fun site => by simp [hnot], .nil⟩
    obtain ⟨hmem, hdistinct, hall⟩ := ih hlater
    refine ⟨fun site => ?_, fun hblocks => ?_, List.forall_mem_cons.mpr ⟨hselectable, hall⟩⟩
    · rw [List.mem_append, hhere, hmem]
      simp
    · obtain ⟨hnot, hblocks⟩ := List.nodup_cons.mp hblocks
      refine List.nodup_append.mpr ⟨hnodup, hdistinct hblocks, ?_⟩
      rintro site hsite site' hsite' rfl
      obtain ⟨-, succs, -, index, -, rfl⟩ := (hhere site).mp hsite
      obtain ⟨block', hblock', -, succs', -, index', -, heq⟩ := (hmem _).mp hsite'
      obtain ⟨-, rfl, -⟩ := ProbeSite.edge.inj heq
      exact hnot hblock'

/-- The sites of a function that has a body. -/
theorem probeSites_yields {pointedTo : Option (List String)} {id : FuncId} {sites : List ProbeSite}
    (h : (f.probeSites config pointedTo id).Yields sites) :
    ∃ preds edges, f.predecessorMap = .ok preds ∧ (f.edgeSites config id preds f.layout).Yields edges ∧
      sites = (if pointedTo.any (·.contains f.name) then [.entry id] else []) ++ edges := by
  obtain ⟨preds, hpreds, h⟩ := Selection.yields_bind.mp h
  obtain ⟨edges, hedges, h⟩ := Selection.yields_bind.mp h
  refine ⟨preds, edges, Selection.yields_lift.mp hpreds, hedges, ?_⟩
  rw [← Selection.yields_pure.mp h]
  split <;> rfl

end Function

/-- The sites are different, and of two in one function only the first may be the entry. -/
def ProbeSite.Before (a b : ProbeSite) : Prop :=
  a ≠ b ∧ (a.function = b.function → ∀ id, b ≠ .entry id)

namespace Module

/-- What is to get a probe: the entry of a function that may be called through a pointer, and the
edges out of live blocks that are to be probed. -/
def IsSite (m : Module) (config : Config) (pointedTo : Option (List String)) : ProbeSite → Prop
  | .entry id => ∃ f, m.function id = .ok f ∧ f.isDeclaration = false ∧
    pointedTo.any (·.contains f.name) = true
  | .edge id block index => ∃ f succs, m.function id = .ok f ∧ block ∈ f.layout ∧
    f.ToProbe config block ∧ f.successors block = .ok succs ∧ index < succs.length

variable {m : Module} {config : Config} {pointedTo : Option (List String)}

theorem isSite_iff {id : FuncId} {f : Function} (hf : m.function id = .ok f) {site : ProbeSite} :
    site.function = id ∧ m.IsSite config pointedTo site ↔
      site = .entry id ∧ f.isDeclaration = false ∧ pointedTo.any (·.contains f.name) = true ∨
        ∃ block ∈ f.layout, f.ToProbe config block ∧ ∃ succs, f.successors block = .ok succs ∧
          ∃ index < succs.length, site = .edge id block index := by
  cases site with
  | entry id' =>
    simp only [ProbeSite.function, IsSite, ProbeSite.entry.injEq, reduceCtorEq, and_false,
      exists_false,
      or_false]
    refine and_congr_right ?_
    rintro rfl
    simp [hf]
  | edge id' block index =>
    simp only [ProbeSite.function, IsSite, ProbeSite.edge.injEq, reduceCtorEq, false_and, false_or]
    constructor
    · rintro ⟨rfl, g, succs, hg, hblock, hprobe, hsuccs, hlt⟩
      obtain rfl := Except.ok.inj (hf.symm.trans hg)
      exact ⟨block, hblock, hprobe, succs, hsuccs, index, hlt, rfl, rfl, rfl⟩
    · rintro ⟨block', hblock, hprobe, succs, hsuccs, index', hlt, rfl, rfl, rfl⟩
      exact ⟨rfl, f, succs, hf, hblock, hprobe, hsuccs, hlt⟩

theorem IsSite.live {id : FuncId} {block : BlockId} {index : Nat}
    (h : m.IsSite config pointedTo (.edge id block index)) {f : Function}
    (hf : m.function id = .ok f) : block ∈ f.layout := by
  obtain ⟨g, succs, hg, hblock, -⟩ := h
  exact Except.ok.inj (hf.symm.trans hg) ▸ hblock

theorem sitesAmong_yields {ids : List FuncId} {sites : List ProbeSite}
    (h : (m.sitesAmong config pointedTo ids).Yields sites) :
    (∀ site, site ∈ sites ↔ site.function ∈ ids ∧ m.IsSite config pointedTo site) ∧
    (ids.Nodup → (∀ id ∈ ids, ∀ f, m.function id = .ok f → f.layout.Nodup) →
      sites.Pairwise ProbeSite.Before) ∧
    ∀ id ∈ ids, ∀ f, m.function id = .ok f → ∀ block ∈ f.layout, ∃ preds,
      f.predecessorMap = .ok preds ∧ f.Selectable preds block := by
  induction ids generalizing sites with
  | nil =>
    obtain rfl := Selection.yields_pure.mp h
    simp
  | cons id rest ih =>
    obtain ⟨f, hf, h⟩ := Selection.yields_bind.mp h
    have hf := Selection.yields_lift.mp hf
    -- The sites of this function and those of the others.
    obtain ⟨here, later, hlater, rfl, hhere, hnodup, hselectable⟩ : ∃ here later,
        (m.sitesAmong config pointedTo rest).Yields later ∧ sites = here ++ later ∧
          (∀ site, site ∈ here ↔ site.function = id ∧ m.IsSite config pointedTo site) ∧
          (f.layout.Nodup → here.Pairwise ProbeSite.Before) ∧ ∀ block ∈ f.layout, ∃ preds,
            f.predecessorMap = .ok preds ∧ f.Selectable preds block := by
      split at h
      · next hbody =>
        obtain ⟨here, hpure, h⟩ := Selection.yields_bind.mp h
        obtain rfl := Selection.yields_pure.mp hpure
        obtain ⟨later, hlater, h⟩ := Selection.yields_bind.mp h
        obtain rfl := Selection.yields_pure.mp h
        have hlayout : f.layout = [] := List.isEmpty_iff.mp hbody
        refine ⟨[], later, hlater, rfl, fun site => ?_, fun _ => .nil, by simp [hlayout]⟩
        rw [isSite_iff hf]
        simp [hbody, hlayout]
      · next hbody =>
        obtain ⟨here, hsites, h⟩ := Selection.yields_bind.mp h
        obtain ⟨later, hlater, h⟩ := Selection.yields_bind.mp h
        obtain rfl := Selection.yields_pure.mp h
        obtain ⟨preds, edges, hpreds, hedges, rfl⟩ := Function.probeSites_yields hsites
        obtain ⟨hmem, hdistinct, hselectable⟩ := Function.edgeSites_yields hedges
        refine ⟨_, later, hlater, rfl, fun site => ?_, fun hlayout => ?_,
          fun block hblock => ⟨preds, hpreds, hselectable block hblock⟩⟩
        · rw [isSite_iff hf, List.mem_append, hmem]
          generalize pointedTo.any (·.contains f.name) = pointed
          cases pointed <;> simp [hbody]
        · have hedge : ∀ site ∈ edges, ∀ id', site ≠ .entry id' := by
            rintro site hsite id' rfl
            obtain ⟨block, -, -, succs, -, index, -, heq⟩ := (hmem _).mp hsite
            cases heq
          refine List.pairwise_append.mpr ⟨?_, (hdistinct hlayout).imp_of_mem
            fun _ hsite hne => ⟨hne, fun _ => hedge _ hsite⟩, fun site hsite site' hsite' => ?_⟩
          · split
            · exact List.pairwise_singleton _ _
            · exact .nil
          · split at hsite
            · obtain rfl := List.mem_singleton.mp hsite
              exact ⟨(hedge site' hsite' _).symm, fun _ => hedge site' hsite'⟩
            · cases hsite
    obtain ⟨hmem, hdistinct, hall⟩ := ih hlater
    refine ⟨fun site => ?_, fun hids hlayouts => ?_, List.forall_mem_cons.mpr ⟨?_, hall⟩⟩
    · rw [List.mem_append, hhere, hmem, List.mem_cons]
      tauto
    · obtain ⟨hnot, hids⟩ := List.nodup_cons.mp hids
      obtain ⟨hlayout, hlayouts⟩ := List.forall_mem_cons.mp hlayouts
      refine List.pairwise_append.mpr ⟨hnodup (hlayout f hf), hdistinct hids hlayouts, ?_⟩
      intro site hsite site' hsite'
      have hother : site.function ≠ site'.function := fun heq =>
        hnot (((hhere site).mp hsite).1 ▸ heq ▸ ((hmem site').mp hsite').1)
      exact ⟨fun heq => hother (congrArg _ heq), fun heq => absurd heq hother⟩
    · intro g hg
      obtain rfl := Except.ok.inj (hf.symm.trans hg)
      exact hselectable

/-- What is selected are the sites. -/
theorem mem_probeSites {sites : List ProbeSite}
    (h : (m.probeSites config pointedTo).Yields sites) {site : ProbeSite} :
    site ∈ sites ↔ m.IsSite config pointedTo site := by
  rw [(sitesAmong_yields h).1, and_iff_right_iff_imp]
  intro hsite
  refine mem_functionIds.mpr ?_
  cases site with
  | entry id =>
    obtain ⟨f, hf, -⟩ := hsite
    exact index_lt_of_function hf
  | edge id block index =>
    obtain ⟨f, succs, hf, -⟩ := hsite
    exact index_lt_of_function hf

/-- Each site is selected once, and entries before the edges of their functions. -/
theorem pairwise_probeSites {sites : List ProbeSite}
    (h : (m.probeSites config pointedTo).Yields sites)
    (hlayouts : ∀ id f, m.function id = .ok f → f.layout.Nodup) :
    sites.Pairwise ProbeSite.Before :=
  (sitesAmong_yields h).2.1 (List.nodup_range.map fun _ _ heq => FuncId.mk.inj heq)
    fun id _ f hf => hlayouts id f hf

end Module

end EdgeProbe
