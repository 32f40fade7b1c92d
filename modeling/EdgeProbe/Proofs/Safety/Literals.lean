import EdgeProbe.Literal.Harvest
import EdgeProbe.Lowering.StringCompare
import EdgeProbe.Proofs.Literal.Consumers
import EdgeProbe.Proofs.Safety.Edits
import EdgeProbe.Proofs.Safety.Queries

/-!
# Harvesting the literals of sturdy functions

What is looked for at an instruction of a sturdy function is found without a fault, and so are the
instructions that shall carry it.
-/

namespace EdgeProbe

open Checked

/-- The literal of a finding, if it is one, is in that function. -/
def Finding.In (id : FuncId) (finding : Finding) : Prop :=
  ∀ l, finding = .literal l → l.function = id

namespace Finding

variable {id : FuncId}

/-- All findings of a list are in that function. -/
def AllIn (id : FuncId) (found : List Finding) : Prop :=
  ∀ finding ∈ found, finding.In id

theorem in_literal {l : Literal} (h : l.function = id) : (literal l).In id := by
  intro _ heq
  rw [← literal.inj heq, h]

theorem in_remark (record : Log.Record) : (remark record).In id := by
  intro _ heq
  cases heq

theorem allIn_nil : AllIn id [] :=
  List.forall_mem_nil _

theorem allIn_singleton {finding : Finding} (h : finding.In id) : AllIn id [finding] :=
  List.forall_mem_singleton.mpr h

end Finding

namespace Function.Sturdy

variable {m : Module} {f : Function} (hf : f.Sturdy m) {inst : InstId}
include hf

/-! ## Consumers -/

/-- The kind of an instruction is that of a call to a function, or of anything else. -/
theorem args_known {kind : InstKind} (hkind : f.kind inst = .ok kind) :
    ∀ arg ∈ kind.args, m.knowsValue f arg = true := by
  intro arg harg
  refine hf.knowsValue hkind ?_
  cases kind with
  | call callee args ret =>
    cases callee with
    | direct target => exact harg
    | indirect target => exact List.mem_cons_of_mem _ harg
  | _ => cases harg

theorem walkable : m.Walkable f where
  blocks := hf.layout
  insts b _ blk hblk := hf.whole.insts b blk hblk
  callees id target args ret hkind := by
    obtain ⟨g, hg⟩ := hf.exists_callee hkind
    exact Module.index_lt_of_function hg

theorem cCallee?_yields (hinst : f.Held inst) : Yields (m.cCallee? f inst) fun _ => True := by
  obtain ⟨callee?, hcallee⟩ := hf.walkable.exists_cCallee? hinst.lt
  exact ⟨callee?, hcallee, trivial⟩

theorem compareConsumers_yields (value skip : InstId) :
    Yields (m.compareConsumers f value skip) fun found => ∀ id ∈ found, f.Held id := by
  obtain ⟨found, hfound⟩ := hf.walkable.exists_compareConsumers value skip
  refine ⟨found, hfound, fun id hid => ?_⟩
  obtain ⟨-, ⟨hreads, -⟩ | ⟨user, -, -, -, hreads⟩⟩ := (Module.mem_compareConsumers hfound).mp hid
  · exact hf.held_of_reads hreads
  · exact hf.held_of_reads hreads

/-! ## Findings -/

variable (id : FuncId)

theorem arraysAt_yields (hinst : f.Held inst) :
    Yields (m.arraysAt id f inst) (Finding.AllIn id) := by
  refine (hf.cCallee?_yields hinst).bind fun callee? _ => ?_
  split
  · exact yields_pure Finding.allIn_nil
  obtain ⟨kind, hkind, -⟩ := hinst.kind
  refine .after hkind ?_
  split
  · next target source rest hargs =>
    have hsource := hf.args_known hkind source (hargs ▸ by simp)
    obtain ⟨data?, hdata⟩ := hf.exists_constantBytes? hsource
    refine .after hdata ?_
    cases data? with
    | none => exact yields_pure Finding.allIn_nil
    | some data =>
      refine (hf.compareConsumers_yields target inst).bind fun consumers hconsumers => ?_
      refine Yields.mapM fun consumer hconsumer => ?_
      refine (hf.cCallee?_yields (hconsumers consumer hconsumer)).bind fun name? _ => ?_
      exact (hf.provenance_yields hinst).bind fun _ _ => yields_pure (Finding.in_literal rfl)
  · exact yields_pure Finding.allIn_nil

theorem storesAt_yields (hinst : f.Held inst) :
    Yields (m.storesAt id f inst) (Finding.AllIn id) := by
  obtain ⟨kind, hkind, -⟩ := hinst.kind
  refine .after hkind ?_
  split
  · next constant ptr =>
    cases constant.leBytes? with
    | none => exact yields_pure Finding.allIn_nil
    | some bytes =>
      refine (hf.compareConsumers_yields ptr inst).bind fun consumers hconsumers => ?_
      refine Yields.mapM fun consumer hconsumer => ?_
      exact (hf.provenance_yields (hconsumers consumer hconsumer)).bind fun _ _ =>
        yields_pure (Finding.in_literal rfl)
  · exact yields_pure Finding.allIn_nil

omit hf in
theorem flatten_yields {α : Type} {g : α → Checked (List Finding)} {l : List α}
    (h : ∀ a ∈ l, Yields (g a) (Finding.AllIn id)) :
    Yields (do return (← l.mapM g).flatten) (Finding.AllIn id) := by
  refine (Yields.mapM h).bind fun lists hlists => yields_pure fun finding hfinding => ?_
  obtain ⟨found, hfound, hfinding⟩ := List.mem_flatten.mp hfinding
  exact hlists found hfound finding hfinding

theorem structFieldsAt_yields (hinst : f.Held inst) :
    Yields (m.structFieldsAt id f inst) (Finding.AllIn id) := by
  refine (hf.cCallee?_yields hinst).bind fun callee? _ => ?_
  cases callee? with
  | none => exact yields_pure Finding.allIn_nil
  | some name =>
    obtain ⟨kind, hkind, -⟩ := hinst.kind
    refine .after hkind (flatten_yields id fun arg harg => ?_)
    split
    · next g =>
      have hlt : g.index < m.globals.size :=
        of_decide_eq_true (hf.args_known hkind _ harg)
      have hg : m.global g = .ok m.globals[g.index] := by simp [Module.global, hlt]
      refine .after hg ?_
      split
      · split
        · exact Yields.mapM fun bytes _ => (hf.provenance_yields hinst).bind fun _ _ =>
            yields_pure (Finding.in_literal rfl)
        · exact yields_pure Finding.allIn_nil
      · exact yields_pure Finding.allIn_nil
    · exact yields_pure Finding.allIn_nil

theorem callStringsAt_yields (ignored : List String) (hinst : f.Held inst) :
    Yields (m.callStringsAt id f ignored inst) (Finding.AllIn id) := by
  obtain ⟨kind, hkind, -⟩ := hinst.kind
  refine .after hkind ?_
  split
  case h_2 => exact yields_pure Finding.allIn_nil
  next target args ret =>
  obtain ⟨g, hg⟩ := hf.exists_callee hkind
  have hargs := hf.args_known hkind
  refine .after hg ?_
  split
  · exact yields_pure Finding.allIn_nil
  split
  · have hremark : ∀ name?, Finding.AllIn id [.remark (Module.environmentRemark name?)] :=
      fun name? => Finding.allIn_singleton (Finding.in_remark _)
    dsimp only
    split
    · next arg hhead =>
      obtain ⟨bytes?, hbytes⟩ :=
        hf.exists_constantBytes? (hargs arg (List.mem_of_mem_head? hhead))
      exact .after hbytes (yields_pure (hremark _))
    · exact yields_pure (hremark none)
  split
  · exact yields_pure Finding.allIn_nil
  refine flatten_yields id fun arg harg => ?_
  obtain ⟨bytes?, hbytes⟩ := hf.exists_constantBytes? (hargs arg harg)
  refine .after hbytes ?_
  split
  · exact yields_pure Finding.allIn_nil
  · exact yields_pure Finding.allIn_nil
  · exact (hf.provenance_yields hinst).bind fun _ _ =>
      yields_pure (Finding.allIn_singleton (Finding.in_literal rfl))

/-! ## Readers of results -/

theorem resultUsers_yields (call : InstId) : Yields (do
    (← f.instUsers call).filterM fun user => do
      match ← f.kind user with
      | .icmp _ _ _ | .phi _ _ => return true
      | _ => return false) fun _ => True := by
  refine (hf.instUsers_yields call).bind fun users husers => ?_
  refine (Yields.filterM fun user huser => ?_).imp fun _ _ => trivial
  obtain ⟨kind, hkind, -⟩ := (husers user huser).kind
  simp only [hkind, bind, Except.bind]
  split
  · exact ⟨true, rfl⟩
  · exact ⟨true, rfl⟩
  · exact ⟨false, rfl⟩

theorem hasResultToken_yields (call : InstId) : Yields (f.hasResultToken call) fun _ => True :=
  (hf.instUsers_yields call).bind fun _ _ => yields_pure trivial

end Function.Sturdy

namespace Edit

variable {m : Module} {f : Function} (hf : f.Sturdy m)
include hf

theorem safe_resultUsers (id : InstId) : Safe m (resultUsers id) f fun _ g => g = f := by
  obtain ⟨users, husers, -⟩ := hf.resultUsers_yields id
  exact (safe_query hf husers).imp fun _ _ _ _ h => h.2

theorem safe_attachToResultUsers (id : InstId) (token : Token) (limits : Limits) :
    Safe m (attachToResultUsers id token limits) f fun _ _ => True := by
  refine .bind (safe_resultUsers hf id) ?_
  rintro users _ - - rfl
  refine .bind (safe_forM hf fun user _ f' hf' _ => safe_attach hf' user token limits)
    fun _ f₁ hf₁ _ _ => safe_pure hf₁ trivial

theorem safe_attachLiteral (l : Literal) (token : Token) (limits : Limits) :
    Safe m (attachLiteral l token limits) f fun _ _ => True := by
  unfold attachLiteral
  split
  · exact safe_attachToResultUsers hf l.inst token limits
  · exact .bind (safe_attach hf l.inst token limits) fun _ f₁ hf₁ _ _ => safe_pure hf₁ trivial

end Edit

end EdgeProbe
