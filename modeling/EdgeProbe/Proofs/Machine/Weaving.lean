import EdgeProbe.Proofs.Machine.Hidden
import EdgeProbe.Proofs.Probe.Woven

/-!
# Runs with code woven in

When code has been put into the blocks of a function and onto its edges (`Function.Woven`), its runs
go as before as long as that code does no more than change what they ignore (`World.Harmless`), and
leaves it ready for the next time. Main statement: `World.CallPasses.woven`.
-/

namespace EdgeProbe

/-! ## Edges that a run may take -/

namespace Terminator

/-- The end of a block, but that it leads through other blocks. Where an invocation unwinds to does
not matter. -/
def LeadsThrough (through : Nat → Option BlockId) (term term' : Terminator) : Prop :=
  term.calls = false ∧ term' = term.redirect through ∨
    ∃ callee args normal unwind unwind', term = .invoke callee args normal unwind ∧
      term' = .invoke callee args ((through 0).getD normal) unwind'

@[simp] theorem calls_redirect (through : Nat → Option BlockId) (term : Terminator) :
    (term.redirect through).calls = term.calls := by
  cases term <;> rfl

end Terminator

namespace Function

variable {f : Function}

/-- The block may be entered: it is none where an invocation unwinds to. -/
def Trodden (f : Function) (b : BlockId) : Prop :=
  b ∈ f.layout ∧ ¬f.Lands b

/-- A run may take the edge. An invocation leads nowhere but to where it normally does. -/
def Passable (f : Function) (a : BlockId) (k : Nat) (b : BlockId) : Prop :=
  ∃ blk, f.block a = .ok blk ∧ blk.term.successors[k]? = some b ∧ (blk.term.calls = true → k = 0)

/-- In the woven form, too, the phi takes along each edge into its block what it took. -/
def WovenPhi (f f' : Function) (through : BlockId → Nat → Option BlockId) (b : BlockId)
    (phi : InstId) : Prop :=
  ∃ ty incoming incoming', f.kind phi = .ok (.phi ty incoming) ∧
    f'.kind phi = .ok (.phi ty incoming') ∧ (∀ entry ∈ incoming, entry.1.Below f.insts.size) ∧
    ∀ a k, f.Trodden a → f.Passable a k b →
      InstKind.valueFrom incoming' ((through a k).getD a) = InstKind.valueFrom incoming a

/-- A block into which code has been woven. -/
structure WovenBlock (f f' : Function) (through : BlockId → Nat → Option BlockId)
    (harmless : List InstId → Prop) (b : BlockId) (blk : Block) (phis : List InstId) : Prop where
  block : f.block b = .ok blk
  leading : f.phis b = .ok phis
  leading' : f'.phis b = .ok phis
  block' : ∃ name code term, harmless code ∧ blk.term.LeadsThrough (through b) term ∧
    f'.block b = .ok ⟨name, phis ++ (code ++ blk.insts.drop phis.length), term⟩
  phi : ∀ phi ∈ phis, f.WovenPhi f' through b phi
  insts : ∀ i ∈ blk.insts.drop phis.length, ∀ kind, f.kind i = .ok kind →
    f'.kind i = .ok kind ∧ ∀ value ∈ kind.operands, value.Below f.insts.size
  values : ∀ value ∈ blk.term.operands, value.Below f.insts.size

/-- A function into which code has been woven. Some of its edges lead through blocks of such code. -/
structure Woven (f f' : Function) (through : BlockId → Nat → Option BlockId)
    (harmless : List InstId → Prop) : Prop where
  name : f'.name = f.name
  types : ∀ value ty, f.valueType value = .ok ty → f'.valueType value = .ok ty
  entry : ∀ e, f.entryBlock? = some e → f'.entryBlock? = some e
  start : ∀ b, f.entryBlock? = some b → f.Trodden b
  onward : ∀ a k b, f.Trodden a → f.Passable a k b → f.Trodden b
  blocks : ∀ b, f.Trodden b → ∃ blk phis, f.WovenBlock f' through harmless b blk phis
  between : ∀ a k b c, f.Trodden a → f.Passable a k b → through a k = some c →
    ∃ name code, harmless code ∧ f'.phis c = .ok [] ∧ f'.block c = .ok ⟨name, code, .br b⟩

end Function

namespace World

variable {w : World} {a a' : Activation} {frame frame' : Frame} {size : Nat} {s s₁ t : Store}
  {m : Module}

theorem edgeTaken_withModule (term : Terminator) :
    (w.withModule m).edgeTaken a frame term = w.edgeTaken a frame term := by
  cases term <;> simp only [edgeTaken, eval_withModule]

theorem fixed_edgeTaken (w : World) (a : Activation) (frame : Frame) (term : Terminator) :
    (w.edgeTaken a frame term).Fixed := by
  cases term with
  | condBr cond onTrue onFalse =>
    refine (w.fixed_eval a frame cond).bind fun v => ?_
    exact Exec.fixed_pure _
  | switch value default cases =>
    refine (fixed_widthOf a value).bind fun width => (w.fixed_eval a frame value).bind fun v => ?_
    dsimp only
    cases cases.findIdx? fun case => mask width case.1 == mask width v <;> exact Exec.fixed_pure _
  | _ => exact Exec.fixed_pure _

/-- Which edge is taken does not depend on where the edges lead. -/
theorem edgeTaken_redirect (through : Nat → Option BlockId) (term : Terminator) :
    w.edgeTaken a frame (term.redirect through) = w.edgeTaken a frame term := by
  cases term with
  | switch value default cases =>
    have hcases : ∀ width bits,
        (cases.mapIdx fun k case => (case.1, (through (k + 1)).getD case.2)).findIdx?
          (fun case => mask width case.1 == bits) =
          cases.findIdx? fun case => mask width case.1 == bits := by
      intro width bits
      have hmap : (cases.mapIdx fun k case => (case.1, (through (k + 1)).getD case.2)).map (·.1) =
          cases.map (·.1) := by
        apply List.ext_getElem?
        intro k
        simp [List.getElem?_mapIdx, Option.map_map, Function.comp_def]
      have hfind := congrArg (List.findIdx? fun bits' => mask width bits' == bits) hmap
      rwa [List.findIdx?_map, List.findIdx?_map] at hfind
    simp only [Terminator.redirect, edgeTaken, hcases]
  | _ => rfl

theorem Alike.widthOf_ok (h : Alike w w a a') {value : Value} {width : Nat}
    (hwidth : widthOf a value s = .ok width s₁) : widthOf a' value s = .ok width s₁ := by
  obtain ⟨found, hfound, hend⟩ := Exec.ofChecked_bind_eq_ok.mp hwidth
  obtain ⟨ty, hty, hint⟩ := Checked.map_eq_ok.mp hfound
  refine Exec.ofChecked_bind_eq_ok.mpr ⟨found, ?_, hend⟩
  rw [Function.intWidth?, h.types value ty hty, Except.map, hint]

/-- A rewritten function takes the same edge. -/
theorem Alike.edgeTaken_ok (h : Alike w w a a') (hagree : Agree size frame frame')
    {term : Terminator} (hvalues : ∀ value ∈ term.operands, value.Below size) {k : Nat}
    (hedge : w.edgeTaken a frame term s = .ok k s₁) : w.edgeTaken a' frame' term s = .ok k s₁ := by
  cases term with
  | condBr cond onTrue onFalse =>
    have heval := h.eval_eq hagree (hvalues cond (by simp [Terminator.operands]))
    simpa only [edgeTaken, heval] using hedge
  | switch value default cases =>
    have heval := h.eval_eq hagree (hvalues value (by simp [Terminator.operands]))
    obtain ⟨width, s₂, hwidth, hedge⟩ := Exec.bind_eq_ok.mp hedge
    refine Exec.bind_eq_ok.mpr ⟨width, s₂, h.widthOf_ok hwidth, ?_⟩
    rwa [heval]
  | _ => exact hedge

/-- Without a call a block leads along the edge that is taken. -/
theorem runTerminator_of_edgeTaken {caller : Caller} {block target : BlockId} {term : Terminator}
    {k : Nat} (hcalls : term.calls = false) (hedge : w.edgeTaken a frame term s = .ok k s₁)
    (hk : term.successors[k]? = some target) :
    w.runTerminator caller a frame block term s = .ok (.jump ⟨frame, some block, target⟩) s₁ := by
  cases term with
  | br only =>
    obtain ⟨rfl, rfl⟩ := EStateM.Result.ok.inj hedge
    obtain rfl := Option.some.inj hk
    rfl
  | condBr cond onTrue onFalse =>
    obtain ⟨v, s₂, hcond, hend⟩ := Exec.bind_eq_ok.mp hedge
    obtain ⟨rfl, rfl⟩ := EStateM.Result.ok.inj hend
    refine Exec.bind_eq_ok.mpr ⟨v, s₂, hcond, ?_⟩
    split at hk
    · next htrue =>
      obtain rfl := Option.some.inj hk
      rw [if_pos htrue]
      rfl
    · next hfalse =>
      obtain rfl := Option.some.inj hk
      rw [if_neg hfalse]
      rfl
  | switch value default cases =>
    obtain ⟨width, s₂, hwidth, hedge⟩ := Exec.bind_eq_ok.mp hedge
    obtain ⟨v, s₃, hv, hedge⟩ := Exec.bind_eq_ok.mp hedge
    refine Exec.bind_eq_ok.mpr ⟨width, s₂, hwidth, Exec.bind_eq_ok.mpr ⟨v, s₃, hv, ?_⟩⟩
    dsimp only at hedge ⊢
    rw [List.find?_eq_bind_findIdx?_getElem?]
    cases hindex : cases.findIdx? fun case => mask width case.1 == mask width v with
    | none =>
      rw [hindex] at hedge
      obtain ⟨rfl, rfl⟩ := EStateM.Result.ok.inj hedge
      obtain rfl := Option.some.inj hk
      rfl
    | some j =>
      rw [hindex] at hedge
      obtain ⟨rfl, rfl⟩ := EStateM.Result.ok.inj hedge
      simp only [Terminator.successors, List.getElem?_cons_succ, List.getElem?_map,
        Option.map_eq_some_iff] at hk
      obtain ⟨case, hcase, rfl⟩ := hk
      rw [Option.bind_some, hcase]
      rfl
  | invoke callee args normal unwind => cases hcalls
  | ret value | resume value | unreachable => cases hk

/-- A rewritten function returns the same. -/
theorem Alike.returns_ok (h : Alike w w a a') (hagree : Agree size frame frame') {block : BlockId}
    {term : Terminator} (hvalues : ∀ value ∈ term.operands, value.Below size) {v : UInt64}
    (hterm : w.runTerminator w.alone a frame block term s = .ok (.result v) s₁)
    (through : Nat → Option BlockId) (m : Module) :
    (w.withModule m).runTerminator (w.withModule m).alone a' frame' block (term.redirect through) s =
      .ok (.result v) s₁ := by
  cases term with
  | ret value =>
    cases value with
    | none => exact hterm
    | some value =>
      have heval := h.eval_eq hagree (hvalues value (by simp [Terminator.operands]))
      obtain ⟨v', s₂, hv, hend⟩ := Exec.bind_eq_ok.mp hterm
      refine Exec.bind_eq_ok.mpr ⟨v', s₂, ?_, hend⟩
      rw [eval_withModule, heval]
      exact hv
  | br target => cases hterm
  | condBr cond onTrue onFalse =>
    obtain ⟨_, s₂, -, hend⟩ := Exec.bind_eq_ok.mp hterm
    cases hend
  | switch value default cases =>
    obtain ⟨width, s₂, -, hend⟩ := Exec.bind_eq_ok.mp hterm
    obtain ⟨v', s₃, -, hend⟩ := Exec.bind_eq_ok.mp hend
    dsimp only at hend
    cases hfind : cases.find? fun case => mask width case.1 == mask width v' <;>
      rw [hfind] at hend <;> cases hend
  | invoke callee args normal unwind => cases calls_of_result hterm
  | resume value | unreachable => cases hterm

/-! ## Code without effect on what is not hidden -/

/-- Without a budget the task comes to a value. -/
def Completes (w : World) (task : Task) (s : Store) (v : UInt64) (s' : Store) : Prop :=
  ∃ k, w.Executes task s k (.finished (.ok v)) s'

/-- The activation executes the instructions one after the other. -/
inductive Proceeds (w : World) (a : Activation) : List InstId → Frame → Store → Frame → Store → Prop
  | done {frame : Frame} {s : Store} : Proceeds w a [] frame s frame s
  | next {i : InstId} {insts : List InstId} {frame frame' : Frame} {s s₁ s' : Store} {value : UInt64}
    (h : w.Completes (.step a frame i) s value s₁)
    (hrest : Proceeds w a insts (frame.insert i value) s₁ frame' s') :
    Proceeds w a (i :: insts) frame s frame' s'

section

variable {block : BlockId} {term : Terminator} {i : InstId} {insts code : List InstId}
  {s' : Store} {v value : UInt64}

theorem Completes.plain {kind : InstKind} (hkind : a.function.kind i = .ok kind)
    (hcall : kind.isCall = false) (h : w.step w.alone a frame i s = .ok value s₁) :
    w.Completes (.step a frame i) s value s₁ :=
  ⟨0, .plain hkind hcall h⟩

theorem Completes.executed (h : w.Completes (.step a frame i) s value s₁)
    (hrest : w.Completes (.leave a block term insts (frame.insert i value)) s₁ v s') :
    w.Completes (.leave a block term (i :: insts) frame) s v s' := by
  obtain ⟨j, h⟩ := h
  obtain ⟨k, hrest⟩ := hrest
  exact ⟨1 + j + k, .executed h hrest⟩

theorem Completes.jumped {c : Cursor} (hcalls : term.calls = false)
    (h : w.runTerminator w.alone a frame block term s = .ok (.jump c) s₁)
    (hrest : w.Completes (.arrive a c) s₁ v s') :
    w.Completes (.leave a block term [] frame) s v s' := by
  obtain ⟨k, hrest⟩ := hrest
  exact ⟨1 + k, .jumped hcalls h hrest⟩

theorem Completes.invoked {callee : Callee} {args : List Value} {normal unwind : BlockId}
    (h : w.Completes (.perform a frame callee args) s value s₁)
    (hrest : w.Completes (.arrive a ⟨frame, some block, normal⟩) s₁ v s') :
    w.Completes (.leave a block (.invoke callee args normal unwind) [] frame) s v s' := by
  obtain ⟨j, h⟩ := h
  obtain ⟨k, hrest⟩ := hrest
  exact ⟨1 + j + k, .invoked h hrest⟩

theorem Completes.calls {callee : Callee} {args : List Value} {ret : Ty}
    (hkind : a.function.kind i = .ok (.call callee args ret))
    (h : w.Completes (.perform a frame callee args) s value s₁) :
    w.Completes (.step a frame i) s value s₁ := by
  obtain ⟨k, h⟩ := h
  exact ⟨k, .calls hkind h⟩

theorem Completes.targeted {callee : Callee} {args : List Value} {id : FuncId} {values : List UInt64}
    (htarget : w.target a frame callee args s = .ok (id, values) s₁)
    (h : w.Completes (.call id values) s₁ v s') :
    w.Completes (.perform a frame callee args) s v s' := by
  obtain ⟨k, h⟩ := h
  exact ⟨k, .targeted htarget h⟩

theorem Completes.declared {id : FuncId} {values : List UInt64} {f : Function}
    (hf : w.module.function id = .ok f) (hentry : f.entryBlock? = none)
    (h : w.callDeclared f values s = .ok v s') : w.Completes (.call id values) s v s' := by
  obtain ⟨r, s₁, hanswers⟩ := w.exists_answers f values s
  have hends := hanswers.callDeclared
  rw [h] at hends
  cases r with
  | ok value =>
    obtain ⟨rfl, rfl⟩ := EStateM.Result.ok.inj hends
    exact ⟨0, .declared hf hentry hanswers⟩
  | error cause => cases hends

theorem Completes.body {id : FuncId} {values : List UInt64} {f : Function} {entry : BlockId}
    (hf : w.module.function id = .ok f) (hentry : f.entryBlock? = some entry)
    (h : w.Completes (.arrive ⟨f, values⟩ ⟨∅, none, entry⟩) s v s') :
    w.Completes (.call id values) s v s' := by
  obtain ⟨k, h⟩ := h
  exact ⟨k, .body hf hentry h⟩

theorem Completes.arrived {c : Cursor} {b : Block} {phis : List InstId}
    {values : List (InstId × UInt64)} (hb : a.function.block c.block = .ok b)
    (hphis : a.function.phis c.block = .ok phis)
    (hvalues : w.enteredPhis a c.frame c.source phis s = .ok values s)
    (h : w.Completes (.leave a c.block b.term (b.insts.drop phis.length) (setAll c.frame values))
      s v s') : w.Completes (.arrive a c) s v s' := by
  obtain ⟨k, h⟩ := h
  refine ⟨k, .arrived ?_ h⟩
  rw [arrival, hb, hphis, Exec.ofChecked_ok, pure_bind, Exec.ofChecked_ok, pure_bind]
  exact Exec.bind_of_ok hvalues

/-- The rest of the block is left after that. -/
theorem Proceeds.leave {frame₁ : Frame} (h : w.Proceeds a code frame s frame₁ s₁)
    (hrest : w.Completes (.leave a block term insts frame₁) s₁ v s') :
    w.Completes (.leave a block term (code ++ insts) frame) s v s' := by
  induction h with
  | done => exact hrest
  | next h _ ih => exact h.executed (ih hrest)

end

/-- Whenever memory is ready for the code of a function, it changes no more than what is hidden there
and values that come in with it, and leaves memory ready. -/
def Harmless (w : World) (f : Function) (size : Nat) (hidden : Nat → Prop) (ready : Memory → Prop)
    (code : List InstId) : Prop :=
  ∀ args frame t, ready t.memory → ∃ frame₁ t₁, Agree size frame frame₁ ∧
    t.memory.AgreeOutside hidden t₁.memory ∧ ready t₁.memory ∧
      w.Proceeds ⟨f, args⟩ code frame t frame₁ t₁

end World

/-- The second store differs in nothing but what is hidden, and is ready for code that is woven in. -/
structure Store.Shadows (hidden : Nat → Prop) (ready : Memory → Prop) (s t : Store) : Prop where
  outside : s.memory.AgreeOutside hidden t.memory
  ready : ready t.memory

theorem Store.Shadows.of_memory {hidden : Nat → Prop} {ready : Memory → Prop} {s s₁ t : Store}
    (ht : s.Shadows hidden ready t) (h : s₁.memory = s.memory) : s₁.Shadows hidden ready t :=
  ⟨h ▸ ht.outside, ht.ready⟩

namespace World

/-- A function is a woven form of another one in a world. -/
def WovenBody (w : World) (hidden : Nat → Prop) (ready : Memory → Prop) (f f' : Function)
    (through : BlockId → Nat → Option BlockId) : Prop :=
  f.Woven f' through (w.Harmless f' f.insts.size hidden ready)

/-- Harmless code has been woven into the functions of the world, to give those of the module. -/
structure Weaves (w : World) (m : Module) (hidden : Nat → Prop) (ready : Memory → Prop) : Prop where
  size : w.module.functions.size ≤ m.functions.size
  bodiless : ∀ id f, w.module.function id = .ok f → f.entryBlock? = none → m.function id = .ok f
  bodies : ∀ id f entry, w.module.function id = .ok f → f.entryBlock? = some entry →
    ∃ f' through, m.function id = .ok f' ∧ (w.withModule m).WovenBody hidden ready f f' through
  kept : ∀ memory memory', ready memory → memory.AgreeInside hidden memory' → ready memory'

end World

/-- Where the run of a function and that of a woven form of it have come. -/
structure WovenCursor (f : Function) (through : BlockId → Nat → Option BlockId) (c c' : Cursor) :
    Prop where
  block : c'.block = c.block
  trodden : f.Trodden c.block
  frame : Agree f.insts.size c.frame c'.frame
  source : c.source = none ∧ c'.source = none ∨ ∃ a k, c.source = some a ∧ f.Trodden a ∧
    f.Passable a k c.block ∧ c'.source = some ((through a k).getD a)

namespace Function

variable {f f' : Function} {through : BlockId → Nat → Option BlockId}
  {harmless : List InstId → Prop} {a b : BlockId} {k : Nat}

theorem Woven.alike (h : f.Woven f' through harmless) (w : World) (args : List UInt64) :
    World.Alike w w ⟨f, args⟩ ⟨f', args⟩ :=
  ⟨rfl, rfl, rfl, h.name, h.types⟩

/-- Phis take the same values in the woven form. -/
theorem Woven.phiValues_ok (h : f.Woven f' through harmless) {w : World} {args : List UInt64}
    {frame frame' : Frame} (hagree : Agree f.insts.size frame frame') (ha : f.Trodden a)
    (hk : f.Passable a k b) {phis : List InstId} (hphis : ∀ phi ∈ phis, f.WovenPhi f' through b phi)
    {s s₁ : Store} {values : List (InstId × UInt64)}
    (hvalues : w.phiValues ⟨f, args⟩ frame a phis s = .ok values s₁) (m : Module) :
    (w.withModule m).phiValues ⟨f', args⟩ frame' ((through a k).getD a) phis s = .ok values s₁ := by
  induction phis generalizing values s s₁ with
  | nil => exact hvalues
  | cons phi rest ih =>
    obtain ⟨ty, incoming, incoming', hkind, hkind', hbelow, htakes⟩ := hphis phi List.mem_cons_self
    have hsame := htakes a k ha hk
    unfold InstKind.valueFrom at hsame
    rw [World.phiValues, hkind, Exec.ofChecked_ok, pure_bind] at hvalues
    rw [World.phiValues, hkind', Exec.ofChecked_ok, pure_bind]
    dsimp only at hvalues ⊢
    cases hfind : incoming.find? fun entry => entry.2 == a with
    | none =>
      rw [hfind] at hvalues
      cases hvalues
    | some entry =>
      rw [hfind] at hvalues hsame
      obtain ⟨entry', hfind', hvalue⟩ := Option.map_eq_some_iff.mp hsame
      rw [hfind']
      obtain ⟨value, s₂, heval, hvalues⟩ := Exec.bind_eq_ok.mp hvalues
      obtain ⟨others, s₃, hothers, hend⟩ := Exec.bind_eq_ok.mp hvalues
      refine Exec.bind_eq_ok.mpr ⟨value, s₂, ?_, Exec.bind_eq_ok.mpr ⟨others, s₃, ?_, hend⟩⟩
      · have hentry := hbelow entry (List.mem_of_find?_eq_some hfind)
        rw [World.eval_withModule, hvalue, (h.alike w args).eval_eq hagree hentry]
        exact heval
      · exact ih (fun p hp => hphis p (List.mem_cons_of_mem _ hp)) hothers

theorem Woven.enteredPhis_ok (h : f.Woven f' through harmless) {w : World} {args : List UInt64}
    {c c' : Cursor} (hc : WovenCursor f through c c') {phis : List InstId}
    (hphis : ∀ phi ∈ phis, f.WovenPhi f' through c.block phi) {s s₁ : Store}
    {values : List (InstId × UInt64)}
    (hvalues : w.enteredPhis ⟨f, args⟩ c.frame c.source phis s = .ok values s₁) (m : Module)
    (t : Store) : (w.withModule m).enteredPhis ⟨f', args⟩ c'.frame c'.source phis t = .ok values t := by
  have hfixed := World.fixed_enteredPhis (w.withModule m) ⟨f', args⟩ c'.frame c'.source phis
  suffices hentered : (w.withModule m).enteredPhis ⟨f', args⟩ c'.frame c'.source phis s =
      .ok values s₁ from (hfixed.eq_ok hentered).2 t
  obtain ⟨hnone, hnone'⟩ | ⟨a, k, hsource, ha, hk, hsource'⟩ := hc.source
  · rw [hnone] at hvalues
    rw [hnone']
    exact hvalues
  · rw [hsource] at hvalues
    rw [hsource']
    exact h.phiValues_ok hc.frame ha hk hphis hvalues m

end Function

namespace World

variable {w : World} {hidden : Nat → Prop} {ready : Memory → Prop} {f f' : Function} {m : Module}
  {through : BlockId → Nat → Option BlockId} {args : List UInt64}

/-- A woven form comes from a place to the same value. -/
def ComesTo (w : World) (hidden : Nat → Prop) (ready : Memory → Prop) (task : Task) (v : UInt64)
    (s' : Store) (t : Store) : Prop :=
  ∃ t', w.Completes task t v t' ∧ s'.Shadows hidden ready t'

/-- The code of an edge is executed on the way to where the edge leads. -/
theorem WovenBody.passes_between (h : w.WovenBody hidden ready f f' through) {a b : BlockId}
    {k : Nat} (ha : f.Trodden a) (hk : f.Passable a k b) {frame frame' : Frame}
    (hagree : Agree f.insts.size frame frame') {s t s' : Store} {v : UInt64}
    (ht : s.Shadows hidden ready t)
    (harrive : ∀ c' t₁, WovenCursor f through ⟨frame, some a, b⟩ c' → s.Shadows hidden ready t₁ →
      w.ComesTo hidden ready (.arrive ⟨f', args⟩ c') v s' t₁) :
    w.ComesTo hidden ready (.arrive ⟨f', args⟩ ⟨frame', some a, (through a k).getD b⟩) v s' t := by
  have hb := h.onward a k b ha hk
  cases hthrough : through a k with
  | none =>
    refine harrive _ t ⟨rfl, hb, hagree, .inr ⟨a, k, rfl, ha, hk, ?_⟩⟩ ht
    rw [hthrough]
    rfl
  | some between =>
    obtain ⟨name, code, hcode, hphis, hblock⟩ := h.between a k b between ha hk hthrough
    obtain ⟨frame₁, t₁, hagree₁, hout, hready, hproceeds⟩ := hcode args frame' t ht.ready
    have hc : WovenCursor f through ⟨frame, some a, b⟩ ⟨frame₁, some between, b⟩ := by
      refine ⟨rfl, hb, hagree.trans hagree₁, .inr ⟨a, k, rfl, ha, hk, ?_⟩⟩
      rw [hthrough]
      rfl
    obtain ⟨t', hrest, ht'⟩ := harrive _ t₁ hc ⟨ht.outside.trans hout, hready⟩
    have hend : w.Completes (.leave ⟨f', args⟩ between (.br b) [] frame₁) t₁ v t' :=
      .jumped rfl rfl hrest
    refine ⟨t', .arrived hblock hphis rfl ?_, ht'⟩
    exact List.append_nil code ▸ hproceeds.leave hend

/-- The woven form of what is left of an activation comes to the same value. -/
def RunsWoven (w : World) (m : Module) (hidden : Nat → Prop) (ready : Memory → Prop)
    (moment : Moment) (v : UInt64) (s' : Store) : Prop :=
  ∀ f' through t, (w.withModule m).WovenBody hidden ready moment.activation.function f' through →
    moment.store.Shadows hidden ready t →
    match moment.place with
    | .arriving c => ∀ c', WovenCursor moment.activation.function through c c' →
      (w.withModule m).ComesTo hidden ready (.arrive ⟨f', moment.activation.args⟩ c') v s' t
    | .within block insts frame => ∀ blk phis term frame', moment.activation.function.Trodden block →
      moment.activation.function.WovenBlock f' through
        ((w.withModule m).Harmless f' moment.activation.function.insts.size hidden ready)
        block blk phis →
      insts <:+ blk.insts.drop phis.length → blk.term.LeadsThrough (through block) term →
      Agree moment.activation.function.insts.size frame frame' →
      (w.withModule m).ComesTo hidden ready
        (.leave ⟨f', moment.activation.args⟩ block term insts frame') v s' t

variable {s s₁ s₂ s₃ s' t : Store} {frame frame' : Frame} {v value : UInt64} {n : Nat}
  {es : List BlockId} {id callId : FuncId} {block : BlockId} {b : Block} {insts : List InstId}
  {i : InstId} {callee : Callee} {operands : List Value} {values : List UInt64} {g : Function}

theorem memory_of_tick (h : Exec.tick s = .ok () s₁) : s₁.memory = s.memory := by
  rw [(Exec.tick_eq h).2]

theorem memory_of_target {a : Activation}
    (h : w.target a frame callee operands s = .ok (callId, values) s₁) : s₁ = s :=
  ((w.fixed_target a frame callee operands).eq_ok h).1

/-- The woven form calls the same function with the same arguments. -/
theorem WovenBody.target_ok (h : (w.withModule m).WovenBody hidden ready f f' through)
    (hm : w.Weaves m hidden ready) (hagree : Agree f.insts.size frame frame')
    (hvalues : ∀ value ∈ callee.operands operands, value.Below f.insts.size)
    (htarget : w.target ⟨f, args⟩ frame callee operands s = .ok (callId, values) s₁) (t : Store) :
    (w.withModule m).target ⟨f', args⟩ frame' callee operands t = .ok (callId, values) t := by
  refine target_withModule hm.size ?_
  rw [(h.alike w args).target_eq hagree hvalues]
  exact ((w.fixed_target _ _ _ _).eq_ok htarget).2 t

/-- A function without a body does the same when it is called. -/
theorem Weaves.calls_bodiless (h : w.Weaves m hidden ready) (hg : w.module.function callId = .ok g)
    (hentry : g.entryBlock? = none) {t₁ : Store} (hcall : w.callDeclared g values t = .ok value t₁) :
    (w.withModule m).Completes (.call callId values) t value t₁ :=
  .declared (h.bodiless callId g hg hentry) hentry hcall

/-- So does the woven form of a function with a body, if that holds of its run. -/
theorem Weaves.calls_body (h : w.Weaves m hidden ready) (hg : w.module.function callId = .ok g)
    {entry : BlockId} (hentry : g.entryBlock? = some entry)
    (hruns : w.RunsWoven m hidden ready (.start callId g entry values n s) value s₁)
    (ht : s.Shadows hidden ready t) :
    (w.withModule m).ComesTo hidden ready (.call callId values) value s₁ t := by
  obtain ⟨g', through', hg', hwoven⟩ := h.bodies callId g entry hg hentry
  have hc : WovenCursor g through' ⟨∅, none, entry⟩ ⟨∅, none, entry⟩ :=
    ⟨rfl, hwoven.start entry hentry, .refl _ _, .inl ⟨rfl, rfl⟩⟩
  obtain ⟨t₁, hcomes, ht₁⟩ := hruns g' through' t hwoven ht _ hc
  exact ⟨t₁, .body hg' (hwoven.entry entry hentry) hcomes, ht₁⟩

/-- The woven form of an activation, in a store that is like this one but for what is hidden, calls a
function with the same effect. -/
def PerformsWoven (w : World) (m : Module) (hidden : Nat → Prop) (ready : Memory → Prop)
    (a : Activation) (frame : Frame) (s : Store) (callee : Callee) (operands : List Value) (v : UInt64)
    (s' : Store) : Prop :=
  ∀ f' through frame' t, (w.withModule m).WovenBody hidden ready a.function f' through →
    Agree a.function.insts.size frame frame' → s.Shadows hidden ready t →
      (w.withModule m).ComesTo hidden ready (.perform ⟨f', a.args⟩ frame' callee operands) v s' t

section

variable {a : Activation}

/-- A call of a function without a body that ignores what is hidden. -/
theorem performsWoven_declared (hm : w.Weaves m hidden ready)
    (hignores : (w.performCall w.alone a frame callee operands).Ignores hidden s)
    (htarget : w.target a frame callee operands s = .ok (callId, values) s₁)
    (hg : w.module.function callId = .ok g) (hentry : g.entryBlock? = none)
    (hcall : w.callDeclared g values s₁ = .ok value s₂)
    (hvalues : ∀ value ∈ callee.operands operands, value.Below a.function.insts.size) :
    w.PerformsWoven m hidden ready a frame s callee operands value s₂ := by
  intro f' through frame' t hwoven hagree ht
  obtain rfl := memory_of_target htarget
  obtain ⟨t₁, ht₁, hout, hin⟩ := callDeclared_again hignores htarget hg hentry hcall ht.outside
  exact ⟨t₁, .targeted (hwoven.target_ok hm hagree hvalues htarget t) (hm.calls_bodiless hg hentry ht₁),
    hout, hm.kept _ _ ht.ready hin⟩

/-- A call of a function with a body that runs in its woven form as it does. -/
theorem performsWoven_body (hm : w.Weaves m hidden ready)
    (htarget : w.target a frame callee operands s = .ok (callId, values) s₁)
    (hg : w.module.function callId = .ok g) {entry : BlockId} (hentry : g.entryBlock? = some entry)
    (hruns : w.RunsWoven m hidden ready (.start callId g entry values n s₁) value s₂)
    (hvalues : ∀ value ∈ callee.operands operands, value.Below a.function.insts.size) :
    w.PerformsWoven m hidden ready a frame s callee operands value s₂ := by
  intro f' through frame' t hwoven hagree ht
  obtain rfl := memory_of_target htarget
  obtain ⟨t₁, hcomes, ht₁⟩ := hm.calls_body hg hentry hruns ht
  exact ⟨t₁, .targeted (hwoven.target_ok hm hagree hvalues htarget t) hcomes, ht₁⟩

/-- An instruction of the program, and what comes after it. -/
theorem RunsWoven.cons {kind : InstKind} (htick : Exec.tick s = .ok () s₁)
    (hkind : a.function.kind i = .ok kind)
    (hstep : (∀ value ∈ kind.operands, value.Below a.function.insts.size) →
      ∀ f' through frame' t, (w.withModule m).WovenBody hidden ready a.function f' through →
        f'.kind i = .ok kind → Agree a.function.insts.size frame frame' →
        s₁.Shadows hidden ready t →
        (w.withModule m).ComesTo hidden ready (.step ⟨f', a.args⟩ frame' i) value s₂ t)
    (hrest : w.RunsWoven m hidden ready
      ⟨id, a, n, es, .within block insts (frame.insert i value), s₂⟩ v s') :
    w.RunsWoven m hidden ready ⟨id, a, n, es, .within block (i :: insts) frame, s⟩ v s' := by
  intro f' through t hwoven ht blk phis term frame' htrodden hwb hsuffix hterm hagree
  obtain ⟨hkind', hvalues⟩ := hwb.insts i (hsuffix.subset List.mem_cons_self) kind hkind
  have ht₁ : s₁.Shadows hidden ready t := ht.of_memory (memory_of_tick htick)
  obtain ⟨t₂, hcomes, ht₂⟩ := hstep hvalues f' through frame' t hwoven hkind' hagree ht₁
  obtain ⟨t', hcomes', ht'⟩ := hrest f' through t₂ hwoven ht₂ blk phis term _ htrodden hwb
    ((List.suffix_cons i insts).trans hsuffix) hterm (hagree.insert i value)
  exact ⟨t', hcomes.executed hcomes', ht'⟩

/-- An instruction that calls a function. -/
theorem RunsWoven.cons_call {ret : Ty} (htick : Exec.tick s = .ok () s₁)
    (hkind : a.function.kind i = .ok (.call callee operands ret))
    (hcall : (∀ value ∈ callee.operands operands, value.Below a.function.insts.size) →
      w.PerformsWoven m hidden ready a frame s₁ callee operands value s₂)
    (hrest : w.RunsWoven m hidden ready
      ⟨id, a, n, es, .within block insts (frame.insert i value), s₂⟩ v s') :
    w.RunsWoven m hidden ready ⟨id, a, n, es, .within block (i :: insts) frame, s⟩ v s' := by
  refine hrest.cons htick hkind fun hvalues f' through frame' t hwoven hkind' hagree ht => ?_
  obtain ⟨t₁, hcomes, ht₁⟩ := hcall hvalues f' through frame' t hwoven hagree ht
  exact ⟨t₁, .calls hkind' hcomes, ht₁⟩

/-- A block that is left along an edge, without a call. -/
theorem RunsWoven.branch {c : Cursor} (hb : a.function.block block = .ok b)
    (htick : Exec.tick s = .ok () s₁) (hcalls : b.term.calls = false)
    (hjump : w.runTerminator w.alone a frame block b.term s₁ = .ok (.jump c) s₂)
    (hrest : w.RunsWoven m hidden ready ⟨id, a, n, es, .arriving c, s₂⟩ v s') :
    w.RunsWoven m hidden ready ⟨id, a, n + 1, es, .within block [] frame, s⟩ v s' := by
  intro f' through t hwoven ht blk phis term frame' htrodden hwb hsuffix hterm hagree
  obtain rfl := Except.ok.inj (hwb.block.symm.trans hb)
  obtain ⟨k, hedge, hk, hc⟩ := edgeTaken_of_jump hcalls hjump
  obtain rfl := ((fixed_runTerminator hcalls).eq_ok hjump).1
  have hpass : a.function.Passable block k c.block :=
    ⟨blk, hb, hk, fun htrue => absurd (hcalls.symm.trans htrue) Bool.false_ne_true⟩
  have hterm : term = blk.term.redirect (through block) := by
    obtain ⟨-, hterm⟩ | ⟨callee, args, normal, unwind, unwind', hinvoke, -⟩ := hterm
    · exact hterm
    · rw [hinvoke] at hcalls
      cases hcalls
  subst hterm
  -- The same edge is taken, and leads through the code that has been put on it.
  have hedge' : (w.withModule m).edgeTaken ⟨f', a.args⟩ frame' (blk.term.redirect (through block)) t =
      .ok k t := by
    rw [edgeTaken_withModule, edgeTaken_redirect]
    exact ((w.fixed_edgeTaken _ _ _).eq_ok
      ((hwoven.alike w a.args).edgeTaken_ok hagree hwb.values hedge)).2 t
  have hk' : (blk.term.redirect (through block)).successors[k]? =
      some ((through block k).getD c.block) := by
    rw [Terminator.successors_redirect, List.getElem?_mapIdx, hk, Option.map_some]
  obtain ⟨t', hcomes, ht'⟩ := hwoven.passes_between htrodden hpass hagree
    (ht.of_memory (memory_of_tick htick)) fun c' t₁ hc' ht₁ => hrest f' through t₁ hwoven ht₁ c' (hc ▸ hc')
  refine ⟨t', .jumped (by rwa [Terminator.calls_redirect]) ?_ hcomes, ht'⟩
  exact runTerminator_of_edgeTaken (by rwa [Terminator.calls_redirect]) hedge' hk'

/-- A block that ends in a call. -/
theorem RunsWoven.invoke {normal unwind : BlockId} (hb : a.function.block block = .ok b)
    (hterm : b.term = .invoke callee operands normal unwind) (htick : Exec.tick s = .ok () s₁)
    (hcall : (∀ value ∈ callee.operands operands, value.Below a.function.insts.size) →
      ∀ f' through frame' t, (w.withModule m).WovenBody hidden ready a.function f' through →
        Agree a.function.insts.size frame frame' → s₁.Shadows hidden ready t →
        ∃ value, (w.withModule m).ComesTo hidden ready
          (.perform ⟨f', a.args⟩ frame' callee operands) value s₂ t)
    (hrest : w.RunsWoven m hidden ready ⟨id, a, n, es, .arriving ⟨frame, some block, normal⟩, s₂⟩
      v s') : w.RunsWoven m hidden ready ⟨id, a, n + 1, es, .within block [] frame, s⟩ v s' := by
  intro f' through t hwoven ht blk phis term' frame' htrodden hwb hsuffix hterm' hagree
  obtain rfl := Except.ok.inj (hwb.block.symm.trans hb)
  have hpass : a.function.Passable block 0 normal := by
    refine ⟨blk, hb, ?_, fun _ => rfl⟩
    rw [hterm]
    rfl
  obtain ⟨unwind', rfl⟩ : ∃ unwind', term' =
      .invoke callee operands ((through block 0).getD normal) unwind' := by
    obtain ⟨hcalls, -⟩ | ⟨callee', operands', normal', unwind', unwind'', hinvoke, rfl⟩ := hterm'
    · rw [hterm] at hcalls
      cases hcalls
    · obtain ⟨rfl, rfl, rfl, -⟩ := Terminator.invoke.inj (hterm.symm.trans hinvoke)
      exact ⟨unwind'', rfl⟩
  have hvalues : ∀ value ∈ callee.operands operands, value.Below a.function.insts.size := by
    intro value hvalue
    refine hwb.values value ?_
    rw [hterm]
    exact hvalue
  obtain ⟨value, t₁, hperform, ht₁⟩ :=
    hcall hvalues f' through frame' t hwoven hagree (ht.of_memory (memory_of_tick htick))
  obtain ⟨t', hcomes, ht'⟩ := hwoven.passes_between htrodden hpass hagree ht₁
    fun c' t₂ hc' ht₂ => hrest f' through t₂ hwoven ht₂ c' hc'
  exact ⟨t', hperform.invoked hcomes, ht'⟩

/-- The end of a function. -/
theorem runsWoven_result (hb : a.function.block block = .ok b) (htick : Exec.tick s = .ok () s₁)
    (hresult : w.runTerminator w.alone a frame block b.term s₁ = .ok (.result v) s₂) :
    w.RunsWoven m hidden ready ⟨id, a, n, es, .within block [] frame, s⟩ v s₂ := by
  intro f' through t hwoven ht blk phis term frame' htrodden hwb hsuffix hterm hagree
  obtain rfl := Except.ok.inj (hwb.block.symm.trans hb)
  have hcalls := calls_of_result hresult
  obtain rfl := ((fixed_runTerminator hcalls).eq_ok hresult).1
  obtain ⟨-, rfl⟩ | ⟨callee, args, normal, unwind, unwind', hinvoke, -⟩ := hterm
  swap
  · rw [hinvoke] at hcalls
    cases hcalls
  have hcalls' : (blk.term.redirect (through block)).calls = false :=
    (Terminator.calls_redirect _ _).trans hcalls
  have hreturns := (hwoven.alike w a.args).returns_ok hagree hwb.values hresult (through block) m
  refine ⟨t, ⟨1, .returned hcalls' (((fixed_runTerminator hcalls').eq_ok hreturns).2 t)⟩, ?_⟩
  exact ht.of_memory (memory_of_tick htick)

end

/-- When a run that returns ignores what is hidden, that of the woven form comes to the same. -/
theorem Passes.runsWoven (hm : w.Weaves m hidden ready) {moment : Moment} {sites : List ProbeSite}
    (h : w.Passes moment sites v s') (hallowed : w.Throughout (w.Ignores hidden) moment) :
    w.RunsWoven m hidden ready moment v s' := by
  induction h with
  | @enter id a n es c s s₁ s' b phis values sites v hb hphis hvalues _ ih =>
    intro f' through t hwoven ht c' hc
    obtain ⟨blk, phis', hwb⟩ := hwoven.blocks c.block hc.trodden
    obtain rfl := Except.ok.inj (hwb.block.symm.trans hb)
    obtain rfl := Except.ok.inj (hwb.leading.symm.trans hphis)
    obtain rfl := ((w.fixed_enteredPhis a c.frame c.source phis').eq_ok hvalues).1
    obtain ⟨name, code, term, hcode, hterm, hblock'⟩ := hwb.block'
    -- The code that stands after the phis comes first.
    obtain ⟨frame₁, t₁, hagree₁, hout, hready, hproceeds⟩ :=
      hcode a.args (setAll c'.frame values) t ht.ready
    obtain ⟨t', hrest, ht'⟩ := ih (hallowed.next (.enter hb hphis hvalues)) f' through t₁ hwoven
      ⟨ht.outside.trans hout, hready⟩ blk phis' term frame₁ hc.trodden hwb (List.suffix_refl _) hterm
      ((hc.frame.setAll values).trans hagree₁)
    refine ⟨t', .arrived (hc.block ▸ hblock') (hc.block ▸ hwb.leading')
      (hwoven.enteredPhis_ok hc hwb.phi hvalues m t) ?_, ht'⟩
    rw [hc.block, List.drop_left]
    exact hproceeds.leave hrest
  | execute htick hkind hcall hstep _ ih =>
    refine .cons htick hkind (fun hvalues f' through frame' t hwoven hkind' hagree ht => ?_)
      (ih (hallowed.next (next_execute htick hkind hcall hstep)))
    obtain ⟨t₁, ht₁, hout, hin⟩ := (hwoven.alike w _).step_again hagree hkind hkind' hcall hvalues
      (hallowed.here _ htick) hstep ht.outside m
    exact ⟨t₁, .plain hkind' hcall ht₁, hout, hm.kept _ _ ht.ready hin⟩
  | declared htick hkind htarget hf hentry hcall _ ih =>
    have hignores := hallowed.here _ htick
    rw [step_call hkind] at hignores
    exact .cons_call htick hkind (performsWoven_declared hm hignores htarget hf hentry hcall)
      (ih (hallowed.next (next_declared htick hkind htarget hf hentry hcall)))
  | call htick hkind htarget hf hentry hcall _ ihcall ih =>
    have hruns := ihcall (hallowed.next (.call hkind htick htarget hf hentry))
    exact .cons_call htick hkind (performsWoven_body hm htarget hf hentry hruns)
      (ih (hallowed.next (next_called htick hkind htarget hf hentry hcall)))
  | branch hb htick hcalls hjump _ _ ih =>
    exact .branch hb htick hcalls hjump (ih (hallowed.next (next_branch hb htick hcalls hjump)))
  | invokeDeclared hb hterm htick htarget hf hentry hcall _ ih =>
    refine .invoke hb hterm htick (fun hvalues f' through frame' t hwoven hagree ht => ?_)
      (ih (hallowed.next (next_invokeDeclared hb hterm htick htarget hf hentry hcall)))
    have hignores := hallowed.here _ _ hb htick
    rw [hterm] at hignores
    obtain rfl := memory_of_target htarget
    obtain ⟨value, t₁, ht₁, hout, hin⟩ := invoked_again hignores htarget hf hentry hcall ht.outside
    exact ⟨value, t₁, .targeted (hwoven.target_ok hm hagree hvalues htarget t)
      (hm.calls_bodiless hf hentry ht₁), hout, hm.kept _ _ ht.ready hin⟩
  | invoke hb hterm htick htarget hf hentry hcall _ ihcall ih =>
    have hruns := ihcall (hallowed.next (.invoke hb hterm htick htarget hf hentry))
    exact .invoke hb hterm htick
      (fun hvalues f' through frame' t hwoven hagree ht =>
        ⟨_, performsWoven_body hm htarget hf hentry hruns hvalues f' through frame' t hwoven hagree ht⟩)
      (ih (hallowed.next (next_invoked hb hterm htick htarget hf hentry hcall)))
  | result hb htick hresult => exact runsWoven_result hb htick hresult

/-- The run that a call by name starts ignores what is hidden. -/
structure IgnoresCall (w : World) (hidden : Nat → Prop) (name : String) (args : List UInt64)
    (s : Store) : Prop where
  moments : ∀ moment, w.Occurs name args s moment → w.Ignores hidden moment
  /-- The call may be one of a function without a body. -/
  declared : ∀ id f, w.module.findFunction? name = some id → w.module.function id = .ok f →
    f.entryBlock? = none → (w.callDeclared f args).Ignores hidden s

/-- A call by name that returns comes to the same, with the same effect on memory, when code is woven
into the functions that changes no more than what the call ignores. -/
theorem CallPasses.woven (hm : w.Weaves m hidden ready)
    (hnames : ∀ name id, w.module.findFunction? name = some id → m.findFunction? name = some id)
    {name : String} {sites : List ProbeSite} (h : w.CallPasses name args s sites v s')
    (hignores : w.IgnoresCall hidden name args s) (ht : s.Shadows hidden ready t) :
    ∃ k t', (w.withModule m).ExecutesCall name args t k (.finished (.ok v)) t' ∧
      s'.Shadows hidden ready t' := by
  cases h with
  | body hid hf hentry hpasses =>
    have hruns := hpasses.runsWoven hm
      fun later hlater => hignores.moments later ⟨_, _, _, hid, hf, hentry, hlater⟩
    obtain ⟨t', ⟨k, hcomes⟩, ht'⟩ := hm.calls_body hf hentry hruns ht
    exact ⟨k, t', .found (hnames _ _ hid) hcomes, ht'⟩
  | declared hid hf hentry hcall =>
    obtain ⟨t', hcall', hout, hin⟩ := (hignores.declared _ _ hid hf hentry).again
      (w.ofMemory_callDeclared _ args) hcall ht.outside
    obtain ⟨k, hcomes⟩ := hm.calls_bodiless hf hentry hcall'
    exact ⟨k, t', .found (hnames _ _ hid) hcomes, hout, hm.kept _ _ ht.ready hin⟩

end World

end EdgeProbe
