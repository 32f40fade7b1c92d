import EdgeProbe.Proofs.Flow.Path
import EdgeProbe.Proofs.Machine.Guarded

/-!
# Simulation of functions

When a function is rewritten its blocks may be spread over several, and some of its instructions
may give way to code that computes the same. `Covers` describes how what is left of a block is
found in the new function, and `FunctionSim` what has to hold of the two. Main statement:
`World.runIf_refines`.
-/

namespace EdgeProbe

/-- The operand is not an instruction from some number on. -/
def Value.Below (size : Nat) : Value → Prop
  | .inst id => id.index < size
  | _ => True

@[simp] theorem Value.below_inst {id : InstId} {size : Nat} :
    (Value.inst id).Below size ↔ id.index < size :=
  Iff.rfl

@[simp] theorem Value.below_const (c : Constant) (size : Nat) : (Value.const c).Below size :=
  trivial

theorem Value.Below.mono {value : Value} {size size' : Nat} (h : value.Below size)
    (hle : size ≤ size') : value.Below size' := by
  cases value with
  | inst id => exact Nat.lt_of_lt_of_le h hle
  | _ => trivial

/-- The frames hold the same values for the instructions up to some number. -/
def Agree (size : Nat) (frame frame' : Frame) : Prop :=
  ∀ id : InstId, id.index < size → frame'[id]? = frame[id]?

variable {size : Nat} {frame frame' : Frame}

theorem Agree.refl (size : Nat) (frame : Frame) : Agree size frame frame :=
  fun _ _ => rfl

theorem Agree.insert (h : Agree size frame frame') (i : InstId) (value : UInt64) :
    Agree size (frame.insert i value) (frame'.insert i value) := by
  intro id hid
  rw [Std.HashMap.getElem?_insert, Std.HashMap.getElem?_insert, h id hid]

/-- What is set beyond the number makes no difference. -/
theorem Agree.insert_above (h : Agree size frame frame') {i : InstId} (hi : size ≤ i.index)
    (value : UInt64) : Agree size frame (frame'.insert i value) := by
  intro id hid
  have hne : ¬(i == id) = true := by
    intro heq
    obtain rfl := eq_of_beq heq
    omega
  rw [Std.HashMap.getElem?_insert, if_neg hne, h id hid]

theorem Agree.mono {size' : Nat} (h : Agree size' frame frame') (hle : size ≤ size') :
    Agree size frame frame' :=
  fun id hid => h id (hid.trans_le hle)

theorem Agree.trans {frame'' : Frame} (h : Agree size frame frame') (h' : Agree size frame' frame'') :
    Agree size frame frame'' :=
  fun id hid => (h' id hid).trans (h id hid)

theorem Agree.setAll (h : Agree size frame frame') (entries : List (InstId × UInt64)) :
    Agree size (World.setAll frame entries) (World.setAll frame' entries) := by
  induction entries generalizing frame frame' with
  | nil => exact h
  | cons entry rest ih => exact ih (h.insert entry.1 entry.2)

namespace Exec

variable {α β : Type}

theorem Heedless.bind {x : Exec α} {k : α → Exec β} (hx : Heedless x) (hk : ∀ a, Heedless (k a)) :
    Heedless (x >>= k) := by
  intro s steps
  change EStateM.bind x k _ = withSteps (EStateM.bind x k s) steps
  unfold EStateM.bind
  rw [hx s steps]
  cases x s with
  | ok a s₁ => exact hk a s₁ steps
  | error cause s₁ => rfl

theorem heedless_pure (a : α) : Heedless (pure a) :=
  fun _ _ => rfl

theorem heedless_throw (cause : Stop) : Heedless (throw cause : Exec α) :=
  fun _ _ => rfl

theorem heedless_ofChecked (x : Checked α) : Heedless (ofChecked x) := by
  cases x <;> exact fun _ _ => rfl

end Exec

namespace World

variable {w w' : World} {a a' : Activation} {kept : Stop → Prop}

theorem heedless_eval (value : Value) : (w.eval a frame value).Heedless := by
  cases value with
  | inst id =>
    rw [eval]
    split
    · exact Exec.heedless_pure _
    · exact Exec.heedless_throw _
  | const c => cases c <;> exact Exec.heedless_pure _
  | global id => exact Exec.heedless_ofChecked _
  | arg index => exact Exec.heedless_pure _
  | func id => exact Exec.heedless_pure _

theorem heedless_runBuiltin (builtin : Builtin) (args : List UInt64) :
    (runBuiltin builtin args).Heedless := by
  cases builtin with
  | compareStrings ignoreCase limited =>
    refine (Exec.heedless_ask _).bind fun answer => ?_
    exact (Exec.heedless_ofTrap answer).bind fun _ => Exec.heedless_pure _
  | compareRegions =>
    refine (Exec.heedless_ask _).bind fun answer => ?_
    exact (Exec.heedless_ofTrap answer).bind fun _ => Exec.heedless_pure _
  | copy => exact (Exec.heedless_access _).bind fun _ => Exec.heedless_pure _
  | trace => exact (Exec.heedless_report _).bind fun _ => Exec.heedless_pure _

theorem heedless_callDeclared (f : Function) (args : List UInt64) :
    (w.callDeclared f args).Heedless := by
  unfold callDeclared
  dsimp only
  split
  · exact (heedless_runBuiltin _ _).bind fun _ => Exec.heedless_pure _
  · split
    · exact (Exec.heedless_access _).bind fun _ => Exec.heedless_pure _
    · exact Exec.heedless_throw _

/-- The activations are of one function and its rewritten form, and their worlds differ in the
module only. -/
structure Alike (w w' : World) (a a' : Activation) : Prop where
  globals : w'.globals = w.globals
  size : w'.module.functions.size = w.module.functions.size
  args : a'.args = a.args
  name : a'.function.name = a.function.name
  types : ∀ value ty, a.function.valueType value = .ok ty → a'.function.valueType value = .ok ty

theorem Alike.eval_eq (h : Alike w w' a a') (hagree : Agree size frame frame') {value : Value}
    (hvalue : value.Below size) : w'.eval a' frame' value = w.eval a frame value := by
  cases value with
  | inst id => simp only [eval, hagree id hvalue, h.name]
  | const c => cases c <;> rfl
  | arg index => simp only [eval, h.args]
  | global id => simp only [eval, globalAddr, h.globals]
  | func id => rfl

theorem Alike.mapM_eval_eq (h : Alike w w' a a') (hagree : Agree size frame frame')
    {values : List Value} (hvalues : ∀ value ∈ values, value.Below size) :
    values.mapM (w'.eval a' frame') = values.mapM (w.eval a frame) := by
  induction values with
  | nil => rfl
  | cons value rest ih =>
    rw [List.mapM_cons, List.mapM_cons, h.eval_eq hagree (hvalues value List.mem_cons_self),
      ih fun v hv => hvalues v (List.mem_cons_of_mem _ hv)]

theorem Alike.target_eq (h : Alike w w' a a') (hagree : Agree size frame frame') {callee : Callee}
    {args : List Value} (hvalues : ∀ value ∈ callee.operands args, value.Below size) :
    w'.target a' frame' callee args = w.target a frame callee args := by
  cases callee with
  | direct id =>
    have hargs : args.mapM (w'.eval a' frame') = args.mapM (w.eval a frame) :=
      h.mapM_eval_eq hagree hvalues
    simp only [target, hargs]
  | indirect ptr =>
    have hargs := h.mapM_eval_eq hagree fun v hv => hvalues v (List.mem_cons_of_mem _ hv)
    simp only [target, hargs, h.eval_eq hagree (hvalues ptr List.mem_cons_self), functionAt?,
      h.size]

theorem Alike.widthOf_refines (h : Alike w w' a a') (hkept : Exec.Keeps kept) (value : Value) :
    Exec.Refines kept Eq (widthOf a value) fun _ => widthOf a' value := by
  have hwidth : Exec.Refines kept Eq (Exec.ofChecked (a.function.intWidth? value))
      fun _ => Exec.ofChecked (a'.function.intWidth? value) := by
    refine Exec.refines_ofChecked hkept fun width hwidth => ⟨width, ?_, rfl⟩
    obtain ⟨ty, hty, hint⟩ := Checked.map_eq_ok.mp hwidth
    rw [Function.intWidth?, h.types value ty hty, Except.map, hint]
  refine hwidth.bind fun width width' hw => ?_
  subst hw
  exact Exec.refines_pure rfl

theorem heedless_target (callee : Callee) (args : List Value) :
    (w.target a frame callee args).Heedless := by
  have hmap : (args.mapM (w.eval a frame)).Heedless := by
    induction args with
    | nil => exact Exec.heedless_pure []
    | cons value rest ih =>
      rw [List.mapM_cons]
      exact (heedless_eval value).bind fun _ => ih.bind fun _ => Exec.heedless_pure _
  refine hmap.bind fun values => ?_
  cases callee with
  | direct id => exact Exec.heedless_pure _
  | indirect ptr =>
    refine (heedless_eval ptr).bind fun addr => ?_
    split
    · exact Exec.heedless_pure _
    · exact Exec.heedless_throw _

theorem Alike.performCall_refines (h : Alike w w' a a') (hagree : Agree size frame frame')
    {caller : Caller} {caller' : Nat → Caller}
    (hcaller : ∀ id args, Exec.Refines kept Eq (caller id args) fun n => caller' n id args)
    {callee : Callee} {args : List Value}
    (hvalues : ∀ value ∈ callee.operands args, value.Below size) :
    Exec.Refines kept Eq (w.performCall caller a frame callee args)
      fun n => w'.performCall (caller' n) a' frame' callee args := by
  simp only [performCall_eq, h.target_eq hagree hvalues]
  refine Exec.Refines.bind (heedless_target callee args).refines fun call call' hcall => ?_
  subst hcall
  exact hcaller call.1 call.2

/-- An instruction that both functions have does the same in both. -/
theorem Alike.step_refines (h : Alike w w' a a') (hkept : Exec.Keeps kept)
    (hagree : Agree size frame frame') {caller : Caller} {caller' : Nat → Caller}
    (hcaller : ∀ id args, Exec.Refines kept Eq (caller id args) fun n => caller' n id args)
    {i : InstId} {kind : InstKind} (hkind : a.function.kind i = .ok kind)
    (hkind' : a'.function.kind i = .ok kind)
    (hvalues : ∀ value ∈ kind.operands, value.Below size) :
    Exec.Refines kept Eq (w.step caller a frame i) fun n => w'.step (caller' n) a' frame' i := by
  have hop : ∀ {value}, value ∈ kind.operands → w'.eval a' frame' value = w.eval a frame value :=
    fun hvalue => h.eval_eq hagree (hvalues _ hvalue)
  simp only [step, hkind, hkind', Exec.ofChecked_ok, pure_bind]
  cases kind with
  | phi ty incoming =>
    rw [h.name]
    exact Exec.refines_stop _
  | landingPad => exact Exec.refines_pure rfl
  | icmp pred lhs rhs =>
    refine (h.widthOf_refines hkept lhs).bind fun width width' hwidth => ?_
    subst hwidth
    rw [hop (by simp [InstKind.operands]), hop (by simp [InstKind.operands])]
    refine Exec.Heedless.refines ((heedless_eval lhs).bind fun l => ?_)
    exact (heedless_eval rhs).bind fun r => Exec.heedless_pure _
  | binary op lhs rhs =>
    refine (h.widthOf_refines hkept (.inst i)).bind fun width width' hwidth => ?_
    subst hwidth
    rw [hop (by simp [InstKind.operands]), hop (by simp [InstKind.operands])]
    refine Exec.Heedless.refines ((heedless_eval lhs).bind fun l => ?_)
    exact (heedless_eval rhs).bind fun r => Exec.heedless_pure _
  | cast op value width =>
    refine (h.widthOf_refines hkept value).bind fun source source' hsource => ?_
    subst hsource
    rw [hop (by simp [InstKind.operands])]
    refine Exec.Heedless.refines ((heedless_eval value).bind fun bits => ?_)
    cases op <;> exact Exec.heedless_pure _
  | select cond onTrue onFalse =>
    dsimp only
    rw [hop (by simp [InstKind.operands]), hop (by simp [InstKind.operands]),
      hop (by simp [InstKind.operands])]
    refine Exec.Heedless.refines ((heedless_eval cond).bind fun c => ?_)
    split
    · exact heedless_eval onTrue
    · exact heedless_eval onFalse
  | load ty ptr =>
    dsimp only
    rw [hop (by simp [InstKind.operands])]
    refine Exec.Heedless.refines ((heedless_eval ptr).bind fun addr => ?_)
    refine (Exec.heedless_ask _).bind fun answer => (Exec.heedless_ofStop answer).bind fun raw => ?_
    cases ty <;> exact Exec.heedless_pure _
  | store value ptr =>
    dsimp only
    rw [hop (by simp [InstKind.operands]), hop (by simp [InstKind.operands])]
    have htype : Exec.Refines kept Eq (Exec.ofChecked (a.function.valueType value))
        fun _ => Exec.ofChecked (a'.function.valueType value) :=
      Exec.refines_ofChecked hkept fun ty hty => ⟨ty, h.types value ty hty, rfl⟩
    refine htype.bind fun ty ty' hty => ?_
    subst hty
    refine Exec.Heedless.refines ((heedless_eval value).bind fun bits => ?_)
    refine (heedless_eval ptr).bind fun addr => ?_
    exact (Exec.heedless_access _).bind fun _ => Exec.heedless_pure _
  | gep base offset =>
    refine (h.widthOf_refines hkept offset).bind fun width width' hwidth => ?_
    subst hwidth
    rw [hop (by simp [InstKind.operands]), hop (by simp [InstKind.operands])]
    refine Exec.Heedless.refines ((heedless_eval offset).bind fun distance => ?_)
    exact (heedless_eval base).bind fun addr => Exec.heedless_pure _
  | alloca bytes => exact (Exec.heedless_access _).refines
  | call callee args ret => exact h.performCall_refines hagree hcaller hvalues

/-- The blocks end alike, in blocks of other names. -/
def EndsAlike (size : Nat) (succs : List BlockId) (block block' : BlockId) :
    Outcome → Outcome → Prop
  | .result value, .result value' => value = value'
  | .jump c, .jump c' => Agree size c.frame c'.frame ∧ c.block = c'.block ∧ c.block ∈ succs ∧
    c.source = some block ∧ c'.source = some block'
  | _, _ => False

theorem Alike.runTerminator_refines (h : Alike w w' a a') (hkept : Exec.Keeps kept)
    (hagree : Agree size frame frame') {caller : Caller} {caller' : Nat → Caller}
    (hcaller : ∀ id args, Exec.Refines kept Eq (caller id args) fun n => caller' n id args)
    {block block' : BlockId} {term : Terminator}
    (hvalues : ∀ value ∈ term.operands, value.Below size) :
    Exec.Refines kept (EndsAlike size term.successors block block')
      (w.runTerminator caller a frame block term)
      fun n => w'.runTerminator (caller' n) a' frame' block' term := by
  have hop : ∀ {value}, value ∈ term.operands → w'.eval a' frame' value = w.eval a frame value :=
    fun hvalue => h.eval_eq hagree (hvalues _ hvalue)
  unfold runTerminator
  cases term with
  | ret value =>
    cases value with
    | none => exact Exec.refines_pure rfl
    | some value =>
      dsimp only
      rw [hop (by simp [Terminator.operands])]
      refine (heedless_eval value).refines.bind fun v v' hv => ?_
      subst hv
      exact Exec.refines_pure rfl
  | br target => exact Exec.refines_pure ⟨hagree, rfl, by simp [Terminator.successors], rfl, rfl⟩
  | condBr cond onTrue onFalse =>
    dsimp only
    rw [hop (by simp [Terminator.operands])]
    refine (heedless_eval cond).refines.bind fun v v' hv => ?_
    subst hv
    refine Exec.refines_pure ⟨hagree, rfl, ?_, rfl, rfl⟩
    dsimp only
    split <;> simp [Terminator.successors]
  | switch value default table =>
    dsimp only
    rw [hop (by simp [Terminator.operands])]
    refine (h.widthOf_refines hkept value).bind fun width width' hwidth => ?_
    subst hwidth
    refine (heedless_eval value).refines.bind fun v v' hv => ?_
    subst hv
    cases hfind : table.find? fun case => mask width case.1 == mask width v with
    | some case =>
      refine Exec.refines_pure ⟨hagree, rfl, List.mem_cons_of_mem _ ?_, rfl, rfl⟩
      exact List.mem_map.mpr ⟨case, List.mem_of_find?_eq_some hfind, rfl⟩
    | none => exact Exec.refines_pure ⟨hagree, rfl, by simp [Terminator.successors], rfl, rfl⟩
  | invoke callee args normal unwind =>
    refine (h.performCall_refines hagree hcaller hvalues).bind fun v v' hv => ?_
    exact Exec.refines_pure ⟨hagree, rfl, by simp [Terminator.successors], rfl, rfl⟩
  | resume value =>
    dsimp only
    rw [h.name]
    exact Exec.refines_stop _
  | unreachable =>
    dsimp only
    rw [h.name]
    exact Exec.refines_stop _

end World

/-! ## Functions and their rewritten forms -/

/-- What is left of a block: where, with which end, and the instructions. -/
structure Rest where
  block : BlockId
  term : Terminator
  insts : List InstId

/-- What is left of a block is found in another function: it ends as the block does, has the same
instruction in front, is at a place where code of its own stands for an instruction, or goes on in
another block. -/
inductive Covers (f f' : Function) (swap : InstId → Rest → Rest → Prop) (block : BlockId)
    (term : Terminator) : List InstId → Rest → Prop
  | done : Covers f f' swap block term [] ⟨block, term, []⟩
  | same {i : InstId} {insts insts' : List InstId} {b : BlockId} {t : Terminator} {kind : InstKind}
      (hkind : f.kind i = .ok kind) (hkind' : f'.kind i = .ok kind)
      (hvalues : ∀ value ∈ kind.operands, value.Below f.insts.size)
      (h : Covers f f' swap block term insts ⟨b, t, insts'⟩) :
    Covers f f' swap block term (i :: insts) ⟨b, t, i :: insts'⟩
  | swapped {i : InstId} {insts : List InstId} {start stop : Rest} (hswap : swap i start stop)
      (h : Covers f f' swap block term insts stop) : Covers f f' swap block term (i :: insts) start
  | jumped {insts : List InstId} {b target : BlockId} {blk' : Block}
      (hblock : f'.block target = .ok blk') (hphis : f'.phis target = .ok [])
      (h : Covers f f' swap block term insts ⟨target, blk'.term, blk'.insts⟩) :
    Covers f f' swap block term insts ⟨b, .br target, []⟩

/-- A phi has an entry for each edge into its block, and so has its new form, of the same value. -/
def PhiSim (f f' : Function) (rename : BlockId → BlockId) (b : BlockId) (phi : InstId) : Prop :=
  ∃ ty incoming incoming', f.kind phi = .ok (.phi ty incoming) ∧
    f'.kind phi = .ok (.phi ty incoming') ∧ ∀ source ∈ f.layout, f.Edge source b → ∃ value,
      (incoming.find? fun entry => entry.2 == source) = some (value, source) ∧
      (incoming'.find? fun entry => entry.2 == rename source) = some (value, rename source) ∧
      value.Below f.insts.size

/-- A live block and what it has become. Its end is now in the block that `rename` tells. -/
structure BlockSim (f f' : Function) (swap : InstId → Rest → Rest → Prop)
    (rename : BlockId → BlockId) (b : BlockId) (blk blk' : Block) (phis : List InstId) : Prop where
  block : f.block b = .ok blk
  block' : f'.block b = .ok blk'
  leading : f.phis b = .ok phis
  leading' : f'.phis b = .ok phis
  phi : ∀ phi ∈ phis, PhiSim f f' rename b phi
  covers : Covers f f' swap (rename b) blk.term (blk.insts.drop phis.length)
    ⟨b, blk'.term, blk'.insts.drop phis.length⟩
  values : ∀ value ∈ blk.term.operands, value.Below f.insts.size
  live : ∀ succ ∈ blk.term.successors, succ ∈ f.layout

/-- A function and its rewritten form, in which some code is swapped. -/
structure FunctionSim (f f' : Function) (swap : InstId → Rest → Rest → Prop)
    (rename : BlockId → BlockId) : Prop where
  name : f'.name = f.name
  types : ∀ value ty, f.valueType value = .ok ty → f'.valueType value = .ok ty
  entry : f'.entryBlock? = f.entryBlock?
  declared : f.entryBlock? = none → f'.ret = f.ret
  blocks : ∀ b ∈ f.layout, ∃ blk blk' phis, BlockSim f f' swap rename b blk blk' phis

namespace World

variable (w w' : World) (g g' : Guard) (kept : Stop → Prop)

/-- From one place the new function goes on as from another one with the value of an instruction
set, or is stopped like the instruction. -/
def Swaps (id : FuncId) (f f' : Function) (i : InstId) (start stop : Rest) : Prop :=
  ∀ n args frame frame' s, Agree f.insts.size frame frame' →
    match (do
      Exec.require (w.Permits g id ⟨f, args⟩ frame i)
      w.step (w.enterIf (w.runIf g n)) ⟨f, args⟩ frame i) s with
    | .ok value s₁ => ∃ frame₁, Agree f.insts.size (frame.insert i value) frame₁ ∧
      ∀ r, Exec.Yields (fun k => w'.restIf g' k id ⟨f', args⟩ stop.block stop.term stop.insts
          frame₁) s₁ r →
        Exec.Yields (fun k => w'.restIf g' k id ⟨f', args⟩ start.block start.term start.insts
          frame') s r
    | .error cause s₁ => kept cause →
      Exec.Yields (fun k => w'.restIf g' k id ⟨f', args⟩ start.block start.term start.insts
        frame') s (.error cause s₁)

/-- The second world is the first one with rewritten functions. -/
structure ModuleSim : Prop where
  globals : w'.globals = w.globals
  handlers : w'.handlers = w.handlers
  size : w'.module.functions.size = w.module.functions.size
  keeps : Exec.Keeps kept
  guards : ∀ id i values memory, g id i values memory → g' id i values memory
  functions : ∀ id f, w.module.function id = .ok f → ∃ f' rename,
    w'.module.function id = .ok f' ∧ FunctionSim f f' (w.Swaps w' g g' kept id f f') rename

variable {w w' g g' kept} {f f' : Function} {rename : BlockId → BlockId}

/-- Where the run of a function and that of its rewritten form have come. -/
structure CursorSim (f : Function) (rename : BlockId → BlockId) (c c' : Cursor) : Prop where
  block : c'.block = c.block
  live : c.block ∈ f.layout
  frame : Agree f.insts.size c.frame c'.frame
  source : c'.source = c.source.map rename
  edge : ∀ b ∈ c.source, b ∈ f.layout ∧ f.Edge b c.block

theorem phiValues_eq {a a' : Activation} (h : Alike w w' a a') {frame frame' : Frame}
    (hagree : Agree a.function.insts.size frame frame') {b source : BlockId}
    (hsource : source ∈ a.function.layout) (hedge : a.function.Edge source b) {phis : List InstId}
    (hphis : ∀ phi ∈ phis, PhiSim a.function a'.function rename b phi) :
    w'.phiValues a' frame' (rename source) phis = w.phiValues a frame source phis := by
  induction phis with
  | nil => rfl
  | cons phi rest ih =>
    obtain ⟨ty, incoming, incoming', hkind, hkind', hentries⟩ := hphis phi List.mem_cons_self
    obtain ⟨value, hfind, hfind', hvalue⟩ := hentries source hsource hedge
    have hrest := ih fun p hp => hphis p (List.mem_cons_of_mem _ hp)
    simp only [phiValues, hkind, hkind', Exec.ofChecked_ok, pure_bind, hfind, hfind',
      h.eval_eq hagree hvalue, hrest]

theorem enteredPhis_eq {a a' : Activation} (h : Alike w w' a a') {c c' : Cursor}
    (hc : CursorSim a.function rename c c') {phis : List InstId}
    (hphis : ∀ phi ∈ phis, PhiSim a.function a'.function rename c.block phi) :
    w'.enteredPhis a' c'.frame c'.source phis = w.enteredPhis a c.frame c.source phis := by
  rw [hc.source]
  cases hsource : c.source with
  | none => rfl
  | some source =>
    obtain ⟨hlive, hedge⟩ := hc.edge source hsource
    exact phiValues_eq h hc.frame hlive hedge hphis

theorem heedless_enteredPhis (a : Activation) (frame : Frame) (source : Option BlockId)
    (phis : List InstId) : (w.enteredPhis a frame source phis).Heedless := by
  cases source with
  | none => exact Exec.heedless_pure []
  | some source =>
    change (w.phiValues a frame source phis).Heedless
    induction phis with
    | nil => exact Exec.heedless_pure []
    | cons phi rest ih =>
      rw [phiValues]
      refine (Exec.heedless_ofChecked _).bind fun kind => ?_
      split
      · next ty incoming =>
        split
        · next entry _ =>
          refine (heedless_eval entry.1).bind fun value => ih.bind fun values => ?_
          exact Exec.heedless_pure _
        · exact Exec.heedless_throw _
      · exact ih

theorem ModuleSim.alike (h : ModuleSim w w' g g' kept) {swap : InstId → Rest → Rest → Prop}
    (hf : FunctionSim f f' swap rename) (args : List UInt64) : Alike w w' ⟨f, args⟩ ⟨f', args⟩ where
  globals := h.globals
  size := h.size
  args := rfl
  name := hf.name
  types := hf.types

/-- A run of some fuel of any function is simulated by that of its rewritten form. -/
def RunSimulated (w w' : World) (g g' : Guard) (kept : Stop → Prop) (n : Nat) : Prop :=
  ∀ id f f' rename args c c', w.module.function id = .ok f →
    FunctionSim f f' (w.Swaps w' g g' kept id f f') rename → CursorSim f rename c c' →
    Exec.Refines kept Eq (w.runIf g n id ⟨f, args⟩ c) fun k => w'.runIf g' k id ⟨f', args⟩ c'

/-- If the new function goes on from the second place as the old one does after an instruction, it goes
on from the first place as the old one does in front of it. -/
theorem Swaps.refines {id : FuncId} {i : InstId} {start stop : Rest}
    (hswap : w.Swaps w' g g' kept id f f' i start stop) (hkeeps : Exec.Keeps kept) {n : Nat}
    {args : List UInt64} {b : BlockId} {term : Terminator} {insts : List InstId}
    {frame frame' : Frame} (hagree : Agree f.insts.size frame frame')
    (hrest : ∀ {frame₀ : Frame} (frame₁ : Frame), Agree f.insts.size frame₀ frame₁ →
      Exec.Refines kept Eq (w.restIf g n id ⟨f, args⟩ b term insts frame₀)
        fun k => w'.restIf g' k id ⟨f', args⟩ stop.block stop.term stop.insts frame₁) :
    Exec.Refines kept Eq (w.restIf g n id ⟨f, args⟩ b term (i :: insts) frame)
      fun k => w'.restIf g' k id ⟨f', args⟩ start.block start.term start.insts frame' := by
  rw [Exec.refines_eq_iff]
  intro s r hr hkept
  have hassoc : w.restIf g n id ⟨f, args⟩ b term (i :: insts) frame = (do
      Exec.tick
      let value ← (do
        Exec.require (w.Permits g id ⟨f, args⟩ frame i)
        w.step (w.enterIf (w.runIf g n)) ⟨f, args⟩ frame i)
      w.restIf g n id ⟨f, args⟩ b term insts (frame.insert i value)) := by
    rw [restIf_cons]
    simp only [bind_assoc]
  rw [hassoc] at hr
  cases r with
  | error cause s' =>
    have hcause := hkept cause s' rfl
    obtain htick | ⟨⟨⟩, s₁, htick, hr⟩ := Exec.bind_eq_error.mp hr
    · exact absurd (Exec.tick_eq_error htick ▸ hcause) hkeeps.stepBudget
    obtain ⟨left, rfl⟩ := Exec.tick_eq_ok htick
    have hs := hswap n args frame frame' (s.withSteps left) hagree
    obtain hstep | ⟨value, s₂, hstep, hr⟩ := Exec.bind_eq_error.mp hr
    · rw [hstep] at hs
      exact hs hcause
    · rw [hstep] at hs
      obtain ⟨frame₁, hagree₁, hlead⟩ := hs
      exact hlead _ (Exec.refines_eq_iff.mp (hrest frame₁ hagree₁) s₂ _ hr hkept)
  | ok result s' =>
    obtain ⟨⟨⟩, s₁, htick, hr⟩ := Exec.bind_eq_ok.mp hr
    obtain ⟨left, rfl⟩ := Exec.tick_eq_ok htick
    have hs := hswap n args frame frame' (s.withSteps left) hagree
    obtain ⟨value, s₂, hstep, hr⟩ := Exec.bind_eq_ok.mp hr
    rw [hstep] at hs
    obtain ⟨frame₁, hagree₁, hlead⟩ := hs
    exact hlead _ (Exec.refines_eq_iff.mp (hrest frame₁ hagree₁) s₂ _ hr hkept)

section Run

variable (h : ModuleSim w w' g g' kept) {n : Nat} (ih : RunSimulated w w' g g' kept n)
include h ih

theorem enterIf_refines (id : FuncId) (args : List UInt64) :
    Exec.Refines kept Eq (w.enterIf (w.runIf g n) id args)
      fun k => w'.enterIf (w'.runIf g' k) id args := by
  unfold enterIf
  cases hid : w.module.function id with
  | error fault => exact Exec.refines_of_not_kept (h.keeps.fault fault)
  | ok f =>
    obtain ⟨f', rename, hid', hf⟩ := h.functions id f hid
    simp only [hid', Exec.ofChecked_ok, pure_bind, hf.entry]
    cases hentry : f.entryBlock? with
    | none =>
      have hdeclared : w'.callDeclared f' args = w.callDeclared f args := by
        simp only [callDeclared, h.handlers, hf.name, hf.declared hentry]
      simp only [hdeclared]
      exact (heedless_callDeclared f args).refines
    | some entry =>
      refine ih id f f' rename args _ _ hid hf ⟨rfl, ?_, fun _ _ => rfl, rfl, nofun⟩
      exact Function.mem_layout_of_entryBlock? hentry

theorem restIf_refines {id : FuncId} {args : List UInt64} {b : BlockId} {blk : Block}
    (hid : w.module.function id = .ok f)
    (hf : FunctionSim f f' (w.Swaps w' g g' kept id f f') rename) (hb : b ∈ f.layout)
    (hblk : f.block b = .ok blk) (hlive : ∀ succ ∈ blk.term.successors, succ ∈ f.layout)
    (hvalues : ∀ value ∈ blk.term.operands, value.Below f.insts.size) {insts : List InstId}
    {rest : Rest}
    (hcovers : Covers f f' (w.Swaps w' g g' kept id f f') (rename b) blk.term insts rest)
    {frame frame' : Frame} (hagree : Agree f.insts.size frame frame') :
    Exec.Refines kept Eq (w.restIf g n id ⟨f, args⟩ b blk.term insts frame)
      fun k => w'.restIf g' k id ⟨f', args⟩ rest.block rest.term rest.insts frame' := by
  have halike := h.alike hf args
  have hcaller := enterIf_refines h ih
  induction hcovers generalizing frame frame' with
  | done =>
    simp only [restIf_nil]
    refine (Exec.refines_tick h.keeps).bind fun _ _ _ => ?_
    refine (halike.runTerminator_refines h.keeps hagree hcaller hvalues).bind fun o o' ho => ?_
    cases o with
    | result value =>
      cases o' with
      | result value' =>
        obtain rfl : value = value' := ho
        exact Exec.refines_pure rfl
      | jump c' => cases ho
    | jump c =>
      cases o' with
      | result value' => cases ho
      | jump c' =>
        obtain ⟨hframe, hblock, hsucc, hsource, hsource'⟩ := ho
        refine ih id f f' rename args c c' hid hf ⟨hblock.symm, hlive _ hsucc, hframe, ?_, ?_⟩
        · rw [hsource, hsource']
          rfl
        · intro source hmem
          rw [hsource] at hmem
          obtain rfl := Option.some.inj hmem
          exact ⟨hb, blk.term.successors, by simp [Function.successors, hblk, Except.map], hsucc⟩
  | @same i insts insts' b' t' kind hkind hkind' hops _ ihrest =>
    simp only [restIf_cons]
    refine (Exec.refines_tick h.keeps).bind fun _ _ _ => ?_
    refine (Exec.refines_require h.keeps fun memory hpermits => ?_).bind fun _ _ _ => ?_
    · intro callee values ret arguments hcall hargs
      obtain rfl : kind = .call callee values ret := Except.ok.inj (hkind'.symm.trans hcall)
      apply h.guards
      refine hpermits callee values ret arguments hkind fun s => ?_
      have hops' : ∀ value ∈ values, value.Below f.insts.size := by
        intro value hvalue
        apply hops
        cases callee with
        | direct target => exact hvalue
        | indirect ptr => exact List.mem_cons_of_mem _ hvalue
      rw [← halike.mapM_eval_eq hagree hops']
      exact hargs s
    · refine (halike.step_refines h.keeps hagree hcaller hkind hkind' hops).bind fun v v' hv => ?_
      subst hv
      exact ihrest (hagree.insert i v)
  | @swapped i insts start stop hswap _ ihrest =>
    exact hswap.refines h.keeps hagree fun _ hagree₁ => ihrest hagree₁
  | @jumped insts b' target blk' hblock hphis _ ihrest =>
    rw [Exec.refines_eq_iff]
    intro s r hr hkept
    have hthere := Exec.refines_eq_iff.mp (ihrest hagree) s r hr hkept
    simp only [restIf_nil, runTerminator, pure_bind]
    refine (Exec.yields_tick s).bind (.of_succ ?_)
    simp only [runIf_succ, hblock, hphis, Exec.ofChecked_ok, pure_bind, enteredPhis, phiValues]
    exact hthere

end Run

variable (h : ModuleSim w w' g g' kept)
include h

theorem runIf_refines (n : Nat) : RunSimulated w w' g g' kept n := by
  induction n with
  | zero =>
    intro id f f' rename args c c' hid hf hc
    exact Exec.refines_of_not_kept h.keeps.stepBudget
  | succ n ih =>
    intro id f f' rename args c c' hid hf hc
    have halike := h.alike hf args
    obtain ⟨blk, blk', phis, hb⟩ := hf.blocks c.block hc.live
    rw [Exec.refines_eq_iff]
    intro s r hr hkept
    refine Exec.Yields.of_succ ?_
    simp only [runIf_succ, hc.block, hb.block', hb.leading', Exec.ofChecked_ok, pure_bind,
      enteredPhis_eq halike hc hb.phi]
    simp only [runIf_succ, hb.block, hb.leading, Exec.ofChecked_ok, pure_bind] at hr
    have hrefines : Exec.Refines kept Eq (do
        let entered ← w.enteredPhis ⟨f, args⟩ c.frame c.source phis
        w.restIf g n id ⟨f, args⟩ c.block blk.term (blk.insts.drop phis.length)
          (setAll c.frame entered)) fun k => (do
        let entered ← w.enteredPhis ⟨f, args⟩ c.frame c.source phis
        w'.restIf g' k id ⟨f', args⟩ c.block blk'.term (blk'.insts.drop phis.length)
          (setAll c'.frame entered)) := by
      refine (heedless_enteredPhis _ _ _ _).refines.bind fun entered entered' hentered => ?_
      subst hentered
      exact restIf_refines h ih hid hf hc.live hb.block hb.live hb.values hb.covers
        (hc.frame.setAll entered)
    exact Exec.refines_eq_iff.mp hrefines s r hr hkept

/-- With enough fuel and steps a call of the function ends in this way. -/
def CallYields (w : World) (g : Guard) (id : FuncId) (args : List UInt64) (s : Store)
    (r : EStateM.Result Stop Store UInt64) : Prop :=
  Exec.Yields (fun n => w.enterIf (w.runIf g n) id args) s r

/-- A call that ends in a way that is kept ends like this in the rewritten module too. -/
theorem callYields_of_eq {n : Nat} {id : FuncId} {args : List UInt64} {s : Store}
    {r : EStateM.Result Stop Store UInt64} (hr : w.enterIf (w.runIf g n) id args s = r)
    (hkept : ∀ cause s₁, r = .error cause s₁ → kept cause) : w'.CallYields g' id args s r :=
  Exec.refines_eq_iff.mp (enterIf_refines h (runIf_refines h n) id args) s r hr hkept

theorem CallYields.simulated {id : FuncId} {args : List UInt64} {s : Store}
    {r : EStateM.Result Stop Store UInt64} (hr : w.CallYields g id args s r)
    (hkept : ∀ cause s₁, r = .error cause s₁ → kept cause) : w'.CallYields g' id args s r := by
  obtain ⟨enough, cost, hr⟩ := hr
  have hrun := hr enough le_rfl 0
  have hyields := callYields_of_eq h hrun fun cause s₁ hcause => by
    cases r with
    | ok value s₂ => cases hcause
    | error cause' s₂ =>
      injection hcause with hcause
      exact hcause ▸ hkept cause' s₂ rfl
  cases r with
  | ok value s₂ => exact hyields
  | error cause s₂ => exact hyields

end World

end EdgeProbe
