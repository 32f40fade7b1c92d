import EdgeProbe.Proofs.Machine.Moment
import EdgeProbe.Proofs.Validity.Passes
import EdgeProbe.Proofs.Validity.WellFormed

/-!
# Accepted modules compute what they read

An activation follows a path from the entry of its function, and has executed all blocks on it that
it has left. So what lies on every path to where it is has been executed, which is what well-formed
functions ask of the instructions they read. One thing is beyond that: the phis of the entry have no
values until an edge leads there (`Function.Unentered`). Main statement: `Machine.call_malformed`.
-/

namespace EdgeProbe

namespace Function

/-- The instruction is a phi of the entry, into which no edge has led yet. -/
def Unentered (f : Function) (entered : List BlockId) (id : InstId) : Prop :=
  ∃ entry phis, f.entryBlock? = some entry ∧ entry ∉ entered ∧ f.phis entry = .ok phis ∧ id ∈ phis

/-- The instruction has a value, or cannot have one yet. -/
def Settled (f : Function) (entered : List BlockId) (frame : Frame) (id : InstId) : Prop :=
  id ∈ frame ∨ f.Unentered entered id

/-- All instructions of the block are settled. -/
def Done (f : Function) (entered : List BlockId) (frame : Frame) (b : BlockId) : Prop :=
  ∀ id pos, f.Listed id b pos → f.Settled entered frame id

/-- How an activation has come to a place: on a path whose blocks are done, but for what is still
to be executed. -/
def SoundAt (f : Function) (entered : List BlockId) : Whereabouts → Prop
  | .arriving ⟨frame, source, block⟩ =>
    match source with
    | none => f.entryBlock? = some block ∧ entered = []
    | some source => f.Edge source block ∧
      ∃ trail, f.PathTo source trail ∧ ∀ b ∈ trail, f.Done entered frame b
  | .within block insts frame =>
    ∃ trail, f.PathTo block (block :: trail) ∧ (∀ b ∈ trail, f.Done entered frame b) ∧
      ∃ blk phis before, f.block block = .ok blk ∧ f.phis block = .ok phis ∧
        blk.insts = before ++ insts ∧ phis.length ≤ before.length ∧
        ∀ id ∈ before, f.Settled entered frame id

variable {m : Module} {f : Function} {entered : List BlockId} {frame : Frame} {b : BlockId}
  {id : InstId}

theorem Settled.insert (h : f.Settled entered frame id) (i : InstId) (value : UInt64) :
    f.Settled entered (frame.insert i value) id := by
  obtain h | h := h
  · left
    simp [h]
  · exact .inr h

theorem Settled.unentered (h : f.Settled entered frame id) (hnone : frame[id]? = none) :
    f.Unentered entered id := by
  obtain h | h := h
  · simp [Std.HashMap.getElem?_eq_some_getElem h] at hnone
  · exact h

end Function

namespace World

variable {w : World} {a : Activation} {frame : Frame} {s s' : Store}

theorem mem_setAll {values : List (InstId × UInt64)} {id : InstId} :
    id ∈ setAll frame values ↔ id ∈ values.map (·.1) ∨ id ∈ frame := by
  induction values generalizing frame with
  | nil => simp [setAll]
  | cons entry rest ih =>
    have hstep : setAll frame (entry :: rest) = setAll (frame.insert entry.1 entry.2) rest := rfl
    rw [hstep, ih, List.map_cons, List.mem_cons, Std.HashMap.mem_insert, beq_iff_eq, eq_comm]
    tauto

/-- Each phi takes a value. -/
theorem phiValues_keys {source : BlockId} {phis : List InstId} {values : List (InstId × UInt64)}
    (hphis : ∀ id ∈ phis, ∃ ty incoming, a.function.kind id = .ok (.phi ty incoming))
    (h : w.phiValues a frame source phis s = .ok values s') : values.map (·.1) = phis := by
  induction phis generalizing values s s' with
  | nil =>
    injection h with hvalues
    subst hvalues
    rfl
  | cons phi rest ih =>
    obtain ⟨ty, incoming, hkind⟩ := hphis phi List.mem_cons_self
    rw [phiValues, hkind, Exec.ofChecked_ok, pure_bind] at h
    dsimp only at h
    cases hfind : incoming.find? fun entry => entry.2 == source with
    | none =>
      rw [hfind] at h
      cases h
    | some entry =>
      rw [hfind] at h
      obtain ⟨value, s₁, -, h⟩ := Exec.bind_eq_ok.mp h
      obtain ⟨values', s₂, hrest, h⟩ := Exec.bind_eq_ok.mp h
      injection h with hvalues
      subst hvalues
      rw [List.map_cons, ih (fun id hid => hphis id (List.mem_cons_of_mem _ hid)) hrest]

/-- An edge leads to a successor and sets nothing. -/
theorem runTerminator_eq_jump {caller : Caller} {block : BlockId} {term : Terminator} {c : Cursor}
    (h : w.runTerminator caller a frame block term s = .ok (.jump c) s') :
    c.frame = frame ∧ c.source = some block ∧ c.block ∈ term.successors := by
  unfold runTerminator at h
  cases term with
  | ret value =>
    cases value with
    | none => cases h
    | some value =>
      obtain ⟨v, s₁, -, h⟩ := Exec.bind_eq_ok.mp h
      cases h
  | br target =>
    injection h with hjump
    injection hjump with hc
    subst hc
    simp [Terminator.successors]
  | condBr cond onTrue onFalse =>
    obtain ⟨v, s₁, -, h⟩ := Exec.bind_eq_ok.mp h
    injection h with hjump
    injection hjump with hc
    subst hc
    refine ⟨rfl, rfl, ?_⟩
    dsimp only
    split <;> simp [Terminator.successors]
  | switch value default table =>
    obtain ⟨width, s₁, -, h⟩ := Exec.bind_eq_ok.mp h
    obtain ⟨v, s₂, -, h⟩ := Exec.bind_eq_ok.mp h
    dsimp only at h
    cases hfind : table.find? fun case => mask width case.1 == mask width v with
    | some case =>
      rw [hfind] at h
      injection h with hjump
      injection hjump with hc
      subst hc
      refine ⟨rfl, rfl, List.mem_cons_of_mem _ ?_⟩
      exact List.mem_map.mpr ⟨case, List.mem_of_find?_eq_some hfind, rfl⟩
    | none =>
      rw [hfind] at h
      injection h with hjump
      injection hjump with hc
      subst hc
      simp [Terminator.successors]
  | invoke callee args normal unwind =>
    obtain ⟨v, s₁, -, h⟩ := Exec.bind_eq_ok.mp h
    injection h with hjump
    injection hjump with hc
    subst hc
    simp [Terminator.successors]
  | resume value => cases h
  | unreachable => cases h

/-- The phi has no entry for the edge, or the entry for it has no value. -/
def PhiMisses (a : Activation) (frame : Frame) (source : BlockId) (trap : Trap) (phi : InstId) :
    Prop :=
  ∃ ty incoming, a.function.kind phi = .ok (.phi ty incoming) ∧
    ((∀ value, (value, source) ∉ incoming) ∨
      ∃ used, (.inst used, source) ∈ incoming ∧ frame[used]? = none ∧
        trap = .readTooEarly a.function.name used)

/-- What entering a block blames the module for lies with one of its phis. -/
theorem phiValues_eq_trap {source : BlockId} {phis : List InstId} {trap : Trap}
    (h : w.phiValues a frame source phis s = .error (.trap trap) s')
    (ht : trap.isMalformed = true) : ∃ phi ∈ phis, PhiMisses a frame source trap phi := by
  induction phis generalizing s with
  | nil => cases h
  | cons phi rest ih =>
    rw [phiValues] at h
    obtain ⟨kind, hkind, h⟩ := Exec.ofChecked_bind_eq_trap.mp h
    cases kind with
    | phi ty incoming =>
      dsimp only at h
      cases hfind : incoming.find? fun entry => entry.2 == source with
      | none =>
        refine ⟨phi, List.mem_cons_self, ty, incoming, hkind, .inl fun value hvalue => ?_⟩
        simpa using List.find?_eq_none.mp hfind (value, source) hvalue
      | some entry =>
        rw [hfind] at h
        have hmem := List.mem_of_find?_eq_some hfind
        obtain ⟨value, block⟩ := entry
        obtain rfl : block = source := by simpa using List.find?_some hfind
        obtain heval | ⟨v, s₁, -, h⟩ := Exec.bind_eq_error.mp h
        · obtain ⟨used, hused, hnone, rfl⟩ :=
            eval_blames (List.mem_singleton_self value) s trap s' heval ht
          obtain rfl := List.mem_singleton.mp hused
          exact ⟨phi, List.mem_cons_self, ty, incoming, hkind, .inr ⟨used, hmem, hnone, rfl⟩⟩
        · obtain hrest | ⟨values, s₂, -, h⟩ := Exec.bind_eq_error.mp h
          · obtain ⟨phi', hphi', hmiss⟩ := ih hrest
            exact ⟨phi', List.mem_cons_of_mem _ hphi', hmiss⟩
          · cases h
    | _ =>
      obtain ⟨phi', hphi', hmiss⟩ := ih h
      exact ⟨phi', List.mem_cons_of_mem _ hphi', hmiss⟩

end World

namespace Function

variable {w : World} {m : Module} {f : Function} {entered : List BlockId} {frame : Frame}
  {block : BlockId} {insts : List InstId} {id : InstId}

/-! ## What is read is settled -/

/-- At the end of the last block on a path that has been executed, what comes before is settled. -/
theorem settled_of_path {source : BlockId} {trail : List BlockId} (path : f.PathTo source trail)
    (hdone : ∀ b ∈ trail, f.Done entered frame b) (h : f.Precedes id source none) :
    f.Settled entered frame id := by
  obtain ⟨home, place, hlisted, hplace⟩ := h
  obtain ⟨rfl, -⟩ | ⟨-, hpath⟩ := hplace ⟨trail, path⟩
  · exact hdone home path.mem id place hlisted
  · exact hdone home (hpath trail path) id place hlisted

/-- What comes before a place in a block has been executed when that place is reached. -/
theorem settled_of_within {trail : List BlockId} {blk : Block} {before : List InstId}
    {pos : Option Nat} (path : f.PathTo block (block :: trail))
    (hdone : ∀ b ∈ trail, f.Done entered frame b) (hblk : f.block block = .ok blk)
    (hinsts : blk.insts = before ++ insts) (hbefore : ∀ id ∈ before, f.Settled entered frame id)
    (hpos : pos = some before.length ∨ pos = none ∧ insts = []) (h : f.Precedes id block pos) :
    f.Settled entered frame id := by
  obtain ⟨home, place, ⟨hlive, blk', hblk', hplace⟩, hpath⟩ := h
  obtain ⟨rfl, hlt⟩ | ⟨hne, hpath⟩ := hpath ⟨_, path⟩
  · obtain rfl : blk' = blk := Except.ok.inj (hblk'.symm.trans hblk)
    apply hbefore
    have hplt : place < before.length := by
      obtain rfl | ⟨rfl, rfl⟩ := hpos
      · exact hlt _ rfl
      · rw [hinsts, List.append_nil] at hplace
        exact (List.getElem?_eq_some_iff.mp hplace).1
    rw [hinsts, List.getElem?_append_left hplt] at hplace
    exact List.mem_of_getElem? hplace
  · have hmem := (List.mem_cons.mp (hpath _ path)).resolve_left hne
    exact hdone home hmem id place ⟨hlive, blk', hblk', hplace⟩

end Function

namespace World

variable {w : World} {moment next : Moment} {trap : Trap}

/-- The activation at a moment is of a function of the module, and has come there soundly. -/
structure SoundMoment (w : World) (moment : Moment) : Prop where
  known : w.module.function moment.id = .ok moment.activation.function
  body : moment.activation.function.isDeclaration = false
  place : moment.activation.function.SoundAt moment.entered moment.place

theorem SoundMoment.wellFormed (h : w.SoundMoment moment) (hm : w.module.Accepted) :
    moment.activation.function.WellFormed w.module :=
  hm.wellFormed h.known h.body

theorem SoundMoment.start {id : FuncId} {f : Function} {entry : BlockId} {args : List UInt64}
    {fuel : Nat} {s : Store} (hf : w.module.function id = .ok f)
    (hentry : f.entryBlock? = some entry) : w.SoundMoment (.start id f entry args fuel s) := by
  refine ⟨hf, ?_, hentry, rfl⟩
  rw [Function.entryBlock?, List.head?_eq_some_iff] at hentry
  obtain ⟨rest, hlayout⟩ := hentry
  simp [Moment.start, Function.isDeclaration, hlayout]

/-! ## Every moment of a run is sound -/

theorem SoundMoment.enter {id : FuncId} {a : Activation} {n : Nat} {es : List BlockId} {c : Cursor}
    {s s₁ : Store} {b : Block} {phis : List InstId} {values : List (InstId × UInt64)}
    (h : w.SoundMoment ⟨id, a, n + 1, es, .arriving c, s⟩)
    (hb : a.function.block c.block = .ok b) (hphis : a.function.phis c.block = .ok phis)
    (hvalues : w.enteredPhis a c.frame c.source phis s = .ok values s₁) :
    w.SoundMoment ⟨id, a, n + 1, c.entering es,
      .within c.block (b.insts.drop phis.length) (setAll c.frame values), s₁⟩ := by
  obtain ⟨frame, source, block⟩ := c
  obtain ⟨blk, hblk, hlead⟩ := Function.phis_eq_ok hphis
  obtain rfl : blk = b := Except.ok.inj (hblk.symm.trans hb)
  obtain ⟨back, hinsts, -, -⟩ := Function.leading_eq_ok hlead
  have hback : blk.insts = phis ++ blk.insts.drop phis.length := by simp [hinsts]
  refine ⟨h.known, h.body, ?_⟩
  have hplace := h.place
  cases source with
  | none =>
    obtain ⟨hentry, hes⟩ := hplace
    change es = [] at hes
    subst hes
    refine ⟨[], .entry hentry, by simp, blk, phis, phis, hblk, hphis, hback, le_rfl, ?_⟩
    exact fun i hi => .inr ⟨block, phis, hentry, by simp [Cursor.entering], hphis, hi⟩
  | some source =>
    obtain ⟨hedge, trail, path, hdone⟩ := hplace
    have hset : ∀ i ∈ phis, i ∈ setAll frame values := by
      intro i hi
      rw [mem_setAll, phiValues_keys (fun i hi => Function.kind_of_mem_phis hphis hi) hvalues]
      exact .inl hi
    refine ⟨trail, .step path hedge, fun b' hb' i pos hi => ?_, blk, phis, phis, hblk, hphis,
      hback, le_rfl, fun i hi => .inl (hset i hi)⟩
    obtain hframe | ⟨entry, entryPhis, hentry, hnew, hentryPhis, hmem⟩ := hdone b' hb' i pos hi
    · exact .inl (mem_setAll.mpr (.inr hframe))
    · by_cases hblock : entry = block
      · subst hblock
        obtain rfl : entryPhis = phis := Except.ok.inj (hentryPhis.symm.trans hphis)
        exact .inl (hset i hmem)
      · refine .inr ⟨entry, entryPhis, hentry, ?_, hentryPhis, hmem⟩
        simp only [Cursor.entering, Option.isSome_some, if_true]
        exact List.not_mem_cons_of_ne_of_not_mem hblock hnew

theorem Next.sound (h : w.Next moment next) (hs : w.SoundMoment moment) : w.SoundMoment next := by
  cases h with
  | enter hb hphis hvalues => exact hs.enter hb hphis hvalues
  | @execute id a n es block i insts frame s s₁ s₂ value htick hstep =>
    obtain ⟨trail, path, hdone, blk, phis, before, hblk, hphis, hinsts, hlen, hbefore⟩ := hs.place
    refine ⟨hs.known, hs.body, trail, path, fun b hb j pos hj => (hdone b hb j pos hj).insert i value,
      blk, phis, before ++ [i], hblk, hphis, by simp [hinsts], ?_, ?_⟩
    · rw [List.length_append]
      omega
    · intro j hj
      obtain hj | hj := List.mem_append.mp hj
      · exact (hbefore j hj).insert i value
      · obtain rfl := List.mem_singleton.mp hj
        exact .inl (by simp)
  | @jump id a n es block b frame s s₁ s₂ c hb htick hterm =>
    obtain ⟨trail, path, hdone, blk, phis, before, hblk, hphis, hinsts, hlen, hbefore⟩ := hs.place
    obtain rfl : blk = b := Except.ok.inj (hblk.symm.trans hb)
    obtain ⟨frame', source, target⟩ := c
    obtain ⟨rfl, rfl, hsucc⟩ := runTerminator_eq_jump hterm
    refine ⟨hs.known, hs.body, ⟨_, Function.successors_of_block hblk, hsucc⟩, block :: trail, path, ?_⟩
    refine List.forall_mem_cons.mpr ⟨?_, hdone⟩
    rintro i pos ⟨-, blk', hblk', hpos⟩
    obtain rfl : blk' = blk := Except.ok.inj (hblk'.symm.trans hblk)
    rw [hinsts, List.append_nil] at hpos
    exact hbefore i (List.mem_of_getElem? hpos)
  | call hkind htick htarget hf hentry => exact .start hf hentry
  | invoke hb hterm htick htarget hf hentry => exact .start hf hentry

theorem Occurs.sound {name : String} {args : List UInt64} {s : Store}
    (h : w.Occurs name args s moment) : w.SoundMoment moment := by
  obtain ⟨id, f, entry, -, hf, hentry, hreach⟩ := h
  induction hreach with
  | refl => exact .start hf hentry
  | tail _ hnext ih => exact hnext.sound ih

/-! ## What a sound moment raises -/

theorem target_blames {a : Activation} {frame : Frame} {callee : Callee} {args : List Value} :
    (w.target a frame callee args).BlamesOnly
      (Missing a.function.name frame (callee.operands args)) := by
  cases callee with
  | direct id =>
    refine Exec.BlamesOnly.bind ?_ fun values => Exec.blamesOnly_pure _
    exact Exec.blamesOnly_mapM fun value hvalue => eval_blames hvalue
  | indirect target =>
    refine Exec.BlamesOnly.bind ?_ fun values => ?_
    · exact Exec.blamesOnly_mapM fun value hvalue => eval_blames (List.mem_cons_of_mem _ hvalue)
    · refine (eval_blames List.mem_cons_self).bind fun addr => ?_
      cases w.functionAt? addr with
      | some id => exact Exec.blamesOnly_pure _
      | none => exact Exec.blamesOnly_stop nofun

/-- When a call traps whatever is called, the call itself is not made. -/
theorem target_eq_error {a : Activation} {frame : Frame} {callee : Callee} {args : List Value}
    {s s' : Store} {cause : Stop}
    (h : ∀ caller, w.performCall caller a frame callee args s = .error cause s') :
    w.target a frame callee args s = .error cause s' := by
  have h := h fun _ _ => pure 0
  rw [performCall_eq] at h
  obtain h | ⟨call, s₁, -, h⟩ := Exec.bind_eq_error.mp h
  · exact h
  · cases h

/-- A terminator that raises such a trap lacks a value that it reads. -/
theorem missing_of_terminator {a : Activation} {frame : Frame} {block : BlockId} {term : Terminator}
    {s s' : Store} (h : ∀ caller, w.runTerminator caller a frame block term s =
      .error (.trap trap) s') (ht : trap.isMalformed = true) :
    Missing a.function.name frame term.operands trap := by
  by_cases hinvoke : ∃ callee args normal unwind, term = .invoke callee args normal unwind
  · obtain ⟨callee, args, normal, unwind, rfl⟩ := hinvoke
    have hperform : ∀ caller, w.performCall caller a frame callee args s =
        .error (.trap trap) s' := by
      intro caller
      obtain hcall | ⟨v, s₁, -, hret⟩ := Exec.bind_eq_error.mp (h caller)
      · exact hcall
      · cases hret
    exact target_blames s trap s' (target_eq_error hperform) ht
  · exact runTerminator_blames (by simpa using hinvoke) s trap s' (h fun _ _ => pure 0) ht

/-- So does an instruction that is no phi. -/
theorem missing_of_step {a : Activation} {frame : Frame} {i : InstId} {kind : InstKind}
    {s s' : Store} (hkind : a.function.kind i = .ok kind) (hphi : kind.isPhi = false)
    (h : ∀ caller, w.step caller a frame i s = .error (.trap trap) s') (ht : trap.isMalformed = true) :
    Missing a.function.name frame kind.operands trap := by
  by_cases hcall : kind.isCall = true
  · cases kind with
    | call callee args ret =>
      have hperform : ∀ caller, w.performCall caller a frame callee args s =
          .error (.trap trap) s' := by
        intro caller
        rw [← h caller, step, hkind]
        rfl
      exact target_blames s trap s' (target_eq_error hperform) ht
    | _ => cases hcall
  · exact step_blames hkind hphi (by simpa using hcall) s trap s' (h fun _ _ => pure 0) ht

/-- In an accepted module the module is blamed only where a phi of the entry is read before an edge has
led there. -/
theorem SoundMoment.raises (hs : w.SoundMoment moment) (hm : w.module.Accepted)
    (h : w.Raises moment trap) (ht : trap.isMalformed = true) :
    ∃ phi, trap = .readTooEarly moment.activation.function.name phi ∧
      moment.activation.function.Unentered moment.entered phi := by
  obtain ⟨id, a, n, es, place, s⟩ := moment
  have hf := hs.wellFormed hm
  have hplace := hs.place
  change a.function.WellFormed w.module at hf
  cases place with
  | arriving c =>
    obtain ⟨frame, source, block⟩ := c
    obtain ⟨phis, s', hphis, h⟩ := h
    cases source with
    | none => cases h
    | some source =>
      obtain ⟨hedge, trail, path, hdone⟩ := hplace
      obtain ⟨phi, hphi, ty, incoming, hkind, hmiss⟩ := phiValues_eq_trap h ht
      obtain ⟨blk, hblk, hlead⟩ := Function.phis_eq_ok hphis
      obtain ⟨back, hinsts, -, -⟩ := Function.leading_eq_ok hlead
      obtain ⟨pos, hpos⟩ := List.mem_iff_getElem?.mp
        (hinsts ▸ List.mem_append_left back hphi : phi ∈ blk.insts)
      have hlive := hf.closed.mem_layout path
      have hlisted : a.function.Listed phi block pos :=
        ⟨hf.closed.toLive source hlive block hedge, blk, hblk, hpos⟩
      obtain ⟨value, hentry⟩ := hf.exists_entry hlisted hkind hlive hedge
      obtain hmissing | ⟨used, hused, hnone, rfl⟩ := hmiss
      · exact absurd hentry (hmissing value)
      · have hprec := hf.phiUses phi block pos ty incoming hlisted hkind used source hused
        have hsettled := Function.settled_of_path path hdone hprec
        exact ⟨used, rfl, hsettled.unentered hnone⟩
  | within block insts frame =>
    obtain ⟨trail, path, hdone, blk, phis, before, hblk, hphis, hinsts, hlen, hbefore⟩ := hplace
    have hlive := hf.closed.mem_layout path
    have hread : ∀ {values pos}, (pos = some before.length ∨ pos = none ∧ insts = []) →
        (∀ used, .inst used ∈ values → a.function.Precedes used block pos) →
        Missing a.function.name frame values trap →
        ∃ phi, trap = .readTooEarly a.function.name phi ∧ a.function.Unentered es phi := by
      intro values pos hpos hprec hmissing
      obtain ⟨used, hused, hnone, rfl⟩ := hmissing
      refine ⟨used, rfl, Function.Settled.unentered ?_ hnone⟩
      exact Function.settled_of_within path hdone hblk hinsts hbefore hpos (hprec used hused)
    cases insts with
    | nil =>
      obtain ⟨b, s₁, s₂, hb, -, h⟩ := h
      obtain rfl : blk = b := Except.ok.inj (hblk.symm.trans hb)
      exact hread (.inr ⟨rfl, rfl⟩) (hf.termUses block hlive blk hblk) (missing_of_terminator h ht)
    | cons i insts =>
      obtain ⟨s₁, s₂, -, h⟩ := h
      have hpos : blk.insts[before.length]? = some i := by simp [hinsts]
      have hlisted : a.function.Listed i block before.length := ⟨hlive, blk, hblk, hpos⟩
      cases hkind : a.function.kind i with
      | error fault =>
        have h := h fun _ _ => pure 0
        rw [step, hkind] at h
        cases h
      | ok kind =>
        have hphi : kind.isPhi = false := by
          cases kind with
          | phi ty incoming =>
            have := hf.pos_lt_of_phi hlisted hkind hphis
            omega
          | _ => rfl
        exact hread (.inl rfl) (hf.uses i block before.length kind hlisted hkind hphi)
          (missing_of_step hkind hphi h ht)

end World

namespace Machine

/-- A run of an accepted module does not trap because the module is malformed, except where an
activation reads a phi of the entry of its function before any of its edges has entered that. -/
theorem call_malformed {machine : Machine} (hm : machine.world.module.Accepted)
    (hw : machine.world.HandlersBlameless) {name : String} {args : List UInt64} {trap : Trap}
    (h : (machine.call name args).1 = .error (.trap trap)) (ht : trap.isMalformed = true) :
    ∃ moment phi, machine.world.Occurs name args machine.store moment ∧
      machine.world.Raises moment trap ∧
      trap = .readTooEarly moment.activation.function.name phi ∧
      moment.activation.function.Unentered moment.entered phi := by
  have hcall : ∃ s, machine.world.call name args machine.store = .error (.trap trap) s := by
    unfold call exec at h
    cases hrun : machine.world.call name args machine.store with
    | ok value s => simp [hrun] at h
    | error cause s =>
      obtain rfl : cause = .trap trap := by simpa [hrun] using h
      exact ⟨s, rfl⟩
  obtain ⟨s, hcall⟩ := hcall
  obtain ⟨moment, hoccurs, hraises⟩ := World.call_raises hw ht hcall
  obtain ⟨phi, htrap, hphi⟩ := hoccurs.sound.raises hm hraises ht
  exact ⟨moment, phi, hoccurs, hraises, htrap, hphi⟩

/-- A phi that no edge ever sets, in the entry of a function that returns it. -/
def orphan : Function :=
  .sole "orphan" [] .i32 (.phi .i32 [])

def orphans : Machine where
  world := { module := { name := "orphans", functions := #[orphan] }, globals := #[] }
  store := { memory := .empty, stepsLeft := 1 }

theorem orphans_accepted : orphans.world.module.Accepted := by
  refine Module.accepted_of_passes fun f hf _ => ?_
  obtain rfl := List.mem_singleton.mp hf
  refine Module.verifyFunction_sole (by decide) (by simp [InstKind.operands]) ?_
  rw [Module.checkInstShape]
  refine Check.passes_bind.mpr ⟨.phi .i32 [], rfl, ?_⟩
  refine Check.passes_guard_bind.mpr ⟨by decide, Check.passes_guard.mpr ?_⟩
  simp [BlockId.sort]

theorem orphans_call :
    (orphans.call "orphan" []).1 = .error (.trap (.readTooEarly "orphan" ⟨0⟩)) := by
  have hrun : orphans.world.run (1 + 1) ⟨orphan, []⟩ ⟨∅, none, ⟨0⟩⟩ orphans.store =
      .error (.trap (.readTooEarly "orphan" ⟨0⟩))
        { orphans.store with stepsLeft := 0 } := by
    have hblock : orphan.block ⟨0⟩ = .ok ⟨"entry", [⟨0⟩], .ret (some (.inst ⟨0⟩))⟩ := rfl
    have hphis : orphan.phis ⟨0⟩ = .ok [⟨0⟩] := rfl
    rw [World.run_succ, hblock, hphis]
    simp [World.enteredPhis, World.setAll, World.rest_nil, World.runTerminator, World.eval,
      orphan, Function.sole]
    rfl
  have hid : orphans.world.module.findFunction? "orphan" = some ⟨0⟩ := by
    simp [Module.findFunction?, orphans, orphan, Function.sole]
  have hcall : orphans.world.call "orphan" [] orphans.store =
      orphans.world.run (1 + 1) ⟨orphan, []⟩ ⟨∅, none, ⟨0⟩⟩ orphans.store := by
    rw [World.call, hid]
    rfl
  rw [call, exec, hcall, hrun]

theorem orphans_call_malformed : ∃ moment phi,
    orphans.world.Occurs "orphan" [] orphans.store moment ∧
      orphans.world.Raises moment (.readTooEarly "orphan" ⟨0⟩) ∧
      .readTooEarly "orphan" ⟨0⟩ = Trap.readTooEarly moment.activation.function.name phi ∧
      moment.activation.function.Unentered moment.entered phi :=
  call_malformed orphans_accepted (fun _ _ h => by cases h) orphans_call rfl

end Machine

end EdgeProbe
