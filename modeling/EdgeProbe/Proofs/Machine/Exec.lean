import Mathlib.Logic.Relation
import EdgeProbe.Machine.Machine
import EdgeProbe.Proofs.Outcome

/-!
# Opening steps of a run

What steps of a run end in is read off their parts. `World.rest` is the part of a run that is left
when some instructions of a block are still to be executed; a run is what enters a block and goes on
with the rest of it (`World.run_succ`).
-/

namespace EdgeProbe

def Store.withSteps (s : Store) (steps : Nat) : Store :=
  { s with stepsLeft := steps }

@[simp] theorem Store.memory_withSteps (s : Store) (steps : Nat) :
    (s.withSteps steps).memory = s.memory :=
  rfl

@[simp] theorem Store.withSteps_withSteps (s : Store) (steps steps' : Nat) :
    (s.withSteps steps).withSteps steps' = s.withSteps steps' :=
  rfl

namespace Exec

variable {α β : Type} {s s' : Store} {cause : Stop}

theorem bind_eq_ok {x : Exec α} {k : α → Exec β} {b : β} :
    (x >>= k) s = .ok b s' ↔ ∃ a s₁, x s = .ok a s₁ ∧ k a s₁ = .ok b s' := by
  change EStateM.bind x k s = _ ↔ _
  unfold EStateM.bind
  cases x s with
  | ok a s₁ => simp
  | error cause s₁ => simp

theorem bind_eq_error {x : Exec α} {k : α → Exec β} :
    (x >>= k) s = .error cause s' ↔
      x s = .error cause s' ∨ ∃ a s₁, x s = .ok a s₁ ∧ k a s₁ = .error cause s' := by
  change EStateM.bind x k s = _ ↔ _
  unfold EStateM.bind
  cases x s with
  | ok a s₁ => simp
  | error cause s₁ => simp

@[simp] theorem pure_apply (a : α) : (pure a : Exec α) s = .ok a s :=
  rfl

@[simp] theorem throw_apply : (throw cause : Exec α) s = .error cause s :=
  rfl

@[simp] theorem stop_apply (trap : Trap) : (stop trap : Exec α) s = .error (.trap trap) s :=
  rfl

@[simp] theorem ofChecked_ok (a : α) : ofChecked (.ok a) = pure a :=
  rfl

theorem access_apply (work : Access α) :
    access work s =
      match work s.memory with
      | .ok a memory => .ok a { s with memory }
      | .error cause memory => .error cause { s with memory } := by
  cases s
  rfl

theorem ofChecked_eq_ok {x : Checked α} {a : α} :
    ofChecked x s = .ok a s' ↔ x = .ok a ∧ s' = s := by
  cases x with
  | ok b => simp [ofChecked, eq_comm]
  | error fault => simp [ofChecked]

theorem ofChecked_eq_error {x : Checked α} :
    ofChecked x s = .error cause s' ↔ ∃ fault, x = .error fault ∧ cause = .fault fault ∧ s' = s := by
  cases x with
  | ok b => simp [ofChecked]
  | error fault => simp [ofChecked, eq_comm]

@[simp] theorem ofChecked_ne_trap {x : Checked α} {trap : Trap} :
    ofChecked x s ≠ .error (.trap trap) s' := by
  simp [ofChecked_eq_error]

theorem ofChecked_bind_eq_ok {x : Checked α} {k : α → Exec β} {b : β} :
    (ofChecked x >>= k) s = .ok b s' ↔ ∃ a, x = .ok a ∧ k a s = .ok b s' := by
  cases x with
  | ok a => simp
  | error fault => simp [bind_eq_ok, ofChecked]

/-- A lookup does not trap, so what comes after it does. -/
theorem ofChecked_bind_eq_trap {x : Checked α} {k : α → Exec β} {trap : Trap} :
    (ofChecked x >>= k) s = .error (.trap trap) s' ↔
      ∃ a, x = .ok a ∧ k a s = .error (.trap trap) s' := by
  cases x with
  | ok a => simp
  | error fault => simp [bind_eq_error, ofChecked]

theorem tick_eq_ok {u : Unit} (h : tick s = .ok u s') : ∃ left, s' = s.withSteps left := by
  unfold tick at h
  split at h
  · cases h
  · next left _ =>
    injection h with _ hs
    exact ⟨left, hs.symm⟩

theorem tick_eq_error (h : tick s = .error cause s') : cause = .trap .stepBudget := by
  unfold tick at h
  split at h
  · injection h with hcause
    exact hcause.symm
  · cases h

end Exec

namespace World

variable (w : World)

/-- Executes what is left of a block and goes on from there. -/
def rest (fuel : Nat) (a : Activation) (block : BlockId) (term : Terminator) (insts : List InstId)
    (frame : Frame) : Exec UInt64 := do
  let frame ← w.runInsts (w.enter (w.run fuel)) a insts frame
  Exec.tick
  match ← w.runTerminator (w.enter (w.run fuel)) a frame block term with
  | .result value => return value
  | .jump next => w.run fuel a next

/-- The frame after values have been set. -/
def setAll (frame : Frame) (entries : List (InstId × UInt64)) : Frame :=
  entries.foldl (fun frame entry => frame.insert entry.1 entry.2) frame

theorem run_succ (fuel : Nat) (a : Activation) (c : Cursor) :
    w.run (fuel + 1) a c = (do
      let b ← Exec.ofChecked (a.function.block c.block)
      let phis ← Exec.ofChecked (a.function.phis c.block)
      let entered ← w.enteredPhis a c.frame c.source phis
      w.rest fuel a c.block b.term (b.insts.drop phis.length) (setAll c.frame entered)) := by
  obtain ⟨frame, source, block⟩ := c
  simp only [run, runBlock, setAll, bind_assoc]
  rfl

theorem rest_nil (fuel : Nat) (a : Activation) (block : BlockId) (term : Terminator)
    (frame : Frame) :
    w.rest fuel a block term [] frame = (do
      Exec.tick
      match ← w.runTerminator (w.enter (w.run fuel)) a frame block term with
      | .result value => return value
      | .jump next => w.run fuel a next) := by
  simp only [rest, runInsts, pure_bind]

theorem rest_cons (fuel : Nat) (a : Activation) (block : BlockId) (term : Terminator) (id : InstId)
    (insts : List InstId) (frame : Frame) :
    w.rest fuel a block term (id :: insts) frame = (do
      Exec.tick
      let value ← w.step (w.enter (w.run fuel)) a frame id
      w.rest fuel a block term insts (frame.insert id value)) := by
  simp only [rest, runInsts, bind_assoc]

variable {w} in
theorem call_of_found {name : String} {id : FuncId}
    (h : w.module.findFunction? name = some id) (args : List UInt64) (s : Store) :
    w.call name args s = w.enter (w.run (s.stepsLeft + 1)) id args s := by
  rw [call, h]
  rfl

end World

namespace Machine

/-- The machine with the code of another module that has the same globals. -/
def withModule (machine : Machine) (m' : Module) : Machine :=
  { machine with world := { machine.world with module := m' } }

theorem ofModule_withModule {m m' : Module} (h : m'.globals = m.globals) :
    ofModule m' = (ofModule m).map (·.withModule m') := by
  unfold ofModule
  rw [h]
  cases placeGlobals m.globals.toList #[] .empty <;> rfl

end Machine

end EdgeProbe

/-!
## Runs whose budget is large enough

What a run does apart from its budget. `Yields` says how a computation ends once it has enough fuel
and steps, of which it uses a fixed number. `Refines` says that one computation ends like another
one, with related values, whenever that ends in a value or is stopped in one of the ways that are
to be kept; both compose along binds.
-/

namespace EdgeProbe

namespace Exec

variable {α β γ δ : Type}

/-- A result, but for the steps that are left. -/
def withSteps (r : EStateM.Result Stop Store α) (steps : Nat) : EStateM.Result Stop Store α :=
  match r with
  | .ok a s => .ok a (s.withSteps steps)
  | .error cause s => .error cause (s.withSteps steps)

/-- With enough fuel and steps the computation ends in this way. -/
def Yields (y : Nat → Exec α) (s : Store) (r : EStateM.Result Stop Store α) : Prop :=
  ∃ enough cost, ∀ fuel, enough ≤ fuel → ∀ left,
    y fuel (s.withSteps (cost + left)) = withSteps r left

variable {x : Exec α} {y : Nat → Exec α} {k : Nat → α → Exec β} {s s₁ : Store}

theorem Yields.bind {a : α} {r : EStateM.Result Stop Store β} (hy : Yields y s (.ok a s₁))
    (hk : Yields (fun n => k n a) s₁ r) : Yields (fun n => y n >>= k n) s r := by
  obtain ⟨enough, cost, hy⟩ := hy
  obtain ⟨enough', cost', hk⟩ := hk
  refine ⟨max enough enough', cost + cost', fun fuel hfuel left => ?_⟩
  have hfirst := hy fuel (le_trans (le_max_left _ _) hfuel) (cost' + left)
  have hsecond := hk fuel (le_trans (le_max_right _ _) hfuel) left
  rw [← add_assoc] at hfirst
  change EStateM.bind (y fuel) (k fuel) _ = _
  rw [EStateM.bind, hfirst]
  exact hsecond

theorem Yields.bind_error {cause : Stop} (hy : Yields y s (.error cause s₁)) :
    Yields (fun n => y n >>= k n) s (.error cause s₁) := by
  obtain ⟨enough, cost, hy⟩ := hy
  refine ⟨enough, cost, fun fuel hfuel left => ?_⟩
  change EStateM.bind (y fuel) (k fuel) _ = _
  rw [EStateM.bind, hy fuel hfuel left]
  rfl

theorem yields_pure (a : α) (s : Store) : Yields (fun _ => pure a) s (.ok a s) :=
  ⟨0, 0, fun _ _ left => by simp [withSteps]⟩

theorem yields_throw (cause : Stop) (s : Store) :
    Yields (fun _ => (throw cause : Exec α)) s (.error cause s) :=
  ⟨0, 0, fun _ _ left => by simp [withSteps]⟩

theorem yields_tick (s : Store) : Yields (fun _ => tick) s (.ok () s) :=
  ⟨0, 1, fun _ _ left => by rw [add_comm]; rfl⟩

/-- What a computation yields with one unit of fuel less it yields. -/
theorem Yields.of_succ {r : EStateM.Result Stop Store α} (h : Yields (fun n => y (n + 1)) s r) :
    Yields y s r := by
  obtain ⟨enough, cost, h⟩ := h
  refine ⟨enough + 1, cost, fun fuel hfuel left => ?_⟩
  obtain ⟨n, rfl⟩ := Nat.exists_eq_add_of_le' (Nat.lt_of_lt_of_le (Nat.succ_pos enough) hfuel)
  exact h n (by omega) left

/-! ## Refinement -/

/-- Which ways to be stopped are kept: none for want of steps, and no fault. -/
structure Keeps (kept : Stop → Prop) : Prop where
  stepBudget : ¬kept (.trap .stepBudget)
  fault : ∀ fault, ¬kept (.fault fault)

/-- The second computation ends like the first, where that ends in a value or is stopped in a way
that is kept. -/
def Refines (kept : Stop → Prop) (related : α → β → Prop) (x : Exec α) (y : Nat → Exec β) : Prop :=
  ∀ s, match x s with
    | .ok a s₁ => ∃ b, related a b ∧ Yields y s (.ok b s₁)
    | .error cause s₁ => kept cause → Yields y s (.error cause s₁)

variable {kept : Stop → Prop} {related : α → β → Prop} {related' : γ → δ → Prop}

theorem Refines.bind {y : Nat → Exec β} {k : α → Exec γ} {l : Nat → β → Exec δ}
    (hx : Refines kept related x y)
    (hk : ∀ a b, related a b → Refines kept related' (k a) fun n => l n b) :
    Refines kept related' (x >>= k) fun n => y n >>= l n := by
  intro s
  have hs := hx s
  change match EStateM.bind x k s with | .ok .. => _ | .error .. => _
  unfold EStateM.bind
  cases hrun : x s with
  | error cause s₁ =>
    rw [hrun] at hs
    exact fun hkept => (hs hkept).bind_error
  | ok a s₁ =>
    rw [hrun] at hs
    obtain ⟨b, hab, hb⟩ := hs
    have hnext := hk a b hab s₁
    dsimp only
    cases hrest : k a s₁ with
    | ok c s₂ =>
      rw [hrest] at hnext
      obtain ⟨d, hcd, hd⟩ := hnext
      exact ⟨d, hcd, hb.bind hd⟩
    | error cause s₂ =>
      rw [hrest] at hnext
      exact fun hkept => hb.bind (hnext hkept)

theorem refines_eq_iff {y : Nat → Exec α} : Refines kept Eq x y ↔
    ∀ s r, x s = r → (∀ cause s₁, r = .error cause s₁ → kept cause) → Yields y s r := by
  constructor
  · rintro h s r rfl hkept
    have hs := h s
    cases hrun : x s with
    | ok a s₁ =>
      rw [hrun] at hs
      obtain ⟨b, rfl, hb⟩ := hs
      exact hb
    | error cause s₁ =>
      rw [hrun] at hs
      exact hs (hkept cause s₁ hrun)
  · intro h s
    cases hrun : x s with
    | ok a s₁ => exact ⟨a, rfl, h s _ hrun fun _ _ hne => by cases hne⟩
    | error cause s₁ =>
      intro hkept
      refine h s _ hrun fun cause' s' heq => ?_
      injection heq with hcause
      exact hcause ▸ hkept

theorem refines_pure {a : α} {b : β} (h : related a b) :
    Refines kept related (pure a) fun _ => pure b :=
  fun s => ⟨b, h, yields_pure b s⟩

theorem refines_stop (trap : Trap) :
    Refines kept related (stop trap) fun _ => stop trap :=
  fun s _ => yields_throw _ s

theorem refines_of_not_kept {cause : Stop} {y : Nat → Exec β} (h : ¬kept cause) :
    Refines kept related (throw cause) y :=
  fun _ hkept => absurd hkept h

theorem refines_tick (hkept : Keeps kept) : Refines kept Eq tick fun _ => tick := by
  intro s
  obtain ⟨memory, trace, stepsLeft⟩ := s
  cases stepsLeft with
  | zero => exact fun h => absurd h hkept.stepBudget
  | succ left => exact ⟨(), rfl, yields_tick _⟩

/-- A lookup that finds what the other one finds. -/
theorem refines_ofChecked (hkept : Keeps kept) {x : Checked α} {y : Checked β}
    (h : ∀ a, x = .ok a → ∃ b, y = .ok b ∧ related a b) :
    Refines kept related (ofChecked x) fun _ => ofChecked y := by
  cases x with
  | error fault => exact refines_of_not_kept (hkept.fault fault)
  | ok a =>
    obtain ⟨b, rfl, hab⟩ := h a rfl
    exact refines_pure hab

/-- The computation pays no heed to the steps that are left. -/
def Heedless (x : Exec α) : Prop :=
  ∀ s steps, x (s.withSteps steps) = withSteps (x s) steps

theorem Heedless.refines (h : Heedless x) : Refines kept Eq x fun _ => x := by
  intro s
  have hyields : Yields (fun _ => x) s (x s) := ⟨0, 0, fun _ _ left => by rw [Nat.zero_add]; exact h s left⟩
  cases hx : x s with
  | ok a s₁ => exact ⟨a, rfl, hx ▸ hyields⟩
  | error cause s₁ => exact fun _ => hx ▸ hyields

theorem heedless_ask (question : Memory → α) : Heedless (ask question) :=
  fun _ _ => rfl

theorem heedless_access (work : Access α) : Heedless (access work) := by
  intro s steps
  rw [access_apply, access_apply, Store.memory_withSteps]
  cases work s.memory <;> rfl

theorem heedless_report (id : UInt32) : Heedless (report id) :=
  fun _ _ => rfl

theorem heedless_ofTrap (x : Except Trap α) : Heedless (ofTrap x) := by
  cases x <;> exact fun _ _ => rfl

theorem heedless_ofStop (x : Except Stop α) : Heedless (ofStop x) := by
  cases x <;> exact fun _ _ => rfl

end Exec

end EdgeProbe
