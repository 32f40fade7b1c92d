import Mathlib.Tactic
import EdgeProbe.Validity.Shape

/-!
# Opening checked computations

A computation made of steps succeeds exactly when each step does. The lemmas here say so for
computations that stop at one kind of error and for `Check`, which stops at a fault or at a flaw,
and they give the loops over lists their meaning: every member passes.
-/

namespace EdgeProbe

variable {α β : Type}

namespace Checked

/-- What a computation stopped at, if it did. -/
def fault? : Checked α → Option Fault
  | .ok _ => none
  | .error fault => some fault

theorem eq_error_of_fault? {x : Checked α} {fault : Fault} (h : x.fault? = some fault) :
    x = .error fault := by
  cases x with
  | ok a => cases h
  | error fault' => rw [Option.some.inj h]

theorem map_eq_ok {ε : Type} {x : Except ε α} {f : α → β} {b : β} :
    Except.map f x = .ok b ↔ ∃ a, x = .ok a ∧ f a = b := by
  constructor
  · intro h
    cases x with
    | ok a => exact ⟨a, rfl, Except.ok.inj h⟩
    | error fault => cases h
  · rintro ⟨a, rfl, rfl⟩
    rfl

theorem mapM_eq_ok {ε : Type} {f : α → Except ε β} {l : List α} {ys : List β} :
    l.mapM f = .ok ys ↔ List.Forall₂ (fun x y => f x = .ok y) l ys := by
  induction l generalizing ys with
  | nil => rw [List.mapM_nil, pure_eq_ok, List.forall₂_nil_left_iff, eq_comm]
  | cons x rest ih =>
    rw [List.mapM_cons, bind_eq_ok, List.forall₂_cons_left_iff]
    constructor
    · rintro ⟨y, hy, h⟩
      obtain ⟨ys', hys, h⟩ := bind_eq_ok.mp h
      exact ⟨y, ys', hy, ih.mp hys, (pure_eq_ok.mp h).symm⟩
    · rintro ⟨y, ys', hy, hys, rfl⟩
      exact ⟨y, hy, bind_eq_ok.mpr ⟨ys', ih.mpr hys, rfl⟩⟩

theorem exists_mapM {ε : Type} {f : α → Except ε β} {l : List α} (h : ∀ x ∈ l, ∃ y, f x = .ok y) :
    ∃ ys, l.mapM f = .ok ys := by
  induction l with
  | nil => exact ⟨[], rfl⟩
  | cons x rest ih =>
    obtain ⟨⟨y, hy⟩, hrest⟩ := List.forall_mem_cons.mp h
    obtain ⟨ys, hys⟩ := ih hrest
    exact ⟨y :: ys, by rw [List.mapM_cons, hy, hys]; rfl⟩

/-- Each member has its result among the results. -/
theorem exists_result {ε : Type} {f : α → Except ε β} {l : List α} {ys : List β}
    (h : l.mapM f = .ok ys) {x : α} (hx : x ∈ l) : ∃ y ∈ ys, f x = .ok y := by
  rw [mapM_eq_ok] at h
  induction h with
  | nil => cases hx
  | @cons x' y rest ys' hy hys ih =>
    obtain rfl | hx := List.mem_cons.mp hx
    · exact ⟨y, List.mem_cons_self, hy⟩
    · obtain ⟨y', hy', hxy⟩ := ih hx
      exact ⟨y', List.mem_cons_of_mem _ hy', hxy⟩

/-- Each result is that of a member. -/
theorem exists_member {ε : Type} {f : α → Except ε β} {l : List α} {ys : List β}
    (h : l.mapM f = .ok ys) {y : β} (hy : y ∈ ys) : ∃ x ∈ l, f x = .ok y := by
  rw [mapM_eq_ok] at h
  induction h with
  | nil => cases hy
  | @cons x y' rest ys' hxy hys ih =>
    obtain rfl | hy := List.mem_cons.mp hy
    · exact ⟨x, List.mem_cons_self, hxy⟩
    · obtain ⟨x', hx', hxy'⟩ := ih hy
      exact ⟨x', List.mem_cons_of_mem _ hx', hxy'⟩

/-- A relation that holds along each step of a loop, and from step to step, holds along the loop. -/
theorem related_of_foldlM {ε : Type} {r : β → β → Prop} (hrefl : ∀ b, r b b)
    (htrans : ∀ {b b₁ b'}, r b b₁ → r b₁ b' → r b b') {step : β → α → Except ε β}
    (hstep : ∀ b a b', step b a = .ok b' → r b b') {l : List α} {b b' : β}
    (h : l.foldlM step b = .ok b') : r b b' := by
  induction l generalizing b with
  | nil =>
    obtain rfl := pure_eq_ok.mp h
    exact hrefl b
  | cons a rest ih =>
    rw [List.foldlM_cons] at h
    obtain ⟨b₁, hb₁, h⟩ := bind_eq_ok.mp h
    exact htrans (hstep b a b₁ hb₁) (ih h)

/-- What passes a filter is there and has what is asked. -/
theorem mem_of_filterM {ε α : Type} {p : α → Except ε Bool} {l ys : List α}
    (h : l.filterM p = .ok ys) {y : α} (hy : y ∈ ys) : y ∈ l ∧ p y = .ok true := by
  have haux : ∀ (l acc ys : List α), l.filterAuxM p acc = .ok ys → y ∈ ys →
      y ∈ acc ∨ y ∈ l ∧ p y = .ok true := by
    intro l
    induction l with
    | nil =>
      intro acc ys h hy
      obtain rfl := pure_eq_ok.mp h
      exact .inl hy
    | cons x rest ih =>
      intro acc ys h hy
      obtain ⟨chosen, hx, h⟩ := bind_eq_ok.mp h
      obtain hacc | ⟨hrest, hp⟩ := ih _ ys h hy
      · cases chosen with
        | false => exact .inl hacc
        | true =>
          obtain rfl | hacc := List.mem_cons.mp hacc
          · exact .inr ⟨List.mem_cons_self, hx⟩
          · exact .inl hacc
      · exact .inr ⟨List.mem_cons_of_mem _ hrest, hp⟩
  obtain ⟨zs, hzs, h⟩ := bind_eq_ok.mp h
  obtain rfl := pure_eq_ok.mp h
  exact (haux l [] zs hzs (List.mem_reverse.mp hy)).resolve_left List.not_mem_nil

/-- What a filter lets pass keeps its order, and all that has what is asked is there. -/
theorem filterM_eq_ok {ε α : Type} {p : α → Except ε Bool} {l ys : List α}
    (h : l.filterM p = .ok ys) : ys.Sublist l ∧ ∀ x ∈ l, p x = .ok true → x ∈ ys := by
  have haux : ∀ (l acc ys : List α), l.filterAuxM p acc = .ok ys →
      ∃ chosen, ys = chosen ++ acc ∧ chosen.reverse.Sublist l ∧
        ∀ x ∈ l, p x = .ok true → x ∈ chosen := by
    intro l
    induction l with
    | nil =>
      intro acc ys h
      obtain rfl := pure_eq_ok.mp h
      exact ⟨[], rfl, .slnil, by simp⟩
    | cons x rest ih =>
      intro acc ys h
      obtain ⟨passes, hx, h⟩ := bind_eq_ok.mp h
      obtain ⟨chosen, rfl, hsub, hmem⟩ := ih _ _ h
      cases passes with
      | false =>
        refine ⟨chosen, rfl, hsub.cons x, List.forall_mem_cons.mpr ⟨fun hp => ?_, hmem⟩⟩
        cases hx.symm.trans hp
      | true =>
        refine ⟨chosen ++ [x], by simp, by simpa using hsub.cons_cons x, ?_⟩
        refine List.forall_mem_cons.mpr ⟨fun _ => by simp, fun y hy hp => ?_⟩
        exact List.mem_append_left _ (hmem y hy hp)
  obtain ⟨zs, hzs, h⟩ := bind_eq_ok.mp h
  obtain rfl := pure_eq_ok.mp h
  obtain ⟨chosen, rfl, hsub, hmem⟩ := haux l [] zs hzs
  rw [List.append_nil]
  exact ⟨hsub, fun x hx hp => List.mem_reverse.mpr (hmem x hx hp)⟩

/-- All that a filter went through could be asked. -/
theorem exists_of_filterM {ε α : Type} {p : α → Except ε Bool} {l ys : List α}
    (h : l.filterM p = .ok ys) : ∀ x ∈ l, ∃ chosen, p x = .ok chosen := by
  have haux : ∀ (l acc ys : List α), l.filterAuxM p acc = .ok ys →
      ∀ x ∈ l, ∃ chosen, p x = .ok chosen := by
    intro l
    induction l with
    | nil => exact fun _ _ _ _ hx => absurd hx List.not_mem_nil
    | cons x rest ih =>
      intro acc ys h
      obtain ⟨chosen, hx, h⟩ := bind_eq_ok.mp h
      exact List.forall_mem_cons.mpr ⟨⟨chosen, hx⟩, ih _ _ h⟩
  obtain ⟨zs, hzs, -⟩ := bind_eq_ok.mp h
  exact haux l [] zs hzs

theorem exists_filterM {ε α : Type} {p : α → Except ε Bool} {l : List α}
    (h : ∀ x ∈ l, ∃ chosen, p x = .ok chosen) : ∃ ys, l.filterM p = .ok ys := by
  have haux : ∀ acc, ∃ ys, l.filterAuxM p acc = .ok ys := by
    induction l with
    | nil => exact fun acc => ⟨acc, rfl⟩
    | cons x rest ih =>
      intro acc
      obtain ⟨⟨chosen, hx⟩, hrest⟩ := List.forall_mem_cons.mp h
      obtain ⟨ys, hys⟩ := ih hrest (bif chosen then x :: acc else acc)
      exact ⟨ys, bind_eq_ok.mpr ⟨chosen, hx, hys⟩⟩
  obtain ⟨ys, hys⟩ := haux []
  exact ⟨ys.reverse, bind_eq_ok.mpr ⟨ys, hys, rfl⟩⟩

end Checked

namespace Check

/-- The check finds no flaw, and yields a value. -/
def Passes (x : Check α) (a : α) : Prop :=
  x.run = .ok (.ok a)

theorem passes_bind {x : Check α} {f : α → Check β} {b : β} :
    Passes (x >>= f) b ↔ ∃ a, Passes x a ∧ Passes (f a) b := by
  unfold Passes
  rw [ExceptT.run_bind, Checked.bind_eq_ok]
  constructor
  · rintro ⟨r, hr, hb⟩
    cases r with
    | ok a => exact ⟨a, hr, hb⟩
    | error flaw => cases hb
  · rintro ⟨a, ha, hb⟩
    exact ⟨.ok a, ha, hb⟩

@[simp] theorem passes_pure {a b : α} : Passes (pure a : Check α) b ↔ a = b := by
  rw [Passes, ExceptT.run_pure, Checked.pure_eq_ok, Except.ok.injEq]

@[simp] theorem not_passes_throw (flaw : Flaw) (a : α) :
    ¬Passes (throw flaw : Check α) a := by
  simp [Passes, ExceptT.run_throw, pure, Except.pure]

@[simp] theorem passes_lift {x : Checked α} {a : α} :
    Passes (liftM x : Check α) a ↔ x = .ok a := by
  cases x with
  | ok b => simp [Passes, liftM, monadLift, MonadLift.monadLift, ExceptT.lift, ExceptT.mk,
      ExceptT.run, Functor.map, Except.map]
  | error fault => simp [Passes, liftM, monadLift, MonadLift.monadLift, ExceptT.lift, ExceptT.mk,
      ExceptT.run, Functor.map, Except.map]

@[simp] theorem not_passes_throw_bind (flaw : Flaw) (k : α → Check β) (b : β) :
    ¬Passes (throw flaw >>= k) b := by
  rw [passes_bind]
  rintro ⟨a, ha, -⟩
  exact not_passes_throw flaw a ha

/-- A guard is passed when its condition does not hold. -/
theorem passes_guard {c : Prop} [Decidable c] {flaw : Flaw} {u : Unit} :
    Passes (if c then throw flaw else pure () : Check Unit) u ↔ ¬c := by
  split
  · next h => simp [h]
  · next h => simp [h]

theorem passes_guard_bind {c : Prop} [Decidable c] {flaw : Flaw} {k : Unit → Check β} {b : β} :
    Passes (if c then throw flaw >>= k else k ()) b ↔ ¬c ∧ Passes (k ()) b := by
  split
  · next h => simp [h]
  · next h => simp [h]

theorem passes_forM {l : List α} {g : α → Check Unit} :
    Passes (l.forM g) () ↔ ∀ x ∈ l, Passes (g x) () := by
  induction l with
  | nil => simp [List.forM]
  | cons x rest ih =>
    change Passes (g x >>= fun _ => rest.forM g) () ↔ _
    rw [passes_bind, List.forall_mem_cons]
    constructor
    · rintro ⟨u, hx, hrest⟩
      exact ⟨hx, ih.mp hrest⟩
    · rintro ⟨hx, hrest⟩
      exact ⟨(), hx, ih.mpr hrest⟩

/-- What holds at the start of a loop and is kept by each of its steps holds at its end; what each
step shows of its member is shown of all. -/
theorem passes_foldlM (inv : β → Prop) (shown : α → Prop) {g : β → α → Check β} {l : List α}
    {b b' : β} (h : Passes (l.foldlM g b) b')
    (hstep : ∀ x ∈ l, ∀ b b', inv b → Passes (g b x) b' → inv b' ∧ shown x) (hinv : inv b) :
    inv b' ∧ ∀ x ∈ l, shown x := by
  induction l generalizing b with
  | nil =>
    rw [List.foldlM_nil, passes_pure] at h
    exact ⟨h ▸ hinv, by simp⟩
  | cons x rest ih =>
    rw [List.foldlM_cons, passes_bind] at h
    obtain ⟨next, hx, hrest⟩ := h
    obtain ⟨hnext, hshown⟩ := hstep x List.mem_cons_self b next hinv hx
    obtain ⟨hend, hall⟩ := ih hrest (fun y hy => hstep y (List.mem_cons_of_mem _ hy)) hnext
    exact ⟨hend, List.forall_mem_cons.mpr ⟨hshown, hall⟩⟩

end Check

end EdgeProbe
