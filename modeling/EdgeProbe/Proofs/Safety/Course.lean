import EdgeProbe.Pass
import EdgeProbe.Proofs.Outcome

/-!
# Computations that come to no fault

A computation that changes a state may fault, be refused or yield something. `Course.Safe` says of
one that it does not fault, and what there is if it is not refused: a state of which the same holds
as of the one it began with, and which follows on that. It goes along the steps of a computation,
and through its loops.
-/

namespace EdgeProbe

variable {σ ε α β : Type}

namespace Checked

/-- The computation does not fault, and yields something of which this holds. -/
def Yields (x : Checked α) (post : α → Prop) : Prop :=
  ∃ a, x = .ok a ∧ post a

theorem yields_pure {a : α} {post : α → Prop} (h : post a) : Yields (pure a) post :=
  ⟨a, rfl, h⟩

theorem Yields.bind {x : Checked α} {k : α → Checked β} {q : α → Prop} {post : β → Prop}
    (hx : Yields x q) (hk : ∀ a, q a → Yields (k a) post) : Yields (x >>= k) post := by
  obtain ⟨a, ha, hmid⟩ := hx
  obtain ⟨b, hb, hpost⟩ := hk a hmid
  exact ⟨b, bind_eq_ok.mpr ⟨a, ha, hb⟩, hpost⟩

/-- What follows a step goes on from its result. -/
theorem Yields.after {x : Checked α} {a : α} {k : α → Checked β} {post : β → Prop} (hx : x = .ok a)
    (hk : Yields (k a) post) : Yields (x >>= k) post := by
  obtain ⟨b, hb, hpost⟩ := hk
  exact ⟨b, bind_eq_ok.mpr ⟨a, hx, hb⟩, hpost⟩

theorem Yields.imp {x : Checked α} {post post' : α → Prop} (hx : Yields x post)
    (h : ∀ a, post a → post' a) : Yields x post' := by
  obtain ⟨a, ha, hpost⟩ := hx
  exact ⟨a, ha, h a hpost⟩

/-- Nothing is asked of what is yielded. -/
theorem Yields.some {x : Checked α} {post : α → Prop} (hx : Yields x post) :
    Yields x fun _ => True :=
  hx.imp fun _ _ => trivial

theorem Yields.mapM {g : α → Checked β} {q : β → Prop} {l : List α}
    (h : ∀ a ∈ l, Yields (g a) q) : Yields (l.mapM g) fun results => ∀ b ∈ results, q b := by
  induction l with
  | nil => exact ⟨[], rfl, by simp⟩
  | cons a rest ih =>
    obtain ⟨ha, hrest⟩ := List.forall_mem_cons.mp h
    rw [List.mapM_cons]
    refine ha.bind fun b hb => (ih hrest).bind fun bs hbs => yields_pure ?_
    exact List.forall_mem_cons.mpr ⟨hb, hbs⟩

/-- Nothing is asked of the results. -/
theorem Yields.each {g : α → Checked β} {l : List α} (h : ∀ a ∈ l, Yields (g a) fun _ => True) :
    Yields (l.mapM g) fun _ => True :=
  (Yields.mapM h).some

theorem Yields.filterM {p : α → Checked Bool} {l : List α} (h : ∀ a ∈ l, ∃ chosen, p a = .ok chosen) :
    Yields (l.filterM p) fun chosen => ∀ a ∈ chosen, a ∈ l ∧ p a = .ok true := by
  obtain ⟨chosen, hchosen⟩ := exists_filterM h
  exact ⟨chosen, hchosen, fun _ => mem_of_filterM hchosen⟩

theorem Yields.foldlM {g : β → α → Checked β} {l : List α} {b : β}
    (h : ∀ a ∈ l, ∀ b, Yields (g b a) fun _ => True) : Yields (l.foldlM g b) fun _ => True := by
  induction l generalizing b with
  | nil => exact yields_pure trivial
  | cons a rest ih =>
    obtain ⟨ha, hrest⟩ := List.forall_mem_cons.mp h
    rw [List.foldlM_cons]
    exact (ha b).bind fun _ _ => ih hrest

/-- The computation does not fault. What it yields, if it is not refused, is as said. -/
def Settles (x : ExceptT ε Checked α) (post : α → Prop) : Prop :=
  Yields x.run fun r => ∀ a, r = .ok a → post a

theorem settles_pure {a : α} {post : α → Prop} (h : post a) :
    Settles (pure a : ExceptT ε Checked α) post :=
  ⟨.ok a, rfl, fun _ heq => Except.ok.inj heq ▸ h⟩

theorem settles_throw (cause : ε) {post : α → Prop} :
    Settles (throw cause : ExceptT ε Checked α) post :=
  ⟨.error cause, rfl, by simp⟩

/-- What follows is asked to settle only where the first part has gone through. -/
theorem Settles.bind {x : ExceptT ε Checked α} {k : α → ExceptT ε Checked β} {q : α → Prop}
    {post : β → Prop} (hx : Settles x q)
    (hk : ∀ a, x.run = .ok (.ok a) → q a → Settles (k a) post) : Settles (x >>= k) post := by
  obtain ⟨r, hr, hmid⟩ := hx
  cases r with
  | error cause =>
    refine ⟨.error cause, ?_, by simp⟩
    rw [ExceptT.run_bind, hr]
    rfl
  | ok a =>
    obtain ⟨r', hr', hpost⟩ := hk a hr (hmid a rfl)
    refine ⟨r', ?_, hpost⟩
    rw [ExceptT.run_bind, hr]
    exact hr'

theorem settles_lift {x : Checked α} {post : α → Prop} (hx : Yields x post) :
    Settles (liftM x : ExceptT ε Checked α) post := by
  obtain ⟨a, rfl, hpost⟩ := hx
  exact ⟨.ok a, rfl, fun _ heq => Except.ok.inj heq ▸ hpost⟩

theorem Settles.after {x : Checked α} {a : α} {k : α → ExceptT ε Checked β} {post : β → Prop}
    (hx : x = .ok a) (hk : Settles (k a) post) :
    Settles ((liftM x : ExceptT ε Checked α) >>= k) post := by
  subst hx
  exact hk

theorem Settles.forM {g : α → ExceptT ε Checked Unit} {l : List α}
    (h : ∀ a ∈ l, Settles (g a) fun _ => True) : Settles (l.forM g) fun _ => True := by
  induction l with
  | nil => exact settles_pure trivial
  | cons a rest ih =>
    obtain ⟨ha, hrest⟩ := List.forall_mem_cons.mp h
    exact .bind ha fun _ _ _ => ih hrest

theorem Settles.foldlM {g : β → α → ExceptT ε Checked β} {l : List α} {b : β}
    (h : ∀ a ∈ l, ∀ b, Settles (g b a) fun _ => True) : Settles (l.foldlM g b) fun _ => True := by
  induction l generalizing b with
  | nil => exact settles_pure trivial
  | cons a rest ih =>
    obtain ⟨ha, hrest⟩ := List.forall_mem_cons.mp h
    rw [List.foldlM_cons]
    exact .bind (ha b) fun _ _ _ => ih hrest

end Checked

/-- What holds of each state, and how a later one stands to an earlier one. -/
structure Course (σ : Type) where
  holds : σ → Prop
  leads : σ → σ → Prop
  refl : ∀ s, leads s s
  trans : ∀ {s t u}, leads s t → leads t u → leads s u

namespace Course

variable {c : Course σ} {s : σ}

/-- The computation does not fault. What it yields, if it is not refused, is as said, and so is the
state it leaves. -/
def Safe (c : Course σ) (x : ExceptT ε (StateT σ Checked) α) (s : σ) (post : α → σ → Prop) : Prop :=
  ∃ r t, x s = .ok (r, t) ∧ ∀ a, r = .ok a → c.holds t ∧ c.leads s t ∧ post a t

theorem bind_of_ok {x : ExceptT ε (StateT σ Checked) α} {k : α → ExceptT ε (StateT σ Checked) β}
    {a : α} {t : σ} (h : x s = .ok (.ok a, t)) : (x >>= k) s = k a t := by
  change (x s >>= fun r => ExceptT.bindCont k r.1 r.2) = _
  rw [h]
  rfl

theorem bind_of_refused {x : ExceptT ε (StateT σ Checked) α}
    {k : α → ExceptT ε (StateT σ Checked) β} {cause : ε} {t : σ} (h : x s = .ok (.error cause, t)) :
    (x >>= k) s = .ok (.error cause, t) := by
  change (x s >>= fun r => ExceptT.bindCont k r.1 r.2) = _
  rw [h]
  rfl

theorem bind_of_fault {x : ExceptT ε (StateT σ Checked) α}
    {k : α → ExceptT ε (StateT σ Checked) β} {fault : Fault} (h : x s = .error fault) :
    (x >>= k) s = .error fault := by
  change (x s >>= fun r => ExceptT.bindCont k r.1 r.2) = _
  rw [h]
  rfl

theorem Safe.bind {x : ExceptT ε (StateT σ Checked) α} {k : α → ExceptT ε (StateT σ Checked) β}
    {q : α → σ → Prop} {post : β → σ → Prop} (hx : c.Safe x s q)
    (hk : ∀ a t, c.holds t → c.leads s t → q a t → c.Safe (k a) t post) :
    c.Safe (x >>= k) s post := by
  obtain ⟨r, t, hrun, hq⟩ := hx
  cases r with
  | error cause => exact ⟨.error cause, t, bind_of_refused hrun, by simp⟩
  | ok a =>
    obtain ⟨ht, hst, ha⟩ := hq a rfl
    obtain ⟨r, u, hrun', hpost⟩ := hk a t ht hst ha
    refine ⟨r, u, (bind_of_ok hrun).trans hrun', fun b hb => ?_⟩
    obtain ⟨hu, htu, hb⟩ := hpost b hb
    exact ⟨hu, c.trans hst htu, hb⟩

theorem Safe.imp {x : ExceptT ε (StateT σ Checked) α} {post post' : α → σ → Prop}
    (hx : c.Safe x s post) (h : ∀ a t, c.holds t → c.leads s t → post a t → post' a t) :
    c.Safe x s post' := by
  obtain ⟨r, t, hrun, hpost⟩ := hx
  refine ⟨r, t, hrun, fun a ha => ?_⟩
  obtain ⟨ht, hst, ha⟩ := hpost a ha
  exact ⟨ht, hst, h a t ht hst ha⟩

theorem safe_pure (hs : c.holds s) {a : α} {post : α → σ → Prop} (ha : post a s) :
    c.Safe (pure a : ExceptT ε (StateT σ Checked) α) s post :=
  ⟨.ok a, s, rfl, fun _ h => Except.ok.inj h ▸ ⟨hs, c.refl s, ha⟩⟩

/-- What is refused does not fault. -/
theorem safe_throw (cause : ε) {post : α → σ → Prop} :
    c.Safe (throw cause : ExceptT ε (StateT σ Checked) α) s post :=
  ⟨.error cause, s, rfl, by simp⟩

theorem safe_get (hs : c.holds s) : c.Safe (get : ExceptT ε (StateT σ Checked) σ) s fun t u =>
    t = s ∧ u = s :=
  ⟨.ok s, s, rfl, fun _ h => Except.ok.inj h ▸ ⟨hs, c.refl s, rfl, rfl⟩⟩

theorem safe_lift (hs : c.holds s) {x : Checked α} {a : α} (hx : x = .ok a) :
    c.Safe (liftM x : ExceptT ε (StateT σ Checked) α) s fun b t => b = a ∧ t = s := by
  subst hx
  exact ⟨.ok a, s, rfl, fun _ h => Except.ok.inj h ▸ ⟨hs, c.refl s, rfl, rfl⟩⟩

theorem Safe.forM {g : α → ExceptT ε (StateT σ Checked) Unit} {l : List α} (hs : c.holds s)
    (h : ∀ a ∈ l, ∀ t, c.holds t → c.leads s t → c.Safe (g a) t fun _ _ => True) :
    c.Safe (l.forM g) s fun _ _ => True := by
  induction l generalizing s with
  | nil => exact safe_pure hs trivial
  | cons a rest ih =>
    refine .bind (h a List.mem_cons_self s hs (c.refl s)) fun _ t ht hst _ => ?_
    exact ih ht fun b hb u hu htu => h b (List.mem_cons_of_mem _ hb) u hu (c.trans hst htu)

theorem Safe.foldlM {g : β → α → ExceptT ε (StateT σ Checked) β} {l : List α} {b : β}
    (hs : c.holds s)
    (h : ∀ a ∈ l, ∀ b t, c.holds t → c.leads s t → c.Safe (g b a) t fun _ _ => True) :
    c.Safe (l.foldlM g b) s fun _ _ => True := by
  induction l generalizing s b with
  | nil => exact safe_pure hs trivial
  | cons a rest ih =>
    rw [List.foldlM_cons]
    refine .bind (h a List.mem_cons_self b s hs (c.refl s)) fun _ t ht hst _ => ?_
    exact ih ht fun b hb d u hu htu => h b (List.mem_cons_of_mem _ hb) d u hu (c.trans hst htu)

/-- What is q of each result stays q while the others are found. -/
theorem Safe.mapM {g : α → ExceptT ε (StateT σ Checked) β} {q : β → σ → Prop} {l : List α}
    (hlasting : ∀ b t u, c.leads t u → q b t → q b u) (hs : c.holds s)
    (h : ∀ a ∈ l, ∀ t, c.holds t → c.leads s t → c.Safe (g a) t q) :
    c.Safe (l.mapM g) s fun results t => ∀ b ∈ results, q b t := by
  induction l generalizing s with
  | nil => exact safe_pure hs (by simp)
  | cons a rest ih =>
    rw [List.mapM_cons]
    refine .bind (h a List.mem_cons_self s hs (c.refl s)) fun b t ht hst hb => ?_
    refine .bind (ih ht fun a' ha' u hu htu =>
      h a' (List.mem_cons_of_mem _ ha') u hu (c.trans hst htu)) fun bs u hu htu hbs => ?_
    exact safe_pure hu (List.forall_mem_cons.mpr ⟨hlasting b t u htu hb, hbs⟩)

end Course

end EdgeProbe
