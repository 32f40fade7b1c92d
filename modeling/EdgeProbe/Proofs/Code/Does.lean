import EdgeProbe.Pass
import EdgeProbe.Proofs.Code.Changes

/-!
# What edits and passes do

An edit that is not refused takes a function to another one, and a pass a module. `Edit.Does` and
`Pass.Does` say so, and are opened along the steps that an edit or a pass is made of.
-/

namespace EdgeProbe

namespace Annotations

/-- Only the instruction that is changed may have tokens afterwards that it did not have. -/
theorem get_modify_ne {a : Annotations} {inst i : InstId} {change : List Token → List Token}
    (h : (a.modify inst change).get i ≠ []) : a.get i ≠ [] ∨ i = inst := by
  rw [get_modify] at h
  split at h
  · next heq => exact .inr heq
  · exact .inl h

theorem get_attach? {a a' : Annotations} {inst : InstId} {token : Token} {limits : Limits}
    (h : a.attach? inst token limits = some a') (i : InstId) (hi : a'.get i ≠ []) :
    a.get i ≠ [] ∨ i = inst := by
  unfold attach? at h
  dsimp only at h
  split at h
  · split at h
    · cases h
    · obtain rfl := Option.some.inj h
      exact get_modify_ne hi
  · obtain rfl := Option.some.inj h
    exact get_modify_ne hi

/-- Taking tokens from an instruction gives none to another one. -/
theorem get_take {a : Annotations} {inst i : InstId} {chosen : Token → Bool}
    (h : (a.take inst chosen).2.get i ≠ []) : a.get i ≠ [] := by
  unfold take at h
  split at h
  · rw [get_modify] at h
    split at h
    · next heq =>
      subst heq
      exact fun hnil => h (by rw [hnil]; rfl)
    · exact h
  · exact h

theorem get_moveOrigin {a : Annotations} {source target i : InstId} {origin : Origin}
    (h : (a.moveOrigin source target origin).get i ≠ []) : a.get i ≠ [] ∨ i = target := by
  unfold moveOrigin at h
  dsimp only at h
  split at h
  · exact .inl (get_take h)
  · exact (get_modify_ne h).imp_left get_take

/-- Moving tokens takes none from another instruction. -/
theorem mem_moveOrigin {a : Annotations} {source target i : InstId} {origin : Origin} {token : Token}
    (hne : i ≠ source) (h : token ∈ a.get i) : token ∈ (a.moveOrigin source target origin).get i := by
  have htake : (a.take source fun t => t.origin == origin).2.get i = a.get i := by
    unfold take
    split
    · rw [get_modify, if_neg hne]
    · rfl
  unfold moveOrigin
  dsimp only
  split
  · rwa [htake]
  · rw [get_modify]
    split
    · next heq =>
      subst heq
      exact List.mem_append_left _ (htake ▸ h)
    · rwa [htake]

end Annotations

variable {α β : Type}

namespace Edit

/-- The edit yields a value and leaves this function. -/
def Does (x : Edit α) (f : Function) (a : α) (f' : Function) : Prop :=
  x f = .ok (.ok a, f')

variable {f f' : Function}

theorem does_bind {x : Edit α} {k : α → Edit β} {b : β} :
    (x >>= k).Does f b f' ↔ ∃ a f₁, x.Does f a f₁ ∧ (k a).Does f₁ b f' := by
  change (x f >>= fun r => ExceptT.bindCont k r.1 r.2) = _ ↔ _
  rw [Checked.bind_eq_ok]
  constructor
  · rintro ⟨⟨r, f₁⟩, hx, hk⟩
    cases r with
    | ok a => exact ⟨a, f₁, hx, hk⟩
    | error fatal => cases hk
  · rintro ⟨a, f₁, hx, hk⟩
    exact ⟨(.ok a, f₁), hx, hk⟩

theorem does_pure {a b : α} : (pure a : Edit α).Does f b f' ↔ a = b ∧ f = f' := by
  change Except.ok (Except.ok a, f) = _ ↔ _
  simp

theorem not_does_throw {fatal : Fatal} {a : α} : ¬(throw fatal : Edit α).Does f a f' := by
  rintro ⟨⟩

theorem does_get {g : Function} : (get : Edit Function).Does f g f' ↔ f = g ∧ f = f' := by
  change Except.ok (Except.ok f, f) = _ ↔ _
  simp

theorem does_lift {x : Checked α} {a : α} :
    (liftM x : Edit α).Does f a f' ↔ x = .ok a ∧ f = f' := by
  cases x with
  | ok b =>
    change Except.ok (Except.ok b, f) = _ ↔ _
    simp
  | error fault =>
    change Except.error fault = _ ↔ _
    simp

theorem does_query {question : Function → Checked α} {a : α} :
    (query question).Does f a f' ↔ question f = .ok a ∧ f = f' := by
  rw [query, does_bind]
  constructor
  · rintro ⟨g, f₁, hget, h⟩
    obtain ⟨rfl, rfl⟩ := does_get.mp hget
    exact does_lift.mp h
  · rintro ⟨ha, rfl⟩
    exact ⟨f, f, does_get.mpr ⟨rfl, rfl⟩, does_lift.mpr ⟨ha, rfl⟩⟩

theorem does_apply {change : Function → Checked (Function × α)} {a : α} :
    (apply change).Does f a f' ↔ change f = .ok (f', a) := by
  change (change f >>= fun r => pure (Except.ok r.2, r.1)) = _ ↔ _
  rw [Checked.bind_eq_ok]
  constructor
  · rintro ⟨⟨f₁, b⟩, hb, h⟩
    obtain ⟨rfl, rfl⟩ : b = a ∧ f₁ = f' := by simpa using Checked.pure_eq_ok.mp h
    exact hb
  · intro h
    exact ⟨(f', a), h, rfl⟩

theorem does_update {change : Function → Checked Function} {u : Unit} :
    (update change).Does f u f' ↔ change f = .ok f' := by
  change (do let f₁ ← change f; return (Except.ok (), f₁)) = _ ↔ _
  rw [Checked.bind_eq_ok]
  constructor
  · rintro ⟨f₁, hf₁, h⟩
    obtain rfl : f₁ = f' := by simpa using Checked.pure_eq_ok.mp h
    exact hf₁
  · intro h
    exact ⟨f', h, rfl⟩

theorem does_setAnnotations {change : Annotations → Annotations} {u : Unit} :
    (setAnnotations change).Does f u f' ↔
      { f with annotations := change f.annotations } = f' := by
  change Except.ok (Except.ok (), { f with annotations := change f.annotations }) = _ ↔ _
  simp

theorem does_attach {id : InstId} {token : Token} {limits : Limits} {u : Unit}
    (h : (attach id token limits).Does f u f') :
    ∃ annotations, f' = { f with annotations } ∧
      ∀ i, annotations.get i ≠ [] → f.annotations.get i ≠ [] ∨ i = id := by
  unfold Does attach at h
  split at h
  · next annotations hattach =>
    have hf : { f with annotations } = f' := by simpa using Checked.pure_eq_ok.mp h
    exact ⟨annotations, hf.symm, fun i => Annotations.get_attach? hattach i⟩
  · cases h

/-- A token that is the only one of its class takes the place of the one that was there. -/
theorem does_attach_single {id : InstId} {token : Token} {limits : Limits} {u : Unit}
    (hsingle : token.origin.isMultiple = false) (h : (attach id token limits).Does f u f') :
    f' = { f with annotations := f.annotations.modify id fun tokens =>
      (tokens.filter fun t => !(t.origin.tagClass == token.origin.tagClass && t.slot.isNone)) ++
        [{ token with slot := none }] } := by
  have hattach := h
  simp only [Does, attach, Annotations.attach?, hsingle, Bool.false_eq_true, if_false] at hattach
  exact (Prod.mk.inj (Except.ok.inj hattach)).2.symm

theorem does_forM {g : α → Edit Unit} {a : α} {rest : List α} {u : Unit} :
    ((a :: rest).forM g).Does f u f' ↔ ∃ f₁, (g a).Does f () f₁ ∧ (rest.forM g).Does f₁ u f' := by
  change (g a >>= fun _ => rest.forM g).Does f u f' ↔ _
  rw [does_bind]
  constructor
  · rintro ⟨_, f₁, h⟩
    exact ⟨f₁, h⟩
  · rintro ⟨f₁, h⟩
    exact ⟨(), f₁, h⟩

/-- What holds before a loop and is kept by each of its steps holds after it. -/
theorem Does.forM (inv : Function → Prop) {g : α → Edit Unit} {l : List α} {u : Unit}
    (h : (l.forM g).Does f u f')
    (hstep : ∀ a ∈ l, ∀ f f', inv f → (g a).Does f () f' → inv f') (hinv : inv f) : inv f' := by
  induction l generalizing f with
  | nil =>
    obtain ⟨-, rfl⟩ := does_pure.mp h
    exact hinv
  | cons a rest ih =>
    obtain ⟨f₁, ha, hrest⟩ := does_forM.mp h
    exact ih hrest (fun b hb => hstep b (List.mem_cons_of_mem _ hb))
      (hstep a List.mem_cons_self f f₁ hinv ha)

/-- Steps that a list lists, in turn. -/
inductive InTurn (step : α → Function → Function → Prop) : List α → Function → Function → Prop
  | nil {f : Function} : InTurn step [] f f
  | cons {a : α} {rest : List α} {f f₁ f' : Function} (h : step a f f₁)
    (hrest : InTurn step rest f₁ f') : InTurn step (a :: rest) f f'

/-- What holds at first and is kept by each step holds in the end. -/
theorem InTurn.keeps {step : α → Function → Function → Prop} (inv : Function → Prop) {l : List α}
    (h : InTurn step l f f') (hstep : ∀ a ∈ l, ∀ f f', inv f → step a f f' → inv f')
    (hinv : inv f) : inv f' := by
  induction h with
  | nil => exact hinv
  | cons hfirst _ ih =>
    exact ih (fun a ha => hstep a (List.mem_cons_of_mem _ ha))
      (hstep _ List.mem_cons_self _ _ hinv hfirst)

/-- A loop takes steps in turn. -/
theorem Does.inTurn {g : α → Edit Unit} {l : List α} {u : Unit} (h : (l.forM g).Does f u f') :
    InTurn (fun a f f' => (g a).Does f () f') l f f' := by
  induction l generalizing f with
  | nil =>
    obtain ⟨-, rfl⟩ := does_pure.mp h
    exact .nil
  | cons a rest ih =>
    obtain ⟨f₁, ha, hrest⟩ := does_forM.mp h
    exact .cons ha (ih hrest)

/-- Steps can be told in other words as long as what those rest on is kept. -/
theorem InTurn.imp {step step' : α → Function → Function → Prop} (inv : List α → Function → Prop)
    {l : List α} (h : InTurn step l f f')
    (hstep : ∀ a rest f f', inv (a :: rest) f → step a f f' → step' a f f' ∧ inv rest f')
    (hinv : inv l f) : InTurn step' l f f' ∧ inv [] f' := by
  induction h with
  | nil => exact ⟨.nil, hinv⟩
  | cons hfirst _ ih =>
    obtain ⟨hfirst', hinv₁⟩ := hstep _ _ _ _ hinv hfirst
    obtain ⟨hrest', hinv'⟩ := ih hinv₁
    exact ⟨.cons hfirst' hrest', hinv'⟩

/-- What is known of the steps that are still to come becomes, step by step, what is known in the
end. -/
theorem Does.forM_rest (inv : List α → Function → Prop) {g : α → Edit Unit} {l : List α} {u : Unit}
    (h : (l.forM g).Does f u f')
    (hstep : ∀ a rest f f', inv (a :: rest) f → (g a).Does f () f' → inv rest f')
    (hinv : inv l f) : inv [] f' :=
  (h.inTurn.imp inv (fun a rest f f' hinv hdoes => ⟨hdoes, hstep a rest f f' hinv hdoes⟩) hinv).2

/-- What an edit does is determined. -/
theorem Does.unique {x : Edit α} {a a' : α} {f₁ : Function} (h : x.Does f a f')
    (h' : x.Does f a' f₁) : a = a' ∧ f' = f₁ := by
  obtain ⟨hresult, hfunction⟩ := Prod.mk.inj (Except.ok.inj (h.symm.trans h'))
  exact ⟨Except.ok.inj hresult, hfunction⟩

/-- What holds before a loop and is kept by each of its steps holds after it. -/
theorem Does.foldlM (inv : Function → Prop) {g : β → α → Edit β} {l : List α} {b b' : β}
    (h : (l.foldlM g b).Does f b' f')
    (hstep : ∀ a ∈ l, ∀ b b' f f', inv f → (g b a).Does f b' f' → inv f') (hinv : inv f) :
    inv f' := by
  induction l generalizing b f with
  | nil =>
    obtain ⟨-, rfl⟩ := does_pure.mp h
    exact hinv
  | cons a rest ih =>
    rw [List.foldlM_cons] at h
    obtain ⟨b₁, f₁, hg, hrest⟩ := does_bind.mp h
    exact ih hrest (fun a ha => hstep a (List.mem_cons_of_mem _ ha))
      (hstep a List.mem_cons_self b b₁ f f₁ hinv hg)

/-- What is known of the steps that are still to come and of the value so far becomes, step by step,
what is known in the end. -/
theorem Does.foldlM_along (inv : List α → β → Function → Prop) {g : β → α → Edit β} {l : List α}
    {b b' : β} (h : (l.foldlM g b).Does f b' f')
    (hstep : ∀ a rest b b' f f', inv (a :: rest) b f → (g b a).Does f b' f' → inv rest b' f')
    (hinv : inv l b f) : inv [] b' f' := by
  induction l generalizing b f with
  | nil =>
    obtain ⟨rfl, rfl⟩ := does_pure.mp h
    exact hinv
  | cons a rest ih =>
    rw [List.foldlM_cons] at h
    obtain ⟨b₁, f₁, hg, hrest⟩ := does_bind.mp h
    exact ih hrest (hstep a rest b b₁ f f₁ hinv hg)

/-- A loop comes to its end if each of its steps does where that invariant holds. -/
theorem exists_foldlM (inv : Function → Prop) {g : β → α → Edit β} {l : List α} (b : β)
    (hstep : ∀ a ∈ l, ∀ b f, inv f → ∃ b' f', (g b a).Does f b' f' ∧ inv f') (hinv : inv f) :
    ∃ b' f', (l.foldlM g b).Does f b' f' ∧ inv f' := by
  induction l generalizing b f with
  | nil => exact ⟨b, f, does_pure.mpr ⟨rfl, rfl⟩, hinv⟩
  | cons a rest ih =>
    obtain ⟨b₁, f₁, hg, hinv₁⟩ := hstep a List.mem_cons_self b f hinv
    obtain ⟨b', f', hrest, hinv'⟩ :=
      ih b₁ (fun a ha => hstep a (List.mem_cons_of_mem _ ha)) hinv₁
    refine ⟨b', f', ?_, hinv'⟩
    rw [List.foldlM_cons]
    exact does_bind.mpr ⟨b₁, f₁, hg, hrest⟩

end Edit

namespace Pass

/-- The pass yields a value and leaves this state. -/
def Does (x : Pass α) (s : PassState) (a : α) (s' : PassState) : Prop :=
  x s = .ok (.ok a, s')

variable {s s' : PassState}

theorem does_bind {x : Pass α} {k : α → Pass β} {b : β} :
    (x >>= k).Does s b s' ↔ ∃ a s₁, x.Does s a s₁ ∧ (k a).Does s₁ b s' := by
  change (x s >>= fun r => ExceptT.bindCont k r.1 r.2) = _ ↔ _
  rw [Checked.bind_eq_ok]
  constructor
  · rintro ⟨⟨r, s₁⟩, hx, hk⟩
    cases r with
    | ok a => exact ⟨a, s₁, hx, hk⟩
    | error fatal => cases hk
  · rintro ⟨a, s₁, hx, hk⟩
    exact ⟨(.ok a, s₁), hx, hk⟩

theorem does_pure {a b : α} : (pure a : Pass α).Does s b s' ↔ a = b ∧ s = s' := by
  change Except.ok (Except.ok a, s) = _ ↔ _
  simp

theorem not_does_throw {fatal : Fatal} {a : α} : ¬(throw fatal : Pass α).Does s a s' := by
  rintro ⟨⟩

theorem does_get {r : PassState} : (get : Pass PassState).Does s r s' ↔ s = r ∧ s = s' := by
  change Except.ok (Except.ok s, s) = _ ↔ _
  simp

theorem does_lift {x : Checked α} {a : α} :
    (liftM x : Pass α).Does s a s' ↔ x = .ok a ∧ s = s' := by
  cases x with
  | ok b =>
    change Except.ok (Except.ok b, s) = _ ↔ _
    simp
  | error fault =>
    change Except.error fault = _ ↔ _
    simp

theorem does_query {question : Module → Checked α} {a : α} :
    (query question).Does s a s' ↔ question s.module = .ok a ∧ s = s' := by
  rw [query, does_bind]
  constructor
  · rintro ⟨r, s₁, hget, h⟩
    obtain ⟨rfl, rfl⟩ := does_get.mp hget
    exact does_lift.mp h
  · rintro ⟨ha, rfl⟩
    exact ⟨s, s, does_get.mpr ⟨rfl, rfl⟩, does_lift.mpr ⟨ha, rfl⟩⟩

theorem does_functionIds {ids : List FuncId} :
    functionIds.Does s ids s' ↔ s.module.functionIds = ids ∧ s = s' := by
  change Except.ok (Except.ok s.module.functionIds, s) = _ ↔ _
  simp

theorem module_of_report {record : Log.Record} {u : Unit} (h : (report record).Does s u s') :
    s'.module = s.module := by
  have hs : Except.ok (Except.ok (), { s with log := record :: s.log }) =
      (Except.ok (Except.ok u, s') : Checked (Except Fatal Unit × PassState)) := h
  obtain rfl : { s with log := record :: s.log } = s' := by simpa using hs
  rfl

theorem does_inFunction {id : FuncId} {edit : Edit α} {a : α} :
    (inFunction id edit).Does s a s' ↔ ∃ f f', s.module.function id = .ok f ∧ edit.Does f a f' ∧
      { s with module := s.module.setFunction id f' } = s' := by
  change (s.module.function id >>= fun f => edit f >>= fun r =>
    pure (r.1, { s with module := s.module.setFunction id r.2 })) = _ ↔ _
  rw [Checked.bind_eq_ok]
  constructor
  · rintro ⟨f, hf, h⟩
    obtain ⟨⟨r, f'⟩, hedit, h⟩ := Checked.bind_eq_ok.mp h
    obtain ⟨rfl, hs⟩ : r = .ok a ∧ { s with module := s.module.setFunction id f' } = s' := by
      simpa using Checked.pure_eq_ok.mp h
    exact ⟨f, f', hf, hedit, hs⟩
  · rintro ⟨f, f', hf, hedit, rfl⟩
    refine ⟨f, hf, Checked.bind_eq_ok.mpr ⟨(.ok a, f'), hedit, rfl⟩⟩

/-- An edit of a function of a module of which only that function has changed. -/
theorem inFunction_setFunction {m : Module} {id : FuncId} {f : Function} {edit : Edit α} {a : α}
    (hid : id.index < m.functions.size) (hs : s.module = m.setFunction id f)
    (hdoes : (inFunction id edit).Does s a s') :
    ∃ f', edit.Does f a f' ∧ s'.module = m.setFunction id f' := by
  obtain ⟨f₁, f', hf₁, hedit, rfl⟩ := does_inFunction.mp hdoes
  rw [hs, Module.function_setFunction hid, if_pos rfl] at hf₁
  obtain rfl := Except.ok.inj hf₁
  refine ⟨f', hedit, ?_⟩
  dsimp only
  rw [hs, Module.setFunction_setFunction]

theorem does_forM {g : α → Pass Unit} {a : α} {rest : List α} {u : Unit} :
    ((a :: rest).forM g).Does s u s' ↔ ∃ s₁, (g a).Does s () s₁ ∧ (rest.forM g).Does s₁ u s' := by
  change (g a >>= fun _ => rest.forM g).Does s u s' ↔ _
  rw [does_bind]
  constructor
  · rintro ⟨_, s₁, h⟩
    exact ⟨s₁, h⟩
  · rintro ⟨s₁, h⟩
    exact ⟨(), s₁, h⟩

/-- A step that changes nothing in the module. -/
def Silent (x : Pass α) : Prop :=
  ∀ s a s', x.Does s a s' → s'.module = s.module

theorem silent_report (record : Log.Record) : (report record).Silent :=
  fun _ _ _ => module_of_report

theorem silent_pure (a : α) : (pure a : Pass α).Silent := by
  intro s b s' h
  rw [(does_pure.mp h).2]

theorem silent_query (question : Module → Checked α) : (query question).Silent := by
  intro s a s' h
  rw [(does_query.mp h).2]

theorem Silent.bind {x : Pass α} {k : α → Pass β} (hx : x.Silent) (hk : ∀ a, (k a).Silent) :
    (x >>= k).Silent := by
  intro s b s' h
  obtain ⟨a, s₁, ha, hb⟩ := does_bind.mp h
  rw [hk a s₁ b s' hb, hx s a s₁ ha]

/-- What holds before a loop and is kept by each of its steps holds after it. -/
theorem Does.foldlM {β : Type} (inv : PassState → Prop) {g : β → α → Pass β} {l : List α}
    {b b' : β} (h : (l.foldlM g b).Does s b' s')
    (hstep : ∀ a ∈ l, ∀ b b' s s', inv s → (g b a).Does s b' s' → inv s') (hinv : inv s) :
    inv s' := by
  induction l generalizing b s with
  | nil =>
    obtain ⟨-, rfl⟩ := does_pure.mp h
    exact hinv
  | cons a rest ih =>
    rw [List.foldlM_cons] at h
    obtain ⟨b₁, s₁, hg, hrest⟩ := does_bind.mp h
    exact ih hrest (fun a ha => hstep a (List.mem_cons_of_mem _ ha))
      (hstep a List.mem_cons_self b b₁ s s₁ hinv hg)

/-- What is known of the steps that are still to come and of the value so far becomes, step by step,
what is known in the end. -/
theorem Does.foldlM_along {β : Type} (inv : List α → β → PassState → Prop) {g : β → α → Pass β}
    {l : List α} {b b' : β} (h : (l.foldlM g b).Does s b' s')
    (hstep : ∀ a rest b b' s s', inv (a :: rest) b s → (g b a).Does s b' s' → inv rest b' s')
    (hinv : inv l b s) : inv [] b' s' := by
  induction l generalizing b s with
  | nil =>
    obtain ⟨rfl, rfl⟩ := does_pure.mp h
    exact hinv
  | cons a rest ih =>
    rw [List.foldlM_cons] at h
    obtain ⟨b₁, s₁, hg, hrest⟩ := does_bind.mp h
    exact ih hrest (hstep a rest b b₁ s s₁ hinv hg)

/-- What is known of the steps that are still to come becomes, step by step, what is known in the
end. -/
theorem Does.foldlM_rest {β : Type} (inv : List α → PassState → Prop) {g : β → α → Pass β}
    {l : List α} {b b' : β} (h : (l.foldlM g b).Does s b' s')
    (hstep : ∀ a rest b b' s s', inv (a :: rest) s → (g b a).Does s b' s' → inv rest s')
    (hinv : inv l s) : inv [] s' :=
  h.foldlM_along (fun rest _ s => inv rest s) hstep hinv

/-- A loop comes to its end if each of its steps does where what is known of the value and the state
holds. -/
theorem exists_foldlM_along {β : Type} (inv : β → PassState → Prop) {g : β → α → Pass β} {l : List α}
    {b : β} (hstep : ∀ a ∈ l, ∀ b s, inv b s → ∃ b' s', (g b a).Does s b' s' ∧ inv b' s')
    (hinv : inv b s) : ∃ b' s', (l.foldlM g b).Does s b' s' ∧ inv b' s' := by
  induction l generalizing b s with
  | nil => exact ⟨b, s, does_pure.mpr ⟨rfl, rfl⟩, hinv⟩
  | cons a rest ih =>
    obtain ⟨b₁, s₁, hg, hinv₁⟩ := hstep a List.mem_cons_self b s hinv
    obtain ⟨b', s', hrest, hinv'⟩ := ih (fun a ha => hstep a (List.mem_cons_of_mem _ ha)) hinv₁
    refine ⟨b', s', ?_, hinv'⟩
    rw [List.foldlM_cons]
    exact does_bind.mpr ⟨b₁, s₁, hg, hrest⟩

/-- A loop comes to its end if each of its steps does where that invariant holds. -/
theorem exists_foldlM {β : Type} (inv : PassState → Prop) {g : β → α → Pass β} {l : List α} (b : β)
    (hstep : ∀ a ∈ l, ∀ b s, inv s → ∃ b' s', (g b a).Does s b' s' ∧ inv s') (hinv : inv s) :
    ∃ b' s', (l.foldlM g b).Does s b' s' ∧ inv s' :=
  exists_foldlM_along (fun _ s => inv s) hstep hinv

theorem exists_forM (inv : PassState → Prop) {g : α → Pass Unit} {l : List α}
    (hstep : ∀ a ∈ l, ∀ s, inv s → ∃ s', (g a).Does s () s' ∧ inv s') (hinv : inv s) :
    ∃ s', (l.forM g).Does s () s' ∧ inv s' := by
  induction l generalizing s with
  | nil => exact ⟨s, does_pure.mpr ⟨rfl, rfl⟩, hinv⟩
  | cons a rest ih =>
    obtain ⟨hfirst, hrest⟩ := List.forall_mem_cons.mp hstep
    obtain ⟨s₁, ha, hinv₁⟩ := hfirst s hinv
    obtain ⟨s', hdoes, hinv'⟩ := ih hrest hinv₁
    exact ⟨s', does_forM.mpr ⟨s₁, ha, hdoes⟩, hinv'⟩

/-- Whether the run of a pass has come to its end. -/
def completes (run : Checked (Except Fatal α × PassState)) : Bool :=
  match run with
  | .ok (.ok _, _) => true
  | _ => false

theorem exists_of_completes {run : Checked (Except Fatal α × PassState)} (h : completes run = true) :
    ∃ a s, run = .ok (.ok a, s) := by
  unfold completes at h
  split at h
  · exact ⟨_, _, rfl⟩
  · cases h

/-- What a run that completed came to. -/
def completed? (run : Checked (Except Fatal α × PassState)) : Option (α × PassState) :=
  match run with
  | .ok (.ok a, s) => some (a, s)
  | _ => none

theorem completed?_eq_some {run : Checked (Except Fatal α × PassState)} {a : α} {s : PassState}
    (h : completed? run = some (a, s)) : run = .ok (.ok a, s) := by
  unfold completed? at h
  split at h
  · obtain ⟨rfl, rfl⟩ := Prod.mk.inj (Option.some.inj h)
    rfl
  · cases h

theorem does_of_completed {pass : Pass α} {m : Module} {a : α} {s : PassState}
    (h : completed? (pass.runOn m) = some (a, s)) : pass.Does { module := m } a s :=
  completed?_eq_some h

end Pass

end EdgeProbe
