import EdgeProbe.Lowering.StringCompare
import EdgeProbe.Proofs.Probe.Passes
import EdgeProbe.Proofs.Safety.Edits

/-!
# Modules that can be worked on

A module is sturdy if its functions that have a body are. Changing one of them as edits do keeps it
so, and so does declaring what is missing. Passes are followed like edits: `Pass.Safe` says of one
that it comes to no fault and what there is when it is not refused.
-/

namespace EdgeProbe

variable {m m' : Module} {f f' : Function} {id : FuncId}

/-- There is room for the chain of a comparison of as many bytes, unless it is too long a one. -/
def Limits.Reserves (limits : Limits) (len : Nat) : Prop :=
  len ≤ limits.maxUnrollLen → len * Edit.entrySize < addressBound

/-- There is room for a chain as long as the bound of any call. -/
def Function.BoundsFit (limits : Limits) (f : Function) : Prop :=
  ∀ i kind, f.kind i = .ok kind → ∀ len ∈ kind.bound?, limits.Reserves len

/-- An instruction with a bound has been there before. -/
theorem Function.Onward.boundsFit {limits : Limits} (h : f.Onward f') (hf : f.BoundsFit limits) :
    f'.BoundsFit limits := by
  intro i kind hkind len hlen
  obtain hlt | hle := Nat.lt_or_ge i.index f.insts.size
  · obtain ⟨kind₀, hkind₀⟩ := exists_kind hlt
    obtain hsame | ⟨ty, incoming, hphi⟩ := h.kinds i kind₀ hkind₀
    · obtain rfl := Except.ok.inj (hsame.symm.trans hkind)
      exact hf i kind₀ hkind₀ len hlen
    · obtain rfl := Except.ok.inj (hphi.symm.trans hkind)
      cases hlen
  · rw [h.added i kind hle hkind] at hlen
    cases hlen

/-- In a module with more to name a function stays sturdy. -/
theorem Function.Sturdy.mono (hf : f.Sturdy m) (hglobals : m.globals.size ≤ m'.globals.size)
    (hfunctions : m.functions.size ≤ m'.functions.size) : f.Sturdy m' where
  layout := hf.layout
  whole := hf.whole
  owned := hf.owned
  kinds := fun i kind hkind => by
    have hgrows : m.Grows f m' f := ⟨hglobals, hfunctions, rfl, le_rfl, le_rfl⟩
    exact hgrows.knowsKind (hf.kinds i kind hkind)
  types := hf.types
  addresses := hf.addresses
  signs := hf.signs

/-- The block of a function that returns a number holds nothing and leads nowhere. -/
theorem Function.block_returning {name : String} {value : Nat} {b : BlockId} {blk : Block}
    (h : (Function.returning name value).block b = .ok blk) :
    blk.insts = [] ∧ blk.term.successors = [] := by
  obtain ⟨index⟩ := b
  cases index with
  | zero =>
    obtain rfl := Except.ok.inj h
    exact ⟨rfl, rfl⟩
  | succ k => cases h

theorem Function.sturdy_returning (m : Module) (name : String) (value : Nat) :
    (Function.returning name value).Sturdy m where
  layout := by simp [returning]
  whole := by
    refine ⟨fun b blk hblk i hi => ?_, fun b blk hblk s hs => ?_⟩
    · rw [(block_returning hblk).1] at hi
      cases hi
    · rw [(block_returning hblk).2] at hs
      cases hs
  owned := by
    intro b _ blk hblk i hi
    rw [(block_returning hblk).1] at hi
    cases hi
  kinds := by rintro i kind ⟨⟩
  types := by simp [returning]
  addresses := by simp [returning]
  signs := by rintro i kind ⟨⟩

namespace Module

/-- Functions that have a body are sturdy. -/
def Sturdy (m : Module) : Prop :=
  ∀ id f, m.function id = .ok f → f.isDeclaration = true ∨ f.Sturdy m

/-- There is room for the chain of each comparison that has a number for its bound, or a literal. -/
structure LengthsFit (limits : Limits) (m : Module) : Prop where
  bounds : ∀ id f, m.function id = .ok f → f.BoundsFit limits
  literals : ∀ g ∈ m.globals, ∀ data, g.contents = some (.bytes data) →
    ∀ len ≤ data.length, limits.Reserves len

/-- The second module is what the first one has become. -/
structure Onward (m m' : Module) : Prop where
  globals : m.globals.size ≤ m'.globals.size
  functions : m.functions.size ≤ m'.functions.size
  each : ∀ id f, m.function id = .ok f →
    ∃ f', m'.function id = .ok f' ∧ f.Onward f' ∧ (f.Sturdy m → f'.Sturdy m')
  fits : ∀ limits, m.LengthsFit limits → m'.LengthsFit limits

theorem Onward.refl (m : Module) : m.Onward m :=
  ⟨le_rfl, le_rfl, fun _ f hf => ⟨f, hf, .refl f, fun h => h⟩, fun _ h => h⟩

theorem Onward.trans {m₁ : Module} (h : m.Onward m₁) (h' : m₁.Onward m') : m.Onward m' where
  globals := h.globals.trans h'.globals
  functions := h.functions.trans h'.functions
  each := by
    intro id f hf
    obtain ⟨f₁, hf₁, honward, hsturdy⟩ := h.each id f hf
    obtain ⟨f', hf', honward', hsturdy'⟩ := h'.each id f₁ hf₁
    exact ⟨f', hf', honward.trans honward', fun hf => hsturdy' (hsturdy hf)⟩
  fits := fun limits hfit => h'.fits limits (h.fits limits hfit)

section

variable (hm : m.Sturdy)
include hm

/-- One function becomes another one that is sturdy. -/
theorem Sturdy.setFunction (hid : id.index < m.functions.size) (hf' : f'.Sturdy m) :
    (m.setFunction id f').Sturdy := by
  have hsize : m.functions.size ≤ (m.setFunction id f').functions.size := by
    simp [Module.setFunction]
  intro i g hg
  rw [function_setFunction hid] at hg
  split at hg
  · obtain rfl := Except.ok.inj hg
    exact .inr (hf'.mono le_rfl hsize)
  · exact (hm i g hg).imp_right fun h => h.mono le_rfl hsize

omit hm in
theorem onward_setFunction (hid : m.function id = .ok f) (hf' : f'.Sturdy m)
    (honward : f.Onward f') : m.Onward (m.setFunction id f') := by
  have hsize : m.functions.size ≤ (m.setFunction id f').functions.size := by
    simp [Module.setFunction]
  refine ⟨le_rfl, hsize, fun i g hg => ?_, fun limits hfit => ⟨fun i g hg => ?_, hfit.literals⟩⟩
  · rw [function_setFunction (index_lt_of_function hid)]
    split
    · next heq =>
      subst heq
      obtain rfl := Except.ok.inj (hid.symm.trans hg)
      exact ⟨f', rfl, honward, fun _ => hf'.mono le_rfl hsize⟩
    · exact ⟨g, hg, .refl g, fun h => h.mono le_rfl hsize⟩
  · rw [function_setFunction (index_lt_of_function hid)] at hg
    split at hg
    · obtain rfl := Except.ok.inj hg
      exact honward.boundsFit (hfit.bounds id f hid)
    · exact hfit.bounds i g hg

theorem Sturdy.getOrInsertGlobal (name : String) (threadLocal : Bool) :
    (m.getOrInsertGlobal name threadLocal).1.Sturdy ∧
      m.Onward (m.getOrInsertGlobal name threadLocal).1 ∧
      (m.getOrInsertGlobal name threadLocal).2.index <
        (m.getOrInsertGlobal name threadLocal).1.globals.size := by
  unfold Module.getOrInsertGlobal
  split
  · next found hfound =>
    obtain ⟨index, hindex, rfl⟩ := Option.map_eq_some_iff.mp hfound
    exact ⟨hm, .refl m, (Array.findIdx?_eq_some_iff_getElem.mp hindex).1⟩
  · have hglobals : m.globals.size ≤ (m.addGlobal { name, threadLocal }).1.globals.size := by
      simp [addGlobal]
    refine ⟨fun i g hg => (hm i g hg).imp_right fun h => h.mono hglobals le_rfl,
      ⟨hglobals, le_rfl, fun i g hg => ⟨g, hg, .refl g, fun h => h.mono hglobals le_rfl⟩,
        fun limits hfit => ⟨hfit.bounds, fun g hg data hdata => ?_⟩⟩, by simp [addGlobal]⟩
    obtain hg | rfl := Array.mem_push.mp hg
    · exact hfit.literals g hg data hdata
    · cases hdata

theorem Sturdy.addFunction (hf : f.isDeclaration = true ∨ f.Sturdy m) (hinsts : f.insts = #[]) :
    (m.addFunction f).1.Sturdy ∧ m.Onward (m.addFunction f).1 := by
  have hsize : m.functions.size ≤ (m.addFunction f).1.functions.size := by
    simp [Module.addFunction]
  have hcases : ∀ i g, (m.addFunction f).1.function i = .ok g → m.function i = .ok g ∨ g = f := by
    intro i g hg
    have hg := function_eq_ok.mp hg
    rw [Module.addFunction, Array.getElem?_push] at hg
    split at hg
    · exact .inr (Option.some.inj hg).symm
    · exact .inl (function_eq_ok.mpr hg)
  refine ⟨fun i g hg => ?_, le_rfl, hsize, fun i g hg => ?_, fun limits hfit =>
    ⟨fun i g hg => ?_, hfit.literals⟩⟩
  · obtain hold | rfl := hcases i g hg
    · exact (hm i g hold).imp_right fun h => h.mono le_rfl hsize
    · exact hf.imp_right fun h => h.mono le_rfl hsize
  · exact ⟨g, function_addFunction hg f, .refl g, fun h => h.mono le_rfl hsize⟩
  · obtain hold | rfl := hcases i g hg
    · exact hfit.bounds i g hold
    · intro i kind hkind
      exact absurd (Function.index_lt_of_kind hkind) (by simp [hinsts])

theorem Sturdy.getOrInsertFunction (name : String) (params : List Ty) (ret : Ty) :
    (m.getOrInsertFunction name params ret).1.Sturdy ∧
      m.Onward (m.getOrInsertFunction name params ret).1 ∧
      (m.getOrInsertFunction name params ret).2.index <
        (m.getOrInsertFunction name params ret).1.functions.size := by
  unfold Module.getOrInsertFunction
  split
  · next found hfound =>
    obtain ⟨index, hindex, rfl⟩ := Option.map_eq_some_iff.mp hfound
    exact ⟨hm, .refl m, (Array.findIdx?_eq_some_iff_getElem.mp hindex).1⟩
  · obtain ⟨hsturdy, honward⟩ := hm.addFunction (f := .declare name params ret) (.inl rfl) rfl
    exact ⟨hsturdy, honward, by simp [Module.addFunction]⟩

theorem Sturdy.withAccessor (name : String) (value : Nat) : (m.withAccessor name value).Sturdy := by
  unfold Module.withAccessor
  split
  · next found hfound =>
    obtain ⟨index, hindex, rfl⟩ := Option.map_eq_some_iff.mp hfound
    exact hm.setFunction (Array.findIdx?_eq_some_iff_getElem.mp hindex).1
      (Function.sturdy_returning m name value)
  · exact (hm.addFunction (.inr (Function.sturdy_returning m name value)) rfl).1

end

end Module

namespace Pass

variable {s : PassState} {α β : Type}

/-- Sturdy modules, one leading on to another. -/
def course : Course PassState where
  holds := fun s => s.module.Sturdy
  leads := fun s t => s.module.Onward t.module
  refl := fun s => .refl s.module
  trans := .trans

/-- The pass does not fault, and leaves a sturdy module if it is not refused. -/
def Safe (x : Pass α) (s : PassState) (post : α → PassState → Prop) : Prop :=
  course.Safe x s post

theorem Safe.bind {x : Pass α} {k : α → Pass β} {q : α → PassState → Prop}
    {post : β → PassState → Prop} (hx : Safe x s q)
    (hk : ∀ a t, t.module.Sturdy → s.module.Onward t.module → q a t → Safe (k a) t post) :
    Safe (x >>= k) s post :=
  Course.Safe.bind hx hk

theorem Safe.some {x : Pass α} {post : α → PassState → Prop} (hx : Safe x s post) :
    Safe x s fun _ _ => True :=
  Course.Safe.imp hx fun _ _ _ _ _ => trivial

/-- What is asked of a pass is where it leads. -/
theorem Safe.onward {x : Pass α} {post : α → PassState → Prop} (hx : Safe x s post) :
    Safe x s fun _ t => s.module.Onward t.module :=
  Course.Safe.imp hx fun _ _ _ hst _ => hst

/-- What follows a question goes on from the answer, whatever course that takes. -/
theorem asked_bind {c : Course PassState} (hs : c.holds s) {question : Module → Checked α}
    {k : α → Pass β} {post : β → PassState → Prop} {a : α} (hquestion : question s.module = .ok a)
    (hk : c.Safe (k a) s post) : c.Safe (query question >>= k) s post := by
  refine .bind (.bind (Course.safe_get hs) ?_) (q := fun b t => b = a ∧ t = s) ?_
  · rintro _ _ - - ⟨rfl, rfl⟩
    exact Course.safe_lift hs hquestion
  · rintro _ _ - - ⟨rfl, rfl⟩
    exact hk

theorem listed_bind {c : Course PassState} (hs : c.holds s) {k : List FuncId → Pass β}
    {post : β → PassState → Prop} (hk : c.Safe (k s.module.functionIds) s post) :
    c.Safe (functionIds >>= k) s post := by
  refine .bind (.bind (Course.safe_get hs) ?_)
    (q := fun ids t => ids = s.module.functionIds ∧ t = s) ?_
  · rintro _ _ - - ⟨rfl, rfl⟩
    exact Course.safe_pure hs ⟨rfl, rfl⟩
  · rintro _ _ - - ⟨rfl, rfl⟩
    exact hk

/-- A function of the module that can be worked on. -/
structure WorksOn (s : PassState) (id : FuncId) (f : Function) : Prop where
  function : s.module.function id = .ok f
  sturdy : f.Sturdy s.module

theorem WorksOn.onward {t : PassState} (h : WorksOn s id f) (hst : s.module.Onward t.module) :
    ∃ f', WorksOn t id f' ∧ f.Onward f' := by
  obtain ⟨f', hf', honward, hsturdy⟩ := hst.each id f h.function
  exact ⟨f', ⟨hf', hsturdy h.sturdy⟩, honward⟩

section

variable (hs : s.module.Sturdy)
include hs

theorem safe_pure {a : α} {post : α → PassState → Prop} (ha : post a s) :
    Safe (pure a) s post :=
  Course.safe_pure hs ha

/-- What is reported has no part in the module. -/
theorem safe_report (record : Log.Record) : Safe (report record) s fun _ t => t.module = s.module :=
  ⟨.ok (), _, rfl, fun _ _ => ⟨hs, .refl _, rfl⟩⟩

theorem safe_reportAll (records : List Log.Record) :
    Safe (reportAll records) s fun _ t => t.module = s.module :=
  ⟨.ok (), _, rfl, fun _ _ => ⟨hs, .refl _, rfl⟩⟩

/-- What follows a question goes on from the answer. -/
theorem safe_query_bind {question : Module → Checked α} {k : α → Pass β}
    {post : β → PassState → Prop} {a : α} (hquestion : question s.module = .ok a)
    (hk : Safe (k a) s post) : Safe (query question >>= k) s post :=
  asked_bind hs hquestion hk

theorem safe_functionIds_bind {k : List FuncId → Pass β} {post : β → PassState → Prop}
    (hk : Safe (k s.module.functionIds) s post) : Safe (functionIds >>= k) s post :=
  listed_bind hs hk

omit hs in
theorem safe_update {change : Module → Module × α} {post : α → PassState → Prop}
    (hsturdy : (change s.module).1.Sturdy) (honward : s.module.Onward (change s.module).1)
    (hpost : ∀ t, t.module = (change s.module).1 → post (change s.module).2 t) :
    Safe (update change) s post :=
  ⟨.ok _, _, rfl, fun _ heq => Except.ok.inj heq ▸ ⟨hsturdy, honward, hpost _ rfl⟩⟩

/-- What comes of an edit of a sturdy function comes of it in the module. -/
theorem safe_inFunction {edit : Edit α} {post : α → Function → Prop} (hf : WorksOn s id f)
    (hedit : Edit.Safe s.module edit f post) :
    Safe (inFunction id edit) s fun _ _ => True := by
  obtain ⟨r, f', hrun, hpost⟩ := hedit
  refine ⟨r, { s with module := s.module.setFunction id f' }, ?_, fun a ha => ?_⟩
  · change (s.module.function id >>= fun f => edit f >>= fun r =>
      pure (r.1, { s with module := s.module.setFunction id r.2 })) = _
    rw [hf.function]
    change (edit f >>= _) = _
    rw [hrun]
    rfl
  · obtain ⟨hf', honward, -⟩ := hpost a ha
    exact ⟨hs.setFunction (Module.index_lt_of_function hf.function) hf',
      Module.onward_setFunction hf.function hf' honward, trivial⟩

/-- An edit that finds nothing to do in a function without a body, and comes to no fault in those
that have one, can be made in all of them. -/
theorem safe_inEach {edit : Edit α} (hid : id ∈ s.module.functionIds)
    (hidle : ∀ f : Function, f.isDeclaration = true → ∃ a, edit.Does f a f)
    (hedit : ∀ f, f.Sturdy s.module → Edit.Safe s.module edit f fun _ _ => True) :
    Safe (inFunction id edit) s fun _ _ => True := by
  obtain ⟨f, hfunction⟩ := Module.exists_function (Module.mem_functionIds.mp hid)
  obtain hdeclared | hsturdy := hs id _ hfunction
  · obtain ⟨a, hdoes⟩ := hidle _ hdeclared
    refine ⟨.ok a, s, ?_, fun _ _ => ⟨hs, .refl _, trivial⟩⟩
    refine does_inFunction.mpr ⟨_, _, hfunction, hdoes, ?_⟩
    rw [Module.setFunction_self hfunction]
  · exact safe_inFunction hs ⟨hfunction, hsturdy⟩ (hedit _ hsturdy)

theorem safe_forM {g : α → Pass Unit} {l : List α}
    (h : ∀ a ∈ l, ∀ t, t.module.Sturdy → s.module.Onward t.module →
      Safe (g a) t fun _ _ => True) : Safe (l.forM g) s fun _ _ => True :=
  Course.Safe.forM hs h

theorem safe_foldlM {g : β → α → Pass β} {l : List α} {b : β}
    (h : ∀ a ∈ l, ∀ b t, t.module.Sturdy → s.module.Onward t.module →
      Safe (g b a) t fun _ _ => True) : Safe (l.foldlM g b) s fun _ _ => True :=
  Course.Safe.foldlM hs h

end

/-- A function of an earlier module is one of a later one. -/
theorem mem_functionIds_onward {t : PassState} (hst : s.module.Onward t.module)
    (hid : id ∈ s.module.functionIds) : id ∈ t.module.functionIds :=
  Module.mem_functionIds.mpr ((Module.mem_functionIds.mp hid).trans_le hst.functions)

end Pass

end EdgeProbe
