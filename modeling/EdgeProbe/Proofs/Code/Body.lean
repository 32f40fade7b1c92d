import EdgeProbe.Lowering.Chain
import EdgeProbe.Proofs.Code.Does
import EdgeProbe.Proofs.Code.Split

/-!
# Edits of a body

An edit changes the blocks, the instructions and the tokens of a function, and nothing that the
function says about itself to the rest of the module.
-/

namespace EdgeProbe

namespace Function

variable {f f₁ f' : Function}

/-- The functions differ in their bodies only. -/
def SameHeader (f f' : Function) : Prop :=
  ∃ blocks layout insts annotations, f' = { f with blocks, layout, insts, annotations }

theorem SameHeader.refl (f : Function) : f.SameHeader f :=
  ⟨f.blocks, f.layout, f.insts, f.annotations, rfl⟩

theorem SameHeader.trans (h : f.SameHeader f₁) (h' : f₁.SameHeader f') : f.SameHeader f' := by
  obtain ⟨_, _, _, _, rfl⟩ := h
  obtain ⟨blocks, layout, insts, annotations, rfl⟩ := h'
  exact ⟨blocks, layout, insts, annotations, rfl⟩

theorem SameHeader.symm (h : f.SameHeader f') : f'.SameHeader f := by
  obtain ⟨_, _, _, _, rfl⟩ := h
  exact ⟨f.blocks, f.layout, f.insts, f.annotations, rfl⟩

section

variable (h : f.SameHeader f')
include h

theorem SameHeader.name : f'.name = f.name := by
  obtain ⟨_, _, _, _, rfl⟩ := h
  rfl

theorem SameHeader.params : f'.params = f.params := by
  obtain ⟨_, _, _, _, rfl⟩ := h
  rfl

theorem SameHeader.ret : f'.ret = f.ret := by
  obtain ⟨_, _, _, _, rfl⟩ := h
  rfl

theorem SameHeader.conv : f'.conv = f.conv := by
  obtain ⟨_, _, _, _, rfl⟩ := h
  rfl

end

theorem SameHeader.withAnnotations (f : Function) (annotations : Annotations) :
    f.SameHeader { f with annotations } :=
  ⟨f.blocks, f.layout, f.insts, annotations, rfl⟩

/-- The functions differ in their code only. -/
def SameRest (f f' : Function) : Prop :=
  ∃ blocks layout insts, f' = { f with blocks, layout, insts }

theorem SameRest.refl (f : Function) : f.SameRest f :=
  ⟨f.blocks, f.layout, f.insts, rfl⟩

theorem SameRest.trans (h : f.SameRest f₁) (h' : f₁.SameRest f') : f.SameRest f' := by
  obtain ⟨_, _, _, rfl⟩ := h
  obtain ⟨blocks, layout, insts, rfl⟩ := h'
  exact ⟨blocks, layout, insts, rfl⟩

theorem SameRest.sameHeader (h : f.SameRest f') : f.SameHeader f' := by
  obtain ⟨blocks, layout, insts, rfl⟩ := h
  exact ⟨blocks, layout, insts, f.annotations, rfl⟩

theorem SameRest.annotations (h : f.SameRest f') : f'.annotations = f.annotations := by
  obtain ⟨_, _, _, rfl⟩ := h
  rfl

theorem sameRest_modifyBlock {b : BlockId} {change : Block → Block}
    (h : f.modifyBlock b change = .ok f') : f.SameRest f' := by
  obtain ⟨-, rfl⟩ := modifyBlock_eq_ok.mp h
  exact ⟨_, f.layout, f.insts, rfl⟩

theorem sameRest_modifyInst {id : InstId} {change : Inst → Inst}
    (h : f.modifyInst id change = .ok f') : f.SameRest f' := by
  obtain ⟨-, rfl⟩ := modifyInst_eq_ok.mp h
  exact ⟨f.blocks, f.layout, _, rfl⟩

theorem sameRest_addBlockBefore (f : Function) (name : String) (before : BlockId) :
    f.SameRest (f.addBlockBefore name before).1 :=
  ⟨_, _, f.insts, rfl⟩

theorem sameRest_insertInst {block : BlockId} {pos : Nat} {kind : InstKind} {name : String}
    {loc : Option DebugLoc} {id : InstId} (h : f.insertInst block pos kind name loc = .ok (f', id)) :
    f.SameRest f' := by
  obtain ⟨f₁, hf₁, h⟩ := Checked.bind_eq_ok.mp h
  obtain ⟨rfl, rfl⟩ := Prod.mk.inj (Checked.pure_eq_ok.mp h)
  obtain ⟨blocks, layout, insts, rfl⟩ := sameRest_modifyBlock hf₁
  exact ⟨blocks, layout, insts, rfl⟩

theorem sameRest_pushInst {block : BlockId} {kind : InstKind} {name : String}
    {loc : Option DebugLoc} {id : InstId} (h : f.pushInst block kind name loc = .ok (f', id)) :
    f.SameRest f' := by
  obtain ⟨_, -, h⟩ := Checked.bind_eq_ok.mp h
  exact sameRest_insertInst h

theorem sameRest_replacePhiIncomingBlock {block source target : BlockId}
    (h : f.replacePhiIncomingBlock block source target = .ok f') : f.SameRest f' := by
  obtain ⟨phis, -, h⟩ := Checked.bind_eq_ok.mp h
  exact Checked.related_of_foldlM (r := SameRest) .refl .trans (fun _ _ _ => sameRest_modifyInst) h

theorem sameRest_splitBlock {block tail : BlockId} {pos : Nat} {name : String}
    (h : f.splitBlock block pos name = .ok (f', tail)) : f.SameRest f' := by
  have hadd : f.SameRest (f.addBlock name (some block)).1 := ⟨_, _, f.insts, rfl⟩
  obtain ⟨blk, -, h⟩ := Checked.bind_eq_ok.mp h
  obtain ⟨f₁, hf₁, h⟩ := Checked.bind_eq_ok.mp h
  obtain ⟨f₂, hf₂, h⟩ := Checked.bind_eq_ok.mp h
  obtain ⟨f₃, hf₃, h⟩ := Checked.bind_eq_ok.mp h
  obtain ⟨f₄, hf₄, h⟩ := Checked.bind_eq_ok.mp h
  obtain ⟨rfl, -⟩ := Prod.mk.inj (Checked.pure_eq_ok.mp h)
  have hown : SameRest _ f₁ :=
    Checked.related_of_foldlM (r := SameRest) .refl .trans (fun _ _ _ => sameRest_modifyInst) hf₁
  have hrenamed : SameRest f₃ f₄ :=
    Checked.related_of_foldlM (r := SameRest) .refl .trans
      (fun _ _ _ => sameRest_replacePhiIncomingBlock) hf₄
  exact hadd.trans (hown.trans ((sameRest_modifyBlock hf₂).trans
    ((sameRest_modifyBlock hf₃).trans hrenamed)))

end Function

namespace Module

variable {m m' : Module}

/-- The modules have the same globals, and functions that differ in their bodies only. -/
structure SameHeaders (m m' : Module) : Prop where
  globals : m'.globals = m.globals
  size : m'.functions.size = m.functions.size
  functions : ∀ id g g', m.function id = .ok g → m'.function id = .ok g' → g.SameHeader g'

theorem SameHeaders.refl (m : Module) : m.SameHeaders m :=
  ⟨rfl, rfl, fun _ g _ hg hg' => Except.ok.inj (hg.symm.trans hg') ▸ .refl g⟩

theorem SameHeaders.setFunction (h : m.SameHeaders m') {id : FuncId} {g g' : Function}
    (hid : m'.function id = .ok g) (hg : g.SameHeader g') : m.SameHeaders (m'.setFunction id g') where
  globals := h.globals
  size := by simpa [Module.setFunction] using h.size
  functions := by
    intro i f f' hi hi'
    rw [function_setFunction (index_lt_of_function hid)] at hi'
    split at hi'
    · next heq =>
      subst heq
      obtain rfl := Except.ok.inj hi'
      exact (h.functions i f g hi hid).trans hg
    · exact h.functions i f f' hi hi'

section

variable (h : m.SameHeaders m')
include h

theorem SameHeaders.function_cases (id : FuncId) :
    (m.function id = .error (.danglingFunction id) ∧ m'.function id = .error (.danglingFunction id)) ∨
      ∃ g g', m.function id = .ok g ∧ m'.function id = .ok g' ∧ g.SameHeader g' := by
  by_cases hlt : id.index < m.functions.size
  · have hg : m.function id = .ok m.functions[id.index] := function_eq_ok.mpr (by simp [hlt])
    have hlt' : id.index < m'.functions.size := h.size ▸ hlt
    have hg' : m'.function id = .ok m'.functions[id.index] := function_eq_ok.mpr (by simp [hlt'])
    exact .inr ⟨_, _, hg, hg', h.functions id _ _ hg hg'⟩
  · have hlt' : ¬id.index < m'.functions.size := h.size ▸ hlt
    exact .inl ⟨by simp [function, hlt], by simp [function, hlt']⟩

end

end Module

/-- A relation between functions that holds across changes of the code, one after another. -/
structure Function.OfCode (related : Function → Function → Prop) : Prop where
  code : ∀ {f f'}, f.SameRest f' → related f f'
  trans : ∀ {f f₁ f'}, related f f₁ → related f₁ f' → related f f'

namespace Function

theorem OfCode.refl {related : Function → Function → Prop} (h : OfCode related) (f : Function) :
    related f f :=
  h.code (.refl f)

theorem ofCode_sameHeader : OfCode SameHeader where
  code := SameRest.sameHeader
  trans := SameHeader.trans

end Function

namespace Edit

variable {α β : Type} {related : Function → Function → Prop}

/-- What the edit makes of a function is related to it. -/
def Keeps (related : Function → Function → Prop) (x : Edit α) : Prop :=
  ∀ f a f', x.Does f a f' → related f f'

section

variable (hcode : Function.OfCode related)
include hcode

theorem Keeps.bind {x : Edit α} {k : α → Edit β} (hx : x.Keeps related)
    (hk : ∀ a, (k a).Keeps related) : (x >>= k).Keeps related := by
  intro f b f' h
  obtain ⟨a, f₁, ha, hb⟩ := does_bind.mp h
  exact hcode.trans (hx f a f₁ ha) (hk a f₁ b f' hb)

theorem keeps_pure (a : α) : (pure a : Edit α).Keeps related := by
  intro f b f' h
  obtain ⟨-, rfl⟩ := does_pure.mp h
  exact hcode.refl f

theorem keeps_query (question : Function → Checked α) : (query question).Keeps related := by
  intro f a f' h
  obtain ⟨-, rfl⟩ := does_query.mp h
  exact hcode.refl f

theorem keeps_apply {change : Function → Checked (Function × α)}
    (h : ∀ f f' a, change f = .ok (f', a) → f.SameRest f') : (apply change).Keeps related :=
  fun f a f' hdoes => hcode.code (h f f' a (does_apply.mp hdoes))

theorem keeps_update {change : Function → Checked Function}
    (h : ∀ f f', change f = .ok f' → f.SameRest f') : (update change).Keeps related :=
  fun f _ f' hdoes => hcode.code (h f f' (does_update.mp hdoes))

theorem keeps_addBlockBefore (name : String) (before : BlockId) :
    (addBlockBefore name before).Keeps related :=
  keeps_apply hcode fun f f' id h => by
    have hf' := f.sameRest_addBlockBefore name before
    rwa [Except.ok.inj h] at hf'

theorem keeps_pushInst (block : BlockId) (kind : InstKind) (name : String)
    (loc : Option DebugLoc) : (pushInst block kind name loc).Keeps related :=
  keeps_apply hcode fun _ _ _ => Function.sameRest_pushInst

theorem keeps_setTerminator (block : BlockId) (term : Terminator) :
    (setTerminator block term).Keeps related :=
  keeps_update hcode fun _ _ => Function.sameRest_modifyBlock

theorem keeps_replaceKind (id : InstId) (kind : InstKind) :
    (replaceKind id kind).Keeps related :=
  keeps_update hcode fun _ _ => Function.sameRest_modifyInst

theorem keeps_markSplit (id : InstId) : (markSplit id).Keeps related :=
  keeps_update hcode fun _ _ => Function.sameRest_modifyInst

theorem keeps_labelFor (stem : String) (id : InstId) : (labelFor stem id).Keeps related :=
  .bind hcode (keeps_query hcode _) fun _ => keeps_pure hcode _

theorem keeps_splitAt (l : Label) (id : InstId) (name : String) :
    (splitAt l id name).Keeps related := by
  refine .bind hcode (keeps_query hcode _) fun found => ?_
  cases found with
  | none => exact keeps_pure hcode none
  | some place =>
    refine .bind hcode ?_ fun tail => keeps_pure hcode _
    exact keeps_apply hcode fun _ _ _ => Function.sameRest_splitBlock

theorem keeps_emitValue (l : Label) (block : BlockId) (kind : InstKind) (name : String) :
    (emitValue l block kind name).Keeps related :=
  .bind hcode (keeps_pushInst hcode _ _ _ _) fun _ => keeps_pure hcode _

end

theorem keeps_attach (id : InstId) (token : Token) (limits : Limits) :
    (attach id token limits).Keeps Function.SameHeader := by
  intro f u f' h
  obtain ⟨annotations, rfl, -⟩ := does_attach h
  exact .withAnnotations f annotations

end Edit

end EdgeProbe
