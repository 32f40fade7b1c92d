import EdgeProbe.Probe.Instrument
import EdgeProbe.Proofs.Safety.Sturdy
import EdgeProbe.Lowering.Chain
import EdgeProbe.Proofs.Safety.Course

/-!
# Edits of sturdy functions

Putting an instruction in, renaming the sources of phis and splitting a block are made of single
changes. None of them faults in a sturdy function. So the steps that edits are made of come to no
fault there and leave one that it has led on to.
-/

namespace EdgeProbe

namespace Module

variable {m : Module} {f : Function}

theorem knowsKind_phi {ty : Ty} {incoming : List (Value × BlockId)} :
    m.knowsKind f (.phi ty incoming) = true ↔
      ∀ entry ∈ incoming, m.knowsValue f entry.1 = true ∧ entry.2.index < f.blocks.size := by
  simp only [knowsKind, InstKind.operands, Function.hasBlock, Bool.and_eq_true, List.all_eq_true,
    List.mem_map, forall_exists_index, and_imp, forall_apply_eq_imp_iff₂, decide_eq_true_eq]
  exact ⟨fun h entry hentry => ⟨h.1 entry hentry, h.2 entry hentry⟩,
    fun h => ⟨fun entry hentry => (h entry hentry).1, fun entry hentry => (h entry hentry).2⟩⟩

end Module

namespace Function

variable {m : Module} {f f' : Function} {b : BlockId}

/-- An instruction of this kind may be put in: what it reads is known, it asks no integer without bits
for its sign, and it is no call with a bound. -/
structure Suits (f : Function) (m : Module) (kind : InstKind) : Prop where
  known : m.knowsKind f kind = true
  signs : f.ReadsBits kind
  bound : kind.bound? = none

namespace Suits

variable {value lhs rhs : Value}

section

variable (hvalue : m.knowsValue f value = true)
include hvalue

theorem cast (op : CastOp) (width : Nat) : f.Suits m (.cast op value width) :=
  ⟨by simp [Module.knowsKind, InstKind.operands, hvalue], readsBits_other rfl, rfl⟩

theorem load (ty : Ty) : f.Suits m (.load ty value) :=
  ⟨by simp [Module.knowsKind, InstKind.operands, hvalue], readsBits_other rfl, rfl⟩

end

variable (hl : m.knowsValue f lhs = true) (hr : m.knowsValue f rhs = true)
include hl hr

theorem binary (op : BinOp) : f.Suits m (.binary op lhs rhs) :=
  ⟨by simp [Module.knowsKind, InstKind.operands, hl, hr], readsBits_other rfl, rfl⟩

theorem icmp {pred : Predicate} (hsigns : f.ReadsBits (.icmp pred lhs rhs)) :
    f.Suits m (.icmp pred lhs rhs) :=
  ⟨by simp [Module.knowsKind, InstKind.operands, hl, hr], hsigns, rfl⟩

theorem unsigned {pred : Predicate} (hpred : pred.isSigned = false) :
    f.Suits m (.icmp pred lhs rhs) :=
  icmp hl hr (readsBits_unsigned hpred lhs rhs)

theorem select (hvalue : m.knowsValue f value = true) : f.Suits m (.select value lhs rhs) :=
  ⟨by simp [Module.knowsKind, InstKind.operands, hl, hr, hvalue], readsBits_other rfl, rfl⟩

theorem store : f.Suits m (.store lhs rhs) :=
  ⟨by simp [Module.knowsKind, InstKind.operands, hl, hr], readsBits_other rfl, rfl⟩

theorem gep : f.Suits m (.gep lhs rhs) :=
  ⟨by simp [Module.knowsKind, InstKind.operands, hl, hr], readsBits_other rfl, rfl⟩

end Suits

namespace Sturdy

variable (hf : f.Sturdy m)
include hf

theorem insertInst (hb : b.index < f.blocks.size) {kind : InstKind}
    (hkind : f.Suits m kind) (pos : Nat) (name : String) (loc : Option DebugLoc) :
    ∃ f' id, f.insertInst b pos kind name loc = .ok (f', id) ∧ f'.Sturdy m ∧ f.Steady f' ∧
      id.index < f'.insts.size := by
  set inst : Inst := { kind, name, loc, block := some b }
  have hspare := (hf.withSpare hkind.known hkind.signs hkind.bound : (f.withSpare inst).Sturdy m)
  have hsteady : f.Steady (f.withSpare inst) := f.steady_withSpare hkind.bound
  refine ⟨_, ⟨f.insts.size⟩, Checked.bind_eq_ok.mpr ⟨_, modifyBlock_eq_ok.mpr ⟨hb, rfl⟩, rfl⟩,
    hspare.withBlock (fun blk hblk id hid => ?_) (hspare.whole.successors b),
    hsteady.trans (steady_withBlock _ _ _), by simp⟩
  obtain rfl | hid := List.eq_or_mem_of_mem_insertIdx hid
  · exact .inr ⟨by simp, owned_withSpare rfl hb⟩
  · exact .inl hid

theorem pushInst (hb : b.index < f.blocks.size) {kind : InstKind}
    (hkind : f.Suits m kind) (name : String) (loc : Option DebugLoc) :
    ∃ f' id, f.pushInst b kind name loc = .ok (f', id) ∧ f'.Sturdy m ∧ f.Steady f' ∧
      id.index < f'.insts.size := by
  obtain ⟨blk, hblk⟩ := Function.exists_block hb
  obtain ⟨f', id, hinsert, hf'⟩ := hf.insertInst hb hkind blk.insts.length name loc
  exact ⟨f', id, Checked.bind_eq_ok.mpr ⟨blk, hblk, hinsert⟩, hf'⟩

/-- A loop of steps that do not fault does not. -/
theorem exists_foldlM {α : Type} (step : Function → α → Checked Function) {l : List α}
    (hstep : ∀ a ∈ l, ∀ g, g.Sturdy m → f.Steady g →
      ∃ g', step g a = .ok g' ∧ g'.Sturdy m ∧ g.Steady g') :
    ∃ f', l.foldlM step f = .ok f' ∧ f'.Sturdy m ∧ f.Steady f' := by
  induction l generalizing f with
  | nil => exact ⟨f, rfl, hf, .refl f⟩
  | cons a rest ih =>
    obtain ⟨f₁, hf₁, hsturdy₁, hsteady₁⟩ := hstep a List.mem_cons_self f hf (.refl f)
    obtain ⟨f', hf', hsturdy', hsteady'⟩ := ih hsturdy₁ fun b hb g hg hsteady =>
      hstep b (List.mem_cons_of_mem _ hb) g hg (hsteady₁.trans hsteady)
    refine ⟨f', ?_, hsturdy', hsteady₁.trans hsteady'⟩
    rw [List.foldlM_cons]
    exact Checked.bind_eq_ok.mpr ⟨f₁, hf₁, hf'⟩

/-! ## Phis -/

omit hf in
theorem leading_eq_ok (holds : InstKind → Bool) {ids : List InstId}
    (hids : ∀ id ∈ ids, id.index < f.insts.size) :
    ∃ front, f.leading holds ids = .ok front ∧ ∀ id ∈ front, id.index < f.insts.size := by
  obtain ⟨front, hfront⟩ := Tidy.leading_eq_ok holds fun id hid => exists_kind (hids id hid)
  exact ⟨front, hfront, fun id hid => hids id (mem_of_mem_leading hfront hid)⟩

theorem phis_eq_ok (hb : b.index < f.blocks.size) :
    ∃ phis, f.phis b = .ok phis ∧ ∀ id ∈ phis, id.index < f.insts.size := by
  obtain ⟨blk, hblk⟩ := Function.exists_block hb
  obtain ⟨phis, hphis, hlt⟩ := Sturdy.leading_eq_ok InstKind.isPhi (hf.whole.insts b blk hblk)
  exact ⟨phis, Checked.bind_eq_ok.mpr ⟨blk, hblk, hphis⟩, hlt⟩

/-- The entries of the phis of a block may be exchanged for others that are known. -/
theorem changePhis (hb : b.index < f.blocks.size) (change : InstKind → InstKind)
    (hchange : ∀ g kind, f.Onward g → m.knowsKind g kind = true → change kind = kind ∨
      ∃ ty incoming incoming', kind = .phi ty incoming ∧ change kind = .phi ty incoming' ∧
        m.knowsKind g (.phi ty incoming') = true) :
    ∃ f', (do
      (← f.phis b).foldlM (fun f phi => f.modifyInst phi fun i => { i with kind := change i.kind }) f :
        Checked Function) = .ok f' ∧ f'.Sturdy m ∧ f.Steady f' := by
  obtain ⟨phis, hphis, hlt⟩ := hf.phis_eq_ok hb
  have hloop := hf.exists_foldlM (l := phis)
    (fun f phi => f.modifyInst phi fun i => { i with kind := change i.kind })
    fun id hid g hg hsteady => ?_
  · obtain ⟨f', hf', hrest⟩ := hloop
    exact ⟨f', Checked.bind_eq_ok.mpr ⟨phis, hphis, hf'⟩, hrest⟩
  have hstep : ∀ inst, g.inst id = .ok inst → change inst.kind = inst.kind ∨
      ∃ ty incoming incoming', inst.kind = .phi ty incoming ∧ change inst.kind = .phi ty incoming' ∧
        m.knowsKind g (.phi ty incoming') = true := fun inst hinst =>
    hchange g inst.kind hsteady.toOnward (hg.kinds id _ (kind_eq_ok.mpr ⟨inst, hinst, rfl⟩))
  refine ⟨_, modifyInst_eq_ok.mpr ⟨hsteady.lt_insts (hlt id hid), rfl⟩,
    hg.withInst (fun _ _ => .inl rfl) fun inst hinst => (hstep inst hinst).imp_right ?_,
    onward_withInst (fun _ _ => .inl rfl) fun inst hinst => (hstep inst hinst).imp_right ?_, ?_⟩
  · rintro ⟨ty, incoming, incoming', hphi, hphi', hknown⟩
    refine ⟨ty, incoming', hphi', hknown, fun _ => ⟨0, ?_⟩⟩
    exact valueTypeWithin_of_fixedType? (kind_eq_ok.mpr ⟨inst, hinst, hphi⟩) rfl 0
  · rintro ⟨ty, incoming, incoming', -, hphi', -⟩
    exact ⟨ty, incoming', hphi'⟩
  · intro i kind hi
    obtain ⟨inst, hinst, rfl⟩ := kind_eq_ok.mp hi
    rw [Function.kind, inst_withInst, hinst]
    split
    · next heq =>
      obtain rfl := heq
      obtain hsame | ⟨ty, incoming, incoming', hphi, hphi', -⟩ := hstep inst hinst
      · exact .inl (congrArg Except.ok hsame)
      · exact .inr ⟨ty, incoming, incoming', hphi, congrArg Except.ok hphi'⟩
    · exact .inl rfl

theorem replacePhiIncomingBlock (hb : b.index < f.blocks.size) (source : BlockId) {target : BlockId}
    (htarget : target.index < f.blocks.size) :
    ∃ f', f.replacePhiIncomingBlock b source target = .ok f' ∧ f'.Sturdy m ∧ f.Steady f' := by
  refine hf.changePhis hb (InstKind.renameIncoming source target)
    fun g kind honward hknown => ?_
  cases kind with
  | phi ty incoming =>
    refine .inr ⟨ty, incoming, _, rfl, rfl, Module.knowsKind_phi.mpr fun entry hentry => ?_⟩
    obtain ⟨old, hold, rfl⟩ := List.mem_map.mp hentry
    have hknown := Module.knowsKind_phi.mp hknown old hold
    split
    · exact ⟨hknown.1, honward.lt_blocks htarget⟩
    · exact hknown
  | _ => exact .inl rfl

theorem copyPhiIncoming (hb : b.index < f.blocks.size) (source : BlockId) {copy : BlockId}
    (hcopy : copy.index < f.blocks.size) :
    ∃ f', f.copyPhiIncoming b source copy = .ok f' ∧ f'.Sturdy m ∧ f.Steady f' := by
  refine hf.changePhis hb (Function.copyIncoming source copy)
    fun g kind honward hknown => ?_
  cases kind with
  | phi ty incoming =>
    unfold copyIncoming
    dsimp only
    split
    · next entry hfind =>
      refine .inr ⟨ty, incoming, _, rfl, rfl, Module.knowsKind_phi.mpr ?_⟩
      have hknown := Module.knowsKind_phi.mp hknown
      refine List.forall_mem_append.mpr ⟨hknown, List.forall_mem_singleton.mpr ?_⟩
      exact ⟨(hknown entry (List.mem_of_find?_eq_some hfind)).1, honward.lt_blocks hcopy⟩
    · exact .inl rfl
  | _ => exact .inl rfl

/-! ## Splitting -/

theorem ownInsts (hb : b.index < f.blocks.size) {ids : List InstId}
    (hids : ∀ id ∈ ids, id.index < f.insts.size) :
    ∃ f', f.ownInsts b ids = .ok f' ∧ f'.Sturdy m ∧ f.Steady f' ∧ ∀ id ∈ ids, f'.Owned id := by
  induction ids generalizing f with
  | nil => exact ⟨f, rfl, hf, .refl f, by simp⟩
  | cons id rest ih =>
    obtain ⟨hid, hrest⟩ := List.forall_mem_cons.mp hids
    set change : Inst → Inst := fun i => { i with block := some b }
    have hblock : ∀ inst, f.inst id = .ok inst → (change inst).block = inst.block ∨
        ∃ b, (change inst).block = some b ∧ b.index < f.blocks.size :=
      fun _ _ => .inr ⟨b, rfl, hb⟩
    have hsteady : f.Steady (f.withInst id change) := by
      refine ⟨onward_withInst hblock fun _ _ => .inl rfl, fun i kind hi => .inl ?_⟩
      obtain ⟨inst, hinst, rfl⟩ := kind_eq_ok.mp hi
      rw [Function.kind, inst_withInst, hinst]
      split <;> rfl
    have hown : (f.withInst id change).Owned id := by
      intro inst b' hinst hb'
      rw [inst_withInst, if_pos rfl] at hinst
      obtain ⟨inst₀, -, rfl⟩ := Checked.map_eq_ok.mp hinst
      obtain rfl := Option.some.inj hb'
      exact hb
    obtain ⟨f', hf', hsturdy, hsteady', howned⟩ :=
      ih (hf.withInst hblock fun _ _ => .inl rfl) (by simpa using hb) (by simpa using hrest)
    refine ⟨f', ?_, hsturdy, hsteady.trans hsteady', List.forall_mem_cons.mpr
      ⟨hsteady'.owned id (by simpa using hid) hown, howned⟩⟩
    unfold Function.ownInsts
    rw [List.foldlM_cons]
    exact Checked.bind_eq_ok.mpr ⟨_, modifyInst_eq_ok.mpr ⟨hid, rfl⟩, hf'⟩

theorem splitBlock (hb : b.index < f.blocks.size) (pos : Nat) (name : String) :
    ∃ f' tail, f.splitBlock b pos name = .ok (f', tail) ∧ f'.Sturdy m ∧ f.Steady f' ∧
      tail.index < f'.blocks.size := by
  set place := (((some b).bind (f.layout.idxOf? ·)).map (· + 1)).getD f.layout.length
  set tail : BlockId := ⟨f.blocks.size⟩
  have hnew := hf.withNewBlock name place
  have hsteady := f.steady_withNewBlock name place
  have htail : tail.index < (f.withNewBlock name place).blocks.size := by simp [tail]
  obtain ⟨blk, hblk⟩ := Function.exists_block (hsteady.lt_blocks hb)
  have hinsts := hnew.whole.insts b blk hblk
  have hsuccs := hnew.whole.successors b blk hblk
  obtain ⟨f₁, hown, hsturdy₁, hsteady₁, howned⟩ :=
    hnew.ownInsts htail fun id (hid : id ∈ blk.insts.drop pos) => hinsts id (List.mem_of_mem_drop hid)
  set f₂ := f₁.withBlock b fun b => { b with insts := b.insts.take pos, term := .br tail } with hf₂
  have hsteady₂ : f₁.Steady f₂ := steady_withBlock _ _ _
  have hsturdy₂ : f₂.Sturdy m := hsturdy₁.withBlock
    (fun blk _ id hid => .inl (List.mem_of_mem_take hid)) fun _ _ s hs => by
      obtain rfl := List.mem_singleton.mp hs
      exact hsteady₁.lt_blocks htail
  set f₃ := f₂.withBlock tail fun t => { t with insts := blk.insts.drop pos, term := blk.term } with hf₃
  have hsteady₃ : f₂.Steady f₃ := steady_withBlock _ _ _
  have hlater := hsteady₁.trans hsteady₂
  have hsturdy₃ : f₃.Sturdy m := by
    refine hsturdy₂.withBlock (fun _ _ id hid => .inr ⟨?_, ?_⟩) fun _ _ s hs => ?_
    · exact hlater.lt_insts (hinsts id (List.mem_of_mem_drop hid))
    · exact hsteady₂.owned id (hsteady₁.lt_insts (hinsts id (List.mem_of_mem_drop hid)))
        (howned id hid)
    · exact hlater.lt_blocks (hsuccs s hs)
  have hlast := hlater.trans hsteady₃
  obtain ⟨f', hf', hsturdy', hsteady'⟩ := hsturdy₃.exists_foldlM (l := blk.term.successors)
    (fun f succ => f.replacePhiIncomingBlock succ b tail) fun succ hsucc g hg hsteady =>
      hg.replacePhiIncomingBlock (hsteady.lt_blocks (hlast.lt_blocks (hsuccs succ hsucc))) b
        (hsteady.lt_blocks (hlast.lt_blocks htail))
  refine ⟨f', tail, ?_, hsturdy', (hsteady.trans hlast).trans hsteady',
    hsteady'.lt_blocks (hlast.lt_blocks htail)⟩
  refine Checked.bind_eq_ok.mpr ⟨blk, hblk, Checked.bind_eq_ok.mpr ⟨f₁, hown, ?_⟩⟩
  refine Checked.bind_eq_ok.mpr ⟨f₂, modifyBlock_eq_ok.mpr ⟨?_, hf₂⟩, ?_⟩
  · exact hsteady₁.lt_blocks (hsteady.lt_blocks hb)
  refine Checked.bind_eq_ok.mpr ⟨f₃, modifyBlock_eq_ok.mpr ⟨hlater.lt_blocks htail, hf₃⟩, ?_⟩
  exact Checked.bind_eq_ok.mpr ⟨f', hf', rfl⟩

end Sturdy

end Function

end EdgeProbe

namespace EdgeProbe

namespace Edit

variable {m : Module} {f : Function} {α β : Type}

/-- Sturdy functions, one leading on to another. -/
def course (m : Module) : Course Function where
  holds := fun f => f.Sturdy m
  leads := Function.Onward
  refl := Function.Onward.refl
  trans := Function.Onward.trans

/-- The edit does not fault, and leaves a sturdy function if it is not refused. -/
def Safe (m : Module) (x : Edit α) (f : Function) (post : α → Function → Prop) : Prop :=
  (course m).Safe x f post

theorem Safe.bind {x : Edit α} {k : α → Edit β} {q : α → Function → Prop}
    {post : β → Function → Prop} (hx : Safe m x f q)
    (hk : ∀ a g, g.Sturdy m → f.Onward g → q a g → Safe m (k a) g post) :
    Safe m (x >>= k) f post :=
  Course.Safe.bind hx hk

theorem Safe.imp {x : Edit α} {post post' : α → Function → Prop} (hx : Safe m x f post)
    (h : ∀ a g, g.Sturdy m → f.Onward g → post a g → post' a g) : Safe m x f post' :=
  Course.Safe.imp hx h

/-- Nothing is asked of what the edit yields. -/
theorem Safe.some {x : Edit α} {post : α → Function → Prop} (hx : Safe m x f post) :
    Safe m x f fun _ _ => True :=
  hx.imp fun _ _ _ _ _ => trivial

section

variable (hf : f.Sturdy m)
include hf

theorem safe_pure {a : α} {post : α → Function → Prop} (ha : post a f) :
    Safe m (pure a) f post :=
  Course.safe_pure hf ha

theorem safe_query {question : Function → Checked α} {a : α} (hquestion : question f = .ok a) :
    Safe m (query question) f fun b g => b = a ∧ g = f := by
  refine .bind (Course.safe_get hf) ?_
  rintro _ _ - - ⟨rfl, rfl⟩
  exact Course.safe_lift hf hquestion

/-- What follows a question goes on from the answer. -/
theorem safe_query_bind {question : Function → Checked α} {k : α → Edit β}
    {post : β → Function → Prop} {a : α} (hquestion : question f = .ok a)
    (hk : Safe m (k a) f post) : Safe m (query question >>= k) f post := by
  refine .bind (safe_query hf hquestion) ?_
  rintro _ _ - - ⟨rfl, rfl⟩
  exact hk

theorem safe_get_bind {k : Function → Edit β} {post : β → Function → Prop}
    (hk : Safe m (k f) f post) : Safe m (get >>= k) f post := by
  refine .bind (Course.safe_get hf) ?_
  rintro _ _ - - ⟨rfl, rfl⟩
  exact hk

omit hf in
theorem safe_apply {change : Function → Checked (Function × α)} {p : α → Function → Prop}
    (h : ∃ f' a, change f = .ok (f', a) ∧ f'.Sturdy m ∧ f.Onward f' ∧ p a f') :
    Safe m (apply change) f p := by
  obtain ⟨f', a, hchange, hf', honward, ha⟩ := h
  refine ⟨.ok a, f', ?_, fun _ heq => Except.ok.inj heq ▸ ⟨hf', honward, ha⟩⟩
  exact does_apply.mpr hchange

omit hf in
theorem safe_update {change : Function → Checked Function} {post : Unit → Function → Prop}
    (h : ∃ f', change f = .ok f' ∧ f'.Sturdy m ∧ f.Onward f' ∧ post () f') :
    Safe m (update change) f post := by
  obtain ⟨f', hchange, hf', honward, hpost⟩ := h
  refine ⟨.ok (), f', ?_, fun _ _ => ⟨hf', honward, hpost⟩⟩
  exact does_update.mpr hchange

theorem safe_setAnnotations (change : Annotations → Annotations) :
    Safe m (setAnnotations change) f fun _ _ => True :=
  ⟨.ok (), _, rfl, fun _ _ => ⟨hf.withAnnotations _, .withAnnotations f _, trivial⟩⟩

theorem safe_attach (id : InstId) (token : Token) (limits : Limits) :
    Safe m (attach id token limits) f fun _ _ => True := by
  unfold Safe Course.Safe attach
  split
  · exact ⟨.ok (), _, rfl, fun _ _ => ⟨hf.withAnnotations _, .withAnnotations f _, trivial⟩⟩
  · exact ⟨.error _, _, rfl, by simp⟩

/-! ## Blocks -/

theorem safe_addBlockBefore (name : String) (before : BlockId) :
    Safe m (addBlockBefore name before) f fun b g => b.index < g.blocks.size :=
  safe_apply ⟨_, _, congrArg Except.ok (Function.addBlockBefore_eq name before),
    hf.withNewBlock _ _, (f.steady_withNewBlock _ _).toOnward, by simp⟩

theorem safe_blockBefore (l : Label) (name : String) (before : BlockId) :
    Safe m (blockBefore l name before) f fun b g => b.index < g.blocks.size :=
  safe_addBlockBefore hf _ before

theorem safe_modifyBlock {b : BlockId} (hb : b.index < f.blocks.size) {change : Block → Block}
    (hinsts : ∀ blk, (change blk).insts = blk.insts)
    (hsuccs : ∀ blk, f.block b = .ok blk →
      ∀ s ∈ (change blk).term.successors, s.index < f.blocks.size) :
    Safe m (update fun f => f.modifyBlock b change) f fun _ g => f.Steady g :=
  safe_update ⟨_, Function.modifyBlock_eq_ok.mpr ⟨hb, rfl⟩,
    hf.withBlock (fun blk _ _ hid => .inl (hinsts blk ▸ hid)) hsuccs,
    (f.steady_withBlock _ _).toOnward, f.steady_withBlock _ _⟩

theorem safe_setTerminator {b : BlockId} (hb : b.index < f.blocks.size) {term : Terminator}
    (hsuccs : ∀ s ∈ term.successors, s.index < f.blocks.size) :
    Safe m (setTerminator b term) f fun _ g => f.Steady g :=
  safe_modifyBlock hf hb (fun _ => rfl) fun _ _ => hsuccs

theorem safe_setBr {b target : BlockId} (hb : b.index < f.blocks.size)
    (htarget : target.index < f.blocks.size) :
    Safe m (setTerminator b (.br target)) f fun _ g => f.Steady g :=
  safe_setTerminator hf hb (by simpa [Terminator.successors] using htarget)

theorem safe_setCondBr {b onTrue onFalse : BlockId} (hb : b.index < f.blocks.size) {cond : Value}
    (htrue : onTrue.index < f.blocks.size) (hfalse : onFalse.index < f.blocks.size) :
    Safe m (setTerminator b (.condBr cond onTrue onFalse)) f fun _ g => f.Steady g :=
  safe_setTerminator hf hb (by simpa [Terminator.successors] using ⟨htrue, hfalse⟩)

/-- Splitting the block of an instruction yields two blocks, unless the block does not list it. -/
theorem safe_splitAt (l : Label) {id : InstId} (hid : f.Held id) (name : String) :
    Safe m (splitAt l id name) f fun halves g => f.Steady g ∧
      ∀ head tail, halves = some (head, tail) →
        head.index < g.blocks.size ∧ tail.index < g.blocks.size := by
  obtain ⟨place, hplace, hlt⟩ := hid.owned.exists_position? hid.lt
  refine safe_query_bind hf hplace ?_
  cases place with
  | none => exact safe_pure hf ⟨.refl f, by simp⟩
  | some place =>
    obtain ⟨b, pos⟩ := place
    have hb := hlt b pos rfl
    obtain ⟨f', tail, hsplit, hf', hsteady, htail⟩ := hf.splitBlock hb pos (l.stem ++ name)
    refine .bind (safe_apply (p := fun t g => t = tail ∧ g = f')
      ⟨f', tail, hsplit, hf', hsteady.toOnward, rfl, rfl⟩) ?_
    rintro _ _ - honward ⟨rfl, rfl⟩
    refine safe_pure hf' ⟨hsteady, fun head tail' heq => ?_⟩
    obtain ⟨rfl, rfl⟩ := Prod.mk.inj (Option.some.inj heq)
    exact ⟨honward.lt_blocks hb, htail⟩

/-! ## Instructions -/

theorem safe_kind_bind {id : InstId} {k : InstKind → Edit β} {post : β → Function → Prop}
    {kind : InstKind} (hkind : f.kind id = .ok kind) (hk : Safe m (k kind) f post) :
    Safe m (Edit.kind id >>= k) f post :=
  safe_query_bind hf hkind hk

theorem safe_labelFor (stem : String) {id : InstId} (hid : id.index < f.insts.size) :
    Safe m (labelFor stem id) f fun _ g => g = f := by
  obtain ⟨inst, hinst⟩ := Function.exists_inst hid
  exact safe_query_bind hf hinst (safe_pure hf rfl)

theorem safe_labelFor_bind (stem : String) {id : InstId} (hid : id.index < f.insts.size)
    {k : Label → Edit β} {post : β → Function → Prop} (hk : ∀ l, Safe m (k l) f post) :
    Safe m (labelFor stem id >>= k) f post := by
  refine .bind (safe_labelFor hf stem hid) ?_
  rintro l _ - - rfl
  exact hk l

theorem safe_insertInst {b : BlockId} (hb : b.index < f.blocks.size) {kind : InstKind}
    (hkind : f.Suits m kind) (pos : Nat) (name : String) (loc : Option DebugLoc) :
    Safe m (insertInst b pos kind name loc) f fun id g => id.index < g.insts.size := by
  obtain ⟨f', id, hinsert, hf', hsteady, hid⟩ := hf.insertInst hb hkind pos name loc
  exact safe_apply ⟨f', id, hinsert, hf', hsteady.toOnward, hid⟩

theorem safe_pushInst {b : BlockId} (hb : b.index < f.blocks.size) {kind : InstKind}
    (hkind : f.Suits m kind) (name : String) (loc : Option DebugLoc) :
    Safe m (pushInst b kind name loc) f fun id g => id.index < g.insts.size := by
  obtain ⟨f', id, hpush, hf', hsteady, hid⟩ := hf.pushInst hb hkind name loc
  exact safe_apply ⟨f', id, hpush, hf', hsteady.toOnward, hid⟩

theorem safe_emit (l : Label) {b : BlockId} (hb : b.index < f.blocks.size) {kind : InstKind}
    (hkind : f.Suits m kind) (name : String) :
    Safe m (emit l b kind name) f fun id g => m.knowsValue g (.inst id) = true :=
  (safe_pushInst hf hb hkind _ _).imp fun _ _ _ _ hid => decide_eq_true hid

theorem safe_emitValue (l : Label) {b : BlockId} (hb : b.index < f.blocks.size) {kind : InstKind}
    (hkind : f.Suits m kind) (name : String) :
    Safe m (emitValue l b kind name) f fun value g => m.knowsValue g value = true :=
  .bind (safe_emit hf l hb hkind name) fun _ _ hg _ hid => safe_pure hg hid

theorem safe_modifyInst {id : InstId} (hid : id.index < f.insts.size) {change : Inst → Inst}
    (hblock : ∀ inst, (change inst).block = inst.block) (hkind : ∀ inst, f.inst id = .ok inst →
      (change inst).kind = inst.kind ∨ ∃ ty incoming, (change inst).kind = .phi ty incoming ∧
        m.knowsKind f (.phi ty incoming) = true ∧ (ty = .int 0 → f.HasType (.inst id) ty)) :
    Safe m (update fun f => f.modifyInst id change) f fun _ _ => True :=
  safe_update ⟨_, Function.modifyInst_eq_ok.mpr ⟨hid, rfl⟩,
    hf.withInst (fun inst _ => .inl (hblock inst)) hkind,
    Function.onward_withInst (fun inst _ => .inl (hblock inst)) fun inst hinst =>
      (hkind inst hinst).imp_right fun h => h.imp fun _ h => h.imp fun _ h => h.1, trivial⟩

theorem safe_markSplit {id : InstId} (hid : id.index < f.insts.size) :
    Safe m (markSplit id) f fun _ _ => True :=
  safe_modifyInst hf hid (fun _ => rfl) fun _ _ => .inl rfl

/-- An instruction becomes a phi of known entries. -/
theorem safe_replaceKind {id : InstId} (hid : id.index < f.insts.size) {ty : Ty}
    {incoming : List (Value × BlockId)}
    (hknown : ∀ entry ∈ incoming, m.knowsValue f entry.1 = true ∧ entry.2.index < f.blocks.size)
    (hty : ty = .int 0 → f.HasType (.inst id) ty) :
    Safe m (replaceKind id (.phi ty incoming)) f fun _ _ => True :=
  safe_modifyInst hf hid (fun _ => rfl) fun _ _ =>
    .inr ⟨ty, incoming, rfl, Module.knowsKind_phi.mpr hknown, hty⟩

/-- The phi stands for one of two values, whichever block it is come to from. -/
theorem safe_choose {id : InstId} (hid : id.index < f.insts.size) {ty : Ty} {first second : Value}
    {b b' : BlockId} (hfirst : m.knowsValue f first = true) (hb : b.index < f.blocks.size)
    (hsecond : m.knowsValue f second = true) (hb' : b'.index < f.blocks.size)
    (hty : ty = .int 0 → f.HasType (.inst id) ty) :
    Safe m (replaceKind id (.phi ty [(first, b), (second, b')])) f fun _ _ => True :=
  safe_replaceKind hf hid (List.forall_mem_cons.mpr
    ⟨⟨hfirst, hb⟩, List.forall_mem_singleton.mpr ⟨hsecond, hb'⟩⟩) hty

/-- In a loop each step begins with a function that the first one has led on to. -/
theorem safe_forM {g : α → Edit Unit} {l : List α}
    (h : ∀ a ∈ l, ∀ f', f'.Sturdy m → f.Onward f' → Safe m (g a) f' fun _ _ => True) :
    Safe m (l.forM g) f fun _ _ => True :=
  Course.Safe.forM hf h

theorem safe_foldlM {g : β → α → Edit β} {l : List α} {b : β}
    (h : ∀ a ∈ l, ∀ b f', f'.Sturdy m → f.Onward f' → Safe m (g b a) f' fun _ _ => True) :
    Safe m (l.foldlM g b) f fun _ _ => True :=
  Course.Safe.foldlM hf h

end

end Edit

end EdgeProbe
