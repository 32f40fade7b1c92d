import EdgeProbe.Lowering.Chain
import EdgeProbe.Proofs.Code.Opened

/-!
# Splitting a block

What a function looks like once the block of an instruction has been split in front of it: it is cut
open there, and the one part is what comes before.
-/

namespace EdgeProbe

namespace InstKind

variable {source target : BlockId}

@[simp] theorem isPhi_renameIncoming (kind : InstKind) :
    (kind.renameIncoming source target).isPhi = kind.isPhi := by
  cases kind <;> rfl

@[simp] theorem operands_renameIncoming (kind : InstKind) :
    (kind.renameIncoming source target).operands = kind.operands := by
  cases kind with
  | phi ty incoming =>
    simp only [renameIncoming, operands, List.map_map]
    apply List.map_congr_left
    intro entry _
    dsimp only [Function.comp_apply]
    split <;> rfl
  | _ => rfl

theorem renameIncoming_of_not_phi {kind : InstKind} (h : kind.isPhi = false) :
    kind.renameIncoming source target = kind := by
  cases kind with
  | phi ty incoming => cases h
  | _ => rfl

theorem renameIncoming_renameIncoming (hne : source ≠ target) (kind : InstKind) :
    (kind.renameIncoming source target).renameIncoming source target =
      kind.renameIncoming source target := by
  cases kind with
  | phi ty incoming =>
    simp only [renameIncoming, List.map_map]
    congr 1
    apply List.map_congr_left
    intro entry _
    by_cases h : entry.2 = source
    · simp [h, hne.symm]
    · simp [h]
  | _ => rfl

end InstKind

namespace Function

variable {f f' : Function}

/-- The functions differ in nothing but their instructions, of which there are as many. -/
def SameFrame (f f' : Function) : Prop :=
  ∃ insts, f' = { f with insts } ∧ insts.size = f.insts.size

theorem SameFrame.refl (f : Function) : f.SameFrame f :=
  ⟨f.insts, rfl, rfl⟩

theorem SameFrame.trans {f₁ : Function} (h : f.SameFrame f₁) (h' : f₁.SameFrame f') :
    f.SameFrame f' := by
  obtain ⟨insts, rfl, hsize⟩ := h
  obtain ⟨insts', rfl, hsize'⟩ := h'
  exact ⟨insts', rfl, hsize'.trans hsize⟩

section

variable (h : f.SameFrame f')
include h

theorem SameFrame.name_eq : f'.name = f.name := by
  obtain ⟨insts, rfl, -⟩ := h
  rfl

theorem SameFrame.params_eq : f'.params = f.params := by
  obtain ⟨insts, rfl, -⟩ := h
  rfl

theorem SameFrame.annotations_eq : f'.annotations = f.annotations := by
  obtain ⟨insts, rfl, -⟩ := h
  rfl

theorem SameFrame.layout_eq : f'.layout = f.layout := by
  obtain ⟨insts, rfl, -⟩ := h
  rfl

theorem SameFrame.blocks_eq : f'.blocks = f.blocks := by
  obtain ⟨insts, rfl, -⟩ := h
  rfl

theorem SameFrame.size_eq : f'.insts.size = f.insts.size := by
  obtain ⟨insts, rfl, hsize⟩ := h
  exact hsize

theorem SameFrame.block_eq (b : BlockId) : f'.block b = f.block b := by
  rw [block, block, h.blocks_eq]

end

/-- One change made to several instructions, which does no more when it is made again. -/
theorem foldlM_modifyInst {ids : List InstId} {change : Inst → Inst}
    (h : ids.foldlM (fun f id => f.modifyInst id change) f = .ok f')
    (hchange : ∀ i, change (change i) = change i) :
    f.SameFrame f' ∧
      ∀ i, f'.inst i = if i ∈ ids then (f.inst i).map change else f.inst i := by
  induction ids generalizing f with
  | nil =>
    obtain rfl := Checked.pure_eq_ok.mp h
    exact ⟨.refl f, fun i => by simp⟩
  | cons id rest ih =>
    rw [List.foldlM_cons, Checked.bind_eq_ok] at h
    obtain ⟨f₁, hf₁, hrest⟩ := h
    obtain ⟨-, rfl⟩ := modifyInst_eq_ok.mp hf₁
    obtain ⟨hframe, hinst⟩ := ih hrest
    refine ⟨SameFrame.trans ⟨_, rfl, size_insts_withInst f id change⟩ hframe, fun i => ?_⟩
    rw [hinst i, inst_withInst]
    by_cases hid : i = id
    · subst hid
      rw [if_pos List.mem_cons_self, if_pos rfl]
      cases f.inst i <;> simp [Except.map, hchange]
    · simp [hid]

/-- What leads a list depends on nothing but whether the kinds are as asked. -/
theorem leading_congr {holds : InstKind → Bool} {ids front : List InstId}
    (hkind : ∀ id ∈ ids, ∀ kind, f.kind id = .ok kind →
      ∃ kind', f'.kind id = .ok kind' ∧ holds kind' = holds kind)
    (h : f.leading holds ids = .ok front) : f'.leading holds ids = .ok front := by
  induction ids generalizing front with
  | nil => exact h
  | cons id rest ih =>
    rw [leading] at h ⊢
    obtain ⟨kind, hk, h⟩ := Checked.bind_eq_ok.mp h
    obtain ⟨kind', hk', hholds⟩ := hkind id List.mem_cons_self kind hk
    refine Checked.bind_eq_ok.mpr ⟨kind', hk', ?_⟩
    rw [hholds]
    split
    · next hk =>
      rw [if_pos hk] at h
      obtain ⟨front', hfront, h⟩ := Checked.bind_eq_ok.mp h
      exact Checked.bind_eq_ok.mpr
        ⟨front', ih (fun i hi => hkind i (List.mem_cons_of_mem _ hi)) hfront, h⟩
    · next hk =>
      rw [if_neg hk] at h
      exact h

/-- A source is renamed in an instruction. -/
def renameIn (source target : BlockId) (i : Inst) : Inst :=
  { i with kind := i.kind.renameIncoming source target }

/-- Renaming a source leaves each block the phis that it has. -/
theorem phis_iff_of_renamed {source target : BlockId} (hframe : f.SameFrame f')
    (hinst : ∀ i, f'.inst i = f.inst i ∨ f'.inst i = (f.inst i).map (renameIn source target))
    (b : BlockId) (phis : List InstId) : f'.phis b = .ok phis ↔ f.phis b = .ok phis := by
  have hkept : ∀ i kind, f.kind i = .ok kind →
      ∃ kind', f'.kind i = .ok kind' ∧ kind'.isPhi = kind.isPhi := by
    intro i kind hkind
    obtain ⟨inst, hi, rfl⟩ := kind_eq_ok.mp hkind
    obtain h | h := hinst i
    · exact ⟨inst.kind, kind_eq_ok.mpr ⟨inst, h.trans hi, rfl⟩, rfl⟩
    · refine ⟨_, kind_eq_ok.mpr ⟨_, by rw [h, hi]; rfl, rfl⟩, ?_⟩
      exact InstKind.isPhi_renameIncoming inst.kind
  constructor
  · intro hphis
    obtain ⟨blk, hblk, hlead⟩ := phis_eq_ok hphis
    refine Checked.bind_eq_ok.mpr ⟨blk, (hframe.block_eq b).symm.trans hblk, ?_⟩
    refine leading_congr (fun id _ kind hkind => ?_) hlead
    have hlt : id.index < f.insts.size := hframe.size_eq ▸ index_lt_of_kind hkind
    have hkind₀ : f.kind id = .ok f.insts[id.index].kind :=
      kind_eq_ok.mpr ⟨_, inst_eq_ok.mpr (Array.getElem?_eq_getElem hlt), rfl⟩
    obtain ⟨kind', hkind', hsame⟩ := hkept id _ hkind₀
    obtain rfl := Except.ok.inj (hkind.symm.trans hkind')
    exact ⟨_, hkind₀, hsame.symm⟩
  · intro hphis
    obtain ⟨blk, hblk, hlead⟩ := phis_eq_ok hphis
    exact Checked.bind_eq_ok.mpr ⟨blk, (hframe.block_eq b).trans hblk,
      leading_congr (fun id _ => hkept id) hlead⟩

/-- A source is renamed in the phis of several blocks, and in no other instruction. -/
theorem foldlM_replacePhiIncomingBlock {succs : List BlockId} {source target : BlockId}
    (hne : source ≠ target)
    (h : succs.foldlM (fun f succ => f.replacePhiIncomingBlock succ source target) f = .ok f') :
    f.SameFrame f' ∧
      (∀ i, f'.inst i = f.inst i ∨
        f.PhiOf succs i ∧ f'.inst i = (f.inst i).map (renameIn source target)) ∧
      ∀ succ ∈ succs, ∀ phis, f.phis succ = .ok phis → ∀ i ∈ phis,
        f'.inst i = (f.inst i).map (renameIn source target) := by
  have hidem : ∀ i, renameIn source target (renameIn source target i) = renameIn source target i :=
    fun i => by simp [renameIn, InstKind.renameIncoming_renameIncoming hne]
  have htwice : ∀ r : Checked Inst, (r.map (renameIn source target)).map (renameIn source target) =
      r.map (renameIn source target) := by
    intro r
    cases r <;> simp [Except.map, hidem]
  induction succs generalizing f with
  | nil =>
    obtain rfl := Checked.pure_eq_ok.mp h
    exact ⟨.refl f, fun i => .inl rfl, by simp⟩
  | cons succ rest ih =>
    rw [List.foldlM_cons, Checked.bind_eq_ok] at h
    obtain ⟨f₁, hf₁, hrest⟩ := h
    obtain ⟨phis, hphis, hf₁⟩ := Checked.bind_eq_ok.mp hf₁
    obtain ⟨hframe₁, hinst₁⟩ := foldlM_modifyInst hf₁ hidem
    obtain ⟨hframe, hinst, hrenamed⟩ := ih hrest
    have hfirst : ∀ i, f₁.inst i = f.inst i ∨
        i ∈ phis ∧ f₁.inst i = (f.inst i).map (renameIn source target) := by
      intro i
      rw [hinst₁ i]
      split
      · next hi => exact .inr ⟨hi, rfl⟩
      · exact .inl rfl
    have hphis₁ := phis_iff_of_renamed hframe₁ fun i => (hfirst i).imp_right And.right
    refine ⟨hframe₁.trans hframe, fun i => ?_, ?_⟩
    · have hofFirst : i ∈ phis → f.PhiOf (succ :: rest) i :=
        fun hi => ⟨succ, List.mem_cons_self, phis, hphis, hi⟩
      have hofRest : f₁.PhiOf rest i → f.PhiOf (succ :: rest) i := by
        rintro ⟨b, hb, phis', hphis', hi⟩
        exact ⟨b, List.mem_cons_of_mem _ hb, phis', (hphis₁ b phis').mp hphis', hi⟩
      obtain h₁ | ⟨hi₁, h₁⟩ := hfirst i <;> obtain h₂ | ⟨hi₂, h₂⟩ := hinst i
      · exact .inl (h₂.trans h₁)
      · exact .inr ⟨hofRest hi₂, by rw [h₂, h₁]⟩
      · exact .inr ⟨hofFirst hi₁, h₂.trans h₁⟩
      · exact .inr ⟨hofFirst hi₁, by rw [h₂, h₁, htwice]⟩
    · refine List.forall_mem_cons.mpr ⟨?_, ?_⟩
      · intro phis' hphis' i hi
        obtain rfl : phis = phis' := Except.ok.inj (hphis.symm.trans hphis')
        have h₁ : f₁.inst i = (f.inst i).map (renameIn source target) := by
          rw [hinst₁ i, if_pos hi]
          rfl
        obtain h₂ | ⟨-, h₂⟩ := hinst i
        · exact h₂.trans h₁
        · rw [h₂, h₁, htwice]
      · intro succ' hsucc' phis' hphis' i hi
        have hlast := hrenamed succ' hsucc' phis' ((hphis₁ succ' phis').mpr hphis') i hi
        obtain h₁ | ⟨-, h₁⟩ := hfirst i
        · rw [hlast, h₁]
        · rw [hlast, h₁, htwice]

/-- What leads a list is not longer than up to the first kind that is not as asked. -/
theorem leading_of_append {holds : InstKind → Bool} {front back ids : List InstId} {id : InstId}
    {kind : InstKind} (hkind : f.kind id = .ok kind) (hholds : holds kind = false)
    (h : f.leading holds (front ++ id :: back) = .ok ids) : f.leading holds front = .ok ids := by
  induction front generalizing ids with
  | nil =>
    rw [List.nil_append, leading, hkind] at h
    simpa [bind, Except.bind, hholds, leading] using h
  | cons first rest ih =>
    rw [List.cons_append, leading] at h
    rw [leading]
    obtain ⟨kind', hkind', h⟩ := Checked.bind_eq_ok.mp h
    refine Checked.bind_eq_ok.mpr ⟨kind', hkind', ?_⟩
    split
    · next hk =>
      rw [if_pos hk] at h
      obtain ⟨ids', hids', h⟩ := Checked.bind_eq_ok.mp h
      exact Checked.bind_eq_ok.mpr ⟨ids', ih hids', h⟩
    · next hk =>
      rw [if_neg hk] at h
      exact h

/-- What leads a list up to an instruction that is not as asked leads the whole of it. -/
theorem leading_append_of_not {holds : InstKind → Bool} {front back ids : List InstId} {id : InstId}
    {kind : InstKind} (hkind : f.kind id = .ok kind) (hholds : holds kind = false)
    (h : f.leading holds front = .ok ids) : f.leading holds (front ++ id :: back) = .ok ids := by
  induction front generalizing ids with
  | nil =>
    rw [List.nil_append, leading, hkind]
    simpa [bind, Except.bind, hholds, leading] using h
  | cons first rest ih =>
    rw [leading] at h
    rw [List.cons_append, leading]
    obtain ⟨kind', hkind', h⟩ := Checked.bind_eq_ok.mp h
    refine Checked.bind_eq_ok.mpr ⟨kind', hkind', ?_⟩
    split
    · next hk =>
      rw [if_pos hk] at h
      obtain ⟨ids', hids', h⟩ := Checked.bind_eq_ok.mp h
      exact Checked.bind_eq_ok.mpr ⟨ids', ih hids', h⟩
    · next hk =>
      rw [if_neg hk] at h
      exact h

/-- The place of a live instruction is where it is listed. -/
theorem Tidy.position?_eq (hf : f.Tidy) {id : InstId} {b : BlockId} {pos : Nat}
    (hid : f.Listed id b pos) : f.position? id = .ok (some (b, pos)) := by
  obtain ⟨inst, hinst, hblock⟩ := hf.home id b pos hid
  obtain ⟨hb, blk, hblk, hpos⟩ := hid
  obtain ⟨hlt, hget⟩ := List.getElem?_eq_some_iff.mp hpos
  have hindex : blk.insts.idxOf? id = some pos := by
    refine List.idxOf?_eq_some_iff.mpr ⟨hlt, by simp [hget], fun j hj => ?_⟩
    have hne : blk.insts[j] ≠ blk.insts[pos] := fun heq =>
      absurd ((hf.nodup b hb blk hblk).getElem_inj_iff.mp heq) hj.ne
    rw [hget] at hne
    simpa using hne
  unfold position?
  simp [bind, Except.bind, hinst, hblock, hblk, hindex, pure, Except.pure]

/-- The cut of a block in front of a position. -/
def cutAt (b : BlockId) (blk : Block) (pos : Nat) (site : InstId) : Cut where
  head := b
  name := blk.name
  before := blk.insts.take pos
  site := site
  after := blk.insts.drop (pos + 1)
  term := blk.term

theorem cutAt_of {b : BlockId} {blk : Block} {pos : Nat} {site : InstId} (hb : b ∈ f.layout)
    (hblk : f.block b = .ok blk) (hpos : blk.insts[pos]? = some site) :
    (cutAt b blk pos site).Of f where
  live := hb
  block := by
    obtain ⟨hlt, rfl⟩ := List.getElem?_eq_some_iff.mp hpos
    simp [cutAt, hblk]

/-- What a function looks like when a block has been split in front of a position. -/
structure BlockSplit (f : Function) (b : BlockId) (blk : Block) (pos : Nat) (tail : BlockId)
    (f' : Function) : Prop where
  new : tail = ⟨f.blocks.size⟩
  name : f'.name = f.name
  params : f'.params = f.params
  annotations : f'.annotations = f.annotations
  layout : ∃ place < f.layout.length, f'.layout = f.layout.insertIdx (place + 1) tail
  size : f'.blocks.size = f.blocks.size + 1
  sizeInsts : f'.insts.size = f.insts.size
  head : f'.block b = .ok ⟨blk.name, blk.insts.take pos, .br tail⟩
  rest : ∃ name, f'.block tail = .ok ⟨name, blk.insts.drop pos, blk.term⟩
  kept : ∀ b' : BlockId, b'.index < f.blocks.size → b' ≠ b → f'.block b' = f.block b'
  kinds : ∀ i kind, f.kind i = .ok kind →
    f'.kind i = .ok kind ∨ ((∃ succ ∈ blk.term.successors, ∃ phis, i ∈ phis ∧
      if succ = b then f.leading InstKind.isPhi (blk.insts.take pos) = .ok phis
      else f.phis succ = .ok phis) ∧ f'.kind i = .ok (kind.renameIncoming b tail))
  renamed : ∀ succ ∈ blk.term.successors, succ ≠ b → ∀ phis, f.phis succ = .ok phis →
    ∀ i ∈ phis, ∀ kind, f.kind i = .ok kind → f'.kind i = .ok (kind.renameIncoming b tail)
  renamedHere : b ∈ blk.term.successors → ∀ phis,
    f.leading InstKind.isPhi (blk.insts.take pos) = .ok phis →
      ∀ i ∈ phis, ∀ kind, f.kind i = .ok kind → f'.kind i = .ok (kind.renameIncoming b tail)
  parents : ∀ i inst, f.inst i = .ok inst → ∃ inst', f'.inst i = .ok inst' ∧
    (inst'.block = if i ∈ blk.insts.drop pos then some tail else inst.block) ∧
      inst'.split = inst.split

/-- The stages of a split: a new block behind the old one, which takes over the instructions from the
position on and the end, and is named as a source in its place. -/
theorem exists_stages_of_splitBlock {b tail : BlockId} {blk : Block} {pos : Nat} {name : String}
    (hb : b ∈ f.layout) (hblk : f.block b = .ok blk)
    (h : f.splitBlock b pos name = .ok (f', tail)) :
    tail = ⟨f.blocks.size⟩ ∧ ∃ place < f.layout.length, ∃ f₁,
      (f.withNewBlock name (place + 1)).ownInsts tail (blk.insts.drop pos) = .ok f₁ ∧
        blk.term.successors.foldlM (fun f succ => f.replacePhiIncomingBlock succ b tail)
          ((f₁.withBlock b fun b => { b with insts := b.insts.take pos, term := .br tail }).withBlock
            tail fun t => { t with insts := blk.insts.drop pos, term := blk.term }) = .ok f' := by
  have hlt := index_lt_of_block hblk
  obtain ⟨place, hplace⟩ := Option.isSome_iff_exists.mp (List.isSome_idxOf?.mpr hb)
  obtain ⟨hplaceLt, -, -⟩ := List.idxOf?_eq_some_iff.mp hplace
  rw [splitBlock, addBlock_eq] at h
  simp only [Option.bind_some, hplace, Option.map_some, Option.getD_some] at h
  obtain ⟨blk', hblk', h⟩ := Checked.bind_eq_ok.mp h
  obtain rfl : blk' = blk := by
    rw [block_withNewBlock, if_neg hlt.ne, hblk] at hblk'
    exact (Except.ok.inj hblk').symm
  obtain ⟨f₁, hf₁, h⟩ := Checked.bind_eq_ok.mp h
  obtain ⟨f₂, hf₂, h⟩ := Checked.bind_eq_ok.mp h
  obtain ⟨f₃, hf₃, h⟩ := Checked.bind_eq_ok.mp h
  obtain ⟨f₄, hf₄, h⟩ := Checked.bind_eq_ok.mp h
  obtain ⟨rfl, rfl⟩ := Prod.mk.inj (Checked.pure_eq_ok.mp h)
  obtain ⟨-, rfl⟩ := modifyBlock_eq_ok.mp hf₂
  obtain ⟨-, rfl⟩ := modifyBlock_eq_ok.mp hf₃
  exact ⟨rfl, place, hplaceLt, f₁, hf₁, hf₄⟩

theorem splitBlock_eq_ok {b tail : BlockId} {blk : Block} {pos : Nat} {name : String}
    (hb : b ∈ f.layout) (hblk : f.block b = .ok blk)
    (hsuccs : ∀ s ∈ blk.term.successors, s.index < f.blocks.size)
    (h : f.splitBlock b pos name = .ok (f', tail)) : BlockSplit f b blk pos tail f' := by
  have hlt := index_lt_of_block hblk
  obtain ⟨rfl, place, hplaceLt, f₁, hf₁, hf₄⟩ := exists_stages_of_splitBlock hb hblk h
  set tail : BlockId := ⟨f.blocks.size⟩ with htail
  obtain ⟨hframe₁, hinst₁⟩ := foldlM_modifyInst hf₁ fun _ => rfl
  have hne : b ≠ tail := by
    rintro rfl
    exact absurd hlt (lt_irrefl _)
  obtain ⟨hframe₄, hinst₄, hrenamed⟩ := foldlM_replacePhiIncomingBlock hne hf₄
  have hhead : f'.block b = .ok ⟨blk.name, blk.insts.take pos, .br tail⟩ := by
    rw [hframe₄.block_eq, block_withBlock, if_neg hne, block_withBlock, if_pos rfl,
      hframe₁.block_eq, block_withNewBlock, if_neg hlt.ne, hblk]
    rfl
  have hrest : f'.block tail = .ok ⟨name, blk.insts.drop pos, blk.term⟩ := by
    rw [hframe₄.block_eq, block_withBlock, if_pos rfl, block_withBlock, if_neg hne.symm,
      hframe₁.block_eq, block_withNewBlock, if_pos rfl]
    rfl
  have hkept : ∀ b' : BlockId, b'.index < f.blocks.size → b' ≠ b → f'.block b' = f.block b' := by
    intro b' hlt' hne'
    have hne'' : b' ≠ tail := by
      rintro rfl
      exact absurd hlt' (lt_irrefl _)
    rw [hframe₄.block_eq, block_withBlock, if_neg hne'', block_withBlock, if_neg hne',
      hframe₁.block_eq, block_withNewBlock, if_neg hlt'.ne]
  have hkind₁ : ∀ i, f₁.kind i = f.kind i := by
    intro i
    rw [Function.kind, Function.kind, hinst₁ i, inst_withNewBlock]
    split
    · cases f.inst i <;> rfl
    · rfl
  have hrenamedKind : ∀ i k, f.kind i = .ok k → f'.inst i =
      (f₁.inst i).map (renameIn b tail) → f'.kind i = .ok (k.renameIncoming b tail) := by
    intro i k hk hi
    obtain ⟨inst, hinst, rfl⟩ := kind_eq_ok.mp ((hkind₁ i).trans hk)
    exact kind_eq_ok.mpr ⟨renameIn b tail inst, by rw [hi, hinst]; rfl, rfl⟩
  have hsame : ∀ {f₃ : Function} {ids front}, (∀ id, f₃.kind id = f₁.kind id) →
      f.leading InstKind.isPhi ids = .ok front → f₃.leading InstKind.isPhi ids = .ok front :=
    fun hk₃ => leading_congr fun id _ k hk => ⟨k, (hk₃ id).trans ((hkind₁ id).trans hk), rfl⟩
  refine
    { new := rfl, name := hframe₄.name_eq.trans hframe₁.name_eq,
      params := hframe₄.params_eq.trans hframe₁.params_eq,
      annotations := hframe₄.annotations_eq.trans hframe₁.annotations_eq,
      layout := ⟨place, hplaceLt, ?layout⟩, size := ?size, sizeInsts := ?sizeInsts,
      head := hhead, rest := ⟨name, hrest⟩, kept := hkept, kinds := ?kinds, renamed := ?renamed,
      renamedHere := ?renamedHere, parents := ?parents }
  case layout =>
    rw [hframe₄.layout_eq]
    exact hframe₁.layout_eq
  case size =>
    rw [hframe₄.blocks_eq, size_blocks_withBlock, size_blocks_withBlock, hframe₁.blocks_eq,
      size_blocks_withNewBlock]
  case sizeInsts =>
    rw [hframe₄.size_eq]
    exact hframe₁.size_eq
  case kinds =>
    intro i k hk
    obtain hi | ⟨hphi, hi⟩ := hinst₄ i
    · exact .inl (by rw [← hk, ← hkind₁, Function.kind, hi]; rfl)
    refine .inr ⟨?_, hrenamedKind i k hk hi⟩
    obtain ⟨succ, hsucc, phis, hphis, hmem⟩ := hphi
    obtain ⟨blkS, hblkS, hlead⟩ := phis_eq_ok hphis
    have hlead : f.leading InstKind.isPhi blkS.insts = .ok phis := by
      refine leading_congr (fun id _ k hk => ⟨k, ?_, rfl⟩) hlead
      rw [← hkind₁]
      exact hk
    rw [← hframe₄.block_eq] at hblkS
    refine ⟨succ, hsucc, phis, hmem, ?_⟩
    by_cases hs : succ = b
    · rw [hs] at hblkS
      obtain rfl := Except.ok.inj (hhead.symm.trans hblkS)
      rw [if_pos hs]
      exact hlead
    · rw [hkept succ (hsuccs succ hsucc) hs] at hblkS
      rw [if_neg hs]
      exact Checked.bind_eq_ok.mpr ⟨blkS, hblkS, hlead⟩
  case renamed =>
    intro succ hsucc hs phis hphis i hi k hk
    refine hrenamedKind i k hk (hrenamed succ hsucc phis ?_ i hi)
    obtain ⟨blkS, hblkS, hlead⟩ := phis_eq_ok hphis
    have hslt := index_lt_of_block hblkS
    refine Checked.bind_eq_ok.mpr ⟨blkS, ?_, hsame (fun _ => rfl) hlead⟩
    rw [← hframe₄.block_eq, hkept succ hslt hs, hblkS]
  case renamedHere =>
    intro hloop phis hlead i hi k hk
    refine hrenamedKind i k hk (hrenamed b hloop phis ?_ i hi)
    exact Checked.bind_eq_ok.mpr
      ⟨_, (hframe₄.block_eq b).symm.trans hhead, hsame (fun _ => rfl) hlead⟩
  case parents =>
    intro i inst hi
    have hparent : ∃ inst₁, f₁.inst i = .ok inst₁ ∧
        (inst₁.block = if i ∈ blk.insts.drop pos then some tail else inst.block) ∧
          inst₁.split = inst.split := by
      rw [hinst₁ i, inst_withNewBlock, hi]
      by_cases hmem : i ∈ blk.insts.drop pos
      · rw [if_pos hmem, if_pos hmem]
        exact ⟨_, rfl, rfl, rfl⟩
      · rw [if_neg hmem, if_neg hmem]
        exact ⟨_, rfl, rfl, rfl⟩
    obtain ⟨inst₁, hi₁, hblock₁⟩ := hparent
    obtain hi₄ | ⟨-, hi₄⟩ := hinst₄ i
    · exact ⟨inst₁, hi₄.trans hi₁, hblock₁⟩
    · refine ⟨renameIn b tail inst₁, ?_, hblock₁⟩
      rw [hi₄]
      exact congrArg (Except.map _) hi₁

theorem BlockSplit.mem_layout {b tail : BlockId} {blk : Block} {pos : Nat}
    (h : BlockSplit f b blk pos tail f') {b' : BlockId} :
    b' ∈ f'.layout ↔ b' = tail ∨ b' ∈ f.layout := by
  obtain ⟨place, hplace, hlayout⟩ := h.layout
  rw [hlayout, List.mem_insertIdx hplace]

theorem BlockSplit.block_eq_ok {b tail : BlockId} {blk : Block} {pos : Nat}
    (h : BlockSplit f b blk pos tail f') {b' : BlockId} {blk' : Block}
    (hblk' : f'.block b' = .ok blk') : b'.index < f.blocks.size ∨ b' = tail := by
  have hlt := index_lt_of_block hblk'
  rw [h.size] at hlt
  obtain hlt | heq := Nat.lt_succ_iff_lt_or_eq.mp hlt
  · exact .inl hlt
  · exact .inr ((congrArg BlockId.mk heq).trans h.new.symm)

/-- Splitting a block in front of an instruction that is not a phi cuts the function there. -/
theorem BlockSplit.opened {b join : BlockId} {blk : Block} {pos : Nat} {site : InstId}
    {kind : InstKind} (h : BlockSplit f b blk pos join f') (hf : f.Closed) (hb : b ∈ f.layout)
    (hpos : blk.insts[pos]? = some site) (hblk : f.block b = .ok blk)
    (hkind : f.kind site = .ok kind) (hphi : kind.isPhi = false) :
    Opened f (cutAt b blk pos site) join
      [{ block := b, old := blk.insts.take pos, term := .br join }] kind f' := by
  have hdrop : blk.insts.drop pos = site :: blk.insts.drop (pos + 1) := by
    obtain ⟨hlt, rfl⟩ := List.getElem?_eq_some_iff.mp hpos
    exact List.drop_eq_getElem_cons hlt
  have hinsts : blk.insts = blk.insts.take pos ++ site :: blk.insts.drop (pos + 1) := by
    rw [← hdrop, List.take_append_drop]
  obtain ⟨place, hplace, hlayout⟩ := h.layout
  have hjoin := congrArg BlockId.index h.new
  have hone : ∀ p ∈ [({ block := b, old := blk.insts.take pos, term := .br join } : Part)],
      p = { block := b, old := blk.insts.take pos, term := .br join } :=
    fun p hp => List.mem_singleton.mp hp
  refine
    { name := h.name, params := h.params, entry := ?entry, joinNew := hjoin.ge,
      size := h.size ▸ Nat.le_succ _, sizeInsts := h.sizeInsts.ge, layout := ?layout,
      layoutNodup := ?layoutNodup, nodup := by simp,
      head := ⟨_, List.mem_singleton_self _, rfl, rfl⟩, fresh := ?fresh, kept := h.kept,
      grown := ?grown, part := ?part, tail := ?tail, site := ?site, kinds := ?kinds,
      renamed := ?renamed, news := ?news, parents := ?parents, given := ?given,
      givenNodup := ?givenNodup, tokens := ?tokens }
  case entry =>
    rw [entryBlock?, entryBlock?, hlayout]
    cases hlist : f.layout with
    | nil => exact absurd hb (hlist ▸ List.not_mem_nil)
    | cons first rest => rfl
  case layout =>
    intro b'
    rw [h.mem_layout]
    simp only [List.map_cons, List.map_nil, List.mem_singleton]
    constructor
    · rintro (rfl | hb')
      · exact .inr (.inl rfl)
      · exact .inl hb'
    · rintro (hb' | rfl | rfl)
      · exact .inr hb'
      · exact .inl rfl
      · exact .inr hb
  case layoutNodup =>
    intro hnodup
    rw [hlayout]
    refine (List.perm_insertIdx _ _ hplace).nodup_iff.mpr (List.nodup_cons.mpr ⟨fun hmem => ?_, hnodup⟩)
    exact absurd (hf.inArena join hmem) (hjoin ▸ lt_irrefl _)
  case fresh =>
    intro p hp hhead
    obtain rfl := hone p hp
    exact absurd rfl hhead
  case grown =>
    intro b' blk' hblk'
    exact (h.block_eq_ok hblk').imp_right .inl
  case part =>
    intro p hp
    obtain rfl := hone p hp
    exact ⟨blk.name, by simpa using h.head⟩
  case tail =>
    obtain ⟨name, hrest⟩ := h.rest
    exact ⟨name, by rw [hrest, hdrop]; rfl⟩
  case site =>
    change f'.kind site = .ok kind
    obtain hi | ⟨-, hi⟩ := h.kinds site kind hkind
    · exact hi
    · rw [hi, InstKind.renameIncoming_of_not_phi hphi]
  case kinds =>
    intro i k _ hk
    refine (h.kinds i k hk).imp_right (And.imp_left ?_)
    rintro ⟨succ, hsucc, phis, hmem, hphis⟩
    refine ⟨succ, hsucc, phis, ?_, hmem⟩
    split at hphis
    · next hs =>
      refine Checked.bind_eq_ok.mpr ⟨blk, hs ▸ hblk, ?_⟩
      rw [hinsts]
      exact leading_append_of_not hkind hphi hphis
    · exact hphis
  case renamed =>
    intro succ hsucc phis hphis i hi k hk
    by_cases hs : succ = b
    · subst hs
      obtain ⟨blkS, hblkS, hlead⟩ := phis_eq_ok hphis
      obtain rfl : blk = blkS := Except.ok.inj (hblk.symm.trans hblkS)
      rw [hinsts] at hlead
      exact h.renamedHere hsucc phis (leading_of_append hkind hphi hlead) i hi k hk
    · exact h.renamed succ hsucc hs phis hphis i hi k hk
  case news =>
    intro i k hk
    exact .inl (h.sizeInsts ▸ index_lt_of_kind hk)
  case parents =>
    intro i inst hi
    obtain ⟨inst', hi', hparent, hsplit⟩ := h.parents i inst hi
    refine ⟨inst', hi', ?_, hsplit⟩
    rw [hparent, hdrop]
    rfl
  case given =>
    intro p hp entry hentry
    obtain rfl := hone p hp
    cases hentry
  case givenNodup =>
    intro p hp
    obtain rfl := hone p hp
    exact List.nodup_nil
  case tokens =>
    intro i hi
    rw [h.annotations] at hi
    exact .inl hi

end Function

end EdgeProbe
