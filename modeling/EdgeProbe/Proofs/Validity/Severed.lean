import EdgeProbe.Proofs.Code.Replaced
import EdgeProbe.Proofs.Validity.Relocated
import EdgeProbe.Proofs.Validity.Sound

/-!
# A block that was severed is accepted

When a live block is split behind its phis and its landing pad, it goes on in a new one that ends as
the block did, and each edge that left the block now leaves the new one. The function stays sound:
paths stand for paths, and whoever passes the block passes both halves of it. Main statement:
`Severed.sound`.
-/

namespace EdgeProbe

/-! ## What the halves look like -/

/-- The second function is the first one with a live block split behind its phis and its landing
pad. -/
structure Severed (f : Function) (b : BlockId) (blk : Block) (pos : Nat) (tail : BlockId)
    (f' : Function) : Prop where
  split : f.BlockSplit b blk pos tail f'
  live : b ∈ f.layout
  block : f.block b = .ok blk
  front : ∀ id k kind, f.Listed id b k → f.kind id = .ok kind →
    (kind.isPhi || kind.isLandingPad) = true → k < pos

namespace Severed

/-- The block in which the end of a block is found. -/
def rename (b tail x : BlockId) : BlockId :=
  if x = b then tail else x

/-- Where an instruction is found. -/
def place (b tail : BlockId) (pos : Nat) (x : BlockId) (k : Nat) : BlockId × Nat :=
  if x = b ∧ pos ≤ k then (tail, k - pos) else (x, k)

variable {f f' : Function} {a b c tail x x' : BlockId} {blk : Block} {pos k k' : Nat} {id : InstId}
  {kind : InstKind} {ty : Ty} {incoming : List (Value × BlockId)}

theorem renameIncoming_phi (b tail : BlockId) (ty : Ty) (incoming : List (Value × BlockId)) :
    (InstKind.phi ty incoming).renameIncoming b tail =
      .phi ty (incoming.map fun entry => (entry.1, rename b tail entry.2)) := by
  rw [InstKind.renameIncoming]
  congr 1
  apply List.map_congr_left
  intro entry _
  by_cases hentry : entry.2 = b <;> simp [rename, hentry]

section

variable (h : Severed f b blk pos tail f')
include h

theorem block_tail : ∃ name, f'.block tail = .ok ⟨name, blk.insts.drop pos, blk.term⟩ :=
  h.split.rest

theorem tail_mem : tail ∈ f'.layout :=
  h.split.mem_layout.mpr (.inl rfl)

/-- An instruction keeps its kind, but for the name of a source. -/
theorem kind_mono (hkind : f.kind id = .ok kind) :
    f'.kind id = .ok kind ∨ f'.kind id = .ok (kind.renameIncoming b tail) :=
  (h.split.kinds id kind hkind).imp_right And.right

theorem kind_eq (hkind : f.kind id = .ok kind) (hphi : kind.isPhi = false) :
    f'.kind id = .ok kind := by
  obtain hsame | hrenamed := h.kind_mono hkind
  · exact hsame
  · rwa [InstKind.renameIncoming_of_not_phi hphi] at hrenamed

theorem not_moved (hid : f.Listed id x k) (hkind : f.kind id = .ok kind)
    (hfront : (kind.isPhi || kind.isLandingPad) = true) : place b tail pos x k = (x, k) := by
  refine if_neg ?_
  rintro ⟨rfl, hle⟩
  exact absurd (h.front id k kind hid hkind hfront) (Nat.not_lt.mpr hle)

theorem typesKept : f.TypesKept f' := by
  refine .of_kinds h.split.params fun id kind hkind => ?_
  obtain hsame | hrenamed := h.kind_mono hkind
  · exact .inl hsame
  cases kind with
  | phi ty incoming =>
    refine .inr ⟨ty, _, fun depth ty' hty => ?_, hrenamed⟩
    rw [Function.valueTypeWithin_of_fixedType? hkind rfl] at hty
    exact (Except.ok.inj hty).symm
  | _ => exact .inl hrenamed

theorem entryBlock?_eq : f'.entryBlock? = f.entryBlock? := by
  obtain ⟨place, -, hlayout⟩ := h.split.layout
  rw [Function.entryBlock?, Function.entryBlock?, hlayout]
  cases hlist : f.layout with
  | nil => exact absurd h.live (hlist ▸ List.not_mem_nil)
  | cons first rest => rfl

/-- The phis of the block are in front of the place where it was split. -/
theorem leading_take (hf : f.Tidy) {phis : List InstId} (hphis : f.phis b = .ok phis) :
    ∃ rest, blk.insts.take pos = phis ++ rest ∧
      f.leading InstKind.isPhi (blk.insts.take pos) = .ok phis := by
  obtain ⟨rest, hinsts, hrest⟩ := hf.insts_eq_append h.live h.block hphis
  have hle : phis.length ≤ pos := by
    by_contra hlt
    have hpos : phis[pos]? = some phis[pos] := List.getElem?_eq_getElem (by omega)
    obtain ⟨ty, incoming, hphi⟩ := Function.kind_of_mem_phis hphis (List.mem_of_getElem? hpos)
    have hlisted : f.Listed phis[pos] b pos :=
      ⟨h.live, blk, h.block, by rw [hinsts, List.getElem?_append_left (by omega), hpos]⟩
    exact absurd (h.front _ pos _ hlisted hphi rfl) (lt_irrefl pos)
  have htake : blk.insts.take pos = phis ++ rest.take (pos - phis.length) := by
    rw [hinsts, List.take_append, List.take_of_length_le hle]
  refine ⟨_, htake, htake ▸ Function.leading_append (fun id hid => ?_) fun id hid => ?_⟩
  · obtain ⟨ty, incoming, hphi⟩ := Function.kind_of_mem_phis hphis hid
    exact ⟨_, hphi, rfl⟩
  · exact hrest id (List.mem_of_mem_take hid)

/-- Where the block led, its name is replaced by that of the new one in each phi. -/
theorem phi_renamed (hf : f.Tidy) (hedge : f.Edge b x) (hid : f.Listed id x k)
    (hphi : f.kind id = .ok (.phi ty incoming)) :
    f'.kind id = .ok ((InstKind.phi ty incoming).renameIncoming b tail) := by
  obtain ⟨succs, hsuccs, hsucc⟩ := hedge
  rw [Function.successors_of_block h.block] at hsuccs
  obtain rfl := Except.ok.inj hsuccs
  obtain ⟨-, phis, -, hphis⟩ := hf.phis_eq_ok hid.1
  have hmem := hf.mem_phis hid hphi hphis
  by_cases hx : x = b
  · subst hx
    obtain ⟨-, -, hlead⟩ := h.leading_take hf hphis
    exact h.split.renamedHere hsucc phis hlead id hmem _ hphi
  · exact h.split.renamed x hsucc hx phis hphis id hmem _ hphi

/-- A block is the one that was split, the new one or one from before. -/
theorem block_cases {blk' : Block} (hblk' : f'.block x = .ok blk') :
    (x = b ∧ blk' = ⟨blk.name, blk.insts.take pos, .br tail⟩) ∨
      (x = tail ∧ ∃ name, blk' = ⟨name, blk.insts.drop pos, blk.term⟩) ∨
      (x ≠ b ∧ x ≠ tail ∧ f.block x = .ok blk') := by
  by_cases htail : x = tail
  · subst htail
    obtain ⟨name, hrest⟩ := h.block_tail
    exact .inr (.inl ⟨rfl, name, Except.ok.inj (hblk'.symm.trans hrest)⟩)
  by_cases hb : x = b
  · subst hb
    exact .inl ⟨rfl, Except.ok.inj (hblk'.symm.trans h.split.head)⟩
  · have hlt := (h.split.block_eq_ok hblk').resolve_right htail
    exact .inr (.inr ⟨hb, htail, (h.split.kept x hlt hb).symm.trans hblk'⟩)

theorem mem_of_ne (hx : x ∈ f'.layout) (htail : x ≠ tail) : x ∈ f.layout :=
  (h.split.mem_layout.mp hx).resolve_left htail

/-- A live block is the one that was split, which now leads to the new one, or ends as one from
before. -/
theorem term_cases (hx : x ∈ f'.layout) {blk' : Block} (hblk' : f'.block x = .ok blk') :
    (x = b ∧ blk'.term = .br tail) ∨ ∃ x₀ ∈ f.layout, x = rename b tail x₀ ∧
      ∃ blk₀, f.block x₀ = .ok blk₀ ∧ blk'.term = blk₀.term := by
  obtain ⟨rfl, rfl⟩ | ⟨rfl, name, rfl⟩ | ⟨hne, htail, hblk⟩ := h.block_cases hblk'
  · exact .inl ⟨rfl, rfl⟩
  · exact .inr ⟨b, h.live, (if_pos rfl).symm, blk, h.block, rfl⟩
  · exact .inr ⟨x, h.mem_of_ne hx htail, (if_neg hne).symm, blk', hblk, rfl⟩

/-- The edges are those from before, and the one to the new block. -/
theorem edge_cases (ha : a ∈ f'.layout) (hedge : f'.Edge a c) :
    (a = b ∧ c = tail) ∨ ∃ a₀ ∈ f.layout, a = rename b tail a₀ ∧ f.Edge a₀ c := by
  obtain ⟨succs, hsuccs, hc⟩ := hedge
  obtain ⟨blk', hblk', rfl⟩ := Checked.map_eq_ok.mp hsuccs
  obtain ⟨rfl, hterm⟩ | ⟨a₀, ha₀, rfl, blk₀, hblk, hterm⟩ := h.term_cases ha hblk'
  · rw [hterm] at hc
    exact .inl ⟨rfl, List.mem_singleton.mp hc⟩
  · exact .inr ⟨a₀, ha₀, rfl, _, Function.successors_of_block hblk, hterm ▸ hc⟩

/-- What is listed was so before, in the place that this one stands for. -/
theorem listed_cases (hid : f'.Listed id x' k') :
    ∃ x k, f.Listed id x k ∧ (x', k') = place b tail pos x k := by
  obtain ⟨hx, blk', hblk', hk⟩ := hid
  obtain ⟨rfl, rfl⟩ | ⟨rfl, name, rfl⟩ | ⟨hne, htail, hblk⟩ := h.block_cases hblk'
  · have hlt : k' < pos := by
      obtain ⟨hlt, -⟩ := List.getElem?_eq_some_iff.mp hk
      exact hlt.trans_le (List.length_take_le _ _)
    dsimp only at hk
    rw [List.getElem?_take_of_lt hlt] at hk
    exact ⟨x', k', ⟨h.live, blk, h.block, hk⟩, (if_neg fun hmoved => absurd hmoved.2 (by omega)).symm⟩
  · dsimp only at hk
    rw [List.getElem?_drop] at hk
    refine ⟨b, pos + k', ⟨h.live, blk, h.block, hk⟩, ?_⟩
    rw [place, if_pos ⟨rfl, Nat.le_add_right _ _⟩, Nat.add_sub_cancel_left]
  · exact ⟨x', k', ⟨h.mem_of_ne hx htail, blk', hblk, hk⟩, (if_neg fun hmoved => hne hmoved.1).symm⟩

variable (hf : f.Closed)
include hf

theorem tail_not_mem : tail ∉ f.layout := by
  intro hmem
  have hlt := hf.inArena tail hmem
  rw [h.split.new] at hlt
  exact absurd hlt (lt_irrefl _)

theorem block_kept (hx : x ∈ f.layout) (hne : x ≠ b) : f'.block x = f.block x :=
  h.split.kept x (hf.inArena x hx) hne

/-- The end of a live block is found in the block that took it over. -/
theorem exists_term (hx : x ∈ f.layout) {blk₀ : Block} (hblk : f.block x = .ok blk₀) :
    rename b tail x ∈ f'.layout ∧
      ∃ blk', f'.block (rename b tail x) = .ok blk' ∧ blk'.term = blk₀.term := by
  unfold rename
  split
  · next heq =>
    subst heq
    obtain rfl := Except.ok.inj (h.block.symm.trans hblk)
    obtain ⟨name, htail⟩ := h.block_tail
    exact ⟨h.tail_mem, _, htail, rfl⟩
  · next hne =>
    exact ⟨h.split.mem_layout.mpr (.inr hx), blk₀, (h.block_kept hf hx hne).trans hblk, rfl⟩

theorem edge_mono (ha : a ∈ f.layout) (hedge : f.Edge a c) :
    rename b tail a ∈ f'.layout ∧ f'.Edge (rename b tail a) c := by
  obtain ⟨succs, hsuccs, hc⟩ := hedge
  obtain ⟨blk₀, hblk, rfl⟩ := Checked.map_eq_ok.mp hsuccs
  obtain ⟨hmem, blk', hblk', hterm⟩ := h.exists_term hf ha hblk
  exact ⟨hmem, _, Function.successors_of_block hblk', hterm ▸ hc⟩

theorem listed_mono (hid : f.Listed id x k) :
    f'.Listed id (place b tail pos x k).1 (place b tail pos x k).2 := by
  obtain ⟨hx, blk₀, hblk, hk⟩ := hid
  unfold place
  split
  · next hmoved =>
    obtain ⟨rfl, hle⟩ := hmoved
    obtain rfl := Except.ok.inj (h.block.symm.trans hblk)
    obtain ⟨name, htail⟩ := h.block_tail
    refine ⟨h.tail_mem, _, htail, ?_⟩
    rw [List.getElem?_drop, Nat.add_sub_cancel' hle, hk]
  · next hstays =>
    refine ⟨h.split.mem_layout.mpr (.inr hx), ?_⟩
    by_cases heq : x = b
    · subst heq
      obtain rfl := Except.ok.inj (h.block.symm.trans hblk)
      refine ⟨_, h.split.head, ?_⟩
      have hlt : k < pos := Nat.lt_of_not_le fun hle => hstays ⟨rfl, hle⟩
      rw [List.getElem?_take_of_lt hlt, hk]
    · exact ⟨blk₀, (h.block_kept hf hx heq).trans hblk, hk⟩

/-- What is found in a block from before was in that block, where it is now. -/
theorem place_eq (hx : x ∈ f.layout) (hplace : (x, k) = place b tail pos x' k') :
    x = x' ∧ k = k' := by
  unfold place at hplace
  split at hplace
  · obtain ⟨rfl, -⟩ := Prod.mk.inj hplace
    exact absurd hx (h.tail_not_mem hf)
  · exact Prod.mk.inj hplace

end

section

variable (h : Severed f b blk pos tail f') (hf : f.Tidy)
include h hf

theorem closed : f'.Closed where
  inArena := by
    intro x hx
    rw [h.split.size]
    obtain rfl | hold := h.split.mem_layout.mp hx
    · rw [h.split.new]
      exact Nat.lt_succ_self _
    · exact (hf.closed.inArena x hold).trans (Nat.lt_succ_self _)
  toLive := by
    intro a ha c hedge
    obtain ⟨-, rfl⟩ | ⟨a₀, ha₀, -, hedge⟩ := h.edge_cases ha hedge
    · exact h.tail_mem
    · exact h.split.mem_layout.mpr (.inr (hf.closed.toLive a₀ ha₀ c hedge))

theorem home (hid : f'.Listed id x' k') : ∃ inst, f'.inst id = .ok inst ∧ inst.block = some x' := by
  obtain ⟨x, k, hid₀, hplace⟩ := h.listed_cases hid
  obtain ⟨inst, hinst, hblock⟩ := hf.home id x k hid₀
  obtain ⟨inst', hinst', hparent, -⟩ := h.split.parents id inst hinst
  refine ⟨inst', hinst', hparent.trans ?_⟩
  have hmem : id ∈ blk.insts.drop pos ↔ x = b ∧ pos ≤ k := by
    constructor
    · intro hmem
      obtain ⟨j, hj⟩ := List.mem_iff_getElem?.mp hmem
      rw [List.getElem?_drop] at hj
      obtain ⟨rfl, rfl⟩ := hf.listed_unique ⟨h.live, blk, h.block, hj⟩ hid₀
      exact ⟨rfl, Nat.le_add_right _ _⟩
    · rintro ⟨rfl, hle⟩
      obtain ⟨-, blk₀, hblk, hk⟩ := hid₀
      obtain rfl := Except.ok.inj (h.block.symm.trans hblk)
      refine List.mem_iff_getElem?.mpr ⟨k - pos, ?_⟩
      rw [List.getElem?_drop, Nat.add_sub_cancel' hle, hk]
  unfold place at hplace
  split at hplace
  · next hmoved =>
    rw [if_pos (hmem.mpr hmoved), (Prod.mk.inj hplace).1]
  · next hstays =>
    rw [if_neg fun hin => hstays (hmem.mp hin), hblock, (Prod.mk.inj hplace).1]

theorem nodup (hx : x ∈ f'.layout) {blk' : Block} (hblk' : f'.block x = .ok blk') :
    blk'.insts.Nodup := by
  have hnodup := hf.nodup b h.live blk h.block
  obtain ⟨-, rfl⟩ | ⟨-, name, rfl⟩ | ⟨-, htail, hblk⟩ := h.block_cases hblk'
  · exact hnodup.sublist (List.take_sublist _ _)
  · exact hnodup.sublist (List.drop_sublist _ _)
  · exact hf.nodup x (h.mem_of_ne hx htail) blk' hblk

/-- A live phi stands where it stood, and its sources are those from before, but for the name of the
block that was split. -/
theorem phi_cases (hid : f'.Listed id x k) (hphi : f'.kind id = .ok (.phi ty incoming)) :
    f.Listed id x k ∧ ∃ before, f.kind id = .ok (.phi ty before) ∧
      (incoming = before ∨ incoming = before.map fun entry => (entry.1, rename b tail entry.2)) := by
  obtain ⟨x₀, k₀, hid₀, hplace⟩ := h.listed_cases hid
  obtain ⟨kind, hkind⟩ := hf.exists_kind hid₀
  cases kind with
  | phi ty₀ before =>
    rw [h.not_moved hid₀ hkind rfl] at hplace
    obtain ⟨rfl, rfl⟩ := Prod.mk.inj hplace
    obtain hsame | hrenamed := h.kind_mono hkind
    · obtain ⟨rfl, rfl⟩ := InstKind.phi.inj (Except.ok.inj (hphi.symm.trans hsame))
      exact ⟨hid₀, incoming, hkind, .inl rfl⟩
    · rw [renameIncoming_phi] at hrenamed
      obtain ⟨rfl, rfl⟩ := InstKind.phi.inj (Except.ok.inj (hphi.symm.trans hrenamed))
      exact ⟨hid₀, before, hkind, .inr rfl⟩
  | _ => cases Except.ok.inj (hphi.symm.trans (h.kind_eq hkind rfl))

theorem tidy : f'.Tidy where
  closed := h.closed hf
  home := fun _ _ _ hid => h.home hf hid
  nodup := fun _ hx _ hblk' => h.nodup hf hx hblk'
  operands := by
    intro id x' k' kind hid hkind value hvalue
    obtain ⟨x, k, hid₀, -⟩ := h.listed_cases hid
    obtain ⟨kind₀, hkind₀⟩ := hf.exists_kind hid₀
    have hvalue₀ : value ∈ kind₀.operands := by
      obtain hsame | hrenamed := h.kind_mono hkind₀
      · exact Except.ok.inj (hkind.symm.trans hsame) ▸ hvalue
      · rw [Except.ok.inj (hkind.symm.trans hrenamed), InstKind.operands_renameIncoming] at hvalue
        exact hvalue
    rw [h.split.sizeInsts]
    exact hf.operands id x k kind₀ hid₀ hkind₀ value hvalue₀
  termOperands := by
    intro x hx blk' hblk' value hvalue
    rw [h.split.sizeInsts]
    obtain ⟨-, hterm⟩ | ⟨x₀, hx₀, -, blk₀, hblk, hterm⟩ := h.term_cases hx hblk'
    · rw [hterm] at hvalue
      cases hvalue
    · exact hf.termOperands x₀ hx₀ blk₀ hblk value (hterm ▸ hvalue)
  sources := by
    intro id x k ty incoming hid hphi entry hentry
    have hold : ∀ before, f.Listed id x k → f.kind id = .ok (.phi ty before) →
        ∀ entry ∈ before, entry.2.index < f'.blocks.size := fun before hid₀ hphi₀ entry hentry =>
      h.split.size ▸ (hf.sources id x k ty before hid₀ hphi₀ entry hentry).trans (Nat.lt_succ_self _)
    obtain ⟨hid₀, before, hphi₀, rfl | rfl⟩ := h.phi_cases hf hid hphi
    · exact hold incoming hid₀ hphi₀ entry hentry
    obtain ⟨entry₀, hentry₀, rfl⟩ := List.mem_map.mp hentry
    dsimp only [rename]
    split
    · exact (h.closed hf).inArena tail h.tail_mem
    · exact hold before hid₀ hphi₀ entry₀ hentry₀
  phisLead := by
    intro id x k ty incoming hid hphi before hbefore id' hid'
    obtain ⟨hid₀, incoming₀, hphi₀, -⟩ := h.phi_cases hf hid hphi
    obtain ⟨x', k', hid'₀, hplace⟩ := h.listed_cases hid'
    obtain ⟨rfl, rfl⟩ := h.place_eq hf.closed hid₀.1 hplace
    obtain ⟨ty', incoming', hphi'⟩ := hf.phisLead id x k ty incoming₀ hid₀ hphi₀ before hbefore id' hid'₀
    obtain hsame | hrenamed := h.kind_mono hphi'
    · exact ⟨ty', incoming', hsame⟩
    · exact ⟨ty', _, hrenamed⟩
  entries := by
    intro id x k ty incoming hid hphi source hsource hedge
    obtain ⟨hid₀, before, hphi₀, hcases⟩ := h.phi_cases hf hid hphi
    obtain ⟨-, rfl⟩ | ⟨a, ha, rfl, hedge₀⟩ := h.edge_cases hsource hedge
    · exact absurd hid₀.1 (h.tail_not_mem hf.closed)
    obtain ⟨value, hvalue⟩ := hf.entries id x k ty before hid₀ hphi₀ a ha hedge₀
    refine ⟨value, ?_⟩
    by_cases heq : a = b
    · subst heq
      have hrenamed := h.phi_renamed hf hedge₀ hid₀ hphi₀
      rw [renameIncoming_phi] at hrenamed
      obtain ⟨-, rfl⟩ := InstKind.phi.inj (Except.ok.inj (hphi.symm.trans hrenamed))
      exact List.mem_map.mpr ⟨(value, a), hvalue, rfl⟩
    · obtain rfl | rfl := hcases
      · rwa [rename, if_neg heq]
      · exact List.mem_map.mpr ⟨(value, a), hvalue, rfl⟩

end

end Severed

namespace Severed

/-- The block from before that a block stands for. -/
def origin (b tail x : BlockId) : BlockId :=
  if x = tail then b else x

variable {m : Module} {exempt : BlockId → Prop} {f f' : Function} {a b c tail x x' : BlockId}
  {blk : Block} {pos k k' : Nat} {id : InstId} {kind : InstKind} {ty : Ty}
  {incoming : List (Value × BlockId)}

/-! ## Paths -/

section

variable (h : Severed f b blk pos tail f') (hf : f.Tidy)
include h hf

theorem origin_of_mem (hx : x ∈ f.layout) : origin b tail x = x := by
  refine if_neg ?_
  rintro rfl
  exact h.tail_not_mem hf.closed hx

theorem origin_rename (hx : x ∈ f.layout) : origin b tail (rename b tail x) = x := by
  unfold rename
  split
  · next heq => rw [origin, if_pos rfl, heq]
  · exact h.origin_of_mem hf hx

theorem origin_place (hx : x ∈ f.layout) (k : Nat) :
    origin b tail (place b tail pos x k).1 = x := by
  unfold place
  split
  · next hmoved => rw [origin, if_pos rfl, hmoved.1]
  · exact h.origin_of_mem hf hx

theorem projects : f.Projects f' (origin b tail) where
  entry := by
    intro e he
    rw [h.entryBlock?_eq] at he
    rw [h.origin_of_mem hf (Function.mem_layout_of_entryBlock? he), he]
  edge := by
    intro a ha c hedge
    obtain ⟨rfl, rfl⟩ | ⟨a₀, ha₀, rfl, hedge₀⟩ := h.edge_cases ha hedge
    · rw [h.origin_of_mem hf h.live, origin, if_pos rfl]
      exact .inl rfl
    · rw [h.origin_rename hf ha₀, h.origin_of_mem hf (hf.closed.toLive a₀ ha₀ c hedge₀)]
      exact .inr hedge₀

/-- The new block is entered from the one that was split only. -/
theorem onEveryPath : f'.OnEveryPath b tail := by
  intro trail path
  cases path with
  | entry he =>
    rw [h.entryBlock?_eq] at he
    exact absurd (Function.mem_layout_of_entryBlock? he) (h.tail_not_mem hf.closed)
  | step path edge =>
    obtain ⟨rfl, -⟩ | ⟨a, ha, -, hedge⟩ := h.edge_cases ((h.closed hf).mem_layout path) edge
    · exact List.mem_cons_of_mem _ path.mem
    · exact absurd (hf.closed.toLive a ha tail hedge) (h.tail_not_mem hf.closed)

/-- A path that goes on from the halves has passed the second one. -/
theorem tail_mem_of_path {trail : List BlockId} (path : f'.PathTo c trail)
    (hc : origin b tail c ≠ b) (hx : x ∈ trail) (hxb : origin b tail x = b) : tail ∈ trail := by
  induction path with
  | @entry e he =>
    obtain rfl := List.mem_singleton.mp hx
    exact absurd hxb hc
  | @step a c trail path edge ih =>
    obtain rfl | hx := List.mem_cons.mp hx
    · exact absurd hxb hc
    refine List.mem_cons_of_mem _ ?_
    obtain ⟨-, rfl⟩ | ⟨a₀, ha₀, rfl, -⟩ := h.edge_cases ((h.closed hf).mem_layout path) edge
    · exact absurd (if_pos rfl) hc
    by_cases heq : a₀ = b
    · rw [rename, if_pos heq] at path
      exact path.mem
    · refine ih ?_ hx
      rwa [h.origin_rename hf ha₀]

theorem relocates : f.Relocates f' (origin b tail) (place b tail pos) where
  projects := h.projects hf
  listed := fun _ _ _ hid => h.listed_mono hf.closed hid
  origin_place := fun _ _ k hid => h.origin_place hf hid.1 k
  passes := by
    intro id x k hid c trail path hc y hy hyx
    by_cases hx : x = b
    · subst hx
      unfold place
      split
      · exact h.tail_mem_of_path hf path hc hy hyx
      unfold origin at hyx
      split at hyx
      · next htail => exact (h.onEveryPath hf).mem path (htail ▸ hy)
      · exact hyx ▸ hy
    · rw [place, if_neg fun hmoved => hx hmoved.1]
      unfold origin at hyx
      split at hyx
      · exact absurd hyx.symm hx
      · exact hyx ▸ hy

/-- A value stays available to the instruction that reads it. -/
theorem precedes_place {used : InstId} (hx : x ∈ f.layout) (hused : f.Precedes used x (some k)) :
    f'.Precedes used (place b tail pos x k).1 (some (place b tail pos x k).2) := by
  refine (h.relocates hf).precedes (h.closed hf) (h.origin_place hf hx k) hused fun j _ hj => ?_
  have hj := hj k rfl
  by_cases hmoved : x = b ∧ pos ≤ k
  · obtain ⟨rfl, hle⟩ := hmoved
    have hthere : place x tail pos x k = (tail, k - pos) := if_pos ⟨rfl, hle⟩
    rw [hthere]
    by_cases hboth : pos ≤ j
    · have hwith : place x tail pos x j = (tail, j - pos) := if_pos ⟨rfl, hboth⟩
      rw [hwith]
      refine .inl ⟨rfl, fun p hp => ?_⟩
      obtain rfl := Option.some.inj hp
      exact Nat.sub_lt_sub_right hboth hj
    · have hfirst : place x tail pos x j = (x, j) := if_neg fun hmoved => hboth hmoved.2
      rw [hfirst]
      refine .inr ⟨fun heq => ?_, h.onEveryPath hf⟩
      have heq : x = tail := heq
      exact h.tail_not_mem hf.closed (heq ▸ hx)
  · have hstays : ¬(x = b ∧ pos ≤ j) := fun hmoved' => hmoved ⟨hmoved'.1, by omega⟩
    have hsame : place b tail pos x k = (x, k) := if_neg hmoved
    have hsame' : place b tail pos x j = (x, j) := if_neg hstays
    rw [hsame, hsame']
    refine .inl ⟨rfl, fun p hp => ?_⟩
    obtain rfl := Option.some.inj hp
    exact hj

/-- A value that is available at the end of a block stays so. -/
theorem precedes_end {used : InstId} (hx : x ∈ f.layout) (hused : f.Precedes used x none) :
    f'.Precedes used (rename b tail x) none := by
  refine (h.relocates hf).precedes (h.closed hf) (h.origin_rename hf hx) hused fun j _ _ => ?_
  unfold rename place
  by_cases heq : x = b
  · subst heq
    rw [if_pos rfl]
    split
    · exact .inl ⟨rfl, nofun⟩
    · refine .inr ⟨fun heq => ?_, h.onEveryPath hf⟩
      have heq : x = tail := heq
      exact h.tail_not_mem hf.closed (heq ▸ hx)
  · rw [if_neg heq, if_neg fun hmoved => heq hmoved.1]
    exact .inl ⟨rfl, nofun⟩

/-! ## Instructions -/

/-- What is no phi is what it was, in the place that this one stands for. -/
theorem listed_kind_cases (hid : f'.Listed id x' k') (hkind : f'.kind id = .ok kind)
    (hphi : kind.isPhi = false) :
    ∃ x k, f.Listed id x k ∧ (x', k') = place b tail pos x k ∧ f.kind id = .ok kind := by
  obtain ⟨x, k, hid₀, hplace⟩ := h.listed_cases hid
  obtain ⟨kind₀, hkind₀⟩ := hf.exists_kind hid₀
  refine ⟨x, k, hid₀, hplace, ?_⟩
  obtain hsame | hrenamed := h.kind_mono hkind₀
  · exact Except.ok.inj (hkind.symm.trans hsame) ▸ hkind₀
  · have heq := Except.ok.inj (hkind.symm.trans hrenamed)
    rw [heq, InstKind.isPhi_renameIncoming] at hphi
    rw [InstKind.renameIncoming_of_not_phi hphi] at heq
    exact heq ▸ hkind₀

theorem listed_pad_iff : f'.Listed id x k ∧ f'.kind id = .ok .landingPad ↔
    f.Listed id x k ∧ f.kind id = .ok .landingPad := by
  constructor
  · rintro ⟨hid, hkind⟩
    obtain ⟨x₀, k₀, hid₀, hplace, hkind₀⟩ := h.listed_kind_cases hf hid hkind rfl
    rw [h.not_moved hid₀ hkind₀ rfl] at hplace
    obtain ⟨rfl, rfl⟩ := Prod.mk.inj hplace
    exact ⟨hid₀, hkind₀⟩
  · rintro ⟨hid, hkind⟩
    have hlisted := h.listed_mono hf.closed hid
    rw [h.not_moved hid hkind rfl] at hlisted
    exact ⟨hlisted, h.kind_eq hkind rfl⟩

end

/-! ## Soundness -/

section

variable (h : Severed f b blk pos tail f')
include h

theorem grows (m : Module) : m.Grows f m f' :=
  ⟨le_rfl, le_rfl, h.split.params, h.split.sizeInsts.ge, h.split.size.ge.trans' (Nat.le_succ _)⟩

theorem named (hf : f.Named m) : f'.Named m where
  insts := by
    intro x blk' hblk' id hid
    rw [h.split.sizeInsts]
    obtain ⟨-, rfl⟩ | ⟨-, name, rfl⟩ | ⟨-, -, hblk⟩ := h.block_cases hblk'
    · exact hf.insts b blk h.block id (List.mem_of_mem_take hid)
    · exact hf.insts b blk h.block id (List.mem_of_mem_drop hid)
    · exact hf.insts x blk' hblk id hid
  successors := by
    intro x blk' hblk' s hs
    obtain ⟨-, rfl⟩ | ⟨-, name, rfl⟩ | ⟨-, -, hblk⟩ := h.block_cases hblk'
    · obtain rfl := List.mem_singleton.mp hs
      obtain ⟨name, htail⟩ := h.block_tail
      exact Function.index_lt_of_block htail
    · exact (hf.successors b blk h.block s hs).trans_le (h.grows m).blocks
    · exact (hf.successors x blk' hblk s hs).trans_le (h.grows m).blocks
  terminators := by
    intro x blk' hblk'
    obtain ⟨-, rfl⟩ | ⟨-, name, rfl⟩ | ⟨-, -, hblk⟩ := h.block_cases hblk'
    · rfl
    · exact (h.grows m).knowsTerminator (hf.terminators b blk h.block)
    · exact (h.grows m).knowsTerminator (hf.terminators x blk' hblk)
  kinds := by
    intro id kind hkind
    have hlt : id.index < f.insts.size := h.split.sizeInsts ▸ Function.index_lt_of_kind hkind
    obtain ⟨kind₀, hkind₀⟩ := Function.exists_kind hlt
    have hknown := (h.grows m).knowsKind (hf.kinds id kind₀ hkind₀)
    obtain hsame | hrenamed := h.kind_mono hkind₀
    · exact Except.ok.inj (hkind.symm.trans hsame) ▸ hknown
    obtain rfl := Except.ok.inj (hkind.symm.trans hrenamed)
    cases kind₀ with
    | phi ty before =>
      unfold Module.knowsKind at hknown ⊢
      rw [Bool.and_eq_true] at hknown
      rw [InstKind.operands_renameIncoming, renameIncoming_phi]
      refine Bool.and_eq_true_iff.mpr ⟨hknown.1, List.all_eq_true.mpr fun entry hentry => ?_⟩
      obtain ⟨entry₀, hentry₀, rfl⟩ := List.mem_map.mp hentry
      dsimp only [rename]
      split
      · obtain ⟨name, htail⟩ := h.block_tail
        exact decide_eq_true (Function.index_lt_of_block htail)
      · exact List.all_eq_true.mp hknown.2 entry₀ hentry₀
    | _ => exact hknown
  tokens := by
    intro id hid
    rw [h.split.annotations] at hid
    exact h.split.sizeInsts ▸ hf.tokens id hid

variable (hs : f.Sound m exempt)
include hs

theorem layout_nodup : f'.layout.Nodup := by
  obtain ⟨place, hplace, hlayout⟩ := h.split.layout
  rw [hlayout]
  exact (List.perm_insertIdx _ _ hplace).nodup_iff.mpr
    (List.nodup_cons.mpr ⟨h.tail_not_mem hs.tidy.closed, hs.layout⟩)

/-- A phi has the sources that it had, with the new block in the place of the one that was split. -/
theorem phi_eq (hid : f.Listed id x k) {before : List (Value × BlockId)}
    (hphi : f.kind id = .ok (.phi ty before)) :
    f'.kind id = .ok (.phi ty (before.map fun entry => (entry.1, rename b tail entry.2))) := by
  rw [← renameIncoming_phi]
  by_cases hedge : f.Edge b x
  · exact h.phi_renamed hs.tidy hedge hid hphi
  obtain hsame | hrenamed := h.kind_mono hphi
  · rw [hsame, renameIncoming_phi]
    congr 2
    -- The block that was split is not among the sources.
    conv_lhs => rw [← List.map_id before]
    apply List.map_congr_left
    intro entry hentry
    have hne : entry.2 ≠ b := by
      rintro rfl
      exact hedge ((hs.sources id x k ty before hid hphi).2 _ (List.mem_map_of_mem hentry)).2
    simp [rename, hne]
  · exact hrenamed

theorem listed_phi_cases (hid : f'.Listed id x k) (hphi : f'.kind id = .ok (.phi ty incoming)) :
    f.Listed id x k ∧ ∃ before, f.kind id = .ok (.phi ty before) ∧
      incoming = before.map fun entry => (entry.1, rename b tail entry.2) := by
  obtain ⟨hid₀, before, hphi₀, -⟩ := h.phi_cases hs.tidy hid hphi
  have heq := Except.ok.inj (hphi.symm.trans (h.phi_eq hs hid₀ hphi₀))
  exact ⟨hid₀, before, hphi₀, (InstKind.phi.inj heq).2⟩

theorem sound : f'.Sound m exempt where
  tidy := h.tidy hs.tidy
  named := h.named hs.named
  layout := h.layout_nodup hs
  unwind := by
    intro x hx blk' hblk' callee args normal unwind hterm
    obtain ⟨-, hbr⟩ | ⟨x₀, hx₀, -, blk₀, hblk, hsame⟩ := h.term_cases hx hblk'
    · cases hbr.symm.trans hterm
    obtain ⟨id, k, hid, hkind⟩ := hs.unwind x₀ hx₀ blk₀ hblk callee args normal unwind
      (hsame.symm.trans hterm)
    exact ⟨id, k, (h.listed_pad_iff hs.tidy).mpr ⟨hid, hkind⟩⟩
  sources := by
    intro id x k ty incoming hid hphi
    obtain ⟨hid₀, before, hphi₀, rfl⟩ := h.listed_phi_cases hs hid hphi
    obtain ⟨hdistinct, hlive⟩ := hs.sources id x k ty before hid₀ hphi₀
    have hsources : (before.map fun entry => (entry.1, rename b tail entry.2)).map (·.2) =
        (before.map (·.2)).map (rename b tail) := by
      rw [List.map_map, List.map_map]
      rfl
    rw [hsources]
    constructor
    · refine hdistinct.map_on fun x hx y hy heq => ?_
      rw [← h.origin_rename hs.tidy (hlive x hx).1, heq, h.origin_rename hs.tidy (hlive y hy).1]
    · intro source hsource
      obtain ⟨source₀, hsource₀, rfl⟩ := List.mem_map.mp hsource
      obtain ⟨hmem, hedge⟩ := hlive source₀ hsource₀
      exact h.edge_mono hs.tidy.closed hmem hedge
  padsLead := by
    intro id x k hid hkind before hbefore id' hid'
    obtain ⟨hid₀, hkind₀⟩ := (h.listed_pad_iff hs.tidy).mp ⟨hid, hkind⟩
    obtain ⟨x', k', hid'₀, hplace⟩ := h.listed_cases hid'
    obtain ⟨rfl, rfl⟩ := h.place_eq hs.tidy.closed hid₀.1 hplace
    obtain ⟨ty, incoming, hphi⟩ := hs.padsLead id x k hid₀ hkind₀ before hbefore id' hid'₀
    exact ⟨ty, _, h.phi_eq hs hid'₀ hphi⟩
  padEdges := by
    intro id x k hid hkind hexempt
    obtain ⟨hid₀, hkind₀⟩ := (h.listed_pad_iff hs.tidy).mp ⟨hid, hkind⟩
    obtain ⟨⟨a, ha, hedge⟩, hunwinds⟩ := hs.padEdges id x k hid₀ hkind₀ hexempt
    refine ⟨⟨_, h.edge_mono hs.tidy.closed ha hedge⟩, fun a ha hedge => ?_⟩
    obtain ⟨-, rfl⟩ | ⟨a₀, ha₀, rfl, hedge₀⟩ := h.edge_cases ha hedge
    · exact absurd hid₀.1 (h.tail_not_mem hs.tidy.closed)
    obtain ⟨blk₀, callee, args, normal, hblk, hterm, hne⟩ := hunwinds a₀ ha₀ hedge₀
    obtain ⟨-, blk', hblk', hsame⟩ := h.exists_term hs.tidy.closed ha₀ hblk
    exact ⟨blk', callee, args, normal, hblk', hsame.trans hterm, hne⟩
  paired := by
    intro id x k kind lhs rhs hid hkind hpair
    have hphi : kind.isPhi = false := by cases kind <;> first | rfl | cases hpair
    obtain ⟨x₀, k₀, hid₀, -, hkind₀⟩ := h.listed_kind_cases hs.tidy hid hkind hphi
    obtain ⟨ty, hl, hr⟩ := hs.paired id x₀ k₀ kind lhs rhs hid₀ hkind₀ hpair
    exact ⟨ty, h.typesKept.valueType h.split.sizeInsts.ge hl,
      h.typesKept.valueType h.split.sizeInsts.ge hr⟩
  arity := by
    intro id x k target args ret hid hkind
    obtain ⟨x₀, k₀, hid₀, -, hkind₀⟩ := h.listed_kind_cases hs.tidy hid hkind rfl
    exact hs.arity id x₀ k₀ target args ret hid₀ hkind₀
  conditions := by
    intro x hx blk' hblk' cond onTrue onFalse hterm
    obtain ⟨-, hbr⟩ | ⟨x₀, hx₀, -, blk₀, hblk, hsame⟩ := h.term_cases hx hblk'
    · cases hbr.symm.trans hterm
    · exact h.typesKept.valueType h.split.sizeInsts.ge
        (hs.conditions x₀ hx₀ blk₀ hblk cond onTrue onFalse (hsame.symm.trans hterm))
  phiUses := by
    intro id x k ty incoming hid hphi used source hmem
    obtain ⟨hid₀, before, hphi₀, rfl⟩ := h.listed_phi_cases hs hid hphi
    obtain ⟨entry, hentry, heq⟩ := List.mem_map.mp hmem
    obtain ⟨hvalue, rfl⟩ := Prod.mk.inj heq
    have hlive := (hs.sources id x k ty before hid₀ hphi₀).2 entry.2 (List.mem_map_of_mem hentry)
    refine h.precedes_end hs.tidy hlive.1 (hs.phiUses id x k ty before hid₀ hphi₀ used entry.2 ?_)
    exact hvalue ▸ hentry
  uses := by
    intro id x k kind hid hkind hphi used hused
    obtain ⟨x₀, k₀, hid₀, hplace, hkind₀⟩ := h.listed_kind_cases hs.tidy hid hkind hphi
    have hprecedes := h.precedes_place hs.tidy hid₀.1
      (hs.uses id x₀ k₀ kind hid₀ hkind₀ hphi used hused)
    rw [← hplace] at hprecedes
    exact hprecedes
  termUses := by
    intro x hx blk' hblk' used hused
    obtain ⟨-, hbr⟩ | ⟨x₀, hx₀, rfl, blk₀, hblk, hsame⟩ := h.term_cases hx hblk'
    · rw [hbr] at hused
      cases hused
    · rw [hsame] at hused
      exact h.precedes_end hs.tidy hx₀ (hs.termUses x₀ hx₀ blk₀ hblk used hused)

end

end Severed

end EdgeProbe
