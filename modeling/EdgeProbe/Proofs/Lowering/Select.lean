import EdgeProbe.Lowering.Select
import EdgeProbe.Proofs.Lowering.Sound

/-!
# Lowered selections

A block is split three times in front of a selection, which becomes the phi of what the two blocks
in between bring. A function in which that is done for some selections stays sound. Main statement:
`Module.Accepted.lowered`.
-/

namespace EdgeProbe

variable {m : Module} {exempt : BlockId → Prop} {f f₁ f₂ f' : Function} {c : Cut}
  {join b tail : BlockId} {parts : List Part} {now : InstKind} {id : InstId}

/-! ## Splitting again -/

namespace Opened

variable (h : Opened f c join parts now f₁)
include h

theorem position?_site (hf : f.Tidy) (hc : c.Of f) : f₁.position? c.site = .ok (some (join, 0)) := by
  obtain ⟨inst, hinst, -⟩ := hf.home _ _ _ hc.listed_site
  obtain ⟨inst₁, hinst₁, hblock, -⟩ := h.parents c.site inst hinst
  rw [if_pos List.mem_cons_self] at hblock
  obtain ⟨name, htail⟩ := h.tail
  simp [Function.position?, hinst₁, hblock, htail, bind, Except.bind, pure, Except.pure,
    List.idxOf?_cons]

end Opened

/-- A phi of a block that follows the one that was cut is one still while nothing has been put in. -/
theorem Opened.phis_eq (h : Opened f c join parts now f₁) (hf : f.Tidy) (hc : c.Of f)
    {kind : InstKind} (hkind : f.kind c.site = .ok kind) (hsite : kind.isPhi = false)
    (hempty : ∀ p ∈ parts, p.insts = []) (hb : b ∈ f.layout) {phis : List InstId}
    (hphis : f.phis b = .ok phis) : f₁.phis b = .ok phis := by
  have hkinds : ∀ id ≠ c.site, ∀ k, f.kind id = .ok k →
      ∃ k', f₁.kind id = .ok k' ∧ k'.isPhi = k.isPhi := by
    intro id hne k hk
    obtain hsame | ⟨-, hrenamed⟩ := h.kinds id k hne hk
    · exact ⟨k, hsame, rfl⟩
    · exact ⟨_, hrenamed, InstKind.isPhi_renameIncoming k⟩
  have hlisted : ∀ {blk} {ids : List InstId}, f.block b = .ok blk → (∀ id ∈ ids, id ∈ blk.insts) →
      (b = c.head → ∀ id ∈ ids, id ∈ c.before) → ∀ id ∈ ids, id ≠ c.site := by
    rintro blk ids hblk hsub hbefore id hid rfl
    obtain ⟨pos, hpos⟩ := Function.Tidy.listed_of_mem hb hblk (hsub _ hid)
    obtain ⟨rfl, -⟩ := hf.listed_unique hc.listed_site hpos
    obtain ⟨k, hk⟩ := List.mem_iff_getElem?.mp (hbefore rfl _ hid)
    obtain ⟨-, heq⟩ := hf.listed_unique hc.listed_site (hc.listed_before hk)
    obtain ⟨hlt, -⟩ := List.getElem?_eq_some_iff.mp hk
    omega
  obtain ⟨blk, hblk, hlead⟩ := Function.phis_eq_ok hphis
  by_cases hhead : b = c.head
  · subst hhead
    obtain rfl := Except.ok.inj (hc.block.symm.trans hblk)
    have hlead := Function.leading_of_append hkind hsite hlead
    obtain ⟨p, hp, hblock, hold⟩ := h.head
    obtain ⟨name, hpart⟩ := h.part p hp
    rw [hblock, hold, hempty p hp] at hpart
    refine Checked.bind_eq_ok.mpr ⟨_, hpart, ?_⟩
    simp only [List.map_nil, List.append_nil]
    refine Function.leading_congr (fun id hid => hkinds id ?_) hlead
    exact hlisted hblk (fun i hi => List.mem_append_left _ hi) (fun _ _ hi => hi) id hid
  · refine Checked.bind_eq_ok.mpr ⟨blk, (h.block_kept hf.closed hb hhead).trans hblk, ?_⟩
    refine Function.leading_congr (fun id hid => hkinds id ?_) hlead
    exact hlisted hblk (fun _ hi => hi) (fun heq => absurd heq hhead) id hid

/-- Renaming the source once more comes to renaming it for good, as the other side of the cut was no
source before. -/
theorem Opened.renameIncoming_again (h : Opened f c join parts now f₁) (hs : f.Sound m exempt)
    {k : InstKind} (hk : f.kind id = .ok k) :
    (k.renameIncoming c.head join).renameIncoming join tail = k.renameIncoming c.head tail := by
  cases k with
  | phi ty incoming =>
    have hknown := hs.named.kinds id _ hk
    simp only [Module.knowsKind, Bool.and_eq_true, List.all_eq_true] at hknown
    simp only [InstKind.renameIncoming, List.map_map]
    congr 1
    apply List.map_congr_left
    intro entry hentry
    have hlt : entry.2.index < f.blocks.size := of_decide_eq_true (hknown.2 entry hentry)
    have hnot : entry.2 ≠ join := by
      intro heq
      have := h.joinNew
      rw [heq] at hlt
      omega
    by_cases hhead : entry.2 = c.head
    · simp [hhead]
    · simp [hhead, hnot]
  | _ => rfl

/-- While nothing has been put in, no phi has come to the blocks that follow the one that was cut. -/
theorem Opened.phiOf_of_phiOf (h : Opened f c join parts now f₁) (hf : f.Tidy) (hc : c.Of f)
    {kind : InstKind} (hkind : f.kind c.site = .ok kind) (hsite : kind.isPhi = false)
    (hempty : ∀ p ∈ parts, p.insts = []) (hphi : f₁.PhiOf c.term.successors id) :
    f.PhiOf c.term.successors id := by
  obtain ⟨b, hb, phis₁, hphis₁, hmem⟩ := hphi
  have hlive := Opened.live_of_successor hf.closed hc hb
  obtain ⟨blk, phis, -, hphis⟩ := hf.phis_eq_ok hlive
  obtain rfl := Except.ok.inj ((h.phis_eq hf hc hkind hsite hempty hlive hphis).symm.trans hphis₁)
  exact ⟨b, hb, phis, hphis, hmem⟩

/-- Splitting once more in front of the instruction makes what was the other side of the cut one
more part. -/
theorem Function.BlockSplit.opened_again {name : String} (hs : f.Sound m exempt) (hc : c.Of f)
    {kind : InstKind} (hkind : f.kind c.site = .ok kind) (hsite : kind.isPhi = false)
    (h : Opened f c join parts kind f₁) (hempty : ∀ p ∈ parts, p.insts = [])
    (hsplit : BlockSplit f₁ join ⟨name, c.site :: c.after, c.term⟩ 0 tail f₂) :
    Opened f c tail (parts ++ [{ block := join, term := .br tail }]) kind f₂ := by
  have hf := hs.tidy
  have hlast : ∀ p ∈ parts ++ [{ block := join, term := .br tail }],
      p ∈ parts ∨ p = { block := join, term := .br tail } := by simp
  have htail : tail.index = f₁.blocks.size := congrArg BlockId.index hsplit.new
  have hjoinNe : ∀ p ∈ parts, p.block ≠ join := fun p hp => h.block_ne_join hc hp
  have hrenamed : ∀ id k, f.PhiOf c.term.successors id → f.kind id = .ok k →
      f₂.kind id = .ok (k.renameIncoming c.head tail) := by
    rintro id k ⟨b, hb, phis, hphis, hmem⟩ hk
    have hlive := Opened.live_of_successor hf.closed hc hb
    have hne : b ≠ join := fun heq => h.join_not_mem hf.closed (heq ▸ hlive)
    rw [hsplit.renamed b hb hne phis (h.phis_eq hf hc hkind hsite hempty hlive hphis) id hmem _
      (h.renamed b hb phis hphis id hmem k hk), h.renameIncoming_again hs hk]
  obtain ⟨place, hplace, hlayout⟩ := hsplit.layout
  refine
    { name := hsplit.name.trans h.name, params := hsplit.params.trans h.params, entry := ?entry,
      joinNew := ?joinNew, size := ?size, sizeInsts := ?sizeInsts, layout := ?layout,
      layoutNodup := ?layoutNodup, nodup := ?nodup, head := ?head, fresh := ?fresh,
      kept := ?kept, grown := ?grown, part := ?part, tail := ?tail, site := ?site,
      kinds := ?kinds, renamed := ?renamed, news := ?news, parents := ?parents, given := ?given,
      givenNodup := ?givenNodup, tokens := ?tokens }
  case entry =>
    rw [← h.entry, entryBlock?, entryBlock?, hlayout]
    cases hlist : f₁.layout with
    | nil => simp [hlist] at hplace
    | cons first rest => rfl
  case joinNew =>
    rw [htail]
    exact h.size
  case size =>
    rw [hsplit.size]
    exact h.size.trans (Nat.le_succ _)
  case sizeInsts =>
    rw [hsplit.sizeInsts]
    exact h.sizeInsts
  case layout =>
    intro b
    rw [hsplit.mem_layout, h.layout, List.map_append, List.mem_append]
    simp only [List.map_cons, List.map_nil, List.mem_singleton]
    tauto
  case layoutNodup =>
    intro hnodup
    rw [hlayout]
    refine (List.perm_insertIdx _ _ hplace).nodup_iff.mpr
      (List.nodup_cons.mpr ⟨fun hmem => ?_, h.layoutNodup hnodup⟩)
    have := h.inArena hf.closed tail hmem
    omega
  case nodup =>
    rw [List.map_append, List.nodup_append]
    refine ⟨h.nodup, by simp, ?_⟩
    intro b hb b' hb' heq
    obtain ⟨p, hp, rfl⟩ := List.mem_map.mp hb
    obtain rfl := List.mem_singleton.mp hb'
    exact hjoinNe p hp heq
  case head =>
    obtain ⟨p, hp, hblock⟩ := h.head
    exact ⟨p, List.mem_append_left _ hp, hblock⟩
  case fresh =>
    intro p hp hne
    obtain hp | rfl := hlast p hp
    · obtain ⟨hle, -, hold⟩ := h.fresh p hp hne
      refine ⟨hle, fun heq => ?_, hold⟩
      have := h.index_lt_of_mem hp
      rw [heq] at this
      omega
    · refine ⟨h.joinNew, fun heq => ?_, rfl⟩
      have heq : join = tail := heq
      have hjoinLt := h.index_join_lt
      rw [heq] at hjoinLt
      omega
  case kept =>
    intro b hlt hne
    have hjoin : b ≠ join := by
      rintro rfl
      have := h.joinNew
      omega
    rw [hsplit.kept b (hlt.trans_le h.size) hjoin]
    exact h.kept b hlt hne
  case grown =>
    intro b blk hblk
    rw [List.map_append, List.mem_append, List.map_cons, List.map_nil, List.mem_singleton]
    obtain hlt | rfl := hsplit.block_eq_ok hblk
    · obtain ⟨blk₁, hblk₁⟩ := exists_block hlt
      obtain hold | rfl | hpart := h.grown b blk₁ hblk₁
      · exact .inl hold
      · exact .inr (.inr (.inr rfl))
      · exact .inr (.inr (.inl hpart))
    · exact .inr (.inl rfl)
  case part =>
    intro p hp
    obtain hp | rfl := hlast p hp
    · rw [hsplit.kept p.block (h.index_lt_of_mem hp) (hjoinNe p hp)]
      exact h.part p hp
    · exact ⟨name, by simpa using hsplit.head⟩
  case tail =>
    obtain ⟨name', hrest⟩ := hsplit.rest
    exact ⟨name', hrest⟩
  case site =>
    obtain hi | ⟨-, hi⟩ := hsplit.kinds c.site kind h.site
    · exact hi
    · rw [hi, InstKind.renameIncoming_of_not_phi hsite]
  case kinds =>
    intro id k hne hk
    by_cases hphi : f.PhiOf c.term.successors id
    · exact .inr ⟨hphi, hrenamed id k hphi hk⟩
    · have hk₁ := (h.kinds id k hne hk).resolve_right fun hrest => hphi hrest.1
      refine .inl ((hsplit.kinds id k hk₁).resolve_right fun hrest =>
        hphi (h.phiOf_of_phiOf hf hc hkind hsite hempty ?_))
      obtain ⟨⟨b, hb, phis, hmem, hphis⟩, -⟩ := hrest
      have hne : b ≠ join := fun heq =>
        h.join_not_mem hf.closed (heq ▸ Opened.live_of_successor hf.closed hc hb)
      rw [if_neg hne] at hphis
      exact ⟨b, hb, phis, hphis, hmem⟩
  case renamed =>
    exact fun b hb phis hphis id hmem k hk => hrenamed id k ⟨b, hb, phis, hphis, hmem⟩ hk
  case news =>
    intro id k hk
    have hlt := index_lt_of_kind hk
    rw [hsplit.sizeInsts] at hlt
    obtain ⟨k₁, hk₁⟩ := exists_kind hlt
    obtain hold | ⟨p, hp, hmem⟩ := h.news id k₁ hk₁
    · exact .inl hold
    · rw [hempty p hp] at hmem
      cases hmem
  case parents =>
    intro id inst hinst
    obtain ⟨inst₁, hinst₁, hblock₁, hmark₁⟩ := h.parents id inst hinst
    obtain ⟨inst₂, hinst₂, hblock₂, hmark₂⟩ := hsplit.parents id inst₁ hinst₁
    refine ⟨inst₂, hinst₂, hblock₂.trans ?_, hmark₂.trans hmark₁⟩
    rw [List.drop_zero, hblock₁]
    split <;> rfl
  case given =>
    intro p hp entry hentry
    obtain hp | rfl := hlast p hp
    · rw [hempty p hp] at hentry
      cases hentry
    · cases hentry
  case givenNodup =>
    intro p hp
    obtain hp | rfl := hlast p hp
    · rw [hempty p hp]
      exact List.nodup_nil
    · exact List.nodup_nil
  case tokens =>
    intro i hi
    rw [hsplit.annotations] at hi
    refine (h.tokens i hi).imp_right fun hlt => ?_
    rw [hsplit.sizeInsts]
    exact hlt

/-! ## One selection -/

/-- The branch to the two blocks that stand for the choice. -/
def Cut.selected (c : Cut) (join onTrue onFalse : BlockId) (cond : Value) : List Part :=
  [⟨c.head, c.before, [], .condBr cond onTrue onFalse⟩, ⟨onTrue, [], [], .br join⟩,
    ⟨onFalse, [], [], .br join⟩]

namespace Edit

variable {l : Label}

/-- The block of a live instruction that is not a phi can be split in front of it. -/
theorem exists_splitAt (hs : f.Sound m exempt) {pos : Nat} (hid : f.Listed id b pos)
    {kind : InstKind} (hkind : f.kind id = .ok kind) (hphi : kind.isPhi = false) (name : String) :
    ∃ c join f₁, (splitAt l id name).Does f (some (b, join)) f₁ ∧ c.site = id ∧ c.head = b ∧
      c.Of f ∧ Opened f c join [{ block := c.head, old := c.before, term := .br join }] kind f₁ ∧
      f₁.Whole := by
  obtain ⟨hb, blk, hblk, hpos⟩ := hid
  obtain ⟨f₁, join, hsplit, hblockSplit, hwhole⟩ :=
    hs.named.whole.exists_splitBlock hb hblk pos (l.stem ++ name)
  refine ⟨_, join, f₁, ?_, rfl, rfl, Function.cutAt_of hb hblk hpos,
    hblockSplit.opened hs.tidy.closed hb hpos hblk hkind hphi, hwhole⟩
  refine does_bind.mpr ⟨_, f, does_query.mpr ⟨hs.tidy.position?_eq ⟨hb, blk, hblk, hpos⟩, rfl⟩, ?_⟩
  exact does_bind.mpr ⟨join, f₁, does_apply.mpr hsplit, does_pure.mpr ⟨rfl, rfl⟩⟩

theorem exists_splitAt_again (hs : f.Sound m exempt) (hc : c.Of f) {kind : InstKind}
    (hkind : f.kind c.site = .ok kind) (hphi : kind.isPhi = false)
    (h : Opened f c join parts kind f₁) (hempty : ∀ p ∈ parts, p.insts = []) (hwhole : f₁.Whole)
    (name : String) : ∃ tail f₂, (splitAt l c.site name).Does f₁ (some (join, tail)) f₂ ∧
      Opened f c tail (parts ++ [{ block := join, term := .br tail }]) kind f₂ ∧ f₂.Whole := by
  obtain ⟨_, hjoin⟩ := h.tail
  have hlive : join ∈ f₁.layout := (h.layout join).mpr (.inr (.inl rfl))
  obtain ⟨f₂, tail, hsplit, hblockSplit, hwhole₂⟩ :=
    hwhole.exists_splitBlock hlive hjoin 0 (l.stem ++ name)
  refine ⟨tail, f₂, ?_, hblockSplit.opened_again hs hc hkind hphi h hempty, hwhole₂⟩
  refine does_bind.mpr ⟨_, f₁, does_query.mpr ⟨h.position?_site hs.tidy hc, rfl⟩, ?_⟩
  exact does_bind.mpr ⟨tail, f₂, does_apply.mpr hsplit, does_pure.mpr ⟨rfl, rfl⟩⟩

theorem exists_splitThrice (hs : f.Sound m exempt) {pos : Nat} (hid : f.Listed id b pos)
    {kind : InstKind} (hkind : f.kind id = .ok kind) (hphi : kind.isPhi = false) :
    ∃ c onTrue onFalse join f₁, (splitThrice l id).Does f (some (onTrue, onFalse, join)) f₁ ∧
      c.site = id ∧ c.head = b ∧ c.Of f ∧ Opened f c join
        [⟨c.head, c.before, [], .br onTrue⟩, ⟨onTrue, [], [], .br onFalse⟩,
          ⟨onFalse, [], [], .br join⟩] kind f₁ := by
  obtain ⟨c, onTrue, f₁, hfirst, rfl, hhead, hc, h₁, hwhole₁⟩ :=
    exists_splitAt (l := l) hs hid hkind hphi ".True"
  obtain ⟨onFalse, f₂, hsecond, h₂, hwhole₂⟩ :=
    exists_splitAt_again (l := l) hs hc hkind hphi h₁ (by simp) hwhole₁ ".False"
  obtain ⟨join, f₃, hthird, h₃, -⟩ :=
    exists_splitAt_again (l := l) hs hc hkind hphi h₂ (by simp) hwhole₂ ".End"
  refine ⟨c, onTrue, onFalse, join, f₃, ?_, rfl, hhead, hc, h₃⟩
  rw [splitThrice, does_bind]
  refine ⟨_, f₁, hfirst, does_bind.mpr ⟨_, f₂, hsecond, does_bind.mpr ⟨_, f₃, hthird, ?_⟩⟩⟩
  exact does_pure.mpr ⟨rfl, rfl⟩

theorem exists_setTerminator (h : Opened f c join parts now f₁) (hc : c.Of f)
    (hb : b ∈ parts.map Part.block) (term : Terminator) :
    ∃ f₂, (setTerminator b term).Does f₁ () f₂ ∧ Opened f c join (Part.close b term parts) now f₂ := by
  obtain ⟨p, hp, rfl⟩ := List.mem_map.mp hb
  refine ⟨_, does_update.mpr ?_, h.close hc hb term⟩
  exact Function.modifyBlock_eq_ok.mpr ⟨h.index_lt_of_mem hp, rfl⟩

theorem exists_replaceKind (h : Opened f c join parts now f₁) {kind : InstKind}
    (hkind : f.kind c.site = .ok kind) (hphi : kind.isPhi = false) (new : InstKind) :
    ∃ f₂, (replaceKind c.site new).Does f₁ () f₂ ∧ Opened f c join parts new f₂ := by
  have hlt := Function.index_lt_of_kind h.site
  exact ⟨_, does_update.mpr (Function.modifyInst_eq_ok.mpr ⟨hlt, rfl⟩), h.replace hkind hphi new⟩

variable {cond ifTrue ifFalse : Value} {ty : Ty}

/-- A live selection can be lowered, which opens the function in front of it. -/
theorem exists_lowerSelect (hs : f.Sound m exempt) {pos : Nat} (hid : f.Listed id b pos)
    (hkind : f.kind id = .ok (.select cond ifTrue ifFalse)) (hty : f.instType id = .ok ty)
    (count : Nat) : ∃ c onTrue onFalse join f', (lowerSelect count id).Does f 1 f' ∧ c.site = id ∧
      c.Of f ∧ Opened f c join (c.selected join onTrue onFalse cond)
        (.phi ty [(ifTrue, onTrue), (ifFalse, onFalse)]) f' := by
  obtain ⟨inst, hinst, -⟩ := Function.kind_eq_ok.mp hkind
  obtain ⟨blk, hblk⟩ := hs.tidy.closed.block_of_mem hid.1
  let l : Label := ⟨blk.givenName ++ ".S2B." ++ toString count, inst.loc⟩
  obtain ⟨c, onTrue, onFalse, join, f₁, hthrice, rfl, rfl, hc, h₁⟩ :=
    exists_splitThrice (l := l) hs hid hkind rfl
  obtain ⟨f₂, hhead, h₂⟩ :=
    exists_setTerminator h₁ hc (b := c.head) (by simp) (.condBr cond onTrue onFalse)
  obtain ⟨f₃, htrue, h₃⟩ := exists_setTerminator h₂ hc (b := onTrue) (by simp) (.br join)
  obtain ⟨f', hphi, h₄⟩ :=
    exists_replaceKind h₃ hkind rfl (.phi ty [(ifTrue, onTrue), (ifFalse, onFalse)])
  refine ⟨c, onTrue, onFalse, join, f', ?_, rfl, hc, ?_⟩
  · rw [lowerSelect, does_bind]
    refine ⟨_, f, kind_does.mpr ⟨hkind, rfl⟩, does_bind.mpr ⟨ty, f, does_query.mpr ⟨hty, rfl⟩, ?_⟩⟩
    refine does_bind.mpr ⟨_, f, does_query.mpr ⟨hs.tidy.position?_eq hid, rfl⟩, ?_⟩
    refine does_bind.mpr ⟨blk, f, does_query.mpr ⟨hblk, rfl⟩, does_bind.mpr ⟨l, f, ?_, ?_⟩⟩
    · exact does_bind.mpr ⟨inst, f, does_query.mpr ⟨hinst, rfl⟩, does_pure.mpr ⟨rfl, rfl⟩⟩
    refine does_bind.mpr ⟨_, f₁, hthrice, does_bind.mpr ⟨(), f₂, hhead, ?_⟩⟩
    exact does_bind.mpr ⟨(), f₃, htrue, does_bind.mpr ⟨(), f', hphi, does_pure.mpr ⟨rfl, rfl⟩⟩⟩
  · have hnodup := h₁.nodup
    simp only [List.map_cons, List.map_nil, List.nodup_cons, List.mem_cons, List.not_mem_nil,
      or_false, not_or] at hnodup
    obtain ⟨⟨hne, hne'⟩, hne'', -⟩ := hnodup
    simpa [Part.close, Cut.selected, hne, Ne.symm hne, hne', Ne.symm hne', hne'', Ne.symm hne'']
      using h₄

end Edit

section

variable {onTrue onFalse : BlockId} {cond ifTrue ifFalse : Value} {ty : Ty}
  (h : Opened f c join (c.selected join onTrue onFalse cond)
    (.phi ty [(ifTrue, onTrue), (ifFalse, onFalse)]) f')
  (hf : f.Tidy) (hs : f.Sound m exempt) (hc : c.Of f)
  (hkind : f.kind c.site = .ok (.select cond ifTrue ifFalse))
include h hc hkind

include hf in
theorem Opened.patched_selected : Patched f c join (c.selected join onTrue onFalse cond) ty
    [(ifTrue, onTrue), (ifFalse, onFalse)] f' := by
  have hbelow := hf.values_below hc.listed_site hkind
  simp only [InstKind.operands, List.forall_mem_cons] at hbelow
  obtain ⟨hcond, htrue, hfalse, -⟩ := hbelow
  have hcond := hcond.mono h.sizeInsts
  have htrue := htrue.mono h.sizeInsts
  have hfalse := hfalse.mono h.sizeInsts
  have hnodup := h.nodup
  simp only [Cut.selected, List.map_cons, List.map_nil, List.nodup_cons, List.mem_cons,
    List.not_mem_nil, or_false, not_or] at hnodup
  obtain ⟨⟨hne, hne'⟩, hne'', -⟩ := hnodup
  have hjoin : ∀ p ∈ c.selected join onTrue onFalse cond, join ≠ p.block :=
    fun p hp => (h.block_ne_join hc hp).symm
  simp only [Cut.selected, List.forall_mem_cons] at hjoin
  obtain ⟨-, hjoin, hjoin', -⟩ := hjoin
  refine ⟨h, ?_, ?_, ?_, ?_, ?_, ?_, ?_⟩ <;>
    simp [-Prod.forall, Cut.selected, Terminator.successors, Terminator.operands, hcond, htrue,
      hfalse, Ne.symm hne, Ne.symm hne', hjoin, hjoin']

include hf in
/-- The phi has the type of the selection. -/
theorem Opened.typesKept_selected (hty : f.instType c.site = .ok ty) : f.TypesKept f' :=
  (h.patched_selected hf hc hkind).typesKept_of_type fun _ _ hty' =>
    (Function.valueTypeWithin_unique hty hty').symm

include hs in
theorem Opened.sound_selected (hty : f.instType c.site = .ok ty) (hcond : f.valueType cond = .ok .i1) :
    f'.Sound m exempt := by
  have hpatched := h.patched_selected hs.tidy hc hkind
  have htypes := h.typesKept_selected hs.tidy hc hkind hty
  have hgives : ∀ value ∈ [cond, ifTrue, ifFalse], ∀ p pos,
      c.Gives m f (c.selected join onTrue onFalse cond) p pos value :=
    fun value hvalue => hs.gives hc hkind rfl hvalue
  simp only [List.forall_mem_cons] at hgives
  obtain ⟨hgivesCond, hgivesTrue, hgivesFalse, -⟩ := hgives
  have hempty : ∀ p ∈ c.selected join onTrue onFalse cond, p.insts = [] := by simp [Cut.selected]
  refine hpatched.sound hs hc hkind rfl rfl ⟨fun p hp => ⟨?_, ?_, ?_, ?_⟩, ?_, ?_⟩ htypes
  · simp [hempty p hp]
  · simp [hempty p hp]
  · simp [hempty p hp]
  · simp only [Cut.selected, List.mem_cons, List.not_mem_nil, or_false] at hp
    obtain rfl | rfl | rfl := hp
    · exact .inr ⟨cond, onTrue, onFalse, rfl, htypes.valueType h.sizeInsts hcond, hgivesCond _ _⟩
    · exact .inl ⟨join, rfl⟩
    · exact .inl ⟨join, rfl⟩
  · have hnodup := h.nodup
    simp only [Cut.selected, List.map_cons, List.map_nil, List.nodup_cons] at hnodup
    simpa using hnodup.2.1
  · simp only [List.forall_mem_cons, List.not_mem_nil, false_implies, implies_true, and_true]
    exact ⟨⟨⟨onTrue, [], [], .br join⟩, by simp [Cut.selected], rfl, List.mem_cons_self,
        hgivesTrue _ _⟩,
      ⟨⟨onFalse, [], [], .br join⟩, by simp [Cut.selected], rfl, List.mem_cons_self,
        hgivesFalse _ _⟩⟩

end

/-! ## All selections -/

namespace Function

/-- A live instruction that, if it is a selection, is decided by one bit. -/
structure Selects (f : Function) (id : InstId) : Prop where
  listed : ∃ b pos, f.Listed id b pos
  condition : ∀ cond ifTrue ifFalse, f.kind id = .ok (.select cond ifTrue ifFalse) →
    f.valueType cond = .ok .i1

/-- The live instructions have types: none of them has its type from itself. -/
def Typed (f : Function) : Prop :=
  ∀ id b pos, f.Listed id b pos → ∃ ty, f.instType id = .ok ty

/-- What lowering selections makes of a function. -/
structure Lowered (m : Module) (exempt : BlockId → Prop) (f f' : Function) : Prop where
  sound : f'.Sound m exempt
  params : f'.params = f.params
  typed : f.Typed → f'.Typed
  selects : ∀ id, f.Selects id → f'.Selects id

theorem Lowered.refl (hs : f.Sound m exempt) : Lowered m exempt f f :=
  ⟨hs, rfl, id, fun _ => id⟩

theorem Lowered.trans (h : Lowered m exempt f f₁) (h' : Lowered m exempt f₁ f') :
    Lowered m exempt f f' :=
  ⟨h'.sound, h'.params.trans h.params, h'.typed ∘ h.typed,
    fun id hid => h'.selects id (h.selects id hid)⟩

theorem lowered_of_opened {onTrue onFalse : BlockId} {cond ifTrue ifFalse : Value} {ty : Ty}
    (h : Opened f c join (c.selected join onTrue onFalse cond)
      (.phi ty [(ifTrue, onTrue), (ifFalse, onFalse)]) f')
    (hs : f.Sound m exempt) (hc : c.Of f)
    (hkind : f.kind c.site = .ok (.select cond ifTrue ifFalse)) (hty : f.instType c.site = .ok ty)
    (hcond : f.valueType cond = .ok .i1) : Lowered m exempt f f' := by
  have hpatched := h.patched_selected hs.tidy hc hkind
  have htypes := h.typesKept_selected hs.tidy hc hkind hty
  refine ⟨h.sound_selected hs hc hkind hty hcond, h.params, fun htyped id b pos hid => ?_,
    fun id hid => ?_⟩
  · have hold : ∀ b pos, f.Listed id b pos → ∃ ty, f'.instType id = .ok ty := by
      intro b pos hid
      obtain ⟨ty, hty⟩ := htyped id b pos hid
      exact ⟨ty, htypes.valueType h.sizeInsts hty⟩
    obtain ⟨hlisted, -⟩ | ⟨-, hlisted⟩ | ⟨p, hp, -, -, k, hmem⟩ :=
      h.listed_cases hs.tidy.closed hc hid
    · exact hold _ _ hlisted
    · exact hold _ _ hlisted
    · have hempty : p.insts = [] := by
        simp only [Cut.selected, List.mem_cons, List.not_mem_nil, or_false] at hp
        obtain rfl | rfl | rfl := hp <;> rfl
      rw [hempty] at hmem
      cases hmem
  · obtain ⟨b, pos, hlisted⟩ := hid.listed
    refine ⟨⟨_, _, hpatched.listed_mono hs.tidy hc hlisted⟩, fun cond ifTrue ifFalse hk => ?_⟩
    obtain ⟨k, hk₀⟩ := hs.tidy.exists_kind hlisted
    have hbefore := hpatched.kind_of_kind (index_lt_of_kind hk₀) hk rfl
    exact htypes.valueType h.sizeInsts (hid.condition cond ifTrue ifFalse hbefore)

theorem selects_of_mem {ids : List InstId} (h : f.selects = .ok ids) (hid : id ∈ ids) :
    f.Selects id := by
  obtain ⟨live, hlive, h⟩ := Checked.bind_eq_ok.mp h
  obtain ⟨hmem, hchosen⟩ := Checked.mem_of_filterM h hid
  refine ⟨listed_of_liveInsts hlive hmem, fun cond ifTrue ifFalse hkind => ?_⟩
  obtain ⟨kind, hkind', hchosen⟩ := Checked.bind_eq_ok.mp hchosen
  obtain rfl := Except.ok.inj (hkind.symm.trans hkind')
  obtain ⟨ty, hty, hchosen⟩ := Checked.bind_eq_ok.mp hchosen
  rw [hty, eq_of_beq (Checked.pure_eq_ok.mp hchosen)]

/-- In a function whose instructions have types the selections are found. -/
theorem exists_selects (hs : f.Sound m exempt) (htyped : f.Typed) : ∃ ids, f.selects = .ok ids := by
  obtain ⟨live, hlive⟩ := hs.tidy.closed.liveInsts_eq_ok
  rw [selects, hlive]
  refine Checked.exists_filterM (l := live) fun id hid => ?_
  obtain ⟨b, pos, hlisted⟩ := listed_of_liveInsts hlive hid
  obtain ⟨kind, hkind⟩ := hs.tidy.exists_kind hlisted
  rw [hkind]
  cases kind with
  | select cond ifTrue ifFalse =>
    obtain ⟨ty, hty⟩ : ∃ ty, f.valueType cond = .ok ty := by
      cases cond with
      | inst used =>
        obtain ⟨home, k, hused, -⟩ :=
          hs.uses id b pos _ hlisted hkind rfl used (by simp [InstKind.operands])
        exact htyped used home k hused
      | const c => cases c <;> exact ⟨_, by unfold valueType valueTypeWithin; rfl⟩
      | _ => exact ⟨_, by unfold valueType valueTypeWithin; rfl⟩
    exact ⟨ty == .i1, Checked.bind_eq_ok.mpr ⟨_, rfl, Checked.bind_eq_ok.mpr ⟨ty, hty, rfl⟩⟩⟩
  | _ => exact ⟨false, rfl⟩

end Function

namespace Edit

/-- Lowering an instruction leaves it alone if it is no selection. -/
theorem lowerSelect_lowered (hs : f.Sound m exempt) (hid : f.Selects id) {count n : Nat}
    (h : (lowerSelect count id).Does f n f') : Function.Lowered m exempt f f' := by
  obtain ⟨kind, f₁, hasked, hrest⟩ := does_bind.mp h
  obtain ⟨hkind, rfl⟩ := kind_does.mp hasked
  cases kind with
  | select cond ifTrue ifFalse =>
    obtain ⟨ty, f₂, hquery, -⟩ := does_bind.mp hrest
    obtain ⟨hty, rfl⟩ := does_query.mp hquery
    obtain ⟨b, pos, hlisted⟩ := hid.listed
    obtain ⟨c, onTrue, onFalse, join, f₃, hdoes, rfl, hc, hopened⟩ :=
      exists_lowerSelect hs hlisted hkind hty count
    obtain ⟨-, rfl⟩ := h.unique hdoes
    exact Function.lowered_of_opened hopened hs hc hkind hty (hid.condition _ _ _ hkind)
  | _ =>
    obtain ⟨-, rfl⟩ := does_pure.mp hrest
    exact .refl hs

theorem exists_lowerSelect_lowered (hs : f.Sound m exempt) (hid : f.Selects id) (htyped : f.Typed)
    (count : Nat) : ∃ n f', (lowerSelect count id).Does f n f' := by
  obtain ⟨b, pos, hlisted⟩ := hid.listed
  obtain ⟨kind, hkind⟩ := hs.tidy.exists_kind hlisted
  cases hselect : kind with
  | select cond ifTrue ifFalse =>
    obtain ⟨ty, hty⟩ := htyped id b pos hlisted
    obtain ⟨_, _, _, _, f', hdoes, -⟩ :=
      exists_lowerSelect hs hlisted (hselect ▸ hkind) hty count
    exact ⟨1, f', hdoes⟩
  | _ =>
    refine ⟨0, f, does_bind.mpr ⟨kind, f, kind_does.mpr ⟨hkind, rfl⟩, ?_⟩⟩
    rw [hselect]
    exact does_pure.mpr ⟨rfl, rfl⟩

theorem lowerSelects_lowered (hs : f.Sound m exempt) {count n : Nat}
    (h : (lowerSelects count).Does f n f') : Function.Lowered m exempt f f' := by
  obtain ⟨ids, f₁, hquery, h⟩ := does_bind.mp h
  obtain ⟨hids, rfl⟩ := does_query.mp hquery
  refine h.foldlM (Function.Lowered m exempt f) (fun id hid count n f₁ f₂ hlowered hstep => ?_)
    (.refl hs)
  obtain ⟨more, f₃, hdoes, hstep⟩ := does_bind.mp hstep
  obtain ⟨-, rfl⟩ := does_pure.mp hstep
  have hsite := hlowered.selects id (Function.selects_of_mem hids hid)
  exact hlowered.trans (lowerSelect_lowered hlowered.sound hsite hdoes)

theorem exists_lowerSelects (hs : f.Sound m exempt) (htyped : f.Typed) (count : Nat) :
    ∃ n f', (lowerSelects count).Does f n f' := by
  obtain ⟨ids, hids⟩ := Function.exists_selects hs htyped
  obtain ⟨n, f', hloop, -⟩ := exists_foldlM (Function.Lowered m exempt f)
    (g := fun count id => return count + (← lowerSelect count id)) (l := ids) count
    (fun id hid count f₁ hlowered => by
      have hsite := hlowered.selects id (Function.selects_of_mem hids hid)
      obtain ⟨more, f₂, hdoes⟩ :=
        exists_lowerSelect_lowered hlowered.sound hsite (hlowered.typed htyped) count
      exact ⟨count + more, f₂, does_bind.mpr ⟨more, f₂, hdoes, does_pure.mpr ⟨rfl, rfl⟩⟩,
        hlowered.trans (lowerSelect_lowered hlowered.sound hsite hdoes)⟩)
    (.refl hs)
  exact ⟨n, f', does_bind.mpr ⟨ids, f, does_query.mpr ⟨hids, rfl⟩, hloop⟩⟩

/-- There is nothing to lower in a declaration. -/
theorem lowerSelects_of_isDeclaration (hbody : f.isDeclaration = true) (count : Nat) :
    (lowerSelects count).Does f count f := by
  have hnone : f.selects = .ok [] := by
    rw [Function.selects, Function.liveInsts, List.isEmpty_iff.mp hbody]
    rfl
  exact does_bind.mpr ⟨[], f, does_query.mpr ⟨hnone, rfl⟩, does_pure.mpr ⟨rfl, rfl⟩⟩

end Edit

/-- The live instructions of all functions have types. -/
def Module.Typed (m : Module) : Prop :=
  ∀ id f, m.function id = .ok f → f.Typed

namespace Pass

variable {s s' : PassState} {fid : FuncId}

theorem inFunction_lowerSelects_sound (hm : s.module.Sound) {count n : Nat}
    (h : (inFunction fid (Edit.lowerSelects count)).Does s n s') :
    s'.module.Sound ∧ (s.module.Typed → s'.module.Typed) ∧
      s'.module.functions.size = s.module.functions.size := by
  obtain ⟨f, f', hid, hdoes, rfl⟩ := does_inFunction.mp h
  have hsize : (s.module.setFunction fid f').functions.size = s.module.functions.size := by
    simp [Module.setFunction]
  cases hbody : f.isDeclaration with
  | true =>
    obtain ⟨-, rfl⟩ := hdoes.unique (Edit.lowerSelects_of_isDeclaration hbody count)
    rw [Module.setFunction_self hid]
    exact ⟨hm, fun htyped => htyped, rfl⟩
  | false =>
    have hlowered := Edit.lowerSelects_lowered (hm fid f hid hbody) hdoes
    refine ⟨hm.setFunction hid hlowered.params fun _ => hlowered.sound, fun htyped i g hi => ?_, hsize⟩
    dsimp only at hi
    rw [Module.function_setFunction (Module.index_lt_of_function hid)] at hi
    split at hi
    · exact Except.ok.inj hi ▸ hlowered.typed (htyped fid f hid)
    · exact htyped i g hi

theorem lowerSelects_sound (hm : s.module.Sound) {n : Nat} (h : lowerSelects.Does s n s') :
    s'.module.Sound := by
  obtain ⟨ids, s₁, hids, h⟩ := does_bind.mp h
  obtain ⟨-, rfl⟩ := does_functionIds.mp hids
  obtain ⟨count, s₂, hloop, h⟩ := does_bind.mp h
  have hsilent : (do
      if count = 0 then warn "No instrumentation SELECT found."
      else info ("Instrumented " ++ toString count ++ " SELECT.")
      return count : Pass Nat).Silent := by
    split
    · exact (silent_report _).bind fun _ => silent_pure _
    · exact (silent_report _).bind fun _ => silent_pure _
  rw [hsilent s₂ n s' h]
  refine hloop.foldlM (fun s => s.module.Sound) ?_ hm
  exact fun id _ count n s s' hs hstep => (inFunction_lowerSelects_sound hs hstep).1

theorem exists_lowerSelects (hm : s.module.Sound) (htyped : s.module.Typed) :
    ∃ n s', lowerSelects.Does s n s' := by
  have hids : functionIds.Does s s.module.functionIds s := does_functionIds.mpr ⟨rfl, rfl⟩
  obtain ⟨count, s₂, hloop, -⟩ := exists_foldlM
    (fun s₁ => s₁.module.Sound ∧ s₁.module.Typed ∧
      s₁.module.functions.size = s.module.functions.size)
    (g := fun count id => inFunction id (Edit.lowerSelects count)) (l := s.module.functionIds) 0
    (fun id hid count s₁ hinv => by
      obtain ⟨hm₁, htyped₁, hsize⟩ := hinv
      have hlt : id.index < s₁.module.functions.size := hsize ▸ Module.mem_functionIds.mp hid
      have hfunction : s₁.module.function id = .ok s₁.module.functions[id.index] :=
        Module.function_eq_ok.mpr (Array.getElem?_eq_getElem hlt)
      obtain ⟨n, f', hdoes⟩ :
          ∃ n f', (Edit.lowerSelects count).Does s₁.module.functions[id.index] n f' := by
        cases hbody : s₁.module.functions[id.index].isDeclaration with
        | true => exact ⟨count, _, Edit.lowerSelects_of_isDeclaration hbody count⟩
        | false =>
          exact Edit.exists_lowerSelects (hm₁ id _ hfunction hbody) (htyped₁ id _ hfunction) count
      have hstep := does_inFunction.mpr ⟨_, f', hfunction, hdoes, rfl⟩
      obtain ⟨hsound, htyped₂, hsize₂⟩ := inFunction_lowerSelects_sound hm₁ hstep
      exact ⟨n, _, hstep, hsound, htyped₂ htyped₁, hsize₂.trans hsize⟩)
    ⟨hm, htyped, rfl⟩
  obtain ⟨n, s', hrest⟩ : ∃ n s', (do
      if count = 0 then warn "No instrumentation SELECT found."
      else info ("Instrumented " ++ toString count ++ " SELECT.")
      return count : Pass Nat).Does s₂ n s' := by
    split
    · exact ⟨count, _, does_bind.mpr ⟨(), _, rfl, does_pure.mpr ⟨rfl, rfl⟩⟩⟩
    · exact ⟨count, _, does_bind.mpr ⟨(), _, rfl, does_pure.mpr ⟨rfl, rfl⟩⟩⟩
  exact ⟨n, s', does_bind.mpr ⟨_, s, hids, does_bind.mpr ⟨count, s₂, hloop, hrest⟩⟩⟩

end Pass

/-- A module stays accepted when its selections are lowered, which is done unless an instruction has
its type from itself, and when its comparisons are split. -/
theorem Module.Accepted.lowered (hm : m.Accepted) (honce : m.ListsOnce) :
    (∀ count s, Pass.lowerSelects.runOn m = .ok (.ok count, s) → s.module.Accepted) ∧
      (m.Typed → ∃ count s, Pass.lowerSelects.runOn m = .ok (.ok count, s)) ∧
      ∀ config stats s, (Pass.splitCompares config).runOn m = .ok (.ok stats, s) →
        s.module.Accepted := by
  have hsound := hm.sound honce
  refine ⟨fun count s h => ?_, fun htyped => ?_, fun config stats s h => ?_⟩
  · exact (Pass.lowerSelects_sound (s := { module := m }) hsound h).accepted
  · exact Pass.exists_lowerSelects (s := { module := m }) hsound htyped
  · have hsplits := Pass.splitCompares_splits (s := { module := m }) (hm.tidy honce) h
    exact (hsplits.sound hsound).accepted

/-- A choice between two words and a comparison of two. -/
def Module.choosing : Module where
  name := "choosing"
  functions := #[.atLeast,
    .sole "choose" [.i1, .int 32, .int 32] (.int 32) (.select (.arg 0) (.arg 1) (.arg 2))]

theorem Module.choosing_accepted : choosing.Accepted := by
  refine accepted_of_passes fun f hf _ => ?_
  obtain rfl | hf := List.mem_cons.mp hf
  · exact verifyFunction_sole (by decide) (by simp [InstKind.operands]) rfl
  · obtain rfl := List.mem_singleton.mp hf
    exact verifyFunction_sole (by decide) (by simp [InstKind.operands]) rfl

theorem Module.choosing_listsOnce : choosing.ListsOnce := by
  intro id f hf ids hids
  obtain rfl | hf := List.mem_cons.mp (mem_of_function hf)
  · obtain rfl : [⟨0⟩] = ids := Except.ok.inj hids
    exact List.nodup_singleton _
  · obtain rfl := List.mem_singleton.mp hf
    obtain rfl : [⟨0⟩] = ids := Except.ok.inj hids
    exact List.nodup_singleton _

theorem Module.choosing_lowered :
    (∃ count s, Pass.lowerSelects.runOn choosing = .ok (.ok count, s) ∧ s.module.Accepted) ∧
      ∃ stats s, (Pass.splitCompares (.coverage .all)).runOn choosing = .ok (.ok stats, s) ∧
        s.module.Accepted := by
  obtain ⟨hlowered, -, hsplit⟩ := choosing_accepted.lowered choosing_listsOnce
  constructor
  · obtain ⟨count, s, h⟩ := Pass.exists_of_completes
      (show Pass.completes (Pass.lowerSelects.runOn choosing) = true by decide +kernel)
    exact ⟨count, s, h, hlowered count s h⟩
  · obtain ⟨stats, s, h⟩ := Pass.exists_of_completes
      (show Pass.completes ((Pass.splitCompares (.coverage .all)).runOn choosing) = true by
        decide +kernel)
    exact ⟨stats, s, h, hsplit _ stats s h⟩

end EdgeProbe
