import EdgeProbe.Proofs.Validity.Relocated
import EdgeProbe.Proofs.Validity.Sound

/-!
# Parts that fit in

A function stays sound when parts are put in the place of one of its instructions, if what the parts
read is there: it was there for the instruction, the first part computes it, or the part itself
does. Main statement: `Patched.sound`.
-/

namespace EdgeProbe

/-- A value that may be read at a position of a part, or at its end. -/
inductive Cut.Gives (m : Module) (f : Function) (c : Cut) (parts : List Part) (p : Part)
    (pos : Option Nat) : Value → Prop
  | plain {value : Value} (hvalue : value.inst? = none) (hknown : m.knowsValue f value = true) :
    Gives m f c parts p pos value
  | before {used : InstId} (hused : f.Precedes used c.head (some c.before.length)) :
    Gives m f c parts p pos (.inst used)
  | head {used : InstId} {kind : InstKind} {q : Part} (hq : q ∈ parts) (hhead : q.block = c.head)
    (hne : p.block ≠ c.head) (hused : (used, kind) ∈ q.insts) : Gives m f c parts p pos (.inst used)
  | here {used : InstId} {kind : InstKind} {k : Nat} (hused : p.insts[k]? = some (used, kind))
    (hlt : ∀ k', pos = some k' → k < k') : Gives m f c parts p pos (.inst used)

/-- The code of a part fits into the function. -/
structure Part.Fits (m : Module) (f : Function) (c : Cut) (parts : List Part) (f' : Function)
    (p : Part) : Prop where
  plain : ∀ entry ∈ p.insts, entry.2.isLandingPad = false ∧ entry.2.isCall = false
  operands : ∀ k id kind, p.insts[k]? = some (id, kind) →
    ∀ value ∈ kind.operands, c.Gives m f parts p (some k) value
  paired : ∀ entry ∈ p.insts, ∀ lhs rhs, entry.2.paired? = some (lhs, rhs) →
    ∃ ty, f'.valueType lhs = .ok ty ∧ f'.valueType rhs = .ok ty
  ends : (∃ target, p.term = .br target) ∨
    ∃ cond onTrue onFalse, p.term = .condBr cond onTrue onFalse ∧ f'.valueType cond = .ok .i1 ∧
      c.Gives m f parts p none cond

/-- The parts fit into the function, and so does the phi that joins them. -/
structure Patched.Fits (m : Module) (f : Function) (c : Cut) (join : BlockId) (parts : List Part)
    (entries : List (Value × BlockId)) (f' : Function) : Prop where
  each : ∀ p ∈ parts, p.Fits m f c parts f'
  distinct : (entries.map (·.2)).Nodup
  entries : ∀ entry ∈ entries, ∃ p ∈ parts, p.block = entry.2 ∧ join ∈ p.term.successors ∧
    c.Gives m f parts p none entry.1

/-- What only phis come before, other than the instruction at the cut, stands in front of it. -/
theorem Cut.Of.front_of_leads {f : Function} {c : Cut} {b : BlockId} {kind : InstKind}
    (hc : c.Of f) (hkind : f.kind c.site = .ok kind) (hsite : kind.isPhi = false) {id : InstId}
    {pos : Nat} (hid : f.Listed id b pos) (hne : id ≠ c.site)
    (hlead : ∀ before < pos, ∀ id', f.Listed id' b before →
      ∃ ty incoming, f.kind id' = .ok (.phi ty incoming)) :
    ¬(b = c.head ∧ c.before.length ≤ pos) := by
  rintro ⟨rfl, hle⟩
  have hnepos : c.before.length ≠ pos := by
    rintro rfl
    obtain ⟨-, blk, hblk, hget⟩ := hid
    obtain rfl := Except.ok.inj (hc.block.symm.trans hblk)
    exact hne (by simpa using hget.symm)
  obtain ⟨ty, incoming, hphi⟩ := hlead c.before.length (by omega) c.site hc.listed_site
  obtain rfl := Except.ok.inj (hkind.symm.trans hphi)
  cases hsite

namespace Patched

variable {m : Module} {exempt : BlockId → Prop} {f f' : Function} {c : Cut} {join b : BlockId}
  {parts : List Part} {ty : Ty} {entries : List (Value × BlockId)} {kind : InstKind}

theorem Fits.noPads (hfits : Fits m f c join parts entries f') :
    ∀ p ∈ parts, ∀ entry ∈ p.insts, entry.2.isLandingPad = false :=
  fun p hp entry hentry => ((hfits.each p hp).plain entry hentry).1

section

variable (h : Patched f c join parts ty entries f')
include h

theorem grows (m : Module) : m.Grows f m f' :=
  ⟨le_rfl, le_rfl, h.opened.params, h.opened.sizeInsts, h.opened.size⟩

/-- A block of the rewritten function is one from before, the other side of the cut or a part. -/
theorem block_eq_cases {blk' : Block} (hblk' : f'.block b = .ok blk') :
    (b ≠ c.head ∧ b.index < f.blocks.size ∧ f.block b = .ok blk') ∨
      (b = join ∧ ∃ name, blk' = ⟨name, c.site :: c.after, c.term⟩) ∨
      ∃ p ∈ parts, p.block = b ∧ ∃ name, blk' = ⟨name, p.old ++ p.insts.map (·.1), p.term⟩ := by
  by_cases hpart : b ∈ parts.map Part.block
  · obtain ⟨p, hp, rfl⟩ := List.mem_map.mp hpart
    obtain ⟨name, hblock⟩ := h.opened.part p hp
    exact .inr (.inr ⟨p, hp, rfl, name, Except.ok.inj (hblk'.symm.trans hblock)⟩)
  obtain hlt | rfl | hmem := h.opened.grown b blk' hblk'
  · have hne : b ≠ c.head := by
      rintro rfl
      exact hpart h.opened.head_mem
    exact .inl ⟨hne, hlt, (h.opened.kept b hlt hne).symm.trans hblk'⟩
  · obtain ⟨name, htail⟩ := h.opened.tail
    exact .inr (.inl ⟨rfl, name, Except.ok.inj (hblk'.symm.trans htail)⟩)
  · exact absurd hmem hpart

/-- A live block of the rewritten function ends as one from before did, or is a part. -/
theorem term_cases (hc : c.Of f) {b' : BlockId} (hb' : b' ∈ f'.layout) {blk' : Block}
    (hblk' : f'.block b' = .ok blk') :
    (∃ b ∈ f.layout, ∃ blk, f.block b = .ok blk ∧ blk'.term = blk.term ∧ b' = c.rename join b) ∨
      ∃ p ∈ parts, p.block = b' ∧ blk'.term = p.term := by
  obtain ⟨hne, -, hblk⟩ | ⟨rfl, name, rfl⟩ | ⟨p, hp, hblock, name, rfl⟩ := h.block_eq_cases hblk'
  · obtain ⟨hold, -⟩ | rfl | ⟨p, hp, rfl⟩ := h.opened.block_cases hb'
    · exact .inl ⟨b', hold, blk', hblk, rfl, (if_neg hne).symm⟩
    · exact absurd (Function.index_lt_of_block hblk) (Nat.not_lt.mpr h.opened.joinNew)
    · exact absurd (Function.index_lt_of_block hblk) (Nat.not_lt.mpr (h.opened.fresh p hp hne).1)
  · exact .inl ⟨c.head, hc.live, _, hc.block, rfl, (if_pos rfl).symm⟩
  · exact .inr ⟨p, hp, hblock, rfl⟩

variable (hs : f.Sound m exempt)
include hs

theorem gives_known {p : Part} (hp : p ∈ parts) {pos : Option Nat} {value : Value}
    (hgives : c.Gives m f parts p pos value) : m.knowsValue f' value = true := by
  have hgiven : ∀ q ∈ parts, ∀ used kind, (used, kind) ∈ q.insts →
      m.knowsValue f' (.inst used) = true := by
    intro q hq used kind hused
    obtain ⟨-, inst, hinst, -⟩ := h.opened.given q hq _ hused
    exact decide_eq_true (Function.index_lt_of_inst hinst)
  cases hgives with
  | plain _ hknown => exact (h.grows m).knowsValue hknown
  | before hused =>
    obtain ⟨home, k, hid, -⟩ := hused
    obtain ⟨inst, hinst, -⟩ := hs.tidy.home _ _ _ hid
    exact (h.grows m).knowsValue (decide_eq_true (Function.index_lt_of_inst hinst))
  | head hq _ _ hused => exact hgiven _ hq _ _ hused
  | here hused => exact hgiven p hp _ _ (List.mem_of_getElem? hused)

theorem knowsKind (hfits : Fits m f c join parts entries f') {id : InstId} {k : InstKind}
    (hk : f'.kind id = .ok k) : m.knowsKind f' k = true := by
  have hsources : ∀ b, b = join ∨ b ∈ parts.map Part.block → f'.hasBlock b = true := by
    rintro b (rfl | hb)
    · obtain ⟨name, htail⟩ := h.opened.tail
      exact decide_eq_true (Function.index_lt_of_block htail)
    · obtain ⟨p, hp, rfl⟩ := List.mem_map.mp hb
      exact decide_eq_true (h.opened.index_lt_of_mem hp)
  obtain hlt | ⟨p, hp, hgiven⟩ := h.opened.news id k hk
  · by_cases hne : id = c.site
    · subst hne
      obtain rfl := Except.ok.inj (h.opened.site.symm.trans hk)
      simp only [Module.knowsKind, InstKind.operands, Bool.and_eq_true, List.all_eq_true,
        List.forall_mem_map]
      refine ⟨fun entry hentry => ?_, fun entry hentry => ?_⟩
      · obtain ⟨p, hp, -, -, hgives⟩ := hfits.entries entry hentry
        exact h.gives_known hs hp hgives
      · exact hsources entry.2 (.inr (h.sources entry hentry))
    · have hk₀ : f.kind id = .ok f.insts[id.index].kind :=
        Function.kind_eq_ok.mpr ⟨_, Function.inst_eq_ok.mpr (Array.getElem?_eq_getElem hlt), rfl⟩
      have hknown := (h.grows m).knowsKind (hs.named.kinds id _ hk₀)
      obtain hsame | ⟨-, hrenamed⟩ := h.opened.kinds id _ hne hk₀
      · obtain rfl := Except.ok.inj (hsame.symm.trans hk)
        exact hknown
      · obtain rfl := Except.ok.inj (hrenamed.symm.trans hk)
        unfold Module.knowsKind at hknown ⊢
        rw [InstKind.operands_renameIncoming]
        rw [Bool.and_eq_true] at hknown ⊢
        refine ⟨hknown.1, ?_⟩
        cases hphi : f.insts[id.index].kind with
        | phi ty' before =>
          rw [hphi] at hknown
          simp only [InstKind.renameIncoming, List.all_eq_true, List.forall_mem_map]
          intro entry hentry
          split
          · exact hsources join (.inl rfl)
          · exact List.all_eq_true.mp hknown.2 entry hentry
        | _ =>
          rw [hphi] at hknown
          exact hknown.2
  · obtain ⟨n, hn⟩ := List.mem_iff_getElem?.mp hgiven
    have hoperands : k.operands.all (m.knowsValue f') = true :=
      List.all_eq_true.mpr fun value hvalue =>
        h.gives_known hs hp ((hfits.each p hp).operands n id k hn value hvalue)
    unfold Module.knowsKind
    rw [hoperands, Bool.true_and]
    cases k with
    | phi ty' before => cases h.kinds p hp _ hgiven
    | call callee args ret => cases ((hfits.each p hp).plain _ hgiven).2
    | _ => rfl

variable (hc : c.Of f)
include hc

/-- An edge of the block that was cut now starts at the other side. -/
theorem edge_mono {a : BlockId} (ha : a ∈ f.layout) (hedge : f.Edge a b) :
    c.rename join a ∈ f'.layout ∧ f'.Edge (c.rename join a) b := by
  obtain ⟨succs, hsuccs, hb⟩ := hedge
  unfold Cut.rename
  split
  · next hhead =>
    subst hhead
    obtain ⟨name, htail⟩ := h.opened.tail
    rw [Function.successors_of_block hc.block] at hsuccs
    obtain rfl := Except.ok.inj hsuccs
    exact ⟨(h.opened.layout join).mpr (.inr (.inl rfl)), _, Function.successors_of_block htail, hb⟩
  · next hhead =>
    refine ⟨(h.opened.layout a).mpr (.inl ha), succs, ?_, hb⟩
    rw [← hsuccs, Function.successors, Function.successors,
      h.opened.block_kept hs.tidy.closed ha hhead]

theorem gives_precedes {p : Part} (hp : p ∈ parts) {pos : Option Nat} {used : InstId}
    (hgives : c.Gives m f parts p pos (.inst used)) :
    f'.Precedes used p.block (pos.map (p.old.length + ·)) := by
  have hclosed := h.closed hs.tidy hc
  have hlive : ∀ q ∈ parts, q.block ∈ f'.layout := fun q hq => h.mem_layout_of_part hq
  have hgroup : ∀ q ∈ parts, c.origin join parts q.block = c.head := fun q hq => by
    rw [Cut.origin, if_pos (.inr (List.mem_map_of_mem hq))]
  have hgiven : ∀ q ∈ parts, ∀ k kind, q.insts[k]? = some (used, kind) →
      f'.Listed used q.block (q.old.length + k) := by
    intro q hq k kind hk
    obtain ⟨name, hblock⟩ := h.opened.part q hq
    refine ⟨hlive q hq, _, hblock, ?_⟩
    rw [List.getElem?_append_right (Nat.le_add_right _ _), Nat.add_sub_cancel_left,
      List.getElem?_map,
      hk]
    rfl
  cases hgives with
  | plain hvalue => cases hvalue
  | before hused =>
    refine (h.relocates hs.tidy hc).precedes hclosed (hgroup p hp) hused fun k _ hk => ?_
    have hk := hk _ rfl
    rw [Cut.place, if_neg fun hrest => absurd hrest.2 (by omega)]
    by_cases hblock : p.block = c.head
    · refine .inl ⟨hblock.symm, fun k' hk' => ?_⟩
      obtain ⟨k₀, -, rfl⟩ := Option.map_eq_some_iff.mp hk'
      rw [h.opened.old_eq hp hblock]
      exact Nat.lt_add_right k₀ hk
    · exact .inr ⟨Ne.symm hblock, h.head_onEveryPath hs.tidy hc (hgroup p hp)⟩
  | @head _ kind q hq hhead hne hused =>
    obtain ⟨k, hk⟩ := List.mem_iff_getElem?.mp hused
    refine ⟨q.block, _, hgiven q hq k kind hk, fun _ => .inr ⟨?_, ?_⟩⟩
    · rw [hhead]
      exact Ne.symm hne
    · rw [hhead]
      exact h.head_onEveryPath hs.tidy hc (hgroup p hp)
  | @here _ kind k hused hlt =>
    refine ⟨p.block, _, hgiven p hp k kind hused, fun _ => .inl ⟨rfl, fun k' hk' => ?_⟩⟩
    obtain ⟨k₀, hk₀, rfl⟩ := Option.map_eq_some_iff.mp hk'
    exact Nat.add_lt_add_left (hlt k₀ hk₀) _

theorem named (hfits : Fits m f c join parts entries f') : f'.Named m where
  insts := by
    intro b blk hblk id hid
    have hhead : ∀ id ∈ c.before ++ c.site :: c.after, id.index < f'.insts.size := fun id hid =>
      (hs.named.insts c.head _ hc.block id hid).trans_le h.opened.sizeInsts
    obtain ⟨-, -, hblk⟩ | ⟨rfl, name, rfl⟩ | ⟨p, hp, rfl, name, rfl⟩ := h.block_eq_cases hblk
    · exact (hs.named.insts b blk hblk id hid).trans_le h.opened.sizeInsts
    · exact hhead id (List.mem_append_right _ hid)
    · obtain hold | hgiven := List.mem_append.mp hid
      · by_cases hblock : p.block = c.head
        · exact hhead id (List.mem_append_left _ (h.opened.old_eq hp hblock ▸ hold))
        · rw [(h.opened.fresh p hp hblock).2.2] at hold
          cases hold
      · obtain ⟨entry, hentry, rfl⟩ := List.mem_map.mp hgiven
        obtain ⟨-, inst, hinst, -⟩ := h.opened.given p hp entry hentry
        exact Function.index_lt_of_inst hinst
  successors := by
    intro b blk hblk s hs'
    obtain ⟨-, -, hblk⟩ | ⟨rfl, name, rfl⟩ | ⟨p, hp, rfl, name, rfl⟩ := h.block_eq_cases hblk
    · exact (hs.named.successors b blk hblk s hs').trans_le h.opened.size
    · exact (hs.named.successors c.head _ hc.block s hs').trans_le h.opened.size
    · obtain rfl | ⟨hmem, -⟩ := h.ends p hp s hs'
      · obtain ⟨name, htail⟩ := h.opened.tail
        exact Function.index_lt_of_block htail
      · obtain ⟨q, hq, rfl⟩ := List.mem_map.mp hmem
        exact h.opened.index_lt_of_mem hq
  terminators := by
    intro b blk hblk
    obtain ⟨-, -, hblk⟩ | ⟨rfl, name, rfl⟩ | ⟨p, hp, rfl, name, rfl⟩ := h.block_eq_cases hblk
    · exact (h.grows m).knowsTerminator (hs.named.terminators b blk hblk)
    · have hterm := hs.named.terminators c.head _ hc.block
      exact (h.grows m).knowsTerminator hterm
    · obtain ⟨target, hend⟩ | ⟨cond, onTrue, onFalse, hend, -, hgives⟩ := (hfits.each p hp).ends
      · simp [hend, Module.knowsTerminator, Terminator.operands]
      · simp [hend, Module.knowsTerminator, Terminator.operands, h.gives_known hs hp hgives]
  kinds _ _ hk := h.knowsKind hs hfits hk
  tokens := by
    intro id hid
    obtain hold | hlt := h.opened.tokens id hid
    · exact (hs.named.tokens id hold).trans_le h.opened.sizeInsts
    · exact hlt

/-- A value stays available to the instruction that reads it. -/
theorem precedes_place {used : InstId} {pos : Nat} (hb : b ∈ f.layout)
    (hused : f.Precedes used b (some pos)) :
    f'.Precedes used (c.place join b pos).1 (some (c.place join b pos).2) := by
  have hrel := h.relocates hs.tidy hc
  have horigin : c.origin join parts (c.place join b pos).1 = b := by
    unfold Cut.place
    split
    · next hrest => rw [Cut.origin, if_pos (.inl rfl), hrest.1]
    · exact h.origin_of_mem hs.tidy hb
  refine hrel.precedes (h.closed hs.tidy hc) horigin hused fun k _ hk => ?_
  have hk := hk pos rfl
  by_cases hrest : b = c.head ∧ c.before.length ≤ pos
  · obtain ⟨rfl, hle⟩ := hrest
    have hthere : c.place join c.head pos = (join, pos - c.before.length) := if_pos ⟨rfl, hle⟩
    rw [hthere] at horigin ⊢
    by_cases hbefore : c.before.length ≤ k
    · have hwith : c.place join c.head k = (join, k - c.before.length) := if_pos ⟨rfl, hbefore⟩
      rw [hwith]
      refine .inl ⟨rfl, fun p hp => ?_⟩
      obtain rfl := Option.some.inj hp
      exact Nat.sub_lt_sub_right hbefore hk
    · have hfirst : c.place join c.head k = (c.head, k) := if_neg fun hrest => hbefore hrest.2
      rw [hfirst]
      refine .inr ⟨fun heq => ?_, h.head_onEveryPath hs.tidy hc horigin⟩
      have heq : c.head = join := heq
      exact h.opened.join_not_mem hs.tidy.closed (heq ▸ hb)
  · have hk' : ¬(b = c.head ∧ c.before.length ≤ k) := fun hrest' => hrest ⟨hrest'.1, by omega⟩
    have hsame : c.place join b pos = (b, pos) := if_neg hrest
    have hsame' : c.place join b k = (b, k) := if_neg hk'
    rw [hsame, hsame']
    refine .inl ⟨rfl, fun p hp => ?_⟩
    obtain rfl := Option.some.inj hp
    exact hk

/-- A value that is available at the end of a block stays so. -/
theorem precedes_end {used : InstId} (hb : b ∈ f.layout) (hused : f.Precedes used b none) :
    f'.Precedes used (c.rename join b) none := by
  have hrel := h.relocates hs.tidy hc
  have horigin : c.origin join parts (c.rename join b) = b := by
    unfold Cut.rename
    split
    · next hhead => rw [Cut.origin, if_pos (.inl rfl), hhead]
    · exact h.origin_of_mem hs.tidy hb
  refine hrel.precedes (h.closed hs.tidy hc) horigin hused fun k _ _ => ?_
  unfold Cut.rename at horigin ⊢
  unfold Cut.place
  by_cases hhead : b = c.head
  · subst hhead
    rw [if_pos rfl] at horigin ⊢
    split
    · exact .inl ⟨rfl, fun p hp => by cases hp⟩
    · refine .inr ⟨?_, h.head_onEveryPath hs.tidy hc horigin⟩
      rintro heq
      exact h.opened.join_not_mem hs.tidy.closed (heq ▸ hb)
  · rw [if_neg hhead, if_neg fun hrest => hhead hrest.1]
    exact .inl ⟨rfl, fun p hp => by cases hp⟩

variable (hkind : f.kind c.site = .ok kind) (hsite : kind.isPhi = false)
include hkind hsite

/-- The phis from before have the sources that they had, with the other side of the cut in the place
of the block that was cut. -/
theorem phi_eq {id : InstId} {pos : Nat} (hid : f.Listed id b pos) {ty' : Ty}
    {before : List (Value × BlockId)} (hphi : f.kind id = .ok (.phi ty' before)) :
    f'.kind id = .ok (.phi ty' (before.map fun entry => (entry.1, c.rename join entry.2))) := by
  have hne := Cut.ne_site hkind hsite hphi
  have hrenamed : (InstKind.phi ty' before).renameIncoming c.head join =
      .phi ty' (before.map fun entry => (entry.1, c.rename join entry.2)) := by
    simp only [InstKind.renameIncoming, Cut.rename]
    congr 1
    apply List.map_congr_left
    intro entry _
    by_cases hhead : entry.2 = c.head
    · simp [hhead]
    · simp [hhead]
  rw [← hrenamed]
  by_cases hsucc : b ∈ c.term.successors
  · obtain ⟨blk, phis, hblk, hphis⟩ := hs.tidy.phis_eq_ok hid.1
    exact h.opened.renamed b hsucc phis hphis id (hs.tidy.mem_phis hid hphi hphis) _ hphi
  · obtain hsame | ⟨-, hrenamed'⟩ := h.opened.kinds id _ hne hphi
    · rw [hsame]
      congr 1
      -- The block that was cut is not among the sources.
      rw [InstKind.renameIncoming]
      congr 1
      conv_lhs => rw [← List.map_id before]
      apply List.map_congr_left
      intro entry hentry
      obtain ⟨-, succs, hsuccs, hb⟩ := (hs.sources id b pos ty' before hid hphi).2 entry.2
        (List.mem_map_of_mem hentry)
      have hnot : entry.2 ≠ c.head := by
        intro heq
        rw [heq, Function.successors_of_block hc.block] at hsuccs
        obtain rfl := Except.ok.inj hsuccs
        exact hsucc hb
      simp [hnot]
    · exact hrenamed'

/-- An instruction of the rewritten function is the phi that joins the parts, one from before or one
of a part. -/
theorem listed_kind_cases {id : InstId} {b' : BlockId} {pos' : Nat} {k : InstKind}
    (hid : f'.Listed id b' pos') (hk : f'.kind id = .ok k) :
    (id = c.site ∧ b' = join ∧ pos' = 0 ∧ k = .phi ty entries) ∨
    (∃ b pos k₀, f.Listed id b pos ∧ id ≠ c.site ∧ f.kind id = .ok k₀ ∧
      (b', pos') = c.place join b pos ∧
      (k₀.isPhi = false ∧ k = k₀ ∨ ∃ ty' before, k₀ = .phi ty' before ∧
        k = .phi ty' (before.map fun entry => (entry.1, c.rename join entry.2)))) ∨
    ∃ p ∈ parts, ∃ n, p.block = b' ∧ pos' = p.old.length + n ∧ p.insts[n]? = some (id, k) := by
  have hold : ∀ b pos, f.Listed id b pos → id ≠ c.site → (b', pos') = c.place join b pos →
      ∃ b pos k₀, f.Listed id b pos ∧ id ≠ c.site ∧ f.kind id = .ok k₀ ∧
        (b', pos') = c.place join b pos ∧
        (k₀.isPhi = false ∧ k = k₀ ∨ ∃ ty' before, k₀ = .phi ty' before ∧
          k = .phi ty' (before.map fun entry => (entry.1, c.rename join entry.2))) := by
    intro b pos hid₀ hne hplace
    obtain ⟨k₀, hk₀⟩ := hs.tidy.exists_kind hid₀
    refine ⟨b, pos, k₀, hid₀, hne, hk₀, hplace, ?_⟩
    cases k₀ with
    | phi ty' before =>
      have hphi := h.phi_eq hs hc hkind hsite hid₀ hk₀
      exact .inr ⟨ty', before, rfl, Except.ok.inj (hk.symm.trans hphi)⟩
    | _ =>
      have hsame := h.kind_eq hne hk₀ rfl
      exact .inl ⟨rfl, Except.ok.inj (hk.symm.trans hsame)⟩
  obtain ⟨hlisted, hbefore⟩ | ⟨rfl, hmoved⟩ | ⟨p, hp, rfl, hle, k', hgiven⟩ :=
    h.opened.listed_cases hs.tidy.closed hc hid
  · have hplace : (b', pos') = c.place join b' pos' := by
      rw [Cut.place, if_neg fun hrest => absurd (hbefore hrest.1) (by omega)]
    have hne : id ≠ c.site := by
      rintro rfl
      obtain ⟨rfl, rfl⟩ := hs.tidy.listed_unique hc.listed_site hlisted
      exact absurd (hbefore rfl) (lt_irrefl _)
    exact .inr (.inl (hold b' pos' hlisted hne hplace))
  · by_cases hne : id = c.site
    · subst hne
      obtain ⟨-, hpos⟩ := hs.tidy.listed_unique hc.listed_site hmoved
      exact .inl ⟨rfl, rfl, by omega, Except.ok.inj (hk.symm.trans h.opened.site)⟩
    · have hplace : (b', pos') = c.place b' c.head (c.before.length + pos') := by
        rw [Cut.place, if_pos ⟨rfl, Nat.le_add_right _ _⟩, Nat.add_sub_cancel_left]
      exact .inr (.inl (hold _ _ hmoved hne hplace))
  · obtain ⟨name, hpart⟩ := h.opened.part p hp
    obtain ⟨-, blk, hblk, hget⟩ := hid
    obtain rfl := Except.ok.inj (hpart.symm.trans hblk)
    dsimp only at hget
    rw [List.getElem?_append_right hle, List.getElem?_map] at hget
    obtain ⟨⟨id', k₁⟩, hentry, rfl⟩ := Option.map_eq_some_iff.mp hget
    obtain ⟨-, inst, hinst, rfl, -⟩ := h.opened.given p hp _ (List.mem_of_getElem? hentry)
    obtain rfl := Except.ok.inj ((Function.kind_eq_ok.mpr ⟨inst, hinst, rfl⟩).symm.trans hk)
    exact .inr (.inr ⟨p, hp, pos' - p.old.length, rfl, by omega, hentry⟩)

/-- A phi of the rewritten function names each predecessor once, and live ones only. -/
theorem phi_sources (hfits : Fits m f c join parts entries f') {id : InstId} {b' : BlockId}
    {pos' : Nat} {ty' : Ty} {incoming : List (Value × BlockId)} (hid : f'.Listed id b' pos')
    (hk : f'.kind id = .ok (.phi ty' incoming)) :
    (incoming.map (·.2)).Nodup ∧
      ∀ source ∈ incoming.map (·.2), source ∈ f'.layout ∧ f'.Edge source b' := by
  obtain ⟨rfl, rfl, -, hphi⟩ | ⟨b, pos, k₀, hid₀, -, hk₀, hplace, hcases⟩ | ⟨p, hp, n, -, -, hentry⟩ :=
    h.listed_kind_cases hs hc hkind hsite hid hk
  · obtain rfl := (InstKind.phi.inj hphi).2
    refine ⟨hfits.distinct, fun source hsource => ?_⟩
    obtain ⟨entry, hentry, rfl⟩ := List.mem_map.mp hsource
    obtain ⟨p, hp, hblock, hjoin, -⟩ := hfits.entries entry hentry
    obtain ⟨name, hpart⟩ := h.opened.part p hp
    rw [← hblock]
    exact ⟨h.mem_layout_of_part hp, _, Function.successors_of_block hpart, hjoin⟩
  · obtain ⟨hnot, rfl⟩ | ⟨ty₀, before, rfl, hphi⟩ := hcases
    · cases hnot
    obtain ⟨rfl, rfl⟩ := InstKind.phi.inj hphi
    obtain ⟨hdistinct, hlive⟩ := hs.sources id b pos ty' before hid₀ hk₀
    have hfront := hc.front_of_leads hkind hsite hid₀ (Cut.ne_site hkind hsite hk₀)
      (hs.tidy.phisLead id b pos ty' before hid₀ hk₀)
    rw [Cut.place, if_neg hfront] at hplace
    obtain ⟨rfl, rfl⟩ := Prod.mk.inj hplace
    rw [List.map_map]
    have hnot : ∀ source ∈ before.map (·.2), source ≠ join := by
      rintro source hsource rfl
      exact h.opened.join_not_mem hs.tidy.closed (hlive source hsource).1
    constructor
    · have hmap : before.map ((·.2) ∘ fun entry => (entry.1, c.rename join entry.2)) =
          (before.map (·.2)).map (c.rename join) := by
        rw [List.map_map]
        rfl
      rw [hmap]
      refine hdistinct.map_on fun x hx y hy heq => ?_
      unfold Cut.rename at heq
      split at heq <;> split at heq
      · next hxhead hyhead => exact hxhead.trans hyhead.symm
      · exact absurd heq.symm (hnot y hy)
      · exact absurd heq (hnot x hx)
      · exact heq
    · intro source hsource
      obtain ⟨entry, hentry, rfl⟩ := List.mem_map.mp hsource
      obtain ⟨hsource₀, hedge⟩ := hlive entry.2 (List.mem_map_of_mem hentry)
      exact h.edge_mono hs hc hsource₀ hedge
  · cases h.kinds p hp _ (List.mem_of_getElem? hentry)

/-- What a phi takes from a predecessor is available at its end. -/
theorem phi_precedes (hfits : Fits m f c join parts entries f') {id : InstId} {b' : BlockId}
    {pos' : Nat} {ty' : Ty} {incoming : List (Value × BlockId)} (hid : f'.Listed id b' pos')
    (hk : f'.kind id = .ok (.phi ty' incoming)) {used : InstId} {source : BlockId}
    (hmem : (.inst used, source) ∈ incoming) : f'.Precedes used source none := by
  obtain ⟨rfl, rfl, -, hphi⟩ | ⟨b, pos, k₀, hid₀, -, hk₀, -, hcases⟩ | ⟨p, hp, n, -, -, hentry⟩ :=
    h.listed_kind_cases hs hc hkind hsite hid hk
  · obtain rfl := (InstKind.phi.inj hphi).2
    obtain ⟨p, hp, hblock, -, hgives⟩ := hfits.entries _ hmem
    obtain rfl : p.block = source := hblock
    exact h.gives_precedes hs hc hp hgives
  · obtain ⟨hnot, rfl⟩ | ⟨ty₀, before, rfl, hphi⟩ := hcases
    · cases hnot
    obtain ⟨rfl, rfl⟩ := InstKind.phi.inj hphi
    obtain ⟨entry, hentry, heq⟩ := List.mem_map.mp hmem
    obtain ⟨hvalue, rfl⟩ := Prod.mk.inj heq
    have hsource := (hs.sources id b pos ty' before hid₀ hk₀).2 entry.2 (List.mem_map_of_mem hentry)
    refine h.precedes_end hs hc hsource.1 (hs.phiUses id b pos ty' before hid₀ hk₀ used entry.2 ?_)
    rw [← hvalue]
    exact hentry
  · cases h.kinds p hp _ (List.mem_of_getElem? hentry)

variable (hpad : kind.isLandingPad = false)
include hpad

/-- The landing pads are those from before, in the places where they were. -/
theorem listed_pad_iff (hplain : ∀ p ∈ parts, ∀ entry ∈ p.insts, entry.2.isLandingPad = false)
    {id : InstId} {pos : Nat} :
    f'.Listed id b pos ∧ f'.kind id = .ok .landingPad ↔
      f.Listed id b pos ∧ f.kind id = .ok .landingPad := by
  have hfront : ∀ b pos, f.Listed id b pos → f.kind id = .ok .landingPad →
      c.place join b pos = (b, pos) := by
    intro b pos hid hk
    refine if_neg (hc.front_of_leads hkind hsite hid ?_ (hs.padsLead id b pos hid hk))
    rintro rfl
    obtain rfl := Except.ok.inj (hkind.symm.trans hk)
    cases hpad
  constructor
  · rintro ⟨hid, hk⟩
    obtain ⟨-, -, -, hphi⟩ | ⟨b₀, pos₀, k₀, hid₀, -, hk₀, hplace, hcases⟩ | ⟨p, hp, n, -, -, hentry⟩ :=
      h.listed_kind_cases hs hc hkind hsite hid hk
    · cases hphi
    · obtain ⟨-, rfl⟩ | ⟨ty', before, -, hphi⟩ := hcases
      · rw [hfront b₀ pos₀ hid₀ hk₀] at hplace
        obtain ⟨rfl, rfl⟩ := Prod.mk.inj hplace
        exact ⟨hid₀, hk₀⟩
      · cases hphi
    · cases hplain p hp _ (List.mem_of_getElem? hentry)
  · rintro ⟨hid, hk⟩
    have hlisted := h.listed_mono hs.tidy hc hid
    rw [hfront b pos hid hk] at hlisted
    refine ⟨hlisted, h.kind_eq ?_ hk rfl⟩
    rintro rfl
    obtain rfl := Except.ok.inj (hkind.symm.trans hk)
    cases hpad

variable (hfits : Fits m f c join parts entries f')
include hfits

/-- Only phis stand in front of a landing pad. -/
theorem phi_of_lt_pad {id : InstId} {b' : BlockId} {pos' : Nat} (hid : f'.Listed id b' pos')
    (hk : f'.kind id = .ok .landingPad) {before : Nat} (hbefore : before < pos') {id' : InstId}
    (hid' : f'.Listed id' b' before) : ∃ ty' incoming, f'.kind id' = .ok (.phi ty' incoming) := by
  obtain ⟨hid₀, hk₀⟩ := (h.listed_pad_iff hs hc hkind hsite hpad hfits.noPads).mp ⟨hid, hk⟩
  have hne : id ≠ c.site := by
    rintro rfl
    obtain rfl := Except.ok.inj (hkind.symm.trans hk₀)
    cases hpad
  have hfront := hc.front_of_leads hkind hsite hid₀ hne (hs.padsLead id b' pos' hid₀ hk₀)
  obtain ⟨k', hk'⟩ := (h.tidy hs.tidy hc hkind hsite).exists_kind hid'
  obtain ⟨-, rfl, -⟩ | ⟨b, pos, k₀, hid'₀, -, hk'₀, hplace, hcases⟩ | ⟨p, hp, n, hblock, rfl, -⟩ :=
    h.listed_kind_cases hs hc hkind hsite hid' hk'
  · exact absurd hid₀.1 (h.opened.join_not_mem hs.tidy.closed)
  · have hsame : (b', before) = (b, pos) := by
      unfold Cut.place at hplace
      split at hplace
      · obtain ⟨rfl, -⟩ := Prod.mk.inj hplace
        exact absurd hid₀.1 (h.opened.join_not_mem hs.tidy.closed)
      · exact hplace
    obtain ⟨rfl, rfl⟩ := Prod.mk.inj hsame
    obtain ⟨ty', incoming, hphi⟩ := hs.padsLead id b' pos' hid₀ hk₀ before hbefore id' hid'₀
    exact ⟨ty', _, h.phi_eq hs hc hkind hsite hid'₀ hphi⟩
  · have hhead : p.block = c.head := by
      by_contra hnot
      refine h.opened.not_mem_of_kept hs.tidy.closed hid₀.1 ?_ (hblock ▸ List.mem_map_of_mem hp)
      exact hblock ▸ hnot
    rw [h.opened.old_eq hp hhead] at hbefore
    exact absurd ⟨hblock.symm.trans hhead, by omega⟩ hfront

/-- A block with a landing pad is reached, and by unwinding only. -/
theorem pad_edges {id : InstId} {b' : BlockId} {pos' : Nat} (hid : f'.Listed id b' pos')
    (hk : f'.kind id = .ok .landingPad) (hexempt : ¬exempt b') :
    (∃ a ∈ f'.layout, f'.Edge a b') ∧ ∀ a ∈ f'.layout, f'.Edge a b' → f'.Unwinds a b' := by
  obtain ⟨hid₀, hk₀⟩ := (h.listed_pad_iff hs hc hkind hsite hpad hfits.noPads).mp ⟨hid, hk⟩
  obtain ⟨⟨a, ha, hedge⟩, hunwinds⟩ := hs.padEdges id b' pos' hid₀ hk₀ hexempt
  refine ⟨⟨_, h.edge_mono hs hc ha hedge⟩, fun a ha hedge => ?_⟩
  obtain ⟨hold, hne, hedge⟩ | ⟨rfl, hsucc⟩ | ⟨p, hp, rfl, hsucc⟩ :=
    h.opened.edge_cases hs.tidy.closed ha hedge
  · obtain ⟨blk, callee, args, normal, hblk, hterm⟩ := hunwinds a hold hedge
    refine ⟨blk, callee, args, normal, ?_, hterm⟩
    rw [h.opened.block_kept hs.tidy.closed hold hne, hblk]
  · obtain ⟨blk, callee, args, normal, hblk, hterm⟩ :=
      hunwinds c.head hc.live (Opened.edge_of_successor hc hsucc)
    obtain rfl := Except.ok.inj (hc.block.symm.trans hblk)
    obtain ⟨name, htail⟩ := h.opened.tail
    exact ⟨_, callee, args, normal, htail, hterm⟩
  · obtain rfl | ⟨hmem, hne⟩ := h.ends p hp b' hsucc
    · exact absurd hid₀.1 (h.opened.join_not_mem hs.tidy.closed)
    · exact absurd hmem (h.opened.not_mem_of_kept hs.tidy.closed hid₀.1 hne)

theorem sound (htypes : f.TypesKept f') : f'.Sound m exempt where
  tidy := h.tidy hs.tidy hc hkind hsite
  named := h.named hs hc hfits
  layout := h.opened.layoutNodup hs.layout
  unwind := by
    intro b' hb' blk' hblk' callee args normal unwind hterm
    obtain ⟨b, hb, blk, hblk, hsame, -⟩ | ⟨p, hp, -, hsame⟩ :=
      h.term_cases hc hb' hblk'
    · obtain ⟨id, pos, hid, hk⟩ := hs.unwind b hb blk hblk callee args normal unwind
        (hsame.symm.trans hterm)
      exact ⟨id, pos, (h.listed_pad_iff hs hc hkind hsite hpad hfits.noPads).mpr ⟨hid, hk⟩⟩
    · obtain ⟨target, hend⟩ | ⟨cond, onTrue, onFalse, hend, -⟩ := (hfits.each p hp).ends
      · cases (hend.symm.trans hsame.symm).trans hterm
      · cases (hend.symm.trans hsame.symm).trans hterm
  sources _ _ _ _ _ hid hk := h.phi_sources hs hc hkind hsite hfits hid hk
  padsLead _ _ _ hid hk _ hbefore _ hid' :=
    h.phi_of_lt_pad hs hc hkind hsite hpad hfits hid hk hbefore hid'
  padEdges _ _ _ hid hk hexempt := h.pad_edges hs hc hkind hsite hpad hfits hid hk hexempt
  paired := by
    intro id b' pos' k lhs rhs hid hk hpair
    obtain ⟨-, -, -, rfl⟩ | ⟨b, pos, k₀, hid₀, -, hk₀, -, hcases⟩ | ⟨p, hp, n, -, -, hentry⟩ :=
      h.listed_kind_cases hs hc hkind hsite hid hk
    · cases hpair
    · obtain ⟨-, rfl⟩ | ⟨ty₀, before, -, rfl⟩ := hcases
      · obtain ⟨ty', hl, hr⟩ := hs.paired id b pos k lhs rhs hid₀ hk₀ hpair
        exact ⟨ty', htypes.valueType h.opened.sizeInsts hl, htypes.valueType h.opened.sizeInsts hr⟩
      · cases hpair
    · exact (hfits.each p hp).paired _ (List.mem_of_getElem? hentry) lhs rhs hpair
  arity := by
    intro id b' pos' target args ret hid hk
    obtain ⟨-, -, -, hphi⟩ | ⟨b, pos, k₀, hid₀, -, hk₀, -, hcases⟩ | ⟨p, hp, n, -, -, hentry⟩ :=
      h.listed_kind_cases hs hc hkind hsite hid hk
    · cases hphi
    · obtain ⟨-, rfl⟩ | ⟨ty₀, before, -, hphi⟩ := hcases
      · exact hs.arity id b pos target args ret hid₀ hk₀
      · cases hphi
    · cases ((hfits.each p hp).plain _ (List.mem_of_getElem? hentry)).2
  conditions := by
    intro b' hb' blk' hblk' cond onTrue onFalse hterm
    obtain ⟨b, hb, blk, hblk, hsame, -⟩ | ⟨p, hp, -, hsame⟩ := h.term_cases hc hb' hblk'
    · have hty := hs.conditions b hb blk hblk cond onTrue onFalse (hsame.symm.trans hterm)
      exact htypes.valueType h.opened.sizeInsts hty
    · obtain ⟨target, hend⟩ | ⟨cond', onTrue', onFalse', hend, hty, -⟩ := (hfits.each p hp).ends
      · cases (hend.symm.trans hsame.symm).trans hterm
      · obtain ⟨rfl, -, -⟩ := Terminator.condBr.inj ((hend.symm.trans hsame.symm).trans hterm)
        exact hty
  phiUses _ _ _ _ _ hid hk _ _ hmem := h.phi_precedes hs hc hkind hsite hfits hid hk hmem
  uses := by
    intro id b' pos' k hid hk hphi used hused
    obtain ⟨-, -, -, rfl⟩ | ⟨b, pos, k₀, hid₀, -, hk₀, hplace, hcases⟩ | ⟨p, hp, n, rfl, rfl, hentry⟩ :=
      h.listed_kind_cases hs hc hkind hsite hid hk
    · cases hphi
    · obtain ⟨-, rfl⟩ | ⟨ty₀, before, -, rfl⟩ := hcases
      · have hprec := h.precedes_place hs hc hid₀.1 (hs.uses id b pos k hid₀ hk₀ hphi used hused)
        rw [← hplace] at hprec
        exact hprec
      · cases hphi
    · exact h.gives_precedes hs hc hp ((hfits.each p hp).operands n id k hentry _ hused)
  termUses := by
    intro b' hb' blk' hblk' used hused
    obtain ⟨b, hb, blk, hblk, hsame, rfl⟩ | ⟨p, hp, rfl, hsame⟩ := h.term_cases hc hb' hblk'
    · rw [hsame] at hused
      exact h.precedes_end hs hc hb (hs.termUses b hb blk hblk used hused)
    · rw [hsame] at hused
      obtain ⟨target, hend⟩ | ⟨cond, onTrue, onFalse, hend, -, hgives⟩ := (hfits.each p hp).ends
      · rw [hend] at hused
        cases hused
      · rw [hend] at hused
        obtain rfl := List.mem_singleton.mp hused
        exact h.gives_precedes hs hc hp hgives

end

end Patched

end EdgeProbe
