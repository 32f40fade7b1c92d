import EdgeProbe.Proofs.Code.Patched
import EdgeProbe.Proofs.Code.Changes

/-!
# Code in the place of an instruction

A function that was cut and closed again simulates the one from before as soon as its parts do what
the instruction did (`Patched.functionSim`). A function whose records agree simulates itself.
-/

namespace EdgeProbe

namespace Function

variable {f f' : Function} {b : BlockId}

theorem leading_append {holds : InstKind → Bool} {front back : List InstId}
    (hfront : ∀ id ∈ front, ∃ kind, f.kind id = .ok kind ∧ holds kind = true)
    (hback : ∀ id ∈ back, ∃ kind, f.kind id = .ok kind ∧ holds kind = false) :
    f.leading holds (front ++ back) = .ok front := by
  induction front with
  | nil =>
    cases back with
    | nil => rfl
    | cons id rest =>
      obtain ⟨kind, hkind, hnot⟩ := hback id List.mem_cons_self
      rw [List.nil_append, leading, hkind]
      simp [bind, Except.bind, hnot, pure, Except.pure]
  | cons id rest ih =>
    obtain ⟨kind, hkind, hholds⟩ := hfront id List.mem_cons_self
    rw [List.cons_append, leading, hkind]
    simp only [bind, Except.bind, hholds, if_true,
      ih fun i hi => hfront i (List.mem_cons_of_mem _ hi)]
    rfl

theorem phis_of_block {blk : Block} {phis rest : List InstId} (hblk : f.block b = .ok blk)
    (hinsts : blk.insts = phis ++ rest)
    (hphis : ∀ id ∈ phis, ∃ kind, f.kind id = .ok kind ∧ kind.isPhi = true)
    (hrest : ∀ id ∈ rest, ∃ kind, f.kind id = .ok kind ∧ kind.isPhi = false) :
    f.phis b = .ok phis :=
  Checked.bind_eq_ok.mpr ⟨blk, hblk, hinsts ▸ leading_append hphis hrest⟩

end Function

variable {f f' : Function} {swap : InstId → Rest → Rest → Prop}

/-- Instructions that are what they were come first. -/
theorem Covers.append {block b : BlockId} {term t : Terminator} {front insts insts' : List InstId}
    (hfront : ∀ id ∈ front, ∃ kind, f.kind id = .ok kind ∧ f'.kind id = .ok kind ∧
      ∀ value ∈ kind.operands, value.Below f.insts.size)
    (h : Covers f f' swap block term insts ⟨b, t, insts'⟩) :
    Covers f f' swap block term (front ++ insts) ⟨b, t, front ++ insts'⟩ := by
  induction front with
  | nil => exact h
  | cons id rest ih =>
    obtain ⟨kind, hkind, hkind', hvalues⟩ := hfront id List.mem_cons_self
    exact .same hkind hkind' hvalues (ih fun i hi => hfront i (List.mem_cons_of_mem _ hi))

theorem find?_eq_some_of_mem {incoming : List (Value × BlockId)} {source : BlockId} {value : Value}
    (h : (value, source) ∈ incoming) :
    ∃ value', (incoming.find? fun entry => entry.2 == source) = some (value', source) ∧
      (value', source) ∈ incoming := by
  have hsome : (incoming.find? fun entry => entry.2 == source).isSome :=
    List.find?_isSome.mpr ⟨(value, source), h, by simp⟩
  obtain ⟨⟨value', source'⟩, hfind⟩ := Option.isSome_iff_exists.mp hsome
  have hsource := List.find?_some hfind
  obtain rfl : source' = source := eq_of_beq hsource
  exact ⟨value', hfind, List.mem_of_find?_eq_some hfind⟩

/-- Renaming a source renames the entry that is found. -/
theorem find?_rename {incoming : List (Value × BlockId)} {source target b : BlockId} {value : Value}
    (htarget : ∀ entry ∈ incoming, entry.2 ≠ target) (hb : b ≠ target)
    (h : (incoming.find? fun entry => entry.2 == b) = some (value, b)) :
    ((incoming.map fun entry => if entry.2 == source then (entry.1, target) else entry).find?
      fun entry => entry.2 == if b = source then target else b) =
      some (value, if b = source then target else b) := by
  induction incoming with
  | nil => cases h
  | cons entry rest ih =>
    obtain ⟨v, b'⟩ := entry
    have hnot : b' ≠ target := htarget (v, b') List.mem_cons_self
    have hrest := ih fun e he => htarget e (List.mem_cons_of_mem _ he)
    rw [List.map_cons]
    by_cases hhere : b' = b
    · subst hhere
      obtain rfl : v = value := by simpa using h
      by_cases hsource : b' = source
      · simp [hsource]
      · simp [hsource]
    · rw [List.find?_cons_of_neg (by simpa using hhere)] at h
      rw [List.find?_cons_of_neg]
      · exact hrest h
      · by_cases hsource : b' = source
        · have hne : b ≠ source := fun heq => hhere (hsource.trans heq.symm)
          simpa [hsource, hne] using hb.symm
        · by_cases hbs : b = source
          · simpa [hsource, hbs] using hnot
          · simpa [hsource, hbs] using hhere

namespace Function.Tidy

variable {b : BlockId} {blk : Block} {phis : List InstId} {rename : BlockId → BlockId}

theorem values_below (hf : f.Tidy) {id : InstId} {pos : Nat} (hid : f.Listed id b pos)
    {kind : InstKind} (hkind : f.kind id = .ok kind) :
    ∀ value ∈ kind.operands, value.Below f.insts.size :=
  hf.operands id b pos kind hid hkind

theorem live_of_mem_successors (hf : f.Tidy) (hb : b ∈ f.layout) (hblk : f.block b = .ok blk) :
    ∀ succ ∈ blk.term.successors, succ ∈ f.layout :=
  fun succ hsucc => hf.closed.toLive b hb succ ⟨_, Function.successors_of_block hblk, hsucc⟩

theorem listed_of_mem (hb : b ∈ f.layout) (hblk : f.block b = .ok blk) {id : InstId}
    (hid : id ∈ blk.insts) : ∃ pos, f.Listed id b pos := by
  obtain ⟨pos, hpos⟩ := List.mem_iff_getElem?.mp hid
  exact ⟨pos, hb, blk, hblk, hpos⟩

/-- A phi of a tidy function is one in another function too, where its sources are renamed. -/
theorem phiSim (hf : f.Tidy) (hb : b ∈ f.layout) (hphis : f.phis b = .ok phis)
    (hrename : ∀ phi ∈ phis, ∀ ty incoming, f.kind phi = .ok (.phi ty incoming) →
      ∃ incoming', f'.kind phi = .ok (.phi ty incoming') ∧ ∀ source ∈ f.layout, f.Edge source b →
        ∀ value, (incoming.find? fun entry => entry.2 == source) = some (value, source) →
          (incoming'.find? fun entry => entry.2 == rename source) = some (value, rename source)) :
    ∀ phi ∈ phis, PhiSim f f' rename b phi := by
  intro phi hmem
  obtain ⟨ty, incoming, hkind⟩ := Function.kind_of_mem_phis hphis hmem
  obtain ⟨incoming', hkind', hfind'⟩ := hrename phi hmem ty incoming hkind
  obtain ⟨blk, hblk, hlead⟩ := Function.phis_eq_ok hphis
  obtain ⟨rest, hinsts, -, -⟩ := Function.leading_eq_ok hlead
  obtain ⟨pos, hid⟩ := listed_of_mem hb hblk (hinsts ▸ List.mem_append_left rest hmem)
  refine ⟨ty, incoming, incoming', hkind, hkind', fun source hsource hedge => ?_⟩
  obtain ⟨value, hvalue⟩ := hf.entries phi b pos ty incoming hid hkind source hsource hedge
  obtain ⟨value', hfind, hmem'⟩ := find?_eq_some_of_mem hvalue
  refine ⟨value', hfind, hfind' source hsource hedge value' hfind, ?_⟩
  exact hf.values_below hid hkind value' (List.mem_map_of_mem (f := (·.1)) hmem')

/-- A block that is listed and ended as before, with the same instructions other than phis. -/
theorem blockSim (hf : f.Tidy) (hb : b ∈ f.layout) (hblk : f.block b = .ok blk)
    (hphis : f.phis b = .ok phis) (hblk' : f'.block b = .ok blk) (hrename : rename b = b)
    (hphi : ∀ phi ∈ phis, PhiSim f f' rename b phi)
    (hkinds : ∀ id ∈ blk.insts, ∀ kind, f.kind id = .ok kind → kind.isPhi = false →
      f'.kind id = .ok kind) :
    BlockSim f f' swap rename b blk blk phis := by
  obtain ⟨rest, hinsts, hrest⟩ := hf.insts_eq_append hb hblk hphis
  have hdrop : blk.insts.drop phis.length = rest := by rw [hinsts, List.drop_left]
  have hmem : ∀ id ∈ rest, id ∈ blk.insts := fun id hid => hinsts ▸ List.mem_append_right phis hid
  refine ⟨hblk, hblk', hphis, ?_, hphi, ?_, hf.termOperands b hb blk hblk,
    hf.live_of_mem_successors hb hblk⟩
  · refine Function.phis_of_block hblk' hinsts (fun id hid => ?_) fun id hid => ?_
    · obtain ⟨ty, -, incoming', -, hkind', -⟩ := hphi id hid
      exact ⟨_, hkind', rfl⟩
    · obtain ⟨kind, hkind, hnot⟩ := hrest id hid
      exact ⟨kind, hkinds id (hmem id hid) kind hkind hnot, hnot⟩
  · rw [hrename, hdrop]
    have hsame : ∀ id ∈ rest, ∃ kind, f.kind id = .ok kind ∧ f'.kind id = .ok kind ∧
        ∀ value ∈ kind.operands, value.Below f.insts.size := by
      intro id hid
      obtain ⟨kind, hkind, hnot⟩ := hrest id hid
      obtain ⟨pos, hlisted⟩ := listed_of_mem hb hblk (hmem id hid)
      exact ⟨kind, hkind, hkinds id (hmem id hid) kind hkind hnot, hf.values_below hlisted hkind⟩
    have hcovers : Covers f f' swap b blk.term (rest ++ []) ⟨b, blk.term, rest ++ []⟩ :=
      .append hsame .done
    rwa [List.append_nil] at hcovers

/-- Tokens do not matter to the other records. -/
theorem withAnnotations (hf : f.Tidy) (annotations : Annotations) :
    ({ f with annotations } : Function).Tidy where
  closed := ⟨hf.closed.inArena, hf.closed.toLive⟩
  home := hf.home
  nodup := hf.nodup
  operands := hf.operands
  termOperands := hf.termOperands
  sources := hf.sources
  phisLead := hf.phisLead
  entries := hf.entries

/-- A function simulates itself, whatever its tokens are. -/
theorem functionSim (hf : f.Tidy) (annotations : Annotations) :
    FunctionSim f { f with annotations } swap id where
  name := rfl
  types := by
    have hkept : f.TypesKept { f with annotations } := .of_kinds rfl fun _ _ hkind => .inl hkind
    exact fun _ _ hty => hkept.valueType le_rfl hty
  entry := rfl
  declared := fun _ => rfl
  blocks := by
    intro b hb
    obtain ⟨blk, phis, hblk, hphis⟩ := hf.phis_eq_ok hb
    refine ⟨blk, blk, phis, hf.blockSim hb hblk hphis hblk rfl ?_ fun _ _ _ hkind _ => hkind⟩
    exact hf.phiSim hb hphis fun phi _ ty incoming hkind =>
      ⟨incoming, hkind, fun _ _ _ _ hfind => hfind⟩

end Function.Tidy

/-- The block in which the end of a block is found once one of them has been cut. -/
def Cut.rename (c : Cut) (join b : BlockId) : BlockId :=
  if b = c.head then join else b

/-- Where an instruction stands once its function has been cut. -/
def Cut.place (c : Cut) (join b : BlockId) (pos : Nat) : BlockId × Nat :=
  if b = c.head ∧ c.before.length ≤ pos then (join, pos - c.before.length) else (b, pos)

theorem Cut.ne_site {c : Cut} {id : InstId} {kind : InstKind} {ty : Ty}
    {incoming : List (Value × BlockId)} (hkind : f.kind c.site = .ok kind)
    (hsite : kind.isPhi = false) (hphi : f.kind id = .ok (.phi ty incoming)) : id ≠ c.site := by
  rintro rfl
  obtain rfl := Except.ok.inj (hkind.symm.trans hphi)
  cases hsite

namespace Patched

variable {c : Cut} {join b : BlockId} {parts : List Part} {ty : Ty}
  {entries : List (Value × BlockId)} {kind : InstKind} (h : Patched f c join parts ty entries f')
include h

/-- An instruction that is not a phi and not the one that was replaced is what it was. -/
theorem kind_eq {id : InstId} (hne : id ≠ c.site) {k : InstKind} (hk : f.kind id = .ok k)
    (hnot : k.isPhi = false) : f'.kind id = .ok k := by
  obtain hsame | ⟨-, hrenamed⟩ := h.opened.kinds id k hne hk
  · exact hsame
  · rwa [InstKind.renameIncoming_of_not_phi hnot] at hrenamed

/-- Types are kept if the phi has the type of the instruction that it stands for. -/
theorem typesKept_of_type
    (hty : ∀ depth ty', f.valueTypeWithin depth (.inst c.site) = .ok ty' → ty' = ty) :
    f.TypesKept f' := by
  refine .of_kinds h.opened.params fun id k hk => ?_
  by_cases hsite : id = c.site
  · subst hsite
    exact .inr ⟨ty, entries, hty, h.opened.site⟩
  obtain hsame | ⟨-, hrenamed⟩ := h.opened.kinds id k hsite hk
  · exact .inl hsame
  · cases k with
    | phi ty' incoming =>
      refine .inr ⟨ty', _, fun depth ty₁ hty₁ => ?_, hrenamed⟩
      rw [Function.valueTypeWithin_of_fixedType? hk rfl] at hty₁
      exact (Except.ok.inj hty₁).symm
    | _ => exact .inl hrenamed

variable (hkind : f.kind c.site = .ok kind)
include hkind

theorem typesKept (hty : kind.fixedType? = some ty) : f.TypesKept f' := by
  refine h.typesKept_of_type fun depth ty' hty' => ?_
  rw [Function.valueTypeWithin_of_fixedType? hkind hty] at hty'
  exact (Except.ok.inj hty').symm

variable (hf : f.Tidy) (hc : c.Of f) (hsite : kind.isPhi = false)
include hf hc hsite

theorem phiSim (hb : b ∈ f.layout) {phis : List InstId} (hphis : f.phis b = .ok phis) :
    ∀ phi ∈ phis, PhiSim f f' (c.rename join) b phi := by
  refine hf.phiSim hb hphis fun phi hmem ty' incoming hphi => ?_
  obtain ⟨blk, hblk, hlead⟩ := Function.phis_eq_ok hphis
  obtain ⟨rest, hinsts, -, -⟩ := Function.leading_eq_ok hlead
  obtain ⟨pos, hid⟩ := Function.Tidy.listed_of_mem hb hblk (hinsts ▸ List.mem_append_left rest hmem)
  have htarget : ∀ entry ∈ incoming, entry.2 ≠ join := by
    rintro entry hentry rfl
    have := hf.sources phi b pos ty' incoming hid hphi entry hentry
    exact absurd this (Nat.not_lt.mpr h.opened.joinNew)
  have hlive : ∀ source ∈ f.layout, source ≠ join := by
    rintro source hsource rfl
    exact h.opened.join_not_mem hf.closed hsource
  by_cases hsucc : b ∈ c.term.successors
  · refine ⟨_, h.opened.renamed b hsucc phis hphis phi hmem _ hphi, ?_⟩
    exact fun source hsource _ value hfind => find?_rename htarget (hlive source hsource) hfind
  obtain hsame | ⟨-, hrenamed⟩ :=
    h.opened.kinds phi _ (Cut.ne_site hkind hsite hphi) hphi
  · refine ⟨incoming, hsame, fun source hsource hedge value hfind => ?_⟩
    have hne : source ≠ c.head := by
      rintro rfl
      obtain ⟨succs, hsuccs, hb⟩ := hedge
      rw [Function.successors_of_block hc.block] at hsuccs
      obtain rfl := Except.ok.inj hsuccs
      exact hsucc hb
    rw [Cut.rename, if_neg hne]
    exact hfind
  · refine ⟨_, hrenamed, ?_⟩
    exact fun source hsource _ value hfind => find?_rename htarget (hlive source hsource) hfind

/-- The block that was cut is found in its first part, and behind the code for the instruction it
goes on beyond the cut. -/
theorem headSim {p : Part} (hp : p ∈ parts) (hblock : p.block = c.head)
    (hswap : swap c.site ⟨c.head, p.term, p.insts.map (·.1)⟩ ⟨join, c.term, c.after⟩) :
    ∃ blk blk' phis, BlockSim f f' swap (c.rename join) c.head blk blk' phis := by
  obtain ⟨blk, phis, hblk, hphis⟩ := hf.phis_eq_ok hc.live
  obtain rfl := Except.ok.inj (hc.block.symm.trans hblk)
  have hphi := h.phiSim hkind hf hc hsite hc.live hphis
  obtain ⟨name, hpart⟩ := h.opened.part p hp
  rw [hblock, h.opened.old_eq hp hblock] at hpart
  obtain ⟨blk', hblk', hlead⟩ := Function.phis_eq_ok hphis
  obtain rfl := Except.ok.inj (hc.block.symm.trans hblk')
  -- The phis all stand before the cut, as the instruction behind it is none.
  obtain ⟨between, hbefore, -, -⟩ :=
    Function.leading_eq_ok (Function.leading_of_append hkind hsite hlead)
  obtain ⟨rest, hinsts, hrest⟩ := hf.insts_eq_append hc.live hc.block hphis
  obtain rfl : rest = between ++ c.site :: c.after := by
    dsimp only at hinsts
    rw [hbefore, List.append_assoc, List.append_cancel_left_eq] at hinsts
    exact hinsts.symm
  have hnodup : (between ++ c.site :: c.after).Nodup := by
    have hall : (c.before ++ c.site :: c.after).Nodup := hf.nodup c.head hc.live _ hc.block
    rw [hbefore, List.append_assoc] at hall
    exact hall.of_append_right
  have hsame : ∀ id ∈ between ++ c.site :: c.after, id ≠ c.site → ∃ k, f.kind id = .ok k ∧
      f'.kind id = .ok k ∧ k.isPhi = false ∧ ∀ value ∈ k.operands, value.Below f.insts.size := by
    intro id hid hne
    obtain ⟨k, hk, hnot⟩ := hrest id hid
    have hmem : id ∈ c.before ++ c.site :: c.after := by
      rw [hbefore, List.append_assoc]
      exact List.mem_append_right phis hid
    obtain ⟨pos, hlisted⟩ := Function.Tidy.listed_of_mem hc.live hc.block hmem
    exact ⟨k, hk, h.kind_eq hne hk hnot, hnot, hf.values_below hlisted hk⟩
  have hbetween : ∀ id ∈ between, id ≠ c.site := by
    rintro id hid rfl
    exact List.disjoint_of_nodup_append hnodup hid List.mem_cons_self
  have hafter : ∀ id ∈ c.after, id ≠ c.site := by
    rintro id hid rfl
    exact (List.nodup_cons.mp hnodup.of_append_right).1 hid
  have hgiven : ∀ id ∈ between ++ p.insts.map (·.1), ∃ k, f'.kind id = .ok k ∧ k.isPhi = false := by
    intro id hid
    obtain hmem | hmem := List.mem_append.mp hid
    · obtain ⟨k, -, hk, hnot, -⟩ := hsame id (List.mem_append_left _ hmem) (hbetween id hmem)
      exact ⟨k, hk, hnot⟩
    · obtain ⟨entry, hentry, rfl⟩ := List.mem_map.mp hmem
      obtain ⟨-, inst, hinst, heq, -⟩ := h.opened.given p hp entry hentry
      exact ⟨entry.2, Function.kind_eq_ok.mpr ⟨inst, hinst, heq⟩, h.kinds p hp entry hentry⟩
  have hinsts' : c.before ++ p.insts.map (·.1) = phis ++ (between ++ p.insts.map (·.1)) := by
    rw [hbefore, List.append_assoc]
  refine ⟨_, _, phis, hc.block, hpart, hphis, ?_, hphi, ?_, hf.termOperands c.head hc.live _ hc.block,
    hf.live_of_mem_successors hc.live hc.block⟩
  · refine Function.phis_of_block hpart hinsts' (fun id hid => ?_) hgiven
    obtain ⟨ty', -, incoming', -, hphi', -⟩ := hphi id hid
    exact ⟨_, hphi', rfl⟩
  · have hdrop : (c.before ++ c.site :: c.after).drop phis.length =
        between ++ c.site :: c.after := by
      rw [hbefore, List.append_assoc, List.drop_left]
    have hdrop' : (c.before ++ p.insts.map (·.1)).drop phis.length =
        between ++ p.insts.map (·.1) := by
      rw [hinsts', List.drop_left]
    dsimp only
    rw [hdrop, hdrop', Cut.rename, if_pos rfl]
    refine .append (fun id hid => ?_) (.swapped hswap ?_)
    · obtain ⟨k, hk, hk', -, hvalues⟩ :=
        hsame id (List.mem_append_left _ hid) (hbetween id hid)
      exact ⟨k, hk, hk', hvalues⟩
    · have hrest' : ∀ id ∈ c.after, ∃ k, f.kind id = .ok k ∧ f'.kind id = .ok k ∧
          ∀ value ∈ k.operands, value.Below f.insts.size := by
        intro id hid
        obtain ⟨k, hk, hk', -, hvalues⟩ :=
          hsame id (List.mem_append_right _ (List.mem_cons_of_mem _ hid)) (hafter id hid)
        exact ⟨k, hk, hk', hvalues⟩
      have hcovers : Covers f f' swap join c.term (c.after ++ []) ⟨join, c.term, c.after ++ []⟩ :=
        .append hrest' .done
      rwa [List.append_nil] at hcovers

theorem functionSim (htypes : f.TypesKept f')
    (hswap : ∀ p ∈ parts, p.block = c.head →
      swap c.site ⟨c.head, p.term, p.insts.map (·.1)⟩ ⟨join, c.term, c.after⟩) :
    FunctionSim f f' swap (c.rename join) where
  name := h.opened.name
  types := fun _ _ => htypes.valueType h.opened.sizeInsts
  entry := h.opened.entry
  declared := by
    intro hnone
    rw [Function.entryBlock?, List.head?_eq_none_iff] at hnone
    exact absurd hc.live (hnone ▸ List.not_mem_nil)
  blocks := by
    intro b hb
    obtain ⟨blk, phis, hblk, hphis⟩ := hf.phis_eq_ok hb
    have hphi := h.phiSim hkind hf hc hsite hb hphis
    by_cases hhead : b = c.head
    · subst hhead
      obtain ⟨p, hp, hblock, -⟩ := h.opened.head
      exact h.headSim hkind hf hc hsite hp hblock (hswap p hp hblock)
    · refine ⟨blk, blk, phis, hf.blockSim hb hblk hphis ?_ ?_ hphi fun id hid k hk hnot => ?_⟩
      · rw [h.opened.block_kept hf.closed hb hhead, hblk]
      · rw [Cut.rename, if_neg hhead]
      · refine h.kind_eq ?_ hk hnot
        rintro rfl
        obtain ⟨pos, hlisted⟩ := Function.Tidy.listed_of_mem hb hblk hid
        exact hhead (hf.listed_unique hc.listed_site hlisted).1

end Patched

/-- A function has grown: what was in it is still there, but for instructions that have become
phis. -/
structure Function.Extended (f f' : Function) : Prop where
  tidy : f'.Tidy
  name : f'.name = f.name
  types : f.TypesKept f'
  size : f.insts.size ≤ f'.insts.size
  listed : ∀ id b pos, f.Listed id b pos → ∃ b' pos', f'.Listed id b' pos'
  kinds : ∀ id kind, id.index < f.insts.size → f'.kind id = .ok kind → kind.isPhi = false →
    f.kind id = .ok kind

theorem Function.Extended.refl (hf : f.Tidy) (annotations : Annotations) :
    f.Extended { f with annotations } where
  tidy := hf.withAnnotations annotations
  name := rfl
  types := .of_kinds rfl fun _ _ hkind => .inl hkind
  size := le_rfl
  listed := fun _ b pos hid => ⟨b, pos, hid⟩
  kinds := fun _ _ _ hkind _ => hkind

namespace Patched

variable {c : Cut} {join b : BlockId} {parts : List Part} {ty : Ty}
  {entries : List (Value × BlockId)} {kind : InstKind} (h : Patched f c join parts ty entries f')
  (hf : f.Tidy) (hc : c.Of f)
include h

theorem mem_layout_of_part {p : Part} (hp : p ∈ parts) : p.block ∈ f'.layout :=
  (h.opened.layout p.block).mpr (.inr (.inr (List.mem_map_of_mem hp)))

include hf hc in
/-- What is live stays live, in front of the cut where it was. -/
theorem listed_mono {id : InstId} {pos : Nat} (hid : f.Listed id b pos) :
    f'.Listed id (c.place join b pos).1 (c.place join b pos).2 := by
  obtain ⟨hb, blk, hblk, hpos⟩ := hid
  unfold Cut.place
  split
  · next hrest =>
    obtain ⟨rfl, hle⟩ := hrest
    obtain rfl := Except.ok.inj (hc.block.symm.trans hblk)
    obtain ⟨name, htail⟩ := h.opened.tail
    rw [List.getElem?_append_right hle] at hpos
    exact ⟨(h.opened.layout join).mpr (.inr (.inl rfl)), _, htail, hpos⟩
  · next hfront =>
    by_cases hhead : b = c.head
    · subst hhead
      obtain rfl := Except.ok.inj (hc.block.symm.trans hblk)
      have hlt : pos < c.before.length := Nat.lt_of_not_le fun hle => hfront ⟨rfl, hle⟩
      obtain ⟨p, hp, hblock, hold⟩ := h.opened.head
      obtain ⟨name, hpart⟩ := h.opened.part p hp
      rw [hblock, hold] at hpart
      rw [List.getElem?_append_left hlt] at hpos
      refine ⟨(h.opened.layout c.head).mpr (.inl hb), _, hpart, ?_⟩
      rw [List.getElem?_append_left hlt]
      exact hpos
    · refine ⟨(h.opened.layout b).mpr (.inl hb), blk, ?_, hpos⟩
      rw [h.opened.block_kept hf.closed hb hhead, hblk]

theorem kind_of_kind {id : InstId} (hlt : id.index < f.insts.size) {k : InstKind}
    (hk : f'.kind id = .ok k) (hnot : k.isPhi = false) : f.kind id = .ok k := by
  have hne : id ≠ c.site := by
    rintro rfl
    obtain rfl := Except.ok.inj (h.opened.site.symm.trans hk)
    cases hnot
  obtain ⟨k₀, hk₀⟩ : ∃ k₀, f.kind id = .ok k₀ :=
    ⟨_, Function.kind_eq_ok.mpr ⟨_, Function.inst_eq_ok.mpr (Array.getElem?_eq_getElem hlt), rfl⟩⟩
  obtain hsame | ⟨-, hrenamed⟩ := h.opened.kinds id k₀ hne hk₀
  · obtain rfl := Except.ok.inj (hsame.symm.trans hk)
    exact hk₀
  · obtain rfl := Except.ok.inj (hrenamed.symm.trans hk)
    rw [InstKind.isPhi_renameIncoming] at hnot
    rw [hk₀, InstKind.renameIncoming_of_not_phi hnot]

include hf hc in
theorem extended (hkind : f.kind c.site = .ok kind) (hsite : kind.isPhi = false)
    (hty : kind.fixedType? = some ty) : f.Extended f' where
  tidy := h.tidy hf hc hkind hsite
  name := h.opened.name
  types := h.typesKept hkind hty
  size := h.opened.sizeInsts
  listed := fun _ _ _ hid => ⟨_, _, h.listed_mono hf hc hid⟩
  kinds := fun _ _ hlt hk hnot => h.kind_of_kind hlt hk hnot

end Patched

end EdgeProbe
