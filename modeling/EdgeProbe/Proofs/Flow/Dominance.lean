import EdgeProbe.Proofs.Flow.Ancestors
import EdgeProbe.Proofs.Flow.Postorder

/-!
# Dominators are found

The rounds that look for closest dominators come to an end, and what they leave is dominance. While
they go on, the parents satisfy `Progress`: no block that lies on every path is lost on a walk up,
and a new parent is always above the old one, so that the sum of the ranks of all parents sinks with
every change. When a round changes nothing, each parent is the meeting point of the predecessors.
-/

namespace EdgeProbe

/-- What the search for the dominators of a function starts from. -/
structure FlowSearch (f : Function) (preds : PredecessorMap) (entry : BlockId)
    (blocks : List BlockId) : Prop where
  closed : f.Closed
  entry : f.entryBlock? = some entry
  preds : ∀ a b, a ∈ preds.getD b [] ↔ a ∈ f.layout ∧ f.Edge a b
  postorder : Postorder f blocks

namespace FlowSearch

variable {f : Function} {preds : PredecessorMap} {entry : BlockId} {blocks : List BlockId}

theorem entry_mem (s : FlowSearch f preds entry blocks) : entry ∈ blocks :=
  (s.postorder.mem_iff entry).mpr (.entry s.entry)

theorem idxOf_entry (s : FlowSearch f preds entry blocks) : blocks.idxOf entry = 0 := by
  have hhead := s.postorder.head.trans s.entry
  cases blocks with
  | nil => simp at hhead
  | cons first rest =>
    obtain rfl : first = entry := by simpa using hhead
    simp

/-- Each block but the entry has a predecessor that comes before it. -/
theorem exists_pred (s : FlowSearch f preds entry blocks) {b : BlockId} (hb : b ∈ blocks)
    (hne : b ≠ entry) :
    ∃ a ∈ preds.getD b [], a ∈ blocks ∧ blocks.idxOf a < blocks.idxOf b := by
  obtain ⟨before, after, hsplit, hnot⟩ := List.eq_append_cons_of_mem hb
  have hidx : blocks.idxOf b = before.length := by
    rw [hsplit, List.idxOf_append, if_neg hnot, List.idxOf_cons_self, Nat.zero_add]
  have hbefore : before ≠ [] := by
    rintro rfl
    have hhead := s.postorder.head.trans s.entry
    rw [hsplit] at hhead
    exact hne (by simpa using hhead)
  obtain ⟨a, ha, hedge⟩ := s.postorder.source before b after hsplit hbefore
  have hmem : a ∈ blocks := by
    rw [hsplit]
    exact List.mem_append_left _ ha
  obtain ⟨trail, path⟩ := (s.postorder.mem_iff a).mp hmem
  refine ⟨a, (s.preds a b).mpr ⟨s.closed.mem_layout path, hedge⟩, hmem, ?_⟩
  rw [hidx, hsplit, List.idxOf_append_of_mem ha]
  exact List.idxOf_lt_length_of_mem ha

theorem edge_of_pred (s : FlowSearch f preds entry blocks) {a b : BlockId}
    (h : a ∈ preds.getD b []) : f.Edge a b :=
  ((s.preds a b).mp h).2

theorem distinct (s : FlowSearch f preds entry blocks) :
    blocks.zipIdx.Pairwise fun x y => (x.1 == y.1) = false := by
  rw [List.pairwise_iff_getElem]
  intro j k hj hk hlt
  rw [List.getElem_zipIdx, List.getElem_zipIdx, beq_eq_false_iff_ne]
  intro heq
  have := s.postorder.nodup.getElem_inj_iff.mp heq
  omega

end FlowSearch

namespace Dominators

/-- How far the search has come when the first `i` blocks have been looked at in the present round,
all of which have a parent. -/
structure Progress (f : Function) (preds : PredecessorMap) (entry : BlockId)
    (blocks : List BlockId) (i : Nat) (d : Dominators) : Prop where
  order : d.order = .ofList blocks.zipIdx
  climbs : Climbs blocks.idxOf d.parent? entry
  mem : ∀ b, (d.parent? b).isSome → b ∈ blocks
  reached : ∀ b ∈ blocks, blocks.idxOf b < i → (d.parent? b).isSome
  downward : ∀ b, (d.parent? b).isSome → ∀ c ∈ blocks, blocks.idxOf c ≤ blocks.idxOf b →
    (d.parent? c).isSome
  /-- What lies on every path is not lost. -/
  keeps : ∀ b p, d.parent? b = some p → b ≠ entry →
    ∀ a, f.OnEveryPath a b → a ≠ b → f.OnEveryPath a p
  /-- A parent is not above the meeting point of the predecessors. -/
  covers : ∀ b q, d.parent? b = some q → b ≠ entry →
    ∀ c, (∀ p ∈ preds.getD b [], (d.parent? p).isSome → Above d.parent? c p) →
      Above d.parent? c q
  /-- A parent is above the predecessors that come before its block, unless some of the walk up from
  them has changed since. -/
  aligned : ∀ b q, d.parent? b = some q → b ≠ entry →
    ∀ p ∈ preds.getD b [], blocks.idxOf p < blocks.idxOf b →
      blocks.idxOf b < i ∨ i ≤ blocks.idxOf q → Above d.parent? q p

/-- Giving a block another parent. -/
def withParent (d : Dominators) (b m : BlockId) : Dominators :=
  { d with parent := d.parent.insert b m }

theorem parent?_withParent (d : Dominators) (b m x : BlockId) :
    (d.withParent b m).parent? x = if x = b then some m else d.parent? x := by
  rw [parent?, withParent, Std.HashMap.getElem?_insert, parent?]
  by_cases h : x = b
  · subst h
    simp
  · rw [if_neg h, if_neg (by simpa using fun hb => h hb.symm)]

theorem parent?_withParent_self (d : Dominators) (b m : BlockId) :
    (d.withParent b m).parent? b = some m := by
  rw [parent?_withParent, if_pos rfl]

theorem parent?_withParent_of_ne {d : Dominators} {b x : BlockId} (m : BlockId) (hx : x ≠ b) :
    (d.withParent b m).parent? x = d.parent? x := by
  rw [parent?_withParent, if_neg hx]

theorem isSome_parent?_withParent {d : Dominators} {x : BlockId} (b m : BlockId)
    (hx : (d.parent? x).isSome) : ((d.withParent b m).parent? x).isSome := by
  rw [parent?_withParent]
  split
  · rfl
  · exact hx

/-- The predecessors of a block that have been reached. -/
def Reached (d : Dominators) (preds : PredecessorMap) (b p : BlockId) : Prop :=
  p ∈ preds.getD b [] ∧ (d.parent? p).isSome

namespace Progress

variable {f : Function} {preds : PredecessorMap} {entry : BlockId} {blocks : List BlockId}
  {i : Nat} {d : Dominators} {a b c m : BlockId}

theorem ranks (s : FlowSearch f preds entry blocks) (h : Progress f preds entry blocks i d) :
    d.Ranks blocks.idxOf := by
  intro b hb
  rw [h.order]
  apply Std.HashMap.getElem?_ofList_of_mem BEq.rfl s.distinct
  exact List.mk_mem_zipIdx_iff_getElem?.mpr (List.getElem?_idxOf (h.mem b hb))

theorem order_size (s : FlowSearch f preds entry blocks) (h : Progress f preds entry blocks i d) :
    d.order.size = blocks.length := by
  rw [h.order, Std.HashMap.size_ofList s.distinct, List.length_zipIdx]

/-- A block on every path to another one stays so on the walk up, as long as it is not passed. -/
theorem onEveryPath_of_above (s : FlowSearch f preds entry blocks)
    (h : Progress f preds entry blocks i d) (ha : f.OnEveryPath a b) (hm : Above d.parent? m b)
    (hle : blocks.idxOf a ≤ blocks.idxOf m) : f.OnEveryPath a m := by
  induction hm with
  | refl => exact ha
  | @step p b hp above ih =>
    by_cases hb : b = entry
    · subst hb
      obtain rfl := Option.some.inj (h.climbs.up_root.symm.trans hp)
      exact ih ha
    · apply ih
      apply h.keeps b p hp hb a ha
      rintro rfl
      have hlt := h.climbs.rank_lt a p hp hb
      have hrank := h.climbs.rank_le above
      omega

/-- What lies on every path to a block is met on the walk up from it. -/
theorem above_of_onEveryPath (s : FlowSearch f preds entry blocks)
    (h : Progress f preds entry blocks i d) (hb : (d.parent? b).isSome)
    (ha : f.OnEveryPath a b) : Above d.parent? a b := by
  induction hn : blocks.idxOf b using Nat.strong_induction_on generalizing b with
  | _ n ih =>
    by_cases hab : a = b
    · exact hab ▸ .refl
    · obtain ⟨p, hp⟩ := Option.isSome_iff_exists.mp hb
      have hne : b ≠ entry := by
        rintro rfl
        exact hab (ha.eq_entry s.entry)
      have hlt := h.climbs.rank_lt b p hp hne
      exact .step hp (ih _ (hn ▸ hlt) (h.climbs.parent b p hp) (h.keeps b p hp hne a ha hab) rfl)

theorem inj (h : Progress f preds entry blocks i d) (a b : BlockId) (ha : (d.parent? a).isSome)
    (heq : blocks.idxOf a = blocks.idxOf b) : a = b :=
  (List.idxOf_inj (h.mem a ha)).mp heq

/-- The predecessors of a block whose turn it is meet in a block that comes before it. -/
theorem exists_meet (s : FlowSearch f preds entry blocks) (h : Progress f preds entry blocks i d)
    (hb : b ∈ blocks) (hne : b ≠ entry) (hi : blocks.idxOf b ≤ i) :
    ∃ m, d.meetAll none (preds.getD b []) = .ok (some m) ∧ (d.parent? m).isSome ∧
      MeetOf d.parent? (d.Reached preds b) m ∧ blocks.idxOf m < blocks.idxOf b := by
  have hsize : ∀ b, (d.parent? b).isSome → blocks.idxOf b < d.order.size := by
    intro b hup
    rw [h.order_size s]
    exact List.idxOf_lt_length_of_mem (h.mem b hup)
  obtain ⟨met, hmet, hsome, hnone⟩ := meetAll_eq_ok h.climbs (h.ranks s) h.inj hsize
    (preds.getD b []) none (fun _ => False) (by simp) (by simp)
  obtain ⟨a, ha, hmem, hlt⟩ := s.exists_pred hb hne
  have hup := h.reached a hmem (by omega)
  cases met with
  | none => exact absurd (Or.inr ⟨ha, hup⟩) (hnone rfl a)
  | some m =>
    obtain ⟨hm, hmeet⟩ := hsome m rfl
    have hmeet' : MeetOf d.parent? (d.Reached preds b) m := by
      intro c
      rw [hmeet c]
      simp [Reached]
    have hle := h.climbs.rank_le (hmeet'.above ⟨ha, hup⟩)
    exact ⟨m, hmet, hm, hmeet', by omega⟩

/-! ### Changing a parent -/

section Change

variable (s : FlowSearch f preds entry blocks) (h : Progress f preds entry blocks i d)
  (hi : blocks.idxOf b = i)
include h hi

/-- Walks up from blocks that come before the changed one do not pass it. -/
theorem above_withParent_iff {x : BlockId} (hx : blocks.idxOf x < i) :
    Above (d.withParent b m).parent? c x ↔ Above d.parent? c x := by
  have hsame : ∀ y, blocks.idxOf y < i → (d.withParent b m).parent? y = d.parent? y := by
    intro y hy
    rw [parent?_withParent, if_neg]
    rintro rfl
    omega
  have hdown : ∀ y p, blocks.idxOf y < i → d.parent? y = some p → blocks.idxOf p < i := by
    intro y p hy hp
    exact lt_of_le_of_lt (h.climbs.rank_le (.step hp .refl)) hy
  constructor
  · intro hc
    induction hc with
    | refl => exact .refl
    | @step p y hp above ih =>
      rw [hsame y hx] at hp
      exact .step hp (ih (hdown y p hx hp))
  · intro hc
    induction hc with
    | refl => exact .refl
    | @step p y hp above ih => exact .step ((hsame y hx).trans hp) (ih (hdown y p hx hp))

/-- The part of a walk up that comes before the changed block stays as it is. -/
theorem above_withParent_of_le {x y : BlockId} (hxy : Above d.parent? x y) (hx : i ≤ blocks.idxOf x) :
    Above (d.withParent b m).parent? x y := by
  induction hxy with
  | refl => exact .refl
  | @step p y hp above ih =>
    by_cases hy : y = b
    · subst hy
      by_cases hroot : y = entry
      · subst hroot
        obtain rfl := Option.some.inj (h.climbs.up_root.symm.trans hp)
        exact ih
      · have hlt := h.climbs.rank_lt y p hp hroot
        have hle := h.climbs.rank_le above
        omega
    · refine .step ?_ ih
      rw [parent?_withParent, if_neg hy, hp]

/-- When the new parent is above the old one, walks up only get shorter. -/
theorem above_of_withParent {x : BlockId} (hnew : ∀ q, d.parent? b = some q → Above d.parent? m q)
    (hx : (d.parent? x).isSome) (hc : Above (d.withParent b m).parent? c x) :
    Above d.parent? c x := by
  induction hc with
  | refl => exact .refl
  | @step p y hp above ih =>
    rw [parent?_withParent] at hp
    by_cases hy : y = b
    · subst hy
      obtain rfl : m = p := by simpa using hp
      obtain ⟨q, hq⟩ := Option.isSome_iff_exists.mp hx
      have hmq := hnew q hq
      have hup := h.climbs.isSome_of_above hmq (h.climbs.parent y q hq)
      exact .step hq ((ih hup).trans hmq)
    · rw [if_neg hy] at hp
      exact .step hp (ih (h.climbs.parent y p hp))

/-- Walks up still climb to the entry. -/
theorem climbs_withParent (hne : b ≠ entry) (hm : (d.parent? m).isSome) (hlt : blocks.idxOf m < i) :
    Climbs blocks.idxOf (d.withParent b m).parent? entry := by
  refine ⟨?_, h.climbs.rank_root, ?_, ?_⟩
  · rw [parent?_withParent_of_ne m hne.symm]
    exact h.climbs.up_root
  · intro x p hp hx
    by_cases hxb : x = b
    · subst hxb
      obtain rfl := Option.some.inj ((d.parent?_withParent_self _ m).symm.trans hp)
      omega
    · exact h.climbs.rank_lt x p ((parent?_withParent_of_ne m hxb).symm.trans hp) hx
  · intro x p hp
    by_cases hxb : x = b
    · subst hxb
      obtain rfl := Option.some.inj ((d.parent?_withParent_self _ m).symm.trans hp)
      exact isSome_parent?_withParent _ _ hm
    · have hp' := (parent?_withParent_of_ne m hxb).symm.trans hp
      exact isSome_parent?_withParent _ _ (h.climbs.parent x p hp')

include s

/-- Giving the block whose turn it is the meeting point of its predecessors keeps all that is known
of the search. -/
theorem change (hb : b ∈ blocks) (hne : b ≠ entry) (hm : (d.parent? m).isSome)
    (hmeet : MeetOf d.parent? (d.Reached preds b) m) (hlt : blocks.idxOf m < i) :
    Progress f preds entry blocks (i + 1) (d.withParent b m) := by
  have hold : ∀ x, x ≠ b → (d.withParent b m).parent? x = d.parent? x :=
    fun x hx => parent?_withParent_of_ne m hx
  have hself := d.parent?_withParent_self b m
  have hsome : ∀ x, (d.parent? x).isSome → ((d.withParent b m).parent? x).isSome :=
    fun x hx => isSome_parent?_withParent b m hx
  -- The new parent is above the old one, since the old one is not above the meeting point.
  have hnew : ∀ q, d.parent? b = some q → Above d.parent? m q :=
    fun q hq => h.covers b q hq hne m fun p hp hup => hmeet.above ⟨hp, hup⟩
  obtain ⟨source, hsource, hsourceMem, hsourceLt⟩ := s.exists_pred hb hne
  have hsourceUp := h.reached source hsourceMem (by omega)
  have ht := h.climbs_withParent hi hne hm hlt
  refine
    { order := h.order, climbs := ht, mem := ?mem, reached := ?reached, downward := ?downward,
      keeps := ?keeps, covers := ?covers, aligned := ?aligned }
  case mem =>
    intro x hx
    by_cases hxb : x = b
    · exact hxb ▸ hb
    · exact h.mem x (hold x hxb ▸ hx)
  case reached =>
    intro x hx hxi
    by_cases hxb : x = b
    · rw [hxb, hself]
      rfl
    · have hne' : blocks.idxOf x ≠ i := fun he => hxb ((List.idxOf_inj hx).mp (he.trans hi.symm))
      exact hsome x (h.reached x hx (by omega))
  case downward =>
    intro x hx c hc hle
    by_cases hxb : x = b
    · subst hxb
      by_cases hcx : c = x
      · rw [hcx, hself]
        rfl
      · have hne' : blocks.idxOf c ≠ i := fun he => hcx ((List.idxOf_inj hc).mp (he.trans hi.symm))
        exact hsome c (h.reached c hc (by omega))
    · exact hsome c (h.downward x (hold x hxb ▸ hx) c hc hle)
  case keeps =>
    -- A block on every path to `b` is above all predecessors of `b`, hence above `m`.
    intro x p hp hx a ha hax
    by_cases hxb : x = b
    · subst hxb
      obtain rfl := Option.some.inj (hself.symm.trans hp)
      have hon : ∀ y ∈ preds.getD x [], f.OnEveryPath a y :=
        fun y hy => ha.source hax (s.edge_of_pred hy)
      have ham : Above d.parent? a m :=
        (hmeet a).mpr fun y hy => h.above_of_onEveryPath s hy.2 (hon y hy.1)
      exact h.onEveryPath_of_above s (hon source hsource) (hmeet.above ⟨hsource, hsourceUp⟩)
        (h.climbs.rank_le ham)
    · exact h.keeps x p ((hold x hxb).symm.trans hp) hx a ha hax
  case covers =>
    intro x q hq hx c hc
    have hc' : ∀ p ∈ preds.getD x [], (d.parent? p).isSome → Above d.parent? c p :=
      fun p hp hup => h.above_of_withParent hi hnew hup (hc p hp (hsome p hup))
    by_cases hxb : x = b
    · subst hxb
      obtain rfl := Option.some.inj (hself.symm.trans hq)
      exact (h.above_withParent_iff hi hlt).mpr ((hmeet c).mpr fun p hp => hc' p hp.1 hp.2)
    · have hq' := (hold x hxb).symm.trans hq
      have hcq := h.covers x q hq' hx c hc'
      by_cases hqi : blocks.idxOf q < i
      · exact (h.above_withParent_iff hi hqi).mpr hcq
      · -- `q` is still above a predecessor that comes before `x`, and so is `c`.
        have hxmem := h.mem x (by rw [hq']; rfl)
        obtain ⟨y, hy, hymem, hylt⟩ := s.exists_pred hxmem hx
        have hyup := h.downward x (by rw [hq']; rfl) y hymem hylt.le
        have hqy := h.aligned x q hq' hx y hy hylt (Or.inr (by omega))
        have hqy' : Above (d.withParent b m).parent? q y :=
          h.above_withParent_of_le hi hqy (by omega)
        exact ht.above_of_le (hc y hy (hsome y hyup)) hqy' (h.climbs.rank_le hcq)
  case aligned =>
    intro x q hq hx p hp hpx hcond
    by_cases hxb : x = b
    · subst hxb
      obtain rfl := Option.some.inj (hself.symm.trans hq)
      have hpmem := List.idxOf_lt_length_iff.mp (hpx.trans (List.idxOf_lt_length_of_mem hb))
      have hpup := h.reached p hpmem (by omega)
      exact (h.above_withParent_iff hi (by omega)).mpr (hmeet.above ⟨hp, hpup⟩)
    · have hq' := (hold x hxb).symm.trans hq
      have hxi : blocks.idxOf x ≠ i := fun he =>
        hxb ((List.idxOf_inj (h.mem x (by rw [hq']; rfl))).mp (he.trans hi.symm))
      rcases hcond with hcond | hcond
      · have hqp := h.aligned x q hq' hx p hp hpx (Or.inl (by omega))
        exact (h.above_withParent_iff hi (by omega)).mpr hqp
      · have hqp := h.aligned x q hq' hx p hp hpx (Or.inr (by omega))
        exact h.above_withParent_of_le hi hqp (by omega)

end Change

/-- When the block whose turn it is has the meeting point of its predecessors as its parent already,
the search goes on as it is. -/
theorem keep (h : Progress f preds entry blocks i d) (hb : b ∈ blocks) (hi : blocks.idxOf b = i)
    (hm : d.parent? b = some m) (hmeet : MeetOf d.parent? (d.Reached preds b) m) :
    Progress f preds entry blocks (i + 1) d where
  order := h.order
  climbs := h.climbs
  mem := h.mem
  reached x hx hxi := by
    by_cases hxb : x = b
    · rw [hxb, hm]
      rfl
    · have hne : blocks.idxOf x ≠ i := fun he => hxb ((List.idxOf_inj hx).mp (he.trans hi.symm))
      exact h.reached x hx (by omega)
  downward := h.downward
  keeps := h.keeps
  covers := h.covers
  aligned x q hq hx p hp hpx hcond := by
    by_cases hxb : x = b
    · subst hxb
      obtain rfl := Option.some.inj (hm.symm.trans hq)
      have hpmem := List.idxOf_lt_length_iff.mp (hpx.trans (List.idxOf_lt_length_of_mem hb))
      exact hmeet.above ⟨hp, h.reached p hpmem (by omega)⟩
    · have hxi : blocks.idxOf x ≠ i := fun he =>
        hxb ((List.idxOf_inj (h.mem x (by rw [hq]; rfl))).mp (he.trans hi.symm))
      exact h.aligned x q hq hx p hp hpx (by omega)

/-- The next round starts from what the last one has left. -/
theorem restart (h : Progress f preds entry blocks blocks.length d) :
    Progress f preds entry blocks 1 d where
  order := h.order
  climbs := h.climbs
  mem := h.mem
  reached x hx _ := h.reached x hx (List.idxOf_lt_length_of_mem hx)
  downward := h.downward
  keeps := h.keeps
  covers := h.covers
  aligned x q hq hx p hp hpx _ :=
    h.aligned x q hq hx p hp hpx
      (Or.inl (List.idxOf_lt_length_of_mem (h.mem x (by rw [hq]; rfl))))

end Progress

/-! ### Rounds end -/

/-- The sum of the ranks of all parents, where a block without one counts as if it came last. -/
def height (blocks : List BlockId) (d : Dominators) : Nat :=
  (blocks.map fun b => ((d.parent? b).map blocks.idxOf).getD blocks.length).sum

/-- The parent of a block is the meeting point of its predecessors. -/
def Stable (preds : PredecessorMap) (d : Dominators) (b : BlockId) : Prop :=
  ∃ m, d.parent? b = some m ∧ MeetOf d.parent? (d.Reached preds b) m

variable {f : Function} {preds : PredecessorMap} {entry : BlockId} {blocks : List BlockId}
  {d : Dominators}

theorem height_withParent_lt {b m : BlockId} (hb : b ∈ blocks)
    (hlt : blocks.idxOf m < ((d.parent? b).map blocks.idxOf).getD blocks.length) :
    height blocks (d.withParent b m) < height blocks d := by
  apply List.sum_lt_sum
  · intro x hx
    rw [parent?_withParent]
    by_cases hxb : x = b
    · subst hxb
      rw [if_pos rfl]
      exact hlt.le
    · rw [if_neg hxb]
  · exact ⟨b, hb, by rw [parent?_withParent, if_pos rfl]; exact hlt⟩

/-- A round either lowers the height or finds all blocks stable and changes nothing. -/
theorem round_eq_ok (s : FlowSearch f preds entry blocks) (before todo : List BlockId)
    (changed : Bool) (hsplit : blocks = before ++ todo) (hbefore : before ≠ [])
    (h : Progress f preds entry blocks before.length d) :
    ∃ d' changed', round preds todo changed d = .ok (d', changed') ∧
      Progress f preds entry blocks blocks.length d' ∧
      (changed' = changed ∧ d' = d ∧ (∀ b ∈ todo, Stable preds d b) ∨
        changed' = true ∧ height blocks d' < height blocks d) := by
  induction todo generalizing before changed d with
  | nil =>
    rw [List.append_nil] at hsplit
    subst hsplit
    exact ⟨d, changed, rfl, h, Or.inl ⟨rfl, rfl, by simp⟩⟩
  | cons b rest ih =>
    have hb : b ∈ blocks := by rw [hsplit]; simp
    have hnodup := s.postorder.nodup
    have hnot : b ∉ before := by
      intro hin
      rw [hsplit] at hnodup
      exact (List.nodup_append.mp hnodup).2.2 b hin b List.mem_cons_self rfl
    have hi : blocks.idxOf b = before.length := by
      rw [hsplit, List.idxOf_append, if_neg hnot, List.idxOf_cons_self, Nat.zero_add]
    have hne : b ≠ entry := by
      rintro rfl
      rw [s.idxOf_entry] at hi
      exact hbefore (List.length_eq_zero_iff.mp hi.symm)
    have hnext : blocks = (before ++ [b]) ++ rest := by rw [hsplit]; simp
    have hlen : (before ++ [b]).length = before.length + 1 := by simp
    obtain ⟨m, hmet, hm, hmeet, hlt⟩ := h.exists_meet s hb hne hi.le
    rw [round]
    simp only [hmet, bind, Except.bind]
    by_cases hsame : d.parent? b = some m
    · have hkeep := hlen ▸ h.keep hb hi hsame hmeet
      obtain ⟨d', changed', hround, hdone, hcase⟩ :=
        ih (before ++ [b]) changed hnext (by simp) hkeep
      refine ⟨d', changed', ?_, hdone, ?_⟩
      · rw [if_pos (by simpa [parent?] using hsame)]
        exact hround
      · refine hcase.imp_left ?_
        rintro ⟨hc, hd, hstable⟩
        refine ⟨hc, hd, fun x hx => ?_⟩
        rcases List.mem_cons.mp hx with rfl | hx
        · exact ⟨m, hsame, hmeet⟩
        · exact hstable x hx
    · have hchange := hlen ▸ h.change s hi hb hne hm hmeet (hi ▸ hlt)
      obtain ⟨d', changed', hround, hdone, hcase⟩ :=
        ih (before ++ [b]) true hnext (by simp) hchange
      have hdown : height blocks (d.withParent b m) < height blocks d := by
        apply height_withParent_lt hb
        cases hq : d.parent? b with
        | none =>
          have := List.idxOf_lt_length_of_mem hb
          simp
          omega
        | some q =>
          -- The old parent is below the new one and differs from it.
          have habove := h.covers b q hq hne m fun p hp hup => hmeet.above ⟨hp, hup⟩
          have hle := h.climbs.rank_le habove
          rcases Nat.lt_or_ge (blocks.idxOf m) (blocks.idxOf q) with hmq | hqm
          · simpa using hmq
          · exact absurd (h.climbs.eq_of_above habove hqm ▸ hq) hsame
      refine ⟨d', changed', ?_, hdone, Or.inr ?_⟩
      · rw [if_neg (by simpa [parent?] using hsame)]
        exact hround
      · rcases hcase with ⟨hc, rfl, -⟩ | ⟨hc, hlow⟩
        · exact ⟨hc, hdown⟩
        · exact ⟨hc, hlow.trans hdown⟩

/-- With more rounds than the height, a last one changes nothing. -/
theorem rounds_eq_ok (s : FlowSearch f preds entry blocks) {rest : List BlockId} {fuel : Nat}
    (hsplit : blocks = entry :: rest) (h : Progress f preds entry blocks 1 d)
    (hfuel : height blocks d < fuel) :
    ∃ d', rounds preds rest fuel d = .ok d' ∧ Progress f preds entry blocks blocks.length d' ∧
      ∀ b ∈ rest, Stable preds d' b := by
  induction fuel generalizing d with
  | zero => omega
  | succ fuel ih =>
    obtain ⟨d', changed, hround, hdone, hcase⟩ :=
      round_eq_ok s [entry] rest false hsplit (by simp) h
    rw [rounds]
    simp only [hround, bind, Except.bind]
    rcases hcase with ⟨rfl, rfl, hstable⟩ | ⟨rfl, hlow⟩
    · exact ⟨d', rfl, hdone, hstable⟩
    · exact ih hdone.restart (by omega)

/-! ### What the parents mean -/

/-- The search before its first round. -/
theorem Progress.start (s : FlowSearch f preds entry blocks) :
    Progress f preds entry blocks 1 ⟨.ofList [(entry, entry)], .ofList blocks.zipIdx⟩ := by
  have hparent : ∀ b p, (⟨.ofList [(entry, entry)], .ofList blocks.zipIdx⟩ : Dominators).parent? b =
      some p ↔ b = entry ∧ p = entry := by
    intro b p
    have hlist : (Std.HashMap.ofList [(entry, entry)] : Std.HashMap BlockId BlockId) =
        (∅ : Std.HashMap BlockId BlockId).insert entry entry := rfl
    rw [parent?, hlist, Std.HashMap.getElem?_insert]
    by_cases h : b = entry
    · subst h
      simp [eq_comm]
    · simp [h, Ne.symm h]
  have hsome : ∀ b, ((⟨.ofList [(entry, entry)], .ofList blocks.zipIdx⟩ : Dominators).parent?
      b).isSome ↔ b = entry := by
    intro b
    rw [Option.isSome_iff_exists]
    constructor
    · rintro ⟨p, hp⟩
      exact ((hparent b p).mp hp).1
    · exact fun hb => ⟨entry, (hparent b entry).mpr ⟨hb, rfl⟩⟩
  have hzero := s.idxOf_entry
  refine
    { order := rfl, climbs := ?climbs, mem := ?mem, reached := ?reached, downward := ?downward,
      keeps := ?keeps, covers := ?covers, aligned := ?aligned }
  case climbs =>
    exact ⟨(hparent _ _).mpr ⟨rfl, rfl⟩, hzero,
      fun b p hp hne => absurd ((hparent b p).mp hp).1 hne,
      fun b p hp => (hsome p).mpr ((hparent b p).mp hp).2⟩
  case mem =>
    intro b hb
    rw [(hsome b).mp hb]
    exact s.entry_mem
  case reached =>
    intro b hb hlt
    exact (hsome b).mpr ((List.idxOf_inj hb).mp (by omega))
  case downward =>
    intro b hb c hc hle
    rw [(hsome b).mp hb] at hle
    exact (hsome c).mpr ((List.idxOf_inj hc).mp (by omega))
  case keeps => exact fun b p hp hne => absurd ((hparent b p).mp hp).1 hne
  case covers => exact fun b p hp hne => absurd ((hparent b p).mp hp).1 hne
  case aligned => exact fun b p hp hne => absurd ((hparent b p).mp hp).1 hne

/-- When all blocks are stable, what is above a block lies on every path to it. -/
theorem Progress.onEveryPath_of_above_stable (s : FlowSearch f preds entry blocks)
    (h : Progress f preds entry blocks blocks.length d)
    (hstable : ∀ b ∈ blocks, b ≠ entry → Stable preds d b) {a b : BlockId}
    (habove : Above d.parent? a b) : f.OnEveryPath a b := by
  intro trail path
  induction path generalizing a with
  | @entry e he =>
    obtain rfl : entry = e := Option.some.inj (s.entry.symm.trans he)
    have hzero := s.idxOf_entry
    have := h.climbs.eq_of_above habove (by omega)
    exact this ▸ List.mem_singleton.mpr rfl
  | @step x b trail path edge ih =>
    by_cases hab : a = b
    · exact hab ▸ List.mem_cons_self
    · apply List.mem_cons_of_mem
      apply ih
      have hx : x ∈ blocks := (s.postorder.mem_iff x).mpr ⟨trail, path⟩
      have hb : b ∈ blocks := (s.postorder.mem_iff b).mpr ⟨_, path.step edge⟩
      have hne : b ≠ entry := by
        rintro rfl
        have hzero := s.idxOf_entry
        exact hab (h.climbs.eq_of_above habove (by omega))
      obtain ⟨m, hm, hmeet⟩ := hstable b hb hne
      have ham := habove.of_parent hm hab
      refine (hmeet a).mp ham x ⟨(s.preds x b).mpr ⟨s.closed.mem_layout path, edge⟩, ?_⟩
      exact h.reached x hx (List.idxOf_lt_length_of_mem hx)

/-- The parents are found, and they tell which blocks lie on every path to others. -/
theorem ofPredecessors_eq_ok (hf : f.Closed) (hpreds : f.predecessorMap = .ok preds) :
    ∃ d, ofPredecessors f preds = .ok d ∧ (∀ b, d.isReachable b = true ↔ f.Reaches b) ∧
      ∀ a b, d.dominates a b = true ↔ f.Reaches a ∧ f.Reaches b ∧ f.OnEveryPath a b := by
  obtain ⟨blocks, hblocks, hpost⟩ := hf.reversePostorder_eq_ok
  have hreach : ∀ b, (Std.HashMap.ofList blocks.zipIdx).contains b = true ↔ f.Reaches b := by
    intro b
    rw [Std.HashMap.contains_ofList, ← hpost.mem_iff]
    simp
  rw [ofPredecessors]
  simp only [hblocks, bind, Except.bind]
  cases hsplit : blocks with
  | nil =>
    rw [hsplit] at hreach
    refine ⟨_, rfl, hreach, fun a b => ?_⟩
    have hnone : ∀ b, ¬f.Reaches b := fun b hb => by simpa using (hreach b).mpr hb
    simp [dominates, isReachable, hnone]
  | cons entry rest =>
    have hentry : f.entryBlock? = some entry := by rw [← hpost.head, hsplit]; rfl
    have s : FlowSearch f preds entry blocks :=
      ⟨hf, hentry, fun a b => Function.mem_getD_predecessorMap hpreds b, hpost⟩
    rw [hsplit] at s hreach
    have hfuel : height (entry :: rest) ⟨.ofList [(entry, entry)], .ofList (entry :: rest).zipIdx⟩ <
        ((entry :: rest).length + 1) * ((entry :: rest).length + 1) := by
      have hle : ∀ (d : Dominators), (∀ b p, d.parent? b = some p → p ∈ entry :: rest) →
          height (entry :: rest) d ≤ (entry :: rest).length * (entry :: rest).length := by
        intro d hd
        refine (List.sum_le_card_nsmul _ (entry :: rest).length ?_).trans (by simp)
        intro n hn
        obtain ⟨b, -, rfl⟩ := List.mem_map.mp hn
        cases hp : d.parent? b with
        | none => simp
        | some p => simpa using (List.idxOf_lt_length_of_mem (hd b p hp)).le
      have hstart := Progress.start s
      have := hle _ fun b p hp => hstart.mem p (hstart.climbs.parent b p hp)
      refine lt_of_le_of_lt this ?_
      exact Nat.mul_lt_mul'' (Nat.lt_succ_self _) (Nat.lt_succ_self _)
    obtain ⟨d, hrounds, hdone, hstable⟩ := rounds_eq_ok s rfl (Progress.start s) hfuel
    have hall : ∀ b ∈ entry :: rest, b ≠ entry → Stable preds d b :=
      fun b hb hne => hstable b ((List.mem_cons.mp hb).resolve_left hne)
    have hreach' : ∀ b, d.isReachable b = true ↔ f.Reaches b := by
      intro b
      rw [isReachable, hdone.order]
      exact hreach b
    refine ⟨d, hrounds, hreach', fun a b => ?_⟩
    rw [dominates, Bool.and_eq_true, Bool.and_eq_true, hreach', hreach', and_assoc]
    refine and_congr_right fun _ => and_congr_right fun hb => ?_
    have hbmem := (s.postorder.mem_iff b).mpr hb
    have hsize := hdone.order_size s
    have hlt := List.idxOf_lt_length_of_mem hbmem
    rw [isAbove_iff hdone.climbs (by omega)]
    exact ⟨hdone.onEveryPath_of_above_stable s hall,
      hdone.above_of_onEveryPath s (hdone.reached b hbmem hlt)⟩

/-- On a function whose live blocks lead to live blocks the search for dominators comes to an end,
the blocks it reaches are those to which a path leads, and one block dominates another one when both
are reached and every path to the second passes through the first. -/
theorem ofFunction_dominates_iff (hf : f.Closed) :
    ∃ d, ofFunction f = .ok d ∧ (∀ b, d.isReachable b = true ↔ f.Reaches b) ∧
      ∀ a b, d.dominates a b = true ↔
        f.Reaches a ∧ f.Reaches b ∧ ∀ trail, f.PathTo b trail → a ∈ trail := by
  obtain ⟨preds, hpreds⟩ := hf.predecessorMap_eq_ok
  obtain ⟨d, hd, hspec⟩ := ofPredecessors_eq_ok hf hpreds
  exact ⟨d, by simp [ofFunction, hpreds, hd, bind, Except.bind], hspec⟩

/-- Two blocks that lead to each other and are both entered from the first one, to which the last
leads back. -/
def crossing : Function where
  name := "crossing"
  params := [.i1]
  ret := .void
  blocks := #[⟨"entry", [], .condBr (.arg 0) ⟨1⟩ ⟨2⟩⟩, ⟨"left", [], .condBr (.arg 0) ⟨2⟩ ⟨2⟩⟩,
    ⟨"right", [], .condBr (.arg 0) ⟨1⟩ ⟨0⟩⟩]
  layout := [⟨0⟩, ⟨1⟩, ⟨2⟩]

theorem crossing_closed : crossing.Closed where
  inArena := by decide
  toLive := by
    intro a ha b hedge
    obtain ⟨succs, hsuccs, hb⟩ := hedge
    simp only [crossing, List.mem_cons, List.not_mem_nil, or_false] at ha
    obtain rfl | rfl | rfl := ha <;> cases hsuccs <;> revert b <;> decide

theorem crossing_dominates_iff : crossing.Closed ∧
    ∃ d, ofFunction crossing = .ok d ∧ (∀ b, d.isReachable b = true ↔ crossing.Reaches b) ∧
      ∀ a b, d.dominates a b = true ↔ crossing.Reaches a ∧ crossing.Reaches b ∧
        ∀ trail, crossing.PathTo b trail → a ∈ trail :=
  ⟨crossing_closed, ofFunction_dominates_iff crossing_closed⟩

end Dominators

end EdgeProbe
