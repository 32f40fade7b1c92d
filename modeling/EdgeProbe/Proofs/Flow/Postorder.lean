import EdgeProbe.Flow.Dominators
import EdgeProbe.Proofs.Flow.Path

/-!
# The depth-first walk

`reversePostorder` lists each block that can be reached once, the entry first, and every other block
after one of the sources of the edges into it. The walk is followed by an invariant (`Walking`) over
its stack; a measure shows that it is never cut short.
-/

namespace EdgeProbe

/-- A list of the blocks that can be reached in which each block but the entry follows the source of
an edge into it. -/
structure Postorder (f : Function) (blocks : List BlockId) : Prop where
  nodup : blocks.Nodup
  mem_iff : ∀ b, b ∈ blocks ↔ f.Reaches b
  head : blocks.head? = f.entryBlock?
  source : ∀ before b after, blocks = before ++ b :: after → before ≠ [] →
    ∃ a ∈ before, f.Edge a b

namespace Function

variable {f : Function}

/-- The state of a walk from `entry`. The blocks on the stack lead to each other, the edges out of
finished blocks have all been followed, and each finished block has a source that finishes later. -/
structure Walking (f : Function) (entry : BlockId) (stack : List Visit)
    (found : Std.HashMap BlockId Unit) (done : List BlockId) : Prop where
  nodup : (stack.map Visit.block ++ done).Nodup
  mem_found : ∀ b, b ∈ found ↔ b ∈ stack.map Visit.block ∨ b ∈ done
  reaches : ∀ b ∈ found, f.Reaches b
  pending : ∀ v ∈ stack, ∀ b, f.Edge v.block b → b ∈ found ∨ b ∈ v.pending
  edge : ∀ v ∈ stack, ∀ b ∈ v.pending, f.Edge v.block b
  closed : ∀ a ∈ done, ∀ b, f.Edge a b → b ∈ found
  linked : stack.IsChain fun inner outer => f.Edge outer.block inner.block
  bottom : ∀ v, stack.getLast? = some v → v.block = entry
  source : ∀ before b after, done = before ++ b :: after → b ≠ entry →
    ∃ a, f.Edge a b ∧ (a ∈ stack.map Visit.block ∨ a ∈ before)
  top : stack = [] → done.head? = some entry

namespace Walking

variable {entry block succ : BlockId} {pending : List BlockId} {outer : List Visit}
  {found : Std.HashMap BlockId Unit} {done : List BlockId}

theorem start {succs : List BlockId} (hentry : f.entryBlock? = some entry)
    (hsuccs : f.successors entry = .ok succs) :
    Walking f entry [⟨entry, succs⟩] (.ofList [(entry, ())]) [] where
  nodup := by simp
  mem_found b := by
    rw [Std.HashMap.mem_ofList]
    simp
  reaches b hb := by
    obtain rfl : entry = b := by simpa using hb
    exact .entry hentry
  pending v hv b hedge := by
    obtain rfl := List.mem_singleton.mp hv
    exact Or.inr ((edge_iff hsuccs).mp hedge)
  edge v hv b hb := by
    obtain rfl := List.mem_singleton.mp hv
    exact (edge_iff hsuccs).mpr hb
  closed a ha := by simp at ha
  linked := List.isChain_singleton _
  bottom v hv := by
    obtain rfl : Visit.mk entry succs = v := by simpa using hv
    rfl
  source before b after h := by simp at h
  top h := by simp at h

/-- Leaving a block whose successors have all been visited. -/
theorem leave (h : Walking f entry (⟨block, []⟩ :: outer) found done) :
    Walking f entry outer found (block :: done) where
  nodup := by
    have hnodup := h.nodup
    rw [List.map_cons, List.cons_append] at hnodup
    exact List.perm_middle.nodup_iff.mpr hnodup
  mem_found b := by
    rw [h.mem_found, List.map_cons, List.mem_cons, List.mem_cons]
    tauto
  reaches := h.reaches
  pending v hv := h.pending v (List.mem_cons_of_mem _ hv)
  edge v hv := h.edge v (List.mem_cons_of_mem _ hv)
  closed a ha b hedge := by
    rcases List.mem_cons.mp ha with rfl | ha
    · have hb := h.pending ⟨a, []⟩ List.mem_cons_self b hedge
      exact hb.resolve_right (List.not_mem_nil)
    · exact h.closed a ha b hedge
  linked := h.linked.of_cons
  bottom v hv := by
    apply h.bottom v
    rw [List.getLast?_cons]
    simp [hv]
  source before b after hdone hne := by
    cases before with
    | nil =>
      obtain ⟨rfl, rfl⟩ : block = b ∧ done = after := by simpa using hdone
      cases outer with
      | nil => exact absurd (h.bottom ⟨block, []⟩ rfl) hne
      | cons v rest =>
        have hlinked := (List.isChain_cons_cons.mp h.linked).1
        exact ⟨v.block, hlinked, Or.inl (by simp)⟩
    | cons first before =>
      obtain ⟨rfl, rfl⟩ : block = first ∧ done = before ++ b :: after := by simpa using hdone
      obtain ⟨a, hedge, ha⟩ := h.source before b after rfl hne
      refine ⟨a, hedge, ?_⟩
      rw [List.map_cons, List.mem_cons] at ha
      rw [List.mem_cons]
      tauto
  top hnil := by
    subst hnil
    rw [List.head?_cons, ← h.bottom ⟨block, []⟩ rfl]

/-- Passing an edge to a block that has been found before. -/
theorem skip (h : Walking f entry (⟨block, succ :: pending⟩ :: outer) found done)
    (hsucc : succ ∈ found) : Walking f entry (⟨block, pending⟩ :: outer) found done where
  nodup := h.nodup
  mem_found := h.mem_found
  reaches := h.reaches
  pending v hv b hedge := by
    rcases List.mem_cons.mp hv with rfl | hv
    · rcases h.pending ⟨block, succ :: pending⟩ List.mem_cons_self b hedge with hb | hb
      · exact Or.inl hb
      · rcases List.mem_cons.mp hb with rfl | hb
        · exact Or.inl hsucc
        · exact Or.inr hb
    · exact h.pending v (List.mem_cons_of_mem _ hv) b hedge
  edge v hv b hb := by
    rcases List.mem_cons.mp hv with rfl | hv
    · exact h.edge ⟨block, succ :: pending⟩ List.mem_cons_self b (List.mem_cons_of_mem _ hb)
    · exact h.edge v (List.mem_cons_of_mem _ hv) b hb
  closed := h.closed
  linked := by
    have hlinked := h.linked
    cases outer with
    | nil => exact List.isChain_singleton _
    | cons v rest =>
      rw [List.isChain_cons_cons] at hlinked ⊢
      exact hlinked
  bottom v hv := by
    cases outer with
    | nil =>
      obtain rfl : Visit.mk block pending = v := by simpa using hv
      exact h.bottom ⟨block, succ :: pending⟩ rfl
    | cons u rest =>
      apply h.bottom v
      rw [List.getLast?_cons_cons] at hv ⊢
      exact hv
  source := h.source
  top hnil := by simp at hnil

/-- Following an edge to a block that is found by it. -/
theorem descend {succs : List BlockId}
    (h : Walking f entry (⟨block, succ :: pending⟩ :: outer) found done)
    (hsuccs : f.successors succ = .ok succs) (hnew : succ ∉ found) :
    Walking f entry (⟨succ, succs⟩ :: ⟨block, pending⟩ :: outer) (found.insert succ ()) done := by
  have hedge := h.edge ⟨block, succ :: pending⟩ List.mem_cons_self succ List.mem_cons_self
  have hblock : block ∈ found := (h.mem_found block).mpr (Or.inl (by simp))
  have hmem : ∀ b, b ∈ found → b ∈ found.insert succ () := fun b hb => by simp [hb]
  refine
    { nodup := ?nodup, mem_found := ?mem_found, reaches := ?reaches, pending := ?pending,
      edge := ?edge, closed := ?closed, linked := ?linked, bottom := ?bottom, source := ?source,
      top := ?top }
  case nodup =>
    have hout : succ ∉ (⟨block, pending⟩ :: outer : List Visit).map Visit.block ++ done := by
      intro hin
      exact hnew ((h.mem_found succ).mpr (List.mem_append.mp hin))
    exact List.nodup_cons.mpr ⟨hout, h.nodup⟩
  case mem_found =>
    intro b
    rw [Std.HashMap.mem_insert, h.mem_found]
    simp only [List.map_cons, List.mem_cons, beq_iff_eq]
    tauto
  case reaches =>
    intro b hb
    rcases Std.HashMap.mem_insert.mp hb with hb | hb
    · rw [← eq_of_beq hb]
      exact (h.reaches block hblock).step hedge
    · exact h.reaches b hb
  case pending =>
    intro v hv b hb
    rcases List.mem_cons.mp hv with rfl | hv
    · exact Or.inr ((edge_iff hsuccs).mp hb)
    · rcases List.mem_cons.mp hv with rfl | hv
      · rcases h.pending ⟨block, succ :: pending⟩ List.mem_cons_self b hb with hb | hb
        · exact Or.inl (hmem b hb)
        · rcases List.mem_cons.mp hb with rfl | hb
          · exact Or.inl (by simp)
          · exact Or.inr hb
      · exact (h.pending v (List.mem_cons_of_mem _ hv) b hb).imp_left (hmem b)
  case edge =>
    intro v hv b hb
    rcases List.mem_cons.mp hv with rfl | hv
    · exact (edge_iff hsuccs).mpr hb
    · rcases List.mem_cons.mp hv with rfl | hv
      · exact h.edge ⟨block, succ :: pending⟩ List.mem_cons_self b (List.mem_cons_of_mem _ hb)
      · exact h.edge v (List.mem_cons_of_mem _ hv) b hb
  case closed => exact fun a ha b hb => hmem b (h.closed a ha b hb)
  case linked =>
    have hlinked := h.linked
    refine List.isChain_cons_cons.mpr ⟨hedge, ?_⟩
    cases outer with
    | nil => exact List.isChain_singleton _
    | cons v rest =>
      rw [List.isChain_cons_cons] at hlinked ⊢
      exact hlinked
  case bottom =>
    intro v hv
    rw [List.getLast?_cons_cons] at hv
    cases outer with
    | nil =>
      obtain rfl : Visit.mk block pending = v := by simpa using hv
      exact h.bottom ⟨block, succ :: pending⟩ rfl
    | cons u rest =>
      apply h.bottom v
      rw [List.getLast?_cons_cons] at hv ⊢
      exact hv
  case source =>
    intro before b after hdone hne
    obtain ⟨a, ha, hin⟩ := h.source before b after hdone hne
    refine ⟨a, ha, hin.imp_left fun hin => ?_⟩
    rw [List.map_cons, List.mem_cons]
    exact Or.inr hin
  case top =>
    intro hnil
    simp at hnil

/-- When the stack is empty, the finished blocks are all that can be reached. -/
theorem postorder (h : Walking f entry [] found done) (hentry : f.entryBlock? = some entry) :
    Postorder f done where
  nodup := h.nodup
  mem_iff b := by
    have hmem : ∀ b, b ∈ found ↔ b ∈ done := fun b => by simp [h.mem_found b]
    constructor
    · exact fun hb => h.reaches b ((hmem b).mpr hb)
    · rintro ⟨trail, path⟩
      induction path with
      | entry he =>
        obtain rfl : entry = _ := Option.some.inj (hentry.symm.trans he)
        exact List.mem_of_head? (h.top rfl)
      | step path edge ih => exact (hmem _).mp (h.closed _ ih _ edge)
  head := (h.top rfl).trans hentry.symm
  source before b after hdone hne := by
    have hb : b ≠ entry := by
      rintro rfl
      cases before with
      | nil => exact hne rfl
      | cons first before =>
        obtain rfl : first = b := by simpa [hdone] using h.top rfl
        have hnodup := h.nodup
        simp [hdone] at hnodup
    obtain ⟨a, hedge, ha⟩ := h.source before b after hdone hb
    exact ⟨a, ha.resolve_left (by simp), hedge⟩

end Walking

/-! ## The walk is never cut short -/

/-- What a block adds to the length of a walk: it is left once and each of its edges is looked at
once. -/
def walkWeight (f : Function) (index : Nat) : Nat :=
  ((f.blocks[index]?).map fun b => 1 + b.term.successors.length).getD 0

/-- The blocks of the arena that a walk has not found yet. -/
def unfound (f : Function) (found : Std.HashMap BlockId Unit) : Finset Nat :=
  (Finset.range f.blocks.size).filter fun i => BlockId.mk i ∉ found

/-- How many steps are left in a walk. -/
def walkLeft (f : Function) (stack : List Visit) (found : Std.HashMap BlockId Unit) : Nat :=
  (stack.map fun v => 1 + v.pending.length).sum + ∑ i ∈ f.unfound found, f.walkWeight i

theorem walkBound_eq_sum (f : Function) :
    f.walkBound = ∑ i ∈ Finset.range f.blocks.size, f.walkWeight i := by
  have hfold : ∀ (blocks : List Block) (n : Nat),
      blocks.foldl (fun n b => n + 1 + b.term.successors.length) n = n +
        ∑ i ∈ Finset.range blocks.length,
          ((blocks[i]?).map fun b => 1 + b.term.successors.length).getD 0 := by
    intro blocks
    induction blocks with
    | nil => simp
    | cons b rest ih =>
      intro n
      rw [List.foldl_cons, ih, List.length_cons, Finset.sum_range_succ']
      simp only [List.getElem?_cons_succ, List.getElem?_cons_zero, Option.map_some,
        Option.getD_some]
      omega
  rw [walkBound, ← Array.foldl_toList, hfold, Nat.zero_add]
  simp [walkWeight]

theorem walkWeight_of_successors {a : BlockId} {succs : List BlockId}
    (h : f.successors a = .ok succs) :
    a.index < f.blocks.size ∧ f.walkWeight a.index = 1 + succs.length := by
  rw [successors, block] at h
  cases hb : f.blocks[a.index]? with
  | none => simp [hb, Except.map] at h
  | some b =>
    have hlt := (Array.getElem?_eq_some_iff.mp hb).1
    obtain rfl : b.term.successors = succs := by simpa [hb, Except.map] using h
    exact ⟨hlt, by simp [walkWeight, hb]⟩

theorem sum_unfound_insert {a : BlockId} {succs : List BlockId}
    {found : Std.HashMap BlockId Unit} (h : f.successors a = .ok succs) (hnew : a ∉ found) :
    1 + succs.length + ∑ i ∈ f.unfound (found.insert a ()), f.walkWeight i =
      ∑ i ∈ f.unfound found, f.walkWeight i := by
  obtain ⟨hlt, hweight⟩ := walkWeight_of_successors h
  have hmem : a.index ∈ f.unfound found := by
    rw [unfound, Finset.mem_filter, Finset.mem_range]
    exact ⟨hlt, hnew⟩
  have herase : f.unfound (found.insert a ()) = (f.unfound found).erase a.index := by
    ext i
    have hidx : a = ⟨i⟩ ↔ a.index = i := by
      cases a
      simp
    simp only [unfound, Finset.mem_filter, Finset.mem_erase, Std.HashMap.mem_insert, beq_iff_eq,
      hidx]
    tauto
  rw [herase, ← hweight]
  exact Finset.add_sum_erase _ _ hmem

/-- A walk that has as many steps as it needs lists all blocks that can be reached. -/
theorem Walking.walk_eq_ok {entry : BlockId} (hf : f.Closed) (hentry : f.entryBlock? = some entry)
    {fuel : Nat} {stack : List Visit} {found : Std.HashMap BlockId Unit} {done : List BlockId}
    (h : Walking f entry stack found done) (hfuel : f.walkLeft stack found ≤ fuel) :
    ∃ blocks, f.walk fuel stack found done = .ok blocks ∧ Postorder f blocks := by
  induction fuel generalizing stack found done with
  | zero =>
    cases stack with
    | nil => exact ⟨done, rfl, h.postorder hentry⟩
    | cons v rest =>
      rw [walkLeft, List.map_cons, List.sum_cons] at hfuel
      omega
  | succ fuel ih =>
    match stack with
    | [] => exact ⟨done, rfl, h.postorder hentry⟩
    | ⟨block, []⟩ :: outer =>
      apply ih h.leave
      rw [walkLeft, List.map_cons, List.sum_cons, List.length_nil] at hfuel
      rw [walkLeft]
      omega
    | ⟨block, succ :: pending⟩ :: outer =>
      rw [walkLeft, List.map_cons, List.sum_cons, List.length_cons] at hfuel
      rw [walk]
      by_cases hfound : succ ∈ found
      · rw [if_pos (Std.HashMap.contains_iff_mem.mpr hfound)]
        apply ih (h.skip hfound)
        rw [walkLeft, List.map_cons, List.sum_cons]
        dsimp only
        omega
      · rw [if_neg (fun hc => hfound (Std.HashMap.contains_iff_mem.mp hc))]
        have hedge := h.edge ⟨block, succ :: pending⟩ List.mem_cons_self succ List.mem_cons_self
        obtain ⟨trail, path⟩ := (h.reaches block ((h.mem_found block).mpr (Or.inl (by simp)))).step hedge
        obtain ⟨succs, hsuccs, -⟩ := hf.successors_eq_ok (hf.mem_layout path)
        have hsum := sum_unfound_insert hsuccs hfound
        obtain ⟨blocks, hwalk, hpost⟩ := ih (h.descend hsuccs hfound) (by
          rw [walkLeft, List.map_cons, List.map_cons, List.sum_cons, List.sum_cons]
          dsimp only
          omega)
        exact ⟨blocks, by simp [hsuccs, bind, Except.bind, hwalk], hpost⟩

/-- The blocks of a function whose live part is closed are listed in reverse postorder. -/
theorem Closed.reversePostorder_eq_ok (hf : f.Closed) :
    ∃ blocks, f.reversePostorder = .ok blocks ∧ Postorder f blocks := by
  rw [reversePostorder]
  cases hentry : f.entryBlock? with
  | none =>
    refine ⟨[], rfl, ?_⟩
    refine ⟨List.nodup_nil, fun b => ?_, hentry.symm, fun before b after h => by simp at h⟩
    constructor
    · exact fun hb => absurd hb List.not_mem_nil
    · rintro ⟨trail, path⟩
      induction path with
      | entry he => simp [hentry] at he
      | step path edge ih => exact absurd ih List.not_mem_nil
  | some entry =>
    obtain ⟨succs, hsuccs, -⟩ := hf.successors_eq_ok (mem_layout_of_entryBlock? hentry)
    have hfuel : f.walkLeft [⟨entry, succs⟩] (.ofList [(entry, ())]) ≤ f.walkBound := by
      have hsum : _ = ∑ i ∈ f.unfound ∅, f.walkWeight i := sum_unfound_insert hsuccs (by simp)
      have hall : f.unfound ∅ = Finset.range f.blocks.size := by simp [unfound]
      rw [walkBound_eq_sum, ← hall, ← hsum, walkLeft]
      exact le_of_eq (by simp)
    obtain ⟨blocks, hwalk, hpost⟩ := (Walking.start hentry hsuccs).walk_eq_ok hf hentry hfuel
    exact ⟨blocks, by simpa [hsuccs, bind, Except.bind] using hwalk, hpost⟩

end Function

end EdgeProbe
