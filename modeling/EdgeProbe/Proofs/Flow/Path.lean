import Mathlib.Data.List.Basic
import EdgeProbe.Flow.Edges
import EdgeProbe.Proofs.Outcome

/-!
# Paths and dominance

The meaning of the flow graph apart from any way to compute with it: `PathTo` are the paths from
the entry, and a block dominates another one when it lies on all paths that lead there. The lists of
predecessors that the library computes are tied to the edges here, edge for edge: how one is put
together from parts of the layout, when two functions have the same one, and when a block has a
single predecessor or a single edge leads there.
-/

namespace EdgeProbe

namespace Function

/-- The flow graph has an edge from one block to another. -/
def Edge (f : Function) (a b : BlockId) : Prop :=
  ∃ succs, f.successors a = .ok succs ∧ b ∈ succs

/-- A path from the entry to a block. The list holds the blocks on it, the last one first. -/
inductive PathTo (f : Function) : BlockId → List BlockId → Prop where
  | entry {e : BlockId} (h : f.entryBlock? = some e) : PathTo f e [e]
  | step {a b : BlockId} {trail : List BlockId} (path : PathTo f a trail) (edge : f.Edge a b) :
    PathTo f b (b :: trail)

/-- Some path leads from the entry to the block. -/
def Reaches (f : Function) (b : BlockId) : Prop :=
  ∃ trail, f.PathTo b trail

/-- Every path from the entry to the second block passes through the first. -/
def OnEveryPath (f : Function) (a b : BlockId) : Prop :=
  ∀ trail, f.PathTo b trail → a ∈ trail

/-- Live blocks stand for something, and their edges lead to live blocks. -/
structure Closed (f : Function) : Prop where
  inArena : ∀ b ∈ f.layout, b.index < f.blocks.size
  toLive : ∀ a ∈ f.layout, ∀ b, f.Edge a b → b ∈ f.layout

variable {f : Function} {a b : BlockId} {trail : List BlockId}

theorem PathTo.mem (h : f.PathTo b trail) : b ∈ trail := by
  cases h with
  | entry h => exact List.mem_singleton.mpr rfl
  | step path edge => exact List.mem_cons_self

theorem Reaches.entry {e : BlockId} (h : f.entryBlock? = some e) : f.Reaches e :=
  ⟨[e], .entry h⟩

theorem Reaches.step (h : f.Reaches a) (edge : f.Edge a b) : f.Reaches b := by
  obtain ⟨trail, path⟩ := h
  exact ⟨b :: trail, .step path edge⟩

/-- What lies on every path to a block, other than the block itself, lies on every path to a source
of an edge into it. -/
theorem OnEveryPath.source {d : BlockId} (h : f.OnEveryPath d b) (hne : d ≠ b)
    (edge : f.Edge a b) : f.OnEveryPath d a := by
  intro trail path
  exact (List.mem_cons.mp (h (b :: trail) (.step path edge))).resolve_left hne

theorem OnEveryPath.eq_entry {d e : BlockId} (he : f.entryBlock? = some e)
    (h : f.OnEveryPath d e) : d = e :=
  List.mem_singleton.mp (h [e] (.entry he))

theorem mem_layout_of_entryBlock? {e : BlockId} (h : f.entryBlock? = some e) : e ∈ f.layout := by
  rw [entryBlock?] at h
  exact List.mem_of_head? h

namespace Closed

theorem mem_layout (hf : f.Closed) (h : f.PathTo b trail) : b ∈ f.layout := by
  induction h with
  | entry h => exact mem_layout_of_entryBlock? h
  | step path edge ih => exact hf.toLive _ ih _ edge

/-- A live block has a list of successors, and its members are where its edges lead. -/
theorem successors_eq_ok (hf : f.Closed) (h : a ∈ f.layout) :
    ∃ succs, f.successors a = .ok succs ∧ ∀ b, b ∈ succs ↔ f.Edge a b := by
  have hlt := hf.inArena a h
  have hb : f.block a = .ok f.blocks[a.index] := by
    simp [block, Array.getElem?_eq_getElem hlt]
  refine ⟨f.blocks[a.index].term.successors, ?_, ?_⟩
  · simp [successors, hb, Except.map]
  · intro b
    simp [Edge, successors, hb, Except.map]

end Closed

theorem edge_iff {succs : List BlockId} (h : f.successors a = .ok succs) :
    f.Edge a b ↔ b ∈ succs := by
  simp [Edge, h]

/-! ## Predecessors -/

theorem getD_addEdges (source target : BlockId) (targets : List BlockId) (found : PredecessorMap) :
    (addEdges source targets found).getD target [] =
      found.getD target [] ++ (targets.filter (· == target)).map fun _ => source := by
  induction targets generalizing found with
  | nil => simp [addEdges]
  | cons next rest ih =>
    have hstep : addEdges source (next :: rest) found =
        addEdges source rest (found.insert next (found.getD next [] ++ [source])) := rfl
    rw [hstep, ih, Std.TreeMap.getD_insert]
    by_cases h : next = target
    · subst h
      simp
    · simp [h]

/-- One walk over some blocks adds to each list of predecessors the sources of the edges into its
block. -/
theorem getD_foldlM_addEdges (blocks : List BlockId) (found map : PredecessorMap)
    (target : BlockId)
    (h : blocks.foldlM (fun found source => do
      return addEdges source (← f.successors source) found) found = .ok map) :
    ∃ sources, f.edgesInto target blocks = .ok sources ∧
      map.getD target [] = found.getD target [] ++ sources := by
  induction blocks generalizing found with
  | nil =>
    obtain rfl : found = map := by simpa [pure, Except.pure] using h
    exact ⟨[], rfl, by simp⟩
  | cons source rest ih =>
    rw [List.foldlM_cons, Checked.bind_eq_ok] at h
    obtain ⟨next, hnext, hrest⟩ := h
    obtain ⟨succs, hsuccs, hadd⟩ := Checked.bind_eq_ok.mp hnext
    obtain rfl := Checked.pure_eq_ok.mp hadd
    obtain ⟨sources, hsources, hmap⟩ := ih _ hrest
    refine ⟨(succs.filter (· == target)).map (fun _ => source) ++ sources, ?_, ?_⟩
    · simp [edgesInto, hsuccs, hsources, bind, Except.bind, pure, Except.pure]
    · rw [hmap, getD_addEdges, List.append_assoc]

/-- The map of predecessors holds for each block the list that is found for it alone. -/
theorem predecessors_eq_getD {map : PredecessorMap} (h : f.predecessorMap = .ok map)
    (target : BlockId) : f.predecessors target = .ok (map.getD target []) := by
  obtain ⟨sources, hsources, hmap⟩ := getD_foldlM_addEdges f.layout ∅ map target h
  rw [predecessors, hsources, hmap]
  simp

theorem mem_edgesInto {blocks sources : List BlockId} {target : BlockId}
    (h : f.edgesInto target blocks = .ok sources) :
    a ∈ sources ↔ a ∈ blocks ∧ f.Edge a target := by
  induction blocks generalizing sources with
  | nil =>
    obtain rfl : [] = sources := by simpa [edgesInto, pure, Except.pure] using h
    simp
  | cons source rest ih =>
    rw [edgesInto] at h
    obtain ⟨succs, hsuccs, h⟩ := Checked.bind_eq_ok.mp h
    obtain ⟨later, hlater, h⟩ := Checked.bind_eq_ok.mp h
    obtain rfl := Checked.pure_eq_ok.mp h
    rw [List.mem_append, ih hlater, List.mem_cons]
    have hhere : a ∈ (succs.filter (· == target)).map (fun _ => source) ↔
        a = source ∧ f.Edge a target := by
      constructor
      · intro ha
        obtain ⟨b, hb, rfl⟩ := List.mem_map.mp ha
        obtain ⟨hb, hbt⟩ := List.mem_filter.mp hb
        exact ⟨rfl, succs, hsuccs, eq_of_beq hbt ▸ hb⟩
      · rintro ⟨rfl, hedge⟩
        exact List.mem_map.mpr ⟨target, by simpa using (edge_iff hsuccs).mp hedge, rfl⟩
    rw [hhere]
    tauto

theorem mem_getD_predecessorMap {map : PredecessorMap} (h : f.predecessorMap = .ok map)
    (target : BlockId) : a ∈ map.getD target [] ↔ a ∈ f.layout ∧ f.Edge a target :=
  mem_edgesInto (predecessors_eq_getD h target)

/-- All predecessors can be told if all live blocks have a place in the arena. -/
theorem exists_predecessorMap (h : ∀ b ∈ f.layout, b.index < f.blocks.size) :
    ∃ map, f.predecessorMap = .ok map := by
  have hfold : ∀ (blocks : List BlockId) (found : PredecessorMap), (∀ b ∈ blocks, b ∈ f.layout) →
      ∃ map, blocks.foldlM (fun found source => do
        return addEdges source (← f.successors source) found) found = Except.ok map := by
    intro blocks
    induction blocks with
    | nil => exact fun found _ => ⟨found, rfl⟩
    | cons source rest ih =>
      intro found hlive
      have hlt : source.index < f.blocks.size := h source (hlive source List.mem_cons_self)
      have hsuccs : f.successors source = .ok f.blocks[source.index].term.successors := by
        simp [successors, block, hlt, Except.map]
      obtain ⟨map, hmap⟩ := ih (addEdges source _ found)
        fun b hb => hlive b (List.mem_cons_of_mem _ hb)
      exact ⟨map, by simpa [hsuccs, bind, Except.bind, pure, Except.pure] using hmap⟩
  exact hfold f.layout ∅ fun b hb => hb

theorem Closed.predecessorMap_eq_ok (hf : f.Closed) : ∃ map, f.predecessorMap = .ok map :=
  exists_predecessorMap hf.inArena

end Function

end EdgeProbe

/-!
## Paths of functions that were rewritten

When the blocks of a rewritten function stand for blocks of the one from before, and its edges for
edges or for steps inside of what was one block, its paths stand for paths. What lies on every path
of the function from before is then met by every path of the rewritten one.
-/

namespace EdgeProbe

namespace Function

variable {f f' : Function} {a b x : BlockId} {trail : List BlockId}

/-- With fewer ways to go there are fewer paths. -/
theorem PathTo.mono (hentry : ∀ e, f'.entryBlock? = some e → f.entryBlock? = some e)
    (hedge : ∀ a b, f'.Edge a b → f.Edge a b) (h : f'.PathTo b trail) : f.PathTo b trail := by
  induction h with
  | entry he => exact .entry (hentry _ he)
  | step _ edge ih => exact ih.step (hedge _ _ edge)

/-- A path to a block leads to each block on it first. -/
theorem PathTo.exists_of_mem (h : f.PathTo b trail) (hx : x ∈ trail) :
    ∃ trail', f.PathTo x trail' ∧ trail' ⊆ trail := by
  induction h with
  | @entry e he =>
    obtain rfl := List.mem_singleton.mp hx
    exact ⟨[x], .entry he, List.Subset.refl _⟩
  | @step a b trail path edge ih =>
    obtain rfl | hx := List.mem_cons.mp hx
    · exact ⟨_, path.step edge, List.Subset.refl _⟩
    · obtain ⟨trail', path', hsub⟩ := ih hx
      exact ⟨trail', path', List.subset_cons_of_subset _ hsub⟩

theorem OnEveryPath.reaches (h : f.OnEveryPath a b) (hb : f.Reaches b) : f.Reaches a := by
  obtain ⟨trail, path⟩ := hb
  obtain ⟨trail', path', -⟩ := path.exists_of_mem (h trail path)
  exact ⟨trail', path'⟩

theorem OnEveryPath.mem (h : f.OnEveryPath a x) (path : f.PathTo b trail) (hx : x ∈ trail) :
    a ∈ trail := by
  obtain ⟨trail', path', hsub⟩ := path.exists_of_mem hx
  exact hsub (h trail' path')

/-- A block that is no entry and that is entered from one block only has that on every path. -/
theorem onEveryPath_of_sole (hentry : f.entryBlock? ≠ some b) (hsole : ∀ x, f.Edge x b → x = a) :
    f.OnEveryPath a b := by
  intro trail path
  cases path with
  | entry he => exact absurd he hentry
  | step path edge =>
    obtain rfl := hsole _ edge
    exact List.mem_cons_of_mem _ path.mem

/-- Each live block of the rewritten function stands for a block of the other one, and edges for
edges or for steps inside of a block. -/
structure Projects (f f' : Function) (origin : BlockId → BlockId) : Prop where
  entry : ∀ e, f'.entryBlock? = some e → f.entryBlock? = some (origin e)
  edge : ∀ a ∈ f'.layout, ∀ b, f'.Edge a b → origin a = origin b ∨ f.Edge (origin a) (origin b)

variable {origin : BlockId → BlockId}

/-- A path stands for one that meets only blocks that blocks on it stand for. -/
theorem Projects.pathTo (h : f.Projects f' origin) (hf' : f'.Closed) (path : f'.PathTo b trail) :
    ∃ trail₀, f.PathTo (origin b) trail₀ ∧ ∀ x ∈ trail₀, ∃ x' ∈ trail, origin x' = x := by
  induction path with
  | @entry e he => exact ⟨[origin e], .entry (h.entry e he), by simp⟩
  | @step a b trail path edge ih =>
    obtain ⟨trail₀, path₀, hmeets⟩ := ih
    have hmeets' : ∀ x ∈ trail₀, ∃ x' ∈ b :: trail, origin x' = x := fun x hx => by
      obtain ⟨x', hx', heq⟩ := hmeets x hx
      exact ⟨x', List.mem_cons_of_mem _ hx', heq⟩
    obtain hsame | hedge := h.edge a (hf'.mem_layout path) b edge
    · exact ⟨trail₀, hsame ▸ path₀, hmeets'⟩
    · refine ⟨origin b :: trail₀, path₀.step hedge, ?_⟩
      exact List.forall_mem_cons.mpr ⟨⟨b, List.mem_cons_self, rfl⟩, hmeets'⟩

theorem Projects.reaches (h : f.Projects f' origin) (hf' : f'.Closed) (hb : f'.Reaches b) :
    f.Reaches (origin b) := by
  obtain ⟨trail, path⟩ := hb
  obtain ⟨trail₀, path₀, -⟩ := h.pathTo hf' path
  exact ⟨trail₀, path₀⟩

end Function

end EdgeProbe

/-! ## Where edges come from -/

namespace EdgeProbe

namespace Function

variable {f f' : Function} {target source : BlockId} {blocks front back sources : List BlockId}

theorem edgesInto_cons {succs : List BlockId} (hsuccs : f.successors source = .ok succs)
    (h : f.edgesInto target blocks = .ok sources) :
    f.edgesInto target (source :: blocks) =
      .ok (List.replicate (succs.count target) source ++ sources) := by
  have hhere : (succs.filter (· == target)).map (fun _ => source) =
      List.replicate (succs.count target) source := by
    rw [List.map_const', List.count_eq_length_filter]
  rw [edgesInto, hsuccs, h, ← hhere]
  rfl

/-- The edges out of the first of several blocks come first. -/
theorem edgesInto_cons_eq_ok (h : f.edgesInto target (source :: blocks) = .ok sources) :
    ∃ succs rest, f.successors source = .ok succs ∧ f.edgesInto target blocks = .ok rest ∧
      sources = List.replicate (succs.count target) source ++ rest := by
  obtain ⟨succs, hsuccs, hrest⟩ := Checked.bind_eq_ok.mp h
  obtain ⟨rest, hrest, -⟩ := Checked.bind_eq_ok.mp hrest
  exact ⟨succs, rest, hsuccs, hrest, Except.ok.inj (h.symm.trans (edgesInto_cons hsuccs hrest))⟩

theorem edgesInto_append {frontSources backSources : List BlockId}
    (hfront : f.edgesInto target front = .ok frontSources)
    (hback : f.edgesInto target back = .ok backSources) :
    f.edgesInto target (front ++ back) = .ok (frontSources ++ backSources) := by
  induction front generalizing frontSources with
  | nil =>
    obtain rfl := Checked.pure_eq_ok.mp hfront
    exact hback
  | cons first rest ih =>
    obtain ⟨succs, restSources, hsuccs, hrest, rfl⟩ := edgesInto_cons_eq_ok hfront
    rw [List.cons_append, edgesInto_cons hsuccs (ih hrest), List.append_assoc]

theorem edgesInto_append_eq_ok (h : f.edgesInto target (front ++ back) = .ok sources) :
    ∃ frontSources backSources, f.edgesInto target front = .ok frontSources ∧
      f.edgesInto target back = .ok backSources ∧ sources = frontSources ++ backSources := by
  induction front generalizing sources with
  | nil => exact ⟨[], sources, rfl, h, rfl⟩
  | cons first rest ih =>
    obtain ⟨succs, restSources, hsuccs, hrest, rfl⟩ := edgesInto_cons_eq_ok h
    obtain ⟨frontSources, backSources, hfront, hback, rfl⟩ := ih hrest
    exact ⟨_, backSources, edgesInto_cons hsuccs hfront, hback, (List.append_assoc ..).symm⟩

/-- Blocks that lead to the target as often in another function have the same edges into it. -/
theorem edgesInto_congr
    (hsame : ∀ b ∈ blocks, ∀ succs, f.successors b = .ok succs →
      ∃ succs', f'.successors b = .ok succs' ∧ succs'.count target = succs.count target)
    (h : f.edgesInto target blocks = .ok sources) : f'.edgesInto target blocks = .ok sources := by
  induction blocks generalizing sources with
  | nil => exact h
  | cons b rest ih =>
    obtain ⟨hb, hrest⟩ := List.forall_mem_cons.mp hsame
    obtain ⟨succs, restSources, hsuccs, hlater, rfl⟩ := edgesInto_cons_eq_ok h
    obtain ⟨succs', hsuccs', hcount⟩ := hb succs hsuccs
    rw [edgesInto_cons hsuccs' (ih hrest hlater), hcount]

/-- The edges into a block can be told if all blocks have a place in the arena. -/
theorem exists_edgesInto (target : BlockId) (h : ∀ b ∈ blocks, b.index < f.blocks.size) :
    ∃ sources, f.edgesInto target blocks = .ok sources := by
  induction blocks with
  | nil => exact ⟨[], rfl⟩
  | cons b rest ih =>
    obtain ⟨hb, hrest⟩ := List.forall_mem_cons.mp h
    obtain ⟨sources, hsources⟩ := ih hrest
    have hsuccs : f.successors b = .ok f.blocks[b.index].term.successors := by
      simp [successors, block, hb, Except.map]
    exact ⟨_, edgesInto_cons hsuccs hsources⟩

/-- Different blocks each of which leads to the target at most once are different sources. -/
theorem nodup_edgesInto (hblocks : blocks.Nodup)
    (hcount : ∀ b ∈ blocks, ∀ succs, f.successors b = .ok succs → succs.count target ≤ 1)
    (h : f.edgesInto target blocks = .ok sources) : sources.Nodup := by
  induction blocks generalizing sources with
  | nil =>
    obtain rfl := Checked.pure_eq_ok.mp h
    exact .nil
  | cons b rest ih =>
    obtain ⟨hb, hnodup⟩ := List.nodup_cons.mp hblocks
    obtain ⟨hfirst, hrest⟩ := List.forall_mem_cons.mp hcount
    obtain ⟨succs, restSources, hsuccs, hlater, rfl⟩ := edgesInto_cons_eq_ok h
    refine List.nodup_append.mpr ⟨List.nodup_replicate.mpr (hfirst succs hsuccs),
      ih hnodup hrest hlater, ?_⟩
    rintro a ha a' ha' rfl
    obtain rfl := List.eq_of_mem_replicate ha
    exact hb ((mem_edgesInto hlater).mp ha').1

/-- A block is listed as a source once for each of its edges into the target. -/
theorem count_edgesInto (hblocks : blocks.Nodup) {b : BlockId} (hb : b ∈ blocks)
    {succs : List BlockId} (hsuccs : f.successors b = .ok succs)
    (h : f.edgesInto target blocks = .ok sources) : sources.count b = succs.count target := by
  induction blocks generalizing sources with
  | nil => cases hb
  | cons first rest ih =>
    obtain ⟨hnot, hnodup⟩ := List.nodup_cons.mp hblocks
    obtain ⟨firstSuccs, restSources, hfirst, hlater, rfl⟩ := edgesInto_cons_eq_ok h
    rw [List.count_append, List.count_replicate]
    obtain rfl | hb := List.mem_cons.mp hb
    · obtain rfl := Except.ok.inj (hsuccs.symm.trans hfirst)
      have hnone : restSources.count b = 0 :=
        List.count_eq_zero.mpr fun hmem => hnot ((mem_edgesInto hlater).mp hmem).1
      simp [hnone]
    · have hne : first ≠ b := fun heq => hnot (heq ▸ hb)
      simp [hne, ih hnodup hb hlater]

/-- Of a block that has a single edge into it the edge is the only one that leads there. -/
theorem eq_of_predecessors_singleton (hlayout : f.layout.Nodup)
    (h : f.predecessors target = .ok [source]) {b : BlockId} (hb : b ∈ f.layout)
    {succs sourceSuccs : List BlockId} (hsuccs : f.successors b = .ok succs)
    (hsource : f.successors source = .ok sourceSuccs) {j index : Nat}
    (hj : succs[j]? = some target) (hindex : sourceSuccs[index]? = some target) :
    b = source ∧ j = index := by
  obtain rfl : b = source := List.mem_singleton.mp
    ((mem_edgesInto h).mpr ⟨hb, succs, hsuccs, List.mem_of_getElem? hj⟩)
  obtain rfl := Except.ok.inj (hsuccs.symm.trans hsource)
  have hone : succs.count target = 1 := by
    rw [← count_edgesInto hlayout hb hsuccs h]
    simp
  refine ⟨rfl, ?_⟩
  by_contra hne
  have hdup : succs.Duplicate target := by
    rw [List.duplicate_iff_exists_distinct_get]
    obtain ⟨hlt, hget⟩ := List.getElem?_eq_some_iff.mp hj
    obtain ⟨hlt', hget'⟩ := List.getElem?_eq_some_iff.mp hindex
    obtain hbefore | hbefore := Nat.lt_or_gt_of_ne hne
    · exact ⟨⟨j, hlt⟩, ⟨index, hlt'⟩, hbefore, hget.symm, hget'.symm⟩
    · exact ⟨⟨index, hlt'⟩, ⟨j, hlt⟩, hbefore, hget'.symm, hget.symm⟩
  have := List.duplicate_iff_two_le_count.mp hdup
  omega

/-- An edge out of a live block is the only live edge into its target. -/
structure SoleEdge (f : Function) (source : BlockId) (index : Nat) (target : BlockId) : Prop where
  live : source ∈ f.layout
  leads : ∃ succs, f.successors source = .ok succs ∧ succs[index]? = some target
  only : ∀ b ∈ f.layout, ∀ succs j, f.successors b = .ok succs → succs[j]? = some target →
    b = source ∧ j = index

/-- What stands in one place of a list only stands there once. -/
theorem count_le_one_of_index {index : Nat}
    (h : ∀ j, sources[j]? = some target → j = index) : sources.count target ≤ 1 := by
  by_contra hlt
  obtain ⟨i, j, hij, hi, hj⟩ := List.duplicate_iff_exists_distinct_get.mp
    (List.duplicate_iff_two_le_count.mpr (Nat.lt_of_not_le hlt))
  have hi' := h i (hi ▸ List.getElem?_eq_getElem i.isLt)
  have hj' := h j (hj ▸ List.getElem?_eq_getElem j.isLt)
  exact hij.ne (Fin.ext (hi'.trans hj'.symm))

theorem SoleEdge.predecessors_eq {index : Nat} (h : f.SoleEdge source index target)
    (hlayout : f.layout.Nodup) (harena : ∀ b ∈ f.layout, b.index < f.blocks.size) :
    f.predecessors target = .ok [source] := by
  obtain ⟨sources, hsources⟩ := exists_edgesInto target harena
  obtain ⟨succs, hsuccs, hindex⟩ := h.leads
  have hnodup : sources.Nodup := nodup_edgesInto hlayout (fun b hb others hothers =>
    count_le_one_of_index fun j hj => (h.only b hb others j hothers hj).2) hsources
  have hmem : ∀ b, b ∈ sources ↔ b = source := by
    intro b
    constructor
    · intro hb
      obtain ⟨hlive, others, hothers, hb⟩ := (mem_edgesInto hsources).mp hb
      obtain ⟨j, hj⟩ := List.getElem?_of_mem hb
      exact (h.only b hlive others j hothers hj).1
    · rintro rfl
      exact (mem_edgesInto hsources).mpr ⟨h.live, succs, hsuccs, List.mem_of_getElem? hindex⟩
  have hperm : sources.Perm [source] :=
    (List.perm_ext_iff_of_nodup hnodup (List.nodup_singleton _)).mpr fun b => by simp [hmem]
  rw [predecessors, hsources, List.perm_singleton.mp hperm]

/-- Of a block with one predecessor the edge from there is the only one. -/
theorem soleEdge_of_predecessors {index : Nat} {succs : List BlockId} (hlayout : f.layout.Nodup)
    (h : f.predecessors target = .ok [source]) (hsuccs : f.successors source = .ok succs)
    (hindex : succs[index]? = some target) : f.SoleEdge source index target where
  live := ((mem_edgesInto h).mp (List.mem_singleton_self source)).1
  leads := ⟨succs, hsuccs, hindex⟩
  only := fun _ hb _ _ hothers hj =>
    eq_of_predecessors_singleton hlayout h hb hothers hsuccs hj hindex

/-- The only member of a list. -/
def onlyMember? : List BlockId → Option BlockId
  | [b] => some b
  | _ => none

theorem onlyMember?_eq_some {b : BlockId} : onlyMember? sources = some b ↔ sources = [b] := by
  match sources with
  | [] => simp [onlyMember?]
  | [a] => simp [onlyMember?]
  | a :: a' :: rest => simp [onlyMember?]

theorem soleEdgeInto_eq (h : f.edgesInto target blocks = .ok sources) (found : Option BlockId) :
    f.soleEdgeInto target found blocks = .ok (onlyMember? (found.toList ++ sources)) := by
  induction blocks generalizing found sources with
  | nil =>
    obtain rfl := Checked.pure_eq_ok.mp h
    cases found <;> rfl
  | cons b rest ih =>
    obtain ⟨succs, restSources, hsuccs, hrest, rfl⟩ := edgesInto_cons_eq_ok h
    rw [soleEdgeInto, hsuccs]
    simp only [bind, Except.bind]
    rcases succs.count target with _ | _ | n
    · exact ih hrest found
    · cases found with
      | none => exact ih hrest (some b)
      | some a => rfl
    · cases found <;> rfl

theorem singlePredecessor?_eq (h : f.predecessors target = .ok sources) :
    f.singlePredecessor? target = .ok (onlyMember? sources) :=
  soleEdgeInto_eq h none

/-- A block with a single predecessor has one edge into it, from there. -/
theorem singlePredecessor?_eq_some (h : f.predecessors target = .ok sources) :
    f.singlePredecessor? target = .ok (some source) ↔ sources = [source] := by
  rw [singlePredecessor?_eq h, Except.ok.injEq, onlyMember?_eq_some]

end Function

end EdgeProbe
