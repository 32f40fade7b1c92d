import EdgeProbe.Proofs.Code.Whole
import EdgeProbe.Proofs.Flow.Path

/-!
# What is asked of the flow graph

Three walks over the layout tell who leads to a block: one collects the sources of the edges into
it, one collects those of all blocks at once, and one looks for a sole source and stops at a second
one. All of them say what the list of live edges says, in its order and with an entry for each edge,
whether or not blocks are listed twice or lead out of the layout. One more walk finds those who read
a value. Main statement: `Function.edge_queries_agree`.
-/

namespace EdgeProbe

namespace Function

/-! ## Predecessors -/

variable {f : Function} {blocks : List BlockId} {source target : BlockId}

/-- The edges out of some blocks, each with its source before its target. -/
def edgesFrom (f : Function) (blocks : List BlockId) : List (BlockId × BlockId) :=
  blocks.flatMap fun source => ((f.successors source).toOption.getD []).map (source, ·)

/-- The edges out of live blocks in layout order. A block that is listed twice has its edges twice. -/
def liveEdges (f : Function) : List (BlockId × BlockId) :=
  f.edgesFrom f.layout

/-- The sources of the live edges into a block. -/
def sources (f : Function) (target : BlockId) : List BlockId :=
  (f.liveEdges.filter (·.2 == target)).map (·.1)

theorem edgesFrom_cons {succs : List BlockId} (h : f.successors source = .ok succs) :
    f.edgesFrom (source :: blocks) = succs.map (source, ·) ++ f.edgesFrom blocks := by
  rw [edgesFrom, List.flatMap_cons, h]
  rfl

/-- The edges into a block are found one by one. -/
theorem edgesInto_eq_ok {found : List BlockId} (h : f.edgesInto target blocks = .ok found) :
    found = ((f.edgesFrom blocks).filter (·.2 == target)).map (·.1) := by
  induction blocks generalizing found with
  | nil => exact (Checked.pure_eq_ok.mp h).symm
  | cons source rest ih =>
    obtain ⟨succs, later, hsuccs, hlater, rfl⟩ := edgesInto_cons_eq_ok h
    have hhere : ((succs.map (source, ·)).filter (·.2 == target)).map (·.1) =
        List.replicate (succs.count target) source := by
      rw [List.filter_map, List.map_map, List.count_eq_length_filter]
      exact List.map_const'
    rw [edgesFrom_cons hsuccs, List.filter_append, List.map_append, hhere, ← ih hlater]

theorem predecessors_eq_sources (target : BlockId) (h : ∀ b ∈ f.layout, b.index < f.blocks.size) :
    f.predecessors target = .ok (f.sources target) := by
  obtain ⟨found, hfound⟩ := exists_edgesInto target h
  exact hfound.trans (congrArg Except.ok (edgesInto_eq_ok hfound))

/-! ## Blocks without predecessors -/

/-- No block has an empty list. -/
def HoldsNoEmpty (map : PredecessorMap) : Prop :=
  ∀ target : BlockId, map[target]? ≠ some []

theorem HoldsNoEmpty.addEdges {found : PredecessorMap} (h : HoldsNoEmpty found) (source : BlockId)
    (targets : List BlockId) : HoldsNoEmpty (addEdges source targets found) := by
  induction targets generalizing found with
  | nil => exact h
  | cons next rest ih =>
    refine ih fun target => ?_
    rw [Std.TreeMap.getElem?_insert]
    split
    · simp
    · exact h target

theorem HoldsNoEmpty.foldlM {found map : PredecessorMap} (h : HoldsNoEmpty found)
    (hmap : blocks.foldlM (fun found source => do
      return Function.addEdges source (← f.successors source) found) found = .ok map) :
    HoldsNoEmpty map := by
  induction blocks generalizing found with
  | nil =>
    obtain rfl := Checked.pure_eq_ok.mp hmap
    exact h
  | cons source rest ih =>
    rw [List.foldlM_cons] at hmap
    obtain ⟨next, hnext, hrest⟩ := Checked.bind_eq_ok.mp hmap
    obtain ⟨succs, -, hadd⟩ := Checked.bind_eq_ok.mp hnext
    obtain rfl := Checked.pure_eq_ok.mp hadd
    exact ih (h.addEdges source succs) hrest

/-- Of a block that nothing leads to nothing is noted. -/
theorem getElem?_predecessorMap {map : PredecessorMap} (hmap : f.predecessorMap = .ok map)
    {preds : List BlockId} (hpreds : f.predecessors target = .ok preds) :
    map[target]? = if preds = [] then none else some preds := by
  have hnone : HoldsNoEmpty map :=
    HoldsNoEmpty.foldlM (fun target => by simp) hmap
  obtain rfl : map.getD target [] = preds :=
    Except.ok.inj ((predecessors_eq_getD hmap target).symm.trans hpreds)
  rw [Std.TreeMap.getD_eq_getD_getElem?]
  cases hget : map[target]? with
  | none => rfl
  | some found =>
    have hne : found ≠ [] := fun hempty => hnone target (hempty ▸ hget)
    rw [Option.getD_some, if_neg hne]

/-- On a function whose live blocks are in the arena all predecessors can be told. The list of a
block has the sources of the live edges into it in layout order, one for each edge; the map holds
this list for each block that has any, and nothing for the others; and a block has a single
predecessor when the list has one entry. -/
theorem edge_queries_agree (h : ∀ b ∈ f.layout, b.index < f.blocks.size) :
    ∃ map, f.predecessorMap = .ok map ∧ ∀ b,
      f.predecessors b = .ok (f.sources b) ∧
      map[b]? = (if f.sources b = [] then none else some (f.sources b)) ∧
      ∃ sole, f.singlePredecessor? b = .ok sole ∧ ∀ p, sole = some p ↔ f.sources b = [p] := by
  obtain ⟨map, hmap⟩ := exists_predecessorMap h
  refine ⟨map, hmap, fun b => ?_⟩
  have hpreds := predecessors_eq_sources b h
  exact ⟨hpreds, getElem?_predecessorMap hmap hpreds, onlyMember? (f.sources b),
    singlePredecessor?_eq hpreds, fun p => onlyMember?_eq_some⟩

/-- The first block is listed twice and leads to the second one on both ways, which leads back and,
in two of three cases, to a block outside the layout. -/
def knotted : Function where
  name := "knotted"
  params := [.i1]
  ret := .void
  blocks := #[⟨"entry", [], .condBr (.arg 0) ⟨1⟩ ⟨1⟩⟩,
    ⟨"again", [], .switch (.arg 0) ⟨2⟩ [(0, ⟨0⟩), (1, ⟨2⟩)]⟩, ⟨"dead", [], .ret none⟩]
  layout := [⟨0⟩, ⟨1⟩, ⟨0⟩]

theorem knotted_queries_agree : (∀ b ∈ knotted.layout, b.index < knotted.blocks.size) ∧
    (knotted.sources ⟨0⟩ = [⟨1⟩] ∧ knotted.sources ⟨1⟩ = [⟨0⟩, ⟨0⟩, ⟨0⟩, ⟨0⟩] ∧
      knotted.sources ⟨2⟩ = [⟨1⟩, ⟨1⟩]) ∧
    ∃ map, knotted.predecessorMap = .ok map ∧ ∀ b,
      knotted.predecessors b = .ok (knotted.sources b) ∧
      map[b]? = (if knotted.sources b = [] then none else some (knotted.sources b)) ∧
      ∃ sole, knotted.singlePredecessor? b = .ok sole ∧
        ∀ p, sole = some p ↔ knotted.sources b = [p] :=
  ⟨by decide, by decide, edge_queries_agree (by decide)⟩

/-! ## Readers -/

variable {call i : InstId} {value : Value} {ids : List InstId}

/-- A live instruction has the result of another one as an operand. -/
structure Reads (f : Function) (call i : InstId) : Prop where
  listed : ∃ b pos, f.Listed i b pos
  operand : ∃ kind, f.kind i = .ok kind ∧ .inst call ∈ kind.operands

theorem Reads.lt (h : f.Reads call i) : i.index < f.insts.size := by
  obtain ⟨kind, hkind, -⟩ := h.operand
  exact index_lt_of_kind hkind

theorem mem_readersAmong {ids readers : List InstId}
    (h : f.readersAmong value ids = .ok readers) :
    i ∈ readers ↔ i ∈ ids ∧ ∃ kind, f.kind i = .ok kind ∧ value ∈ kind.operands := by
  induction ids generalizing readers with
  | nil =>
    obtain rfl := Checked.pure_eq_ok.mp h
    simp
  | cons id rest ih =>
    obtain ⟨kind, hkind, h⟩ := Checked.bind_eq_ok.mp h
    obtain ⟨readers', hrest, h⟩ := Checked.bind_eq_ok.mp h
    obtain rfl := Checked.pure_eq_ok.mp h
    have hself : (∃ k, f.kind id = .ok k ∧ value ∈ k.operands) ↔ value ∈ kind.operands := by
      simp [hkind]
    by_cases heq : i = id
    · subst heq
      split <;> simp_all
    · split <;> simp_all

theorem mem_usersIn {b : BlockId} {users : List User}
    (h : f.usersIn value b = .ok users) :
    .inst i ∈ users ↔ ∃ blk, f.block b = .ok blk ∧ i ∈ blk.insts ∧
      ∃ kind, f.kind i = .ok kind ∧ value ∈ kind.operands := by
  obtain ⟨blk, hblk, h⟩ := Checked.bind_eq_ok.mp h
  obtain ⟨readers, hreaders, h⟩ := Checked.bind_eq_ok.mp h
  obtain rfl := Checked.pure_eq_ok.mp h
  have hends : .inst i ∈ (if blk.term.operands.contains value then
      readers.map User.inst ++ [.term b] else readers.map User.inst) ↔ i ∈ readers := by
    split <;> simp
  rw [hends, mem_readersAmong hreaders]
  simp [hblk]

/-- All that read the result of an instruction are found. -/
theorem mem_instUsers {users : List InstId} (h : f.instUsers call = .ok users) :
    i ∈ users ↔ f.Reads call i := by
  obtain ⟨all, hall, h⟩ := Checked.bind_eq_ok.mp h
  obtain rfl := Checked.pure_eq_ok.mp h
  obtain ⟨found, hfound, hall⟩ := Checked.bind_eq_ok.mp hall
  obtain rfl := Checked.pure_eq_ok.mp hall
  constructor
  · intro hi
    obtain ⟨user, huser, heq⟩ := List.mem_filterMap.mp hi
    cases user with
    | term _ => cases heq
    | inst j =>
      obtain rfl := Option.some.inj heq
      obtain ⟨us, hus, hmem⟩ := List.mem_flatten.mp huser
      obtain ⟨b, hb, hin⟩ := Checked.exists_member hfound hus
      obtain ⟨blk, hblk, hinsts, hreads⟩ := (mem_usersIn hin).mp hmem
      obtain ⟨pos, hpos⟩ := List.mem_iff_getElem?.mp hinsts
      exact ⟨⟨b, pos, hb, blk, hblk, hpos⟩, hreads⟩
  · intro hi
    obtain ⟨b, pos, hb, blk, hblk, hpos⟩ := hi.listed
    obtain ⟨us, hus, hin⟩ := Checked.exists_result hfound hb
    refine List.mem_filterMap.mpr ⟨.inst i, List.mem_flatten.mpr ⟨us, hus, ?_⟩, rfl⟩
    exact (mem_usersIn hin).mpr ⟨blk, hblk, List.mem_of_getElem? hpos, hi.operand⟩

theorem exists_readersAmong (value : Value) (h : ∀ id ∈ ids, id.index < f.insts.size) :
    ∃ readers, f.readersAmong value ids = .ok readers := by
  induction ids with
  | nil => exact ⟨[], rfl⟩
  | cons first rest ih =>
    obtain ⟨hfirst, hrest⟩ := List.forall_mem_cons.mp h
    obtain ⟨kind, hkind⟩ := exists_kind hfirst
    obtain ⟨readers, hreaders⟩ := ih hrest
    exact ⟨_, Checked.bind_eq_ok.mpr ⟨kind, hkind, Checked.bind_eq_ok.mpr ⟨readers, hreaders, rfl⟩⟩⟩

/-- The readers of a result can be told if all that is live is in the arenas. -/
theorem exists_instUsers (hblocks : ∀ b ∈ f.layout, b.index < f.blocks.size)
    (hinsts : ∀ b ∈ f.layout, ∀ blk, f.block b = .ok blk → ∀ id ∈ blk.insts, id.index < f.insts.size)
    (call : InstId) : ∃ users, f.instUsers call = .ok users := by
  have husers : ∀ b ∈ f.layout, ∃ users, f.usersIn (.inst call) b = .ok users := by
    intro b hb
    obtain ⟨blk, hblk⟩ := exists_block (hblocks b hb)
    obtain ⟨readers, hreaders⟩ := exists_readersAmong (.inst call) (hinsts b hb blk hblk)
    exact ⟨_, Checked.bind_eq_ok.mpr ⟨blk, hblk, Checked.bind_eq_ok.mpr ⟨readers, hreaders, rfl⟩⟩⟩
  obtain ⟨lists, hlists⟩ := Checked.exists_mapM husers
  exact ⟨_, Checked.bind_eq_ok.mpr ⟨_, Checked.bind_eq_ok.mpr ⟨lists, hlists, rfl⟩, rfl⟩⟩

end Function

end EdgeProbe
