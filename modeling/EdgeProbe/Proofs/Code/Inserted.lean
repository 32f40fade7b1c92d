import EdgeProbe.Probe.Hooks
import EdgeProbe.Proofs.Code.Does
import EdgeProbe.Proofs.Code.Tidy

/-!
# Instructions put in at a place

What a function looks like once instructions have been put in one after another at a place of a
block: those behind it have moved, and everything else is as it was. A probe is put in like this.
-/

namespace EdgeProbe

/-- What is put in right behind the front of a list. -/
theorem insertIdx_length_append {α : Type} (front back : List α) (a : α) :
    (front ++ back).insertIdx front.length a = front ++ a :: back := by
  induction front with
  | nil => rfl
  | cons first rest ih => simpa using ih

namespace Function

variable {f f' : Function} {b c : BlockId} {pos : Nat} {kinds : List InstKind} {kind : InstKind}

/-- The ids of the next instructions. -/
def nextIds (f : Function) (count : Nat) : List InstId :=
  (List.range count).map fun k => ⟨f.insts.size + k⟩

/-- The function with instructions put in at a position of a block. -/
def withInsts (f : Function) (b : BlockId) (pos : Nat) (kinds : List InstKind) : Function :=
  { f with
    insts := f.insts ++ (kinds.map fun kind => ({ kind, block := some b } : Inst)).toArray
    blocks := f.blocks.modify b.index fun blk =>
      { blk with insts := blk.insts.take pos ++ f.nextIds kinds.length ++ blk.insts.drop pos } }

@[simp] theorem length_nextIds (f : Function) (count : Nat) : (f.nextIds count).length = count := by
  simp [nextIds]

theorem mem_nextIds {id : InstId} {count : Nat} :
    id ∈ f.nextIds count ↔ f.insts.size ≤ id.index ∧ id.index < f.insts.size + count := by
  simp only [nextIds, List.mem_map, List.mem_range]
  constructor
  · rintro ⟨k, hk, rfl⟩
    exact ⟨Nat.le_add_right _ _, Nat.add_lt_add_left hk _⟩
  · rintro ⟨hle, hlt⟩
    refine ⟨id.index - f.insts.size, by omega, ?_⟩
    rw [Nat.add_sub_cancel' hle]

theorem getElem?_nextIds {k count : Nat} {id : InstId} :
    (f.nextIds count)[k]? = some id ↔ k < count ∧ id = ⟨f.insts.size + k⟩ := by
  rw [nextIds, List.getElem?_map]
  by_cases hk : k < count
  · simp [hk, eq_comm]
  · simp [hk]

theorem nodup_nextIds (f : Function) (count : Nat) : (f.nextIds count).Nodup := by
  refine List.nodup_range.map fun j k heq => ?_
  have := congrArg InstId.index heq
  dsimp only at this
  omega

section

variable (f) (b) (pos) (kinds)

@[simp] theorem name_withInsts : (f.withInsts b pos kinds).name = f.name := rfl

@[simp] theorem params_withInsts : (f.withInsts b pos kinds).params = f.params := rfl

@[simp] theorem layout_withInsts : (f.withInsts b pos kinds).layout = f.layout := rfl

@[simp] theorem annotations_withInsts :
    (f.withInsts b pos kinds).annotations = f.annotations := rfl

@[simp] theorem entryBlock?_withInsts :
    (f.withInsts b pos kinds).entryBlock? = f.entryBlock? := rfl

@[simp] theorem size_blocks_withInsts :
    (f.withInsts b pos kinds).blocks.size = f.blocks.size := by
  simp [withInsts]

@[simp] theorem size_insts_withInsts :
    (f.withInsts b pos kinds).insts.size = f.insts.size + kinds.length := by
  simp [withInsts]

theorem block_withInsts (c : BlockId) :
    (f.withInsts b pos kinds).block c =
      if c = b then (f.block c).map fun blk =>
        { blk with insts := blk.insts.take pos ++ f.nextIds kinds.length ++ blk.insts.drop pos }
      else f.block c :=
  block_withBlock f b (fun blk =>
    { blk with insts := blk.insts.take pos ++ f.nextIds kinds.length ++ blk.insts.drop pos }) c

theorem inst_withInsts_of_lt {id : InstId} (h : id.index < f.insts.size) :
    (f.withInsts b pos kinds).inst id = f.inst id := by
  simp only [Function.inst, withInsts]
  rw [Array.getElem?_append_left h]

theorem kind_withInsts_of_lt {id : InstId} (h : id.index < f.insts.size) :
    (f.withInsts b pos kinds).kind id = f.kind id := by
  rw [Function.kind, inst_withInsts_of_lt f b pos kinds h, Function.kind]

theorem successors_withInsts (c : BlockId) :
    (f.withInsts b pos kinds).successors c = f.successors c := by
  rw [successors, block_withInsts, successors]
  split
  · cases f.block c <;> rfl
  · rfl

theorem edge_withInsts {a c : BlockId} : (f.withInsts b pos kinds).Edge a c ↔ f.Edge a c := by
  rw [Edge, Edge, successors_withInsts]

end

theorem inst_withInsts_new {k : Nat} {inst : Inst} :
    (f.withInsts b pos kinds).inst ⟨f.insts.size + k⟩ = .ok inst ↔
      ∃ kind, kinds[k]? = some kind ∧ inst = { kind, block := some b } := by
  rw [inst_eq_ok]
  simp only [withInsts]
  rw [Array.getElem?_append_right (Nat.le_add_right _ _), Nat.add_sub_cancel_left]
  simp [eq_comm]

theorem kind_withInsts_new {k : Nat} (h : kinds[k]? = some kind) :
    (f.withInsts b pos kinds).kind ⟨f.insts.size + k⟩ = .ok kind :=
  kind_eq_ok.mpr ⟨_, inst_withInsts_new.mpr ⟨kind, h, rfl⟩, rfl⟩

/-- An instruction is one from before or one of those that were put in. -/
theorem inst_withInsts_cases {id : InstId} {inst : Inst}
    (h : (f.withInsts b pos kinds).inst id = .ok inst) :
    f.inst id = .ok inst ∨
      ∃ k kind, kinds[k]? = some kind ∧ id = ⟨f.insts.size + k⟩ ∧
        inst = { kind, block := some b } := by
  obtain hlt | hle := Nat.lt_or_ge id.index f.insts.size
  · rw [inst_withInsts_of_lt f b pos kinds hlt] at h
    exact .inl h
  · obtain ⟨k, hk⟩ := Nat.exists_eq_add_of_le hle
    obtain rfl : id = ⟨f.insts.size + k⟩ := congrArg InstId.mk hk
    obtain ⟨kind, hkind, rfl⟩ := inst_withInsts_new.mp h
    exact .inr ⟨k, kind, hkind, rfl, rfl⟩

theorem kind_withInsts_cases {id : InstId} (h : (f.withInsts b pos kinds).kind id = .ok kind) :
    f.kind id = .ok kind ∨ ∃ k, kinds[k]? = some kind ∧ id = ⟨f.insts.size + k⟩ := by
  obtain ⟨inst, hinst, rfl⟩ := kind_eq_ok.mp h
  obtain hold | ⟨k, kind, hkind, rfl, rfl⟩ := inst_withInsts_cases hinst
  · exact .inl (kind_eq_ok.mpr ⟨inst, hold, rfl⟩)
  · exact .inr ⟨k, hkind, rfl⟩

@[simp] theorem withInsts_nil (f : Function) (b : BlockId) (pos : Nat) : f.withInsts b pos [] = f := by
  have hblocks : (f.blocks.modify b.index fun blk =>
      { blk with insts := blk.insts.take pos ++ f.nextIds 0 ++ blk.insts.drop pos }) = f.blocks := by
    apply Array.ext_getElem?
    intro i
    rw [Array.getElem?_modify]
    split
    · cases f.blocks[i]? with
      | none => rfl
      | some blk => simp [nextIds]
    · rfl
  simp only [withInsts, List.length_nil, hblocks]
  simp

/-- Putting in one more behind those that were put in. -/
theorem insertInst_withInsts {blk : Block} (hblk : f.block b = .ok blk)
    (hpos : pos ≤ blk.insts.length) (kind : InstKind) :
    (f.withInsts b pos kinds).insertInst b (pos + kinds.length) kind "" none =
      .ok (f.withInsts b pos (kinds ++ [kind]), ⟨f.insts.size + kinds.length⟩) := by
  have hlt := index_lt_of_block hblk
  have hfront : (blk.insts.take pos ++ f.nextIds kinds.length).length = pos + kinds.length := by
    simp [hpos]
  have hblocks : ((f.withInsts b pos kinds).blocks.modify b.index fun blk =>
      { blk with
        insts := blk.insts.insertIdx (min (pos + kinds.length) blk.insts.length)
          ⟨f.insts.size + kinds.length⟩ }) = (f.withInsts b pos (kinds ++ [kind])).blocks := by
    apply Array.ext_getElem?
    intro i
    simp only [withInsts, Array.getElem?_modify]
    split
    · next hi =>
      subst hi
      rw [block_eq_ok.mp hblk]
      simp only [Option.map_some, Option.some.injEq, Block.mk.injEq, true_and, and_true]
      rw [List.length_append, hfront, min_eq_left (Nat.le_add_right _ _), ← hfront,
        insertIdx_length_append]
      simp [nextIds, List.range_succ]
    · rfl
  refine Checked.bind_eq_ok.mpr ⟨f.withInsts b pos (kinds ++ [kind]), ?_, ?_⟩
  · refine modifyBlock_eq_ok.mpr ⟨by simpa [withInsts] using hlt, ?_⟩
    simp only [withBlock, size_insts_withInsts, hblocks]
    simp [withInsts]
  · rw [size_insts_withInsts]
    rfl

/-! ## Where things stand afterwards -/

/-- The position that an instruction has after some were put in at a place. -/
def shifted (b : BlockId) (pos count : Nat) (c : BlockId) (k : Nat) : Nat :=
  if c = b ∧ pos ≤ k then k + count else k

theorem shifted_lt {count k k' : Nat} (h : k < k') :
    shifted b pos count c k < shifted b pos count c k' := by
  unfold shifted
  by_cases hc : c = b
  · simp only [hc, true_and]
    split <;> split <;> omega
  · simpa [hc] using h

theorem shifted_of_ne {count : Nat} (h : c ≠ b) (k : Nat) : shifted b pos count c k = k :=
  if_neg fun hb => h hb.1

theorem getElem?_splice {α : Type} {l new : List α} (hpos : pos ≤ l.length) {x : α} {k : Nat} :
    (l.take pos ++ new ++ l.drop pos)[k]? = some x ↔
      (∃ j, l[j]? = some x ∧ k = if pos ≤ j then j + new.length else j) ∨
        ∃ j, new[j]? = some x ∧ k = pos + j := by
  have hfront : (l.take pos).length = pos := by simp [hpos]
  rw [List.append_assoc]
  obtain hlt | hle := Nat.lt_or_ge k pos
  · rw [List.getElem?_append_left (by omega), List.getElem?_take, if_pos hlt]
    constructor
    · exact fun h => .inl ⟨k, h, (if_neg (by omega)).symm⟩
    · rintro (⟨j, hj, rfl⟩ | ⟨j, -, rfl⟩)
      · by_cases hle : pos ≤ j
        · rw [if_pos hle] at hlt
          omega
        · rwa [if_neg hle]
      · omega
  rw [List.getElem?_append_right (by omega), hfront]
  obtain hlt | hle' := Nat.lt_or_ge (k - pos) new.length
  · rw [List.getElem?_append_left hlt]
    constructor
    · exact fun h => .inr ⟨k - pos, h, by omega⟩
    · rintro (⟨j, -, rfl⟩ | ⟨j, hj, rfl⟩)
      · split at hle <;> split at hlt <;> omega
      · rwa [Nat.add_sub_cancel_left]
  · rw [List.getElem?_append_right hle', List.getElem?_drop]
    have hback : pos + (k - pos - new.length) = k - new.length := by omega
    rw [hback]
    constructor
    · exact fun h => .inl ⟨k - new.length, h, by rw [if_pos (by omega)]; omega⟩
    · rintro (⟨j, hj, rfl⟩ | ⟨j, hj, rfl⟩)
      · by_cases hle : pos ≤ j
        · rwa [if_pos hle, Nat.add_sub_cancel]
        · simp only [if_neg hle] at *
          omega
      · have := (List.getElem?_eq_some_iff.mp hj).1
        omega

/-- An instruction of a block is one from before, which may have moved, or one of those that were
put in. -/
theorem listed_withInsts {blk : Block} (hblk : f.block b = .ok blk) (hpos : pos ≤ blk.insts.length)
    {id : InstId} {k : Nat} :
    (f.withInsts b pos kinds).Listed id c k ↔
      (∃ j, f.Listed id c j ∧ k = shifted b pos kinds.length c j) ∨
        c = b ∧ b ∈ f.layout ∧ ∃ j < kinds.length, k = pos + j ∧ id = ⟨f.insts.size + j⟩ := by
  unfold Listed
  rw [layout_withInsts, block_withInsts]
  by_cases hc : c = b
  · subst hc
    rw [if_pos rfl, hblk]
    constructor
    · rintro ⟨hlive, blk', hblk', hk⟩
      obtain rfl := Except.ok.inj hblk'
      obtain ⟨j, hj, rfl⟩ | ⟨j, hj, rfl⟩ := (getElem?_splice hpos).mp hk
      · exact .inl ⟨j, ⟨hlive, blk, rfl, hj⟩, by simp [shifted]⟩
      · obtain ⟨hlt, rfl⟩ := getElem?_nextIds.mp hj
        exact .inr ⟨rfl, hlive, j, hlt, rfl, rfl⟩
    · rintro (⟨j, ⟨hlive, blk', hblk', hj⟩, rfl⟩ | ⟨-, hlive, j, hj, rfl, rfl⟩)
      · obtain rfl := Except.ok.inj hblk'
        refine ⟨hlive, _, rfl, (getElem?_splice hpos).mpr (.inl ⟨j, hj, ?_⟩)⟩
        simp [shifted]
      · refine ⟨hlive, _, rfl, (getElem?_splice hpos).mpr (.inr ⟨j, ?_, rfl⟩)⟩
        exact getElem?_nextIds.mpr ⟨hj, rfl⟩
  · rw [if_neg hc]
    constructor
    · exact fun h => .inl ⟨k, h, (shifted_of_ne hc k).symm⟩
    · rintro (⟨j, h, rfl⟩ | ⟨heq, -⟩)
      · rwa [shifted_of_ne hc]
      · exact absurd heq hc

end Function

end EdgeProbe
