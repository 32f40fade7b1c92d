import EdgeProbe.Proofs.Flow.Dominance
import EdgeProbe.Validity.Verify

/-!
# What an accepted function satisfies

`WellFormed` says what `Module.verify` asks of a function in terms of its blocks and paths, with no
map of positions and no search for dominators: names stand for something, edges lead to live blocks,
phis lead their blocks with an entry for each predecessor, and what is used has been computed on
every path. So the phis of a live block come first, and each has an entry for every block from which
an edge comes. Main statement: `Module.Accepted.wellFormed`.
-/

namespace EdgeProbe

namespace Function

/-- A live block lists an instruction at a position. -/
def Listed (f : Function) (id : InstId) (b : BlockId) (pos : Nat) : Prop :=
  b ∈ f.layout ∧ ∃ blk, f.block b = .ok blk ∧ blk.insts[pos]? = some id

/-- An instruction stands before a position of a block, or before its end, on all paths there. -/
def Precedes (f : Function) (id : InstId) (b : BlockId) (pos : Option Nat) : Prop :=
  ∃ home place, f.Listed id home place ∧
    (f.Reaches b → home = b ∧ (∀ p, pos = some p → place < p) ∨
      home ≠ b ∧ f.OnEveryPath home b)

/-- What a function has to satisfy as a part of a module. -/
structure WellFormed (m : Module) (f : Function) : Prop where
  closed : f.Closed
  nodup : f.layout.Nodup
  knowsInsts : ∀ b blk, f.block b = .ok blk → ∀ id ∈ blk.insts, f.hasInst id = true
  knowsSuccessors : ∀ b blk, f.block b = .ok blk → ∀ s ∈ blk.term.successors, f.hasBlock s = true
  knowsTerminator : ∀ b blk, f.block b = .ok blk → m.knowsTerminator f blk.term = true
  knowsKind : ∀ id kind, f.kind id = .ok kind → m.knowsKind f kind = true
  knowsTokens : ∀ entry ∈ f.annotations.toList, f.hasInst entry.1 = true
  unwind : ∀ b ∈ f.layout, ∀ blk, f.block b = .ok blk → ∀ callee args normal unwind,
    blk.term = .invoke callee args normal unwind → f.isLandingPad unwind = .ok true
  shape : ∀ b ∈ f.layout, ∃ preds, f.predecessors b = .ok preds ∧
    (m.checkBlockShape f b preds).Passes ()
  home : ∀ id b pos, f.Listed id b pos → ∃ inst, f.inst id = .ok inst ∧ inst.block = some b
  phiUses : ∀ id b pos ty incoming, f.Listed id b pos → f.kind id = .ok (.phi ty incoming) →
    ∀ used source, (.inst used, source) ∈ incoming → f.Precedes used source none
  uses : ∀ id b pos kind, f.Listed id b pos → f.kind id = .ok kind → kind.isPhi = false →
    ∀ used, .inst used ∈ kind.operands → f.Precedes used b (some pos)
  termUses : ∀ b ∈ f.layout, ∀ blk, f.block b = .ok blk →
    ∀ used, .inst used ∈ blk.term.operands → f.Precedes used b none

variable {m : Module} {f : Function} {b : BlockId} {blk : Block}

theorem mem_toList_blocks (h : f.block b = .ok blk) : blk ∈ f.blocks.toList := by
  rw [block] at h
  cases hb : f.blocks[b.index]? with
  | none => simp [hb] at h
  | some found =>
    obtain rfl : found = blk := by simpa [hb] using h
    obtain ⟨hlt, rfl⟩ := Array.getElem?_eq_some_iff.mp hb
    simp

theorem mem_toList_insts {id : InstId} {kind : InstKind} (h : f.kind id = .ok kind) :
    ∃ inst ∈ f.insts.toList, inst.kind = kind := by
  obtain ⟨inst, hinst, rfl⟩ := Checked.map_eq_ok.mp h
  rw [Function.inst] at hinst
  cases hi : f.insts[id.index]? with
  | none => simp [hi] at hinst
  | some found =>
    obtain rfl : found = inst := by simpa [hi] using hinst
    obtain ⟨hlt, rfl⟩ := Array.getElem?_eq_some_iff.mp hi
    exact ⟨_, by simp, rfl⟩

theorem successors_of_block (h : f.block b = .ok blk) :
    f.successors b = .ok blk.term.successors := by
  simp [successors, h, Except.map]

end Function

namespace Module

variable {m : Module} {f : Function}

/-! ## Names -/

theorem checkBlockNames_ok {index : Nat} {blocks : List Block}
    (h : m.checkBlockNames f index blocks = .ok ()) : ∀ blk ∈ blocks,
      (∀ id ∈ blk.insts, f.hasInst id = true) ∧
      (∀ s ∈ blk.term.successors, f.hasBlock s = true) ∧ m.knowsTerminator f blk.term = true := by
  induction blocks generalizing index with
  | nil => simp
  | cons first rest ih =>
    rw [checkBlockNames] at h
    cases hinst : first.insts.find? (!f.hasInst ·) with
    | some id => simp [hinst, bind, Except.bind, throw, throwThe, MonadExceptOf.throw] at h
    | none =>
      cases hsucc : first.term.successors.find? (!f.hasBlock ·) with
      | some s => simp [hinst, hsucc, bind, Except.bind, throw, throwThe, MonadExceptOf.throw] at h
      | none =>
        cases hterm : m.knowsTerminator f first.term with
        | false =>
          simp [hinst, hsucc, hterm, bind, Except.bind, throw, throwThe, MonadExceptOf.throw] at h
        | true =>
          simp only [hinst, hsucc, hterm, bind, Except.bind, Bool.not_true, Bool.false_eq_true,
            if_false] at h
          refine List.forall_mem_cons.mpr ⟨⟨?_, ?_, hterm⟩, ih h⟩
          · simpa using List.find?_eq_none.mp hinst
          · simpa using List.find?_eq_none.mp hsucc

theorem checkInstNames_ok {index : Nat} {insts : List Inst}
    (h : m.checkInstNames f index insts = .ok ()) :
    ∀ inst ∈ insts, m.knowsKind f inst.kind = true := by
  induction insts generalizing index with
  | nil => simp
  | cons first rest ih =>
    rw [checkInstNames] at h
    cases hkind : m.knowsKind f first.kind with
    | false => simp [hkind, bind, Except.bind, throw, throwThe, MonadExceptOf.throw] at h
    | true =>
      simp only [hkind, bind, Except.bind, Bool.not_true, Bool.false_eq_true, if_false] at h
      exact List.forall_mem_cons.mpr ⟨hkind, ih h⟩

theorem checkNames_ok (h : m.checkNames f = .ok ()) :
    (∀ b ∈ f.layout, f.hasBlock b = true) ∧ m.checkBlockNames f 0 f.blocks.toList = .ok () ∧
      m.checkInstNames f 0 f.insts.toList = .ok () ∧
      ∀ entry ∈ f.annotations.toList, f.hasInst entry.1 = true := by
  rw [checkNames] at h
  cases hlayout : f.layout.find? (!f.hasBlock ·) with
  | some b => simp [hlayout, bind, Except.bind, throw, throwThe, MonadExceptOf.throw] at h
  | none =>
    cases hblocks : m.checkBlockNames f 0 f.blocks.toList with
    | error flaw => simp [hlayout, hblocks, bind, Except.bind] at h
    | ok u =>
      cases hinsts : m.checkInstNames f 0 f.insts.toList with
      | error flaw => simp [hlayout, hblocks, hinsts, bind, Except.bind] at h
      | ok v =>
        refine ⟨by simpa using List.find?_eq_none.mp hlayout, rfl, rfl, ?_⟩
        cases htoken : f.annotations.toList.find? fun entry => !f.hasInst entry.1 with
        | some entry =>
          simp [hlayout, hblocks, hinsts, htoken, bind, Except.bind, throw, throwThe,
            MonadExceptOf.throw] at h
        | none => simpa using List.find?_eq_none.mp htoken

end Module

namespace Function

variable {m : Module} {f : Function} {b : BlockId}

/-! ## Edges and places -/

theorem checkSuccessors_passes (h : (f.checkSuccessors b).Passes ()) :
    ∃ blk, f.block b = .ok blk ∧ (∀ s ∈ blk.term.successors, s ∈ f.layout) ∧
      ∀ callee args normal unwind, blk.term = .invoke callee args normal unwind →
        f.isLandingPad unwind = .ok true := by
  rw [checkSuccessors] at h
  obtain ⟨blk, hblk, h⟩ := Check.passes_bind.mp h
  refine ⟨blk, Check.passes_lift.mp hblk, ?_⟩
  dsimp only at h
  cases hfind : blk.term.successors.find? (!f.layout.contains ·) with
  | some target =>
    rw [hfind] at h
    exact absurd h (Check.not_passes_throw_bind _ _ _)
  | none =>
    rw [hfind] at h
    refine ⟨by simpa using List.find?_eq_none.mp hfind, ?_⟩
    intro callee args normal unwind hterm
    rw [hterm] at h
    obtain ⟨pad, hpad, h⟩ := Check.passes_bind.mp h
    rw [Check.passes_guard] at h
    rw [Check.passes_lift.mp hpad, show pad = true by simpa using h]

/-- Each noted place is one where the instruction stands. -/
def Noted (f : Function) (positions : Positions) : Prop :=
  ∀ id home place, positions[id]? = some (home, place) → f.Listed id home place

theorem notePositions_passes {positions positions' : Positions} (hb : b ∈ f.layout)
    (hnoted : f.Noted positions) (h : (f.notePositions positions b).Passes positions') :
    f.Noted positions' ∧
      ∀ id pos, f.Listed id b pos → ∃ inst, f.inst id = .ok inst ∧ inst.block = some b := by
  rw [notePositions] at h
  obtain ⟨blk, hblk, h⟩ := Check.passes_bind.mp h
  have hblk := Check.passes_lift.mp hblk
  obtain ⟨hend, hall⟩ := Check.passes_foldlM f.Noted
    (fun entry : InstId × Nat => ∃ inst, f.inst entry.1 = .ok inst ∧ inst.block = some b)
    h (by
      rintro ⟨id, pos⟩ hmem positions positions' hnoted h
      obtain ⟨inst, hinst, h⟩ := Check.passes_bind.mp h
      obtain ⟨hparent, h⟩ := Check.passes_guard_bind.mp h
      have hparent : inst.block = some b := by simpa using hparent
      obtain rfl := Check.passes_pure.mp h
      refine ⟨?_, inst, Check.passes_lift.mp hinst, hparent⟩
      intro i home place hi
      rw [Std.HashMap.getElem?_insert] at hi
      by_cases hid : id = i
      · subst hid
        obtain ⟨rfl, rfl⟩ : b = home ∧ pos = place := by simpa using hi
        exact ⟨hb, blk, hblk, List.mk_mem_zipIdx_iff_getElem?.mp hmem⟩
      · rw [if_neg (by simpa using hid)] at hi
        exact hnoted i home place hi) hnoted
  refine ⟨hend, ?_⟩
  rintro id pos ⟨-, blk', hblk', hpos⟩
  obtain rfl : blk = blk' := Except.ok.inj (hblk.symm.trans hblk')
  exact hall (id, pos) (List.mk_mem_zipIdx_iff_getElem?.mpr hpos)

/-! ## Uses -/

/-- What the search for dominators has found. -/
structure Dominated (f : Function) (d : Dominators) : Prop where
  reachable : ∀ b, d.isReachable b = true ↔ f.Reaches b
  dominates : ∀ a b, d.dominates a b = true ↔ f.Reaches a ∧ f.Reaches b ∧ f.OnEveryPath a b

section Uses

variable {d : Dominators} {positions : Positions} (hd : f.Dominated d)
  (hnoted : f.Noted positions)
include hd hnoted

theorem checkUse_passes {id : InstId} {pos : Option Nat}
    (h : (f.checkUse d positions id b pos).Passes ()) : f.Precedes id b pos := by
  rw [checkUse] at h
  cases hplace : positions[id]? with
  | none => simp [hplace] at h
  | some noted =>
    obtain ⟨home, place⟩ := noted
    refine ⟨home, place, hnoted id home place hplace, fun hreach => ?_⟩
    simp only [hplace, if_pos ((hd.reachable b).mpr hreach)] at h
    by_cases hhome : home = b
    · subst hhome
      left
      refine ⟨rfl, fun p hp => ?_⟩
      subst hp
      by_contra hle
      simp only [beq_self_eq_true, if_true, Option.map_some, Option.getD_some, hle, decide_false,
        Bool.not_false] at h
      obtain ⟨blk, -, h⟩ := Check.passes_bind.mp h
      simp at h
    · right
      refine ⟨hhome, ?_⟩
      by_contra hpath
      have hdom : d.dominates home b = false := by
        rw [← Bool.not_eq_true, hd.dominates]
        tauto
      simp only [show (home == b) = false by simpa using hhome, hdom, Bool.false_eq_true, if_false,
        Bool.not_false, if_true] at h
      obtain ⟨blk, -, h⟩ := Check.passes_bind.mp h
      simp at h

/-- A loop over operands checks those that are instructions. -/
theorem checkUses_passes {values : List Value} {pos : Option Nat}
    (h : Check.Passes (values.forM fun value => do
      if let .inst used := value then f.checkUse d positions used b pos) ()) :
    ∀ used, .inst used ∈ values → f.Precedes used b pos :=
  fun _ hused => checkUse_passes hd hnoted (Check.passes_forM.mp h _ hused)

theorem checkOperands_passes {id : InstId} {pos : Nat} {kind : InstKind}
    (hkind : f.kind id = .ok kind) (h : (f.checkOperands d positions b pos id).Passes ()) :
    (∀ ty incoming, kind = .phi ty incoming →
      ∀ used source, (.inst used, source) ∈ incoming → f.Precedes used source none) ∧
    (kind.isPhi = false → ∀ used, .inst used ∈ kind.operands → f.Precedes used b (some pos)) := by
  rw [checkOperands] at h
  obtain ⟨kind', hkind', h⟩ := Check.passes_bind.mp h
  obtain rfl : kind' = kind :=
    Except.ok.inj ((Check.passes_lift.mp hkind').symm.trans hkind)
  constructor
  · rintro ty incoming rfl used source hmem
    exact checkUse_passes hd hnoted (Check.passes_forM.mp h _ hmem)
  · intro hphi
    cases kind' with
    | phi ty incoming => cases hphi
    | _ => exact checkUses_passes hd hnoted h

theorem checkBlockUses_passes (h : (f.checkBlockUses d positions b).Passes ()) :
    ∃ blk, f.block b = .ok blk ∧
      (∀ id pos, blk.insts[pos]? = some id → (f.checkOperands d positions b pos id).Passes ()) ∧
      ∀ used, .inst used ∈ blk.term.operands → f.Precedes used b none := by
  rw [checkBlockUses] at h
  obtain ⟨blk, hblk, h⟩ := Check.passes_bind.mp h
  obtain ⟨u, hinsts, hterm⟩ := Check.passes_bind.mp h
  refine ⟨blk, Check.passes_lift.mp hblk, ?_, checkUses_passes hd hnoted hterm⟩
  intro id pos hpos
  exact Check.passes_forM.mp hinsts (id, pos) (List.mk_mem_zipIdx_iff_getElem?.mpr hpos)

end Uses

end Function

namespace Module

variable {m : Module} {f : Function}

theorem verifyFunction_passes (h : (m.verifyFunction f).Passes ()) : f.WellFormed m := by
  rw [verifyFunction] at h
  obtain ⟨u, hnames, h⟩ := Check.passes_bind.mp h
  have hnames : m.checkNames f = .ok () := Except.ok.inj hnames
  obtain ⟨hlayout, hblocks, hinsts, htokens⟩ := checkNames_ok hnames
  have hblocks := checkBlockNames_ok hblocks
  have hinsts := checkInstNames_ok hinsts
  obtain ⟨hnodup, h⟩ := Check.passes_guard_bind.mp h
  obtain ⟨u, hsuccs, h⟩ := Check.passes_bind.mp h
  obtain ⟨preds, hpreds, h⟩ := Check.passes_bind.mp h
  obtain ⟨u, hshape, h⟩ := Check.passes_bind.mp h
  obtain ⟨d, hd, h⟩ := Check.passes_bind.mp h
  obtain ⟨positions, hpositions, huses⟩ := Check.passes_bind.mp h
  have hpreds := Check.passes_lift.mp hpreds
  have hd := Check.passes_lift.mp hd
  have hsuccs := fun b hb => Function.checkSuccessors_passes (Check.passes_forM.mp hsuccs b hb)
  have hclosed : f.Closed := by
    refine ⟨fun b hb => by simpa [Function.hasBlock] using hlayout b hb, fun a ha b hedge => ?_⟩
    obtain ⟨blk, hblk, hlive, -⟩ := hsuccs a ha
    exact hlive b ((Function.edge_iff (Function.successors_of_block hblk)).mp hedge)
  obtain ⟨d', hd', hdominated⟩ := Dominators.ofPredecessors_eq_ok hclosed hpreds
  obtain rfl : d = d' := Except.ok.inj (hd.symm.trans hd')
  have hdominated : f.Dominated d := ⟨hdominated.1, hdominated.2⟩
  obtain ⟨hnoted, hhome⟩ := Check.passes_foldlM f.Noted
    (fun b => ∀ id pos, f.Listed id b pos →
      ∃ inst, f.inst id = .ok inst ∧ inst.block = some b)
    hpositions (fun b hb positions positions' hn hp => Function.notePositions_passes hb hn hp)
    (by intro id home place hplace; simp at hplace)
  have huses := fun b hb =>
    Function.checkBlockUses_passes hdominated hnoted (Check.passes_forM.mp huses b hb)
  have hlisted : ∀ id b pos kind, f.Listed id b pos → f.kind id = .ok kind →
      (f.checkOperands d positions b pos id).Passes () := by
    rintro id b pos kind ⟨hb, blk, hblk, hpos⟩ hkind
    obtain ⟨blk', hblk', hinsts, -⟩ := huses b hb
    obtain rfl : blk' = blk := Except.ok.inj (hblk'.symm.trans hblk)
    exact hinsts id pos hpos
  refine
    { closed := hclosed, nodup := by simpa using hnodup, knowsInsts := ?knowsInsts,
      knowsSuccessors := ?knowsSuccessors, knowsTerminator := ?knowsTerminator,
      knowsKind := ?knowsKind, knowsTokens := htokens, unwind := ?unwind, shape := ?shape,
      home := ?home, phiUses := ?phiUses, uses := ?uses, termUses := ?termUses }
  case knowsInsts => exact fun b blk hblk => (hblocks blk (Function.mem_toList_blocks hblk)).1
  case knowsSuccessors =>
    exact fun b blk hblk => (hblocks blk (Function.mem_toList_blocks hblk)).2.1
  case knowsTerminator =>
    exact fun b blk hblk => (hblocks blk (Function.mem_toList_blocks hblk)).2.2
  case knowsKind =>
    intro id kind hkind
    obtain ⟨inst, hinst, rfl⟩ := Function.mem_toList_insts hkind
    exact hinsts inst hinst
  case unwind =>
    intro b hb blk hblk
    obtain ⟨blk', hblk', -, hunwind⟩ := hsuccs b hb
    obtain rfl : blk' = blk := Except.ok.inj (hblk'.symm.trans hblk)
    exact hunwind
  case shape =>
    exact fun b hb => ⟨_, Function.predecessors_eq_getD hpreds b, Check.passes_forM.mp hshape b hb⟩
  case home => exact fun id b pos hid => hhome b hid.1 id pos hid
  case phiUses =>
    intro id b pos ty incoming hid hkind used source hmem
    exact (Function.checkOperands_passes hdominated hnoted hkind
      (hlisted id b pos _ hid hkind)).1 ty incoming rfl used source hmem
  case uses =>
    intro id b pos kind hid hkind hphi used hused
    exact (Function.checkOperands_passes hdominated hnoted hkind
      (hlisted id b pos _ hid hkind)).2 hphi used hused
  case termUses =>
    intro b hb blk hblk
    obtain ⟨blk', hblk', -, hterm⟩ := huses b hb
    obtain rfl : blk' = blk := Except.ok.inj (hblk'.symm.trans hblk)
    exact hterm

/-- The module is accepted by `verify`. -/
def Accepted (m : Module) : Prop :=
  m.verify.run = .ok (.ok ())

theorem verifyFunctions_ok {functions : List Function}
    (h : (m.verifyFunctions functions).run = .ok (.ok ())) :
    ∀ f ∈ functions, f.isDeclaration = false → f.WellFormed m := by
  induction functions with
  | nil => simp
  | cons f rest ih =>
    rw [verifyFunctions] at h
    cases hbody : f.isDeclaration with
    | true =>
      simp only [hbody, Bool.not_true, Bool.false_eq_true, if_false] at h
      exact List.forall_mem_cons.mpr ⟨fun hf => by simp [hbody] at hf, ih h⟩
    | false =>
      simp only [hbody, Bool.not_false, if_true] at h
      rw [ExceptT.run_bind, Checked.bind_eq_ok] at h
      obtain ⟨verdict, hverdict, h⟩ := h
      cases hrun : (m.verifyFunction f).run with
      | error fault =>
        rw [hrun] at hverdict
        cases hverdict
      | ok found =>
        rw [hrun] at hverdict
        obtain rfl : .ok found = verdict := Except.ok.inj hverdict
        cases found with
        | error flaw => cases h
        | ok u => exact List.forall_mem_cons.mpr ⟨fun _ => verifyFunction_passes hrun, ih h⟩

theorem mem_of_function {id : FuncId} (h : m.function id = .ok f) : f ∈ m.functions.toList := by
  rw [function] at h
  cases hf : m.functions[id.index]? with
  | none => simp [hf] at h
  | some found =>
    obtain rfl : found = f := by simpa [hf] using h
    obtain ⟨hlt, rfl⟩ := Array.getElem?_eq_some_iff.mp hf
    simp

theorem Accepted.wellFormed (h : m.Accepted) {id : FuncId} (hf : m.function id = .ok f)
    (hbody : f.isDeclaration = false) : f.WellFormed m :=
  verifyFunctions_ok h f (mem_of_function hf) hbody

end Module

/-! ## Phis -/

namespace BlockId

theorem mem_withoutRepeats {id : BlockId} {ids : List BlockId} :
    id ∈ withoutRepeats ids ↔ id ∈ ids := by
  induction ids with
  | nil => simp [withoutRepeats]
  | cons first rest ih =>
    rw [withoutRepeats]
    split
    · next h =>
      have hmem : first ∈ rest := List.mem_of_head? (by simpa using h)
      rw [ih, List.mem_cons]
      constructor
      · exact .inr
      · rintro (rfl | hid)
        · exact hmem
        · exact hid
    · rw [List.mem_cons, List.mem_cons, ih]

theorem mem_sort {id : BlockId} {ids : List BlockId} : id ∈ sort ids ↔ id ∈ ids := by
  rw [sort, List.mem_mergeSort]

end BlockId

namespace Function

variable {m : Module} {f : Function} {b : BlockId} {blk : Block} {id : InstId}

/-- What leads a list is its longest part at the front of which the kinds are as asked. -/
theorem leading_eq_ok {holds : InstKind → Bool} {ids front : List InstId}
    (h : f.leading holds ids = .ok front) :
    ∃ back, ids = front ++ back ∧ (∀ id ∈ front, ∃ kind, f.kind id = .ok kind ∧ holds kind = true) ∧
      ∀ id ∈ back.head?, ∃ kind, f.kind id = .ok kind ∧ holds kind = false := by
  induction ids generalizing front with
  | nil =>
    obtain rfl := Checked.pure_eq_ok.mp h
    exact ⟨[], rfl, by simp, by simp⟩
  | cons first rest ih =>
    rw [leading] at h
    obtain ⟨kind, hkind, h⟩ := Checked.bind_eq_ok.mp h
    split at h
    · next hholds =>
      obtain ⟨front', hfront, h⟩ := Checked.bind_eq_ok.mp h
      obtain rfl := Checked.pure_eq_ok.mp h
      obtain ⟨back, rfl, hall, hback⟩ := ih hfront
      exact ⟨back, rfl, List.forall_mem_cons.mpr ⟨⟨kind, hkind, hholds⟩, hall⟩, hback⟩
    · next hholds =>
      obtain rfl := Checked.pure_eq_ok.mp h
      exact ⟨first :: rest, rfl, by simp, by simpa using ⟨kind, hkind, by simpa using hholds⟩⟩

theorem phis_eq_ok {phis : List InstId} (h : f.phis b = .ok phis) :
    ∃ blk, f.block b = .ok blk ∧ f.leading InstKind.isPhi blk.insts = .ok phis :=
  Checked.bind_eq_ok.mp h

theorem kind_of_mem_phis {phis : List InstId} (h : f.phis b = .ok phis) (hid : id ∈ phis) :
    ∃ ty incoming, f.kind id = .ok (.phi ty incoming) := by
  obtain ⟨blk, -, hlead⟩ := phis_eq_ok h
  obtain ⟨back, -, hall, -⟩ := leading_eq_ok hlead
  obtain ⟨kind, hkind, hphi⟩ := hall id hid
  cases kind with
  | phi ty incoming => exact ⟨ty, incoming, hkind⟩
  | _ => cases hphi

end Function

namespace Module

variable {m : Module} {f : Function} {b : BlockId} {blk : Block}

theorem checkInstShape_phi_passes {name : String} {phiCount pos : Nat}
    {preds distinct : List BlockId} {id : InstId} {ty : Ty} {incoming : List (Value × BlockId)}
    (hkind : f.kind id = .ok (.phi ty incoming))
    (h : (m.checkInstShape f b name phiCount preds distinct pos id).Passes ()) :
    pos < phiCount ∧ BlockId.sort (incoming.map (·.2)) = distinct := by
  rw [checkInstShape] at h
  obtain ⟨kind, hkind', h⟩ := Check.passes_bind.mp h
  obtain rfl : kind = .phi ty incoming :=
    Except.ok.inj ((Check.passes_lift.mp hkind').symm.trans hkind)
  obtain ⟨hpos, h⟩ := Check.passes_guard_bind.mp h
  exact ⟨by omega, by simpa using Check.passes_guard.mp h⟩

theorem checkBlockShape_passes {preds : List BlockId} (h : (m.checkBlockShape f b preds).Passes ()) :
    ∃ blk phis, f.block b = .ok blk ∧ f.phis b = .ok phis ∧ ∀ id pos, blk.insts[pos]? = some id →
      (m.checkInstShape f b blk.name phis.length preds
        (BlockId.withoutRepeats (BlockId.sort preds)) pos id).Passes () := by
  rw [checkBlockShape] at h
  obtain ⟨blk, hblk, h⟩ := Check.passes_bind.mp h
  obtain ⟨phis, hphis, h⟩ := Check.passes_bind.mp h
  obtain ⟨u, hinsts, -⟩ := Check.passes_bind.mp h
  refine ⟨blk, phis, Check.passes_lift.mp hblk, Check.passes_lift.mp hphis, fun id pos hpos => ?_⟩
  exact Check.passes_forM.mp hinsts (id, pos) (List.mk_mem_zipIdx_iff_getElem?.mpr hpos)

end Module

namespace Function.WellFormed

variable {m : Module} {f : Function} {b : BlockId} {id : InstId} {pos : Nat} {ty : Ty}
  {incoming : List (Value × BlockId)} {phis : List InstId}

/-- A phi is one of those that lead its block. -/
theorem pos_lt_of_phi (hf : f.WellFormed m) (hid : f.Listed id b pos)
    (hkind : f.kind id = .ok (.phi ty incoming)) (hphis : f.phis b = .ok phis) :
    pos < phis.length := by
  obtain ⟨hb, blk, hblk, hpos⟩ := hid
  obtain ⟨preds, -, hshape⟩ := hf.shape b hb
  obtain ⟨blk', phis', hblk', hphis', hinsts⟩ := Module.checkBlockShape_passes hshape
  obtain rfl : blk' = blk := Except.ok.inj (hblk'.symm.trans hblk)
  obtain rfl : phis' = phis := Except.ok.inj (hphis'.symm.trans hphis)
  exact (Module.checkInstShape_phi_passes hkind (hinsts id pos hpos)).1

/-- A phi has an entry for each block from which an edge comes. -/
theorem exists_entry (hf : f.WellFormed m) (hid : f.Listed id b pos)
    (hkind : f.kind id = .ok (.phi ty incoming)) {source : BlockId} (hsource : source ∈ f.layout)
    (hedge : f.Edge source b) : ∃ value, (value, source) ∈ incoming := by
  obtain ⟨hb, blk, hblk, hpos⟩ := hid
  obtain ⟨preds, hpreds, hshape⟩ := hf.shape b hb
  obtain ⟨blk', phis, hblk', hphis, hinsts⟩ := Module.checkBlockShape_passes hshape
  obtain rfl : blk' = blk := Except.ok.inj (hblk'.symm.trans hblk)
  have hsort := (Module.checkInstShape_phi_passes hkind (hinsts id pos hpos)).2
  have hmem : source ∈ BlockId.withoutRepeats (BlockId.sort preds) := by
    rw [BlockId.mem_withoutRepeats, BlockId.mem_sort, mem_edgesInto hpreds]
    exact ⟨hsource, hedge⟩
  rw [← hsort, BlockId.mem_sort] at hmem
  obtain ⟨⟨value, block⟩, hentry, rfl⟩ := List.mem_map.mp hmem
  exact ⟨value, hentry⟩

/-- The phis of a live block can be looked up. -/
theorem phis_eq_ok (hf : f.WellFormed m) (hb : b ∈ f.layout) :
    ∃ blk phis, f.block b = .ok blk ∧ f.phis b = .ok phis := by
  obtain ⟨preds, -, hshape⟩ := hf.shape b hb
  obtain ⟨blk, phis, hblk, hphis, -⟩ := Module.checkBlockShape_passes hshape
  exact ⟨blk, phis, hblk, hphis⟩

end Function.WellFormed

end EdgeProbe
