import EdgeProbe.Proofs.Code.Inserted
import EdgeProbe.Proofs.Code.Changes
import EdgeProbe.Proofs.Validity.Relocated
import EdgeProbe.Proofs.Validity.Sound

/-!
# Instructions that fit in

A function stays sound when instructions are put in behind the phis and the landing pad of a block,
if each of them reads what is no instruction or one that was put in before it. Main statement:
`Function.Sound.withInsts`.
-/

namespace EdgeProbe

namespace Function

variable {m : Module} {exempt : BlockId → Prop} {f : Function} {b c : BlockId} {blk : Block}
  {pos : Nat} {kinds : List InstKind} {kind : InstKind}

/-- The instructions may be put in where the function has no phi and no landing pad any more. -/
structure Hosts (m : Module) (f : Function) (b : BlockId) (pos : Nat) (kinds : List InstKind) :
    Prop where
  plain : ∀ kind ∈ kinds, kind.isPhi = false ∧ kind.isLandingPad = false
  known : ∀ kind ∈ kinds, m.knowsKind (f.withInsts b pos kinds) kind = true
  operands : ∀ (k : Nat) (kind : InstKind), kinds[k]? = some kind → ∀ used, .inst used ∈ kind.operands →
    ∃ j < k, used = ⟨f.insts.size + j⟩
  paired : ∀ kind ∈ kinds, ∀ lhs rhs, kind.paired? = some (lhs, rhs) → ∃ ty,
    (f.withInsts b pos kinds).valueType lhs = .ok ty ∧
      (f.withInsts b pos kinds).valueType rhs = .ok ty
  arity : ∀ target args ret, .call (.direct target) args ret ∈ kinds →
    ∃ g, m.function target = .ok g ∧ g.params.length = args.length
  behind : ∀ id k kind, f.Listed id b k → f.kind id = .ok kind → pos ≤ k →
    kind.isPhi = false ∧ kind.isLandingPad = false

theorem typesKept_withInsts (f : Function) (b : BlockId) (pos : Nat) (kinds : List InstKind) :
    f.TypesKept (f.withInsts b pos kinds) := by
  refine .of_kinds rfl fun id kind hkind => .inl ?_
  rw [kind_withInsts_of_lt f b pos kinds (index_lt_of_kind hkind), hkind]

theorem grows_withInsts (m : Module) (f : Function) (b : BlockId) (pos : Nat)
    (kinds : List InstKind) : m.Grows f m (f.withInsts b pos kinds) :=
  ⟨le_rfl, le_rfl, rfl, by simp, by simp⟩

theorem valueType_withInsts {value : Value} {ty : Ty} (h : f.valueType value = .ok ty) :
    (f.withInsts b pos kinds).valueType value = .ok ty :=
  (typesKept_withInsts f b pos kinds).valueType (by simp) h

/-- A block lists what it did, and what was put in if it is the one. -/
theorem block_withInsts_cases (hblk : f.block b = .ok blk) {blk' : Block}
    (h : (f.withInsts b pos kinds).block c = .ok blk') :
    ∃ blk₀, f.block c = .ok blk₀ ∧ blk'.term = blk₀.term ∧ (blk' = blk₀ ∨ c = b ∧
      blk'.insts = blk.insts.take pos ++ f.nextIds kinds.length ++ blk.insts.drop pos) := by
  rw [block_withInsts] at h
  split at h
  · next hc =>
    subst hc
    rw [hblk] at h
    obtain rfl := Except.ok.inj h
    exact ⟨blk, hblk, rfl, .inr ⟨rfl, rfl⟩⟩
  · exact ⟨blk', h, rfl, .inl rfl⟩

variable (hblk : f.block b = .ok blk) (hpos : pos ≤ blk.insts.length)
include hblk hpos

theorem Listed.withInsts {id : InstId} {k : Nat} (h : f.Listed id c k) :
    (f.withInsts b pos kinds).Listed id c (shifted b pos kinds.length c k) :=
  (listed_withInsts hblk hpos).mpr (.inl ⟨k, h, rfl⟩)

theorem relocates_withInsts : f.Relocates (f.withInsts b pos kinds) id fun c k =>
    (c, shifted b pos kinds.length c k) where
  projects := ⟨fun _ h => h, fun _ _ _ h => .inr ((edge_withInsts f b pos kinds).mp h)⟩
  listed := fun _ _ _ h => h.withInsts hblk hpos
  origin_place := fun _ _ _ _ => rfl
  passes := fun _ _ _ _ _ _ _ _ _ hx heq => heq ▸ hx

theorem Precedes.withInsts (hclosed : (f.withInsts b pos kinds).Closed) {used : InstId}
    {k : Option Nat} (h : f.Precedes used c k) :
    (f.withInsts b pos kinds).Precedes used c (k.map (shifted b pos kinds.length c)) := by
  refine (relocates_withInsts hblk hpos).precedes hclosed rfl h fun j _ hj => ?_
  refine .inl ⟨rfl, fun p hp => ?_⟩
  obtain ⟨p₀, hp₀, rfl⟩ := Option.map_eq_some_iff.mp hp
  exact shifted_lt (hj p₀ hp₀)

/-- A listed instruction of a kind is one from before, which may have moved, or was put in. -/
theorem listed_withInsts_cases (hf : f.Tidy) {id : InstId} {k : Nat}
    (hid : (f.withInsts b pos kinds).Listed id c k)
    (hkind : (f.withInsts b pos kinds).kind id = .ok kind) :
    (∃ j, f.Listed id c j ∧ f.kind id = .ok kind ∧ k = shifted b pos kinds.length c j) ∨
      c = b ∧ ∃ j, kinds[j]? = some kind ∧ k = pos + j ∧ id = ⟨f.insts.size + j⟩ := by
  obtain ⟨j, hold, rfl⟩ | ⟨rfl, -, j, hj, rfl, rfl⟩ := (listed_withInsts hblk hpos).mp hid
  · obtain ⟨inst, hinst, -⟩ := hf.home id c j hold
    rw [kind_withInsts_of_lt f b pos kinds (index_lt_of_inst hinst)] at hkind
    exact .inl ⟨j, hold, hkind, rfl⟩
  · obtain ⟨inst, hinst, rfl⟩ := kind_eq_ok.mp hkind
    obtain ⟨kind, hput, rfl⟩ := inst_withInsts_new.mp hinst
    exact .inr ⟨rfl, j, hput, rfl, rfl⟩

variable (hhosts : f.Hosts m b pos kinds)
include hhosts

omit hblk hpos in
/-- What stands in front of the place stays there. -/
theorem Hosts.front {id : InstId} {k : Nat} (hid : f.Listed id c k)
    (hkind : f.kind id = .ok kind) (hlead : kind.isPhi = true ∨ kind.isLandingPad = true) :
    ¬(c = b ∧ pos ≤ k) := by
  rintro ⟨rfl, hle⟩
  obtain ⟨hphi, hpad⟩ := hhosts.behind id k kind hid hkind hle
  obtain h | h := hlead
  · rw [hphi] at h
    cases h
  · rw [hpad] at h
    cases h

/-- Phis and landing pads are where they were. -/
theorem Hosts.listed_lead (hf : f.Tidy) {id : InstId} {k : Nat}
    (hid : (f.withInsts b pos kinds).Listed id c k)
    (hkind : (f.withInsts b pos kinds).kind id = .ok kind)
    (hlead : kind.isPhi = true ∨ kind.isLandingPad = true) :
    f.Listed id c k ∧ f.kind id = .ok kind ∧ ¬(c = b ∧ pos ≤ k) := by
  obtain ⟨j, hold, hkind₀, rfl⟩ | ⟨rfl, j, hj, rfl, rfl⟩ := listed_withInsts_cases hblk hpos hf hid hkind
  · have hfront := hhosts.front hold hkind₀ hlead
    rw [shifted, if_neg hfront]
    exact ⟨hold, hkind₀, hfront⟩
  · obtain ⟨hphi, hpad⟩ := hhosts.plain kind (List.mem_of_getElem? hj)
    obtain h | h := hlead
    · rw [hphi] at h
      cases h
    · rw [hpad] at h
      cases h

omit hhosts in
/-- What stands before a phi or a landing pad stood there before. -/
theorem listed_before {id' : InstId} {k before : Nat} (hfront : ¬(c = b ∧ pos ≤ k))
    (hbefore : before < k) (hid' : (f.withInsts b pos kinds).Listed id' c before) :
    f.Listed id' c before := by
  obtain ⟨j, hold, rfl⟩ | ⟨rfl, -, j, -, rfl, -⟩ := (listed_withInsts hblk hpos).mp hid'
  · have hj : ¬(c = b ∧ pos ≤ j) := by
      rintro ⟨rfl, hle⟩
      rw [shifted, if_pos ⟨rfl, hle⟩] at hbefore
      exact hfront ⟨rfl, by omega⟩
    rw [shifted, if_neg hj] at hbefore ⊢
    exact hold
  · exact absurd ⟨rfl, by omega⟩ hfront

theorem Hosts.tidy (hf : f.Tidy) : (f.withInsts b pos kinds).Tidy where
  closed := {
    inArena := fun c hc => by simpa using hf.closed.inArena c hc
    toLive := fun a ha c hedge => hf.closed.toLive a ha c ((edge_withInsts f b pos kinds).mp hedge) }
  home := by
    intro id c k hid
    obtain ⟨j, hold, rfl⟩ | ⟨rfl, -, j, hj, rfl, rfl⟩ := (listed_withInsts hblk hpos).mp hid
    · obtain ⟨inst, hinst, hblock⟩ := hf.home id c j hold
      refine ⟨inst, ?_, hblock⟩
      rw [inst_withInsts_of_lt f b pos kinds (index_lt_of_inst hinst), hinst]
    · exact ⟨_, inst_withInsts_new.mpr ⟨_, List.getElem?_eq_getElem hj, rfl⟩, rfl⟩
  nodup := by
    intro c hc blk' hblk'
    obtain ⟨blk₀, hblk₀, -, rfl | ⟨rfl, hinsts⟩⟩ := block_withInsts_cases hblk hblk'
    · exact hf.nodup c hc blk' hblk₀
    obtain rfl := Except.ok.inj (hblk.symm.trans hblk₀)
    have hold := hf.nodup c hc blk hblk
    have hlt : ∀ id ∈ blk.insts, id.index < f.insts.size := by
      intro id hid
      obtain ⟨k, hk⟩ := List.mem_iff_getElem?.mp hid
      obtain ⟨inst, hinst, -⟩ := hf.home id c k ⟨hc, blk, hblk, hk⟩
      exact index_lt_of_inst hinst
    rw [hinsts, List.append_assoc]
    have hperm : (blk.insts.take pos ++ (f.nextIds kinds.length ++ blk.insts.drop pos)).Perm
        (f.nextIds kinds.length ++ (blk.insts.take pos ++ blk.insts.drop pos)) :=
      List.perm_append_comm_assoc _ _ _
    rw [hperm.nodup_iff, List.take_append_drop, List.nodup_append]
    refine ⟨nodup_nextIds f _, hold, ?_⟩
    rintro id hid id' hid' rfl
    have := (mem_nextIds.mp hid).1
    have := hlt id hid'
    omega
  operands := by
    intro id c k kind hid hkind value hvalue
    rw [size_insts_withInsts]
    obtain ⟨j, hold, hkind₀, -⟩ | ⟨rfl, j, hj, rfl, rfl⟩ := listed_withInsts_cases hblk hpos hf hid hkind
    · exact (hf.operands id c j kind hold hkind₀ value hvalue).mono (Nat.le_add_right _ _)
    · cases value with
      | inst used =>
        obtain ⟨i, hi, rfl⟩ := hhosts.operands j kind hj used hvalue
        have := (List.getElem?_eq_some_iff.mp hj).1
        exact Nat.add_lt_add_left (by omega) _
      | _ => trivial
  termOperands := by
    intro c hc blk' hblk' value hvalue
    obtain ⟨blk₀, hblk₀, hterm, -⟩ := block_withInsts_cases hblk hblk'
    rw [hterm] at hvalue
    rw [size_insts_withInsts]
    exact (hf.termOperands c hc blk₀ hblk₀ value hvalue).mono (Nat.le_add_right _ _)
  sources := by
    intro id c k ty incoming hid hkind entry hentry
    obtain ⟨hid₀, hkind₀, -⟩ := hhosts.listed_lead hblk hpos hf hid hkind (.inl rfl)
    simpa using hf.sources id c k ty incoming hid₀ hkind₀ entry hentry
  phisLead := by
    intro id c k ty incoming hid hkind before hbefore id' hid'
    obtain ⟨hid₀, hkind₀, hfront⟩ := hhosts.listed_lead hblk hpos hf hid hkind (.inl rfl)
    have hid'₀ := listed_before hblk hpos hfront hbefore hid'
    obtain ⟨ty', incoming', hphi⟩ := hf.phisLead id c k ty incoming hid₀ hkind₀ before hbefore id' hid'₀
    refine ⟨ty', incoming', ?_⟩
    rw [kind_withInsts_of_lt f b pos kinds (index_lt_of_kind hphi), hphi]
  entries := by
    intro id c k ty incoming hid hkind source hsource hedge
    obtain ⟨hid₀, hkind₀, -⟩ := hhosts.listed_lead hblk hpos hf hid hkind (.inl rfl)
    exact hf.entries id c k ty incoming hid₀ hkind₀ source hsource ((edge_withInsts f b pos kinds).mp hedge)

omit hpos in
theorem Hosts.named (hf : f.Named m) : (f.withInsts b pos kinds).Named m where
  insts := by
    intro c blk' hblk' id hid
    rw [size_insts_withInsts]
    obtain ⟨blk₀, hblk₀, -, rfl | ⟨rfl, hinsts⟩⟩ := block_withInsts_cases hblk hblk'
    · exact (hf.insts c blk' hblk₀ id hid).trans_le (Nat.le_add_right _ _)
    · have hold : ∀ id ∈ blk.insts, id.index < f.insts.size + kinds.length := fun id hid =>
        (hf.insts c blk hblk id hid).trans_le (Nat.le_add_right _ _)
      rw [hinsts, List.append_assoc, List.mem_append, List.mem_append] at hid
      obtain hid | hid | hid := hid
      · exact hold id (List.mem_of_mem_take hid)
      · exact (mem_nextIds.mp hid).2
      · exact hold id (List.mem_of_mem_drop hid)
  successors := by
    intro c blk' hblk' s hs
    obtain ⟨blk₀, hblk₀, hterm, -⟩ := block_withInsts_cases hblk hblk'
    rw [hterm] at hs
    simpa using hf.successors c blk₀ hblk₀ s hs
  terminators := by
    intro c blk' hblk'
    obtain ⟨blk₀, hblk₀, hterm, -⟩ := block_withInsts_cases hblk hblk'
    rw [hterm]
    exact (grows_withInsts m f b pos kinds).knowsTerminator (hf.terminators c blk₀ hblk₀)
  kinds := by
    intro id kind hkind
    obtain hkind | ⟨k, hk, rfl⟩ := kind_withInsts_cases hkind
    · exact (grows_withInsts m f b pos kinds).knowsKind (hf.kinds id kind hkind)
    · exact hhosts.known kind (List.mem_of_getElem? hk)
  tokens := by
    intro id hid
    rw [size_insts_withInsts]
    exact (hf.tokens id hid).trans_le (Nat.le_add_right _ _)

theorem Sound.withInsts (hs : f.Sound m exempt) : (f.withInsts b pos kinds).Sound m exempt where
  tidy := hhosts.tidy hblk hpos hs.tidy
  named := hhosts.named hblk hs.named
  layout := hs.layout
  unwind := by
    intro c hc blk' hblk' callee args normal unwind hterm
    obtain ⟨blk₀, hblk₀, hterm₀, -⟩ := block_withInsts_cases hblk hblk'
    obtain ⟨id, k, hid, hkind⟩ := hs.unwind c hc blk₀ hblk₀ callee args normal unwind (hterm₀ ▸ hterm)
    refine ⟨id, _, hid.withInsts hblk hpos, ?_⟩
    rw [kind_withInsts_of_lt f b pos kinds (index_lt_of_kind hkind), hkind]
  sources := by
    intro id c k ty incoming hid hkind
    obtain ⟨hid₀, hkind₀, -⟩ := hhosts.listed_lead hblk hpos hs.tidy hid hkind (.inl rfl)
    obtain ⟨hnodup, hsources⟩ := hs.sources id c k ty incoming hid₀ hkind₀
    refine ⟨hnodup, fun source hsource => ?_⟩
    exact ⟨(hsources source hsource).1, (edge_withInsts f b pos kinds).mpr (hsources source hsource).2⟩
  padsLead := by
    intro id c k hid hkind before hbefore id' hid'
    obtain ⟨hid₀, hkind₀, hfront⟩ := hhosts.listed_lead hblk hpos hs.tidy hid hkind (.inr rfl)
    have hid'₀ := listed_before hblk hpos hfront hbefore hid'
    obtain ⟨ty, incoming, hphi⟩ := hs.padsLead id c k hid₀ hkind₀ before hbefore id' hid'₀
    refine ⟨ty, incoming, ?_⟩
    rw [kind_withInsts_of_lt f b pos kinds (index_lt_of_kind hphi), hphi]
  padEdges := by
    intro id c k hid hkind hexempt
    obtain ⟨hid₀, hkind₀, -⟩ := hhosts.listed_lead hblk hpos hs.tidy hid hkind (.inr rfl)
    obtain ⟨⟨a, ha, haedge⟩, hunwinds⟩ := hs.padEdges id c k hid₀ hkind₀ hexempt
    refine ⟨⟨a, ha, (edge_withInsts f b pos kinds).mpr haedge⟩, fun a ha haedge => ?_⟩
    obtain ⟨blk₀, callee, args, normal, hblk₀, hterm, hne⟩ :=
      hunwinds a ha ((edge_withInsts f b pos kinds).mp haedge)
    unfold Unwinds
    rw [block_withInsts]
    split
    · rw [hblk₀]
      exact ⟨_, callee, args, normal, rfl, hterm, hne⟩
    · exact ⟨blk₀, callee, args, normal, hblk₀, hterm, hne⟩
  paired := by
    intro id c k kind lhs rhs hid hkind hpair
    obtain ⟨j, hold, hkind₀, -⟩ | ⟨rfl, j, hj, rfl, rfl⟩ :=
      listed_withInsts_cases hblk hpos hs.tidy hid hkind
    · obtain ⟨ty, hl, hr⟩ := hs.paired id c j kind lhs rhs hold hkind₀ hpair
      exact ⟨ty, valueType_withInsts hl, valueType_withInsts hr⟩
    · exact hhosts.paired kind (List.mem_of_getElem? hj) lhs rhs hpair
  arity := by
    intro id c k target args ret hid hkind
    obtain ⟨j, hold, hkind₀, -⟩ | ⟨rfl, j, hj, rfl, rfl⟩ :=
      listed_withInsts_cases hblk hpos hs.tidy hid hkind
    · exact hs.arity id c j target args ret hold hkind₀
    · exact hhosts.arity target args ret (List.mem_of_getElem? hj)
  conditions := by
    intro c hc blk' hblk' cond onTrue onFalse hterm
    obtain ⟨blk₀, hblk₀, hterm₀, -⟩ := block_withInsts_cases hblk hblk'
    exact valueType_withInsts (hs.conditions c hc blk₀ hblk₀ cond onTrue onFalse (hterm₀ ▸ hterm))
  phiUses := by
    intro id c k ty incoming hid hkind used source hmem
    obtain ⟨hid₀, hkind₀, -⟩ := hhosts.listed_lead hblk hpos hs.tidy hid hkind (.inl rfl)
    have hprec := hs.phiUses id c k ty incoming hid₀ hkind₀ used source hmem
    simpa using hprec.withInsts hblk hpos (hhosts.tidy hblk hpos hs.tidy).closed
  uses := by
    intro id c k kind hid hkind hphi used hused
    obtain ⟨j, hold, hkind₀, rfl⟩ | ⟨rfl, j, hj, rfl, rfl⟩ :=
      listed_withInsts_cases hblk hpos hs.tidy hid hkind
    · have hprec := hs.uses id c j kind hold hkind₀ hphi used hused
      simpa using hprec.withInsts hblk hpos (hhosts.tidy hblk hpos hs.tidy).closed
    · obtain ⟨i, hi, rfl⟩ := hhosts.operands j kind hj used hused
      have hj' := (List.getElem?_eq_some_iff.mp hj).1
      refine ⟨c, pos + i, ?_, fun _ => .inl ⟨rfl, fun p hp => ?_⟩⟩
      · exact (listed_withInsts hblk hpos).mpr
          (.inr ⟨rfl, hid.1, i, by omega, rfl, rfl⟩)
      · obtain rfl := Option.some.inj hp
        omega
  termUses := by
    intro c hc blk' hblk' used hused
    obtain ⟨blk₀, hblk₀, hterm, -⟩ := block_withInsts_cases hblk hblk'
    rw [hterm] at hused
    simpa using (hs.termUses c hc blk₀ hblk₀ used hused).withInsts hblk hpos
      (hhosts.tidy hblk hpos hs.tidy).closed

end Function

end EdgeProbe
