import EdgeProbe.Proofs.Code.Changes

/-!
# Chains of operands

The type of an instruction may be that of an operand, and an address may be a constant distance from
another one. Both are followed from operand to operand, and no more steps are needed than there are
instructions unless a chain comes back to where it was. Main statements: `Function.exists_valueType`
and `Module.exists_constantBytes?`.
-/

namespace EdgeProbe

namespace InstKind

/-- The address that another one is a constant distance from. -/
def addressBase? : InstKind → Option Value
  | .gep base (.const (.int _ _)) => some base
  | _ => none

theorem mem_operands_of_typeOperand? {kind : InstKind} {operand : Value}
    (h : kind.typeOperand? = some operand) : operand ∈ kind.operands := by
  cases kind with
  | binary op lhs rhs =>
    obtain rfl := Option.some.inj h
    exact List.mem_cons_self
  | select cond onTrue onFalse =>
    obtain rfl := Option.some.inj h
    exact List.mem_cons_of_mem _ List.mem_cons_self
  | _ => cases h

theorem mem_operands_of_addressBase? {kind : InstKind} {operand : Value}
    (h : kind.addressBase? = some operand) : operand ∈ kind.operands := by
  cases kind with
  | gep base offset =>
    cases offset with
    | const c =>
      cases c with
      | int width bits =>
        obtain rfl := Option.some.inj h
        exact List.mem_cons_self
      | null => cases h
    | _ => cases h
  | _ => cases h

end InstKind

namespace Function

variable {f f' : Function} {next : InstKind → Option Value} {n n' : Nat} {value : Value}

/-- The chain goes on from one instruction to another. -/
def Follows (f : Function) (next : InstKind → Option Value) (a b : InstId) : Prop :=
  ∃ kind, f.kind a = .ok kind ∧ next kind = some (.inst b)

/-- No chain comes back to where it was. -/
def Acyclic (f : Function) (next : InstKind → Option Value) : Prop :=
  ∀ id, ¬Relation.TransGen (f.Follows next) id id

/-- The chain from a value ends after that many steps. -/
inductive Chain (f : Function) (next : InstKind → Option Value) : Nat → Value → Prop
  | other {value : Value} (h : value.inst? = none) : Chain f next 0 value
  | last {id : InstId} {kind : InstKind} (hkind : f.kind id = .ok kind) (h : next kind = none) :
    Chain f next 0 (.inst id)
  | step {n : Nat} {id : InstId} {kind : InstKind} {operand : Value} (hkind : f.kind id = .ok kind)
    (h : next kind = some operand) (hrest : Chain f next n operand) : Chain f next (n + 1) (.inst id)

/-- The chain from a value ends. -/
def Ends (f : Function) (next : InstKind → Option Value) (value : Value) : Prop :=
  ∃ n, f.Chain next n value

theorem Chain.unique (h : f.Chain next n value) (h' : f.Chain next n' value) : n = n' := by
  induction h generalizing n' with
  | other h =>
    cases h' with
    | other => rfl
    | last => cases h
    | step => cases h
  | last hkind hnone =>
    cases h' with
    | other h => cases h
    | last => rfl
    | step hkind' hsome =>
      obtain rfl := Except.ok.inj (hkind.symm.trans hkind')
      cases hnone.symm.trans hsome
  | step hkind hsome _ ih =>
    cases h' with
    | other h => cases h
    | last hkind' hnone =>
      obtain rfl := Except.ok.inj (hkind.symm.trans hkind')
      cases hnone.symm.trans hsome
    | step hkind' hsome' hrest =>
      obtain rfl := Except.ok.inj (hkind.symm.trans hkind')
      obtain rfl := Option.some.inj (hsome.symm.trans hsome')
      rw [ih hrest]

/-- On a chain there is an instruction for each number of steps that are left. -/
theorem Chain.exists_inst (h : f.Chain next n value) :
    ∀ k < n, ∃ id : InstId, id.index < f.insts.size ∧ f.Chain next (k + 1) (.inst id) := by
  induction h with
  | other => simp
  | last => simp
  | @step n id kind operand hkind hsome hrest ih =>
    intro k hk
    obtain rfl | hlt := Nat.eq_or_lt_of_le (Nat.le_of_lt_succ hk)
    · exact ⟨id, index_lt_of_kind hkind, .step hkind hsome hrest⟩
    · exact ih k hlt

/-- A chain that ends has no more steps than there are instructions: none is met twice. -/
theorem Chain.le_size (h : f.Chain next n value) : n ≤ f.insts.size := by
  choose! at' hlt hchain using h.exists_inst
  have hinjective : Function.Injective fun k : Fin n =>
      (⟨(at' k).index, hlt k k.isLt⟩ : Fin f.insts.size) := by
    intro j k heq
    have hsame : at' j = at' k := congrArg InstId.mk (Fin.mk.inj heq)
    have hj := hchain j j.isLt
    rw [hsame] at hj
    have := hj.unique (hchain k k.isLt)
    ext
    omega
  simpa using Fintype.card_le_of_injective _ hinjective

/-- Chains still end where each instruction is what it was or a phi, from which none goes on. -/
theorem Ends.changed (hphi : ∀ ty incoming, next (.phi ty incoming) = none)
    (hkinds : ∀ id kind, f.kind id = .ok kind →
      f'.kind id = .ok kind ∨ ∃ ty incoming, f'.kind id = .ok (.phi ty incoming))
    (h : f.Ends next value) : f'.Ends next value := by
  obtain ⟨n, h⟩ := h
  induction h with
  | other h => exact ⟨0, .other h⟩
  | last hkind hnone =>
    obtain hkind' | ⟨ty, incoming, hkind'⟩ := hkinds _ _ hkind
    · exact ⟨0, .last hkind' hnone⟩
    · exact ⟨0, .last hkind' (hphi ty incoming)⟩
  | step hkind hsome _ ih =>
    obtain hkind' | ⟨ty, incoming, hkind'⟩ := hkinds _ _ hkind
    · obtain ⟨n, hrest⟩ := ih
      exact ⟨n + 1, .step hkind' hsome hrest⟩
    · exact ⟨0, .last hkind' (hphi ty incoming)⟩

/-- The chain from an instruction ends if that from the operand it goes on to does. -/
theorem Ends.of_operand {id : InstId} {kind : InstKind} (hkind : f.kind id = .ok kind)
    (h : ∀ operand, next kind = some operand → f.Ends next operand) : f.Ends next (.inst id) := by
  cases hnext : next kind with
  | none => exact ⟨0, .last hkind hnext⟩
  | some operand =>
    obtain ⟨n, hrest⟩ := h operand hnext
    exact ⟨n + 1, .step hkind hnext hrest⟩

/-- All chains end where none comes back and none leaves the arena. -/
theorem Acyclic.ends (h : f.Acyclic next)
    (hinArena : ∀ id kind operand, f.kind id = .ok kind → next kind = some (.inst operand) →
      operand.index < f.insts.size) {id : InstId} (hid : id.index < f.insts.size) :
    f.Ends next (.inst id) := by
  let below : Fin f.insts.size → Fin f.insts.size → Prop :=
    fun i j => Relation.TransGen (f.Follows next) ⟨j⟩ ⟨i⟩
  have htrans : IsTrans _ below := ⟨fun _ _ _ hij hjk => hjk.trans hij⟩
  have hirrefl : Std.Irrefl below := ⟨fun i => h ⟨i⟩⟩
  have hwf : WellFounded below := Finite.wellFounded_of_trans_of_irrefl below
  have hends : ∀ i : Fin f.insts.size, f.Ends next (.inst ⟨i⟩) := by
    intro i
    induction i using hwf.induction with
    | _ i ih =>
      have hkind : f.kind ⟨i⟩ = .ok f.insts[i].kind :=
        kind_eq_ok.mpr ⟨f.insts[i], inst_eq_ok.mpr (by simp), rfl⟩
      refine .of_operand hkind fun operand hnext => ?_
      cases operand with
      | inst j =>
        have hlt := hinArena _ _ _ hkind hnext
        exact ih ⟨j.index, hlt⟩ (.single ⟨_, hkind, hnext⟩)
      | _ => exact ⟨0, .other rfl⟩
  exact hends ⟨id.index, hid⟩

/-- No chain comes back where each goes down. -/
theorem acyclic_of_descending (h : ∀ entry ∈ f.insts.toList.zipIdx,
    ∀ operand ∈ (next entry.1.kind).bind Value.inst?, operand.index < entry.2) :
    f.Acyclic next := by
  have hstep : ∀ a b, f.Follows next a b → b.index < a.index := by
    rintro a b ⟨kind, hkind, hnext⟩
    obtain ⟨inst, hinst, rfl⟩ := kind_eq_ok.mp hkind
    have hmem : (inst, a.index) ∈ f.insts.toList.zipIdx :=
      List.mk_mem_zipIdx_iff_getElem?.mpr (by simpa using inst_eq_ok.mp hinst)
    exact h _ hmem b (by rw [hnext]; rfl)
  have hpath : ∀ a b, Relation.TransGen (f.Follows next) a b → b.index < a.index := by
    intro a b hab
    induction hab with
    | single h => exact hstep _ _ h
    | tail _ h ih => exact (hstep _ _ h).trans ih
  exact fun id hid => lt_irrefl _ (hpath id id hid)

/-! ## Types -/

/-- The value has the type, however long one has to follow its operands. -/
def HasType (f : Function) (value : Value) (ty : Ty) : Prop :=
  ∃ depth, f.valueTypeWithin depth value = .ok ty

theorem Chain.exists_valueTypeWithin (h : f.Chain InstKind.typeOperand? n value) :
    ∃ ty, f.valueTypeWithin n value = .ok ty := by
  induction h with
  | @other value h =>
    cases value with
    | inst id => cases h
    | const c => cases c <;> exact ⟨_, by unfold valueTypeWithin; rfl⟩
    | _ => exact ⟨_, by unfold valueTypeWithin; rfl⟩
  | @last id kind hkind hnone =>
    obtain ⟨ty, hty⟩ | ⟨operand, hsome⟩ := kind.type_cases
    · exact ⟨ty, valueTypeWithin_of_fixedType? hkind hty 0⟩
    · cases hnone.symm.trans hsome
  | step hkind hsome _ ih =>
    rw [valueTypeWithin_of_typeOperand? hkind hsome]
    exact ih

/-- A value whose chain ends has a type. -/
theorem exists_valueType (h : f.Ends InstKind.typeOperand? value) :
    ∃ ty, f.valueType value = .ok ty := by
  obtain ⟨n, h⟩ := h
  obtain ⟨ty, hty⟩ := h.exists_valueTypeWithin
  exact ⟨ty, valueTypeWithin_mono h.le_size hty⟩

theorem kind_ne_cyclicType (a id : InstId) : f.kind a ≠ .error (.cyclicType id) := by
  unfold kind inst
  split <;> simp [Except.map]

/-- Where looking for a type is given up, as many instructions have been followed as there were to
be. -/
theorem exists_walk_of_cyclicType {depth : Nat} {a id : InstId}
    (h : f.valueTypeWithin depth (.inst a) = .error (.cyclicType id)) :
    ∃ rest : List InstId, rest.length = depth ∧
      List.IsChain (f.Follows InstKind.typeOperand?) (a :: rest) ∧
      ∀ b ∈ a :: rest, b.index < f.insts.size := by
  induction depth generalizing a with
  | zero =>
    cases hkind : f.kind a with
    | error fault =>
      unfold valueTypeWithin at h
      rw [hkind] at h
      exact absurd (Except.error.inj h ▸ hkind) (kind_ne_cyclicType a id)
    | ok kind => exact ⟨[], rfl, List.isChain_singleton a, by simpa using index_lt_of_kind hkind⟩
  | succ depth ih =>
    cases hkind : f.kind a with
    | error fault =>
      unfold valueTypeWithin at h
      rw [hkind] at h
      exact absurd (Except.error.inj h ▸ hkind) (kind_ne_cyclicType a id)
    | ok kind =>
      obtain ⟨ty, hfixed⟩ | ⟨operand, hoperand⟩ := kind.type_cases
      · cases (valueTypeWithin_of_fixedType? hkind hfixed _).symm.trans h
      · rw [valueTypeWithin_of_typeOperand? hkind hoperand] at h
        cases operand with
        | inst b =>
          obtain ⟨rest, hlength, hchain, hlt⟩ := ih h
          refine ⟨b :: rest, by simp [hlength], hchain.cons_cons ⟨kind, hkind, hoperand⟩, ?_⟩
          exact List.forall_mem_cons.mpr ⟨index_lt_of_kind hkind, hlt⟩
        | const c => cases c <;> (unfold valueTypeWithin at h; cases h)
        | _ => unfold valueTypeWithin at h; cases h

/-- So it is not where no chain comes back. -/
theorem Acyclic.valueType_ne (hf : f.Acyclic InstKind.typeOperand?) (value : Value) (id : InstId) :
    f.valueType value ≠ .error (.cyclicType id) := by
  intro h
  cases value with
  | inst a =>
    obtain ⟨rest, hlength, hchain, hlt⟩ := exists_walk_of_cyclicType h
    have hnodup : (a :: rest).Nodup := by
      have hpath := (hchain.imp fun _ _ => Relation.TransGen.single).pairwise
      refine hpath.imp fun {b c} hbc heq => ?_
      subst heq
      exact hf b hbc
    have hindices : ((a :: rest).map InstId.index).Nodup :=
      hnodup.map fun b c heq => congrArg InstId.mk heq
    have hsubset : (a :: rest).map InstId.index ⊆ List.range f.insts.size := by
      intro n hn
      obtain ⟨b, hb, rfl⟩ := List.mem_map.mp hn
      exact List.mem_range.mpr (hlt b hb)
    have hle := (hindices.subperm hsubset).length_le
    simp only [List.length_map, List.length_cons, List.length_range, hlength] at hle
    omega
  | const c => cases c <;> (unfold valueType valueTypeWithin at h; cases h)
  | _ => unfold valueType valueTypeWithin at h; cases h

/-- A value has no type that it did not have before where what became of instructions has none. -/
theorem HasType.reflect {ty : Ty} (inArena : Value → Prop) (hparams : f'.params = f.params)
    (hoperands : ∀ id kind operand, f.kind id = .ok kind → kind.typeOperand? = some operand →
      inArena operand)
    (hkinds : ∀ id, inArena (.inst id) → ∃ kind, f.kind id = .ok kind ∧
      (f'.kind id = .ok kind ∨ ∃ kind', f'.kind id = .ok kind' ∧ kind'.typeOperand? = none ∧
        (kind'.fixedType? = some ty → f.HasType (.inst id) ty)))
    (h : f'.HasType value ty) (hvalue : inArena value) : f.HasType value ty := by
  obtain ⟨depth, h⟩ := h
  have hinst : ∀ depth (id : InstId), inArena (.inst id) →
      f'.valueTypeWithin depth (.inst id) = .ok ty →
      (∀ kind operand, f.kind id = .ok kind → f'.kind id = .ok kind →
        kind.typeOperand? = some operand → f.HasType (.inst id) ty) → f.HasType (.inst id) ty := by
    intro depth id hid h hoperand
    obtain ⟨kind, hkind, hkind' | ⟨kind', hkind', hnone, hty⟩⟩ := hkinds id hid
    · obtain ⟨ty₀, hfixed⟩ | ⟨operand, hsome⟩ := kind.type_cases
      · rw [valueTypeWithin_of_fixedType? hkind' hfixed] at h
        exact ⟨depth, (valueTypeWithin_of_fixedType? hkind hfixed depth).trans h⟩
      · exact hoperand kind operand hkind hkind' hsome
    · obtain ⟨ty₀, hfixed⟩ | ⟨operand, hsome⟩ := kind'.type_cases
      · rw [valueTypeWithin_of_fixedType? hkind' hfixed] at h
        exact hty (hfixed.trans (congrArg some (Except.ok.inj h)))
      · cases hnone.symm.trans hsome
  induction depth generalizing value with
  | zero =>
    cases value with
    | inst id =>
      refine hinst 0 id hvalue h fun kind operand _ hkind' hsome => ?_
      rw [valueTypeWithin_zero_of_typeOperand? hkind' hsome] at h
      cases h
    | _ => exact ⟨0, (valueTypeWithin_eq hparams rfl 0 0).symm.trans h⟩
  | succ depth ih =>
    cases value with
    | inst id =>
      refine hinst (depth + 1) id hvalue h fun kind operand hkind hkind' hsome => ?_
      rw [valueTypeWithin_of_typeOperand? hkind' hsome] at h
      obtain ⟨d, hd⟩ := ih (hoperands id kind operand hkind hsome) h
      exact ⟨d + 1, (valueTypeWithin_of_typeOperand? hkind hsome d).trans hd⟩
    | _ => exact ⟨0, (valueTypeWithin_eq hparams rfl 0 _).symm.trans h⟩

end Function

/-! ## Constant bytes -/

namespace Module

variable {m : Module} {f : Function} {n : Nat} {value : Value}

theorem exists_constantBytesWithin (h : f.Chain InstKind.addressBase? n value)
    (hglobal : ∀ id, value = .global id → id.index < m.globals.size)
    (hbases : ∀ id kind g, f.kind id = .ok kind → kind.addressBase? = some (.global g) →
      g.index < m.globals.size) {depth : Nat} (hdepth : n ≤ depth) :
    ∃ bytes?, m.constantBytesWithin f depth value = .ok bytes? := by
  induction h generalizing depth with
  | @other value h =>
    cases value with
    | inst id => cases h
    | global id =>
      have hlt := hglobal id rfl
      have hg : m.global id = .ok m.globals[id.index] := by simp [global, hlt]
      unfold constantBytesWithin
      rw [hg]
      dsimp only [bind, Except.bind]
      split
      · exact ⟨_, rfl⟩
      · exact ⟨_, rfl⟩
    | _ => exact ⟨none, by unfold constantBytesWithin; rfl⟩
  | @last id kind hkind hnone =>
    refine ⟨none, ?_⟩
    unfold constantBytesWithin
    rw [hkind]
    dsimp only [bind, Except.bind]
    split
    · cases hnone
    · rfl
  | @step n id kind operand hkind hsome hrest ih =>
    obtain ⟨depth, rfl⟩ := Nat.exists_eq_add_of_le' (Nat.le_trans (Nat.succ_pos n) hdepth)
    obtain ⟨bytes?, hbytes⟩ := ih (fun g hg => hbases id kind g hkind (hg ▸ hsome))
      (Nat.le_of_succ_le_succ hdepth)
    unfold constantBytesWithin
    rw [hkind]
    dsimp only [bind, Except.bind]
    split
    · next base width bits =>
      obtain rfl := Option.some.inj hsome
      rw [hbytes]
      exact ⟨_, rfl⟩
    · next hnot =>
      cases kind with
      | gep base offset =>
        cases offset with
        | const c =>
          cases c with
          | int width bits => exact absurd rfl (hnot base width bits)
          | null => cases hsome
        | _ => cases hsome
      | _ => cases hsome

/-- It can be told of every value of a known module whose chain ends which bytes it designates. -/
theorem exists_constantBytes? (h : f.Ends InstKind.addressBase? value)
    (hglobal : ∀ id, value = .global id → id.index < m.globals.size)
    (hbases : ∀ id kind g, f.kind id = .ok kind → kind.addressBase? = some (.global g) →
      g.index < m.globals.size) : ∃ bytes?, m.constantBytes? f value = .ok bytes? := by
  obtain ⟨n, h⟩ := h
  exact exists_constantBytesWithin h hglobal hbases h.le_size

/-- No type of the module is followed back to where it was looked for. -/
def EndsTypes (m : Module) : Prop :=
  ∀ f ∈ m.functions, f.isDeclaration = false → f.Acyclic InstKind.typeOperand?

end Module

end EdgeProbe
