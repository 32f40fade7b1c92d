import EdgeProbe.Proofs.Lowering.Compares
import EdgeProbe.Proofs.Safety.Pipeline

/-!
# When taking integer comparisons apart is refused

The widths of all comparisons are looked at before anything is changed, and nothing that comes later
is refused: a token of a compared integer takes the place of the one before it, so there is always
room for it. Main statement: `Module.Accepted.splitCompares_refused`.
-/

namespace EdgeProbe

variable {σ ε α β : Type}

/-! ## What is never refused -/

/-- The computation may fault, but it is never refused. -/
def Unrefused (x : ExceptT ε (StateT σ Checked) α) : Prop :=
  ∀ s cause s', x s ≠ .ok (.error cause, s')

section

variable {x : ExceptT ε (StateT σ Checked) α} {k : α → ExceptT ε (StateT σ Checked) β}

theorem Unrefused.bind (hx : Unrefused x) (hk : ∀ a, Unrefused (k a)) : Unrefused (x >>= k) := by
  intro s cause s' h
  obtain ⟨⟨first, t⟩, hfirst, hrest⟩ := Checked.bind_eq_ok.mp h
  cases first with
  | ok a => exact hk a t cause s' hrest
  | error cause' => exact hx s cause' t hfirst

theorem unrefused_pure (a : α) : Unrefused (pure a : ExceptT ε (StateT σ Checked) α) := by
  intro s cause s' h
  cases Except.ok.inj h

theorem unrefused_get : Unrefused (get : ExceptT ε (StateT σ Checked) σ) := by
  intro s cause s' h
  cases Except.ok.inj h

theorem unrefused_modify (change : σ → σ) :
    Unrefused (modify change : ExceptT ε (StateT σ Checked) PUnit) := by
  intro s cause s' h
  cases Except.ok.inj h

theorem unrefused_lift (question : Checked α) :
    Unrefused (liftM question : ExceptT ε (StateT σ Checked) α) := by
  intro s cause s' h
  cases question with
  | ok a => cases Except.ok.inj h
  | error fault => cases h

theorem Unrefused.forM {g : α → ExceptT ε (StateT σ Checked) Unit} (hg : ∀ a, Unrefused (g a))
    (l : List α) : Unrefused (l.forM g) := by
  induction l with
  | nil => exact unrefused_pure ()
  | cons a rest ih => exact .bind (hg a) fun _ => ih

theorem Unrefused.foldlM {g : β → α → ExceptT ε (StateT σ Checked) β}
    (hg : ∀ b a, Unrefused (g b a)) (l : List α) (b : β) : Unrefused (l.foldlM g b) := by
  induction l generalizing b with
  | nil => exact unrefused_pure b
  | cons a rest ih =>
    rw [List.foldlM_cons]
    exact .bind (hg b a) ih

end

namespace Edit

theorem unrefused_query (question : Function → Checked α) : Unrefused (query question) :=
  .bind unrefused_get fun _ => unrefused_lift _

theorem unrefused_apply (change : Function → Checked (Function × α)) : Unrefused (apply change) := by
  intro f cause f' h
  obtain ⟨changed, -, h⟩ := Checked.bind_eq_ok.mp h
  cases Checked.pure_eq_ok.mp h

theorem unrefused_update (change : Function → Checked Function) : Unrefused (update change) := by
  intro f cause f' h
  obtain ⟨changed, -, h⟩ := Checked.bind_eq_ok.mp h
  cases Checked.pure_eq_ok.mp h

/-- Only tokens of origins that allow several ask for a slot. -/
theorem unrefused_attach (id : InstId) {token : Token} (limits : Limits)
    (hsingle : token.origin.isMultiple = false) : Unrefused (attach id token limits) := by
  intro f cause f' h
  obtain ⟨annotations, hattached⟩ : ∃ annotations,
      f.annotations.attach? id token limits = some annotations := by
    unfold Annotations.attach?
    rw [hsingle]
    exact ⟨_, rfl⟩
  unfold attach at h
  rw [hattached] at h
  cases Except.ok.inj h

theorem unrefused_labelFor (stem : String) (id : InstId) : Unrefused (labelFor stem id) :=
  .bind (unrefused_query _) fun _ => unrefused_pure _

theorem unrefused_emitValue (l : Label) (b : BlockId) (kind : InstKind) (name : String) :
    Unrefused (emitValue l b kind name) :=
  .bind (unrefused_apply _) fun _ => unrefused_pure _

theorem unrefused_splitAt (l : Label) (id : InstId) (name : String) :
    Unrefused (splitAt l id name) := by
  refine .bind (unrefused_query _) fun place => ?_
  split
  · exact unrefused_pure none
  · exact .bind (unrefused_apply _) fun _ => unrefused_pure _

theorem unrefused_simplify (id : InstId) : Unrefused (simplify id) := by
  refine .bind (unrefused_query _) fun kind => ?_
  split
  · exact unrefused_pure ()
  refine .bind (unrefused_labelFor _ id) fun l => .bind (unrefused_splitAt l id _) fun halves => ?_
  split
  · exact unrefused_pure ()
  refine .bind (unrefused_emitValue l _ _ _) fun strict => .bind (unrefused_apply _) fun middle => ?_
  refine .bind (unrefused_emitValue l _ _ _) fun equal => .bind (unrefused_update _) fun _ => ?_
  exact .bind (unrefused_update _) fun _ => unrefused_update _

theorem unrefused_emitSign (l : Label) (b : BlockId) (value shift : Value) (n : String) :
    Unrefused (emitSign l b value shift n) :=
  .bind (unrefused_emitValue l b _ _) fun _ => unrefused_emitValue l b _ _

theorem unrefused_normalizeSign (width : Nat) (id : InstId) : Unrefused (normalizeSign width id) := by
  refine .bind (unrefused_query _) fun kind => ?_
  split
  · exact unrefused_pure ()
  next pred lhs rhs _ =>
  refine .bind (unrefused_labelFor _ id) fun l => .bind (unrefused_splitAt l id _) fun halves => ?_
  split
  · exact unrefused_pure ()
  next head join =>
  have hrest : ∀ shift : Value, Unrefused (do
      let sign0 ← emitSign l head lhs shift "0"
      let sign1 ← emitSign l head rhs shift "1"
      let sameSign ← emitValue l head (.icmp .eq sign0 sign1) "EQ01"
      let signBlock ← blockBefore l "NewBB.SignNEq" join
      let bySign ← emitValue l signBlock (.icmp pred.ofSigns sign0 sign1) "ICmp.Sign"
      setTerminator signBlock (.br join)
      let middle ← blockBefore l "NewBB.SignEq" join
      let byValue ← emitValue l middle (.icmp pred.unsigned lhs rhs) "ICmp.NewPred"
      setTerminator middle (.br join)
      setTerminator head (.condBr sameSign middle signBlock)
      replaceKind id (.phi .i1 [(byValue, middle), (bySign, signBlock)]) : Edit Unit) := by
    intro shift
    refine .bind (unrefused_emitSign l head _ _ _) fun sign0 => ?_
    refine .bind (unrefused_emitSign l head _ _ _) fun sign1 => ?_
    refine .bind (unrefused_emitValue l head _ _) fun sameSign => ?_
    refine .bind (unrefused_apply _) fun signBlock => ?_
    refine .bind (unrefused_emitValue l _ _ _) fun bySign => .bind (unrefused_update _) fun _ => ?_
    refine .bind (unrefused_apply _) fun middle => ?_
    refine .bind (unrefused_emitValue l _ _ _) fun byValue => .bind (unrefused_update _) fun _ => ?_
    exact .bind (unrefused_update _) fun _ => unrefused_update _
  dsimp only
  split
  · exact .bind (unrefused_query _) fun _ => hrest _
  · exact hrest _

theorem unrefused_simplifyAll : Unrefused simplifyAll := by
  refine .bind (unrefused_query _) fun sites => ?_
  have hloop := Unrefused.forM (fun site : InstId × Nat => unrefused_simplify site.1) sites
  exact .bind hloop fun _ => unrefused_pure _

theorem unrefused_normalizeSigns : Unrefused normalizeSigns := by
  refine .bind (unrefused_query _) fun sites => ?_
  have hloop := Unrefused.forM
    (fun site : InstId × Nat => unrefused_normalizeSign site.2 site.1) sites
  exact .bind hloop fun _ => unrefused_pure _

theorem unrefused_emitHigh (l : Label) (b : BlockId) (width : Nat) (value : Value) (n : String) :
    Unrefused (emitHigh l b width value n) :=
  .bind (unrefused_emitValue l b _ _) fun _ => unrefused_emitValue l b _ _

theorem unrefused_compareLow (l : Label) (name : String) (width : Nat) (pred : Predicate)
    (lhs rhs : Value) (join : BlockId) : Unrefused (compareLow l name width pred lhs rhs join) := by
  refine .bind (unrefused_apply _) fun block => ?_
  refine .bind (unrefused_emitValue l _ _ _) fun low0 => ?_
  refine .bind (unrefused_emitValue l _ _ _) fun low1 => .bind (unrefused_apply _) fun low => ?_
  exact .bind (unrefused_update _) fun _ => unrefused_pure _

theorem unrefused_halve (width : Nat) (id : InstId) (pred : Predicate) (lhs rhs : Value) :
    Unrefused (halve width id pred lhs rhs) := by
  refine .bind (unrefused_labelFor _ id) fun l => .bind (unrefused_splitAt l id _) fun halves => ?_
  split
  · exact unrefused_pure ()
  next head join =>
  refine .bind (unrefused_emitHigh l _ _ _ _) fun high0 => ?_
  refine .bind (unrefused_emitHigh l _ _ _ _) fun high1 => .bind (unrefused_apply _) fun high => ?_
  split
  · refine .bind (unrefused_compareLow l _ _ _ _ _ _) fun low => ?_
    have hrest : Unrefused (do
        replaceKind id (.phi .i1 [(.inst low.2, low.1), (.ofBool (pred == .ne), head)])
        setAnnotations fun a => a.moveOrigin id high .comparedInteger
        markSplit high
        markSplit low.2 : Edit Unit) := by
      refine .bind (unrefused_update _) fun _ => .bind (unrefused_modify _) fun _ => ?_
      exact .bind (unrefused_update _) fun _ => unrefused_update _
    dsimp only
    split
    · exact .bind (unrefused_update _) fun _ => hrest
    · exact .bind (unrefused_update _) fun _ => hrest
  · refine .bind (unrefused_apply _) fun inverseBlock => ?_
    refine .bind (unrefused_emitValue l _ _ _) fun inverse => .bind (unrefused_update _) fun _ => ?_
    refine .bind (unrefused_compareLow l _ _ _ _ _ _) fun low => ?_
    exact .bind (unrefused_update _) fun _ => unrefused_update _

end Edit

namespace Pass

variable {config : Config}

theorem unrefused_query (question : Module → Checked α) : Unrefused (query question) :=
  .bind unrefused_get fun _ => unrefused_lift _

theorem unrefused_inFunction (id : FuncId) {edit : Edit α} (hedit : Unrefused edit) :
    Unrefused (inFunction id edit) := by
  intro s cause s' h
  obtain ⟨f, -, h⟩ := Checked.bind_eq_ok.mp h
  obtain ⟨⟨result, f'⟩, hresult, h⟩ := Checked.bind_eq_ok.mp h
  obtain ⟨rfl, -⟩ := Prod.mk.inj (Checked.pure_eq_ok.mp h)
  exact hedit f cause f' hresult

theorem unrefused_recordCompared (function : FuncId) (id : InstId) (lhs rhs : Value) :
    Unrefused (recordCompared config function id lhs rhs) := by
  unfold recordCompared
  split
  · exact unrefused_pure false
  refine .bind (unrefused_query _) fun provenance => ?_
  dsimp only
  split
  · next token htoken =>
    obtain ⟨value, -, rfl⟩ := Option.map_eq_some_iff.mp htoken
    exact .bind (unrefused_inFunction function (Edit.unrefused_attach id _ rfl)) fun _ =>
      unrefused_pure true
  · exact .bind (unrefused_modify _) fun _ => unrefused_pure true

theorem unrefused_halveCompare (function : FuncId) (width : Nat) (id : InstId) :
    Unrefused (halveCompare config function width id) := by
  refine .bind (unrefused_query _) fun inst => ?_
  split
  · exact unrefused_pure _
  next pred lhs rhs _ =>
  have hrest : ∀ recorded : Bool, Unrefused (do
      if recorded && config.convert != .all then return { recorded }
      if config.convert == .none || width ≤ 8 then return { recorded }
      let name := (← query (·.function function)).name
      debug ("splitting " ++ toString width ++ "-bit " ++ pred.mnemonic ++ " in " ++ name)
      inFunction function (Edit.halve width id pred lhs rhs)
      return { recorded, halved := !inst.split } : Pass Halving) := by
    intro recorded
    dsimp only
    split
    · exact unrefused_pure _
    split
    · exact unrefused_pure _
    refine .bind (unrefused_query _) fun f => .bind (unrefused_modify _) fun _ => ?_
    exact .bind (unrefused_inFunction function (Edit.unrefused_halve _ _ _ _ _)) fun _ =>
      unrefused_pure _
  dsimp only
  split
  · exact .bind (unrefused_recordCompared function id lhs rhs) hrest
  · exact .bind (unrefused_pure false) hrest

theorem unrefused_halveCompares (width : Nat) (stats : CompareStats) (function : FuncId) :
    Unrefused (halveCompares config width stats function) := by
  refine .bind (unrefused_query _) fun sites => .foldlM (fun stats site => ?_) _ stats
  exact .bind (unrefused_halveCompare function width site.1) fun _ => unrefused_pure _

theorem unrefused_normalizeCompares (stats : CompareStats) (function : FuncId) :
    Unrefused (normalizeCompares stats function) := by
  refine .bind (unrefused_inFunction function Edit.unrefused_simplifyAll) fun simplified => ?_
  exact .bind (unrefused_inFunction function Edit.unrefused_normalizeSigns) fun _ => unrefused_pure _

theorem unrefused_reportRecorded (count : Nat) (pairs : List (String × String)) :
    Unrefused (reportRecorded count pairs) := by
  unfold reportRecorded
  split <;> exact unrefused_modify _

theorem unrefused_reportCompares (stats : CompareStats) : Unrefused (reportCompares stats) := by
  unfold reportCompares
  split
  · exact .bind (unrefused_modify _) fun _ => unrefused_reportRecorded _ _
  · exact .bind (unrefused_modify _) fun _ => unrefused_reportRecorded _ _

/-- What follows once all widths have been looked at. -/
def afterWidths (config : Config) (ids : List FuncId) : Pass CompareStats := do
  let stats ←
    if config.convert == .none then pure {} else ids.foldlM normalizeCompares {}
  let stats ← [64, 32, 16, 8].foldlM
    (fun stats width => ids.foldlM (halveCompares config width) stats) stats
  reportCompares stats
  return stats

/-- Once the functions are known, their widths are looked at. -/
theorem splitCompares_eq (config : Config) (s : PassState) : splitCompares config s =
    (s.module.functionIds.forM checkWidths >>= fun _ =>
      afterWidths config s.module.functionIds) s :=
  Course.bind_of_ok (does_functionIds.mpr ⟨rfl, rfl⟩)

theorem unrefused_afterWidths (config : Config) (ids : List FuncId) :
    Unrefused (afterWidths config ids) := by
  have hrest : ∀ stats : CompareStats, Unrefused (do
      let stats ← [64, 32, 16, 8].foldlM
        (fun stats width => ids.foldlM (halveCompares config width) stats) stats
      reportCompares stats
      return stats : Pass CompareStats) := by
    intro stats
    refine .bind (.foldlM (fun stats width => ?_) _ stats) fun stats => ?_
    · exact .foldlM (unrefused_halveCompares width) ids stats
    · exact .bind (unrefused_reportCompares stats) fun _ => unrefused_pure stats
  unfold afterWidths
  dsimp only
  split
  · exact .bind (unrefused_pure _) hrest
  · exact .bind (.foldlM unrefused_normalizeCompares ids _) hrest

end Pass

/-! ## Comparisons of integers wider than a word -/

namespace Function

variable {m : Module} {f : Function} {ids : List InstId} {i : InstId} {width : Nat}

/-- The instruction compares integers, one of which is of this width, and wider than a word. -/
def ComparesWide (f : Function) (i : InstId) (width : Nat) : Prop :=
  ∃ pred lhs rhs, f.kind i = .ok (.icmp pred lhs rhs) ∧
    (f.intWidth? lhs = .ok (some width) ∨ f.intWidth? rhs = .ok (some width)) ∧ 64 < width

/-- Some live comparison is of integers wider than a word. -/
def HasWide (f : Function) : Prop :=
  ∃ ids, f.liveInsts = .ok ids ∧ ∃ i ∈ ids, ∃ width, f.ComparesWide i width

/-- The first live comparison of integers wider than a word, in the order of the layout. -/
def FirstWide (f : Function) (i : InstId) (width : Nat) : Prop :=
  ∃ front back, f.liveInsts = .ok (front ++ i :: back) ∧ f.ComparesWide i width ∧
    ∀ j ∈ front, ∀ width, ¬f.ComparesWide j width

theorem FirstWide.hasWide (h : f.FirstWide i width) : f.HasWide := by
  obtain ⟨front, back, hids, hwide, -⟩ := h
  exact ⟨_, hids, i, by simp, width, hwide⟩

/-- The instruction is there, and what it compares, if it does so, is of one type. -/
def Comparable (f : Function) (i : InstId) : Prop :=
  ∃ kind, f.kind i = .ok kind ∧ ∀ pred lhs rhs, kind = .icmp pred lhs rhs →
    ∃ ty, f.valueType lhs = .ok ty ∧ f.valueType rhs = .ok ty

theorem WellFormed.comparable (hf : f.WellFormed m) (hids : f.liveInsts = .ok ids) (hi : i ∈ ids) :
    f.Comparable i := by
  obtain ⟨b, pos, hlisted⟩ := listed_of_liveInsts hids hi
  obtain ⟨-, blk, hblk, hpos⟩ := id hlisted
  obtain ⟨kind, hkind⟩ := hf.named.exists_kind hblk i (List.mem_of_getElem? hpos)
  refine ⟨kind, hkind, ?_⟩
  rintro pred lhs rhs rfl
  obtain ⟨phis, preds, -, -, hshape⟩ := hf.hasShape hlisted hkind
  exact hshape

theorem Comparable.intWidth? (h : f.Comparable i) {pred : Predicate} {lhs rhs : Value}
    (hkind : f.kind i = .ok (.icmp pred lhs rhs)) :
    ∃ width?, f.intWidth? lhs = .ok width? ∧ f.intWidth? rhs = .ok width? := by
  obtain ⟨kind, hkind', htypes⟩ := h
  obtain rfl := Except.ok.inj (hkind.symm.trans hkind')
  obtain ⟨ty, hlhs, hrhs⟩ := htypes pred lhs rhs rfl
  exact ⟨ty.intWidth?, Checked.map_eq_ok.mpr ⟨ty, hlhs, rfl⟩,
    Checked.map_eq_ok.mpr ⟨ty, hrhs, rfl⟩⟩

/-- The search finds the first one, or there is none. -/
theorem wideComparison?_cases (hids : ∀ i ∈ ids, f.Comparable i) :
    (f.wideComparison? ids = .ok none ∧ ∀ i ∈ ids, ∀ width, ¬f.ComparesWide i width) ∨
      ∃ front i back width, ids = front ++ i :: back ∧ f.wideComparison? ids = .ok (some width) ∧
        f.ComparesWide i width ∧ ∀ j ∈ front, ∀ width, ¬f.ComparesWide j width := by
  induction ids with
  | nil => exact .inl ⟨rfl, List.forall_mem_nil _⟩
  | cons first rest ih =>
    obtain ⟨hfirst, hrest⟩ := List.forall_mem_cons.mp hids
    -- What is found further on is found, if the first instruction is not what is looked for.
    have hskip : f.wideComparison? (first :: rest) = f.wideComparison? rest →
        (∀ width, ¬f.ComparesWide first width) →
        (f.wideComparison? (first :: rest) = .ok none ∧
            ∀ i ∈ first :: rest, ∀ width, ¬f.ComparesWide i width) ∨
          ∃ front i back width, first :: rest = front ++ i :: back ∧
            f.wideComparison? (first :: rest) = .ok (some width) ∧ f.ComparesWide i width ∧
            ∀ j ∈ front, ∀ width, ¬f.ComparesWide j width := by
      intro heq hnot
      obtain ⟨hnone, hall⟩ | ⟨front, i, back, width, rfl, hfound, hwide, hfront⟩ := ih hrest
      · exact .inl ⟨heq.trans hnone, List.forall_mem_cons.mpr ⟨hnot, hall⟩⟩
      · exact .inr ⟨first :: front, i, back, width, rfl, heq.trans hfound, hwide,
          List.forall_mem_cons.mpr ⟨hnot, hfront⟩⟩
    obtain ⟨kind, hkind, -⟩ := id hfirst
    cases hcomparison : kind.comparison? with
    | none =>
      refine hskip (by simp [wideComparison?, hkind, hcomparison, bind, Except.bind]) ?_
      · rintro width ⟨pred, lhs, rhs, hicmp, -⟩
        obtain rfl := Except.ok.inj (hkind.symm.trans hicmp)
        cases hcomparison
    | some compared =>
      obtain ⟨pred, lhs, rhs⟩ := compared
      obtain rfl := InstKind.comparison?_eq_some.mp hcomparison
      obtain ⟨width?, hlhs, hrhs⟩ := hfirst.intWidth? hkind
      have hstep : f.wideComparison? (first :: rest) = width?.elim (f.wideComparison? rest) fun width =>
          if 64 < width then .ok (some width) else f.wideComparison? rest := by
        rw [wideComparison?, hkind]
        simp only [InstKind.comparison?, hlhs, bind, Except.bind]
        cases width? <;> rfl
      have hwidths : ∀ width, f.ComparesWide first width → width? = some width ∧ 64 < width := by
        rintro width ⟨pred', lhs', rhs', hicmp, hwidth, hlt⟩
        obtain ⟨rfl, rfl, rfl⟩ := InstKind.icmp.inj (Except.ok.inj (hkind.symm.trans hicmp))
        rw [hlhs, hrhs, or_self] at hwidth
        exact ⟨Except.ok.inj hwidth, hlt⟩
      cases width? with
      | none => exact hskip hstep fun width hwide => by cases (hwidths width hwide).1
      | some width =>
        by_cases hlt : 64 < width
        · refine .inr ⟨[], first, rest, width, rfl, ?_, ?_, List.forall_mem_nil _⟩
          · exact hstep.trans (if_pos hlt)
          · exact ⟨pred, lhs, rhs, hkind, .inl hlhs, hlt⟩
        · refine hskip ?_ fun width' hwide => hlt ?_
          · exact hstep.trans (if_neg hlt)
          · obtain ⟨heq, hlt'⟩ := hwidths width' hwide
            exact Option.some.inj heq ▸ hlt'

end Function

namespace Module

variable {m : Module} {f : Function} {id : FuncId}

/-- Some live comparison of some function is of integers wider than a word. -/
def HasWide (m : Module) : Prop :=
  ∃ id f, m.function id = .ok f ∧ f.HasWide

/-- The first live comparison of integers wider than a word, in the order of functions and of their
layout. -/
def FirstWide (m : Module) (f : Function) (width : Nat) : Prop :=
  ∃ id i, m.function id = .ok f ∧ f.FirstWide i width ∧
    ∀ id', id'.index < id.index → ∀ g, m.function id' = .ok g → ¬g.HasWide

theorem FirstWide.hasWide {width : Nat} (h : m.FirstWide f width) : m.HasWide := by
  obtain ⟨id, i, hid, hfirst, -⟩ := h
  exact ⟨id, f, hid, hfirst.hasWide⟩

/-- What is listed before a function is of lower index, and nothing else is. -/
theorem mem_of_functionIds_eq {front back : List FuncId} (h : m.functionIds = front ++ id :: back)
    {id' : FuncId} (hlt : id'.index < id.index) : id' ∈ front := by
  have hsorted : m.functionIds.Pairwise fun a b => a.index < b.index :=
    List.pairwise_map.mpr List.pairwise_lt_range
  rw [h] at hsorted
  have hid : id ∈ m.functionIds := h ▸ List.mem_append_right _ List.mem_cons_self
  have hid' : id' ∈ m.functionIds := mem_functionIds.mpr (hlt.trans (mem_functionIds.mp hid))
  rw [h] at hid'
  obtain hfront | hback := List.mem_append.mp hid'
  · exact hfront
  · obtain rfl | hback := List.mem_cons.mp hback
    · exact absurd hlt (lt_irrefl _)
    · have hgt := (List.pairwise_cons.mp (List.pairwise_append.mp hsorted).2.1).1 id' hback
      exact absurd hlt (not_lt_of_gt hgt)

/-- Looking at the widths of a function of an accepted module changes nothing. -/
theorem Accepted.checkWidths_cases (hm : m.Accepted) (hid : m.function id = .ok f)
    (log : List Log.Record) :
    (¬f.HasWide ∧ Pass.checkWidths id ⟨m, log⟩ = .ok (.ok (), ⟨m, log⟩)) ∨
      ∃ i width, f.FirstWide i width ∧
        Pass.checkWidths id ⟨m, log⟩ = .ok (.error (.unsupportedWidth f.name width), ⟨m, log⟩) := by
  obtain ⟨ids, hids, hpairs⟩ : ∃ ids, f.liveInsts = .ok ids ∧ ∀ i ∈ ids, f.Comparable i := by
    cases hbody : f.isDeclaration with
    | true => exact ⟨[], Function.liveInsts_of_declaration hbody, List.forall_mem_nil _⟩
    | false =>
      have hwell := hm.wellFormed hid hbody
      obtain ⟨ids, hids⟩ := hwell.closed.liveInsts_eq_ok
      exact ⟨ids, hids, fun i => hwell.comparable hids⟩
  have hcheck : ∀ width?, f.wideComparison? ids = .ok width? →
      Pass.checkWidths id ⟨m, log⟩ =
        .ok (width?.elim (.ok ()) fun width => .error (.unsupportedWidth f.name width), ⟨m, log⟩) := by
    intro width? hwidth
    have hasked : (do f.wideComparison? (← f.liveInsts)) = .ok width? := by
      rw [hids]
      exact hwidth
    refine (Course.bind_of_ok (Pass.does_query.mpr ⟨hid, rfl⟩)).trans ?_
    refine (Course.bind_of_ok (Pass.does_query.mpr ⟨hasked, rfl⟩)).trans ?_
    cases width? <;> rfl
  obtain ⟨hnone, hall⟩ | ⟨front, i, back, width, rfl, hfound, hwide, hfront⟩ :=
    Function.wideComparison?_cases hpairs
  · refine .inl ⟨?_, hcheck none hnone⟩
    rintro ⟨ids', hids', i, hi, width, hwide⟩
    obtain rfl := Except.ok.inj (hids.symm.trans hids')
    exact hall i hi width hwide
  · exact .inr ⟨i, width, ⟨front, back, hids, hwide, hfront⟩, hcheck _ hfound⟩

/-- So does looking at those of several functions, up to the first that is refused. -/
theorem Accepted.forM_checkWidths_cases (hm : m.Accepted) (log : List Log.Record) {ids : List FuncId}
    (hids : ∀ id ∈ ids, ∃ f, m.function id = .ok f) :
    ((∀ id ∈ ids, ∀ f, m.function id = .ok f → ¬f.HasWide) ∧
        ids.forM Pass.checkWidths ⟨m, log⟩ = .ok (.ok (), ⟨m, log⟩)) ∨
      ∃ front id back f i width, ids = front ++ id :: back ∧ m.function id = .ok f ∧
        f.FirstWide i width ∧ (∀ id ∈ front, ∀ f, m.function id = .ok f → ¬f.HasWide) ∧
        ids.forM Pass.checkWidths ⟨m, log⟩ =
          .ok (.error (.unsupportedWidth f.name width), ⟨m, log⟩) := by
  induction ids with
  | nil => exact .inl ⟨List.forall_mem_nil _, rfl⟩
  | cons id rest ih =>
    obtain ⟨⟨f, hid⟩, hrest⟩ := List.forall_mem_cons.mp hids
    obtain ⟨hnot, hcheck⟩ | ⟨i, width, hfirst, hcheck⟩ := hm.checkWidths_cases hid log
    · have hnot' : ∀ g, m.function id = .ok g → ¬g.HasWide := fun g hg =>
        Except.ok.inj (hid.symm.trans hg) ▸ hnot
      have hgo : (id :: rest).forM Pass.checkWidths ⟨m, log⟩ =
          rest.forM Pass.checkWidths ⟨m, log⟩ := Course.bind_of_ok hcheck
      obtain ⟨hall, hdone⟩ | ⟨front, id', back, g, i, width, rfl, hg, hfirst, hfront, hrefused⟩ :=
        ih hrest
      · exact .inl ⟨List.forall_mem_cons.mpr ⟨hnot', hall⟩, hgo.trans hdone⟩
      · exact .inr ⟨id :: front, id', back, g, i, width, rfl, hg, hfirst,
          List.forall_mem_cons.mpr ⟨hnot', hfront⟩, hgo.trans hrefused⟩
    · refine .inr ⟨[], id, rest, f, i, width, rfl, hid, hfirst, List.forall_mem_nil _, ?_⟩
      change (Pass.checkWidths id >>= fun _ => rest.forM Pass.checkWidths) ⟨m, log⟩ = _
      exact Course.bind_of_refused hcheck

/-- Taking the integer comparisons of an accepted module apart is refused just when some live
comparison is of integers wider than a word. The first one is named then, and the module is as it
was. Otherwise it is done, unless it comes to a fault: types or addresses that are followed without
an end, or integers without bits that are asked for their sign. -/
theorem Accepted.splitCompares_refused (hm : m.Accepted) (config : Config) (log : List Log.Record) :
    ((∃ cause s, Pass.splitCompares config ⟨m, log⟩ = .ok (.error cause, s)) ↔ m.HasWide) ∧
    (∀ cause s, Pass.splitCompares config ⟨m, log⟩ = .ok (.error cause, s) →
      s = ⟨m, log⟩ ∧ ∃ f width, m.FirstWide f width ∧ cause = .unsupportedWidth f.name width) ∧
    (¬m.HasWide → m.EndsChains → m.ComparesBits →
      ∃ stats s, Pass.splitCompares config ⟨m, log⟩ = .ok (.ok stats, s)) := by
  have hids : ∀ id ∈ m.functionIds, ∃ f, m.function id = .ok f := fun id hid =>
    exists_function (mem_functionIds.mp hid)
  obtain ⟨hall, hdone⟩ | ⟨front, id, back, f, i, width, hsplit, hf, hfirst, hfront, hrefused⟩ :=
    hm.forM_checkWidths_cases log hids
  · -- All widths are fine, and nothing is refused any more.
    have hnot : ¬m.HasWide := fun ⟨id, f, hf, hwide⟩ =>
      hall id (mem_functionIds.mpr (index_lt_of_function hf)) f hf hwide
    have hunrefused : ∀ cause s, Pass.splitCompares config ⟨m, log⟩ ≠ .ok (.error cause, s) := by
      intro cause s h
      rw [Pass.splitCompares_eq, Course.bind_of_ok hdone] at h
      exact Pass.unrefused_afterWidths config m.functionIds _ cause s h
    refine ⟨⟨fun ⟨cause, s, h⟩ => absurd h (hunrefused cause s), fun h => absurd h hnot⟩,
      fun cause s h => absurd h (hunrefused cause s), fun _ hends hbits => ?_⟩
    obtain ⟨r, s, hrun, -⟩ := Pass.safe_splitCompares (s := ⟨m, log⟩) (hm.sturdy hends hbits) config
    cases r with
    | ok stats => exact ⟨stats, s, hrun⟩
    | error cause => exact absurd hrun (hunrefused cause s)
  · have hwide : m.FirstWide f width := ⟨id, i, hf, hfirst, fun id' hlt =>
      hfront id' (mem_of_functionIds_eq hsplit hlt)⟩
    have heq : Pass.splitCompares config ⟨m, log⟩ =
        .ok (.error (.unsupportedWidth f.name width), ⟨m, log⟩) :=
      (Pass.splitCompares_eq config _).trans (Course.bind_of_refused hrefused)
    refine ⟨iff_of_true ⟨_, _, heq⟩ hwide.hasWide, fun cause s h => ?_,
      fun hnot => absurd hwide.hasWide hnot⟩
    obtain ⟨hcause, hs⟩ := Prod.mk.inj (Except.ok.inj (heq.symm.trans h))
    exact ⟨hs.symm, f, width, hwide, (Except.error.inj hcause).symm⟩

end Module

/-! ### Two integers of two words -/

/-- Asks whether its arguments are the same. -/
def Function.broad : Function where
  name := "same"
  params := [.int 128, .int 128]
  ret := .i1
  blocks := #[⟨"entry", [⟨0⟩], .ret (some (.inst ⟨0⟩))⟩]
  layout := [⟨0⟩]
  insts := #[{ kind := .icmp .eq (.arg 0) (.arg 1), block := some ⟨0⟩ }]

def Module.broad : Module where
  name := "broad"
  functions := #[.broad]

theorem Module.broad_splitCompares_refused : broad.Accepted ∧ ∃ f width, broad.FirstWide f width ∧
    Pass.splitCompares (.fuzzing .normal .all) ⟨broad, []⟩ =
      .ok (.error (.unsupportedWidth f.name width), ⟨broad, []⟩) := by
  have haccepted : broad.Accepted := accepted_of_isLocal (by decide +kernel)
  obtain ⟨hiff, hfirst, -⟩ := haccepted.splitCompares_refused (.fuzzing .normal .all) []
  have hwide : broad.HasWide := ⟨⟨0⟩, .broad, rfl, [⟨0⟩], rfl, ⟨0⟩, List.mem_cons_self, 128,
    .eq, .arg 0, .arg 1, rfl, .inl rfl, by decide⟩
  obtain ⟨cause, s, hrefused⟩ := hiff.mpr hwide
  obtain ⟨rfl, f, width, hfirst, rfl⟩ := hfirst cause s hrefused
  exact ⟨haccepted, f, width, hfirst, hrefused⟩

end EdgeProbe
