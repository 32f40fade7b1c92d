import EdgeProbe.Proofs.Code.Does
import EdgeProbe.Proofs.Lowering.Readers
import EdgeProbe.Proofs.Lowering.Stepwise
import EdgeProbe.Proofs.Token.Discipline

/-!
# Edits and the slots of tokens

An edit that attaches, takes or moves tokens leaves those of each instruction in order. What makes it
so is that the instructions that tokens are moved to are new, so that none is there yet. Main
statements: `Edit.ordered_halve` and `Edit.ordered_unroll`.
-/

namespace EdgeProbe

variable {α : Type} {f f' : Function} {fanOut : Nat}

namespace Function

/-- The tokens of each instruction are in order, and only what is in the arena has any. -/
structure Ordered (fanOut : Nat) (f : Function) : Prop where
  tokens : f.annotations.Disciplined fanOut
  inArena : ∀ i, f.annotations.get i ≠ [] → i.index < f.insts.size

/-- The later function has the same tokens, and all the instructions and blocks of the earlier one. -/
structure SameTokens (f f' : Function) : Prop where
  tokens : f'.annotations = f.annotations
  insts : f.insts.size ≤ f'.insts.size
  layout : f.layout ⊆ f'.layout

theorem SameTokens.refl (f : Function) : f.SameTokens f :=
  ⟨rfl, le_rfl, List.Subset.refl _⟩

theorem SameTokens.trans {f₁ : Function} (h : f.SameTokens f₁) (h' : f₁.SameTokens f') :
    f.SameTokens f' :=
  ⟨h'.tokens.trans h.tokens, h.insts.trans h'.insts, List.Subset.trans h.layout h'.layout⟩

theorem SameTokens.ordered (h : f.SameTokens f') (hf : f.Ordered fanOut) : f'.Ordered fanOut where
  tokens := h.tokens ▸ hf.tokens
  inArena i hi := (hf.inArena i (h.tokens ▸ hi)).trans_le h.insts

theorem sameTokens_modifyBlock {b : BlockId} {change : Block → Block}
    (h : f.modifyBlock b change = .ok f') : f.SameTokens f' := by
  obtain ⟨-, rfl⟩ := modifyBlock_eq_ok.mp h
  exact ⟨rfl, le_rfl, List.Subset.refl _⟩

theorem sameTokens_modifyInst {id : InstId} {change : Inst → Inst}
    (h : f.modifyInst id change = .ok f') : f.SameTokens f' := by
  obtain ⟨-, rfl⟩ := modifyInst_eq_ok.mp h
  exact ⟨rfl, (size_insts_withInst f id change).ge, List.Subset.refl _⟩

theorem sameTokens_insertInst {b : BlockId} {pos : Nat} {kind : InstKind} {name : String}
    {loc : Option DebugLoc} {id : InstId} (h : f.insertInst b pos kind name loc = .ok (f', id)) :
    f.SameTokens f' ∧ id.index = f.insts.size ∧ id.index < f'.insts.size := by
  obtain ⟨f₁, hf₁, h⟩ := Checked.bind_eq_ok.mp h
  obtain ⟨rfl, rfl⟩ := Prod.mk.inj (Checked.pure_eq_ok.mp h)
  obtain ⟨-, rfl⟩ := modifyBlock_eq_ok.mp hf₁
  have hsize : (f.insts.push { kind, name, loc, block := some b }).size = f.insts.size + 1 :=
    Array.size_push _
  exact ⟨⟨rfl, hsize.ge.trans' (Nat.le_succ _), List.Subset.refl _⟩, rfl, hsize.ge⟩

theorem sameTokens_splitBlock {b tail : BlockId} {pos : Nat} {name : String}
    (h : f.splitBlock b pos name = .ok (f', tail)) : f.SameTokens f' := by
  have hadd : f.SameTokens (f.addBlock name (some b)).1 :=
    ⟨rfl, le_rfl, fun _ hb => (mem_layout_withNewBlock (f.place_le _)).mpr (.inr hb)⟩
  obtain ⟨blk, -, h⟩ := Checked.bind_eq_ok.mp h
  obtain ⟨f₁, hf₁, h⟩ := Checked.bind_eq_ok.mp h
  obtain ⟨f₂, hf₂, h⟩ := Checked.bind_eq_ok.mp h
  obtain ⟨f₃, hf₃, h⟩ := Checked.bind_eq_ok.mp h
  obtain ⟨f₄, hf₄, h⟩ := Checked.bind_eq_ok.mp h
  obtain ⟨rfl, -⟩ := Prod.mk.inj (Checked.pure_eq_ok.mp h)
  have hown : SameTokens _ f₁ :=
    Checked.related_of_foldlM (r := SameTokens) .refl .trans (fun _ _ _ => sameTokens_modifyInst) hf₁
  have hrenamed : SameTokens f₃ f₄ := by
    refine Checked.related_of_foldlM (r := SameTokens) .refl .trans (fun _ _ _ hf => ?_) hf₄
    obtain ⟨phis, -, hf⟩ := Checked.bind_eq_ok.mp hf
    exact Checked.related_of_foldlM (r := SameTokens) .refl .trans (fun _ _ _ => sameTokens_modifyInst) hf
  exact hadd.trans (hown.trans ((sameTokens_modifyBlock hf₂).trans
    ((sameTokens_modifyBlock hf₃).trans hrenamed)))

instance : OfSteps SameTokens where
  refl := .refl
  trans := .trans
  block _ := sameTokens_modifyBlock
  inst _ := sameTokens_modifyInst
  addBlockBefore f _ before :=
    ⟨rfl, le_rfl, fun _ hb => (mem_layout_withNewBlock (f.placeBefore_le before)).mpr (.inr hb)⟩
  insertInst h := (sameTokens_insertInst h).1
  splitBlock := sameTokens_splitBlock

instance : OfMarks SameTokens where
  mark := sameTokens_modifyInst

/-- What follows the last instruction has no tokens. -/
theorem Ordered.get_eq_nil (hf : f.Ordered fanOut) {i : InstId} (hi : f.insts.size ≤ i.index) :
    f.annotations.get i = [] := by
  by_contra hne
  exact absurd (hf.inArena i hne) (Nat.not_lt.mpr hi)

/-- Tokens that are put in order stay within the arena. -/
theorem Ordered.withAnnotations (hf : f.Ordered fanOut) {annotations : Annotations}
    (htokens : annotations.Disciplined fanOut)
    (harena : ∀ i, annotations.get i ≠ [] → f.annotations.get i ≠ [] ∨ i.index < f.insts.size) :
    { f with annotations }.Ordered fanOut where
  tokens := htokens
  inArena i hi := (harena i hi).elim (hf.inArena i) id

end Function

namespace Edit

open EdgeProbe.Function

theorem Respects.does {R : Function → Function → Prop} {x : Edit α} (hx : x.Respects R) {a : α}
    (h : x.Does f a f') : R f f' :=
  hx f (.ok a) f' h

variable {limits : Limits} {token : Token} {id : InstId}

theorem ordered_attach {u : Unit} (h : (attach id token limits).Does f u f')
    (hf : f.Ordered limits.maxFanOut) (hid : id.index < f.insts.size) :
    f'.Ordered limits.maxFanOut ∧ f'.insts = f.insts := by
  unfold Does attach at h
  split at h
  · next annotations hattach =>
    obtain ⟨-, rfl⟩ := Prod.mk.inj (Except.ok.inj h)
    refine ⟨hf.withAnnotations (hf.tokens.attach? limits hattach) fun i hi => ?_, rfl⟩
    obtain hold | rfl := Annotations.get_attach? hattach i hi
    · exact .inl hold
    · exact .inr hid
  · cases h

theorem ordered_attachToResultUsers {count : Nat}
    (h : (attachToResultUsers id token limits).Does f count f')
    (hf : f.Ordered limits.maxFanOut) : f'.Ordered limits.maxFanOut ∧ f'.insts = f.insts := by
  obtain ⟨users, f₁, husers, h⟩ := does_bind.mp h
  obtain ⟨_, f₂, hforM, h⟩ := does_bind.mp h
  obtain ⟨-, rfl⟩ := does_pure.mp h
  obtain ⟨rfl, hasks⟩ := resultUsers_does husers
  have hlt : ∀ user ∈ users, user.index < f.insts.size := by
    intro user huser
    obtain ⟨kind, hkind, -⟩ := ((hasks user).mp huser).decides
    exact index_lt_of_kind hkind
  refine hforM.forM (fun g => g.Ordered limits.maxFanOut ∧ g.insts = f.insts) ?_ ⟨hf, rfl⟩
  rintro user huser g g' ⟨hg, hinsts⟩ hattach
  obtain ⟨hg', hinsts'⟩ := ordered_attach hattach hg (hinsts ▸ hlt user huser)
  exact ⟨hg', hinsts'.trans hinsts⟩

theorem ordered_attachLiteral {l : Literal} {count : Nat}
    (h : (attachLiteral l token limits).Does f count f') (hf : f.Ordered limits.maxFanOut)
    (hid : l.atUsers = false → l.inst.index < f.insts.size) :
    f'.Ordered limits.maxFanOut ∧ f'.insts = f.insts := by
  unfold attachLiteral at h
  split at h
  · exact ordered_attachToResultUsers h hf
  · next husers =>
    obtain ⟨_, f₁, hattach, h⟩ := does_bind.mp h
    obtain ⟨-, rfl⟩ := does_pure.mp h
    exact ordered_attach hattach hf (hid (by simpa using husers))

/-! ## Halving -/

theorem ordered_moveOrigin (hf : f.Ordered fanOut) {source target : InstId} {origin : Origin}
    (horigin : origin.isMultiple = false) (hne : target ≠ source)
    (htarget : f.annotations.get target = []) (hlt : target.index < f.insts.size) :
    { f with annotations := f.annotations.moveOrigin source target origin }.Ordered fanOut :=
  hf.withAnnotations (hf.tokens.moveOrigin horigin hne htarget) fun i hi => by
    obtain hold | rfl := Annotations.get_moveOrigin hi
    · exact .inl hold
    · exact .inr hlt

/-- The comparison of the upper halves is new, so that it can take over the token. -/
theorem ordered_halveEquality {l : Label} {width : Nat} {pred : Predicate} {lhs rhs : Value}
    {head join : BlockId} {high : InstId} {u : Unit}
    (h : (halveEquality l width id pred lhs rhs head join high).Does f u f')
    (hf : f.Ordered fanOut) (hne : high ≠ id) (hnone : f.annotations.get high = [])
    (hlt : high.index < f.insts.size) : f'.Ordered fanOut := by
  have hfinish : ∀ {low : InstId} {incoming : List (Value × BlockId)} {f₂ f' : Function} {u : Unit},
      f.SameTokens f₂ → (do
        replaceKind id (.phi .i1 incoming)
        setAnnotations fun a => a.moveOrigin id high .comparedInteger
        markSplit high
        markSplit low : Edit Unit).Does f₂ u f' → f'.Ordered fanOut := by
    intro low incoming f₂ f' u hf₂ h
    obtain ⟨_, f₃, hreplace, h⟩ := does_bind.mp h
    obtain ⟨_, f₄, hset, h⟩ := does_bind.mp h
    obtain ⟨_, f₅, hhigh, hlow⟩ := does_bind.mp h
    obtain rfl := does_setAnnotations.mp hset
    have hf₃ : f.SameTokens f₃ := hf₂.trans ((respects_replaceKind id _).does hreplace)
    have hmoved : { f₃ with annotations :=
        f₃.annotations.moveOrigin id high .comparedInteger }.Ordered fanOut :=
      ordered_moveOrigin (hf₃.ordered hf) rfl hne (hf₃.tokens ▸ hnone) (hlt.trans_le hf₃.insts)
    have hmarked := ((respects_markSplit (R := SameTokens) high).does hhigh).ordered hmoved
    exact ((respects_markSplit (R := SameTokens) low).does hlow).ordered hmarked
  obtain ⟨low, f₁, hlow, h⟩ := does_bind.mp h
  have hf₁ : f.SameTokens f₁ := (respects_compareLow l _ width pred lhs rhs join).does hlow
  dsimp only at h
  split at h
  · obtain ⟨_, f₂, hset, h⟩ := does_bind.mp h
    exact hfinish (hf₁.trans ((respects_setTerminator _ _).does hset)) h
  · obtain ⟨_, f₂, hset, h⟩ := does_bind.mp h
    exact hfinish (hf₁.trans ((respects_setTerminator _ _).does hset)) h

theorem ordered_halve {width : Nat} {pred : Predicate} {lhs rhs : Value} {u : Unit}
    (h : (halve width id pred lhs rhs).Does f u f') (hf : f.Ordered fanOut)
    (hid : id.index < f.insts.size) : f'.Ordered fanOut := by
  obtain ⟨l, f₁, hl, h⟩ := does_bind.mp h
  obtain ⟨halves, f₂, hsplit, h⟩ := does_bind.mp h
  have hf₂ : f.SameTokens f₂ := Function.SameTokens.trans ((respects_labelFor _ id).does hl)
    ((respects_splitAt l id _).does hsplit)
  cases halves with
  | none =>
    obtain ⟨-, rfl⟩ := does_pure.mp h
    exact hf₂.ordered hf
  | some halves =>
    obtain ⟨high0, f₃, hhigh0, h⟩ := does_bind.mp h
    obtain ⟨high1, f₄, hhigh1, h⟩ := does_bind.mp h
    obtain ⟨high, f₅, hhigh, h⟩ := does_bind.mp h
    have hf₄ : f.SameTokens f₄ := hf₂.trans (.trans ((respects_emitHigh l _ width lhs _).does hhigh0)
      ((respects_emitHigh l _ width rhs _).does hhigh1))
    obtain ⟨hf₅, hnew, hlt⟩ : f₄.SameTokens f₅ ∧ high.index = f₄.insts.size ∧
        high.index < f₅.insts.size := by
      obtain ⟨_, -, hinsert⟩ := Checked.bind_eq_ok.mp (does_apply.mp hhigh)
      exact sameTokens_insertInst hinsert
    have hnone : f₅.annotations.get high = [] := by
      rw [hf₅.tokens]
      exact (hf₄.ordered hf).get_eq_nil hnew.ge
    have hne : high ≠ id := by
      rintro rfl
      exact absurd (hid.trans_le hf₄.insts) (by omega)
    split at h
    · exact ordered_halveEquality h ((hf₄.trans hf₅).ordered hf) hne hnone hlt
    · have horder := (respects_halveOrder (R := SameTokens) l width id pred lhs rhs _ _ high high0
        high1).does h
      exact horder.ordered ((hf₄.trans hf₅).ordered hf)

/-! ## Unrolling -/

theorem ordered_takeStrings {found r : Option Token} {users : List InstId}
    (h : (takeStrings found users).Does f r f') (hf : f.Ordered fanOut) : f'.Ordered fanOut := by
  induction users generalizing found f with
  | nil =>
    obtain ⟨-, rfl⟩ := does_pure.mp h
    exact hf
  | cons user rest ih =>
    obtain ⟨kind, f₁, hkind, h⟩ := does_bind.mp h
    obtain ⟨-, rfl⟩ := does_query.mp hkind
    have hsingle : ∀ t ∈ f.annotations.get user, t.isString = true → t.slot = none := by
      intro t _ hstring
      exact Option.isNone_iff_eq_none.mp (Bool.and_eq_true_iff.mp hstring).2
    have htaken : { f with annotations := (f.annotations.take user Token.isString).2 }.Ordered
        fanOut :=
      hf.withAnnotations (hf.tokens.take hsingle) fun i hi => .inl (Annotations.get_take hi)
    have htake : ∀ {k : Function → Edit (Option Token)},
        (∀ g, (k g).Does { f with annotations := (f.annotations.take user Token.isString).2 } r f' →
          f'.Ordered fanOut) →
        (do
          let g ← get
          setAnnotations fun a => (a.take user Token.isString).2
          k g).Does f r f' → f'.Ordered fanOut := by
      intro k hk h
      obtain ⟨g, f₁, hget, h⟩ := does_bind.mp h
      obtain ⟨rfl, rfl⟩ := does_get.mp hget
      obtain ⟨_, f₂, hset, h⟩ := does_bind.mp h
      obtain rfl := does_setAnnotations.mp hset
      exact hk _ h
    cases kind with
    | icmp pred lhs rhs => exact htake (fun _ h => ih h htaken) h
    | phi ty incoming => exact htake (fun _ h => ih h htaken) h
    | _ => exact ih h hf

theorem ordered_emitDifference {l : Label} {site : StringSite} {token : Option Token} {b : BlockId}
    {index : Nat} {r : Value × Value}
    (h : (emitDifference l site limits token b index).Does f r f')
    (hf : f.Ordered limits.maxFanOut) : f'.Ordered limits.maxFanOut := by
  obtain ⟨lhs, f₁, hlhs, h⟩ := does_bind.mp h
  obtain ⟨rhs, f₂, hrhs, h⟩ := does_bind.mp h
  obtain ⟨difference, f₃, hpush, h⟩ := does_bind.mp h
  have hf₂ : f.SameTokens f₂ := Function.SameTokens.trans
    ((respects_emitByte l b _ _ _).does hlhs) ((respects_emitByte l b _ _ _).does hrhs)
  obtain ⟨hf₃, -, hlt⟩ : f₂.SameTokens f₃ ∧ difference.index = f₂.insts.size ∧
      difference.index < f₃.insts.size := by
    obtain ⟨_, -, hinsert⟩ := Checked.bind_eq_ok.mp (does_apply.mp hpush)
    exact sameTokens_insertInst hinsert
  have hordered := (hf₂.trans hf₃).ordered hf
  cases token with
  | none =>
    obtain ⟨-, rfl⟩ := does_pure.mp h
    exact hordered
  | some token =>
    obtain ⟨_, f₄, hattach, h⟩ := does_bind.mp h
    obtain ⟨-, rfl⟩ := does_pure.mp h
    exact (ordered_attach hattach hordered hlt).1

theorem ordered_emitChain {l : Label} {site : StringSite} {join : BlockId} {remaining : Nat}
    {token : Option Token} {b : BlockId} {index : Nat} {r : List (Value × BlockId)}
    (h : (emitChain l site limits join remaining token b index).Does f r f')
    (hf : f.Ordered limits.maxFanOut) : f'.Ordered limits.maxFanOut := by
  induction remaining generalizing token b index r f f' with
  | zero =>
    obtain ⟨parts, f₁, hdifference, h⟩ := does_bind.mp h
    obtain ⟨_, f₂, hset, h⟩ := does_bind.mp h
    obtain ⟨-, rfl⟩ := does_pure.mp h
    have hset : f₁.SameTokens f₂ := (respects_setTerminator _ _).does hset
    exact hset.ordered (ordered_emitDifference hdifference hf)
  | succ remaining ih =>
    obtain ⟨parts, f₁, hdifference, h⟩ := does_bind.mp h
    obtain ⟨next, f₂, hnext, h⟩ := does_bind.mp h
    obtain ⟨goOn, f₃, hgoOn, h⟩ := does_bind.mp h
    obtain ⟨_, f₄, hset, h⟩ := does_bind.mp h
    obtain ⟨incoming, f₅, hrest, h⟩ := does_bind.mp h
    obtain ⟨-, rfl⟩ := does_pure.mp h
    have hf₄ : f₁.SameTokens f₄ := Function.SameTokens.trans
      ((respects_addBlockBefore _ _).does hnext) (.trans
        ((respects_emitContinue l site b _ _).does hgoOn) ((respects_setTerminator _ _).does hset))
    exact ih hrest (hf₄.ordered (ordered_emitDifference hdifference hf))

theorem ordered_unroll {site : StringSite} {u : Unit} (h : (unroll site limits).Does f u f')
    (hf : f.Ordered limits.maxFanOut) : f'.Ordered limits.maxFanOut := by
  obtain ⟨users, f₁, husers, h⟩ := does_bind.mp h
  obtain ⟨-, rfl⟩ := does_query.mp husers
  obtain ⟨token, f₁, htake, h⟩ := does_bind.mp h
  obtain ⟨l, f₂, hl, h⟩ := does_bind.mp h
  obtain ⟨halves, f₃, hsplit, h⟩ := does_bind.mp h
  have hf₃ : f₁.SameTokens f₃ := Function.SameTokens.trans ((respects_labelFor _ _).does hl)
    ((respects_splitAt l _ _).does hsplit)
  have hordered := hf₃.ordered (ordered_takeStrings htake hf)
  cases halves with
  | none =>
    obtain ⟨-, rfl⟩ := does_pure.mp h
    exact hordered
  | some halves =>
    obtain ⟨first, f₄, hfirst, h⟩ := does_bind.mp h
    obtain ⟨_, f₅, hset, h⟩ := does_bind.mp h
    obtain ⟨_, _, hreserve, h⟩ := does_bind.mp h
    obtain ⟨-, rfl⟩ := does_query.mp hreserve
    obtain ⟨incoming, f₆, hchain, h⟩ := does_bind.mp h
    have hf₅ : f₃.SameTokens f₅ := Function.SameTokens.trans
      ((respects_addBlockBefore _ _).does hfirst) ((respects_setTerminator _ _).does hset)
    have hreplace : f₆.SameTokens f' := (respects_replaceKind _ _).does h
    exact hreplace.ordered (ordered_emitChain hchain (hf₅.ordered hordered))

end Edit

end EdgeProbe
