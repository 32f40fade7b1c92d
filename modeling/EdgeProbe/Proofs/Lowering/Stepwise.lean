import EdgeProbe.Lowering.Compare
import EdgeProbe.Lowering.Select
import EdgeProbe.Lowering.StringCompare
import EdgeProbe.Proofs.Code.Owned

/-!
# Edits as sequences of steps

A lowering is made of steps of editing, and of changes of tokens. A relation between functions that
each such step respects, and that goes along from one step to the next, is respected by the whole.
This does not depend on what the lowering comes to: it holds of what is refused half way too.
-/

namespace EdgeProbe

variable {α β : Type}

/-- A relation between functions that goes along from one to the next. -/
class Function.OfRuns (R : Function → Function → Prop) : Prop where
  refl : ∀ f, R f f
  trans : ∀ {f f₁ f' : Function}, R f f₁ → R f₁ f' → R f f'

/-- A relation between functions that holds across every sequence of steps of editing. -/
class Function.OfSteps (R : Function → Function → Prop) : Prop extends Function.OfRuns R where
  block : ∀ {f f' : Function} {b : BlockId} {change : Block → Block},
    (∀ blk, (change blk).insts = blk.insts) → f.modifyBlock b change = .ok f' → R f f'
  inst : ∀ {f f' : Function} {id : InstId} {change : Inst → Inst},
    (∀ i, (change i).block = i.block ∧ (change i).split = i.split) →
      f.modifyInst id change = .ok f' → R f f'
  addBlockBefore : ∀ (f : Function) (name : String) (before : BlockId),
    R f (f.addBlockBefore name before).1
  insertInst : ∀ {f f' : Function} {b : BlockId} {pos : Nat} {kind : InstKind} {name : String}
    {loc : Option DebugLoc} {id : InstId},
    f.insertInst b pos kind name loc = .ok (f', id) → R f f'
  splitBlock : ∀ {f f' : Function} {b tail : BlockId} {pos : Nat} {name : String},
    f.splitBlock b pos name = .ok (f', tail) → R f f'

/-- A relation between functions that holds where an instruction is marked as the half of another
one. -/
class Function.OfMarks (R : Function → Function → Prop) : Prop where
  mark : ∀ {f f' : Function} {id : InstId},
    f.modifyInst id (fun i => { i with split := true }) = .ok f' → R f f'

/-- The token is the one of a literal whose length is within the limits. -/
def Token.OfLiteral (limits : Limits) (token : Token) : Prop :=
  ∃ text bytes, Token.encode? limits text bytes = some token.value

theorem Token.ofLiteral_of_ofBytes? {limits : Limits} {text : Bool} {bytes : List UInt8}
    {provenance : String} {origin : Origin} {token : Token}
    (h : Token.ofBytes? limits text bytes provenance origin = some token) :
    token.OfLiteral limits := by
  obtain ⟨value, hvalue, rfl⟩ := Option.map_eq_some_iff.mp h
  exact ⟨text, bytes, hvalue⟩

/-- A relation between functions that holds where the token of a literal is put on an instruction. -/
class Function.OfLiterals (limits : Limits) (R : Function → Function → Prop) : Prop where
  attach : ∀ {token : Token}, token.OfLiteral limits → ∀ (id : InstId) (f : Function)
    (r : Except Fatal Unit) (f' : Function), Edit.attach id token limits f = .ok (r, f') → R f f'

/-- A relation between functions that holds where tokens move from one instruction to another. -/
class Function.OfMoves (R : Function → Function → Prop) : Prop where
  moveOrigin : ∀ (f : Function) (source target : InstId) (origin : Origin),
    R f { f with annotations := f.annotations.moveOrigin source target origin }

/-- A relation between functions that holds whatever becomes of the tokens. -/
class Function.OfTokens (R : Function → Function → Prop) : Prop where
  annotations : ∀ (f : Function) (annotations : Annotations), R f { f with annotations }

namespace Function.OfSteps

variable {R : Function → Function → Prop} [OfSteps R] {f f' : Function}

/-- Each phi of a block becomes another instruction in the same place. -/
theorem changePhis {b : BlockId} {change : InstKind → InstKind}
    (h : (do (← f.phis b).foldlM (fun (f : Function) phi =>
      f.modifyInst phi fun i => { i with kind := change i.kind }) f) = .ok f') : R f f' := by
  obtain ⟨phis, -, h⟩ := Checked.bind_eq_ok.mp h
  refine Checked.related_of_foldlM OfRuns.refl OfRuns.trans (fun _ _ _ hphi => ?_) h
  exact inst (by exact fun _ => ⟨rfl, rfl⟩) hphi

end Function.OfSteps

instance : Function.OfSteps Function.Retains where
  refl := .refl
  trans := .trans
  block := Function.retains_modifyBlock
  inst hchange := Function.retains_modifyInst fun i => (hchange i).1
  addBlockBefore := Function.retains_addBlockBefore
  insertInst := Function.retains_insertInst
  splitBlock := Function.retains_splitBlock

instance : Function.OfMarks Function.Retains where
  mark := Function.retains_modifyInst (by exact fun _ => rfl)

instance : Function.OfTokens Function.Retains where
  annotations := Function.retains_withAnnotations

namespace Edit

/-- Whatever the edit comes to, the function it leaves is related to the one it began with. -/
def Respects (R : Function → Function → Prop) (x : Edit α) : Prop :=
  ∀ f r f', x f = .ok (r, f') → R f f'

variable {R : Function → Function → Prop}

/-- The first part of an edit goes through, and the rest follows, or it is refused. -/
theorem bind_cases {x : Edit α} {k : α → Edit β} {f f' : Function} {r : Except Fatal β}
    (h : (x >>= k) f = .ok (r, f')) :
    (∃ a f₁, x f = .ok (.ok a, f₁) ∧ k a f₁ = .ok (r, f')) ∨
      ∃ cause, x f = .ok (.error cause, f') ∧ r = .error cause := by
  obtain ⟨⟨first, f₁⟩, hfirst, hrest⟩ := Checked.bind_eq_ok.mp h
  cases first with
  | ok a => exact .inl ⟨a, f₁, hfirst, hrest⟩
  | error cause =>
    obtain ⟨rfl, rfl⟩ := Prod.mk.inj (Checked.pure_eq_ok.mp hrest)
    exact .inr ⟨cause, hfirst, rfl⟩

theorem respects_apply {change : Function → Checked (Function × α)}
    (h : ∀ f f' a, change f = .ok (f', a) → R f f') : (apply change).Respects R := by
  intro f r f' hrun
  obtain ⟨⟨f₁, a⟩, hf₁, hpair⟩ := Checked.bind_eq_ok.mp hrun
  obtain ⟨-, rfl⟩ := Prod.mk.inj (Checked.pure_eq_ok.mp hpair)
  exact h f f₁ a hf₁

theorem respects_update {change : Function → Checked Function}
    (h : ∀ f f', change f = .ok f' → R f f') : (update change).Respects R := by
  intro f r f' hrun
  obtain ⟨f₁, hf₁, hpair⟩ := Checked.bind_eq_ok.mp hrun
  obtain ⟨-, rfl⟩ := Prod.mk.inj (Checked.pure_eq_ok.mp hpair)
  exact h f f₁ hf₁

theorem respects_setAnnotations {change : Annotations → Annotations}
    (h : ∀ f : Function, R f { f with annotations := change f.annotations }) :
    (setAnnotations change).Respects R := by
  intro f r f' hrun
  obtain ⟨-, rfl⟩ := Prod.mk.inj (Except.ok.inj hrun)
  exact h f

theorem respects_attach [Function.OfTokens R] (id : InstId) (token : Token) (limits : Limits) :
    (attach id token limits).Respects R := by
  intro f r f' h
  unfold attach at h
  split at h
  all_goals
    obtain ⟨-, rfl⟩ := Prod.mk.inj (Except.ok.inj h)
    exact Function.OfTokens.annotations f _

instance [Function.OfTokens R] : Function.OfMoves R where
  moveOrigin f _ _ _ := Function.OfTokens.annotations f _

instance [Function.OfTokens R] (limits : Limits) : Function.OfLiterals limits R where
  attach _ id := respects_attach id _ limits

theorem respects_attach_of_literal {limits : Limits} [Function.OfLiterals limits R] {token : Token}
    (htoken : token.OfLiteral limits) (id : InstId) : (attach id token limits).Respects R :=
  Function.OfLiterals.attach htoken id

section

variable [Function.OfRuns R]

theorem Respects.bind {x : Edit α} {k : α → Edit β} (hx : x.Respects R)
    (hk : ∀ a, (k a).Respects R) : (x >>= k).Respects R := by
  intro f r f' h
  obtain ⟨a, f₁, hfirst, hrest⟩ | ⟨cause, hfirst, -⟩ := bind_cases h
  · exact Function.OfRuns.trans (hx f _ f₁ hfirst) (hk a f₁ r f' hrest)
  · exact hx f _ f' hfirst

theorem respects_pure (a : α) : (pure a : Edit α).Respects R := by
  intro f r f' h
  obtain ⟨-, rfl⟩ := Prod.mk.inj (Checked.pure_eq_ok.mp h)
  exact Function.OfRuns.refl f

theorem respects_throw (cause : Fatal) : (throw cause : Edit α).Respects R := by
  intro f r f' h
  obtain ⟨-, rfl⟩ := Prod.mk.inj (Except.ok.inj h)
  exact Function.OfRuns.refl f

theorem respects_get : (get : Edit Function).Respects R := by
  intro f r f' h
  obtain ⟨-, rfl⟩ := Prod.mk.inj (Except.ok.inj h)
  exact Function.OfRuns.refl f

theorem respects_lift (x : Checked α) : (liftM x : Edit α).Respects R := by
  intro f r f' h
  cases x with
  | ok a =>
    obtain ⟨-, rfl⟩ := Prod.mk.inj (Except.ok.inj h)
    exact Function.OfRuns.refl f
  | error fault => cases h

theorem respects_query (question : Function → Checked α) : (query question).Respects R :=
  .bind respects_get fun _ => respects_lift _

theorem Respects.forM {g : α → Edit Unit} (hg : ∀ a, (g a).Respects R) (l : List α) :
    (l.forM g).Respects R := by
  induction l with
  | nil => exact respects_pure ()
  | cons a rest ih => exact .bind (hg a) fun _ => ih

theorem Respects.foldlM {g : β → α → Edit β} (hg : ∀ b a, (g b a).Respects R) (l : List α)
    (b : β) : (l.foldlM g b).Respects R := by
  induction l generalizing b with
  | nil => exact respects_pure b
  | cons a rest ih =>
    rw [List.foldlM_cons]
    exact .bind (hg b a) ih

theorem Respects.mapM {g : α → Edit β} (hg : ∀ a, (g a).Respects R) (l : List α) :
    (l.mapM g).Respects R := by
  induction l with
  | nil => exact respects_pure []
  | cons a rest ih =>
    rw [List.mapM_cons]
    exact .bind (hg a) fun _ => .bind ih fun _ => respects_pure _

theorem respects_attachToResultUsers {token : Token} {limits : Limits}
    (hattach : ∀ id, (attach id token limits).Respects R) (id : InstId) :
    (attachToResultUsers id token limits).Respects R :=
  .bind (respects_query _) fun users => .bind (.forM hattach users) fun _ => respects_pure _

theorem respects_attachLiteral {token : Token} {limits : Limits}
    (hattach : ∀ id, (attach id token limits).Respects R) (l : Literal) :
    (attachLiteral l token limits).Respects R := by
  unfold attachLiteral
  split
  · exact respects_attachToResultUsers hattach l.inst
  · exact .bind (hattach l.inst) fun _ => respects_pure 1

end

/-! ## The steps of edits -/

variable [Function.OfSteps R]

theorem respects_modifyBlock (b : BlockId) {change : Block → Block}
    (hinsts : ∀ blk, (change blk).insts = blk.insts) :
    (update fun f => f.modifyBlock b change).Respects R :=
  respects_update fun _ _ => Function.OfSteps.block hinsts


theorem respects_setTerminator (b : BlockId) (term : Terminator) :
    (setTerminator b term).Respects R :=
  respects_modifyBlock b (by exact fun _ => rfl)

theorem respects_replaceKind (id : InstId) (kind : InstKind) : (replaceKind id kind).Respects R :=
  respects_update fun _ _ => Function.OfSteps.inst (by exact fun _ => ⟨rfl, rfl⟩)

omit [Function.OfSteps R] in
theorem respects_markSplit [Function.OfMarks R] (id : InstId) : (markSplit id).Respects R :=
  respects_update fun _ _ => Function.OfMarks.mark

theorem respects_addBlockBefore (name : String) (before : BlockId) :
    (addBlockBefore name before).Respects R :=
  respects_apply fun f f' id h => by
    obtain ⟨rfl, -⟩ := Prod.mk.inj (Except.ok.inj h)
    exact Function.OfSteps.addBlockBefore f name before

theorem respects_insertInst (b : BlockId) (pos : Nat) (kind : InstKind) (name : String)
    (loc : Option DebugLoc) : (insertInst b pos kind name loc).Respects R :=
  respects_apply fun _ _ _ => Function.OfSteps.insertInst

theorem respects_pushInst (b : BlockId) (kind : InstKind) (name : String) (loc : Option DebugLoc) :
    (pushInst b kind name loc).Respects R :=
  respects_apply fun _ _ _ h => by
    obtain ⟨_, -, h⟩ := Checked.bind_eq_ok.mp h
    exact Function.OfSteps.insertInst h

theorem respects_labelFor (stem : String) (id : InstId) : (labelFor stem id).Respects R :=
  .bind (respects_query _) fun _ => respects_pure _

theorem respects_emitValue (l : Label) (b : BlockId) (kind : InstKind) (name : String) :
    (emitValue l b kind name).Respects R :=
  .bind (respects_pushInst b kind _ l.loc) fun _ => respects_pure _

theorem respects_splitAt (l : Label) (id : InstId) (name : String) :
    (splitAt l id name).Respects R := by
  refine .bind (respects_query _) fun place => ?_
  cases place with
  | none => exact respects_pure none
  | some place =>
    exact .bind (respects_apply fun _ _ _ => Function.OfSteps.splitBlock) fun _ => respects_pure _

/-! ## Selections -/

theorem respects_splitThrice (l : Label) (id : InstId) : (splitThrice l id).Respects R := by
  refine .bind (respects_splitAt l id _) fun first => ?_
  cases first with
  | none => exact respects_pure none
  | some halves =>
    refine .bind (respects_splitAt l id _) fun second => ?_
    cases second with
    | none => exact respects_pure none
    | some halves' =>
      refine .bind (respects_splitAt l id _) fun third => ?_
      cases third with
      | none => exact respects_pure none
      | some halves'' => exact respects_pure _

theorem respects_lowerSelect (count : Nat) (id : InstId) : (lowerSelect count id).Respects R := by
  refine .bind (respects_query _) fun kind => ?_
  split
  · next cond ifTrue ifFalse =>
    refine .bind (respects_query _) fun ty => .bind (respects_query _) fun place => ?_
    cases place with
    | none => exact respects_pure 0
    | some place =>
      refine .bind (respects_query _) fun blk => .bind (respects_labelFor _ id) fun l => ?_
      refine .bind (respects_splitThrice l id) fun parts => ?_
      cases parts with
      | none => exact respects_pure 0
      | some parts =>
        refine .bind (respects_setTerminator _ _) fun _ => ?_
        refine .bind (respects_setTerminator _ _) fun _ => ?_
        exact .bind (respects_replaceKind id _) fun _ => respects_pure 1
  · exact respects_pure 0

theorem respects_lowerSelects (count : Nat) : (lowerSelects count).Respects R :=
  .bind (respects_query _) fun ids => .foldlM (fun count id =>
    .bind (respects_lowerSelect count id) fun _ => respects_pure _) ids count

/-! ## Comparisons -/

theorem respects_simplify (id : InstId) : (simplify id).Respects R := by
  refine .bind (respects_query _) fun kind => ?_
  split
  · exact respects_pure ()
  · refine .bind (respects_labelFor _ id) fun l => .bind (respects_splitAt l id _) fun halves => ?_
    cases halves with
    | none => exact respects_pure ()
    | some halves =>
      refine .bind (respects_emitValue l _ _ _) fun strict => ?_
      refine .bind (respects_addBlockBefore _ _) fun middle => ?_
      refine .bind (respects_emitValue l _ _ _) fun equal => ?_
      refine .bind (respects_setTerminator _ _) fun _ => ?_
      exact .bind (respects_setTerminator _ _) fun _ => respects_replaceKind id _

theorem respects_emitSign (l : Label) (b : BlockId) (value shift : Value) (n : String) :
    (emitSign l b value shift n).Respects R :=
  .bind (respects_emitValue l b _ _) fun _ => respects_emitValue l b _ _

theorem respects_normalizeSign (width : Nat) (id : InstId) :
    (normalizeSign width id).Respects R := by
  refine .bind (respects_query _) fun kind => ?_
  split
  · exact respects_pure ()
  · refine .bind (respects_labelFor _ id) fun l => .bind (respects_splitAt l id _) fun halves => ?_
    cases halves with
    | none => exact respects_pure ()
    | some halves =>
      dsimp only
      split
      · -- An integer of no width has no sign bit, so that this faults.
        exact fun f r f' h => nomatch h
      · refine .bind (respects_emitSign l _ _ _ _) fun sign0 => ?_
        refine .bind (respects_emitSign l _ _ _ _) fun sign1 => ?_
        refine .bind (respects_emitValue l _ _ _) fun same => ?_
        refine .bind (respects_addBlockBefore _ _) fun signBlock => ?_
        refine .bind (respects_emitValue l _ _ _) fun bySign => ?_
        refine .bind (respects_setTerminator _ _) fun _ => ?_
        refine .bind (respects_addBlockBefore _ _) fun middle => ?_
        refine .bind (respects_emitValue l _ _ _) fun byValue => ?_
        refine .bind (respects_setTerminator _ _) fun _ => ?_
        exact .bind (respects_setTerminator _ _) fun _ => respects_replaceKind id _

theorem respects_simplifyAll : simplifyAll.Respects R := by
  refine .bind (respects_query _) fun sites => ?_
  have hloop := Respects.forM (fun site : InstId × Nat => respects_simplify (R := R) site.1) sites
  exact .bind hloop fun _ => respects_pure _

theorem respects_normalizeSigns : normalizeSigns.Respects R := by
  refine .bind (respects_query _) fun sites => ?_
  have hloop := Respects.forM
    (fun site : InstId × Nat => respects_normalizeSign (R := R) site.2 site.1) sites
  exact .bind hloop fun _ => respects_pure _

theorem respects_emitHigh (l : Label) (b : BlockId) (width : Nat) (value : Value) (n : String) :
    (emitHigh l b width value n).Respects R :=
  .bind (respects_emitValue l b _ _) fun _ => respects_emitValue l b _ _

theorem respects_compareLow (l : Label) (name : String) (width : Nat) (pred : Predicate)
    (lhs rhs : Value) (join : BlockId) :
    (compareLow l name width pred lhs rhs join).Respects R := by
  refine .bind (respects_addBlockBefore _ _) fun b => ?_
  refine .bind (respects_emitValue l b _ _) fun low0 => ?_
  refine .bind (respects_emitValue l b _ _) fun low1 => ?_
  refine .bind (respects_pushInst b _ _ _) fun low => ?_
  exact .bind (respects_setTerminator _ _) fun _ => respects_pure _

theorem respects_halveEquality [Function.OfMarks R] [Function.OfMoves R] (l : Label) (width : Nat)
    (id : InstId) (pred : Predicate) (lhs rhs : Value) (head join : BlockId) (high : InstId) :
    (halveEquality l width id pred lhs rhs head join high).Respects R := by
  refine .bind (respects_compareLow l _ width pred lhs rhs join) fun low => ?_
  have hrest : (do
      replaceKind id (.phi .i1 [(.inst low.2, low.1), (.ofBool (pred == .ne), head)])
      setAnnotations fun a => a.moveOrigin id high .comparedInteger
      markSplit high
      markSplit low.2 : Edit Unit).Respects R :=
    .bind (respects_replaceKind id _) fun _ =>
      .bind (respects_setAnnotations fun f => Function.OfMoves.moveOrigin f id high _) fun _ =>
      .bind (respects_markSplit high) fun _ => respects_markSplit _
  dsimp only
  split
  · exact .bind (respects_setTerminator _ _) fun _ => hrest
  · exact .bind (respects_setTerminator _ _) fun _ => hrest

theorem respects_halveOrder (l : Label) (width : Nat) (id : InstId) (pred : Predicate)
    (lhs rhs : Value) (head join : BlockId) (high : InstId) (high0 high1 : Value) :
    (halveOrder l width id pred lhs rhs head join high high0 high1).Respects R := by
  refine .bind (respects_addBlockBefore _ _) fun inverseBlock => ?_
  refine .bind (respects_emitValue l _ _ _) fun inverse => ?_
  refine .bind (respects_setTerminator _ _) fun _ => ?_
  refine .bind (respects_compareLow l _ width pred lhs rhs join) fun low => ?_
  exact .bind (respects_setTerminator _ _) fun _ => respects_replaceKind id _

theorem respects_halve [Function.OfMarks R] [Function.OfMoves R] (width : Nat) (id : InstId)
    (pred : Predicate) (lhs rhs : Value) : (halve width id pred lhs rhs).Respects R := by
  refine .bind (respects_labelFor _ id) fun l => .bind (respects_splitAt l id _) fun halves => ?_
  cases halves with
  | none => exact respects_pure ()
  | some halves =>
    refine .bind (respects_emitHigh l _ width lhs _) fun high0 => ?_
    refine .bind (respects_emitHigh l _ width rhs _) fun high1 => ?_
    refine .bind (respects_pushInst _ _ _ _) fun high => ?_
    split
    · exact respects_halveEquality l width id pred lhs rhs _ _ high
    · exact respects_halveOrder l width id pred lhs rhs _ _ high high0 high1

/-! ## Strings -/

theorem respects_takeStrings [Function.OfTokens R] (found : Option Token) (users : List InstId) :
    (takeStrings found users).Respects R := by
  have htake : ∀ user, (setAnnotations fun a => (a.take user Token.isString).2).Respects R :=
    fun user => respects_setAnnotations fun f => Function.OfTokens.annotations f _
  induction users generalizing found with
  | nil => exact respects_pure found
  | cons user rest ih =>
    refine .bind (respects_query _) fun kind => ?_
    split
    · exact .bind respects_get fun _ => .bind (htake _) fun _ => ih _
    · exact .bind respects_get fun _ => .bind (htake _) fun _ => ih _
    · exact ih _

theorem respects_emitLower (l : Label) (b : BlockId) (c : Value) :
    (emitLower l b c).Respects R := by
  refine .bind (respects_emitValue l b _ _) fun offset => ?_
  refine .bind (respects_emitValue l b _ _) fun isUpper => ?_
  exact .bind (respects_emitValue l b _ _) fun lowered => respects_emitValue l b _ _

theorem respects_emitByte (l : Label) (b : BlockId) (side : Side) (index : Nat) (foldCase : Bool) :
    (emitByte l b side index foldCase).Respects R := by
  cases side with
  | bytes data => exact respects_pure _
  | pointer ptr =>
    refine .bind (respects_emitValue l b _ _) fun addr => ?_
    refine .bind (respects_emitValue l b _ _) fun byte => ?_
    refine .bind (respects_emitValue l b _ _) fun wide => ?_
    split
    · exact respects_emitLower l b wide
    · exact respects_pure wide

theorem respects_emitDifference {limits : Limits} {token : Option Token}
    (hattach : ∀ t ∈ token, ∀ id, (attach id t limits).Respects R) (l : Label) (site : StringSite)
    (b : BlockId) (index : Nat) : (emitDifference l site limits token b index).Respects R := by
  refine .bind (respects_emitByte l b _ _ _) fun lhs => ?_
  refine .bind (respects_emitByte l b _ _ _) fun rhs => ?_
  refine .bind (respects_pushInst b _ _ _) fun difference => ?_
  cases token with
  | none => exact respects_pure _
  | some token => exact .bind (hattach token rfl difference) fun _ => respects_pure _

theorem respects_emitContinue (l : Label) (site : StringSite) (b : BlockId)
    (lhs difference : Value) : (emitContinue l site b lhs difference).Respects R := by
  refine .bind (respects_emitValue l b _ _) fun same => ?_
  split
  · exact .bind (respects_emitValue l b _ _) fun _ => respects_emitValue l b _ _
  · exact respects_pure same

theorem respects_emitChain {limits : Limits} {token : Option Token}
    (hattach : ∀ t ∈ token, ∀ id, (attach id t limits).Respects R) (l : Label) (site : StringSite)
    (join : BlockId) (remaining : Nat) (b : BlockId) (index : Nat) :
    (emitChain l site limits join remaining token b index).Respects R := by
  induction remaining generalizing token b index with
  | zero =>
    refine .bind (respects_emitDifference hattach l site b index) fun parts => ?_
    exact .bind (respects_setTerminator _ _) fun _ => respects_pure _
  | succ remaining ih =>
    refine .bind (respects_emitDifference hattach l site b index) fun parts => ?_
    refine .bind (respects_addBlockBefore _ _) fun next => ?_
    refine .bind (respects_emitContinue l site b _ _) fun goOn => ?_
    refine .bind (respects_setTerminator _ _) fun _ => ?_
    exact .bind (ih (by simp) next (index + 1)) fun _ => respects_pure _

theorem respects_unroll [Function.OfTokens R] (site : StringSite) (limits : Limits) :
    (unroll site limits).Respects R := by
  refine .bind (respects_query _) fun users => ?_
  refine .bind (respects_takeStrings none users) fun token => ?_
  refine .bind (respects_labelFor _ _) fun l => .bind (respects_splitAt l _ _) fun halves => ?_
  cases halves with
  | none => exact respects_pure ()
  | some halves =>
    refine .bind (respects_addBlockBefore _ _) fun first => ?_
    refine .bind (respects_setTerminator _ _) fun _ => .bind (respects_query _) fun _ => ?_
    exact .bind (respects_emitChain (fun t _ id => respects_attach id t limits) l site _ _ first 0)
      fun incoming => respects_replaceKind _ _

end Edit

end EdgeProbe
