import EdgeProbe.Proofs.Code.Body
import EdgeProbe.Proofs.Lowering.Candidates

/-!
# Comparisons that stay whole

Of the comparisons that are worth taking apart, those that allow equality and the signed ones give
way first. Where comparisons are spared that a token has been made of, the rest are halved, except
equalities with a constant: the constant is a token of theirs if it has the length of one. Main
statement: `Pass.splitCompares_recorded`.
-/

namespace EdgeProbe

variable {m : Module} {exempt : BlockId → Prop} {f f₁ f' : Function} {preds gone : List Predicate}
  {sites : List (InstId × Nat)} {site : InstId × Nat} {u : Unit}

/-- Bytes of which there are as many as allowed have a token. -/
theorem Token.exists_encode? {limits : Limits} (text : Bool) {bytes : List UInt8}
    (hmin : limits.minTokenLen ≤ bytes.length) (hmax : bytes.length ≤ limits.maxTokenLen) :
    ∃ value, encode? limits text bytes = some value :=
  ⟨_, if_neg (by omega)⟩

namespace Function

theorem Listed.isDeclaration {id : InstId} {b : BlockId} {pos : Nat} (h : f.Listed id b pos) :
    f.isDeclaration = false := by
  rw [Function.isDeclaration, List.isEmpty_eq_false_iff]
  exact List.ne_nil_of_mem h.1

theorem SplitFrom.sound (h : f.SplitFrom f') (hs : f.Sound m exempt) : f'.Sound m exempt := by
  have hsteps := h.steps
  clear h
  induction hsteps with
  | refl => exact hs
  | tail _ hlast ih => exact hlast.sound ih

/-! ## Normalization -/

/-- What a loop over the comparisons with some predicates keeps, with those that are still to come:
there are no other ones, and none with a predicate that is gone. -/
structure Pending (m : Module) (exempt : BlockId → Prop) (preds gone : List Predicate)
    (sites : List (InstId × Nat)) (f : Function) : Prop where
  tidy : f.Tidy
  narrow : f.Narrow
  sound : f.isDeclaration = false → f.Sound m exempt
  found : ∀ site ∈ sites, f.Site preds site
  left : ∀ i pred lhs rhs width, f.Candidate i pred lhs rhs width → pred ∈ preds →
    (i, width) ∈ sites
  others : ∀ i pred lhs rhs width, f.Candidate i pred lhs rhs width → pred ∉ gone

theorem Pending.forM {edit : InstId × Nat → Edit Unit} (h : f.Pending m exempt preds gone sites)
    (hedit : ∀ site f₁ f₂, f₁.Sound m exempt → f₁.Narrow → f₁.Site preds site →
      (edit site).Does f₁ () f₂ → (f₁ = f₂ ∨ f₁.Splits f₂) ∧
        f₁.GivesWay f₂ site.1 fun pred _ => pred ∉ preds ∧ pred ∉ gone)
    (hloop : (sites.forM edit).Does f u f') : f'.Pending m exempt preds gone [] := by
  refine hloop.forM_rest (fun rest f' => f'.Pending m exempt preds gone rest) ?_ h
  intro site rest f₁ f₂ h₁ hdoes
  have hsite := h₁.found site List.mem_cons_self
  obtain ⟨b, pos, hlisted⟩ := hsite.listed
  have hs := h₁.sound hlisted.isDeclaration
  obtain ⟨hsplits, hgives⟩ := hedit site f₁ f₂ hs h₁.narrow hsite hdoes
  have hfrom : f₁.SplitFrom f₂ := by
    obtain rfl | hsplits := hsplits
    · exact .refl hs.tidy
    · exact (SplitFrom.refl hs.tidy).tail hsplits
  refine ⟨hfrom.extended.tidy, hfrom.narrow h₁.narrow, fun _ => hfrom.sound hs, ?_, ?_, ?_⟩
  · intro site' hmem
    exact (h₁.found site' (List.mem_cons_of_mem _ hmem)).extended hs.tidy hfrom.extended
  · intro i pred lhs rhs width hi hpred
    obtain ⟨hne, hold⟩ | ⟨hnot, -⟩ := hgives i pred lhs rhs width hi
    · obtain heq | hmem := List.mem_cons.mp (h₁.left i pred lhs rhs width hold hpred)
      · exact absurd (congrArg Prod.fst heq) hne
      · exact hmem
    · exact absurd hpred hnot
  · intro i pred lhs rhs width hi
    obtain ⟨-, hold⟩ | ⟨-, hnot⟩ := hgives i pred lhs rhs width hi
    · exact h₁.others i pred lhs rhs width hold
    · exact hnot

/-- Only comparisons that can be halved are left. -/
def Normal (f : Function) : Prop :=
  ∀ i pred lhs rhs width, f.Candidate i pred lhs rhs width → pred ∈ [.eq, .ne, .ugt, .ult]

end Function

namespace Edit

theorem simplifyAll_pending (hf : f.Tidy) (hnarrow : f.Narrow)
    (hs : f.isDeclaration = false → f.Sound m exempt) {count : Nat}
    (h : simplifyAll.Does f count f') :
    f'.Pending m exempt [.uge, .sge, .ule, .sle] [] [] := by
  obtain ⟨sites, f₁, hquery, h⟩ := does_bind.mp h
  obtain ⟨hsites, rfl⟩ := does_query.mp hquery
  obtain ⟨u, f₂, hloop, h⟩ := does_bind.mp h
  obtain ⟨-, rfl⟩ := does_pure.mp h
  have hstart : f.Pending m exempt [.uge, .sge, .ule, .sle] [] sites := by
    refine ⟨hf, hnarrow, hs, fun site => Function.candidates_site hsites, ?_, by simp⟩
    exact fun i pred lhs rhs width hi hpred => hi.mem_candidates hpred hsites
  refine hstart.forM (fun site f₁ f₂ hs hnarrow hsite hdoes => ?_) hloop
  refine ⟨simplify_splits hs.tidy hsite hdoes, fun i pred lhs rhs width hi => ?_⟩
  exact (simplify_givesWay hs hsite hdoes i pred lhs rhs width hi).imp_right
    fun hnot => ⟨hnot, List.not_mem_nil⟩

theorem normalizeSigns_normal (h : f.Pending m exempt [.uge, .sge, .ule, .sle] [] []) {count : Nat}
    (hdoes : normalizeSigns.Does f count f') : f'.Normal := by
  obtain ⟨sites, f₁, hquery, hdoes⟩ := does_bind.mp hdoes
  obtain ⟨hsites, rfl⟩ := does_query.mp hquery
  obtain ⟨u, f₂, hloop, hdoes⟩ := does_bind.mp hdoes
  obtain ⟨-, rfl⟩ := does_pure.mp hdoes
  have hstart : f.Pending m exempt [.sgt, .slt] [.uge, .sge, .ule, .sle] sites := by
    refine ⟨h.tidy, h.narrow, h.sound, fun site => Function.candidates_site hsites, ?_, ?_⟩
    · exact fun i pred lhs rhs width hi hpred => hi.mem_candidates hpred hsites
    · intro i pred lhs rhs width hi hpred
      exact absurd (h.left i pred lhs rhs width hi hpred) List.not_mem_nil
  have hend := hstart.forM (fun site f₁ f₂ hs hnarrow hsite hdoes => by
    refine ⟨normalizeSign_splits hs.tidy hsite hnarrow hdoes, fun i pred lhs rhs width hi => ?_⟩
    refine (normalizeSign_givesWay hs hsite hdoes i pred lhs rhs width hi).imp_right fun hmem => ?_
    dsimp only
    revert hmem
    cases pred <;> decide) hloop
  intro i pred lhs rhs width hi
  have hsigned : pred ∉ [.sgt, .slt] := fun hpred =>
    absurd (hend.left i pred lhs rhs width hi hpred) List.not_mem_nil
  have hstrict := hend.others i pred lhs rhs width hi
  revert hsigned hstrict
  cases pred <;> decide

end Edit

/-! ## Halving -/

namespace Edit

/-- Only the tokens of the comparison are moved when it is halved. -/
theorem keeps_halve {related : Function → Function → Prop} (hcode : Function.OfCode related)
    {width : Nat} {id : InstId} {pred : Predicate} {lhs rhs : Value}
    (hmove : ∀ high, (setAnnotations fun a => a.moveOrigin id high .comparedInteger).Keeps related) :
    (halve width id pred lhs rhs).Keeps related := by
  refine .bind hcode (keeps_labelFor hcode _ _) fun l => ?_
  refine .bind hcode (keeps_splitAt hcode _ _ _) fun r => ?_
  cases r with
  | none => exact keeps_pure hcode ()
  | some halves =>
    obtain ⟨head, join⟩ := halves
    refine .bind hcode (keeps_emitHigh hcode _ _ _ _ _) fun high0 => ?_
    refine .bind hcode (keeps_emitHigh hcode _ _ _ _ _) fun high1 => ?_
    refine .bind hcode (keeps_pushInst hcode _ _ _ _) fun high => ?_
    split
    · refine .bind hcode (keeps_compareLow hcode _ _ _ _ _ _ _) fun low => ?_
      obtain ⟨lowBlock, low⟩ := low
      have hrest : (do
          replaceKind id (.phi .i1 [(.inst low, lowBlock), (.ofBool (pred == .ne), head)])
          setAnnotations fun a => a.moveOrigin id high .comparedInteger
          markSplit high
          markSplit low : Edit Unit).Keeps related :=
        .bind hcode (keeps_replaceKind hcode _ _) fun _ => .bind hcode (hmove high) fun _ =>
          .bind hcode (keeps_markSplit hcode _) fun _ => keeps_markSplit hcode _
      dsimp only
      split <;> exact .bind hcode (keeps_setTerminator hcode _ _) fun _ => hrest
    · exact keeps_halveOrder hcode _ _ _ _ _ _ _ _ _ _ _

end Edit

namespace Function

variable {limits : Limits} {config : Config} {id i : InstId} {pred : Predicate} {lhs rhs : Value}
  {width : Nat}

theorem Candidate.of_tokens {annotations : Annotations}
    (hi : ({ f with annotations } : Function).Candidate i pred lhs rhs width) :
    f.Candidate i pred lhs rhs width := by
  have htypes : ({ f with annotations } : Function).TypesKept f :=
    .of_kinds rfl fun _ _ hkind => .inl hkind
  exact ⟨⟨hi.kind, htypes.intWidth? le_rfl hi.left, htypes.intWidth? le_rfl hi.right⟩, hi.listed,
    hi.magic⟩

theorem Retagged.candidate (h : f.Retagged id f') (hi : f'.Candidate i pred lhs rhs width) :
    f.Candidate i pred lhs rhs width := by
  obtain ⟨annotations, rfl⟩ := h.code
  exact hi.of_tokens

/-- The constant of a comparison is one of its tokens. -/
def CarriesConstant (f : Function) (limits : Limits) (i : InstId) (lhs rhs : Value) : Prop :=
  ∃ bytes, Pass.comparedBytes? lhs rhs = some bytes ∧ ∃ token ∈ f.annotations.get i,
    token.origin = .comparedInteger ∧ Token.encode? limits false bytes = some token.value

/-- The constant of a comparison has as many bytes as fit in the width. -/
theorem Compares.length_comparedBytes (h : f.Compares i pred lhs rhs width) {bytes : List UInt8}
    (hbytes : Pass.comparedBytes? lhs rhs = some bytes) : bytes.length = width / 8 := by
  obtain ⟨constant, hconstant, hbytes⟩ := Option.bind_eq_some_iff.mp hbytes
  obtain ⟨value, hfind, hvalue⟩ := Option.bind_eq_some_iff.mp hconstant
  have hwidth : f.intWidth? value = .ok (some width) := by
    have hmem := List.mem_of_find?_eq_some hfind
    simp only [List.mem_cons, List.not_mem_nil, or_false] at hmem
    obtain rfl | rfl := hmem
    · exact h.left
    · exact h.right
  have hint := List.find?_some hfind
  cases value with
  | const constant =>
    cases constant with
    | int w bits =>
      obtain rfl := Option.some.inj hvalue
      have hty : f.valueType (.const (.int w bits)) = .ok (.int w) := by
        rw [valueType, valueTypeWithin]
        rfl
      rw [intWidth?, hty] at hwidth
      obtain rfl : w = width := Option.some.inj (Except.ok.inj hwidth)
      rw [Constant.leBytes?] at hbytes
      split at hbytes
      · rw [← Option.some.inj hbytes, length_leBytes]
      · cases hbytes
    | null => cases hint
  | _ => cases hint

theorem HasConstant.carries (h : f.HasConstant limits i lhs rhs)
    (hi : f.Compares i pred lhs rhs width) (hmin : limits.minTokenLen ≤ width / 8)
    (hmax : width / 8 ≤ limits.maxTokenLen) : f.CarriesConstant limits i lhs rhs := by
  obtain ⟨bytes, hbytes, hvalues⟩ := h
  have hlength := hi.length_comparedBytes hbytes
  obtain ⟨value, hvalue⟩ := Token.exists_encode? false (hmin.trans hlength.ge)
    (hlength.trans_le hmax)
  obtain ⟨token, htoken, horigin, rfl⟩ := hvalues value hvalue
  exact ⟨bytes, hbytes, token, htoken, horigin, hvalue⟩

theorem HasConstant.mono (h : f.HasConstant limits i lhs rhs)
    (htokens : ∀ token ∈ f.annotations.get i, token ∈ f'.annotations.get i) :
    f'.HasConstant limits i lhs rhs := by
  obtain ⟨bytes, hbytes, hvalues⟩ := h
  refine ⟨bytes, hbytes, fun value hvalue => ?_⟩
  obtain ⟨token, hmem, htoken⟩ := hvalues value hvalue
  exact ⟨token, htokens token hmem, htoken⟩

/-- An equality of the program's own whose constant has been recorded, where those may stay whole. -/
structure Spared (f : Function) (config : Config) (i : InstId) (pred : Predicate) (lhs rhs : Value) :
    Prop where
  convert : config.convert ≠ .all
  equality : pred.isEquality = true
  own : ∃ inst, f.inst i = .ok inst ∧ inst.split = false
  constant : f.HasConstant config.limits i lhs rhs

theorem Spared.mono (h : f.Spared config i pred lhs rhs)
    (hmarks : ∀ inst, f.inst i = .ok inst → ∃ inst', f'.inst i = .ok inst' ∧ inst'.split = inst.split)
    (htokens : ∀ token ∈ f.annotations.get i, token ∈ f'.annotations.get i) :
    f'.Spared config i pred lhs rhs := by
  obtain ⟨inst, hinst, hsplit⟩ := h.own
  obtain ⟨inst', hinst', hsame⟩ := hmarks inst hinst
  exact ⟨h.convert, h.equality, ⟨inst', hinst', hsame.trans hsplit⟩, h.constant.mono htokens⟩

/-- Of the comparisons that are at least as wide, those that are not still to come may stay whole. -/
structure Halving (config : Config) (width : Nat) (sites : List (InstId × Nat)) (f : Function) :
    Prop where
  normal : f.Normal
  spared : ∀ i pred lhs rhs w, f.Candidate i pred lhs rhs w → w ∈ [64, 32, 16] → width ≤ w →
    (i, w) ∈ sites ∨ f.Spared config i pred lhs rhs

theorem Halving.mono (h : f.Halving config width sites) {width' : Nat} (hle : width ≤ width') :
    f.Halving config width' sites :=
  ⟨h.normal, fun i pred lhs rhs w hi hw hle' => h.spared i pred lhs rhs w hi hw (hle.trans hle')⟩

/-- What is left of the other comparisons when one has had its turn. -/
theorem Halving.spared_of_ne (h : f.Halving config width (site :: sites)) {w : Nat}
    (hi : f.Candidate i pred lhs rhs w) (hw : w ∈ [64, 32, 16]) (hle : width ≤ w)
    (hne : i ≠ site.1)
    (hmarks : ∀ inst, f.inst i = .ok inst → ∃ inst', f'.inst i = .ok inst' ∧ inst'.split = inst.split)
    (htokens : ∀ token ∈ f.annotations.get i, token ∈ f'.annotations.get i) :
    (i, w) ∈ sites ∨ f'.Spared config i pred lhs rhs := by
  obtain hmem | hspared := h.spared i pred lhs rhs w hi hw hle
  · obtain heq | hmem := List.mem_cons.mp hmem
    · exact absurd (congrArg Prod.fst heq) hne
    · exact .inl hmem
  · exact .inr (hspared.mono hmarks htokens)

theorem Retagged.inst (h : f.Retagged id f') (i : InstId) : f'.inst i = f.inst i := by
  obtain ⟨annotations, rfl⟩ := h.code
  rfl

/-- Only new instructions are marked when a comparison is halved. -/
theorem halve_marks (hf : f.Tidy) {b : BlockId} {pos : Nat} (hid : f.Listed id b pos)
    (hkind : f.kind id = .ok (.icmp pred lhs rhs))
    (h : (Edit.halve width id pred lhs rhs).Does f u f') {inst : Inst} (hinst : f.inst i = .ok inst) :
    ∃ inst', f'.inst i = .ok inst' ∧ inst'.split = inst.split := by
  cases hequality : pred.isEquality with
  | true =>
    obtain ⟨c, join, code, -, -, -, -, hopened, -⟩ :=
      Edit.halve_opened_equality hf hid hkind hequality h
    obtain ⟨inst', hinst', -, hsame⟩ := hopened.parents i inst hinst
    exact ⟨inst', hinst', hsame⟩
  | false =>
    obtain ⟨c, join, block, inverse, code, -, -, -, -, -, -, -, -, hopened, -⟩ :=
      Edit.halve_opened_order hf hid hkind hequality h
    obtain ⟨inst', hinst', -, hsame⟩ := hopened.parents i inst hinst
    exact ⟨inst', hinst', hsame⟩

theorem halve_tokens (h : (Edit.halve width id pred lhs rhs).Does f u f') (hne : i ≠ id) :
    ∀ token ∈ f.annotations.get i, token ∈ f'.annotations.get i := by
  have hcode : OfCode fun f f' : Function =>
      ∀ token ∈ f.annotations.get i, token ∈ f'.annotations.get i :=
    ⟨fun hsame token hmem => hsame.annotations ▸ hmem, fun h h' token hmem => h' token (h token hmem)⟩
  refine Edit.keeps_halve hcode (fun high f u f' hdoes => ?_) f u f' h
  obtain rfl := Edit.does_setAnnotations.mp hdoes
  exact fun token => Annotations.mem_moveOrigin hne

theorem HalvingStep.halving (hconvert : config.convert ≠ .none) (hs : f.Sound m exempt)
    (hsite : f.Site [.eq, .ne, .ugt, .ult] site) (h : f.Halving config site.2 (site :: sites))
    (hstep : HalvingStep config site.2 site.1 f f') : f'.Halving config site.2 sites := by
  -- What is true of tokens that have been added to one comparison only.
  have hretagged : f.Retagged site.1 f' →
      (∀ pred lhs rhs, f.Candidate site.1 pred lhs rhs site.2 → site.2 ∈ [64, 32, 16] →
        f'.Spared config site.1 pred lhs rhs) →
      f'.Halving config site.2 sites := by
    intro htagged hown
    refine ⟨fun i pred lhs rhs w hi => h.normal i pred lhs rhs w (htagged.candidate hi), ?_⟩
    intro i pred lhs rhs w hi hw hle
    have hold := htagged.candidate hi
    by_cases heq : i = site.1
    · subst heq
      have hwidth := (hsite.compares pred lhs rhs hold.kind).2.left
      obtain rfl := Option.some.inj (Except.ok.inj (hold.left.symm.trans hwidth))
      exact .inr (hown pred lhs rhs hold hw)
    · refine h.spared_of_ne hold hw hle heq (fun inst hinst => ?_) fun token hmem => ?_
      · exact ⟨inst, (htagged.inst i).trans hinst, rfl⟩
      · exact (htagged.others i heq).symm ▸ hmem
  cases hstep with
  | other hkind heq =>
    rw [heq]
    refine ⟨h.normal, fun i pred lhs rhs w hi hw hle => ?_⟩
    exact h.spared_of_ne hi hw hle (fun heq => hkind pred lhs rhs (heq ▸ hi.kind))
      (fun inst hinst => ⟨inst, hinst, rfl⟩) fun token hmem => hmem
  | @recorded pred₀ lhs₀ rhs₀ hkind hpred hspares hmark htagged hconstant =>
    refine hretagged htagged fun pred lhs rhs hi _ => ?_
    obtain ⟨rfl, rfl, rfl⟩ := InstKind.icmp.inj (Except.ok.inj (hkind.symm.trans hi.kind))
    obtain ⟨inst, hinst, -⟩ := kind_eq_ok.mp hkind
    exact ⟨hspares, hpred, ⟨inst, (htagged.inst _).trans hinst, hmark inst hinst⟩, hconstant⟩
  | whole hkind hwhole htagged =>
    refine hretagged htagged fun pred lhs rhs hi hw => ?_
    have hwhole := hwhole.resolve_left hconvert
    simp at hw
    omega
  | @halved pred₀ lhs₀ rhs₀ f₁ hkind hwidth htagged hdoes =>
    have hfrom := htagged.splitFrom hs.tidy (index_lt_of_kind hkind)
    have hgives := Edit.halve_givesWay (hfrom.sound hs) (hsite.extended hs.tidy hfrom.extended)
      ((htagged.kind _).trans hkind) hdoes
    refine ⟨fun i pred lhs rhs w hi => ?_, fun i pred lhs rhs w hi hw hle => ?_⟩
    · obtain ⟨-, hold⟩ | ⟨hpred, -⟩ := hgives i pred lhs rhs w hi
      · exact h.normal i pred lhs rhs w (htagged.candidate hold)
      · exact hpred
    · obtain ⟨hne, hold⟩ | ⟨-, rfl⟩ := hgives i pred lhs rhs w hi
      · obtain ⟨b, pos, hlisted⟩ := (hsite.extended hs.tidy hfrom.extended).listed
        refine h.spared_of_ne (htagged.candidate hold) hw hle hne (fun inst hinst => ?_)
          fun token hmem => ?_
        · exact halve_marks hfrom.extended.tidy hlisted ((htagged.kind _).trans hkind) hdoes
            ((htagged.inst i).trans hinst)
        · exact halve_tokens hdoes hne token ((htagged.others i hne).symm ▸ hmem)
      · omega

end Function

/-! ## The pass -/

namespace Pass

variable {s s' : PassState} {id : FuncId} {config : Config}

theorem normalizeCompares_normal (hs : s.module.Sound) (hm : s.module.Narrow)
    {stats stats' : CompareStats} (h : (normalizeCompares stats id).Does s stats' s') :
    ∃ f f', s.module.function id = .ok f ∧ s'.module = s.module.setFunction id f' ∧ f'.Normal := by
  obtain ⟨simplified, s₁, hfirst, h⟩ := does_bind.mp h
  obtain ⟨f, f₁, hid, hsimplify, rfl⟩ := does_inFunction.mp hfirst
  obtain ⟨count, s₂, hsecond, h⟩ := does_bind.mp h
  obtain ⟨-, rfl⟩ := does_pure.mp h
  obtain ⟨f', hnormalize, hs'⟩ :=
    inFunction_setFunction (Module.index_lt_of_function hid) rfl hsecond
  have hpending := Edit.simplifyAll_pending (hm.tidy id f hid) (hm.narrow id f hid) (hs id f hid)
    hsimplify
  exact ⟨f, f', hid, hs', Edit.normalizeSigns_normal hpending hnormalize⟩

/-- After all functions have been normalized all of them are. -/
theorem normalizeAll_normal (hm : m.Sound) (hnarrow : m.Narrow) {ids : List FuncId}
    (hids : ∀ id f, m.function id = .ok f → id ∈ ids) (hs : s.module = m)
    {stats stats' : CompareStats} (h : (ids.foldlM normalizeCompares stats).Does s stats' s') :
    m.Splits s'.module ∧ ∀ id f, s'.module.function id = .ok f → f.Normal := by
  have hend := h.foldlM_rest (fun rest s => m.Splits s.module ∧
    ∀ id f, s.module.function id = .ok f → id ∈ rest ∨ f.Normal) ?_ ?_
  · exact ⟨hend.1, fun id f hid => (hend.2 id f hid).resolve_left List.not_mem_nil⟩
  · rintro id rest stats stats' s s' ⟨hsplits, hinv⟩ hstep
    have hnarrow₁ := hsplits.narrow hnarrow
    have hsplits' := normalizeCompares_splits hnarrow₁ hstep
    obtain ⟨f₀, f', hid, hs', hnormal⟩ :=
      normalizeCompares_normal (hsplits.sound hm) hnarrow₁ hstep
    refine ⟨hsplits.trans hsplits', fun i f hi => ?_⟩
    rw [hs', Module.function_setFunction (Module.index_lt_of_function hid)] at hi
    split at hi
    · exact .inr (Except.ok.inj hi ▸ hnormal)
    · next hne => exact (hinv i f hi).imp_left fun hmem => (List.mem_cons.mp hmem).resolve_left hne
  · exact ⟨hs ▸ .refl, fun id f hid => .inl (hids id f (hs ▸ hid))⟩

/-- The comparisons of a function that have some width have their turn. -/
theorem halveCompares_halving (hconvert : config.convert ≠ .none) {width : Nat}
    (hwidth : width ∈ [64, 32, 16, 8]) (hm : s.module.Sound) (htidy : s.module.Tidy)
    {stats stats' : CompareStats} (h : (halveCompares config width stats id).Does s stats' s') :
    ∃ f f', s.module.function id = .ok f ∧ s'.module = s.module.setFunction id f' ∧
      (f.Halving config (2 * width) [] → f'.Halving config width []) := by
  obtain ⟨sites, s₁, hquery, h⟩ := does_bind.mp h
  obtain ⟨hsites, rfl⟩ := does_query.mp hquery
  obtain ⟨f, hid, hsites⟩ := Checked.bind_eq_ok.mp hsites
  have hf := htidy id f hid
  have hlt := Module.index_lt_of_function hid
  have hfound : ∀ site ∈ sites.filter (·.2 == width),
      f.Site [.eq, .ne, .ugt, .ult] site ∧ site.2 = width := by
    intro site hsite
    obtain ⟨hmem, heq⟩ := List.mem_filter.mp hsite
    exact ⟨Function.candidates_site hsites hmem, by simpa using heq⟩
  -- At first those that have the width are the ones that are still to come.
  have hstart : f.Halving config (2 * width) [] →
      f.Halving config width (sites.filter (·.2 == width)) := by
    intro hbefore
    refine ⟨hbefore.normal, fun i pred lhs rhs w hi hw hle => ?_⟩
    by_cases hwide : 2 * width ≤ w
    · exact .inr ((hbefore.spared i pred lhs rhs w hi hw hwide).resolve_left List.not_mem_nil)
    · obtain rfl : w = width := by
        simp only [List.mem_cons, List.not_mem_nil, or_false] at hw hwidth
        omega
      have hmem := hi.mem_candidates (hbefore.normal i pred lhs rhs w hi) hsites
      exact .inl (List.mem_filter.mpr ⟨hmem, by simp⟩)
  have hend := h.foldlM_rest (fun rest s₂ => (∀ site ∈ rest, site ∈ sites.filter (·.2 == width)) ∧
    ∃ f', s₂.module = s.module.setFunction id f' ∧ f.SplitFrom f' ∧
      (f.Halving config (2 * width) [] → f'.Halving config width rest)) ?_ ?_
  · obtain ⟨-, f', hs', -, hhalving⟩ := hend
    exact ⟨f, f', hid, hs', hhalving⟩
  · rintro site rest stats stats' s₂ s₃ ⟨hrest, f₁, hs₂, hfrom, hinv⟩ hstep
    obtain ⟨hsite, rfl⟩ := hfound site (hrest site List.mem_cons_self)
    have hsite₁ := hsite.extended hf hfrom.extended
    obtain ⟨done, s₄, hdone, hstep⟩ := does_bind.mp hstep
    obtain ⟨-, rfl⟩ := does_pure.mp hstep
    obtain ⟨f₂, f', hid₂, hs₄, hhalved⟩ := halveCompare_does hdone
    rw [hs₂, Module.function_setFunction hlt, if_pos rfl] at hid₂
    obtain rfl := Except.ok.inj hid₂
    have hfrom' := hhalved.splitFrom hfrom.extended.tidy hsite₁ hwidth
    obtain ⟨b, pos, hlisted⟩ := hsite.listed
    have hs₁ := hfrom.sound (hm id f hid hlisted.isDeclaration)
    refine ⟨fun site hmem => hrest site (List.mem_cons_of_mem _ hmem), f', ?_, hfrom.trans hfrom', ?_⟩
    · rw [hs₄, hs₂, Module.setFunction_setFunction]
    · exact fun hbefore => hhalved.halving hconvert hs₁ hsite₁ (hinv hbefore)
  · exact ⟨fun _ hmem => hmem, f, (Module.setFunction_self hid).symm, .refl hf, hstart⟩

/-- After those of one width have had their turn in all functions. -/
theorem halveAll_halving (hconvert : config.convert ≠ .none) {width : Nat}
    (hwidth : width ∈ [64, 32, 16, 8]) (hm : s.module.Sound) (htidy : s.module.Tidy)
    {ids : List FuncId} (hids : ∀ id f, s.module.function id = .ok f → id ∈ ids)
    (hbefore : ∀ id f, s.module.function id = .ok f → f.Halving config (2 * width) [])
    {stats stats' : CompareStats}
    (h : (ids.foldlM (halveCompares config width) stats).Does s stats' s') :
    s.module.Splits s'.module ∧
      ∀ id f, s'.module.function id = .ok f → f.Halving config width [] := by
  have hend := h.foldlM_rest (fun rest s₁ => s.module.Splits s₁.module ∧
    ∀ id f, s₁.module.function id = .ok f → f.Halving config width [] ∨
      id ∈ rest ∧ f.Halving config (2 * width) []) ?_ ?_
  · refine ⟨hend.1, fun id f hid => (hend.2 id f hid).resolve_right fun hrest => ?_⟩
    exact absurd hrest.1 List.not_mem_nil
  · rintro id rest stats stats' s₁ s₂ ⟨hsplits, hinv⟩ hstep
    have htidy₁ := hsplits.tidy htidy
    obtain ⟨f, f', hid, hs₂, hhalving⟩ :=
      halveCompares_halving hconvert hwidth (hsplits.sound hm) htidy₁ hstep
    refine ⟨hsplits.trans (halveCompares_splits hwidth htidy₁ hstep), fun i g hi => ?_⟩
    rw [hs₂, Module.function_setFunction (Module.index_lt_of_function hid)] at hi
    split at hi
    · obtain rfl := Except.ok.inj hi
      refine .inl (hhalving ?_)
      obtain hdone | ⟨-, htodo⟩ := hinv id f hid
      · exact hdone.mono (by omega)
      · exact htodo
    · next hne =>
      refine (hinv i g hi).imp_right fun htodo => ?_
      exact ⟨(List.mem_cons.mp htodo.1).resolve_left hne, htodo.2⟩
  · exact ⟨.refl, fun id f hid => .inr ⟨hids id f hid, hbefore id f hid⟩⟩

/-- The pass goes on only where no comparison is too wide. -/
theorem splitCompares_narrow (hm : s.module.Tidy) {stats : CompareStats}
    (h : (splitCompares config).Does s stats s') : s.module.Narrow := by
  obtain ⟨ids, s₁, hids, h⟩ := does_bind.mp h
  obtain ⟨rfl, rfl⟩ := does_functionIds.mp hids
  obtain ⟨u, s₂, hwidths, -⟩ := does_bind.mp h
  obtain ⟨rfl, hnarrow⟩ := checkWidths_narrow hwidths
  refine ⟨hm, fun id f hid => hnarrow id ?_ f hid⟩
  exact Module.mem_functionIds.mpr (Module.index_lt_of_function hid)

/-- Unless comparisons are only recorded, none that is worth taking apart stays as it was: they are
equalities and strict orders of unsigned integers, and of more than a byte only if they are spared. -/
theorem splitCompares_spared (hm : m.Accepted) (honce : m.ListsOnce)
    (hconvert : config.convert ≠ .none) {stats : CompareStats}
    (h : (splitCompares config).runOn m = .ok (.ok stats, s)) {f : Function}
    (hid : s.module.function id = .ok f) : f.Halving config 8 [] := by
  have htidy : m.Tidy := hm.tidy honce
  have hsound : m.Sound := hm.sound honce
  have h : (splitCompares config).Does { module := m } stats s := h
  have hnarrow : m.Narrow := splitCompares_narrow htidy h
  obtain ⟨ids, s₁, hids, h⟩ := does_bind.mp h
  obtain ⟨rfl, rfl⟩ := does_functionIds.mp hids
  have hall : ∀ id f, m.function id = .ok f → id ∈ m.functionIds :=
    fun id f hid => Module.mem_functionIds.mpr (Module.index_lt_of_function hid)
  obtain ⟨u, s₂, hwidths, h⟩ := does_bind.mp h
  obtain ⟨rfl, -⟩ := checkWidths_narrow hwidths
  rw [if_neg (by simpa using hconvert)] at h
  obtain ⟨stats₁, s₃, hnormalize, h⟩ := does_bind.mp h
  obtain ⟨hsplits, hnormal⟩ := normalizeAll_normal hsound hnarrow hall rfl hnormalize
  obtain ⟨stats₂, s₄, hhalve, h⟩ := does_bind.mp h
  obtain ⟨u, s₅, hreport, h⟩ := does_bind.mp h
  obtain ⟨-, rfl⟩ := does_pure.mp h
  rw [silent_reportCompares stats₂ s₄ u s₅ hreport] at hid
  -- One round for each width.
  have hround : ∀ width ∈ [64, 32, 16, 8], ∀ s s' stats stats',
      m.Splits s.module → (∀ id f, s.module.function id = .ok f →
        f.Halving config (2 * width) []) →
      (m.functionIds.foldlM (halveCompares config width) stats).Does s stats' s' →
      m.Splits s'.module ∧
        ∀ id f, s'.module.function id = .ok f → f.Halving config width [] := by
    intro width hwidth s s' stats stats' hsplits hbefore h
    have hstill : ∀ id f, s.module.function id = .ok f → id ∈ m.functionIds := by
      intro id f hid
      have hlt := Module.index_lt_of_function hid
      rw [Module.Steps.size_functions hsplits] at hlt
      exact Module.mem_functionIds.mpr hlt
    obtain ⟨hsplits', hafter⟩ := halveAll_halving hconvert hwidth (hsplits.sound hsound)
      (hsplits.tidy htidy) hstill hbefore h
    exact ⟨hsplits.trans hsplits', hafter⟩
  simp only [List.foldlM_cons, List.foldlM_nil] at hhalve
  obtain ⟨stats₆₄, s₆₄, h₆₄, hhalve⟩ := does_bind.mp hhalve
  obtain ⟨hsplits, hdone⟩ := hround 64 (by decide) _ _ _ _ hsplits (fun id f hid =>
    ⟨hnormal id f hid, fun i pred lhs rhs w hi hw hle => by simp at hw; omega⟩) h₆₄
  obtain ⟨stats₃₂, s₃₂, h₃₂, hhalve⟩ := does_bind.mp hhalve
  obtain ⟨hsplits, hdone⟩ := hround 32 (by decide) _ _ _ _ hsplits hdone h₃₂
  obtain ⟨stats₁₆, s₁₆, h₁₆, hhalve⟩ := does_bind.mp hhalve
  obtain ⟨hsplits, hdone⟩ := hround 16 (by decide) _ _ _ _ hsplits hdone h₁₆
  obtain ⟨stats₈, s₈, h₈, hhalve⟩ := does_bind.mp hhalve
  obtain ⟨hsplits, hdone⟩ := hround 8 (by decide) _ _ _ _ hsplits hdone h₈
  obtain ⟨-, rfl⟩ := does_pure.mp hhalve
  exact hdone id f hid

end Pass

end EdgeProbe
