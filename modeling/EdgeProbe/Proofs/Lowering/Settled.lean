import EdgeProbe.Proofs.Lowering.RecordedStrings
import EdgeProbe.Proofs.Token.Discipline
import EdgeProbe.Proofs.Token.Ordered

/-!
# Where a string goes when a call is taken apart

The strings of whatever asks for the result of a call are taken, and the first of them goes to the
first difference of the chain. If the constant side of the call has been attached right before, that
is the one. Main statements: `Edit.get_unroll` and `Edit.unroll_carries`.
-/

namespace EdgeProbe

namespace Annotations

variable {a a' : Annotations} {inst i : InstId} {token : Token}

/-- A token that is attached leaves those of other instructions as they are. -/
theorem get_attach?_of_ne {limits : Limits} (h : a.attach? inst token limits = some a')
    (hne : i ≠ inst) : a'.get i = a.get i := by
  unfold attach? at h
  dsimp only at h
  split at h
  · split at h
    · cases h
    · obtain rfl := Option.some.inj h
      rw [get_modify, if_neg hne]
  · obtain rfl := Option.some.inj h
    rw [get_modify, if_neg hne]

end Annotations

namespace Function

variable {f f' : Function} {i : InstId}

theorem Listed.live {b : BlockId} {pos : Nat} (h : f.Listed i b pos) : f.Live i :=
  ⟨b, h.1, h.2.choose, h.2.choose_spec.1, List.mem_of_getElem? h.2.choose_spec.2⟩

/-- An instruction that is appended to a block of the layout is live. -/
theorem live_pushInst {b : BlockId} {kind : InstKind} {name : String} {loc : Option DebugLoc}
    (hb : b ∈ f.layout) (h : f.pushInst b kind name loc = .ok (f', i)) : f'.Live i := by
  obtain ⟨blk, hblk, -⟩ := Checked.bind_eq_ok.mp h
  obtain ⟨rfl, rfl⟩ := pushInst_eq_ok h
  refine ⟨b, hb, { blk with insts := blk.insts ++ [⟨f.insts.size⟩] }, ?_, by simp⟩
  rw [block_withNewInst, if_pos rfl, hblk]
  rfl

end Function

namespace Edit

open EdgeProbe.Function

variable {f f₁ f' : Function} {limits : Limits} {token : Token} {i : InstId}

/-! ## The first difference -/

/-- A token is at a live instruction that is new, and the tokens elsewhere are what they were. -/
structure Settled (f f' : Function) (token : Token) (i : InstId) : Prop where
  new : f.insts.size ≤ i.index
  inArena : i.index < f'.insts.size
  live : f'.Live i
  carries : token.origin.isMultiple = false → { token with slot := none } ∈ f'.annotations.get i
  others : ∀ j, j ≠ i → f'.annotations.get j = f.annotations.get j

theorem get_attach_of_ne {u : Unit} {j : InstId} (h : (attach i token limits).Does f u f')
    (hne : j ≠ i) : f'.annotations.get j = f.annotations.get j := by
  unfold Does attach at h
  split at h
  · next annotations hattach =>
    obtain ⟨-, rfl⟩ := Prod.mk.inj (Except.ok.inj h)
    exact Annotations.get_attach?_of_ne hattach hne
  · cases h

theorem settled_emitDifference {l : Label} {site : StringSite} {b : BlockId} {index : Nat}
    {r : Value × Value} (hb : b ∈ f.layout)
    (h : (emitDifference l site limits (some token) b index).Does f r f') :
    ∃ i, Settled f f' token i := by
  obtain ⟨lhs, f₁, hlhs, h⟩ := does_bind.mp h
  obtain ⟨rhs, f₂, hrhs, h⟩ := does_bind.mp h
  obtain ⟨i, f₃, hpush, h⟩ := does_bind.mp h
  obtain ⟨_, f₄, hattach, h⟩ := does_bind.mp h
  obtain ⟨-, rfl⟩ := does_pure.mp h
  have hf₂ : f.SameTokens f₂ := Function.SameTokens.trans
    ((respects_emitByte l b _ _ _).does hlhs) ((respects_emitByte l b _ _ _).does hrhs)
  have hpush := does_apply.mp hpush
  have hlive := live_pushInst (hf₂.layout hb) hpush
  obtain ⟨rfl, rfl⟩ := pushInst_eq_ok hpush
  refine ⟨⟨f₂.insts.size⟩, hf₂.insts, ?_, ?_, fun hsingle => ?_, fun j hne => ?_⟩
  · obtain ⟨annotations, rfl, -⟩ := does_attach hattach
    simp
  · obtain ⟨annotations, rfl, -⟩ := does_attach hattach
    exact (retains_withAnnotations _ annotations).live _ hlive
  · obtain rfl := does_attach_single hsingle hattach
    rw [Annotations.get_modify, if_pos rfl]
    exact List.mem_append_right _ (List.mem_singleton_self _)
  · exact (get_attach_of_ne hattach hne).trans (congrArg (Annotations.get · j) hf₂.tokens)

/-- Where tokens stay and live instructions stay live, the string stays where it is. -/
theorem Settled.does {α : Type} {x : Edit α} {a : α} (h : Settled f f₁ token i)
    (htokens : x.Respects SameTokens) (hlive : x.Respects Retains) (hdoes : x.Does f₁ a f') :
    Settled f f' token i where
  new := h.new
  inArena := h.inArena.trans_le (htokens.does hdoes).insts
  live := (hlive.does hdoes).live i h.live
  carries := (htokens.does hdoes).tokens ▸ h.carries
  others := (htokens.does hdoes).tokens ▸ h.others

theorem settled_emitChain {l : Label} {site : StringSite} {join : BlockId} {remaining : Nat}
    {b : BlockId} {index : Nat} {r : List (Value × BlockId)}
    (hb : b ∈ f.layout)
    (h : (emitChain l site limits join remaining (some token) b index).Does f r f') :
    ∃ i, Settled f f' token i := by
  cases remaining with
  | zero =>
    obtain ⟨parts, f₁, hparts, hrest⟩ := does_bind.mp h
    obtain ⟨i, hi⟩ := settled_emitDifference hb hparts
    have hrespects : ∀ (R : Function → Function → Prop) [Function.OfSteps R], (do
        setTerminator b (.br join)
        return [(parts.2, b)] : Edit (List (Value × BlockId))).Respects R :=
      fun R _ => .bind (respects_setTerminator _ _) fun _ => respects_pure _
    exact ⟨i, hi.does (hrespects _) (hrespects _) hrest⟩
  | succ remaining =>
    obtain ⟨parts, f₁, hparts, hrest⟩ := does_bind.mp h
    obtain ⟨i, hi⟩ := settled_emitDifference hb hparts
    -- The rest of the chain has no token.
    have hrespects : ∀ (R : Function → Function → Prop) [Function.OfSteps R], (do
        let next ← blockBefore l "New.Cmp" join
        let goOn ← emitContinue l site b parts.1 parts.2
        setTerminator b (.condBr goOn next join)
        return (parts.2, b) :: (← emitChain l site limits join remaining none next (index + 1))
        : Edit (List (Value × BlockId))).Respects R := by
      intro R _
      refine .bind (respects_addBlockBefore _ _) fun next => ?_
      refine .bind (respects_emitContinue l site b _ _) fun goOn => ?_
      refine .bind (respects_setTerminator _ _) fun _ => ?_
      exact .bind (respects_emitChain (by simp) l site join remaining next _) fun _ => respects_pure _
    exact ⟨i, hi.does (hrespects _) (hrespects _) hrest⟩

/-! ## Taking strings -/

/-- What is not asked for its strings keeps its tokens. -/
theorem get_takeStrings {found r : Option Token} {users : List InstId} {j : InstId}
    (hj : j ∈ users → ∀ kind, f.kind j = .ok kind → kind.decides = false)
    (h : (takeStrings found users).Does f r f') : f'.annotations.get j = f.annotations.get j := by
  induction users generalizing found f with
  | nil =>
    obtain ⟨-, rfl⟩ := does_pure.mp h
    rfl
  | cons user rest ih =>
    obtain ⟨kind, f₁, hdoes, h⟩ := does_bind.mp h
    obtain ⟨hkind, rfl⟩ := kind_does.mp hdoes
    have hrest := fun hmem => hj (List.mem_cons_of_mem user hmem)
    have htake : kind.decides = true → (do
        let taken := ((← get).annotations.take user Token.isString).1
        setAnnotations fun a => (a.take user Token.isString).2
        takeStrings (found.or taken.head?) rest : Edit (Option Token)).Does f r f' →
        f'.annotations.get j = f.annotations.get j := by
      intro hdecides h
      obtain ⟨g, f₂, hget, h⟩ := does_bind.mp h
      obtain ⟨rfl, rfl⟩ := does_get.mp hget
      obtain ⟨u, f₃, hset, h⟩ := does_bind.mp h
      obtain rfl := does_setAnnotations.mp hset
      have hne : j ≠ user := by
        rintro rfl
        exact Bool.false_ne_true ((hj List.mem_cons_self kind hkind).symm.trans hdecides)
      refine (ih ?_ h).trans ?_
      · exact hrest
      · exact (Annotations.get_snd_take _ _ _ _).trans (if_neg hne)
    cases kind with
    | icmp pred lhs rhs => exact htake rfl h
    | phi ty incoming => exact htake rfl h
    | _ => exact ih hrest h

/-- If all strings are the same, and there is one, it is what is found. -/
theorem takeStrings_finds {found r : Option Token} {users : List InstId}
    (hstring : token.isString = true)
    (hone : ∀ i ∈ users, (∃ kind, f.kind i = .ok kind ∧ kind.decides = true) →
      ∀ t ∈ f.annotations.get i, t.isString = true → t = token)
    (hfound : found = some token ∨ found = none ∧ ∃ i ∈ users,
      (∃ kind, f.kind i = .ok kind ∧ kind.decides = true) ∧ token ∈ f.annotations.get i)
    (h : (takeStrings found users).Does f r f') : r = some token := by
  induction users generalizing found f with
  | nil =>
    obtain ⟨rfl, -⟩ := does_pure.mp h
    obtain hfound | ⟨-, i, hi, -⟩ := hfound
    · exact hfound
    · cases hi
  | cons user rest ih =>
    obtain ⟨kind, f₁, hdoes, h⟩ := does_bind.mp h
    obtain ⟨hkind, rfl⟩ := kind_does.mp hdoes
    obtain ⟨huser, hrest⟩ := List.forall_mem_cons.mp hone
    have hskip : kind.decides = false → (takeStrings found rest).Does f r f' → r = some token := by
      intro hdecides h
      refine ih hrest (hfound.imp_right fun ⟨hnone, i, hi, hkind', hmem⟩ => ⟨hnone, i, ?_, hkind', hmem⟩) h
      refine (List.mem_cons.mp hi).resolve_left ?_
      rintro rfl
      obtain ⟨kind', hkind', hdecides'⟩ := hkind'
      obtain rfl := Except.ok.inj (hkind.symm.trans hkind')
      exact Bool.false_ne_true (hdecides.symm.trans hdecides')
    have htake : kind.decides = true → (do
        let taken := ((← get).annotations.take user Token.isString).1
        setAnnotations fun a => (a.take user Token.isString).2
        takeStrings (found.or taken.head?) rest : Edit (Option Token)).Does f r f' →
        r = some token := by
      intro hdecides h
      have huser := huser ⟨kind, hkind, hdecides⟩
      obtain ⟨g, f₂, hget, h⟩ := does_bind.mp h
      obtain ⟨rfl, rfl⟩ := does_get.mp hget
      obtain ⟨u, f₃, hset, h⟩ := does_bind.mp h
      obtain rfl := does_setAnnotations.mp hset
      rw [Annotations.fst_take] at h
      refine ih ?_ ?_ h
      · intro i hi hdecides t ht
        refine hrest i hi hdecides t ?_
        rw [Annotations.get_snd_take] at ht
        split at ht
        · next heq => exact heq ▸ List.mem_of_mem_filter ht
        · exact ht
      · obtain rfl | ⟨rfl, i, hi, hkind', hmem⟩ := hfound
        · exact .inl rfl
        by_cases htoken : token ∈ f.annotations.get user
        · -- All strings of this reader are the token.
          left
          have hhead : ∀ t ∈ ((f.annotations.get user).filter Token.isString).head?, t = token := by
            intro t ht
            obtain ⟨hmem, hs⟩ := List.mem_filter.mp (List.mem_of_mem_head? ht)
            exact huser t hmem hs
          cases hfilter : (f.annotations.get user).filter Token.isString with
          | nil => exact absurd hstring (List.filter_eq_nil_iff.mp hfilter token htoken)
          | cons t ts =>
            rw [hhead t (by rw [hfilter]; rfl)]
            rfl
        · have hne : i ≠ user := by
            rintro rfl
            exact htoken hmem
          right
          refine ⟨?_, i, (List.mem_cons.mp hi).resolve_left hne, hkind', ?_⟩
          · rw [List.filter_eq_nil_iff.mpr fun t ht hs => htoken (huser t ht hs ▸ ht)]
            rfl
          · rw [Annotations.get_snd_take, if_neg hne]
            exact hmem
    cases kind with
    | icmp pred lhs rhs => exact htake rfl h
    | phi ty incoming => exact htake rfl h
    | _ => exact hskip rfl h

/-- Of what asks for the result of a call, the constant side that is attached is the only string. -/
theorem attachToResultUsers_only {call : InstId} {count : Nat}
    (horigin : token.origin = .comparedString)
    (h : (attachToResultUsers call token limits).Does f count f') (hi : f.Asks call i) :
    ∀ t ∈ f'.annotations.get i, t.isString = true → t = { token with slot := none } := by
  obtain ⟨users, f₁, hquery, h⟩ := does_bind.mp h
  obtain ⟨rfl, husers⟩ := resultUsers_does hquery
  obtain ⟨u, f₂, hattach, h⟩ := does_bind.mp h
  obtain ⟨-, rfl⟩ := does_pure.mp h
  have hend := hattach.forM_rest (fun rest f₁ => i ∈ rest ∨
    ∀ t ∈ f₁.annotations.get i, t.isString = true → t = { token with slot := none }) ?_
    (.inl ((husers i).mpr hi))
  · exact hend.resolve_left List.not_mem_nil
  · rintro user rest f₁ f₂ hinv hstep
    have hsingle : token.origin.isMultiple = false := by rw [horigin]; rfl
    obtain rfl := does_attach_single hsingle hstep
    simp only [Annotations.get_modify]
    by_cases heq : i = user
    · right
      rw [if_pos heq]
      intro t ht hstring
      obtain ht | ht := List.mem_append.mp ht
      · obtain ⟨-, hkept⟩ := List.mem_filter.mp ht
        have hclass : Origin.tagClass .comparedString = .s2u := rfl
        rw [Token.isString] at hstring
        rw [horigin, hclass, hstring] at hkept
        cases hkept
      · exact List.mem_singleton.mp ht
    · rw [if_neg heq]
      exact hinv.imp_left fun hmem => (List.mem_cons.mp hmem).resolve_left heq

/-! ## Taking a call apart -/

/-- What a call was taken apart into: if a token was taken before, a new instruction has it. -/
theorem unroll_settles {site : StringSite} {u : Unit} (hf : f.Tidy) {b : BlockId} {pos : Nat}
    (hlisted : f.Listed site.call b pos) {kind : InstKind} (hkind : f.kind site.call = .ok kind)
    (hphi : kind.isPhi = false) (h : (unroll site limits).Does f u f') :
    ∃ users token f₁, f.instUsers site.call = .ok users ∧
      (takeStrings none users).Does f token f₁ ∧ f₁.insts = f.insts ∧
      (token = none → f₁.SameTokens f') ∧ ∀ t ∈ token, ∃ i, Settled f₁ f' t i := by
  obtain ⟨users, f₁, hquery, h⟩ := does_bind.mp h
  obtain ⟨husers, rfl⟩ := does_query.mp hquery
  obtain ⟨token, f₁, htake, h⟩ := does_bind.mp h
  obtain ⟨annotations, rfl, -⟩ := takeStrings_does htake
  obtain ⟨l, f₂, hl, h⟩ := does_bind.mp h
  obtain rfl := labelFor_does hl
  obtain ⟨halves, f₃, hsplit, h⟩ := does_bind.mp h
  have hf₃ := (respects_splitAt (R := SameTokens) l site.call _).does hsplit
  obtain ⟨c, join, rfl, -⟩ :=
    splitAt_does (hf.withAnnotations annotations) hlisted hkind hphi hsplit
  obtain ⟨first, f₄, hfirst, h⟩ := does_bind.mp h
  obtain ⟨_, f₅, hset, h⟩ := does_bind.mp h
  obtain ⟨_, _, hreserve, h⟩ := does_bind.mp h
  obtain ⟨-, rfl⟩ := does_query.mp hreserve
  obtain ⟨incoming, f₆, hchain, hreplace⟩ := does_bind.mp h
  have hf₅ := hf₃.trans (.trans ((respects_addBlockBefore _ join).does hfirst)
    ((respects_setTerminator _ _).does hset))
  have hin : first ∈ f₅.layout := by
    refine ((respects_setTerminator (R := SameTokens) _ _).does hset).layout ?_
    obtain ⟨rfl, rfl⟩ := Prod.mk.inj (Except.ok.inj (does_apply.mp hfirst))
    exact (mem_layout_withNewBlock (f₃.placeBefore_le join)).mpr (.inl rfl)
  refine ⟨users, token, _, husers, htake, rfl, fun hnone => ?_, fun t ht => ?_⟩
  · subst hnone
    have hf₆ := (respects_emitChain (R := SameTokens) (by simp) l site join _ first 0).does hchain
    exact hf₅.trans (hf₆.trans ((respects_replaceKind _ _).does hreplace))
  · obtain rfl := Option.mem_def.mp ht
    obtain ⟨i, hi⟩ := settled_emitChain hin hchain
    have hi := hi.does (respects_replaceKind _ _) (respects_replaceKind _ _) hreplace
    exact ⟨i, hf₅.insts.trans hi.new, hi.inArena, hi.live, hi.carries,
      fun j hne => (hi.others j hne).trans (congrArg (Annotations.get · j) hf₅.tokens)⟩

/-- What does not ask for the result of a call keeps its tokens when the call is taken apart. -/
theorem get_unroll {site : StringSite} {u : Unit} (hf : f.Tidy) {b : BlockId} {pos : Nat}
    (hlisted : f.Listed site.call b pos) {kind : InstKind} (hkind : f.kind site.call = .ok kind)
    (hphi : kind.isPhi = false) (h : (unroll site limits).Does f u f') {j : InstId}
    (hj : ¬f.Asks site.call j) (hlt : j.index < f.insts.size) :
    f'.annotations.get j = f.annotations.get j := by
  obtain ⟨users, token, f₁, husers, htake, hinsts, hnone, hsome⟩ :=
    unroll_settles hf hlisted hkind hphi h
  have htaken : f₁.annotations.get j = f.annotations.get j := by
    refine get_takeStrings (fun hmem kind hkind => ?_) htake
    by_contra hdecides
    exact hj ⟨(mem_instUsers husers).mp hmem, kind, hkind, by simpa using hdecides⟩
  cases token with
  | none => exact (congrArg (Annotations.get · j) (hnone rfl).tokens).trans htaken
  | some t =>
    obtain ⟨i, hi⟩ := hsome t rfl
    refine (hi.others j ?_).trans htaken
    rintro rfl
    exact absurd (hinsts ▸ hi.new) (Nat.not_le.mpr hlt)

/-- The constant side goes from what asks for the result to a new instruction. -/
theorem unroll_carries {site : StringSite} {u : Unit} (hf : f.Tidy) {b : BlockId} {pos : Nat}
    (hlisted : f.Listed site.call b pos) {kind : InstKind} (hkind : f.kind site.call = .ok kind)
    (hphi : kind.isPhi = false) (h : (unroll site limits).Does f u f')
    (horigin : token.origin = .comparedString) (hslot : token.slot = none)
    (hone : ∀ i, f.Asks site.call i →
      ∀ t ∈ f.annotations.get i, t.isString = true → t = token)
    (hsome : ∃ i, f.Asks site.call i ∧ token ∈ f.annotations.get i) :
    ∃ i, f.insts.size ≤ i.index ∧ i.index < f'.insts.size ∧ f'.Live i ∧
      token ∈ f'.annotations.get i := by
  obtain ⟨users, found, f₁, husers, htake, hinsts, -, hsettled⟩ :=
    unroll_settles hf hlisted hkind hphi h
  obtain ⟨reader, hasks, hmem⟩ := hsome
  obtain rfl := takeStrings_finds (Token.isString_comparedString horigin hslot)
    (fun i hi hdecides => hone i ⟨(mem_instUsers husers).mp hi, hdecides⟩)
    (.inr ⟨rfl, reader, (mem_instUsers husers).mpr hasks.toReads, hasks.decides, hmem⟩) htake
  obtain ⟨i, hi⟩ := hsettled token rfl
  have hcarries := hi.carries (by rw [horigin]; rfl)
  have hsame : { token with slot := none } = token := by rw [← hslot]
  exact ⟨i, hinsts ▸ hi.new, hi.inArena, hi.live, hsame ▸ hcarries⟩

end Edit

end EdgeProbe
