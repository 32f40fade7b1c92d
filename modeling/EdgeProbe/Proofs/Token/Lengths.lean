import EdgeProbe.Proofs.Safety.Pipeline
import EdgeProbe.Proofs.Token.Collected
import EdgeProbe.Proofs.Token.Escaped
import EdgeProbe.Proofs.Token.Stages

/-!
# The lengths of tokens

Every token that a module comes to have on its way is the one of a literal whose length is within
the limits: the stages record such tokens only, and what else they do with tokens is to move them or
to drop them. A text loses the NUL at its end after its length has been looked at, so that its token
may be one byte short. Main statement: `Pipeline.tokens_within_limits`.
-/

namespace EdgeProbe

variable {limits : Limits}

namespace Annotations

variable {a a' : Annotations} {inst i : InstId} {t token : Token}

theorem mem_get_touch : t ∈ (a.touch inst).get i ↔ t ∈ a.get i := by
  rw [touch, get_modify]
  split
  · next heq => rw [heq, id]
  · rfl

theorem value_of_mem_attach? (h : a.attach? inst token limits = some a') (ht : t ∈ a'.get i) :
    t ∈ a.get i ∨ t.value = token.value := by
  have hmodified : ∀ {tokens : List Token → List Token} {slot : Option Nat},
      (∀ l, ∀ t ∈ tokens l, t ∈ l) →
      t ∈ (a.modify inst fun l => tokens l ++ [{ token with slot }]).get i →
      t ∈ a.get i ∨ t.value = token.value := by
    intro tokens slot htokens ht
    rw [get_modify] at ht
    split at ht
    · next heq =>
      subst heq
      obtain ht | ht := List.mem_append.mp ht
      · exact .inl (htokens _ t ht)
      · rw [List.mem_singleton.mp ht]
        exact .inr rfl
    · exact .inl ht
  unfold attach? at h
  dsimp only at h
  split at h
  · split at h
    · cases h
    · rw [← Option.some.inj h] at ht
      exact @hmodified id _ (fun _ _ => id) ht
  · rw [← Option.some.inj h] at ht
    exact hmodified (fun _ _ => List.mem_of_mem_filter) ht

theorem mem_of_mem_take {chosen : Token → Bool} (ht : t ∈ (a.take inst chosen).2.get i) :
    t ∈ a.get i := by
  rw [get_snd_take] at ht
  split at ht
  · next heq => exact heq ▸ List.mem_of_mem_filter ht
  · exact ht

theorem exists_mem_of_mem_moveOrigin {source target : InstId} {origin : Origin}
    (ht : t ∈ (a.moveOrigin source target origin).get i) : ∃ j, t ∈ a.get j := by
  unfold moveOrigin at ht
  dsimp only at ht
  split at ht
  · exact ⟨i, mem_of_mem_take ht⟩
  rw [get_modify] at ht
  split at ht
  · obtain ht | ht := List.mem_append.mp ht
    · exact ⟨target, mem_of_mem_take ht⟩
    · rw [fst_take] at ht
      exact ⟨source, List.mem_of_mem_filter ht⟩
  · exact ⟨i, mem_of_mem_take ht⟩

end Annotations

namespace Function

/-- All tokens of the function are those of literals whose length is within the limits. -/
def FromLiterals (limits : Limits) (f : Function) : Prop :=
  ∀ i, ∀ t ∈ f.annotations.get i, t.OfLiteral limits

def StaysFromLiterals (limits : Limits) (f f' : Function) : Prop :=
  f.FromLiterals limits → f'.FromLiterals limits

variable {f f' : Function}

theorem SameTokens.staysFromLiterals (h : f.SameTokens f') : f.StaysFromLiterals limits f' :=
  fun hf => by rwa [FromLiterals, h.tokens]

instance : OfSteps (StaysFromLiterals limits) where
  refl _ := id
  trans h h' := h' ∘ h
  block hinsts h := (OfSteps.block hinsts h : SameTokens _ _).staysFromLiterals
  inst hchange h := (OfSteps.inst hchange h : SameTokens _ _).staysFromLiterals
  addBlockBefore f name before :=
    (OfSteps.addBlockBefore f name before : SameTokens _ _).staysFromLiterals
  insertInst h := (OfSteps.insertInst h : SameTokens _ _).staysFromLiterals
  splitBlock h := (OfSteps.splitBlock h : SameTokens _ _).staysFromLiterals

instance : OfMarks (StaysFromLiterals limits) where
  mark h := (OfMarks.mark h : SameTokens _ _).staysFromLiterals

instance : OfMoves (StaysFromLiterals limits) where
  moveOrigin _ _ _ _ hf _ t ht :=
    let ⟨j, ht⟩ := Annotations.exists_mem_of_mem_moveOrigin ht
    hf j t ht

instance : OfLiterals limits (StaysFromLiterals limits) where
  attach htoken id f r f' h hf i t ht := by
    unfold Edit.attach at h
    split at h
    · next annotations hattach =>
      obtain ⟨-, rfl⟩ := Prod.mk.inj (Except.ok.inj h)
      obtain ht | hvalue := Annotations.value_of_mem_attach? hattach ht
      · exact hf i t ht
      · rwa [Token.OfLiteral, hvalue]
    · obtain ⟨-, rfl⟩ := Prod.mk.inj (Except.ok.inj h)
      exact hf i t (Annotations.mem_get_touch.mp ht)

end Function

/-! ## Taking strings apart -/

namespace Edit

open EdgeProbe.Function

variable {f f' : Function}

/-- A question is answered or faults, and changes nothing. -/
theorem query_eq_ok {α : Type} {question : Function → Checked α} {r : Except Fatal α}
    (h : query question f = .ok (r, f')) : ∃ a, r = .ok a ∧ (query question).Does f a f' := by
  cases r with
  | ok a => exact ⟨a, rfl, h⟩
  | error cause =>
    obtain ⟨⟨first, f₁⟩, hfirst, h⟩ := Checked.bind_eq_ok.mp h
    cases (Prod.mk.inj (Checked.pure_eq_ok.mp h)).1

/-- The string that is taken is one that was there. -/
theorem fromLiterals_takeStrings {found : Option Token} {users : List InstId}
    {r : Except Fatal (Option Token)} (h : takeStrings found users f = .ok (r, f'))
    (hf : f.FromLiterals limits) (hfound : ∀ t ∈ found, t.OfLiteral limits) :
    f'.FromLiterals limits ∧ ∀ token, r = .ok token → ∀ t ∈ token, t.OfLiteral limits := by
  induction users generalizing found f with
  | nil =>
    obtain ⟨rfl, rfl⟩ := Prod.mk.inj (Checked.pure_eq_ok.mp h)
    refine ⟨hf, fun token heq => ?_⟩
    rwa [← Except.ok.inj heq]
  | cons user rest ih =>
    obtain ⟨⟨kind, f₁⟩, hkind, h⟩ := Checked.bind_eq_ok.mp h
    obtain ⟨kind, rfl, hkind⟩ := query_eq_ok hkind
    obtain ⟨-, rfl⟩ := does_query.mp hkind
    set taken := f.annotations.take user Token.isString with htaken
    have hrest : FromLiterals limits { f with annotations := taken.2 } :=
      fun i t ht => hf i t (Annotations.mem_of_mem_take ht)
    have hor : ∀ t ∈ found.or taken.1.head?, t.OfLiteral limits := by
      intro t ht
      obtain ht | ⟨-, ht⟩ := Option.or_eq_some_iff.mp ht
      · exact hfound t ht
      · have hmem := List.mem_of_mem_head? ht
        rw [htaken, Annotations.fst_take] at hmem
        exact hf user t (List.mem_of_mem_filter hmem)
    cases kind with
    | icmp pred lhs rhs => exact ih h hrest hor
    | phi ty incoming => exact ih h hrest hor
    | _ => exact ih h hf hfound

/-- The token that a call had for its users goes to the first comparison of bytes. -/
theorem respects_unroll_of_literals (site : StringSite) :
    (unroll site limits).Respects (StaysFromLiterals limits) := by
  refine .bind (respects_query _) fun users => ?_
  intro f r f' h hf
  obtain ⟨token, f₁, htake, h⟩ | ⟨cause, htake, -⟩ := bind_cases h
  case inr => exact (fromLiterals_takeStrings htake hf (by simp)).1
  obtain ⟨hf₁, htoken⟩ := fromLiterals_takeStrings htake hf (by simp)
  have hattach : ∀ t ∈ token, ∀ id, (attach id t limits).Respects (StaysFromLiterals limits) :=
    fun t ht => respects_attach_of_literal (htoken token rfl t ht)
  refine (?_ : Respects (StaysFromLiterals limits) _) f₁ r f' h hf₁
  refine .bind (respects_labelFor _ _) fun l => .bind (respects_splitAt l _ _) fun halves => ?_
  cases halves with
  | none => exact respects_pure ()
  | some halves =>
    refine .bind (respects_addBlockBefore _ _) fun first => ?_
    refine .bind (respects_setTerminator _ _) fun _ => .bind (respects_query _) fun _ => ?_
    exact .bind (respects_emitChain hattach l site _ _ first 0) fun incoming =>
      respects_replaceKind _ _

end Edit

/-- A literal is as long as what its token is decoded to, or it is a text that loses a NUL. -/
theorem Token.length_decode {text : Bool} {bytes : List UInt8} {token : String}
    (h : encode? limits text bytes = some token) :
    (decode token.toList).length ≤ limits.maxTokenLen ∧
    (limits.minTokenLen ≤ (decode token.toList).length ∨
      (decode token.toList).length + 1 = limits.minTokenLen ∧
        encode? limits true (decode token.toList ++ [0]) = some token) := by
  obtain ⟨hmin, hmax⟩ := (encode?_eq_some.mp h).1
  rw [decode_of_encode? h]
  unfold withoutTerminator
  split
  · next hloses =>
    obtain ⟨htext, hlast⟩ := Bool.and_eq_true_iff.mp hloses
    have hbytes : bytes.dropLast ++ [0] = bytes :=
      List.dropLast_append_getLast? 0 (beq_iff_eq.mp hlast)
    have hlength := congrArg List.length hbytes
    rw [List.length_append, List.length_singleton] at hlength
    refine ⟨by omega, ?_⟩
    obtain hle | hlt := Nat.lt_or_ge limits.minTokenLen bytes.length
    · exact .inl (by omega)
    · rw [hbytes, ← htext]
      exact .inr ⟨by omega, h⟩
  · exact ⟨hmax, .inl hmin⟩

/-! ## Modules -/

namespace Module

/-- All tokens of the module are those of literals whose length is within the limits. -/
def FromLiterals (limits : Limits) (m : Module) : Prop :=
  m.Throughout (Function.FromLiterals limits)

def StaysFromLiterals (limits : Limits) (m m' : Module) : Prop :=
  m.FromLiterals limits → m'.FromLiterals limits

end Module

namespace Function

theorem fromLiterals_of_isEmpty {f : Function} (h : f.annotations.isEmpty = true) :
    f.FromLiterals limits := by
  intro i t ht
  rw [get_of_isEmpty h] at ht
  cases ht

theorem fromLiterals_empty {f : Function} (h : f.annotations = {}) : f.FromLiterals limits :=
  fromLiterals_of_isEmpty (h ▸ rfl)

end Function

theorem Pass.PadsSplit.fromLiterals {f f' : Function} (h : PadsSplit f f')
    (hf : f.FromLiterals limits) : f'.FromLiterals limits := by
  obtain ⟨-, rfl⟩ | ⟨-, count, hdoes⟩ := h
  · exact hf
  · have hsame : f.SameTokens f' := Edit.respects_splitSharedLandingPads.does hdoes
    exact hsame.staysFromLiterals hf

instance : Module.OfSteps (Function.StaysFromLiterals limits)
    (Module.StaysFromLiterals limits) where
  refl _ := id
  trans h h' := h' ∘ h
  setFunction hid hf hm := hm.setFunction (hf (hm.function hid))
  globals _ _ := id
  declared _ _ _ _ hm := hm.addFunction (Function.fromLiterals_empty rfl)

theorem Pass.defineAccessor_fromLiterals (name : String) (value : Nat) :
    (defineAccessor name value).Respects (Module.StaysFromLiterals limits) := by
  refine respects_update fun m hm => ?_
  dsimp only
  split
  · exact Module.Throughout.setFunction hm (Function.fromLiterals_empty rfl)
  · exact Module.Throughout.addFunction hm (Function.fromLiterals_empty rfl)

namespace Pipeline

open EdgeProbe.Module

variable {config : Config} {drawn : UInt64} {m : Module}

theorem After.fromLiterals (hm : m.FromLiterals config.limits) {stage : Stage} {s : PassState}
    (h : After config drawn m stage s) : s.module.FromLiterals config.limits := by
  -- The relation is named, so that each pass is known to keep it by one lemma about the pass.
  have hkeeps : ∀ {α : Type} {pass : Pass α} {s s' : PassState} {a : α},
      pass.Respects (StaysFromLiterals config.limits) → pass.Does s a s' →
      s.module.FromLiterals config.limits → s'.module.FromLiterals config.limits :=
    fun hpass hdoes => hpass.does hdoes
  induction h with
  | input => exact hm
  | harvesting _ hdoes ih => exact hkeeps (Pass.respects_harvest config) hdoes ih
  | selects _ _ hdoes ih => exact hkeeps Pass.respects_lowerSelects hdoes ih
  | compares _ hdoes ih => exact hkeeps (Pass.respects_splitCompares config) hdoes ih
  | strings _ hdoes ih =>
    exact hkeeps (Pass.respects_splitStrings config Edit.respects_unroll_of_literals) hdoes ih
  | edges _ hdoes ih =>
    exact hkeeps (Pass.respects_instrumentEdges config drawn
      fun name _ => Pass.defineAccessor_fromLiterals name) hdoes ih

/-- A token that is recorded is decoded to at most as many bytes as a literal may have, and to at
least as many as it must have, or to one less: so it is for a text of just as many bytes as it must
have of which the last is the NUL that it loses. -/
theorem tokens_within_limits {artifacts : BuildArtifacts} {s : PassState}
    (hempty : ∀ f ∈ m.functions, f.annotations.isEmpty = true)
    (h : run config drawn { module := m } = .ok (.ok artifacts, s)) (dictType : DictType) :
    ∀ r ∈ artifacts.dictionary.entries dictType,
      (Token.decode r.token.toList).length ≤ config.limits.maxTokenLen ∧
      (config.limits.minTokenLen ≤ (Token.decode r.token.toList).length ∨
        (Token.decode r.token.toList).length + 1 = config.limits.minTokenLen ∧
          Token.encode? config.limits true (Token.decode r.token.toList ++ [0]) = some r.token) := by
  intro r hr
  have hm : m.FromLiterals config.limits :=
    fun f hf => Function.fromLiterals_of_isEmpty (hempty f hf)
  cases endsWith_of_run h with
  | @done s₁ s₂ _ report _ hs₁ hedges _ hdictionary =>
    rw [hdictionary] at hr
    obtain ⟨i, hi⟩ := Pass.instrumentEdges_does hedges
    obtain ⟨id, f', b, n, hid', blk, -, inst, -, token, htoken, rfl⟩ :=
      exists_offers_of_recordTokens hi.dictionary (Dictionary.mem_of_mem_entries hr)
    obtain ⟨f, hid, hpads⟩ := hi.split.exists_function hid'
    have hf := hpads.fromLiterals ((hs₁.fromLiterals hm).function hid)
    obtain ⟨text, bytes, hvalue⟩ := hf inst token htoken
    exact Token.length_decode hvalue

/-- A run that leaves comparisons whole comes to its end if its stages do and leave modules that are
accepted. -/
theorem exists_run_of_stages (hnone : config.convert = .none)
    {s₁ s₂ s₃ s₄ : PassState} {harvest : HarvestStats} {compares : CompareStats}
    {strings : StringStats} {report : InstrumentReport}
    (hsettings : (checkSettings config).Does { module := m } () { module := m }) (hm : m.Accepted)
    (hharvest : (Pass.harvest config).Does { module := m } harvest s₁) (hm₁ : s₁.module.Accepted)
    (hcompares : (Pass.splitCompares config).Does s₁ compares s₂) (hm₂ : s₂.module.Accepted)
    (hstrings : (Pass.splitStrings config).Does s₂ strings s₃) (hm₃ : s₃.module.Accepted)
    (hedges : (Pass.instrumentEdges config drawn).Does s₃ report s₄) (hm₄ : s₄.module.Accepted) :
    ∃ artifacts s, run config drawn { module := m } = .ok (.ok artifacts, s) ∧
      artifacts.dictionary = report.dictionary := by
  rw [run, runPass_bind_of_does hsettings, check_bind_of_accepted hm, runPass_bind_of_does hharvest,
    check_bind_of_accepted hm₁, lowerSelects, if_pos (beq_iff_eq.mpr hnone), pure_bind,
    runPass_bind_of_does hcompares, check_bind_of_accepted hm₂, runPass_bind_of_does hstrings,
    check_bind_of_accepted hm₃, runPass_bind_of_does hedges, check_bind_of_accepted hm₄]
  exact ⟨_, _, rfl, rfl⟩

end Pipeline

/-! ### Two words for a function -/

/-- Passes two words on, of which the first has two letters. -/
def Module.brief : Module where
  name := "brief"
  globals := #[
    { name := "short", constant := true, contents := some (.bytes [97, 98, 0]) },
    { name := "long", constant := true, contents := some (.bytes [97, 98, 99, 0]) }]
  functions := #[
    .declare "take" [.ptr, .ptr] .void,
    { name := "pass"
      params := []
      ret := .void
      blocks := #[⟨"entry", [⟨0⟩], .ret none⟩]
      layout := [⟨0⟩]
      insts := #[
        { kind := .call (.direct ⟨0⟩) [.global ⟨0⟩, .global ⟨1⟩] .void, block := some ⟨0⟩ }] }]

/-- The stages of a run that leaves comparisons whole, with whether each leaves a module whose
validity can be computed. -/
def Pass.wholeStages (config : Config) (drawn : UInt64) : Pass (Bool × InstrumentReport) := do
  let _ ← harvest config
  let harvested := (← get).module.isLocal
  let _ ← splitCompares config
  let compared := (← get).module.isLocal
  let _ ← splitStrings config
  let split := (← get).module.isLocal
  let report ← instrumentEdges config drawn
  return (harvested && compared && split && (← get).module.isLocal, report)

theorem Module.brief_run : ∃ artifacts s,
    Pipeline.run (.fuzzing .normal .none) 0 { module := brief } = .ok (.ok artifacts, s) ∧
      (artifacts.dictionary.entries .normal).map Dictionary.Record.token = ["ab", "abc"] := by
  have hstages : (Pass.completed? ((Pass.wholeStages (.fuzzing .normal .none) 0).runOn brief)).map
      (fun done => (done.1.1, (done.1.2.dictionary.entries .normal).map Dictionary.Record.token)) =
        some (true, ["ab", "abc"]) := by decide +kernel
  obtain ⟨⟨⟨kept, report⟩, s⟩, hcompleted, heq⟩ := Option.map_eq_some_iff.mp hstages
  obtain ⟨rfl, htokens⟩ := Prod.mk.inj heq
  obtain ⟨_, s₁, hharvest, hdoes⟩ := Pass.does_bind.mp (Pass.does_of_completed hcompleted)
  obtain ⟨_, _, hget, hdoes⟩ := Pass.does_bind.mp hdoes
  obtain ⟨rfl, rfl⟩ := Pass.does_get.mp hget
  obtain ⟨_, s₂, hcompares, hdoes⟩ := Pass.does_bind.mp hdoes
  obtain ⟨_, _, hget, hdoes⟩ := Pass.does_bind.mp hdoes
  obtain ⟨rfl, rfl⟩ := Pass.does_get.mp hget
  obtain ⟨_, s₃, hstrings, hdoes⟩ := Pass.does_bind.mp hdoes
  obtain ⟨_, _, hget, hdoes⟩ := Pass.does_bind.mp hdoes
  obtain ⟨rfl, rfl⟩ := Pass.does_get.mp hget
  obtain ⟨report', s₄, hedges, hdoes⟩ := Pass.does_bind.mp hdoes
  obtain ⟨_, _, hget, hdoes⟩ := Pass.does_bind.mp hdoes
  obtain ⟨rfl, rfl⟩ := Pass.does_get.mp hget
  obtain ⟨hpair, rfl⟩ := Pass.does_pure.mp hdoes
  obtain ⟨hlocal, rfl⟩ := Prod.mk.inj hpair
  simp only [Bool.and_eq_true] at hlocal
  obtain ⟨⟨⟨hlocal₁, hlocal₂⟩, hlocal₃⟩, hlocal₄⟩ := hlocal
  have hnone : (Config.fuzzing .normal .none).convert = .none := rfl
  have hsettings : (Pipeline.checkSettings (.fuzzing .normal .none)).Does { module := brief } ()
      { module := brief } := by
    rfl
  obtain ⟨artifacts, s', hrun, hdictionary⟩ := Pipeline.exists_run_of_stages hnone hsettings
    (accepted_of_isLocal (by decide +kernel)) hharvest (accepted_of_isLocal hlocal₁)
    hcompares (accepted_of_isLocal hlocal₂) hstrings (accepted_of_isLocal hlocal₃)
    hedges (accepted_of_isLocal hlocal₄)
  exact ⟨artifacts, s', hrun, hdictionary ▸ htokens⟩

/-- The word of three letters has a token of three bytes. -/
theorem Module.brief_tokens_within_limits : ∃ artifacts s,
    (∀ f ∈ brief.functions, f.annotations.isEmpty = true) ∧
    Pipeline.run (.fuzzing .normal .none) 0 { module := brief } = .ok (.ok artifacts, s) ∧
    (artifacts.dictionary.entries .normal).map Dictionary.Record.token = ["ab", "abc"] ∧
    ∀ r ∈ artifacts.dictionary.entries .normal, (Token.decode r.token.toList).length ≤ 32 ∧
      (3 ≤ (Token.decode r.token.toList).length ∨ (Token.decode r.token.toList).length + 1 = 3 ∧
        Token.encode? {} true (Token.decode r.token.toList ++ [0]) = some r.token) := by
  obtain ⟨artifacts, s, hrun, htokens⟩ := brief_run
  have hempty : ∀ f ∈ brief.functions, f.annotations.isEmpty = true := by decide
  exact ⟨artifacts, s, hempty, hrun, htokens, Pipeline.tokens_within_limits hempty hrun .normal⟩

/-- The word of two letters and a NUL has a token of two bytes, although three are asked for. -/
theorem Module.brief_token_too_short : ∃ artifacts s,
    (∀ f ∈ brief.functions, f.annotations.isEmpty = true) ∧
    Pipeline.run (.fuzzing .normal .none) 0 { module := brief } = .ok (.ok artifacts, s) ∧
    ∃ r ∈ artifacts.dictionary.entries .normal,
      (Token.decode r.token.toList).length < (Config.fuzzing .normal .none).limits.minTokenLen := by
  obtain ⟨artifacts, s, hrun, htokens⟩ := brief_run
  refine ⟨artifacts, s, by decide, hrun, ?_⟩
  obtain ⟨r, hr, htoken⟩ := List.mem_map.mp (htokens ▸ List.mem_cons_self :
    "ab" ∈ (artifacts.dictionary.entries .normal).map Dictionary.Record.token)
  refine ⟨r, hr, ?_⟩
  rw [htoken]
  decide

end EdgeProbe
