import EdgeProbe.Proofs.Lowering.Turns

/-!
# Where the tokens of integers end up

Halving starts with no integer token. A comparison gets its token in its turn and, if it is halved,
hands it on to the comparison of the upper halves, which may hand it on in turn. So at any time each
token is carried by one comparison, its bearer. Main statement: `Pass.splitCompares_bearers`.
-/

namespace EdgeProbe

variable {m : Module} {exempt : BlockId → Prop} {f f₁ f' g : Function} {x x' y : Comparison}
  {config : Config} {limits : Limits} {width : Nat} {value : String} {site : InstId × Nat}
  {asked rest : List (InstId × Nat)} {bearer : Comparison → Comparison}

/-- The turn of the comparison is still to come, in a round over comparisons of some width. -/
def Comparison.Waits (width : Nat) (todo : List (InstId × Nat)) (x : Comparison) : Prop :=
  x.width < width ∨ x.width = width ∧ (x.id, width) ∈ todo

theorem Comparison.Waits.of_tail (h : x.Waits width rest) : x.Waits width (site :: rest) :=
  h.imp_right fun hmem => ⟨hmem.1, List.mem_cons_of_mem _ hmem.2⟩

theorem Comparison.Waits.of_ne (h : x.Waits width (site :: rest)) (hne : x.id ≠ site.1) :
    x.Waits width rest :=
  h.imp_right fun hmem => ⟨hmem.1, (List.mem_cons.mp hmem.2).resolve_left fun heq =>
    hne (congrArg Prod.fst heq)⟩

namespace Function

/-- An equality with a constant that has the length of a token. -/
structure Earns (limits : Limits) (g : Function) (x : Comparison) (value : String) : Prop where
  has : g.Has x
  width : x.width ∈ [64, 32, 16, 8]
  token : x.token? limits = some value

theorem Earns.bytes (h : g.Earns limits x value) : Pass.comparedBytes? x.lhs x.rhs ≠ none := by
  obtain ⟨-, bytes, hbytes, -⟩ := Comparison.token?_eq_some.mp h.token
  rw [hbytes]
  nofun

theorem Earns.equality (h : g.Earns limits x value) : x.pred.isEquality = true :=
  (Comparison.token?_eq_some.mp h.token).1

theorem pred_of_uppers (h : Relation.ReflTransGen f.UpperOf x y) : y.pred = x.pred := by
  induction h with
  | refl => rfl
  | tail _ hlast ih => exact hlast.pred.trans ih

theorem Has.index_lt (h : f.Has x) : x.id.index < f.insts.size :=
  index_lt_of_kind h.kind

/-- The tokens of integers in the course of halving. `g` is the function with which it started;
`asked` are the comparisons that are still to be recorded in this round, and `rest` those that are
still to be halved. -/
structure Account (config : Config) (g : Function) (width : Nat) (asked rest : List (InstId × Nat))
    (bearer : Comparison → Comparison) (f : Function) : Prop where
  has : ∀ x value, g.Earns config.limits x value → f.Has (bearer x)
  chain : ∀ x value, g.Earns config.limits x value → Relation.ReflTransGen f.UpperOf x (bearer x)
  widths : ∀ x value, g.Earns config.limits x value → (bearer x).width ∈ [64, 32, 16, 8]
  waiting : ∀ x value, g.Earns config.limits x value → x.Waits width asked →
    bearer x = x ∧ f.annotations.ofOrigin .comparedInteger x.id = []
  recorded : ∀ x value, g.Earns config.limits x value → ¬x.Waits width asked → ∃ provenance,
    f.annotations.ofOrigin .comparedInteger (bearer x).id =
      [{ value, provenance, origin := .comparedInteger }]
  whole : ∀ x value, g.Earns config.limits x value → config.convert ≠ .all → bearer x = x
  narrow : ∀ x value, g.Earns config.limits x value → config.convert = .all →
    (bearer x).Waits width rest ∨ (bearer x).width = 8
  distinct : ∀ x x' value value', g.Earns config.limits x value →
    g.Earns config.limits x' value' → (bearer x).id = (bearer x').id → x = x'
  only : ∀ i, f.annotations.ofOrigin .comparedInteger i ≠ [] →
    ∃ x value, g.Earns config.limits x value ∧ ¬x.Waits width asked ∧ i = (bearer x).id
  constants : ∀ y, f.Has y → Pass.comparedBytes? y.lhs y.rhs ≠ none →
    g.Has y ∧ ∃ inst, f.inst y.id = .ok inst ∧ inst.split = false
  besides : ∀ i, f.annotations.besides .comparedInteger i = g.annotations.besides .comparedInteger i
  pending : ∀ site ∈ rest, site.2 = width ∧ ∃ y, f.Has y ∧ y.id = site.1 ∧ y.width = width

namespace Account

/-- At the start every comparison waits and carries its own token, of which there is none. -/
theorem start (htokens : ∀ i, g.annotations.ofOrigin .comparedInteger i = [])
    (hmarks : ∀ i inst, g.inst i = .ok inst → inst.split = false) :
    Account config g 128 [] [] id g where
  has _ _ hx := hx.has
  chain _ _ _ := .refl
  widths _ _ hx := hx.width
  waiting x _ _ _ := ⟨rfl, htokens x.id⟩
  recorded x value hx hwaits := by
    refine absurd (.inl ?_) hwaits
    have hwidth := hx.width
    simp only [List.mem_cons, List.not_mem_nil, or_false] at hwidth
    omega
  whole _ _ _ _ := rfl
  narrow x value hx _ := by
    refine .inl (.inl ?_)
    have hwidth := hx.width
    simp only [List.mem_cons, List.not_mem_nil, or_false] at hwidth
    dsimp only [id]
    omega
  distinct x x' _ _ hx hx' heq := hx.has.ext hx'.has heq
  only i hi := absurd (htokens i) hi
  constants y hy _ := by
    obtain ⟨inst, hinst, -⟩ := kind_eq_ok.mp hy.kind
    exact ⟨hy, inst, hinst, hmarks _ inst hinst⟩
  besides _ := rfl
  pending _ hsite := absurd hsite List.not_mem_nil

/-- A round begins with all comparisons that have its width. -/
theorem next (h : Account config g (2 * width) [] [] bearer f) (hwidth : width ∈ [64, 32, 16, 8])
    {sites : List (InstId × Nat)} (hsites : f.candidates [.eq, .ne, .ugt, .ult] = .ok sites) :
    Account config g width (sites.filter (·.2 == width)) (sites.filter (·.2 == width)) bearer f := by
  -- Those that have not had their turn yet have that width, or a smaller one.
  have hnow : ∀ z : Comparison, f.Has z → z.pred.isEquality = true → z.width ∈ [64, 32, 16, 8] →
      z.Waits (2 * width) [] → z.Waits width (sites.filter (·.2 == width)) := by
    intro z hz hpred hzwidth hwaits
    have hlt : z.width < 2 * width := hwaits.resolve_right fun hmem => List.not_mem_nil hmem.2
    by_cases heq : z.width = width
    · refine .inr ⟨heq, List.mem_filter.mpr ⟨?_, by simp⟩⟩
      have hmem : z.pred ∈ [.eq, .ne, .ugt, .ult] := by
        revert hpred
        cases z.pred <;> decide
      exact heq ▸ hz.mem_candidates hmem hsites
    · refine .inl ?_
      simp only [List.mem_cons, List.not_mem_nil, or_false] at hzwidth hwidth
      omega
  have hpos : 0 < width := by
    simp only [List.mem_cons, List.not_mem_nil, or_false] at hwidth
    omega
  have hbefore : ∀ z : Comparison, z.Waits width (sites.filter (·.2 == width)) →
      z.Waits (2 * width) [] := by
    intro z hwaits
    refine .inl ?_
    obtain hlt | ⟨heq, -⟩ := hwaits
    · omega
    · omega
  refine { h with
    waiting := fun x value hx hwaits => h.waiting x value hx (hbefore x hwaits)
    recorded := fun x value hx hwaits => h.recorded x value hx fun hold => hwaits ?_
    narrow := fun x value hx hconvert => (h.narrow x value hx hconvert).imp_left ?_
    only := fun i hi => ?_
    pending := fun site hsite => ?_ }
  · have hhas := h.has x value hx
    rw [(h.waiting x value hx hold).1] at hhas
    exact hnow x hhas hx.equality hx.width hold
  · refine hnow _ (h.has x value hx) ?_ (h.widths x value hx)
    rw [pred_of_uppers (h.chain x value hx)]
    exact hx.equality
  · obtain ⟨x, value, hx, hwaits, heq⟩ := h.only i hi
    exact ⟨x, value, hx, fun hold => hwaits (hbefore x hold), heq⟩
  · obtain ⟨hmem, heq⟩ := List.mem_filter.mp hsite
    obtain rfl : site.2 = width := by simpa using heq
    obtain ⟨pred, lhs, rhs, -, hcandidate⟩ := candidate_of_mem_candidates hsites hmem
    exact ⟨rfl, ⟨site.1, pred, lhs, rhs, site.2⟩, hcandidate, rfl, rfl⟩

/-! ## A turn -/

/-- A comparison that waits is not the one whose turn it is, unless it is in the list. -/
theorem ne_of_waits (h : Account config g width asked rest bearer f) (hy : f.Has y)
    (hx : g.Earns config.limits x value) (hwaits : x.Waits width asked) (hne : x ≠ y) :
    x.id ≠ y.id := by
  intro heq
  have hhas := h.has x value hx
  rw [(h.waiting x value hx hwaits).1] at hhas
  exact hne (hhas.ext hy heq)

theorem not_waits (hwidth : y.width = width) (hnot : (y.id, width) ∉ rest) :
    ¬y.Waits width rest := by
  rintro (hlt | ⟨-, hmem⟩)
  · omega
  · exact hnot hmem

/-- A comparison is recorded. -/
theorem record (h : Account config g width ((y.id, width) :: rest) ((y.id, width) :: rest) bearer f)
    (hy : f.Has y) (hwidth : y.width = width) (hmem : width ∈ [64, 32, 16, 8])
    (hnot : (y.id, width) ∉ rest) (hrecords : f.Records config.limits y f') :
    Account config g width rest ((y.id, width) :: rest) bearer f' := by
  have hwaits : y.Waits width ((y.id, width) :: rest) := .inr ⟨hwidth, List.mem_cons_self⟩
  have hne : ∀ x value, g.Earns config.limits x value → x ≠ y →
      (x.Waits width ((y.id, width) :: rest) ↔ x.Waits width rest) := by
    intro x value hx hxy
    exact ⟨fun hx' => hx'.of_ne (h.ne_of_waits hy hx hx' hxy), fun hx' => hx'.of_tail⟩
  cases hrecords with
  | none hnone heq =>
    rw [heq]
    have hxy : ∀ x value, g.Earns config.limits x value → x ≠ y := by
      rintro x value hx rfl
      cases hnone.symm.trans hx.token
    refine { h with
      waiting := fun x value hx hx' => h.waiting x value hx hx'.of_tail
      recorded := fun x value hx hx' =>
        h.recorded x value hx fun hold => hx' ((hne x value hx (hxy x value hx)).mp hold)
      only := fun i hi => ?_ }
    obtain ⟨x, value, hx, hx', heq⟩ := h.only i hi
    exact ⟨x, value, hx, fun hnow => hx' hnow.of_tail, heq⟩
  | @token value provenance hvalue heq =>
    have hearns : g.Earns config.limits y value := by
      obtain ⟨-, bytes, hbytes, -⟩ := Comparison.token?_eq_some.mp hvalue
      exact ⟨(h.constants y hy (by rw [hbytes]; nofun)).1, hwidth ▸ hmem, hvalue⟩
    obtain ⟨hself, hempty⟩ := h.waiting y value hearns hwaits
    have hother : ∀ x value, g.Earns config.limits x value → x ≠ y → (bearer x).id ≠ y.id := by
      intro x value' hx hxy heq
      exact hxy (h.distinct x y value' value hx hearns (by rw [heq, hself]))
    subst heq
    have hget : ∀ i ≠ y.id, (f.annotations.modify y.id
        (Annotations.withInteger { value, provenance, origin := .comparedInteger })).get i =
          f.annotations.get i := by
      intro i hi
      rw [Annotations.get_modify, if_neg hi]
    refine {
      has := fun x value' hx => has_withAnnotations.mpr (h.has x value' hx)
      chain := fun x value' hx => Relation.ReflTransGen.mono
        (fun _ _ hupper => UpperOf.withAnnotations hupper) _ _ (h.chain x value' hx)
      widths := h.widths
      waiting := fun x value' hx hx' => ?waiting
      recorded := fun x value' hx hx' => ?recorded
      whole := h.whole
      narrow := h.narrow
      distinct := h.distinct
      only := fun i hi => ?only
      constants := fun z hz => h.constants z (has_withAnnotations.mp hz)
      besides := fun i => ?besides
      pending := fun site hsite => ?pending }
    case waiting =>
      obtain ⟨hsame, hnil⟩ := h.waiting x value' hx hx'.of_tail
      refine ⟨hsame, ?_⟩
      have hxy : x ≠ y := by
        rintro rfl
        exact not_waits hwidth hnot hx'
      rw [← hnil]
      exact Annotations.ofOrigin_of_get (hget _ (h.ne_of_waits hy hx hx'.of_tail hxy))
    case recorded =>
      by_cases hxy : x = y
      · subst hxy
        obtain rfl : value = value' := Option.some.inj (hvalue.symm.trans hx.token)
        refine ⟨provenance, ?_⟩
        rw [hself, Annotations.ofOrigin]
        dsimp only
        rw [Annotations.get_modify, if_pos rfl]
        exact Annotations.integers_withInteger rfl hempty
      · obtain ⟨provenance', htoken⟩ :=
          h.recorded x value' hx fun hold => hx' ((hne x value' hx hxy).mp hold)
        refine ⟨provenance', ?_⟩
        rw [← htoken]
        exact Annotations.ofOrigin_of_get (hget _ (hother x value' hx hxy))
    case only =>
      by_cases hi' : i = y.id
      · exact ⟨y, value, hearns, not_waits hwidth hnot, by rw [hself, hi']⟩
      · have hold : f.annotations.ofOrigin .comparedInteger i ≠ [] := by
          rw [← Annotations.ofOrigin_of_get (hget i hi')]
          exact hi
        obtain ⟨x, value', hx, hx', heq⟩ := h.only i hold
        exact ⟨x, value', hx, fun hnow => hx' hnow.of_tail, heq⟩
    case besides =>
      rw [← h.besides i]
      by_cases hi' : i = y.id
      · subst hi'
        rw [Annotations.besides]
        dsimp only
        rw [Annotations.get_modify, if_pos rfl]
        exact Annotations.besides_withInteger rfl _
      · exact Annotations.besides_of_get (hget i hi')
    case pending =>
      obtain ⟨heq, z, hz, hplace⟩ := h.pending site hsite
      exact ⟨heq, z, has_withAnnotations.mpr hz, hplace⟩

/-- A comparison stays whole. -/
theorem leave (h : Account config g width rest ((y.id, width) :: rest) bearer f)
    (hwhole : config.convert ≠ .all ∨ width ≤ 8) : Account config g width rest rest bearer f := by
  refine { h with
    narrow := fun x value hx hconvert => ?_
    pending := fun site hsite => h.pending site (List.mem_cons_of_mem _ hsite) }
  obtain hwaits | height := h.narrow x value hx hconvert
  · obtain hlt | ⟨heq, -⟩ := hwaits
    · exact .inl (.inl hlt)
    · have hle := hwhole.resolve_left fun hnot => hnot hconvert
      have hwidths := h.widths x value hx
      simp only [List.mem_cons, List.not_mem_nil, or_false] at hwidths
      exact .inr (by omega)
  · exact .inr height

/-- Sites are told apart by their instructions. -/
theorem pending_ne (h : Account config g width asked ((y.id, width) :: rest) bearer f)
    (hnodup : (((y.id, width) :: rest).map Prod.fst).Nodup) (hmono : ∀ x, x.id ≠ y.id → f.Has x →
      f'.Has x) : ∀ site ∈ rest, site.2 = width ∧ ∃ y, f'.Has y ∧ y.id = site.1 ∧ y.width = width := by
  intro site hsite
  obtain ⟨hwidth, z, hz, hid, hzwidth⟩ := h.pending site (List.mem_cons_of_mem _ hsite)
  refine ⟨hwidth, z, hmono z ?_ hz, hid, hzwidth⟩
  intro heq
  rw [List.map_cons, List.nodup_cons] at hnodup
  exact hnodup.1 (List.mem_map.mpr ⟨site, hsite, hid.symm.trans heq⟩)

/-- A comparison is halved that is no bearer. -/
theorem halve_other (h : Account config g width rest ((y.id, width) :: rest) bearer f)
    (hnodup : (((y.id, width) :: rest).map Prod.fst).Nodup) (hy : f.Has y)
    (hhalves : f.HalvesAt y f')
    (hnot : ∀ x value, g.Earns config.limits x value → bearer x ≠ y)
    (htokens : ∀ i, f'.annotations.ofOrigin .comparedInteger i =
      f.annotations.ofOrigin .comparedInteger i)
    (hbesides : ∀ i, f'.annotations.besides .comparedInteger i =
      f.annotations.besides .comparedInteger i) :
    Account config g width rest rest bearer f' := by
  have hne : ∀ x value, g.Earns config.limits x value → (bearer x).id ≠ y.id :=
    fun x value hx heq => hnot x value hx ((h.has x value hx).ext hy heq)
  refine {
    has := fun x value hx => hhalves.others _ (hne x value hx) (h.has x value hx)
    chain := fun x value hx => Relation.ReflTransGen.mono hhalves.uppers _ _ (h.chain x value hx)
    widths := h.widths
    waiting := fun x value hx hwaits => ?_
    recorded := fun x value hx hwaits => ?_
    whole := h.whole
    narrow := fun x value hx hconvert =>
      (h.narrow x value hx hconvert).imp_left fun hwaits => hwaits.of_ne (hne x value hx)
    distinct := h.distinct
    only := fun i hi => h.only i (htokens i ▸ hi)
    constants := fun z hz hbytes => ?_
    besides := fun i => (hbesides i).trans (h.besides i)
    pending := h.pending_ne hnodup hhalves.others }
  · rw [htokens]
    exact h.waiting x value hx hwaits
  · rw [htokens]
    exact h.recorded x value hx hwaits
  · obtain ⟨-, hold⟩ := (hhalves.news z hz).resolve_right hbytes
    obtain ⟨hg, inst, hinst, hmark⟩ := h.constants z hold hbytes
    obtain ⟨inst', hinst', hsame⟩ := hhalves.marks _ inst hinst
    exact ⟨hg, inst', hinst', hsame.trans hmark⟩

/-- A bearer is halved, and the comparison of the upper halves takes over. -/
theorem halve_bearer (h : Account config g width rest ((y.id, width) :: rest) bearer f)
    (hnodup : (((y.id, width) :: rest).map Prod.fst).Nodup) (hy : f.Has y) (hwidth : y.width = width)
    (hwide : width ∈ [64, 32, 16]) {y' : Comparison} (hhalves : f.HalvesAt y f')
    (hconvert : ∀ x value, g.Earns config.limits x value → bearer x = y → config.convert = .all)
    (hnew : f.insts.size ≤ y'.id.index) (hy' : f'.Has y') (hupper : f'.UpperOf y y')
    (htokens : f'.annotations = f.annotations.moveOrigin y.id y'.id .comparedInteger) :
    Account config g width rest rest (fun x => if bearer x = y then y' else bearer x) f' := by
  have hnot : (y.id, width) ∉ rest := by
    rw [List.map_cons, List.nodup_cons] at hnodup
    exact fun hmem => hnodup.1 (List.mem_map_of_mem hmem)
  have hne : y.id ≠ y'.id := by
    intro heq
    have hlt := hy.index_lt
    rw [heq] at hlt
    omega
  -- No instruction from before is the new comparison.
  have hfresh : ∀ x value, g.Earns config.limits x value → (bearer x).id ≠ y'.id := by
    intro x value hx heq
    have hlt := (h.has x value hx).index_lt
    rw [heq] at hlt
    omega
  have hnone : f.annotations.ofOrigin .comparedInteger y'.id = [] := by
    by_contra hsome
    obtain ⟨x, value, hx, -, heq⟩ := h.only _ hsome
    exact hfresh x value hx heq.symm
  have hother : ∀ x value, g.Earns config.limits x value → bearer x ≠ y → (bearer x).id ≠ y.id :=
    fun x value hx hxy heq => hxy ((h.has x value hx).ext hy heq)
  have hmoved : ∀ i, f'.annotations.ofOrigin .comparedInteger i =
      if i = y.id then [] else
      if i = y'.id then f.annotations.ofOrigin .comparedInteger y.id
      else f.annotations.ofOrigin .comparedInteger i := by
    intro i
    rw [htokens, Annotations.ofOrigin_moveOrigin hne, hnone, List.nil_append]
  -- One that waits is its own bearer, so that another one has its turn.
  have hwaiting : ∀ x value, g.Earns config.limits x value → x.Waits width rest → bearer x ≠ y := by
    intro x value hx hwaits heq
    rw [(h.waiting x value hx hwaits).1] at heq
    subst heq
    exact not_waits hwidth hnot hwaits
  refine {
    has := fun x value hx => ?has
    chain := fun x value hx => ?chain
    widths := fun x value hx => ?widths
    waiting := fun x value hx hwaits => ?waiting
    recorded := fun x value hx hwaits => ?recorded
    whole := fun x value hx hall => ?whole
    narrow := fun x value hx hall => ?narrow
    distinct := fun x x' value value' hx hx' heq => ?distinct
    only := fun i hi => ?only
    constants := fun z hz hbytes => ?constants
    besides := fun i => ?besides
    pending := h.pending_ne hnodup hhalves.others }
  case has =>
    split
    · exact hy'
    · next hxy => exact hhalves.others _ (hother x value hx hxy) (h.has x value hx)
  case chain =>
    have hchain := Relation.ReflTransGen.mono hhalves.uppers _ _ (h.chain x value hx)
    split
    · next hxy =>
      rw [hxy] at hchain
      exact hchain.tail hupper
    · exact hchain
  case widths =>
    split
    · rw [hupper.width, hwidth]
      simp only [List.mem_cons, List.not_mem_nil, or_false] at hwide ⊢
      omega
    · exact h.widths x value hx
  case waiting =>
    obtain ⟨hself, hnil⟩ := h.waiting x value hx hwaits
    have hxy := hwaiting x value hx hwaits
    have hxid := hother x value hx hxy
    have hxid' := hfresh x value hx
    rw [hself] at hxid hxid'
    rw [if_neg hxy, hmoved, if_neg hxid, if_neg hxid']
    exact ⟨hself, hnil⟩
  case recorded =>
    obtain ⟨provenance, htoken⟩ := h.recorded x value hx hwaits
    refine ⟨provenance, ?_⟩
    split
    · next hxy =>
      rw [hmoved, if_neg hne.symm, if_pos rfl, ← hxy]
      exact htoken
    · next hxy =>
      rw [hmoved, if_neg (hother x value hx hxy), if_neg (hfresh x value hx)]
      exact htoken
  case whole =>
    rw [if_neg fun hxy => hall (hconvert x value hx hxy)]
    exact h.whole x value hx hall
  case narrow =>
    split
    · refine .inl (.inl ?_)
      rw [hupper.width, hwidth]
      simp only [List.mem_cons, List.not_mem_nil, or_false] at hwide
      omega
    · next hxy =>
      exact (h.narrow x value hx hall).imp_left fun hwaits => hwaits.of_ne (hother x value hx hxy)
  case distinct =>
    by_cases hxy : bearer x = y <;> by_cases hxy' : bearer x' = y
    · exact h.distinct x x' value value' hx hx' (by rw [hxy, hxy'])
    · rw [if_pos hxy, if_neg hxy'] at heq
      exact absurd heq.symm (hfresh x' value' hx')
    · rw [if_neg hxy, if_pos hxy'] at heq
      exact absurd heq (hfresh x value hx)
    · rw [if_neg hxy, if_neg hxy'] at heq
      exact h.distinct x x' value value' hx hx' heq
  case only =>
    rw [hmoved] at hi
    split at hi
    · exact absurd rfl hi
    next hiy =>
    split at hi
    · next hiy' =>
      obtain ⟨x, value, hx, hwaits, heq⟩ := h.only _ hi
      have hxy : bearer x = y := (h.has x value hx).ext hy heq.symm
      refine ⟨x, value, hx, hwaits, ?_⟩
      rw [if_pos hxy, hiy']
    · obtain ⟨x, value, hx, hwaits, heq⟩ := h.only _ hi
      refine ⟨x, value, hx, hwaits, ?_⟩
      have hxy : bearer x ≠ y := fun hxy => hiy (heq.trans (congrArg Comparison.id hxy))
      rw [if_neg hxy, heq]
  case constants =>
    obtain ⟨-, hold⟩ := (hhalves.news z hz).resolve_right hbytes
    obtain ⟨hg, inst, hinst, hmark⟩ := h.constants z hold hbytes
    obtain ⟨inst', hinst', hsame⟩ := hhalves.marks _ inst hinst
    exact ⟨hg, inst', hinst', hsame.trans hmark⟩
  case besides => rw [htokens, Annotations.besides_moveOrigin hne, h.besides]

/-- A comparison is halved. -/
theorem halve (h : Account config g width rest ((y.id, width) :: rest) bearer f)
    (hnodup : (((y.id, width) :: rest).map Prod.fst).Nodup) (hy : f.Has y) (hwidth : y.width = width)
    (hwide : width ∈ [64, 32, 16]) (hhalves : f.HalvesAt y f')
    (hspared : config.convert ≠ .all →
      y.pred.isEquality = true → Pass.comparedBytes? y.lhs y.rhs = none) :
    ∃ bearer', Account config g width rest rest bearer' f' := by
  have hpred : ∀ x value, g.Earns config.limits x value → bearer x = y → y.pred.isEquality = true := by
    intro x value hx hxy
    rw [← hxy, pred_of_uppers (h.chain x value hx)]
    exact hx.equality
  cases hequality : y.pred.isEquality with
  | true =>
    obtain ⟨y', hnew, hy', hupper, htokens⟩ := hhalves.equality hequality
    refine ⟨_, h.halve_bearer hnodup hy hwidth hwide hhalves (fun x value hx hxy => ?_) hnew hy'
      hupper htokens⟩
    by_contra hconvert
    have hself := h.whole x value hx hconvert
    rw [hxy] at hself
    subst hself
    exact hx.bytes (hspared hconvert hequality)
  | false =>
    have htokens := hhalves.order hequality
    refine ⟨bearer, h.halve_other hnodup hy hhalves (fun x value hx hxy => ?_) (fun i => ?_)
      fun i => ?_⟩
    · exact absurd (hpred x value hx hxy) (by rw [hequality]; decide)
    · rw [htokens]
    · rw [htokens]

/-- The turn of a comparison. -/
theorem turn (hs : f.Sound m exempt)
    (h : Account config g width (site :: rest) (site :: rest) bearer f)
    (hnodup : ((site :: rest).map Prod.fst).Nodup) (hmem : width ∈ [64, 32, 16, 8]) (hy : f.Has y)
    (hid : y.id = site.1) (hwidth : y.width = width) (hturn : f.Turn config y f') :
    ∃ bearer', Account config g width rest rest bearer' f' := by
  obtain ⟨id, w⟩ := site
  obtain rfl : w = width := (h.pending _ List.mem_cons_self).1
  obtain rfl : y.id = id := hid
  have hnot : (y.id, w) ∉ rest := by
    rw [List.map_cons, List.nodup_cons] at hnodup
    exact fun hmem => hnodup.1 (List.mem_map_of_mem hmem)
  cases hturn with
  | whole hfirst hwhole =>
    exact ⟨bearer, (h.record hy hwidth hmem hnot hfirst).leave (hwidth ▸ hwhole)⟩
  | @halved f₁ hfirst hwide hspared hdoes =>
    have hrecorded := h.record hy hwidth hmem hnot hfirst
    have hs₁ : f₁.Sound m exempt := (hfirst.splitFrom hs.tidy hy).sound hs
    have hy₁ : f₁.Has y := by
      obtain ⟨annotations, rfl⟩ := hfirst.code
      exact has_withAnnotations.mpr hy
    refine hrecorded.halve hnodup hy₁ hwidth ?_ (Edit.halve_halvesAt hs₁ hy₁ hdoes) hspared
    simp only [List.mem_cons, List.not_mem_nil, or_false] at hmem ⊢
    omega

end Account

end Function

/-! ## The pass -/

namespace Pass

variable {s s' : PassState} {id : FuncId}

/-- The comparisons of a function that have some width have their turn. -/
theorem halveCompares_account (hmem : width ∈ [64, 32, 16, 8]) (hf : f.Tidy)
    (hs : f.isDeclaration = false → f.Sound m exempt) (hid : s.module.function id = .ok f)
    (hbefore : Function.Account config g (2 * width) [] [] bearer f) {stats stats' : CompareStats}
    (h : (halveCompares config width stats id).Does s stats' s') :
    ∃ f' bearer', s'.module = s.module.setFunction id f' ∧
      Function.Account config g width [] [] bearer' f' := by
  obtain ⟨sites, s₁, hquery, h⟩ := does_bind.mp h
  obtain ⟨hsites, rfl⟩ := does_query.mp hquery
  obtain ⟨f₀, hid₀, hsites⟩ := Checked.bind_eq_ok.mp hsites
  obtain rfl := Except.ok.inj (hid.symm.trans hid₀)
  have hlt := Module.index_lt_of_function hid
  have hbody : ∀ site ∈ sites, f.Sound m exempt := by
    intro site hsite
    obtain ⟨b, pos, hlisted⟩ := (Function.candidates_site hsites hsite).listed
    exact hs hlisted.isDeclaration
  have hnodup : ((sites.filter (·.2 == width)).map Prod.fst).Nodup := by
    refine List.Nodup.sublist (List.filter_sublist.map _) ?_
    cases sites with
    | nil => exact List.nodup_nil
    | cons site _ => exact (hbody site List.mem_cons_self).nodup_candidates hsites
  have hend := h.foldlM_rest (fun rest s₂ => rest <:+ sites.filter (·.2 == width) ∧
    ∃ f' bearer', s₂.module = s.module.setFunction id f' ∧ f.SplitFrom f' ∧
      Function.Account config g width rest rest bearer' f') ?_ ?_
  · obtain ⟨-, f', bearer', hs', -, haccount⟩ := hend
    exact ⟨f', bearer', hs', haccount⟩
  · rintro site rest stats stats' s₂ s₃ ⟨hrest, f₁, bearer₁, hs₂, hfrom, haccount⟩ hstep
    obtain ⟨hfound, hwidth⟩ := List.mem_filter.mp (hrest.mem List.mem_cons_self)
    obtain rfl : site.2 = width := by simpa using hwidth
    obtain ⟨-, y, hy, hyid, hywidth⟩ := haccount.pending site List.mem_cons_self
    obtain ⟨done, s₄, hdone, hstep⟩ := does_bind.mp hstep
    obtain ⟨-, rfl⟩ := does_pure.mp hstep
    have hid₂ : s₂.module.function id = .ok f₁ := by
      rw [hs₂, Module.function_setFunction hlt, if_pos rfl]
    -- The step is a turn of the comparison, and one of those that are known to keep the rest.
    obtain ⟨f₃, f', hid₃, hs₃, hhalving⟩ := halveCompare_does hdone
    obtain rfl := Except.ok.inj (hid₂.symm.trans hid₃)
    rw [← hyid, ← hywidth] at hdone
    obtain ⟨f'', hs₃', hturn⟩ := halveCompare_turn hid₂ hy
      (fun hbytes => (haccount.constants y hy hbytes).2) hdone
    obtain rfl : f' = f'' := by
      have hsame := congrArg (·.function id) (hs₃.symm.trans hs₃')
      simp only [Module.function_setFunction (Module.index_lt_of_function hid₂), if_pos] at hsame
      exact Except.ok.inj hsame
    have hsite := (Function.candidates_site hsites hfound).extended hf hfrom.extended
    obtain ⟨bearer', haccount'⟩ := haccount.turn (hfrom.sound (hbody site hfound))
      (hnodup.sublist (hrest.sublist.map _)) hmem hy hyid hywidth hturn
    refine ⟨(List.suffix_cons site rest).trans hrest, f', bearer', ?_,
      hfrom.trans (hhalving.splitFrom hfrom.extended.tidy hsite hmem), haccount'⟩
    rw [hs₃, hs₂, Module.setFunction_setFunction]
  · exact ⟨List.suffix_refl _, f, bearer, (Module.setFunction_self hid).symm, .refl hf,
      hbefore.next hmem hsites⟩

/-- Every function has its account of what has become of it since some state. -/
def Accounts (config : Config) (m : Module) (width : Nat) (s : PassState) : Prop :=
  ∀ id f, s.module.function id = .ok f → ∃ g bearer, m.function id = .ok g ∧
    Function.Account config g width [] [] bearer f

/-- After the comparisons of one width have had their turn in all functions. -/
theorem halveAll_accounts (hmem : width ∈ [64, 32, 16, 8]) (hm : s.module.Sound)
    (htidy : s.module.Tidy) {ids : List FuncId} (hnodup : ids.Nodup)
    (hids : ∀ id f, s.module.function id = .ok f → id ∈ ids)
    (hbefore : Accounts config m (2 * width) s) {stats stats' : CompareStats}
    (h : (ids.foldlM (halveCompares config width) stats).Does s stats' s') :
    s.module.Splits s'.module ∧ Accounts config m width s' := by
  have hend := h.foldlM_rest (fun rest s₁ => s.module.Splits s₁.module ∧ rest.Nodup ∧
    ∀ id f, s₁.module.function id = .ok f → ∃ g bearer, m.function id = .ok g ∧
      (id ∈ rest ∧ Function.Account config g (2 * width) [] [] bearer f ∨
        id ∉ rest ∧ Function.Account config g width [] [] bearer f)) ?_ ?_
  · refine ⟨hend.1, fun id f hid => ?_⟩
    obtain ⟨g, bearer, hg, hrest | ⟨-, haccount⟩⟩ := hend.2.2 id f hid
    · exact absurd hrest.1 List.not_mem_nil
    · exact ⟨g, bearer, hg, haccount⟩
  · rintro id rest stats stats' s₁ s₂ ⟨hsplits, hrest, hinv⟩ hstep
    obtain ⟨hnotin, hrest⟩ := List.nodup_cons.mp hrest
    have htidy₁ := hsplits.tidy htidy
    have hsplits₂ := halveCompares_splits hmem htidy₁ hstep
    obtain ⟨sites, s₃, hquery, -⟩ := does_bind.mp hstep
    obtain ⟨hsites, -⟩ := does_query.mp hquery
    obtain ⟨f, hid, -⟩ := Checked.bind_eq_ok.mp hsites
    obtain ⟨g, bearer, hg, ⟨-, haccount⟩ | hdone⟩ := hinv id f hid
    · obtain ⟨f', bearer', hs₂, haccount'⟩ := halveCompares_account hmem (htidy₁ id f hid)
        (hsplits.sound hm id f hid) hid haccount hstep
      refine ⟨hsplits.trans hsplits₂, hrest, fun i f₂ hi => ?_⟩
      rw [hs₂, Module.function_setFunction (Module.index_lt_of_function hid)] at hi
      split at hi
      · next heq =>
        obtain rfl := Except.ok.inj hi
        exact ⟨g, bearer', heq ▸ hg, .inr ⟨heq ▸ hnotin, haccount'⟩⟩
      · next hne =>
        obtain ⟨g', bearer₂, hg', htodo | hdone⟩ := hinv i f₂ hi
        · exact ⟨g', bearer₂, hg', .inl ⟨(List.mem_cons.mp htodo.1).resolve_left hne, htodo.2⟩⟩
        · exact ⟨g', bearer₂, hg', .inr ⟨fun hmem => hdone.1 (List.mem_cons_of_mem _ hmem), hdone.2⟩⟩
    · exact absurd List.mem_cons_self hdone.1
  · refine ⟨.refl, hnodup, fun id f hid => ?_⟩
    obtain ⟨g, bearer, hg, haccount⟩ := hbefore id f hid
    exact ⟨g, bearer, hg, .inl ⟨hids id f hid, haccount⟩⟩

/-- What the pass does before it halves. -/
def beforeHalving (config : Config) (ids : List FuncId) : Pass CompareStats :=
  if config.convert == .none then pure {} else ids.foldlM normalizeCompares {}

end Pass

/-- No integer has been recorded, and no comparison has been marked as a half. -/
def Module.Unrecorded (m : Module) : Prop :=
  ∀ id f, m.function id = .ok f → (∀ i, f.annotations.ofOrigin .comparedInteger i = []) ∧
    ∀ i inst, f.inst i = .ok inst → inst.split = false

/-- Where the tokens of a function are once it has been rewritten: each equality with a constant that
was there when halving started has one, on the bearer. -/
structure Function.Borne (limits : Limits) (f g f' : Function) (bearer : Comparison → Comparison) :
    Prop where
  carried : ∀ x value, g.Earns limits x value → ∃ provenance,
    f'.annotations.ofOrigin .comparedInteger (bearer x).id =
      [{ value, provenance, origin := .comparedInteger }]
  chain : ∀ x value, g.Earns limits x value →
    f'.Has (bearer x) ∧ Relation.ReflTransGen f'.UpperOf x (bearer x)
  itself : ∀ x value, g.Earns limits x value → f'.Has x → bearer x = x
  byte : ∀ x value, g.Earns limits x value → ¬f'.Has x → (bearer x).width = 8
  distinct : ∀ x x' value value', g.Earns limits x value → g.Earns limits x' value' →
    (bearer x).id = (bearer x').id → x = x'
  only : ∀ i, f'.annotations.ofOrigin .comparedInteger i ≠ [] →
    ∃ x value, g.Earns limits x value ∧ i = (bearer x).id
  besides : ∀ i, f'.annotations.besides .comparedInteger i = f.annotations.besides .comparedInteger i

/-- What has been halved is no comparison any more. -/
theorem Function.UpperOf.not_has (h : f.UpperOf x y) : ¬f.Has x := by
  intro hx
  obtain ⟨b, pos, lower, source, below, head, name, insts, -, hphi, -⟩ := h.decides
  cases hphi.symm.trans hx.kind

theorem Function.Account.borne (h : Account config g 8 [] [] bearer f') (htokens : f.NotesKept g) :
    f.Borne config.limits g f' bearer := by
  have hdone : ∀ x value, g.Earns config.limits x value → ∀ z : Comparison,
      z.width ∈ [64, 32, 16, 8] → ¬z.Waits 8 [] := by
    rintro x value hx z hwidth (hlt | ⟨-, hmem⟩)
    · simp only [List.mem_cons, List.not_mem_nil, or_false] at hwidth
      omega
    · exact List.not_mem_nil hmem
  refine ⟨fun x value hx => ?_, fun x value hx => ⟨h.has x value hx, h.chain x value hx⟩,
    fun x value hx hhas => ?_, fun x value hx hnot => ?_, h.distinct, fun i hi => ?_, fun i => ?_⟩
  · exact h.recorded x value hx (hdone x value hx x hx.width)
  · obtain heq | ⟨z, hupper, -⟩ := Relation.ReflTransGen.cases_head (h.chain x value hx)
    · exact heq.symm
    · exact absurd hhas hupper.not_has
  · have hne : bearer x ≠ x := fun heq => hnot (heq ▸ h.has x value hx)
    have hconvert : config.convert = .all := by
      by_contra hnot
      exact hne (h.whole x value hx hnot)
    exact (h.narrow x value hx hconvert).resolve_left
      (hdone x value hx (bearer x) (h.widths x value hx))
  · obtain ⟨x, value, hx, -, heq⟩ := h.only i hi
    exact ⟨x, value, hx, heq⟩
  · rw [h.besides, Annotations.besides, Annotations.besides, htokens.tokens]

namespace Pass

variable {s : PassState}

theorem beforeHalving_does (hm : m.Accepted) (honce : m.ListsOnce) (hnarrow : m.Narrow)
    {stats : CompareStats}
    (h : (beforeHalving config m.functionIds).Does { module := m } stats s) :
    m.Splits s.module ∧ m.Each Function.NotesKept s.module := by
  unfold beforeHalving at h
  split at h
  · obtain ⟨-, rfl⟩ := does_pure.mp h
    exact ⟨.refl, Module.OfEdits.refl m⟩
  · refine ⟨(normalizeAll_normal (hm.sound honce) hnarrow (fun id f hid => ?_) rfl h).1, ?_⟩
    · exact Module.mem_functionIds.mpr (Module.index_lt_of_function hid)
    · exact Respects.foldlM respects_normalizeCompares _ _ _ (.ok stats) _ h

/-- The pass consists of what it does before it halves and of one round for each width. -/
theorem splitCompares_rounds (hm : m.Accepted) (honce : m.ListsOnce) {stats : CompareStats}
    (h : (splitCompares config).Does { module := m } stats s) :
    ∃ stats₁ s₁ s₂, (beforeHalving config m.functionIds).Does { module := m } stats₁ s₁ ∧
      m.Splits s₁.module ∧ m.Each Function.NotesKept s₁.module ∧
      ([64, 32, 16, 8].foldlM
        (fun stats width => m.functionIds.foldlM (halveCompares config width) stats) stats₁).Does
          s₁ stats s₂ ∧
      s.module = s₂.module := by
  have hnarrow : m.Narrow := splitCompares_narrow (hm.tidy honce) h
  obtain ⟨ids, s₁, hids, h⟩ := does_bind.mp h
  obtain ⟨rfl, rfl⟩ := does_functionIds.mp hids
  obtain ⟨u, s₂, hwidths, h⟩ := does_bind.mp h
  obtain ⟨rfl, -⟩ := checkWidths_narrow hwidths
  obtain ⟨stats₁, s₁, hbefore, h⟩ : ∃ stats₁ s₁,
      (beforeHalving config m.functionIds).Does { module := m } stats₁ s₁ ∧ (do
        let stats ← [64, 32, 16, 8].foldlM
          (fun stats width => m.functionIds.foldlM (halveCompares config width) stats) stats₁
        reportCompares stats
        return stats : Pass CompareStats).Does s₁ stats s := by
    unfold beforeHalving
    split at h
    · next hnone =>
      rw [if_pos hnone]
      exact does_bind.mp h
    · next hsome =>
      rw [if_neg hsome]
      exact does_bind.mp h
  obtain ⟨hsplits, hkept⟩ := beforeHalving_does hm honce hnarrow hbefore
  obtain ⟨stats₂, s₂, hhalve, h⟩ := does_bind.mp h
  obtain ⟨u, s₅, hreport, h⟩ := does_bind.mp h
  obtain ⟨rfl, rfl⟩ := does_pure.mp h
  exact ⟨stats₁, s₁, s₂, hbefore, hsplits, hkept, hhalve,
    silent_reportCompares _ s₂ u s₅ hreport⟩

/-- Halving neither loses nor duplicates the token of an integer. Of the equalities with a constant of
the right length that are there when halving starts, each has one token in the end. It carries the token
itself unless it has been halved, and else a comparison of bytes carries it that is reached by going
from comparisons to those of their upper halves. There are no other tokens of integers, and all
other tokens are where they were. -/
theorem splitCompares_bearers (hm : m.Accepted) (honce : m.ListsOnce) (hnotes : m.Unrecorded)
    {stats : CompareStats} (h : (splitCompares config).runOn m = .ok (.ok stats, s)) :
    ∃ stats₁ s₁, (beforeHalving config m.functionIds).Does { module := m } stats₁ s₁ ∧
      s.module.functions.size = m.functions.size ∧
      ∀ id f f', m.function id = .ok f → s.module.function id = .ok f' → ∃ g bearer,
        s₁.module.function id = .ok g ∧ f.Borne config.limits g f' bearer := by
  have htidy : m.Tidy := hm.tidy honce
  have hsound : m.Sound := hm.sound honce
  obtain ⟨stats₁, s₁, s₂, hbefore, hsplits, hkept, hhalve, hs⟩ := splitCompares_rounds hm honce h
  rw [hs]
  -- One round for each width.
  have hround : ∀ width ∈ [64, 32, 16, 8], ∀ s s' stats stats', m.Splits s.module →
      Accounts config s₁.module (2 * width) s →
      (m.functionIds.foldlM (halveCompares config width) stats).Does s stats' s' →
      m.Splits s'.module ∧ Accounts config s₁.module width s' := by
    intro width hwidth s s' stats stats' hsplits haccounts h
    have hstill : ∀ id f, s.module.function id = .ok f → id ∈ m.functionIds := by
      intro id f hid
      have hlt := Module.index_lt_of_function hid
      rw [Module.Steps.size_functions hsplits] at hlt
      exact Module.mem_functionIds.mpr hlt
    obtain ⟨hsplits', hafter⟩ := halveAll_accounts hwidth (hsplits.sound hsound)
      (hsplits.tidy htidy) Module.nodup_functionIds hstill haccounts h
    exact ⟨hsplits.trans hsplits', hafter⟩
  have hstart : Accounts config s₁.module 128 s₁ := by
    intro id g hid
    have hlt := Module.index_lt_of_function hid
    rw [Module.Steps.size_functions hsplits] at hlt
    obtain ⟨f, hf⟩ := Module.exists_function hlt
    obtain ⟨g', hg', hnotes'⟩ := hkept id f hf
    obtain rfl := Except.ok.inj (hid.symm.trans hg')
    obtain ⟨htokens, hmarks⟩ := hnotes id f hf
    refine ⟨g, _, hid, .start (fun i => ?_) fun i inst hinst => ?_⟩
    · rw [Annotations.ofOrigin, hnotes'.tokens]
      exact htokens i
    · by_contra hmark
      obtain ⟨inst₀, hinst₀, hmark₀⟩ := hnotes'.marks i inst hinst (by simpa using hmark)
      rw [hmarks i inst₀ hinst₀] at hmark₀
      cases hmark₀
  simp only [List.foldlM_cons, List.foldlM_nil] at hhalve
  obtain ⟨stats₆₄, s₆₄, h₆₄, hhalve⟩ := does_bind.mp hhalve
  obtain ⟨hsplits, hdone⟩ := hround 64 (by decide) _ _ _ _ hsplits hstart h₆₄
  obtain ⟨stats₃₂, s₃₂, h₃₂, hhalve⟩ := does_bind.mp hhalve
  obtain ⟨hsplits, hdone⟩ := hround 32 (by decide) _ _ _ _ hsplits hdone h₃₂
  obtain ⟨stats₁₆, s₁₆, h₁₆, hhalve⟩ := does_bind.mp hhalve
  obtain ⟨hsplits, hdone⟩ := hround 16 (by decide) _ _ _ _ hsplits hdone h₁₆
  obtain ⟨stats₈, s₈, h₈, hhalve⟩ := does_bind.mp hhalve
  obtain ⟨hsplits, hdone⟩ := hround 8 (by decide) _ _ _ _ hsplits hdone h₈
  obtain ⟨-, rfl⟩ := does_pure.mp hhalve
  refine ⟨stats₁, s₁, hbefore, Module.Steps.size_functions hsplits, fun id f f' hf hf' => ?_⟩
  obtain ⟨g, bearer, hg, haccount⟩ := hdone id f' hf'
  obtain ⟨g', hg', hnotes'⟩ := hkept id f hf
  obtain rfl := Except.ok.inj (hg.symm.trans hg')
  exact ⟨g, bearer, hg, haccount.borne hnotes'⟩

end Pass

/-- Whether a word is one that a format begins with. -/
def Function.isHeader : Function :=
  .sole "is_header" [.int 32] .i1 (.icmp .eq (.arg 0) (.ofWord 32 67305985))

def Module.header : Module where
  name := "header"
  functions := #[.isHeader]

namespace Module

theorem header_accepted : header.Accepted := by
  refine accepted_of_passes fun f hf _ => ?_
  obtain rfl := List.mem_singleton.mp hf
  exact verifyFunction_sole (by decide) (by simp [InstKind.operands, Value.ofWord]) rfl

theorem header_listsOnce : header.ListsOnce := by
  intro id f hf ids hids
  obtain rfl := List.mem_singleton.mp (mem_of_function hf)
  obtain rfl : [⟨0⟩] = ids := Except.ok.inj hids
  exact List.nodup_singleton _

theorem header_unrecorded : header.Unrecorded := by
  intro id f hf
  obtain rfl := List.mem_singleton.mp (mem_of_function hf)
  refine ⟨fun _ => rfl, fun i inst hinst => ?_⟩
  have hget := Array.getElem?_toList.trans (Function.inst_eq_ok.mp hinst)
  obtain rfl := List.mem_singleton.mp (List.mem_of_getElem? hget)
  rfl

theorem header_completes :
    Pass.completes ((Pass.splitCompares (.coverage .all)).runOn header) = true := by
  decide +kernel

end Module

namespace Pass

theorem header_bearers : ∃ s stats₁ s₁, (∃ stats,
    (splitCompares (.coverage .all)).runOn .header = .ok (.ok stats, s)) ∧
      (beforeHalving (.coverage .all) Module.header.functionIds).Does { module := .header } stats₁ s₁ ∧
      s.module.functions.size = 1 ∧ ∀ id f f', Module.header.function id = .ok f →
        s.module.function id = .ok f' → ∃ g bearer, s₁.module.function id = .ok g ∧
          f.Borne (Config.coverage .all).limits g f' bearer := by
  obtain ⟨stats, s, h⟩ := exists_of_completes Module.header_completes
  obtain ⟨stats₁, s₁, hbefore, hsize, hborne⟩ := splitCompares_bearers Module.header_accepted
    Module.header_listsOnce Module.header_unrecorded h
  exact ⟨s, stats₁, s₁, ⟨stats, h⟩, hbefore, hsize, hborne⟩

/-- The word is halved twice, and its token ends up on the comparison of the uppermost byte. -/
example : (match (splitCompares (.coverage .all)).runOn .header with
    | .ok (_, s) => s.module.functions.toList.map fun f =>
        f.annotations.toList.map fun entry => (f.kind entry.1, entry.2.value)
    | .error _ => []) = [[(.ok (.icmp .eq (.inst ⟨10⟩) (.inst ⟨12⟩)), "\\x01\\x02\\x03\\x04")]] := by
  decide +kernel

end Pass

end EdgeProbe
