import EdgeProbe.Proofs.Refusal.Instrumenting
import EdgeProbe.Proofs.Validity.Probing

/-!
# What an instrumented function offers to a second run

The edges of a function whose probes have been placed: the one of a probe that has a block of its own
is the only one into that block, and a block that was entered by one edge still is. So the function
is prepared if it was, and its probes mark the sites that they stand for. Main statements:
`Function.Placing.prepared` and `Function.Placing.marked`.
-/

namespace EdgeProbe

theorem Hooks.length_probeCode_pos (hooks : Hooks) (first id slot : Nat) :
    0 < (hooks.probeCode first id slot).length := by
  have hcount : 0 < (hooks.countCode (first + (hooks.traceCode id).length) slot).length := by
    unfold countCode
    cases hooks.previous <;> simp
  simp only [probeCode, List.length_append]
  omega

/-- A probe calls nothing but the trace hook. -/
theorem Hooks.trace_of_mem_probeCode {hooks : Hooks} {first id slot : Nat} {target : FuncId}
    {args : List Value} {ret : Ty}
    (h : .call (.direct target) args ret ∈ hooks.probeCode first id slot) :
    hooks.trace = some target := by
  obtain hlead | hcount := List.mem_append.mp h
  · obtain ⟨trace, htrace, heq⟩ := Hooks.eq_of_mem_traceCode hlead
    obtain ⟨hcallee, -⟩ := InstKind.call.inj heq
    exact htrace.trans (congrArg some (Callee.direct.inj hcallee).symm)
  · obtain ⟨-, -, hcall⟩ := Hooks.plain_of_mem_countCode hcount
    cases hcall

/-- An edge that has a probe of its own leads through some block. -/
theorem Stand.through_ne_none {stands : List Stand} {s : Stand} {b : BlockId} {index : Nat}
    (hs : s ∈ stands) (hedge : s.edge = some (b, index)) : through stands b index ≠ none := by
  induction stands with
  | nil => cases hs
  | cons t rest ih =>
    rw [through]
    split
    · exact Option.some_ne_none _
    · next hne =>
      obtain rfl | hs := List.mem_cons.mp hs
      · exact absurd hedge hne
      · exact ih hs

namespace Terminator

@[simp] theorem isSwitch_redirect (through : Nat → Option BlockId) (term : Terminator) :
    (term.redirect through).isSwitch = term.isSwitch := by
  cases term <;> rfl

@[simp] theorem forks_redirect (through : Nat → Option BlockId) (term : Terminator) :
    (term.redirect through).forks = term.forks := by
  cases term <;> rfl

end Terminator

namespace Function

variable {m : Module} {hooks : Hooks} {function : FuncId} {f f' : Function} {stands : List Stand}
  {plan : List PlannedProbe} {block target b c : BlockId} {index : Nat} {s t : Stand}

namespace Instrumented

variable (h : f.Instrumented hooks stands f')
include h

/-- Probes on edges have blocks of their own. -/
theorem eq_of_block {a : BlockId} {j k : Nat} (hs : s ∈ stands) (ht : t ∈ stands)
    (hsedge : s.edge = some (a, j)) (htedge : t.edge = some (c, k)) (hblock : s.block = t.block) :
    s = t := by
  obtain ⟨-, name, succs, target, -, -, hblk⟩ := h.new s hs a j hsedge
  obtain ⟨-, name', succs', target', -, -, hblk'⟩ := h.new t ht c k htedge
  rw [hblock] at hblk
  have hids : s.ids hooks = t.ids hooks := congrArg Block.insts (Except.ok.inj (hblk.symm.trans hblk'))
  have hpos : ∀ u : Stand, 0 < (u.code hooks).length := fun u => hooks.length_probeCode_pos _ _ _
  have hfirst : ∀ u : Stand, (u.ids hooks)[0]? = some ⟨u.first⟩ := fun u => by simp [Stand.ids, hpos]
  have heq : s.first = t.first := InstId.mk.inj
    (Option.some.inj ((hfirst s).symm.trans (hids ▸ hfirst t)))
  -- No two of them begin at one place.
  have hfirsts : (stands.map Stand.first).Nodup := List.pairwise_map.mpr <|
    h.apart.imp fun {later earlier} hle => by
      have := hpos earlier
      omega
  exact List.inj_on_of_nodup_map hfirsts hs ht heq

/-- What a live block lists it listed before or is a part of a probe. -/
theorem listed_or_mem (hwhole : f.Whole) (hlayout : ∀ b ∈ f.layout, b.index < f.blocks.size)
    {id : InstId} {k : Nat} (hid : f'.Listed id b k) :
    (∃ j, f.Listed id b j) ∨ ∃ s ∈ stands, id ∈ s.ids hooks := by
  obtain ⟨hb, blk', hblk', hk⟩ := hid
  obtain hold | ⟨s, hs, hedge, rfl⟩ := (h.live b).mp hb
  · obtain ⟨blk, hblk⟩ := exists_block (hlayout b hold)
    obtain ⟨pos, hpos⟩ := hwhole.exists_firstInsertionPoint hblk
    obtain ⟨name, hblk₁⟩ := h.old b blk pos hblk hpos
    obtain rfl := Except.ok.inj (hblk'.symm.trans hblk₁)
    have hmem := List.mem_of_getElem? hk
    simp only [List.append_assoc, List.mem_append] at hmem
    have hlisted : id ∈ blk.insts → ∃ j, f.Listed id b j := fun hmem => by
      obtain ⟨j, hj⟩ := List.getElem?_of_mem hmem
      exact ⟨j, hold, blk, hblk, hj⟩
    obtain hmem | hmem | hmem := hmem
    · exact .inl (hlisted (List.mem_of_mem_take hmem))
    · obtain ⟨s, hs, -, hmem⟩ := Stand.mem_idsIn.mp hmem
      exact .inr ⟨s, hs, hmem⟩
    · exact .inl (hlisted (List.mem_of_mem_drop hmem))
  · obtain ⟨⟨block, index⟩, hedge⟩ := Option.ne_none_iff_exists'.mp hedge
    obtain ⟨-, name, succs, target, -, -, hblk⟩ := h.new s hs block index hedge
    obtain rfl := Except.ok.inj (hblk'.symm.trans hblk)
    exact .inr ⟨s, hs, List.mem_of_getElem? hk⟩

/-- What was listed before and leads no block is what it was. -/
theorem kind_of_listed (hwhole : f.Whole) {id : InstId} {k : Nat} (hid : f.Listed id b k)
    {kind : InstKind} (hkind : f'.kind id = .ok kind) (hnot : kind.isPhi = false) :
    f.kind id = .ok kind := by
  obtain ⟨-, blk, hblk, hk⟩ := hid
  obtain ⟨kind₀, hkind₀⟩ := exists_kind (hwhole.insts b blk hblk id (List.mem_of_getElem? hk))
  obtain ⟨kind₁, hkind₁, hphi, -⟩ := h.leads_congr hkind₀
  obtain rfl := Except.ok.inj (hkind.symm.trans hkind₁)
  rw [hkind₀, Except.ok.inj (hkind.symm.trans (h.kind_eq hkind₀ (hphi.symm.trans hnot)))]

end Instrumented

namespace Placing

variable (h : f.Placing hooks function plan stands f')
include h

/-- Each site has one probe. -/
theorem eq_of_site {id id' : FuncId} (hs : s ∈ stands) (ht : t ∈ stands)
    (hsite : s.planned.site = .edge id block index) (hsite' : t.planned.site = .edge id' block index) :
    s = t := by
  have hid := h.stood s hs
  have hid' := h.stood t ht
  rw [hsite] at hid
  rw [hsite'] at hid'
  have hsame : s.planned.site = t.planned.site := by
    rw [hsite, hsite', show id = id' from hid.trans hid'.symm]
  exact List.inj_on_of_nodup_map (List.nodup_append.mp h.distinct).1 hs ht hsame

theorem eq_of_edge (hs : s ∈ stands) (ht : t ∈ stands) (hsedge : s.edge = some (block, index))
    (htedge : t.edge = some (block, index)) : s = t := by
  obtain ⟨id, hsite⟩ := (h.instrumented.serves s hs).eq_of_edge hsedge
  obtain ⟨id', hsite'⟩ := (h.instrumented.serves t ht).eq_of_edge htedge
  exact h.eq_of_site hs ht hsite hsite'

/-- The edge of a probe leads to the block of that. -/
theorem through_eq (hs : s ∈ stands) (hedge : s.edge = some (block, index)) :
    Stand.through stands block index = some s.block := by
  obtain ⟨between, hthrough⟩ := Option.ne_none_iff_exists'.mp (Stand.through_ne_none hs hedge)
  obtain ⟨t, ht, htedge, rfl⟩ := Stand.exists_of_through hthrough
  rw [hthrough, h.eq_of_edge hs ht hedge htedge]

/-- The edge of a probe is the only one into the block of that. -/
theorem soleEdge_block (hs : s ∈ stands) (hedge : s.edge = some (block, index)) :
    f'.SoleEdge block index s.block := by
  obtain ⟨hle, name, succs, target, hsuccs, hindex, hblk⟩ := h.instrumented.new s hs block index hedge
  have hlive := h.live hs hedge
  refine ⟨(h.instrumented.live block).mpr (.inl hlive),
    ⟨_, h.instrumented.successors_eq h.framed.whole hsuccs, ?_⟩, fun c hc others j hothers hj => ?_⟩
  · rw [List.getElem?_mapIdx, hindex, Option.map_some, h.through_eq hs hedge, Option.getD_some]
  -- No edge from before leads to a new block.
  have hnot : ∀ {a : BlockId} {succs : List BlockId}, f.successors a = .ok succs → s.block ∉ succs :=
    fun hsuccs hmem => absurd (h.framed.whole.successors_lt hsuccs hmem) (Nat.not_lt.mpr hle)
  obtain hold | ⟨t, ht, htedge, rfl⟩ := (h.instrumented.live c).mp hc
  · obtain ⟨old, hold'⟩ := exists_block (h.framed.inArena c hold)
    have hothers' := h.instrumented.successors_eq h.framed.whole (successors_of_block hold')
    obtain rfl := Except.ok.inj (hothers.symm.trans hothers')
    rw [List.getElem?_mapIdx, Option.map_eq_some_iff] at hj
    obtain ⟨target', htarget', hj⟩ := hj
    cases hthrough : Stand.through stands c j with
    | none =>
      rw [hthrough, Option.getD_none] at hj
      exact absurd (hj ▸ List.mem_of_getElem? htarget') (hnot (successors_of_block hold'))
    | some between =>
      rw [hthrough, Option.getD_some] at hj
      obtain ⟨t, ht, htedge, rfl⟩ := Stand.exists_of_through hthrough
      obtain rfl := h.instrumented.eq_of_block ht hs htedge hedge hj
      obtain ⟨rfl, rfl⟩ := Prod.mk.inj (Option.some.inj (hedge.symm.trans htedge))
      exact ⟨rfl, rfl⟩
  · obtain ⟨⟨a, k⟩, htedge⟩ := Option.ne_none_iff_exists'.mp htedge
    obtain ⟨-, name', succs', target', hsuccs', hk, hblk'⟩ := h.instrumented.new t ht a k htedge
    obtain rfl := Except.ok.inj (hothers.symm.trans (successors_of_block hblk'))
    have hmem := List.mem_singleton.mp (List.mem_of_getElem? hj)
    exact absurd (hmem ▸ List.mem_of_getElem? hk) (hnot hsuccs')

/-- A block that was entered by one edge still is. -/
theorem enteredOnce (hb : f.EnteredOnce b) : f'.EnteredOnce b := by
  obtain ⟨source, index, hsole⟩ := hb
  by_cases hstood : ∃ s ∈ stands, s.edge = some (source, index)
  swap
  · exact ⟨source, index, h.soleEdge_of_none hsole fun s hs hedge => hstood ⟨s, hs, hedge⟩⟩
  -- The block is entered from that of a probe now.
  obtain ⟨s, hs, hedge⟩ := hstood
  obtain ⟨succs, hsuccs, hindex⟩ := hsole.leads
  obtain ⟨-, name, succs', target, hsuccs', hindex', hblk⟩ := h.instrumented.new s hs source index hedge
  obtain rfl := Except.ok.inj (hsuccs.symm.trans hsuccs')
  obtain rfl := Option.some.inj (hindex.symm.trans hindex')
  refine ⟨s.block, 0, (h.instrumented.live s.block).mpr (.inr ⟨s, hs, by simp [hedge], rfl⟩),
    ⟨_, successors_of_block hblk, rfl⟩, fun c hc others j hothers hj => ?_⟩
  obtain ⟨a, ha, k, succs', hsuccs', hk, hcase⟩ :=
    h.exists_edge (h.framed.whole.successors_lt hsuccs (List.mem_of_getElem? hindex)) hc hothers hj
  obtain ⟨rfl, rfl⟩ := hsole.only a ha succs' k hsuccs' hk
  obtain ⟨rfl, rfl, hnone⟩ | ⟨t, ht, htedge, rfl, rfl⟩ := hcase
  · rw [h.through_eq hs hedge] at hnone
    cases hnone
  · rw [h.eq_of_edge hs ht hedge htedge]
    exact ⟨rfl, rfl⟩

theorem closed (hf : f.Closed) : f'.Closed where
  inArena := h.instrumented.inArena
  toLive := by
    rintro a ha b ⟨succs, hsuccs, hb⟩
    rw [h.instrumented.live]
    obtain hold | ⟨s, hs, hedge, rfl⟩ := (h.instrumented.live a).mp ha
    · obtain ⟨blk, hblk⟩ := exists_block (h.framed.inArena a hold)
      have hsuccs' := h.instrumented.successors_eq h.framed.whole (successors_of_block hblk)
      obtain rfl := Except.ok.inj (hsuccs.symm.trans hsuccs')
      obtain ⟨j, hj⟩ := List.getElem?_of_mem hb
      rw [List.getElem?_mapIdx, Option.map_eq_some_iff] at hj
      obtain ⟨target, htarget, hj⟩ := hj
      cases hthrough : Stand.through stands a j with
      | none =>
        rw [hthrough, Option.getD_none] at hj
        exact .inl (hj ▸ hf.toLive a hold target
          ⟨_, successors_of_block hblk, List.mem_of_getElem? htarget⟩)
      | some between =>
        rw [hthrough, Option.getD_some] at hj
        obtain ⟨s, hs, hedge, rfl⟩ := Stand.exists_of_through hthrough
        exact .inr ⟨s, hs, by simp [hedge], hj⟩
    · obtain ⟨⟨c, k⟩, hedge⟩ := Option.ne_none_iff_exists'.mp hedge
      obtain ⟨-, name, succs', target, hsuccs', hk, hblk⟩ := h.instrumented.new s hs c k hedge
      obtain rfl := Except.ok.inj (hsuccs.symm.trans (successors_of_block hblk))
      rw [List.mem_singleton.mp hb]
      exact .inl (hf.toLive c (h.live hs hedge) target ⟨_, hsuccs', List.mem_of_getElem? hk⟩)

/-- A function is prepared for a second run if it was for the first. -/
theorem prepared {m' : Module} (hf : f.Prepared m)
    (htrace : ∀ id, hooks.trace = some id → ∃ g, m'.function id = .ok g)
    (hfunctions : m.functions.size ≤ m'.functions.size) : f'.Prepared m' where
  whole := h.instrumented.whole
  closed := h.closed hf.closed
  nodup := h.instrumented.nodup
  callees := fun id b k hid target args ret hkind => by
    obtain ⟨j, hold⟩ | ⟨s, hs, hmem⟩ :=
      h.instrumented.listed_or_mem hf.whole hf.closed.inArena hid
    · obtain ⟨g, hg⟩ := hf.callees id b j hold target args ret
        (h.instrumented.kind_of_listed hf.whole hold hkind rfl)
      exact Module.exists_function ((Module.index_lt_of_function hg).trans_le hfunctions)
    · obtain ⟨n, kind, hn, rfl⟩ := Stand.mem_ids.mp hmem
      obtain rfl := Except.ok.inj (hkind.symm.trans (h.instrumented.code s hs n kind hn))
      exact htrace target (Hooks.trace_of_mem_probeCode (List.mem_of_getElem? hn))
  pads := fun b hb => by
    obtain ⟨id, k, hid, hkind⟩ := hb
    obtain ⟨j, hold⟩ | ⟨s, hs, hmem⟩ :=
      h.instrumented.listed_or_mem hf.whole hf.closed.inArena hid
    · exact h.enteredOnce (hf.pads b ⟨id, j, hold, h.instrumented.kind_of_listed hf.whole hold hkind rfl⟩)
    · obtain ⟨n, kind, hn, rfl⟩ := Stand.mem_ids.mp hmem
      obtain rfl := Except.ok.inj (hkind.symm.trans (h.instrumented.code s hs n kind hn))
      have hplain := (Hooks.plain_of_mem_probeCode (List.mem_of_getElem? hn)).2
      cases hplain
  unwind := fun b hb blk hblk callee args normal unwind hterm => by
    obtain hold | ⟨s, hs, hedge, rfl⟩ := (h.instrumented.live b).mp hb
    · obtain ⟨blk₀, hblk₀⟩ := exists_block (h.framed.inArena b hold)
      obtain ⟨pos, hpos⟩ := h.framed.whole.exists_firstInsertionPoint hblk₀
      obtain ⟨name, hblk₁⟩ := h.instrumented.old b blk₀ pos hblk₀ hpos
      obtain rfl := Except.ok.inj (hblk.symm.trans hblk₁)
      dsimp only at hterm
      cases hterm₀ : blk₀.term with
      | invoke callee₀ args₀ normal₀ unwind₀ =>
        rw [hterm₀] at hterm
        obtain ⟨-, -, -, rfl⟩ := Terminator.invoke.inj hterm
        cases hthrough : Stand.through stands b 1 with
        | none => exact h.enteredOnce (hf.unwind b hold blk₀ hblk₀ _ _ _ _ hterm₀)
        | some between =>
          obtain ⟨s, hs, hedge, rfl⟩ := Stand.exists_of_through hthrough
          exact ⟨b, 1, h.soleEdge_block hs hedge⟩
      | _ =>
        rw [hterm₀] at hterm
        cases hterm
    · obtain ⟨⟨c, k⟩, hedge⟩ := Option.ne_none_iff_exists'.mp hedge
      obtain ⟨-, name, succs, target, -, -, hblk₁⟩ := h.instrumented.new s hs c k hedge
      obtain rfl := Except.ok.inj (hblk.symm.trans hblk₁)
      cases hterm

/-- Probes bring no switch. -/
theorem firstSwitch?_eq_none (hnone : f.firstSwitch? = none) : f'.firstSwitch? = none := by
  rw [firstSwitch?, List.find?_eq_none] at hnone ⊢
  intro b hb
  obtain hold | ⟨s, hs, hedge, rfl⟩ := (h.instrumented.live b).mp hb
  · obtain ⟨blk, hblk⟩ := exists_block (h.framed.inArena b hold)
    obtain ⟨pos, hpos⟩ := h.framed.whole.exists_firstInsertionPoint hblk
    obtain ⟨name, hblk'⟩ := h.instrumented.old b blk pos hblk hpos
    rw [endsInSwitch_eq hblk', Terminator.isSwitch_redirect, ← endsInSwitch_eq hblk]
    exact hnone b hold
  · obtain ⟨⟨c, k⟩, hedge⟩ := Option.ne_none_iff_exists'.mp hedge
    obtain ⟨-, name, succs, target, -, -, hblk'⟩ := h.instrumented.new s hs c k hedge
    rw [endsInSwitch_eq hblk']
    exact Bool.false_ne_true

/-- The edges that were to get probes still are. -/
theorem toProbe {config : Config} (hprobe : f.ToProbe config block) : f'.ToProbe config block := by
  obtain ⟨blk, hblk, hprobe⟩ := hprobe
  obtain ⟨pos, hpos⟩ := h.framed.whole.exists_firstInsertionPoint hblk
  obtain ⟨name, hblk'⟩ := h.instrumented.old block blk pos hblk hpos
  refine ⟨_, hblk', ?_⟩
  obtain hforks | ⟨hfuzzing, htokens⟩ := hprobe
  · exact .inl ((Terminator.forks_redirect _ _).trans hforks)
  refine .inr ⟨hfuzzing, ?_⟩
  -- What carried a token is listed and carries it still.
  have hany : (blk.insts.any fun i => !(f.annotations.get i).isEmpty) = true := by
    rw [blockHasTokens, hblk] at htokens
    exact Except.ok.inj htokens
  obtain ⟨i, hi, hcarries⟩ := List.any_eq_true.mp hany
  rw [blockHasTokens, hblk', h.instrumented.annotations]
  refine congrArg Except.ok (List.any_eq_true.mpr ⟨i, ?_, hcarries⟩)
  rw [← List.take_append_drop pos blk.insts, List.mem_append] at hi
  simp only [List.append_assoc, List.mem_append]
  exact hi.imp id .inr

/-- The edge of a probe is marked. -/
theorem marked {id : FuncId} (hs : s ∈ stands) (hsite : s.planned.site = .edge id block index) :
    f'.Marked (.edge id block index) := by
  have hblock := h.instrumented.block_lt h.framed.whole hs ⟨id, block, index, hsite⟩
  obtain ⟨blk, hblk⟩ := exists_block hblock
  have hname := h.labelled.marked s hs ⟨id, block, index, hsite⟩ blk hblk
  refine ⟨s.block, blk, ?_, hblk, hname⟩
  have hserves := h.instrumented.serves s hs
  have hheld := h.held s hs
  rw [hsite] at hserves hheld
  cases hserves with
  | edge hedge => exact h.soleEdge_block hs hedge
  | target hsuccs hindex hnone honly =>
    refine h.soleEdge_of_none ⟨hheld.1, ⟨_, hsuccs, hindex⟩, honly⟩ fun t ht hedge => ?_
    obtain ⟨id', hsite'⟩ := (h.instrumented.serves t ht).eq_of_edge hedge
    obtain rfl := h.eq_of_site hs ht hsite hsite'
    cases hnone.symm.trans hedge

end Placing

end Function

/-- A function that returns a number has nothing in it to be in the way. -/
theorem Function.prepared_returning (m : Module) (name : String) (value : Nat) :
    (Function.returning name value).Prepared m := by
  have hlive : ∀ {b : BlockId}, b ∈ (Function.returning name value).layout → b = ⟨0⟩ :=
    List.mem_singleton.mp
  have hblock : ∀ {b : BlockId} {blk}, (Function.returning name value).block b = .ok blk →
      blk = ⟨"entry", [], .ret (some (.ofWord 32 (UInt64.ofNat value)))⟩ := fun {b blk} hblk => by
    obtain ⟨hlt, rfl⟩ := Array.getElem?_eq_some_iff.mp (block_eq_ok.mp hblk)
    obtain hzero : b.index = 0 := by simpa [returning] using hlt
    simp [returning, hzero]
  have hlisted : ∀ {id b k}, ¬(Function.returning name value).Listed id b k := by
    rintro id b k ⟨-, blk, hblk, hk⟩
    rw [hblock hblk] at hk
    cases hk
  refine ⟨⟨fun b blk hblk id hid => ?_, fun b blk hblk c hc => ?_⟩,
    ⟨fun b hb => hlive hb ▸ Nat.one_pos, fun a ha b hedge => ?_⟩, List.nodup_singleton _,
    fun id b k hid => absurd hid hlisted, fun b hb => ?_, fun b hb blk hblk _ _ _ _ hterm => ?_⟩
  · rw [hblock hblk] at hid
    cases hid
  · rw [hblock hblk] at hc
    cases hc
  · obtain ⟨succs, hsuccs, hb⟩ := hedge
    obtain ⟨blk, hblk, rfl⟩ := Checked.map_eq_ok.mp hsuccs
    rw [hblock hblk] at hb
    cases hb
  · obtain ⟨id, k, hid, -⟩ := hb
    exact absurd hid hlisted
  · rw [hblock hblk] at hterm
    cases hterm

namespace Pass.Instrumentation

variable {config : Config} {drawn : UInt64} {m m' : Module} {report : InstrumentReport}
  {i : Instrumentation config drawn m report m'} {id : FuncId} {f f' : Function}

/-- What has a body in an instrumented module is an accessor or had one before. -/
theorem Valid.body_cases (hi : i.Valid) (hm : m.Accepted) (hsymbols : m.WithoutSymbols)
    (hid : m'.function id = .ok f') : f'.isDeclaration = true ∨
      (∃ name value, f' = .returning name value) ∨ ∃ f stands, i.split.function id = .ok f ∧
        f.isDeclaration = false ∧ f.Placing i.hooks id [] stands f' := by
  obtain ⟨f, hf, hplaced⟩ | rfl | haccessor := hi.function_cases hsymbols hid
  · cases hbody : f.isDeclaration with
    | false =>
      obtain ⟨stands, f₁, -, hf₁, hplacing⟩ := hi.placing hm hf hbody
      obtain rfl := Except.ok.inj (hplaced.symm.trans hf₁)
      exact .inr (.inr ⟨f, stands, hf, hbody, hplacing⟩)
    | true =>
      have hdeclared := Module.function_withHooks hf config
      rw [hi.declared] at hdeclared
      obtain rfl | ⟨hno, -⟩ := hi.placed_cases hm hdeclared hplaced
      · exact .inl hbody
      · cases hbody.symm.trans hno
  · exact .inl rfl
  · exact .inr (.inl haccessor)

theorem Valid.size_le (hi : i.Valid) (hsymbols : m.WithoutSymbols) :
    i.placed.functions.size ≤ m'.functions.size := by
  have h := congrArg (fun m => m.functions.size) (hi.result_eq hsymbols)
  simp only [Module.addFunction, Array.size_push] at h
  omega

/-- An instrumented module is prepared to be instrumented again. -/
theorem Valid.prepared (hi : i.Valid) (hm : m.Accepted) (hsymbols : m.WithoutSymbols) :
    m'.Prepared := by
  intro id f' hid
  obtain hbody | ⟨name, value, rfl⟩ | ⟨f, stands, hf, hbody, hplacing⟩ :=
    hi.body_cases hm hsymbols hid
  · exact .inl hbody
  · exact .inr (Function.prepared_returning m' name value)
  have hsize := hi.size_le hsymbols
  rw [hi.placed.size] at hsize
  refine .inr (hplacing.prepared ((hm.prepared hi.split _ f hf).resolve_left (by simp [hbody]))
    (fun trace htrace => ?_) (le_trans ?_ hsize))
  · obtain ⟨g, hg, -⟩ := (hi.declared_hooks hsymbols).trace trace htrace
    exact Module.exists_function ((Module.index_lt_of_function hg).trans_le hsize)
  · simp [(hi.declared_eq hsymbols).1]

/-- Sites are only selected where no switch is. -/
theorem Valid.split_firstSwitch? (hi : i.Valid) (hm : m.Accepted) : i.split.firstSwitch? = none := by
  have hends := (hm.prepared hi.split).probeSites_ends config i.pointedTo
  cases hswitch : i.split.firstSwitch? with
  | none => rfl
  | some switch =>
    rw [hswitch] at hends
    cases hi.sites.symm.trans hends

theorem Valid.firstSwitch?_eq_none (hi : i.Valid) (hm : m.Accepted) (hsymbols : m.WithoutSymbols) :
    m'.firstSwitch? = none := by
  rw [Module.firstSwitch?, List.findSome?_eq_none_iff]
  intro f' hf'
  rw [Option.map_eq_none_iff]
  obtain ⟨index, hindex⟩ := List.getElem?_of_mem hf'
  have hid : m'.function ⟨index⟩ = .ok f' := Module.function_eq_ok.mpr (by simpa using hindex)
  obtain hbody | ⟨name, value, rfl⟩ | ⟨f, stands, hf, -, hplacing⟩ := hi.body_cases hm hsymbols hid
  · rw [Function.firstSwitch?, List.isEmpty_iff.mp hbody]
    rfl
  · rfl
  refine hplacing.firstSwitch?_eq_none ?_
  have hnone := hi.split_firstSwitch? hm
  rw [Module.firstSwitch?, List.findSome?_eq_none_iff] at hnone
  simpa using hnone f (Array.mem_toList_iff.mpr (Array.mem_of_getElem? (Module.function_eq_ok.mp hf)))

/-- An edge that was a site still is one, and is marked. -/
theorem Valid.site_marked (hi : i.Valid) (hm : m.Accepted) (hsymbols : m.WithoutSymbols)
    {block : BlockId} {index : Nat}
    (hsite : i.split.IsSite config i.pointedTo (.edge id block index))
    (pointedTo : Option (List String)) :
    m'.IsSite config pointedTo (.edge id block index) ∧ m'.Marked (.edge id block index) := by
  obtain ⟨planned, hplanned, heq⟩ := List.mem_map.mp (hi.mem_plan_iff.mpr hsite)
  obtain ⟨f, succs, hf, hblock, hprobe, hsuccs, hlt⟩ := hsite
  have hbody : f.isDeclaration = false :=
    List.isEmpty_eq_false_iff.mpr (List.ne_nil_of_mem hblock)
  obtain ⟨stands, f', hstands, hf', hplacing⟩ := hi.placing hm hf hbody
  have hid := hi.function_eq hsymbols hf'
  obtain ⟨s, hs, rfl⟩ : ∃ s ∈ stands, s.planned = planned := by
    refine List.mem_map.mp (hstands ▸ List.mem_reverse.mpr (List.mem_filter.mpr ⟨hplanned, ?_⟩))
    rw [heq]
    exact beq_self_eq_true id
  have hsuccs' := hplacing.instrumented.successors_eq hplacing.framed.whole hsuccs
  exact ⟨⟨f', _, hid, (hplacing.instrumented.live block).mpr (.inl hblock), hplacing.toProbe hprobe,
    hsuccs', by simpa using hlt⟩, f', hid, hplacing.marked hs heq⟩

end Pass.Instrumentation

namespace Module

variable {m : Module}

/-- Splitting landing pads comes to one thing. -/
theorem EachBecomes.function_unique {m₁ m₂ : Module} (h₁ : m.EachBecomes (fun _ => Pass.PadsSplit) m₁)
    (h₂ : m.EachBecomes (fun _ => Pass.PadsSplit) m₂) {id : FuncId} {f : Function}
    (hf : m₁.function id = .ok f) : m₂.function id = .ok f := by
  obtain ⟨f₀, hf₀, hsplit₁⟩ := h₁.exists_function hf
  obtain ⟨f₂, hf₂, hsplit₂⟩ := h₂.functions id f₀ hf₀
  obtain ⟨hbody, rfl⟩ | ⟨hbody, count, hdoes⟩ := hsplit₁
  · obtain ⟨-, rfl⟩ | ⟨hno, -⟩ := hsplit₂
    · exact hf₂
    · cases hbody.symm.trans hno
  · obtain ⟨hno, -⟩ | ⟨-, count', hdoes'⟩ := hsplit₂
    · cases hbody.symm.trans hno
    · obtain ⟨-, rfl⟩ := hdoes.unique hdoes'
      exact hf₂

/-- Where a module that has no use for the names kept for probes got a probe on an edge, it is refused
to be instrumented again. -/
theorem Accepted.instrumentEdges_twice (hm : m.Accepted) (hsymbols : m.WithoutSymbols)
    {config : Config} {drawn : UInt64} {report : InstrumentReport} {s split : PassState}
    {pointedTo : Option (List String)} {sites : List ProbeSite}
    (h : (Pass.instrumentEdges config drawn).runOn m = .ok (.ok report, s))
    (hsplit : (m.functionIds.forM Pass.splitPads).runOn m = .ok (.ok (), split))
    (hsites : (split.module.probeSites config pointedTo).run = .ok (.ok sites))
    (hedge : ∃ site ∈ sites, site.IsEdge) (drawn' : UInt64) : ∃ name block t,
      (Pass.instrumentEdges config drawn').runOn s.module =
        .ok (.error (.alreadyInstrumented name block), t) := by
  obtain ⟨i, hi⟩ := Pass.instrumentEdges_does (s := { module := m }) h
  have hprepared := hi.prepared hm hsymbols
  obtain ⟨pointedTo', hpointedTo', result, t, hrun, hcomes⟩ := Pass.instrumentEdges_concludes
    (s := { module := s.module }) (Pass.splitAllPads_does_nothing hprepared) hprepared hi.mapSize drawn'
  obtain ⟨site, hsite, id, block, index, rfl⟩ := hedge
  -- The edge was a site of the first run, and is a marked one of the second.
  obtain ⟨hselected, hmarked⟩ : s.module.IsSite config pointedTo' (.edge id block index) ∧
      s.module.Marked (.edge id block index) := by
    obtain ⟨f, succs, hf, hrest⟩ := (mem_probeSites hsites).mp hsite
    refine hi.site_marked hm hsymbols ⟨f, succs, ?_, hrest⟩ pointedTo'
    exact (Pass.splitAllPads_does (s := { module := m }) hsplit).function_unique hi.split hf
  cases hcomes with
  | switch hswitch => exact absurd ((hi.firstSwitch?_eq_none hm hsymbols).symm.trans hswitch) nofun
  | marked => exact ⟨_, _, t, hrun⟩
  | done _ hsites' hfree => exact absurd hmarked (hfree _ ((mem_probeSites hsites').mpr hselected))

theorem circling_instrumentEdges_twice : ∃ report s name block t,
    (Pass.instrumentEdges (.coverage .all) 0).runOn (circling ⟨1⟩) = .ok (.ok report, s) ∧
      (Pass.instrumentEdges (.coverage .all) 0).runOn s.module =
        .ok (.error (.alreadyInstrumented name block), t) := by
  have hm := accepted_of_isLocal (show (circling ⟨1⟩).isLocal = true by decide +kernel)
  have hsymbols : (circling ⟨1⟩).WithoutSymbols := ⟨by decide, by decide⟩
  obtain ⟨report, s, h⟩ := Pass.exists_of_completes (show Pass.completes
    ((Pass.instrumentEdges (.coverage .all) 0).runOn (circling ⟨1⟩)) = true by decide +kernel)
  -- Both ends of both branches are sites.
  have hselected : (Pass.completed? (((circling ⟨1⟩).functionIds.forM Pass.splitPads).runOn
      (circling ⟨1⟩))).map (fun p => (p.2.module.probeSites (.coverage .all) none).run) =
        some (.ok (.ok [.edge ⟨0⟩ ⟨0⟩ 0, .edge ⟨0⟩ ⟨0⟩ 1, .edge ⟨0⟩ ⟨1⟩ 0, .edge ⟨0⟩ ⟨1⟩ 1])) := by
    decide +kernel
  obtain ⟨⟨u, split⟩, hsplit, hsites⟩ := Option.map_eq_some_iff.mp hselected
  obtain ⟨name, block, t, htwice⟩ := hm.instrumentEdges_twice hsymbols h
    (Pass.completed?_eq_some hsplit) hsites ⟨_, List.mem_cons_self, _, _, _, rfl⟩ 0
  exact ⟨report, s, name, block, t, h, htwice⟩

end Module

end EdgeProbe
