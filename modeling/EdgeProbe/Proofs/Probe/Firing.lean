import EdgeProbe.Proofs.Machine.Passages
import EdgeProbe.Proofs.Probe.Correspondence
import EdgeProbe.Proofs.Validity.OwnPads

/-!
# Which probes a block fires

The code of a probe is in one block, so a run that goes through the block fires the probe. Here it is
shown that the probes in a block are those of the edge that leads there, whichever edge that is, and
those in the entry are those of the function. Main statements: `Instrumented.work_edge` and
`Instrumented.work_entry`.
-/

namespace EdgeProbe

/-- What is told apart by a function is found by it. -/
theorem filter_eq_singleton_of_nodup {α β : Type} [DecidableEq β] {g : α → β} {l : List α} {a : α}
    (h : (l.map g).Nodup) (ha : a ∈ l) : (l.filter fun x => g x == g a) = [a] := by
  induction l with
  | nil => cases ha
  | cons first rest ih =>
    rw [List.map_cons, List.nodup_cons] at h
    obtain rfl | ha := List.mem_cons.mp ha
    · have hrest : (rest.filter fun x => g x == g a) = [] := by
        refine List.filter_eq_nil_iff.mpr fun x hx heq => h.1 ?_
        exact beq_iff_eq.mp heq ▸ List.mem_map_of_mem hx
      rw [List.filter_cons, if_pos (beq_self_eq_true _), hrest]
    · have hne : ¬(g first == g a) = true := fun heq =>
        h.1 (beq_iff_eq.mp heq ▸ List.mem_map_of_mem ha)
      rw [List.filter_cons, if_neg hne, ih h.2 ha]

theorem flatMap_range_ite {α : Type} (a : α) {p n : Nat} (h : p < n) :
    ((List.range n).flatMap fun k => if k = p then [a] else []) = [a] := by
  induction n with
  | zero => cases h
  | succ n ih =>
    rw [List.range_succ, List.flatMap_append, List.flatMap_singleton]
    obtain hlt | rfl := Nat.lt_succ_iff_lt_or_eq.mp h
    · rw [ih hlt, if_neg hlt.ne', List.append_nil]
    · have hnone : ((List.range p).flatMap fun k => if k = p then [a] else []) = [] := by
        refine List.flatMap_eq_nil_iff.mpr fun k hk => if_neg ?_
        exact (List.mem_range.mp hk).ne
      rw [hnone, if_pos rfl, List.nil_append]

/-- The identifier of the probe that is planned for a site, if there is one. -/
def markOf (plan : List PlannedProbe) (site : ProbeSite) : List Nat :=
  ((plan.find? fun planned => planned.site == site).map (·.id)).toList

namespace Stand

/-- The identifier of the probe whose code has the instruction at this position, if there is one. -/
def firing (stands : List Stand) (position : Nat) (i : InstId) : List Nat :=
  ((stands.find? fun s => s.first + position == i.index).map (·.planned.id)).toList

theorem length_code (hooks : Hooks) (s t : Stand) :
    (s.code hooks).length = (t.code hooks).length := by
  unfold code Hooks.probeCode Hooks.traceCode Hooks.countCode
  cases hooks.trace <;> cases hooks.previous <;> rfl

theorem firing_eq_nil {stands : List Stand} {position : Nat} {i : InstId}
    (h : ∀ s ∈ stands, i ≠ ⟨s.first + position⟩) : firing stands position i = [] := by
  have hnone : (stands.find? fun s => s.first + position == i.index) = none :=
    List.find?_eq_none.mpr fun s hs heq => h s hs (by rw [beq_iff_eq.mp heq])
  rw [firing, hnone]
  rfl

theorem edge_ne_of_through {stands : List Stand} {b : BlockId} {k : Nat}
    (h : through stands b k = none) : ∀ s ∈ stands, s.edge ≠ some (b, k) := by
  induction stands with
  | nil => simp
  | cons first rest ih =>
    rw [through] at h
    split at h
    · cases h
    · next hne => exact List.forall_mem_cons.mpr ⟨hne, ih h⟩

end Stand

namespace Function.Instrumented

variable {hooks : Hooks} {f f₁ : Function} {stands : List Stand} {s t : Stand} {position : Nat}
  (h : f.Instrumented hooks stands f₁)
include h

/-- No instruction is part of two probes. -/
theorem eq_of_shared (hs : s ∈ stands) (ht : t ∈ stands) {j k : Nat}
    (hj : j < (s.code hooks).length) (hk : k < (t.code hooks).length)
    (heq : s.first + j = t.first + k) : s = t := by
  obtain ⟨p, hp, rfl⟩ := List.getElem_of_mem hs
  obtain ⟨q, hq, rfl⟩ := List.getElem_of_mem ht
  have happart := List.pairwise_iff_getElem.mp h.apart
  obtain hlt | rfl | hlt := Nat.lt_trichotomy p q
  · have hle := happart p q hp hq hlt
    omega
  · rfl
  · have hle := happart q p hq hp hlt
    omega

/-- What was there before is part of no probe. -/
theorem firing_of_lt {i : InstId} (hi : i.index < f.insts.size) :
    Stand.firing stands position i = [] := by
  refine Stand.firing_eq_nil fun s hs heq => ?_
  rw [heq] at hi
  have hbound := (h.bounds s hs).1
  dsimp only at hi
  omega

theorem firing_code (hs : s ∈ stands) {k : Nat} (hk : k < (s.code hooks).length)
    (hposition : position < (s.code hooks).length) :
    Stand.firing stands position ⟨s.first + k⟩ = if k = position then [s.planned.id] else [] := by
  have hsame : ∀ t ∈ stands, t.first + position = s.first + k → t = s := fun t ht heq =>
    h.eq_of_shared ht hs (Stand.length_code hooks s t ▸ hposition) hk heq
  split
  · next heq =>
    subst heq
    obtain ⟨t, hfind⟩ : ∃ t, (stands.find? fun t => t.first + k == s.first + k) = some t :=
      Option.isSome_iff_exists.mp (List.find?_isSome.mpr ⟨s, hs, beq_self_eq_true _⟩)
    have hfirst := List.find?_some hfind
    obtain rfl := hsame t (List.mem_of_find?_eq_some hfind) (beq_iff_eq.mp hfirst)
    rw [Stand.firing, hfind]
    rfl
  · next hne =>
    refine Stand.firing_eq_nil fun t ht heq => hne ?_
    have hindex : s.first + k = t.first + position := congrArg InstId.index heq
    obtain rfl := hsame t ht hindex.symm
    omega

/-- The code of a probe fires that one. -/
theorem flatMap_firing_ids (hs : s ∈ stands) (hposition : position < (s.code hooks).length) :
    (s.ids hooks).flatMap (Stand.firing stands position) = [s.planned.id] := by
  rw [Stand.ids, List.flatMap_map, ← flatMap_range_ite s.planned.id hposition]
  refine List.flatMap_congr fun k hk => ?_
  exact h.firing_code hs (List.mem_range.mp hk) hposition

theorem flatMap_firing_idsIn (hposition : ∀ s ∈ stands, position < (s.code hooks).length)
    (b : BlockId) : (Stand.idsIn hooks stands b).flatMap (Stand.firing stands position) =
      (stands.filter fun s => s.block == b).map (·.planned.id) := by
  rw [Stand.idsIn, List.flatMap_assoc, ← List.flatMap_pure_eq_map]
  refine List.flatMap_congr fun s hs => ?_
  have hs := List.mem_of_mem_filter hs
  exact h.flatMap_firing_ids hs (hposition s hs)

/-- Phis are part of no probe. -/
theorem firing_phi (hposition : ∀ s ∈ stands, position < (s.code hooks).length) {i : InstId}
    {kind : InstKind} (hkind : f₁.kind i = .ok kind) (hphi : kind.isPhi = true) :
    Stand.firing stands position i = [] := by
  refine Stand.firing_eq_nil fun s hs heq => ?_
  subst heq
  have hcode := h.code s hs position _ (List.getElem?_eq_getElem (hposition s hs))
  obtain rfl := Except.ok.inj (hkind.symm.trans hcode)
  exact Bool.false_ne_true ((Hooks.plain_of_mem_probeCode (List.getElem_mem _)).1.symm.trans hphi)

/-- So it does not matter that phis are not executed. -/
theorem flatMap_firing_work (hposition : ∀ s ∈ stands, position < (s.code hooks).length)
    {b : BlockId} {blk : Block} {phis : List InstId} (hblk : f₁.block b = .ok blk)
    (hphis : f₁.phis b = .ok phis) : (f₁.work b).flatMap (Stand.firing stands position) =
      blk.insts.flatMap (Stand.firing stands position) := by
  obtain ⟨blk', hblk', hlead⟩ := Function.phis_eq_ok hphis
  obtain rfl := Except.ok.inj (hblk'.symm.trans hblk)
  obtain ⟨back, hinsts, hall, -⟩ := Function.leading_eq_ok hlead
  have hnone : phis.flatMap (Stand.firing stands position) = [] :=
    List.flatMap_eq_nil_iff.mpr fun i hi => by
      obtain ⟨kind, hkind, hphi⟩ := hall i hi
      exact h.firing_phi hposition hkind hphi
  rw [Function.work_eq hblk hphis, hinsts, List.drop_left, List.flatMap_append, hnone,
    List.nil_append]

end Function.Instrumented

namespace Function

variable {hooks : Hooks} {f f₁ : Function} {stands : List Stand} {s t : Stand} {position : Nat}
  {id : FuncId} {b target : BlockId} {blk : Block} {k : Nat}

/-- Probes are planned for different sites of a function. -/
structure Planned (f : Function) (id : FuncId) (stands : List Stand) : Prop where
  distinct : (stands.map (·.planned.site)).Nodup
  own : ∀ s ∈ stands, s.planned.site.function = id
  fits : ∀ s ∈ stands, f.Fits s.planned.site

theorem Planned.filter_site (hplan : f.Planned id stands) (hs : s ∈ stands) {site : ProbeSite}
    (hsite : s.planned.site = site) :
    (stands.filter fun t => t.planned.site == site).map (·.planned.id) = [s.planned.id] := by
  subst hsite
  rw [filter_eq_singleton_of_nodup (g := fun t : Stand => t.planned.site) hplan.distinct hs]
  rfl

theorem Planned.eq_of_site (hplan : f.Planned id stands) (hs : s ∈ stands) (ht : t ∈ stands)
    (hsite : s.planned.site = t.planned.site) : s = t :=
  List.inj_on_of_nodup_map hplan.distinct hs ht hsite

namespace Instrumented

variable (h : f.Instrumented hooks stands f₁) (hf : f.Framed) (hroot : f.Rooted)
  (hplan : f.Planned id stands) (hposition : ∀ s ∈ stands, position < (s.code hooks).length)
include h hf

/-- A probe without a block of its own is in one that was there before. -/
theorem block_lt_of_inPlace (hs : s ∈ stands) (hedge : s.edge = none) :
    s.block.index < f.blocks.size := by
  have hserves := h.serves s hs
  generalize s.planned.site = site at hserves
  cases hserves with
  | entry hentry => exact hf.inArena _ (mem_layout_of_entryBlock? hentry)
  | target hsuccs hindex => exact hf.whole.successors_lt hsuccs (List.mem_of_getElem? hindex)
  | edge hsome => cases hedge.symm.trans hsome

omit hf in
theorem inPlace_of_block_lt (hs : s ∈ stands) (hlt : s.block.index < f.blocks.size) :
    s.edge = none := by
  by_contra hne
  obtain ⟨⟨a, j⟩, hedge⟩ := Option.ne_none_iff_exists'.mp hne
  exact absurd hlt (Nat.not_lt.mpr (h.new s hs a j hedge).1)

omit hf in
/-- A probe without a block of its own is at the entry or in the target of a sole edge. -/
theorem inPlace_cases (hplan : f.Planned id stands) (hs : s ∈ stands) (hnone : s.edge = none) :
    (f.entryBlock? = some s.block ∧ s.planned.site = .entry id) ∨
      ∃ block index, s.planned.site = .edge id block index ∧
        ∀ a ∈ f.layout, ∀ others j, f.successors a = .ok others → others[j]? = some s.block →
          a = block ∧ j = index := by
  have hserves := h.serves s hs
  have hown := hplan.own s hs
  generalize s.planned.site = site at hserves hown
  cases hserves with
  | entry hentry => exact .inl ⟨hentry, congrArg _ hown⟩
  | @target function block index succs _ _ _ hsole =>
    obtain rfl : function = id := hown
    exact .inr ⟨block, index, rfl, hsole⟩
  | edge hsome => cases hnone.symm.trans hsome

include hposition

/-- A block that was there fires the probes that have been put into it. -/
theorem work_old (hlt : b.index < f.blocks.size) :
    (f₁.work b).flatMap (Stand.firing stands position) =
      (stands.filter fun s => s.block == b).map (·.planned.id) := by
  obtain ⟨blk, hblk⟩ := exists_block hlt
  obtain ⟨pos, hpos⟩ := hf.whole.exists_firstInsertionPoint hblk
  obtain ⟨name, hblk₁⟩ := h.old b blk pos hblk hpos
  obtain ⟨phis, hphis, -⟩ := h.whole.exists_phis (index_lt_of_block hblk₁)
  have hold : ∀ insts : List InstId, (∀ i ∈ insts, i ∈ blk.insts) →
      insts.flatMap (Stand.firing stands position) = [] := fun insts hinsts =>
    List.flatMap_eq_nil_iff.mpr fun i hi =>
      h.firing_of_lt (hf.whole.insts b blk hblk i (hinsts i hi))
  rw [h.flatMap_firing_work hposition hblk₁ hphis, List.flatMap_append, List.flatMap_append,
    hold _ fun _ => List.mem_of_mem_take, hold _ fun _ => List.mem_of_mem_drop,
    h.flatMap_firing_idsIn hposition, List.nil_append, List.append_nil]

omit hf in
/-- The block of a probe of its own fires that one. -/
theorem work_new (hs : s ∈ stands) (hedge : s.edge = some (b, k)) :
    (f₁.work s.block).flatMap (Stand.firing stands position) = [s.planned.id] := by
  obtain ⟨-, name, succs, target, -, -, hblk⟩ := h.new s hs b k hedge
  obtain ⟨phis, hphis, -⟩ := h.whole.exists_phis (index_lt_of_block hblk)
  rw [h.flatMap_firing_work hposition hblk hphis, h.flatMap_firing_ids hs (hposition s hs)]

include hroot hplan

/-- An edge into a block that was there leads to the probes that are planned for it. -/
theorem work_target (hb : b ∈ f.layout) {succs : List BlockId} (hsuccs : f.successors b = .ok succs)
    (hk : succs[k]? = some target) (hthrough : Stand.through stands b k = none) :
    (f₁.work target).flatMap (Stand.firing stands position) =
      (stands.filter fun s => s.planned.site == .edge id b k).map (·.planned.id) := by
  have hlt := hf.whole.successors_lt hsuccs (List.mem_of_getElem? hk)
  rw [h.work_old hf hposition hlt]
  congr 1
  refine List.filter_congr fun s hs => Bool.eq_iff_iff.mpr ?_
  rw [beq_iff_eq, beq_iff_eq]
  constructor
  · intro heq
    have hnone := h.inPlace_of_block_lt hs (heq ▸ hlt)
    obtain ⟨hentry, -⟩ | ⟨block, index, hsite, hsole⟩ := h.inPlace_cases hplan hs hnone
    · exact absurd ⟨succs, hsuccs, List.mem_of_getElem? hk⟩ (hroot target (heq ▸ hentry) b hb)
    · obtain ⟨rfl, rfl⟩ := hsole b hb succs k hsuccs (heq ▸ hk)
      exact hsite
  · intro hsite
    have hserves := h.serves s hs
    rw [hsite] at hserves
    cases hserves with
    | target hothers hindex =>
      obtain rfl := Except.ok.inj (hothers.symm.trans hsuccs)
      exact Option.some.inj (hindex.symm.trans hk)
    | edge hedge => exact absurd hedge (Stand.edge_ne_of_through hthrough s hs)

/-- What a block fires is planned for the edge that leads there, whichever that is. -/
theorem work_edge (hb : b ∈ f₁.layout) (hblk : f₁.block b = .ok blk)
    (hk : blk.term.successors[k]? = some target) :
    (f₁.work target).flatMap (Stand.firing stands position) =
      (stands.filter fun s => s.planned.site == .edge id b k).map (·.planned.id) := by
  obtain hold | ⟨s, hs, hedge, rfl⟩ := (h.live b).mp hb
  · obtain ⟨blk₀, hblk₀⟩ := exists_block (hf.inArena b hold)
    obtain ⟨pos, hpos⟩ := hf.whole.exists_firstInsertionPoint hblk₀
    obtain ⟨name, hblk₁⟩ := h.old b blk₀ pos hblk₀ hpos
    obtain rfl := Except.ok.inj (hblk.symm.trans hblk₁)
    rw [Terminator.successors_redirect, List.getElem?_mapIdx, Option.map_eq_some_iff] at hk
    obtain ⟨target₀, hk, htarget⟩ := hk
    cases hthrough : Stand.through stands b k with
    | none =>
      rw [hthrough, Option.getD_none] at htarget
      subst htarget
      exact h.work_target hf hroot hplan hposition hold (successors_of_block hblk₀) hk hthrough
    | some between =>
      obtain ⟨s, hs, hedge, hs'⟩ := Stand.exists_of_through hthrough
      rw [hthrough, Option.getD_some, ← hs'] at htarget
      obtain ⟨function, hsite⟩ := (h.serves s hs).eq_of_edge hedge
      have hown := hplan.own s hs
      rw [hsite] at hown
      obtain rfl : function = id := hown
      rw [← htarget, h.work_new hposition hs hedge, hplan.filter_site hs hsite]
  · -- The block of a probe leads to where the edge led. That fires nothing, since the edge is the
    -- only one for which a probe could be there.
    obtain ⟨⟨a, j⟩, hedge⟩ := Option.ne_none_iff_exists'.mp hedge
    obtain ⟨hle, name, succs, target₀, hsuccs, hj, hblk₁⟩ := h.new s hs a j hedge
    obtain rfl := Except.ok.inj (hblk.symm.trans hblk₁)
    obtain rfl : target₀ = target := by
      cases k with
      | zero => exact Option.some.inj hk
      | succ k => cases hk
    obtain ⟨function, hsite⟩ := (h.serves s hs).eq_of_edge hedge
    obtain rfl : function = id := by
      rw [← hplan.own s hs, hsite]
      rfl
    have ha : a ∈ f.layout := by
      have hfits := hplan.fits s hs
      rw [hsite] at hfits
      exact hfits.1
    have hlt := hf.whole.successors_lt hsuccs (List.mem_of_getElem? hj)
    rw [h.work_old hf hposition hlt]
    congr 1
    refine List.filter_congr fun t ht => Bool.eq_iff_iff.mpr ?_
    rw [beq_iff_eq, beq_iff_eq]
    refine iff_of_false (fun heq => ?_) fun hother => ?_
    · have hnone := h.inPlace_of_block_lt ht (heq ▸ hlt)
      obtain ⟨hentry, -⟩ | ⟨block, index, hother, hsole⟩ := h.inPlace_cases hplan ht hnone
      · exact hroot target₀ (heq ▸ hentry) a ha ⟨succs, hsuccs, List.mem_of_getElem? hj⟩
      · obtain ⟨rfl, rfl⟩ := hsole a ha succs j hsuccs (heq ▸ hj)
        obtain rfl := hplan.eq_of_site hs ht (hsite.trans hother.symm)
        cases hedge.symm.trans hnone
    · have hfits := hplan.fits t ht
      rw [hother] at hfits
      exact absurd (hf.inArena _ hfits.1) (Nat.not_lt.mpr hle)

/-- What the entry fires is planned for the function. -/
theorem work_entry {entry : BlockId} (hentry : f.entryBlock? = some entry) :
    (f₁.work entry).flatMap (Stand.firing stands position) =
      (stands.filter fun s => s.planned.site == .entry id).map (·.planned.id) := by
  have hlt := hf.inArena entry (mem_layout_of_entryBlock? hentry)
  rw [h.work_old hf hposition hlt]
  congr 1
  refine List.filter_congr fun s hs => Bool.eq_iff_iff.mpr ?_
  rw [beq_iff_eq, beq_iff_eq]
  constructor
  · intro heq
    have hnone := h.inPlace_of_block_lt hs (heq ▸ hlt)
    obtain ⟨-, hsite⟩ | ⟨block, index, hsite, hsole⟩ := h.inPlace_cases hplan hs hnone
    · exact hsite
    · have hfits := hplan.fits s hs
      have hserves := h.serves s hs
      rw [hsite] at hfits hserves
      cases hserves with
      | target hsuccs hindex =>
        exact absurd ⟨_, hsuccs, List.mem_of_getElem? hindex⟩
          (hroot s.block (heq ▸ hentry) block hfits.1)
      | edge hsome => cases hnone.symm.trans hsome
  · intro hsite
    have hserves := h.serves s hs
    rw [hsite] at hserves
    cases hserves with
    | entry hentry' => exact Option.some.inj (hentry'.symm.trans hentry)

end Instrumented

end Function

namespace Function

variable {hooks : Hooks} {base : Nat} {f f₁ : Function} {stands : List Stand} {s : Stand}
  {position : Nat} {id : FuncId} {b : BlockId} {blk : Block} {k : Nat}

/-- A function carries probes. Those of its instructions that are below the base are the program's,
the others are the work of probes or of splitting landing pads. -/
structure Equipped (hooks : Hooks) (base : Nat) (f : Function) (id : FuncId) (stands : List Stand)
    (f₁ : Function) : Prop extends f.Instrumented hooks stands f₁, f.Planned id stands where
  source : f.Framed
  rooted : f.Rooted
  starts : f₁.entryBlock? = f.entryBlock?
  tidy : f₁.Tidy
  added : ∀ i kind, f.kind i = .ok kind → base ≤ i.index → kind.isPhi = true ∨ kind = .landingPad

namespace Equipped

variable (h : f.Equipped hooks base id stands f₁)
include h

/-- What a live block lists is the program's, starts a block or is a part of a probe. -/
theorem listed_cases {i : InstId} {pos : Nat} {kind : InstKind} (hi : f₁.Listed i b pos)
    (hkind : f₁.kind i = .ok kind) :
    i.index < f.insts.size ∧ (i.index < base ∨ kind.isPhi = true ∨ kind = .landingPad) ∨
      ∃ s ∈ stands, ∃ k, (s.code hooks)[k]? = some kind ∧ i = ⟨s.first + k⟩ := by
  obtain hlt | ⟨s, hs, -, hi⟩ :=
    h.toInstrumented.listed_cases h.source.whole h.source.inArena hi
  · refine .inl ⟨hlt, ?_⟩
    obtain ⟨kind₀, hkind₀⟩ := exists_kind hlt
    obtain ⟨kind₁, hkind₁, hphi, hpad⟩ := h.leads_congr hkind₀
    obtain rfl := Except.ok.inj (hkind.symm.trans hkind₁)
    obtain hprogram | hadded := Nat.lt_or_ge i.index base
    · exact .inl hprogram
    · obtain hphi₀ | rfl := h.added i kind₀ hkind₀ hadded
      · exact .inr (.inl (hphi.trans hphi₀))
      · exact .inr (.inr (Except.ok.inj ((h.kind_eq hkind₀ rfl).symm.trans hkind) ▸ rfl))
  · obtain ⟨k, kind', hk, rfl⟩ := Stand.mem_ids.mp hi
    obtain rfl := Except.ok.inj (hkind.symm.trans (h.code s hs k kind' hk))
    exact .inr ⟨s, hs, k, hk, rfl⟩

/-- The code of a probe is listed in one piece. -/
theorem exists_piece (hs : s ∈ stands) (hb : b ∈ f₁.layout) (hblk : f₁.block b = .ok blk)
    (hblock : s.block = b) : ∃ front back, blk.insts = front ++ s.ids hooks ++ back := by
  subst hblock
  cases hedge : s.edge with
  | some edge =>
    obtain ⟨-, name, succs, target, -, -, hblk₁⟩ := h.new s hs edge.1 edge.2 hedge
    obtain rfl := Except.ok.inj (hblk.symm.trans hblk₁)
    exact ⟨[], [], by simp⟩
  | none =>
    obtain ⟨blk₀, hblk₀⟩ := exists_block (h.block_lt_of_inPlace h.source hs hedge)
    obtain ⟨pos, hpos⟩ := h.source.whole.exists_firstInsertionPoint hblk₀
    obtain ⟨name, hblk₁⟩ := h.old _ blk₀ pos hblk₀ hpos
    obtain rfl := Except.ok.inj (hblk.symm.trans hblk₁)
    have hmem : s ∈ stands.filter fun t => t.block == s.block :=
      List.mem_filter.mpr ⟨hs, beq_self_eq_true s.block⟩
    obtain ⟨before, after, hfilter⟩ := List.append_of_mem hmem
    refine ⟨blk₀.insts.take pos ++ before.flatMap (Stand.ids hooks),
      after.flatMap (Stand.ids hooks) ++ blk₀.insts.drop pos, ?_⟩
    dsimp only
    rw [Stand.idsIn, hfilter]
    simp only [List.flatMap_append, List.flatMap_cons, List.append_assoc]

/-- Within the code of a probe each instruction comes right after the one before it. -/
theorem exists_previous (hs : s ∈ stands) (hb : b ∈ f₁.layout) (hblk : f₁.block b = .ok blk)
    {before insts : List InstId} (hinsts : blk.insts = before ++ ⟨s.first + (k + 1)⟩ :: insts)
    (hk : k + 1 < (s.code hooks).length) : ∃ front, before = front ++ [⟨s.first + k⟩] := by
  have hat : blk.insts[before.length]? = some ⟨s.first + (k + 1)⟩ := by
    rw [hinsts, List.getElem?_append_right le_rfl, Nat.sub_self]
    rfl
  obtain ⟨t, ht, hblock, hmem⟩ : ∃ t ∈ stands, t.block = b ∧ ⟨s.first + (k + 1)⟩ ∈ t.ids hooks := by
    refine (h.toInstrumented.listed_cases h.source.whole h.source.inArena
      ⟨hb, blk, hblk, hat⟩).resolve_left fun hlt => ?_
    have hbound := (h.bounds s hs).1
    dsimp only at hlt
    omega
  obtain ⟨j, kind, hj, heq⟩ := Stand.mem_ids.mp hmem
  obtain rfl := h.eq_of_shared hs ht hk (List.getElem?_eq_some_iff.mp hj).1
    (congrArg InstId.index heq)
  obtain ⟨front, back, hpiece⟩ := h.exists_piece hs hb hblk hblock
  have hplace : ∀ j < (s.code hooks).length,
      blk.insts[front.length + j]? = some ⟨s.first + j⟩ := by
    intro j hj
    have hlength : (s.ids hooks).length = (s.code hooks).length := by simp [Stand.ids]
    rw [hpiece, List.append_assoc, List.getElem?_append_right (Nat.le_add_right _ _),
      Nat.add_sub_cancel_left, List.getElem?_append_left (hlength.symm ▸ hj), Stand.ids,
      List.getElem?_map, List.getElem?_range hj]
    rfl
  have hlength : before.length = front.length + (k + 1) :=
    (List.getElem?_inj (List.getElem?_eq_some_iff.mp hat).1 (h.tidy.nodup b hb blk hblk)).mp
      (hat.trans (hplace (k + 1) hk).symm)
  obtain rfl | ⟨start, last, rfl⟩ := List.eq_nil_or_concat before
  · exact absurd hlength (by simp)
  · have hlast : blk.insts[front.length + k]? = some last := by
      have hstart : front.length + k = start.length := by
        rw [List.concat_eq_append, List.length_append, List.length_singleton] at hlength
        omega
      rw [hinsts, hstart]
      simp
    obtain rfl := Option.some.inj ((hplace k (by omega)).symm.trans hlast)
    exact ⟨start, List.concat_eq_append⟩

/-- Once the program has gone on in a block, no probe is due there any more. -/
theorem due_eq_nil {i : InstId} {kind : InstKind} {before insts : List InstId} (hb : b ∈ f₁.layout)
    (hblk : f₁.block b = .ok blk) (hinsts : blk.insts = before ++ i :: insts)
    (hlt : i.index < f.insts.size) (hkind : f₁.kind i = .ok kind) (hphi : kind.isPhi = false)
    (hpad : kind ≠ .landingPad) :
    (i :: insts).flatMap (Stand.firing stands position) = [] := by
  obtain hold | ⟨s, hs, hedge, rfl⟩ := (h.live b).mp hb
  · obtain ⟨blk₀, hblk₀⟩ := exists_block (h.source.inArena b hold)
    obtain ⟨pos, hpos⟩ := h.source.whole.exists_firstInsertionPoint hblk₀
    obtain ⟨name, hblk₁⟩ := h.old b blk₀ pos hblk₀ hpos
    obtain rfl := Except.ok.inj (hblk.symm.trans hblk₁)
    -- The instruction neither leads the block nor is it part of a probe, so it stands behind those.
    have hnot : i ∉ blk₀.insts.take pos ++ Stand.idsIn hooks stands b := by
      intro hi
      obtain hi | hi := List.mem_append.mp hi
      · obtain ⟨blk', hblk', -, hlead⟩ := firstInsertionPoint_eq_ok hpos
        obtain rfl := Except.ok.inj (hblk'.symm.trans hblk₀)
        obtain ⟨back, -, hall, -⟩ := leading_eq_ok hlead
        obtain ⟨kind₀, hkind₀, hlead₀⟩ := hall i hi
        obtain ⟨kind₁, hkind₁, hphi₁, hpad₁⟩ := h.leads_congr hkind₀
        obtain rfl := Except.ok.inj (hkind.symm.trans hkind₁)
        rw [← hphi₁, ← hpad₁, hphi, Bool.false_or] at hlead₀
        cases kind with
        | landingPad => exact hpad rfl
        | _ => cases hlead₀
      · obtain ⟨s, hs, -, hi⟩ := Stand.mem_idsIn.mp hi
        obtain ⟨j, kind, -, rfl⟩ := Stand.mem_ids.mp hi
        have hbound := (h.bounds s hs).1
        dsimp only at hlt
        omega
    have hsub : ∀ j ∈ i :: insts, j ∈ blk₀.insts := by
      obtain ⟨middle, hfront, hback⟩ | ⟨middle, hfront, hback⟩ := List.append_eq_append_iff.mp hinsts
      · intro j hj
        refine List.mem_of_mem_drop (i := pos) ?_
        rw [hback]
        exact List.mem_append_right _ hj
      · cases middle with
        | nil =>
          intro j hj
          rw [hback] at hj
          exact List.mem_of_mem_drop hj
        | cons first rest =>
          obtain ⟨rfl, -⟩ := List.cons.inj hback
          exact absurd (hfront ▸ by simp) hnot
    exact List.flatMap_eq_nil_iff.mpr fun j hj =>
      h.firing_of_lt (h.source.whole.insts b blk₀ hblk₀ j (hsub j hj))
  · obtain ⟨⟨a, j⟩, hedge⟩ := Option.ne_none_iff_exists'.mp hedge
    obtain ⟨-, name, succs, target, -, -, hblk₁⟩ := h.new s hs a j hedge
    obtain rfl := Except.ok.inj (hblk.symm.trans hblk₁)
    have hi : i ∈ s.ids hooks := by
      rw [show s.ids hooks = before ++ i :: insts from hinsts]
      simp
    obtain ⟨j, kind, -, rfl⟩ := Stand.mem_ids.mp hi
    have hbound := (h.bounds s hs).1
    dsimp only at hlt
    omega

end Equipped

end Function

/-- What is planned for a site of a function is found among its probes. -/
theorem markOf_eq {plan : List PlannedProbe} {id : FuncId} {stands : List Stand}
    (hdistinct : (plan.map (·.site)).Nodup)
    (hplaced : stands.map Stand.planned =
      (plan.filter fun planned => planned.site.function == id).reverse) {site : ProbeSite}
    (hsite : site.function = id) :
    (stands.filter fun s => s.planned.site == site).map (·.planned.id) = markOf plan site := by
  have hmem : ∀ planned, planned ∈ stands.map Stand.planned ↔
      planned ∈ plan ∧ planned.site.function = id := fun planned => by
    rw [hplaced, List.mem_reverse, List.mem_filter, beq_iff_eq]
  have hnodup : (stands.map fun s => s.planned.site).Nodup := by
    have hsites : stands.map (fun s => s.planned.site) = (stands.map Stand.planned).map (·.site) := by
      rw [List.map_map]
      rfl
    rw [hsites, hplaced, List.map_reverse, List.nodup_reverse]
    exact hdistinct.sublist (List.filter_sublist.map _)
  unfold markOf
  cases hfind : plan.find? fun planned => planned.site == site with
  | none =>
    have hnone : (stands.filter fun s => s.planned.site == site) = [] := by
      refine List.filter_eq_nil_iff.mpr fun s hs heq => ?_
      have hplanned := ((hmem s.planned).mp (List.mem_map_of_mem hs)).1
      exact List.find?_eq_none.mp hfind s.planned hplanned heq
    rw [hnone]
    rfl
  | some planned =>
    have hfound := List.find?_some hfind
    rw [beq_iff_eq] at hfound
    obtain ⟨s, hs, rfl⟩ := List.mem_map.mp
      ((hmem planned).mpr ⟨List.mem_of_find?_eq_some hfind, hfound ▸ hsite⟩)
    subst hfound
    rw [filter_eq_singleton_of_nodup (g := fun t : Stand => t.planned.site) hnodup hs]
    rfl

end EdgeProbe
