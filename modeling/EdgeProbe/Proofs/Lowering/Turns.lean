import EdgeProbe.Proofs.Lowering.Recorded
import EdgeProbe.Proofs.Probe.Passes
import EdgeProbe.Proofs.Probe.Stepwise
import EdgeProbe.Proofs.Token.Discipline

/-!
# The turn of a comparison

Normalization leaves tokens alone and marks nothing as a half. After that every comparison that is
worth taking apart has one turn: the constant of an equality is attached to it if it has the length
of a token, and then the comparison is halved or left whole. A halved equality has become a phi, and
what decides it first is the comparison of the upper halves of its operands. That stays so while
other comparisons are halved, and those in turn stay as they are. Main statements:
`Edit.halve_halvesAt` and `Pass.halveCompare_turn`.
-/

namespace EdgeProbe

/-- A comparison of integers of some width. -/
structure Comparison where
  id : InstId
  pred : Predicate
  lhs : Value
  rhs : Value
  width : Nat
  deriving DecidableEq

variable {m : Module} {exempt : BlockId → Prop} {f f' : Function} {x y : Comparison} {c : Cut}
  {join : BlockId} {parts : List Part} {entries : List (Value × BlockId)} {value half : Value}
  {width : Nat} {pred : Predicate} {lhs rhs : Value}

namespace Function

/-- The function has the comparison, and it is worth taking apart. -/
def Has (f : Function) (x : Comparison) : Prop :=
  f.Candidate x.id x.pred x.lhs x.rhs x.width

theorem Has.ext (h : f.Has x) (h' : f.Has y) (hid : x.id = y.id) : x = y := by
  obtain ⟨id, pred, lhs, rhs, width⟩ := x
  obtain ⟨id', pred', lhs', rhs', width'⟩ := y
  obtain rfl : id = id' := hid
  obtain ⟨rfl, rfl, rfl⟩ := InstKind.icmp.inj (Except.ok.inj (h.kind.symm.trans h'.kind))
  obtain rfl : width = width' := Option.some.inj (Except.ok.inj (h.left.symm.trans h'.left))
  rfl

/-- A value is the upper half of one that is twice as wide. -/
def UpperHalf (f : Function) (width : Nat) (value half : Value) : Prop :=
  ∃ bits shifted, half = .inst bits ∧
    f.kind bits = .ok (.cast .trunc (.inst shifted) (width / 2)) ∧
    f.kind shifted = .ok (.binary .lshr value (HalfCode.shift width))

/-- A live phi stands in the place of an equality. It comes out as for different operands where a
condition on the upper halves says so, and else as for the lower ones. -/
def DecidedBy (f : Function) (id : InstId) (pred : Predicate) (upper : InstId) : Prop :=
  ∃ b pos lower source below head name insts, f.Listed id b pos ∧
    f.kind id = .ok (.phi .i1 [(lower, source), (.ofBool (pred == .ne), head)]) ∧
    head ∈ f.layout ∧ f.block head = .ok ⟨name, insts,
      if pred == .eq then .condBr (.inst upper) below b else .condBr (.inst upper) b below⟩

/-- One comparison has been halved, and the other is that of the upper halves of its operands. -/
structure UpperOf (f : Function) (x y : Comparison) : Prop where
  pred : y.pred = x.pred
  width : y.width = x.width / 2
  left : f.UpperHalf x.width x.lhs y.lhs
  right : f.UpperHalf x.width x.rhs y.rhs
  decides : f.DecidedBy x.id x.pred y.id

/-! Tokens are no part of this. -/

section

variable {annotations : Annotations}

theorem has_withAnnotations : ({ f with annotations } : Function).Has x ↔ f.Has x :=
  ⟨Candidate.of_tokens, fun h => Candidate.of_tokens (f := { f with annotations }) h⟩

theorem UpperOf.withAnnotations (h : f.UpperOf x y) :
    ({ f with annotations } : Function).UpperOf x y :=
  ⟨h.pred, h.width, h.left, h.right, h.decides⟩

end

end Function

/-! ## While another comparison is replaced -/

namespace Patched

variable (h : Patched f c join parts .i1 entries f') (hs : f.Sound m exempt) (hc : c.Of f)
  (hsite : f.Compares c.site pred lhs rhs width)
include h hs hc hsite

theorem has_mono (hne : x.id ≠ c.site) (hx : f.Has x) : f'.Has x := by
  obtain ⟨b, pos, hlisted⟩ := hx.listed
  have htypes := h.typesKept hsite.kind rfl
  have hsize := h.opened.sizeInsts
  refine ⟨⟨h.kind_eq hne hx.kind rfl, htypes.intWidth? hsize hx.left,
    htypes.intWidth? hsize hx.right⟩, ⟨_, _, h.listed_mono hs.tidy hc hlisted⟩, ?_⟩
  rw [← hx.magic]
  refine Function.isMagic_congr fun i hi => ?_
  have hbelow := hs.tidy.values_below hlisted hx.kind (.inst i) (by simpa [InstKind.operands] using hi)
  obtain ⟨k, hk⟩ := Function.exists_kind (f := f) (by simpa using hbelow)
  exact h.isCall_kept hsite.kind rfl hk

omit hs hc in
theorem upperHalf_mono {w : Nat} (hhalf : f.UpperHalf w value half) : f'.UpperHalf w value half := by
  obtain ⟨bits, shifted, heq, hbits, hshifted⟩ := hhalf
  have hne : ∀ i k, f.kind i = .ok k → k.comparison? = none → i ≠ c.site := by
    rintro i k hk hnot rfl
    obtain rfl := Except.ok.inj (hsite.kind.symm.trans hk)
    cases hnot
  exact ⟨bits, shifted, heq, h.kind_eq (hne _ _ hbits rfl) hbits rfl,
    h.kind_eq (hne _ _ hshifted rfl) hshifted rfl⟩

omit hsite in
/-- The end of a block is found where the sources of phis name it. -/
theorem end_kept {b : BlockId} {name : String} {insts : List InstId} {term : Terminator}
    (hb : b ∈ f.layout) (hblk : f.block b = .ok ⟨name, insts, term⟩) :
    c.rename join b ∈ f'.layout ∧
      ∃ name' insts', f'.block (c.rename join b) = .ok ⟨name', insts', term⟩ := by
  unfold Cut.rename
  split
  · next hhead =>
    subst hhead
    obtain ⟨name', htail⟩ := h.opened.tail
    obtain ⟨-, -, rfl⟩ := Block.mk.inj (Except.ok.inj (hblk.symm.trans hc.block))
    exact ⟨(h.opened.layout join).mpr (.inr (.inl rfl)), name', _, htail⟩
  · next hhead =>
    refine ⟨(h.opened.layout b).mpr (.inl hb), name, insts, ?_⟩
    rw [h.opened.block_kept hs.tidy.closed hb hhead, hblk]

theorem decidedBy_mono {id upper : InstId} {pred₀ : Predicate} (hid : f.DecidedBy id pred₀ upper) :
    f'.DecidedBy id pred₀ upper := by
  obtain ⟨b, pos, lower, source, below, head, name, insts, hlisted, hphi, hhead, hblk⟩ := hid
  have hphi' := h.phi_eq hs hc hsite.kind rfl hlisted hphi
  have hlisted' := h.listed_mono hs.tidy hc hlisted
  -- The phi leads its block, so that the cut is behind it.
  have hfront := hc.front_of_leads hsite.kind rfl hlisted (Cut.ne_site hsite.kind rfl hphi)
    (hs.tidy.phisLead id b pos _ _ hlisted hphi)
  rw [Cut.place, if_neg hfront] at hlisted'
  obtain ⟨hhead', name', insts', hblk'⟩ := h.end_kept hs hc hhead hblk
  exact ⟨b, pos, lower, _, below, _, name', insts', hlisted', hphi', hhead', hblk'⟩

theorem upperOf_mono (hxy : f.UpperOf x y) : f'.UpperOf x y where
  pred := hxy.pred
  width := hxy.width
  left := h.upperHalf_mono hsite hxy.left
  right := h.upperHalf_mono hsite hxy.right
  decides := h.decidedBy_mono hs hc hsite hxy.decides

end Patched

/-! ## The comparison that is halved -/

namespace HalfCode

variable {code : HalfCode} (h : Patched f c join (code.equalityParts c join pred lhs rhs width) .i1
  (code.equalityEntries c pred) f')
include h

/-- The comparison of the upper halves. -/
def upper (code : HalfCode) (pred : Predicate) (width : Nat) : Comparison :=
  ⟨code.high, pred, .inst code.high0, .inst code.high1, width / 2⟩

theorem listed_site : f'.Listed c.site join 0 := by
  obtain ⟨name, htail⟩ := h.opened.tail
  exact ⟨(h.opened.layout join).mpr (.inr (.inl rfl)), _, htail, rfl⟩

theorem has_upper : f'.Has (code.upper pred width) := by
  have hreads : code.Reads f' pred lhs rhs width :=
    .of_parts h List.mem_cons_self (by simp [equalityParts])
  refine ⟨⟨hreads.high, Function.intWidth?_of_fixedType? hreads.high0 rfl,
    Function.intWidth?_of_fixedType? hreads.high1 rfl⟩, ?_, rfl⟩
  obtain ⟨name, hblock⟩ := h.opened.part _ List.mem_cons_self
  have hmem : code.high ∈ (code.head c pred lhs rhs width (code.decideEquality join pred)).old ++
      (code.head c pred lhs rhs width (code.decideEquality join pred)).insts.map (·.1) := by
    simp [head]
  obtain ⟨pos, hlisted⟩ := Function.Tidy.listed_of_mem
    (h.mem_layout_of_part List.mem_cons_self) hblock hmem
  exact ⟨_, pos, hlisted⟩

theorem upperOf_upper :
    f'.UpperOf ⟨c.site, pred, lhs, rhs, width⟩ (code.upper pred width) := by
  have hreads : code.Reads f' pred lhs rhs width :=
    .of_parts h List.mem_cons_self (by simp [equalityParts])
  refine ⟨rfl, rfl, ⟨_, _, rfl, hreads.high0, hreads.shifted0⟩,
    ⟨_, _, rfl, hreads.high1, hreads.shifted1⟩, ?_⟩
  obtain ⟨name, hblock⟩ := h.opened.part _ List.mem_cons_self
  exact ⟨join, 0, _, _, code.low, c.head, name, _, listed_site h, h.opened.site,
    h.mem_layout_of_part List.mem_cons_self, hblock⟩

end HalfCode

/-- What the halving of a comparison does to others and to tokens. -/
structure Function.HalvesAt (f : Function) (y : Comparison) (f' : Function) : Prop where
  others : ∀ x, x.id ≠ y.id → f.Has x → f'.Has x
  news : ∀ x, f'.Has x → x.id ≠ y.id ∧ f.Has x ∨ Pass.comparedBytes? x.lhs x.rhs = none
  uppers : ∀ x x', f.UpperOf x x' → f'.UpperOf x x'
  marks : ∀ i inst, f.inst i = .ok inst → ∃ inst', f'.inst i = .ok inst' ∧ inst'.split = inst.split
  equality : y.pred.isEquality = true → ∃ y', f.insts.size ≤ y'.id.index ∧ f'.Has y' ∧
    f'.UpperOf y y' ∧ f'.annotations = f.annotations.moveOrigin y.id y'.id .comparedInteger
  order : y.pred.isEquality = false → f'.annotations = f.annotations

theorem Patched.news (h : Patched f c join parts .i1 entries f') (hs : f.Sound m exempt)
    (hc : c.Of f) (hsite : f.Compares c.site pred lhs rhs width)
    (hgiven : ∀ p ∈ parts, ∀ i pred' lhs' rhs', (i, .icmp pred' lhs' rhs') ∈ p.insts →
      Pass.comparedBytes? lhs' rhs' = none) (hx : f'.Has x) :
    x.id ≠ c.site ∧ f.Has x ∨ Pass.comparedBytes? x.lhs x.rhs = none := by
  refine (h.candidate_cases hs hc hsite hx).imp_right ?_
  rintro ⟨p, hp, hentry⟩
  exact hgiven p hp _ _ _ _ hentry

theorem Edit.halve_halvesAt (hs : f.Sound m exempt) (hy : f.Has y) {u : Unit}
    (h : (halve y.width y.id y.pred y.lhs y.rhs).Does f u f') : f.HalvesAt y f' := by
  have hf := hs.tidy
  obtain ⟨b, pos, hid⟩ := hy.listed
  have hsite := hy.toCompares
  have hmarks : ∀ i inst, f.inst i = .ok inst →
      ∃ inst', f'.inst i = .ok inst' ∧ inst'.split = inst.split :=
    fun i inst => Function.halve_marks hf hid hy.kind h
  cases hequality : y.pred.isEquality with
  | true =>
    obtain ⟨c, join, code, hc, hcsite, hlow, hnew, hopened, htokens⟩ :=
      halve_opened_equality hf hid hy.kind hequality h
    rw [← hcsite] at hsite
    obtain ⟨hlhs, hrhs⟩ := hsite.below hf hc.listed_site
    have hpatched := HalfCode.patched_equality hopened hc hlow hnew hlhs hrhs
    refine ⟨fun x hne => hpatched.has_mono hs hc hsite (hcsite ▸ hne), fun x hx => ?_,
      fun x x' => hpatched.upperOf_mono hs hc hsite, hmarks, fun _ => ?_, fun hnot => ?_⟩
    · rw [← hcsite]
      refine hpatched.news hs hc hsite (fun p hp i pred' lhs' rhs' hentry => ?_) hx
      simp only [HalfCode.equalityParts, List.mem_cons, List.not_mem_nil, or_false] at hp
      obtain rfl | rfl := hp
      · simp [HalfCode.head] at hentry
        obtain ⟨-, -, rfl, rfl⟩ := hentry
        rfl
      · simp [HalfCode.lowPart] at hentry
        obtain ⟨-, -, rfl, rfl⟩ := hentry
        rfl
    · have hupper := HalfCode.upperOf_upper hpatched
      rw [hcsite] at hupper
      refine ⟨code.upper y.pred y.width, ?_, HalfCode.has_upper hpatched, hupper, htokens⟩
      obtain ⟨h0, h1, h2, h3, h4, -, -, -, -⟩ := hnew
      change f.insts.size ≤ code.high.index
      omega
    · rw [hequality] at hnot
      cases hnot
  | false =>
    obtain ⟨c, join, block, inverse, code, hc, hcsite, hlow, hblock, hne, hafter, hbefore, hnew,
      hopened, htokens⟩ := halve_opened_order hf hid hy.kind hequality h
    rw [← hcsite] at hsite
    obtain ⟨hlhs, hrhs⟩ := hsite.below hf hc.listed_site
    have hpatched := HalfCode.patched_order hopened hc hlow hblock hbefore hnew hlhs hrhs
    refine ⟨fun x hne => hpatched.has_mono hs hc hsite (hcsite ▸ hne), fun x hx => ?_,
      fun x x' => hpatched.upperOf_mono hs hc hsite, hmarks, fun hyes => ?_, fun _ => htokens⟩
    · rw [← hcsite]
      refine hpatched.news hs hc hsite (fun p hp i pred' lhs' rhs' hentry => ?_) hx
      simp only [HalfCode.orderParts, List.mem_cons, List.not_mem_nil, or_false] at hp
      obtain rfl | rfl | rfl := hp
      · simp [HalfCode.head] at hentry
        obtain ⟨-, -, rfl, rfl⟩ := hentry
        rfl
      · simp [HalfCode.inversePart] at hentry
        obtain ⟨-, -, rfl, rfl⟩ := hentry
        rfl
      · simp [HalfCode.lowPart] at hentry
        obtain ⟨-, -, rfl, rfl⟩ := hentry
        rfl
    · rw [hequality] at hyes
      cases hyes

end EdgeProbe

namespace EdgeProbe

variable {m : Module} {exempt : BlockId → Prop} {f f₁ f' : Function} {x y : Comparison}
  {config : Config} {limits : Limits}

/-! ## Before halving -/

namespace Function

/-- No token has come or gone, and no instruction has been marked as a half. -/
structure NotesKept (f f' : Function) : Prop where
  tokens : f'.annotations = f.annotations
  marks : ∀ i inst', f'.inst i = .ok inst' → inst'.split = true →
    ∃ inst, f.inst i = .ok inst ∧ inst.split = true

theorem NotesKept.refl (f : Function) : f.NotesKept f :=
  ⟨rfl, fun _ inst hinst hmark => ⟨inst, hinst, hmark⟩⟩

theorem NotesKept.trans (h : f.NotesKept f₁) (h' : f₁.NotesKept f') : f.NotesKept f' where
  tokens := h'.tokens.trans h.tokens
  marks i inst' hinst' hmark := by
    obtain ⟨inst, hinst, hmark⟩ := h'.marks i inst' hinst' hmark
    exact h.marks i inst hinst hmark

theorem notesKept_modifyBlock {b : BlockId} {change : Block → Block}
    (h : f.modifyBlock b change = .ok f') : f.NotesKept f' := by
  obtain ⟨-, rfl⟩ := modifyBlock_eq_ok.mp h
  exact ⟨rfl, fun _ inst hinst hmark => ⟨inst, hinst, hmark⟩⟩

theorem notesKept_modifyInst {id : InstId} {change : Inst → Inst}
    (hchange : ∀ inst, (change inst).split = inst.split) (h : f.modifyInst id change = .ok f') :
    f.NotesKept f' := by
  obtain ⟨-, rfl⟩ := modifyInst_eq_ok.mp h
  refine ⟨rfl, fun i inst' hinst' hmark => ?_⟩
  rw [inst_withInst] at hinst'
  split at hinst'
  · obtain ⟨inst, hinst, rfl⟩ := Checked.map_eq_ok.mp hinst'
    exact ⟨inst, hinst, (hchange inst).symm.trans hmark⟩
  · exact ⟨inst', hinst', hmark⟩

theorem notesKept_withNewBlock (f : Function) (name : String) (pos : Nat) :
    f.NotesKept (f.withNewBlock name pos) :=
  ⟨rfl, fun _ inst hinst hmark => ⟨inst, hinst, hmark⟩⟩

theorem notesKept_insertInst {b : BlockId} {pos : Nat} {kind : InstKind} {name : String}
    {loc : Option DebugLoc} {id : InstId} (h : f.insertInst b pos kind name loc = .ok (f', id)) :
    f.NotesKept f' := by
  obtain ⟨f₁, hf₁, h⟩ := Checked.bind_eq_ok.mp h
  obtain ⟨rfl, rfl⟩ := Prod.mk.inj (Checked.pure_eq_ok.mp h)
  obtain ⟨-, rfl⟩ := modifyBlock_eq_ok.mp hf₁
  refine ⟨rfl, fun i inst' hinst' hmark => ?_⟩
  have hget : (f.insts.push { kind, name, loc, block := some b })[i.index]? = some inst' :=
    inst_eq_ok.mp hinst'
  rw [Array.getElem?_push] at hget
  split at hget
  · obtain rfl := Option.some.inj hget
    cases hmark
  · exact ⟨inst', inst_eq_ok.mpr hget, hmark⟩

theorem notesKept_splitBlock {b tail : BlockId} {pos : Nat} {name : String}
    (h : f.splitBlock b pos name = .ok (f', tail)) : f.NotesKept f' := by
  have hadd : f.NotesKept (f.addBlock name (some b)).1 := f.notesKept_withNewBlock name _
  obtain ⟨blk, -, h⟩ := Checked.bind_eq_ok.mp h
  obtain ⟨f₁, hf₁, h⟩ := Checked.bind_eq_ok.mp h
  obtain ⟨f₂, hf₂, h⟩ := Checked.bind_eq_ok.mp h
  obtain ⟨f₃, hf₃, h⟩ := Checked.bind_eq_ok.mp h
  obtain ⟨f₄, hf₄, h⟩ := Checked.bind_eq_ok.mp h
  obtain ⟨rfl, -⟩ := Prod.mk.inj (Checked.pure_eq_ok.mp h)
  have hown : NotesKept _ f₁ := Checked.related_of_foldlM (r := NotesKept) .refl .trans
    (fun _ _ _ => notesKept_modifyInst (by exact fun _ => rfl)) hf₁
  have hrenamed : NotesKept f₃ f₄ := by
    refine Checked.related_of_foldlM (r := NotesKept) .refl .trans (fun _ _ _ hf => ?_) hf₄
    obtain ⟨phis, -, hf⟩ := Checked.bind_eq_ok.mp hf
    exact Checked.related_of_foldlM (r := NotesKept) .refl .trans
      (fun _ _ _ => notesKept_modifyInst (by exact fun _ => rfl)) hf
  exact hadd.trans (hown.trans ((notesKept_modifyBlock hf₂).trans
    ((notesKept_modifyBlock hf₃).trans hrenamed)))

instance : OfSteps NotesKept where
  refl := .refl
  trans := .trans
  block _ := notesKept_modifyBlock
  inst hchange := notesKept_modifyInst fun inst => (hchange inst).2
  addBlockBefore f name _ := f.notesKept_withNewBlock name _
  insertInst := notesKept_insertInst
  splitBlock := notesKept_splitBlock

end Function

/-- Every function is still there, and related to what it was. -/
def Module.Each (R : Function → Function → Prop) (m m' : Module) : Prop :=
  ∀ id f, m.function id = .ok f → ∃ f', m'.function id = .ok f' ∧ R f f'

instance {R : Function → Function → Prop} [Function.OfSteps R] : Module.OfSteps R (Module.Each R) where
  refl _ _ f hid := ⟨f, hid, Function.OfRuns.refl f⟩
  trans h h' id f hid := by
    obtain ⟨f₁, hid₁, hf₁⟩ := h id f hid
    obtain ⟨f', hid', hf'⟩ := h' id f₁ hid₁
    exact ⟨f', hid', Function.OfRuns.trans hf₁ hf'⟩
  setFunction hid hR i g hi := by
    rw [Module.function_setFunction (Module.index_lt_of_function hid)]
    split
    · next heq =>
      subst heq
      obtain rfl := Except.ok.inj (hid.symm.trans hi)
      exact ⟨_, rfl, hR⟩
    · exact ⟨g, hi, Function.OfRuns.refl g⟩
  globals _ _ _ f hid := ⟨f, hid, Function.OfRuns.refl f⟩
  declared _ _ _ _ _ f hid := ⟨f, Module.function_addFunction hid _, Function.OfRuns.refl f⟩

/-! ## The comparisons of a round -/

namespace Function

theorem Sound.nodup_liveInsts (hs : f.Sound m exempt) {ids : List InstId}
    (h : f.liveInsts = .ok ids) : ids.Nodup := by
  obtain ⟨lists, hlists, rfl⟩ := liveInsts_eq_ok.mp h
  have hflat : ∀ {blocks : List BlockId} {lists : List (List InstId)},
      List.Forall₂ (fun b insts => (f.block b).map Block.insts = .ok insts) blocks lists →
        blocks ⊆ f.layout → blocks.Nodup → lists.flatten.Nodup := by
    intro blocks lists h
    induction h with
    | nil => exact fun _ _ => List.nodup_nil
    | @cons b insts blocks lists hinsts hrest ih =>
      intro hlive hnodup
      obtain ⟨hnotin, hnodup⟩ := List.nodup_cons.mp hnodup
      obtain ⟨hb, hlive⟩ := List.cons_subset.mp hlive
      obtain ⟨blk, hblk, rfl⟩ := Checked.map_eq_ok.mp hinsts
      rw [List.flatten_cons]
      refine (hs.tidy.nodup b hb blk hblk).append (ih hlive hnodup) fun id hid hid' => ?_
      -- An instruction stands in one block only.
      obtain ⟨insts', hmem, hid'⟩ := List.mem_flatten.mp hid'
      obtain ⟨b', hb', hinsts'⟩ := Checked.exists_member (Checked.mapM_eq_ok.mpr hrest) hmem
      obtain ⟨blk', hblk', rfl⟩ := Checked.map_eq_ok.mp hinsts'
      obtain ⟨pos, hlisted⟩ := Tidy.listed_of_mem hb hblk hid
      obtain ⟨pos', hlisted'⟩ := Tidy.listed_of_mem (hlive hb') hblk' hid'
      obtain ⟨rfl, -⟩ := hs.tidy.listed_unique hlisted hlisted'
      exact hnotin hb'
  exact hflat (Checked.mapM_eq_ok.mp hlists) (List.Subset.refl _) hs.layout

/-- Each of them is found once. -/
theorem Sound.nodup_candidates (hs : f.Sound m exempt) {preds : List Predicate}
    {sites : List (InstId × Nat)} (h : f.candidates preds = .ok sites) :
    (sites.map Prod.fst).Nodup := by
  obtain ⟨ids, hids, h⟩ := Checked.bind_eq_ok.mp h
  obtain ⟨found, hfound, h⟩ := Checked.bind_eq_ok.mp h
  obtain rfl := Checked.pure_eq_ok.mp h
  have hsublist : ∀ {ids : List InstId} {found : List (List (InstId × Nat))},
      List.Forall₂ (fun id sites => (do
        return ((← f.candidateWidth? preds id).map (id, ·)).toList : Checked _) = .ok sites)
        ids found → (found.flatten.map Prod.fst).Sublist ids := by
    intro ids found h
    induction h with
    | nil => exact .slnil
    | @cons id sites ids found hsites _ ih =>
      obtain ⟨width, -, hsites⟩ := Checked.bind_eq_ok.mp hsites
      obtain rfl := Checked.pure_eq_ok.mp hsites
      cases width with
      | none => exact ih.cons _
      | some width => exact ih.cons_cons _
  exact (hs.nodup_liveInsts hids).sublist (hsublist (Checked.mapM_eq_ok.mp hfound))

end Function

/-! ## One turn -/

/-- The token that an equality with a constant yields. -/
def Comparison.token? (limits : Limits) (x : Comparison) : Option String :=
  if x.pred.isEquality then
    (Pass.comparedBytes? x.lhs x.rhs).bind (Token.encode? limits false)
  else none

theorem Comparison.token?_eq_some {value : String} :
    x.token? limits = some value ↔ x.pred.isEquality = true ∧ ∃ bytes,
      Pass.comparedBytes? x.lhs x.rhs = some bytes ∧
        Token.encode? limits false bytes = some value := by
  simp [token?, Option.bind_eq_some_iff]

namespace Function

/-- A comparison has been given the token that it yields, if it does. -/
inductive Records (limits : Limits) (y : Comparison) (f f' : Function) : Prop
  | token {value provenance : String} (hvalue : y.token? limits = some value)
    (h : f' = { f with annotations := (f.annotations.modify y.id
      (Annotations.withInteger { value, provenance, origin := .comparedInteger })) })
  | none (hnone : y.token? limits = none) (h : f' = f)

theorem Records.code (h : f.Records limits y f') :
    ∃ annotations, f' = { f with annotations } := by
  cases h with
  | token hvalue h => exact ⟨_, h⟩
  | none hnone h => exact ⟨f.annotations, h⟩

theorem Records.splitFrom (h : f.Records limits y f') (hf : f.Tidy) (hy : f.Has y) :
    f.SplitFrom f' := by
  cases h with
  | none hnone h =>
    rw [h]
    exact .refl hf
  | token hvalue h =>
    refine (SplitFrom.refl hf).tail (.tokens h fun i hi => ?_)
    rw [h] at hi ⊢
    by_cases heq : i = y.id
    · have hlt := index_lt_of_kind hy.kind
      exact .inr (heq ▸ hlt)
    · rw [Annotations.get_modify, if_neg heq] at hi
      exact .inl hi

/-- The turn of a comparison. -/
inductive Turn (config : Config) (y : Comparison) (f f' : Function) : Prop
  | whole (hfirst : f.Records config.limits y f') (hwhole : config.convert ≠ .all ∨ y.width ≤ 8)
  | halved {f₁ : Function} (hfirst : f.Records config.limits y f₁) (hwidth : 8 < y.width)
    (hspared : config.convert ≠ .all →
      y.pred.isEquality = true → Pass.comparedBytes? y.lhs y.rhs = none)
    (h : (Edit.halve y.width y.id y.pred y.lhs y.rhs).Does f₁ () f')

end Function

namespace Pass

variable {s s' : PassState} {id : FuncId}

theorem recordCompared_records (hpred : y.pred.isEquality = true)
    (hid : s.module.function id = .ok f) {recorded : Bool}
    (h : (recordCompared config id y.id y.lhs y.rhs).Does s recorded s') :
    ∃ f', s'.module = s.module.setFunction id f' ∧ f.Records config.limits y f' ∧
      (recorded = false → comparedBytes? y.lhs y.rhs = none) := by
  have hself := (Module.setFunction_self hid).symm
  unfold recordCompared at h
  split at h
  · next hbytes =>
    obtain ⟨rfl, rfl⟩ := does_pure.mp h
    exact ⟨f, hself, .none (by simp [Comparison.token?, hbytes]) rfl, fun _ => hbytes⟩
  next bytes hbytes =>
  obtain ⟨provenance, s₁, hquery, h⟩ := does_bind.mp h
  obtain ⟨-, rfl⟩ := does_query.mp hquery
  split at h
  · next token htoken =>
    obtain ⟨u, s₂, hattach, h⟩ := does_bind.mp h
    obtain ⟨rfl, rfl⟩ := does_pure.mp h
    obtain ⟨f₁, f', hid₁, hdoes, rfl⟩ := does_inFunction.mp hattach
    obtain rfl := Except.ok.inj (hid.symm.trans hid₁)
    obtain ⟨value, hvalue, rfl⟩ := Option.map_eq_some_iff.mp htoken
    have hyields : y.token? config.limits = some value :=
      Comparison.token?_eq_some.mpr ⟨hpred, bytes, hbytes, hvalue⟩
    exact ⟨f', rfl, .token hyields (Edit.does_attach_single rfl hdoes), nofun⟩
  · next htoken =>
    obtain ⟨u, s₂, hreport, h⟩ := does_bind.mp h
    obtain ⟨rfl, rfl⟩ := does_pure.mp h
    have hnone : Token.encode? config.limits false bytes = none := Option.map_eq_none_iff.mp htoken
    exact ⟨f, (module_of_report hreport).trans hself,
      .none (by simp [Comparison.token?, hbytes, hnone]) rfl, nofun⟩

/-- Whether a comparison is recorded and whether it is halved. One with a constant has to be of the
program's own. -/
theorem halveCompare_turn (hid : s.module.function id = .ok f) (hy : f.Has y)
    (hown : comparedBytes? y.lhs y.rhs ≠ none → ∃ inst, f.inst y.id = .ok inst ∧ inst.split = false)
    {done : Halving} (h : (halveCompare config id y.width y.id).Does s done s') :
    ∃ f', s'.module = s.module.setFunction id f' ∧ f.Turn config y f' := by
  have hself := (Module.setFunction_self hid).symm
  unfold halveCompare at h
  obtain ⟨inst, s₁, hquery, h⟩ := does_bind.mp h
  obtain ⟨hinst, rfl⟩ := does_query.mp hquery
  obtain ⟨f₀, hid₀, hinst⟩ := Checked.bind_eq_ok.mp hinst
  obtain rfl := Except.ok.inj (hid.symm.trans hid₀)
  have hkind : inst.kind = .icmp y.pred y.lhs y.rhs :=
    Except.ok.inj ((Function.kind_eq_ok.mpr ⟨inst, hinst, rfl⟩).symm.trans hy.kind)
  rw [hkind] at h
  simp only [InstKind.comparison?] at h
  -- What follows once the comparison has been recorded or not.
  have hrest : ∀ recorded s₂ f₁, s₂.module = s.module.setFunction id f₁ →
      f.Records config.limits y f₁ →
      (recorded = false → y.pred.isEquality = true → comparedBytes? y.lhs y.rhs = none) →
      (if (recorded && config.convert != .all) = true then pure { recorded }
        else if (config.convert == .none || decide (y.width ≤ 8)) = true then pure { recorded }
        else do
          let name := (← query (·.function id)).name
          debug ("splitting " ++ toString y.width ++ "-bit " ++ y.pred.mnemonic ++ " in " ++ name)
          Pass.inFunction id (Edit.halve y.width y.id y.pred y.lhs y.rhs)
          pure { recorded, halved := !inst.split } : Pass Halving).Does s₂ done s' →
      ∃ f', s'.module = s.module.setFunction id f' ∧ f.Turn config y f' := by
    intro recorded s₂ f₁ hs₂ hrecords hrecorded h
    split at h
    · next hleft =>
      obtain ⟨-, rfl⟩ := does_pure.mp h
      rw [Bool.and_eq_true, bne_iff_ne] at hleft
      exact ⟨f₁, hs₂, .whole hrecords (.inl hleft.2)⟩
    next hgone =>
    split at h
    · next hwhole =>
      obtain ⟨-, rfl⟩ := does_pure.mp h
      rw [Bool.or_eq_true, beq_iff_eq, decide_eq_true_eq] at hwhole
      refine ⟨f₁, hs₂, .whole hrecords (hwhole.imp_left fun hnone hall => ?_)⟩
      rw [hnone] at hall
      cases hall
    next hgo =>
    obtain ⟨f₂, s₃, hquery, h⟩ := does_bind.mp h
    obtain ⟨-, rfl⟩ := does_query.mp hquery
    obtain ⟨u, s₄, hreport, h⟩ := does_bind.mp h
    obtain ⟨v, s₅, hhalve, h⟩ := does_bind.mp h
    obtain ⟨-, rfl⟩ := does_pure.mp h
    obtain ⟨f₃, f', hid₃, hdoes, rfl⟩ := does_inFunction.mp hhalve
    rw [module_of_report hreport, hs₂,
      Module.function_setFunction (Module.index_lt_of_function hid),
      if_pos rfl] at hid₃
    obtain rfl := Except.ok.inj hid₃
    rw [Bool.or_eq_true, decide_eq_true_eq, not_or] at hgo
    refine ⟨f', ?_, .halved hrecords (Nat.lt_of_not_le hgo.2) (fun hconvert hpred => ?_) hdoes⟩
    · dsimp only
      rw [module_of_report hreport, hs₂, Module.setFunction_setFunction]
    · refine hrecorded ?_ hpred
      rw [Bool.and_eq_true, bne_iff_ne, not_and] at hgone
      exact Bool.eq_false_iff.mpr fun hrecorded => hgone hrecorded hconvert
  split at h
  · next hask =>
    obtain ⟨recorded, s₂, hrecord, h⟩ := does_bind.mp h
    rw [Bool.and_eq_true, Bool.not_eq_true'] at hask
    obtain ⟨f₁, hs₂, hrecords, hnone⟩ := recordCompared_records hask.2 hid hrecord
    exact hrest recorded s₂ f₁ hs₂ hrecords (fun hrecorded _ => hnone hrecorded) h
  · next hask =>
    obtain ⟨recorded, s₂, hpure, h⟩ := does_bind.mp h
    obtain ⟨rfl, rfl⟩ := does_pure.mp hpure
    -- A half is not asked, but has no constant either.
    have hnone : y.pred.isEquality = true → comparedBytes? y.lhs y.rhs = none := by
      intro hpred
      by_contra hbytes
      obtain ⟨inst', hinst', hmark⟩ := hown hbytes
      obtain rfl := Except.ok.inj (hinst.symm.trans hinst')
      simp [hpred, hmark] at hask
    refine hrest false s f hself (.none ?_ rfl) (fun _ => hnone) h
    unfold Comparison.token?
    split
    · next hpred => rw [hnone hpred, Option.bind_none]
    · rfl

end Pass

end EdgeProbe
