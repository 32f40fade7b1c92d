import EdgeProbe.Lowering.Chain
import EdgeProbe.Proofs.Code.Replaced
import EdgeProbe.Proofs.Machine.Leads

/-!
# Steps of taking an instruction apart

What each step of putting a chain of blocks in the place of an instruction does to the parts of the
function that has been cut there.
-/

namespace EdgeProbe

variable {f f₁ f₂ : Function} {c : Cut} {join b : BlockId} {parts : List Part} {now : InstKind}
  {l : Label} {name : String}

namespace Edit

theorem labelFor_does {stem : String} {id : InstId} (h : (labelFor stem id).Does f l f₁) :
    f₁ = f := by
  obtain ⟨inst, f₂, hinst, h⟩ := does_bind.mp h
  obtain ⟨-, rfl⟩ := does_query.mp hinst
  exact (does_pure.mp h).2.symm

theorem kind_does {id : InstId} {k : InstKind} : (kind id).Does f k f₁ ↔ f.kind id = .ok k ∧ f = f₁ :=
  does_query

/-- Splitting the block of a live instruction that is not a phi cuts the function there. -/
theorem splitAt_does (hf : f.Tidy) {id : InstId} {b : BlockId} {pos : Nat}
    (hid : f.Listed id b pos) {k : InstKind} (hkind : f.kind id = .ok k) (hphi : k.isPhi = false)
    {r : Option (BlockId × BlockId)} (h : (splitAt l id name).Does f r f₁) :
    ∃ c join, r = some (c.head, join) ∧ c.site = id ∧ c.Of f ∧
      Opened f c join [{ block := c.head, old := c.before, term := .br join }] k f₁ ∧
      f₁.insts.size = f.insts.size := by
  obtain ⟨found, f₂, hquery, h⟩ := does_bind.mp h
  obtain ⟨hfound, rfl⟩ := does_query.mp hquery
  obtain rfl := Except.ok.inj ((hf.position?_eq hid).symm.trans hfound)
  obtain ⟨join, f₃, hsplit, h⟩ := does_bind.mp h
  obtain ⟨rfl, rfl⟩ := does_pure.mp h
  obtain ⟨hb, blk, hblk, hpos⟩ := hid
  have hsplit' := Function.splitBlock_eq_ok hb hblk (fun s hs =>
    hf.closed.inArena s (hf.live_of_mem_successors hb hblk s hs)) (does_apply.mp hsplit)
  exact ⟨_, join, rfl, rfl, Function.cutAt_of hb hblk hpos,
    hsplit'.opened hf.closed hb hpos hblk hkind hphi, hsplit'.sizeInsts⟩

theorem emit_does (h : Opened f c join parts now f₁) (hc : c.Of f) (hb : b ∈ parts.map Part.block)
    {k : InstKind} {id : InstId} (hdoes : (emit l b k name).Does f₁ id f₂) :
    Opened f c join (Part.emit b (id, k) parts) now f₂ ∧ id.index = f₁.insts.size ∧
      f₂.insts.size = f₁.insts.size + 1 := by
  obtain ⟨rfl, rfl⟩ := Function.pushInst_eq_ok (does_apply.mp hdoes)
  refine ⟨?_, rfl, Function.size_insts_withNewInst _ _ _⟩
  have hinst : ({ kind := k, name := l.stem ++ name, loc := l.loc, block := some b } : Inst).block =
    some b := rfl
  exact h.emit hc hb hinst

theorem emitValue_does (h : Opened f c join parts now f₁) (hc : c.Of f)
    (hb : b ∈ parts.map Part.block) {k : InstKind} {value : Value}
    (hdoes : (emitValue l b k name).Does f₁ value f₂) :
    ∃ id, value = .inst id ∧ Opened f c join (Part.emit b (id, k) parts) now f₂ ∧
      id.index = f₁.insts.size ∧ f₂.insts.size = f₁.insts.size + 1 := by
  obtain ⟨id, f₃, hemit, hdoes⟩ := does_bind.mp hdoes
  obtain ⟨rfl, rfl⟩ := does_pure.mp hdoes
  exact ⟨id, rfl, emit_does h hc hb hemit⟩

/-- The bits of a value from some position on are found by a shift and a truncation. -/
theorem emitBits_does (h : Opened f c join parts now f₁) (hc : c.Of f)
    (hb : b ∈ parts.map Part.block) {value shift result : Value} {count : Nat} {name' : String}
    (hdoes : (do
      let shifted ← emitValue l b (.binary .lshr value shift) name
      emitValue l b (.cast .trunc shifted count) name' : Edit Value).Does f₁ result f₂) :
    ∃ shifted bits, result = .inst bits ∧ shifted.index = f₁.insts.size ∧
      bits.index = shifted.index + 1 ∧ f₂.insts.size = bits.index + 1 ∧
      Opened f c join (Part.emit b (bits, .cast .trunc (.inst shifted) count)
        (Part.emit b (shifted, .binary .lshr value shift) parts)) now f₂ := by
  rw [does_bind] at hdoes
  obtain ⟨shifted, f₃, hshift, hdoes⟩ := hdoes
  obtain ⟨shifted, rfl, hopened, hshifted, hsize⟩ := emitValue_does h hc hb hshift
  obtain ⟨bits, rfl, hopened, hbits, hsize'⟩ := emitValue_does hopened hc (by simpa using hb) hdoes
  exact ⟨shifted, bits, rfl, hshifted, by omega, by omega, hopened⟩

theorem blockBefore_does (h : Opened f c join parts now f₁) (hf : f.Closed)
    (hdoes : (blockBefore l name join).Does f₁ b f₂) :
    Opened f c join (parts ++ [{ block := b }]) now f₂ ∧ f₂.insts.size = f₁.insts.size ∧
      b ∉ parts.map Part.block := by
  have hadd := Except.ok.inj (does_apply.mp hdoes)
  have hopened := h.addBefore hf (l.stem ++ name)
  rw [hadd] at hopened
  refine ⟨hopened, ?_, ?_⟩
  · rw [Function.addBlockBefore_eq] at hadd
    obtain ⟨rfl, -⟩ := Prod.mk.inj hadd
    rfl
  · have hnodup := hopened.nodup
    rw [List.map_append, List.nodup_append] at hnodup
    exact fun hmem => hnodup.2.2 b hmem b (List.mem_singleton.mpr rfl) rfl

theorem setTerminator_does (h : Opened f c join parts now f₁) (hc : c.Of f)
    (hb : b ∈ parts.map Part.block) {term : Terminator} {u : Unit}
    (hdoes : (setTerminator b term).Does f₁ u f₂) :
    Opened f c join (Part.close b term parts) now f₂ ∧ f₂.insts.size = f₁.insts.size := by
  obtain ⟨-, rfl⟩ := Function.modifyBlock_eq_ok.mp (does_update.mp hdoes)
  exact ⟨h.close hc hb term, rfl⟩

theorem replaceKind_does (h : Opened f c join parts now f₁) {k new : InstKind}
    (hkind : f.kind c.site = .ok k) (hphi : k.isPhi = false) {u : Unit}
    (hdoes : (replaceKind c.site new).Does f₁ u f₂) :
    Opened f c join parts new f₂ ∧ f₂.insts.size = f₁.insts.size := by
  obtain ⟨-, rfl⟩ := Function.modifyInst_eq_ok.mp (does_update.mp hdoes)
  exact ⟨h.replace hkind hphi new, Function.size_insts_withInst _ _ _⟩

theorem setAnnotations_does (h : Opened f c join parts now f₁) {change : Annotations → Annotations}
    (hchange : ∀ i, (change f₁.annotations).get i ≠ [] →
      f₁.annotations.get i ≠ [] ∨ i.index < f₁.insts.size)
    {u : Unit} (hdoes : (setAnnotations change).Does f₁ u f₂) :
    Opened f c join parts now f₂ ∧ f₂.insts.size = f₁.insts.size := by
  obtain rfl := does_setAnnotations.mp hdoes
  refine ⟨h.unaffected rfl rfl rfl rfl rfl (fun id inst hinst => ?_) hchange, rfl⟩
  exact ⟨inst, hinst, rfl, rfl, fun _ => rfl⟩

theorem attach_does {id : InstId} {token : Token} {limits : Limits}
    (h : Opened f c join parts now f₁) (hid : id.index < f₁.insts.size) {u : Unit}
    (hdoes : (attach id token limits).Does f₁ u f₂) :
    Opened f c join parts now f₂ ∧ f₂.insts.size = f₁.insts.size := by
  obtain ⟨annotations, rfl, htokens⟩ := does_attach hdoes
  refine ⟨h.unaffected rfl rfl rfl rfl rfl (fun id inst hinst => ?_) fun i hi => ?_, rfl⟩
  · exact ⟨inst, hinst, rfl, rfl, fun _ => rfl⟩
  · exact (htokens i hi).imp_right fun heq => by rw [heq]; exact hid

/-- New instructions may be marked. -/
theorem markSplit_does {id : InstId} (h : Opened f c join parts now f₁)
    (hid : f.insts.size ≤ id.index) {u : Unit}
    (hdoes : (markSplit id).Does f₁ u f₂) :
    Opened f c join parts now f₂ ∧ f₂.insts.size = f₁.insts.size := by
  obtain ⟨-, rfl⟩ := Function.modifyInst_eq_ok.mp (does_update.mp hdoes)
  have hsize := Function.size_insts_withInst f₁ id fun i => { i with split := true }
  refine ⟨h.unaffected rfl rfl rfl rfl hsize (fun i inst hinst => ?_) fun i hi => .inl hi, hsize⟩
  rw [Function.inst_withInst, hinst]
  split
  · next heq => exact ⟨_, rfl, rfl, rfl, fun hlt => absurd (heq ▸ hlt) (Nat.not_lt.mpr hid)⟩
  · exact ⟨_, rfl, rfl, rfl, fun _ => rfl⟩

end Edit

end EdgeProbe

/-!
## Running the parts that stand for an instruction

How a run gets from one part to the next one, and from the parts to the other side of the cut, where
the phi takes the value that the last part has for it.
-/

namespace EdgeProbe

namespace Patched

variable {f f' : Function} {c : Cut} {join : BlockId} {parts : List Part} {ty : Ty}
  {entries : List (Value × BlockId)} {w : World} {g : Guard} {id : FuncId} {args : List UInt64}
  {s : Store} {frame : Frame} {block : BlockId} {term : Terminator}
  (h : Patched f c join parts ty entries f')
include h

theorem kind_of_mem {p : Part} (hp : p ∈ parts) {entry : InstId × InstKind}
    (hentry : entry ∈ p.insts) : f'.kind entry.1 = .ok entry.2 := by
  obtain ⟨-, inst, hinst, hkind, -⟩ := h.opened.given p hp entry hentry
  exact Function.kind_eq_ok.mpr ⟨inst, hinst, hkind⟩

/-- A jump to a part starts to execute it. -/
theorem leads_part {p : Part} (hp : p ∈ parts) (hne : p.block ≠ c.head)
    (hjump : ∀ caller, w.runTerminator caller ⟨f', args⟩ frame block term =
      pure (.jump ⟨frame, some block, p.block⟩)) :
    w.Leads g id ⟨f', args⟩ s ⟨block, term, []⟩ frame ⟨p.block, p.term, p.insts.map (·.1)⟩
      frame := by
  obtain ⟨name, hpart⟩ := h.opened.part p hp
  rw [(h.opened.fresh p hp hne).2.2, List.nil_append] at hpart
  have hphis : f'.phis p.block = .ok [] := by
    refine Function.phis_of_block hpart rfl nofun fun i hi => ?_
    obtain ⟨entry, hentry, rfl⟩ := List.mem_map.mp hi
    exact ⟨entry.2, h.kind_of_mem hp hentry, h.kinds p hp entry hentry⟩
  exact World.leads_jump hjump hpart hphis rfl

section

variable (hf : f.Tidy) (hc : c.Of f) {kind : InstKind} (hkind : f.kind c.site = .ok kind)
  (hsite : kind.isPhi = false)
include hf hc hkind hsite

/-- On the other side there is one phi, which the instruction has become. -/
theorem phis_join : f'.phis join = .ok [c.site] := by
  obtain ⟨name, htail⟩ := h.opened.tail
  have hinsts : c.site :: c.after = [c.site] ++ c.after := rfl
  refine Function.phis_of_block htail hinsts (fun i hi => ?_) fun i hi => ?_
  · obtain rfl := List.mem_singleton.mp hi
    exact ⟨_, h.opened.site, rfl⟩
  · obtain ⟨pos, hpos⟩ := List.mem_iff_getElem?.mp hi
    have hplace : (c.site :: c.after)[pos + 1]? = some i := by simpa using hpos
    have hlisted := hc.listed_rest hplace
    obtain ⟨k, hk⟩ := hf.exists_kind hlisted
    have hnot := hf.not_phi_after hc.listed_site hkind hsite hlisted hk (by omega)
    refine ⟨k, h.kind_eq ?_ hk hnot, hnot⟩
    rintro rfl
    have := (hf.listed_unique hc.listed_site hlisted).2
    omega

/-- A jump to the other side gives the phi its value. -/
theorem leads_join
    (hjump : ∀ caller, w.runTerminator caller ⟨f', args⟩ frame block term =
      pure (.jump ⟨frame, some block, join⟩))
    {value : Value} (hfind : (entries.find? fun entry => entry.2 == block) = some (value, block))
    {x : UInt64} (hvalue : w.eval ⟨f', args⟩ frame value = pure x) :
    w.Leads g id ⟨f', args⟩ s ⟨block, term, []⟩ frame ⟨join, c.term, c.after⟩
      (frame.insert c.site x) := by
  obtain ⟨name, htail⟩ := h.opened.tail
  have hentered : w.phiValues ⟨f', args⟩ frame block [c.site] = pure [(c.site, x)] := by
    simp only [World.phiValues, h.opened.site, Exec.ofChecked_ok, pure_bind, hfind, hvalue]
  exact World.leads_jump hjump htail (h.phis_join hf hc hkind hsite) hentered

/-- A jump to the other side is stopped if what the phi takes is missing. -/
theorem fails_join
    (hjump : ∀ caller, w.runTerminator caller ⟨f', args⟩ frame block term =
      pure (.jump ⟨frame, some block, join⟩))
    {value : Value} (hfind : (entries.find? fun entry => entry.2 == block) = some (value, block))
    {cause : Stop} (hvalue : w.eval ⟨f', args⟩ frame value = throw cause) :
    w.Fails g id ⟨f', args⟩ s ⟨block, term, []⟩ frame cause := by
  obtain ⟨name, htail⟩ := h.opened.tail
  have hentered : w.phiValues ⟨f', args⟩ frame block [c.site] = throw cause := by
    simp only [World.phiValues, h.opened.site, Exec.ofChecked_ok, pure_bind, hfind, hvalue]
    rfl
  exact World.fails_jump hjump htail (h.phis_join hf hc hkind hsite) hentered

/-- A jump to the other side from a frame that is as it should be comes to what was asked. -/
theorem arrives_join {frame₀ : Frame} {size : Nat}
    (hagree : Agree size frame₀ frame)
    (hjump : ∀ caller, w.runTerminator caller ⟨f', args⟩ frame block term =
      pure (.jump ⟨frame, some block, join⟩))
    {value : Value} (hfind : (entries.find? fun entry => entry.2 == block) = some (value, block))
    {x : UInt64} (hvalue : w.eval ⟨f', args⟩ frame value = pure x) :
    w.Arrives g id ⟨f', args⟩ s size (frame₀.insert c.site x) ⟨block, term, []⟩ frame
      ⟨join, c.term, c.after⟩ :=
  ⟨_, hagree.insert c.site x, h.leads_join hf hc hkind hsite hjump hfind hvalue⟩

end

end Patched

namespace World

variable {w w' : World} {g g' : Guard} {kept : Stop → Prop} {id : FuncId} {f f' : Function}
  {i : InstId} {pred : Predicate} {lhs rhs : Value} {width : Nat} {start stop : Rest}

/-- Code that reads the operands of a comparison, the left one first, and then leads to the other
side with the result in the place of the comparison, stands for the comparison. -/
theorem swaps_of_icmp (halike : ∀ args, Alike w w' ⟨f, args⟩ ⟨f', args⟩)
    (hkind : f.kind i = .ok (.icmp pred lhs rhs))
    (hwidth : f.intWidth? lhs = .ok (some width)) (hlhs : lhs.Below f.insts.size)
    (hrhs : rhs.Below f.insts.size)
    (hfailLeft : ∀ args frame s cause, w'.eval ⟨f', args⟩ frame lhs = throw cause →
      w'.Fails g' id ⟨f', args⟩ s start frame cause)
    (hfailRight : ∀ args frame s x cause, w'.eval ⟨f', args⟩ frame lhs = pure x →
      w'.eval ⟨f', args⟩ frame rhs = throw cause → w'.Fails g' id ⟨f', args⟩ s start frame cause)
    (hleads : ∀ args frame s x y, w'.eval ⟨f', args⟩ frame lhs = pure x →
      w'.eval ⟨f', args⟩ frame rhs = pure y → w'.Arrives g' id ⟨f', args⟩ s f.insts.size
        (frame.insert i (if pred.evaluate width x y then 1 else 0)) start frame stop) :
    w.Swaps w' g g' kept id f f' i start stop := by
  intro n args frame frame' s hagree
  have hpermits : Exec.require (w.Permits g id ⟨f, args⟩ frame i) s = .ok () s :=
    Exec.require_of_holds (permits_of_not_call hkind rfl)
  have hstep : (do
      Exec.require (w.Permits g id ⟨f, args⟩ frame i)
      w.step (w.enterIf (w.runIf g n)) ⟨f, args⟩ frame i) s =
      (do
        let l ← w'.eval ⟨f', args⟩ frame' lhs
        let r ← w'.eval ⟨f', args⟩ frame' rhs
        return if pred.evaluate width l r then 1 else 0 : Exec UInt64) s := by
    rw [(halike args).eval_eq hagree hlhs, (halike args).eval_eq hagree hrhs,
      ← step_icmp hkind hwidth]
    change EStateM.bind _ _ s = _
    rw [EStateM.bind, hpermits]
  have hcases : ∀ value, (∃ x, w'.eval ⟨f', args⟩ frame' value = pure x) ∨
      ∃ cause, w'.eval ⟨f', args⟩ frame' value = throw cause := eval_cases
  rw [hstep]
  obtain ⟨x, hx⟩ | ⟨cause, hcause⟩ := hcases lhs
  · obtain ⟨y, hy⟩ | ⟨cause, hcause⟩ := hcases rhs
    · simp only [hx, hy, pure_bind, Exec.pure_apply]
      obtain ⟨frame₁, hagree₁, hlead⟩ := hleads args frame' s x y hx hy
      refine ⟨frame₁, ?_, hlead⟩
      intro j hj
      rw [hagree₁ j hj]
      exact hagree.insert i _ j hj
    · simp only [hx, hcause, pure_bind]
      exact fun _ => hfailRight args frame' s x cause hx hcause
  · simp only [hcause]
    exact fun _ => hfailLeft args frame' s cause hcause

end World

/-- In any world the second function does what the first one did. -/
def Function.Simulated (f f' : Function) : Prop :=
  ∀ (w w' : World) g g' kept id, w'.globals = w.globals →
    w'.module.functions.size = w.module.functions.size →
    ∃ rename, FunctionSim f f' (w.Swaps w' g g' kept id f f') rename

/-- An instruction compares integers of some width. -/
structure Function.Compares (f : Function) (id : InstId) (pred : Predicate) (lhs rhs : Value)
    (width : Nat) : Prop where
  kind : f.kind id = .ok (.icmp pred lhs rhs)
  left : f.intWidth? lhs = .ok (some width)
  right : f.intWidth? rhs = .ok (some width)

theorem Function.Compares.below {f : Function} {id : InstId} {b : BlockId} {pos : Nat}
    {pred : Predicate} {lhs rhs : Value} {width : Nat} (h : f.Compares id pred lhs rhs width)
    (hf : f.Tidy) (hid : f.Listed id b pos) :
    lhs.Below f.insts.size ∧ rhs.Below f.insts.size := by
  have hvalues := hf.values_below hid h.kind
  exact ⟨hvalues lhs (by simp [InstKind.operands]), hvalues rhs (by simp [InstKind.operands])⟩

namespace Patched

variable {f f' : Function} {c : Cut} {join : BlockId} {parts : List Part} {ty : Ty}
  {entries : List (Value × BlockId)} {pred : Predicate} {lhs rhs : Value} {width : Nat}

theorem alike (h : Patched f c join parts ty entries f') (htypes : f.TypesKept f') {w w' : World}
    (hglobals : w'.globals = w.globals)
    (hsize : w'.module.functions.size = w.module.functions.size) (args : List UInt64) :
    World.Alike w w' ⟨f, args⟩ ⟨f', args⟩ where
  globals := hglobals
  size := hsize
  args := rfl
  name := h.opened.name
  types := fun _ _ => htypes.valueType h.opened.sizeInsts

/-- Parts that read the operands of a comparison, the left one first, and lead to the join with its
result, stand for it. -/
theorem simulated (h : Patched f c join parts .i1 entries f') (hf : f.Tidy) (hc : c.Of f)
    (hsite : f.Compares c.site pred lhs rhs width) {head : Part} (hhead : head ∈ parts)
    (hblock : head.block = c.head)
    (hfailLeft : ∀ (w : World) g id args frame s cause,
      w.eval ⟨f', args⟩ frame lhs = throw cause →
        w.Fails g id ⟨f', args⟩ s ⟨c.head, head.term, head.insts.map (·.1)⟩ frame cause)
    (hfailRight : ∀ (w : World) g id args frame s x cause,
      w.eval ⟨f', args⟩ frame lhs = pure x → w.eval ⟨f', args⟩ frame rhs = throw cause →
        w.Fails g id ⟨f', args⟩ s ⟨c.head, head.term, head.insts.map (·.1)⟩ frame cause)
    (hleads : ∀ (w : World) g id args frame s x y,
      w.eval ⟨f', args⟩ frame lhs = pure x → w.eval ⟨f', args⟩ frame rhs = pure y →
        w.Arrives g id ⟨f', args⟩ s f.insts.size
          (frame.insert c.site (if pred.evaluate width x y then 1 else 0))
          ⟨c.head, head.term, head.insts.map (·.1)⟩ frame ⟨join, c.term, c.after⟩) :
    f.Simulated f' := by
  intro w w' g g' kept id hglobals hsize
  obtain ⟨hlhs, hrhs⟩ := hsite.below hf hc.listed_site
  have htypes := h.typesKept hsite.kind rfl
  have hswaps : w.Swaps w' g g' kept id f f' c.site ⟨c.head, head.term, head.insts.map (·.1)⟩
      ⟨join, c.term, c.after⟩ :=
    World.swaps_of_icmp (h.alike htypes hglobals hsize) hsite.kind hsite.left
      hlhs hrhs (hfailLeft w' g' id) (hfailRight w' g' id) (hleads w' g' id)
  refine ⟨c.rename join, h.functionSim hsite.kind hf hc rfl htypes fun p hp hpblock => ?_⟩
  obtain rfl := h.opened.eq_of_block_eq hp hhead (hpblock.trans hblock.symm)
  exact hswaps

end Patched

end EdgeProbe
