import EdgeProbe.Proofs.Lowering.Refined
import EdgeProbe.Proofs.Validity.Local
import EdgeProbe.Proofs.Validity.Severed

/-!
# Splitting a block is not seen

A run that comes to a block that was split goes through both halves of it, and does there what it did
in the one block. Main statement: `Machine.call_splitBlock`.
-/

namespace EdgeProbe

namespace Severed

variable {m : Module} {exempt : BlockId → Prop} {f f' : Function} {b tail x : BlockId} {blk : Block}
  {pos : Nat} {swap : InstId → Rest → Rest → Prop} (h : Severed f b blk pos tail f')
  (hs : f.Sound m exempt)
include h hs

theorem phiSim (hx : x ∈ f.layout) {phis : List InstId} (hphis : f.phis x = .ok phis) :
    ∀ phi ∈ phis, PhiSim f f' (rename b tail) x phi := by
  have hclosed := hs.tidy.closed
  refine hs.tidy.phiSim hx hphis fun phi hmem ty incoming hphi => ?_
  obtain ⟨blk₀, hblk, hlead⟩ := Function.phis_eq_ok hphis
  obtain ⟨k, hid⟩ := Function.Tidy.listed_of_mem hx hblk (Function.mem_of_mem_leading hlead hmem)
  have hphi' := h.phi_eq hs hid hphi
  rw [← renameIncoming_phi] at hphi'
  have hlive : ∀ source ∈ f.layout, source ≠ tail := fun source hsource heq =>
    h.tail_not_mem hclosed (heq ▸ hsource)
  refine ⟨_, hphi', fun source hsource _ value hfind => find?_rename ?_ (hlive source hsource) hfind⟩
  exact fun entry hentry =>
    hlive _ ((hs.sources phi x k ty incoming hid hphi).2 _ (List.mem_map_of_mem hentry)).1

/-- What was one block is now found in two, of which the first one goes on in the second. -/
theorem covers {phis : List InstId} (hphis : f.phis b = .ok phis) :
    f'.phis b = .ok phis ∧ Covers f f' swap tail blk.term (blk.insts.drop phis.length)
      ⟨b, .br tail, (blk.insts.take pos).drop phis.length⟩ := by
  obtain ⟨rest, hinsts, hrest⟩ := hs.tidy.insts_eq_append h.live h.block hphis
  obtain ⟨front, htake, -⟩ := h.leading_take hs.tidy hphis
  obtain ⟨name, htail⟩ := h.block_tail
  obtain rfl : rest = front ++ blk.insts.drop pos := by
    have heq := List.take_append_drop pos blk.insts
    rw [htake, hinsts, List.append_assoc, List.append_cancel_left_eq] at heq
    rw [hinsts, heq]
  have hsame : ∀ id ∈ front ++ blk.insts.drop pos, ∃ kind, f.kind id = .ok kind ∧
      f'.kind id = .ok kind ∧ kind.isPhi = false ∧ ∀ value ∈ kind.operands, value.Below f.insts.size := by
    intro id hid
    obtain ⟨kind, hkind, hnot⟩ := hrest id hid
    have hmem : id ∈ blk.insts := by
      rw [hinsts]
      exact List.mem_append_right phis hid
    obtain ⟨k, hlisted⟩ := Function.Tidy.listed_of_mem h.live h.block hmem
    exact ⟨kind, hkind, h.kind_eq hkind hnot, hnot, hs.tidy.values_below hlisted hkind⟩
  have hfront : ∀ id ∈ front, ∃ kind, f'.kind id = .ok kind ∧ kind.isPhi = false := fun id hid =>
    let ⟨kind, _, hkind', hnot, _⟩ := hsame id (List.mem_append_left _ hid)
    ⟨kind, hkind', hnot⟩
  have hback : ∀ id ∈ blk.insts.drop pos, ∃ kind, f'.kind id = .ok kind ∧ kind.isPhi = false :=
    fun id hid =>
      let ⟨kind, _, hkind', hnot, _⟩ := hsame id (List.mem_append_right _ hid)
      ⟨kind, hkind', hnot⟩
  have hphis' : ∀ id ∈ phis, ∃ kind, f'.kind id = .ok kind ∧ kind.isPhi = true := by
    intro id hid
    obtain ⟨ty, -, incoming', -, hkind', -⟩ := h.phiSim hs h.live hphis id hid
    exact ⟨_, hkind', rfl⟩
  refine ⟨Function.phis_of_block h.split.head htake hphis' hfront, ?_⟩
  have hsecond : Covers f f' swap tail blk.term (blk.insts.drop pos ++ [])
      ⟨tail, blk.term, blk.insts.drop pos ++ []⟩ := by
    refine .append (fun id hid => ?_) .done
    obtain ⟨kind, hkind, hkind', -, hvalues⟩ := hsame id (List.mem_append_right _ hid)
    exact ⟨kind, hkind, hkind', hvalues⟩
  rw [List.append_nil] at hsecond
  have hfirst : Covers f f' swap tail blk.term (front ++ blk.insts.drop pos)
      ⟨b, .br tail, front ++ []⟩ := by
    refine .append (fun id hid => ?_) (.jumped htail ?_ hsecond)
    · obtain ⟨kind, hkind, hkind', -, hvalues⟩ := hsame id (List.mem_append_left _ hid)
      exact ⟨kind, hkind, hkind', hvalues⟩
    · exact Function.phis_of_block htail rfl (by simp) hback
  have hdrop : blk.insts.drop phis.length = front ++ blk.insts.drop pos := by
    conv_lhs => rw [hinsts]
    exact List.drop_left
  rw [hdrop, htake, List.drop_left]
  rwa [List.append_nil] at hfirst

theorem functionSim : FunctionSim f f' swap (rename b tail) where
  name := h.split.name
  types := fun _ _ hty => h.typesKept.valueType h.split.sizeInsts.ge hty
  entry := h.entryBlock?_eq
  declared := fun hnone => absurd h.live (List.eq_nil_iff_forall_not_mem.mp
    (List.head?_eq_none_iff.mp hnone) b)
  blocks := by
    intro x hx
    obtain ⟨blk₀, phis, hblk, hphis⟩ := hs.tidy.phis_eq_ok hx
    have hphi := h.phiSim hs hx hphis
    by_cases heq : x = b
    · subst heq
      obtain rfl := Except.ok.inj (h.block.symm.trans hblk)
      obtain ⟨hphis', hcovers⟩ := h.covers hs hphis
      refine ⟨blk, _, phis, h.block, h.split.head, hphis, hphis', hphi, ?_,
        hs.tidy.termOperands x hx blk h.block, hs.tidy.live_of_mem_successors hx h.block⟩
      rwa [rename, if_pos rfl]
    · exact ⟨blk₀, blk₀, phis, hs.tidy.blockSim hx hblk hphis
        ((h.block_kept hs.tidy.closed hx heq).trans hblk) (if_neg heq) hphi
        fun _ _ _ hkind hnot => h.kind_eq hkind hnot⟩

end Severed

/-- The phis and the landing pad of a block stand before the first position where instructions may
be put in. -/
theorem Function.Sound.lt_firstInsertionPoint {m : Module} {exempt : BlockId → Prop} {f : Function}
    (hs : f.Sound m exempt) {b : BlockId} {point : Nat} (hpoint : f.firstInsertionPoint b = .ok point)
    {id : InstId} {k : Nat} {kind : InstKind} (hid : f.Listed id b k) (hkind : f.kind id = .ok kind)
    (hfront : (kind.isPhi || kind.isLandingPad) = true) : k < point := by
  obtain ⟨blk, hblk, hpoint⟩ := Checked.bind_eq_ok.mp hpoint
  obtain ⟨front, hlead, hlength⟩ := Checked.bind_eq_ok.mp hpoint
  obtain rfl := Checked.pure_eq_ok.mp hlength
  obtain ⟨back, hinsts, -, hstop⟩ := Function.leading_eq_ok hlead
  by_contra hle
  obtain ⟨hb, blk', hblk', hk⟩ := hid
  obtain rfl := Except.ok.inj (hblk.symm.trans hblk')
  have hid : f.Listed id b k := ⟨hb, blk, hblk, hk⟩
  rw [hinsts, List.getElem?_append_right (by omega)] at hk
  obtain ⟨first, rest, rfl⟩ : ∃ first rest, back = first :: rest :=
    List.exists_cons_of_ne_nil (List.ne_nil_of_mem (List.mem_of_getElem? hk))
  obtain ⟨kind', hkind', hnot⟩ := hstop first rfl
  have hfirst : f.Listed first b front.length := ⟨hb, blk, hblk, by rw [hinsts]; simp⟩
  -- The first instruction behind the point comes before this one, unless it is this one.
  obtain hlt | heq := lt_or_eq_of_le (Nat.le_of_not_lt hle)
  · have hphi : ∃ ty incoming, f.kind first = .ok (.phi ty incoming) := by
      cases kind with
      | phi ty incoming => exact hs.tidy.phisLead id b k ty incoming hid hkind _ hlt first hfirst
      | landingPad => exact hs.padsLead id b k hid hkind _ hlt first hfirst
      | _ => cases hfront
    obtain ⟨ty, incoming, hphi⟩ := hphi
    obtain rfl := Except.ok.inj (hkind'.symm.trans hphi)
    cases hnot
  · subst heq
    obtain rfl : first = id := by simpa using hk
    obtain rfl := Except.ok.inj (hkind.symm.trans hkind')
    rw [hfront] at hnot
    cases hnot

namespace Machine

/-- A live block can be split anywhere behind its phis and its landing pad, past its end too. The
module is accepted as before, and a call ends as it did: with the same result, and with what it left
in memory and in the trace. -/
theorem call_splitBlock {m : Module} (hm : m.Accepted) (honce : m.ListsOnce) {id : FuncId}
    {f : Function} (hid : m.function id = .ok f) {b : BlockId} (hb : b ∈ f.layout) :
    ∃ point, f.firstInsertionPoint b = .ok point ∧ ∀ pos, point ≤ pos → ∀ name, ∃ f' tail,
      f.splitBlock b pos name = .ok (f', tail) ∧ (m.setFunction id f').Accepted ∧
      ofModule (m.setFunction id f') = (ofModule m).map (·.withModule (m.setFunction id f')) ∧
      ∀ machine : Machine, machine.world.module = m → ∀ callee args,
        Finished (machine.call callee args).1 →
          machine.RepeatedBy (m.setFunction id f') callee args := by
  have hsound := hm.sound honce
  have hs : f.Sound m fun _ => False :=
    hsound id f hid (List.isEmpty_eq_false_iff.mpr (List.ne_nil_of_mem hb))
  have htidy := hm.tidy honce
  obtain ⟨blk, hblk⟩ := hs.tidy.closed.block_of_mem hb
  obtain ⟨front, hfront⟩ : ∃ front,
      f.leading (fun kind => kind.isPhi || kind.isLandingPad) blk.insts = .ok front :=
    Function.Tidy.leading_eq_ok _ fun i hi => Function.exists_kind (hs.named.insts b blk hblk i hi)
  have hpoint : f.firstInsertionPoint b = .ok front.length :=
    Checked.bind_eq_ok.mpr ⟨blk, hblk, Checked.bind_eq_ok.mpr ⟨front, hfront, rfl⟩⟩
  refine ⟨front.length, hpoint, fun pos hpos name => ?_⟩
  obtain ⟨f', tail, hsplit, hblockSplit, -⟩ :=
    hs.named.whole.exists_splitBlock hb hblk pos name
  have h : Severed f b blk pos tail f' := ⟨hblockSplit, hb, hblk, fun i k kind hi hkind hlead =>
    (hs.lt_firstInsertionPoint hpoint hi hkind hlead).trans_le hpos⟩
  have hs' := h.sound hs
  have hrefined : m.RefinedBy .free (fun cause => Finished (.error cause)) (m.setFunction id f') :=
    .setFunction Exec.keeps_finished htidy hid hs'.tidy fun _ _ _ _ => ⟨_, h.functionSim hs⟩
  refine ⟨f', tail, hsplit, (hsound.setFunction hid h.split.params fun _ => hs').accepted,
    ofModule_withModule hrefined.globals, ?_⟩
  rintro machine rfl callee args hfinished
  refine hrefined.repeatedBy Exec.keeps_finished htidy (fun _ _ _ _ => ?_) fun cause hcause => ?_
  · rw [World.enterIf_free]
  · exact hcause ▸ hfinished

end Machine

/-! ## A loop of one block -/

/-- Counts a number down. The block that does so leads on and back to itself. -/
def Function.countDown : Function where
  name := "count_down"
  params := [.i32]
  ret := .i32
  blocks := #[⟨"entry", [], .br ⟨1⟩⟩,
    ⟨"again", [⟨0⟩, ⟨1⟩, ⟨2⟩], .condBr (.inst ⟨2⟩) ⟨2⟩ ⟨1⟩⟩,
    ⟨"done", [⟨3⟩], .ret (some (.inst ⟨3⟩))⟩]
  layout := [⟨0⟩, ⟨1⟩, ⟨2⟩]
  insts := #[
    { kind := .phi .i32 [(.arg 0, ⟨0⟩), (.inst ⟨1⟩, ⟨1⟩)], block := some ⟨1⟩ },
    { kind := .binary .sub (.inst ⟨0⟩) (.ofWord 32 1), block := some ⟨1⟩ },
    { kind := .icmp .eq (.inst ⟨1⟩) (.ofWord 32 0), block := some ⟨1⟩ },
    { kind := .phi .i32 [(.inst ⟨1⟩, ⟨1⟩)], block := some ⟨2⟩ }]

namespace Function

variable {b : BlockId} {blk : Block} {id : InstId} {k : Nat} {kind : InstKind}

theorem block_countDown (h : countDown.block b = .ok blk) :
    b = ⟨0⟩ ∧ blk.insts = [] ∧ blk.term = .br ⟨1⟩ ∨
      b = ⟨1⟩ ∧ blk.insts = [⟨0⟩, ⟨1⟩, ⟨2⟩] ∧ blk.term = .condBr (.inst ⟨2⟩) ⟨2⟩ ⟨1⟩ ∨
      b = ⟨2⟩ ∧ blk.insts = [⟨3⟩] ∧ blk.term = .ret (some (.inst ⟨3⟩)) := by
  obtain ⟨index⟩ := b
  match index, h with
  | 0, h | 1, h | 2, h =>
    obtain rfl := Except.ok.inj h
    simp [countDown]

theorem listed_countDown : countDown.Listed id b k ↔
    b = ⟨1⟩ ∧ k < 3 ∧ id = ⟨k⟩ ∨ b = ⟨2⟩ ∧ k = 0 ∧ id = ⟨3⟩ := by
  constructor
  · rintro ⟨-, blk, hblk, hk⟩
    obtain ⟨-, hinsts, -⟩ | ⟨rfl, hinsts, -⟩ | ⟨rfl, hinsts, -⟩ := block_countDown hblk
    · simp [hinsts] at hk
    · rw [hinsts] at hk
      match k, hk with
      | 0, hk | 1, hk | 2, hk => exact .inl ⟨rfl, by decide, (Option.some.inj hk).symm⟩
    · rw [hinsts] at hk
      match k, hk with
      | 0, hk => exact .inr ⟨rfl, rfl, (Option.some.inj hk).symm⟩
  · rintro (⟨rfl, hk, rfl⟩ | ⟨rfl, rfl, rfl⟩)
    · refine ⟨by decide, _, rfl, ?_⟩
      obtain rfl | rfl | rfl : k = 0 ∨ k = 1 ∨ k = 2 := by omega
      all_goals rfl
    · exact ⟨by decide, _, rfl, rfl⟩

theorem kind_countDown (hid : countDown.Listed id b k) (hkind : countDown.kind id = .ok kind) :
    b = ⟨1⟩ ∧ k = 0 ∧ kind = .phi .i32 [(.arg 0, ⟨0⟩), (.inst ⟨1⟩, ⟨1⟩)] ∨
      b = ⟨1⟩ ∧ k = 1 ∧ kind = .binary .sub (.inst ⟨0⟩) (.ofWord 32 1) ∨
      b = ⟨1⟩ ∧ k = 2 ∧ kind = .icmp .eq (.inst ⟨1⟩) (.ofWord 32 0) ∨
      b = ⟨2⟩ ∧ k = 0 ∧ kind = .phi .i32 [(.inst ⟨1⟩, ⟨1⟩)] := by
  rw [listed_countDown] at hid
  obtain ⟨rfl, hk, rfl⟩ | ⟨rfl, rfl, rfl⟩ := hid
  · obtain rfl | rfl | rfl : k = 0 ∨ k = 1 ∨ k = 2 := by omega
    all_goals
      obtain rfl := Except.ok.inj hkind
      simp [countDown]
  · obtain rfl := Except.ok.inj hkind
    simp [countDown]

theorem phi_countDown {ty : Ty} {incoming : List (Value × BlockId)} (hid : countDown.Listed id b k)
    (hphi : countDown.kind id = .ok (.phi ty incoming)) : k = 0 ∧
      (b = ⟨1⟩ ∧ incoming = [(.arg 0, ⟨0⟩), (.inst ⟨1⟩, ⟨1⟩)] ∨
        b = ⟨2⟩ ∧ incoming = [(.inst ⟨1⟩, ⟨1⟩)]) := by
  obtain ⟨rfl, rfl, h⟩ | ⟨-, -, h⟩ | ⟨-, -, h⟩ | ⟨rfl, rfl, h⟩ := kind_countDown hid hphi
  · exact ⟨rfl, .inl ⟨rfl, (InstKind.phi.inj h).2⟩⟩
  · cases h
  · cases h
  · exact ⟨rfl, .inr ⟨rfl, (InstKind.phi.inj h).2⟩⟩

theorem edge_countDown {a : BlockId} :
    countDown.Edge a b ↔ a = ⟨0⟩ ∧ b = ⟨1⟩ ∨ a = ⟨1⟩ ∧ (b = ⟨2⟩ ∨ b = ⟨1⟩) := by
  constructor
  · rintro ⟨succs, hsuccs, hb⟩
    obtain ⟨blk, hblk, rfl⟩ := Checked.map_eq_ok.mp hsuccs
    obtain ⟨rfl, -, hterm⟩ | ⟨rfl, -, hterm⟩ | ⟨rfl, -, hterm⟩ := block_countDown hblk
    · exact .inl ⟨rfl, by simpa [hterm, Terminator.successors] using hb⟩
    · exact .inr ⟨rfl, by simpa [hterm, Terminator.successors] using hb⟩
    · simp [hterm, Terminator.successors] at hb
  · rintro (⟨rfl, rfl⟩ | ⟨rfl, rfl | rfl⟩)
    all_goals exact ⟨_, rfl, by simp [countDown, Terminator.successors]⟩

theorem types_countDown : countDown.valueType (.inst ⟨0⟩) = .ok .i32 ∧
    countDown.valueType (.inst ⟨1⟩) = .ok .i32 ∧ countDown.valueType (.inst ⟨2⟩) = .ok .i1 := by
  decide +kernel

/-- What a block computes comes before what is behind it in that block. -/
theorem precedes_countDown {pos : Option Nat} (hk : k < 3) (hpos : ∀ p, pos = some p → k < p) :
    countDown.Precedes ⟨k⟩ ⟨1⟩ pos := by
  refine ⟨⟨1⟩, k, ?_, fun _ => .inl ⟨rfl, hpos⟩⟩
  rw [listed_countDown]
  exact .inl ⟨rfl, hk, rfl⟩

theorem tidy_countDown : countDown.Tidy where
  closed := {
    inArena := by decide
    toLive := fun a _ b hb => by
      rw [edge_countDown] at hb
      obtain ⟨-, rfl⟩ | ⟨-, rfl | rfl⟩ := hb <;> decide }
  home := fun id b k hid => by
    rw [listed_countDown] at hid
    obtain ⟨rfl, hk, rfl⟩ | ⟨rfl, -, rfl⟩ := hid
    · obtain rfl | rfl | rfl : k = 0 ∨ k = 1 ∨ k = 2 := by omega
      all_goals exact ⟨_, rfl, rfl⟩
    · exact ⟨_, rfl, rfl⟩
  nodup := fun b _ blk hblk => by
    obtain ⟨-, hinsts, -⟩ | ⟨-, hinsts, -⟩ | ⟨-, hinsts, -⟩ := block_countDown hblk
    all_goals
      rw [hinsts]
      decide
  operands := fun id b k kind hid hkind value hvalue => by
    obtain ⟨-, -, rfl⟩ | ⟨-, -, rfl⟩ | ⟨-, -, rfl⟩ | ⟨-, -, rfl⟩ := kind_countDown hid hkind
    all_goals
      simp only [InstKind.operands, List.map_cons, List.map_nil, List.mem_cons, List.not_mem_nil,
        or_false] at hvalue
    · obtain rfl | rfl := hvalue
      · trivial
      · exact (by decide : 1 < 4)
    · obtain rfl | rfl := hvalue
      · exact (by decide : 0 < 4)
      · trivial
    · obtain rfl | rfl := hvalue
      · exact (by decide : 1 < 4)
      · trivial
    · subst hvalue
      exact (by decide : 1 < 4)
  termOperands := fun b _ blk hblk value hvalue => by
    obtain ⟨-, -, hterm⟩ | ⟨-, -, hterm⟩ | ⟨-, -, hterm⟩ := block_countDown hblk
    · simp [hterm, Terminator.operands] at hvalue
    · obtain rfl : value = .inst ⟨2⟩ := by simpa [hterm, Terminator.operands] using hvalue
      exact (by decide : 2 < 4)
    · obtain rfl : value = .inst ⟨3⟩ := by simpa [hterm, Terminator.operands] using hvalue
      exact (by decide : 3 < 4)
  sources := fun id b k ty incoming hid hphi => by
    obtain ⟨-, ⟨-, rfl⟩ | ⟨-, rfl⟩⟩ := phi_countDown hid hphi <;> decide
  phisLead := fun id b k ty incoming hid hphi before hlt => by
    obtain ⟨rfl, -⟩ := phi_countDown hid hphi
    cases hlt
  entries := fun id b k ty incoming hid hphi source _ hedge => by
    rw [edge_countDown] at hedge
    obtain ⟨-, ⟨rfl, rfl⟩ | ⟨rfl, rfl⟩⟩ := phi_countDown hid hphi
    · obtain ⟨rfl, -⟩ | ⟨rfl, -⟩ := hedge
      · exact ⟨_, List.mem_cons_self⟩
      · exact ⟨_, List.mem_cons_of_mem _ List.mem_cons_self⟩
    · obtain ⟨-, heq⟩ | ⟨rfl, -⟩ := hedge
      · cases heq
      · exact ⟨_, List.mem_cons_self⟩

end Function

namespace Machine

def counting : Machine where
  world := { module := { name := "counting", functions := #[.countDown] }, globals := #[] }
  store := { memory := .empty, stepsLeft := 8 }

theorem sound_countDown : Function.countDown.Sound counting.world.module fun _ => False where
  tidy := Function.tidy_countDown
  named := Function.named_of_checkNames rfl
  layout := by decide
  unwind := fun b _ blk hblk callee args normal unwind hinvoke => by
    obtain ⟨-, -, hterm⟩ | ⟨-, -, hterm⟩ | ⟨-, -, hterm⟩ := Function.block_countDown hblk <;>
      cases hterm.symm.trans hinvoke
  sources := fun id b k ty incoming hid hphi => by
    obtain ⟨-, ⟨rfl, rfl⟩ | ⟨rfl, rfl⟩⟩ := Function.phi_countDown hid hphi
    · refine ⟨by decide, fun source hsource => ?_⟩
      obtain rfl | rfl : source = ⟨0⟩ ∨ source = ⟨1⟩ := by simpa using hsource
      · exact ⟨by decide, by rw [Function.edge_countDown]; exact .inl ⟨rfl, rfl⟩⟩
      · exact ⟨by decide, by rw [Function.edge_countDown]; exact .inr ⟨rfl, .inr rfl⟩⟩
    · refine ⟨by decide, fun source hsource => ?_⟩
      obtain rfl : source = ⟨1⟩ := by simpa using hsource
      exact ⟨by decide, by rw [Function.edge_countDown]; exact .inr ⟨rfl, .inl rfl⟩⟩
  padsLead := fun id b k hid hkind => by
    obtain ⟨-, -, h⟩ | ⟨-, -, h⟩ | ⟨-, -, h⟩ | ⟨-, -, h⟩ := Function.kind_countDown hid hkind <;> cases h
  padEdges := fun id b k hid hkind => by
    obtain ⟨-, -, h⟩ | ⟨-, -, h⟩ | ⟨-, -, h⟩ | ⟨-, -, h⟩ := Function.kind_countDown hid hkind <;> cases h
  paired := fun id b k kind lhs rhs hid hkind hpaired => by
    obtain ⟨hzero, hone, -⟩ := Function.types_countDown
    obtain ⟨-, -, rfl⟩ | ⟨-, -, rfl⟩ | ⟨-, -, rfl⟩ | ⟨-, -, rfl⟩ := Function.kind_countDown hid hkind
    · cases hpaired
    · obtain ⟨rfl, rfl⟩ := Prod.mk.inj (Option.some.inj hpaired)
      exact ⟨.i32, hzero, rfl⟩
    · obtain ⟨rfl, rfl⟩ := Prod.mk.inj (Option.some.inj hpaired)
      exact ⟨.i32, hone, rfl⟩
    · cases hpaired
  arity := fun id b k target args ret hid hkind => by
    obtain ⟨-, -, h⟩ | ⟨-, -, h⟩ | ⟨-, -, h⟩ | ⟨-, -, h⟩ := Function.kind_countDown hid hkind <;> cases h
  conditions := fun b _ blk hblk cond onTrue onFalse hcond => by
    obtain ⟨-, -, hterm⟩ | ⟨-, -, hterm⟩ | ⟨-, -, hterm⟩ := Function.block_countDown hblk
    · cases hterm.symm.trans hcond
    · obtain ⟨rfl, -, -⟩ := Terminator.condBr.inj (hterm.symm.trans hcond)
      exact Function.types_countDown.2.2
    · cases hterm.symm.trans hcond
  phiUses := fun id b k ty incoming hid hphi used source hentry => by
    obtain ⟨-, ⟨-, rfl⟩ | ⟨-, rfl⟩⟩ := Function.phi_countDown hid hphi
    all_goals
      obtain ⟨rfl, rfl⟩ : used = ⟨1⟩ ∧ source = ⟨1⟩ := by simpa using hentry
      exact Function.precedes_countDown (by decide) nofun
  uses := fun id b k kind hid hkind hphi used hused => by
    obtain ⟨-, -, rfl⟩ | ⟨rfl, rfl, rfl⟩ | ⟨rfl, rfl, rfl⟩ | ⟨-, -, rfl⟩ :=
      Function.kind_countDown hid hkind
    · cases hphi
    · obtain rfl : used = ⟨0⟩ := by simpa [InstKind.operands, Value.ofWord] using hused
      exact Function.precedes_countDown (by decide) (by simp)
    · obtain rfl : used = ⟨1⟩ := by simpa [InstKind.operands, Value.ofWord] using hused
      exact Function.precedes_countDown (by decide) (by simp)
    · cases hphi
  termUses := fun b _ blk hblk used hused => by
    obtain ⟨-, -, hterm⟩ | ⟨rfl, -, hterm⟩ | ⟨rfl, -, hterm⟩ := Function.block_countDown hblk
    · simp [hterm, Terminator.operands] at hused
    · obtain rfl : used = ⟨2⟩ := by simpa [hterm, Terminator.operands] using hused
      exact Function.precedes_countDown (by decide) nofun
    · obtain rfl : used = ⟨3⟩ := by simpa [hterm, Terminator.operands] using hused
      refine ⟨⟨2⟩, 0, ?_, fun _ => .inl ⟨rfl, nofun⟩⟩
      rw [Function.listed_countDown]
      exact .inr ⟨rfl, rfl, rfl⟩

theorem counting_accepted : counting.world.module.Accepted := by
  refine Module.Sound.accepted fun id f hid _ => ?_
  obtain rfl := List.mem_singleton.mp (Module.mem_of_function hid)
  exact sound_countDown

theorem counting_listsOnce : counting.world.module.ListsOnce := by
  intro id f hid ids hids
  obtain rfl := List.mem_singleton.mp (Module.mem_of_function hid)
  obtain rfl := Except.ok.inj hids
  decide

/-- What the instructions of the loop have computed after a turn. -/
def counted (frame : Frame) (value next : UInt64) (last : Bool) : Frame :=
  ((frame.insert ⟨0⟩ value).insert ⟨1⟩ next).insert ⟨2⟩ (if last then 1 else 0)

theorem eval_counted (frame : Frame) (value next : UInt64) (last : Bool) :
    counting.world.eval ⟨.countDown, [2]⟩ (counted frame value next last) (.inst ⟨1⟩) = pure next := by
  simp [World.eval, counted, Std.HashMap.getElem_insert]

/-- What the loop does each time that it is come to, by whatever way. -/
theorem counting_turn {fuel steps : Nat} {frame : Frame} {source target : BlockId}
    (value next : UInt64) (last : Bool)
    (hvalue : counting.world.phiValues ⟨.countDown, [2]⟩ frame source [⟨0⟩] = pure [(⟨0⟩, value)])
    (hnext : BinOp.sub.evaluate 32 value 1 = next) (hlast : Predicate.eq.evaluate 32 next 0 = last)
    (htarget : target = if last then ⟨2⟩ else ⟨1⟩) :
    counting.world.run (fuel + 1) ⟨.countDown, [2]⟩ ⟨frame, some source, ⟨1⟩⟩
        ⟨.empty, [], steps + 3⟩ =
      counting.world.run fuel ⟨.countDown, [2]⟩ ⟨counted frame value next last, some ⟨1⟩, target⟩
        ⟨.empty, [], steps⟩ := by
  have hblock : Function.countDown.block ⟨1⟩ =
    .ok ⟨"again", [⟨0⟩, ⟨1⟩, ⟨2⟩], .condBr (.inst ⟨2⟩) ⟨2⟩ ⟨1⟩⟩ := rfl
  have hphis : Function.countDown.phis ⟨1⟩ = .ok [⟨0⟩] := rfl
  have hkind : Function.countDown.kind ⟨1⟩ = .ok (.binary .sub (.inst ⟨0⟩) (.ofWord 32 1)) := rfl
  have hkind' : Function.countDown.kind ⟨2⟩ = .ok (.icmp .eq (.inst ⟨1⟩) (.ofWord 32 0)) := rfl
  have hwidth : Function.countDown.intWidth? (.inst ⟨1⟩) = .ok (some 32) :=
    congrArg (Except.map Ty.intWidth?) Function.types_countDown.2.1
  have hone : mask 32 1 = 1 := by decide
  have hzero : mask 32 0 = 0 := by decide
  rw [World.run_succ]
  simp [hblock, hphis, hvalue, World.enteredPhis, World.setAll, World.rest_cons, World.rest_nil,
    World.step, hkind, hkind', World.widthOf, hwidth, World.runTerminator, World.eval,
    Value.ofWord, Constant.ofWord, hone, hzero, hnext, hlast, htarget]
  cases last <;> rfl

/-- Two turns of the loop, of which the second one comes from its own end. -/
theorem counting_call : (counting.call "count_down" [2]).1 = .ok 0 := by
  have hid : counting.world.module.findFunction? "count_down" = some ⟨0⟩ := by
    simp [Module.findFunction?, counting, Function.countDown]
  have hfunction : counting.world.module.function ⟨0⟩ = .ok .countDown := rfl
  have hentry : Function.countDown.entryBlock? = some ⟨0⟩ := rfl
  have hcall : counting.world.call "count_down" [2] counting.store =
      counting.world.run (8 + 1) ⟨.countDown, [2]⟩ ⟨∅, none, ⟨0⟩⟩ counting.store := by
    rw [World.call_of_found hid, World.enter, hfunction, Exec.ofChecked_ok, pure_bind, hentry]
    rfl
  have hphi : Function.countDown.kind ⟨0⟩ = .ok (.phi .i32 [(.arg 0, ⟨0⟩), (.inst ⟨1⟩, ⟨1⟩)]) := rfl
  have hphi' : Function.countDown.kind ⟨3⟩ = .ok (.phi .i32 [(.inst ⟨1⟩, ⟨1⟩)]) := rfl
  have hblock : Function.countDown.block ⟨2⟩ = .ok ⟨"done", [⟨3⟩], .ret (some (.inst ⟨3⟩))⟩ := rfl
  have hphis : Function.countDown.phis ⟨2⟩ = .ok [⟨3⟩] := rfl
  have hstart : counting.world.run (8 + 1) ⟨.countDown, [2]⟩ ⟨∅, none, ⟨0⟩⟩ counting.store =
      counting.world.run (7 + 1) ⟨.countDown, [2]⟩ ⟨∅, some ⟨0⟩, ⟨1⟩⟩ ⟨.empty, [], 4 + 3⟩ := by
    rw [World.run_succ]
    rfl
  have hvalue : counting.world.phiValues ⟨.countDown, [2]⟩ ∅ ⟨0⟩ [⟨0⟩] = pure [(⟨0⟩, 2)] := by
    simp [World.phiValues, hphi, World.eval]
  have hturn : counting.world.run (7 + 1) ⟨.countDown, [2]⟩ ⟨∅, some ⟨0⟩, ⟨1⟩⟩ ⟨.empty, [], 4 + 3⟩ =
      counting.world.run (6 + 1) ⟨.countDown, [2]⟩ ⟨counted ∅ 2 1 false, some ⟨1⟩, ⟨1⟩⟩
        ⟨.empty, [], 1 + 3⟩ :=
    counting_turn 2 1 false hvalue (by decide) (by decide) rfl
  have hvalue' : counting.world.phiValues ⟨.countDown, [2]⟩ (counted ∅ 2 1 false) ⟨1⟩ [⟨0⟩] =
      pure [(⟨0⟩, 1)] := by
    simp [World.phiValues, hphi, eval_counted]
  have hturn' : counting.world.run (6 + 1) ⟨.countDown, [2]⟩ ⟨counted ∅ 2 1 false, some ⟨1⟩, ⟨1⟩⟩
        ⟨.empty, [], 1 + 3⟩ =
      counting.world.run (5 + 1) ⟨.countDown, [2]⟩
        ⟨counted (counted ∅ 2 1 false) 1 0 true, some ⟨1⟩, ⟨2⟩⟩ ⟨.empty, [], 1⟩ :=
    counting_turn 1 0 true hvalue' (by decide) (by decide) rfl
  have hend : counting.world.run (5 + 1) ⟨.countDown, [2]⟩
      ⟨counted (counted ∅ 2 1 false) 1 0 true, some ⟨1⟩, ⟨2⟩⟩ ⟨.empty, [], 1⟩ =
      .ok 0 ⟨.empty, [], 0⟩ := by
    rw [World.run_succ]
    simp [hblock, hphis, hphi', World.phiValues, World.enteredPhis, World.setAll, World.rest_nil,
      World.runTerminator, eval_counted]
    simp [World.eval]
    rfl
  rw [call, exec, hcall, hstart, hturn, hturn', hend]

/-- The loop is split behind its first computation: its phi and that of the block behind it have to be
told of the other half. -/
theorem counting_call_splitBlock : ∃ point, Function.countDown.firstInsertionPoint ⟨1⟩ = .ok point ∧
    point ≤ 2 ∧ ∃ f' tail, Function.countDown.splitBlock ⟨1⟩ 2 "tail" = .ok (f', tail) ∧
      (counting.world.module.setFunction ⟨0⟩ f').Accepted ∧
      counting.RepeatedBy (counting.world.module.setFunction ⟨0⟩ f') "count_down" [2] := by
  have hid : counting.world.module.function ⟨0⟩ = .ok .countDown := rfl
  have hb : ⟨1⟩ ∈ Function.countDown.layout := by decide
  obtain ⟨point, hpoint, hsplits⟩ := call_splitBlock counting_accepted counting_listsOnce hid hb
  obtain rfl : 1 = point := Except.ok.inj hpoint
  obtain ⟨f', tail, hsplit, haccepted, -, hcalls⟩ := hsplits 2 (by decide) "tail"
  have hfinished : Finished (counting.call "count_down" [2]).1 := by
    rw [counting_call]
    exact ⟨nofun, fun _ => nofun⟩
  exact ⟨1, hpoint, by decide, f', tail, hsplit, haccepted, hcalls counting rfl _ _ hfinished⟩

end Machine

end EdgeProbe
