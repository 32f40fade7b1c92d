import EdgeProbe.Proofs.Lowering.Differences
import EdgeProbe.Proofs.Lowering.Refined
import EdgeProbe.Proofs.Lowering.Unrolls
import EdgeProbe.Proofs.Machine.Sustained

/-!
# String comparisons that have been taken apart

The chain of blocks in the place of a call stops where the call does, so the phi of its differences
has the value of the call. Main statement: `Machine.call_splitStrings`.
-/

namespace EdgeProbe

/-! ## A run of the chain -/

namespace Patched

variable {f f' : Function} {c : Cut} {join : BlockId} {parts : List Part} {ty : Ty}
  {entries : List (Value × BlockId)} {w : World} {g : Guard} {id : FuncId} {args : List UInt64}
  {s : Store} {kind : InstKind} {site : StringSite} {addrL addrR : UInt64}

/-- A run that enters the chain comes to the other side, with the difference of the bytes at which it
leaves the chain. -/
theorem arrives_chain (h : Patched f c join parts ty entries f') (hf : f.Tidy) (hc : c.Of f)
    (hkind : f.kind c.site = .ok kind) (hsite : kind.isPhi = false)
    (hptrs : ∀ ptr, site.lhs = .pointer ptr ∨ site.rhs = .pointer ptr → ptr.Below f.insts.size)
    {frame₀ frame : Frame} {rest : List BlockId} {block : BlockId} {index n : Nat} {x y : UInt8}
    (hchained : Chained (site.lhs.Shows s.memory site.foldCase addrL)
      (site.rhs.Shows s.memory site.foldCase addrR) site.checksNul index rest.length x y)
    (hparts : ∀ p ∈ site.chain join index n block rest, p ∈ parts ∧ p.block ≠ c.head)
    (hentries : ∀ entry ∈ site.entries index n block rest,
      (entries.find? fun e => e.2 == entry.2) = some entry)
    (hn : f.insts.size ≤ n) (hagree : Agree f.insts.size frame₀ frame)
    (hleft : w.Locates ⟨f', args⟩ frame site.lhs addrL)
    (hright : w.Locates ⟨f', args⟩ frame site.rhs addrR) {p : Part} {back : List Part}
    (hp : site.chain join index n block rest = p :: back) :
    w.Arrives g id ⟨f', args⟩ s f.insts.size
      (frame₀.insert c.site (mask 32 (byteDifference x y).toUInt64))
      ⟨p.block, p.term, p.insts.map (·.1)⟩ frame ⟨join, c.term, c.after⟩ := by
  induction rest generalizing frame block index n x y p back with
  | nil =>
    obtain ⟨rfl, rfl⟩ : site.lastPart index n join block = p ∧ [] = back := List.cons.inj hp
    obtain @⟨_, _, _, hx, hy⟩ := hchained
    have hmem := (hparts _ List.mem_cons_self).1
    have hholds : f'.Holds n (site.differenceCode index n) := h.opened.holds hmem rfl
    obtain ⟨frame₁, hlead, hagree₁, -, hvalue⟩ := World.finds_difference (a := ⟨f', args⟩) hholds hleft
      hright (fun ptr hptr => (hptrs ptr (.inr hptr)).mono hn) hx hy
    rw [List.append_nil] at hlead
    refine .after hlead ?_
    exact h.arrives_join hf hc hkind hsite (hagree.trans (hagree₁.mono hn))
      (fun _ => World.jump_br join) (hentries _ List.mem_cons_self) hvalue
  | cons next rest ih =>
    obtain ⟨rfl, rfl⟩ : site.linkPart index n join block next = p ∧
      site.chain join (index + 1) (site.decision index n + 1) next rest = back := List.cons.inj hp
    have hmem := (hparts _ List.mem_cons_self).1
    have hholds : f'.Holds n (site.linkCode index n) := h.opened.holds hmem rfl
    have hbelow : ∀ ptr, site.rhs = .pointer ptr → ptr.Below n := fun ptr hptr =>
      (hptrs ptr (.inr hptr)).mono hn
    cases hchained with
    | stop hx hy hstop =>
      obtain ⟨frame₁, hlead, hagree₁, hvalue, hdecision⟩ :=
        World.finds_link (a := ⟨f', args⟩) hholds hleft hright hbelow hx hy
      have hleave : (x == y && !(site.checksNul && x == 0)) = false := by
        by_cases hsame : x = y
        · simp [hstop hsame]
        · simp [hsame]
      rw [hleave] at hdecision
      refine .after hlead (h.arrives_join hf hc hkind hsite (hagree.trans (hagree₁.mono hn))
        (fun _ => World.jump_condBr hdecision) (hentries _ List.mem_cons_self) hvalue)
    | @next _ _ z _ _ hx hy hnul hrest =>
      obtain ⟨frame₁, hlead, hagree₁, -, hdecision⟩ :=
        World.finds_link (a := ⟨f', args⟩) hholds hleft hright hbelow hx hy
      have hgo : (z == z && !(site.checksNul && z == 0)) = true := by
        cases hchecks : site.checksNul with
        | false => simp
        | true => simpa using hnul hchecks
      rw [hgo] at hdecision
      obtain ⟨q, back, hq, hblock⟩ : ∃ q back,
          site.chain join (index + 1) (site.decision index n + 1) next rest = q :: back ∧
            q.block = next := by
        cases rest <;> exact ⟨_, _, rfl, rfl⟩
      obtain ⟨hmemq, hne⟩ := hparts q (List.mem_cons_of_mem _ (hq ▸ List.mem_cons_self))
      refine .after (hlead.trans (h.leads_part hmemq hne fun _ => ?_)) ?_
      · exact hblock ▸ World.jump_condBr hdecision
      have hlt : n ≤ site.decision index n + 1 :=
        (StringSite.le_middle.trans StringSite.middle_le_last).trans
          ((Nat.le_add_right _ _).trans (Nat.le_succ _))
      refine ih hrest (fun q' hq' => hparts q' (List.mem_cons_of_mem _ hq'))
        (fun e he => hentries e (List.mem_cons_of_mem _ he)) (hn.trans hlt)
        (hagree.trans (hagree₁.mono hn)) (fun ptr hptr => ?_) (fun ptr hptr => ?_) hq
      · exact (World.eval_of_agree (hagree₁.mono hn) (hptrs ptr (.inl hptr))).trans (hleft ptr hptr)
      · exact (World.eval_of_agree (hagree₁.mono hn) (hptrs ptr (.inr hptr))).trans (hright ptr hptr)

end Patched

/-! ## The call -/

namespace CompareFamily

/-- The built-in function of a family. -/
def builtin (family : CompareFamily) (foldCase : Bool) : Builtin :=
  match family with
  | .strcmp => .compareStrings foldCase false
  | .strncmp => .compareStrings foldCase true
  | .memcmp => .compareRegions

theorem builtin_of_name {name : String} {family : CompareFamily} {foldCase : Bool}
    (h : ofName? name = some (family, foldCase)) :
    Builtin.ofName? name = some (family.builtin foldCase) ∧
      (family.isString = false → foldCase = false) := by
  rw [ofName?, List.lookup_eq_some_iff] at h
  obtain ⟨front, back, heq, -⟩ := h
  have hmem : (name, family, foldCase) ∈ front ++ (name, family, foldCase) :: back := by simp
  rw [← heq] at hmem
  simp only [List.mem_cons, Prod.mk.injEq, List.not_mem_nil, or_false] at hmem
  obtain ⟨rfl, rfl, rfl⟩ | ⟨rfl, rfl, rfl⟩ | ⟨rfl, rfl, rfl⟩ | ⟨rfl, rfl, rfl⟩ | ⟨rfl, rfl, rfl⟩ := hmem
  all_goals exact ⟨by simp [Builtin.ofName?, builtin], by simp [isString]⟩

end CompareFamily

namespace StringSite

/-- How many bytes of either operand the call of a site reads. -/
def readLength (site : StringSite) (values : List UInt64) (memory : Memory) : Nat :=
  let arg := fun i => (values[i]?).getD 0
  match site.family with
  | .strcmp => memory.comparedLength site.foldCase none (arg 0) (arg 1)
  | .strncmp => memory.comparedLength site.foldCase (some (arg 2).toNat) (arg 0) (arg 1)
  | .memcmp => (arg 2).toNat

/-- The known side of a comparison is in memory where its operand leads, and the call reads nothing
past it. -/
structure Relies (site : StringSite) (values : List UInt64) (memory : Memory) : Prop where
  left : ∀ data, site.lhs = .bytes data →
    memory.Holds ((values[0]?).getD 0) data ∧ site.readLength values memory ≤ data.length
  right : ∀ data, site.rhs = .bytes data →
    memory.Holds ((values[1]?).getD 0) data ∧ site.readLength values memory ≤ data.length

end StringSite

namespace World

variable {w : World} {s s₁ : Store} {values : List UInt64} {value : UInt64} {f : Function}

theorem callDeclared_eq_ok {builtin : Builtin} (hbuiltin : Builtin.ofName? f.name = some builtin)
    (h : w.callDeclared f values s = .ok value s₁) :
    ∃ r, runBuiltin builtin values s = .ok r s₁ ∧ value = mask (f.ret.intWidth?.getD 64) r := by
  unfold callDeclared at h
  rw [hbuiltin] at h
  obtain ⟨r, s₂, hr, h⟩ := Exec.bind_eq_ok.mp h
  obtain ⟨rfl, rfl⟩ := EStateM.Result.ok.inj h
  exact ⟨r, hr, rfl⟩

/-- What is asked of memory and may end in a trap. -/
theorem ask_ofTrap_eq_ok {question : Memory → Except Trap Int64}
    (h : (do
      let result ← Exec.ofTrap (← Exec.ask question)
      return result.toUInt64 : Exec UInt64) s = .ok value s₁) :
    s₁ = s ∧ ∃ result, question s.memory = .ok result ∧ value = result.toUInt64 := by
  obtain ⟨answer, s₂, hask, h⟩ := Exec.bind_eq_ok.mp h
  obtain ⟨rfl, rfl⟩ := EStateM.Result.ok.inj hask
  cases hanswer : question s.memory with
  | ok result =>
    rw [hanswer] at h
    obtain ⟨rfl, rfl⟩ := EStateM.Result.ok.inj h
    exact ⟨rfl, result, rfl, rfl⟩
  | error trap =>
    rw [hanswer] at h
    cases h

theorem runBuiltin_compareStrings {ignoreCase limited : Bool}
    (h : runBuiltin (.compareStrings ignoreCase limited) values s = .ok value s₁) :
    s₁ = s ∧ ∃ result, s.memory.compareStrings ignoreCase
        (if limited then some ((values[2]?).getD 0).toNat else none) ((values[0]?).getD 0)
        ((values[1]?).getD 0) = .ok result ∧ value = result.toUInt64 :=
  ask_ofTrap_eq_ok h

theorem runBuiltin_compareRegions (h : runBuiltin .compareRegions values s = .ok value s₁) :
    s₁ = s ∧ ∃ result, s.memory.compareRegions ((values[0]?).getD 0) ((values[1]?).getD 0)
        ((values[2]?).getD 0).toNat = .ok result ∧ value = result.toUInt64 :=
  ask_ofTrap_eq_ok h

/-- Either all operands have values or they cannot be read. -/
theorem mapM_eval_cases (a : Activation) (frame : Frame) (operands : List Value) :
    (∃ values, operands.mapM (w.eval a frame) = pure values ∧
      List.Forall₂ (fun operand x => w.eval a frame operand = pure x) operands values) ∨
      ∃ cause, operands.mapM (w.eval a frame) = throw cause := by
  induction operands with
  | nil => exact .inl ⟨[], rfl, .nil⟩
  | cons operand rest ih =>
    rw [List.mapM_cons]
    obtain ⟨x, hx⟩ | ⟨cause, hcause⟩ := eval_cases (w := w) (a := a) operand
    · obtain ⟨values, hvalues, hall⟩ | ⟨cause, hcause⟩ := ih
      · exact .inl ⟨x :: values, by rw [hx, hvalues, pure_bind, pure_bind], .cons hx hall⟩
      · exact .inr ⟨cause, by rw [hx, hcause, pure_bind]; rfl⟩
    · exact .inr ⟨cause, by rw [hcause]; rfl⟩

end World

theorem StringSite.Decided.sides {m : Module} {f : Function} {site : StringSite} {first second : Value}
    {limit : Option Nat} (h : site.Decided m f first second limit) :
    (∀ ptr, site.lhs = .pointer ptr → ptr = first) ∧ ∀ ptr, site.rhs = .pointer ptr → ptr = second := by
  obtain ⟨-, -, -, hlhs, hrhs, -⟩ | ⟨-, -, hlhs, hrhs, -⟩ | ⟨-, -, hlhs, hrhs, -⟩ := h
  all_goals
    rw [hlhs, hrhs]
    exact ⟨fun ptr hptr => by cases hptr <;> rfl, fun ptr hptr => by cases hptr <;> rfl⟩

/-- The chain in the place of a call comes to what the call returns, which leaves the store alone. -/
theorem StringSite.Found.chained {m : Module} {f : Function} {limits : Limits} {site : StringSite}
    {target : FuncId} {g : Function} {operands : List Value} {ret : Ty} {first second : Value}
    {limit : Option Nat} (h : site.Found m f limits target g operands ret first second limit)
    {w : World} {a : Activation} {frame : Frame} {values : List UInt64} {s s₁ : Store} {value : UInt64}
    (hvalues : List.Forall₂ (fun operand x => w.eval a frame operand = pure x) operands values)
    (hrelies : site.Relies values s.memory) (hbound : s.memory.size < Memory.sizeBound)
    (hcall : w.callDeclared g values s = .ok value s₁) :
    s₁ = s ∧ ∃ addrL addrR x y, w.eval a frame first = pure addrL ∧
      w.eval a frame second = pure addrR ∧
      Chained (site.lhs.Shows s.memory site.foldCase addrL)
        (site.rhs.Shows s.memory site.foldCase addrR) site.checksNul 0 (site.len - 1) x y ∧
      value = mask 32 (byteDifference x y).toUInt64 := by
  obtain ⟨hbuiltin, hfold⟩ := CompareFamily.builtin_of_name h.family
  have hret : g.ret = .i32 := by
    have hprototype := h.prototype
    simp only [Function.hasPrototype, Bool.and_eq_true, beq_iff_eq] at hprototype
    exact hprototype.1.1.1
  obtain ⟨r, hrun, hvalue⟩ := World.callDeclared_eq_ok hbuiltin hcall
  rw [hret] at hvalue
  cases h.operands with
  | unbounded hfamily =>
    obtain _ | @⟨_, addrL, _, _, hfirst, _ | @⟨_, addrR, _, _, hsecond, _ | _⟩⟩ := hvalues
    rw [hfamily] at hrun
    obtain ⟨rfl, result, hcompare, rfl⟩ := World.runBuiltin_compareStrings hrun
    have hlength : site.readLength [addrL, addrR] s₁.memory =
        s₁.memory.comparedLength site.foldCase none addrL addrR := by
      unfold readLength
      rw [hfamily]
      rfl
    obtain ⟨x, y, hchained, hresult⟩ := h.decided.chained_strings (by rw [hfamily]; rfl) h.positive
      hbound hcompare (fun data hdata => hlength ▸ hrelies.left data hdata)
      fun data hdata => hlength ▸ hrelies.right data hdata
    exact ⟨rfl, addrL, addrR, x, y, hfirst, hsecond, hchained, hresult ▸ hvalue⟩
  | @bounded _ bits hfamily =>
    obtain _ | @⟨_, addrL, _, _, hfirst, _ | @⟨_, addrR, _, _, hsecond, _ |
      @⟨_, len, _, _, hthird, _ | _⟩⟩⟩ := hvalues
    obtain rfl : bits = len := (EStateM.Result.ok.inj (congrFun hthird s)).1
    cases hname : site.family with
    | strcmp => exact absurd hname hfamily
    | strncmp =>
      rw [hname] at hrun
      obtain ⟨rfl, result, hcompare, rfl⟩ := World.runBuiltin_compareStrings hrun
      have hlength : site.readLength [addrL, addrR, bits] s₁.memory =
          s₁.memory.comparedLength site.foldCase (some bits.toNat) addrL addrR := by
        unfold readLength
        rw [hname]
        rfl
      obtain ⟨x, y, hchained, hresult⟩ := h.decided.chained_strings (by rw [hname]; rfl) h.positive
        hbound hcompare (fun data hdata => hlength ▸ hrelies.left data hdata)
        fun data hdata => hlength ▸ hrelies.right data hdata
      exact ⟨rfl, addrL, addrR, x, y, hfirst, hsecond, hchained, hresult ▸ hvalue⟩
    | memcmp =>
      rw [hname] at hrun
      obtain ⟨rfl, result, hcompare, rfl⟩ := World.runBuiltin_compareRegions hrun
      have hregion : site.family.isString = false := by rw [hname]; rfl
      obtain ⟨x, y, hchained, hresult⟩ := h.decided.chained_regions hregion (hfold hregion) h.positive
        hbound hcompare (fun data hdata => (hrelies.left data hdata).1)
        fun data hdata => (hrelies.right data hdata).1
      exact ⟨rfl, addrL, addrR, x, y, hfirst, hsecond, hchained, hresult ▸ hvalue⟩

/-- Where each block has one entry, it is found. -/
theorem find?_of_nodup {entries : List (Value × BlockId)} (h : (entries.map (·.2)).Nodup)
    {entry : Value × BlockId} (hmem : entry ∈ entries) :
    (entries.find? fun e => e.2 == entry.2) = some entry := by
  induction entries with
  | nil => cases hmem
  | cons e rest ih =>
    rw [List.map_cons, List.nodup_cons] at h
    obtain rfl | hmem := List.mem_cons.mp hmem
    · exact List.find?_cons_of_pos (by simp)
    · have hne : e.2 ≠ entry.2 := fun heq => h.1 (heq ▸ List.mem_map_of_mem hmem)
      rw [List.find?_cons_of_neg (by simpa using hne), ih h.2 hmem]

section

variable {m : Module} {f f₀ f' : Function} {c : Cut} {join firstBlock : BlockId} {rest : List BlockId}
  {site : StringSite} {limits : Limits} {target : FuncId} {g₀ : Function} {operands : List Value}
  {ret : Ty} {first second : Value} {limit : Option Nat}

/-- The blocks of a chain stand for the call in whose place they have been put, if what is known of
the call is true in the memory in which it is made. -/
theorem World.swaps_unrolled
    (h : Patched f c join (site.parts c join firstBlock rest f.insts.size) .i32
      (site.entries 0 f.insts.size firstBlock rest) f') (hf : f.Tidy) (hc : c.Of f)
    (hfound : site.Found m f₀ limits target g₀ operands ret first second limit)
    (hkind : f.kind c.site = .ok (.call (.direct target) operands ret))
    (hrest : rest.length = site.len - 1) {w w' : World}
    (halike : ∀ args, Alike w w' ⟨f, args⟩ ⟨f', args⟩)
    (htarget : ∀ g, w.module.function target = .ok g →
      g.entryBlock? = none ∧ g.name = g₀.name ∧ g.ret = g₀.ret)
    {guard guard' : Guard} {id : FuncId}
    (hguard : ∀ values memory, guard id c.site values memory →
      site.Relies values memory ∧ memory.size < Memory.sizeBound) :
    w.Swaps w' guard guard' (fun _ => False) id f f' c.site ⟨c.head, .br firstBlock, []⟩
      ⟨join, c.term, c.after⟩ := by
  intro n args frame frame' s hagree
  generalize hcalled : (do
    Exec.require (w.Permits guard id ⟨f, args⟩ frame c.site)
    w.step (w.enterIf (w.runIf guard n)) ⟨f, args⟩ frame c.site : Exec UInt64) s = r
  cases r with
  | error cause s₁ => exact False.elim
  | ok value s₁ =>
    obtain ⟨⟨⟩, s₀, hrequire, hstep⟩ := Exec.bind_eq_ok.mp hcalled
    obtain ⟨hpermits, rfl⟩ := Exec.require_eq_ok hrequire
    have hcall : w.step (w.enterIf (w.runIf guard n)) ⟨f, args⟩ frame c.site =
        w.performCall (w.enterIf (w.runIf guard n)) ⟨f, args⟩ frame (.direct target) operands := by
      rw [step, hkind]
      rfl
    obtain ⟨values, hvalues, hall⟩ | ⟨cause, hcause⟩ := w.mapM_eval_cases ⟨f, args⟩ frame operands
    · -- The call is one of a declaration, and returns at once.
      rw [hcall, performCall, hvalues, pure_bind] at hstep
      change w.enterIf _ target values s₀ = _ at hstep
      unfold enterIf at hstep
      obtain ⟨gw, hgw, hstep⟩ := Exec.ofChecked_bind_eq_ok.mp hstep
      obtain ⟨hentry, hname, hret⟩ := htarget gw hgw
      rw [hentry] at hstep
      have hdeclared : w.callDeclared gw values = w.callDeclared g₀ values := by
        simp only [callDeclared, hname, hret]
      rw [hdeclared] at hstep
      obtain ⟨hrelies, hbound⟩ := hguard values s₀.memory
        (hpermits _ _ _ values hkind fun s => by rw [hvalues]; rfl)
      obtain ⟨rfl, addrL, addrR, x, y, hfirst, hsecond, hchained, rfl⟩ :=
        hfound.chained hall hrelies hbound hstep
      obtain ⟨hlhs, hrhs⟩ := hfound.decided.sides
      have hbelow : ∀ ptr, site.lhs = .pointer ptr ∨ site.rhs = .pointer ptr →
          ptr.Below f.insts.size := fun ptr hptr =>
        hf.operands _ _ _ _ hc.listed_site hkind ptr
          (hfound.readsAmong ptr hptr)
      have hleft : w'.Locates ⟨f', args⟩ frame' site.lhs addrL := by
        intro ptr hptr
        rw [(halike args).eval_eq hagree (hbelow ptr (.inl hptr)), hlhs ptr hptr]
        exact hfirst
      have hright : w'.Locates ⟨f', args⟩ frame' site.rhs addrR := by
        intro ptr hptr
        rw [(halike args).eval_eq hagree (hbelow ptr (.inr hptr)), hrhs ptr hptr]
        exact hsecond
      have hblocks : (site.chain join 0 f.insts.size firstBlock rest).map Part.block =
          firstBlock :: rest := StringSite.map_block_chain
      have hnodup : (c.head :: firstBlock :: rest).Nodup := hblocks ▸ h.opened.nodup
      have hparts : ∀ p ∈ site.chain join 0 f.insts.size firstBlock rest,
          p ∈ site.parts c join firstBlock rest f.insts.size ∧ p.block ≠ c.head := by
        intro p hp
        refine ⟨List.mem_cons_of_mem _ hp, fun heq => (List.nodup_cons.mp hnodup).1 ?_⟩
        exact heq ▸ hblocks ▸ List.mem_map_of_mem hp
      have hentries : ∀ entry ∈ site.entries 0 f.insts.size firstBlock rest,
          ((site.entries 0 f.insts.size firstBlock rest).find? fun e => e.2 == entry.2) = some entry :=
        fun entry => find?_of_nodup (StringSite.map_block_entries ▸ (List.nodup_cons.mp hnodup).2)
      obtain ⟨p, back, hp, hblock⟩ : ∃ p back,
          site.chain join 0 f.insts.size firstBlock rest = p :: back ∧ p.block = firstBlock := by
        cases rest <;> exact ⟨_, _, rfl, rfl⟩
      obtain ⟨hmem, hne⟩ := hparts p (hp ▸ List.mem_cons_self)
      have harrives : w'.Arrives guard' id ⟨f', args⟩ s₁ f.insts.size
          (frame.insert c.site (mask 32 (byteDifference x y).toUInt64)) ⟨c.head, .br firstBlock, []⟩
          frame' ⟨join, c.term, c.after⟩ :=
        .after (h.leads_part hmem hne fun _ => hblock.symm ▸ jump_br firstBlock)
          (h.arrives_chain hf hc hkind rfl hbelow (hrest ▸ hchained) hparts hentries le_rfl hagree
            hleft hright hp)
      exact harrives
    · rw [hcall, performCall, hcause] at hstep
      cases hstep

end

/-! ## Whole runs -/

theorem Exec.keeps_never : Exec.Keeps fun _ => False :=
  ⟨id, fun _ => id⟩

namespace Module

/-- The functions that compare strings have no bodies. -/
def DeclaresCompares (m : Module) : Prop :=
  ∀ id f, m.function id = .ok f → (CompareFamily.ofName? f.name).isSome → f.isDeclaration = true

/-- What has been assumed of the calls that were taken apart: when one of them is made, the known side
is in memory where its operand leads, and the call reads nothing past it. -/
def reliedOn (m m' : Module) (limits : Limits) : Guard := fun id i values memory =>
  ∀ f f' site, m.function id = .ok f → m'.function id = .ok f' →
    m.inspect f limits i = .ok (.site site) → f'.kind i ≠ f.kind i → site.Relies values memory

/-- The same in a memory of a size that can be. -/
def reliedOnWithin (m m' : Module) (limits : Limits) : Guard := fun id i values memory =>
  m.reliedOn m' limits id i values memory ∧ memory.size < Memory.sizeBound

variable {m m₁ m' : Module} {limits : Limits} {id : FuncId} {i : InstId}

/-- A phi stays one while calls are taken apart. -/
theorem Steps.keeps_phi (h : Steps (Function.Unrolls m limits) m₁ m')
    (hphi : ∃ f kind, m₁.function id = .ok f ∧ f.kind i = .ok kind ∧ kind.isPhi = true) :
    ∃ f kind, m'.function id = .ok f ∧ f.kind i = .ok kind ∧ kind.isPhi = true := by
  refine h.keeps (fun m₁ => ∃ f kind, m₁.function id = .ok f ∧ f.kind i = .ok kind ∧
    kind.isPhi = true) ?_ hphi
  clear hphi
  rintro m₂ id' f f' ⟨f₂, kind, hid, hkind, hphi⟩ hid' hstep
  by_cases heq : id' = id
  · subst heq
    obtain rfl := Except.ok.inj (hid.symm.trans hid')
    have hset : (m₂.setFunction id' f').function id' = .ok f' := by
      rw [function_setFunction (index_lt_of_function hid), if_pos rfl]
    cases hstep with
    | tokens htokens => exact ⟨f', kind, hset, htokens ▸ hkind, hphi⟩
    | @chain f₀ site c join first rest _ hsite _ _ hcall hkindSite _ _ hopened =>
      obtain ⟨-, target, g, args, ret, _, _, _, hfound⟩ := inspect_eq_site hsite
      have hne : i ≠ c.site := by
        rintro rfl
        have hcalls := hkindSite.symm.trans hkind
        rw [hcall, hfound.kind] at hcalls
        obtain rfl := Except.ok.inj hcalls
        cases hphi
      obtain hsame | ⟨-, hrenamed⟩ := hopened.kinds i kind hne hkind
      · exact ⟨f', kind, hset, hsame, hphi⟩
      · exact ⟨f', _, hset, hrenamed, (InstKind.isPhi_renameIncoming kind).trans hphi⟩
  · refine ⟨f₂, kind, ?_, hkind, hphi⟩
    rw [function_setFunction (index_lt_of_function hid'), if_neg (Ne.symm heq)]
    exact hid

/-- Taking a call apart refines the module, where the steps that follow lead to the module of which
is known what is relied on. -/
theorem RefinedBy.unrolls {f f' : Function} (hm : m₁.Tidy) (hsame : m.SameHeaders m₁)
    (hwords : m.ComparesWords) (hdeclares : m₁.DeclaresCompares) (hid : m₁.function id = .ok f)
    (hstep : f.Unrolls m limits id f')
    (hrest : Steps (Function.Unrolls m limits) (m₁.setFunction id f') m') :
    m₁.RefinedBy (m.reliedOnWithin m' limits) (fun _ => False) (m₁.setFunction id f') := by
  have hf := hm id f hid
  have hset : (m₁.setFunction id f').function id = .ok f' := by
    rw [function_setFunction (index_lt_of_function hid), if_pos rfl]
  cases hstep with
  | @tokens annotations heq =>
    subst heq
    exact .of_functionSim Exec.keeps_never hm hid (hf.withAnnotations _) rfl fun _ _ =>
      ⟨_, hf.functionSim annotations⟩
  | @chain f₀ site c join first rest hid₀ hsite hlisted hc hcall hkind hlength hheader hopened =>
    obtain ⟨-, target, g₀, args, ret, _, _, _, hfound⟩ := inspect_eq_site hsite
    obtain ⟨b, pos, hlisted⟩ := hlisted
    have hkindSite : f.kind c.site = .ok (.call (.direct target) args ret) :=
      hkind.trans ((congrArg _ hcall).trans hfound.kind)
    have hprototype := hfound.prototype
    simp only [Function.hasPrototype, Bool.and_eq_true, beq_iff_eq] at hprototype
    have hret : ret = .i32 := hwords id _ hid₀ _ b pos target args ret g₀ hlisted hfound.kind
      hfound.target (by simp [hfound.family]) hprototype.1.1.1
    have hpatched := hopened.patched_unrolled hc hkindSite hfound.readsAmong hf
    have htypes := hpatched.typesKept hkindSite (congrArg some hret)
    refine .of_functionSim Exec.keeps_never hm hid (hpatched.tidy hf hc hkindSite rfl) hopened.name
      fun globals handlers => ⟨_, hpatched.functionSim hkindSite hf hc rfl htypes
        fun p hp hblock => ?_⟩
    obtain rfl : p = StringSite.headPart c first :=
      hopened.eq_of_block_eq hp List.mem_cons_self hblock
    have hsize : (m₁.setFunction id f').functions.size = m₁.functions.size := by
      simp [Module.setFunction]
    have halike : ∀ args, World.Alike ⟨m₁, globals, handlers⟩
        ⟨m₁.setFunction id f', globals, handlers⟩ ⟨f, args⟩ ⟨f', args⟩ :=
      hpatched.alike htypes rfl hsize
    refine World.swaps_unrolled hpatched hf hc hfound hkindSite hlength halike ?_ ?_
    · -- The function that is called is the one that was found, for its name and its result.
      intro g hg
      have hheader := hsame.functions target g₀ g hfound.target hg
      have hbody := hdeclares target g hg (by simp [hheader.name, hfound.family])
      rw [Function.isDeclaration, List.isEmpty_iff] at hbody
      exact ⟨by rw [Function.entryBlock?, hbody]; rfl, hheader.name, hheader.ret⟩
    · rintro values memory ⟨hrelies, hbound⟩
      obtain ⟨f'', kind, hid'', hkind'', hphi⟩ := hrest.keeps_phi ⟨f', _, hset, hopened.site, rfl⟩
      refine ⟨hrelies f₀ f'' site hid₀ hid'' (hcall ▸ hsite) fun heq => ?_, hbound⟩
      rw [hkind'', ← hkind, hkindSite] at heq
      obtain rfl := Except.ok.inj heq
      cases hphi

/-- Declarations stay such. -/
theorem DeclaresCompares.unrolls {f f' : Function} (h : m₁.DeclaresCompares)
    (hid : m₁.function id = .ok f) (hstep : f.Unrolls m limits id f') :
    (m₁.setFunction id f').DeclaresCompares := by
  intro i g hg hname
  rw [function_setFunction (index_lt_of_function hid)] at hg
  split at hg
  · obtain rfl := Except.ok.inj hg
    by_contra hbody
    rw [Bool.not_eq_true] at hbody
    rw [hstep.sameHeader.name] at hname
    exact Bool.noConfusion ((hstep.isDeclaration hbody).symm.trans (h id f hid hname))
  · exact h i g hg hname

/-- Taking calls apart, one after another, refines the module. -/
theorem Steps.refinedBy_unrolls (h : Steps (Function.Unrolls m limits) m₁ m') (hm : m₁.Tidy)
    (hsame : m.SameHeaders m₁) (hwords : m.ComparesWords) (hdeclares : m₁.DeclaresCompares) :
    m₁.RefinedBy (m.reliedOnWithin m' limits) (fun _ => False) m' := by
  induction h using Relation.ReflTransGen.head_induction_on with
  | refl => exact .refl hm
  | head hfirst hrest ih =>
    obtain ⟨id, f, f', hid, hstep, rfl⟩ := hfirst
    have hrefined := RefinedBy.unrolls hm hsame hwords hdeclares hid hstep hrest
    refine hrefined.trans (ih hrefined.tidy (hsame.setFunction hid hstep.sameHeader)
      (hdeclares.unrolls hid hstep))

end Module

namespace Machine

/-- Memory has a size that it can have, and a function that stands in for a missing one leaves it with
such a size. -/
structure Bounded (machine : Machine) : Prop where
  size : machine.store.memory.size < Memory.sizeBound
  handler : ∀ {name handler}, machine.world.handlers.lookup name = some handler →
    ∀ {memory : Memory} args, memory.size < Memory.sizeBound →
      (memory.after (handler args)).size < Memory.sizeBound

theorem Bounded.lasting {machine : Machine} (h : machine.Bounded) :
    machine.world.Lasting fun memory => memory.size < Memory.sizeBound where
  alloc := by
    intro memory len hinv
    unfold Memory.after
    split
    · next heq => exact (Memory.alloc_appends heq).2.2.2
    · next heq =>
      simp only [Memory.alloc] at heq
      split at heq
      · cases heq
      · obtain ⟨-, rfl⟩ := EStateM.Result.error.inj heq
        exact hinv
  write := by
    intro memory addr data hinv
    have hsize : (memory.after (Memory.write addr data)).size = memory.size := by
      unfold Memory.after Memory.write
      cases memory.inBounds addr data.length <;> simp [Memory.size]
    exact hsize ▸ hinv
  handler := h.handler

/-- Taking string comparisons apart keeps the value that a call returns and what it leaves in memory
and in the trace, if what was known of a comparison is true whenever it is made and it reads nothing
else. -/
theorem call_splitStrings {m : Module} (hm : m.Accepted) (honce : m.ListsOnce)
    (hdeclares : m.DeclaresCompares) (hwords : m.ComparesWords) {config : Config}
    {stats : StringStats} {s : PassState}
    (h : (Pass.splitStrings config).runOn m = .ok (.ok stats, s)) :
    ofModule s.module = (ofModule m).map (·.withModule s.module) ∧
      ∀ machine : Machine, machine.world.module = m → machine.Bounded → ∀ name args value,
        (machine.call name args).1 = .ok value →
        (∀ moment, machine.world.Occurs name args machine.store moment →
          machine.world.Permitted (m.reliedOn s.module config.limits) moment) →
        machine.RepeatedBy s.module name args := by
  have htidy := hm.tidy honce
  have hsteps := Pass.splitStrings_steps (s := { module := m }) htidy honce h
  have hrefined : m.RefinedBy (m.reliedOnWithin s.module config.limits) (fun _ => False) s.module :=
    hsteps.refinedBy_unrolls htidy (.refl m) hwords hdeclares
  refine ⟨ofModule_withModule hrefined.globals, ?_⟩
  rintro machine rfl hbounded name args value hvalue hrelied
  refine hrefined.repeatedBy Exec.keeps_never htidy (fun id n hid hn => ?_) fun cause hcause => ?_
  · have hcall := World.call_of_found hid args machine.store
    rw [← hn] at hcall
    obtain ⟨s₁, hrun⟩ : ∃ s₁,
        machine.world.enter (machine.world.run n) id args machine.store = .ok value s₁ := by
      rw [← hcall]
      unfold call exec at hvalue
      cases hresult : machine.world.call name args machine.store with
      | ok value' s₁ =>
        rw [hresult] at hvalue
        exact ⟨s₁, Except.ok.inj hvalue ▸ rfl⟩
      | error cause s₁ =>
        rw [hresult] at hvalue
        cases hvalue
    rw [hrun]
    refine World.enterIf_eq_ok (World.runIf_eq_ok n) (fun f entry hf hentry moment hreach => ?_) hrun
    have hoccurs : machine.world.Occurs name args machine.store moment :=
      ⟨id, f, entry, hid, hf, hentry, hn ▸ hreach⟩
    have hsize := hbounded.lasting.occurs hbounded.size hoccurs
    intro block i insts frame hplace callee operands ret values hkind hvalues
    exact ⟨hrelied moment hoccurs block i insts frame hplace callee operands ret values hkind hvalues,
      hsize⟩
  · rw [hvalue] at hcause
    cases hcause

/-- A machine that can say whether a string is the one that it holds. -/
def asking : Machine where
  world := { module := .strings 32, globals := #[16] }
  store := { memory := { bytes := #[0, 0, 0, 0, 0, 0, 0, 0, 0, 0, 0, 0, 0, 0, 0, 0, 97, 0] }
             stepsLeft := 3 }

theorem asking_call : (asking.call "same" [16]).1 = .ok 1 := by
  have hid : asking.world.module.findFunction? "same" = some ⟨1⟩ := by decide +kernel
  have hcall : asking.world.call "same" [16] asking.store =
      asking.world.run (3 + 1) ⟨Module.sameString 32, [16]⟩ ⟨∅, none, ⟨0⟩⟩ asking.store :=
    World.call_of_found hid [16] asking.store
  have hblock : (Module.sameString 32).block ⟨0⟩ =
    .ok ⟨"entry", [⟨0⟩, ⟨1⟩], .ret (some (.inst ⟨1⟩))⟩ := rfl
  have hphis : (Module.sameString 32).phis ⟨0⟩ = .ok [] := rfl
  have hcompare : asking.world.enter (asking.world.run 3) ⟨0⟩ [16, 16]
      ⟨asking.store.memory, [], 2⟩ = .ok 0 ⟨asking.store.memory, [], 2⟩ := rfl
  have hsame : ∀ caller s, asking.world.step caller ⟨Module.sameString 32, [16]⟩
      ((∅ : Frame).insert ⟨0⟩ 0) ⟨1⟩ s = .ok 1 s := by
    intro caller s
    have hkind : (Module.sameString 32).kind ⟨1⟩ = .ok (.icmp .eq (.inst ⟨0⟩) (.ofWord 32 0)) := rfl
    have hwidth : (Module.sameString 32).intWidth? (.inst ⟨0⟩) = .ok (some 32) := by decide +kernel
    have hvalue : asking.world.eval ⟨Module.sameString 32, [16]⟩ ((∅ : Frame).insert ⟨0⟩ 0)
        (.inst ⟨0⟩) = pure 0 := by simp [World.eval]
    rw [World.step, hkind, Exec.ofChecked_ok, pure_bind]
    dsimp only
    rw [World.widthOf, hwidth, hvalue]
    rfl
  have hvalue : ∀ value : UInt64, asking.world.eval ⟨Module.sameString 32, [16]⟩
      (((∅ : Frame).insert ⟨0⟩ 0).insert ⟨1⟩ value) (.inst ⟨1⟩) = pure value := by
    intro value
    simp [World.eval]
  have hrun : asking.world.run (3 + 1) ⟨Module.sameString 32, [16]⟩ ⟨∅, none, ⟨0⟩⟩ asking.store =
      .ok 1 ⟨asking.store.memory, [], 0⟩ := by
    rw [World.run_succ]
    refine Exec.ofChecked_bind_eq_ok.mpr ⟨_, hblock, Exec.ofChecked_bind_eq_ok.mpr ⟨_, hphis,
      Exec.bind_eq_ok.mpr ⟨[], _, rfl, ?_⟩⟩⟩
    rw [List.length_nil, List.drop_zero, World.rest_cons]
    refine Exec.bind_eq_ok.mpr ⟨(), _, rfl, Exec.bind_eq_ok.mpr ⟨0, _, hcompare, ?_⟩⟩
    rw [World.rest_cons]
    refine Exec.bind_eq_ok.mpr ⟨(), _, rfl, Exec.bind_eq_ok.mpr ⟨1, _, hsame _ _, ?_⟩⟩
    rw [World.rest_nil]
    refine Exec.bind_eq_ok.mpr ⟨(), _, rfl, Exec.bind_eq_ok.mpr ⟨.result 1, _, ?_, rfl⟩⟩
    change (do return .result (← asking.world.eval _ _ (.inst ⟨1⟩)) : Exec Outcome) _ = _
    rw [World.setAll, List.foldl_nil, hvalue]
    rfl
  rw [call, exec, hcall, hrun]

theorem asking_bounded : asking.Bounded :=
  ⟨by decide, nofun⟩

theorem asking_holds : asking.store.memory.Holds 16 [97, 0] := by
  refine ⟨by decide, by decide, fun i hi => ?_⟩
  have hlt : i < 2 := hi
  interval_cases i <;> rfl

/-- The functions of the machine. -/
theorem asking_functions {id : FuncId} {f : Function}
    (h : asking.world.module.function id = .ok f) :
    (id = ⟨0⟩ ∧ f = .declare "strcmp" [.ptr, .ptr] .i32) ∨ (id = ⟨1⟩ ∧ f = Module.sameString 32) := by
  obtain ⟨_ | _ | index⟩ := id
  · exact .inl ⟨rfl, (Except.ok.inj h).symm⟩
  · exact .inr ⟨rfl, (Except.ok.inj h).symm⟩
  · cases h

theorem asking_kind {id : FuncId} {f : Function} {i : InstId} {kind : InstKind}
    (h : asking.world.module.function id = .ok f) (hkind : f.kind i = .ok kind) :
    id = ⟨1⟩ ∧ f = Module.sameString 32 ∧ (i = ⟨0⟩ ∨ kind.touches = false) := by
  obtain ⟨-, rfl⟩ | ⟨rfl, rfl⟩ := asking_functions h
  · cases hkind
  · refine ⟨rfl, rfl, ?_⟩
    obtain ⟨_ | _ | index⟩ := i
    · exact .inl rfl
    · obtain rfl := Except.ok.inj hkind
      exact .inr rfl
    · cases hkind

/-- The machine only reads its memory. -/
theorem asking_sustained : asking.world.Sustained (· = asking.store.memory)
    (fun id a _ => asking.world.module.function id = .ok a.function) fun _ => True where
  start := fun _ hf => hf
  phis := fun hgood _ => hgood
  value := fun hgood _ _ => hgood
  step := by
    intro id a n es block i insts frame s s₁ hgood hinv _ htick
    replace hinv : s₁.memory = _ := ((Exec.still_tick s).of_ok htick).trans hinv
    refine Exec.Still.leaves ?_ hinv
    cases hkind : a.function.kind i with
    | error fault =>
      unfold World.step
      rw [hkind]
      exact Exec.still_throw _
    | ok kind =>
      obtain ⟨-, hf, rfl | htouches⟩ := asking_kind hgood hkind
      · obtain ⟨f, args⟩ := a
        obtain rfl := hf
        have hcalled : (asking.world.callDeclared (.declare "strcmp" [.ptr, .ptr] .i32)
            [(args[0]?).getD 0, 16]).Still :=
          World.still_callDeclared rfl (by decide) _
        exact hcalled
      · exact World.still_step hkind htouches
  terminator := by
    intro id a n es block frame b s s₁ hgood hinv _ hblock htick
    replace hinv : s₁.memory = _ := ((Exec.still_tick s).of_ok htick).trans hinv
    refine (World.still_runTerminator ?_).leaves hinv
    obtain ⟨-, hf⟩ | ⟨-, hf⟩ := asking_functions hgood
    · rw [hf] at hblock
      cases hblock
    · rw [hf] at hblock
      obtain ⟨_ | index⟩ := block
      · obtain rfl := Except.ok.inj hblock
        rfl
      · cases hblock

theorem asking_relies {limits : Limits} {site : StringSite} (addr : UInt64)
    (h : (Module.strings 32).inspect (Module.sameString 32) limits ⟨0⟩ = .ok (.site site)) :
    site.Relies [addr, 16] asking.store.memory := by
  obtain ⟨hcall, target, g, operands, ret, first, second, limit, hfound⟩ := Module.inspect_eq_site h
  have hkind := hfound.kind
  rw [hcall] at hkind
  obtain ⟨htarget, hoperands, -⟩ : Callee.direct ⟨0⟩ = .direct target ∧
      [.arg 0, .global ⟨0⟩] = operands ∧ .int 32 = ret := InstKind.call.inj (Except.ok.inj hkind)
  subst hoperands
  obtain rfl := Callee.direct.inj htarget
  obtain rfl : Function.declare "strcmp" [.ptr, .ptr] .i32 = g := Except.ok.inj hfound.target
  obtain ⟨hfamily, hfold⟩ : CompareFamily.strcmp = site.family ∧ false = site.foldCase :=
    Prod.mk.inj (Option.some.inj hfound.family)
  cases hfound.operands with
  | unbounded =>
    have hlength : site.readLength [addr, 16] asking.store.memory ≤ 2 := by
      unfold StringSite.readLength
      rw [← hfamily, ← hfold]
      exact Memory.comparedFrom_le_of_nul (fun k hk => asking_holds.byte asking_bounded.size hk)
        (by decide)
    cases hfound.decided with
    | neither _ hsecond => cases hsecond
    | left hfirst => cases hfirst
    | @right data _ hsecond hleft hright =>
      obtain rfl : [97, 0] = data := Option.some.inj (Except.ok.inj hsecond)
      refine ⟨fun data hdata => ?_, fun data hdata => ?_⟩
      · cases hleft.symm.trans hdata
      · obtain rfl := Side.bytes.inj (hright.symm.trans hdata)
        exact ⟨asking_holds, hlength⟩

theorem asking_permitted {m' : Module} {limits : Limits} {moment : Moment}
    (h : asking.world.Occurs "same" [16] asking.store moment) :
    asking.world.Permitted ((Module.strings 32).reliedOn m' limits) moment := by
  obtain ⟨hgood, hmemory⟩ := asking_sustained.occurs (fun _ _ => trivial) rfl h
  obtain ⟨id, ⟨f₀, args⟩, n, es, place, s⟩ := moment
  dsimp only at hgood hmemory
  intro block i insts frame _ callee operands ret values hkind hvalues f f' site hf _ hsite _
  dsimp only at hkind hvalues hf ⊢
  obtain ⟨rfl, rfl, rfl | htouches⟩ := asking_kind hgood hkind
  · obtain rfl : Module.sameString 32 = f := Except.ok.inj hf
    obtain rfl : [.arg 0, .global ⟨0⟩] = operands := (InstKind.call.inj (Except.ok.inj hkind)).2.1
    obtain rfl : [(args[0]?).getD 0, 16] = values := (EStateM.Result.ok.inj (hvalues s)).1
    exact hmemory ▸ asking_relies _ hsite
  · cases htouches

theorem strings_declaresCompares : (Module.strings 32).DeclaresCompares := by
  intro id f hf hname
  obtain ⟨-, rfl⟩ | ⟨-, rfl⟩ := asking_functions hf
  · rfl
  · cases hname

theorem asking_call_splitStrings : ∃ s, (∃ stats,
    (Pass.splitStrings (.coverage .all)).runOn asking.world.module = .ok (.ok stats, s)) ∧
      asking.RepeatedBy s.module "same" [16] := by
  have hlocal : (Module.strings 32).isLocal = true := by decide +kernel
  obtain ⟨stats, s, h⟩ := Pass.exists_of_completes
    (show Pass.completes ((Pass.splitStrings (.coverage .all)).runOn (.strings 32)) = true by
      decide +kernel)
  refine ⟨s, ⟨stats, h⟩, ?_⟩
  exact (call_splitStrings (Module.accepted_of_isLocal hlocal) (Module.listsOnce_of_isLocal hlocal)
    strings_declaresCompares Module.comparesWords_strings h).2 asking rfl asking_bounded "same" [16] 1
      asking_call fun _ => asking_permitted

end Machine

end EdgeProbe
