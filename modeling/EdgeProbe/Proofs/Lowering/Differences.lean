import EdgeProbe.Proofs.Lowering.StringsSound
import EdgeProbe.Proofs.Lowering.StringSite
import EdgeProbe.Proofs.Machine.Compared

/-!
# What a chain of differences finds

A block in the place of a comparison of strings reads a byte of either side and subtracts one from
the other (`World.finds_difference`), and decides whether to go on (`World.computes_continue`). If
the blocks are as many as has been found out about the call, and the known side is in memory, they
stop at the bytes that the call stops at (`StringSite.Decided.chained_strings`,
`StringSite.Decided.chained_regions`).
-/

namespace EdgeProbe

/-! ## Bytes as numbers of 32 bits -/

theorem ofNat_toNat_byte (x : UInt8) : UInt64.ofNat x.toNat = x.toUInt64 := by
  simp

theorem toUInt64_byteDifference (x y : UInt8) :
    (byteDifference x y).toUInt64 = x.toUInt64 - y.toUInt64 := by
  have hnat : ∀ z : UInt8, (Int64.ofInt (z.toNat : Int)).toUInt64 = z.toUInt64 := by
    intro z
    rw [Int64.ofInt_eq_ofNat]
    exact ofNat_toNat_byte z
  rw [byteDifference, Int64.ofInt_sub, Int64.toUInt64_sub, hnat, hnat]

/-- Only bytes that are the same have no difference. -/
theorem difference_eq_zero (x y : UInt8) :
    Predicate.eq.evaluate 32 (mask 32 (byteDifference x y).toUInt64) 0 = (x == y) := by
  have hx := x.toNat_lt
  have hy := y.toNat_lt
  have hsub : (x.toUInt64 - y.toUInt64).toNat = (2 ^ 64 - y.toNat + x.toNat) % 2 ^ 64 := by
    rw [UInt64.toNat_sub, UInt8.toNat_toUInt64, UInt8.toNat_toUInt64]
  rw [Bool.eq_iff_iff, Predicate.evaluate]
  simp only [beq_iff_eq, ← UInt64.toNat_inj, ← UInt8.toNat_inj, toNat_mask, toUInt64_byteDifference,
    hsub, UInt64.toNat_zero]
  omega

theorem byte_ne_zero (x : UInt8) : Predicate.ne.evaluate 32 x.toUInt64 0 = (x != 0) := by
  rw [Bool.eq_iff_iff, Predicate.evaluate, mask_toUInt64 (by decide)]
  simp only [bne_iff_ne, ne_eq, ← UInt64.toNat_inj, ← UInt8.toNat_inj, toNat_mask,
    UInt8.toNat_toUInt64, UInt64.toNat_zero, Nat.zero_mod, UInt8.toNat_zero]

/-- Whether a number of 32 bits is a capital letter. -/
def isCapital (c : UInt64) : Bool :=
  Predicate.ult.evaluate 32 (BinOp.sub.evaluate 32 c 65) 26

/-- What the code for small letters makes of a byte is the small letter. -/
theorem lower_byte (x : UInt8) :
    (if isCapital x.toUInt64 then BinOp.add.evaluate 32 x.toUInt64 32 else x.toUInt64) =
      (Text.lowerByte x).toUInt64 := by
  have hall : ∀ n : Fin 256, (if isCapital (UInt8.ofFin n).toUInt64
      then BinOp.add.evaluate 32 (UInt8.ofFin n).toUInt64 32 else (UInt8.ofFin n).toUInt64) =
        (Text.lowerByte (UInt8.ofFin n)).toUInt64 := by
    decide +kernel
  exact hall x.toFin

theorem Memory.readWord_byte {m : Memory} {addr : UInt64} {x : UInt8} (h : m.byte addr = .ok x) :
    m.readWord addr 1 = .ok x.toUInt64 := by
  have hbounds := Compares.byte_bounds h
  have hholds : m.Holds addr [x] := by
    refine ⟨hbounds.1, hbounds.2, fun i hi => ?_⟩
    obtain rfl : i = 0 := by simpa using hi
    unfold byte at h
    split at h
    · have hlt : addr.toNat < m.bytes.size := hbounds.2
      rw [Array.getD_eq_getD_getElem?, Array.getElem?_eq_getElem hlt, Option.getD_some] at h
      rw [Nat.add_zero, Array.getElem?_eq_getElem hlt, Except.ok.inj h]
      rfl
    · cases h
  have hread : m.read addr 1 = .ok #[x] := hholds.read_eq
  rw [readWord, if_neg (by decide), hread]
  simp [ofLeBytes]

/-! ## The byte of a side -/

/-- At an index of a side is this byte, with the case that counts: a known one, or the one in memory
behind the address that the side has. -/
def Side.Shows (side : Side) (memory : Memory) (foldCase : Bool) (addr : UInt64) (index : Nat)
    (x : UInt8) : Prop :=
  match side with
  | .bytes data => x = Text.foldCase foldCase (data.getD index 0)
  | .pointer _ => ∃ b, memory.byte (addr + UInt64.ofNat index) = .ok b ∧ x = Text.foldCase foldCase b

theorem Side.below_result (side : Side) (index : Nat) (foldCase : Bool) (n : Nat) :
    (side.result index foldCase n).Below (n + (side.code index foldCase n).length) := by
  cases side with
  | bytes data => exact Value.below_const _ _
  | pointer ptr => cases foldCase <;> simp [result, code, Edit.lowerCode]

/-- The operand of a side has this value. -/
def World.Locates (w : World) (a : Activation) (frame : Frame) (side : Side) (addr : UInt64) : Prop :=
  ∀ ptr, side = .pointer ptr → w.eval a frame ptr = pure addr

namespace World

variable {w : World} {g : Guard} {id : FuncId} {a : Activation} {s : Store} {block : BlockId}
  {term : Terminator} {insts : List InstId} {frame frame₁ : Frame} {n size : Nat} {x y : UInt8}
  {addr : UInt64} {i : InstId} {value : Value}

theorem computes_gep {base : Value} {distance : UInt64}
    (hkind : a.function.kind i = .ok (.gep base (.ofWord 64 distance)))
    (hbase : w.eval a frame base = pure addr) :
    w.Computes g id a s ⟨block, term, i :: insts⟩ frame ⟨block, term, insts⟩ i.index i
      (addr + distance) := by
  refine computes_pure hkind rfl fun caller => ?_
  have hwidth : widthOf a (.ofWord 64 distance) = pure 64 :=
    widthOf_eq (Checked.map_eq_ok.mpr ⟨.int 64, Function.valueType_ofWord _ _ _, rfl⟩)
  simp only [step, hkind, Exec.ofChecked_ok, pure_bind, hwidth, hbase]
  rfl

theorem computes_load {ptr : Value} (hkind : a.function.kind i = .ok (.load .i8 ptr))
    (hptr : w.eval a frame ptr = pure addr) (hbyte : s.memory.byte addr = .ok x) :
    w.Computes g id a s ⟨block, term, i :: insts⟩ frame ⟨block, term, insts⟩ i.index i
      x.toUInt64 := by
  refine computes_of_step hkind rfl fun caller left => ?_
  have hread : (s.withSteps left).memory.readWord addr (Ty.storeSize .i8) = .ok x.toUInt64 :=
    Memory.readWord_byte hbyte
  simp only [step, hkind, Exec.ofChecked_ok, pure_bind, hptr]
  change EStateM.bind (Exec.ask _) _ (s.withSteps left) = _
  unfold EStateM.bind Exec.ask
  dsimp only
  rw [hread]
  exact congrArg (EStateM.Result.ok · (s.withSteps left)) (mask_toUInt64 le_rfl x)

theorem computes_zext {source width : Nat} {z : UInt64}
    (hkind : a.function.kind i = .ok (.cast .zext value width))
    (hwidth : a.function.intWidth? value = .ok (some source)) (hvalue : w.eval a frame value = pure z) :
    w.Computes g id a s ⟨block, term, i :: insts⟩ frame ⟨block, term, insts⟩ i.index i
      (mask width (mask source z)) := by
  refine computes_pure hkind rfl fun caller => ?_
  simp only [step, hkind, Exec.ofChecked_ok, pure_bind, widthOf_eq hwidth, hvalue]

theorem computes_select {cond onTrue onFalse : Value} {holds : Bool} {z : UInt64}
    (hkind : a.function.kind i = .ok (.select cond onTrue onFalse))
    (hcond : w.eval a frame cond = pure (if holds then 1 else 0))
    (hvalue : w.eval a frame (if holds then onTrue else onFalse) = pure z) :
    w.Computes g id a s ⟨block, term, i :: insts⟩ frame ⟨block, term, insts⟩ i.index i z := by
  refine computes_pure hkind rfl fun caller => ?_
  rw [step_select hkind, hcond, pure_bind]
  cases holds <;> exact hvalue

/-! ### The code of a side -/

/-- On the way from one place to another one an operand gets a value, and nothing is changed that
comes before some number. -/
def Finds (w : World) (g : Guard) (id : FuncId) (a : Activation) (s : Store) (start : Rest)
    (frame : Frame) (stop : Rest) (size : Nat) (value : Value) (x : UInt64) : Prop :=
  ∃ frame', w.Leads g id a s start frame stop frame' ∧ Agree size frame frame' ∧
    w.eval a frame' value = pure x

theorem computes_byte {ptr : Value} {index : Nat}
    (hholds : a.function.Holds n ((Side.pointer ptr).code index false n))
    (hptr : w.eval a frame ptr = pure addr)
    (hbyte : s.memory.byte (addr + UInt64.ofNat index) = .ok x) :
    w.Computes g id a s ⟨block, term, ⟨n⟩ :: ⟨n + 1⟩ :: ⟨n + 2⟩ :: insts⟩ frame ⟨block, term, insts⟩ n
      ⟨n + 2⟩ x.toUInt64 := by
  have hgep : a.function.kind ⟨n⟩ = .ok (.gep ptr (.ofWord 64 (UInt64.ofNat index))) :=
    hholds.kind (k := 0) rfl
  have hload : a.function.kind ⟨n + 1⟩ = .ok (.load .i8 (.inst ⟨n⟩)) := hholds.kind (k := 1) rfl
  have hzext : a.function.kind ⟨n + 2⟩ = .ok (.cast .zext (.inst ⟨n + 1⟩) 32) :=
    hholds.kind (k := 2) rfl
  have hwidth : a.function.intWidth? (.inst ⟨n + 1⟩) = .ok (some 8) :=
    Function.intWidth?_of_fixedType? hload rfl
  obtain ⟨frame₁, hlead₁, hagree₁, hvalue₁⟩ := computes_gep hgep hptr
  obtain ⟨frame₂, hlead₂, hagree₂, hvalue₂⟩ := computes_load hload hvalue₁ hbyte
  obtain ⟨frame₃, hlead₃, hagree₃, hvalue₃⟩ := computes_zext hzext hwidth hvalue₂
  refine ⟨frame₃, (hlead₁.trans hlead₂).trans hlead₃,
    (hagree₁.trans (hagree₂.mono (Nat.le_succ n))).trans (hagree₃.mono (Nat.le_add_right n 2)), ?_⟩
  rw [hvalue₃, mask_toUInt64 le_rfl, mask_toUInt64 (by decide)]

/-- The type of a sum or a difference is that of its first operand. -/
theorem intWidth?_of_binary {f : Function} {op : BinOp} {lhs rhs : Value} {width : Nat}
    (hkind : f.kind i = .ok (.binary op lhs rhs))
    (hlhs : f.valueTypeWithin 0 lhs = .ok (.int width)) :
    f.intWidth? (.inst i) = .ok (some width) := by
  have hdepth := (Function.valueTypeWithin_of_typeOperand? hkind rfl 0).trans hlhs
  have hlt := Function.index_lt_of_kind hkind
  exact Checked.map_eq_ok.mpr ⟨.int width, Function.valueTypeWithin_mono (by omega) hdepth, rfl⟩

theorem computes_lower {c : InstId} (hholds : a.function.Holds n (Edit.lowerCode n (.inst c)))
    (hc : (Value.inst c).Below n) (htype : a.function.valueTypeWithin 0 (.inst c) = .ok .i32)
    (hx : w.eval a frame (.inst c) = pure x.toUInt64) :
    w.Computes g id a s ⟨block, term, ⟨n⟩ :: ⟨n + 1⟩ :: ⟨n + 2⟩ :: ⟨n + 3⟩ :: insts⟩ frame
      ⟨block, term, insts⟩ n ⟨n + 3⟩ (Text.lowerByte x).toUInt64 := by
  have hsub : a.function.kind ⟨n⟩ = .ok (.binary .sub (.inst c) (Edit.word32 65)) :=
    hholds.kind (k := 0) rfl
  have hicmp : a.function.kind ⟨n + 1⟩ = .ok (.icmp .ult (.inst ⟨n⟩) (Edit.word32 26)) :=
    hholds.kind (k := 1) rfl
  have hadd : a.function.kind ⟨n + 2⟩ = .ok (.binary .add (.inst c) (Edit.word32 32)) :=
    hholds.kind (k := 2) rfl
  have hselect : a.function.kind ⟨n + 3⟩ =
      .ok (.select (.inst ⟨n + 1⟩) (.inst ⟨n + 2⟩) (.inst c)) := hholds.kind (k := 3) rfl
  obtain ⟨frame₁, hlead₁, hagree₁, hvalue₁⟩ :=
    computes_binary hsub (intWidth?_of_binary hsub htype) hx (rfl : w.eval a frame _ = pure 65)
  obtain ⟨frame₂, hlead₂, hagree₂, hvalue₂⟩ := computes_icmp hicmp (intWidth?_of_binary hsub htype)
    hvalue₁ (rfl : w.eval a frame₁ _ = pure 26)
  have hagree := hagree₁.trans (hagree₂.mono (Nat.le_succ n))
  have hx₂ : w.eval a frame₂ (.inst c) = pure x.toUInt64 := (eval_of_agree hagree hc).trans hx
  obtain ⟨frame₃, hlead₃, hagree₃, hvalue₃⟩ := computes_binary hadd (intWidth?_of_binary hadd htype)
    hx₂ (rfl : w.eval a frame₂ _ = pure 32)
  have hvalue₂' : w.eval a frame₃ (.inst ⟨n + 1⟩) = pure (if isCapital x.toUInt64 then 1 else 0) :=
    (eval_of_agree hagree₃ (Nat.lt_succ_self _)).trans hvalue₂
  have hchosen : w.eval a frame₃
      (if isCapital x.toUInt64 then .inst ⟨n + 2⟩ else .inst c) =
        pure (Text.lowerByte x).toUInt64 := by
    rw [← lower_byte]
    split
    · exact hvalue₃
    · exact (eval_of_agree hagree₃ (hc.mono (Nat.le_add_right n 2))).trans hx₂
  obtain ⟨frame₄, hlead₄, hagree₄, hvalue₄⟩ := computes_select hselect hvalue₂' hchosen
  exact ⟨frame₄, ((hlead₁.trans hlead₂).trans hlead₃).trans hlead₄,
    (hagree.trans (hagree₃.mono (Nat.le_add_right n 2))).trans (hagree₄.mono (Nat.le_add_right n 3)),
    hvalue₄⟩

theorem finds_side {side : Side} {foldCase : Bool} {index : Nat}
    (hholds : a.function.Holds n (side.code index foldCase n))
    (haddr : w.Locates a frame side addr) (hx : side.Shows s.memory foldCase addr index x) :
    w.Finds g id a s
      ⟨block, term, (numbered n (side.code index foldCase n)).map (·.1) ++ insts⟩ frame
      ⟨block, term, insts⟩ n (side.result index foldCase n) x.toUInt64 := by
  cases side with
  | bytes data =>
    obtain rfl := hx
    refine ⟨frame, .refl, .refl _ _, ?_⟩
    change pure (mask 32 (UInt64.ofNat _)) = _
    rw [ofNat_toNat_byte, mask_toUInt64 (by decide)]
  | pointer ptr =>
    obtain ⟨b, hbyte, rfl⟩ := hx
    cases foldCase with
    | false => exact computes_byte hholds (haddr ptr rfl) hbyte
    | true =>
      obtain ⟨hcode, hlower⟩ := Function.holds_append.mp hholds
      obtain ⟨frame₁, hlead₁, hagree₁, hvalue₁⟩ := computes_byte hcode (haddr ptr rfl) hbyte
      have htype : a.function.valueTypeWithin 0 (.inst ⟨n + 2⟩) = .ok .i32 :=
        Function.valueTypeWithin_of_fixedType? (hholds.kind (k := 2) rfl) rfl 0
      obtain ⟨frame₂, hlead₂, hagree₂, hvalue₂⟩ :=
        computes_lower hlower (Value.below_inst.mpr (Nat.lt_succ_self (n + 2))) htype hvalue₁
      exact ⟨frame₂, hlead₁.trans hlead₂, hagree₁.trans (hagree₂.mono (Nat.le_add_right n 3)), hvalue₂⟩

/-! ### The code of a link -/

section

variable {site : StringSite} {index : Nat} {addrL addrR : UInt64}

/-- The code that subtracts the bytes at an index finds their difference, and the byte on the left is
still there. -/
theorem finds_difference (hholds : a.function.Holds n (site.differenceCode index n))
    (hleft : w.Locates a frame site.lhs addrL) (hright : w.Locates a frame site.rhs addrR)
    (hbelow : ∀ ptr, site.rhs = .pointer ptr → ptr.Below n)
    (hx : site.lhs.Shows s.memory site.foldCase addrL index x)
    (hy : site.rhs.Shows s.memory site.foldCase addrR index y) :
    ∃ frame', w.Leads g id a s
        ⟨block, term, (numbered n (site.differenceCode index n)).map (·.1) ++ insts⟩ frame
        ⟨block, term, insts⟩ frame' ∧ Agree n frame frame' ∧
      w.eval a frame' (site.left index n) = pure x.toUInt64 ∧
      w.eval a frame' (.inst ⟨site.last index n⟩) =
        pure (mask 32 (byteDifference x y).toUInt64) := by
  obtain ⟨hcodeL, hcodeR, hsub⟩ := StringSite.holds_differenceCode hholds
  have hcode : (numbered n (site.differenceCode index n)).map (·.1) ++ insts =
      (numbered n (site.lhs.code index site.foldCase n)).map (·.1) ++
        ((numbered (site.middle index n) (site.rhs.code index site.foldCase (site.middle index n))).map
          (·.1) ++ ⟨site.last index n⟩ :: insts) := by
    simp only [StringSite.differenceCode, numbered_append, List.map_append, List.append_assoc]
    rfl
  obtain ⟨frame₁, hlead₁, hagree₁, hvalue₁⟩ := finds_side hcodeL hleft hx
  have hright₁ : w.Locates a frame₁ site.rhs addrR := fun ptr hptr =>
    (eval_of_agree hagree₁ (hbelow ptr hptr)).trans (hright ptr hptr)
  obtain ⟨frame₂, hlead₂, hagree₂, hvalue₂⟩ := finds_side hcodeR hright₁ hy
  have hvalue₁' : w.eval a frame₂ (site.left index n) = pure x.toUInt64 :=
    (eval_of_agree hagree₂ (site.lhs.below_result index site.foldCase n)).trans hvalue₁
  have hwidth : a.function.intWidth? (.inst ⟨site.last index n⟩) = .ok (some 32) :=
    Checked.map_eq_ok.mpr ⟨.i32, StringSite.valueType_difference hholds, rfl⟩
  obtain ⟨frame₃, hlead₃, hagree₃, hvalue₃⟩ := computes_binary hsub hwidth hvalue₁' hvalue₂
  have hle : site.middle index n ≤ site.last index n := StringSite.middle_le_last
  refine ⟨frame₃, hcode ▸ (hlead₁.trans hlead₂).trans hlead₃,
    (hagree₁.trans (hagree₂.mono StringSite.le_middle)).trans
      (hagree₃.mono (StringSite.le_middle.trans hle)), ?_, ?_⟩
  · have hbelow : (site.left index n).Below (site.last index n) :=
      (site.lhs.below_result index site.foldCase n).mono hle
    exact (eval_of_agree hagree₃ hbelow).trans hvalue₁'
  · rw [hvalue₃]
    change pure (mask 32 (x.toUInt64 - y.toUInt64)) = _
    rw [toUInt64_byteDifference]

/-- The decision is to go on if the bytes are the same, and no NUL where one is looked for. -/
theorem computes_continue (hholds : a.function.Holds n (site.linkCode index n))
    (hx : w.eval a frame (site.left index n) = pure x.toUInt64)
    (hdifference : w.eval a frame (.inst ⟨site.last index n⟩) =
      pure (mask 32 (byteDifference x y).toUInt64)) :
    w.Computes g id a s
      ⟨block, term, (numbered (site.last index n + 1) (site.continueCode index n)).map (·.1) ++ insts⟩
      frame ⟨block, term, insts⟩ (site.last index n + 1) ⟨site.decision index n⟩
      (if x == y && !(site.checksNul && x == 0) then 1 else 0) := by
  obtain ⟨hdiffers, hcontinue⟩ := StringSite.holds_linkCode hholds
  have hwidth : a.function.intWidth? (.inst ⟨site.last index n⟩) = .ok (some 32) :=
    Checked.map_eq_ok.mpr ⟨.i32, StringSite.valueType_difference hdiffers, rfl⟩
  unfold StringSite.continueCode at hcontinue ⊢
  unfold StringSite.decision
  obtain ⟨hsame, hrest⟩ := Function.holds_cons.mp hcontinue
  have hfirst : ∀ insts, w.Computes g id a s ⟨block, term, ⟨site.last index n + 1⟩ :: insts⟩ frame
      ⟨block, term, insts⟩ (site.last index n + 1) ⟨site.last index n + 1⟩
      (if x == y then 1 else 0) := by
    intro insts
    rw [← difference_eq_zero]
    exact computes_icmp hsame hwidth hdifference rfl
  cases hchecks : site.checksNul with
  | false =>
    rw [Bool.false_and, Bool.not_false, Bool.and_true]
    exact hfirst insts
  | true =>
    obtain ⟨frame₁, hlead₁, hagree₁, hvalue₁⟩ :=
      hfirst (⟨site.last index n + 2⟩ :: ⟨site.last index n + 3⟩ :: insts)
    rw [hchecks, if_pos rfl] at hrest
    have hne : a.function.kind ⟨site.last index n + 2⟩ =
        .ok (.icmp .ne (site.left index n) (Edit.word32 0)) := hrest.kind (k := 0) rfl
    have hand : a.function.kind ⟨site.last index n + 3⟩ =
        .ok (.binary .and (.inst ⟨site.last index n + 1⟩) (.inst ⟨site.last index n + 2⟩)) :=
      hrest.kind (k := 1) rfl
    have hbelow : (site.left index n).Below (site.last index n + 1) :=
      (site.lhs.below_result index site.foldCase n).mono
        (StringSite.middle_le_last.trans (Nat.le_succ _))
    have hwidthL : a.function.intWidth? (site.left index n) = .ok (some 32) :=
      Checked.map_eq_ok.mpr
        ⟨.i32, Side.valueType_result (StringSite.holds_differenceCode hdiffers).1, rfl⟩
    obtain ⟨frame₂, hlead₂, hagree₂, hvalue₂⟩ := computes_icmp hne hwidthL
      ((eval_of_agree hagree₁ hbelow).trans hx) (rfl : w.eval a frame₁ _ = pure 0)
    rw [byte_ne_zero] at hvalue₂
    have hbit : a.function.intWidth? (.inst ⟨site.last index n + 3⟩) = .ok (some 1) :=
      intWidth?_of_binary hand (Function.valueTypeWithin_of_fixedType? hsame rfl 0)
    have hvalue₁' := (eval_of_agree hagree₂ (Value.below_inst.mpr (Nat.lt_succ_self _))).trans hvalue₁
    obtain ⟨frame₃, hlead₃, hagree₃, hvalue₃⟩ := computes_binary hand hbit hvalue₁' hvalue₂
    refine ⟨frame₃, (hlead₁.trans hlead₂).trans hlead₃,
      (hagree₁.trans (hagree₂.mono (Nat.le_succ _))).trans (hagree₃.mono (Nat.le_add_right _ 2)), ?_⟩
    refine hvalue₃.trans (congrArg pure ?_)
    cases x == y <;> cases hzero : x == 0 <;> simp [bne, hzero] <;> rfl

/-- A block that another one follows finds the difference and decides. -/
theorem finds_link (hholds : a.function.Holds n (site.linkCode index n))
    (hleft : w.Locates a frame site.lhs addrL) (hright : w.Locates a frame site.rhs addrR)
    (hbelow : ∀ ptr, site.rhs = .pointer ptr → ptr.Below n)
    (hx : site.lhs.Shows s.memory site.foldCase addrL index x)
    (hy : site.rhs.Shows s.memory site.foldCase addrR index y) :
    ∃ frame', w.Leads g id a s ⟨block, term, (numbered n (site.linkCode index n)).map (·.1)⟩ frame
        ⟨block, term, []⟩ frame' ∧ Agree n frame frame' ∧
      w.eval a frame' (.inst ⟨site.last index n⟩) =
        pure (mask 32 (byteDifference x y).toUInt64) ∧
      w.eval a frame' (.inst ⟨site.decision index n⟩) =
        pure (if x == y && !(site.checksNul && x == 0) then 1 else 0) := by
  have hcode : (numbered n (site.linkCode index n)).map (·.1) =
      (numbered n (site.differenceCode index n)).map (·.1) ++
        ((numbered (site.last index n + 1) (site.continueCode index n)).map (·.1) ++ []) := by
    rw [StringSite.linkCode, numbered_append, site.length_differenceCode, List.map_append,
      List.append_nil]
  obtain ⟨frame₁, hlead₁, hagree₁, hvalue₁, hdifference⟩ :=
    finds_difference (StringSite.holds_linkCode hholds).1 hleft hright hbelow hx hy
  obtain ⟨frame₂, hlead₂, hagree₂, hdecision⟩ := computes_continue hholds hvalue₁ hdifference
  have hle : n ≤ site.last index n + 1 :=
    (StringSite.le_middle.trans StringSite.middle_le_last).trans (Nat.le_succ _)
  refine ⟨frame₂, hcode ▸ hlead₁.trans hlead₂, hagree₁.trans (hagree₂.mono hle), ?_, hdecision⟩
  exact (eval_of_agree hagree₂ (Value.below_inst.mpr (Nat.lt_succ_self _))).trans hdifference

end

end World

/-! ## Where the chain stops -/

theorem Memory.Holds.byte {m : Memory} {addr : UInt64} {data : List UInt8} (h : m.Holds addr data)
    (hbound : m.size < Memory.sizeBound) {k : Nat} (hk : k < data.length) :
    m.byte (addr + UInt64.ofNat k) = .ok (data.getD k 0) := by
  obtain ⟨-, hbyte⟩ := Memory.byte_of_read h.read_eq hbound
  rw [hbyte k hk, List.getElem_toArray, List.getD_eq_getElem?_getD, List.getElem?_eq_getElem hk,
    Option.getD_some]

theorem getD_ne_zero_of_lt {data : List UInt8} {k : Nat} (hk : k < (beforeNul data).length) :
    data.getD k 0 ≠ 0 := by
  have hprefix : beforeNul data <+: data := List.takeWhile_prefix _
  have hlt : k < data.length := hk.trans_le hprefix.length_le
  have hmem : data[k] ∈ beforeNul data := hprefix.getElem hk ▸ List.getElem_mem hk
  rw [List.getD_eq_getElem?_getD, List.getElem?_eq_getElem hlt, Option.getD_some]
  simpa using List.all_eq_true.mp (List.all_takeWhile : (beforeNul data).all (· != 0) = true) _ hmem

/-- The first NUL is where the bytes before it end. -/
theorem getD_length_beforeNul (data : List UInt8) : data.getD (beforeNul data).length 0 = 0 := by
  unfold beforeNul
  induction data with
  | nil => rfl
  | cons x rest ih =>
    by_cases hx : x = 0
    · subst hx
      rfl
    · rw [List.takeWhile_cons_of_pos (by simpa using hx)]
      exact ih

theorem stringLength_le (data : List UInt8) (limit : Option Nat) :
    stringLength data limit ≤ data.length ∧
      stringLength data limit ≤ (beforeNul data).length + 1 ∧
      ∀ n ∈ limit, stringLength data limit ≤ n := by
  cases limit with
  | none =>
    refine ⟨Nat.min_le_right _ _, Nat.min_le_left _ _, nofun⟩
  | some n =>
    refine ⟨(Nat.min_le_right _ _).trans (Nat.min_le_right _ _),
      (Nat.min_le_right _ _).trans (Nat.min_le_left _ _), ?_⟩
    rintro _ ⟨⟩
    exact Nat.min_le_left _ _

theorem le_stringLength {data : List UInt8} {limit : Option Nat} {n : Nat} (hdata : n ≤ data.length)
    (hnul : n ≤ (beforeNul data).length + 1) (hlimit : ∀ l ∈ limit, n ≤ l) :
    n ≤ stringLength data limit := by
  cases limit with
  | none => exact Nat.le_min.mpr ⟨hnul, hdata⟩
  | some l => exact Nat.le_min.mpr ⟨hlimit l rfl, Nat.le_min.mpr ⟨hnul, hdata⟩⟩

namespace Memory

/-- How many bytes of either string a comparison reads that has a bound or none. -/
def comparedLength (m : Memory) (ignoreCase : Bool) (limit : Option Nat) (lhs rhs : UInt64) : Nat :=
  m.comparedFrom ignoreCase (min (limit.getD (m.size + 1)) (m.size + 1)) lhs rhs

variable {m : Memory} {ignoreCase : Bool} {limit : Option Nat} {lhs rhs : UInt64} {result : Int64}

/-- No comparison reads past a constant that has a NUL. -/
theorem comparedFrom_le_of_nul {left : Nat} {data : List UInt8}
    (hdata : ∀ k < data.length, m.byte (rhs + UInt64.ofNat k) = .ok (data.getD k 0))
    (hnul : 0 ∈ data) : m.comparedFrom ignoreCase left lhs rhs ≤ data.length := by
  induction data generalizing left lhs rhs with
  | nil => cases hnul
  | cons x rest ih =>
    cases left with
    | zero => exact Nat.zero_le _
    | succ left =>
      have hx : m.byte rhs = .ok x := by simpa using hdata 0 (Nat.succ_pos _)
      rw [comparedFrom, hx]
      cases m.byte lhs with
      | error trap => exact Nat.zero_le _
      | ok a =>
        dsimp only
        split
        · exact Nat.succ_le_succ (Nat.zero_le _)
        next hgo =>
        rw [Bool.or_eq_true, bne_iff_ne, beq_iff_eq, not_or, not_not] at hgo
        have hne : 0 ≠ x := by
          rintro rfl
          exact hgo.2 (hgo.1.trans ((foldCase_eq_zero _ _).mpr rfl))
        refine Nat.succ_le_succ (ih (fun k hk => ?_) ((List.mem_cons.mp hnul).resolve_left hne))
        rw [Compares.succ_add]
        exact hdata (k + 1) (Nat.succ_lt_succ hk)

/-- A comparison with a constant that reads nothing past it stops at the length that is known of the
constant. -/
theorem compares_stringLength {data : List UInt8}
    (h : m.compareStrings ignoreCase limit lhs rhs = .ok result) (hsize : data.length ≤ m.size)
    (hreads : m.comparedLength ignoreCase limit lhs rhs ≤ data.length)
    (hdata : ∀ k a b, k < data.length → m.byte (lhs + UInt64.ofNat k) = .ok a →
      m.byte (rhs + UInt64.ofNat k) = .ok b →
      Text.foldCase ignoreCase a = Text.foldCase ignoreCase b →
      Text.foldCase ignoreCase a = Text.foldCase ignoreCase (data.getD k 0)) :
    m.Compares ignoreCase (stringLength data limit) lhs rhs
      (m.comparedLength ignoreCase limit lhs rhs) result := by
  have hcompares := compareFrom_compares h
  change m.Compares _ _ _ _ (m.comparedLength ignoreCase limit lhs rhs) _ at hcompares
  obtain ⟨hledata, -, hlelimit⟩ := stringLength_le data limit
  refine hcompares.shorten (le_stringLength hreads ?_ fun l hl => ?_) (Nat.le_min.mpr ⟨?_, ?_⟩)
  · -- The first NUL of the constant is read last, if it is read at all.
    by_contra hpast
    rw [Nat.not_le] at hpast
    obtain ⟨a, b, ha, hb, hsame, hne⟩ := hcompares.before hpast
    refine hne ((hdata _ a b (by omega) ha hb hsame).trans ?_)
    rw [getD_length_beforeNul, foldCase_eq_zero]
  · obtain rfl := Option.mem_def.mp hl
    exact hcompares.reads_le.trans (Nat.min_le_left _ _)
  · cases limit with
    | none => exact hledata.trans (hsize.trans (Nat.le_succ _))
    | some n => exact hlelimit n rfl
  · exact hledata.trans (hsize.trans (Nat.le_succ _))

end Memory

namespace StringSite

variable {m : Module} {f : Function} {first second : Value} {limit : Option Nat} {site : StringSite}
  {memory : Memory} {lhs rhs : UInt64} {result : Int64}

/-- The chain in the place of a comparison of strings comes to its result. -/
theorem Decided.chained_strings (h : site.Decided m f first second limit)
    (hstring : site.family.isString = true) (hpositive : 0 < site.len)
    (hbound : memory.size < Memory.sizeBound)
    (hcompare : memory.compareStrings site.foldCase limit lhs rhs = .ok result)
    (hleft : ∀ data, site.lhs = .bytes data → memory.Holds lhs data ∧
      memory.comparedLength site.foldCase limit lhs rhs ≤ data.length)
    (hright : ∀ data, site.rhs = .bytes data → memory.Holds rhs data ∧
      memory.comparedLength site.foldCase limit lhs rhs ≤ data.length) :
    ∃ x y, Chained (site.lhs.Shows memory site.foldCase lhs) (site.rhs.Shows memory site.foldCase rhs)
      site.checksNul 0 (site.len - 1) x y ∧ byteDifference x y = result := by
  have hlen : site.len - 1 + 1 = site.len := Nat.sub_add_cancel hpositive
  -- A side that is read from memory shows what is there.
  have hpointer : ∀ {side : Side} {value : Value} {addr : UInt64} {k : Nat} {a : UInt8},
      side = .pointer value → memory.byte (addr + UInt64.ofNat k) = .ok a →
        side.Shows memory site.foldCase addr (0 + k) (Text.foldCase site.foldCase a) := by
    intro side value addr k a hside ha
    rw [hside, Nat.zero_add]
    exact ⟨a, ha, rfl⟩
  cases h with
  | neither _ _ hlimit hlhs hrhs hkeyword =>
    have hcompares : memory.Compares site.foldCase (site.len - 1 + 1) lhs rhs
        (memory.comparedLength site.foldCase limit lhs rhs) result := by
      have hcapped := Memory.compareFrom_compares hcompare
      rw [hlimit, Option.getD_some] at hcapped
      rw [hlen]
      have hreads := hcapped.reads_le
      by_cases hle : site.len ≤ memory.size + 1
      · rw [Nat.min_eq_left hle] at hcapped hreads
        rw [Memory.comparedLength, hlimit, Option.getD_some, Nat.min_eq_left hle]
        exact hcapped
      · have hge : memory.size + 1 ≤ site.len := Nat.le_of_not_le hle
        rw [Nat.min_eq_right hge] at hcapped
        rw [Memory.comparedLength, hlimit, Option.getD_some, Nat.min_eq_right hge]
        exact hcapped.loosen (Nat.lt_succ_self _) hge
    have hchecks : site.checksNul = true := by
      simp [checksNul, hstring, bothVariable, hkeyword]
    refine hcompares.chained (fun k _ a ha => hpointer hlhs ha) (fun k _ b hb => hpointer hrhs hb) ?_
    simp [hchecks]
  | @left data _ _ hlhs hrhs hkeyword hlength _ =>
    obtain ⟨hholds, hreads⟩ := hleft data hlhs
    have hbyte : ∀ {k a}, k < data.length → memory.byte (lhs + UInt64.ofNat k) = .ok a →
        a = data.getD k 0 := fun hk ha => Except.ok.inj (ha.symm.trans (hholds.byte hbound hk))
    have hcompares := Memory.compares_stringLength hcompare
      ((Nat.le_add_left _ _).trans hholds.2.1) hreads fun k a b hk ha _ _ => hbyte hk ha ▸ rfl
    rw [← hlength hstring, ← hlen] at hcompares
    have hlast := (stringLength_le data limit).2.1
    rw [← hlength hstring] at hlast
    refine hcompares.chained (fun k hk a ha => ?_) (fun k _ b hb => hpointer hrhs hb)
      fun _ k hk a b ha _ _ => ?_
    · rw [hlhs, Nat.zero_add, hbyte (hk.trans_le hreads) ha]
      rfl
    · have hk' : k < (beforeNul data).length := by omega
      rw [hbyte (hk'.trans_le (List.takeWhile_prefix _).length_le) ha, ne_eq, foldCase_eq_zero]
      exact getD_ne_zero_of_lt hk'
  | @right data _ _ hlhs hrhs hkeyword hlength _ =>
    obtain ⟨hholds, hreads⟩ := hright data hrhs
    have hbyte : ∀ {k b}, k < data.length → memory.byte (rhs + UInt64.ofNat k) = .ok b →
        b = data.getD k 0 := fun hk hb => Except.ok.inj (hb.symm.trans (hholds.byte hbound hk))
    have hcompares := Memory.compares_stringLength hcompare
      ((Nat.le_add_left _ _).trans hholds.2.1) hreads
      fun k a b hk _ hb hsame => hsame.trans (hbyte hk hb ▸ rfl)
    rw [← hlength hstring, ← hlen] at hcompares
    have hlast := (stringLength_le data limit).2.1
    rw [← hlength hstring] at hlast
    refine hcompares.chained (fun k _ a ha => hpointer hlhs ha) (fun k hk b hb => ?_)
      fun _ k hk a b _ hb hsame => ?_
    · rw [hrhs, Nat.zero_add, hbyte (hk.trans_le hreads) hb]
      rfl
    · have hk' : k < (beforeNul data).length := by omega
      rw [hsame, hbyte (hk'.trans_le (List.takeWhile_prefix _).length_le) hb, ne_eq,
        foldCase_eq_zero]
      exact getD_ne_zero_of_lt hk'

/-- The chain in the place of a comparison of regions comes to its result. -/
theorem Decided.chained_regions (h : site.Decided m f first second limit)
    (hregion : site.family.isString = false) (hfold : site.foldCase = false)
    (hpositive : 0 < site.len) (hbound : memory.size < Memory.sizeBound)
    (hcompare : memory.compareRegions lhs rhs (limit.getD 0) = .ok result)
    (hleft : ∀ data, site.lhs = .bytes data → memory.Holds lhs data)
    (hright : ∀ data, site.rhs = .bytes data → memory.Holds rhs data) :
    ∃ x y, Chained (site.lhs.Shows memory site.foldCase lhs) (site.rhs.Shows memory site.foldCase rhs)
      site.checksNul 0 (site.len - 1) x y ∧ byteDifference x y = result := by
  have hchecks : site.checksNul = false := by simp [checksNul, hregion]
  have hpointer : ∀ {side : Side} {value : Value} {addr : UInt64} {k : Nat} {a : UInt8},
      side = .pointer value → memory.byte (addr + UInt64.ofNat k) = .ok a →
        side.Shows memory false addr k a := fun hside ha => hside ▸ ⟨_, ha, rfl⟩
  have hbytes : ∀ {side : Side} {data : List UInt8} {addr : UInt64} {k : Nat} {a : UInt8},
      side = .bytes data → memory.Holds addr data → k < data.length →
      memory.byte (addr + UInt64.ofNat k) = .ok a → side.Shows memory false addr k a := by
    intro side data addr k a hside hholds hk ha
    rw [hside]
    exact Except.ok.inj (ha.symm.trans (hholds.byte hbound hk))
  have hlen : site.len - 1 + 1 = site.len := Nat.sub_add_cancel hpositive
  rw [hchecks, hfold]
  cases h with
  | neither _ _ hlimit hlhs hrhs _ =>
    rw [hlimit, Option.getD_some, ← hlen] at hcompare
    exact Memory.compareRegions_chained hbound hcompare (fun k _ a ha => hpointer hlhs ha)
      fun k _ b hb => hpointer hrhs hb
  | @left data _ _ hlhs hrhs _ _ hlength =>
    obtain ⟨hlimit, hle⟩ := hlength hregion
    rw [← hlimit, ← hlen] at hcompare
    exact Memory.compareRegions_chained hbound hcompare
      (fun k hk a ha => hbytes hlhs (hleft data hlhs) (by omega) ha) fun k _ b hb => hpointer hrhs hb
  | @right data _ _ hlhs hrhs _ _ hlength =>
    obtain ⟨hlimit, hle⟩ := hlength hregion
    rw [← hlimit, ← hlen] at hcompare
    exact Memory.compareRegions_chained hbound hcompare (fun k _ a ha => hpointer hlhs ha)
      fun k hk b hb => hbytes hrhs (hright data hrhs) (by omega) hb

end StringSite

end EdgeProbe
