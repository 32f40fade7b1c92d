import EdgeProbe.Proofs.Lowering.Sound
import EdgeProbe.Proofs.Lowering.Strings

/-!
# Unrolled calls are sound

The blocks in the place of a call read the operands of the call and what they have computed
themselves, so a function stays sound when calls of the type of the differences are taken apart.
Main statement: `Module.Unrolls.sound`.
-/

namespace EdgeProbe

/-! ## What code in a row reads -/

/-- A value that comes from outside, or from the code that is numbered from `n` on before `i`. -/
def Readable (outer : Value → Prop) (n i : Nat) (value : Value) : Prop :=
  outer value ∨ ∃ j, n ≤ j ∧ j < i ∧ value = .inst ⟨j⟩

/-- Code that is numbered from `i` on, as the rest of code that is numbered from `n` on, reads what
comes from outside and what stands in front of it. -/
def ReadsBack (outer : Value → Prop) (n : Nat) : Nat → List InstKind → Prop
  | _, [] => True
  | i, kind :: rest =>
    (∀ value ∈ kind.operands, Readable outer n i value) ∧ ReadsBack outer n (i + 1) rest

section

variable {outer : Value → Prop} {n i j : Nat} {value : Value} {kinds front back : List InstKind}

theorem Readable.of_outer (h : outer value) : Readable outer n i value :=
  .inl h

theorem Readable.inst (hle : n ≤ j) (hlt : j < i) : Readable outer n i (.inst ⟨j⟩) :=
  .inr ⟨j, hle, hlt, rfl⟩

theorem Readable.mono (h : Readable outer n i value) (hle : i ≤ j) : Readable outer n j value :=
  h.imp_right fun hinst => hinst.imp fun _ hj => ⟨hj.1, hj.2.1.trans_le hle, hj.2.2⟩

theorem ReadsBack.append (hfront : ReadsBack outer n i front)
    (hback : ReadsBack outer n (i + front.length) back) : ReadsBack outer n i (front ++ back) := by
  induction front generalizing i with
  | nil => exact hback
  | cons kind rest ih =>
    refine ⟨hfront.1, ih hfront.2 ?_⟩
    rw [Nat.add_assoc, Nat.add_comm 1]
    exact hback

theorem ReadsBack.readable (h : ReadsBack outer n i kinds) {k : Nat} {kind : InstKind}
    (hk : kinds[k]? = some kind) (hvalue : value ∈ kind.operands) :
    Readable outer n (i + k) value := by
  induction kinds generalizing i k with
  | nil => cases hk
  | cons first rest ih =>
    cases k with
    | zero =>
      obtain rfl := Option.some.inj hk
      exact h.1 value hvalue
    | succ k =>
      rw [Nat.add_comm k, ← Nat.add_assoc]
      exact ih h.2 hk

end

/-- An instruction that computes a word or an address, or reads memory. -/
def InstKind.isPlain : InstKind → Bool
  | .phi _ _ | .landingPad | .call _ _ _ => false
  | _ => true

namespace InstKind

variable {kind : InstKind}

theorem isPhi_of_isPlain (h : kind.isPlain = true) : kind.isPhi = false := by
  cases kind <;> first | rfl | cases h

theorem isLandingPad_of_isPlain (h : kind.isPlain = true) : kind.isLandingPad = false := by
  cases kind <;> first | rfl | cases h

theorem isCall_of_isPlain (h : kind.isPlain = true) : kind.isCall = false := by
  cases kind <;> first | rfl | cases h

end InstKind

/-! ## What code in a row computes -/

theorem numbered_cons (n : Nat) (kind : InstKind) (rest : List InstKind) :
    numbered n (kind :: rest) = (⟨n⟩, kind) :: numbered (n + 1) rest := by
  rw [← List.singleton_append, numbered_append]
  rfl

namespace Function

/-- The instructions from a number on are these. -/
def Holds (f : Function) (n : Nat) (kinds : List InstKind) : Prop :=
  ∀ entry ∈ numbered n kinds, f.kind entry.1 = .ok entry.2

variable {f : Function} {n : Nat} {kinds : List InstKind}

theorem holds_append {front back : List InstKind} :
    f.Holds n (front ++ back) ↔ f.Holds n front ∧ f.Holds (n + front.length) back := by
  rw [Holds, numbered_append, List.forall_mem_append]
  rfl

theorem holds_cons {kind : InstKind} {rest : List InstKind} :
    f.Holds n (kind :: rest) ↔ f.kind ⟨n⟩ = .ok kind ∧ f.Holds (n + 1) rest := by
  rw [Holds, numbered_cons, List.forall_mem_cons]
  rfl

theorem Holds.kind (h : f.Holds n kinds) {k : Nat} {kind : InstKind} (hk : kinds[k]? = some kind) :
    f.kind ⟨n + k⟩ = .ok kind := by
  refine h (⟨n + k⟩, kind) (List.mem_of_getElem? (i := k) ?_)
  rw [getElem?_numbered, hk]
  rfl

theorem Holds.length_le (h : f.Holds n kinds) : kinds = [] ∨ n + kinds.length ≤ f.insts.size := by
  obtain rfl | hne := eq_or_ne kinds []
  · exact .inl rfl
  · have hlast := h.kind (List.getElem?_eq_getElem (i := kinds.length - 1)
      (by have := List.length_pos_iff.mpr hne; omega))
    have hlt : n + (kinds.length - 1) < f.insts.size := Function.index_lt_of_kind hlast
    exact .inr (by omega)

/-- The operands of the instructions that ask for it have one type. -/
def Pairs (f : Function) (kinds : List InstKind) : Prop :=
  ∀ kind ∈ kinds, ∀ lhs rhs, kind.paired? = some (lhs, rhs) →
    ∃ ty, f.valueType lhs = .ok ty ∧ f.valueType rhs = .ok ty

theorem pairs_append {front back : List InstKind} :
    f.Pairs (front ++ back) ↔ f.Pairs front ∧ f.Pairs back :=
  List.forall_mem_append

end Function

/-! ## The code of a byte -/

namespace Side

variable {outer : Value → Prop} {f : Function} {side : Side} {index n i : Nat} {foldCase : Bool}

/-- What the code of a side reads from outside. -/
def Reads (side : Side) (outer : Value → Prop) : Prop :=
  (∀ width x, outer (.ofWord width x)) ∧ ∀ ptr, side = .pointer ptr → outer ptr

theorem readsBack_lowerCode (hword : ∀ width x, outer (.ofWord width x)) {c : Value}
    (hc : Readable outer n i c) (hle : n ≤ i) : ReadsBack outer n i (Edit.lowerCode i c) := by
  have hword : ∀ k m, Readable outer n k (Edit.word32 m) := fun _ _ => .of_outer (hword _ _)
  simp only [Edit.lowerCode, ReadsBack, InstKind.operands, List.forall_mem_cons, List.not_mem_nil,
    false_implies, implies_true, and_true]
  refine ⟨⟨hc, hword _ _⟩, ⟨.inst hle (by omega), hword _ _⟩, ⟨hc.mono (by omega), hword _ _⟩,
    .inst (by omega) (by omega), .inst (by omega) (by omega), hc.mono (by omega)⟩

theorem readsBack_code (h : side.Reads outer) (hle : n ≤ i) :
    ReadsBack outer n i (side.code index foldCase i) := by
  obtain ⟨hword, hptr⟩ := h
  cases side with
  | bytes data => trivial
  | pointer ptr =>
    refine ReadsBack.append ?_ ?_
    · simp only [ReadsBack, InstKind.operands, List.forall_mem_cons, List.not_mem_nil,
        false_implies, implies_true, and_true]
      exact ⟨⟨.of_outer (hptr ptr rfl), .of_outer (hword _ _)⟩, .inst hle (by omega),
        .inst (by omega) (by omega)⟩
    · cases foldCase with
      | false => trivial
      | true => exact readsBack_lowerCode hword (.inst (by omega) (Nat.lt_succ_self _)) (by omega)

theorem readable_result (h : side.Reads outer) (hle : n ≤ i) :
    Readable outer n (i + (side.code index foldCase i).length) (side.result index foldCase i) := by
  cases side with
  | bytes data => exact .of_outer (h.1 _ _)
  | pointer ptr =>
    cases foldCase with
    | false => exact .inst (j := i + 2) (by omega) (by simp [code])
    | true => exact .inst (j := i + 6) (by omega) (by simp [code, Edit.lowerCode])

theorem isPlain_of_mem_code {kind : InstKind} (h : kind ∈ side.code index foldCase n) :
    kind.isPlain = true := by
  have hall : ∀ kind ∈ side.code index foldCase n, kind.isPlain = true := by
    cases side <;> cases foldCase <;> simp [code, Edit.lowerCode, InstKind.isPlain]
  exact hall kind h

/-- A byte is a number of 32 bits. -/
theorem valueTypeWithin_result (h : f.Holds n (side.code index foldCase n)) :
    f.valueTypeWithin (side.code index foldCase n).length (side.result index foldCase n) =
      .ok .i32 := by
  cases side with
  | bytes data =>
    unfold Function.valueTypeWithin
    rfl
  | pointer ptr =>
    have hcast : ∀ depth, f.valueTypeWithin depth (.inst ⟨n + 2⟩) = .ok .i32 := fun depth =>
      Function.valueTypeWithin_of_fixedType? (h.kind (k := 2) rfl) rfl depth
    cases foldCase with
    | false => exact hcast _
    | true =>
      have hlength : (Side.code (.pointer ptr) index true n).length = 7 := rfl
      have hselect : f.valueTypeWithin 7 (.inst ⟨n + 6⟩) = f.valueTypeWithin 6 (.inst ⟨n + 5⟩) :=
        Function.valueTypeWithin_of_typeOperand? (h.kind (k := 6) rfl) rfl 6
      have hadd : f.valueTypeWithin 6 (.inst ⟨n + 5⟩) = f.valueTypeWithin 5 (.inst ⟨n + 2⟩) :=
        Function.valueTypeWithin_of_typeOperand? (h.kind (k := 5) rfl) rfl 5
      rw [hlength, result, if_pos rfl, hselect, hadd, hcast]

theorem valueType_result (h : f.Holds n (side.code index foldCase n)) :
    f.valueType (side.result index foldCase n) = .ok .i32 := by
  refine Function.valueTypeWithin_mono ?_ (valueTypeWithin_result h)
  obtain hnil | hle := h.length_le
  · rw [hnil]
    exact Nat.zero_le _
  · omega

theorem pairs_code (h : f.Holds n (side.code index foldCase n)) :
    f.Pairs (side.code index foldCase n) := by
  cases side with
  | bytes data => simp [Function.Pairs, code]
  | pointer ptr =>
    cases foldCase with
    | false => simp [Function.Pairs, code, InstKind.paired?]
    | true =>
      have hcast : f.valueType (.inst ⟨n + 2⟩) = .ok .i32 :=
        Function.valueType_of_fixedType? (h.kind (k := 2) rfl) rfl
      have hoffset : f.valueType (.inst ⟨n + 3⟩) = .ok .i32 := by
        have hdepth := Function.valueTypeWithin_of_typeOperand? (h.kind (k := 3) rfl) rfl 0
        have hcast₀ := Function.valueTypeWithin_of_fixedType? (h.kind (k := 2) rfl) rfl 0
        refine Function.valueTypeWithin_mono ?_ (hdepth.trans hcast₀)
        obtain hnil | hle := h.length_le
        · cases hnil
        · have : 0 < (Side.code (.pointer ptr) index true n).length := by simp [code]
          omega
      have hword : ∀ k, f.valueType (Edit.word32 k) = .ok .i32 := fun k =>
        Function.valueType_ofWord f 32 _
      simp only [Function.Pairs, code, Edit.lowerCode, List.forall_mem_append, List.forall_mem_cons,
        List.not_mem_nil, false_implies, implies_true, and_true, if_true]
      refine ⟨⟨InstKind.unpaired rfl, InstKind.unpaired rfl, InstKind.unpaired rfl⟩, ?_, ?_, ?_,
        InstKind.unpaired rfl⟩
      · exact InstKind.paired_operands rfl ⟨.i32, hcast, hword 65⟩
      · exact InstKind.paired_operands rfl ⟨.i32, hoffset, hword 26⟩
      · exact InstKind.paired_operands rfl ⟨.i32, hcast, hword 32⟩

end Side

/-! ## The code of a link -/

namespace StringSite

variable {outer : Value → Prop} {f : Function} {site : StringSite} {index n : Nat}

/-- What the code for a call reads from outside. -/
structure Reads (site : StringSite) (outer : Value → Prop) : Prop where
  left : site.lhs.Reads outer
  right : site.rhs.Reads outer

theorem le_middle : n ≤ site.middle index n :=
  Nat.le_add_right _ _

theorem middle_le_last : site.middle index n ≤ site.last index n :=
  Nat.le_add_right _ _

theorem readsBack_differenceCode (h : site.Reads outer) :
    ReadsBack outer n n (site.differenceCode index n) := by
  refine (Side.readsBack_code h.left le_rfl).append
    ((Side.readsBack_code h.right le_middle).append ?_)
  simp only [ReadsBack, InstKind.operands, List.forall_mem_cons, List.not_mem_nil, false_implies,
    implies_true, and_true]
  exact ⟨(Side.readable_result h.left le_rfl).mono middle_le_last,
    Side.readable_result h.right le_middle⟩

theorem readsBack_continueCode (h : site.Reads outer) :
    ReadsBack outer n (site.last index n + 1) (site.continueCode index n) := by
  have hle : n ≤ site.last index n := le_middle.trans middle_le_last
  have hword : ∀ k, Readable outer n k (Edit.word32 0) := fun _ => .of_outer (h.left.1 _ _)
  unfold continueCode
  split
  · simp only [ReadsBack, InstKind.operands, List.forall_mem_cons, List.not_mem_nil, false_implies,
      implies_true, and_true]
    refine ⟨⟨.inst hle (by omega), hword _⟩, ⟨?_, hword _⟩, .inst (by omega) (by omega),
      .inst (by omega) (by omega)⟩
    refine (Side.readable_result h.left le_rfl).mono ?_
    have := @middle_le_last site index n
    unfold middle at this
    omega
  · simp only [ReadsBack, InstKind.operands, List.forall_mem_cons, List.not_mem_nil, false_implies,
      implies_true, and_true]
    exact ⟨.inst hle (by omega), hword _⟩

theorem readsBack_linkCode (h : site.Reads outer) :
    ReadsBack outer n n (site.linkCode index n) := by
  refine (readsBack_differenceCode h).append ?_
  rw [length_differenceCode]
  exact readsBack_continueCode h

theorem isPlain_of_mem_linkCode {kind : InstKind} (h : kind ∈ site.linkCode index n) :
    kind.isPlain = true := by
  obtain hdifference | hcontinue := List.mem_append.mp h
  · obtain hleft | hrest := List.mem_append.mp hdifference
    · exact Side.isPlain_of_mem_code hleft
    · obtain hright | hlast := List.mem_append.mp hrest
      · exact Side.isPlain_of_mem_code hright
      · obtain rfl := List.mem_singleton.mp hlast
        rfl
  · have hall : ∀ kind ∈ site.continueCode index n, kind.isPlain = true := by
      unfold continueCode
      split <;> simp [InstKind.isPlain]
    exact hall kind hcontinue

theorem holds_differenceCode (h : f.Holds n (site.differenceCode index n)) :
    f.Holds n (site.lhs.code index site.foldCase n) ∧
      f.Holds (site.middle index n) (site.rhs.code index site.foldCase (site.middle index n)) ∧
      f.kind ⟨site.last index n⟩ = .ok (.binary .sub (site.left index n) (site.right index n)) := by
  obtain ⟨hleft, hrest⟩ := Function.holds_append.mp h
  obtain ⟨hright, hlast⟩ := Function.holds_append.mp hrest
  exact ⟨hleft, hright, (Function.holds_cons.mp hlast).1⟩

/-- A difference is a number of 32 bits. -/
theorem valueType_difference (h : f.Holds n (site.differenceCode index n)) :
    f.valueType (.inst ⟨site.last index n⟩) = .ok .i32 := by
  obtain ⟨hleft, -, hlast⟩ := holds_differenceCode h
  have hdepth := Function.valueTypeWithin_of_typeOperand? hlast rfl
    (site.lhs.code index site.foldCase n).length
  refine Function.valueTypeWithin_mono ?_ (hdepth.trans (Side.valueTypeWithin_result hleft))
  have hlt : site.last index n < f.insts.size := Function.index_lt_of_kind hlast
  have := @middle_le_last site index n
  unfold middle at this
  omega

theorem pairs_differenceCode (h : f.Holds n (site.differenceCode index n)) :
    f.Pairs (site.differenceCode index n) := by
  obtain ⟨hleft, hright, -⟩ := holds_differenceCode h
  refine Function.pairs_append.mpr ⟨Side.pairs_code hleft, Function.pairs_append.mpr
    ⟨Side.pairs_code hright, List.forall_mem_singleton.mpr ?_⟩⟩
  exact InstKind.paired_operands rfl
    ⟨_, Side.valueType_result hleft, Side.valueType_result hright⟩

theorem holds_linkCode (h : f.Holds n (site.linkCode index n)) :
    f.Holds n (site.differenceCode index n) ∧
      f.Holds (site.last index n + 1) (site.continueCode index n) := by
  obtain ⟨hdifference, hcontinue⟩ := Function.holds_append.mp h
  rw [length_differenceCode] at hcontinue
  exact ⟨hdifference, hcontinue⟩

theorem pairs_linkCode (h : f.Holds n (site.linkCode index n)) : f.Pairs (site.linkCode index n) := by
  obtain ⟨hdifference, hcontinue⟩ := holds_linkCode h
  refine Function.pairs_append.mpr ⟨pairs_differenceCode hdifference, ?_⟩
  have hword : f.valueType (Edit.word32 0) = .ok .i32 := Function.valueType_ofWord f 32 _
  have hsame := InstKind.paired_operands
    (show (InstKind.icmp .eq _ _).paired? = some (_, _) from rfl)
    ⟨_, valueType_difference hdifference, hword⟩
  have hleft := Side.valueType_result (holds_differenceCode hdifference).1
  unfold continueCode at hcontinue ⊢
  split
  · next hchecks =>
    rw [if_pos hchecks] at hcontinue
    have hbits := InstKind.paired_operands
      (show (InstKind.binary .and _ _).paired? = some (_, _) from rfl)
      ⟨_, Function.valueType_of_fixedType? (hcontinue.kind (k := 0) rfl) rfl,
        Function.valueType_of_fixedType? (hcontinue.kind (k := 1) rfl) rfl⟩
    simp only [Function.Pairs, List.forall_mem_cons, List.not_mem_nil, false_implies, implies_true,
      and_true]
    exact ⟨hsame, InstKind.paired_operands rfl ⟨_, hleft, hword⟩, hbits⟩
  · exact List.forall_mem_singleton.mpr hsame

/-- The decision is a bit. -/
theorem valueType_decision (h : f.Holds n (site.linkCode index n)) :
    f.valueType (.inst ⟨site.decision index n⟩) = .ok .i1 := by
  obtain ⟨-, hcontinue⟩ := holds_linkCode h
  unfold continueCode at hcontinue
  unfold decision
  split
  · next hchecks =>
    rw [if_pos hchecks] at hcontinue
    have hand := Function.valueTypeWithin_of_typeOperand? (hcontinue.kind (k := 2) rfl) rfl 0
    have hsame := Function.valueTypeWithin_of_fixedType? (hcontinue.kind (k := 0) rfl) rfl 0
    have hlt := Function.index_lt_of_kind (hcontinue.kind (k := 2) rfl)
    exact Function.valueTypeWithin_mono (Nat.succ_le_of_lt (Nat.zero_lt_of_lt hlt))
      (hand.trans hsame)
  · exact Function.valueType_of_fixedType? (hcontinue.kind (k := 0) rfl) rfl

/-! ## The blocks of a chain -/

/-- A block of a chain that finds the difference at an index, the last one or one that is followed
by one of `rest`. -/
inductive Stands (site : StringSite) (join : BlockId) (rest : List BlockId) (index n : Nat) :
    Part → Prop
  | last {b : BlockId} : Stands site join rest index n (site.lastPart index n join b)
  | link {b next : BlockId} (hnext : next ∈ rest) :
    Stands site join rest index n (site.linkPart index n join b next)

variable {join block : BlockId} {rest rest' : List BlockId} {p : Part}

theorem Stands.mono (h : site.Stands join rest index n p) (hrest : ∀ b ∈ rest, b ∈ rest') :
    site.Stands join rest' index n p := by
  cases h with
  | last => exact .last
  | link hnext => exact .link (hrest _ hnext)

theorem Stands.join_mem (h : site.Stands join rest index n p) : join ∈ p.term.successors := by
  cases h with
  | last => exact List.mem_singleton_self join
  | link _ => exact List.mem_cons_of_mem _ (List.mem_singleton_self join)

theorem map_block_chain : (site.chain join index n block rest).map Part.block = block :: rest := by
  induction rest generalizing index n block with
  | nil => rfl
  | cons next rest ih => exact congrArg (block :: ·) ih

theorem map_block_entries : (site.entries index n block rest).map (·.2) = block :: rest := by
  induction rest generalizing index n block with
  | nil => rfl
  | cons next rest ih => exact congrArg (block :: ·) ih

theorem mem_chain (h : p ∈ site.chain join index n block rest) : ∃ i k,
    site.Stands join rest i k p ∧ (.inst ⟨site.last i k⟩, p.block) ∈ site.entries index n block rest := by
  induction rest generalizing index n block with
  | nil =>
    obtain rfl := List.mem_singleton.mp h
    exact ⟨index, n, .last, List.mem_cons_self⟩
  | cons next rest ih =>
    obtain rfl | h := List.mem_cons.mp h
    · exact ⟨index, n, .link List.mem_cons_self, List.mem_cons_self⟩
    · obtain ⟨i, k, hstands, hentry⟩ := ih h
      exact ⟨i, k, hstands.mono fun _ => List.mem_cons_of_mem _, List.mem_cons_of_mem _ hentry⟩

theorem mem_entries (join : BlockId) {entry : Value × BlockId}
    (h : entry ∈ site.entries index n block rest) :
    ∃ p ∈ site.chain join index n block rest, ∃ i k,
      site.Stands join rest i k p ∧ entry = (.inst ⟨site.last i k⟩, p.block) := by
  induction rest generalizing index n block with
  | nil =>
    obtain rfl := List.mem_singleton.mp h
    exact ⟨_, List.mem_cons_self, index, n, .last, rfl⟩
  | cons next rest ih =>
    obtain rfl | h := List.mem_cons.mp h
    · exact ⟨_, List.mem_cons_self, index, n, .link List.mem_cons_self, rfl⟩
    · obtain ⟨p, hp, i, k, hstands, hentry⟩ := ih h
      exact ⟨p, List.mem_cons_of_mem _ hp, i, k,
        hstands.mono fun _ => List.mem_cons_of_mem _, hentry⟩

/-- What is asked of the code of a block. -/
theorem Stands.code (h : site.Stands join rest index n p) : ∃ kinds,
    p = ⟨p.block, [], numbered n kinds, p.term⟩ ∧ site.last index n < n + kinds.length ∧
      (∀ kind ∈ kinds, kind.isPlain = true) ∧
      (∀ outer, site.Reads outer → ReadsBack outer n n kinds) ∧
      ∀ f : Function, f.Holds n kinds → f.Pairs kinds := by
  cases h with
  | last =>
    refine ⟨_, rfl, ?_, fun kind hkind => isPlain_of_mem_linkCode (List.mem_append_left _ hkind),
      fun _ => readsBack_differenceCode, fun _ => pairs_differenceCode⟩
    rw [length_differenceCode]
    exact Nat.lt_succ_self _
  | link _ =>
    refine ⟨_, rfl, ?_, fun kind => isPlain_of_mem_linkCode, fun _ => readsBack_linkCode,
      fun _ => pairs_linkCode⟩
    have := site.length_differenceCode index n
    rw [linkCode, List.length_append]
    omega

theorem decision_lt : site.decision index n < n + (site.linkCode index n).length := by
  have := site.length_differenceCode index n
  have := site.length_continueCode index n
  rw [linkCode, List.length_append]
  omega

end StringSite

/-! ## All that stands for a call -/

section

variable {m : Module} {exempt : BlockId → Prop} {f f' : Function} {c : Cut}
  {join b first : BlockId} {parts : List Part} {rest : List BlockId} {outer : Value → Prop}
  {n k : Nat} {kinds : List InstKind} {term : Terminator} {value : Value} {site : StringSite}

theorem Readable.below (h : Readable outer n k value)
    (houter : ∀ value, outer value → value.Below f.insts.size) (hle : k ≤ f.insts.size) :
    value.Below f.insts.size := by
  obtain hvalue | ⟨j, -, hlt, rfl⟩ := h
  · exact houter value hvalue
  · exact hlt.trans_le hle

/-- What code in a row may read is there for the part that consists of it. -/
theorem Readable.gives (h : Readable outer n (n + k) value)
    (houter : ∀ value, outer value → ∀ p pos, c.Gives m f parts p pos value)
    (hk : k ≤ kinds.length) {pos : Option Nat} (hpos : ∀ k', pos = some k' → k ≤ k') :
    c.Gives m f parts ⟨b, [], numbered n kinds, term⟩ pos value := by
  obtain hvalue | ⟨j, hle, hlt, rfl⟩ := h
  · exact houter value hvalue _ _
  · have hget : (numbered n kinds)[j - n]? = some (⟨j⟩, kinds[j - n]) := by
      rw [getElem?_numbered, List.getElem?_eq_getElem (by omega), Option.map_some,
        Nat.add_sub_cancel' hle]
    exact .here hget fun k' hk' => by have := hpos k' hk'; omega

/-- Code in a row fits in as a part if it reads what is there. -/
theorem Part.fits_numbered (houter : ∀ value, outer value → ∀ p pos, c.Gives m f parts p pos value)
    (hreads : ReadsBack outer n n kinds) (hplain : ∀ kind ∈ kinds, kind.isPlain = true)
    (hpairs : f'.Pairs kinds)
    (hends : (∃ target, term = .br target) ∨
      ∃ cond onTrue onFalse, term = .condBr cond onTrue onFalse ∧ f'.valueType cond = .ok .i1 ∧
        Readable outer n (n + kinds.length) cond) :
    Part.Fits m f c parts f' ⟨b, [], numbered n kinds, term⟩ where
  plain := by
    intro entry hentry
    obtain ⟨k, hk⟩ := List.mem_iff_getElem?.mp hentry
    rw [getElem?_numbered] at hk
    obtain ⟨kind, hkind, rfl⟩ := Option.map_eq_some_iff.mp hk
    have hkind := hplain kind (List.mem_of_getElem? hkind)
    exact ⟨InstKind.isLandingPad_of_isPlain hkind, InstKind.isCall_of_isPlain hkind⟩
  operands := by
    intro k id kind hk value hvalue
    rw [getElem?_numbered] at hk
    obtain ⟨kind, hkind, heq⟩ := Option.map_eq_some_iff.mp hk
    obtain ⟨rfl, rfl⟩ := Prod.mk.inj heq
    obtain ⟨hlt, -⟩ := List.getElem?_eq_some_iff.mp hkind
    exact (hreads.readable hkind hvalue).gives houter hlt.le fun k' hk' => (Option.some.inj hk').le
  paired := by
    intro entry hentry lhs rhs hpaired
    obtain ⟨k, hk⟩ := List.mem_iff_getElem?.mp hentry
    rw [getElem?_numbered] at hk
    obtain ⟨kind, hkind, rfl⟩ := Option.map_eq_some_iff.mp hk
    exact hpairs kind (List.mem_of_getElem? hkind) lhs rhs hpaired
  ends := by
    refine hends.imp_right ?_
    rintro ⟨cond, onTrue, onFalse, hterm, hty, hcond⟩
    exact ⟨cond, onTrue, onFalse, hterm, hty, hcond.gives houter le_rfl (by simp)⟩

theorem Opened.holds {now : InstKind} (h : Opened f c join parts now f') {p : Part} (hp : p ∈ parts)
    (hinsts : p.insts = numbered n kinds) : f'.Holds n kinds := by
  intro entry hentry
  obtain ⟨-, inst, hinst, hkind, -⟩ := h.given p hp entry (hinsts ▸ hentry)
  exact Function.kind_eq_ok.mpr ⟨inst, hinst, hkind⟩

namespace StringSite

theorem mem_parts {p : Part} (hp : p ∈ site.parts c join first rest n) :
    p = headPart c first ∨ p ∈ site.chain join 0 n first rest :=
  List.mem_cons.mp hp

theorem map_block_parts :
    (site.parts c join first rest n).map Part.block = c.head :: first :: rest :=
  congrArg (c.head :: ·) map_block_chain

variable (h : Opened f c join (site.parts c join first rest n)
  (.phi .i32 (site.entries 0 n first rest)) f')
include h

theorem last_lt {p : Part} {index : Nat} (hp : p ∈ site.chain join 0 n first rest)
    (hstands : site.Stands join rest index k p) : site.last index k < f'.insts.size := by
  obtain ⟨kinds, heq, hlast, -⟩ := hstands.code
  have hholds := h.holds (List.mem_cons_of_mem _ hp) (congrArg Part.insts heq)
  obtain rfl | hle := hholds.length_le
  · have : k ≤ site.last index k := le_middle.trans middle_le_last
    simp only [List.length_nil] at hlast
    omega
  · omega

theorem patched (hc : c.Of f) (hreads : site.Reads fun value => value.Below f.insts.size) :
    Patched f c join (site.parts c join first rest n) .i32 (site.entries 0 n first rest) f' := by
  have hnodup : (c.head :: first :: rest).Nodup := map_block_parts ▸ h.nodup
  have hnew : ∀ b ∈ first :: rest, b ∈ (site.parts c join first rest n).map Part.block ∧ b ≠ c.head := by
    intro b hb
    rw [map_block_parts]
    refine ⟨List.mem_cons_of_mem _ hb, ?_⟩
    rintro rfl
    exact (List.nodup_cons.mp hnodup).1 hb
  have houter : ∀ value : Value, value.Below f.insts.size → value.Below f'.insts.size :=
    fun value hvalue => hvalue.mono h.sizeInsts
  refine ⟨h, ?_, ?_, ?_, ?_, ?_, ?_, ?_⟩
  · intro p hp entry hentry
    obtain rfl | hp := mem_parts hp
    · cases hentry
    · obtain ⟨index, k, hstands, -⟩ := mem_chain hp
      obtain ⟨kinds, heq, -, hplain, -⟩ := hstands.code
      rw [heq] at hentry
      obtain ⟨j, hj⟩ := List.mem_iff_getElem?.mp hentry
      rw [getElem?_numbered] at hj
      obtain ⟨kind, hkind, rfl⟩ := Option.map_eq_some_iff.mp hj
      exact InstKind.isPhi_of_isPlain (hplain kind (List.mem_of_getElem? hkind))
  · intro p hp entry hentry value hvalue
    obtain rfl | hchain := mem_parts hp
    · cases hentry
    · obtain ⟨index, k, hstands, -⟩ := mem_chain hchain
      obtain ⟨kinds, heq, -, -, hback, -⟩ := hstands.code
      have hholds := h.holds hp (congrArg Part.insts heq)
      rw [heq] at hentry
      obtain ⟨j, hj⟩ := List.mem_iff_getElem?.mp hentry
      rw [getElem?_numbered] at hj
      obtain ⟨kind, hkind, rfl⟩ := Option.map_eq_some_iff.mp hj
      have hlt := Function.index_lt_of_kind (hholds.kind hkind)
      exact ((hback _ hreads).readable hkind hvalue).below houter hlt.le
  · intro p hp s hs
    obtain rfl | hp := mem_parts hp
    · obtain rfl := List.mem_singleton.mp hs
      exact .inr (hnew s List.mem_cons_self)
    · obtain ⟨index, k, hstands, -⟩ := mem_chain hp
      cases hstands with
      | last => exact .inl (List.mem_singleton.mp hs)
      | link hnext =>
        obtain rfl | hs := List.mem_cons.mp hs
        · exact .inr (hnew s (List.mem_cons_of_mem _ hnext))
        · exact .inl (List.mem_singleton.mp hs)
  · intro p hp value hvalue
    obtain rfl | hchain := mem_parts hp
    · cases hvalue
    · obtain ⟨index, k, hstands, -⟩ := mem_chain hchain
      cases hstands with
      | last => cases hvalue
      | link hnext =>
        obtain rfl := List.mem_singleton.mp hvalue
        have hle := (h.holds hp rfl : f'.Holds k (site.linkCode index k)).length_le
        have hlt := @decision_lt site index k
        obtain hnil | hle := hle
        · rw [hnil] at hlt
          have : k ≤ site.last index k := le_middle.trans middle_le_last
          have : site.last index k ≤ site.decision index k := Nat.le_add_right _ _
          simp only [List.length_nil] at hlt
          omega
        · exact hlt.trans_le hle
  · intro entry hentry
    rw [map_block_parts]
    refine List.mem_cons_of_mem _ ?_
    have hblocks : (site.entries 0 n first rest).map (·.2) = first :: rest := map_block_entries
    exact hblocks ▸ List.mem_map_of_mem hentry
  · intro entry hentry
    obtain ⟨p, hp, index, k, hstands, rfl⟩ := mem_entries join hentry
    exact last_lt h hp hstands
  · intro p hp hjoin
    obtain rfl | hp := mem_parts hp
    · obtain rfl := List.mem_singleton.mp hjoin
      obtain ⟨q, hq, hblock⟩ := List.mem_map.mp (hnew _ List.mem_cons_self).1
      exact absurd hblock (h.block_ne_join hc hq)
    · obtain ⟨index, k, -, hentry⟩ := mem_chain hp
      exact ⟨_, hentry⟩

theorem fits (hreads : site.Reads fun value => ∀ p pos,
      c.Gives m f (site.parts c join first rest n) p pos value) :
    Patched.Fits m f c join (site.parts c join first rest n) (site.entries 0 n first rest) f' where
  each := by
    intro p hp
    obtain rfl | hchain := mem_parts hp
    · exact ⟨by simp [headPart], by simp [headPart], by simp [headPart], .inl ⟨first, rfl⟩⟩
    · obtain ⟨index, k, hstands, -⟩ := mem_chain hchain
      obtain ⟨kinds, heq, -, hplain, hback, hpairs⟩ := hstands.code
      have hholds := h.holds hp (congrArg Part.insts heq)
      rw [heq]
      refine Part.fits_numbered (fun _ hvalue => hvalue) (hback _ hreads) hplain (hpairs f' hholds) ?_
      cases hstands with
      | last => exact .inl ⟨join, rfl⟩
      | link _ =>
        have hholds : f'.Holds k (site.linkCode index k) := h.holds hp rfl
        refine .inr ⟨_, _, join, rfl, valueType_decision hholds, .inst ?_ ?_⟩
        · exact (le_middle.trans middle_le_last).trans (Nat.le_add_right _ _)
        · have hcode : numbered k (site.linkCode index k) = numbered k kinds :=
            congrArg Part.insts heq
          have hlength := congrArg List.length hcode
          simp only [numbered, List.length_map, List.length_zipIdx] at hlength
          rw [← hlength]
          exact decision_lt
  distinct := by
    rw [map_block_entries]
    have hblocks : (site.parts c join first rest n).map Part.block = c.head :: first :: rest :=
      map_block_parts
    exact (List.nodup_cons.mp (hblocks ▸ h.nodup)).2
  entries := by
    intro entry hentry
    obtain ⟨p, hp, index, k, hstands, rfl⟩ := mem_entries join hentry
    refine ⟨p, List.mem_cons_of_mem _ hp, rfl, hstands.join_mem, ?_⟩
    obtain ⟨kinds, heq, hlast, -⟩ := hstands.code
    have hlastRead : Readable (fun value => ∀ p pos,
        c.Gives m f (site.parts c join first rest n) p pos value) k (k + kinds.length)
        (.inst ⟨site.last index k⟩) := .inst (le_middle.trans middle_le_last) hlast
    rw [heq]
    exact hlastRead.gives (fun _ hvalue => hvalue) le_rfl (by simp)

end StringSite

/-- The sides of a comparison read memory at operands of the call only. -/
def StringSite.ReadsAmong (site : StringSite) (args : List Value) : Prop :=
  ∀ ptr, site.lhs = .pointer ptr ∨ site.rhs = .pointer ptr → ptr ∈ args

theorem StringSite.ReadsAmong.reads {args : List Value} (h : site.ReadsAmong args)
    (hword : ∀ width x, outer (.ofWord width x)) (hargs : ∀ value ∈ args, outer value) :
    site.Reads outer :=
  ⟨⟨hword, fun ptr hptr => hargs ptr (h ptr (.inl hptr))⟩,
    ⟨hword, fun ptr hptr => hargs ptr (h ptr (.inr hptr))⟩⟩

theorem Callee.mem_operands {callee : Callee} {args : List Value} (h : value ∈ args) :
    value ∈ callee.operands args := by
  cases callee with
  | direct _ => exact h
  | indirect _ => exact List.mem_cons_of_mem _ h

variable {callee : Callee} {args : List Value} {ret : Ty}
  (h : Opened f c join (site.parts c join first rest n)
    (.phi .i32 (site.entries 0 n first rest)) f')
  (hc : c.Of f) (hkind : f.kind c.site = .ok (.call callee args ret))
  (hargs : site.ReadsAmong args)
include h hc hkind hargs

theorem Opened.patched_unrolled (hf : f.Tidy) :
    Patched f c join (site.parts c join first rest n) .i32 (site.entries 0 n first rest) f' := by
  refine StringSite.patched h hc (hargs.reads (fun _ _ => trivial) fun value hvalue => ?_)
  exact hf.operands _ _ _ _ hc.listed_site hkind value (Callee.mem_operands hvalue)

/-- A function stays sound when a call of the type of the differences is taken apart. -/
theorem Opened.sound_unrolled (hs : f.Sound m exempt) (hret : ret = .i32) : f'.Sound m exempt := by
  have hpatched := h.patched_unrolled hc hkind hargs hs.tidy
  refine hpatched.sound hs hc hkind rfl rfl (StringSite.fits h ?_) ?_
  · refine hargs.reads (fun width x p pos => .ofWord p pos width x) fun value hvalue p pos => ?_
    exact hs.gives hc hkind rfl (Callee.mem_operands hvalue) p pos
  · exact hpatched.typesKept hkind (congrArg some hret)

end

end EdgeProbe
