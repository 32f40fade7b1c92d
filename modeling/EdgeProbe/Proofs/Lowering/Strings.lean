import EdgeProbe.Lowering.StringCompare
import EdgeProbe.Proofs.Code.Body
import EdgeProbe.Proofs.Lowering.Chain

/-!
# The chain in the place of a call

A call that compares strings gives way to one block for each byte. The instructions of such a block
are numbered in a row, so its code is a function of the number that it starts with. Main statement:
`Edit.unroll_does`.
-/

namespace EdgeProbe

/-- Instructions in a row, numbered from some number on. -/
def numbered (n : Nat) (kinds : List InstKind) : List (InstId × InstKind) :=
  (kinds.zipIdx n).map fun entry => (⟨entry.2⟩, entry.1)

theorem numbered_append (n : Nat) (front back : List InstKind) :
    numbered n (front ++ back) = numbered n front ++ numbered (n + front.length) back := by
  rw [numbered, List.zipIdx_append, List.map_append]
  rfl

theorem getElem?_numbered {n k : Nat} {kinds : List InstKind} :
    (numbered n kinds)[k]? = kinds[k]?.map fun kind => (⟨n + k⟩, kind) := by
  simp [numbered, List.getElem?_zipIdx, Option.map_map, Function.comp_def]

namespace Part

variable {front back : List Part} {p : Part}

/-- Only one part is some block. -/
theorem map_of_nodup (h : ((front ++ p :: back).map block).Nodup) (change : Part → Part) :
    ((front ++ p :: back).map fun q => if q.block = p.block then change q else q) =
      front ++ change p :: back := by
  rw [List.map_append, List.map_cons, List.nodup_append, List.nodup_cons] at h
  obtain ⟨-, ⟨hback, -⟩, hfront⟩ := h
  have hsame : ∀ ps : List Part, (∀ q ∈ ps, q.block ≠ p.block) →
      ps.map (fun q => if q.block = p.block then change q else q) = ps := by
    intro ps hps
    conv_rhs => rw [← List.map_id ps]
    exact List.map_congr_left fun q hq => if_neg (hps q hq)
  rw [List.map_append, List.map_cons, if_pos rfl, hsame front, hsame back]
  · exact fun q hq heq => hback (heq ▸ List.mem_map_of_mem hq)
  · exact fun q hq => hfront _ (List.mem_map_of_mem hq) _ List.mem_cons_self

theorem emit_of_nodup (h : ((front ++ p :: back).map block).Nodup) (entry : InstId × InstKind) :
    emit p.block entry (front ++ p :: back) =
      front ++ { p with insts := p.insts ++ [entry] } :: back :=
  map_of_nodup h fun q => { q with insts := q.insts ++ [entry] }

theorem close_of_nodup (h : ((front ++ p :: back).map block).Nodup) (term : Terminator) :
    close p.block term (front ++ p :: back) = front ++ { p with term } :: back :=
  map_of_nodup h fun q => { q with term }

end Part

/-! ## The code of a byte -/

namespace Edit

/-- The code that finds the small letter of a character. -/
def lowerCode (n : Nat) (c : Value) : List InstKind :=
  [.binary .sub c (word32 65), .icmp .ult (.inst ⟨n⟩) (word32 26), .binary .add c (word32 32),
    .select (.inst ⟨n + 1⟩) (.inst ⟨n + 2⟩) c]

end Edit

namespace Side

/-- The code that finds a byte of one side, numbered from `n` on. -/
def code (side : Side) (index : Nat) (foldCase : Bool) (n : Nat) : List InstKind :=
  match side with
  | .bytes _ => []
  | .pointer ptr =>
    [.gep ptr (.ofWord 64 (UInt64.ofNat index)), .load .i8 (.inst ⟨n⟩),
      .cast .zext (.inst ⟨n + 1⟩) 32] ++
      if foldCase then Edit.lowerCode (n + 3) (.inst ⟨n + 2⟩) else []

/-- The byte that the code finds. -/
def result (side : Side) (index : Nat) (foldCase : Bool) (n : Nat) : Value :=
  match side with
  | .bytes data => Edit.word32 (Text.foldCase foldCase (data.getD index 0)).toNat
  | .pointer _ => .inst ⟨if foldCase then n + 6 else n + 2⟩

end Side

namespace StringSite

variable (site : StringSite) (index n : Nat)

/-- The number of the first instruction for the right side. -/
def middle : Nat :=
  n + (site.lhs.code index site.foldCase n).length

/-- The number of the difference. -/
def last : Nat :=
  site.middle index n + (site.rhs.code index site.foldCase (site.middle index n)).length

/-- The byte on the left. -/
def left : Value :=
  site.lhs.result index site.foldCase n

/-- The byte on the right. -/
def right : Value :=
  site.rhs.result index site.foldCase (site.middle index n)

/-- The code that subtracts the bytes at an index. -/
def differenceCode : List InstKind :=
  site.lhs.code index site.foldCase n ++
    (site.rhs.code index site.foldCase (site.middle index n) ++
      [.binary .sub (site.left index n) (site.right index n)])

theorem length_differenceCode : n + (site.differenceCode index n).length = site.last index n + 1 := by
  simp only [differenceCode, last, middle, List.length_append, List.length_singleton]
  omega

/-- A NUL has to be looked for. -/
def checksNul : Bool :=
  site.family.isString && site.bothVariable

/-- The code that decides whether to go on, after the difference. -/
def continueCode : List InstKind :=
  .icmp .eq (.inst ⟨site.last index n⟩) (Edit.word32 0) ::
    if site.checksNul then
      [.icmp .ne (site.left index n) (Edit.word32 0),
        .binary .and (.inst ⟨site.last index n + 1⟩) (.inst ⟨site.last index n + 2⟩)]
    else []

/-- The code of a block that another one follows. -/
def linkCode : List InstKind :=
  site.differenceCode index n ++ site.continueCode index n

/-- The number of the decision. -/
def decision : Nat :=
  site.last index n + if site.checksNul then 3 else 1

theorem length_continueCode :
    site.last index n + (site.continueCode index n).length = site.decision index n := by
  unfold continueCode decision
  split <;> rfl

variable (join : BlockId)

/-- The last block of a chain. -/
def lastPart (block : BlockId) : Part :=
  ⟨block, [], numbered n (site.differenceCode index n), .br join⟩

/-- A block of a chain that another one follows. -/
def linkPart (block next : BlockId) : Part :=
  ⟨block, [], numbered n (site.linkCode index n),
    .condBr (.inst ⟨site.decision index n⟩) next join⟩

/-- The blocks of a chain. -/
def chain : Nat → Nat → BlockId → List BlockId → List Part
  | index, n, block, [] => [site.lastPart index n join block]
  | index, n, block, next :: rest =>
    site.linkPart index n join block next ::
      chain (index + 1) (site.decision index n + 1) next rest

/-- The differences that the blocks of a chain find. -/
def entries : Nat → Nat → BlockId → List BlockId → List (Value × BlockId)
  | index, n, block, [] => [(.inst ⟨site.last index n⟩, block)]
  | index, n, block, next :: rest =>
    (.inst ⟨site.last index n⟩, block) ::
      entries (index + 1) (site.decision index n + 1) next rest

end StringSite

/-! ## Filling a block -/

/-- One part of a function that is cut open is being filled with instructions in a row. -/
structure Filling (f : Function) (c : Cut) (join : BlockId) (front back : List Part) (now : InstKind)
    (b : BlockId) (n : Nat) (kinds : List InstKind) (f₁ : Function) : Prop where
  opened : Opened f c join (front ++ ⟨b, [], numbered n kinds, .unreachable⟩ :: back) now f₁
  size : f₁.insts.size = n + kinds.length

namespace Edit

variable {f f₁ f₂ : Function} {c : Cut} {join b : BlockId} {front back : List Part}
  {now kind : InstKind} {n : Nat} {kinds : List InstKind} {l : Label} {name : String}
  {value : Value} {site : StringSite} {limits : Limits} {token : Option Token} {index : Nat}

section

variable (h : Filling f c join front back now b n kinds f₁) (hc : c.Of f)
include h hc

theorem emit_fills {id : InstId} (hdoes : (emit l b kind name).Does f₁ id f₂) :
    id = ⟨n + kinds.length⟩ ∧ Filling f c join front back now b n (kinds ++ [kind]) f₂ := by
  obtain ⟨hopened, hid, hsize⟩ := emit_does h.opened hc (by simp) hdoes
  obtain rfl : id = ⟨n + kinds.length⟩ := congrArg InstId.mk (hid.trans h.size)
  refine ⟨rfl, ?_, ?_⟩
  · rw [Part.emit_of_nodup (p := ⟨b, [], numbered n kinds, .unreachable⟩) h.opened.nodup] at hopened
    rw [numbered_append]
    exact hopened
  · rw [hsize, h.size, List.length_append, List.length_singleton]
    rfl

theorem emitValue_fills (hdoes : (emitValue l b kind name).Does f₁ value f₂) :
    value = .inst ⟨n + kinds.length⟩ ∧
      Filling f c join front back now b n (kinds ++ [kind]) f₂ := by
  obtain ⟨id, f₃, hemit, hdoes⟩ := does_bind.mp hdoes
  obtain ⟨rfl, rfl⟩ := does_pure.mp hdoes
  obtain ⟨rfl, hfilling⟩ := emit_fills h hc hemit
  exact ⟨rfl, hfilling⟩

theorem emitLower_fills {letter : Value} (hdoes : (emitLower l b letter).Does f₁ value f₂) :
    value = .inst ⟨n + kinds.length + 3⟩ ∧
      Filling f c join front back now b n (kinds ++ lowerCode (n + kinds.length) letter) f₂ := by
  obtain ⟨_, f₃, hemit, hdoes⟩ := does_bind.mp hdoes
  obtain ⟨rfl, h₃⟩ := emitValue_fills h hc hemit
  obtain ⟨_, f₄, hemit, hdoes⟩ := does_bind.mp hdoes
  obtain ⟨rfl, h₄⟩ := emitValue_fills h₃ hc hemit
  obtain ⟨_, f₅, hemit, hdoes⟩ := does_bind.mp hdoes
  obtain ⟨rfl, h₅⟩ := emitValue_fills h₄ hc hemit
  obtain ⟨rfl, h₆⟩ := emitValue_fills h₅ hc hdoes
  refine ⟨by simp [Nat.add_assoc], ?_⟩
  simpa [lowerCode, Nat.add_assoc] using h₆

theorem emitByte_fills {side : Side} {foldCase : Bool}
    (hdoes : (emitByte l b side index foldCase).Does f₁ value f₂) :
    value = side.result index foldCase (n + kinds.length) ∧
      Filling f c join front back now b n
        (kinds ++ side.code index foldCase (n + kinds.length)) f₂ := by
  cases side with
  | bytes data =>
    obtain ⟨rfl, rfl⟩ := does_pure.mp hdoes
    refine ⟨rfl, ?_⟩
    simpa [Side.code] using h
  | pointer ptr =>
    obtain ⟨_, f₃, hemit, hdoes⟩ := does_bind.mp hdoes
    obtain ⟨rfl, h₃⟩ := emitValue_fills h hc hemit
    obtain ⟨_, f₄, hemit, hdoes⟩ := does_bind.mp hdoes
    obtain ⟨rfl, h₄⟩ := emitValue_fills h₃ hc hemit
    obtain ⟨_, f₅, hemit, hdoes⟩ := does_bind.mp hdoes
    obtain ⟨rfl, h₅⟩ := emitValue_fills h₄ hc hemit
    cases foldCase with
    | false =>
      obtain ⟨rfl, rfl⟩ := does_pure.mp hdoes
      refine ⟨by simp [Side.result, Nat.add_assoc], ?_⟩
      simpa [Side.code, Nat.add_assoc] using h₅
    | true =>
      obtain ⟨rfl, h₆⟩ := emitLower_fills h₅ hc hdoes
      refine ⟨by simp [Side.result, Nat.add_assoc], ?_⟩
      simpa [Side.code, Nat.add_assoc] using h₆

theorem emitContinue_fills
    (hkinds : n + kinds.length = site.last index n + 1)
    (hdoes : (emitContinue l site b (site.left index n)
      (.inst ⟨site.last index n⟩)).Does f₁ value f₂) :
    value = .inst ⟨site.decision index n⟩ ∧
      Filling f c join front back now b n (kinds ++ site.continueCode index n) f₂ := by
  obtain ⟨_, f₃, hemit, hdoes⟩ := does_bind.mp hdoes
  obtain ⟨rfl, h₃⟩ := emitValue_fills h hc hemit
  unfold StringSite.continueCode StringSite.decision StringSite.checksNul
  split at hdoes
  · next hchecks =>
    obtain ⟨_, f₄, hemit, hdoes⟩ := does_bind.mp hdoes
    obtain ⟨rfl, h₄⟩ := emitValue_fills h₃ hc hemit
    obtain ⟨rfl, h₅⟩ := emitValue_fills h₄ hc hdoes
    rw [if_pos hchecks, if_pos hchecks]
    refine ⟨by simp [← Nat.add_assoc, hkinds], ?_⟩
    simpa [← Nat.add_assoc, hkinds] using h₅
  · next hchecks =>
    obtain ⟨rfl, rfl⟩ := does_pure.mp hdoes
    rw [if_neg hchecks, if_neg hchecks]
    exact ⟨by rw [hkinds], h₃⟩

end

theorem emitDifference_fills {r : Value × Value} (h : Filling f c join front back now b n [] f₁)
    (hc : c.Of f) (hdoes : (emitDifference l site limits token b index).Does f₁ r f₂) :
    r = (site.left index n, .inst ⟨site.last index n⟩) ∧
      Filling f c join front back now b n (site.differenceCode index n) f₂ := by
  obtain ⟨_, f₃, hleft, hdoes⟩ := does_bind.mp hdoes
  obtain ⟨rfl, h₃⟩ := emitByte_fills h hc hleft
  obtain ⟨_, f₄, hright, hdoes⟩ := does_bind.mp hdoes
  obtain ⟨rfl, h₄⟩ := emitByte_fills h₃ hc hright
  obtain ⟨_, f₅, hemit, hdoes⟩ := does_bind.mp hdoes
  obtain ⟨rfl, h₅⟩ := emit_fills h₄ hc hemit
  have hlast : n + (site.lhs.code index site.foldCase n ++ site.rhs.code index site.foldCase
      (n + (site.lhs.code index site.foldCase n).length)).length = site.last index n := by
    rw [List.length_append, ← Nat.add_assoc]
    rfl
  simp only [List.nil_append, List.length_nil, Nat.add_zero, hlast] at h₅ hdoes
  have hcode : Filling f c join front back now b n (site.differenceCode index n) f₅ := by
    simpa [StringSite.differenceCode, StringSite.left, StringSite.right, StringSite.middle] using h₅
  cases token with
  | none =>
    obtain ⟨rfl, rfl⟩ := does_pure.mp hdoes
    exact ⟨rfl, hcode⟩
  | some token =>
    obtain ⟨u, f₆, hattach, hdoes⟩ := does_bind.mp hdoes
    obtain ⟨rfl, rfl⟩ := does_pure.mp hdoes
    have hlt : site.last index n < f₅.insts.size := by
      have := hcode.size
      have := site.length_differenceCode index n
      omega
    obtain ⟨hopened, hsize⟩ := attach_does hcode.opened hlt hattach
    exact ⟨rfl, hopened, hsize.trans hcode.size⟩

/-- Filling the rest of a chain puts its blocks behind the parts that are there. -/
theorem emitChain_does (hf : f.Closed) (hc : c.Of f) {remaining : Nat}
    {incoming : List (Value × BlockId)} (h : Filling f c join front [] now b n [] f₁)
    (hdoes : (emitChain l site limits join remaining token b index).Does f₁ incoming f₂) :
    ∃ rest : List BlockId, rest.length = remaining ∧ incoming = site.entries index n b rest ∧
      Opened f c join (front ++ site.chain join index n b rest) now f₂ := by
  induction remaining generalizing token b index n front incoming f₁ with
  | zero =>
    obtain ⟨_, f₃, hdifference, hdoes⟩ := does_bind.mp hdoes
    obtain ⟨rfl, h₃⟩ := emitDifference_fills h hc hdifference
    obtain ⟨_, f₄, hterm, hdoes⟩ := does_bind.mp hdoes
    obtain ⟨hopened, -⟩ := setTerminator_does h₃.opened hc (by simp) hterm
    obtain ⟨rfl, rfl⟩ := does_pure.mp hdoes
    rw [Part.close_of_nodup (p := ⟨b, [], numbered n _, .unreachable⟩) h₃.opened.nodup] at hopened
    exact ⟨[], rfl, rfl, hopened⟩
  | succ remaining ih =>
    obtain ⟨_, f₃, hdifference, hdoes⟩ := does_bind.mp hdoes
    obtain ⟨rfl, h₃⟩ := emitDifference_fills h hc hdifference
    obtain ⟨next, f₄, hnext, hdoes⟩ := does_bind.mp hdoes
    obtain ⟨hopened₄, hsize₄, -⟩ := blockBefore_does h₃.opened hf hnext
    have h₄ : Filling f c join front [{ block := next }] now b n (site.differenceCode index n) f₄ :=
      ⟨by simpa using hopened₄, hsize₄.trans h₃.size⟩
    obtain ⟨_, f₅, hcontinue, hdoes⟩ := does_bind.mp hdoes
    obtain ⟨rfl, h₅⟩ := emitContinue_fills h₄ hc (site.length_differenceCode index n) hcontinue
    obtain ⟨_, f₆, hterm, hdoes⟩ := does_bind.mp hdoes
    obtain ⟨hopened₆, hsize₆⟩ := setTerminator_does h₅.opened hc (by simp) hterm
    rw [Part.close_of_nodup (p := ⟨b, [], numbered n _, .unreachable⟩) h₅.opened.nodup] at hopened₆
    obtain ⟨incoming, f₇, hrest, hdoes⟩ := does_bind.mp hdoes
    obtain ⟨rfl, rfl⟩ := does_pure.mp hdoes
    have h₆ : Filling f c join (front ++ [site.linkPart index n join b next]) [] now next
        (site.decision index n + 1) [] f₆ := by
      refine ⟨by simpa [numbered, StringSite.linkPart, StringSite.linkCode] using hopened₆, ?_⟩
      have := h₅.size
      have := site.length_differenceCode index n
      have := site.length_continueCode index n
      simp only [List.length_append, List.length_nil] at *
      omega
    obtain ⟨rest, rfl, rfl, hopened⟩ := ih h₆ hrest
    exact ⟨next :: rest, rfl, rfl, by simpa [StringSite.chain] using hopened⟩

end Edit

/-! ## The whole call -/

namespace StringSite

/-- Where the chain begins. -/
def headPart (c : Cut) (first : BlockId) : Part :=
  ⟨c.head, c.before, [], .br first⟩

/-- All that stands for the call. -/
def parts (site : StringSite) (c : Cut) (join first : BlockId) (rest : List BlockId) (n : Nat) :
    List Part :=
  headPart c first :: site.chain join 0 n first rest

end StringSite

namespace Edit

variable {f f₁ f' : Function} {site : StringSite} {limits : Limits}

/-- Tokens that are taken come to no other instruction. -/
theorem takeStrings_does {found r : Option Token} {ids : List InstId}
    (hdoes : (takeStrings found ids).Does f r f₁) :
    ∃ annotations, f₁ = { f with annotations } ∧ f.KeepsTokens f₁ := by
  induction ids generalizing found f with
  | nil =>
    obtain ⟨-, rfl⟩ := does_pure.mp hdoes
    exact ⟨f.annotations, rfl, fun _ h => .inl h⟩
  | cons user rest ih =>
    obtain ⟨kind, f₂, hkind, hdoes⟩ := does_bind.mp hdoes
    obtain ⟨-, rfl⟩ := kind_does.mp hkind
    have htake : (do
        let taken := ((← get).annotations.take user Token.isString).1
        setAnnotations fun a => (a.take user Token.isString).2
        takeStrings (found.or taken.head?) rest : Edit (Option Token)).Does f r f₁ →
        ∃ annotations, f₁ = { f with annotations } ∧ f.KeepsTokens f₁ := by
      intro hdoes
      obtain ⟨g, f₃, hget, hdoes⟩ := does_bind.mp hdoes
      obtain ⟨rfl, rfl⟩ := does_get.mp hget
      obtain ⟨u, f₄, hset, hdoes⟩ := does_bind.mp hdoes
      obtain rfl := does_setAnnotations.mp hset
      obtain ⟨annotations, rfl, hkeeps⟩ := ih hdoes
      refine ⟨annotations, rfl, fun i hi => ?_⟩
      exact (hkeeps i hi).imp_left Annotations.get_take
    cases kind with
    | icmp pred lhs rhs => exact htake hdoes
    | phi ty incoming => exact htake hdoes
    | _ => exact ih hdoes

/-- Taking a call apart moves tokens, cuts the function in front of the call, puts the chain there and
makes the call the phi of the differences. -/
theorem unroll_does (hf : f.Tidy) {b : BlockId} {pos : Nat} (hid : f.Listed site.call b pos)
    {kind : InstKind} (hkind : f.kind site.call = .ok kind) (hphi : kind.isPhi = false) {u : Unit}
    (hdoes : (unroll site limits).Does f u f') :
    ∃ annotations c join first rest, f.KeepsTokens { f with annotations } ∧
      c.Of { f with annotations } ∧ c.site = site.call ∧ rest.length = site.len - 1 ∧
      Opened { f with annotations } c join (site.parts c join first rest f.insts.size)
        (.phi .i32 (site.entries 0 f.insts.size first rest)) f' := by
  rw [unroll, does_bind] at hdoes
  obtain ⟨users, f₁, husers, hdoes⟩ := hdoes
  obtain ⟨-, rfl⟩ := does_query.mp husers
  rw [does_bind] at hdoes
  obtain ⟨token, f₂, htake, hdoes⟩ := hdoes
  obtain ⟨annotations, rfl, hkeeps⟩ := takeStrings_does htake
  rw [does_bind] at hdoes
  obtain ⟨l, f₃, hl, hdoes⟩ := hdoes
  obtain rfl := labelFor_does hl
  rw [does_bind] at hdoes
  obtain ⟨r, f₄, hsplit, hdoes⟩ := hdoes
  have htidy := hf.withAnnotations annotations
  obtain ⟨c, join, rfl, hsite, hc, hopened, hsize⟩ := splitAt_does htidy hid hkind hphi hsplit
  simp only [] at hdoes
  rw [does_bind] at hdoes
  obtain ⟨first, f₅, hfirst, hdoes⟩ := hdoes
  obtain ⟨hopened, hsize₅, -⟩ := blockBefore_does hopened htidy.closed hfirst
  rw [does_bind] at hdoes
  obtain ⟨_, f₆, hterm, hdoes⟩ := hdoes
  have hnodup := hopened.nodup
  obtain ⟨hopened, hsize₆⟩ := setTerminator_does hopened hc (by simp) hterm
  rw [List.singleton_append, ← List.nil_append (_ :: _), Part.close_of_nodup
    (p := ⟨c.head, c.before, [], .br join⟩) hnodup] at hopened
  rw [does_bind] at hdoes
  obtain ⟨_, f₇, hreserve, hdoes⟩ := hdoes
  obtain ⟨-, rfl⟩ := does_query.mp hreserve
  rw [does_bind] at hdoes
  obtain ⟨incoming, f₇, hchain, hdoes⟩ := hdoes
  have hfilling : Filling { f with annotations } c join [StringSite.headPart c first] [] kind first
      f.insts.size [] f₆ := by
    refine ⟨hopened, ?_⟩
    rw [hsize₆, hsize₅, hsize]
    rfl
  obtain ⟨rest, hrest, rfl, hopened⟩ := emitChain_does htidy.closed hc hfilling hchain
  obtain ⟨hopened, -⟩ := replaceKind_does hopened (hsite ▸ hkind) hphi (hsite ▸ hdoes)
  exact ⟨annotations, c, join, first, rest, hkeeps, hc, hsite, hrest, hopened⟩

/-! ## What stays -/

section

variable {related : Function → Function → Prop} (hcode : Function.OfCode related)
include hcode

theorem keeps_emitByte (l : Label) (block : BlockId) (side : Side) (index : Nat)
    (foldCase : Bool) : (emitByte l block side index foldCase).Keeps related := by
  cases side with
  | bytes data => exact keeps_pure hcode _
  | pointer ptr =>
    refine .bind hcode (keeps_emitValue hcode _ _ _ _) fun addr => ?_
    refine .bind hcode (keeps_emitValue hcode _ _ _ _) fun byte => ?_
    refine .bind hcode (keeps_emitValue hcode _ _ _ _) fun wide => ?_
    split
    · refine .bind hcode (keeps_emitValue hcode _ _ _ _) fun offset => ?_
      refine .bind hcode (keeps_emitValue hcode _ _ _ _) fun isUpper => ?_
      refine .bind hcode (keeps_emitValue hcode _ _ _ _) fun lowered => ?_
      exact keeps_emitValue hcode _ _ _ _
    · exact keeps_pure hcode wide

theorem keeps_emitContinue (l : Label) (site : StringSite) (block : BlockId)
    (lhs difference : Value) : (emitContinue l site block lhs difference).Keeps related := by
  refine .bind hcode (keeps_emitValue hcode _ _ _ _) fun same => ?_
  split
  · refine .bind hcode (keeps_emitValue hcode _ _ _ _) fun notNul => ?_
    exact keeps_emitValue hcode _ _ _ _
  · exact keeps_pure hcode same

variable {limits : Limits} {token : Option Token}
  (hattach : ∀ t ∈ token, ∀ id, (attach id t limits).Keeps related)
include hattach

theorem keeps_emitDifference (l : Label) (site : StringSite) (block : BlockId) (index : Nat) :
    (emitDifference l site limits token block index).Keeps related := by
  refine .bind hcode (keeps_emitByte hcode _ _ _ _ _) fun lhs => ?_
  refine .bind hcode (keeps_emitByte hcode _ _ _ _ _) fun rhs => ?_
  refine .bind hcode (keeps_pushInst hcode _ _ _ _) fun difference => ?_
  cases token with
  | none => exact keeps_pure hcode _
  | some t => exact .bind hcode (hattach t rfl difference) fun _ => keeps_pure hcode _

theorem keeps_emitChain (l : Label) (site : StringSite) (join : BlockId) (remaining : Nat)
    (block : BlockId) (index : Nat) :
    (emitChain l site limits join remaining token block index).Keeps related := by
  induction remaining generalizing token block index with
  | zero =>
    refine .bind hcode (keeps_emitDifference hcode hattach _ _ _ _) fun r => ?_
    exact .bind hcode (keeps_setTerminator hcode _ _) fun _ => keeps_pure hcode _
  | succ remaining ih =>
    refine .bind hcode (keeps_emitDifference hcode hattach _ _ _ _) fun r => ?_
    refine .bind hcode (keeps_addBlockBefore hcode _ _) fun next => ?_
    refine .bind hcode (keeps_emitContinue hcode _ _ _ _ _) fun goOn => ?_
    refine .bind hcode (keeps_setTerminator hcode _ _) fun _ => ?_
    exact .bind hcode (ih (by simp) next (index + 1)) fun _ => keeps_pure hcode _

end

/-- Once the tokens of the readers have been taken, only the first difference may get a token. -/
theorem keeps_unroll {related : Function → Function → Prop} (hcode : Function.OfCode related)
    {site : StringSite} {limits : Limits} {f f' : Function} {u : Unit}
    (htake : ∀ users token f₁, f.instUsers site.call = .ok users →
      (takeStrings none users).Does f token f₁ →
        related f f₁ ∧ ∀ t ∈ token, ∀ id, (attach id t limits).Keeps related)
    (hdoes : (unroll site limits).Does f u f') : related f f' := by
  obtain ⟨users, f₁, hquery, hdoes⟩ := does_bind.mp hdoes
  obtain ⟨husers, rfl⟩ := does_query.mp hquery
  obtain ⟨token, f₁, htaken, hdoes⟩ := does_bind.mp hdoes
  obtain ⟨hrelated, hattach⟩ := htake users token f₁ husers htaken
  refine hcode.trans hrelated (Keeps.bind hcode (keeps_labelFor hcode _ _) (fun l => ?_) f₁ u f' hdoes)
  refine .bind hcode (keeps_splitAt hcode _ _ _) fun r => ?_
  cases r with
  | none => exact keeps_pure hcode ()
  | some halves =>
    refine .bind hcode (keeps_addBlockBefore hcode _ _) fun first => ?_
    refine .bind hcode (keeps_setTerminator hcode _ _) fun _ => ?_
    refine .bind hcode (keeps_query hcode _) fun _ => ?_
    refine .bind hcode (keeps_emitChain hcode hattach _ _ _ _ _ _) fun incoming => ?_
    exact keeps_replaceKind hcode _ _

theorem sameHeader_unroll {site : StringSite} {limits : Limits} {f f' : Function} {u : Unit}
    (hdoes : (unroll site limits).Does f u f') : f.SameHeader f' := by
  refine keeps_unroll Function.ofCode_sameHeader (fun users token f₁ _ htaken => ?_) hdoes
  obtain ⟨annotations, rfl, -⟩ := takeStrings_does htaken
  exact ⟨.withAnnotations f annotations, fun t _ id => keeps_attach id t limits⟩

end Edit

end EdgeProbe
