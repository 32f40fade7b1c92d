import EdgeProbe.Proofs.Probe.Passes
import EdgeProbe.Proofs.Probe.Tokens

/-!
# The order of recording

A dictionary is made by requests, each for the record of one token or for those of all tokens of a
block. What it comes to depends on the records that were asked for and on nothing else. Its entries
are these records in ascending order, or the least one of each token. Main statement:
`Dictionary.collected`.
-/

namespace EdgeProbe

namespace Dictionary

/-! ## Records in order -/

namespace Record

variable {a b : Record}

theorem compare_eq (a b : Record) :
    compare a b = (compare a.token b.token).then (compare a.tag b.tag) :=
  rfl

/-- Records come by token and those of one token by tag. -/
theorem lt_iff : compare a b = .lt ↔
    compare a.token b.token = .lt ∨ a.token = b.token ∧ compare a.tag b.tag = .lt := by
  rw [compare_eq, Ordering.then_eq_lt, Std.LawfulEqCmp.compare_eq_iff_eq]

theorem token_lt (h : compare a b = .lt) (hne : a.token ≠ b.token) :
    compare a.token b.token = .lt :=
  (lt_iff.mp h).resolve_right fun heq => hne heq.1

theorem tag_lt (h : compare a b = .lt) (heq : a.token = b.token) : compare a.tag b.tag = .lt := by
  obtain hlt | ⟨-, hlt⟩ := lt_iff.mp h
  · rw [heq, Std.ReflOrd.compare_self] at hlt
    cases hlt
  · exact hlt

end Record

/-! ## The first record of each token -/

/-- No record of the list with the same token has a lesser tag. -/
def LeastIn (records : List Record) (e : Record) : Prop :=
  e ∈ records ∧ ∀ r ∈ records, r.token = e.token → compare e.tag r.tag ≠ .gt

variable {last : Option String} {records : List Record} {e r : Record}

theorem leastIn_head (h : (r :: records).Pairwise fun a b => compare a b = .lt) :
    LeastIn (r :: records) r := by
  refine ⟨List.mem_cons_self, fun r' hr' heq => ?_⟩
  obtain rfl | hr' := List.mem_cons.mp hr'
  · rw [Std.ReflOrd.compare_self]
    nofun
  · rw [Record.tag_lt ((List.pairwise_cons.mp h).1 r' hr') heq.symm]
    nofun

/-- Below the first record those count that have another token. -/
theorem leastIn_cons (h : (r :: records).Pairwise fun a b => compare a b = .lt) (hne : e ≠ r) :
    LeastIn (r :: records) e ↔ LeastIn records e ∧ e.token ≠ r.token := by
  constructor
  · rintro ⟨hmem, hleast⟩
    have he := (List.mem_cons.mp hmem).resolve_left hne
    refine ⟨⟨he, fun r' hr' => hleast r' (List.mem_cons_of_mem _ hr')⟩, fun heq => ?_⟩
    have hlt := Record.tag_lt ((List.pairwise_cons.mp h).1 e he) heq.symm
    exact hleast r List.mem_cons_self heq.symm (Std.OrientedCmp.gt_iff_lt.mpr hlt)
  · rintro ⟨⟨hmem, hleast⟩, htoken⟩
    refine ⟨List.mem_cons_of_mem _ hmem, fun r' hr' heq => ?_⟩
    obtain rfl | hr' := List.mem_cons.mp hr'
    · exact absurd heq.symm htoken
    · exact hleast r' hr' heq

/-- The token before, if there is one, comes after no token of the records. -/
def FollowedBy (last : Option String) (records : List Record) : Prop :=
  ∀ token ∈ last, ∀ r ∈ records, compare token r.token ≠ .gt

theorem FollowedBy.tail (h : FollowedBy last (r :: records)) : FollowedBy last records :=
  fun token htoken r' hr' => h token htoken r' (List.mem_cons_of_mem _ hr')

theorem followedBy_head (h : (r :: records).Pairwise fun a b => compare a b = .lt) :
    FollowedBy (some r.token) records := by
  rintro token htoken r' hr' hgt
  obtain rfl := Option.some.inj htoken
  obtain hlt | ⟨heq, -⟩ := Record.lt_iff.mp ((List.pairwise_cons.mp h).1 r' hr')
  · rw [hlt] at hgt
    cases hgt
  · rw [heq, Std.ReflOrd.compare_self] at hgt
    cases hgt

theorem mem_firstOfEach (h : records.Pairwise fun a b => compare a b = .lt)
    (hlast : FollowedBy last records) :
    e ∈ firstOfEach last records ↔ LeastIn records e ∧ last ≠ some e.token := by
  induction records generalizing last with
  | nil => simp [firstOfEach, LeastIn]
  | cons r rest ih =>
    obtain ⟨hr, hrest⟩ := List.pairwise_cons.mp h
    rw [firstOfEach]
    split
    · next hsame =>
      -- The first record is one of the token before, and so is no member.
      obtain rfl := beq_iff_eq.mp hsame
      rw [ih hrest hlast.tail]
      by_cases heq : e = r
      · subst heq
        simp
      · rw [leastIn_cons h heq, and_assoc]
        simp [eq_comm]
    · next hother =>
      rw [List.mem_cons, ih hrest (followedBy_head h)]
      by_cases heq : e = r
      · subst heq
        simpa [leastIn_head h] using hother
      · rw [leastIn_cons h heq]
        simp only [heq, false_or, Option.some.injEq, ne_eq, eq_comm (a := r.token)]
        refine ⟨fun hmem => ⟨hmem, ?_⟩, And.left⟩
        -- The token before comes before the first record, and this one after it.
        rintro rfl
        have hlt := Record.token_lt (hr e hmem.1.1) (Ne.symm hmem.2)
        exact hlast _ rfl r List.mem_cons_self (Std.OrientedCmp.gt_iff_lt.mpr hlt)

theorem mem_of_mem_entries {d : Dictionary} {dictType : DictType} (h : r ∈ d.entries dictType) :
    r ∈ d.records := by
  cases dictType with
  | normal => exact ((mem_firstOfEach d.records.ascending (by simp [FollowedBy])).mp h).1.1
  | optimized => exact h

theorem pairwise_firstOfEach (h : records.Pairwise fun a b => compare a b = .lt) :
    (firstOfEach last records).Pairwise fun a b => compare a.token b.token = .lt := by
  induction records generalizing last with
  | nil => exact .nil
  | cons r rest ih =>
    obtain ⟨hr, hrest⟩ := List.pairwise_cons.mp h
    rw [firstOfEach]
    split
    · exact ih hrest
    · refine List.pairwise_cons.mpr ⟨fun e he => ?_, ih hrest⟩
      obtain ⟨hleast, hne⟩ := (mem_firstOfEach hrest (followedBy_head h)).mp he
      exact Record.token_lt (hr e hleast.1) fun heq => hne (congrArg some heq)

theorem exists_firstOfEach (hr : r ∈ records) (hlast : last ≠ some r.token) :
    ∃ e ∈ firstOfEach last records, e.token = r.token := by
  induction records generalizing last with
  | nil => cases hr
  | cons r' rest ih =>
    rw [firstOfEach]
    split
    · next hsame =>
      obtain rfl := beq_iff_eq.mp hsame
      obtain rfl | hr := List.mem_cons.mp hr
      · exact absurd rfl hlast
      · exact ih hr hlast
    · by_cases heq : r'.token = r.token
      · exact ⟨r', List.mem_cons_self, heq⟩
      · obtain rfl | hr := List.mem_cons.mp hr
        · exact absurd rfl heq
        · obtain ⟨e, he, htoken⟩ := ih hr fun hsome => heq (Option.some.inj hsome)
          exact ⟨e, List.mem_cons_of_mem _ he, htoken⟩

/-! ## Requests -/

/-- What a dictionary is asked to record. -/
inductive Request where
  /-- One token as seen through a probe. -/
  | one (token : Token) (id : Nat)
  /-- All tokens of a block as seen through a probe. -/
  | all (f : Function) (block : BlockId) (id : Nat)

/-- The record is one of those that are asked for. -/
def Request.Names : Request → Record → Prop
  | .one token id, r => r = ⟨token.value, tagFor token id⟩
  | .all f block id, r => f.Offers block id r

/-- Asked for a block, one is asked for a block that there is. -/
def Request.Answerable : Request → Prop
  | .one _ _ => True
  | .all f block _ => ∃ blk, f.block block = .ok blk

def answer (d : Dictionary) : Request → Checked Dictionary
  | .one token id => return d.record token id
  | .all f block id => d.recordBlock f block id

/-- The dictionary that some requests make. -/
def collect (requests : List Request) : Checked Dictionary :=
  requests.foldlM answer {}

variable {d d' : Dictionary} {requests : List Request}

theorem mem_answer {request : Request} (h : d.answer request = .ok d') :
    r ∈ d'.records ↔ r ∈ d.records ∨ request.Names r := by
  cases request with
  | one token id =>
    obtain rfl := Checked.pure_eq_ok.mp h
    exact mem_record.trans or_comm
  | all f block id => exact mem_recordBlock h

/-- What has been collected are the records that were asked for. -/
theorem mem_collect (h : collect requests = .ok d) :
    r ∈ d.records ↔ ∃ request ∈ requests, request.Names r := by
  have hadds := Checked.foldlM_adds (I := fun _ => True) (H := fun d r => r ∈ d.records)
    (A := Request.Names) (fun d request d' _ hd' => ⟨trivial, fun r => mem_answer hd'⟩) trivial h
  have hnone : ¬ r ∈ ({} : Dictionary).records := List.not_mem_nil
  rw [hadds.2 r, or_iff_right hnone]

theorem exists_collect (h : ∀ request ∈ requests, request.Answerable) :
    ∃ d, collect requests = .ok d := by
  have hyields : Checked.Yields (collect requests) fun _ => True := by
    refine .foldlM fun request hrequest d => ?_
    cases request with
    | one token id => exact Checked.yields_pure trivial
    | all f block id =>
      obtain ⟨blk, hblk⟩ := h _ hrequest
      exact recordBlock_yields hblk d id
  obtain ⟨d, hd, -⟩ := hyields
  exact ⟨d, hd⟩

/-- Requests that ask for the same records make the same dictionary, in whichever order and however
often they ask for each. Its entries are these records in ascending order or, for each token once,
the record with its least tag. -/
theorem collected {first second : List Request} (hfirst : ∀ request ∈ first, request.Answerable)
    (hsecond : ∀ request ∈ second, request.Answerable)
    (hsame : ∀ r, (∃ request ∈ first, request.Names r) ↔ ∃ request ∈ second, request.Names r) :
    ∃ d d', collect first = .ok d ∧ collect second = .ok d' ∧
      d'.size = d.size ∧ (∀ dictType, d'.entries dictType = d.entries dictType) ∧
      (∀ dictType counter buildId,
        d'.render dictType counter buildId = d.render dictType counter buildId) ∧
      ((d.entries .optimized).Pairwise (fun a b => compare a b = .lt) ∧
        (∀ r, r ∈ d.entries .optimized ↔ ∃ request ∈ first, request.Names r) ∧
        d.size = (d.entries .optimized).length) ∧
      (d.entries .normal).Pairwise (fun a b => compare a.token b.token = .lt) ∧
      (∀ request ∈ first, ∀ r, request.Names r → ∃ e ∈ d.entries .normal, e.token = r.token) ∧
      ∀ e ∈ d.entries .normal, (∃ request ∈ first, request.Names e) ∧
        ∀ request ∈ first, ∀ r, request.Names r → r.token = e.token →
          compare e.tag r.tag ≠ .gt := by
  obtain ⟨d, hd⟩ := exists_collect hfirst
  obtain ⟨d', hd'⟩ := exists_collect hsecond
  have hmem : ∀ r, r ∈ d.records ↔ ∃ request ∈ first, request.Names r := fun r => mem_collect hd
  have hmem' : ∀ r, r ∈ d'.records ↔ ∃ request ∈ second, request.Names r := fun r => mem_collect hd'
  have heq : d' = d := by
    obtain ⟨records⟩ := d
    obtain ⟨records'⟩ := d'
    refine congrArg mk (SortedSet.ext_mem fun r => ?_)
    exact (hmem' r).trans ((hsame r).symm.trans (hmem r).symm)
  subst heq
  refine ⟨d', d', hd, hd', rfl, fun _ => rfl, fun _ _ _ => rfl,
    ⟨d'.records.ascending, hmem, rfl⟩, pairwise_firstOfEach d'.records.ascending,
    fun request hrequest r hr => ?_, fun e he => ?_⟩
  · exact exists_firstOfEach ((hmem r).mpr ⟨request, hrequest, hr⟩) (by simp)
  · obtain ⟨⟨he, hleast⟩, -⟩ := (mem_firstOfEach d'.records.ascending (by simp [FollowedBy])).mp he
    exact ⟨(hmem e).mp he, fun request hrequest r hr => hleast r ((hmem r).mpr ⟨request, hrequest, hr⟩)⟩

/-! ### Two tokens on one instruction -/

def word : Token :=
  { value := "abcd", provenance := "main_c_3", origin := .comparedInteger }

def name : Token :=
  { value := "GET", provenance := "main_c_3", origin := .comparedString }

/-- A block with an instruction that carries both. -/
def noting : Function where
  name := "note"
  params := []
  ret := .void
  blocks := #[⟨"entry", [⟨0⟩], .ret none⟩]
  layout := [⟨0⟩]
  insts := #[{ kind := .alloca 1, block := some ⟨0⟩ }]
  annotations := ({} : Annotations).modify ⟨0⟩ fun _ => [word, name]

theorem offers_noting {id : Nat} {r : Record} : noting.Offers ⟨0⟩ id r ↔
    r = ⟨word.value, tagFor word id⟩ ∨ r = ⟨name.value, tagFor name id⟩ := by
  have hblock : noting.block ⟨0⟩ = .ok ⟨"entry", [⟨0⟩], .ret none⟩ := rfl
  have htokens : noting.annotations.get ⟨0⟩ = [word, name] := rfl
  simp [Function.Offers, hblock, htokens]

theorem noting_collected : ∃ d d', collect [.all noting ⟨0⟩ 2, .one word 1] = .ok d ∧
    collect [.one word 1, .one name 2, .one word 2, .one name 2] = .ok d' ∧
    d'.size = d.size ∧ d.size = 3 ∧ ∃ e ∈ d.entries .normal, e.token = "abcd" := by
  have hthree : (collect [.all noting ⟨0⟩ 2, .one word 1]).map size = .ok 3 := by decide +kernel
  obtain ⟨d, d', hd, hd', hsize, -, -, -, -, hnormal, -⟩ := @collected
    [.all noting ⟨0⟩ 2, .one word 1] [.one word 1, .one name 2, .one word 2, .one name 2]
    (by simp [Request.Answerable, Function.block, noting]) (by simp [Request.Answerable])
    (by
      intro r
      simp only [List.mem_cons, List.not_mem_nil, or_false, exists_eq_or_imp, exists_eq_left,
        Request.Names, offers_noting]
      tauto)
  rw [hd] at hthree
  exact ⟨d, d', hd, hd', hsize, Except.ok.inj hthree,
    hnormal _ (List.mem_cons_of_mem _ List.mem_cons_self) _ rfl⟩

end Dictionary

end EdgeProbe
