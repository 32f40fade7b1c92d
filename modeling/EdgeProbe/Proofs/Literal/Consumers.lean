import EdgeProbe.Literal.Consumer
import EdgeProbe.Proofs.Flow.Queries
import EdgeProbe.Proofs.Validity.Local

/-!
# Which comparison calls consume a value

The consumers of a value are gathered in one walk over those that read it. A comparison call among
them is added whenever it comes, the others add the comparison calls that read them and are not
there yet. So all consumers are found, but one is found twice if a reader that leads to it comes
before it. Main statement: `Module.compareConsumers_listed`.
-/

namespace EdgeProbe

namespace Module

variable {m : Module} {f : Function} {value skip user call : InstId}
  {found found' ids users consumers : List InstId}

/-- What a reader contributes: a comparison call itself, any other instruction the comparison calls
that read it. -/
def LeadsTo (m : Module) (f : Function) (user call : InstId) : Prop :=
  m.isCompareCall f call = .ok true ∧
    (call = user ∨ m.isCompareCall f user = .ok false ∧ f.Reads user call)

/-- A live comparison call reads the value, or it reads the result of an instruction that reads the
value and is no comparison call. What is skipped does not count as a reader of the value. -/
def Consumes (m : Module) (f : Function) (value skip call : InstId) : Prop :=
  m.isCompareCall f call = .ok true ∧
    (f.Reads value call ∧ call ≠ skip ∨
      ∃ user, f.Reads value user ∧ user ≠ skip ∧ m.isCompareCall f user = .ok false ∧
        f.Reads user call)

theorem consumes_iff :
    m.Consumes f value skip call ↔ ∃ user, f.Reads value user ∧ user ≠ skip ∧ m.LeadsTo f user call := by
  constructor
  · rintro ⟨hcall, ⟨hreads, hskip⟩ | ⟨user, hreads, hskip, huser, hsecond⟩⟩
    · exact ⟨call, hreads, hskip, hcall, .inl rfl⟩
    · exact ⟨user, hreads, hskip, hcall, .inr ⟨huser, hsecond⟩⟩
  · rintro ⟨user, hreads, hskip, hcall, rfl | ⟨huser, hsecond⟩⟩
    · exact ⟨hcall, .inl ⟨hreads, hskip⟩⟩
    · exact ⟨hcall, .inr ⟨user, hreads, hskip, huser, hsecond⟩⟩

/-! ## The walk -/

/-- Of the comparison calls among some instructions all are there afterwards, and none twice that
was not so before. -/
theorem addCompareCalls_eq_ok (h : m.addCompareCalls f found ids = .ok found') :
    (∀ call, call ∈ found' ↔ call ∈ found ∨ call ∈ ids ∧ m.isCompareCall f call = .ok true) ∧
      (found'.Nodup ↔ found.Nodup) := by
  induction ids generalizing found with
  | nil =>
    obtain rfl := Checked.pure_eq_ok.mp h
    simp
  | cons id rest ih =>
    obtain ⟨compares, hcompares, h⟩ := Checked.bind_eq_ok.mp h
    split at h
    · next hnew =>
      obtain ⟨rfl, hnot⟩ : compares = true ∧ id ∉ found := by simpa using hnew
      obtain ⟨hmem, hnodup⟩ := ih h
      refine ⟨fun call => ?_, hnodup.trans ?_⟩
      · rw [hmem, List.mem_append, List.mem_singleton, List.mem_cons]
        grind
      · rw [List.nodup_append_comm, List.singleton_append, List.nodup_cons]
        simp [hnot]
    · next hold =>
      obtain ⟨hmem, hnodup⟩ := ih h
      refine ⟨fun call => ?_, hnodup⟩
      have hthere : compares = true → id ∈ found := by simpa using hold
      rw [hmem, List.mem_cons]
      grind

/-- One reader adds what it leads to. Only a comparison call is added without looking whether it is
there. -/
theorem consumersAmong_cons_eq_ok (h : m.consumersAmong f found (user :: users) = .ok found') :
    ∃ next, m.consumersAmong f next users = .ok found' ∧
      (∀ call, call ∈ next ↔ call ∈ found ∨ m.LeadsTo f user call) ∧
      (next.Nodup ↔ found.Nodup ∧ (m.isCompareCall f user = .ok true → user ∉ found)) := by
  obtain ⟨compares, hcompares, h⟩ := Checked.bind_eq_ok.mp h
  cases compares with
  | true =>
    refine ⟨found ++ [user], h, fun call => ?_, ?_⟩
    · rw [List.mem_append, List.mem_singleton, LeadsTo]
      grind
    · rw [List.nodup_append_comm, List.singleton_append, List.nodup_cons, and_comm]
      simp [hcompares]
  | false =>
    obtain ⟨readers, hreaders, h⟩ := Checked.bind_eq_ok.mp h
    obtain ⟨next, hnext, h⟩ := Checked.bind_eq_ok.mp h
    obtain ⟨hmem, hnodup⟩ := addCompareCalls_eq_ok hnext
    refine ⟨next, h, fun call => ?_, hnodup.trans (by simp [hcompares])⟩
    rw [hmem, Function.mem_instUsers hreaders, LeadsTo]
    grind

/-- The walk comes to all that its readers lead to. It comes to none twice exactly when no comparison
call among the readers is there already or is what an earlier reader leads to. -/
theorem consumersAmong_eq_ok (h : m.consumersAmong f found users = .ok found') :
    (∀ call, call ∈ found' ↔ call ∈ found ∨ ∃ user ∈ users, m.LeadsTo f user call) ∧
      (found'.Nodup ↔ found.Nodup ∧
        (∀ later ∈ users, m.isCompareCall f later = .ok true → later ∉ found) ∧
        users.Pairwise fun earlier later => ¬m.LeadsTo f earlier later) := by
  induction users generalizing found with
  | nil =>
    obtain rfl := Checked.pure_eq_ok.mp h
    simp
  | cons user rest ih =>
    obtain ⟨next, hrest, hmem, hnodup⟩ := consumersAmong_cons_eq_ok h
    obtain ⟨hmem', hnodup'⟩ := ih hrest
    refine ⟨fun call => ?_, ?_⟩
    · rw [hmem', hmem, or_assoc, List.exists_mem_cons_iff]
    · have hcalls : ∀ later, m.LeadsTo f user later → m.isCompareCall f later = .ok true :=
        fun _ hleads => hleads.1
      rw [hnodup', hnodup, List.forall_mem_cons, List.pairwise_cons]
      grind

/-! ## Functions that can be walked -/

/-- What is live is in the arenas, and so are the functions that are called by name. -/
structure Walkable (m : Module) (f : Function) : Prop where
  blocks : ∀ b ∈ f.layout, b.index < f.blocks.size
  insts : ∀ b ∈ f.layout, ∀ blk, f.block b = .ok blk → ∀ id ∈ blk.insts, id.index < f.insts.size
  callees : ∀ id target args ret, f.kind id = .ok (.call (.direct target) args ret) →
    target.index < m.functions.size

namespace Walkable

variable (hf : m.Walkable f)
include hf

theorem exists_cCallee? {id : InstId} (h : id.index < f.insts.size) :
    ∃ callee?, m.cCallee? f id = .ok callee? := by
  obtain ⟨kind, hkind⟩ := Function.exists_kind h
  by_cases hcall : ∃ target args ret, kind = .call (.direct target) args ret
  · obtain ⟨target, args, ret, rfl⟩ := hcall
    obtain ⟨g, hg⟩ := exists_function (hf.callees id target args ret hkind)
    exact ⟨_, Checked.bind_eq_ok.mpr ⟨_, hkind, Checked.bind_eq_ok.mpr ⟨g, hg, rfl⟩⟩⟩
  · refine ⟨none, Checked.bind_eq_ok.mpr ⟨kind, hkind, ?_⟩⟩
    split
    · exact absurd ⟨_, _, _, rfl⟩ hcall
    · rfl

theorem exists_isCompareCall {id : InstId} (h : id.index < f.insts.size) :
    ∃ compares, m.isCompareCall f id = .ok compares := by
  obtain ⟨callee?, hcallee⟩ := hf.exists_cCallee? h
  cases callee? with
  | none => exact ⟨_, Checked.bind_eq_ok.mpr ⟨none, hcallee, rfl⟩⟩
  | some name => exact ⟨_, Checked.bind_eq_ok.mpr ⟨some name, hcallee, rfl⟩⟩

theorem exists_addCompareCalls (found : List InstId) {ids : List InstId}
    (h : ∀ id ∈ ids, id.index < f.insts.size) :
    ∃ found', m.addCompareCalls f found ids = .ok found' := by
  induction ids generalizing found with
  | nil => exact ⟨found, rfl⟩
  | cons id rest ih =>
    obtain ⟨hid, hrest⟩ := List.forall_mem_cons.mp h
    obtain ⟨compares, hcompares⟩ := hf.exists_isCompareCall hid
    rw [addCompareCalls, hcompares]
    change ∃ found', (if (compares && !found.contains id) = true then _ else _) = _
    split
    · exact ih _ hrest
    · exact ih _ hrest

theorem exists_consumersAmong (found : List InstId) {users : List InstId}
    (h : ∀ user ∈ users, user.index < f.insts.size) :
    ∃ found', m.consumersAmong f found users = .ok found' := by
  induction users generalizing found with
  | nil => exact ⟨found, rfl⟩
  | cons user rest ih =>
    obtain ⟨huser, hrest⟩ := List.forall_mem_cons.mp h
    obtain ⟨compares, hcompares⟩ := hf.exists_isCompareCall huser
    cases compares with
    | true =>
      obtain ⟨found', hfound'⟩ := ih (found ++ [user]) hrest
      exact ⟨found', Checked.bind_eq_ok.mpr ⟨true, hcompares, hfound'⟩⟩
    | false =>
      obtain ⟨readers, hreaders⟩ := Function.exists_instUsers hf.blocks hf.insts user
      obtain ⟨next, hnext⟩ := hf.exists_addCompareCalls found fun id hid =>
        ((Function.mem_instUsers hreaders).mp hid).lt
      obtain ⟨found', hfound'⟩ := ih next hrest
      exact ⟨found', Checked.bind_eq_ok.mpr ⟨false, hcompares, Checked.bind_eq_ok.mpr
        ⟨readers, hreaders, Checked.bind_eq_ok.mpr ⟨next, hnext, hfound'⟩⟩⟩⟩

theorem exists_compareConsumers (value skip : InstId) :
    ∃ consumers, m.compareConsumers f value skip = .ok consumers := by
  obtain ⟨readers, hreaders⟩ := Function.exists_instUsers hf.blocks hf.insts value
  obtain ⟨consumers, hconsumers⟩ := hf.exists_consumersAmong [] fun id hid =>
    ((Function.mem_instUsers hreaders).mp (List.mem_of_mem_filter hid)).lt
  exact ⟨consumers, Checked.bind_eq_ok.mpr ⟨readers, hreaders, hconsumers⟩⟩

end Walkable

theorem mem_compareConsumers (h : m.compareConsumers f value skip = .ok consumers) :
    call ∈ consumers ↔ m.Consumes f value skip call := by
  obtain ⟨readers, hreaders, h⟩ := Checked.bind_eq_ok.mp h
  rw [(consumersAmong_eq_ok h).1, consumes_iff]
  simp [Function.mem_instUsers hreaders, and_assoc]

/-- The consumers of a value can be told when all that is live is in the arenas. They are exactly the
live comparison calls that read the value, but for the skipped one, or that read the result of
another instruction than the skipped one that reads the value and is no comparison call. None of them
is listed twice exactly when none of the readers, in layout order, leads to a later one of them: a
comparison call that reads the value is not looked for before it is added. -/
theorem compareConsumers_listed (m : Module) (f : Function) (value skip : InstId) :
    (m.Walkable f → ∃ consumers, m.compareConsumers f value skip = .ok consumers) ∧
    ∀ consumers, m.compareConsumers f value skip = .ok consumers →
      (∀ call, call ∈ consumers ↔ m.Consumes f value skip call) ∧
      ∃ readers, f.instUsers value = .ok readers ∧
        (consumers.Nodup ↔
          (readers.filter (· != skip)).Pairwise fun earlier later => ¬m.LeadsTo f earlier later) := by
  refine ⟨fun hf => hf.exists_compareConsumers value skip,
    fun consumers h => ⟨fun _ => mem_compareConsumers h, ?_⟩⟩
  obtain ⟨readers, hreaders, h⟩ := Checked.bind_eq_ok.mp h
  exact ⟨readers, hreaders, by simpa using (consumersAmong_eq_ok h).2⟩

end Module

/-- Copies a text to a buffer and compares the buffer with its own end. -/
def Function.echo : Function where
  name := "echo"
  params := []
  ret := .i1
  blocks := #[⟨"entry", [⟨0⟩, ⟨1⟩, ⟨2⟩, ⟨3⟩, ⟨4⟩], .ret (some (.inst ⟨4⟩))⟩]
  layout := [⟨0⟩]
  insts := #[
    { kind := .alloca 8, block := some ⟨0⟩ },
    { kind := .call (.direct ⟨0⟩) [.inst ⟨0⟩, .global ⟨0⟩, .ofWord 64 8] .void, block := some ⟨0⟩ },
    { kind := .gep (.inst ⟨0⟩) (.ofWord 64 1), block := some ⟨0⟩ },
    { kind := .call (.direct ⟨1⟩) [.inst ⟨0⟩, .inst ⟨2⟩] .i32, block := some ⟨0⟩ },
    { kind := .icmp .eq (.inst ⟨3⟩) (.ofWord 32 0), block := some ⟨0⟩ }]

namespace Module

def echoing : Module where
  name := "echoing"
  globals := #[{ name := "word", constant := true,
                 contents := some (.bytes [112, 97, 116, 116, 101, 114, 110, 0]) }]
  functions := #[.declare "llvm.memcpy.p0.p0.i64" [.ptr, .ptr, .int 64] .void,
    .declare "strcmp" [.ptr, .ptr] .i32, .echo]

theorem echoing_walkable : echoing.Walkable .echo where
  blocks := by decide
  insts b hb blk hblk := by
    obtain rfl := List.mem_singleton.mp hb
    obtain rfl := Except.ok.inj hblk
    decide
  callees id target args ret hkind := by
    obtain ⟨inst, hinst, heq⟩ := Function.kind_eq_ok.mp hkind
    have hmem := Array.mem_of_getElem? (Function.inst_eq_ok.mp hinst)
    simp only [Function.echo, List.mem_toArray, List.mem_cons, List.not_mem_nil, or_false] at hmem
    obtain rfl | rfl | rfl | rfl | rfl := hmem <;> cases heq <;> decide

/-- The one consumer is found. -/
theorem echoing_consumers_listed : ∃ consumers,
    echoing.compareConsumers .echo ⟨0⟩ ⟨1⟩ = .ok consumers ∧
      ∀ call, call ∈ consumers ↔ echoing.Consumes .echo ⟨0⟩ ⟨1⟩ call := by
  obtain ⟨hexists, hlisted⟩ := compareConsumers_listed echoing .echo ⟨0⟩ ⟨1⟩
  obtain ⟨consumers, hconsumers⟩ := hexists echoing_walkable
  exact ⟨consumers, hconsumers, (hlisted consumers hconsumers).1⟩

/-- A comparison call that reads a buffer and an address in it is listed twice. -/
theorem echoing_consumer_twice : echoing.Accepted ∧
    echoing.compareConsumers .echo ⟨0⟩ ⟨1⟩ = .ok [⟨3⟩, ⟨3⟩] ∧
      ¬([⟨3⟩, ⟨3⟩] : List InstId).Nodup :=
  ⟨accepted_of_isLocal (by decide +kernel), rfl, by decide⟩

end Module

end EdgeProbe
