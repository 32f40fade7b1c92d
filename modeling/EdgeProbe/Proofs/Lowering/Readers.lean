import EdgeProbe.Proofs.Flow.Queries
import EdgeProbe.Proofs.Lowering.Unrolls

/-!
# Who asks for the result of a call

The comparisons and phis that read the result of a call are those to which the constant side of the
call is attached. They stay the same when another call is taken apart: of the code in its place,
what compares reads nothing but that code. Main statements: `Edit.resultUsers_does`,
`Function.Unrolls.sameReaders`.
-/

namespace EdgeProbe

/-- A comparison or a phi. -/
def InstKind.decides : InstKind → Bool
  | .icmp _ _ _ | .phi _ _ => true
  | _ => false

namespace Function

variable {f f' : Function} {call i : InstId} {value : Value}

/-- A live comparison or phi reads the result of an instruction. -/
structure Asks (f : Function) (call i : InstId) : Prop extends f.Reads call i where
  decides : ∃ kind, f.kind i = .ok kind ∧ kind.decides = true

end Function

/-- Those to which a keyword is attached are those that ask for the result. -/
theorem Edit.resultUsers_does {f f' : Function} {call : InstId} {users : List InstId}
    (h : (resultUsers call).Does f users f') : f = f' ∧ ∀ i, i ∈ users ↔ f.Asks call i := by
  obtain ⟨husers, rfl⟩ := does_query.mp h
  obtain ⟨readers, hreaders, husers⟩ := Checked.bind_eq_ok.mp husers
  refine ⟨rfl, fun i => ?_⟩
  have hchosen : ∀ kind : InstKind, (match kind with
      | .icmp _ _ _ | .phi _ _ => return true
      | _ => return false : Checked Bool) = .ok kind.decides := by
    intro kind
    cases kind <;> rfl
  constructor
  · intro hi
    obtain ⟨hreader, hdecides⟩ := Checked.mem_of_filterM husers hi
    have hreads := (Function.mem_instUsers hreaders).mp hreader
    obtain ⟨kind, hkind, -⟩ := hreads.operand
    rw [hkind] at hdecides
    exact ⟨hreads, kind, hkind, Except.ok.inj ((hchosen kind).symm.trans hdecides)⟩
  · intro hi
    obtain ⟨kind, hkind, hdecides⟩ := hi.decides
    have hreader := (Function.mem_instUsers hreaders).mpr hi.toReads
    refine (Checked.filterM_eq_ok husers).2 i hreader ?_
    rw [hkind]
    exact (hchosen kind).trans (congrArg Except.ok hdecides)

/-! ## The code in the place of another call -/

variable {call : InstId} {kind : InstKind} {n : Nat}

namespace Side

variable {side : Side} {index i : Nat} {foldCase : Bool}

theorem result_ne (hlt : call.index < n) : side.result index foldCase n ≠ .inst call := by
  cases side with
  | bytes data => simp [result, Edit.word32, Value.ofWord]
  | pointer ptr =>
    intro h
    obtain rfl := Value.inst.inj h
    dsimp only at hlt
    split at hlt <;> omega

theorem not_mem_operands_code (hkind : kind ∈ side.code index foldCase n)
    (hdecides : kind.decides = true) (hlt : call.index < n) : .inst call ∉ kind.operands := by
  cases side with
  | bytes data => cases hkind
  | pointer ptr =>
    have hne : call ≠ ⟨n + 3⟩ := by
      rintro rfl
      dsimp only at hlt
      omega
    -- Only the code that ignores case compares.
    cases foldCase with
    | false =>
      simp only [code, Bool.false_eq_true, if_false, List.append_nil, List.mem_cons,
        List.not_mem_nil, or_false] at hkind
      obtain rfl | rfl | rfl := hkind <;> cases hdecides
    | true =>
      simp only [code, Edit.lowerCode, if_true, List.cons_append, List.nil_append, List.mem_cons,
        List.not_mem_nil, or_false] at hkind
      obtain rfl | rfl | rfl | rfl | rfl | rfl | rfl := hkind <;>
        simp_all [InstKind.decides, InstKind.operands, Edit.word32, Value.ofWord]

end Side

namespace StringSite

variable {site : StringSite} {index : Nat}

/-- What compares in the code of a block reads that code only. -/
theorem not_mem_operands_linkCode (hkind : kind ∈ site.linkCode index n)
    (hdecides : kind.decides = true) (hlt : call.index < n) : .inst call ∉ kind.operands := by
  have hmiddle : n ≤ site.middle index n := le_middle
  have hlast : site.middle index n ≤ site.last index n := middle_le_last
  simp only [linkCode, differenceCode, List.mem_append, List.mem_singleton] at hkind
  obtain (hleft | hright | rfl) | hcontinue := hkind
  · exact Side.not_mem_operands_code hleft hdecides hlt
  · exact Side.not_mem_operands_code hright hdecides (hlt.trans_le hmiddle)
  · cases hdecides
  · have hne : call ≠ ⟨site.last index n⟩ := by
      rintro rfl
      dsimp only at hlt
      omega
    obtain rfl | hnul := List.mem_cons.mp hcontinue
    · simp [InstKind.operands, Edit.word32, Value.ofWord, hne]
    · split at hnul
      · obtain rfl | hand := List.mem_cons.mp hnul
        · simp only [InstKind.operands, List.mem_cons, List.not_mem_nil, or_false, not_or]
          exact ⟨(Side.result_ne hlt).symm, by simp [Edit.word32, Value.ofWord]⟩
        · obtain rfl := List.mem_singleton.mp hand
          cases hdecides
      · cases hnul

variable {f f' : Function} {c : Cut} {join first : BlockId} {rest : List BlockId} {now : InstKind}

theorem Stands.mem_linkCode {k : Nat} {p : Part} (hstands : site.Stands join rest index k p)
    {id : InstId} (h : (id, kind) ∈ p.insts) : kind ∈ site.linkCode index k := by
  have hmem : ∀ kinds, (id, kind) ∈ numbered k kinds → kind ∈ kinds := by
    intro kinds hin
    obtain ⟨pos, hpos⟩ := List.mem_iff_getElem?.mp hin
    rw [getElem?_numbered] at hpos
    obtain ⟨_, hget, heq⟩ := Option.map_eq_some_iff.mp hpos
    exact (Prod.mk.inj heq).2 ▸ List.mem_of_getElem? hget
  cases hstands with
  | last => exact List.mem_append_left _ (hmem _ h)
  | link _ => exact hmem _ h

/-- The code of a chain is new. -/
theorem Stands.size_le {k : Nat} {p : Part}
    (h : Opened f c join (site.parts c join first rest f.insts.size) now f')
    (hp : p ∈ site.chain join 0 f.insts.size first rest) (hstands : site.Stands join rest index k p) :
    f.insts.size ≤ k := by
  obtain ⟨kinds, heq, hlast, -⟩ := hstands.code
  have hlength : 0 < kinds.length := by
    have : k ≤ site.last index k := le_middle.trans middle_le_last
    omega
  have hentry : (⟨k⟩, kinds[0]) ∈ p.insts := by
    rw [heq]
    refine List.mem_of_getElem? (i := 0) ?_
    rw [getElem?_numbered, List.getElem?_eq_getElem hlength]
    rfl
  exact (h.given p (List.mem_cons_of_mem _ hp) _ hentry).1

end StringSite

@[simp] theorem InstKind.decides_renameIncoming (kind : InstKind) (source target : BlockId) :
    (kind.renameIncoming source target).decides = kind.decides := by
  cases kind <;> rfl

section

variable {f f' : Function} {c : Cut} {join first : BlockId} {rest : List BlockId} {i : InstId}
  {site : StringSite}
  (h : Opened f c join (site.parts c join first rest f.insts.size)
    (.phi .i32 (site.entries 0 f.insts.size first rest)) f')
include h

/-- What reads a result from before did so before, or is code of the chain that does not compare. -/
theorem Opened.reads_cases (hf : f.Tidy) (hc : c.Of f) (hlt : call.index < f.insts.size)
    (hi : f'.Reads call i) : f.Reads call i ∧ (f'.Asks call i → f.Asks call i) ∨
      f.insts.size ≤ i.index ∧ ¬f'.Asks call i := by
  obtain ⟨kind, hkind, hreads⟩ := hi.operand
  have hold : ∀ b pos, f.Listed i b pos →
      f.Reads call i ∧ (f'.Asks call i → f.Asks call i) := by
    intro b pos hlisted
    have hne : i ≠ c.site := by
      rintro rfl
      obtain rfl := Except.ok.inj (h.site.symm.trans hkind)
      obtain ⟨entry, hentry, heq⟩ := List.mem_map.mp hreads
      obtain ⟨p, hp, index, k, hstands, rfl⟩ := StringSite.mem_entries join hentry
      obtain rfl := Value.inst.inj heq
      have hle := hstands.size_le h hp
      have : k ≤ site.last index k := StringSite.le_middle.trans StringSite.middle_le_last
      dsimp only at hlt
      omega
    obtain ⟨kind₀, hkind₀, hcases⟩ := h.kind_cases hf hlisted hne hkind
    have hsame : kind.operands = kind₀.operands ∧ kind.decides = kind₀.decides := by
      obtain rfl | rfl := hcases <;> simp
    have hold : f.Reads call i := ⟨⟨b, pos, hlisted⟩, kind₀, hkind₀, hsame.1 ▸ hreads⟩
    refine ⟨hold, fun hasks => ⟨hold, kind₀, hkind₀, ?_⟩⟩
    obtain ⟨kind', hkind', hdecides⟩ := hasks.decides
    obtain rfl := Except.ok.inj (hkind.symm.trans hkind')
    rw [← hsame.2, hdecides]
  obtain ⟨b, pos, hlisted⟩ := hi.listed
  obtain ⟨hlisted, -⟩ | ⟨-, hlisted⟩ | ⟨p, hp, -, -, k, hgiven⟩ := h.listed_cases hf.closed hc hlisted
  · exact .inl (hold _ _ hlisted)
  · exact .inl (hold _ _ hlisted)
  · obtain ⟨hle, inst, hinst, rfl, -⟩ := h.given p hp _ hgiven
    refine .inr ⟨hle, fun hasks => ?_⟩
    obtain ⟨kind', hkind', hdecides⟩ := hasks.decides
    have hkind₁ : f'.kind i = .ok inst.kind := Function.kind_eq_ok.mpr ⟨inst, hinst, rfl⟩
    obtain rfl := Except.ok.inj (hkind₁.symm.trans hkind)
    obtain rfl := Except.ok.inj (hkind₁.symm.trans hkind')
    obtain rfl | hchain := StringSite.mem_parts hp
    · cases hgiven
    · obtain ⟨index, k, hstands, -⟩ := StringSite.mem_chain hchain
      exact StringSite.not_mem_operands_linkCode (hstands.mem_linkCode hgiven) hdecides
        (hlt.trans_le (hstands.size_le h hchain)) hreads

end

namespace Function

variable {m : Module} {limits : Limits} {id : FuncId} {f f₁ f' : Function}

/-- What was there before is live still, and the same instructions ask for its results. -/
structure SameReaders (f f' : Function) : Prop where
  size : f.insts.size ≤ f'.insts.size
  listed : ∀ i b pos, f.Listed i b pos → ∃ b pos, f'.Listed i b pos
  asks : ∀ call i, call.index < f.insts.size → (f'.Asks call i ↔ f.Asks call i)
  reads : ∀ call i, call.index < f.insts.size → i.index < f.insts.size → f'.Reads call i →
    f.Reads call i

theorem SameReaders.refl (f : Function) : f.SameReaders f :=
  ⟨le_rfl, fun _ b pos h => ⟨b, pos, h⟩, fun _ _ _ => Iff.rfl, fun _ _ _ _ h => h⟩

theorem SameReaders.trans (h : f.SameReaders f₁) (h' : f₁.SameReaders f') : f.SameReaders f' where
  size := h.size.trans h'.size
  listed := by
    intro i b pos hi
    obtain ⟨b₁, pos₁, hi₁⟩ := h.listed i b pos hi
    exact h'.listed i b₁ pos₁ hi₁
  asks := fun call i hlt => (h'.asks call i (hlt.trans_le h.size)).trans (h.asks call i hlt)
  reads := fun call i hcall hi hreads =>
    h.reads call i hcall hi (h'.reads call i (hcall.trans_le h.size) (hi.trans_le h.size) hreads)

theorem SameReaders.withAnnotations (f : Function) (annotations : Annotations) :
    f.SameReaders { f with annotations } where
  size := le_rfl
  listed := fun _ b pos h => ⟨b, pos, h⟩
  asks := fun _ _ _ => ⟨fun h => ⟨⟨h.listed, h.operand⟩, h.decides⟩,
    fun h => ⟨⟨h.listed, h.operand⟩, h.decides⟩⟩
  reads := fun _ _ _ _ h => ⟨h.listed, h.operand⟩

/-- Taking a call apart changes nothing about who asks for the result of another instruction. -/
theorem Unrolls.sameReaders (h : Unrolls m limits id f f') (hf : f.Tidy) : f.SameReaders f' := by
  cases h with
  | tokens h =>
    subst h
    exact .withAnnotations f _
  | @chain f₀ site c join first rest hid hsite hlisted₀ hc hcall hkind hrest hheader h =>
    obtain ⟨-, target, g, args, ret, left, right, limit, hfound⟩ := Module.inspect_eq_site hsite
    have hkindSite := hkind.trans ((congrArg _ hcall).trans hfound.kind)
    have hpatched := h.patched_unrolled hc hkindSite hfound.readsAmong hf
    refine ⟨h.sizeInsts, fun i b pos hi => ⟨_, _, hpatched.listed_mono hf hc hi⟩, ?_, ?_⟩
    · intro call i hlt
      constructor
      · intro hi
        obtain ⟨-, hold⟩ | ⟨-, hnot⟩ := h.reads_cases hf hc hlt hi.toReads
        · exact hold hi
        · exact absurd hi hnot
      · intro hi
        obtain ⟨b, pos, hlisted⟩ := hi.listed
        obtain ⟨kind, hkind', hdecides⟩ := hi.decides
        obtain ⟨kind', hkind'', hreads⟩ := hi.operand
        obtain rfl := Except.ok.inj (hkind'.symm.trans hkind'')
        have hne : i ≠ c.site := by
          rintro rfl
          obtain rfl := Except.ok.inj (hkindSite.symm.trans hkind')
          cases hdecides
        have hlisted' := hpatched.listed_mono hf hc hlisted
        obtain hsame | ⟨-, hrenamed⟩ := h.kinds i kind hne hkind'
        · exact ⟨⟨⟨_, _, hlisted'⟩, kind, hsame, hreads⟩, kind, hsame, hdecides⟩
        · exact ⟨⟨⟨_, _, hlisted'⟩, _, hrenamed, by simpa using hreads⟩, _, hrenamed,
            by simpa using hdecides⟩
    · intro call i hcall hi hreads
      obtain ⟨hold, -⟩ | ⟨hle, -⟩ := h.reads_cases hf hc hcall hreads
      · exact hold
      · omega

end Function

end EdgeProbe
