import EdgeProbe.Lowering.StringSite
import EdgeProbe.Proofs.Code.Body

/-!
# Calls that can be taken apart

What a call is like that an inspection has singled out, and what the outcome of an inspection
depends on. Main statements: `Module.inspect_eq_site` and `Module.SameHeaders.inspect`.
-/

namespace EdgeProbe

/-- What decides about the sides of a comparison and its length: which of its operands is known, and
the bound. -/
inductive StringSite.Decided (m : Module) (f : Function) (first second : Value)
    (limit : Option Nat) (site : StringSite) : Prop
  | neither (hfirst : m.constantBytes? f first = .ok none)
    (hsecond : m.constantBytes? f second = .ok none) (hlimit : limit = some site.len)
    (hleft : site.lhs = .pointer first) (hright : site.rhs = .pointer second)
    (hkeyword : site.keyword = none)
  | left {data : List UInt8} (hfirst : m.constantBytes? f first = .ok (some data))
    (hsecond : m.constantBytes? f second = .ok none) (hleft : site.lhs = .bytes data)
    (hright : site.rhs = .pointer second) (hkeyword : site.keyword = some (data.take site.len))
    (hstring : site.family.isString = true → site.len = stringLength data limit)
    (hregion : site.family.isString = false → site.len = limit.getD 0 ∧ site.len ≤ data.length)
  | right {data : List UInt8} (hfirst : m.constantBytes? f first = .ok none)
    (hsecond : m.constantBytes? f second = .ok (some data)) (hleft : site.lhs = .pointer first)
    (hright : site.rhs = .bytes data) (hkeyword : site.keyword = some (data.take site.len))
    (hstring : site.family.isString = true → site.len = stringLength data limit)
    (hregion : site.family.isString = false → site.len = limit.getD 0 ∧ site.len ≤ data.length)

/-- The operands of a comparison of some family, and its bound. -/
inductive CompareFamily.Operands (family : CompareFamily) (first second : Value) :
    List Value → Option Nat → Prop
  | unbounded (hfamily : family = .strcmp) : Operands family first second [first, second] none
  | bounded {width : Nat} {bits : UInt64} (hfamily : family ≠ .strcmp) :
    Operands family first second [first, second, .const (.int width bits)] (some bits.toNat)

/-- The call of a site: to whom it is, with what, and what is known of it. -/
structure StringSite.Found (m : Module) (f : Function) (limits : Limits) (site : StringSite)
    (target : FuncId) (g : Function) (args : List Value) (ret : Ty) (first second : Value)
    (limit : Option Nat) : Prop where
  kind : f.kind site.call = .ok (.call (.direct target) args ret)
  target : m.function target = .ok g
  conv : g.conv = .c
  family : CompareFamily.ofName? g.name = some (site.family, site.foldCase)
  prototype : g.hasPrototype site.family args = true
  operands : site.family.Operands first second args limit
  positive : 0 < site.len
  bounded : site.len ≤ limits.maxUnrollLen
  decided : site.Decided m f first second limit

namespace Module

variable {m m' : Module} {f : Function} {limits : Limits} {call : InstId} {name : String}
  {family : CompareFamily} {foldCase : Bool} {lhs rhs : Side} {first second : Value} {len : Nat}
  {keyword : Option (List UInt8)} {data : List UInt8} {limit : Option Nat} {site : StringSite}

theorem inspectLength_eq_site
    (h : inspectLength f limits call name family foldCase lhs rhs len keyword = .ok (.site site)) :
    site = { call, family, foldCase, len, lhs, rhs, keyword } ∧ 0 < len ∧
      len ≤ limits.maxUnrollLen := by
  unfold inspectLength at h
  split at h
  · cases h
  next hpositive =>
  split at h
  · obtain ⟨provenance, -, h⟩ := Checked.bind_eq_ok.mp h
    cases h
  next hbounded =>
  refine ⟨(Inspection.site.inj (Except.ok.inj h)).symm, by omega, by omega⟩

theorem inspectConstant_eq_site (h : inspectConstant f limits call name family foldCase lhs rhs data
      limit = .ok (.site site)) :
    ∃ len, site = { call, family, foldCase, len, lhs, rhs, keyword := some (data.take len) } ∧
      0 < len ∧ len ≤ limits.maxUnrollLen ∧
      (family.isString = true → len = stringLength data limit) ∧
      (family.isString = false → len = limit.getD 0 ∧ len ≤ data.length) := by
  unfold inspectConstant at h
  split at h
  · next hstring =>
    obtain ⟨rfl, hpositive, hbounded⟩ := inspectLength_eq_site h
    exact ⟨_, rfl, hpositive, hbounded, fun _ => rfl, fun hregion => by simp [hstring] at hregion⟩
  next hregion =>
  dsimp only at h
  split at h
  · obtain ⟨provenance, -, h⟩ := Checked.bind_eq_ok.mp h
    cases h
  next hshort =>
  obtain ⟨rfl, hpositive, hbounded⟩ := inspectLength_eq_site h
  exact ⟨_, rfl, hpositive, hbounded, fun hstring => absurd hstring hregion,
    fun _ => ⟨rfl, by omega⟩⟩

theorem inspectCall_eq_site (h : m.inspectCall f limits call name family foldCase first second limit =
      .ok (.site site)) :
    site.call = call ∧ site.family = family ∧ site.foldCase = foldCase ∧ 0 < site.len ∧
      site.len ≤ limits.maxUnrollLen ∧ site.Decided m f first second limit := by
  unfold inspectCall at h
  obtain ⟨left?, hleft, h⟩ := Checked.bind_eq_ok.mp h
  obtain ⟨right?, hright, h⟩ := Checked.bind_eq_ok.mp h
  cases left? with
  | none =>
    cases right? with
    | none =>
      cases limit with
      | none => cases h
      | some len =>
        obtain ⟨rfl, hpositive, hbounded⟩ := inspectLength_eq_site h
        exact ⟨rfl, rfl, rfl, hpositive, hbounded, .neither hleft hright rfl rfl rfl rfl⟩
    | some data =>
      obtain ⟨len, rfl, hpositive, hbounded, hstring, hregion⟩ := inspectConstant_eq_site h
      exact ⟨rfl, rfl, rfl, hpositive, hbounded, .right hleft hright rfl rfl rfl hstring hregion⟩
  | some data =>
    cases right? with
    | none =>
      obtain ⟨len, rfl, hpositive, hbounded, hstring, hregion⟩ := inspectConstant_eq_site h
      exact ⟨rfl, rfl, rfl, hpositive, hbounded, .left hleft hright rfl rfl rfl hstring hregion⟩
    | some _ =>
      obtain ⟨provenance, -, h⟩ := Checked.bind_eq_ok.mp h
      cases h

/-- An instruction that is singled out is a call of a comparison by its prototype. -/
theorem inspect_eq_site (h : m.inspect f limits call = .ok (.site site)) :
    site.call = call ∧ ∃ target g args ret first second limit,
      site.Found m f limits target g args ret first second limit := by
  unfold inspect at h
  obtain ⟨kind, hkind, h⟩ := Checked.bind_eq_ok.mp h
  split at h
  case h_2 => cases h
  next target args ret =>
  obtain ⟨g, hg, h⟩ := Checked.bind_eq_ok.mp h
  split at h
  · cases h
  next hconv =>
  split at h
  · cases h
  next family foldCase hfamily =>
  split at h
  · cases h
  next hprototype =>
  have hfound : ∀ {first second limit}, family.Operands first second args limit →
      m.inspectCall f limits call g.name family foldCase first second limit = .ok (.site site) →
      site.call = call ∧ ∃ target g args ret first second limit,
        site.Found m f limits target g args ret first second limit := by
    intro first second limit hoperands h
    obtain ⟨rfl, rfl, rfl, hpositive, hbounded, hdecided⟩ := inspectCall_eq_site h
    exact ⟨rfl, target, g, args, ret, first, second, limit, hkind, hg, by simpa using hconv, hfamily,
      by simpa using hprototype, hoperands, hpositive, hbounded, hdecided⟩
  have hnothing : ∀ {first second : Value}, (do
      let _ ← m.constantBytes? f first
      let _ ← m.constantBytes? f second
      return Inspection.nothing : Checked Inspection) ≠ .ok (.site site) := by
    intro first second h
    obtain ⟨_, -, h⟩ := Checked.bind_eq_ok.mp h
    obtain ⟨_, -, h⟩ := Checked.bind_eq_ok.mp h
    cases h
  split at h
  · exact hfound (.unbounded rfl) h
  · split at h
    · exact hfound (.bounded (by decide)) h
    · exact absurd h hnothing
  · split at h
    · exact hfound (.bounded (by decide)) h
    · exact absurd h hnothing
  · cases h

/-! ## What an inspection depends on -/

section

variable (h : m.SameHeaders m')
include h

theorem SameHeaders.constantBytes? (f : Function) (value : Value) :
    m'.constantBytes? f value = m.constantBytes? f value := by
  have hglobal : ∀ id, m'.global id = m.global id := by
    intro id
    rw [global, global, h.globals]
  have hwithin : ∀ depth value, m'.constantBytesWithin f depth value =
      m.constantBytesWithin f depth value := by
    intro depth
    induction depth with
    | zero =>
      intro value
      cases value <;> simp only [constantBytesWithin, hglobal]
    | succ depth ih =>
      intro value
      cases value <;> simp only [constantBytesWithin, hglobal, ih]
  exact hwithin _ _

theorem SameHeaders.inspectCall (f : Function) (limits : Limits) (call : InstId) (name : String)
    (family : CompareFamily) (foldCase : Bool) (first second : Value) (limit : Option Nat) :
    m'.inspectCall f limits call name family foldCase first second limit =
      m.inspectCall f limits call name family foldCase first second limit := by
  unfold Module.inspectCall
  rw [h.constantBytes?, h.constantBytes?]

/-- An inspection looks at nothing of the module but the globals and what the functions say about
themselves. -/
theorem SameHeaders.inspect (f : Function) (limits : Limits) (call : InstId) :
    m'.inspect f limits call = m.inspect f limits call := by
  unfold Module.inspect
  cases hkind : f.kind call with
  | error fault => rfl
  | ok kind =>
    cases kind with
    | call callee args ret =>
      cases callee with
      | direct target =>
        obtain ⟨hg, hg'⟩ | ⟨g, g', hg, hg', hsame⟩ := h.function_cases target
        · simp only [hg, hg', bind, Except.bind]
        · simp only [hg, hg', bind, Except.bind, hsame.conv, hsame.name, Function.hasPrototype,
            hsame.ret, hsame.params, h.inspectCall, h.constantBytes?]
          rfl
      | indirect _ => rfl
    | _ => rfl

end

end Module

end EdgeProbe
