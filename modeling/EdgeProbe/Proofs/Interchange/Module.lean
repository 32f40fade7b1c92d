import EdgeProbe.Interchange.Module
import EdgeProbe.Proofs.Interchange.Code

/-!
# Modules are read back

A module whose numbers fit their fields is read back from its text, if that does not nest too deep,
and a module that has been read is one. Main statement: `Module.interchange_round_trips`.
-/

namespace EdgeProbe

open Json (ofNat list? map? string? bool? nat32? nat64? Reads Record record? nat32?_ofNat nat64?_ofNat
  reads_nat32? reads_nat64? plain_ofList plain_ofOption list?_written option?_written)

theorem Origin.ofJson?_written (origin : Origin) : ofJson? origin.toJson.written = some origin := by
  cases origin <;> rfl

namespace Token

def Representable (token : Token) : Prop :=
  ∀ n ∈ token.slot, n < UInt64.size

theorem plain_toJson (token : Token) : token.toJson.Plain := by
  simp [toJson, Origin.toJson, plain_ofOption Json.plain_ofNat]

theorem ofJson?_written {token : Token} (h : token.Representable) :
    ofJson? token.toJson.written = some token := by
  have hslot : Json.option? nat64? (Json.ofOption ofNat token.slot).written = some token.slot :=
    option?_written (fun n _ => Json.written_ofNat_ne_null n)
      fun n hn => (congrArg nat64? (Json.written_ofNat n)).trans (nat64?_ofNat (h n hn))
  change (do return {
    value := ← string? (.str token.value)
    provenance := ← string? (.str token.provenance)
    origin := ← Origin.ofJson? token.origin.toJson.written
    slot := ← Json.option? nat64? (Json.ofOption ofNat token.slot).written } : Option Token) = _
  rw [Origin.ofJson?_written, hslot]
  rfl

theorem reads : Reads ofJson? Representable := by
  intro j token h
  simp only [ofJson?, Option.bind_eq_bind, Option.bind_eq_some_iff, Option.pure_def,
    Option.some.injEq] at h
  obtain ⟨r, -, value, -, provenance, -, origin, -, slot, hslot, rfl⟩ := h
  change ∀ n ∈ slot, n < UInt64.size
  exact Record.of_optional reads_nat64? hslot

end Token

namespace InstId

/-- An index is read back from where it stands as a key. -/
theorem ofKey?_ofText {id : InstId} (h : id.Representable) :
    ofKey? (.ofText (toString id.index)) = some id := by
  have hdigits : ∀ c ∈ Nat.toDigits 10 id.index, c.isDigit = true := fun c hc =>
    Nat.isDigit_of_mem_toDigits (by decide) le_rfl hc
  have hescaped : (Nat.toDigits 10 id.index).any Json.isEscaped = false := by
    rw [List.any_eq_false]
    exact fun c hc => by simp [Json.isEscaped_of_isDigit (hdigits c hc)]
  have hall : (Nat.toDigits 10 id.index).all Char.isDigit = true := List.all_eq_true.mpr hdigits
  have hzero := Json.head?_toDigits id.index
  have hvalue := Json.natOfDigits_toDigits id.index
  have hne : Nat.toDigits 10 id.index ≠ [] := Nat.toDigits_ne_nil
  have hlt : id.index < UInt32.size := h
  simp [ofKey?, Json.Name.ofText, hescaped, hall, hvalue, hzero, hlt, hne]

theorem representable_of_ofKey? {key : Json.Name} {id : InstId} (h : ofKey? key = some id) :
    id.Representable := by
  unfold ofKey? at h
  dsimp only at h
  split at h
  · cases h
  · split at h
    · next hlt => exact Option.some.inj h ▸ hlt
    · cases h

end InstId

namespace Annotations

def Representable (a : Annotations) : Prop :=
  ∀ e ∈ a.lists.entries, e.1.Representable ∧ ∀ token ∈ e.2, token.Representable

theorem plain_toJson (a : Annotations) : a.toJson.Plain := by
  simpa [toJson] using
    Json.plain_members (fun e : InstId × List Token => plain_ofList Token.plain_toJson e.2) _

theorem ofJson?_written {a : Annotations} (h : a.Representable) :
    ofJson? a.toJson.written = some a := by
  have hentries : map? InstId.ofKey? (list? Token.ofJson?)
      (Json.obj (a.lists.entries.map entryToJson)).written = some a.lists.entries :=
    Json.map?_written (fun e he => InstId.ofKey?_ofText (h e he).1) fun e he =>
      list?_written fun token htoken => Token.ofJson?_written ((h e he).2 token htoken)
  change (do return ⟨.ofList (← map? InstId.ofKey? (list? Token.ofJson?)
    (Json.obj (a.lists.entries.map entryToJson)).written)⟩ : Option Annotations) = _
  rw [hentries]
  exact congrArg (fun lists => some (mk lists)) (SortedMap.ofList_entries a.lists)

theorem reads : Reads ofJson? Representable := by
  intro j a h
  simp only [ofJson?, Option.bind_eq_bind, Option.bind_eq_some_iff, Option.pure_def,
    Option.some.injEq] at h
  obtain ⟨r, -, entries, hentries, rfl⟩ := h
  have hall := Record.of_required
    (Reads.map (fun _ _ => InstId.representable_of_ofKey?) (Reads.list Token.reads)) hentries
  exact fun e he => hall e (SortedMap.mem_ofList he)

end Annotations

namespace DebugLoc

def Representable (loc : DebugLoc) : Prop := loc.line < UInt32.size

theorem plain_toJson (loc : DebugLoc) : loc.toJson.Plain := by
  simp [toJson]

theorem ofJson?_written {loc : DebugLoc} (h : loc.Representable) :
    ofJson? loc.toJson.written = some loc := by
  change (do return ⟨← string? (.str loc.file), ← nat32? (ofNat loc.line)⟩ : Option DebugLoc) = _
  rw [nat32?_ofNat h]
  rfl

theorem reads : Reads ofJson? Representable := by
  intro j loc h
  simp only [ofJson?, Option.bind_eq_bind, Option.bind_eq_some_iff, Option.pure_def,
    Option.some.injEq] at h
  obtain ⟨r, -, file, -, line, hline, rfl⟩ := h
  exact Record.lt_of_required hline

theorem written_toJson_ne_null (loc : DebugLoc) : loc.toJson.written ≠ .null := by
  simp [toJson]

end DebugLoc

namespace Inst

structure Representable (inst : Inst) : Prop where
  kind : inst.kind.Representable
  loc : ∀ loc ∈ inst.loc, loc.Representable
  block : ∀ b ∈ inst.block, b.Representable

theorem plain_toJson (inst : Inst) : inst.toJson.Plain := by
  simp [toJson, InstKind.plain_toJson, plain_ofOption DebugLoc.plain_toJson,
    plain_ofOption BlockId.plain_toJson]

theorem ofJson?_written {inst : Inst} (h : inst.Representable) :
    ofJson? inst.toJson.written = some inst := by
  have hloc := option?_written (fun loc _ => DebugLoc.written_toJson_ne_null loc)
    fun loc hloc => DebugLoc.ofJson?_written (h.loc loc hloc)
  have hblock := option?_written (fun b _ => Json.written_ofNat_ne_null b.index)
    fun b hb => BlockId.ofJson?_written (h.block b hb)
  change (do return {
    kind := ← InstKind.ofJson? inst.kind.toJson.written
    name := ← string? (.str inst.name)
    loc := ← Json.option? DebugLoc.ofJson? (Json.ofOption DebugLoc.toJson inst.loc).written
    block := ← Json.option? BlockId.ofJson? (Json.ofOption BlockId.toJson inst.block).written
    split := ← bool? (.bool inst.split) } : Option Inst) = _
  rw [InstKind.ofJson?_written h.kind, hloc, hblock]
  rfl

theorem reads : Reads ofJson? Representable := by
  intro j inst h
  simp only [ofJson?, Option.bind_eq_bind, Option.bind_eq_some_iff, Option.pure_def,
    Option.some.injEq] at h
  obtain ⟨r, -, kind, hkind, name, -, loc, hloc, block, hblock, split, -, rfl⟩ := h
  exact ⟨Record.of_required InstKind.reads hkind, Record.of_optional DebugLoc.reads hloc,
    Record.of_nullable BlockId.reads hblock⟩

end Inst

namespace Block

structure Representable (b : Block) : Prop where
  insts : ∀ id ∈ b.insts, id.Representable
  term : b.term.Representable

theorem plain_toJson (b : Block) : b.toJson.Plain := by
  simp [toJson, plain_ofList InstId.plain_toJson, Terminator.plain_toJson]

theorem ofJson?_written {b : Block} (h : b.Representable) : ofJson? b.toJson.written = some b := by
  have hinsts := list?_written fun id hid => InstId.ofJson?_written (h.insts id hid)
  change (do return {
    name := ← string? (.str b.name)
    insts := ← list? InstId.ofJson? (Json.ofList InstId.toJson b.insts).written
    term := ← Terminator.ofJson? b.term.toJson.written } : Option Block) = _
  rw [hinsts, Terminator.ofJson?_written h.term]
  rfl

theorem reads : Reads ofJson? Representable := by
  intro j b h
  simp only [ofJson?, Option.bind_eq_bind, Option.bind_eq_some_iff, Option.pure_def,
    Option.some.injEq] at h
  obtain ⟨r, -, name, -, insts, hinsts, term, hterm, rfl⟩ := h
  exact ⟨Record.of_required (Reads.list InstId.reads) hinsts,
    Record.of_required Terminator.reads hterm⟩

end Block

namespace Function

structure Representable (f : Function) : Prop where
  params : ∀ ty ∈ f.params, ty.Representable
  ret : f.ret.Representable
  blocks : ∀ b ∈ f.blocks.toList, b.Representable
  layout : ∀ id ∈ f.layout, id.Representable
  insts : ∀ inst ∈ f.insts.toList, inst.Representable
  annotations : f.annotations.Representable

theorem plain_metadataToJson (metadata : SortedMap String String) :
    (metadataToJson metadata).Plain :=
  Json.plain_members (fun e => .str e.2) _

theorem plain_toJson (f : Function) : f.toJson.Plain := by
  simp [toJson, plain_ofList Ty.plain_toJson, Ty.plain_toJson, CallConv.toJson,
    plain_ofList Block.plain_toJson, plain_ofList BlockId.plain_toJson,
    plain_ofList Inst.plain_toJson, Annotations.plain_toJson, plain_metadataToJson]

theorem metadataOfJson?_written (metadata : SortedMap String String) :
    metadataOfJson? (metadataToJson metadata).written = some metadata := by
  have hentries : map? (some ·.text) string? (metadataToJson metadata).written =
      some metadata.entries :=
    Json.map?_written (fun _ _ => rfl) fun _ _ => rfl
  rw [metadataOfJson?, hentries]
  exact congrArg some (SortedMap.ofList_entries metadata)

theorem ofJson?_written {f : Function} (h : f.Representable) :
    ofJson? f.toJson.written = some f := by
  have hparams := list?_written fun ty hty => Ty.ofJson?_written (h.params ty hty)
  have hblocks := list?_written fun b hb => Block.ofJson?_written (h.blocks b hb)
  have hlayout := list?_written fun id hid => BlockId.ofJson?_written (h.layout id hid)
  have hinsts := list?_written fun inst hinst => Inst.ofJson?_written (h.insts inst hinst)
  change (do return {
    name := ← string? (.str f.name)
    params := ← list? Ty.ofJson? (Json.ofList Ty.toJson f.params).written
    ret := ← Ty.ofJson? f.ret.toJson.written
    conv := ← CallConv.ofJson? f.conv.toJson.written
    blocks := (← list? Block.ofJson? (Json.ofList Block.toJson f.blocks.toList).written).toArray
    layout := ← list? BlockId.ofJson? (Json.ofList BlockId.toJson f.layout).written
    insts := (← list? Inst.ofJson? (Json.ofList Inst.toJson f.insts.toList).written).toArray
    annotations := ← Annotations.ofJson? f.annotations.toJson.written
    metadata := ← metadataOfJson? (metadataToJson f.metadata).written } : Option Function) = _
  rw [hparams, Ty.ofJson?_written h.ret, CallConv.ofJson?_written, hblocks, hlayout, hinsts,
    Annotations.ofJson?_written h.annotations, metadataOfJson?_written]
  rfl

theorem reads : Reads ofJson? Representable := by
  intro j f h
  simp only [ofJson?, Option.bind_eq_bind, Option.bind_eq_some_iff, Option.pure_def,
    Option.some.injEq] at h
  obtain ⟨r, -, name, -, params, hparams, ret, hret, conv, -, blocks, hblocks, layout, hlayout,
    insts, hinsts, annotations, hannotations, metadata, -, rfl⟩ := h
  exact {
    params := Record.of_required (Reads.list Ty.reads) hparams
    ret := Record.of_required Ty.reads hret
    blocks := Record.of_optionalList Block.reads hblocks
    layout := Record.of_optionalList BlockId.reads hlayout
    insts := Record.of_optionalList Inst.reads hinsts
    annotations := Record.of_withDefault Annotations.reads
      (fun _ he => absurd he List.not_mem_nil) hannotations }

end Function

namespace Global

def Representable (g : Global) : Prop :=
  ∀ i ∈ g.contents, i.Representable

theorem plain_toJson (g : Global) : g.toJson.Plain := by
  simp [toJson, plain_ofOption Initializer.plain_toJson]

theorem ofJson?_written {g : Global} (h : g.Representable) :
    ofJson? g.toJson.written = some g := by
  have hcontents := option?_written (fun i _ => Initializer.written_toJson_ne_null i)
    fun i hi => Initializer.ofJson?_written (h i hi)
  change (do return {
    name := ← string? (.str g.name)
    constant := ← bool? (.bool g.constant)
    threadLocal := ← bool? (.bool g.threadLocal)
    contents := ← Json.option? Initializer.ofJson?
      (Json.ofOption Initializer.toJson g.contents).written } : Option Global) = _
  rw [hcontents]
  rfl

theorem reads : Reads ofJson? Representable := by
  intro j g h
  simp only [ofJson?, Option.bind_eq_bind, Option.bind_eq_some_iff, Option.pure_def,
    Option.some.injEq] at h
  obtain ⟨r, -, name, -, constant, -, threadLocal, -, contents, hcontents, rfl⟩ := h
  exact Record.of_optional Initializer.reads hcontents

end Global

namespace Module

/-- Every number in the module fits its field. -/
structure Representable (m : Module) : Prop where
  globals : ∀ g ∈ m.globals.toList, g.Representable
  functions : ∀ f ∈ m.functions.toList, f.Representable

theorem plain_toJson (m : Module) : m.toJson.Plain := by
  simp [toJson, plain_ofList Global.plain_toJson, plain_ofList Function.plain_toJson]

theorem ofJson?_written {m : Module} (h : m.Representable) :
    ofJson? m.toJson.written = some m := by
  have hglobals := list?_written fun g hg => Global.ofJson?_written (h.globals g hg)
  have hfunctions := list?_written fun f hf => Function.ofJson?_written (h.functions f hf)
  change (do return {
    name := ← string? (.str m.name)
    globals := (← list? Global.ofJson? (Json.ofList Global.toJson m.globals.toList).written).toArray
    functions :=
      (← list? Function.ofJson? (Json.ofList Function.toJson m.functions.toList).written).toArray }
        : Option Module) = _
  rw [hglobals, hfunctions]
  rfl

theorem reads : Reads ofJson? Representable := by
  intro j m h
  simp only [ofJson?, Option.bind_eq_bind, Option.bind_eq_some_iff, Option.pure_def,
    Option.some.injEq] at h
  obtain ⟨r, -, name, -, globals, hglobals, functions, hfunctions, rfl⟩ := h
  exact ⟨Record.of_optionalList Global.reads hglobals,
    Record.of_optionalList Function.reads hfunctions⟩

/-- What is read from a text fits, and nests no deeper than it may. -/
theorem of_parse? {text : String} {m : Module} (h : parse? text = some m) :
    m.Representable ∧ m.toJson.nesting ≤ nestingLimit := by
  obtain ⟨j, -, h⟩ := Option.bind_eq_some_iff.mp h
  obtain ⟨m', hm', h⟩ := Option.bind_eq_some_iff.mp h
  obtain ⟨hnesting, h⟩ := Option.ite_none_right_eq_some.mp h
  obtain rfl := Option.some.inj h
  exact ⟨reads j m' hm', hnesting⟩

theorem parse?_render {m : Module} (h : m.Representable) (hnesting : m.toJson.nesting ≤ nestingLimit) :
    parse? m.render = some m := by
  unfold parse? render
  rw [m.plain_toJson.read?_pretty]
  change (do
    let m ← ofJson? m.toJson.written
    if m.toJson.nesting ≤ nestingLimit then some m else none) = some m
  rw [ofJson?_written h]
  exact if_pos hnesting

/-- A module is read back from its text, and reading, writing and reading again is reading. -/
theorem interchange_round_trips :
    (∀ m : Module, m.Representable → m.toJson.nesting ≤ nestingLimit → parse? m.render = some m) ∧
      ∀ text m, parse? text = some m → parse? m.render = some m :=
  ⟨fun _ => parse?_render, fun _ _ h => parse?_render (of_parse? h).1 (of_parse? h).2⟩

/-- A module with a nested initializer, a key that has to be escaped, the largest numbers and an
instruction whose tokens have been taken. -/
def exchanged : Module where
  name := "ex\"changed"
  globals := #[{
    name := "table"
    constant := true
    contents := some (.struct [.int 64 18446744073709551615, .struct [.bytes [0, 255], .zero 3]]) }]
  functions := #[{
    name := "f"
    params := [.ptr, .int 4294967295]
    ret := .void
    blocks := #[⟨"entry\n", [⟨0⟩], .switch (.arg 1) ⟨0⟩ [(7, ⟨0⟩)]⟩]
    layout := [⟨0⟩]
    insts := #[{ kind := .phi .ptr [(.const .null, ⟨0⟩)], block := some ⟨0⟩, loc := some ⟨"a.c", 12⟩ }]
    annotations := Annotations.touch {} ⟨0⟩
    metadata := SortedMap.put .empty "k\\" "v" }]

theorem exchanged_round_trips : parse? exchanged.render = some exchanged ∧
    ∃ m, parse? "\x7b\"functions\":[], \"name\":\"m\"\x7d" = some m ∧
      parse? m.render = some m := by
  have hfits : exchanged.Representable := reads exchanged.toJson exchanged rfl
  have hread : (parse? "\x7b\"functions\":[], \"name\":\"m\"\x7d").isSome = true := by
    decide +kernel
  obtain ⟨m, hm⟩ := Option.isSome_iff_exists.mp hread
  exact ⟨interchange_round_trips.1 exchanged hfits (by decide +kernel), m, hm,
    interchange_round_trips.2 _ m hm⟩

end Module

end EdgeProbe
