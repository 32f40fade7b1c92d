import EdgeProbe.Code.Module
import EdgeProbe.Interchange.Code
import EdgeProbe.Json.Reader
import EdgeProbe.Json.Writer

/-!
# Modules as JSON

Records are objects whose fields come in a fixed order, and all of them are written. On reading,
those with a natural empty value may be left out.
-/

namespace EdgeProbe

open Json (ofNat nat32? nat64? bool? string? list? map? record? choice?)

namespace Origin

def typeName : Origin → String
  | .comparedInteger => "ComparedInteger"
  | .comparedString => "ComparedString"
  | .arrayLiteral => "ArrayLiteral"
  | .storedConstant => "StoredConstant"
  | .structField => "StructField"
  | .callArgument => "CallArgument"

def all : List Origin :=
  [.comparedInteger, .comparedString, .arrayLiteral, .storedConstant, .structField, .callArgument]

def toJson (origin : Origin) : Json := .str origin.typeName

def ofJson? : Json → Option Origin := choice? (unitTable typeName all)

end Origin

namespace Token

def toJson (token : Token) : Json :=
  .obj [("value", .str token.value), ("provenance", .str token.provenance),
    ("origin", token.origin.toJson), ("slot", .ofOption ofNat token.slot)]

def ofJson? (j : Json) : Option Token := do
  let r ← record? ["value", "provenance", "origin", "slot"] j
  return {
    value := ← r.required "value" string?
    provenance := ← r.required "provenance" string?
    origin := ← r.required "origin" Origin.ofJson?
    slot := ← r.withDefault "slot" none (Json.option? nat64?) }

end Token

namespace InstId

/-- The name of an instruction as a key: its index in decimal, without escapes and superfluous
zeros. -/
def ofKey? (key : Json.Name) : Option InstId :=
  let cs := key.text.toList
  if key.escaped || cs.isEmpty || !cs.all Char.isDigit || (cs.head? == some '0' && cs.length > 1)
  then none
  else
    let index := Json.natOfDigits cs
    if index < UInt32.size then some ⟨index⟩ else none

end InstId

namespace Annotations

def entryToJson (entry : InstId × List Token) : Json.Name × Json :=
  (toString entry.1.index, .ofList Token.toJson entry.2)

def toJson (a : Annotations) : Json :=
  .obj [("entries", .obj (a.lists.entries.map entryToJson))]

def ofJson? (j : Json) : Option Annotations := do
  let r ← record? ["entries"] j
  let entries ← r.required "entries" (map? InstId.ofKey? (list? Token.ofJson?))
  return ⟨.ofList entries⟩

end Annotations

namespace DebugLoc

def toJson (loc : DebugLoc) : Json :=
  .obj [("file", .str loc.file), ("line", ofNat loc.line)]

def ofJson? (j : Json) : Option DebugLoc := do
  let r ← record? ["file", "line"] j
  return ⟨← r.required "file" string?, ← r.required "line" nat32?⟩

end DebugLoc

namespace Inst

def toJson (inst : Inst) : Json :=
  .obj [("kind", inst.kind.toJson), ("name", .str inst.name),
    ("loc", .ofOption DebugLoc.toJson inst.loc), ("block", .ofOption BlockId.toJson inst.block),
    ("split", .bool inst.split)]

def ofJson? (j : Json) : Option Inst := do
  let r ← record? ["kind", "name", "loc", "block", "split"] j
  return {
    kind := ← r.required "kind" InstKind.ofJson?
    name := ← r.withDefault "name" "" string?
    loc := ← r.withDefault "loc" none (Json.option? DebugLoc.ofJson?)
    block := ← r.nullable "block" BlockId.ofJson?
    split := ← r.withDefault "split" false bool? }

end Inst

namespace Block

def toJson (b : Block) : Json :=
  .obj [("name", .str b.name), ("insts", .ofList InstId.toJson b.insts), ("term", b.term.toJson)]

def ofJson? (j : Json) : Option Block := do
  let r ← record? ["name", "insts", "term"] j
  return {
    name := ← r.required "name" string?
    insts := ← r.required "insts" (list? InstId.ofJson?)
    term := ← r.required "term" Terminator.ofJson? }

end Block

namespace Function

def metadataToJson (metadata : SortedMap String String) : Json :=
  .obj (metadata.entries.map fun entry => (entry.1, .str entry.2))

def metadataOfJson? (j : Json) : Option (SortedMap String String) :=
  (map? (some ·.text) string? j).map .ofList

def toJson (f : Function) : Json :=
  .obj [("name", .str f.name), ("params", .ofList Ty.toJson f.params), ("ret", f.ret.toJson),
    ("conv", f.conv.toJson), ("blocks", .ofList Block.toJson f.blocks.toList),
    ("layout", .ofList BlockId.toJson f.layout), ("insts", .ofList Inst.toJson f.insts.toList),
    ("annotations", f.annotations.toJson), ("metadata", metadataToJson f.metadata)]

def ofJson? (j : Json) : Option Function := do
  let r ← record? ["name", "params", "ret", "conv", "blocks", "layout", "insts", "annotations",
    "metadata"] j
  return {
    name := ← r.required "name" string?
    params := ← r.required "params" (list? Ty.ofJson?)
    ret := ← r.required "ret" Ty.ofJson?
    conv := ← r.withDefault "conv" .c CallConv.ofJson?
    blocks := (← r.withDefault "blocks" [] (list? Block.ofJson?)).toArray
    layout := ← r.withDefault "layout" [] (list? BlockId.ofJson?)
    insts := (← r.withDefault "insts" [] (list? Inst.ofJson?)).toArray
    annotations := ← r.withDefault "annotations" {} Annotations.ofJson?
    metadata := ← r.withDefault "metadata" .empty metadataOfJson? }

end Function

namespace Global

def toJson (g : Global) : Json :=
  .obj [("name", .str g.name), ("constant", .bool g.constant),
    ("thread_local", .bool g.threadLocal), ("init", .ofOption Initializer.toJson g.contents)]

def ofJson? (j : Json) : Option Global := do
  let r ← record? ["name", "constant", "thread_local", "init"] j
  return {
    name := ← r.required "name" string?
    constant := ← r.withDefault "constant" false bool?
    threadLocal := ← r.withDefault "thread_local" false bool?
    contents := ← r.withDefault "init" none (Json.option? Initializer.ofJson?) }

end Global

namespace Module

def toJson (m : Module) : Json :=
  .obj [("name", .str m.name), ("globals", .ofList Global.toJson m.globals.toList),
    ("functions", .ofList Function.toJson m.functions.toList)]

def ofJson? (j : Json) : Option Module := do
  let r ← record? ["name", "globals", "functions"] j
  return {
    name := ← r.required "name" string?
    globals := (← r.withDefault "globals" [] (list? Global.ofJson?)).toArray
    functions := (← r.withDefault "functions" [] (list? Function.ofJson?)).toArray }

/-- How many containers may be open at once in the text of a module, apart from what it has to
skip. -/
def nestingLimit : Nat := 127

/-- Reads the text of a module. -/
def parse? (text : String) : Option Module := do
  let m ← ofJson? (← Json.read? text)
  if m.toJson.nesting ≤ nestingLimit then some m else none

/-- The text of a module, a field or item a line. -/
def render (m : Module) : String :=
  m.toJson.pretty

end Module

end EdgeProbe
