import EdgeProbe.Code.Edit
import EdgeProbe.Code.Module
import EdgeProbe.Log

/-!
# Steps that change code

`Edit` changes one function and `Pass` a module, which it may also say something about. A step that
is refused keeps what it has done so far: whoever goes on after a refusal goes on from there. After
a fault there is nothing to go on with.
-/

namespace EdgeProbe

abbrev Edit := ExceptT Fatal (StateT Function Checked)

structure PassState where
  module : Module
  /-- What was reported, the last record first. -/
  log : List Log.Record := []

abbrev Pass := ExceptT Fatal (StateT PassState Checked)

namespace Edit

/-- Asks the function something. -/
def query {α : Type} (question : Function → Checked α) : Edit α := do
  question (← get)

/-- Makes a change that yields something. -/
def apply {α : Type} (change : Function → Checked (Function × α)) : Edit α := fun f => do
  let (f, a) ← change f
  return (.ok a, f)

/-- Makes a change. -/
def update (change : Function → Checked Function) : Edit Unit := fun f => do
  return (.ok (), ← change f)

def kind (id : InstId) : Edit InstKind := query (·.kind id)

def addBlockBefore (name : String) (before : BlockId) : Edit BlockId :=
  apply fun f => .ok (f.addBlockBefore name before)

def insertInst (block : BlockId) (pos : Nat) (kind : InstKind) (name : String)
    (loc : Option DebugLoc) : Edit InstId :=
  apply fun f => f.insertInst block pos kind name loc

def pushInst (block : BlockId) (kind : InstKind) (name : String) (loc : Option DebugLoc) :
    Edit InstId :=
  apply fun f => f.pushInst block kind name loc

def setTerminator (block : BlockId) (term : Terminator) : Edit Unit :=
  update fun f => f.setTerminator block term

def replaceKind (id : InstId) (kind : InstKind) : Edit Unit :=
  update fun f => f.replaceKind id kind

/-- Marks an instruction as made by halving a wider comparison. -/
def markSplit (id : InstId) : Edit Unit :=
  update fun f => f.modifyInst id fun i => { i with split := true }

def setAnnotations (change : Annotations → Annotations) : Edit Unit :=
  modify fun f => { f with annotations := change f.annotations }

/-- Puts a token on an instruction. If there is no slot left for it, the instruction has a list of
tokens all the same. -/
def attach (id : InstId) (token : Token) (limits : Limits) : Edit Unit := fun f => do
  match f.annotations.attach? id token limits with
  | some annotations => return (.ok (), { f with annotations })
  | none =>
    return (.error (.fanOutExceeded f.name limits.maxFanOut),
      { f with annotations := f.annotations.touch id })

end Edit

namespace Pass

/-- Reports something. -/
def report (record : Log.Record) : Pass Unit :=
  modify fun s => { s with log := record :: s.log }

def warn (message : String) (pairs : List (String × String) := []) : Pass Unit :=
  report ⟨.warning, message, pairs⟩

def info (message : String) (pairs : List (String × String) := []) : Pass Unit :=
  report ⟨.info, message, pairs⟩

def debug (message : String) (pairs : List (String × String) := []) : Pass Unit :=
  report ⟨.debug, message, pairs⟩

def reportAll (records : List Log.Record) : Pass Unit :=
  modify fun s => { s with log := records.reverse ++ s.log }

/-- Asks the module something. -/
def query {α : Type} (question : Module → Checked α) : Pass α := do
  question (← get).module

def update {α : Type} (change : Module → Module × α) : Pass α := fun s =>
  let (module, a) := change s.module
  return (.ok a, { s with module })

def functionIds : Pass (List FuncId) := do
  return (← get).module.functionIds

/-- Edits one function of the module, as far as the edit gets. -/
def inFunction {α : Type} (id : FuncId) (edit : Edit α) : Pass α := fun s => do
  let (result, f) ← edit (← s.module.function id)
  return (result, { s with module := s.module.setFunction id f })

/-- Does something for each in turn and adds up what it counts. -/
def sumOver {α : Type} (items : List α) (count : α → Pass Nat) : Pass Nat :=
  items.foldlM (fun sum item => return sum + (← count item)) 0

/-- Runs a pass on a module. -/
def runOn {α : Type} (pass : Pass α) (m : Module) : Checked (Except Fatal α × PassState) :=
  pass { module := m }

end Pass

/-- The name of a block, with a stand-in for one that has none. -/
def Block.givenName (b : Block) : String :=
  if b.name.isEmpty then "NoName" else b.name

end EdgeProbe
