import EdgeProbe.Artifact.Files
import EdgeProbe.Sorted.Map
import EdgeProbe.Text.Scan
import EdgeProbe.Text.Utf8

/-!
# A file system in memory

Files and directories by their path from a root directory, which always exists and above which
there is nothing. Paths are followed component by component: what is passed through has to be a
directory, a dot stays and two dots go up. Absolute paths start at a directory with nothing in it.
-/

namespace EdgeProbe

inductive FileNode where
  | file (content : List UInt8)
  | directory
  deriving DecidableEq, Inhabited

/-- Nodes by path, in ascending order of the components. -/
structure FileTree where
  nodes : SortedMap (List String) FileNode := .empty
  deriving DecidableEq, Inhabited

namespace FileTree

def node? (t : FileTree) (place : List String) : Option FileNode :=
  if place.isEmpty then some .directory else t.nodes.get? place

def put (t : FileTree) (place : List String) (node : FileNode) : FileTree :=
  ⟨t.nodes.put place node⟩

def erase (t : FileTree) (place : List String) : FileTree :=
  ⟨t.nodes.erase place⟩

/-- The components of a path, dots included. -/
def componentsOf (path : String) : List String :=
  ((Text.splitAt (· == '/') path.toList).filter (!·.isEmpty)).map String.ofList

/-- How many bytes a component may have. -/
def nameLimit : Nat := 255

/-- How many bytes a path may have. -/
def pathLimit : Nat := 4095

/-- What a directory has by a name. -/
def lookUp (t : FileTree) (place : List String) (name : String) :
    Except FileError (Option FileNode) :=
  if nameLimit < name.utf8ByteSize then .error .nameTooLong
  else .ok (t.node? (place ++ [name]))

/-- Where a component leads to from a directory. -/
def descend (t : FileTree) (place : List String) (component : String) :
    Except FileError (List String) := do
  if component == "." then return place
  if component == ".." then return place.dropLast
  match ← t.lookUp place component with
  | some .directory => return place ++ [component]
  | some (.file _) => throw .notDirectory
  | none => throw .noEntry

/-- Where a path leads to: the directory it ends in, its last component, and whether a slash
follows that. -/
structure Target where
  parent : List String
  name : String
  slash : Bool

/-- Where a path from another root leads to, in which only the root itself is found. -/
def outside (path : String) : Except FileError Target := do
  let parent ← (componentsOf path).foldlM (descend {}) []
  return ⟨parent, ".", true⟩

def target (t : FileTree) (path : String) : Except FileError Target := do
  if path.toList.contains '\x00' then throw .nulInPath
  if pathLimit < path.utf8ByteSize then throw .nameTooLong
  if path.toList.head? == some '/' then outside path
  else
    let components := componentsOf path
    match components.getLast? with
    | none => throw .noEntry
    | some name =>
      let parent ← components.dropLast.foldlM t.descend []
      return ⟨parent, name, path.toList.getLast? == some '/'⟩

/-- The last component is no name of its own, and what it stands for is a directory. -/
def Target.isDots (g : Target) : Bool :=
  g.name == "." || g.name == ".."

def Target.place (g : Target) : List String :=
  g.parent ++ [g.name]

/-- What a path leads to. -/
def find (t : FileTree) (path : String) : Except FileError FileNode := do
  let g ← t.target path
  if g.isDots then return .directory
  match ← t.lookUp g.parent g.name with
  | some .directory => return .directory
  | some (.file content) => if g.slash then throw .notDirectory else return .file content
  | none => throw .noEntry

def isPresent (t : FileTree) (path : String) : Bool :=
  (t.find path).toBool

def readText (t : FileTree) (path : String) : Except FileError String := do
  match ← t.find path with
  | .directory => throw .isDirectory
  | .file content =>
    match Text.decode? content with
    | some text => return text
    | none => throw .notText

def remove (t : FileTree) (path : String) : Except FileError FileTree := do
  let g ← t.target path
  if g.isDots then throw .isDirectory
  match ← t.lookUp g.parent g.name with
  | some .directory => throw .isDirectory
  | some (.file _) => if g.slash then throw .notDirectory else return t.erase g.place
  | none => throw .noEntry

def create (t : FileTree) (path : String) (content : List UInt8) : Except FileError FileTree := do
  let g ← t.target path
  if g.isDots then throw .alreadyExists
  if g.slash then throw .isDirectory
  match ← t.lookUp g.parent g.name with
  | some _ => throw .alreadyExists
  | none => return t.put g.place (.file content)

def overwrite (t : FileTree) (path : String) (content : List UInt8) :
    Except FileError FileTree := do
  let g ← t.target path
  if g.isDots || g.slash then throw .isDirectory
  match ← t.lookUp g.parent g.name with
  | some .directory => throw .isDirectory
  | _ => return t.put g.place (.file content)

/-- Adds a node and the directories above it. -/
def plant (t : FileTree) (path : String) (node : FileNode) : FileTree :=
  let components := componentsOf path
  let above := (List.range components.length).map components.take
  let t := above.foldl
    (fun t place => if (t.node? place).isSome then t else t.put place .directory) t
  if components.isEmpty then t else t.put components node

/-- A tree of some paths. Those without content are directories. -/
def ofList (entries : List (String × Option (List UInt8))) : FileTree :=
  entries.foldl (fun t entry => t.plant entry.1 (entry.2.elim .directory .file)) {}

/-- Every node by its path. Directories end in a slash and have no content. -/
def toList (t : FileTree) : List (String × Option (List UInt8)) :=
  t.nodes.entries.map fun (place, node) =>
    let path := String.intercalate "/" place
    match node with
    | .file content => (path, some content)
    | .directory => (path ++ "/", none)

/-- Keeps the changed tree if there is one. -/
def keep (change : FileTree → Except FileError FileTree) :
    StateM FileTree (Except FileError Unit) := fun t =>
  match change t with
  | .ok t => (.ok (), t)
  | .error e => (.error e, t)

/-- File access to a tree. -/
def access : FileAccess (StateM FileTree) where
  readText path := fun t => (t.readText path, t)
  isPresent path := fun t => (t.isPresent path, t)
  remove path := keep fun t => t.remove path
  create path content := keep fun t => t.create path content
  overwrite path content := keep fun t => t.overwrite path content

end FileTree

end EdgeProbe
