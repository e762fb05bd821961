import CipherGraph.OrderedMap
import CipherGraph.Text.Bytes

/-! # Files

A tree of files with a working directory, and what reading, writing and making directories
do to it. A path is followed name by name, and every name but the last has to lead to a directory.
-/

namespace CipherGraph

/-- Why a path cannot be read, written or made. -/
inductive FileFault where
  | notFound
  | taken
  | notDirectory
  | isDirectory
  | nameTooLong
  | other (text : String)
deriving DecidableEq, Repr

def FileFault.message : FileFault → String
  | .notFound => "No such file or directory (os error 2)"
  | .taken => "File exists (os error 17)"
  | .notDirectory => "Not a directory (os error 20)"
  | .isDirectory => "Is a directory (os error 21)"
  | .nameTooLong => "File name too long (os error 36)"
  | .other text => text

inductive FileEntry where
  | file (content : Bytes)
  | directory
deriving DecidableEq, Repr

/-- Entries by the names that lead to them from the root. -/
structure FileTree where
  entries : OrderedMap (List String) FileEntry
  current : List String
deriving DecidableEq, Repr

/-- A path by its names; blank names come of doubled and final slashes. -/
structure FilePath where
  absolute : Bool
  names : List String
deriving DecidableEq, Repr

namespace FilePath

def maxNameBytes : Nat := 255

def ofString (s : String) : FilePath := ⟨s.startsWith "/", s.splitOn "/"⟩

def isOpen (p : FilePath) : Bool := p.names.getLast? = some ""

/-- The names up to the last one that is not blank. -/
def spoken (p : FilePath) : List String := (p.names.reverse.dropWhile (· = "")).reverse

def steps (p : FilePath) : List String := p.names.filter fun name => name ≠ "" && name ≠ "."

/-- The path and those of the directories above it, the nearest first. -/
def withAncestors (p : FilePath) : List FilePath :=
  let above := (List.range p.steps.length).reverse.map fun n =>
    FilePath.mk p.absolute (p.steps.take n)
  p :: if p.absolute then above else above.filter (!·.names.isEmpty)

end FilePath

namespace FileTree

def empty : FileTree := ⟨.ofList [(["work"], .directory)], ["work"]⟩

def entry? (t : FileTree) (place : List String) : Option FileEntry :=
  if place.isEmpty then some .directory else t.entries.find? place

/-- The place that a name means in a directory. -/
def place (dir : List String) (name : String) : List String :=
  if name = "" || name = "." then dir else if name = ".." then dir.dropLast else dir ++ [name]

/-- Follows names from directory to directory. -/
def follow (t : FileTree) (dir : List String) : List String → Except FileFault (List String)
  | [] => .ok dir
  | name :: rest =>
    if name.utf8ByteSize > FilePath.maxNameBytes then .error .nameTooLong
    else
      match t.entry? (place dir name) with
      | none => .error .notFound
      | some (.file _) => .error .notDirectory
      | some .directory => t.follow (place dir name) rest

def start (t : FileTree) (p : FilePath) : List String := if p.absolute then [] else t.current

def lastPlace (dir : List String) (name : String) : Except FileFault (List String) :=
  if name.utf8ByteSize > FilePath.maxNameBytes then .error .nameTooLong else .ok (place dir name)

/-- The place of the last of some names, whose directory has to exist. -/
def locate (t : FileTree) (p : FilePath) (names : List String) :
    Except FileFault (List String) := do
  lastPlace (← t.follow (t.start p) names.dropLast) (names.getLastD "")

def isDirectory (t : FileTree) (p : FilePath) : Bool :=
  match t.follow (t.start p) p.names with
  | .ok _ => true
  | .error _ => false

def read (t : FileTree) (path : String) : Except FileFault Bytes := do
  let p := FilePath.ofString path
  match t.entry? (← t.locate p p.names) with
  | some (.file content) => return content
  | some .directory => throw .isDirectory
  | none => throw .notFound

def write (t : FileTree) (path : String) (content : Bytes) : Except FileFault FileTree := do
  let p := FilePath.ofString path
  let dir ← t.follow (t.start p) p.spoken.dropLast
  if p.isOpen then throw .isDirectory
  let at' ← lastPlace dir (p.spoken.getLastD "")
  match t.entry? at' with
  | some .directory => throw .isDirectory
  | _ => return { t with entries := t.entries.insert at' (.file content) }

def make (t : FileTree) (p : FilePath) : Except FileFault FileTree := do
  let at' ← t.locate p p.spoken
  match t.entry? at' with
  | some _ => throw .taken
  | none => return { t with entries := t.entries.insert at' .directory }

/-- Makes the first of some paths, after those behind it where its own directory is missing. A
directory that is there already will do. -/
def makeFirst (t : FileTree) : List FilePath → FileTree × Except FileFault Unit
  | [] => (t, .ok ())
  | p :: above =>
    let settle (t : FileTree) : FileTree × Except FileFault Unit :=
      match t.make p with
      | .ok t => (t, .ok ())
      | .error e => (t, if t.isDirectory p then .ok () else .error e)
    match t.make p with
    | .error .notFound =>
      match t.makeFirst above with
      | (t, .ok ()) => settle t
      | (t, .error e) => (t, .error e)
    | _ => settle t

/-- Makes a directory and those above it. What was made stays made on failure. -/
def makeAll (t : FileTree) (path : String) : FileTree × Except FileFault Unit :=
  t.makeFirst (FilePath.ofString path).withAncestors

def list (t : FileTree) : List String :=
  let names := t.entries.keys.filterMap fun place =>
    if place.dropLast = t.current then place.getLast? else none
  names.mergeSort fun a b => decide (a ≤ b)

end FileTree

end CipherGraph
