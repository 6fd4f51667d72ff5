import KeyTransparency.Error
import KeyTransparency.FileTree.Path
import KeyTransparency.Storage.FileImage

/-!
Named files in directories, and where paths lead among them.

A path is followed name by name, and every name but the last must lead to a directory: `..` goes back
from where the path has led so far, so that `missing/..` leads nowhere.  Files are made in directories
that exist; directories can be made together with those above them.
-/

namespace KeyTransparency

/-- Where something is: the names that lead to it from the root. -/
abbrev Location := List String

structure FileTree where
  files : List (Location × FileImage)
  directories : List Location
  /-- Files that keep nothing of what is written to them. -/
  sinks : List Location
  /-- The directory in which paths start that do not start at the root. -/
  here : Location

namespace FileTree

/-- Paths are shorter than this, in bytes. -/
def pathLimit : Nat := 4096

/-- The most bytes in a name. -/
def nameLimit : Nat := 255

/-- The root and the directories that lead to where paths start are always there. -/
def isDirectory (tree : FileTree) (place : Location) : Bool :=
  place.isPrefixOf tree.here || place ∈ tree.directories

def isSink (tree : FileTree) (place : Location) : Bool := place ∈ tree.sinks

def file? (tree : FileTree) (place : Location) : Option FileImage :=
  if tree.isSink place then some .empty else tree.files.lookup place

def contains (tree : FileTree) (place : Location) : Bool :=
  tree.isDirectory place || (tree.file? place).isSome

/-- Puts a file in its place, whatever was there. -/
def setFile (tree : FileTree) (place : Location) (file : FileImage) : FileTree :=
  if tree.isSink place then tree
  else { tree with files := (place, file) :: tree.files.filter (·.1 ≠ place) }

def removeFile (tree : FileTree) (place : Location) : FileTree :=
  { tree with files := tree.files.filter (·.1 ≠ place) }

/-! ## Following paths -/

/-- The directory in which a path starts. -/
def start (tree : FileTree) (path : Path) : Except FileFault Location :=
  if path.pieces.any (·.contains '\x00') then .error .zeroInName
  else if pathLimit ≤ path.display.utf8ByteSize then .error .nameTooLong
  else if path = .empty then .error .notFound
  else .ok (if path.isAbsolute then [] else tree.here)

/-- Where a name leads from a place.  The root is its own parent. -/
def enter (tree : FileTree) (place : Location) (name : String) : Except FileFault Location :=
  if !tree.isDirectory place then .error .notDirectory
  else if name = "." then .ok place
  else if name = ".." then .ok place.dropLast
  else if nameLimit < name.utf8ByteSize then .error .nameTooLong
  else if tree.contains (place ++ [name]) then .ok (place ++ [name])
  else .error .notFound

/-- Where a path leads.  One that ends in a slash leads to directories only. -/
def resolve (tree : FileTree) (path : Path) : Except FileFault Location := do
  let place ← path.names.foldlM tree.enter (← tree.start path)
  if path.endsInSlash && !tree.isDirectory place then .error .notDirectory else .ok place

/-- Whether a path leads anywhere. -/
def reaches (tree : FileTree) (path : Path) : Bool := (tree.resolve path).isOk

def reachesDirectory (tree : FileTree) (path : Path) : Bool :=
  match tree.resolve path with
  | .ok place => tree.isDirectory place
  | .error _ => false

/-- The file that a path leads to. -/
def read (tree : FileTree) (path : Path) : Except FileFault FileImage := do
  let place ← tree.resolve path
  if tree.isDirectory place then .error .isDirectory
  else
    match tree.file? place with
    | some file => .ok file
    | none => .error .notFound

/-! ## Making files and directories -/

/-- The directory in which a path makes something, and the name there.  A path that ends in `.` or
`..` and the root give no name to anything. -/
def destination (tree : FileTree) (path : Path) :
    Except FileFault (Location × Option String) := do
  let start ← tree.start path
  match path.names.getLast? with
  | none => .ok (start, none)
  | some name =>
    let place ← path.names.dropLast.foldlM tree.enter start
    if !tree.isDirectory place then .error .notDirectory
    else .ok (place, if name = "." ∨ name = ".." then none else some name)

/-- Where a path makes a file, or finds one to write to. -/
def writable (tree : FileTree) (path : Path) : Except FileFault Location := do
  let (above, name) ← tree.destination path
  match name with
  | none => .error .isDirectory
  | some name =>
    if path.endsInSlash then .error .isDirectory
    else if nameLimit < name.utf8ByteSize then .error .nameTooLong
    else if tree.isDirectory (above ++ [name]) then .error .isDirectory
    else .ok (above ++ [name])

/-- Where a path makes a file that has to keep what is written. -/
def storable (tree : FileTree) (path : Path) : Except FileFault Location := do
  let place ← tree.writable path
  if tree.isSink place then .error .notKept else .ok place

/-- Writes a file, in the place of the one that may be there. -/
def write (tree : FileTree) (path : Path) (file : FileImage) : Except FileFault FileTree :=
  (tree.writable path).map fun place => tree.setFile place file

def makeDirectory (tree : FileTree) (path : Path) : Except FileFault FileTree := do
  let (above, name) ← tree.destination path
  match name with
  | none => .error .fileExists
  | some name =>
    if nameLimit < name.utf8ByteSize then .error .nameTooLong
    else if tree.contains (above ++ [name]) then .error .fileExists
    else .ok { tree with directories := (above ++ [name]) :: tree.directories }

/-- Makes the directory at the head of a list, if it is not there; the paths behind it lead upwards,
and directories missing there are made first. -/
def makeUpwards (tree : FileTree) : List Path → FileTree × Except FileFault Unit
  | [] => (tree, .ok ())
  | path :: above =>
    if path = .empty then (tree, .ok ())
    else
      match tree.makeDirectory path with
      | .ok tree => (tree, .ok ())
      | .error .notFound =>
        match makeUpwards tree above with
        | (tree, .ok ()) => settle tree path (tree.makeDirectory path)
        | (tree, .error fault) => (tree, .error fault)
      | .error fault => settle tree path (.error fault)
where
  /-- That a directory could not be made does not matter if it is there. -/
  settle (tree : FileTree) (path : Path) : Except FileFault FileTree →
      FileTree × Except FileFault Unit
    | .ok tree => (tree, .ok ())
    | .error fault => (tree, if tree.reachesDirectory path then .ok () else .error fault)

/-- Makes a directory and those above it.  What was made stays even if the last cannot be. -/
def makeDirectories (tree : FileTree) (path : Path) : FileTree × Except FileFault Unit :=
  tree.makeUpwards path.ancestors

end FileTree

end KeyTransparency
