/-!
Paths as they are written.

A path keeps all of its text.  What it is taken apart into (its names, the paths above it) says nothing
of where it leads; that is for a file tree to say.
-/

namespace KeyTransparency

/-- A path as it is written: the pieces of its text between the slashes. -/
structure Path where
  pieces : List String
deriving DecidableEq, Repr

namespace Path

def ofString (text : String) : Path := ⟨text.splitOn "/"⟩

def display (path : Path) : String := "/".intercalate path.pieces

def empty : Path := ⟨[""]⟩

def root : Path := ⟨["", ""]⟩

/-- A path that begins with a slash starts at the root. -/
def isAbsolute (path : Path) : Bool :=
  match path.pieces with
  | "" :: _ :: _ => true
  | _ => false

def endsInSlash (path : Path) : Bool :=
  1 < path.pieces.length && path.pieces.getLast?.any String.isEmpty

def names (path : Path) : List String := path.pieces.filter (!·.isEmpty)

/-- The pieces without those at the end, the first piece apart, that name nothing. -/
def trimmed (path : Path) : List String :=
  match path.pieces with
  | [] => []
  | first :: more =>
    first :: (more.reverse.dropWhile fun piece => piece = "" ∨ piece = ".").reverse

/-- The path without its last name; the empty path, which names no directory, if there is no other. -/
def parent? (path : Path) : Option Path :=
  match path.trimmed with
  | [] | [""] => none
  | [_] => some empty
  | pieces =>
    let above := trimmed ⟨pieces.dropLast⟩
    some (if above = [""] then root else ⟨above⟩)

/-- The path and the paths above it, upwards. -/
def ancestors (path : Path) : List Path := go (path.pieces.length + 1) path
where
  go : Nat → Path → List Path
    | 0, _ => []
    | fuel + 1, path => path :: ((path.parent?.map (go fuel)).getD [])

end Path

end KeyTransparency
