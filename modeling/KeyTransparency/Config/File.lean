import KeyTransparency.Config.Text
import KeyTransparency.FileTree

/-!
Settings in files.

Settings are written together with the directories above their file; what was made of these stays if a
later step fails.
-/

namespace KeyTransparency.Config

/-- The settings in a file; a path that leads nowhere stands for the settings by default. -/
def ofFile (tree : FileTree) (path : String) : Except Error Config :=
  if tree.reaches (.ofString path) then
    match tree.read (.ofString path) with
    | .ok file => ofBytes path file.toBytes
    | .error fault => .error (.config (.unreadable path fault))
  else .ok default

/-- Makes the directories above a path. -/
def makeAbove (tree : FileTree) (path : Path) : FileTree × Except Error Unit :=
  match path.parent? with
  | none => (tree, .ok ())
  | some above =>
    let (tree, made) := tree.makeDirectories above
    (tree, made.mapError fun fault => .config (.directoryNotMade fault))

/-- Writes the document of settings in a directory that is there. -/
def writeTo (config : Config) (tree : FileTree) (path : Path) : Except Error FileTree := do
  let document ← config.toToml
  (tree.write path (.ofBytes (Bytes.ofString document))).mapError fun fault =>
    .config (.notWritten fault)

/-- Writes valid settings to a file and answers with the tree as it is then. -/
def toFile (config : Config) (tree : FileTree) (path : Path) : FileTree × Except Error Unit :=
  match config.validate with
  | .error e => (tree, .error e)
  | .ok () =>
    match makeAbove tree path with
    | (tree, .error e) => (tree, .error e)
    | (tree, .ok ()) =>
      match config.writeTo tree path with
      | .error e => (tree, .error e)
      | .ok tree => (tree, .ok ())

end KeyTransparency.Config
