import KeyTransparency.CommandLine.Run
import KeyTransparency.Crypto.Ed25519

/-!
The command-line program.

The files that a run may touch are read before it, and what the run changed is written after it; what
happens in between is `CommandLine.run`.
-/

namespace KeyTransparency.Program

open CommandLine

/-- The text that leads to a place. -/
def textOf (place : Location) : String := "/" ++ "/".intercalate place

/-- Adds what is found at a place, if anything is: a file or a directory. -/
def discover (tree : FileTree) (place : Location) : IO FileTree := do
  try
    let content ← IO.FS.readBinFile (textOf place)
    pure (tree.setFile place (.ofBytes content.toList))
  catch
    | .inappropriateType .. => pure { tree with directories := place :: tree.directories }
    | _ => pure tree

/-- Adds what is found on the way that a path leads. -/
def discoverAlong (tree : FileTree) (path : Path) : IO FileTree := do
  let start := if path.isAbsolute then [] else tree.here
  let step := fun ((tree, place) : FileTree × Location) (name : String) => do
    let place :=
      if name = "." then place else if name = ".." then place.dropLast else place ++ [name]
    if tree.contains place then pure (tree, place) else pure (← discover tree place, place)
  pure (← path.names.foldlM step (tree, start)).1

/-- The paths that the arguments name. -/
def pathsOf (arguments : List String) (defaultConfig : Option String) : List Path :=
  match CommandLine.parse arguments with
  | .error _ => []
  | .ok invocation =>
    let config := (invocation.configPath <|> defaultConfig).toList
    let store :=
      match invocation.command with
      | .simulate _ _ _ _ _ store => store.toList
      | _ => []
    (config ++ store).map Path.ofString

/-- The files that are there before a run. -/
def filesFor (paths : List Path) : IO FileTree := do
  let here := Path.names (.ofString (← IO.currentDir).toString)
  paths.foldlM discoverAlong { files := [], directories := [], sinks := [["dev", "null"]], here }

/-- Writes the directories and files in which `after` differs from `before`. -/
def writeChanges (before after : FileTree) : IO Unit := do
  for place in after.directories.reverse do
    if !before.isDirectory place then IO.FS.createDirAll (textOf place)
  for (place, file) in after.files do
    let content := file.toBytes
    if (before.file? place).map FileImage.toBytes ≠ some content then
      IO.FS.writeBinFile (textOf place) ⟨content.toArray⟩

/-- Where settings are kept if no file is named. -/
def findDefaultConfig : IO (Option String) := do
  let settings := (← IO.getEnv "XDG_CONFIG_HOME").filter (·.startsWith "/")
  let home := (← IO.getEnv "HOME").filter (· ≠ "")
  let base := settings <|> home.map (· ++ "/.config")
  pure (base.map (· ++ "/keytrie/config.toml"))

end KeyTransparency.Program

open KeyTransparency in
def main (arguments : List String) : IO UInt32 := do
  let defaultConfig ← Program.findDefaultConfig
  let seed ← IO.getRandomBytes 32
  let environment : CommandLine.Environment :=
    { scheme := Ed25519.scheme
      keys := .ofSeed Ed25519.scheme seed.toList
      defaultConfig }
  let files ← Program.filesFor (Program.pathsOf arguments defaultConfig)
  let outcome := CommandLine.run environment arguments files
  Program.writeChanges files outcome.files
  IO.print outcome.output
  IO.eprint outcome.errors
  pure outcome.exitCode
