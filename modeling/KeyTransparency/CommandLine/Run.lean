import KeyTransparency.CommandLine.Help
import KeyTransparency.Config.File
import KeyTransparency.Simulation
import KeyTransparency.Storage.FileStore
import KeyTransparency.Wire.Types

/-!
What the commands do.

A run reads and writes a tree of files and answers with an exit code, a text for each output and the
tree it leaves.  A store file is closed at the end of a simulation, whether or not it went through.
-/

namespace KeyTransparency.CommandLine

/-- What a run depends on besides its arguments and files. -/
structure Environment where
  scheme : SigningScheme
  keys : KeySource
  /-- The settings file when none is named, where one can be found. -/
  defaultConfig : Option String

structure Outcome where
  exitCode : UInt32
  output : String
  errors : String
  files : FileTree

/-- Why a run fails. -/
inductive Failure
  | refused (refusal : Refusal)
  | configExists (path : String)
  | error (e : Error)

def Failure.message : Failure → String
  | refused .usage => "error: the arguments are not understood\n\nFor more information, try '--help'.\n"
  | refused _ => ""
  | configExists path => s!"Error: {path} already exists (use --force to overwrite)\n"
  | error e => s!"Error: {e.message}\n"

def Failure.exitCode : Failure → UInt32
  | refused .usage => 2
  | refused _ => 0
  | _ => 1

def Failure.output : Failure → String
  | refused (.help command) => helpText command
  | refused .version => "keytrie 0.1.0\n"
  | _ => ""

/-- A run under way: it changes the files and may fail. -/
abbrev Run (α : Type) := ExceptT Failure (StateM FileTree) α

def lift {α : Type} (result : Except Error α) : Run α := liftExcept (result.mapError Failure.error)
where
  liftExcept (result : Except Failure α) : Run α := result

/-- A value in the format asked for, on lines of its own. -/
def present (format : OutputFormat) (value : Json) : String :=
  match format with
  | .json => value.compress ++ "\n"
  | .text => value.pretty 0 ++ "\n"

/-! ## Commands -/

/-- Reads a settings file. -/
def loadConfig (path : String) : Run Config := do lift (Config.ofFile (← get) path)

/-- Writes a settings file. -/
def saveConfig (path : Path) (config : Config) : Run Unit := do
  let (tree, saved) := config.toFile (← get) path
  set tree
  lift saved

def initConfig (path : String) (force : Bool) : Run Json := do
  if (← get).reaches (.ofString path) && !force then throw (.configExists path)
  saveConfig (.ofString path) Config.default
  pure (.ofMembers [("message", .ofString ("Wrote " ++ path)), ("status", .ofString "ok")])

/-- Settings with their names in order. -/
def configJson (config : Config) : Json :=
  .ofMembers
    [("aggregated_history", .bool config.aggregatedHistory),
      ("history_depth", .ofNat config.historyDepth),
      ("partitions", .ofNat config.partitions),
      ("update_period_ms", .ofNat config.updatePeriodMs),
      ("verification_period_ms", .ofNat config.verificationPeriodMs)]

def showConfig (path : String) : Run Json := do
  let config ← loadConfig path
  pure (.ofMembers [("config", configJson config), ("path", .ofString path)])

/-- Simulates on a store in memory or in a new file. -/
def runSimulation (env : Environment) (config : Config) (plan : SimulationPlan)
    (store : Option String) : Run Json := do
  match store with
  | none =>
    let (_, report) := simulate env.scheme env.keys config plan MemoryStore.empty
    pure (← lift report).toJson
  | some path =>
    let tree ← get
    match tree.storable (.ofString path) with
    | .error _ => throw (.error .io)
    | .ok place =>
      let (store, report) := simulate env.scheme env.keys config plan FileStore.create
      set (tree.setFile place store.close)
      pure (← lift report).toJson

def runCommand (env : Environment) (invocation : Invocation) : Run Json := do
  let path ←
    match invocation.configPath <|> env.defaultConfig with
    | some path => pure path
    | none => throw (.error (.config .noDirectory))
  match invocation.command with
  | .initConfig force => initConfig path force
  | .showConfig => showConfig path
  | .simulate users appends rounds partitions aggregated store => do
    let config ← loadConfig path
    let config := { config with
      partitions := partitions.getD config.partitions
      aggregatedHistory := config.aggregatedHistory || aggregated }
    runSimulation env config ⟨users, appends, rounds⟩ store

def run (env : Environment) (arguments : List String) (files : FileTree) : Outcome :=
  let program : Run String := do
    match parse arguments with
    | .error refusal => throw (.refused refusal)
    | .ok invocation => pure (present invocation.format (← runCommand env invocation))
  match program.run.run files with
  | (.ok output, files) => ⟨0, output, "", files⟩
  | (.error failure, files) => ⟨failure.exitCode, failure.output, failure.message, files⟩

end KeyTransparency.CommandLine
