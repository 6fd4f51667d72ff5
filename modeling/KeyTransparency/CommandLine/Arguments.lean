/-!
The arguments of the command line.

Arguments are read from left to right.  An option takes its value from the same argument, behind `=`
or directly behind its letter, or from the next argument, which must not begin with a dash; it may be
given once on either side of the command's name, and on the right it counts.

A value that is an argument of its own is looked at when the next option on its side is read, or at the
end of all arguments.  The last one before a command therefore does not keep help on that command from
being given, whatever it says.
-/

namespace KeyTransparency.CommandLine

inductive OutputFormat
  | json
  | text
deriving DecidableEq, Repr

inductive Command
  | initConfig (force : Bool)
  | showConfig
  | simulate (users appends rounds : Nat) (partitions : Option Nat) (aggregated : Bool)
      (store : Option String)
deriving DecidableEq, Repr

structure Invocation where
  configPath : Option String
  format : OutputFormat
  command : Command
deriving DecidableEq, Repr

/-- What arguments ask for that name no command to run. -/
inductive Refusal
  | usage
  /-- Help on the program or on one of its commands. -/
  | help (command : Option String)
  | version
deriving DecidableEq, Repr

/-! ## Options -/

inductive OptionKind
  | flag
  | path
  | number
  | format
deriving DecidableEq, Repr

structure OptionSpec where
  long : String
  short : Option Char
  kind : OptionKind
  about : String

structure CommandSpec where
  name : String
  about : String
  options : List OptionSpec

/-- The options that stand on both sides of a command. -/
def globalOptions : List OptionSpec :=
  [⟨"config", some 'c', .path,
      "Path to the config file (defaults to ~/.config/keytrie/config.toml)"⟩,
    ⟨"format", some 'f', .format,
      "Output format (json or text) [default: json] [possible values: json, text]"⟩]

def commands : List CommandSpec :=
  [⟨"init-config", "Write a config file with default settings",
      [⟨"force", none, .flag, "Overwrite an existing file"⟩]⟩,
    ⟨"show-config", "Print the effective configuration", []⟩,
    ⟨"simulate", "Run a workload against an in-process directory and audit it",
      [⟨"users", some 'u', .number, "Number of users to register [default: 8]"⟩,
        ⟨"appends", some 'a', .number, "Public keys each user appends per round [default: 2]"⟩,
        ⟨"rounds", some 'r', .number, "Verification periods to run [default: 3]"⟩,
        ⟨"partitions", some 'p', .number, "Override the configured partition count"⟩,
        ⟨"aggregated", none, .flag, "Keep a history forest instead of the two-epoch window"⟩,
        ⟨"store", none, .path,
          "Keep values in this store file instead of memory; an existing file is overwritten"⟩]⟩]

def command? (name : String) : Option CommandSpec := commands.find? (·.name = name)

/-- The values given so far, by the long names of their options. -/
abbrev Given := List (String × String)

/-- A number below 2^64, perhaps after a plus sign. -/
def number? (text : String) : Option Nat :=
  let digits := match text.toList with
    | '+' :: rest => rest
    | chars => chars
  if digits.isEmpty || !digits.all Char.isDigit then none
  else
    let n := digits.foldl (fun n c => n * 10 + (c.toNat - 48)) 0
    if n < UInt64.size then some n else none

def isValue (kind : OptionKind) (value : String) : Bool :=
  match kind with
  | .flag => true
  | .path => value != ""
  | .number => (number? value).isSome
  | .format => value == "json" || value == "text"

/-- The options read on one side of the command: those looked at, and the last one if its value was an
argument of its own. -/
structure Reading where
  given : Given
  last : Option (OptionSpec × String)

/-- Notes a value, once for each option. -/
def give (given : Given) (option : OptionSpec) (value : String) : Except Refusal Given :=
  if (given.lookup option.long).isSome || !isValue option.kind value then .error .usage
  else .ok ((option.long, value) :: given)

/-- The values of all options read. -/
def Reading.settled (reading : Reading) : Except Refusal Given :=
  match reading.last with
  | some (option, value) => give reading.given option value
  | none => .ok reading.given

/-- Gives an option the value attached to it or else the next argument. -/
def giveNext (given : Given) (option : OptionSpec) (attached : Option String) (rest : List String) :
    Except Refusal (Reading × List String) :=
  match option.kind, attached, rest with
  | .flag, none, _ => do pure (⟨← give given option "", none⟩, rest)
  | .flag, some _, _ => .error .usage
  | _, some value, _ => do pure (⟨← give given option value, none⟩, rest)
  | _, none, value :: rest =>
    if value.startsWith "-" && value != "-" then .error .usage
    else .ok (⟨given, some (option, value)⟩, rest)
  | _, none, [] => .error .usage

/-- The options that may stand on one side of the command: before it, if `command` is none, or behind
it.  Only before it can the version be asked for. -/
def optionsAt (command : Option CommandSpec) : List OptionSpec :=
  globalOptions ++ (command.map CommandSpec.options).getD []

/-- Reads an argument that begins with two dashes. -/
def long (command : Option CommandSpec) (given : Given) (argument : List Char)
    (rest : List String) : Except Refusal (Reading × List String) :=
  let name := String.ofList (argument.takeWhile (· != '='))
  let attached :=
    match argument.dropWhile (· != '=') with
    | _ :: value => some (String.ofList value)
    | [] => none
  if name = "help" then
    .error (if attached.isSome then .usage else .help (command.map CommandSpec.name))
  else if name = "version" ∧ command.isNone then
    .error (if attached.isSome then .usage else .version)
  else
    match (optionsAt command).find? (·.long = name) with
    | some option => giveNext given option attached rest
    | none => .error .usage

/-- Reads an argument that begins with one dash: letters of flags, the last perhaps of an option whose
value follows. -/
def short (command : Option CommandSpec) (given : Given) (rest : List String) :
    List Char → Except Refusal (Reading × List String)
  | [] => .ok (⟨given, none⟩, rest)
  | c :: more =>
    if c = 'h' then .error (.help (command.map CommandSpec.name))
    else if c = 'V' ∧ command.isNone then .error .version
    else
      match (optionsAt command).find? (·.short = some c) with
      | none => .error .usage
      | some option =>
        let attached :=
          match more with
          | [] => none
          | '=' :: value => some (String.ofList value)
          | value => some (String.ofList value)
        giveNext given option attached rest

/-! ## Commands -/

/-- Reads options up to the first other argument. -/
def readOptions (command : Option CommandSpec) :
    (fuel : Nat) → Reading → List String → Except Refusal (Reading × List String)
  | 0, _, _ => .error .usage
  | _ + 1, reading, [] => .ok (reading, [])
  | fuel + 1, reading, argument :: rest =>
    match argument.toList with
    | ['-', '-'] => if rest.isEmpty then .ok (reading, []) else .error .usage
    | '-' :: '-' :: name => do
      let (reading, rest) ← long command (← reading.settled) name rest
      readOptions command fuel reading rest
    | '-' :: c :: more => do
      let (reading, rest) ← short command (← reading.settled) rest (c :: more)
      readOptions command fuel reading rest
    | _ => .ok (reading, argument :: rest)

/-- A command with the values given to it. -/
def Command.ofGiven? (name : String) (given : Given) : Option Command :=
  let isGiven (option : String) : Bool := (given.lookup option).isSome
  let number (option : String) : Option Nat := (given.lookup option).bind number?
  match name with
  | "init-config" => some (.initConfig (isGiven "force"))
  | "show-config" => some .showConfig
  | "simulate" =>
    some (.simulate ((number "users").getD 8) ((number "appends").getD 2) ((number "rounds").getD 3)
      (number "partitions") (isGiven "aggregated") (given.lookup "store"))
  | _ => none

/-- What `help` with these arguments asks for: help on the program, on a command or on itself. -/
def helpOn : List String → Refusal
  | [] => .help none
  | [name] => if name = "help" ∨ (command? name).isSome then .help (some name) else .usage
  | _ => .usage

def parse (arguments : List String) : Except Refusal Invocation := do
  let fuel := arguments.length + 1
  let (before, rest) ← readOptions none fuel ⟨[], none⟩ arguments
  match rest with
  | [] => throw .usage
  | name :: rest =>
    if name = "help" then throw (helpOn rest)
    let some spec := command? name | throw .usage
    let (after, rest) ← readOptions (some spec) fuel ⟨[], none⟩ rest
    if !rest.isEmpty then throw .usage
    let before ← before.settled
    let after ← after.settled
    let some command := Command.ofGiven? name after | throw .usage
    let value? (option : String) : Option String := (after ++ before).lookup option
    pure ⟨value? "config", if value? "format" = some "text" then .text else .json, command⟩

end KeyTransparency.CommandLine
