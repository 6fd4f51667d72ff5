import KeyTransparency.CommandLine.Arguments

/-!
The help on the program and on its commands, made from the tables of commands and options.
-/

namespace KeyTransparency.CommandLine

/-- A list of terms with their explanations, which begin in one column. -/
def glossary (title : String) (entries : List (String × String)) : String :=
  let width := (entries.map fun (term, _) => term.length).foldl max 0
  let line : String × String → String := fun (term, about) =>
    "  " ++ term.pushn ' ' (width - term.length) ++ "  " ++ about ++ "\n"
  "\n" ++ title ++ ":\n" ++ String.join (entries.map line)

/-- How an option is written, its value named after it. -/
def OptionSpec.term (option : OptionSpec) : String :=
  let value := if option.kind = .flag then "" else " <" ++ option.long.toUpper ++ ">"
  let short :=
    match option.short with
    | some c => "-" ++ String.singleton c ++ ", "
    | none => "    "
  short ++ "--" ++ option.long ++ value

def optionEntries (options : List OptionSpec) : List (String × String) :=
  options.map (fun option => (option.term, option.about)) ++ [("-h, --help", "Print help")]

def helpSummary : String := "Print this message or the help of the given subcommand(s)"

def programHelp : String :=
  "A key-transparency directory built on authenticated prefix tries\n\n" ++
    "Usage: keytrie [OPTIONS] <COMMAND>\n" ++
    glossary "Commands" (commands.map (fun c => (c.name, c.about)) ++ [("help", helpSummary)]) ++
    glossary "Options" (optionEntries globalOptions ++ [("-V, --version", "Print version")])

def commandHelp (command : CommandSpec) : String :=
  command.about ++ "\n\n" ++ "Usage: keytrie " ++ command.name ++ " [OPTIONS]\n" ++
    glossary "Options" (optionEntries (optionsAt (some command)))

def helpText (command : Option String) : String :=
  match command with
  | none => programHelp
  | some name =>
    match command? name with
    | some command => commandHelp command
    | none =>
      helpSummary ++ "\n\nUsage: keytrie help [COMMAND]...\n" ++
        glossary "Arguments" [("[COMMAND]...", "Print help for the subcommand(s)")]

end KeyTransparency.CommandLine
