import ClassRules.CommandLine.Arguments
import ClassRules.CommandLine.Files
import ClassRules.Json.Reader
import ClassRules.Lowering
import ClassRules.Text.Terminal

/-!
# The command line

Reads style sheets, lowers their at-rules, and writes the result.

## What this module delivers

- `CommandLine.Trouble`: what can go wrong, with the text of the report.
- `Processed.toJson`, `Processed.rendered`: the result as it is written.
- `CommandLine.run`: a whole run of the command.
-/

set_option autoImplicit false

namespace ClassRules

/-- A location as JSON. -/
def Location.toJson (l : Location) : Json :=
  .object [("input", .string l.input), ("line", .integer l.line), ("column", .integer l.column)]

/-- A warning as JSON. -/
def Warning.toJson (w : Warning) : Json :=
  .object [("severity", .string "warning"), ("message", .string w.message),
    ("location", (w.location.map Location.toJson).getD .null)]

/-- A result as JSON. -/
def Processed.toJson (p : Processed) : Json :=
  .object [("css", .string p.css), ("warnings", .array (p.warnings.map Warning.toJson))]

/-- A result as it is written: the text with a line break behind it, if it is not empty, or an
object. -/
def Processed.rendered (p : Processed) : OutputFormat → String
  | .text => if p.css = "" then "" else p.css ++ "\n"
  | .json => p.toJson.pretty ++ "\n"

namespace CommandLine

/-- What can go wrong in a run. -/
inductive Trouble where
  | readingConfig (path : String) (fault : FileFault)
  | parsingConfig (path : String) (fault : Json.Fault)
  | invalidConfig (path : String) (fault : Options.Fault)
  | reading (path : String) (fault : FileFault)
  | readingInput (fault : FileFault)
  | writing (path : String) (fault : FileFault)
  | failed (failure : Failure)

namespace Trouble

/-- What happened. -/
def headline : Trouble → String
  | readingConfig path _ => "reading config " ++ path
  | parsingConfig path _ => "parsing config " ++ path
  | invalidConfig path _ => "invalid config " ++ path
  | reading path _ => "reading " ++ path
  | readingInput _ => "reading stdin"
  | writing path _ => "writing " ++ path
  | failed failure => failure.message

/-- Why it happened, if there is more to say. -/
def cause : Trouble → Option String
  | readingConfig _ fault | reading _ fault | readingInput fault | writing _ fault =>
    some fault.message
  | parsingConfig _ fault => some fault.message
  | invalidConfig _ fault => some fault.message
  | failed (.parse _ error) => some error.message
  | failed _ => none

/-- The report: what happened, and the cause below it, each line indented by four spaces. -/
def report (t : Trouble) : String :=
  "Error: " ++ t.headline ++
    match t.cause with
    | some cause => "\n\nCaused by:\n    " ++ "\n    ".intercalate (cause.splitOn "\n")
    | none => ""

end Trouble

/-- How a run ended, and what it printed. -/
structure Outcome where
  exit : UInt8 := 0
  output : String := ""
  warnings : List String := []
  report : Option String := none

/-- The version that is shown. -/
def version : String := "bemify 0.1.0\n"

/-- The help that is shown. -/
def help : String :=
  "Lower SUIT/BEM component at-rules to class selectors\n\n" ++
  "Usage: bemify [OPTIONS] [INPUTS]...\n\n" ++
  "Arguments:\n" ++
  "  [INPUTS]...  Input stylesheets, concatenated in order\n\n" ++
  "Options:\n" ++
  "  -s, --style <STYLE>\n" ++
  "          Naming convention (overrides the config file) [possible values: suit, bem]\n" ++
  "  -n, --default-namespace <DEFAULT_NAMESPACE>\n" ++
  "          Namespace for components without one (overrides the config file)\n" ++
  "  -c, --config <CONFIG>\n" ++
  "          JSON options file: style, separators, shortcuts, defaultNamespace\n" ++
  "  -o, --output <OUTPUT>\n" ++
  "          Write output here instead of stdout\n" ++
  "  -f, --format <FORMAT>\n" ++
  "          Output format [default: text] [possible values: text, json]\n" ++
  "  -h, --help\n" ++
  "          Print help (see more with '--help')\n" ++
  "  -V, --version\n" ++
  "          Print version\n"

variable {m : Type → Type} [Monad m]

/-- The options that the text of a config file stands for. -/
def optionsOfText (path text : String) : Except Trouble Options :=
  match Json.read text with
  | .error fault => .error (.parsingConfig path fault)
  | .ok value =>
    match Options.ofJson value with
    | .error fault => .error (.invalidConfig path fault)
    | .ok o => .ok o

/-- The options of the config file, with those of the command line in their place. -/
def loadOptions (host : Host m) (a : Arguments) : ExceptT Trouble m Options := do
  match a.config with
  | none => return a.applyTo {}
  | some path =>
    match ← host.readFile path with
    | .error fault => throw (.readingConfig path fault)
    | .ok text =>
      match optionsOfText path text with
      | .error trouble => throw trouble
      | .ok o => return a.applyTo o

/-- The texts of files, with their names. -/
def loadInputs (host : Host m) (paths : List String) : ExceptT Trouble m (List (String × String)) :=
  paths.mapM fun path => do
    match ← host.readFile path with
    | .error fault => throw (.reading path fault)
    | .ok text => return (path, text)

/-- The result of lowering the files, or the standard input if there are none. -/
def lower (host : Host m) (a : Arguments) : ExceptT Trouble m Processed := do
  let o ← loadOptions host a
  let result ←
    if a.inputs.isEmpty then
      match ← host.readInput with
      | .error fault => throw (.readingInput fault)
      | .ok text => pure (process text o)
    else pure (processInputs (← loadInputs host a.inputs) o)
  match result with
  | .error failure => throw (.failed failure)
  | .ok processed => return processed

/-- A run with arguments that were understood. Warnings are shown before anything is written. -/
def runWith (host : Host m) (a : Arguments) : m Outcome := do
  match ← (lower host a).run with
  | .error trouble => return { exit := 1, report := some trouble.report }
  | .ok processed =>
    let warnings := processed.warnings.map fun warning => Text.terminalText warning.text
    let text := processed.rendered (a.format.getD .text)
    match a.output with
    | none => return { output := text, warnings := warnings }
    | some path =>
      match ← host.writeFile path text with
      | .ok () => return { warnings := warnings }
      | .error fault =>
        let trouble := Trouble.writing path fault
        return { exit := 1, warnings := warnings, report := some trouble.report }

/-- A run of the command. -/
def run (host : Host m) (words : List String) : m Outcome :=
  match Command.ofWords words with
  | .run a => runWith host a
  | .help => return { output := help }
  | .version => return { output := version }
  | .misuse => return { exit := 2 }

end CommandLine

end ClassRules
