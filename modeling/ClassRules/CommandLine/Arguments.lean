import ClassRules.Options

/-!
# Arguments

The words of a command line: options with a value, and the files to read.

## What this module delivers

- `Arguments`: what was asked for.
- `Command`: to run with arguments, to show the help or the version, or nothing that can be
  understood.
- `Command.ofWords`: reads the words one after the other. The help and the version are shown as
  soon as they are asked for.
- `Arguments.applyTo`: options with the style and namespace of the command line.
-/

set_option autoImplicit false

namespace ClassRules

/-- How the result is written. -/
inductive OutputFormat where
  /-- The text alone. -/
  | text
  /-- An object with the text and the warnings. -/
  | json
  deriving DecidableEq, Repr

/-- What was asked for. -/
structure Arguments where
  style : Option Style := none
  defaultNamespace : Option String := none
  config : Option String := none
  output : Option String := none
  format : Option OutputFormat := none
  inputs : List String := []
  deriving DecidableEq, Repr

/-- What a command line asks for. -/
inductive Command where
  | run (arguments : Arguments)
  | help
  | version
  | misuse
  deriving DecidableEq, Repr

namespace Arguments

/-- The options that take a value. -/
inductive Key where
  | style
  | defaultNamespace
  | config
  | output
  | format
  deriving DecidableEq, Repr

/-- The long name of an option. -/
def Key.name : Key → String
  | style => "style"
  | defaultNamespace => "default-namespace"
  | config => "config"
  | output => "output"
  | format => "format"

/-- The letter of an option. -/
def Key.letter : Key → Char
  | style => 's'
  | defaultNamespace => 'n'
  | config => 'c'
  | output => 'o'
  | format => 'f'

/-- All options that take a value. -/
def Key.all : List Key := [.style, .defaultNamespace, .config, .output, .format]

/-- A name of a file is not empty. -/
def path? (word : String) : Option String :=
  if word = "" then none else some word

/-- The output format with the given name. -/
def format? : String → Option OutputFormat
  | "text" => some .text
  | "json" => some .json
  | _ => none

/-- Gives an option a value. It must fit the option, and the option must not have one yet. -/
def set? (a : Arguments) (key : Key) (value : String) : Option Arguments :=
  match key with
  | .style =>
    if a.style.isSome then none
    else (Style.ofName? value).map fun style => { a with style := some style }
  | .defaultNamespace =>
    if a.defaultNamespace.isSome then none else some { a with defaultNamespace := some value }
  | .config =>
    if a.config.isSome then none else (path? value).map fun path => { a with config := some path }
  | .output =>
    if a.output.isSome then none else (path? value).map fun path => { a with output := some path }
  | .format =>
    if a.format.isSome then none
    else (format? value).map fun format => { a with format := some format }

/-- Adds a file to read. -/
def addInput? (a : Arguments) (word : String) : Option Arguments :=
  (path? word).map fun path => { a with inputs := a.inputs ++ [path] }

/-- Options with the style and the default namespace of the command line, where it gives them. -/
def applyTo (a : Arguments) (o : Options) : Options :=
  let o := match a.style with
    | some style => { o with style := style }
    | none => o
  match a.defaultNamespace with
  | some ns => o.withDefaultNamespace ns
  | none => o

end Arguments

namespace Command

/-- What a single word of a command line is. -/
inductive Word where
  | input
  /-- All words that follow are files to read. -/
  | inputsOnly
  | help
  | version
  /-- An option; its value may stand in the same word. -/
  | option (key : Arguments.Key) (value : Option String)
  | unknown
  deriving DecidableEq, Repr

/-- What a word without its two leading hyphens is. -/
def longWord (cs : List Char) : Word :=
  let name := String.ofList (cs.takeWhile (· != '='))
  let value := match cs.dropWhile (· != '=') with
    | _ :: value => some (String.ofList value)
    | [] => none
  match Arguments.Key.all.find? (·.name == name) with
  | some key => .option key value
  | none =>
    if value.isSome then .unknown
    else if name = "help" then .help
    else if name = "version" then .version
    else .unknown

/-- What a word that starts with a hyphen and the letter `c` is. A value may follow the letter of
an option at once or behind an equals sign. -/
def shortWord (c : Char) (rest : List Char) : Word :=
  match Arguments.Key.all.find? (·.letter == c) with
  | some key =>
    match rest with
    | [] => .option key none
    | '=' :: value => .option key (some (String.ofList value))
    | value => .option key (some (String.ofList value))
  | none => if c = 'h' then .help else if c = 'V' then .version else .unknown

/-- What a word is. A single hyphen is a file's name. -/
def Word.ofString (word : String) : Word :=
  match word.toList with
  | ['-', '-'] => .inputsOnly
  | '-' :: '-' :: cs => longWord cs
  | '-' :: c :: cs => shortWord c cs
  | _ => .input

/-- Goes on with arguments if there are any. -/
def orMisuse (next : Arguments → Command) : Option Arguments → Command
  | some a => next a
  | none => .misuse

/-- Reads the words of a command line onto the arguments read before. A word that starts with a
hyphen and is more than that is no value of an option before it. -/
def read (a : Arguments) : List String → Command
  | [] => .run a
  | word :: words =>
    match Word.ofString word with
    | .input => orMisuse (read · words) (a.addInput? word)
    | .inputsOnly => orMisuse .run (words.foldlM Arguments.addInput? a)
    | .help => .help
    | .version => .version
    | .option key (some value) => orMisuse (read · words) (a.set? key value)
    | .option key none =>
      match words with
      | [] => .misuse
      | value :: words =>
        -- A word that looks like an option is not taken for a value.
        if Word.ofString value = .input then orMisuse (read · words) (a.set? key value)
        else .misuse
    | .unknown => .misuse

/-- What a command line asks for. -/
def ofWords (words : List String) : Command :=
  read {} words

end Command

end ClassRules
