import ClassRules.CommandLine.Path

/-!
# Surroundings in memory

Files, a standard input and a standard output to run commands on, kept as a value.

## What this module delivers

- `Surroundings`: the files by their places, the input that is left, and what was written to the
  output under its name among the files.
- `Surroundings.locate`: follows a path through folders.
- `Surroundings.read`, `Surroundings.write`; `Surroundings.host` runs commands on them.
-/

set_option autoImplicit false

namespace ClassRules

/-- What a command finds around it. -/
structure Surroundings where
  files : List (Place × String) := []
  /-- What is left of the standard input. -/
  input : String := ""
  /-- What was written to the standard output as if it were a file. -/
  shown : String := ""
  deriving DecidableEq, Repr

namespace Surroundings

/-- The folders that every system has at its root. -/
def systemFolders : List String :=
  ["bin", "boot", "dev", "etc", "home", "lib", "media", "mnt", "opt", "proc", "root", "run", "sbin",
    "srv", "sys", "tmp", "usr", "var"]

/-- What is at a place. -/
inductive Entry where
  | folder
  | file (text : String)
  /-- A file that is always empty and forgets what is written to it. -/
  | sink
  /-- The standard input under its name among the files. -/
  | input
  /-- The standard output under its name among the files. -/
  | output
  | nothing
  deriving DecidableEq, Repr

/-- Whether there is a folder at a place: one that every system has, or one with a file in it. -/
def hasFolder (s : Surroundings) (p : Place) : Bool :=
  p.names.isEmpty || (p.base = .root && systemFolders.any (p.names = [·])) ||
    s.files.any fun file => p.holds file.1

/-- What is at a place. -/
def entry (s : Surroundings) (p : Place) : Entry :=
  if s.hasFolder p then .folder
  else match s.files.lookup p with
    | some text => .file text
    | none =>
      if p = ⟨.root, ["dev", "null"]⟩ then .sink
      else if p = ⟨.root, ["dev", "stdin"]⟩ then .input
      else if p = ⟨.root, ["dev", "stdout"]⟩ then .output
      else .nothing

/-- Refuses a name that no folder can hold. -/
def checkName (name : String) : Except FileFault Unit :=
  if Path.nameLimit < name.utf8ByteSize then .error .nameTooLong else .ok ()

/-- Goes from a folder to the folder with the given name. A dot stays, two dots go up. -/
def enter (s : Surroundings) (p : Place) (name : String) : Except FileFault Place :=
  if name = "." then .ok p
  else if name = ".." then .ok p.up
  else do
    checkName name
    match s.entry (p.down name) with
    | .folder => return p.down name
    | .nothing => throw .notFound
    | _ => throw .notAFolder

/-- Where a path ends. -/
inductive Target where
  /-- In a folder, by a dot or two at its end or because it has no names. -/
  | folder
  /-- At a name in a folder that is there. -/
  | named (folder : Place) (name : String)
  deriving DecidableEq, Repr

/-- Follows a path. All its names but the last have to lead to folders. -/
def locate (s : Surroundings) (path : Path) : Except FileFault Target :=
  match path.names.getLast? with
  | none => .ok .folder
  | some last => do
    let folder ← path.names.dropLast.foldlM s.enter path.start
    return if last = "." || last = ".." then .folder else .named folder last

/-- The text that a path leads to, and what is left to be read. -/
def read (s : Surroundings) (text : String) : Except FileFault (String × Surroundings) := do
  let path ← Path.ofString text
  match ← s.locate path with
  | .folder => throw .isAFolder
  | .named folder name =>
    checkName name
    match s.entry (folder.down name) with
    | .folder => throw .isAFolder
    | .nothing => throw .notFound
    | entry =>
      -- A slash behind a name asks for a folder.
      if path.slash then throw .notAFolder
      match entry with
      | .file contents => return (contents, s)
      | .input => return (s.input, { s with input := "" })
      | _ => return ("", s)

/-- Gives the file at a place a text in place of an earlier one. -/
def put (s : Surroundings) (p : Place) (text : String) : Surroundings :=
  if (s.files.lookup p).isSome then
    { s with files := s.files.map fun file => if file.1 = p then (p, text) else file }
  else { s with files := s.files ++ [(p, text)] }

/-- Writes a text to where a path leads. A slash behind the last name is refused before anything is
looked up. -/
def write (s : Surroundings) (text contents : String) : Except FileFault Surroundings := do
  let path ← Path.ofString text
  match ← s.locate path with
  | .folder => throw .isAFolder
  | .named folder name =>
    if path.slash then throw .isAFolder
    checkName name
    match s.entry (folder.down name) with
    | .folder => throw .isAFolder
    | .file _ | .nothing => return s.put (folder.down name) contents
    | .output => return { s with shown := s.shown ++ contents }
    | .sink | .input => return s

/-- Commands run on the surroundings. The input can be read once. -/
def host : Host (StateM Surroundings) where
  readFile path := do
    match (← get).read path with
    | .ok (text, s) => set s; return .ok text
    | .error fault => return .error fault
  writeFile path text := do
    match (← get).write path text with
    | .ok s => set s; return .ok ()
    | .error fault => return .error fault
  readInput := do
    let s ← get
    set { s with input := "" }
    return .ok s.input

end Surroundings

end ClassRules
