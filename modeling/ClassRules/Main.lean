import ClassRules.CommandLine

/-!
# The program

Runs the command line on the files of the system.
-/

set_option autoImplicit false

namespace ClassRules

/-- What the system says about a file. -/
def FileFault.ofError : IO.Error → FileFault
  | .noFileOrDirectory .. => .notFound
  | .inappropriateType _ 20 _ => .notAFolder
  | .inappropriateType .. => .isAFolder
  | .invalidArgument _ 36 _ => .nameTooLong
  | .permissionDenied _ code details =>
    .other (details ++ " (os error " ++ toString code ++ ")")
  | e => .other (toString e)

/-- The result of an action on files. -/
def attempt {α : Type} (action : IO α) : IO (Except FileFault α) := do
  match ← action.toBaseIO with
  | .ok a => return .ok a
  | .error e => return .error (.ofError e)

/-- The text of some bytes that were read. -/
def decode (bytes : Except FileFault ByteArray) : Except FileFault String := do
  match String.fromUTF8? (← bytes) with
  | some text => return text
  | none => throw .notText

/-- The files and the standard input of the system. -/
def systemHost : Host IO where
  readFile path :=
    return decode (← attempt (IO.FS.withFile path .read fun file => file.readBinToEnd))
  writeFile path text := attempt (IO.FS.writeFile path text)
  readInput := return decode (← attempt do (← IO.getStdin).readBinToEnd)

end ClassRules

/-- Runs the command line. Warnings and the report go to the standard error. -/
def main (words : List String) : IO UInt32 := do
  let outcome ← ClassRules.CommandLine.run ClassRules.systemHost words
  for warning in outcome.warnings do
    IO.eprintln ("WARN " ++ warning)
  if outcome.output != "" then
    IO.print outcome.output
  if let some report := outcome.report then
    IO.eprintln report
  if outcome.exit == 2 then
    IO.eprintln "error: the arguments were not understood; for more, try '--help'."
  return outcome.exit.toUInt32
