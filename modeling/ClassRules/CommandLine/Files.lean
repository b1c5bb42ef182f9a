/-!
# Files

What a command may do with files.

## What this module delivers

- `FileFault`: why a file cannot be read or written, and `FileFault.message`.
- `Host`: reading and writing files, in any monad.
-/

set_option autoImplicit false

namespace ClassRules

/-- Why a file cannot be read or written. -/
inductive FileFault where
  | notFound
  | notAFolder
  | isAFolder
  | nameTooLong
  /-- The bytes of the file are not UTF-8. -/
  | notText
  | other (text : String)
  deriving DecidableEq, Repr

/-- The system's words for a fault. -/
def FileFault.message : FileFault → String
  | notFound => "No such file or directory (os error 2)"
  | notAFolder => "Not a directory (os error 20)"
  | isAFolder => "Is a directory (os error 21)"
  | nameTooLong => "File name too long (os error 36)"
  | notText => "stream did not contain valid UTF-8"
  | other text => text

/-- Where a command finds its files and its input. -/
structure Host (m : Type → Type) where
  readFile : String → m (Except FileFault String)
  writeFile : String → String → m (Except FileFault Unit)
  readInput : m (Except FileFault String)

end ClassRules
