import ClassRules.Lowering.Namespace
import ClassRules.Lowering.State
import ClassRules.Lowering.Utility
import ClassRules.Options.OfJson

/-!
# Lowering a sheet

## What this module delivers

- `Sheet.transform`: all at-rules of a sheet, kind by kind.
- `Failure`: what can stop a run from text to text, and `Failure.message`.
- `process`, `processInputs`: texts in, the text of the lowered sheet and the warnings out.
-/

set_option autoImplicit false

namespace ClassRules

open Lowering

/-- Lowers the utilities of a sheet, then its namespaces, components and states. Only SUIT has
classes for utilities and states. -/
def Sheet.transform (s : Sheet) (o : Options) : Except Stopped Progress := do
  let cx := Context.ofOptions o
  let p : Progress := { sheet := s }
  let p ← if cx.convention.rewritesUtilities then lowerUtilities cx p else .ok p
  let (map, p) ← lowerNamespaces cx p
  let p ← lowerComponents cx map o.defaultNamespace p
  if cx.convention.rewritesStates then lowerStates cx p else .ok p

/-- What stops a run from text to text. -/
inductive Failure where
  | options (fault : Options.Fault)
  | parse (input : String) (error : ParseError)
  | lowering (fault : Fault)

/-- The words for a failure. -/
def Failure.message : Failure → String
  | .options fault => fault.message
  | .parse input error => input ++ ": " ++ error.message
  | .lowering (.misuse fault) => fault.text
  | .lowering (.move fault) => fault.message
  | .lowering .place => "a line or column is too large to be counted from one"

/-- What a run from text to text gives. -/
structure Processed where
  css : String
  warnings : List Warning
  deriving DecidableEq, Repr

/-- Adds a text to a sheet, unless it has errors. The first of them stops the run. -/
def Sheet.addChecked (s : Sheet) (input : Input) (text : String) : Except Failure Sheet :=
  match s.addText input text with
  | ([], s) => .ok s
  | (error :: _, _) => .error (.parse input.name error)

/-- Lowers a sheet and prints it. -/
def Sheet.process (s : Sheet) (o : Options) : Except Failure Processed :=
  match s.transform o with
  | .ok p => .ok ⟨p.sheet.print, p.warnings⟩
  | .error stopped => .error (.lowering stopped.fault)

/-- Lowers a text that has no name. -/
def process (css : String) (o : Options) : Except Failure Processed := do
  (← Sheet.empty.addChecked Sheet.empty.nextAnonymous css).process o

/-- Lowers several named texts together. -/
def processInputs (inputs : List (String × String)) (o : Options) : Except Failure Processed := do
  let s ← inputs.foldlM (fun s (name, css) => s.addChecked (.ofFile name) css) Sheet.empty
  s.process o

end ClassRules
