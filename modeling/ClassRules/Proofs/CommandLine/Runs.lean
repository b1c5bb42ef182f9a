import ClassRules.CommandLine
import ClassRules.Proofs.CommandLine.Files

/-!
# Runs of the command

A run reads what it needs, and writes once, at its end. If it fails, nothing was written. To write
to a file is to write there what would be printed.

## What this module delivers

- `Outcome.writtenTo`: what is printed is written to a file instead. `runWith_output`: this is all
  that an output file changes, wherever files are kept.
- `Reads`: a part of a run that writes nothing. `reads_lower`: up to its result, a run only reads.
- `unwritten_of_exit_ne_zero`: a run on files in memory that fails writes nothing.
- `run_output`: a run that would print, and has an output file, leaves in it what it would print. No
  other file is touched.
-/

set_option autoImplicit false

namespace ClassRules.CommandLine

/-! ## Printing and writing -/

section Printing

variable {m : Type → Type} [Monad m]

/-- Writes to a file what is to be printed, if the run went well. -/
def Outcome.writtenTo (host : Host m) (path : String) (printed : Outcome) : m Outcome := do
  if printed.exit ≠ 0 then return printed
  match ← host.writeFile path printed.output with
  | .ok () => return { printed with output := "" }
  | .error fault =>
    let trouble := Trouble.writing path fault
    return { printed with exit := 1, output := "", report := some trouble.report }

/-- To write to a file is to write there what would be printed otherwise. -/
theorem runWith_output [LawfulMonad m] (host : Host m) (a : Arguments) (path : String) :
    runWith host { a with output := some path } =
      runWith host { a with output := none } >>= Outcome.writtenTo host path := by
  have hlower : lower host { a with output := some path } = lower host { a with output := none } :=
    rfl
  unfold runWith
  rw [hlower, bind_assoc]
  refine bind_congr fun result => ?_
  cases result with
  | error trouble => simp [Outcome.writtenTo]
  | ok processed =>
    simp only [Outcome.writtenTo, pure_bind]
    refine bind_congr fun answer => ?_
    cases answer <;> rfl

end Printing

/-! ## Parts that only read -/

variable {α β : Type}

/-- Whatever is there before, nothing is written. -/
def Reads (x : ExceptT Trouble (StateM Surroundings) α) : Prop :=
  ∀ s : Surroundings, s.Unwritten (x.run.run s).2

namespace Reads

variable {x : ExceptT Trouble (StateM Surroundings) α}
  {f : α → ExceptT Trouble (StateM Surroundings) β}

theorem pure (a : α) : Reads (Pure.pure a) := fun s =>
  .refl s

theorem throw (trouble : Trouble) : Reads (throw trouble : ExceptT _ _ α) := fun s =>
  .refl s

theorem bind (hx : Reads x) (hf : ∀ a, Reads (f a)) : Reads (x >>= f) := by
  intro s
  have hfirst := hx s
  rw [ExceptT.run_bind, StateT.run_bind]
  cases hrun : x.run.run s with
  | mk result t =>
    rw [hrun] at hfirst
    cases result with
    | error trouble => exact hfirst
    | ok a => exact hfirst.trans (hf a t)

theorem mapM {f : α → ExceptT Trouble (StateM Surroundings) β} (hf : ∀ a, Reads (f a))
    (as : List α) : Reads (as.mapM f) := by
  induction as with
  | nil => exact pure []
  | cons a as ih =>
    rw [List.mapM_cons]
    exact (hf a).bind fun b => ih.bind fun bs => pure (b :: bs)

theorem readFile (path : String)
    {f : Except FileFault String → ExceptT Trouble (StateM Surroundings) α}
    (hf : ∀ answer, Reads (f answer)) : Reads (liftM (Surroundings.host.readFile path) >>= f) :=
  bind (x := liftM (Surroundings.host.readFile path)) (fun s => s.unwritten_readFile path) hf

end Reads

theorem reads_loadOptions (a : Arguments) : Reads (loadOptions Surroundings.host a) := by
  unfold loadOptions
  cases a.config with
  | none => exact .pure _
  | some path =>
    refine .readFile path fun answer => ?_
    cases answer with
    | error fault => exact .throw _
    | ok text =>
      dsimp only
      cases optionsOfText path text with
      | error trouble => exact .throw _
      | ok o => exact .pure _

theorem reads_loadInputs (paths : List String) : Reads (loadInputs Surroundings.host paths) := by
  refine .mapM (fun path => .readFile path fun answer => ?_) paths
  cases answer with
  | error fault => exact .throw _
  | ok text => exact .pure _

/-- Up to its result, a run only reads. -/
theorem reads_lower (a : Arguments) : Reads (lower Surroundings.host a) := by
  unfold lower
  refine (reads_loadOptions a).bind fun o => ?_
  extract_lets finish
  have hfinish : ∀ result, Reads (finish result) := by
    intro result
    cases result with
    | error failure => exact .throw _
    | ok processed => exact .pure _
  split
  · refine .bind (x := liftM Surroundings.host.readInput) Surroundings.unwritten_readInput ?_
    intro answer
    cases answer with
    | error fault => exact (Reads.throw _).bind hfinish
    | ok text => exact (Reads.pure _).bind hfinish
  · refine (reads_loadInputs a.inputs).bind fun inputs => ?_
    exact (Reads.pure _).bind hfinish

/-! ## Whole runs -/

section Runs

open Surroundings (host)

variable {a : Arguments} {words : List String} {path : String} {p : Place} {s : Surroundings}

/-- To print is to write nothing. -/
theorem unwritten_of_output_none (ha : a.output = none) (s : Surroundings) :
    s.Unwritten ((runWith host a).run s).2 := by
  have hlower := reads_lower a s
  unfold runWith
  rw [StateT.run_bind]
  cases hrun : (lower host a).run.run s with
  | mk result t =>
    rw [hrun] at hlower
    cases result with
    | error trouble => exact hlower
    | ok processed =>
      simp only [ha]
      exact hlower

theorem run_writtenTo (printed : Outcome) : (printed.writtenTo host path).run s =
    if printed.exit ≠ 0 then (printed, s)
    else match s.write path printed.output with
      | .ok t => ({ printed with output := "" }, t)
      | .error fault =>
        let trouble := Trouble.writing path fault
        ({ printed with exit := 1, output := "", report := some trouble.report }, s) := by
  unfold Outcome.writtenTo
  split
  · rfl
  · rw [StateT.run_bind, Surroundings.run_writeFile]
    cases s.write path printed.output <;> rfl

/-- Where writing fails, what is there stays. -/
theorem unwritten_writtenTo {printed : Outcome}
    (h : ((printed.writtenTo host path).run s).1.exit ≠ 0) :
    s.Unwritten ((printed.writtenTo host path).run s).2 := by
  rw [run_writtenTo] at h ⊢
  by_cases hexit : printed.exit = 0
  · rw [if_neg (not_not_intro hexit)] at h ⊢
    cases hwrite : s.write path printed.output with
    | error fault => exact .refl s
    | ok t =>
      rw [hwrite] at h
      exact absurd hexit h
  · rw [if_pos hexit]
    exact .refl s

/-- A run that writes is a run that prints, and what is done with its end. -/
theorem run_runWith_output (ha : a.output = some path) : (runWith host a).run s =
    let printed := (runWith host { a with output := none }).run s
    (printed.1.writtenTo host path).run printed.2 := by
  have hself : a = { a with output := some path } := by rw [← ha]
  rw [hself, runWith_output, StateT.run_bind]
  rfl

/-- A run that fails writes nothing. -/
theorem unwritten_of_exit_ne_zero (h : ((run host words).run s).1.exit ≠ 0) :
    s.Unwritten ((run host words).run s).2 := by
  unfold run at h ⊢
  cases hwords : Command.ofWords words with
  | help | version | misuse => exact .refl s
  | run a =>
    rw [hwords] at h
    dsimp only at h ⊢
    cases ha : a.output with
    | none => exact unwritten_of_output_none ha s
    | some path =>
      have hprinted : s.Unwritten ((runWith host { a with output := none }).run s).2 :=
        unwritten_of_output_none rfl s
      rw [run_runWith_output ha] at h ⊢
      exact hprinted.trans (unwritten_writtenTo h)

/-- A run that would print and has a file to write to leaves in it what it would print. No other
file is touched, and the text is read back under the same path. -/
theorem run_output (hwords : Command.ofWords words = .run a) (ha : a.output = some path)
    (hpath : s.LeadsTo path p) (hp : p ∉ Place.devices) (hfolder : s.hasFolder p = false) :
    let printed := (runWith host { a with output := none }).run s
    let ended := (run host words).run s
    printed.1.exit = 0 →
      ended.1 = { printed.1 with output := "" } ∧
      ended.2.read path = .ok (printed.1.output, ended.2) ∧
      (∀ q, ended.2.files.lookup q = if q = p then some printed.1.output else s.files.lookup q) ∧
      ended.2.shown = s.shown := by
  intro printed ended hexit
  have hprinted : s.Unwritten printed.2 := unwritten_of_output_none rfl s
  have hleads : printed.2.LeadsTo path p := hprinted.leadsTo hpath
  have hfolder' : printed.2.hasFolder p = false := by
    rwa [Surroundings.hasFolder, hprinted.files_eq]
  have hended : ended = ({ printed.1 with output := "" }, printed.2.put p printed.1.output) := by
    have hrun : ended = (printed.1.writtenTo host path).run printed.2 := by
      simp only [ended, run, hwords]
      exact run_runWith_output ha
    rw [hrun, run_writtenTo, if_neg (not_not_intro hexit),
      Surroundings.write_eq_put hleads hp hfolder']
  rw [hended]
  refine ⟨rfl, Surroundings.read_put hleads hp hfolder' _, fun q => ?_, ?_⟩
  · rw [Surroundings.lookup_put, hprinted.files_eq]
  · exact (Surroundings.shown_put ..).trans hprinted.shown_eq

end Runs

end ClassRules.CommandLine
