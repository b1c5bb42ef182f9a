import ClassRules.CommandLine.Surroundings
import ClassRules.Proofs.Lowering.Progress

/-!
# Files in memory

What is written to a file is read back from it under the same path, and no other file changes.

## What this module delivers

- `Surroundings.lookup_put`, `hasFolder_put`: the files and folders once a text is put somewhere.
- `Surroundings.LeadsTo`: the place where a path ends. `LeadsTo.mono`: it ends there still when more
  folders have come. `LeadsTo.read_eq`, `LeadsTo.write_eq`: what is read and written there.
- `Surroundings.Unwritten`: nothing was written. `unwritten_of_read`: nothing is by reading.
- `Surroundings.write_eq_put`, `read_put`: a text can be written where neither a folder nor a device
  is, and is read back.
- `Surroundings.run_readFile`, `run_writeFile`: the same for commands that run on files in memory.
-/

set_option autoImplicit false

namespace ClassRules

/-- The files that every system has and that do not keep what is written to them. -/
def Place.devices : List Place :=
  [⟨.root, ["dev", "null"]⟩, ⟨.root, ["dev", "stdin"]⟩, ⟨.root, ["dev", "stdout"]⟩]

/-- No place is in itself. -/
theorem Place.not_holds_self (p : Place) : p.holds p = false := by
  simp [holds]

namespace Surroundings

open Lowering (exists_of_bind_eq_ok)

variable {s t : Surroundings} {p q : Place} {name text contents : String}

/-! ## Putting a text somewhere -/

theorem lookup_cons (p q : Place) (text : String) (files : List (Place × String)) :
    ((p, text) :: files).lookup q = if q = p then some text else files.lookup q := by
  by_cases h : q = p
  · rw [h, if_pos rfl, List.lookup_cons_self]
  · rw [if_neg h, List.lookup_cons, beq_false_of_ne h]

/-- The files under their places once the text of one of them is another. -/
theorem lookup_map_replace (files : List (Place × String)) (p q : Place) (text : String) :
    (files.map fun file => if file.1 = p then (p, text) else file).lookup q =
      if q = p then (files.lookup p).map fun _ => text else files.lookup q := by
  induction files with
  | nil => simp
  | cons file files ih =>
    obtain ⟨place, old⟩ := file
    rw [List.map_cons]
    by_cases hplace : place = p
    · rw [if_pos hplace, hplace, lookup_cons, lookup_cons, lookup_cons, ih, if_pos rfl]
      by_cases hq : q = p
      · rw [if_pos hq, if_pos hq]
        rfl
      · simp only [if_neg hq]
    · rw [if_neg hplace, lookup_cons, lookup_cons, lookup_cons, ih, if_neg (Ne.symm hplace)]
      by_cases hq : q = p
      · simp only [hq, if_neg (Ne.symm hplace), if_true]
      · simp only [if_neg hq]

/-- The place has the new text, and all others what they had. -/
theorem lookup_put (s : Surroundings) (p q : Place) (text : String) :
    (s.put p text).files.lookup q = if q = p then some text else s.files.lookup q := by
  unfold put
  split
  · rename_i hsome
    obtain ⟨old, hold⟩ := Option.isSome_iff_exists.1 hsome
    rw [lookup_map_replace, hold]
    rfl
  · rename_i hnone
    rw [List.lookup_append, lookup_cons, List.lookup_nil]
    by_cases hq : q = p
    · rw [if_pos hq, if_pos hq, hq, Option.not_isSome_iff_eq_none.1 hnone]
      rfl
    · rw [if_neg hq, if_neg hq, Option.or_none]

/-- The places with files are those that had one, and this one. -/
theorem any_put (P : Place → Bool) :
    (s.put p text).files.any (P ·.1) = (s.files.any (P ·.1) || P p) := by
  unfold put
  split
  · rename_i hsome
    obtain ⟨old, hold⟩ := Option.isSome_iff_exists.1 hsome
    obtain ⟨front, back, hfiles, -⟩ := List.lookup_eq_some_iff.1 hold
    have hsame : ∀ file : Place × String,
        P (if file.1 = p then (p, text) else file).1 = P file.1 := by
      intro file
      split
      · rename_i heq
        rw [heq]
      · rfl
    have hany : P p = true → s.files.any (P ·.1) = true := fun hp =>
      List.any_eq_true.2 ⟨(p, old), by simp [hfiles], hp⟩
    simp only [List.any_map, Function.comp_def, hsame]
    rw [eq_comm, Bool.or_eq_left_iff_imp]
    exact hany
  · simp

/-- There are the folders that were there, and those above the new file. -/
theorem hasFolder_put : (s.put p text).hasFolder q = (s.hasFolder q || q.holds p) := by
  simp only [hasFolder, any_put q.holds, Bool.or_assoc]

theorem hasFolder_put_self : (s.put p text).hasFolder p = s.hasFolder p := by
  rw [hasFolder_put, p.not_holds_self, Bool.or_false]

theorem shown_put (s : Surroundings) (p : Place) (text : String) :
    (s.put p text).shown = s.shown := by
  unfold put
  split <;> rfl

/-! ## What is at a place -/

theorem entry_eq_folder_iff : s.entry p = .folder ↔ s.hasFolder p = true := by
  unfold entry
  cases s.hasFolder p with
  | true => simp
  | false =>
    simp only [Bool.false_eq_true, if_false, iff_false]
    cases s.files.lookup p with
    | some text => simp
    | none =>
      dsimp only
      split
      · simp
      split
      · simp
      split <;> simp

/-- Where no device is, there is a folder, a file or nothing. -/
theorem entry_of_not_mem_devices (hp : p ∉ Place.devices) (hfolder : s.hasFolder p = false) :
    s.entry p = (s.files.lookup p).elim .nothing .file := by
  simp only [Place.devices, List.mem_cons, List.not_mem_nil, or_false, not_or] at hp
  rw [entry, hfolder]
  cases s.files.lookup p with
  | some text => rfl
  | none => simp [hp]

/-! ## Where a path leads -/

/-- A text is a path to a place: to a name that a folder can hold, in a folder that is there. -/
def LeadsTo (s : Surroundings) (text : String) (p : Place) : Prop :=
  ∃ path folder name, Path.ofString text = .ok path ∧ path.slash = false ∧
    s.locate path = .ok (.named folder name) ∧ checkName name = .ok () ∧ p = folder.down name

section MoreFolders

variable (h : ∀ q, s.hasFolder q = true → t.hasFolder q = true)

include h

/-- A step on a path is still taken when more folders have come. -/
theorem enter_mono (hs : s.enter p name = .ok q) : t.enter p name = .ok q := by
  unfold enter at hs ⊢
  by_cases hdot : name = "."
  · rwa [if_pos hdot] at hs ⊢
  by_cases hdots : name = ".."
  · rwa [if_neg hdot, if_pos hdots] at hs ⊢
  rw [if_neg hdot, if_neg hdots] at hs ⊢
  obtain ⟨_, hname, hs⟩ := exists_of_bind_eq_ok hs
  -- Nothing but a folder lets a path through.
  have hfolder : s.entry (p.down name) = .folder := by
    cases hentry : s.entry (p.down name) with
    | folder => rfl
    | _ =>
      rw [hentry] at hs
      cases hs
  rw [hfolder] at hs
  rw [hname, entry_eq_folder_iff.2 (h _ (entry_eq_folder_iff.1 hfolder))]
  exact hs

theorem foldlM_enter_mono {names : List String} (hs : names.foldlM s.enter p = .ok q) :
    names.foldlM t.enter p = .ok q := by
  induction names generalizing p with
  | nil => exact hs
  | cons name names ih =>
    rw [List.foldlM_cons] at hs ⊢
    obtain ⟨next, hstep, hs⟩ := exists_of_bind_eq_ok hs
    rw [enter_mono h hstep]
    exact ih hs

theorem locate_mono {path : Path} {target : Target} (hs : s.locate path = .ok target) :
    t.locate path = .ok target := by
  unfold locate at hs ⊢
  cases hlast : path.names.getLast? with
  | none =>
    rw [hlast] at hs
    exact hs
  | some last =>
    rw [hlast] at hs
    dsimp only at hs ⊢
    obtain ⟨folder, hfolder, hs⟩ := exists_of_bind_eq_ok hs
    rw [foldlM_enter_mono h hfolder]
    exact hs

/-- The whole path leads where it led before. -/
theorem LeadsTo.mono (hs : s.LeadsTo text p) : t.LeadsTo text p := by
  obtain ⟨path, folder, name, hpath, hslash, hlocate, hname, rfl⟩ := hs
  exact ⟨path, folder, name, hpath, hslash, locate_mono h hlocate, hname, rfl⟩

end MoreFolders

/-! ## Reading and writing -/

/-- At the end of a path, what is read depends on what is there. -/
theorem LeadsTo.read_eq (h : s.LeadsTo text p) : s.read text =
    match s.entry p with
    | .folder => .error .isAFolder
    | .nothing => .error .notFound
    | .file contents => .ok (contents, s)
    | .input => .ok (s.input, { s with input := "" })
    | .sink | .output => .ok ("", s) := by
  obtain ⟨path, folder, name, hpath, hslash, hlocate, hname, rfl⟩ := h
  simp only [read, hpath, hlocate, hname, hslash, bind, Except.bind]
  cases s.entry (folder.down name) <;> rfl

/-- And so does what is written. -/
theorem LeadsTo.write_eq (h : s.LeadsTo text p) (contents : String) : s.write text contents =
    match s.entry p with
    | .folder => .error .isAFolder
    | .file _ | .nothing => .ok (s.put p contents)
    | .output => .ok { s with shown := s.shown ++ contents }
    | .sink | .input => .ok s := by
  obtain ⟨path, folder, name, hpath, hslash, hlocate, hname, rfl⟩ := h
  simp only [write, hpath, hlocate, hname, hslash, bind, Except.bind]
  cases s.entry (folder.down name) <;> rfl

/-- Something is read only where a path leads. -/
theorem exists_leadsTo_of_read {contents : String} (h : s.read text = .ok (contents, t)) :
    ∃ p, s.LeadsTo text p := by
  obtain ⟨path, hpath, h⟩ := exists_of_bind_eq_ok h
  obtain ⟨target, hlocate, h⟩ := exists_of_bind_eq_ok h
  cases target with
  | folder => cases h
  | named folder name =>
    obtain ⟨_, hname, h⟩ := exists_of_bind_eq_ok h
    cases hslash : path.slash with
    | false => exact ⟨_, path, folder, name, hpath, hslash, hlocate, hname, rfl⟩
    | true =>
      rw [hslash] at h
      cases hentry : s.entry (folder.down name) <;> rw [hentry] at h <;> cases h

/-- Reading takes no more than what was left of the input. -/
structure Unwritten (s t : Surroundings) : Prop where
  files_eq : t.files = s.files
  shown_eq : t.shown = s.shown

theorem Unwritten.refl (s : Surroundings) : Unwritten s s :=
  ⟨rfl, rfl⟩

theorem Unwritten.trans {u : Surroundings} (h : Unwritten s t) (h' : Unwritten t u) :
    Unwritten s u :=
  ⟨h'.files_eq.trans h.files_eq, h'.shown_eq.trans h.shown_eq⟩

theorem unwritten_of_read {contents : String} (h : s.read text = .ok (contents, t)) :
    Unwritten s t := by
  obtain ⟨p, hp⟩ := exists_leadsTo_of_read h
  rw [hp.read_eq] at h
  cases hentry : s.entry p with
  | folder | nothing =>
    rw [hentry] at h
    cases h
  | file _ | sink | output =>
    rw [hentry] at h
    cases h
    exact .refl s
  | input =>
    rw [hentry] at h
    cases h
    exact ⟨rfl, rfl⟩

/-- Where files are the same, so are folders, and paths lead to the same places. -/
theorem Unwritten.leadsTo (h : Unwritten s t) (hs : s.LeadsTo text p) : t.LeadsTo text p := by
  refine LeadsTo.mono (fun q hq => ?_) hs
  rwa [hasFolder, h.files_eq]

section NewText

variable (hs : s.LeadsTo text p) (hp : p ∉ Place.devices) (hfolder : s.hasFolder p = false)

include hs hp hfolder

/-- Where neither a folder nor a device is, a text can be written. -/
theorem write_eq_put (contents : String) : s.write text contents = .ok (s.put p contents) := by
  rw [hs.write_eq, entry_of_not_mem_devices hp hfolder]
  cases s.files.lookup p <;> rfl

/-- What was written there is read back. -/
theorem read_put (contents : String) :
    (s.put p contents).read text = .ok (contents, s.put p contents) := by
  have hleads : (s.put p contents).LeadsTo text p := by
    refine LeadsTo.mono (fun q hq => ?_) hs
    rw [hasFolder_put, hq, Bool.true_or]
  have hfolder' : (s.put p contents).hasFolder p = false := hasFolder_put_self.trans hfolder
  rw [hleads.read_eq, entry_of_not_mem_devices hp hfolder', lookup_put, if_pos rfl]
  rfl

end NewText

/-! ## Commands on files in memory -/

theorem run_readFile (path : String) : (host.readFile path).run s =
    match s.read path with
    | .ok (text, t) => (.ok text, t)
    | .error fault => (.error fault, s) := by
  cases hread : s.read path with
  | error fault =>
    simp only [host, StateT.run_bind, StateT.run_get, pure_bind, hread]
    rfl
  | ok answer =>
    simp only [host, StateT.run_bind, StateT.run_get, pure_bind, hread]
    rfl

theorem run_writeFile (path text : String) : (host.writeFile path text).run s =
    match s.write path text with
    | .ok t => (.ok (), t)
    | .error fault => (.error fault, s) := by
  cases hwrite : s.write path text with
  | error fault =>
    simp only [host, StateT.run_bind, StateT.run_get, pure_bind, hwrite]
    rfl
  | ok t =>
    simp only [host, StateT.run_bind, StateT.run_get, pure_bind, hwrite]
    rfl

theorem unwritten_readFile (s : Surroundings) (path : String) :
    s.Unwritten ((host.readFile path).run s).2 := by
  rw [run_readFile]
  cases hread : s.read path with
  | error fault => exact .refl s
  | ok answer => exact unwritten_of_read hread

theorem unwritten_readInput (s : Surroundings) : s.Unwritten (host.readInput.run s).2 :=
  ⟨rfl, rfl⟩

end Surroundings

end ClassRules
