import ClassRules.Proofs.Sheet.Origins
import ClassRules.Proofs.Sheet.Trees
import ClassRules.Proofs.Token.Tiling

/-!
# Places that can be named

A message names the line and the column at which a node starts. Both are numbers of 64 bits, and a
text would have to be longer than any memory for them not to suffice.

## What this module delivers

- `Position.isCountable_behind`: the lines and columns of a text whose bytes can be counted can be
  counted as well.
- `Tree.StartIn`: all nodes of some trees start at places with a property.
- `parse_starts`: the nodes of a text start where its tokens do.
- `Sheet.isLocatable_read`: the place of every node of a sheet that was read can be named.
-/

set_option autoImplicit false

namespace ClassRules

open Text

/-! ## Lines and columns -/

theorem length_le_byteLength (cs : List Char) : cs.length ≤ byteLength cs := by
  induction cs with
  | nil => exact Nat.le_refl _
  | cons c cs ih =>
    have hpos := Char.utf8Size_pos c
    rw [List.length_cons, byteLength]
    omega

/-- There are no more lines than bytes, and no more characters in a line. -/
theorem Position.isCountable_behind {cs : List Char} (h : byteLength cs < largestCount) :
    (behind cs).isCountable = true := by
  have hlength := length_le_byteLength cs
  have hline : cs.count '\n' ≤ cs.length := List.count_le_length
  have hcolumn : (cs.reverse.takeWhile (· ≠ '\n')).length ≤ cs.length := by
    have hle := (List.takeWhile_sublist (· ≠ '\n') (l := cs.reverse)).length_le
    rwa [List.length_reverse] at hle
  rw [isCountable, Bool.and_eq_true, decide_eq_true_eq, decide_eq_true_eq]
  exact ⟨Nat.lt_of_le_of_lt (hline.trans hlength) h, Nat.lt_of_le_of_lt (hcolumn.trans hlength) h⟩

/-- Every token of a text starts at a place with a line and a column. -/
theorem isCountable_start {text : String} (h : byteLength text.toList < Position.largestCount)
    {token : Token} (hmem : token ∈ (tokenize text).tokens) :
    token.span.start.isCountable = true := by
  obtain ⟨earlier, later, hsplit⟩ := List.append_of_mem hmem
  rw [span_of_tokenize hsplit]
  apply Position.isCountable_behind
  exact Nat.lt_of_le_of_lt (byteLength_mono (charactersOf_begins hsplit)) h

/-! ## The nodes of a text -/

namespace Tree

/-- All nodes of some trees start at places with a property. -/
def StartIn (Q : Position → Prop) (ts : List Tree) : Prop :=
  ∀ depth, ∀ x ∈ walkForest depth ts, ∀ source ∈ x.2.2, Q source.span.start

variable {Q : Position → Prop}

theorem StartIn.nil : StartIn Q [] :=
  fun _ _ hx => absurd hx List.not_mem_nil

theorem walkForest_append (depth : Nat) (ts us : List Tree) :
    walkForest depth (ts ++ us) = walkForest depth ts ++ walkForest depth us := by
  induction ts with
  | nil => rfl
  | cons t ts ih => rw [List.cons_append, walkForest, walkForest, ih, List.append_assoc]

theorem StartIn.append {ts us : List Tree} (ht : StartIn Q ts) (hu : StartIn Q us) :
    StartIn Q (ts ++ us) := by
  intro depth x hx
  rw [walkForest_append] at hx
  exact (List.mem_append.1 hx).elim (ht depth x) (hu depth x)

theorem StartIn.node {content : Content} {source : Source} {children : List Tree}
    (hstart : Q source.span.start) (h : StartIn Q children) :
    StartIn Q [.node content (some source) children] := by
  intro depth x hx
  rw [walkForest, walkForest, List.append_nil, walk] at hx
  rcases List.mem_cons.1 hx with rfl | hx
  · rintro _ ⟨⟩
    exact hstart
  · exact h (depth + 1) x hx

theorem StartIn.mono {Q' : Position → Prop} {ts : List Tree} (h : StartIn Q ts)
    (hle : ∀ p, Q p → Q' p) : StartIn Q' ts :=
  fun depth x hx source hsource => hle _ (h depth x hx source hsource)

end Tree

open ClassRules.Tree

namespace Parser

/-- What has been read starts at places with a property, and so do the open blocks. -/
structure State.StartsIn (Q : Position → Prop) (s : State) : Prop where
  nodes : StartIn Q s.nodes
  frames : ∀ f ∈ s.frames, Q f.start ∧ StartIn Q f.before

theorem kept_startsIn (input : InputId) (Q : Position → Prop) :
    Kept input Q (State.StartsIn Q) where
  readTo s tokens h := by
    unfold State.readTo
    split
    · exact ⟨h.nodes, h.frames⟩
    · exact h
  report _ _ _ h := ⟨h.nodes, h.frames⟩
  addLeaf _ _ _ hstart h := ⟨h.nodes.append (.node hstart .nil), h.frames⟩
  openBlock _ _ _ _ _ hstart h := ⟨.nil, List.forall_mem_cons.2 ⟨⟨hstart, h.nodes⟩, h.frames⟩⟩
  closeFrame s frame frames hs h := by
    have hframes := h.frames
    rw [hs, List.forall_mem_cons] at hframes
    obtain ⟨⟨hstart, hbefore⟩, hrest⟩ := hframes
    exact ⟨hbefore.append (.node hstart h.nodes), hrest⟩

end Parser

/-- The nodes of a text start where its tokens do. -/
theorem parse_starts (input : InputId) (source : String) :
    StartIn (fun start => ∃ token ∈ (tokenize source).tokens, token.span.start = start)
      (parse input source).nodes :=
  parse_induction (Parser.kept_startsIn input _)
    ⟨.nil, fun _ hf => absurd hf List.not_mem_nil⟩ fun _ h => h.nodes

/-! ## The nodes of a sheet -/

namespace Sheet

/-- The texts are such that their bytes can be counted. -/
def AreCountable (texts : List (Input × String)) : Prop :=
  ∀ text ∈ texts, byteLength text.2.toList < Position.largestCount

variable {texts : List (Input × String)}

/-- All nodes of a sheet that was read start at places with a line and a column. -/
theorem startIn_forest_read (h : AreCountable texts) :
    StartIn (fun start => start.isCountable = true) (read texts).forest := by
  unfold read
  have hempty : StartIn (fun start => start.isCountable = true) empty.forest := StartIn.nil
  generalize hs : empty = s at hempty ⊢
  have hsound : s.IsSound := hs ▸ isSound_empty
  have hwhole : s.IsWhole := hs ▸ isWhole_empty
  clear hs
  induction texts generalizing s with
  | nil => exact hempty
  | cons text texts ih =>
    obtain ⟨hfirst, hrest⟩ := List.forall_mem_cons.1 h
    obtain ⟨hsound', hwhole'⟩ := addText_sound hsound hwhole text.1 text.2
    refine ih hrest _ ?_ hsound' hwhole'
    rw [hsound.forest_addText]
    refine hempty.append ((parse_starts _ text.2).mono ?_)
    rintro _ ⟨token, hmem, rfl⟩
    exact isCountable_start hfirst hmem

/-- The place of every node of a sheet that was read can be named. -/
theorem isLocatable_read (h : AreCountable texts) {id : NodeId} (hid : (read texts).Has id) :
    (read texts).isLocatable id = true := by
  rw [isLocatable, Option.all_eq_true]
  intro source hsource
  by_cases hroot : id = root
  · rw [hroot, (isTraced_read texts).source_root] at hsource
    cases hsource
  · obtain ⟨depth, hmem⟩ := (isSound_read texts).toIsForest.exists_mem_walkForest
      (hangsOn_root_read texts hid) hroot
    exact startIn_forest_read h 0 _ hmem source hsource

end Sheet

end ClassRules
