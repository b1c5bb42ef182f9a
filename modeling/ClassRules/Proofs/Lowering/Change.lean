import ClassRules.Lowering.Progress
import ClassRules.Proofs.Sheet.Read

/-!
# Changes of a sheet

Nodes are added, moved, taken out and rewritten in seven ways. The nodes that a change names may
coincide or hang on one another in any way, and the ways up may even go round in a circle: as long
as the links of parents and children agree before a change, they agree after it.

## What this module delivers

- `Change`, `Change.perform`: the seven changes as data, and what each does to the sheet of a run.
- `Change.IsRefused`: the moves to a place under the moved node itself.
- `Change.perform_of_isRefused`: such a move stops the run, and the sheet stays as it was.
- `Change.perform_of_not_isRefused`: every other change goes through, and the links still agree.
- `Change.perform_isLinked`: both together; `Change.isLinked_of_changes`: any number of changes.
-/

set_option autoImplicit false

namespace ClassRules

/-! ## Links of a sheet with one changed node -/

theorem Sheet.parent_modify (s : Sheet) (id : NodeId) {f : Node → Node}
    (hparent : ∀ n, (f n).parent = n.parent) (x : NodeId) :
    (s.modify id f).parent x = s.parent x := by
  simp only [Sheet.parent, Sheet.node_modify]
  split
  · exact hparent _
  · rfl

/-- A change of a node that leaves its links alone leaves all links alone. -/
theorem Sheet.IsLinked.modify {s : Sheet} (h : s.IsLinked) (id : NodeId) {f : Node → Node}
    (hparent : ∀ n, (f n).parent = n.parent) (hchildren : ∀ n, (f n).children = n.children) :
    (s.modify id f).IsLinked := by
  have hp := s.parent_modify id hparent
  have hc : ∀ x, (s.modify id f).children x = s.children x := by
    intro x
    simp only [Sheet.children, Sheet.node_modify]
    split
    · exact hchildren _
    · rfl
  constructor
  case mem_children_iff =>
    intro p c
    rw [hp, hc, h.mem_children_iff]
  case nodup_children =>
    intro p
    rw [hc]
    exact h.nodup_children p

namespace Lowering

/-- A change of a sheet, with the nodes and values that it is made with. -/
inductive Change where
  /-- A new node that hangs on nothing. -/
  | create (content : Content) (source : Option Source)
  /-- A node moves to the end of the children of `parent`. -/
  | append (parent id : NodeId)
  /-- A node moves behind `anchor` among the children of `container`. -/
  | insertAfter (container anchor id : NodeId)
  /-- The node `new` takes the place of `old`. -/
  | replaceWith (old new : NodeId)
  /-- A node is taken out. -/
  | remove (id : NodeId)
  /-- A node comes from another place. -/
  | setSource (id : NodeId) (source : Option Source)
  /-- A node says something else. -/
  | setContent (id : NodeId) (content : Content)
  deriving DecidableEq, Repr

namespace Change

/-- The nodes that a change names. -/
def nodes : Change → List NodeId
  | .create _ _ => []
  | .append parent id => [parent, id]
  | .insertAfter container anchor id => [container, anchor, id]
  | .replaceWith old new => [old, new]
  | .remove id => [id]
  | .setSource id _ => [id]
  | .setContent id _ => [id]

/-- Makes a change to the sheet of a run. -/
def perform : Change → Progress → Except Stopped Progress
  | .create content source, p => .ok { p with sheet := (p.sheet.create content source).2 }
  | .append parent id, p => p.append parent id
  | .insertAfter container anchor id, p => p.insertAfter container anchor id
  | .replaceWith old new, p => .ok (p.replaceWith old new)
  | .remove id, p => .ok (p.remove id)
  | .setSource id source, p => .ok { p with sheet := p.sheet.setSource id source }
  | .setContent id content, p => .ok { p with sheet := p.sheet.setContent id content }

/-- A node is to move to a place under itself. To stand behind itself it need not move. -/
def IsRefused (s : Sheet) : Change → Prop
  | .append parent id => s.HangsOn parent id
  | .insertAfter container anchor id => id ≠ anchor ∧ s.HangsOn container id
  | _ => False

variable {p : Progress} {c : Change}

/-! ## One change -/

/-- A refused change stops the run where it is. -/
theorem perform_of_isRefused (h : p.sheet.IsLinked) (hc : ∀ id ∈ c.nodes, p.sheet.Has id)
    (href : c.IsRefused p.sheet) :
    ∃ fault : MoveFault, c.perform p = .error ⟨.move fault, p⟩ := by
  cases c with
  | append parent id =>
    have hparent : p.sheet.Has parent := hc parent List.mem_cons_self
    have hmeets : p.sheet.isAncestorOrSelf id parent = true :=
      (h.isAncestorOrSelf_iff hparent).2 href
    refine ⟨.append, ?_⟩
    rw [perform, Progress.append, Sheet.append, if_pos hmeets]
    rfl
  | insertAfter container anchor id =>
    have hcontainer : p.sheet.Has container := hc container List.mem_cons_self
    have hmeets : p.sheet.isAncestorOrSelf id container = true :=
      (h.isAncestorOrSelf_iff hcontainer).2 href.2
    refine ⟨.insertAfter, ?_⟩
    rw [perform, Progress.insertAfter, Sheet.insertAfter, if_neg href.1, if_pos hmeets]
    rfl
  | create content source => exact href.elim
  | replaceWith old new => exact href.elim
  | remove id => exact href.elim
  | setSource id source => exact href.elim
  | setContent id content => exact href.elim

/-- Every other change goes through, and the links agree afterwards. -/
theorem perform_of_not_isRefused (h : p.sheet.IsLinked) (hc : ∀ id ∈ c.nodes, p.sheet.Has id)
    (href : ¬ c.IsRefused p.sheet) :
    ∃ q : Progress, c.perform p = .ok q ∧ q.sheet.IsLinked := by
  cases c with
  | create content source => exact ⟨_, rfl, h.create content source⟩
  | append parent id =>
    have hparent : p.sheet.Has parent := hc parent List.mem_cons_self
    have hid : p.sheet.Has id := hc id (by simp [nodes])
    have hmeets : ¬ p.sheet.isAncestorOrSelf id parent = true := fun ha =>
      href ((h.isAncestorOrSelf_iff hparent).1 ha)
    have hmoved : (p.sheet.move parent id (· ++ [id])).IsLinked :=
      h.move hparent hid (Sheet.adds_append id)
    refine ⟨{ p with sheet := p.sheet.move parent id (· ++ [id]) }, ?_, hmoved⟩
    rw [perform, Progress.append, Sheet.append, if_neg hmeets]
    rfl
  | insertAfter container anchor id =>
    have hcontainer : p.sheet.Has container := hc container List.mem_cons_self
    have hid : p.sheet.Has id := hc id (by simp [nodes])
    by_cases heq : id = anchor
    · -- The node stays where it is, wherever that may be.
      refine ⟨p, ?_, h⟩
      rw [perform, Progress.insertAfter, Sheet.insertAfter, if_pos heq]
      rfl
    · have hmeets : ¬ p.sheet.isAncestorOrSelf id container = true := fun ha =>
        href ⟨heq, (h.isAncestorOrSelf_iff hcontainer).1 ha⟩
      have hmoved : (p.sheet.move container id (Sheet.placeAfter anchor id)).IsLinked :=
        h.move hcontainer hid (Sheet.adds_placeAfter anchor id)
      refine ⟨{ p with sheet := p.sheet.move container id (Sheet.placeAfter anchor id) }, ?_,
        hmoved⟩
      rw [perform, Progress.insertAfter, Sheet.insertAfter, if_neg heq, if_neg hmeets]
      rfl
  | replaceWith old new =>
    -- This change checks nothing, so it is never refused.
    refine ⟨p.replaceWith old new, rfl, ?_⟩
    have hnew : p.sheet.Has new := hc new (by simp [nodes])
    change (p.sheet.replaceWith old new).IsLinked
    by_cases heq : old = new
    · rwa [Sheet.replaceWith, if_pos heq]
    · cases hold : p.sheet.parent old with
      | none => rwa [Sheet.replaceWith, if_neg heq, hold]
      | some parent => exact h.replaceWith heq hold hnew
  | remove id => exact ⟨_, rfl, h.detach id⟩
  | setSource id source => exact ⟨_, rfl, h.modify id (fun _ => rfl) fun _ => rfl⟩
  | setContent id content => exact ⟨_, rfl, h.modify id (fun _ => rfl) fun _ => rfl⟩

/-- Whatever nodes of the sheet a change names, it either keeps the links of parents and children in
agreement, or it is refused and leaves all as it was. -/
theorem perform_isLinked (c : Change) (h : p.sheet.IsLinked)
    (hc : ∀ id ∈ c.nodes, p.sheet.Has id) :
    match c.perform p with
    | .ok q => ¬ c.IsRefused p.sheet ∧ q.sheet.IsLinked
    | .error stopped => c.IsRefused p.sheet ∧ stopped.progress = p := by
  by_cases href : c.IsRefused p.sheet
  · obtain ⟨fault, heq⟩ := perform_of_isRefused h hc href
    rw [heq]
    exact ⟨href, rfl⟩
  · obtain ⟨q, heq, hq⟩ := perform_of_not_isRefused h hc href
    rw [heq]
    exact ⟨href, hq⟩

/-- For instance, a node takes the place of its child, and so comes to hang on itself. It cannot be
appended to the child. -/
theorem perform_isLinked_child :
    let s := Sheet.empty.addForest Sheet.root
      [.node (.rule ".a") none [.node (.rule ".b") none []]]
    (∃ q, (replaceWith ⟨2⟩ ⟨1⟩).perform { sheet := s } = .ok q ∧ q.sheet.IsLinked ∧
      q.sheet.parent ⟨1⟩ = some ⟨1⟩) ∧
    ∃ e, (append ⟨2⟩ ⟨1⟩).perform { sheet := s } = .error e ∧ e.progress = { sheet := s } := by
  intro s
  have hlinked : s.IsLinked :=
    (Sheet.isSound_empty.addForest
      (by simp [Tree.EverywhereIn, Tree.Everywhere, Tree.Carries, Content.carries])).toIsLinked
  have hreplace := perform_isLinked (p := { sheet := s }) (replaceWith ⟨2⟩ ⟨1⟩) hlinked (by decide)
  have happend := perform_isLinked (p := { sheet := s }) (append ⟨2⟩ ⟨1⟩) hlinked (by decide)
  exact ⟨⟨_, rfl, hreplace.2, by decide⟩, _, rfl, happend.2⟩

/-! ## Any number of changes -/

/-- A change of the sheet at some of its nodes goes through. -/
def Leads (p q : Progress) : Prop :=
  ∃ c : Change, (∀ id ∈ c.nodes, p.sheet.Has id) ∧ c.perform p = .ok q

theorem Leads.isLinked {q : Progress} (hpq : Leads p q) (h : p.sheet.IsLinked) :
    q.sheet.IsLinked := by
  obtain ⟨c, hc, hq⟩ := hpq
  by_cases href : c.IsRefused p.sheet
  · obtain ⟨fault, heq⟩ := perform_of_isRefused h hc href
    cases heq.symm.trans hq
  · obtain ⟨q', heq, hq'⟩ := perform_of_not_isRefused h hc href
    cases heq.symm.trans hq
    exact hq'

/-- However many changes are made, the links agree in the end if they did at first. -/
theorem isLinked_of_changes {q : Progress} (hpq : Relation.ReflTransGen Leads p q)
    (h : p.sheet.IsLinked) : q.sheet.IsLinked := by
  induction hpq with
  | refl => exact h
  | tail _ hstep ih => exact hstep.isLinked ih

end Change

end Lowering

end ClassRules
