import ClassRules.Proofs.Lowering.Change
import ClassRules.Proofs.Lowering.ClockedSteps

/-!
# Changes and circles

Moves are checked: no node moves to a place under itself. Putting a node in the place of another is
not: where the first is above the second, it then hangs on itself, and the walks up from there never
end. Nor is a move of the root checked, which may come to hang on a node that was taken out. These
are the only ways to either.

## What this module delivers

- `Sheet.IsAcyclic`: no node is above itself. `Clocked.meets?_eq_none`: from a node that is, a walk
  up goes on for ever, unless it meets what it looks for.
- `Sheet.not_isAcyclic_replaceWith`: when a replacement closes a circle.
- `Change.Does`, `Change.does_after`: what each change makes of a sheet, a refused one being
  skipped.
- `Change.KeepsApart`, `Change.HangsRoot`: the two things that are not checked.
- `Change.changes_of_empty`: in any number of changes of a new sheet, they alone close circles and
  hang the root on something.
-/

set_option autoImplicit false

namespace ClassRules

namespace Sheet

variable {s : Sheet}

/-- No node is above itself. -/
def IsAcyclic (s : Sheet) : Prop :=
  ∀ id, ¬ Relation.TransGen (fun c p => s.parent c = some p) id id

theorem IsForest.isAcyclic (h : s.IsForest) : s.IsAcyclic := by
  intro id hcircle
  obtain ⟨p, hp, hpid⟩ := Relation.TransGen.head'_iff.1 hcircle
  exact h.not_hangsOn_child hp hpid

/-- The parent of a node on a circle stands on the circle. -/
theorem circle_parent {id p : NodeId} (hp : s.parent id = some p)
    (h : Relation.TransGen (fun c p => s.parent c = some p) id id) :
    Relation.TransGen (fun c p => s.parent c = some p) p p := by
  obtain ⟨q, hq, hqid⟩ := Relation.TransGen.head'_iff.1 h
  obtain rfl := Option.some.inj (hp.symm.trans hq)
  exact Relation.TransGen.tail' hqid hp

theorem IsForest.modify (h : s.IsForest) (id : NodeId) {f : Node → Node}
    (hparent : ∀ n, (f n).parent = n.parent) (hchildren : ∀ n, (f n).children = n.children) :
    (s.modify id f).IsForest := by
  have hranked : (s.modify id f).Ranked s.depth := by
    intro c p hp
    rw [s.parent_modify id hparent] at hp
    exact h.ranked_depth hp
  exact .of_ranked (h.toIsLinked.modify id hparent hchildren) hranked

section Replace

variable {old new p : NodeId} (h : s.IsForest) (hne : old ≠ new) (hp : s.parent old = some p)
  (hnew : s.Has new)
include h hne hp hnew

/-- A node that takes the place of one that hangs on it is above itself. -/
theorem not_isAcyclic_replaceWith (hon : s.HangsOn old new) :
    ¬ (s.replaceWith old new).IsAcyclic := by
  have hparent := parent_replaceWith hne hp hnew
  have hpold : ¬ s.HangsOn p old := h.not_hangsOn_child hp
  have hpnew : s.HangsOn p new := ((HangsOn.iff_of_parent hp).1 hon).resolve_left hne
  -- The way up from the place's parent to the node does not pass the place, so it is still there.
  have hway : ∀ x, s.HangsOn x new → ¬ s.HangsOn x old →
      (s.replaceWith old new).HangsOn x new := by
    intro x hx
    induction hx using Relation.ReflTransGen.head_induction_on with
    | refl => exact fun _ => HangsOn.refl _ new
    | @head x y hxy _ ih =>
      intro hold
      by_cases hxn : x = new
      · rw [hxn]
        exact HangsOn.refl _ new
      · have hxo : x ≠ old := fun e => hold (e ▸ HangsOn.refl s x)
        have hstep : (s.replaceWith old new).parent x = some y := by
          rw [hparent, if_neg hxo, if_neg hxn, hxy]
        exact (ih fun hy => hold (hy.head hxy)).head hstep
  intro hacyclic
  refine hacyclic new (Relation.TransGen.head' ?_ (hway p hpnew hpold))
  rw [hparent, if_neg (Ne.symm hne), if_pos rfl]

end Replace

end Sheet

/-- From a node on a circle, a walk up to something that is not on it never ends. -/
theorem Clocked.meets?_eq_none {s : Sheet} {id target : NodeId}
    (hcircle : Relation.TransGen (fun c p => s.parent c = some p) id id)
    (hout : ¬ s.HangsOn id target) (clock : Nat) : Clocked.meets? s target clock id = none := by
  induction clock generalizing id with
  | zero => rfl
  | succ clock ih =>
    obtain ⟨p, hp, -⟩ := Relation.TransGen.head'_iff.1 hcircle
    have hne : id ≠ target := by
      rintro rfl
      exact hout (Sheet.HangsOn.refl s id)
    rw [meets?, if_neg hne, hp]
    exact ih (Sheet.circle_parent hp hcircle) fun hon => hout (hon.head hp)

namespace Lowering.Change

variable {s t : Sheet} {p : Progress} {c : Change} {cs : List Change}

/-! ## What a change does -/

/-- The run behind a change. A refused change is skipped. -/
def after (c : Change) (p : Progress) : Progress :=
  match c.perform p with
  | .ok q => q
  | .error _ => p

/-- What a change makes of a sheet. -/
inductive Does (s : Sheet) : Change → Sheet → Prop where
  | refused {c : Change} (h : c.IsRefused s) : Does s c s
  | create (content : Content) (source : Option Source) :
      Does s (.create content source) (s.create content source).2
  | append {parent id : NodeId} (hout : ¬ s.HangsOn parent id) :
      Does s (.append parent id) (s.move parent id (· ++ [id]))
  /-- To stand behind itself, a node stays where it is. -/
  | stay (container id : NodeId) : Does s (.insertAfter container id id) s
  | insertAfter {container anchor id : NodeId} (hne : id ≠ anchor)
      (hout : ¬ s.HangsOn container id) :
      Does s (.insertAfter container anchor id) (s.move container id (Sheet.placeAfter anchor id))
  /-- There is no place to take. -/
  | keep {old new : NodeId} (h : old = new ∨ s.parent old = none) : Does s (.replaceWith old new) s
  | replaceWith {old new parent : NodeId} (hne : old ≠ new) (hp : s.parent old = some parent) :
      Does s (.replaceWith old new) (s.replaceWith old new)
  | remove (id : NodeId) : Does s (.remove id) (s.detach id)
  | setSource (id : NodeId) (source : Option Source) :
      Does s (.setSource id source) (s.setSource id source)
  | setContent (id : NodeId) (content : Content) :
      Does s (.setContent id content) (s.setContent id content)

/-- The nodes that a change names are in the sheet. -/
def IsNamed (s : Sheet) (c : Change) : Prop :=
  ∀ id ∈ c.nodes, s.Has id

instance (s : Sheet) (c : Change) : Decidable (c.IsNamed s) :=
  inferInstanceAs (Decidable (∀ id ∈ c.nodes, s.Has id))

theorem does_after (h : p.sheet.IsLinked) (hc : c.IsNamed p.sheet) :
    Does p.sheet c (c.after p).sheet := by
  by_cases href : c.IsRefused p.sheet
  · obtain ⟨fault, heq⟩ := perform_of_isRefused h hc href
    rw [after, heq]
    exact .refused href
  cases c with
  | create content source => exact .create content source
  | append parent id =>
    have hmeets : ¬ p.sheet.isAncestorOrSelf id parent = true := fun ha =>
      href ((h.isAncestorOrSelf_iff (hc parent List.mem_cons_self)).1 ha)
    rw [after, perform, Progress.append, Sheet.append, if_neg hmeets]
    exact .append href
  | insertAfter container anchor id =>
    by_cases heq : id = anchor
    · subst heq
      rw [after, perform, Progress.insertAfter, Sheet.insertAfter, if_pos rfl]
      exact .stay container id
    · have hout : ¬ p.sheet.HangsOn container id := fun hon => href ⟨heq, hon⟩
      have hmeets : ¬ p.sheet.isAncestorOrSelf id container = true := fun ha =>
        hout ((h.isAncestorOrSelf_iff (hc container List.mem_cons_self)).1 ha)
      rw [after, perform, Progress.insertAfter, Sheet.insertAfter, if_neg heq, if_neg hmeets]
      exact .insertAfter heq hout
  | replaceWith old new =>
    change Does p.sheet (.replaceWith old new) (p.sheet.replaceWith old new)
    by_cases heq : old = new
    · rw [Sheet.replaceWith, if_pos heq]
      exact .keep (.inl heq)
    · cases hold : p.sheet.parent old with
      | none =>
        rw [Sheet.replaceWith, if_neg heq, hold]
        exact .keep (.inr hold)
      | some parent => exact .replaceWith heq hold
  | remove id => exact .remove id
  | setSource id source => exact .setSource id source
  | setContent id content => exact .setContent id content

/-! ## What is not checked -/

/-- The node that is to take the place of another is not above it. -/
def KeepsApart (s : Sheet) : Change → Prop
  | .replaceWith old new => s.HangsOn old new → old = new
  | _ => True

/-- The change hangs the root on something. -/
def HangsRoot (s : Sheet) : Change → Prop
  | .append parent id => id = Sheet.root ∧ ¬ s.HangsOn parent id
  | .insertAfter container anchor id =>
    id = Sheet.root ∧ id ≠ anchor ∧ ¬ s.HangsOn container id
  | .replaceWith old new => new = Sheet.root ∧ old ≠ new ∧ s.parent old ≠ none
  | _ => False

theorem Does.isForest (hd : Does s c t) (h : s.IsForest) (hc : c.IsNamed s)
    (hapart : c.KeepsApart s) : t.IsForest := by
  cases hd with
  | refused => exact h
  | create content source => exact h.create content source
  | @append parent id hout =>
    exact h.move (hc parent (by simp [nodes])) (hc id (by simp [nodes])) hout
      (Sheet.adds_append id)
  | stay => exact h
  | @insertAfter container anchor id hne hout =>
    exact h.move (hc container (by simp [nodes])) (hc id (by simp [nodes])) hout
      (Sheet.adds_placeAfter anchor id)
  | keep => exact h
  | @replaceWith old new parent hne hp =>
    exact h.replaceWith hne hp (hc new (by simp [nodes])) fun hon => hne (hapart hon)
  | remove id => exact h.detach id
  | setSource id source => exact h.modify id (fun _ => rfl) fun _ => rfl
  | setContent id content => exact h.modify id (fun _ => rfl) fun _ => rfl

/-- A change closes a circle exactly if it does not keep its nodes apart. -/
theorem Does.isAcyclic_iff (hd : Does s c t) (h : s.IsForest) (hc : c.IsNamed s) :
    t.IsAcyclic ↔ c.KeepsApart s := by
  refine ⟨fun hacyclic => ?_, fun hapart => (hd.isForest h hc hapart).isAcyclic⟩
  cases c with
  | replaceWith old new =>
    intro hon
    by_contra hne
    cases hd with
    | refused href => exact href
    | keep hstay =>
      rcases hstay with heq | hnone
      · exact hne heq
      · exact hne ((Sheet.HangsOn.iff_eq_of_parent_none hnone).1 hon)
    | replaceWith hne hp =>
      exact Sheet.not_isAcyclic_replaceWith h hne hp (hc new (by simp [nodes])) hon hacyclic
  | create content source => trivial
  | append parent id => trivial
  | insertAfter container anchor id => trivial
  | remove id => trivial
  | setSource id source => trivial
  | setContent id content => trivial

/-- A root that hangs on nothing comes to hang on something exactly if the change hangs it there. -/
theorem Does.parent_root_iff (hd : Does s c t) (hc : c.IsNamed s)
    (hroot : s.parent Sheet.root = none) : t.parent Sheet.root = none ↔ ¬ c.HangsRoot s := by
  cases hd with
  | refused href =>
    -- What is refused hangs nothing anywhere, and so not the root.
    refine iff_of_true hroot ?_
    cases c with
    | append parent id => exact fun hh => hh.2 href
    | insertAfter container anchor id => exact fun hh => hh.2.2 href.2
    | _ => exact href.elim
  | create content source =>
    rw [Sheet.parent_create]
    exact iff_of_true hroot id
  | @append parent id hout =>
    rw [Sheet.parent_move (hc id (by simp [nodes]))]
    by_cases hid : id = Sheet.root
    · simp [HangsRoot, hid, hid ▸ hout]
    · simp [HangsRoot, hid, Ne.symm hid, hroot]
  | stay container id => exact iff_of_true hroot fun hh => hh.2.1 rfl
  | @insertAfter container anchor id hne hout =>
    rw [Sheet.parent_move (hc id (by simp [nodes]))]
    by_cases hid : id = Sheet.root
    · simp [HangsRoot, hid, hid ▸ hout, hid ▸ hne]
    · simp [HangsRoot, hid, Ne.symm hid, hroot]
  | keep hstay =>
    refine iff_of_true hroot fun hh => ?_
    rcases hstay with heq | hnone
    · exact hh.2.1 heq
    · exact hh.2.2 hnone
  | @replaceWith old new parent hne hp =>
    have hold : Sheet.root ≠ old := by
      rintro rfl
      rw [hroot] at hp
      cases hp
    rw [Sheet.parent_replaceWith hne hp (hc new (by simp [nodes])), if_neg hold]
    by_cases hnew : new = Sheet.root
    · simp [HangsRoot, hnew, hnew ▸ hne, hp]
    · simp [HangsRoot, hnew, Ne.symm hnew, hroot]
  | remove id =>
    rw [Sheet.parent_detach, hroot]
    exact iff_of_true (by split <;> rfl) fun hh => hh
  | setSource id source =>
    rw [Sheet.setSource, Sheet.parent_modify]
    · exact iff_of_true hroot fun hh => hh
    · exact fun _ => rfl
  | setContent id content =>
    rw [Sheet.setContent, Sheet.parent_modify]
    · exact iff_of_true hroot fun hh => hh
    · exact fun _ => rfl

/-! ## Any number of changes -/

theorem isLinked_after (h : p.sheet.IsLinked) (hc : c.IsNamed p.sheet) :
    (c.after p).sheet.IsLinked := by
  rw [after]
  cases hp : c.perform p with
  | ok q => exact Leads.isLinked ⟨c, hc, hp⟩ h
  | error stopped => exact h

/-- The run behind some changes, those that are refused being skipped. -/
def afterAll (cs : List Change) (p : Progress) : Progress :=
  cs.foldl (fun p c => c.after p) p

/-- Each of some changes is as `P` says, of the sheet that it is made to. -/
def AllAlong (P : Sheet → Change → Prop) : Progress → List Change → Prop
  | _, [] => True
  | p, c :: cs => P p.sheet c ∧ AllAlong P (c.after p) cs

/-- A property `Q` that a change keeps exactly if it is as `P` says holds all along exactly if all
changes are so. To say when a change keeps `Q`, something more may be needed of the sheet, which `J`
is. -/
theorem forall_take_iff {J Q : Sheet → Prop} {P : Sheet → Change → Prop}
    (hQ : ∀ {s}, J s → Q s)
    (hstep : ∀ {p : Progress} {c}, J p.sheet → c.IsNamed p.sheet →
      (Q (c.after p).sheet ↔ P p.sheet c) ∧ (P p.sheet c → J (c.after p).sheet))
    (hp : J p.sheet) (hn : AllAlong IsNamed p cs) :
    (∀ k, Q (afterAll (cs.take k) p).sheet) ↔ AllAlong P p cs := by
  induction cs generalizing p with
  | nil => exact iff_of_true (fun k => by rw [List.take_nil]; exact hQ hp) trivial
  | cons c cs ih =>
    obtain ⟨hiff, hkeep⟩ := hstep hp hn.1
    constructor
    · intro hall
      have hc : P p.sheet c := hiff.1 (hall 1)
      exact ⟨hc, (ih (hkeep hc) hn.2).1 fun k => hall (k + 1)⟩
    · rintro ⟨hc, hcs⟩ k
      cases k with
      | zero => exact hQ hp
      | succ k => exact (ih (hkeep hc) hn.2).2 hcs k

/-- The walks from a node end, and give what they do when they are bounded by the number of
nodes. -/
structure WalksEnd (s : Sheet) (id : NodeId) : Prop where
  attached : ∀ᶠ clock in Filter.atTop, Clocked.isAttached? clock s id = some (s.isAttached id)
  above : ∀ target, ∀ᶠ clock in Filter.atTop,
    Clocked.meets? s target clock id = some (s.isAncestorOrSelf target id)
  below : ∀ᶠ clock in Filter.atTop,
    Clocked.walk? s clock (s.children id) = some (s.descendants id)

/-- A new sheet is changed in any number of ways, refused changes being skipped. Then no node ever
is above itself if and only if no node is put in the place of one that hangs on it, and the root
never has a parent if and only if it is never moved. As long as no node is above itself, the walks
from all nodes end. -/
theorem changes_of_empty (cs : List Change) (hn : AllAlong IsNamed { sheet := .empty } cs) :
    let sheetAt (k : Nat) : Sheet := (afterAll (cs.take k) { sheet := .empty }).sheet
    ((∀ k, (sheetAt k).IsAcyclic) ↔ AllAlong KeepsApart { sheet := .empty } cs) ∧
    ((∀ k, (sheetAt k).parent Sheet.root = none) ↔
      AllAlong (fun s c => ¬ c.HangsRoot s) { sheet := .empty } cs) ∧
    (AllAlong KeepsApart { sheet := .empty } cs →
      ∀ k id, (sheetAt k).Has id → WalksEnd (sheetAt k) id) := by
  intro sheetAt
  have hempty : Sheet.empty.IsForest := Sheet.isSound_empty.toIsForest
  have hforest : (∀ k, (sheetAt k).IsForest) ↔ AllAlong KeepsApart { sheet := .empty } cs := by
    refine forall_take_iff (J := Sheet.IsForest) (fun h => h) (fun h hc => ?_) hempty hn
    have hd := does_after h.toIsLinked hc
    exact ⟨⟨fun ht => (hd.isAcyclic_iff h hc).1 ht.isAcyclic, hd.isForest h hc⟩, hd.isForest h hc⟩
  refine ⟨?_, ?_, ?_⟩
  · refine forall_take_iff (J := Sheet.IsForest) (fun h => h.isAcyclic) (fun h hc => ?_) hempty hn
    have hd := does_after h.toIsLinked hc
    exact ⟨hd.isAcyclic_iff h hc, hd.isForest h hc⟩
  · refine forall_take_iff (J := fun s => s.IsLinked ∧ s.parent Sheet.root = none)
      (fun h => h.2) (fun h hc => ?_) ⟨hempty.toIsLinked, rfl⟩ hn
    have hiff := (does_after h.1 hc).parent_root_iff hc h.2
    exact ⟨hiff, fun hP => ⟨isLinked_after h.1 hc, hiff.2 hP⟩⟩
  · intro hapart k id hid
    have h := hforest.2 hapart k
    exact ⟨Clocked.isAttached?_ends h hid, fun target => Clocked.meets?_ends h target hid,
      Clocked.walk?_ends h id⟩

/-- For instance, three rules are put one in the other, and a fourth in the place of the first. -/
theorem changes_of_empty_rules :
    let rule (name : String) : Change := .create (.rule name) none
    let cs := [rule ".a", rule ".b", rule ".c", rule ".d", .append Sheet.root ⟨1⟩, .append ⟨1⟩ ⟨2⟩,
      .append ⟨2⟩ ⟨3⟩, .append ⟨3⟩ ⟨1⟩, .replaceWith ⟨1⟩ ⟨4⟩]
    AllAlong IsNamed { sheet := .empty } cs ∧
      (afterAll cs { sheet := .empty }).sheet.parent ⟨4⟩ = some Sheet.root ∧
      (afterAll cs { sheet := .empty }).sheet.IsAcyclic := by
  intro rule cs
  have hn : AllAlong IsNamed { sheet := .empty } cs := by
    simp only [cs, AllAlong]
    decide
  have hapart : AllAlong KeepsApart { sheet := .empty } cs := by
    simp only [cs, AllAlong, KeepsApart, true_and, and_true]
    intro hon
    -- The first rule hangs on the root alone.
    rcases (Sheet.HangsOn.iff_of_parent (p := Sheet.root) (by decide)).1 hon with heq | hroot
    · exact heq
    · exact absurd ((Sheet.HangsOn.iff_eq_of_parent_none (by decide)).1 hroot) (by decide)
  exact ⟨hn, by decide, (changes_of_empty cs hn).1.2 hapart cs.length⟩

/-- Of three rules, each in the one before it, the first is put in the place of the last, and the
root is appended to a rule that hangs on nothing. -/
theorem exists_circle_of_changes :
    let rule (name : String) : Change := .create (.rule name) none
    let cs := [rule ".a", rule ".b", rule ".c", .append ⟨1⟩ ⟨2⟩, .append ⟨2⟩ ⟨3⟩,
      .replaceWith ⟨3⟩ ⟨1⟩, rule ".d", .append ⟨4⟩ Sheet.root]
    let s := (afterAll cs { sheet := .empty }).sheet
    AllAlong IsNamed { sheet := .empty } cs ∧ ¬ s.IsAcyclic ∧
      (∀ clock, Clocked.isAttached? clock s ⟨1⟩ = none) ∧ s.parent Sheet.root = some ⟨4⟩ := by
  intro rule cs s
  have hn : AllAlong IsNamed { sheet := .empty } cs := by
    simp only [cs, AllAlong]
    decide
  have hone : s.parent ⟨1⟩ = some ⟨2⟩ := by decide
  have htwo : s.parent ⟨2⟩ = some ⟨1⟩ := by decide
  have hcircle : Relation.TransGen (fun c p => s.parent c = some p) ⟨1⟩ ⟨1⟩ :=
    .tail (.single hone) htwo
  have hout : ¬ s.HangsOn ⟨1⟩ Sheet.root := by
    have honly : ∀ x, s.HangsOn ⟨1⟩ x → x = ⟨1⟩ ∨ x = ⟨2⟩ := by
      intro x hx
      induction hx with
      | refl => exact .inl rfl
      | tail _ hp ih =>
        rcases ih with rfl | rfl
        · exact .inr (Option.some.inj (hp.symm.trans hone))
        · exact .inl (Option.some.inj (hp.symm.trans htwo))
    exact fun hroot => absurd (honly _ hroot) (by decide)
  exact ⟨hn, fun hacyclic => hacyclic _ hcircle, Clocked.meets?_eq_none hcircle hout, by decide⟩

end Lowering.Change

end ClassRules
