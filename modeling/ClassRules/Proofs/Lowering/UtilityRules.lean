import ClassRules.Proofs.ItemList.Pieces
import ClassRules.Proofs.Lowering.StateOrder
import ClassRules.Proofs.Sheet.Places

/-!
# What becomes of utilities

The pass over the utilities puts a rule in the place of each, with what stood in it, so that the
sheet keeps its shape. The list of utilities is made before the pass begins; one that stands in
another one is moved along before its turn comes.

## What this module delivers

- `shortForms`: the sizes of utilities that are known, with their short forms.
- `UtilityItem`: what an item of a utility says of its class, and what there is to warn of.
  `utilityItem_of_mem`: every item says something, as it has a first word.
- `UtilitiesReplaced`: where everything is and what it says once some utilities are lowered.
  `UtilitiesReplaced.next`: one utility more; `UtilitiesReplaced.utilities_eq`: the utilities of
  the text are then those that are left.
- `lowerUtilities_rules`: the pass over a sheet that was read goes up to the first utility without
  items, or through. What comes of it, and the warnings, are as said above.
-/

set_option autoImplicit false

namespace ClassRules.Lowering

open Sheet

variable {cx : Context} {s t : Sheet}

/-! ## The items of a utility -/

/-- The sizes of utilities with their short forms. All others are unknown. -/
def shortForms : List (String × String) :=
  [("small", "sm"), ("medium", "md"), ("large", "lg")]

theorem utilityVariant?_eq_some_iff {size short : String} :
    utilityVariant? size = some short ↔ (size, short) ∈ shortForms := by
  constructor
  · intro h
    unfold utilityVariant? at h
    split at h
    · simp [shortForms, ← Option.some.inj h]
    · simp [shortForms, ← Option.some.inj h]
    · simp [shortForms, ← Option.some.inj h]
    · cases h
  · simp only [shortForms, List.mem_cons, Prod.mk.injEq, List.not_mem_nil, or_false]
    rintro (⟨rfl, rfl⟩ | ⟨rfl, rfl⟩ | ⟨rfl, rfl⟩) <;> rfl

theorem utilityVariant?_eq_none_iff {size : String} :
    utilityVariant? size = none ↔ ∀ short, (size, short) ∉ shortForms := by
  simp only [← utilityVariant?_eq_some_iff, Option.eq_none_iff_forall_ne_some, ne_eq]

/-- What an item of a utility says of its class, and what there is to warn of. The first word is a
name and the second one a size. A size without a short form leaves its separator behind. -/
inductive UtilityItem : String → String → List String → Prop where
  | plain {item name : String} : splitSpace item = [name] → name ≠ "" →
      UtilityItem item (".u-" ++ name) []
  | sized {item name size short : String} {more : List String} :
      splitSpace item = name :: size :: more → name ≠ "" → (size, short) ∈ shortForms →
      UtilityItem item (".u-" ++ short ++ "-" ++ name)
        (if more = [] then [] else ["Too many parameters for @utility"])
  | unknown {item name size : String} {more : List String} :
      splitSpace item = name :: size :: more → name ≠ "" →
      (∀ short, (size, short) ∉ shortForms) →
      UtilityItem item (".u-" ++ "-" ++ name)
        ((if more = [] then [] else ["Too many parameters for @utility"]) ++
          ["Unknown variant: " ++ size])

/-- Items have a first word. -/
theorem exists_words {params item : String} (h : item ∈ splitComma params) :
    ∃ name words, splitSpace item = name :: words ∧ name ≠ "" := by
  obtain ⟨htrimmed, hne⟩ := ItemList.isTrimmed_of_mem_split h
  obtain ⟨c, cs, hitem⟩ := List.exists_cons_of_ne_nil hne
  have hblank : Text.isBlank c = false := htrimmed.head c (by rw [hitem]; rfl)
  have hsome : splitSpace item ≠ [] := ItemList.split_ne_nil hitem hblank hblank
  obtain ⟨name, words, hwords⟩ := List.exists_cons_of_ne_nil hsome
  have hname : name ∈ splitSpace item := hwords ▸ List.mem_cons_self
  refine ⟨name, words, hwords, ?_⟩
  rintro rfl
  exact (ItemList.isTrimmed_of_mem_split hname).2 rfl

/-- The class and the warnings of an item are those that it says. -/
theorem utilityItem_of_mem {params item : String} (h : item ∈ splitComma params) :
    UtilityItem item (utilitySelector (splitSpace item)) (utilityWarnings (splitSpace item)) := by
  obtain ⟨name, words, hwords, hname⟩ := exists_words h
  rw [hwords]
  cases words with
  | nil => exact .plain hwords hname
  | cons size more =>
    have hmany : (if 2 < (name :: size :: more).length then [tooManyParameters] else []) =
        if more = [] then [] else [tooManyParameters] := by
      cases more with
      | nil => rfl
      | cons word more => simp
    cases hsize : utilityVariant? size with
    | some short =>
      have hclass : utilitySelector (name :: size :: more) = ".u-" ++ short ++ "-" ++ name := by
        simp [utilitySelector, hsize, String.append_assoc]
      have hwarnings : utilityWarnings (name :: size :: more) =
          if more = [] then [] else [tooManyParameters] := by
        rw [utilityWarnings, hmany]
        simp [hsize]
      rw [hclass, hwarnings]
      exact .sized hwords hname (utilityVariant?_eq_some_iff.1 hsize)
    | none =>
      have hclass : utilitySelector (name :: size :: more) = ".u-" ++ "-" ++ name := by
        simp only [utilitySelector, List.getElem?_cons_succ, List.getElem?_cons_zero, hsize,
          Option.getD_none, List.head?_cons, Option.getD_some, String.empty_append]
      have hwarnings : utilityWarnings (name :: size :: more) =
          (if more = [] then [] else [tooManyParameters]) ++ [unknownVariant size] := by
        rw [utilityWarnings, hmany]
        simp [hsize]
      rw [hclass, hwarnings]
      exact .unknown hwords hname (utilityVariant?_eq_none_iff.1 hsize)

/-- The warnings about a utility, item by item. -/
def utilityRemarks (s : Sheet) (u : NodeId) : List Warning :=
  (splitComma (s.params u)).flatMap fun item =>
    (utilityWarnings (splitSpace item)).map fun message => ⟨message, s.location? u⟩

/-! ## Some utilities are lowered -/

/-- The utilities of the text. -/
abbrev Context.utilities (cx : Context) (s : Sheet) : List NodeId :=
  cx.find s root .utility

/-- The utilities `done` are lowered: there is a rule in the place of each, and nothing else has
changed. -/
structure UtilitiesReplaced (cx : Context) (s : Sheet) (done : List NodeId) (t : Sheet) :
    Prop where
  sound : t.IsSound
  size_eq : t.nodes.size = s.nodes.size + done.length
  inputs_eq : t.inputs = s.inputs
  content_old : ∀ x, s.Has x → t.content x = s.content x
  source_old : ∀ x, s.Has x → t.source x = s.source x
  content_new : ∀ u ∈ done, t.content (ruleFor s (cx.utilities s) u) =
    .rule (", ".intercalate ((splitComma (s.params u)).map fun item =>
      utilitySelector (splitSpace item)))
  source_new : ∀ u ∈ done, t.source (ruleFor s (cx.utilities s) u) = s.source u
  /-- The children are those that were there, in their order, with the rules in their places. -/
  children_eq : ∀ x, s.Has x → t.children (standIn s (cx.utilities s) done x) =
    (s.children x).map (standIn s (cx.utilities s) done)
  parent_gone : ∀ u ∈ done, t.parent u = none
  children_gone : ∀ u ∈ done, t.children u = []

/-- Before the first utility is lowered, all is as it was. -/
theorem UtilitiesReplaced.nil (hs : s.IsSound) : UtilitiesReplaced cx s [] s := by
  constructor
  case sound => exact hs
  case size_eq => rfl
  case inputs_eq => rfl
  case content_old => exact fun _ _ => rfl
  case source_old => exact fun _ _ => rfl
  case content_new => exact fun _ hmem => absurd hmem List.not_mem_nil
  case source_new => exact fun _ hmem => absurd hmem List.not_mem_nil
  case children_eq =>
    intro x _
    rw [standIn_of_not_mem List.not_mem_nil]
    exact ((List.map_congr_left fun _ _ => standIn_of_not_mem List.not_mem_nil).trans
      (List.map_id' _)).symm
  case parent_gone => exact fun _ hmem => absurd hmem List.not_mem_nil
  case children_gone => exact fun _ hmem => absurd hmem List.not_mem_nil

section Replaced

variable {done rest : List NodeId} {a : NodeId} (hs : s.IsSound)
  (hus : cx.utilities s = done ++ rest) (h : UtilitiesReplaced cx s done t)

theorem isA_of_mem_utilities {u : NodeId} (hu : u ∈ cx.utilities s) :
    cx.isA s .utility u = true :=
  (Context.mem_find_iff.1 hu).2

theorem has_of_mem_utilities {u : NodeId} (hu : u ∈ cx.utilities s) : s.Has u :=
  Context.has_of_isA (isA_of_mem_utilities hu)

include hs in
theorem root_not_mem_utilities : root ∉ cx.utilities s := fun hmem => by
  have hisA := isA_of_mem_utilities hmem
  rw [Context.isA, hs.content_root] at hisA
  cases hisA

include hs hus h in
/-- What is not lowered is in the text as it was before. -/
theorem UtilitiesReplaced.hangsOn_root_iff {x : NodeId} (hx : s.Has x) :
    t.HangsOn (standIn s (cx.utilities s) done x) root ↔ s.HangsOn x root := by
  have hsub : done ⊆ cx.utilities s := hus ▸ List.subset_append_left done rest
  have hroot : standIn s (cx.utilities s) done root = root :=
    standIn_of_not_mem fun hmem => root_not_mem_utilities hs (hsub hmem)
  have hiff := hs.toIsForest.hangsOn_map_iff h.sound.toIsForest h.children_eq
    (fun _ _ => standIn_inj hsub) hx hs.has_root
  rwa [hroot] at hiff

include hs hus h in
/-- The utilities of the text are those that are left. -/
theorem UtilitiesReplaced.utilities_eq : cx.utilities t = rest := by
  have hsub : done ⊆ cx.utilities s := hus ▸ List.subset_append_left done rest
  have hroot : standIn s (cx.utilities s) done root = root :=
    standIn_of_not_mem fun hmem => root_not_mem_utilities hs (hsub hmem)
  have hmap := hs.toIsForest.descendants_map h.sound.toIsForest h.children_eq hs.has_root
  rw [hroot] at hmap
  -- A rule is no utility, and all else says what it said.
  have hsame : ∀ x ∈ s.descendants root,
      (cx.isA t .utility ∘ standIn s (cx.utilities s) done) x =
        (decide (x ∉ done) && cx.isA s .utility x) := by
    intro x hx
    by_cases hmem : x ∈ done
    · rw [Function.comp_apply, standIn_of_mem hmem, Context.isA, h.content_new x hmem]
      simp [hmem, Content.name?]
    · rw [Function.comp_apply, standIn_of_not_mem hmem,
        Context.isA_congr (h.content_old x (hs.of_mem_descendants hx).1)]
      simp [hmem]
  have hdisjoint : ∀ x ∈ rest, x ∉ done := fun x hx hmem =>
    List.disjoint_of_nodup_append (hus ▸ nodup_find hs.toIsForest root .utility) hmem hx
  have hleft : (cx.utilities s).filter (· ∉ done) = rest := by
    rw [hus, List.filter_append, List.filter_eq_nil_iff.2 fun x hx => by simpa using hx,
      List.filter_eq_self.2 fun x hx => by simpa using hdisjoint x hx]
    rfl
  rw [Context.utilities, find_eq_filter, hmap, List.filter_map, List.filter_congr hsame,
    ← List.filter_filter, ← find_eq_filter, ← Context.utilities, hleft]
  exact (List.map_congr_left fun x hx => standIn_of_not_mem (hdisjoint x hx)).trans
    (List.map_id' rest)

section Next

variable (hnext : cx.utilities s = done ++ a :: rest)

include hnext in
theorem mem_utilities_next : a ∈ cx.utilities s :=
  hnext ▸ List.mem_append_right _ List.mem_cons_self

include hs hnext h in
/-- The next utility is still a utility of the text when its turn comes. -/
theorem UtilitiesReplaced.hangsOn_next : t.HangsOn a root ∧ cx.IsCustom t a := by
  have hmem : a ∈ cx.utilities s := mem_utilities_next hnext
  have hhas := has_of_mem_utilities hmem
  have hiff := h.hangsOn_root_iff hs hnext hhas
  rw [standIn_of_not_mem (not_mem_of_next hnext (nodup_find hs.toIsForest root _))] at hiff
  refine ⟨hiff.2 (hs.mem_descendants_iff.1 (Context.mem_find_iff.1 hmem).1).2, .utility, ?_⟩
  rw [Context.isA_congr (h.content_old a hhas)]
  exact isA_of_mem_utilities hmem

include hnext h in
/-- It says what it said, at the same place. -/
theorem UtilitiesReplaced.eq_next : t.params a = s.params a ∧
    t.isLocatable a = s.isLocatable a ∧ t.location? a = s.location? a := by
  have hhas := has_of_mem_utilities (mem_utilities_next hnext)
  refine ⟨?_, place_congr (h.source_old a hhas) h.inputs_eq⟩
  rw [Sheet.params, Sheet.params, h.content_old a hhas]

include hs hnext h in
/-- One utility more, if a rule with its class takes its place. -/
theorem UtilitiesReplaced.swap {u : Sheet} {container : NodeId} {replaced : List NodeId}
    (hp : t.parent a = some container)
    (hleads : (Edit.swap t a container (", ".intercalate ((splitComma (s.params a)).map fun item =>
      utilitySelector (splitSpace item)))).Leads t u)
    (hex : Exchange cx t u replaced []) (hgone : a ∈ replaced) :
    UtilitiesReplaced cx s (done ++ [a]) u := by
  have hhas := has_of_mem_utilities (mem_utilities_next hnext)
  have hnd : (cx.utilities s).Nodup := nodup_find hs.toIsForest root .utility
  have hruleFor : ruleFor s (cx.utilities s) a = ⟨t.nodes.size⟩ := by
    rw [ruleFor_next hnext hnd, h.size_eq]
  have hold : ∀ {x}, s.Has x → t.Has x := has_of_size h.size_eq
  have hdone : ∀ {w}, w ∈ done → t.Has w := fun hw =>
    hold (has_of_mem_utilities (hnext ▸ List.mem_append_left _ hw))
  -- Swapping the next one on top of what stands in for nodes already is standing in for one more.
  have hstand : ∀ x, swapped t a (standIn s (cx.utilities s) done x) =
      standIn s (cx.utilities s) (done ++ [a]) x := by
    intro x
    rw [← standIn_concat hhas (not_mem_of_next hnext hnd), swapped, hruleFor]
  obtain ⟨hparent, hchildren⟩ := hex.taken_out a (List.mem_append_left _ hgone)
  constructor
  case sound => exact hex.sound
  case size_eq => exact hleads.size_concat h.size_eq rfl
  case inputs_eq => exact hleads.inputs_eq.trans h.inputs_eq
  case content_old =>
    intro x hx
    exact (hleads.content_eq x (hold hx)).trans (h.content_old x hx)
  case source_old =>
    intro x hx
    exact (hleads.source_eq x (hold hx)).trans (h.source_old x hx)
  case content_new =>
    intro w hw
    rcases List.mem_append.1 hw with hw | hw
    · rw [hleads.content_eq _ (has_ruleFor h.size_eq hnext hw)]
      exact h.content_new w hw
    · rw [List.mem_singleton.1 hw]
      exact hleads.content_ruleFor_next h.size_eq hnext hnd rfl
  case source_new =>
    exact hleads.source_ruleFor h.size_eq hnext hnd rfl (h.source_old a hhas) h.source_new
  case children_eq =>
    intro x hx
    have hin : t.Has (standIn s (cx.utilities s) done x) := has_standIn h.size_eq hnext hx
    rw [← hstand, hleads.children_swapped h.sound hp hin, h.children_eq x hx, List.map_map]
    exact List.map_congr_left fun c _ => hstand c
  case parent_gone =>
    intro w hw
    rcases List.mem_append.1 hw with hw | hw
    · exact hex.parent_none w (hdone hw) (h.parent_gone w hw)
    · rw [List.mem_singleton.1 hw]
      exact hparent
  case children_gone =>
    intro w hw
    rcases List.mem_append.1 hw with hw | hw
    · exact hex.children_nil w (hdone hw) (h.children_gone w hw)
    · rw [List.mem_singleton.1 hw]
      exact hchildren

include hs hnext h in
/-- Lowering the next utility does what is planned. -/
theorem UtilitiesReplaced.performs_next {p : Progress} (hp : p.sheet = t) :
    ∃ container, t.parent a = some container ∧
      Performs p (utilityPlan t a container) (lowerUtility p a) := by
  subst hp
  obtain ⟨hon, hcustom⟩ := h.hangsOn_next hs hnext
  obtain ⟨container, hparent, -⟩ := hcustom.exists_container h.sound hon
  exact ⟨container, hparent, performs_lowerUtility h.sound hon hcustom hparent⟩

include hs hnext h in
/-- The next utility can be lowered if it has items and its place can be named, and then it is one
more. -/
theorem UtilitiesReplaced.next (hitems : splitComma (s.params a) ≠ [])
    (hlocated : s.isLocatable a = true) {p : Progress} (hp : p.sheet = t) :
    ∃ u, lowerUtility p a =
        .ok ⟨u, p.warnings ++ utilityRemarks s a, p.stats + { utilities := 1 }⟩ ∧
      UtilitiesReplaced cx s (done ++ [a]) u := by
  subst hp
  obtain ⟨hon, hcustom⟩ := h.hangsOn_next hs hnext
  obtain ⟨hparams, hplace, hlocation⟩ := h.eq_next hnext
  obtain ⟨container, hparent, hperforms⟩ := h.performs_next hs hnext rfl
  have hplan : utilityPlan p.sheet a container = .ok
      ⟨.swap p.sheet a container (", ".intercalate ((splitComma (s.params a)).map fun item =>
        utilitySelector (splitSpace item))), utilityRemarks s a, { utilities := 1 }⟩ := by
    have hempty : (utilityItems (s.params a)).isEmpty = false := by
      simpa [utilityItems] using hitems
    rw [utilityPlan, hparams, hempty, remarks, hplace, hlocated, Bool.or_true, hlocation]
    simp [utilityRemarks, utilityItems, joinComma, Except.map, List.flatMap_map,
      List.map_flatMap, Function.comp_def]
  rw [hplan] at hperforms
  obtain ⟨u, hu, hleads⟩ := hperforms
  have hsettled := lowerUtility_settled h.sound hcustom
  rw [hu] at hsettled
  obtain ⟨replaced, hlow, hgone, -⟩ := hsettled
  refine ⟨u, hu, h.swap hs hnext hparent hleads hlow.exchange ?_⟩
  -- It was in the text and is not any more, so it is among what was replaced.
  by_contra hkept
  refine hgone a (List.mem_singleton_self a) ((hlow.exchange.hangsOn_iff a ?_ ?_).2 hon)
  · exact h.sound.has_of_hangsOn hon
  · rwa [List.append_nil]

include hs hnext h in
/-- A utility without items stops the pass. -/
theorem UtilitiesReplaced.stops (hitems : splitComma (s.params a) = [])
    (hlocated : s.isLocatable a = true) {p : Progress} (hp : p.sheet = t) :
    lowerUtility p a = .error ⟨.misuse ⟨noNames, s.location? a⟩, p⟩ := by
  subst hp
  obtain ⟨hparams, hplace, hlocation⟩ := h.eq_next hnext
  obtain ⟨container, -, hperforms⟩ := h.performs_next hs hnext rfl
  have hempty : (utilityItems (s.params a)).isEmpty = true := by
    simpa [utilityItems] using hitems
  rw [utilityPlan, hparams, hempty, if_pos rfl, misuse, hplace, hlocated, if_pos rfl,
    hlocation] at hperforms
  exact hperforms

end Next

end Replaced

/-! ## The pass -/

/-- Utilities with items are lowered one after the other, and the warnings about them are noted. -/
theorem utilitiesReplaced_foldlM {p : Progress} (hs : p.sheet.IsSound) {done rest : List NodeId}
    (hus : cx.utilities p.sheet = done ++ rest)
    (hitems : ∀ u ∈ done, splitComma (p.sheet.params u) ≠ [])
    (hlocated : ∀ u ∈ done, p.sheet.isLocatable u = true) :
    ∃ t, done.foldlM lowerUtility p =
        .ok ⟨t, p.warnings ++ done.flatMap (utilityRemarks p.sheet),
          p.stats + { utilities := done.length }⟩ ∧
      UtilitiesReplaced cx p.sheet done t := by
  have hrun : ∃ last, done.foldlM lowerUtility p = .ok last ∧
      last.warnings = p.warnings ++ done.flatMap (utilityRemarks p.sheet) ∧
      last.stats = p.stats + { utilities := done.length } ∧
        UtilitiesReplaced cx p.sheet done last.sheet := by
    refine exists_foldlM_steps (P := fun part (last : Progress) =>
      last.warnings = p.warnings ++ part.flatMap (utilityRemarks p.sheet) ∧
        last.stats = p.stats + { utilities := part.length } ∧
          UtilitiesReplaced cx p.sheet part last.sheet) ?_
      ⟨(List.append_nil _).symm, (Stats.add_zero _).symm, .nil hs⟩
    rintro part a later q heq ⟨hwarnings, hstats, hq⟩
    have hmem : a ∈ done := heq ▸ List.mem_append_right part List.mem_cons_self
    have hnext : cx.utilities p.sheet = part ++ a :: (later ++ rest) := by
      rw [hus, heq]
      simp
    obtain ⟨u, hu, hlast⟩ := hq.next hs hnext (hitems a hmem) (hlocated a hmem) rfl
    refine ⟨_, hu, ?_, ?_, hlast⟩
    · simp [hwarnings]
    · change q.stats + { utilities := 1 } = _
      rw [hstats, Stats.add_assoc, List.length_append]
      rfl
  obtain ⟨⟨t, warnings, stats⟩, hq, rfl, rfl, hreplaced⟩ := hrun
  exact ⟨t, hq, hreplaced⟩

/-- The pass over the utilities of a sheet that was read. Every item says something. If all
utilities have items, the pass lowers all of them, and notes the warnings about each. Otherwise it
stops at the first one without items: those before it are lowered, the warnings about them are kept,
and it is still in the text with all behind it. -/
theorem lowerUtilities_rules (cx : Context) {texts : List (Input × String)}
    (htexts : AreCountable texts) (warnings : List Warning) (stats : Stats) :
    (∀ u ∈ cx.utilities (read texts), ∀ item ∈ splitComma ((read texts).params u),
      UtilityItem item (utilitySelector (splitSpace item)) (utilityWarnings (splitSpace item))) ∧
    ((∀ u ∈ cx.utilities (read texts), splitComma ((read texts).params u) ≠ []) →
      ∃ t, lowerUtilities cx ⟨read texts, warnings, stats⟩ =
          .ok ⟨t, warnings ++ (cx.utilities (read texts)).flatMap (utilityRemarks (read texts)),
            stats + { utilities := (cx.utilities (read texts)).length }⟩ ∧
        UtilitiesReplaced cx (read texts) (cx.utilities (read texts)) t ∧ cx.utilities t = []) ∧
    ∀ done u rest, cx.utilities (read texts) = done ++ u :: rest →
      (∀ v ∈ done, splitComma ((read texts).params v) ≠ []) →
      splitComma ((read texts).params u) = [] →
      ∃ t, lowerUtilities cx ⟨read texts, warnings, stats⟩ =
          .error ⟨.misuse ⟨noNames, (read texts).location? u⟩, t,
            warnings ++ done.flatMap (utilityRemarks (read texts)),
            stats + { utilities := done.length }⟩ ∧
        UtilitiesReplaced cx (read texts) done t ∧ cx.utilities t = u :: rest := by
  have hs := isSound_read texts
  have hlocated : ∀ {u}, u ∈ cx.utilities (read texts) → (read texts).isLocatable u = true :=
    fun hu => isLocatable_read htexts (has_of_mem_utilities hu)
  refine ⟨fun _ _ _ hitem => utilityItem_of_mem hitem, ?_, ?_⟩
  · intro hitems
    have hus : cx.utilities (read texts) = cx.utilities (read texts) ++ [] :=
      (List.append_nil _).symm
    obtain ⟨t, ht, h⟩ := utilitiesReplaced_foldlM (p := ⟨read texts, warnings, stats⟩) hs hus
      hitems fun u hu => hlocated hu
    exact ⟨t, ht, h, h.utilities_eq hs hus⟩
  · intro done u rest hus hitems hnone
    obtain ⟨t, ht, h⟩ := utilitiesReplaced_foldlM (p := ⟨read texts, warnings, stats⟩) hs hus
      hitems fun v hv => hlocated (hus ▸ List.mem_append_left _ hv)
    have hstop := h.stops hs hus hnone (hlocated (mem_utilities_next hus))
      (p := ⟨t, warnings ++ done.flatMap (utilityRemarks (read texts)),
        stats + { utilities := done.length }⟩) rfl
    refine ⟨t, ?_, h, h.utilities_eq hs hus⟩
    change (cx.utilities (read texts)).foldlM lowerUtility _ = _
    rw [hus, List.foldlM_append, ht]
    change List.foldlM lowerUtility _ (u :: rest) = _
    rw [List.foldlM_cons, hstop]
    rfl

/-- For instance, if one utility stands in another one, and the third has no items. -/
theorem lowerUtilities_rules_nested :
    let s := read [(.ofFile "a.css",
      "@utility a small x, b { @utility c huge, d large; } @utility; @utility e;")]
    ∃ t, lowerUtilities (.ofOptions {}) { sheet := s } =
        .error ⟨.misuse ⟨"No names supplied to @utility", some ⟨"a.css", 1, 53⟩⟩, t,
          [⟨"Too many parameters for @utility", some ⟨"a.css", 1, 1⟩⟩,
            ⟨"Unknown variant: huge", some ⟨"a.css", 1, 25⟩⟩], { utilities := 2 }⟩ ∧
      UtilitiesReplaced (.ofOptions {}) s [⟨1⟩, ⟨2⟩] t ∧
      t.content ⟨5⟩ = .rule ".u-sm-a, .u-b" ∧ t.content ⟨6⟩ = .rule ".u--c, .u-lg-d" ∧
      t.children root = [⟨5⟩, ⟨3⟩, ⟨4⟩] ∧ t.children ⟨5⟩ = [⟨6⟩] ∧
      (Context.ofOptions {}).utilities t = [⟨3⟩, ⟨4⟩] := by
  intro s
  have htexts : AreCountable [(.ofFile "a.css",
      "@utility a small x, b { @utility c huge, d large; } @utility; @utility e;")] := by
    simp only [AreCountable, List.forall_mem_singleton]
    decide +kernel
  obtain ⟨hus, hitems, hnone, hplace, hwarnings⟩ :
      (Context.ofOptions {}).utilities s = [⟨1⟩, ⟨2⟩] ++ ⟨3⟩ :: [⟨4⟩] ∧
      (∀ u ∈ [(⟨1⟩ : NodeId), ⟨2⟩], splitComma (s.params u) ≠ []) ∧
      splitComma (s.params ⟨3⟩) = [] ∧ s.location? ⟨3⟩ = some ⟨"a.css", 1, 53⟩ ∧
      [(⟨1⟩ : NodeId), ⟨2⟩].flatMap (utilityRemarks s) =
        [⟨"Too many parameters for @utility", some ⟨"a.css", 1, 1⟩⟩,
          ⟨"Unknown variant: huge", some ⟨"a.css", 1, 25⟩⟩] := by decide +kernel
  obtain ⟨t, ht, hreplaced, hleft⟩ :=
    (lowerUtilities_rules (.ofOptions {}) htexts [] {}).2.2 _ _ _ hus hitems hnone
  rw [hplace, hwarnings, List.nil_append, Stats.zero_add] at ht
  -- The rules that are made, what they say, and where they stand.
  obtain ⟨houter, hinner, hclass, hclass', hroot, hone, htop, hin⟩ :
      ruleFor s ((Context.ofOptions {}).utilities s) ⟨1⟩ = ⟨5⟩ ∧
      ruleFor s ((Context.ofOptions {}).utilities s) ⟨2⟩ = ⟨6⟩ ∧
      (", ".intercalate ((splitComma (s.params ⟨1⟩)).map fun item =>
        utilitySelector (splitSpace item)) = ".u-sm-a, .u-b") ∧
      (", ".intercalate ((splitComma (s.params ⟨2⟩)).map fun item =>
        utilitySelector (splitSpace item)) = ".u--c, .u-lg-d") ∧
      standIn s ((Context.ofOptions {}).utilities s) [⟨1⟩, ⟨2⟩] root = root ∧
      standIn s ((Context.ofOptions {}).utilities s) [⟨1⟩, ⟨2⟩] ⟨1⟩ = ⟨5⟩ ∧
      (s.children root).map (standIn s ((Context.ofOptions {}).utilities s) [⟨1⟩, ⟨2⟩]) =
        [⟨5⟩, ⟨3⟩, ⟨4⟩] ∧
      (s.children ⟨1⟩).map (standIn s ((Context.ofOptions {}).utilities s) [⟨1⟩, ⟨2⟩]) = [⟨6⟩] := by
    decide +kernel
  have hcontent := hreplaced.content_new ⟨1⟩ (by simp)
  have hcontent' := hreplaced.content_new ⟨2⟩ (by simp)
  have hchildren := hreplaced.children_eq root (isSound_read _).has_root
  have hchildren' := hreplaced.children_eq ⟨1⟩
    (has_of_mem_utilities (hus ▸ List.mem_append_left _ List.mem_cons_self))
  rw [houter, hclass] at hcontent
  rw [hinner, hclass'] at hcontent'
  rw [hroot, htop] at hchildren
  rw [hone, hin] at hchildren'
  exact ⟨t, ht, hreplaced, hcontent, hcontent', hchildren, hchildren', hleft⟩

end ClassRules.Lowering
