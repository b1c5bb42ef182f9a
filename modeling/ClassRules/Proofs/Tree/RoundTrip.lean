import ClassRules.Proofs.Tree.Everywhere
import ClassRules.Proofs.Tree.Statement
import ClassRules.Tree.Printer

/-!
# Reading what was printed

## What this module delivers

- `Content.IsPrintable`, `Tree.IsPrintable`: the trees whose text says all that they hold.
- `Parser.reads_render`, `reads_renderForest`: at any depth and behind any white space the text of
  such trees is read as these trees. The induction is on the tree: a block is read as its opening,
  the forest inside it, and its closing brace.
- `parse_render`: parsing undoes printing.
-/

set_option autoImplicit false

namespace ClassRules

open Text ClassRules.Parser ClassRules.Tree

/-- The fields of a content are such that a statement with them is read as it was printed: they hold
no brace and no semicolon outside a group, and the groups of a statement without a block are
closed. -/
def Content.IsPrintable : Content → Prop
  | .root => False
  | .rule selector =>
    IsField selector ∧ StartsStatement selector ∧ ∃ d, depthBehind? 0 (fieldKinds selector) = some d
  | .atRule name params body =>
    IsName name ∧ IsField params ∧
      ∃ d, depthBehind? 0 (fieldKinds params) = some d ∧ (body = false → d = 0)
  | .declaration property value important =>
    IsField property ∧ IsField value ∧ StartsStatement property ∧
      (∀ k ∈ fieldKinds property, k ≠ .colon) ∧
      depthBehind? 0 (fieldKinds property ++ fieldKinds value) = some 0 ∧
      (important = false → ¬ importantMark <:+ value.toList.map Char.toLower)
  | .comment text => IsTrimmed text.toList ∧ ¬ ['*', '/'] <:+: text.toList

namespace Tree

/-- A node that may have the children that it has, and whose content is printable. -/
def Printable (content : Content) (children : List Tree) : Prop :=
  Carries content children ∧ content.IsPrintable

/-- The tree of a whole sheet, all nodes of which are printable. -/
def IsPrintable (t : Tree) : Prop :=
  t.content = .root ∧ EverywhereIn Printable t.children

theorem blank_of_mem_line : ∀ a ∈ ['\n'], isBlank a = true :=
  List.forall_mem_singleton.2 (by decide)

theorem blank_of_mem_indent (depth : Nat) : ∀ a ∈ (indent depth).toList, isBlank a = true := by
  intro a ha
  rw [indent, String.toList_ofList] at ha
  rw [List.eq_of_mem_replicate ha]
  exact isBlank_space

theorem blank_of_mem_append {lead mid : List Char} (h : ∀ a ∈ lead, isBlank a = true)
    (h' : ∀ a ∈ mid, isBlank a = true) : ∀ a ∈ lead ++ mid, isBlank a = true := by
  intro a ha
  rcases List.mem_append.1 ha with ha | ha
  · exact h a ha
  · exact h' a ha

/-- A block is its opening brace and what follows. -/
def blockRest (depth : Nat) (isEmpty : Bool) (text : String) : List Char :=
  if isEmpty then ['}'] else ('\n' :: text.toList) ++ (('\n' :: (indent depth).toList) ++ ['}'])

theorem toList_block (depth : Nat) (isEmpty : Bool) (text : String) :
    (block depth isEmpty text).toList = [' ', '{'] ++ blockRest depth isEmpty text := by
  rw [block, blockRest]
  cases isEmpty with
  | true => simp
  | false => simp

end Tree

namespace Parser

variable {depth : Nat} {children : List Tree} {content : Content} {lead : List Char} {o : Outline}

/-- The text of the trees is read as the trees, behind white space and inside any blocks. -/
def ReadsForest (depth : Nat) (ts : List Tree) : Prop :=
  ∀ (lead : List Char) (o : Outline), (∀ a ∈ lead, isBlank a = true) →
    Reads (lead ++ (renderForest depth ts).toList) o { o with nodes := o.nodes ++ bareForest ts }

/-- Behind its opening brace a block is read as the children of its node. -/
theorem reads_blockRest (h : children ≠ [] → ReadsForest (depth + 1) children) :
    Reads (blockRest depth children.isEmpty (renderForest (depth + 1) children))
      (o.openBlock content) (o.add content (bareForest children)) := by
  cases children with
  | nil => exact Reads.close content o.nodes [] o.frames
  | cons t ts =>
    have hlead : ∀ a ∈ ['\n'] ++ (indent depth).toList, isBlank a = true :=
      blank_of_mem_append blank_of_mem_line (blank_of_mem_indent depth)
    have hforest := h (List.cons_ne_nil t ts) ['\n'] (o.openBlock content) blank_of_mem_line
    have hclose := Reads.close content o.nodes (bareForest (t :: ts)) o.frames
    exact hforest.trans (hclose.pad hlead (by decide))

theorem reads_rule {selector : String} (source : Option Source)
    (hp : (Content.rule selector).IsPrintable)
    (h : children ≠ [] → ReadsForest (depth + 1) children)
    (hlead : ∀ a ∈ lead, isBlank a = true) :
    Reads (lead ++ (render depth (.node (.rule selector) source children)).toList) o
      (o.add (.rule selector) (bareForest children)) := by
  obtain ⟨hfield, hstart, d, hd⟩ := hp
  have hblanks := blank_of_mem_append hlead (blank_of_mem_indent depth)
  have htext : lead ++ (render depth (.node (.rule selector) source children)).toList =
      ((lead ++ (indent depth).toList) ++ (selector.toList ++ [' ', '{'])) ++
        blockRest depth children.isEmpty (renderForest (depth + 1) children) := by
    rw [render, String.toList_append, String.toList_append, toList_block]
    simp only [List.append_assoc]
  rw [htext]
  refine Reads.trans ?_ (reads_blockRest h)
  by_cases hnil : selector.toList = []
  · -- Without a selector all that stands before the brace is white space.
    have hopen := Reads.rule_open_nil (blank_of_mem_append hblanks blank_of_mem_space) o
    rw [hnil, String.toList_eq_nil_iff.1 hnil]
    rw [List.append_assoc] at hopen
    exact hopen
  · have hopen := Reads.rule_open (o := o) hfield hnil hstart hd
    have hhead := hfield.trimmed.head
    obtain ⟨c, cs, hc⟩ := List.exists_cons_of_ne_nil hnil
    rw [hc] at hopen hhead ⊢
    exact hopen.pad hblanks (hhead c rfl)

/-- A node that carries no children has none. -/
theorem eq_nil_of_carries (h : Carries content children) (hc : content.carries = false) :
    children = [] := by
  cases children with
  | nil => rfl
  | cons t ts =>
    rw [h (List.cons_ne_nil t ts)] at hc
    cases hc

theorem toList_atRuleHead (name params : String) :
    (atRuleHead name params).toList = '@' :: name.toList ++ paramsText params := by
  rw [atRuleHead, paramsText]
  split <;> simp

theorem reads_atRule {name params : String} {body : Bool} (source : Option Source)
    (hp : Printable (.atRule name params body) children)
    (h : children ≠ [] → ReadsForest (depth + 1) children)
    (hlead : ∀ a ∈ lead, isBlank a = true) :
    Reads (lead ++ (render depth (.node (.atRule name params body) source children)).toList) o
      (o.add (.atRule name params body) (bareForest children)) := by
  obtain ⟨hcarries, hname, hfield, d, hd, hclosed⟩ := hp
  have hblanks := blank_of_mem_append hlead (blank_of_mem_indent depth)
  cases body with
  | true =>
    have htext : lead ++ (render depth (.node (.atRule name params true) source children)).toList =
        ((lead ++ (indent depth).toList) ++ ('@' :: name.toList ++ paramsText params ++ [' ', '{']))
          ++ blockRest depth children.isEmpty (renderForest (depth + 1) children) := by
      rw [render, if_pos (by rfl), String.toList_append, String.toList_append, toList_block,
        toList_atRuleHead]
      simp only [List.append_assoc]
    rw [htext]
    refine Reads.trans ?_ (reads_blockRest h)
    exact (Reads.atRule_open hname hfield hd).pad hblanks (by decide)
  | false =>
    obtain rfl := eq_nil_of_carries hcarries rfl
    have htext : lead ++ (render depth (.node (.atRule name params false) source [])).toList =
        (lead ++ (indent depth).toList) ++ ('@' :: name.toList ++ paramsText params ++ [';']) := by
      rw [render, if_neg (by simp), String.toList_append, String.toList_append, toList_atRuleHead]
      simp only [List.append_assoc]
      rfl
    -- Without a block no group may be open, or the semicolon would be in it.
    rw [hclosed rfl] at hd
    rw [htext]
    exact (Reads.atRule hname hfield hd).pad hblanks (by decide)

theorem toList_mark (important : Bool) :
    (if important then " !important" else "").toList =
      if important then ' ' :: importantMark else [] := by
  cases important <;> rfl

theorem reads_declaration {property value : String} {important : Bool} (source : Option Source)
    (hp : Printable (.declaration property value important) children)
    (hlead : ∀ a ∈ lead, isBlank a = true) :
    Reads (lead ++
        (render depth (.node (.declaration property value important) source children)).toList) o
      (o.add (.declaration property value important) (bareForest children)) := by
  obtain ⟨hcarries, hproperty, hvalue, hstart, hcolon, hd, himportant⟩ := hp
  have hblanks := blank_of_mem_append hlead (blank_of_mem_indent depth)
  have htext : lead ++
      (render depth (.node (.declaration property value important) source children)).toList =
        (lead ++ (indent depth).toList) ++
          (property.toList ++ ':' :: valueText value important ++ [';']) := by
    rw [render, valueText, ← toList_mark]
    simp
  rw [htext, eq_nil_of_carries hcarries rfl]
  have hreads := Reads.declaration (o := o) hproperty hvalue hstart hcolon hd himportant
  have hhead := hproperty.trimmed.head
  generalize property.toList = cs at hreads hhead ⊢
  cases cs with
  | nil => exact hreads.pad hblanks (by decide)
  | cons c cs => exact hreads.pad hblanks (hhead c rfl)

theorem reads_comment {text : String} (source : Option Source)
    (hp : Printable (.comment text) children) (hlead : ∀ a ∈ lead, isBlank a = true) :
    Reads (lead ++ (render depth (.node (.comment text) source children)).toList) o
      (o.add (.comment text) (bareForest children)) := by
  obtain ⟨hcarries, htrimmed, hclose⟩ := hp
  have hblanks := blank_of_mem_append hlead (blank_of_mem_indent depth)
  have htext : lead ++ (render depth (.node (.comment text) source children)).toList =
      (lead ++ (indent depth).toList) ++
        '/' :: ('*' :: ' ' :: text.toList ++ [' ', '*', '/']) := by
    rw [render]
    simp
  have hreads := Reads.comment htrimmed hclose o
  rw [String.ofList_toList] at hreads
  rw [htext, eq_nil_of_carries hcarries rfl]
  exact hreads.pad hblanks (by decide)

mutual

/-- The text of a tree is read as the tree, at any depth and behind any white space. -/
theorem reads_render (depth : Nat) : ∀ (t : Tree) (lead : List Char) (o : Outline),
    Everywhere Printable t → (∀ a ∈ lead, isBlank a = true) →
      Reads (lead ++ (render depth t).toList) o (o.add t.content (bareForest t.children))
  | .node .root _ _, _, _, h, _ => absurd h.1.2 id
  | .node (.rule _) source children, _, _, h, hlead =>
    reads_rule source h.1.2 (reads_renderForest (depth + 1) children h.2) hlead
  | .node (.atRule ..) source children, _, _, h, hlead =>
    reads_atRule source h.1 (reads_renderForest (depth + 1) children h.2) hlead
  | .node (.declaration ..) source _, _, _, h, hlead => reads_declaration source h.1 hlead
  | .node (.comment _) source _, _, _, h, hlead => reads_comment source h.1 hlead
termination_by structural t => t

/-- So is the text of several trees, which stand one behind the other. -/
theorem reads_renderForest (depth : Nat) : ∀ ts : List Tree, EverywhereIn Printable ts → ts ≠ [] →
    ReadsForest depth ts
  | [], _, hne => absurd rfl hne
  | t :: ts, h, _ => by
    intro lead o hlead
    have ht := reads_render depth t lead o h.1 hlead
    have hts := reads_renderForest depth ts h.2
    have hadd : o.add t.content (bareForest t.children) =
        { o with nodes := o.nodes ++ [t.bare] } := by
      cases t
      rfl
    rw [hadd] at ht
    cases ts with
    | nil =>
      have htext : lead ++ (renderForest depth [t]).toList = lead ++ (render depth t).toList := by
        rw [renderForest]
        simp
      rw [htext]
      exact ht
    | cons u us =>
      -- The line break between two trees is white space before the second.
      have htext : lead ++ (renderForest depth (t :: u :: us)).toList =
          (lead ++ (render depth t).toList) ++
            (['\n'] ++ (renderForest depth (u :: us)).toList) := by
        rw [renderForest]
        simp
      have hnodes : o.nodes ++ bareForest (t :: u :: us) =
          o.nodes ++ [t.bare] ++ bareForest (u :: us) := by
        rw [bareForest, List.append_assoc]
        rfl
      rw [htext, hnodes]
      exact ht.trans (hts (List.cons_ne_nil u us) ['\n'] _ blank_of_mem_line)
termination_by structural ts => ts

end

end Parser

/-- Parsing undoes printing: the text of a printable tree has no errors, and apart from the sources
it gives the tree again. -/
theorem parse_render {t : Tree} (h : t.IsPrintable) (input : InputId) :
    (parse input (t.render 0)).errors = [] ∧
      bare (.node .root none (parse input (t.render 0)).nodes) = t.bare := by
  obtain ⟨content, source, children⟩ := t
  obtain ⟨rfl, hchildren⟩ : content = .root ∧ EverywhereIn Printable children := h
  have hreads : Reads (renderForest 0 children).toList ⟨[], []⟩ ⟨[], bareForest children⟩ := by
    cases children with
    | nil => exact ⟨[], fun rest => .done rest, Consumes.refl _⟩
    | cons t ts =>
      exact reads_renderForest 0 (t :: ts) hchildren (List.cons_ne_nil t ts) [] ⟨[], []⟩
        fun a ha => absurd ha List.not_mem_nil
  obtain ⟨herrors, hnodes⟩ := parse_of_reads input hreads
  rw [render]
  refine ⟨herrors, ?_⟩
  rw [bare, bare, hnodes]

/-- A block in a block, a selector with a colon, a mark, a comment, and params with a quote. -/
theorem parse_render_media :
    let rule : Tree := .node (.rule ".a:hover") none
      [.node (.declaration "color" "rgb(1, 2, 3)" true) none [], .node (.comment "c") none []]
    let t : Tree := .node .root none [.node (.atRule "media" "(width: 1px)" true) none [rule],
      .node (.atRule "import" "'a;b'" false) none []]
    t.IsPrintable ∧ (parse ⟨0⟩ (t.render 0)).errors = [] ∧
      bare (.node .root none (parse ⟨0⟩ (t.render 0)).nodes) = t.bare := by
  intro rule t
  have hdeclaration : (Content.declaration "color" "rgb(1, 2, 3)" true).IsPrintable :=
    ⟨by decide +kernel, by decide +kernel, by decide +kernel, by decide +kernel, by decide +kernel,
      fun h => absurd h (by decide)⟩
  have hcomment : (Content.comment "c").IsPrintable := ⟨by decide, by decide⟩
  have hrule : (Content.rule ".a:hover").IsPrintable :=
    ⟨by decide +kernel, by decide +kernel, 0, by decide +kernel⟩
  have hmedia : (Content.atRule "media" "(width: 1px)" true).IsPrintable :=
    ⟨by decide +kernel, by decide +kernel, 0, by decide +kernel, fun _ => rfl⟩
  have himport : (Content.atRule "import" "'a;b'" false).IsPrintable :=
    ⟨by decide +kernel, by decide +kernel, 0, by decide +kernel, fun _ => rfl⟩
  have hleaf {c : Content} : Carries c [] := fun h => absurd rfl h
  have h : t.IsPrintable := by
    refine ⟨rfl, ⟨⟨fun _ => rfl, hmedia⟩, ⟨⟨fun _ => rfl, hrule⟩, ?_⟩, trivial⟩,
      ⟨⟨hleaf, himport⟩, trivial⟩, trivial⟩
    exact ⟨⟨⟨hleaf, hdeclaration⟩, trivial⟩, ⟨⟨hleaf, hcomment⟩, trivial⟩, trivial⟩
  exact ⟨h, parse_render h ⟨0⟩⟩

end ClassRules
