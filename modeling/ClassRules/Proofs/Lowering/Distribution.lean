import ClassRules.Proofs.Lowering.Component

/-!
# Going through the children of an at-rule

## What this module delivers

- `distribute_cons_of_lowered`, `distribute_cons_of_moved`, `lowerNestedTo_eq_ok`: what is done with
  one child.
- `Distributes`: going through the children succeeds, spreads their region and counts its rules.
- `Region.alwaysDistributes`: it does so wherever it may begin, by induction on the region.
-/

set_option autoImplicit false

namespace ClassRules.Lowering

open Sheet

variable {cx : Context} {s : Sheet} {rank : NodeId → Nat}

/-! ## One child -/

section Steps

variable {lower : Progress → NodeId → NodeId → Except Stopped (Option NodeId × Progress)}
  {rule c last : NodeId} {cs : List NodeId} {p q : Progress}

theorem distribute_cons_of_lowered {inserted : NodeId} (hk : p.sheet.kind c = .atRule)
    (h : lower p c last = .ok (some inserted, q)) :
    distribute lower rule (c :: cs) last p = distribute lower rule cs inserted q := by
  simp only [distribute, List.foldlM_cons, bind, Except.bind, if_pos hk, h]
  rfl

theorem distribute_cons_of_moved
    (h : p.sheet.kind c = .atRule → lower p c last = .ok (none, p))
    (hm : p.append rule c = .ok q) :
    distribute lower rule (c :: cs) last p = distribute lower rule cs last q := by
  by_cases hk : p.sheet.kind c = .atRule
  · simp only [distribute, List.foldlM_cons, bind, Except.bind, if_pos hk, h hk, hm]
    rfl
  · simp only [distribute, List.foldlM_cons, bind, Except.bind, if_neg hk, hm]
    rfl

theorem lowerNestedTo_of_not_nested {container : NodeId} {fuel : Nat} {parentClass : String}
    (h : cx.nestedClass? p.sheet parentClass c = none) :
    lowerNestedTo cx container fuel parentClass p c last = .ok (none, p) := by
  cases fuel with
  | zero => rfl
  | succ fuel => simp only [lowerNestedTo, nestedName?_of_nestedClass?_none h]

theorem lowerNestedTo_eq_ok {container inserted : NodeId} {fuel : Nat} {parentClass name : String}
    {p₁ p₂ p₃ : Progress} (hname : nestedName? cx p parentClass c = some (name, p₁))
    (hins : (p₁.createRule ("." ++ name) c).2.insertAfter container last ⟨p₁.sheet.nodes.size⟩ =
      .ok p₂)
    (hdist : distribute (lowerNestedTo cx container fuel name) ⟨p₁.sheet.nodes.size⟩
      (p₂.sheet.children c) ⟨p₁.sheet.nodes.size⟩ p₂ = .ok (inserted, p₃)) :
    lowerNestedTo cx container (fuel + 1) parentClass p c last =
      .ok (some inserted, p₃.remove c) := by
  simp only [lowerNestedTo, hname]
  change ((p₁.createRule ("." ++ name) c).2.insertAfter container last ⟨p₁.sheet.nodes.size⟩ >>=
    fun p => distribute (lowerNestedTo cx container fuel name) ⟨p₁.sheet.nodes.size⟩
      (p.sheet.children c) ⟨p₁.sheet.nodes.size⟩ p >>= fun r =>
        pure (some r.1, r.2.remove c)) = _
  simp only [hins, hdist, bind, Except.bind]
  rfl

end Steps

/-! ## All children -/

/-- What is called for the children `cs` lowers nested at-rules, with a search that goes deeper than
the sheet at the beginning does. -/
def SearchesDeep (cx : Context) (s : Sheet) (container : NodeId) (parentClass : String)
    (cs : List NodeId)
    (lower : Progress → NodeId → NodeId → Except Stopped (Option NodeId × Progress)) : Prop :=
  ∀ c ∈ cs, ∀ (p : Progress) (last : NodeId), s.nodes.size ≤ p.sheet.nodes.size →
    ∃ fuel, s.nodes.size ≤ fuel + s.depth c ∧
      lower p c last = lowerNestedTo cx container fuel parentClass p c last

/-- Going through the children `cs` of `owner` from `p` on succeeds and spreads their region. The
last of the new rules, or `last` if there are none, is where the next ones go. -/
def Distributes (cx : Context) (s : Sheet) (rank : NodeId → Nat)
    (lower : Progress → NodeId → NodeId → Except Stopped (Option NodeId × Progress))
    (container rule owner last : NodeId) (front back cs : List NodeId) (region : List Piece)
    (p : Progress) : Prop :=
  ∃ inserted q, distribute lower rule cs last p = .ok (inserted, q) ∧
    (front ++ handles p.sheet.nodes.size region.length).getLast? = some inserted ∧
    Spread cx s rank container rule owner front back cs region p.sheet q.sheet ∧
    Tally p q (regionStats cx s region)

/-- Going through the children `cs` succeeds wherever it may begin. -/
def AlwaysDistributes (cx : Context) (s : Sheet) (rank : NodeId → Nat) (container : NodeId)
    (parentClass : String) (cs : List NodeId) (region : List Piece) : Prop :=
  ∀ (lower : Progress → NodeId → NodeId → Except Stopped (Option NodeId × Progress))
    (p : Progress) (rule owner last : NodeId) (front back : List NodeId),
    SearchesDeep cx s container parentClass cs lower →
    Underway s rank container rule owner cs region p.sheet →
    (region.map Piece.atRule).Nodup → p.sheet.children container = front ++ back →
    front.getLast? = some last →
    Distributes cx s rank lower container rule owner last front back cs region p

section Induction

variable {container rule owner c last : NodeId} {parentClass name : String}
  {front back cs : List NodeId} {region inside rest : List Piece} {p : Progress}

/-- A child that goes nowhere moves to the rule, and the others are gone through from there. -/
theorem alwaysDistributes_other (hname : cx.nestedClass? s parentClass c = none)
    (ih : AlwaysDistributes cx s rank container parentClass cs region) :
    AlwaysDistributes cx s rank container parentClass (c :: cs) region := by
  intro lower p rule owner last front back hdeep hp hnd hcont hlast
  have hc : c ∈ c :: cs := List.mem_cons_self
  have hname' : cx.nestedClass? p.sheet parentClass c = none := by
    rw [← hname]
    exact Context.nestedClass?_congr (hp.content_eq c (has_of_parent (hp.parent_eq c hc))) _
  have hstay : p.sheet.kind c = .atRule → lower p c last = .ok (none, p) := by
    intro _
    obtain ⟨fuel, -, hlower⟩ := hdeep c hc p last hp.size_le
    rw [hlower, lowerNestedTo_of_not_nested hname']
  have hmove := Progress.append_eq_ok hp.isForest hp.ranked hp.has_rule
    (Nat.lt_of_le_of_lt hp.rank_rule (hp.rank_lt c hc))
  have hcont' : (p.sheet.move rule c (· ++ [c])).children container = front ++ back := by
    rw [children_move_of_not_mem hp.linked hp.has_rule hp.container_ne_rule
      (hp.not_mem_of_ne hc hp.container_ne_owner), hcont]
  have hdeep' : SearchesDeep cx s container parentClass cs lower := fun d hd =>
    hdeep d (List.mem_cons_of_mem _ hd)
  obtain ⟨inserted, q, hq, hlast', hspread, hcounts⟩ :=
    ih lower { p with sheet := p.sheet.move rule c (· ++ [c]) } rule owner last front back hdeep'
      hp.moved hnd hcont' hlast
  have hinputs : q.sheet.inputs = p.sheet.inputs := by
    rw [hcounts.inputs_eq, inputs_move]
  refine ⟨inserted, q, ?_, ?_, ?_, ?_⟩
  · rw [distribute_cons_of_moved hstay hmove, hq]
  · simpa using hlast'
  · exact hspread.moved hp (Context.nestedClass?_eq_none_iff.1 hname)
  · exact ⟨hcounts.stats_eq, hcounts.warnings_eq, hinputs⟩

/-- The rule of a nested at-rule comes to stand behind the last one, and the children of the at-rule
are to be gone through. -/
theorem Underway.exists_inserted (hs : s.IsForest) (hsr : s.Ranked rank)
    (hp : Underway s rank container rule owner (c :: cs) (⟨c, name⟩ :: inside ++ rest) p.sheet)
    (hin : Region cx s name (s.children c) inside)
    (hcont : p.sheet.children container = front ++ back) (hlast : front.getLast? = some last)
    (warnings : List Warning) (stats : Stats) :
    ∃ u, (Progress.createRule ⟨p.sheet, warnings, stats⟩ ("." ++ name) c).2.insertAfter container
        last ⟨p.sheet.nodes.size⟩ = .ok ⟨u, warnings, stats⟩ ∧
      Inserted p.sheet u container front back (.rule ("." ++ name)) (s.source c) ∧
      Underway s rank container ⟨p.sheet.nodes.size⟩ c (s.children c) inside u ∧
      u.inputs = p.sheet.inputs := by
  have hsc : s.Has c := has_of_parent (hp.parent_eq c List.mem_cons_self)
  have hnew : rank ⟨p.sheet.nodes.size⟩ = rank container + 1 := hp.rank_new _ (not_has_new _)
  have hlt : rank container < rank ⟨p.sheet.nodes.size⟩ := by omega
  have hanchor : p.sheet.Has last := has_of_parent (hp.linked.mem_children_iff.1
    (hcont ▸ List.mem_append_left _ (List.mem_of_getLast? hlast)))
  have hcreated := hp.ranked.create (.rule ("." ++ name)) (s.source c)
  have hinserted := hp.linked.inserted hp.has_container hcont hlast (.rule ("." ++ name))
    (s.source c)
  have hranked := hcreated.move ((has_create _ _ _ _).2 (.inl rfl)) hlt
    (placeAfter last ⟨p.sheet.nodes.size⟩)
  refine ⟨_, ?_, hinserted, hp.entered hs hsr hin hinserted hranked, inputs_move _ _ _ _⟩
  rw [Progress.createRule, Sheet.createRule, hp.source_eq c hsc]
  exact Progress.insertAfter_eq_ok (.of_ranked (hp.linked.create _ _) hcreated) hcreated
    (by simp [hp.has_container]) (by omega) (Ne.symm hanchor.ne_new)

/-- A nested at-rule is lowered: its rule is put in, and what stands in the at-rule follows the
rule. The last rule that came of it is the one to go on from. -/
theorem Underway.exists_lowered
    {lower : Progress → NodeId → NodeId → Except Stopped (Option NodeId × Progress)}
    (hp : Underway s rank container rule owner (c :: cs) (⟨c, name⟩ :: inside ++ rest) p.sheet)
    (hs : s.IsForest) (hsr : s.Ranked rank) (hname : cx.nestedClass? s parentClass c = some name)
    (hin : Region cx s name (s.children c) inside)
    (ih : AlwaysDistributes cx s rank container name (s.children c) inside)
    (hdeep : SearchesDeep cx s container parentClass (c :: cs) lower)
    (hnd : ((⟨c, name⟩ :: inside ++ rest : List Piece).map Piece.atRule).Nodup)
    (hcont : p.sheet.children container = front ++ back) (hlast : front.getLast? = some last) :
    ∃ inserted u q, lower p c last = .ok (some inserted, q.remove c) ∧
      Entered cx s rank container rule owner c front back cs name inside rest p.sheet u q.sheet ∧
      (front ++ handles p.sheet.nodes.size (inside.length + 1)).getLast? = some inserted ∧
      q.sheet.children container = front ++ handles p.sheet.nodes.size (inside.length + 1) ++ back ∧
      Tally p q (regionStats cx s (⟨c, name⟩ :: inside)) := by
  have hsc : s.Has c := has_of_parent (hp.parent_eq c List.mem_cons_self)
  obtain ⟨fuel, hfuel, hlower⟩ := hdeep c List.mem_cons_self p last hp.size_le
  -- The search goes deeper than the at-rule stands, so at least one step of it is left.
  obtain ⟨fuel, rfl⟩ : ∃ n, fuel = n + 1 := ⟨fuel - 1, by have := hs.depth_lt hsc; omega⟩
  obtain ⟨⟨_, warnings, stats⟩, hp₁, rfl, hcount₁⟩ := nestedName?_of_nestedClass? (p := p)
    ((Context.nestedClass?_congr (hp.content_eq c hsc) _).trans hname)
  obtain ⟨u, hins, hinserted, hunder, hinputs⟩ :=
    hp.exists_inserted hs hsr hin hcont hlast warnings stats
  have hdeep₁ : SearchesDeep cx s container name (s.children c)
      (lowerNestedTo cx container fuel name) := by
    intro d hd q last _
    have hdepth := hs.depth_of_parent (hs.mem_children_iff.1 hd)
    exact ⟨fuel, by omega, rfl⟩
  have hcont₁ : u.children container = front ++ [⟨p.sheet.nodes.size⟩] ++ back := by
    rw [hinserted.container_eq]
    simp
  have hlast₁ : (front ++ [(⟨p.sheet.nodes.size⟩ : NodeId)]).getLast? =
      some ⟨p.sheet.nodes.size⟩ := by
    simp
  obtain ⟨inserted, q, hdist, hlast₂, hspread, hcount₂⟩ := ih _ ⟨u, warnings, stats⟩ _ _ _ _ _
    hdeep₁ hunder (hnd.sublist (by simp)) hcont₁ hlast₁
  have hlen : front ++ [⟨p.sheet.nodes.size⟩] ++ handles (p.sheet.nodes.size + 1) inside.length =
      front ++ handles p.sheet.nodes.size (inside.length + 1) := by
    rw [handles_succ]
    simp
  refine ⟨inserted, u, q, ?_, ⟨hs, hp, hnd, hinserted, hspread⟩, ?_, ?_, ?_⟩
  · rw [hlower]
    refine lowerNestedTo_eq_ok hp₁ hins ?_
    rw [hunder.owner_eq]
    exact hdist
  · rwa [hinserted.size_eq, hlen] at hlast₂
  · rw [hspread.container_eq, hinserted.size_eq, hlen]
  · have hone : regionStats cx p.sheet [⟨c, name⟩] = regionStats cx s [⟨c, name⟩] :=
      regionStats_congr (List.forall_mem_singleton.2 (hp.content_eq c hsc))
    rw [← List.singleton_append, regionStats_append, ← hone]
    exact hcount₁.trans ⟨hcount₂.stats_eq, hcount₂.warnings_eq, hcount₂.inputs_eq.trans hinputs⟩

/-- A nested at-rule is gone through before the children behind it, which follow the last rule that
came of it. -/
theorem alwaysDistributes_nested (hs : s.IsForest) (hsr : s.Ranked rank)
    (hname : cx.nestedClass? s parentClass c = some name)
    (hin : Region cx s name (s.children c) inside)
    (ihin : AlwaysDistributes cx s rank container name (s.children c) inside)
    (ihrest : AlwaysDistributes cx s rank container parentClass cs rest) :
    AlwaysDistributes cx s rank container parentClass (c :: cs) (⟨c, name⟩ :: inside ++ rest) := by
  intro lower p rule owner last front back hdeep hp hnd hcont hlast
  have hsc : s.Has c := has_of_parent (hp.parent_eq c List.mem_cons_self)
  have hnested : cx.isNested s c = true := Context.isNested_of_nestedClass? hname
  have hkind : p.sheet.kind c = .atRule := by
    rw [Sheet.kind, hp.content_eq c hsc]
    exact Context.kind_of_isNested hnested
  obtain ⟨inserted, u, q, hlow, hentered, hlast', hcont', hcount⟩ :=
    hp.exists_lowered hs hsr hname hin ihin hdeep hnd hcont hlast
  -- The at-rule stands in its owner, so taking it out leaves the container as it is.
  have hcontleft : (q.remove c).sheet.children container =
      front ++ handles p.sheet.nodes.size (inside.length + 1) ++ back :=
    (hentered.children_detach_of_ne hp.container_ne_owner).trans hcont'
  have hdeep' : SearchesDeep cx s container parentClass cs lower := fun d hd =>
    hdeep d (List.mem_cons_of_mem _ hd)
  obtain ⟨inserted', q', hq, hlast'', hspread, hcount'⟩ := ihrest lower (q.remove c) _ _ _ _ _
    hdeep' hentered.left (hnd.sublist (by simp)) hcontleft hlast'
  have hlen : (⟨c, name⟩ :: inside ++ rest : List Piece).length =
      inside.length + 1 + rest.length := by
    simp only [List.cons_append, List.length_cons, List.length_append]
    omega
  have hsize : (q.remove c).sheet.nodes.size = p.sheet.nodes.size + (inside.length + 1) := by
    have hdetach : (q.remove c).sheet.nodes.size = q.sheet.nodes.size := size_detach _ _
    rw [hdetach, hentered.size_eq]
    omega
  refine ⟨inserted', q', ?_, ?_, hentered.nested hspread hnested, ?_⟩
  · rw [distribute_cons_of_lowered hkind hlow, hq]
  · rw [hlen, handles_add _ (inside.length + 1), ← hsize, ← List.append_assoc, hlast'']
  · rw [regionStats_append]
    exact hcount.trans
      ⟨hcount'.stats_eq, hcount'.warnings_eq, hcount'.inputs_eq.trans (inputs_detach _ _)⟩

/-- Going through the children of an at-rule succeeds and spreads its region. The induction is on
the region: the rule of a nested at-rule is the anchor of all that comes from the at-rule. -/
theorem Region.alwaysDistributes (hs : s.IsForest) (hsr : s.Ranked rank)
    (hreg : Region cx s parentClass cs region) :
    AlwaysDistributes cx s rank container parentClass cs region := by
  induction hreg with
  | nil =>
    intro lower p rule owner last front back _ hp _ hcont hlast
    exact ⟨last, p, rfl, by simpa [handles] using hlast, .nil hp hcont, .refl p⟩
  | other hname _ ih => exact alwaysDistributes_other hname ih
  | nested hname hin _ ihin ihrest => exact alwaysDistributes_nested hs hsr hname hin ihin ihrest

end Induction

end ClassRules.Lowering
