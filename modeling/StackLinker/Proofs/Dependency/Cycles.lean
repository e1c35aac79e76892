import Mathlib.Data.Fintype.Card
import Mathlib.Data.List.Nodup
import Mathlib.Data.Set.Finite.Basic
import Mathlib.Logic.Relation
import Mathlib.Order.WellFounded
import StackLinker.Dependency

/-!
# Cycles of a graph

`Dependency.reachable` searches a graph breadth first, and `Dependency.components` puts names
together by what they reach.  Here both are tied to the arrows alone: a name is reached if and only
if a chain of arrows leads to it (`mem_reachable_iff`), and what is found are the strongly connected
components (`mem_components_iff`).

How they are arranged is proved apart from how they are found.  Given the components in any order,
and their members in any order (`AreComponents`), `Dependency.arrange` picks out those with several
members or with an arrow from a member to itself (`mem_arrange_iff`), puts them in the order of
their first members (`heads_arrange_sublist`), and gives the same groups in the same order whatever
it is given (`arrange_eq_cycles`).

The search is followed by the invariant `Searched`.  It stops because every step that goes on
reaches a name of the graph that was not reached before, provided that all arrows end in the graph.

A graph in which every name leads somewhere has a cycle (`exists_leadsTo_self`).
-/

namespace StackLinker

/-- Every key of a mapping with distinct keys has the value it is listed with. -/
theorem Fields.find?_eq_some_of_mem {α : Type} {key : String} {value : α} {fields : Fields α}
    (hnodup : fields.keys.Nodup) (h : (key, value) ∈ fields) : fields.find? key = some value := by
  induction fields with
  | nil => simp at h
  | cons field rest ih =>
      obtain ⟨k, v⟩ := field
      simp only [keys, List.map_cons, List.nodup_cons] at hnodup
      rcases List.mem_cons.1 h with heq | h
      · simp only [Prod.mk.injEq] at heq
        simp [find?, heq.1, heq.2]
      · have hne : k ≠ key := fun heq => hnodup.1 (heq ▸ List.mem_map_of_mem h)
        simpa [find?, hne] using ih hnodup.2 h

/-- Where nothing leads back to itself, one of finitely many things leads to none of them. -/
theorem exists_terminal {α : Type} {leads : α → α → Prop}
    (hacyclic : ∀ a, ¬ Relation.TransGen leads a a) (left : List α) (hne : left ≠ []) :
    ∃ a ∈ left, ∀ b, leads a b → b ∉ left := by
  let behind : {a // a ∈ left} → {a // a ∈ left} → Prop :=
    fun b a => Relation.TransGen leads a.1 b.1
  have htrans : IsTrans _ behind := ⟨fun c b a hcb hba => hba.trans hcb⟩
  have hirrefl : Std.Irrefl behind := ⟨fun a h => hacyclic a.1 h⟩
  have hfinite : Finite {a // a ∈ left} := (List.finite_toSet left).to_subtype
  have hwf : WellFounded behind := Finite.wellFounded_of_trans_of_irrefl behind
  obtain ⟨first, rest, rfl⟩ := List.exists_cons_of_ne_nil hne
  obtain ⟨last, -, hmin⟩ := hwf.has_min Set.univ ⟨⟨first, List.mem_cons_self⟩, Set.mem_univ _⟩
  refine ⟨last.1, last.2, fun b hleads hb => ?_⟩
  exact hmin ⟨b, hb⟩ (Set.mem_univ _) (Relation.TransGen.single hleads)

/-- Listing each item once. -/
theorem nodup_eraseDups {α : Type} [DecidableEq α] : ∀ l : List α, l.eraseDups.Nodup
  | [] => List.nodup_nil
  | a :: l => by
      have hlt : (l.filter fun b => !b == a).length < l.length + 1 :=
        Nat.lt_succ_of_le (List.length_filter_le _ _)
      rw [List.eraseDups_cons, List.nodup_cons, List.mem_eraseDups]
      exact ⟨by simp, nodup_eraseDups _⟩
termination_by l => l.length

namespace Dependency

variable {graph : Graph} {a b c name : String} {reached frontier group : List String}

/-! ## Arrows -/

/-- An arrow leads from the first name to the second. -/
def Arrow (graph : Graph) (a b : String) : Prop := b ∈ targets graph a

/-- A chain of one or more arrows leads from the first name to the second. -/
def LeadsTo (graph : Graph) : String → String → Prop := Relation.TransGen (Arrow graph)

/-- Every arrow ends at a name of the graph. -/
def IsClosed (graph : Graph) : Prop := ∀ a b, Arrow graph a b → b ∈ Fields.keys graph

theorem IsClosed.mem_keys (hclosed : IsClosed graph) (h : LeadsTo graph a b) :
    b ∈ Fields.keys graph := by
  cases h with
  | single harrow => exact hclosed _ _ harrow
  | tail _ harrow => exact hclosed _ _ harrow

/-! ## Search -/

/-- What holds at every stage of a search from a name. -/
structure Searched (graph : Graph) (name : String) (reached frontier : List String) : Prop where
  sound : ∀ b ∈ reached, LeadsTo graph name b
  first : ∀ b, Arrow graph name b → b ∈ reached
  /-- Behind the frontier all arrows have been followed. -/
  followed : ∀ b ∈ reached, b ∈ frontier ∨ ∀ c, Arrow graph b c → c ∈ reached
  frontier_subset : frontier ⊆ reached

/-- The names that the arrows from a frontier reach for the first time. -/
private def fresh (graph : Graph) (reached frontier : List String) : List String :=
  ((frontier.flatMap (targets graph)).filter fun name => !reached.contains name).eraseDups

private theorem mem_fresh : c ∈ fresh graph reached frontier ↔
    (∃ b ∈ frontier, Arrow graph b c) ∧ c ∉ reached := by
  simp [fresh, Arrow, List.mem_eraseDups]

theorem searched_start (graph : Graph) (name : String) :
    Searched graph name (targets graph name).eraseDups (targets graph name).eraseDups where
  sound _ hb := Relation.TransGen.single (List.mem_eraseDups.1 hb)
  first _ hb := List.mem_eraseDups.2 hb
  followed _ hb := Or.inl hb
  frontier_subset := List.Subset.refl _

private theorem Searched.step (h : Searched graph name reached frontier) :
    Searched graph name (reached ++ fresh graph reached frontier)
      (fresh graph reached frontier) := by
  refine ⟨?sound, ?first, ?followed, List.subset_append_right _ _⟩
  case sound =>
    intro b hb
    rcases List.mem_append.1 hb with hb | hb
    · exact h.sound b hb
    · obtain ⟨⟨a, ha, harrow⟩, -⟩ := mem_fresh.1 hb
      exact (h.sound a (h.frontier_subset ha)).tail harrow
  case first => exact fun b hb => List.mem_append_left _ (h.first b hb)
  case followed =>
    intro b hb
    rcases List.mem_append.1 hb with hb | hb
    · refine Or.inr fun c harrow => ?_
      by_cases hc : c ∈ reached
      · exact List.mem_append_left _ hc
      · rcases h.followed b hb with hfrontier | hall
        · exact List.mem_append_right _ (mem_fresh.2 ⟨⟨b, hfrontier, harrow⟩, hc⟩)
        · exact absurd (hall c harrow) hc
    · exact Or.inl hb

/-- A search that reaches nothing new has reached everything. -/
private theorem Searched.mem_iff (h : Searched graph name reached frontier)
    (hstop : fresh graph reached frontier = []) : b ∈ reached ↔ LeadsTo graph name b := by
  have hclosed : ∀ b ∈ reached, ∀ c, Arrow graph b c → c ∈ reached := by
    intro b hb c harrow
    by_contra hc
    rcases h.followed b hb with hfrontier | hall
    · have hmem : c ∈ fresh graph reached frontier := mem_fresh.2 ⟨⟨b, hfrontier, harrow⟩, hc⟩
      simp [hstop] at hmem
    · exact hc (hall c harrow)
  refine ⟨h.sound b, fun hleads => ?_⟩
  induction hleads with
  | single harrow => exact h.first _ harrow
  | tail _ harrow ih => exact hclosed _ ih _ harrow

/-- The names of a graph that are not reached. -/
private def unreached (graph : Graph) (reached : List String) : List String :=
  (Fields.keys graph).filter fun name => !reached.contains name

/-- A step that goes on reaches a name of the graph that was not reached before. -/
private theorem length_unreached_lt (hclosed : IsClosed graph)
    (hne : fresh graph reached frontier ≠ []) :
    (unreached graph (reached ++ fresh graph reached frontier)).length <
      (unreached graph reached).length := by
  obtain ⟨c, rest, hfresh⟩ := List.exists_cons_of_ne_nil hne
  have hc : c ∈ fresh graph reached frontier := hfresh ▸ List.mem_cons_self
  obtain ⟨⟨b, -, harrow⟩, hnew⟩ := mem_fresh.1 hc
  have hsame : unreached graph (reached ++ fresh graph reached frontier) =
      (unreached graph reached).filter
        fun name => !(fresh graph reached frontier).contains name := by
    simp [unreached, List.filter_filter, Bool.and_comm]
  rw [hsame, List.length_filter_lt_length_iff_exists]
  refine ⟨c, ?_, by simpa using hc⟩
  simpa [unreached, hnew] using hclosed b c harrow

private theorem mem_spread_iff (hclosed : IsClosed graph) {steps : Nat}
    (h : Searched graph name reached frontier)
    (hsteps : (unreached graph reached).length ≤ steps) :
    b ∈ spread graph steps reached frontier ↔ LeadsTo graph name b := by
  induction steps generalizing reached frontier with
  | zero =>
      have hstop : fresh graph reached frontier = [] := by
        by_contra hne
        have hlt := length_unreached_lt hclosed hne
        omega
      exact h.mem_iff hstop
  | succ steps ih =>
      have hspread : spread graph (steps + 1) reached frontier =
          if (fresh graph reached frontier).isEmpty then reached
          else spread graph steps (reached ++ fresh graph reached frontier)
            (fresh graph reached frontier) := rfl
      rw [hspread]
      split
      · rename_i hempty
        exact h.mem_iff (List.isEmpty_iff.1 hempty)
      · rename_i hempty
        rw [List.isEmpty_iff] at hempty
        have hlt := length_unreached_lt hclosed hempty
        exact ih h.step (by omega)

/-- A name is reached if and only if a chain of arrows leads to it. -/
theorem mem_reachable_iff (hclosed : IsClosed graph) :
    b ∈ reachable graph a ↔ LeadsTo graph a b := by
  refine mem_spread_iff hclosed (searched_start graph a) ?_
  calc (unreached graph (targets graph a).eraseDups).length
      ≤ (Fields.keys graph).length := List.length_filter_le _ _
    _ = graph.length := by simp [Fields.keys]

/-! ## Groups -/

/-- A strongly connected component of the arrows between some names, in the order of the names. -/
structure IsComponent (arrow : String → String → Prop) (names group : List String) : Prop where
  sublist : group.Sublist names
  /-- The members are the names that one of them leads to and that lead back to it. -/
  mutual_reach : ∃ a ∈ group, ∀ b, b ∈ group ↔
    b ∈ names ∧ Relation.ReflTransGen arrow a b ∧ Relation.ReflTransGen arrow b a

/-- A component with several members, or with an arrow from a member to itself. -/
structure IsCycle (arrow : String → String → Prop) (names group : List String) : Prop extends
    IsComponent arrow names group where
  loops : 2 ≤ group.length ∨ ∃ a ∈ group, arrow a a

/-- The order of the names only decides in which order the members stand. -/
theorem IsCycle.reorder {arrow : String → String → Prop} {names others group : List String}
    (h : IsCycle arrow names group) (hnodup : names.Nodup) (hperm : names.Perm others) :
    ∃ other, group.Perm other ∧ IsCycle arrow others other := by
  have hmem : ∀ b, b ∈ others.filter (fun name => decide (name ∈ group)) ↔ b ∈ group := by
    intro b
    rw [List.mem_filter, decide_eq_true_eq, ← hperm.mem_iff]
    exact ⟨And.right, fun hb => ⟨h.sublist.subset hb, hb⟩⟩
  have hgroup : group.Perm (others.filter fun name => decide (name ∈ group)) :=
    (List.perm_ext_iff_of_nodup (hnodup.sublist h.sublist)
      ((hperm.nodup_iff.1 hnodup).filter _)).2 fun b => (hmem b).symm
  obtain ⟨center, hcenter, hmembers⟩ := h.mutual_reach
  refine ⟨_, hgroup, ⟨⟨List.filter_sublist, center, (hmem center).2 hcenter, fun b => ?_⟩, ?_⟩⟩
  · rw [hmem, hmembers, hperm.mem_iff]
  · rw [← hgroup.length_eq]
    exact h.loops.imp_right fun ⟨a, ha, harrow⟩ => ⟨a, (hmem a).2 ha, harrow⟩

/-- Every member of a component reaches the same names there and back. -/
theorem IsComponent.mem_iff {arrow : String → String → Prop} {names group : List String}
    (h : IsComponent arrow names group) (ha : a ∈ group) : b ∈ group ↔
      b ∈ names ∧ Relation.ReflTransGen arrow a b ∧ Relation.ReflTransGen arrow b a := by
  obtain ⟨center, -, hmembers⟩ := h.mutual_reach
  obtain ⟨-, hto, hfrom⟩ := (hmembers a).1 ha
  rw [hmembers]
  exact and_congr_right fun _ =>
    ⟨fun hb => ⟨hfrom.trans hb.1, hb.2.trans hto⟩, fun hb => ⟨hto.trans hb.1, hb.2.trans hfrom⟩⟩

/-- Components with a common member are the same. -/
theorem IsComponent.eq_of_mem {arrow : String → String → Prop} {names group other : List String}
    (h : IsComponent arrow names group) (hother : IsComponent arrow names other)
    (hnodup : names.Nodup) (ha : a ∈ group) (haother : a ∈ other) : group = other := by
  have hperm : group.Perm other :=
    (List.perm_ext_iff_of_nodup (hnodup.sublist h.sublist) (hnodup.sublist hother.sublist)).2
      fun b => by rw [h.mem_iff ha, hother.mem_iff haother]
  exact (hnodup.perm_iff_eq_of_sublist h.sublist hother.sublist).1 hperm

theorem IsComponent.ne_nil {arrow : String → String → Prop} {names group : List String}
    (h : IsComponent arrow names group) : group ≠ [] :=
  List.ne_nil_of_mem h.mutual_reach.choose_spec.1

/-- Every member of a component that loops leads to every member. -/
theorem IsCycle.leadsTo (h : IsCycle (Arrow graph) (Fields.keys graph) group)
    (hnodup : (Fields.keys graph).Nodup) (ha : a ∈ group) (hb : b ∈ group) :
    LeadsTo graph a b := by
  have hreach : ∀ {x y}, x ∈ group → y ∈ group → Relation.ReflTransGen (Arrow graph) x y :=
    fun hx hy => ((h.mem_iff hx).1 hy).2.1
  -- Some member leads to itself, and every member leads there and back.
  obtain ⟨x, hx, hloop⟩ : ∃ x ∈ group, LeadsTo graph x x := by
    rcases h.loops with hlength | ⟨x, hx, harrow⟩
    · rcases hgroup : group with _ | ⟨x, _ | ⟨y, rest⟩⟩
      · simp [hgroup] at hlength
      · simp [hgroup] at hlength
      · have hne : x ≠ y := by
          have hdistinct := hnodup.sublist h.sublist
          simp only [hgroup, List.nodup_cons, List.mem_cons, not_or] at hdistinct
          exact hdistinct.1.1
        have hx : x ∈ group := by simp [hgroup]
        have hy : y ∈ group := by simp [hgroup]
        have hxy : LeadsTo graph x y :=
          (Relation.reflTransGen_iff_eq_or_transGen.1 (hreach hx hy)).resolve_left hne.symm
        exact ⟨x, by simp, hxy.trans_left (hreach hy hx)⟩
    · exact ⟨x, hx, .single harrow⟩
  exact (Relation.TransGen.trans_right (hreach ha hx) hloop).trans_left (hreach hx hb)

/-- A component is a cycle if one of its members leads to itself. -/
theorem IsComponent.isCycle (h : IsComponent (Arrow graph) (Fields.keys graph) group)
    (hclosed : IsClosed graph) (ha : a ∈ group) (hloop : LeadsTo graph a a) :
    IsCycle (Arrow graph) (Fields.keys graph) group := by
  refine ⟨h, ?_⟩
  -- The first arrow of the chain back to the name ends at the name or at another member.
  obtain ⟨b, harrow, hback⟩ := Relation.TransGen.head'_iff.1 hloop
  by_cases hb : b = a
  · exact Or.inr ⟨a, ha, hb ▸ harrow⟩
  · have hmem : b ∈ group := (h.mem_iff ha).2 ⟨hclosed a b harrow, .single harrow, hback⟩
    left
    rcases group with _ | ⟨c, _ | ⟨d, rest⟩⟩
    · simp at ha
    · simp only [List.mem_singleton] at ha hmem
      exact absurd (hmem.trans ha.symm) hb
    · simp

/-! ## Components -/

/-- The component of a name. -/
private def around (graph : Graph) (name : String) : List String :=
  componentOf (closure graph) name (reachable graph name)

private theorem around_eq (graph : Graph) (name : String) : around graph name =
    (Fields.keys graph).filter fun other => other == name ||
      (reachable graph name).contains other && (reachable graph other).contains name := by
  simp [around, componentOf, closure, Fields.keys, List.filter_map, Function.comp_def]

private theorem isComponent_around (hclosed : IsClosed graph) (ha : a ∈ Fields.keys graph) :
    IsComponent (Arrow graph) (Fields.keys graph) (around graph a) ∧ a ∈ around graph a := by
  have hmem : ∀ b, b ∈ around graph a ↔ b ∈ Fields.keys graph ∧
      Relation.ReflTransGen (Arrow graph) a b ∧ Relation.ReflTransGen (Arrow graph) b a := by
    intro b
    rw [around_eq, List.mem_filter]
    simp only [Bool.or_eq_true, Bool.and_eq_true, beq_iff_eq, List.contains_iff_mem,
      mem_reachable_iff hclosed, Relation.reflTransGen_iff_eq_or_transGen, LeadsTo]
    refine and_congr_right fun _ => ⟨?_, ?_⟩
    · rintro (rfl | ⟨hto, hfrom⟩)
      · exact ⟨Or.inl rfl, Or.inl rfl⟩
      · exact ⟨Or.inr hto, Or.inr hfrom⟩
    · rintro ⟨rfl | hto, hfrom⟩
      · exact Or.inl rfl
      · exact hfrom.imp Eq.symm fun hfrom => ⟨hto, hfrom⟩
  have hself : a ∈ around graph a := (hmem a).2 ⟨ha, .refl, .refl⟩
  refine ⟨⟨?_, a, hself, hmem⟩, hself⟩
  rw [around_eq]
  exact List.filter_sublist

private theorem components_eq (graph : Graph) : components graph =
    (Fields.keys graph).filterMap fun name =>
      if (around graph name).head? = some name then some (around graph name) else none := by
  rw [components, closure, Fields.keys, List.filterMap_map, List.filterMap_map]
  rfl

/-- What is found are the strongly connected components. -/
theorem mem_components_iff (hclosed : IsClosed graph) (hnodup : (Fields.keys graph).Nodup) :
    group ∈ components graph ↔ IsComponent (Arrow graph) (Fields.keys graph) group := by
  rw [components_eq, List.mem_filterMap]
  constructor
  · rintro ⟨name, hkey, hname⟩
    split at hname
    · obtain rfl := Option.some.inj hname
      exact (isComponent_around hclosed hkey).1
    · simp at hname
  · intro h
    obtain ⟨first, rest, hgroup⟩ := List.exists_cons_of_ne_nil h.ne_nil
    have hfirst : first ∈ group := hgroup ▸ List.mem_cons_self
    have hkey : first ∈ Fields.keys graph := h.sublist.subset hfirst
    obtain ⟨haround, hself⟩ := isComponent_around hclosed hkey
    refine ⟨first, hkey, ?_⟩
    rw [haround.eq_of_mem h hnodup hself hfirst, if_pos (by simp [hgroup])]

/-- No component is found twice. -/
theorem nodup_components (hnodup : (Fields.keys graph).Nodup) : (components graph).Nodup := by
  have hheads : ((components graph).map fun group => group.head?).Sublist
      ((Fields.keys graph).map some) := by
    rw [components_eq]
    induction Fields.keys graph with
    | nil => exact List.Sublist.refl _
    | cons name rest ih =>
        rw [List.filterMap_cons]
        split
        · exact ih.cons (some name)
        · rename_i group hgroup
          split at hgroup
          · rename_i hhead
            obtain rfl := Option.some.inj hgroup
            rw [List.map_cons, hhead]
            exact ih.cons_cons (some name)
          · simp at hgroup
  exact ((hnodup.map (Option.some_injective _)).sublist hheads).of_map _

/-- Whether some groups are the strongly connected components of a graph, each listed once, in
whatever order they and their members are listed. -/
structure AreComponents (graph : Graph) (found : List (List String)) : Prop where
  sound : ∀ group ∈ found, ∃ component, group.Perm component ∧
    IsComponent (Arrow graph) (Fields.keys graph) component
  complete : ∀ component, IsComponent (Arrow graph) (Fields.keys graph) component →
    ∃ group ∈ found, group.Perm component
  disjoint : found.Pairwise List.Disjoint

theorem areComponents_components (hclosed : IsClosed graph) (hnodup : (Fields.keys graph).Nodup) :
    AreComponents graph (components graph) where
  sound group hgroup := ⟨group, .refl _, (mem_components_iff hclosed hnodup).1 hgroup⟩
  complete component h := ⟨component, (mem_components_iff hclosed hnodup).2 h, .refl _⟩
  disjoint := by
    refine List.Pairwise.imp_of_mem (fun {group other} hgroup hother hne => ?_)
      (nodup_components hnodup)
    have hfirst := (mem_components_iff hclosed hnodup).1 hgroup
    have hsecond := (mem_components_iff hclosed hnodup).1 hother
    exact fun a ha haother => hne (hfirst.eq_of_mem hsecond hnodup ha haother)

/-! ## Sorting -/

section Sorting

variable {α : Type} {key : α → Nat} {item : α}

theorem insertBy_perm (key : α → Nat) (item : α) (l : List α) :
    (insertBy key item l).Perm (item :: l) := by
  induction l with
  | nil => exact .refl _
  | cons other rest ih =>
      rw [insertBy]
      split
      · exact .refl _
      · exact (ih.cons other).trans (.swap item other rest)

theorem sortBy_perm (key : α → Nat) (l : List α) : (sortBy key l).Perm l := by
  induction l with
  | nil => exact .refl _
  | cons item rest ih => exact (insertBy_perm key item _).trans (ih.cons item)

theorem pairwise_insertBy {l : List α} (h : l.Pairwise fun a b => key a ≤ key b) :
    (insertBy key item l).Pairwise fun a b => key a ≤ key b := by
  induction l with
  | nil => exact List.pairwise_singleton _ _
  | cons other rest ih =>
      obtain ⟨hother, hrest⟩ := List.pairwise_cons.1 h
      rw [insertBy]
      split
      · rename_i hle
        refine List.pairwise_cons.2 ⟨fun x hx => ?_, h⟩
        rcases List.mem_cons.1 hx with rfl | hx
        · exact hle
        · exact hle.trans (hother x hx)
      · rename_i hlt
        refine List.pairwise_cons.2 ⟨fun x hx => ?_, ih hrest⟩
        rcases List.mem_cons.1 ((insertBy_perm key item rest).subset hx) with rfl | hx
        · exact (Nat.lt_of_not_le hlt).le
        · exact hother x hx

theorem pairwise_sortBy (key : α → Nat) (l : List α) :
    (sortBy key l).Pairwise fun a b => key a ≤ key b := by
  induction l with
  | nil => exact .nil
  | cons item rest ih => exact pairwise_insertBy ih

/-- What is listed in the order of distinct keys is what sorting gives. -/
theorem sortBy_eq_of_perm {l sorted : List α} (hperm : l.Perm sorted)
    (hsorted : sorted.Pairwise fun a b => key a ≤ key b)
    (hkey : ∀ a ∈ sorted, ∀ b ∈ sorted, key a = key b → a = b) : sortBy key l = sorted := by
  have hsame := (sortBy_perm key l).trans hperm
  refine hsame.eq_of_pairwise (fun a b ha hb hab hba => ?_) (pairwise_sortBy key l) hsorted
  exact hkey a (hsame.subset ha) b hb (Nat.le_antisymm hab hba)

end Sorting

/-! ## Arrangement -/

theorem position_inj (ha : a ∈ Fields.keys graph) (h : position graph a = position graph b) :
    a = b :=
  (List.idxOf_inj ha).1 h

/-- Names follow the order of the graph if and only if their positions grow. -/
theorem sublist_keys_iff (hnodup : (Fields.keys graph).Nodup)
    (hsubset : group ⊆ Fields.keys graph) : group.Sublist (Fields.keys graph) ↔
      group.Pairwise fun a b => position graph a < position graph b := by
  have hkeys : (Fields.keys graph).Pairwise fun a b => position graph a < position graph b := by
    refine List.pairwise_iff_getElem.2 fun i j hi hj hlt => ?_
    rwa [position, position, hnodup.idxOf_getElem, hnodup.idxOf_getElem]
  refine ⟨fun h => hkeys.sublist h, fun h => ?_⟩
  -- Those of the names that are in the group are the group itself.
  have hfilter : (Fields.keys graph).filter (fun a => decide (a ∈ group)) = group := by
    refine List.Perm.eq_of_pairwise (fun a b _ _ hab hba => absurd hba hab.asymm)
      (hkeys.filter _) h ?_
    refine (List.perm_ext_iff_of_nodup (hnodup.filter _) (h.imp fun hlt => ?_)).2 fun a => ?_
    · exact fun heq => absurd (heq ▸ hlt) (lt_irrefl _)
    · simpa using fun ha => hsubset ha
  exact hfilter ▸ List.filter_sublist

variable {found : List (List String)}

/-- Whether a component loops does not depend on the order in which its members are listed. -/
theorem loops_iff {component : List String} (hperm : group.Perm component) (hne : component ≠ []) :
    loops graph group = true ↔ 2 ≤ component.length ∨ ∃ a ∈ component, Arrow graph a a := by
  simp only [← hperm.length_eq, ← hperm.mem_iff]
  rcases group with _ | ⟨a, _ | ⟨b, rest⟩⟩
  · exact absurd hperm.nil_eq.symm hne
  · simp [loops, Arrow]
  · simp [loops]

/-- Sorting the members of a component. -/
theorem IsComponent.sortBy_eq {component : List String}
    (h : IsComponent (Arrow graph) (Fields.keys graph) component)
    (hnodup : (Fields.keys graph).Nodup) (hperm : group.Perm component) :
    sortBy (position graph) group = component := by
  have hsubset := h.sublist.subset
  have hpositions := (sublist_keys_iff hnodup hsubset).1 h.sublist
  exact sortBy_eq_of_perm hperm (hpositions.imp Nat.le_of_lt)
    fun a ha _ _ heq => position_inj (hsubset ha) heq

/-- However the components are found, the groups are those that loop. -/
theorem mem_arrange_iff (h : AreComponents graph found) (hnodup : (Fields.keys graph).Nodup) :
    group ∈ arrange graph found ↔ IsCycle (Arrow graph) (Fields.keys graph) group := by
  rw [arrange, (sortBy_perm _ _).mem_iff, List.mem_map]
  constructor
  · rintro ⟨members, hmembers, rfl⟩
    obtain ⟨hfound, hloops⟩ := List.mem_filter.1 hmembers
    obtain ⟨component, hperm, hcomponent⟩ := h.sound members hfound
    rw [hcomponent.sortBy_eq hnodup hperm]
    exact ⟨hcomponent, (loops_iff hperm hcomponent.ne_nil).1 hloops⟩
  · intro hcycle
    obtain ⟨members, hfound, hperm⟩ := h.complete group hcycle.toIsComponent
    refine ⟨members, List.mem_filter.2 ⟨hfound, ?_⟩, hcycle.sortBy_eq hnodup hperm⟩
    exact (loops_iff hperm hcycle.ne_nil).2 hcycle.loops

/-- No group is listed twice. -/
theorem nodup_arrange (h : AreComponents graph found) : (arrange graph found).Nodup := by
  rw [arrange, (sortBy_perm _ _).nodup_iff, List.Nodup, List.pairwise_map]
  refine (h.disjoint.filter (loops graph)).imp_of_mem fun {members other} hmembers _ hdisjoint => ?_
  -- Sorted alike, the two would have a member in common.
  intro heq
  obtain ⟨component, hperm, hcomponent⟩ := h.sound members (List.mem_filter.1 hmembers).1
  obtain ⟨a, ha⟩ := List.exists_mem_of_ne_nil _ hcomponent.ne_nil
  rw [← hperm.mem_iff] at ha
  refine hdisjoint ha ?_
  rwa [← (sortBy_perm (position graph) other).mem_iff, ← heq, (sortBy_perm _ members).mem_iff]

/-- Two groups with the same first member are the same. -/
theorem eq_of_headD_eq (h : AreComponents graph found) (hnodup : (Fields.keys graph).Nodup)
    {other : List String} (hgroup : group ∈ arrange graph found)
    (hother : other ∈ arrange graph found) (hhead : group.headD "" = other.headD "") :
    group = other := by
  have hcycle := (mem_arrange_iff h hnodup).1 hgroup
  have hcycle' := (mem_arrange_iff h hnodup).1 hother
  obtain ⟨first, rest, rfl⟩ := List.exists_cons_of_ne_nil hcycle.ne_nil
  obtain ⟨second, rest', rfl⟩ := List.exists_cons_of_ne_nil hcycle'.ne_nil
  obtain rfl : first = second := hhead
  exact hcycle.eq_of_mem hcycle'.toIsComponent hnodup List.mem_cons_self List.mem_cons_self

/-- The groups stand in the order of their first members. -/
theorem heads_arrange_sublist (h : AreComponents graph found) (hnodup : (Fields.keys graph).Nodup) :
    ((arrange graph found).map fun group => group.headD "").Sublist (Fields.keys graph) := by
  have hcycle : ∀ group ∈ arrange graph found, group.headD "" ∈ Fields.keys graph := by
    intro group hgroup
    have hcomponent := ((mem_arrange_iff h hnodup).1 hgroup).toIsComponent
    obtain ⟨first, rest, rfl⟩ := List.exists_cons_of_ne_nil hcomponent.ne_nil
    exact hcomponent.sublist.subset List.mem_cons_self
  have hdistinct : (arrange graph found).Pairwise fun a b => a ≠ b := nodup_arrange h
  refine (sublist_keys_iff hnodup fun name hname => ?_).2 ?_
  · obtain ⟨group, hgroup, rfl⟩ := List.mem_map.1 hname
    exact hcycle group hgroup
  · rw [List.pairwise_map]
    refine (hdistinct.and (pairwise_sortBy _ _)).imp_of_mem fun {a b} ha hb hab => ?_
    refine Nat.lt_of_le_of_ne hab.2 fun heq => hab.1 ?_
    exact eq_of_headD_eq h hnodup ha hb (position_inj (hcycle a ha) heq)

/-- However the components are found, the groups are the same and stand in the same order. -/
theorem arrange_eq_cycles (h : AreComponents graph found) (hclosed : IsClosed graph)
    (hnodup : (Fields.keys graph).Nodup) : arrange graph found = cycles graph := by
  have hcomponents := areComponents_components hclosed hnodup
  have hmem : ∀ group, group ∈ arrange graph found ↔ group ∈ cycles graph := fun group =>
    (mem_arrange_iff h hnodup).trans (mem_arrange_iff hcomponents hnodup).symm
  have hperm : (arrange graph found).Perm (cycles graph) :=
    (List.perm_ext_iff_of_nodup (nodup_arrange h) (nodup_arrange hcomponents)).2 hmem
  refine hperm.eq_of_pairwise (fun a b ha hb hab hba => ?_) (pairwise_sortBy _ _)
    (pairwise_sortBy _ _)
  have hb := (hmem b).2 hb
  refine eq_of_headD_eq h hnodup ha hb (position_inj ?_ (Nat.le_antisymm hab hba))
  exact (heads_arrange_sublist h hnodup).subset (List.mem_map_of_mem ha)

/-- Components that were found from the end, with their members in any order. -/
example : arrange [("A", ["B"]), ("B", ["A"]), ("C", ["C"]), ("D", ["A"])]
    [["D"], ["C"], ["B", "A"]] = [["A", "B"], ["C"]] := by decide

section Cycles

variable (hclosed : IsClosed graph) (hnodup : (Fields.keys graph).Nodup)

include hclosed hnodup

/-- The groups are the strongly connected components that loop. -/
theorem mem_cycles_iff :
    group ∈ cycles graph ↔ IsCycle (Arrow graph) (Fields.keys graph) group :=
  mem_arrange_iff (areComponents_components hclosed hnodup) hnodup

/-- The groups stand in the order of their first members. -/
theorem heads_cycles_sublist :
    ((cycles graph).map fun group => group.headD "").Sublist (Fields.keys graph) :=
  heads_arrange_sublist (areComponents_components hclosed hnodup) hnodup

/-- No group is listed twice. -/
theorem nodup_cycles : (cycles graph).Nodup :=
  nodup_arrange (areComponents_components hclosed hnodup)

/-- The members of the groups are the names that lead to themselves. -/
theorem exists_mem_cycles_iff : (∃ group ∈ cycles graph, a ∈ group) ↔ LeadsTo graph a a := by
  constructor
  · rintro ⟨group, hgroup, ha⟩
    exact ((mem_cycles_iff hclosed hnodup).1 hgroup).leadsTo hnodup ha ha
  · intro h
    obtain ⟨hcomponent, ha⟩ := isComponent_around hclosed (hclosed.mem_keys h)
    exact ⟨around graph a,
      (mem_cycles_iff hclosed hnodup).2 (hcomponent.isCycle hclosed ha h), ha⟩

end Cycles

/-! ## Endless chains -/

/-- Where every name leads somewhere, some name leads to itself. -/
theorem exists_leadsTo_self (hclosed : IsClosed graph) (hne : Fields.keys graph ≠ [])
    (h : ∀ a ∈ Fields.keys graph, ∃ b, Arrow graph a b) : ∃ a, LeadsTo graph a a := by
  by_contra hnone
  obtain ⟨last, hlast, hend⟩ := exists_terminal (not_exists.1 hnone) (Fields.keys graph) hne
  obtain ⟨b, harrow⟩ := h last hlast
  exact hend b harrow (hclosed last b harrow)

end Dependency

end StackLinker
