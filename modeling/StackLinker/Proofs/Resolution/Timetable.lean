import StackLinker.Proofs.Dependency.Completeness
import StackLinker.Proofs.Resolution.Schedule
import StackLinker.Proofs.Substitution.Direct

/-!
# The timetable of references without substitutions

In references without substitutions whose forms are all well-formed as declared, a pass notes
exactly the names that are used and not free, and it changes what is used only by names that are
free (`exists_serves`).  So at any time a bound entity waits for exactly those of its declared
dependencies that are not free (`Traces`), and a run keeps to the ranks (`run_follows_ranks`).
-/

namespace StackLinker

namespace Value

variable {v : Value}

/-- A value without nulls and substitutions, all forms of which are well-formed. -/
structure IsSimple (v : Value) : Prop where
  direct : v.isDirect = true
  wellFormed : v.isWellFormed = true

theorem IsSimple.children (h : v.IsSimple) : ∀ child ∈ v.children, child.2.IsSimple :=
  fun child hchild => ⟨(isDirect_iff.1 h.direct).2 child hchild,
    (isWellFormed_iff_parts.1 h.wellFormed).2.2 child hchild⟩

/-- An ordinary node is simple if its parts are. -/
theorem isSimple_of_ordinary (hv : v.isCompound = true) (hordinary : v.isReserved = false)
    (hparts : ∀ child ∈ v.children, child.2.IsSimple) : v.IsSimple := by
  refine ⟨isDirect_iff.2 ⟨?_, fun child hchild => (hparts child hchild).direct⟩,
    isWellFormed_iff_parts.2 ⟨?_, ⟨none, recognize?_of_not_isReserved hordinary⟩,
      fun child hchild => (hparts child hchild).wellFormed⟩⟩
  · cases v with
    | map entries =>
        rcases entries with _ | ⟨⟨key, x⟩, _ | _⟩ <;>
          simp_all [isSubstitution, isReserved, Fields.isReserved]
    | _ => rfl
  · rintro rfl
    simp [isCompound] at hv

theorem isSimple_getAtt (key attr : String) : (getAtt key attr).IsSimple :=
  ⟨rfl, rfl⟩

end Value

namespace Surroundings

open Value

variable {around : Surroundings} {source name : String} {path : Path} {v w : Value}
  {parts done : Fields Value} {before after : Outcome}

/-! ## Passes -/

/-- What is known of the free entities while references are simple. -/
structure IsSteady (around : Surroundings) : Prop where
  mark : around.config.preserveMarker ≠ ""
  simple : ∀ target ∈ around.free, target.reference.IsSimple
  uses : ∀ target ∈ around.free, ∀ name ∈ target.reference.uses around.config,
    name ∈ Entity.names around.free

/-- What a pass makes of what a simple value uses. -/
structure Serves (around : Surroundings) (used left : String → Prop) (before after : Outcome) :
    Prop where
  /-- What is not free is used as before. -/
  uses : ∀ name, name ∉ Entity.names around.free → (left name ↔ used name)
  /-- Exactly what is used and not free is noted. -/
  noted : ∀ name, name ∈ after.unresolved ↔
    name ∈ before.unresolved ∨ used name ∧ name ∉ Entity.names around.free

/-- A pass over a reference or an attribute. -/
private theorem serves_target (hsteady : around.IsSteady) {form : Form}
    (hform : Form.recognize? v = .ok (some form)) {placeholder : Placeholder}
    (hplaceholder : form.placeholder? = some placeholder) (hv : v.IsSimple) :
    (around.settle source path v form before).1.IsSimple ∧
      around.Serves (· ∈ v.uses around.config)
        (· ∈ (around.settle source path v form before).1.uses around.config) before
        (around.settle source path v form before).2 := by
  have huses : ∀ {name}, name ∈ v.uses around.config ↔
      name = placeholder.name ∧ around.config.isExempt placeholder.name = false :=
    mem_uses_of_target? hform (Form.placeholder?_eq_some hplaceholder)
  -- Where something is granted, the name is free, and so is all that is used in its place.
  have hvalue : (around.settle source path v form before).1.IsSimple ∧
      ∀ name, name ∉ Entity.names around.free →
        (name ∈ (around.settle source path v form before).1.uses around.config ↔
          name ∈ v.uses around.config) := by
    rw [settle_target_fst hplaceholder]
    cases hgrant : around.grant? placeholder with
    | none => exact ⟨hv, fun name _ => Iff.rfl⟩
    | some granted =>
        obtain ⟨target, hmeaning, hcase⟩ := grant?_eq_some hgrant
        have hmem := mem_free_of_meaning hmeaning
        have hnot : ∀ name, name ∉ Entity.names around.free → name ∉ v.uses around.config := by
          intro name hname hused
          exact hname ((huses.1 hused).1 ▸ mem_names_of_meaning hmeaning)
        rcases hcase with ⟨-, rfl⟩ | ⟨attr, -, rfl⟩
        · exact ⟨hsteady.simple target hmem, fun name hname => iff_of_false
            (fun hused => hname (hsteady.uses target hmem name hused)) (hnot name hname)⟩
        · refine ⟨isSimple_getAtt _ _, fun name hname => iff_of_false ?_ (hnot name hname)⟩
          rw [Option.getD_some, mem_uses_of_target? (Form.recognize?_getAtt _ _) rfl,
            Config.isExempt_resourceName hsteady.mark target]
          simp
  refine ⟨hvalue.1, hvalue.2, fun name => ?_⟩
  rw [mem_unresolved_settle hplaceholder, isOpen_meaning_iff, Entity.find?_eq_none_iff, huses]
  refine or_congr_right ⟨?_, ?_⟩
  · rintro ⟨⟨hexempt, hnot⟩, rfl⟩
    exact ⟨⟨rfl, hexempt⟩, hnot⟩
  · rintro ⟨⟨rfl, hexempt⟩, hnot⟩
    exact ⟨⟨hexempt, hnot⟩, rfl⟩

/-- Passes over the parts of a node serve what the parts use. -/
private theorem exists_thread_serves {place : String → Path}
    (h : ∀ part ∈ parts, ∀ path before, ∃ w after,
      part.2.Rewrites (around.rule source) path before w after ∧ w.IsSimple ∧
        around.Serves (· ∈ part.2.uses around.config) (· ∈ w.uses around.config) before after)
    (before : Outcome) :
    ∃ done after, Thread (fun key => Rewrites (around.rule source) (place key)) parts before done
        after ∧ (∀ part ∈ done, part.2.IsSimple) ∧
      around.Serves (fun name => ∃ part ∈ parts, name ∈ part.2.uses around.config)
        (fun name => ∃ part ∈ done, name ∈ part.2.uses around.config) before after := by
  induction parts generalizing before with
  | nil => exact ⟨[], before, .nil before, by simp, by simp, by simp⟩
  | cons part rest ih =>
      obtain ⟨key, x⟩ := part
      obtain ⟨y, between, hhead, hy, hfirst⟩ := h (key, x) List.mem_cons_self (place key) before
      obtain ⟨done, after, htail, hdone, hrest⟩ :=
        ih (fun other hother => h other (List.mem_cons_of_mem _ hother)) between
      refine ⟨(key, y) :: done, after, .cons hhead htail, List.forall_mem_cons.2 ⟨hy, hdone⟩,
        fun name hname => ?_, fun name => ?_⟩
      · simp only [List.mem_cons, exists_eq_or_imp]
        exact or_congr (hfirst.uses name hname) (hrest.uses name hname)
      · rw [hrest.noted, hfirst.noted, or_assoc]
        simp only [List.mem_cons, exists_eq_or_imp]
        rw [or_and_right]

/-- A pass over a simple value reaches its end; it notes exactly what is used and not free, and
leaves it to be used. -/
theorem exists_serves (hsteady : around.IsSteady) (source : String) (hv : v.IsSimple) (path : Path)
    (before : Outcome) : ∃ w after, v.Rewrites (around.rule source) path before w after ∧
      w.IsSimple ∧
        around.Serves (· ∈ v.uses around.config) (· ∈ w.uses around.config) before after := by
  induction v using induction_on_children generalizing path before with
  | h v ih =>
      have hparts := fun child hchild => ih child hchild (hv.children child hchild)
      obtain ⟨hnull, ⟨found, hform⟩, -⟩ := isWellFormed_iff_parts.1 hv.wellFormed
      cases found with
      | some form =>
          obtain ⟨placeholder, hplaceholder⟩ :=
            exists_placeholder hform (isDirect_iff.1 hv.direct).1
          exact ⟨_, _, (rewrites_target_iff hform (Form.placeholder?_eq_some hplaceholder)).2 rfl,
            serves_target hsteady hform hplaceholder hv⟩
      | none =>
          have hordinary := Form.isReserved_eq_false_of_recognize? hform
          cases hcompound : v.isCompound with
          | false =>
              cases v with
              | null => exact absurd rfl hnull
              | scalar s =>
                  refine ⟨.scalar s, before, rewrites_scalar_iff.2 ⟨rfl, rfl⟩, hv,
                    fun name _ => Iff.rfl, fun name => ?_⟩
                  simp [uses_scalar]
              | _ => simp [isCompound] at hcompound
          | true =>
              obtain ⟨done, after, hthread, hdone, hserves⟩ :=
                @exists_thread_serves _ _ _ path.push hparts before
              have hkeys := hthread.keys_eq
              have hordinary' : (v.withChildren done).isReserved = false := by
                rw [isReserved_withChildren hkeys, hordinary]
              refine ⟨_, after, (rewrites_of_not_isReserved hcompound hordinary).2
                ⟨done, rfl, hthread⟩, isSimple_of_ordinary ?_ hordinary' ?_, fun name hname => ?_,
                fun name => ?_⟩
              · rw [isCompound_withChildren, hcompound]
              · rwa [children_withChildren hkeys]
              · rw [mem_uses_of_not_isReserved hordinary', mem_uses_of_not_isReserved hordinary,
                  children_withChildren hkeys]
                exact hserves.uses name hname
              · rw [mem_uses_of_not_isReserved hordinary]
                exact hserves.noted name

end Surroundings

namespace Resolver

open Value

variable {config : Config} {catalog : Catalog} {graph : ModuleGraph} {partition : Partition}
  {resolver next : Resolver} {n : Nat} {pending : Pending}

/-! ## The invariant -/

/-- What the steps of a resolver preserve while references are simple. -/
structure Traces (config : Config) (graph : ModuleGraph) (resolver : Resolver) : Prop where
  config_eq : resolver.config = config
  mark : config.preserveMarker ≠ ""
  simple : ∀ entity ∈ resolver.free ++ resolver.bound, entity.reference.IsSimple
  settled : ∀ entity ∈ resolver.free, ∀ name ∈ entity.reference.uses config,
    name ∈ Entity.names resolver.free
  /-- Of what is not free, a bound entity uses exactly what it was declared to use. -/
  uses : ∀ entity ∈ resolver.bound, ∀ name, name ∉ Entity.names resolver.free →
    (name ∈ entity.reference.uses config ↔ graph.DependsOn config entity.fullName name)

theorem traces_start (hnodup : graph.names.Nodup) (h : graph.partition = .ok partition)
    (hmark : config.preserveMarker ≠ "")
    (hsimple : ∀ entity ∈ graph.entities, entity.reference.IsSimple) (catalog : Catalog) :
    Traces config graph (start config catalog partition) := by
  refine ⟨rfl, hmark, fun entity hentity => hsimple entity (mem_entities_of_start h hentity),
    ?settled, ?uses⟩
  case settled =>
    -- What is free by its shape uses nothing.
    intro entity hentity name hname
    rw [uses_of_classify (classify_of_start h hentity)] at hname
    simp at hname
  case uses =>
    intro entity hentity name _
    have hdeclared := mem_entities_of_start h (List.mem_append_right _ hentity)
    exact (dependsOn_iff hnodup hdeclared).symm

theorem Traces.isSteady (h : Traces config graph resolver) : resolver.surroundings.IsSteady := by
  have hconfig : resolver.surroundings.config = config := h.config_eq
  exact ⟨hconfig ▸ h.mark, fun target htarget => h.simple target (List.mem_append_left _ htarget),
    fun target htarget name hname => h.settled target htarget name (hconfig ▸ hname)⟩

/-- A pass over a bound entity reaches its end, and it notes exactly the declared dependencies that
are not free. -/
theorem Traces.exists_apply (h : Traces config graph resolver) (hpending : pending ∈ resolver.waiting) :
    ∃ value outcome, resolver.surroundings.apply pending.entity.fullName pending.entity.reference =
        .ok (value, outcome) ∧ value.IsSimple ∧
      (∀ name, name ∉ Entity.names resolver.free → (name ∈ value.uses config ↔
        graph.DependsOn config pending.name name)) ∧
      ∀ name, name ∈ outcome.unresolved ↔
        graph.DependsOn config pending.name name ∧ name ∉ Entity.names resolver.free := by
  have hbound : pending.entity ∈ resolver.bound := List.mem_map_of_mem hpending
  have hconfig : resolver.surroundings.config = config := h.config_eq
  obtain ⟨value, outcome, hrewrites, hvalue, huses, hnoted⟩ := Surroundings.exists_serves h.isSteady
    pending.entity.fullName (h.simple _ (List.mem_append_right _ hbound)) [pending.entity.fullName] {}
  rw [hconfig] at huses hnoted
  have hdepends := h.uses pending.entity hbound
  refine ⟨value, outcome, Surroundings.apply_eq_ok_iff.2 hrewrites, hvalue, ?_, fun name => ?_⟩
  · intro name hname
    exact (huses name hname).trans (hdepends name hname)
  · rw [hnoted, or_iff_right (by simp [Outcome.unresolved])]
    exact and_congr_left fun hname => hdepends name hname

theorem Traces.apply_eq_ok (h : Traces config graph resolver) (hpending : pending ∈ resolver.waiting)
    {value : Value} {outcome : Outcome}
    (happly : resolver.surroundings.apply pending.entity.fullName pending.entity.reference =
      .ok (value, outcome)) : value.IsSimple ∧
      (∀ name, name ∉ Entity.names resolver.free → (name ∈ value.uses config ↔
        graph.DependsOn config pending.name name)) ∧
      ∀ name, name ∈ outcome.unresolved ↔
        graph.DependsOn config pending.name name ∧ name ∉ Entity.names resolver.free := by
  obtain ⟨_, _, hother, hfacts⟩ := h.exists_apply hpending
  rw [happly] at hother
  obtain ⟨rfl, rfl⟩ := Prod.mk.inj (Except.ok.inj hother)
  exact hfacts

theorem Traces.step (h : Traces config graph resolver) (hstep : resolver.step = (next, .ok n)) :
    Traces config graph next := by
  have hsubset : ∀ {name}, name ∈ Entity.names resolver.free → name ∈ Entity.names next.free := by
    intro name hname
    rw [names_free_step hstep]
    exact List.mem_append_left _ hname
  have hconfig : next.config = resolver.config := by rw [(step_eq_ok hstep).2.2]
  refine ⟨hconfig.trans h.config_eq, h.mark, ?simple, ?settled, ?uses⟩
  case simple =>
    intro entity hentity
    rcases List.mem_append.1 hentity with hfree | hbound
    · rcases of_mem_free_step hstep hfree with hold | ⟨pending, hpending, value, _, happly, -, rfl⟩
      · exact h.simple entity (List.mem_append_left _ hold)
      · exact (h.apply_eq_ok hpending happly).1
    · obtain ⟨kept, hkept, rfl⟩ := List.mem_map.1 hbound
      obtain ⟨pending, hpending, value, _, happly, -, rfl⟩ := of_mem_waiting_step hstep hkept
      exact (h.apply_eq_ok hpending happly).1
  case settled =>
    intro entity hentity name hname
    rcases of_mem_free_step hstep hentity with
      hold | ⟨pending, hpending, value, outcome, happly, hresolved, rfl⟩
    · exact hsubset (h.settled entity hold name hname)
    · -- A promoted entity has nothing left that is not free.
      obtain ⟨-, huses, hnoted⟩ := h.apply_eq_ok hpending happly
      by_contra hnot
      have hbefore : name ∉ Entity.names resolver.free := fun hfree => hnot (hsubset hfree)
      have hmem := (hnoted name).2 ⟨(huses name hbefore).1 hname, hbefore⟩
      simp [Outcome.isResolved_iff.1 hresolved] at hmem
  case uses =>
    intro entity hentity name hname
    obtain ⟨kept, hkept, rfl⟩ := List.mem_map.1 hentity
    obtain ⟨pending, hpending, value, _, happly, -, rfl⟩ := of_mem_waiting_step hstep hkept
    exact (h.apply_eq_ok hpending happly).2.1 name fun hfree => hname (hsubset hfree)

/-- Sweeps over simple references keep to the declared dependencies. -/
theorem schedules_traces : Schedules config graph (Traces config graph) := by
  refine schedules_of_noted (fun h hstep => h.step hstep) fun h pending hpending => ?_
  obtain ⟨value, outcome, happly, -, -, hnoted⟩ := h.exists_apply hpending
  exact ⟨value, outcome, happly, hnoted⟩

/-- The run of a module without substitutions promotes each entity in the iteration that its rank
says, leaves exactly the entities without a rank bound, and ends when no rank is left. -/
theorem run_follows_ranks (config : Config) (catalog : Catalog) (graph : ModuleGraph)
    (hnodup : graph.names.Nodup) (hmark : config.preserveMarker ≠ "")
    (hdirect : ∀ entity ∈ graph.entities, entity.reference.isDirect = true)
    (hwell : ∀ entity ∈ graph.entities, entity.reference.isWellFormed = true) :
    ∃ partition, graph.partition = .ok partition ∧
      (start config catalog partition).run.2 = none ∧
      ∃ rounds, Iterated (start config catalog partition) rounds
          (start config catalog partition).run.1 ∧
        FollowsRanks config graph rounds (start config catalog partition).run.1 := by
  have hnull : ∀ entity ∈ graph.entities, entity.reference ≠ .null := fun entity hentity =>
    (isWellFormed_iff_parts.1 (hwell entity hentity)).1
  obtain ⟨parts, hsplit⟩ := Entity.exists_split hnull
  obtain ⟨partition, hpartition⟩ : ∃ partition, graph.partition = .ok partition :=
    ⟨_, by rw [ModuleGraph.partition, hsplit]; rfl⟩
  exact ⟨partition, hpartition, schedules_traces.run hnodup hpartition
    (traces_start hnodup hpartition hmark
      (fun entity hentity => ⟨hdirect entity hentity, hwell entity hentity⟩) catalog)⟩

/-- A module with ranks up to 3, a cycle of `F` and `G`, and a name that is missing. -/
def dated : ModuleGraph where
  name := "Main"
  entities := [
    .value "D" (.map [("x", .ref "C"), ("y", .ref "B"), ("z", .ref "AWS::Id")]),
    .value "C" (.list [.ref "A", .ref "B"]), .value "B" (.ref "A"), .value "A" (.string "a"),
    { fullName := "R", kind := .resource, reference := .ref "@R" },
    .value "E" (.getAtt "R" "Arn"), .value "F" (.ref "G"), .value "G" (.list [.ref "F"]),
    .value "H" (.list [.ref "A", .ref "I"])]

theorem run_follows_ranks_dated :
    dated.names.Nodup ∧ ({} : Config).preserveMarker ≠ "" ∧
      (∀ entity ∈ dated.entities, entity.reference.isDirect = true) ∧
      (∀ entity ∈ dated.entities, entity.reference.isWellFormed = true) ∧
      ∃ partition, dated.partition = .ok partition ∧
        (start {} .permissive partition).run.2 = none ∧
        ∃ rounds, Iterated (start {} .permissive partition) rounds
            (start {} .permissive partition).run.1 ∧
          FollowsRanks {} dated rounds (start {} .permissive partition).run.1 := by
  have hnodup : dated.names.Nodup := by decide
  have hdirect : ∀ entity ∈ dated.entities, entity.reference.isDirect = true := by decide +kernel
  have hwell : ∀ entity ∈ dated.entities, entity.reference.isWellFormed = true := by decide +kernel
  exact ⟨hnodup, by decide, hdirect, hwell,
    run_follows_ranks {} .permissive dated hnodup (by decide) hdirect hwell⟩

end Resolver

end StackLinker
