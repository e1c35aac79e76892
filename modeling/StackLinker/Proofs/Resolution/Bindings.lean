import StackLinker.Proofs.Resolution.Keyed
import StackLinker.Proofs.Substitution.Reports

/-!
# Argument maps are bindings

The argument map of a substitution lists what the placeholders of its pattern are bound to.  A pass
comes to it before it comes to the substitution, and takes it for an ordinary map, unless a single
reserved key makes it up.  So outside that case nothing is reported of the map itself, and the
substitution keeps its place and its arguments, whatever their names are
(`bindings_after_calls`).  Where a single argument is called like a reserved key, the map is taken
for a form (`bindings_taken_for_forms`).

## Strategy

* A pass over the substitution turns it into one with the same arguments, rewritten, and added ones
  behind, which again is not made up of a reserved key (`binds_of_rewrites`).  It does not move,
  since an argument map stays out of the way (`Value.exists_standsAt_of_rewrites`).
* Whatever a pass reports leads to a node that a reserved key makes up, and it fails only where a
  node is malformed after its parts are rewritten.  The argument map is neither, and nothing else
  stands at its place, because keys are distinct.
-/

namespace StackLinker

namespace Value

variable {v w x node : Value} {place rest : Path} {names : List String} {pattern : String}
  {arguments : Fields Value}

/-- Whether a node is a substitution with arguments whose names begin with given ones, and whose
argument map is not itself made up of a reserved key. -/
def Binds (node : Value) (names : List String) : Prop :=
  ∃ pattern arguments, node = .template pattern (some arguments) ∧ arguments ≠ [] ∧
    names <+: Fields.keys arguments ∧ Fields.isReserved arguments = false

/-- Whether such a substitution stands at a place. -/
def BindsAt (v : Value) (place : Path) (names : List String) : Prop :=
  ∃ node, v.StandsAt place node ∧ node.Binds names

theorem Binds.isReserved (h : node.Binds names) : node.isReserved = true := by
  obtain ⟨pattern, arguments, rfl, -⟩ := h
  exact isReserved_template pattern (some arguments)

theorem at?_append (place rest : Path) (v : Value) :
    v.at? (place ++ rest) = (v.at? place).bind (at? rest) := by
  induction place generalizing v with
  | nil => rfl
  | cons segment place ih =>
      simp only [List.cons_append, at?, Option.bind_assoc]
      congr 1
      exact funext ih

/-- The argument map of a substitution stands two segments below it. -/
theorem at?_argumentsPath (h : v.at? place = some (.template pattern (some arguments))) :
    v.at? (argumentsPath place) = some (.map arguments) := by
  rw [argumentsPath, Path.push, Path.push, List.append_assoc, at?_append, h]
  rfl

/-- Parts of a substitution that a pass has rewritten make up a substitution. -/
theorem exists_template_of_thread {ν : Type} {action : FormAction ν} {path : Path}
    {parts : Fields Value} {notes later : ν} (hordinary : Fields.isReserved arguments = false)
    (h : Thread (fun key => Rewrites (Rule.ofForms action) (path.push key))
      (template pattern (some arguments)).children notes parts later) :
    ∃ done, (template pattern (some arguments)).withChildren parts =
      .template pattern (some done) := by
  have hmap : (Value.map arguments).isReserved = false := hordinary
  obtain ⟨body, rfl, hbody⟩ := Thread.thread_single_iff.1 h
  obtain ⟨first, second, _, rfl, hfirst, hsecond⟩ := rewrites_two_iff.1 hbody
  obtain ⟨rfl, -⟩ := rewrites_scalar_iff.1 hfirst
  obtain ⟨done, rfl, -⟩ := (rewrites_of_not_isReserved rfl hmap).1 hsecond
  exact ⟨done, rfl⟩

end Value

namespace Surroundings

variable {around : Surroundings} {source : String} {path place : Path} {node v w : Value}
  {outcome later : Outcome} {names : List String}

/-! ## Passes -/

/-- A pass over a substitution leaves one with the same arguments in front. -/
theorem binds_of_rewrites (h : node.Rewrites (around.rule source) path outcome w later)
    (hnode : node.Binds names) : w.Binds names := by
  obtain ⟨pattern, arguments, rfl, hne, hnames, hordinary⟩ := hnode
  have hmap : Fields.isReserved ((some arguments).getD []) = false := hordinary
  obtain ⟨done, between, hthread, hsettle⟩ := (Value.rewrites_template_iff hmap).1 h
  have hkeys : Fields.keys done = Fields.keys arguments := hthread.keys_eq
  have hdone : done ≠ [] := by
    rintro rfl
    exact hne (List.map_eq_nil_iff.1 hkeys.symm)
  obtain ⟨text, added, hadded, hresult⟩ :=
    settle_template around source path pattern hdone between
  refine ⟨text, done ++ added, ?_, by simp [hdone], ?_, isReserved_of_done hthread hordinary hadded⟩
  · exact (congrArg Prod.fst hsettle).symm.trans hresult
  · rw [Fields.keys, List.map_append]
    exact (hkeys ▸ hnames).trans (List.prefix_append _ _)

theorem bindsAt_of_rewrites (h : v.Rewrites (around.rule source) path outcome w later)
    (hv : v.BindsAt place names) : w.BindsAt place names := by
  obtain ⟨node, hstands, hnode⟩ := hv
  exact Value.exists_standsAt_of_rewrites (keepsArguments_settle around source)
    (fun _ hx => hx.isReserved) (fun hvisit => binds_of_rewrites hvisit hnode) h hstands

/-- A substitution is not taken for malformed, since its arguments make up a map again. -/
theorem not_findsMalformed_template {pattern : String} {arguments : Fields Value}
    (hordinary : Fields.isReserved arguments = false) :
    ¬ around.FindsMalformed source place (.template pattern (some arguments)) := by
  rintro ⟨before, parts, between, malformation, hthread, hmalformed⟩
  obtain ⟨done, hdone⟩ := Value.exists_template_of_thread hordinary hthread
  simp [hdone, Form.recognize?_template] at hmalformed

/-- How a pass treats the substitution at a place: nothing that it reports is about the argument
map, and the substitution stays in place with its arguments. -/
structure SparesArguments (around : Surroundings) (source : String) (v : Value) (place : Path)
    (names : List String) : Prop where
  /-- No structural error points at the substitution or at its argument map. -/
  error : ∀ {e}, around.apply source v = .error e →
    e.path ≠ source :: place ∧ e.path ≠ Value.argumentsPath (source :: place)
  /-- Names that are left in place and attributes that are refused are reported elsewhere. -/
  notes : ∀ {w outcome}, around.apply source v = .ok (w, outcome) →
    outcome.PointsAt fun path =>
      IsFormPath source v path ∧ path ≠ Value.argumentsPath (source :: place)
  binds : ∀ {w outcome}, around.apply source v = .ok (w, outcome) → w.BindsAt place names

/-- A pass spares the arguments of a substitution whose argument map is not made up of a reserved
key. -/
theorem sparesArguments (hv : v.IsKeyed) (h : v.BindsAt place names) :
    around.SparesArguments source v place names := by
  obtain ⟨_, hstands, pattern, arguments, rfl, hne, hnames, hordinary⟩ := h
  have hbinds : v.BindsAt place names :=
    ⟨_, hstands, pattern, arguments, rfl, hne, hnames, hordinary⟩
  have hat := Value.at?_argumentsPath hstands.at_eq
  have hmap : (Value.map arguments).isReserved = false := hordinary
  have hpath : Value.argumentsPath (source :: place) = source :: Value.argumentsPath place := rfl
  refine ⟨fun {e} he => ?error, fun {w outcome} happly => ?notes,
    fun happly => bindsAt_of_rewrites (apply_eq_ok_iff.1 happly) hbinds⟩
  case error =>
    obtain ⟨other, node, hother, hholds, hnode⟩ := exists_node_of_apply_error he
    rw [hother, hpath]
    refine ⟨fun hsame => ?_, fun hsame => ?_⟩
    · obtain ⟨-, rfl⟩ := List.cons.inj hsame
      obtain rfl := hv.eq_of_holds hholds hstands.at_eq
      rcases hnode with hnull | hmalformed
      · simp [Value.template] at hnull
      · exact not_findsMalformed_template hordinary hmalformed
    · obtain ⟨-, rfl⟩ := List.cons.inj hsame
      obtain rfl := hv.eq_of_holds hholds hat
      rcases hnode with hnull | hmalformed
      · simp at hnull
      · exact not_findsMalformed_of_not_isReserved hmap hmalformed
  case notes =>
    refine (pointsAt_of_apply happly).imp fun path hform => ⟨hform, ?_⟩
    rintro rfl
    obtain ⟨other, node, hsame, hholds, hreserved⟩ := hform
    obtain ⟨-, rfl⟩ := List.cons.inj (hpath.symm.trans hsame)
    obtain rfl := hv.eq_of_holds hholds hat
    simp [hmap] at hreserved

end Surroundings

namespace Resolver

variable {config : Config} {catalog : Catalog} {graph : ModuleGraph} {partition : Partition}

/-! ## Calls -/

/-- Whatever is called, a declared substitution stays in its place with its arguments. -/
theorem bindsAt_after_calls (hvalid : graph.Valid) (hpartition : graph.partition = .ok partition)
    (calls : List Call) {origin : Entity} (horigin : origin ∈ graph.entities) {place : Path}
    {names : List String} (hbinds : origin.reference.BindsAt place names) :
    ∀ entity ∈ ((start config catalog partition).after calls).free ++
        ((start config catalog partition).after calls).bound,
      entity.fullName = origin.fullName → entity.reference.BindsAt place names := by
  obtain ⟨rounds, hrounds⟩ := exists_iterated (start config catalog partition) calls
  refine forall_entities_of_iterated (Q := fun entity => entity.fullName = origin.fullName →
    entity.reference.BindsAt place names) ?_ ?_ hrounds
  · intro resolver _ entity value outcome happly hentity hname
    exact Surroundings.bindsAt_of_rewrites (Surroundings.apply_eq_ok_iff.1 happly) (hentity hname)
  · intro entity hentity hname
    obtain rfl := declared_eq_of_start hvalid.nodup hpartition horigin hentity hname.symm
    exact hbinds

/-- What is kept of the substitutions of a declared value in a later one.  A substitution that has
arguments, whose argument map is not made up of a reserved key, and that is not itself the argument
map of another one, is still there with its arguments, and the next pass spares them. -/
def KeepsBindings (resolver : Resolver) (source : String) (declared v : Value) : Prop :=
  ∀ place pattern arguments, declared.StandsAt place (.template pattern (some arguments)) →
    arguments ≠ [] → Fields.isReserved arguments = false →
      v.BindsAt place (Fields.keys arguments) ∧
        resolver.surroundings.SparesArguments source v place (Fields.keys arguments)

/-- Argument maps are bindings and no expressions, whatever the arguments are called and whatever is
called: the substitutions of a reference, and those of a declaration when it is linked, keep their
arguments, and no pass reports anything of the argument map itself. -/
theorem bindings_after_calls (hvalid : graph.Valid) (hpartition : graph.partition = .ok partition)
    (hkeyed : ∀ entity ∈ graph.entities, ∀ v ∈ entity.values, v.IsKeyed) (calls : List Call)
    {origin : Entity} (horigin : origin ∈ graph.entities) :
    ∃ value, ((start config catalog partition).after calls).partition.get? origin.fullName =
        some (origin.withReference value) ∧
      ((start config catalog partition).after calls).KeepsBindings origin.fullName origin.reference
        value ∧
      ∀ definition, origin.definition = some definition →
        ((start config catalog partition).after calls).KeepsBindings origin.fullName definition
          definition := by
  obtain ⟨rounds, hrounds⟩ := exists_iterated (start config catalog partition) calls
  have hkept := kept_of_iterated (kept_start hpartition config catalog) hrounds
  obtain ⟨value, hvalue⟩ := (hkept.accounts hvalid).declared origin horigin
  have hmem : origin.withReference value ∈ ((start config catalog partition).after calls).free ++
      ((start config catalog partition).after calls).bound := by
    rw [Partition.get?_eq_find?] at hvalue
    exact Entity.mem_of_find? hvalue
  have hreference : value.IsKeyed := isKeyed_after_calls hpartition
    (fun entity hentity => (Entity.forall_mem_values.1 (hkeyed entity hentity)).1) calls _ hmem
  refine ⟨value, hvalue, ?reference, ?definition⟩
  case reference =>
    intro place pattern arguments hstands hne hordinary
    have hbinds : value.BindsAt place (Fields.keys arguments) :=
      bindsAt_after_calls hvalid hpartition calls horigin
        ⟨_, hstands, pattern, arguments, rfl, hne, List.prefix_refl _, hordinary⟩ _ hmem rfl
    exact ⟨hbinds, Surroundings.sparesArguments hreference hbinds⟩
  case definition =>
    intro definition hdefinition place pattern arguments hstands hne hordinary
    have hbinds : definition.BindsAt place (Fields.keys arguments) :=
      ⟨_, hstands, pattern, arguments, rfl, hne, List.prefix_refl _, hordinary⟩
    have hdeclared := (Entity.forall_mem_values.1 (hkeyed origin horigin)).2 definition hdefinition
    exact ⟨hbinds, Surroundings.sparesArguments hdeclared hbinds⟩

/-- A substitution with an argument called `Ref`, and with one that is called like an entity. -/
def twofold : Value := .sub "${Ref} ${A} ${L}" [("Ref", .ref "B"), ("A", .ref "L")]

/-- An entity with `twofold` in its reference and in its declaration. -/
def twofoldEntity : Entity where
  fullName := "R"
  kind := .resource
  reference := .list [twofold]
  definition := some (.record { typeName := "T" } (.map []) (.map [("N", twofold)]))

def twofoldGraph : ModuleGraph where
  name := "Main"
  entities := [.value "L" (.list [.string "x"]), .value "A" (.string "a"), .value "B" (.ref "A"),
    twofoldEntity]

/-- The free and bound entities of `twofoldGraph`. -/
def twofoldPartition : Partition where
  name := "Main"
  order := ["L", "A", "B", "R"]
  free := [.value "L" (.list [.string "x"]), .value "A" (.string "a")]
  bound := [.value "B" (.ref "A"), twofoldEntity]

/-- Where a step leads from `twofoldPartition`. -/
def twofoldState : Resolver := (start {} .permissive twofoldPartition).after [.step]

/-- The reference of `twofoldEntity` in this state: the argument that is called like an entity has
received the list, and the list has become an argument of its own. -/
def twofoldReference : Value :=
  .list [.sub "${Ref} ${A} ${P0}"
    [("Ref", .ref "B"), ("A", .list [.string "x"]), ("P0", .list [.string "x"])]]

theorem bindings_after_calls_twofold :
    twofoldState.partition.get? "R" = some (twofoldEntity.withReference twofoldReference) ∧
      twofoldReference.BindsAt ["0"] ["Ref", "A"] ∧
      twofoldState.surroundings.SparesArguments "R" twofoldReference ["0"] ["Ref", "A"] ∧
      ∀ definition, twofoldEntity.definition = some definition →
        twofoldState.surroundings.SparesArguments "R" definition ["Properties", "N"]
          ["Ref", "A"] := by
  have hgraph : ModuleGraph.ofEntities "Main" twofoldGraph.entities = .ok twofoldGraph := by rfl
  have hpartition : twofoldGraph.partition = .ok twofoldPartition := by rfl
  have hkeyed : ∀ entity ∈ twofoldGraph.entities, ∀ v ∈ entity.values, v.IsKeyed := by decide
  have hentity : twofoldEntity ∈ twofoldGraph.entities := by decide
  obtain ⟨value, hvalue, hreference, hdefinition⟩ := @bindings_after_calls {} .permissive _ _
    (ModuleGraph.valid_ofEntities hgraph) hpartition hkeyed [.step] _ hentity
  have hnow : twofoldState.partition.get? "R" =
      some (twofoldEntity.withReference twofoldReference) := by
    decide +kernel
  obtain rfl : twofoldReference = value :=
    congrArg Entity.reference (Option.some.inj (hnow.symm.trans hvalue))
  -- The place of an argument map ends with the index of the second of a pair.
  have hplace : ∀ (v : Value) (place : Path), place.getLast? ≠ some "1" →
      ¬ v.IsArgumentMap place := by
    rintro v place hlast ⟨front, pair, rfl, -⟩
    simp at hlast
  obtain ⟨hbinds, hspares⟩ := hreference ["0"] _ _ ⟨rfl, hplace _ _ (by decide)⟩ (by simp) rfl
  refine ⟨hnow, hbinds, hspares, fun definition hsome => ?_⟩
  have hkeeps := hdefinition definition hsome
  obtain rfl := Option.some.inj hsome
  exact (hkeeps ["Properties", "N"] _ _ ⟨rfl, hplace _ _ (by decide)⟩ (by simp) rfl).2

/-- A module with a text, with a map that can be settled, and with a substitution that has a single
argument. -/
def clashingPartition (argument : String × Value) : Partition where
  name := "Main"
  order := ["A", "M", "V"]
  free := [.value "A" (.string "a")]
  bound := [.value "M" (.map [("k", .ref "A")]), .value "V" (.sub "p" [argument])]

/-- What a pass makes of the declared substitution after some calls. -/
def clashingPass (calls : List Call) (argument : String × Value) :
    Except StructuralError (Value × Outcome) :=
  ((start {} .permissive (clashingPartition argument)).after calls).surroundings.apply "V"
    (.sub "p" [argument])

/-- A single argument that is called like a reserved key is taken for a form: the argument map is
reported as a missing reference, as an invalid attribute or as malformed, the substitution becomes
malformed when the map gives way to a text, or its argument is lost to those of another map. -/
theorem bindings_taken_for_forms :
    clashingPass [] ("Ref", .string "x") = .ok (.sub "p" [("Ref", .string "x")],
        { missing := [⟨"x", ["V", "Fn::Sub", "1"]⟩] }) ∧
      clashingPass [] ("Fn::GetAtt", .string "A.x") =
        .ok (.sub "p" [("Fn::GetAtt", .string "A.x")],
          { invalid := [.invalidAttribute "V" "A" "V/Fn::Sub/1"
            "attribute 'x' requested from 'A', but a Value has no attributes"] }) ∧
      clashingPass [] ("Ref", .list []) =
        .error (.malformed ["V", "Fn::Sub", "1"] (.referenceTarget .list)) ∧
      clashingPass [] ("Ref", .string "A") = .error (.malformed ["V"] .patternArguments) ∧
      clashingPass [.step] ("Ref", .string "M") = .ok (.sub "p" [("k", .string "a")], {}) :=
  ⟨by decide +kernel, by decide +kernel, by decide +kernel, by decide +kernel, by decide +kernel⟩

end Resolver

end StackLinker
