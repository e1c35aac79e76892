import StackLinker.Proofs.Linking.ProviderReferences
import StackLinker.Proofs.Substitution.Granting

/-!
# Attributes that are read

In a module that links, every attribute that is read in a reference or a declaration is one that its
target has: the target is a resource or a function, and unless it opts out of the catalog, the
catalog lists the attribute for its type (`attributes_offered_of_link`).

## Strategy

The check is made wherever a pass comes to an attribute whose target is free, and that may be a few
sweeps after the attribute was seen for the first time.  So suppose that no declared entity offers
the attribute.  Then no entity that is ever free does, since resolution changes references only.

* A node that asks for the attribute outlasts every pass, in its place, and no pass over it ends
  with clean notes (`shows_of_rewrites`).
* So an entity with such a node in its reference keeps waiting, or it is promoted with a fault on
  record.  Without diagnostics no free entity has one (`Denying`).
* A module is only handed back when all entities are free, no diagnostics are on record, and the
  passes over the declarations have ended with clean notes.
-/

namespace StackLinker

variable {placeholder : Placeholder} {v w : Value}

/-- Whether something in a value asks for a placeholder, argument maps apart. -/
def Value.Shows (v : Value) (placeholder : Placeholder) : Prop :=
  ∃ place node, v.StandsAt place node ∧ node.AsksFor placeholder

/-- A linked value asks for names that are exempt, and for no others. -/
theorem Value.IsLinked.not_shows {config : Config} (h : v.IsLinked config)
    (hexempt : config.isExempt placeholder.name = false) : ¬ v.Shows placeholder := by
  rintro ⟨place, node, hstands, form, hform, hplaceholder⟩
  have hasked := h node (mem_nodes_of_at? hstands.at_eq) form placeholder.name hform
    (Form.placeholder?_eq_some hplaceholder)
  simp [hexempt] at hasked

namespace Surroundings

variable {around : Surroundings} {source : String} {path : Path} {notes later : Outcome}

/-- What asks for something that is not granted stays where it is, and leaves a note. -/
theorem shows_of_rewrites (hexempt : around.config.isExempt placeholder.name = false)
    (hgrant : around.grant? placeholder = none)
    (h : v.Rewrites (around.rule source) path notes w later) (hshows : v.Shows placeholder) :
    w.Shows placeholder ∧ ¬ later.IsClean := by
  obtain ⟨place, node, hstands, form, hform, hplaceholder⟩ := hshows
  have hsettle : ∀ path notes, around.settle source path node form notes =
      (node, around.note source path placeholder notes) := by
    intro path notes
    rw [settle_target_eq hplaceholder, hgrant, Option.getD_none]
  obtain ⟨before, hx, -, hlater⟩ := Value.exists_visit_of_rewrites (growsTo_settle around source)
    (keepsArguments_settle around source) hform (Form.placeholder?_eq_some hplaceholder)
    (fun path notes => by rw [hsettle]; exact Form.isReserved_of_recognize? hform) h hstands
  rw [hsettle] at hx hlater
  refine ⟨⟨place, node, hx, form, hform, hplaceholder⟩, fun hclean => ?_⟩
  have hnoted := isExempt_of_isClean_note hgrant (hlater.isClean hclean)
  simp [hexempt] at hnoted

end Surroundings

/-! ## Steps -/

variable {config : Config} {catalog : Catalog} {graph : ModuleGraph} {key attr : String}

/-- Whether no entity of the module offers an attribute under a name. -/
def ModuleGraph.Denies (catalog : Catalog) (graph : ModuleGraph) (key attr : String) : Prop :=
  ∀ target ∈ graph.entities, target.fullName = key → target.offers catalog attr = false

namespace Resolver

variable {resolver next : Resolver} {rounds : List (List String)} {n : Nat}

/-- Resolution changes nothing about an entity that its attributes depend on. -/
theorem grant?_of_denies (hdenies : graph.Denies resolver.catalog key attr)
    (hkept : Kept graph rounds resolver) :
    resolver.surroundings.grant? ⟨key, some attr⟩ = none := by
  unfold Surroundings.grant?
  cases hmeaning : resolver.surroundings.meaning key with
  | free target =>
      have hfind := (Surroundings.meaning_eq_free_iff.1 hmeaning).2
      obtain ⟨origin, horigin, htarget⟩ := hkept.declared target
        (List.mem_append_left _ (Entity.mem_of_find? hfind))
      have hname : origin.fullName = key := by
        rw [← Entity.fullName_of_find? hfind, htarget]
        rfl
      have hoffers : target.offers resolver.catalog attr = false := by
        rw [htarget]
        exact hdenies origin horigin hname
      simp [surroundings, hoffers]
  | _ => rfl

/-- What the steps of a resolver preserve in a module that denies an attribute: what is asked for
stays asked for, and unless something is on record, it was not asked for in what is free. -/
structure Denying (config : Config) (catalog : Catalog) (graph : ModuleGraph)
    (placeholder : Placeholder) (resolver : Resolver) : Prop where
  kept : ∃ rounds, Kept graph rounds resolver
  config_eq : resolver.config = config
  catalog_eq : resolver.catalog = catalog
  references : ∀ entity ∈ resolver.free ++ resolver.bound, ∀ origin ∈ graph.entities,
    origin.fullName = entity.fullName → origin.reference.Shows placeholder →
      entity.reference.Shows placeholder
  recorded : resolver.diagnostics = [] → ∀ entity ∈ resolver.free, ∀ origin ∈ graph.entities,
    origin.fullName = entity.fullName → ¬ origin.reference.Shows placeholder

theorem denying_start {partition : Partition} (hnodup : graph.names.Nodup)
    (hexempt : config.isExempt placeholder.name = false)
    (hpartition : graph.partition = .ok partition) :
    Denying config catalog graph placeholder (start config catalog partition) := by
  refine ⟨⟨[], kept_start hpartition config catalog⟩, rfl, rfl, ?references, ?recorded⟩
  case references =>
    intro entity hentity origin horigin hname hshows
    rwa [← declared_eq_of_start hnodup hpartition horigin hentity hname]
  case recorded =>
    intro hdiagnostics entity hentity origin horigin hname
    rw [declared_eq_of_start hnodup hpartition horigin (List.mem_append_left _ hentity) hname]
    have hlinked := (freeLinked_start hpartition).linked hdiagnostics entity hentity
    exact hlinked.not_shows hexempt

theorem denying_step (hexempt : config.isExempt key = false)
    (hdenies : graph.Denies catalog key attr)
    (h : Denying config catalog graph ⟨key, some attr⟩ resolver)
    (hstep : resolver.step = (next, .ok n)) :
    Denying config catalog graph ⟨key, some attr⟩ next := by
  obtain ⟨rounds, hkept⟩ := h.kept
  have hgrant := grant?_of_denies (h.catalog_eq ▸ hdenies) hkept
  have hconfig : resolver.surroundings.config = config := h.config_eq
  have hpass : ∀ {name v w outcome}, resolver.surroundings.apply name v = .ok (w, outcome) →
      v.Shows ⟨key, some attr⟩ → w.Shows ⟨key, some attr⟩ ∧ ¬ outcome.IsClean := by
    intro name v w outcome happly
    exact Surroundings.shows_of_rewrites (hconfig ▸ hexempt) hgrant
      (Surroundings.apply_eq_ok_iff.1 happly)
  refine ⟨hkept.step hstep, ?config, ?catalog, ?references, ?recorded⟩
  case config =>
    rw [(step_eq_ok hstep).2.2]
    exact h.config_eq
  case catalog =>
    rw [(step_eq_ok hstep).2.2]
    exact h.catalog_eq
  case references =>
    refine forall_references_step (R := fun name v => ∀ origin ∈ graph.entities,
      origin.fullName = name → origin.reference.Shows ⟨key, some attr⟩ →
        v.Shows ⟨key, some attr⟩) ?_ h.references hstep
    intro name v w outcome happly hv origin horigin hname hshows
    exact (hpass happly (hv origin horigin hname hshows)).1
  case recorded =>
    intro hdiagnostics entity hentity origin horigin hname hshows
    rcases isClean_of_mem_free_step hstep hdiagnostics hentity with
      hfree | ⟨pending, hpending, value, outcome, happly, hclean, rfl⟩
    · have hnone := diagnostics_eq_nil_of_step hstep hdiagnostics
      exact h.recorded hnone entity hfree origin horigin hname hshows
    · have hbound : pending.entity ∈ resolver.free ++ resolver.bound :=
        List.mem_append_right _ (List.mem_map_of_mem hpending)
      exact (hpass happly (h.references _ hbound origin horigin hname hshows)).2 hclean

/-- If a module is handed back, nothing in it asks for an attribute that no entity offers. -/
theorem not_shows_of_resolve {resolved : ModuleGraph} {partition : Partition} {stats : Stats}
    (hvalid : graph.Valid) (hexempt : config.isExempt key = false)
    (hdenies : graph.Denies catalog key attr) (hpartition : graph.partition = .ok partition)
    (h : resolve config catalog partition = .ok (resolved, stats)) :
    ∀ origin ∈ graph.entities, ¬ origin.reference.Shows ⟨key, some attr⟩ ∧
      ∀ declared, origin.definition = some declared → ¬ declared.Shows ⟨key, some attr⟩ := by
  obtain ⟨final, hfinal, hend⟩ := resolve_invariant (denying_step hexempt hdenies)
    (denying_start hvalid.nodup hexempt hpartition) h
  obtain ⟨rounds, hkept⟩ := hfinal.kept
  have hconfig : final.surroundings.config = config := hfinal.config_eq
  intro origin horigin
  obtain ⟨entity, -, value, -, hfree, hlink⟩ :=
    (hend.forall₂_declared hkept hvalid).exists_of_mem_left horigin
  refine ⟨hfinal.recorded hend.diagnostics _ hfree origin horigin rfl, ?_⟩
  intro declared hdeclared hshows
  obtain ⟨linked, outcome, happly, hclean, -⟩ :=
    isClean_linkFree hend.bound_surroundings hfree hlink hdeclared
  have hgrant := grant?_of_denies (hfinal.catalog_eq ▸ hdenies) hkept
  exact (Surroundings.shows_of_rewrites (hconfig ▸ hexempt) hgrant
    (Surroundings.apply_eq_ok_iff.1 happly) hshows).2 hclean

end Resolver

/-! ## Linked modules -/

namespace ModuleGraph

variable {linked : LinkedModule}

/-- If a module links, then every attribute that is read in a reference or a declaration belongs to
a resource or a function, which opts out of the catalog or has the attribute according to it. -/
theorem attributes_offered_of_link (hvalid : graph.Valid)
    (h : graph.link config catalog = .ok linked) {entity : Entity}
    (hentity : entity ∈ graph.entities)
    (hv : v = entity.reference ∨ entity.definition = some v) {place : Path} {node : Value}
    (hstands : v.StandsAt place node)
    (hform : Form.recognize? node = .ok (some (.attributeOf key attr)))
    (hexempt : config.isExempt key = false) :
    ∃ target, graph.get? key = some target ∧
      (target.kind = .resource ∨ target.kind = .function) ∧
      (target.hasPragma .noTypeValidation = true ∨
        catalog.supports target.typeName attr = true) := by
  obtain ⟨partition, resolved, stats, finalized, hpartition, hresolve, -⟩ := link_eq_ok h
  have hshows : v.Shows ⟨key, some attr⟩ := ⟨place, node, hstands, _, hform, rfl⟩
  have hoffered : ¬ graph.Denies catalog key attr := by
    intro hdenies
    have hnone := Resolver.not_shows_of_resolve hvalid hexempt hdenies hpartition hresolve entity
      hentity
    rcases hv with rfl | hsome
    · exact hnone.1 hshows
    · exact hnone.2 v hsome hshows
  unfold Denies at hoffered
  push Not at hoffered
  obtain ⟨target, htarget, hname, hoffers⟩ := hoffered
  simp only [Entity.offers, ne_eq, Bool.not_eq_false, Bool.and_eq_true, Bool.or_eq_true]
    at hoffers
  refine ⟨target, (Entity.find?_eq_some_iff hvalid.nodup).2 ⟨htarget, hname⟩, ?_, hoffers.2⟩
  cases hkind : target.kind <;> simp_all [EntityKind.isManaged]

/-- A function reads attributes of a queue and of itself, which opts out of the catalog; a value
hands one of them on as an argument of a substitution. -/
def reader : ModuleGraph where
  name := "Main"
  entities := [
    .value "Url" (.sub "${q}/${Run.Url}" [("q", .map [("Fn::GetAtt", .string "Queue.Arn")])]),
    { fullName := "Run"
      kind := .function
      reference := .ref "@Run"
      definition := some (.record { typeName := "Function" } (.map []) (.map [
        ("Self", .getAtt "Run" "Anything"), ("Url", .ref "Url")]))
      typeName := "Function"
      pragmas := [.noTypeValidation] },
    { fullName := "Queue", kind := .resource, reference := .ref "@Queue", typeName := "Queue" }]

/-- The catalog that lists one attribute of a queue. -/
def queueCatalog : Catalog := TypeTable.catalog { types := [("Queue", ["Arn"])] }

theorem attributes_offered_of_link_reader :
    ∃ linked, reader.link {} queueCatalog = .ok linked ∧
      (Value.sub "${q}/${Run.Url}" [("q", .map [("Fn::GetAtt", .string "Queue.Arn")])]).StandsAt
        ["Fn::Sub", "1", "q"] (.map [("Fn::GetAtt", .string "Queue.Arn")]) ∧
      ∃ target, reader.get? "Queue" = some target ∧
        (target.kind = .resource ∨ target.kind = .function) ∧
        (target.hasPragma .noTypeValidation = true ∨
          queueCatalog.supports target.typeName "Arn" = true) := by
  have hlinks : (reader.link {} queueCatalog).toOption.isSome = true := by decide +kernel
  obtain ⟨linked, hlinked⟩ := Option.isSome_iff_exists.1 hlinks
  have hlink := Resolver.eq_ok_of_toOption hlinked
  have hvalid : reader.Valid := ⟨by decide, by decide⟩
  have hstands : (Value.sub "${q}/${Run.Url}"
      [("q", .map [("Fn::GetAtt", .string "Queue.Arn")])]).StandsAt
      ["Fn::Sub", "1", "q"] (.map [("Fn::GetAtt", .string "Queue.Arn")]) := by
    refine ⟨by decide, ?_⟩
    rintro ⟨front, pair, hplace, -⟩
    have hlast := congrArg List.getLast? hplace
    simp at hlast
  have hform : Form.recognize? (.map [("Fn::GetAtt", .string "Queue.Arn")]) =
      .ok (some (.attributeOf "Queue" "Arn")) := by
    exact Resolver.eq_ok_of_toOption (by decide)
  have hentity : Entity.value "Url" (.sub "${q}/${Run.Url}"
      [("q", .map [("Fn::GetAtt", .string "Queue.Arn")])]) ∈ reader.entities := List.mem_cons_self
  exact ⟨linked, hlink, hstands,
    attributes_offered_of_link hvalid hlink hentity (Or.inl rfl) hstands hform (by decide +kernel)⟩

end ModuleGraph

end StackLinker
