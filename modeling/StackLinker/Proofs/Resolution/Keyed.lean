import StackLinker.Proofs.Form.Places
import StackLinker.Proofs.Resolution.WellFormed
import StackLinker.Proofs.Substitution.Requests

/-!
# Maps with distinct keys

The maps of a module are read with distinct keys.  A place below such a value leads to a single node
(`Value.IsKeyed.eq_of_holds`), so what is reported under a path is reported of that node and of no
other.

Resolution keeps the keys distinct (`Resolver.isKeyed_after_calls`).  A node keeps its keys when its
parts change, and what comes into the place of a form is keyed: a free reference, an attribute, a
text, or a substitution, to which arguments are added under new names only.
-/

namespace StackLinker

namespace Value

variable {v x node : Value} {place : Path} {parts : Fields Value}

/-- Whether a node has distinct keys, if it is a map. -/
def hasDistinctKeys : Value → Bool
  | .map entries => decide (Fields.keys entries).Nodup
  | _ => true

/-- Whether each map in a value has distinct keys. -/
def IsKeyed (v : Value) : Prop :=
  ∀ node ∈ v.nodes, node.hasDistinctKeys = true

instance (v : Value) : Decidable v.IsKeyed :=
  inferInstanceAs (Decidable (∀ node ∈ v.nodes, node.hasDistinctKeys = true))

theorem keys_indexed (index : Nat) (items : List Value) :
    Fields.keys (indexed index items) = (List.range' index items.length).map Nat.repr := by
  induction items generalizing index with
  | nil => rfl
  | cons x xs ih =>
      have hrest := ih (index + 1)
      simp only [Fields.keys] at hrest
      simp [indexed, Fields.keys, List.range'_succ, hrest]

/-- The parts of any other node stand under distinct segments anyway. -/
theorem hasDistinctKeys_iff : v.hasDistinctKeys = true ↔ (Fields.keys v.children).Nodup := by
  cases v with
  | list items =>
      rw [children, keys_indexed]
      exact iff_of_true rfl
        (List.Nodup.map (fun _ _ => Surroundings.repr_injective) List.nodup_range')
  | map entries => exact decide_eq_true_iff
  | _ => simp [hasDistinctKeys, children, Fields.keys]

/-- A value is keyed if its root and its parts are. -/
theorem isKeyed_iff_parts : v.IsKeyed ↔
    (Fields.keys v.children).Nodup ∧ ∀ child ∈ v.children, child.2.IsKeyed := by
  rw [← hasDistinctKeys_iff]
  constructor
  · intro h
    exact ⟨h v (self_mem_nodes v), fun child hchild node hnode =>
      h node (mem_nodes_of_mem_children hchild hnode)⟩
  · rintro ⟨hself, hparts⟩ node hnode
    rcases mem_nodes.1 hnode with rfl | ⟨child, hchild, hnode⟩
    · exact hself
    · exact hparts child hchild node hnode

/-- A substitution is keyed if its argument map is. -/
theorem isKeyed_template_iff {pattern : String} {arguments : Option (Fields Value)} :
    (template pattern arguments).IsKeyed ↔
      ∀ map, arguments = some map → (Value.map map).IsKeyed :=
  forall_mem_nodes_template rfl rfl fun _ => rfl

/-- A place below a keyed value leads to a single node. -/
theorem IsKeyed.eq_of_holds (hv : v.IsKeyed) (hholds : v.Holds place x)
    (hat : v.at? place = some node) : x = node := by
  induction place generalizing v with
  | nil =>
      obtain rfl := hholds
      exact Option.some.inj hat
  | cons segment rest ih =>
      obtain ⟨child, hchild, hrest⟩ := hholds
      obtain ⟨other, hother, hat⟩ := Option.bind_eq_some_iff.1 hat
      rw [Fields.find?_of_mem (isKeyed_iff_parts.1 hv).1 hchild] at hother
      obtain rfl := Option.some.inj hother
      exact ih ((isKeyed_iff_parts.1 hv).2 _ hchild) hrest hat

/-- A node is keyed with new parts under its own keys. -/
theorem IsKeyed.withChildren (hv : v.IsKeyed) (hkeys : parts.map (·.1) = v.children.map (·.1))
    (hparts : ∀ part ∈ parts, part.2.IsKeyed) : (v.withChildren parts).IsKeyed := by
  rw [isKeyed_iff_parts, children_withChildren hkeys]
  refine ⟨?_, hparts⟩
  rw [Fields.keys, hkeys]
  exact (isKeyed_iff_parts.1 hv).1

end Value

namespace Surroundings

variable {around : Surroundings} {source : String} {path : Path} {node v w : Value}
  {outcome later : Outcome}

/-! ## Passes -/

/-- What comes into the place of a form is keyed while the free references are. -/
theorem isKeyed_settle (hfree : ∀ target ∈ around.free, target.reference.IsKeyed) {form : Form}
    (hform : Form.recognize? node = .ok (some form)) (hnode : node.IsKeyed) :
    (around.settle source path node form outcome).1.IsKeyed := by
  refine settle_cases hform hnode hfree ?getAtt ?string ?sub
  case getAtt =>
    intro key attr
    simp [Value.IsKeyed, Value.getAtt, Value.string, Value.nodes, Value.nodesOfEntries,
      Value.nodesOfItems, Value.hasDistinctKeys, Fields.keys]
  case string =>
    intro text
    simp [Value.IsKeyed, Value.string, Value.nodes, Value.hasDistinctKeys]
  case sub =>
    rintro pattern arguments text added rfl hadded hnodup
    have hdeclared : (Fields.keys (arguments.getD [])).Nodup ∧
        ∀ argument ∈ arguments.getD [], argument.2.IsKeyed := by
      cases arguments with
      | none => simp [Fields.keys]
      | some map => exact Value.isKeyed_iff_parts.1 (Value.isKeyed_template_iff.1 hnode map rfl)
    rw [Value.sub_eq_template, Value.isKeyed_template_iff]
    intro map hmap
    obtain rfl := Value.eq_of_ifEmpty hmap
    refine Value.isKeyed_iff_parts.2 ⟨hnodup hdeclared.1, fun argument hargument => ?_⟩
    rcases List.mem_append.1 hargument with hmem | hmem
    · exact hdeclared.2 argument hmem
    · obtain ⟨target, htarget, hvalue⟩ := (hadded argument hmem).value
      exact hvalue ▸ hfree target htarget

/-- A pass keeps values keyed while the free references are. -/
theorem isKeyed_of_rewrites (hfree : ∀ target ∈ around.free, target.reference.IsKeyed)
    (h : v.Rewrites (around.rule source) path outcome w later) (hv : v.IsKeyed) : w.IsKeyed := by
  refine Value.rewrites_induction (Q := fun _ v _ w _ => v.IsKeyed → w.IsKeyed)
    (fun _ _ _ => id) ?compound h hv
  case compound =>
    intro path v notes parts between w later hcompound hthread hrule hv
    have hparts : ∀ part ∈ parts, part.2.IsKeyed := by
      intro part hpart
      obtain ⟨x, n, m, hx, -, hstep⟩ := hthread.exists_origin hpart
      exact hstep ((Value.isKeyed_iff_parts.1 hv).2 _ hx)
    have hnode := hv.withChildren hthread.keys_eq hparts
    rcases Rule.ofForms_eq_ok hrule with ⟨-, rfl, -⟩ | ⟨form, hform, hsettle⟩
    · exact hnode
    · have hw : (around.settle source path (v.withChildren parts) form between).1 = w :=
        congrArg Prod.fst hsettle
      exact hw ▸ isKeyed_settle hfree hform hnode

end Surroundings

namespace Resolver

variable {config : Config} {catalog : Catalog} {graph : ModuleGraph} {partition : Partition}

/-! ## Calls -/

/-- Whatever is called, the references of a module stay keyed. -/
theorem isKeyed_after_calls (hpartition : graph.partition = .ok partition)
    (hkeyed : ∀ entity ∈ graph.entities, entity.reference.IsKeyed) (calls : List Call) :
    ∀ entity ∈ ((start config catalog partition).after calls).free ++
      ((start config catalog partition).after calls).bound, entity.reference.IsKeyed := by
  obtain ⟨rounds, hrounds⟩ := exists_iterated (start config catalog partition) calls
  refine forall_entities_of_iterated (Q := fun entity => entity.reference.IsKeyed) ?_
    (fun entity hentity => hkeyed entity (mem_entities_of_start hpartition hentity)) hrounds
  intro resolver hfree entity value outcome happly hentity
  exact Surroundings.isKeyed_of_rewrites hfree (Surroundings.apply_eq_ok_iff.1 happly) hentity

end Resolver

end StackLinker
