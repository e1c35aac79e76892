import StackLinker.Proofs.Form.WellFormed
import StackLinker.Proofs.Resolution.Deferral
import StackLinker.Proofs.Substitution.Capture

/-!
# Resolution hands back well-formed values

A module may be declared with nulls and malformed nodes in it.  None of them is left when resolution
succeeds (`isWellFormed_of_resolve`), and there was no null to begin with
(`null_notMem_of_resolve`).

* What is free by its shape is well-formed, and an entity becomes free with what a pass leaves
  behind.  Passes that reach their end leave well-formed values behind, since what comes into the
  place of a form is a free reference, an attribute, a text, or a substitution whose argument map
  has at most grown (`settle_cases`).
* A reference that is bound at the start is passed over at least once before it is free, and a pass
  stops at a null.
-/

namespace StackLinker

/-- The trees of an entity: its reference, and its declaration if it has one. -/
def Entity.values (entity : Entity) : List Value :=
  entity.reference :: entity.definition.toList

theorem Entity.forall_mem_values {entity : Entity} {P : Value → Prop} :
    (∀ v ∈ entity.values, P v) ↔
      P entity.reference ∧ ∀ definition, entity.definition = some definition → P definition := by
  simp [values]

namespace Surroundings

variable {around : Surroundings} {source : String} {path : Path} {node v w : Value}
  {outcome later : Outcome}

/-! ## One pass -/

/-- What holds of a node, of free references, of attributes, of texts, and of substitutions with
added arguments holds of what comes into the place of the node. -/
theorem settle_cases {P : Value → Prop} {form : Form}
    (hform : Form.recognize? node = .ok (some form)) (hnode : P node)
    (hfree : ∀ target ∈ around.free, P target.reference)
    (hgetAtt : ∀ key attr, P (.getAtt key attr)) (hstring : ∀ text, P (.string text))
    (hsub : ∀ pattern arguments text added, node = .template pattern arguments →
      (∀ argument ∈ added, around.IsAdded argument) →
      ((Fields.keys (arguments.getD [])).Nodup → (Fields.keys (arguments.getD [] ++ added)).Nodup) →
      P (.sub text (arguments.getD [] ++ added))) :
    P (around.settle source path node form outcome).1 := by
  have htarget : ∀ placeholder, form.placeholder? = some placeholder →
      P (around.settle source path node form outcome).1 := by
    intro placeholder hplaceholder
    rcases settle_of_placeholder around hplaceholder with hsame | ⟨target, hmeaning, hnew⟩
    · rwa [hsame]
    · rw [hnew]
      cases placeholder.attr with
      | none => exact hfree target (mem_free_of_meaning hmeaning)
      | some attr => exact hgetAtt _ attr
  cases form with
  | reference key => exact htarget _ rfl
  | attributeOf key attr => exact htarget _ rfl
  | substitution pattern arguments =>
      obtain ⟨text, filling, hfill, -, hresult⟩ :=
        substitution_cases around source path node pattern arguments outcome
      have hextends : filling.Extends around (arguments.getD []) := by
        rw [← show (Pattern.fillPieces (around.answer source path) (Pattern.pieces pattern)
          (.start arguments outcome)).2 = filling from congrArg Prod.snd hfill]
        exact (Filling.extends_start around arguments outcome).fillPieces _
      have hnodup := hextends.nodup_keys
      obtain ⟨added, hsame, hadded, -⟩ := hextends
      rw [hsame] at hnodup
      rw [settle]
      rcases hresult with ⟨-, -, hresult⟩ | ⟨-, hresult⟩ | ⟨-, hresult⟩
      · exact hresult ▸ hstring text
      · rw [hresult, hsame]
        exact hsub pattern arguments text added (Form.recognize?_eq_substitution_iff.1 hform)
          (fun argument hmem => (hadded argument hmem).1) hnodup
      · rwa [hresult]

/-- A pass keeps values well-formed while the references of the free entities are. -/
theorem keepsWellFormed_settle
    (hfree : ∀ target ∈ around.free, target.reference.isWellFormed = true) (source : String) :
    (around.settle source).KeepsWellFormed := by
  intro path node form outcome hform hnode
  refine settle_cases (P := fun v => v.isWellFormed = true) hform hnode hfree (fun _ _ => rfl)
    (fun _ => rfl) ?_
  rintro pattern arguments text added rfl hadded -
  rw [Value.sub_eq_template, Value.isWellFormed_template_iff]
  intro map hmap
  obtain rfl := Value.eq_of_ifEmpty hmap
  refine Filling.map_append (P := fun v => v.isWellFormed = true)
    (fun h => (Value.isWellFormed_iff_parts.1 h).2.2)
    (fun _ hordinary hparts => Value.isWellFormed_of_not_isReserved (by simp) hordinary hparts) ?_
    hadded hfree
  cases arguments with
  | none => rfl
  | some declared => exact Value.isWellFormed_template_iff.1 hnode declared rfl

theorem isWellFormed_of_apply (h : around.apply source v = .ok (w, outcome))
    (hfree : ∀ target ∈ around.free, target.reference.isWellFormed = true) :
    w.isWellFormed = true :=
  Value.isWellFormed_of_rewrites (keepsWellFormed_settle hfree source) (apply_eq_ok_iff.1 h)

end Surroundings

namespace Resolver

variable {config : Config} {catalog : Catalog} {graph resolved : ModuleGraph}
  {partition : Partition} {resolver next : Resolver} {n : Nat} {stats : Stats}

/-! ## What is handed back -/

/-- Whether the references of the free entities are well-formed. -/
def FreeWellFormed (resolver : Resolver) : Prop :=
  ∀ entity ∈ resolver.free, entity.reference.isWellFormed = true

theorem freeWellFormed_start (h : graph.partition = .ok partition) :
    FreeWellFormed (start config catalog partition) := by
  intro entity hentity
  rcases Value.classify_eq_free_iff.1 (classify_of_start h hentity) with ⟨s, hs⟩ | ⟨items, hitems, hscalars⟩
  · rw [hs]
    rfl
  · rw [hitems, Value.isWellFormed_list_iff]
    intro item hitem
    obtain ⟨s, rfl⟩ := hscalars item hitem
    rfl

theorem FreeWellFormed.step (h : FreeWellFormed resolver) (hstep : resolver.step = (next, .ok n)) :
    FreeWellFormed next := by
  intro entity hentity
  rcases of_mem_free_step hstep hentity with hold | ⟨pending, -, value, outcome, happly, -, rfl⟩
  · exact h entity hold
  · exact Surroundings.isWellFormed_of_apply happly h

/-- In a module that resolution hands back, references and declarations are well-formed. -/
theorem isWellFormed_of_resolve (hpartition : graph.partition = .ok partition)
    (h : resolve config catalog partition = .ok (resolved, stats)) :
    ∀ entity ∈ resolved.entities, ∀ v ∈ entity.values, v.isWellFormed = true := by
  obtain ⟨final, hfree, hend⟩ := resolve_invariant FreeWellFormed.step
    (freeWellFormed_start hpartition) h
  intro entity hentity
  obtain ⟨origin, horigin, hlink⟩ := hend.exists_origin hentity
  rw [Entity.forall_mem_values]
  refine ⟨(eq_of_linkFree hlink).2 ▸ hfree origin horigin, fun definition hdefinition => ?_⟩
  rcases linkFree_eq_ok horigin hlink with ⟨hnone, rfl⟩ | ⟨_, value, _, -, happly, rfl, -⟩
  · simp [hnone] at hdefinition
  · obtain rfl := Option.some.inj hdefinition
    exact Surroundings.isWellFormed_of_apply happly hfree

/-! ## What was declared -/

/-- What the steps of a resolver preserve of declared references: each has no null in it, or it is
still to be passed over. -/
structure ScansNulls (graph : ModuleGraph) (resolver : Resolver) : Prop where
  kept : ∃ rounds, Kept graph rounds resolver
  scans : ∀ origin ∈ graph.entities, .null ∉ origin.reference.nodes ∨
    ∃ pending ∈ resolver.waiting, pending.entity.reference = origin.reference

theorem scansNulls_start (h : graph.partition = .ok partition) :
    ScansNulls graph (start config catalog partition) := by
  refine ⟨⟨[], kept_start h config catalog⟩, fun origin horigin => ?_⟩
  rcases List.mem_append.1 ((ModuleGraph.perm_partition h).mem_iff.2 horigin) with hfree | hbound
  · exact Or.inl (Value.null_notMem_nodes_of_isWellFormed
      (@freeWellFormed_start config catalog _ _ h origin hfree))
  · exact Or.inr ⟨_, List.mem_map_of_mem hbound, rfl⟩

theorem ScansNulls.step (h : ScansNulls graph resolver) (hstep : resolver.step = (next, .ok n)) :
    ScansNulls graph next := by
  obtain ⟨rounds, hkept⟩ := h.kept
  refine ⟨hkept.step hstep, fun origin horigin => Or.inl ?_⟩
  rcases h.scans origin horigin with hclean | ⟨pending, hpending, hsame⟩
  · exact hclean
  · obtain ⟨value, outcome, happly⟩ := (step_eq_ok hstep).1 pending hpending
    rw [hsame] at happly
    exact Value.null_notMem_nodes_of_rewrites (Surroundings.apply_eq_ok_iff.1 happly)

/-- A module with a null anywhere in it is not resolved. -/
theorem null_notMem_of_resolve (hvalid : graph.Valid) (hpartition : graph.partition = .ok partition)
    (h : resolve config catalog partition = .ok (resolved, stats)) :
    ∀ entity ∈ graph.entities, ∀ v ∈ entity.values, .null ∉ v.nodes := by
  obtain ⟨final, hfinal, hend⟩ := resolve_invariant ScansNulls.step (scansNulls_start hpartition) h
  obtain ⟨rounds, hkept⟩ := hfinal.kept
  intro entity hentity
  rw [Entity.forall_mem_values]
  refine ⟨(hfinal.scans entity hentity).resolve_right (by simp [hend.waiting]), ?_⟩
  intro definition hdefinition
  obtain ⟨w, outcome, happly⟩ := hend.exists_apply hkept hvalid hentity hdefinition
  exact Value.null_notMem_nodes_of_rewrites (Surroundings.apply_eq_ok_iff.1 happly)

end Resolver

end StackLinker
