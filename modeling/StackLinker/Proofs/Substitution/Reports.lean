import StackLinker.Proofs.Substitution.Requests

/-!
# Where a pass reports

A pass may end with a structural error, and if it does not, it has noted what it left in place and
what it refused.  Each of these comes with a path.  This file says to which nodes the paths lead,
for every value and for passes that fail as well: notes lead to nodes that a reserved key makes up
(`Surroundings.pointsAt_of_apply`), and an error leads to a null, or to a node that is malformed
once its parts are rewritten (`Surroundings.exists_node_of_apply_error`).

A node is looked at after its parts, and only if none of them failed.  So what a rule is applied to
has the keys of a node of the value, with what a pass made of the parts under them
(`Value.traverse_keeps`).
-/

namespace StackLinker

/-! ## Traversals, whether or not they reach their end -/

section Traversals

variable {ν α β : Type} {P : ν → Prop} {E : StructuralError → Prop}

/-- Whether a traversal has taken notes of one kind, and has failed, if at all, with a fault of one
kind. -/
def Progress.Keeps (P : ν → Prop) (E : StructuralError → Prop) (progress : Progress ν α) : Prop :=
  P progress.notes ∧ ∀ e, progress.failure = some e → E e

theorem Progress.Keeps.map {progress : Progress ν α} (h : progress.Keeps P E) (wrap : α → β) :
    (progress.map wrap).Keeps P E := h

theorem Progress.Keeps.visit {rule : Rule ν} {path : Path} {progress : Progress ν Value}
    (h : progress.Keeps P E)
    (hrule : progress.failure = none →
      (∀ w later, rule path progress.result progress.notes = .ok (w, later) → P later) ∧
        ∀ e, rule path progress.result progress.notes = .error e → E e) :
    (progress.visit rule path).Keeps P E := by
  unfold Progress.visit
  split
  · exact h
  · rename_i hnone
    split
    · rename_i e he
      refine ⟨h.1, fun other hother => ?_⟩
      obtain rfl := Option.some.inj hother
      exact (hrule hnone).2 _ he
    · rename_i w later hdone
      exact ⟨(hrule hnone).1 w later hdone, by simp⟩

namespace Value

variable {rule : Rule ν} {path : Path} {v : Value}

private theorem traverseEntries_keeps {entries : Fields Value}
    (h : ∀ entry ∈ entries, ∀ notes, P notes →
      (entry.2.traverse rule (path.push entry.1) notes).Keeps P E) {notes : ν} (hstart : P notes) :
    (traverseEntries rule path entries notes).Keeps P E := by
  induction entries generalizing notes with
  | nil => exact ⟨hstart, by simp [traverseEntries]⟩
  | cons entry rest ih =>
      have hhead := h entry List.mem_cons_self notes hstart
      simp only [traverseEntries]
      split
      · rename_i e he
        exact ⟨hhead.1, fun other hother => hhead.2 other (he.trans hother)⟩
      · exact ih (fun other hother => h other (List.mem_cons_of_mem _ hother)) hhead.1

/-- What the rule keeps at each node, once the parts of the node are rewritten, a traversal
keeps. -/
theorem traverse_keeps {notes : ν}
    (hnull : ∀ place, v.Holds place .null → E (.nullValue (path ++ place)))
    (hrule : ∀ place node before parts between, v.Holds place node →
      Thread (fun key => Rewrites rule ((path ++ place).push key)) node.children before parts
        between → P between →
      (∀ w later, rule (path ++ place) (node.withChildren parts) between = .ok (w, later) →
          P later) ∧
        ∀ e, rule (path ++ place) (node.withChildren parts) between = .error e → E e)
    (hstart : P notes) : (v.traverse rule path notes).Keeps P E := by
  induction v using induction_on_children generalizing path notes with
  | h v ih =>
      cases hv : v.isCompound with
      | false =>
          cases v with
          | null =>
              refine ⟨hstart, fun e he => ?_⟩
              obtain rfl := Option.some.inj he
              simpa using hnull [] rfl
          | scalar s => exact ⟨hstart, by simp [traverse]⟩
          | _ => simp [isCompound] at hv
      | true =>
          have hparts : (traverseEntries rule path v.children notes).Keeps P E := by
            refine traverseEntries_keeps (fun child hchild notes hnotes => ?_) hstart
            refine ih child hchild (fun place hplace => ?_)
              (fun place node before parts between hplace => ?_) hnotes
            · rw [Path.push_append]
              exact hnull (child.1 :: place) ⟨child.2, hchild, hplace⟩
            · rw [Path.push_append]
              exact hrule (child.1 :: place) node before parts between ⟨child.2, hchild, hplace⟩
          rw [traverse_compound hv]
          refine (hparts.map v.withChildren).visit fun hnone => ?_
          have hthread := traverseEntries_eq_iff.1 (congrArg (Progress.mk _ _) hnone)
          have hnode := hrule [] v notes _ _ rfl (by rwa [List.append_nil]) hparts.1
          rwa [List.append_nil] at hnode

end Value

end Traversals

/-! ## Passes -/

/-- The place that a structural error points at. -/
def StructuralError.path : StructuralError → Path
  | .nullValue path => path
  | .malformed path _ => path

/-- Whether everything that a pass noted points at one of some places. -/
structure Outcome.PointsAt (spots : Path → Prop) (outcome : Outcome) : Prop where
  bound : ∀ u ∈ outcome.bound, spots u.path
  missing : ∀ u ∈ outcome.missing, spots u.path
  invalid : ∀ d ∈ outcome.invalid, ∃ path, spots path ∧ d.location = some path.text

namespace Outcome

variable {spots : Path → Prop} {outcome : Outcome} {path : Path}

theorem PointsAt.imp {others : Path → Prop} (h : outcome.PointsAt spots)
    (himp : ∀ path, spots path → others path) : outcome.PointsAt others := by
  refine ⟨fun u hu => himp _ (h.bound u hu), fun u hu => himp _ (h.missing u hu), fun d hd => ?_⟩
  obtain ⟨path, hpath, hlocation⟩ := h.invalid d hd
  exact ⟨path, himp path hpath, hlocation⟩

theorem PointsAt.leave (h : outcome.PointsAt spots) (hpath : spots path) (meaning : Meaning)
    (key : String) : (outcome.leave meaning key path).PointsAt spots := by
  cases meaning with
  | exempt => exact h
  | free => exact h
  | bound => exact ⟨List.forall_mem_append.2 ⟨h.bound, by simpa using hpath⟩, h.missing, h.invalid⟩
  | missing =>
      exact ⟨h.bound, List.forall_mem_append.2 ⟨h.missing, by simpa using hpath⟩, h.invalid⟩

theorem PointsAt.refuse (h : outcome.PointsAt spots) (hpath : spots path) {diagnostic : Diagnostic}
    (hlocation : diagnostic.location = some path.text) :
    (outcome.refuse diagnostic).PointsAt spots :=
  ⟨h.bound, h.missing, List.forall_mem_append.2
    ⟨h.invalid, List.forall_mem_singleton.2 ⟨path, hpath, hlocation⟩⟩⟩

end Outcome

namespace Surroundings

variable {around : Surroundings} {source : String} {path : Path} {spots : Path → Prop}
  {v w : Value} {outcome : Outcome} {e : StructuralError}

/-- Whatever a form becomes, it is noted at its own place. -/
theorem pointsAt_settle (hpath : spots path) (node : Value) (form : Form)
    (h : outcome.PointsAt spots) :
    (around.settle source path node form outcome).2.PointsAt spots := by
  refine settle_preserves (P := Outcome.PointsAt spots)
    (fun meaning key h => h.leave hpath meaning key) (fun he h => ?_) node form h
  obtain ⟨message, rfl⟩ := checkAttribute_eq_error he
  exact h.refuse hpath rfl

/-- A place of an entity at which one of its values has a node that a reserved key makes up. -/
def IsFormPath (source : String) (v : Value) (path : Path) : Prop :=
  ∃ place node, path = source :: place ∧ v.Holds place node ∧ node.isReserved = true

/-- Whether a pass takes a node at a place for malformed, once it has rewritten the parts. -/
def FindsMalformed (around : Surroundings) (source : String) (place : Path) (node : Value) : Prop :=
  ∃ before parts between malformation,
    Thread (fun key => Value.Rewrites (around.rule source) (Path.push (source :: place) key))
      node.children before parts between ∧
    Form.recognize? (node.withChildren parts) = .error malformation

/-- A node keeps its keys, so an ordinary one is not taken for malformed. -/
theorem not_findsMalformed_of_not_isReserved {place : Path} {node : Value}
    (hordinary : node.isReserved = false) : ¬ around.FindsMalformed source place node := by
  rintro ⟨before, parts, between, malformation, hthread, hmalformed⟩
  rw [Value.recognize?_of_not_isReserved
    ((Value.isReserved_withChildren hthread.keys_eq).trans hordinary)] at hmalformed
  simp at hmalformed

/-- What a pass notes, and with what it may fail. -/
private theorem keeps_traverse (around : Surroundings) (source : String) (v : Value) :
    (v.traverse (around.rule source) [source] {}).Keeps
      (Outcome.PointsAt (IsFormPath source v)) fun e =>
        ∃ place node, e.path = source :: place ∧ v.Holds place node ∧
          (node = .null ∨ around.FindsMalformed source place node) := by
  refine Value.traverse_keeps ?null ?rule ⟨by simp, by simp, by simp⟩
  case null =>
    intro place hplace
    exact ⟨place, .null, rfl, hplace, Or.inl rfl⟩
  case rule =>
    intro place node before parts between hplace hthread hnotes
    refine ⟨fun w later hdone => ?_, fun e he => ?_⟩
    · rcases Rule.ofForms_eq_ok hdone with ⟨-, -, rfl⟩ | ⟨form, hform, hsettle⟩
      · exact hnotes
      · have hreserved := Form.isReserved_of_recognize? hform
        rw [Value.isReserved_withChildren hthread.keys_eq] at hreserved
        have hsettled : (around.settle source (source :: place) (node.withChildren parts) form
            between).2.PointsAt (IsFormPath source v) :=
          pointsAt_settle ⟨place, node, rfl, hplace, hreserved⟩ (node.withChildren parts) form
            hnotes
        rwa [show source :: place = [source] ++ place from rfl, hsettle] at hsettled
    · unfold rule Rule.ofForms at he
      split at he
      · rename_i malformation hmalformed
        obtain rfl := Except.error.inj he
        exact ⟨place, node, rfl, hplace, Or.inr ⟨before, parts, between, malformation, hthread,
          hmalformed⟩⟩
      · simp at he
      · simp at he

/-- What a pass notes points at nodes that a reserved key makes up. -/
theorem pointsAt_of_apply (h : around.apply source v = .ok (w, outcome)) :
    outcome.PointsAt (IsFormPath source v) := by
  have hkeeps := (keeps_traverse around source v).1
  rwa [show v.traverse (around.rule source) [source] {} = ⟨w, outcome, none⟩ from
    apply_eq_ok_iff.1 h] at hkeeps

/-- A pass fails only at a null, or at a node that is malformed once its parts are rewritten. -/
theorem exists_node_of_apply_error (h : around.apply source v = .error e) :
    ∃ place node, e.path = source :: place ∧ v.Holds place node ∧
      (node = .null ∨ around.FindsMalformed source place node) := by
  refine (keeps_traverse around source v).2 e ?_
  unfold apply Progress.toExcept at h
  split at h
  · rename_i other hother
    rwa [← Except.error.inj h]
  · simp at h

end Surroundings

end StackLinker
