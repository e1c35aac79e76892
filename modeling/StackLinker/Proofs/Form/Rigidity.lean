import StackLinker.Proofs.Form.WellFormed

/-!
# Malformed nodes

A reserved key with a body of the wrong shape ends a traversal.  There is one exception: what stands
in the body is rewritten first, so a body that is itself a form may take the right shape in time.  A
value without such nodes is rigid, and a traversal of a rigid value only reaches its end if the value
is well-formed from the start (`wellFormed_of_rewrites`).
-/

namespace StackLinker.Value

variable {ν : Type} {action : FormAction ν} {path : Path} {v w : Value} {notes later : ν}

/-- Whether no reserved key stands inside a malformed node. -/
def IsRigid (v : Value) : Prop :=
  ∀ node ∈ v.nodes, ∀ reason, Form.recognize? node = .error reason →
    ∀ child ∈ node.children, ∀ inner ∈ child.2.nodes, inner.isReserved = false

theorem isRigid_of_isWellFormed (h : v.isWellFormed = true) : v.IsRigid := by
  intro node hnode reason hform
  obtain ⟨-, found, hfound⟩ := isWellFormed_iff.1 h node hnode
  simp [hform] at hfound

/-- A value without reserved keys stays as it is. -/
theorem eq_of_rewrites_of_ordinary (hordinary : ∀ node ∈ v.nodes, node.isReserved = false)
    (h : Rewrites (Rule.ofForms action) path v notes w later) : w = v := by
  induction v using induction_on_children generalizing path notes w later with
  | h v ih =>
      cases hv : v.isCompound with
      | false =>
          cases v with
          | null => exact absurd h not_rewrites_null
          | scalar s => exact (rewrites_scalar_iff.1 h).1
          | _ => simp [isCompound] at hv
      | true =>
          obtain ⟨parts, rfl, hthread⟩ :=
            (rewrites_of_not_isReserved hv (hordinary v (self_mem_nodes v))).1 h
          have hparts : parts = v.children := hthread.eq_of_forall fun hmem hstep =>
            ih _ hmem (fun node hnode => hordinary node (mem_nodes_of_mem_children hmem hnode))
              hstep
          rw [hparts, withChildren_children]

/-- A traversal of a rigid value only reaches its end if the value has no null and no malformed
node. -/
theorem wellFormed_of_rewrites (hrigid : v.IsRigid)
    (h : Rewrites (Rule.ofForms action) path v notes w later) :
    ∀ node ∈ v.nodes, node ≠ .null ∧ ∃ found, Form.recognize? node = .ok found := by
  induction v using induction_on_children generalizing path notes w later with
  | h v ih =>
      cases hv : v.isCompound with
      | false =>
          cases v with
          | null => exact absurd h not_rewrites_null
          | scalar s =>
              intro node hnode
              obtain rfl : node = .scalar s := by simpa [nodes] using hnode
              exact ⟨by simp, none, rfl⟩
          | _ => simp [isCompound] at hv
      | true =>
          obtain ⟨parts, between, hthread, hrule⟩ := (rewrites_iff hv).1 h
          have hself : ∃ found, Form.recognize? v = .ok found := by
            cases hform : Form.recognize? v with
            | ok found => exact ⟨found, rfl⟩
            | error reason =>
                -- The parts stay, so the rule meets the malformed node itself.
                have hparts : parts = v.children := hthread.eq_of_forall fun hmem hstep =>
                  eq_of_rewrites_of_ordinary
                    (hrigid v (self_mem_nodes v) reason hform _ hmem) hstep
                rw [hparts, withChildren_children, Rule.ofForms_malformed hform] at hrule
                simp at hrule
          intro node hnode
          rcases mem_nodes.1 hnode with rfl | ⟨child, hchild, hnode⟩
          · exact ⟨by rintro rfl; simp [isCompound] at hv, hself⟩
          · obtain ⟨n, y, m, hstep⟩ := hthread.exists_of_mem hchild
            exact ih child hchild
              (fun node hnode => hrigid node (mem_nodes_of_mem_children hchild hnode)) hstep node
              hnode

end StackLinker.Value
