import StackLinker.Proofs.Config.Markers
import StackLinker.Proofs.Substitution.Yielding

/-!
# Values without substitutions

In a value without substitutions everything that can happen to a node is that it gives way to what
it asks for.  What comes in its place does not change any more, as long as the references of free
entities do not change themselves (`Supplies`).  Two facts follow for a pass and any later one, in
which more entities are free:

* The later pass makes the same of the value as of what the earlier pass has made of it
  (`Yields.absorb`).
* If the earlier pass left no name in place, the later one finds nothing to do in its result
  (`rests_of_rewrites`).
-/

namespace StackLinker

namespace Value

variable {v node : Value} {parts : Fields Value}

/-- Whether the key of a substitution makes up the node. -/
def isSubstitution : Value → Bool
  | .map [(key, _)] => decide (key = Form.subKey)
  | _ => false

/-- Whether no node of a value is made up by the key of a substitution. -/
def isDirect (v : Value) : Bool := v.nodes.all fun node => !node.isSubstitution

/-- A value is direct if its root is no substitution and its parts are direct. -/
theorem isDirect_iff : v.isDirect = true ↔
    v.isSubstitution = false ∧ ∀ child ∈ v.children, child.2.isDirect = true := by
  simp only [isDirect, List.all_eq_true, Bool.not_eq_true']
  constructor
  · intro h
    exact ⟨h v (self_mem_nodes v), fun child hchild node hnode =>
      h node (mem_nodes_of_mem_children hchild hnode)⟩
  · rintro ⟨hself, hparts⟩ node hnode
    rcases mem_nodes.1 hnode with rfl | ⟨child, hchild, hnode⟩
    · exact hself
    · exact hparts child hchild node hnode

theorem isSubstitution_withChildren (h : parts.map (·.1) = v.children.map (·.1)) :
    (v.withChildren parts).isSubstitution = v.isSubstitution := by
  cases v with
  | map entries =>
      rcases entries with _ | ⟨⟨k, x⟩, _ | ⟨_, _⟩⟩ <;> rcases parts with _ | ⟨⟨l, y⟩, _ | ⟨_, _⟩⟩ <;>
        simp_all [isSubstitution, withChildren, children]
  | record header metadata properties =>
      rcases parts with _ | ⟨_, _ | ⟨_, _ | _⟩⟩ <;> rfl
  | _ => rfl

/-- A form that is no substitution asks for something. -/
theorem exists_placeholder {form : Form} (hform : Form.recognize? node = .ok (some form))
    (hnode : node.isSubstitution = false) : ∃ placeholder, form.placeholder? = some placeholder := by
  cases form with
  | reference key => exact ⟨_, rfl⟩
  | attributeOf key attr => exact ⟨_, rfl⟩
  | substitution pattern arguments =>
      obtain rfl := Form.recognize?_eq_substitution_iff.1 hform
      simp [isSubstitution, template] at hnode

end Value

namespace Surroundings

open Value

variable {earlier later : Surroundings} {source : String} {path : Path} {before after : Outcome}
  {v w x : Value} {parts done : Fields Value} {placeholder : Placeholder}

/-- What free entities give to others stays as it is in later surroundings. -/
structure Supplies (earlier later : Surroundings) : Prop extends Precedes earlier later where
  mark : earlier.config.preserveMarker ≠ ""
  rests : ∀ target ∈ earlier.free, later.Rests target.reference

/-- What is granted stays as it is. -/
theorem Supplies.rests_of_grant (h : Supplies earlier later)
    (hgrant : earlier.grant? placeholder = some w) : later.Rests w := by
  obtain ⟨target, hmeaning, ⟨-, rfl⟩ | ⟨attr, -, rfl⟩⟩ := grant?_eq_some hgrant
  · exact h.rests target (mem_free_of_meaning hmeaning)
  · -- The name of a resource is exempt.
    have hexempt : later.meaning (target.resourceName earlier.config) = .exempt := by
      rw [meaning_eq_exempt_iff, h.config]
      exact Config.isExempt_resourceName h.mark target
    refine (yields_target_iff (Form.recognize?_getAtt _ _) rfl).2 ?_
    simp only [grant?, hexempt, Option.getD_none]

/-- A pass puts no substitution into a value if no free entity has one. -/
theorem isDirect_of_yields (hfree : ∀ target ∈ earlier.free, target.reference.isDirect = true)
    (hdirect : v.isDirect = true) (h : earlier.Yields v w) : w.isDirect = true := by
  induction v using induction_on_children generalizing w with
  | h v ih =>
      obtain ⟨hself, hchildren⟩ := isDirect_iff.1 hdirect
      cases hv : v.isCompound with
      | false =>
          cases v with
          | null => exact absurd h not_yields_null
          | scalar s => exact yields_scalar_iff.1 h ▸ hdirect
          | _ => simp [isCompound] at hv
      | true =>
          obtain ⟨parts, hparts, hturns⟩ := (yields_iff hv).1 h
          have hsame := isSubstitution_withChildren hparts.keys_eq
          have hnode : (v.withChildren parts).isDirect = true := by
            rw [isDirect_iff, children_withChildren hparts.keys_eq, hsame]
            refine ⟨hself, fun part hpart => ?_⟩
            obtain ⟨child, hchild, -, hyields⟩ := hparts.exists_of_mem_right hpart
            exact ih child hchild (hchildren child hchild) hyields
          rcases turns_cases hturns with ⟨-, rfl⟩ | ⟨form, hform⟩
          · exact hnode
          · obtain ⟨placeholder, hplaceholder⟩ := exists_placeholder hform (hsame ▸ hself)
            rw [turns_target_iff hform hplaceholder] at hturns
            subst hturns
            cases hgrant : earlier.grant? placeholder with
            | none => exact hnode
            | some granted =>
                obtain ⟨target, hmeaning, ⟨-, rfl⟩ | ⟨attr, -, rfl⟩⟩ := grant?_eq_some hgrant
                · exact hfree target (mem_free_of_meaning hmeaning)
                · rfl

/-! ## Later passes -/

theorem YieldsParts.absorb (first : earlier.YieldsParts parts done)
    (h : ∀ part ∈ parts, ∀ {y z}, earlier.Yields part.2 y → later.Yields y z → later.Yields part.2 z)
    {final : Fields Value} (second : later.YieldsParts done final) :
    later.YieldsParts parts final := by
  induction first generalizing final with
  | nil => exact second
  | cons head _ ih =>
      cases second with
      | cons next rest =>
          refine .cons ⟨next.1.trans head.1, h _ List.mem_cons_self head.2 next.2⟩ ?_
          exact ih (fun part hpart => h part (List.mem_cons_of_mem _ hpart)) rest

/-- A pass over a node whose parts an earlier pass has gone over is a pass over the node. -/
private theorem yields_of_parts (hv : v.isCompound = true)
    (h : ∀ child ∈ v.children, ∀ {y z}, earlier.Yields child.2 y → later.Yields y z →
      later.Yields child.2 z)
    (hparts : earlier.YieldsParts v.children parts) (hx : later.Yields (v.withChildren parts) x) :
    later.Yields v x := by
  have hcompound : (v.withChildren parts).isCompound = true := by
    rw [isCompound_withChildren, hv]
  obtain ⟨final, hfinal, hturns⟩ := (yields_iff hcompound).1 hx
  rw [children_withChildren hparts.keys_eq] at hfinal
  have hkeys : final.map (·.1) = v.children.map (·.1) := hfinal.keys_eq.trans hparts.keys_eq
  rw [withChildren_withChildren hparts.keys_eq hkeys] at hturns
  exact (yields_iff hv).2 ⟨final, hparts.absorb h hfinal, hturns⟩

/-- What a later pass makes of the result of an earlier one it makes of the value itself. -/
theorem Yields.absorb (h : Supplies earlier later) (hdirect : v.isDirect = true)
    (first : earlier.Yields v w) (second : later.Yields w x) : later.Yields v x := by
  induction v using induction_on_children generalizing w x with
  | h v ih =>
      obtain ⟨hself, hchildren⟩ := isDirect_iff.1 hdirect
      cases hv : v.isCompound with
      | false =>
          cases v with
          | null => exact absurd first not_yields_null
          | scalar s =>
              obtain rfl := yields_scalar_iff.1 first
              exact second
          | _ => simp [isCompound] at hv
      | true =>
          obtain ⟨parts, hparts, hturns⟩ := (yields_iff hv).1 first
          have hback : ∀ {y}, later.Yields (v.withChildren parts) y → later.Yields v y :=
            yields_of_parts hv (fun child hchild => ih child hchild (hchildren child hchild)) hparts
          rcases turns_cases hturns with ⟨-, rfl⟩ | ⟨form, hform⟩
          · exact hback second
          · obtain ⟨placeholder, hplaceholder⟩ := exists_placeholder hform
              (isSubstitution_withChildren hparts.keys_eq ▸ hself)
            have hnode := (@yields_target_iff later _ _ _ _ hform hplaceholder).2 rfl
            rw [turns_target_iff hform hplaceholder] at hturns
            cases hgrant : earlier.grant? placeholder with
            | none =>
                rw [hgrant, Option.getD_none] at hturns
                exact hback (hturns ▸ second)
            | some granted =>
                -- What was granted rests, and it would be granted later as well.
                rw [hgrant, Option.getD_some] at hturns
                subst hturns
                rw [h.grant? hgrant, Option.getD_some] at hnode
                exact eq_of_yields (h.rests_of_grant hgrant) second ▸ hback hnode

/-- If a pass left no name in place, later passes find nothing to do in its result. -/
theorem rests_of_rewrites (h : Supplies earlier later) (hdirect : v.isDirect = true)
    (hpass : v.Rewrites (earlier.rule source) path before w after) (hresolved : after.unresolved = []) :
    later.Rests w := by
  refine rewrites_induction (Q := fun _ v _ w after => v.isDirect = true → after.unresolved = [] →
    later.Rests w) ?scalar ?compound hpass hdirect hresolved
  case scalar =>
    intro _ s _ _ _
    exact yields_scalar_iff.2 rfl
  case compound =>
    intro path v notes parts between w after hv hthread hrule hdirect hresolved
    obtain ⟨hself, hchildren⟩ := isDirect_iff.1 hdirect
    have hkeys := hthread.keys_eq
    have hgrows := growsTo_rule hrule
    -- The parts are at rest, so the node is if it stays.
    have hnode : later.Turns (v.withChildren parts) (v.withChildren parts) →
        later.Rests (v.withChildren parts) := by
      refine rests_of_parts (by rw [isCompound_withChildren, hv]) ?_
      rw [children_withChildren hkeys]
      intro part hpart
      obtain ⟨x, n, m, hx, ⟨-, hstep⟩, -, hm⟩ := hthread.exists_of_mem_right
        (fun _ hstep => show Outcome.GrowsTo earlier _ _ from growsTo_rewrites hstep.1) hpart
      refine hstep (hchildren _ hx) (List.subset_nil.1 fun name hname => ?_)
      exact hresolved ▸ hgrows.unresolved_subset (hm.unresolved_subset hname)
    have hturns := turns_of_rule hrule
    rcases turns_cases hturns with ⟨hordinary, rfl⟩ | ⟨form, hform⟩
    · exact hnode ((turns_ordinary_iff hordinary).2 rfl)
    · obtain ⟨placeholder, hplaceholder⟩ := exists_placeholder hform
        (isSubstitution_withChildren hkeys ▸ hself)
      cases hgrant : earlier.grant? placeholder with
      | some granted =>
          rw [turns_target_iff hform hplaceholder, hgrant, Option.getD_some] at hturns
          exact hturns ▸ h.rests_of_grant hgrant
      | none =>
          -- An open name would have been left in place.
          have hopen : (earlier.meaning placeholder.name).isOpen = false := by
            by_contra hopen
            rw [rule, Rule.ofForms_form hform] at hrule
            have hnoted := (@mem_unresolved_settle earlier source path between
              (v.withChildren parts) placeholder form placeholder.name hplaceholder).2
                (Or.inr ⟨by simpa using hopen, rfl⟩)
            rw [Except.ok.inj hrule, hresolved] at hnoted
            simp at hnoted
          rw [turns_target_iff hform hplaceholder, hgrant, Option.getD_none] at hturns
          subst hturns
          refine hnode ((turns_target_iff hform hplaceholder).2 ?_)
          rw [h.grant?_eq_none hgrant hopen, Option.getD_none]

end Surroundings

end StackLinker
