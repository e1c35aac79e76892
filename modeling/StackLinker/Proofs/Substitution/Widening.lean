import StackLinker.Proofs.Dependency.Waiting
import StackLinker.Proofs.Substitution.Direct
import StackLinker.Proofs.Substitution.Granting

/-!
# Passes in wider surroundings

Surroundings widen if every name that meant something means the same, while names that were missing
may come to mean something (`Widens`).  A pass over a value without substitutions that notes no
missing names does the same in wider surroundings (`Widens.rewrites`).

A missing name is noted where it stays, since in a value without substitutions nothing else can come
into its place (`missing_of_rewrites`).  So the next pass meets it again.
-/

namespace StackLinker

namespace Value

/-- Without substitutions no argument maps and no placeholders can be mistaken. -/
theorem isPlain_of_isDirect {v : Value} (h : v.isDirect = true) (config : Config) :
    v.IsPlain config := by
  simp only [isDirect, List.all_eq_true, Bool.not_eq_true'] at h
  refine ⟨fun x arguments hnode => ?_, fun pattern arguments name hnode => ?_⟩
  · simpa [isSubstitution] using h _ hnode
  · simpa [template, isSubstitution] using h _ hnode

end Value

namespace Surroundings

open Value

variable {around first second : Surroundings} {source : String} {path : Path} {v w node : Value}
  {form : Form} {placeholder : Placeholder} {before after notes : Outcome}

/-! ## Missing names -/

/-- What asks for a missing name notes it, and nothing else is noted as missing. -/
theorem mem_missing_settle (hplaceholder : form.placeholder? = some placeholder) {u : Unresolved} :
    u ∈ (around.settle source path node form notes).2.missing ↔ u ∈ notes.missing ∨
      around.meaning placeholder.name = .missing ∧ u = ⟨placeholder.name, path⟩ := by
  rw [settle_target_eq hplaceholder]
  unfold note
  cases hmeaning : around.meaning placeholder.name with
  | free target =>
      cases placeholder.attr with
      | none => simp
      | some attr =>
          simp only
          cases around.checkAttribute source target attr path <;> simp [Outcome.refuse]
  | _ => simp [Outcome.leave]

/-- In a value without substitutions a missing name stays where it is noted. -/
theorem missing_of_rewrites (hdirect : v.isDirect = true)
    (h : v.Rewrites (around.rule source) path before w after) {u : Unresolved}
    (hu : u ∈ after.missing) : u ∈ before.missing ∨
      around.meaning u.key = .missing ∧ u.key ∈ w.uses around.config := by
  refine rewrites_induction (Q := fun _ v before w after => v.isDirect = true →
    u ∈ after.missing → u ∈ before.missing ∨
      around.meaning u.key = .missing ∧ u.key ∈ w.uses around.config)
    ?scalar ?compound h hdirect hu
  case scalar => exact fun _ _ _ _ hu => Or.inl hu
  case compound =>
    intro path v notes parts between w later hv hthread hrule hdirect hu
    obtain ⟨hself, hchildren⟩ := isDirect_iff.1 hdirect
    have hkeys := hthread.keys_eq
    have hparts : u ∈ between.missing → u ∈ notes.missing ∨
        around.meaning u.key = .missing ∧ u.key ∈ (v.withChildren parts).uses around.config := by
      intro hbetween
      by_contra hnew
      rw [not_or] at hnew
      obtain ⟨key, x, n, y, m, hx, hy, ⟨-, hstep⟩, hm, hn⟩ :=
        hthread.exists_onset (P := fun notes => u ∈ notes.missing) hbetween hnew.1
      obtain ⟨hmeaning, huses⟩ := (hstep (hchildren _ hx) hm).resolve_left hn
      refine hnew.2 ⟨hmeaning, mem_uses.2 (Or.inr ⟨(key, y), ?_, huses⟩)⟩
      rwa [children_withChildren hkeys]
    rcases Rule.ofForms_eq_ok hrule with ⟨-, rfl, rfl⟩ | ⟨form, hform, hsettle⟩
    · exact hparts hu
    · obtain ⟨placeholder, hplaceholder⟩ := exists_placeholder hform
        (isSubstitution_withChildren hkeys ▸ hself)
      have huses : ∀ {name}, name ∈ (v.withChildren parts).uses around.config ↔
          name = placeholder.name ∧ around.config.isExempt placeholder.name = false :=
        mem_uses_of_target? hform (Form.placeholder?_eq_some hplaceholder)
      -- The node asks for the name itself, and stays because nothing is granted.
      have hstays : around.meaning placeholder.name = .missing → w = v.withChildren parts ∧
          around.config.isExempt placeholder.name = false := by
        intro hmeaning
        have hopen : (around.meaning placeholder.name).isOpen = true := by
          rw [hmeaning]
          rfl
        refine ⟨?_, (meaning_eq_missing_iff.1 hmeaning).1⟩
        rw [← show _ = w from congrArg Prod.fst hsettle, settle_target_eq hplaceholder,
          grant?_of_isOpen hopen, Option.getD_none]
      have hnoted : u ∈ (around.settle source path (v.withChildren parts) form between).2.missing :=
        hsettle ▸ hu
      rcases (mem_missing_settle hplaceholder).1 hnoted with hbetween | ⟨hmeaning, rfl⟩
      · refine (hparts hbetween).imp_right fun hpart => ?_
        obtain ⟨rfl, -⟩ : w = v.withChildren parts ∧ _ := hstays ((huses.1 hpart.2).1 ▸ hpart.1)
        exact hpart
      · obtain ⟨rfl, hexempt⟩ := hstays hmeaning
        exact Or.inr ⟨hmeaning, huses.2 ⟨rfl, hexempt⟩⟩

/-! ## Wider surroundings -/

/-- Surroundings in which every name that means something in the first means the same. -/
structure Widens (first second : Surroundings) : Prop where
  config : second.config = first.config
  catalog : second.catalog = first.catalog
  meaning : ∀ key, first.meaning key ≠ .missing → second.meaning key = first.meaning key

namespace Widens

theorem settle (h : first.Widens second) (hplaceholder : form.placeholder? = some placeholder)
    (hmeaning : first.meaning placeholder.name ≠ .missing) (source : String) (path : Path)
    (node : Value) (notes : Outcome) :
    second.settle source path node form notes = first.settle source path node form notes := by
  rw [settle_target_eq hplaceholder, settle_target_eq hplaceholder]
  simp only [grant?, note, h.meaning _ hmeaning, checkAttribute, h.config, h.catalog]

/-- A pass that notes no missing names does the same in wider surroundings. -/
theorem rewrites (h : first.Widens second) (hdirect : v.isDirect = true)
    (hpass : v.Rewrites (first.rule source) path before w after) (hmissing : after.missing = []) :
    v.Rewrites (second.rule source) path before w after := by
  refine rewrites_induction (Q := fun path v before w after => v.isDirect = true →
    after.missing = [] → v.Rewrites (second.rule source) path before w after)
    ?scalar ?compound hpass hdirect hmissing
  case scalar => exact fun _ _ _ _ _ => rewrites_scalar_iff.2 ⟨rfl, rfl⟩
  case compound =>
    intro path v notes parts between w later hv hthread hrule hdirect hmissing
    obtain ⟨hself, hchildren⟩ := isDirect_iff.1 hdirect
    have hnone : ∀ {outcome : Outcome}, outcome.GrowsTo first later → outcome.missing = [] :=
      fun hgrows => List.prefix_nil.1 (hmissing ▸ hgrows.missing)
    have hlast : between.GrowsTo first later := growsTo_rule hrule
    have hparts : Thread (fun key => Rewrites (second.rule source) (path.push key)) v.children
        notes parts between := by
      refine hthread.mono_of_grows (fun _ hstep => growsTo_rewrites hstep.1)
        fun hmem hstep hgrows => hstep.2 (hchildren _ hmem) (hnone ?_)
      exact trans_of (Outcome.GrowsTo first) hgrows hlast
    refine (rewrites_iff hv).2 ⟨parts, between, hparts, ?_⟩
    rcases Rule.ofForms_eq_ok hrule with ⟨hordinary, rfl, rfl⟩ | ⟨form, hform, hsettle⟩
    · exact Rule.ofForms_ordinary hordinary _ _ _
    · obtain ⟨placeholder, hplaceholder⟩ := exists_placeholder hform
        (isSubstitution_withChildren hthread.keys_eq ▸ hself)
      have hmeaning : first.meaning placeholder.name ≠ .missing := by
        intro hmeaning
        have hnoted := (@mem_missing_settle first source path (v.withChildren parts) form
          placeholder between hplaceholder _).2 (Or.inr ⟨hmeaning, rfl⟩)
        rw [hsettle, hmissing] at hnoted
        simp at hnoted
      rw [rule, Rule.ofForms_form hform, h.settle hplaceholder hmeaning, hsettle]

theorem apply (h : first.Widens second) (hdirect : v.isDirect = true) {outcome : Outcome}
    (happly : first.apply source v = .ok (w, outcome)) (hmissing : outcome.missing = []) :
    second.apply source v = .ok (w, outcome) :=
  apply_eq_ok_iff.2 (h.rewrites hdirect (apply_eq_ok_iff.1 happly) hmissing)

end Widens

end Surroundings

end StackLinker
