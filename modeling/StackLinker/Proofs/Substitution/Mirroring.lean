import StackLinker.Proofs.Substitution.Alike
import StackLinker.Proofs.Substitution.Repeating
import StackLinker.Proofs.Substitution.Requests

/-!
# Surroundings that grant alike values

A pass depends on the free entities only through what they grant.  Where two surroundings grant
alike values to everything that a value asks for (`Surroundings.Corresponds`), passes in them make
alike values of it (`yields_alike_of_corresponds`).

Nothing is asked of the patterns here: both passes put the same texts into them, and they find the
same names for the arguments they add.
-/

namespace StackLinker

namespace Surroundings

open Value

variable {first second : Surroundings} {config : Config} {splicing : Splicing} {source : String}
  {path : Path} {placeholder : Placeholder} {declared : Fields Value} {state twin : Filling}
  {pattern : String} {v w x : Value}

/-- What two surroundings grant to a placeholder is alike, or neither grants anything. -/
def Corresponds (first second : Surroundings) (placeholder : Placeholder) : Prop :=
  Option.Rel (Value.Alike first.config) (first.grant? placeholder) (second.grant? placeholder)

/-! ## Fillings -/

/-- Fillings with alike arguments under the same names, the declared ones among them. -/
structure Filling.Matches (config : Config) (declared : Fields Value) (state twin : Filling) :
    Prop where
  declared : declared.keys ⊆ state.arguments.keys
  arguments : List.Forall₂ (fun a b => b.1 = a.1 ∧ a.2.Alike config b.2) state.arguments
    twin.arguments
  next : twin.next = state.next
  changed : twin.changed = state.changed

theorem Filling.Matches.keys_eq (h : state.Matches config declared twin) :
    twin.arguments.keys = state.arguments.keys :=
  (h.arguments.map_eq_map fun h => h.1.symm).symm

/-- The search for a number only looks at the names that are taken. -/
theorem freshNumber_congr {arguments others : Fields Value} (hconfig : second.config = first.config)
    (hkeys : others.keys = arguments.keys) (limit number : Nat) :
    second.freshNumber others limit number = first.freshNumber arguments limit number := by
  have hcontains (key : String) : others.contains key = arguments.contains key := by
    rw [Bool.eq_iff_iff, Fields.contains_iff_mem_keys, Fields.contains_iff_mem_keys, hkeys]
  induction limit generalizing number with
  | zero => rfl
  | succ limit ih =>
      have hname : second.syntheticName number = first.syntheticName number := by
        rw [syntheticName, hconfig, syntheticName]
      rw [freshNumber, freshNumber, hname, hcontains, ih]

/-- Alike values come into alike fillings as the same text. -/
theorem Filling.Matches.splice (hconfig : second.config = first.config)
    (h : state.Matches config declared twin) (hvalues : v.Alike config w) :
    (second.splice w twin).1 = (first.splice v state).1 ∧
      (first.splice v state).2.Matches config declared (second.splice w twin).2 := by
  cases hinserted : v.inserted? with
  | some text =>
      rw [splice_of_inserted? hinserted, splice_of_inserted? (hvalues.inserted?_eq.trans hinserted)]
      exact ⟨rfl, h⟩
  | none =>
      have hnumber : first.freshNumber state.arguments state.arguments.length state.next =
          second.freshNumber twin.arguments twin.arguments.length twin.next := by
        rw [freshNumber_congr hconfig h.keys_eq, h.next, h.arguments.length_eq]
      rw [splice_eq_of_not_inserted hinserted state rfl,
        splice_eq_of_not_inserted (hvalues.inserted?_eq.trans hinserted) twin hnumber,
        syntheticName, syntheticName, hconfig]
      refine ⟨rfl, ?_, ?_, rfl, h.changed⟩
      · rw [Fields.keys, Fields.keys, List.map_append]
        exact fun _ hkey => List.mem_append_left _ (h.declared hkey)
      · exact List.rel_append h.arguments (.cons ⟨rfl, hvalues⟩ .nil)

/-- A placeholder is answered alike. -/
theorem Filling.Matches.answer (hconfig : second.config = first.config)
    (h : state.Matches first.config declared twin)
    (hasked : placeholder.name ∉ declared.keys → first.Corresponds second placeholder) :
    (second.answer source path placeholder twin).1 =
        (first.answer source path placeholder state).1 ∧
      (first.answer source path placeholder state).2.Matches first.config declared
        (second.answer source path placeholder twin).2 := by
  rw [answer_eq, answer_eq, h.keys_eq]
  split
  · exact ⟨rfl, h⟩
  · rename_i hown
    have hcorresponds := hasked fun hdeclared => hown (h.declared hdeclared)
    unfold Corresponds at hcorresponds
    generalize first.grant? placeholder = granted, second.grant? placeholder = other at hcorresponds
    cases hcorresponds with
    | none => exact ⟨rfl, h.declared, h.arguments, h.next, h.changed⟩
    | some hvalues =>
        obtain ⟨htext, hdeclared, harguments, hnext, -⟩ := h.splice hconfig hvalues
        exact ⟨congrArg some htext, hdeclared, harguments, hnext, rfl⟩

/-- A pattern is filled with the same texts. -/
theorem Filling.Matches.fill (hconfig : second.config = first.config)
    (h : state.Matches first.config declared twin)
    (hasked : ∀ placeholder ∈ Pattern.placeholders pattern, placeholder.name ∉ declared.keys →
      first.Corresponds second placeholder) :
    (Pattern.fill (second.answer source path) pattern twin).1 =
        (Pattern.fill (first.answer source path) pattern state).1 ∧
      (Pattern.fill (first.answer source path) pattern state).2.Matches first.config declared
        (Pattern.fill (second.answer source path) pattern twin).2 := by
  have hstep : ∀ hole placeholder state twin, .hole hole ∈ Pattern.pieces pattern →
      Placeholder.ofHole? hole = some placeholder → state.Matches first.config declared twin →
      (second.answer source path placeholder twin).1 =
          (first.answer source path placeholder state).1 ∧
        (first.answer source path placeholder state).2.Matches first.config declared
          (second.answer source path placeholder twin).2 :=
    fun _ placeholder _ _ hmem hread h =>
      h.answer hconfig (hasked placeholder (Pattern.mem_placeholders hmem hread))
  obtain ⟨htext, hmatches⟩ := Pattern.fillPieces_relates hstep h
  exact ⟨congrArg String.ofList htext, hmatches⟩

/-! ## Values -/

private theorem forall₂_alike_of_parts {parts done others : Fields Value}
    (h : first.YieldsParts parts done) (hother : second.YieldsParts parts others)
    (ih : ∀ part ∈ parts, ∀ {w x}, first.Yields part.2 w → second.Yields part.2 x →
      w.Alike first.config x) :
    List.Forall₂ (fun a b => b.1 = a.1 ∧ a.2.Alike first.config b.2) done others := by
  have hdone := (h.imp_of_mem fun {a b} ha _ hstep => And.intro ha hstep).flip
  refine (hdone.comp hother).imp ?_
  rintro b c ⟨a, ⟨ha, hkey, hfirst⟩, hother, hsecond⟩
  exact ⟨hother.trans hkey.symm, ih a ha hfirst hsecond⟩

/-- Where two surroundings grant alike values to everything that a value asks for, passes in them
make alike values of it. -/
theorem yields_alike_of_corresponds (hconfig : second.config = first.config)
    (hv : v.IsTame config splicing)
    (hasked : ∀ place placeholder, v.Requests place placeholder →
      first.Corresponds second placeholder)
    (h : first.Yields v w) (hother : second.Yields v x) : w.Alike first.config x := by
  induction hv generalizing w x with
  | scalar s =>
      obtain rfl := yields_scalar_iff.1 h
      obtain rfl := yields_scalar_iff.1 hother
      exact .scalar s
  | @ordinary v hv hordinary _ ih =>
      obtain ⟨parts, hparts, rfl⟩ := (yields_ordinary_iff hv hordinary).1 h
      obtain ⟨others, hothers, rfl⟩ := (yields_ordinary_iff hv hordinary).1 hother
      exact alike_withChildren hv hordinary hparts.keys_eq <|
        forall₂_alike_of_parts hparts hothers fun part hpart {w x} =>
          ih part hpart fun place placeholder hrequest =>
            hasked _ _ (requests_cons_iff.2 ⟨part.2, hpart, hrequest⟩)
  | @target v form placeholder hform hplaceholder =>
      have hcorresponds := hasked [] placeholder ((requests_target_iff hform hplaceholder).2
        ⟨rfl, rfl⟩)
      obtain rfl := (yields_target_iff hform hplaceholder).1 h
      obtain rfl := (yields_target_iff hform hplaceholder).1 hother
      unfold Corresponds at hcorresponds
      generalize first.grant? placeholder = granted, second.grant? placeholder = other
        at hcorresponds
      cases hcorresponds with
      | none => exact .target hform hplaceholder
      | some hvalues => exact hvalues
  | @template pattern arguments _ _ hordinary _ ih =>
      have hasks (around : Surroundings) :
          Asks around ⟨fun _ => True, True⟩ pattern (arguments.getD []) := fun _ _ _ _ => trivial
      obtain ⟨_, hpass⟩ := h "" [] {}
      obtain ⟨_, hpass'⟩ := hother "" [] {}
      obtain ⟨done, between, text, filling, -, hfirst⟩ :=
        exists_refills (hasks first) hordinary hpass
      obtain ⟨others, between', text', filling', -, hsecond⟩ :=
        exists_refills (hasks second) hordinary hpass'
      have hdone : first.YieldsParts (arguments.getD []) done :=
        hfirst.thread.forall₂ fun _ hstep => ⟨rfl, yields_of_rewrites hstep⟩
      have hothers : second.YieldsParts (arguments.getD []) others :=
        hsecond.thread.forall₂ fun _ hstep => ⟨rfl, yields_of_rewrites hstep⟩
      have halike := forall₂_alike_of_parts hdone hothers fun argument hargument {w x} =>
        ih argument hargument fun place placeholder hrequest => hasked _ _
          ((requests_template_iff hordinary).2 (Or.inr ⟨argument, hargument, place, rfl, hrequest⟩))
      have hkeys : Fields.keys done = Fields.keys (arguments.getD []) := hdone.keys_eq
      have hstart : (Filling.start (some done) between).Matches first.config done
          (.start (some others) between') := ⟨List.Subset.refl _, halike, rfl, rfl⟩
      obtain ⟨htext, hmatches⟩ := hstart.fill hconfig fun placeholder hmem hown =>
        hasked [] placeholder ((requests_template_iff hordinary).2
          (Or.inl ⟨rfl, hmem, fun hdeclared => hown (hkeys ▸ hdeclared)⟩))
      rw [hfirst.fill, hsecond.fill] at htext hmatches
      obtain rfl : text' = text := htext
      have hnil : filling'.arguments = [] ↔ filling.arguments = [] := by
        rw [← List.length_eq_zero_iff, ← List.length_eq_zero_iff, hmatches.arguments.length_eq]
      rcases hfirst.result with ⟨hempty, hholes, rfl⟩ | ⟨hplain, all, hall, rfl, hsome⟩ <;>
        rcases hsecond.result with ⟨hempty', hholes', rfl⟩ | ⟨hplain', more, hmore, rfl, hsome'⟩
      · exact .scalar _
      · exact absurd ⟨hnil.2 hempty, hholes⟩ hplain'
      · exact absurd ⟨hnil.1 hempty', hholes'⟩ hplain
      · have hkeys' : Fields.keys (more.getD []) = Fields.keys (all.getD []) := by
          rw [hall, hmore, hmatches.keys_eq]
        refine .template (IsPairing.of_keys_eq _ hkeys')
          (List.forall₂_same.2 fun piece _ => Piece.Alike.of_keys_eq hkeys' piece) ?_ ?_
        · have hisEmpty : filling'.arguments.isEmpty = filling.arguments.isEmpty := by
            rw [Bool.eq_iff_iff, List.isEmpty_iff, List.isEmpty_iff, hnil]
          rw [hsome, hsome', hmatches.changed, hisEmpty]
        · rw [hall, hmore]
          exact fun a b hbeside => (hbeside.of_forall₂ hmatches.arguments).2

end Surroundings

end StackLinker
