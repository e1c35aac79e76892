import Mathlib.Data.List.Nodup
import Mathlib.Data.List.Perm.Subperm
import StackLinker.Proofs.Value.Mapping
import StackLinker.Substitution

/-!
# Names of added arguments

A substitution that receives a value without a text adds an argument for it, under a name made of
the synthetic marker and a number.  The search for a number goes through at most as many candidates
as there are arguments, and then takes the next number untested.  That number is free as well: the
tested candidates are distinct, so they are the names of all arguments (`freshNumber_notMem`).

It follows that an added argument never takes the place of another one, and that the names of added
arguments are not reserved.
-/

namespace StackLinker

namespace Surroundings

variable {around : Surroundings} {arguments : Fields Value}

theorem repr_injective {a b : Nat} (h : Nat.repr a = Nat.repr b) : a = b := by
  have hdigits := congrArg String.toList h
  rw [Nat.toList_repr, Nat.toList_repr] at hdigits
  have hvalue := congrArg (fun digits => Nat.ofDigitChars 10 digits 0) hdigits
  simpa only [Nat.ofDigitChars_ten_toDigits] using hvalue

theorem syntheticName_injective {a b : Nat}
    (h : around.syntheticName a = around.syntheticName b) : a = b := by
  have hchars := congrArg String.toList h
  simp only [syntheticName, String.toList_append, List.append_cancel_left_eq] at hchars
  exact repr_injective (String.toList_injective hchars)

/-- The search ends at a name that is not taken, or after names that are all taken. -/
private theorem freshNumber_cases (around : Surroundings) (arguments : Fields Value)
    (limit number : Nat) :
    around.syntheticName (around.freshNumber arguments limit number) ∉ arguments.keys ∨
      around.freshNumber arguments limit number = number + limit ∧
        ∀ i < limit, around.syntheticName (number + i) ∈ arguments.keys := by
  induction limit generalizing number with
  | zero => exact Or.inr ⟨rfl, by simp⟩
  | succ limit ih =>
      unfold freshNumber
      by_cases htaken : arguments.contains (around.syntheticName number) = true
      · rw [if_pos htaken]
        refine (ih (number + 1)).imp_right ?_
        rintro ⟨hend, hall⟩
        refine ⟨by omega, fun i hi => ?_⟩
        cases i with
        | zero => exact Fields.contains_iff_mem_keys.1 htaken
        | succ i =>
            have := hall i (by omega)
            rwa [show number + 1 + i = number + (i + 1) by omega] at this
      · rw [if_neg htaken]
        exact Or.inl fun hmem => htaken (Fields.contains_iff_mem_keys.2 hmem)

/-- The name that the search finds is not taken. -/
theorem freshNumber_notMem (around : Surroundings) (arguments : Fields Value) (number : Nat) :
    around.syntheticName (around.freshNumber arguments arguments.length number) ∉
      arguments.keys := by
  intro hmem
  rcases freshNumber_cases around arguments arguments.length number with hfree | ⟨hend, hall⟩
  · exact hfree hmem
  · rw [hend] at hmem
    -- One name more than there are arguments would be taken.
    let candidates := (List.range (arguments.length + 1)).map
      fun i => around.syntheticName (number + i)
    have hnodup : candidates.Nodup := by
      refine List.Nodup.map (fun i j hij => ?_) List.nodup_range
      have := syntheticName_injective hij
      omega
    have hsubset : candidates ⊆ arguments.keys := by
      intro name hname
      obtain ⟨i, hi, rfl⟩ := List.mem_map.1 hname
      rcases Nat.lt_succ_iff_lt_or_eq.1 (List.mem_range.1 hi) with hlt | rfl
      · exact hall i hlt
      · exact hmem
    have hlength := (hnodup.subperm hsubset).length_le
    simp only [candidates, List.length_map, List.length_range, Fields.keys] at hlength
    omega

/-- A name that ends in a digit is not reserved. -/
theorem syntheticName_ne_reserved (around : Surroundings) (number : Nat) :
    around.syntheticName number ∉ [Form.refKey, Form.getAttKey, Form.subKey] := by
  intro hmem
  obtain ⟨digits, digit, hdigits⟩ : ∃ digits digit, Nat.toDigits 10 number = digits ++ [digit] :=
    ⟨_, _, (List.dropLast_concat_getLast Nat.toDigits_ne_nil).symm⟩
  have hdigit : digit.isDigit = true := by
    refine Nat.isDigit_of_mem_toDigits (b := 10) (n := number) (by decide) (by decide) ?_
    simp [hdigits]
  have hlast : (around.syntheticName number).toList.getLast? = some digit := by
    simp [syntheticName, Nat.toList_repr, hdigits]
  simp only [List.mem_cons, List.not_mem_nil, or_false] at hmem
  rcases hmem with h | h | h <;> rw [h] at hlast <;>
    simp [Form.refKey, Form.getAttKey, Form.subKey] at hlast <;> subst hlast <;>
    exact absurd hdigit (by decide)

end Surroundings

end StackLinker
