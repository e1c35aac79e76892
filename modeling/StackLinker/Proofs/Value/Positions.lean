import StackLinker.Proofs.Value.Rewriting

/-!
# Positions in a value

A position says by numbers which part to go to, from the root of a tree on, so that it leads to one
node even where a map repeats a key; the segments of the path come with the node that is found
(`Value.locate?`).  `IsBefore` is the order of positions from the leaves up: what stands below a
node comes before the node, and of two parts of a node the first one comes before the second, each
together with all that stands below it.
-/

namespace StackLinker

/-- Which part to go to, from the root of a tree on. -/
abbrev Position := List Nat

/-- What stands at a position below a value, with the segments that lead there. -/
def Value.locate? : Value → Position → Option (Path × Value)
  | v, [] => some ([], v)
  | v, i :: rest => (v.children[i]?).bind fun part =>
    (part.2.locate? rest).map fun found => (part.1 :: found.1, found.2)

/-- What stands at a position below one of several entries. -/
def Fields.locate? (entries : Fields Value) : Position → Option (Path × Value)
  | [] => none
  | i :: rest => (entries[i]?).bind fun part =>
    (part.2.locate? rest).map fun found => (part.1 :: found.1, found.2)

namespace Value

variable {v node : Value} {place : Path} {position rest p q r : Position}

/-- A step further, what is found is a part of what was found. -/
theorem locate?_append :
    v.locate? (position ++ rest) = (v.locate? position).bind fun found =>
      (found.2.locate? rest).map fun below => (found.1 ++ below.1, below.2) := by
  induction position generalizing v with
  | nil => simp [locate?]
  | cons i position ih =>
      simp only [List.cons_append, locate?]
      cases v.children[i]? with
      | none => rfl
      | some part =>
          simp only [Option.bind_some, ih, Option.map_bind, Option.bind_map]
          congr 1
          funext found
          simp [Function.comp_def]

theorem locate?_part (h : v.locate? position = some (place, node)) {i : Nat}
    {part : String × Value} (hpart : node.children[i]? = some part) :
    v.locate? (position ++ [i]) = some (place ++ [part.1], part.2) := by
  simp [locate?_append, h, locate?, hpart]

theorem isCompound_of_locate? {i : Nat} {found : Path × Value}
    (h : v.locate? (i :: rest) = some found) : v.isCompound = true := by
  cases v <;> first | rfl | simp [locate?, children] at h

/-! ## Order -/

/-- The order of a traversal from the leaves up. -/
def IsBefore : Position → Position → Prop
  | [], _ => False
  | _ :: _, [] => True
  | i :: p, j :: q => i < j ∨ i = j ∧ IsBefore p q

@[simp] theorem not_isBefore_nil : ¬ IsBefore [] p := by
  simp [IsBefore]

@[simp] theorem isBefore_cons_nil {i : Nat} : IsBefore (i :: p) [] := trivial

@[simp] theorem isBefore_cons_iff {i : Nat} : IsBefore (i :: p) (i :: q) ↔ IsBefore p q := by
  simp [IsBefore]

theorem isBefore_irrefl (p : Position) : ¬ IsBefore p p := by
  induction p with
  | nil => exact not_isBefore_nil
  | cons i p ih => rwa [isBefore_cons_iff]

theorem IsBefore.trans (hpq : IsBefore p q) (hqr : IsBefore q r) : IsBefore p r := by
  induction p generalizing q r with
  | nil => exact hpq.elim
  | cons i p ih =>
      rcases r with _ | ⟨k, r⟩
      · exact isBefore_cons_nil
      · rcases q with _ | ⟨j, q⟩
        · exact hqr.elim
        · rcases hpq with hij | ⟨rfl, hpq⟩ <;> rcases hqr with hjk | ⟨rfl, hqr⟩
          · exact Or.inl (Nat.lt_trans hij hjk)
          · exact Or.inl hij
          · exact Or.inl hjk
          · exact Or.inr ⟨rfl, ih hpq hqr⟩

theorem isBefore_nil (hp : p ≠ []) : IsBefore p [] := by
  obtain ⟨i, rest, rfl⟩ := List.exists_cons_of_ne_nil hp
  exact isBefore_cons_nil

/-- What stands below a node comes before the node. -/
theorem isBefore_append (hrest : rest ≠ []) : IsBefore (position ++ rest) position := by
  induction position with
  | nil => exact isBefore_nil hrest
  | cons i position ih => exact isBefore_cons_iff.2 ih

/-- The same position one part further on. -/
def shift : Position → Position
  | [] => []
  | i :: p => (i + 1) :: p

@[simp] theorem isBefore_shift_iff : IsBefore (shift p) (shift q) ↔ IsBefore p q := by
  cases p <;> cases q <;> simp [shift, IsBefore]

theorem isBefore_zero_shift : IsBefore (0 :: p) (shift q) := by
  cases q <;> simp [shift, IsBefore]

theorem not_isBefore_shift_zero : ¬ IsBefore (shift p) (0 :: q) := by
  cases p <;> simp [shift, IsBefore]

end Value

end StackLinker
