import StackLinker.Linking
import StackLinker.Proofs.Finalization.Passes

/-!
# What finalization does to bindings

A placeholder is bound if an argument of its substitution has its name.  Resolution looks at the
arguments before anything else and leaves bound placeholders alone.  Finalization does not: it takes
the marker off the names of all placeholders, while arguments keep their names.  So a placeholder
whose name carries the marker loses the argument with its name, and it is caught by an argument with
its bare name, which may be one that resolution has added.

These are the only two ways in which a binding changes (`Value.keepsBinding_of_finalize`).
`Value.keepsBinding_of_finalize_colliding` has an input for each of them.
-/

namespace StackLinker

/-- Whether a placeholder with a name is bound otherwise when its marker is taken off, among
arguments with the given names. -/
def Config.Rebinds (config : Config) (arguments : List String) (name : String) : Prop :=
  config.IsMarked name ∧ (name ∈ arguments ∨ config.bareName name ∈ arguments)

instance (config : Config) (arguments : List String) (name : String) :
    Decidable (config.Rebinds arguments name) :=
  inferInstanceAs (Decidable (_ ∧ _))

namespace Piece

/-- The placeholder in a piece, unless it is a character or an escape. -/
def placeholder? : Piece → Option Placeholder
  | char _ => none
  | hole inner => Placeholder.ofHole? inner

/-- Whether a piece of a pattern, as it was and as it is, asks for the same argument.  A placeholder
that is bound keeps its name, and one that is not bound has a name that is not bound either. -/
def KeepsBinding (arguments : List String) (old new : Piece) : Prop :=
  ∀ placeholder ∈ old.placeholder?, ∃ name,
    new = .hole (Pattern.inner ⟨name, placeholder.attr⟩) ∧
      (placeholder.name ∈ arguments → name = placeholder.name) ∧
      (placeholder.name ∉ arguments → name ∉ arguments)

variable {config : Config} {arguments : List String}

theorem inner_mk_inj {name other : String} {attr : Option String} :
    Pattern.inner ⟨name, attr⟩ = Pattern.inner ⟨other, attr⟩ ↔ name = other := by
  cases attr <;> simp [Pattern.inner, String.toList_inj]

/-- A bare piece is bound as before, unless its name carries the marker and is bound in one way or
the other. -/
theorem keepsBinding_barePiece_iff (piece : Piece) :
    KeepsBinding arguments piece (config.barePiece piece) ↔
      ∀ placeholder ∈ piece.placeholder?, ¬ config.Rebinds arguments placeholder.name := by
  refine forall₂_congr fun placeholder hread => ?_
  have hbare : config.barePiece piece =
      .hole (Pattern.inner ⟨config.bareName placeholder.name, placeholder.attr⟩) := by
    cases piece with
    | char c => simp [placeholder?] at hread
    | hole inner => exact Config.barePiece_of_read hread
  simp only [hbare, Piece.hole.injEq, inner_mk_inj, exists_eq_left', Config.bareName_eq_self_iff,
    Config.Rebinds]
  by_cases hmarked : config.IsMarked placeholder.name
  · by_cases hbound : placeholder.name ∈ arguments <;> simp [hmarked, hbound]
  · simp [hmarked, Config.bareName_of_not_isMarked hmarked]

end Piece

namespace Value

variable {config : Config} {path place : Path} {root pattern : String} {arguments : Fields Value}
  {v w : Value}

/-- A substitution that stands below a pair of a pattern and arguments stands in the arguments. -/
private theorem exists_of_at?_template {text : String} {map : Fields Value} {segment : String}
    {rest : Path} (h : (template text (some map)).at? (segment :: rest) =
      some (.template pattern (some arguments))) :
    ∃ inner, segment = Form.subKey ∧ rest = "1" :: inner ∧ map ≠ [] ∧
      (Value.map map).at? inner = some (.template pattern (some arguments)) := by
  obtain ⟨body, hbody, hrest⟩ := Option.bind_eq_some_iff.1 h
  obtain ⟨rfl, rfl⟩ := Fields.find?_single_iff.1 hbody
  cases rest with
  | nil => simp [at?, template] at hrest
  | cons index inner =>
      obtain ⟨item, hitem, hinner⟩ := Option.bind_eq_some_iff.1 hrest
      simp only [children, indexed, Fields.find?] at hitem
      split at hitem
      · -- Nothing stands below the pattern.
        obtain rfl := Option.some.inj hitem
        have hnode := mem_nodes_of_at? hinner
        simp [string, nodes, template] at hnode
      · split at hitem
        · rename_i hindex
          obtain rfl := Option.some.inj hitem
          refine ⟨inner, rfl, by rw [← hindex]; rfl, ?_, hinner⟩
          rintro rfl
          cases inner <;> simp [at?, template, children, Fields.find?] at hinner
        · simp at hitem

/-- A substitution is written anew at its place, and its arguments keep their names. -/
theorem at?_of_finalize (h : v.Rewrites config.finalizeRule path () w ())
    (hplace : v.at? place = some (.template pattern (some arguments))) :
    ∃ done, Fields.keys done = Fields.keys arguments ∧
      w.at? place = some (config.bareForm (.template pattern (some done))
        (.substitution pattern (some done))) := by
  refine finalize_induction (P := fun v w => ∀ place pattern arguments,
    v.at? place = some (.template pattern (some arguments)) → ∃ done,
      Fields.keys done = Fields.keys arguments ∧
        w.at? place = some (config.bareForm (.template pattern (some done))
          (.substitution pattern (some done))))
    ?scalar ?ordinary ?target ?pattern ?arguments h place pattern arguments hplace
  case scalar =>
    intro s place pattern arguments hplace
    have hnode := mem_nodes_of_at? hplace
    simp [nodes, template] at hnode
  case ordinary =>
    intro v parts hordinary hparts place pattern arguments hplace
    cases place with
    | nil =>
        rw [Option.some.inj hplace, isReserved_template] at hordinary
        simp at hordinary
    | cons segment rest =>
        obtain ⟨child, hchild, hrest⟩ := Option.bind_eq_some_iff.1 hplace
        obtain ⟨part, hpart, -, hstep⟩ := Fields.exists_find?_of_forall₂ hparts And.left hchild
        obtain ⟨done, hkeys, hdone⟩ := hstep rest pattern arguments hrest
        refine ⟨done, hkeys, ?_⟩
        have hsame : parts.map (·.1) = v.children.map (·.1) :=
          (hparts.map_eq_map fun hpart => hpart.1.symm).symm
        rw [at?, children_withChildren hsame, hpart]
        exact hdone
  case target =>
    intro v form key hform htarget place pattern arguments hplace
    cases place with
    | nil =>
        rw [Option.some.inj hplace, Form.recognize?_template] at hform
        obtain rfl := Option.some.inj (Except.ok.inj hform)
        simp [Form.target?] at htarget
    | cons segment rest =>
        obtain ⟨child, hchild, hrest⟩ := Option.bind_eq_some_iff.1 hplace
        have hnone := Form.recognize?_below_target hform htarget (Fields.mem_of_find? hchild)
          (mem_nodes_of_at? hrest)
        simp [Form.recognize?_template] at hnone
  case pattern =>
    intro text place pattern arguments hplace
    cases place with
    | nil =>
        have hsame := (Form.template_inj.1 (Option.some.inj hplace)).2
        simp at hsame
    | cons segment rest =>
        obtain ⟨child, hchild, hrest⟩ := Option.bind_eq_some_iff.1 hplace
        obtain ⟨-, rfl⟩ := Fields.find?_single_iff.1 hchild
        have hnode := mem_nodes_of_at? hrest
        simp [string, nodes, template] at hnode
  case arguments =>
    intro text map done path hmap ih place pattern arguments hplace
    have hkeys := keys_of_finalize hmap
    cases place with
    | nil =>
        obtain ⟨rfl, hsame⟩ := Form.template_inj.1 (Option.some.inj hplace)
        obtain rfl := Option.some.inj hsame
        exact ⟨done, hkeys, rfl⟩
    | cons segment rest =>
        obtain ⟨inner, rfl, rfl, hne, hinner⟩ := exists_of_at?_template hplace
        obtain ⟨below, hbelow, hat⟩ := ih inner pattern arguments hinner
        refine ⟨below, hbelow, ?_⟩
        have hdone : done ≠ [] := by
          rintro rfl
          exact hne (List.map_eq_nil_iff.1 hkeys.symm)
        rw [Config.bareForm_template, if_pos (Or.inr (by simpa using hdone))]
        exact hat

/-- Finalization keeps the names of the arguments of every substitution, and the bindings of all its
placeholders but those that carry the marker and have, with or without it, the name of an
argument. -/
theorem keepsBinding_of_finalize (hfirst : (v.finalize config root).failure = none)
    (hplace : v.at? place = some (.template pattern (some arguments))) :
    ∃ after done, (v.finalize config root).result.at? place = some (.template after done) ∧
      Fields.keys (done.getD []) = Fields.keys arguments ∧
      List.Forall₂ (fun old new => Piece.KeepsBinding (Fields.keys arguments) old new ↔
          ∀ placeholder ∈ old.placeholder?,
            ¬ config.Rebinds (Fields.keys arguments) placeholder.name)
        (Pattern.pieces pattern) (Pattern.pieces after) := by
  obtain ⟨done, hkeys, hat⟩ := at?_of_finalize (rewrites_of_finalize hfirst) hplace
  rw [Config.bareForm_template] at hat
  refine ⟨_, _, hat, ?_, ?_⟩
  · split
    · exact hkeys
    · rename_i hdropped
      obtain rfl : done = [] := by simpa using (not_or.1 hdropped).2
      exact hkeys
  · rw [Config.pieces_barePattern, List.forall₂_map_right_iff]
    exact List.forall₂_same.2 fun piece _ => Piece.keepsBinding_barePiece_iff piece

/-- The pattern of a substitution with placeholders of all kinds: bound, with an attribute and
without, not bound, with a marker and without, and escaped. -/
def mixedPattern : String := "${y}${@x}${P0.Arn}${!@y}${@z.Arn}${q}$\x7b"

/-- Arguments for `mixedPattern`. -/
def mixedArguments : Fields Value := [("y", .string "v"), ("P0", .list [.ref "@x"])]

theorem keepsBinding_of_finalize_mixed :
    ((list [sub mixedPattern mixedArguments]).finalize {} "V").failure = none ∧
      (list [sub mixedPattern mixedArguments]).at? ["0"] =
        some (.template mixedPattern (some mixedArguments)) ∧
      ∃ after done, ((list [sub mixedPattern mixedArguments]).finalize {} "V").result.at? ["0"] =
          some (.template after done) ∧
        Fields.keys (done.getD []) = Fields.keys mixedArguments ∧
        List.Forall₂ (Piece.KeepsBinding (Fields.keys mixedArguments))
          (Pattern.pieces mixedPattern) (Pattern.pieces after) := by
  have hfirst : ((list [sub mixedPattern mixedArguments]).finalize {} "V").failure = none := by
    decide +kernel
  have hplace : (list [sub mixedPattern mixedArguments]).at? ["0"] =
      some (.template mixedPattern (some mixedArguments)) := rfl
  have hpieces : ∀ piece ∈ Pattern.pieces mixedPattern, ∀ placeholder ∈ piece.placeholder?,
      ¬ Config.Rebinds {} (Fields.keys mixedArguments) placeholder.name := by
    decide +kernel
  obtain ⟨after, done, hat, hkeys, hbindings⟩ := keepsBinding_of_finalize hfirst hplace
  refine ⟨hfirst, hplace, after, done, hat, hkeys, ?_⟩
  exact ((List.forall₂_and_left _ _).2 ⟨hpieces, hbindings⟩).imp fun _ _ h => h.2.2 h.1

/-- A module in which resolution adds the argument `P0`, beside a placeholder for the provider
resource of that name. -/
def colliding : ModuleGraph where
  name := "Main"
  entities := [
    { fullName := "P0", kind := .resource, reference := .ref "@P0", typeName := "Queue" },
    .value "L" (.list [.ref "AWS::Region"]),
    .value "V" (.sub "${P0}-${L}" [])]

/-- A placeholder that loses its argument, one that is caught by an argument, and one that is caught
by an argument that resolution has added. -/
theorem keepsBinding_of_finalize_colliding :
    ((sub "${@x}" [("@x", .string "v")]).finalize {} "V").result =
        sub "${x}" [("@x", .string "v")] ∧
      ¬ Piece.KeepsBinding ["@x"] (.hole ['@', 'x']) (.hole ['x']) ∧
      ((sub "${@P0}" [("P0", .string "v")]).finalize {} "V").result =
        sub "${P0}" [("P0", .string "v")] ∧
      ¬ Piece.KeepsBinding ["P0"] (.hole ['@', 'P', '0']) (.hole ['P', '0']) ∧
      (colliding.link {} .permissive).toOption.map (·.graph.entities.map (·.reference)) =
        some [.ref "P0", .list [.ref "AWS::Region"],
          sub "${P0}-${P0}" [("P0", .list [.ref "AWS::Region"])]] := by
  refine ⟨by decide +kernel, ?lost, by decide +kernel, ?caught, by decide +kernel⟩
  case lost =>
    intro h
    obtain ⟨name, hnew, hbound, -⟩ := h ⟨"@x", none⟩ (by decide)
    rw [hbound (by simp)] at hnew
    exact absurd hnew (by decide)
  case caught =>
    intro h
    obtain ⟨name, hnew, -, hfree⟩ := h ⟨"@P0", none⟩ (by decide)
    have hname : name.toList = "P0".toList := (Piece.hole.inj hnew).symm
    exact hfree (by decide) (by simp [String.toList_injective hname])

end Value

end StackLinker
