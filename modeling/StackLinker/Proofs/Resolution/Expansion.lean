import StackLinker.Proofs.Pattern.Scanning
import StackLinker.Proofs.Resolution.Accounting
import StackLinker.Proofs.Substitution.Literal

/-!
# Interpolation is recursive expansion

In a module of texts and of patterns for them, a run expands a pattern piecewise: in each sweep the
placeholders whose targets are free give way, and what comes out is read again.  `Expands` is the
expansion all at once, by recursion over the dependencies.  It does not mention how patterns are
filled: a pattern is cut at its placeholders (`Pattern.Scans`), and the literal texts of the cut are
written one after the other, with the expansions of the targets between them
(`Pattern.interpolate`).

* The texts have no dollar signs, and neither have the patterns outside of their placeholders.  So
  what was put in is never taken for a part of the pattern (`Pattern.Interpolates.literal`), and
  expanding the new pattern comes to the same as expanding the old one
  (`Pattern.Interpolates.expand_literal`).
* A state is `Expanding` if the free entities are expanded and the patterns that wait lead to the
  expansions of their entities.  A sweep preserves this (`Expanding.step`), and it promotes the
  patterns whose names are all free, of which there is one as long as the dependencies are acyclic
  (`Expanding.promotions_ne_nil`).
-/

namespace StackLinker

/-! ## Patterns of names -/

namespace Pattern

variable {config : Config} {graph : ModuleGraph} {pattern : String} {inner last : List Char}
  {parts : List (List Char × List Char)}

/-- Whether the placeholders of a cut are for entities of a module, and no dollar sign stands
outside of them. -/
structure IsCutAtNames (config : Config) (graph : ModuleGraph)
    (parts : List (List Char × List Char)) (last : List Char) : Prop where
  literal : ∀ part ∈ parts, '$' ∉ part.1
  last : '$' ∉ last
  names : ∀ part ∈ parts, ∃ name ∈ graph.names, part.2 = name.toList ∧
    name.toList.head? ≠ some '!' ∧ config.isExempt name = false

/-- Whether a pattern is cut at names of a module. -/
def Interpolates (config : Config) (graph : ModuleGraph) (pattern : String) : Prop :=
  ∃ parts last, Scans pattern.toList parts last ∧ IsCutAtNames config graph parts last

theorem interpolates_iff_pieces : Interpolates config graph pattern ↔
    .char '$' ∉ pieces pattern ∧ ∀ inner, .hole inner ∈ pieces pattern → ∃ name ∈ graph.names,
      inner = name.toList ∧ name.toList.head? ≠ some '!' ∧ config.isExempt name = false := by
  have hcut : ∀ {parts last}, Scans pattern.toList parts last →
      (IsCutAtNames config graph parts last ↔ .char '$' ∉ pieces pattern ∧
        ∀ inner, .hole inner ∈ pieces pattern → ∃ name ∈ graph.names,
          inner = name.toList ∧ name.toList.head? ≠ some '!' ∧
            config.isExempt name = false) := by
    intro parts last hscans
    simp only [pieces, hscans.pieces_eq, char_mem_assemble, hole_mem_assemble, not_or, not_exists,
      not_and, forall_exists_index, and_imp, forall_apply_eq_imp_iff₂]
    exact ⟨fun h => ⟨⟨h.literal, h.last⟩, h.names⟩, fun h => ⟨h.1.1, h.1.2, h.2⟩⟩
  constructor
  · rintro ⟨parts, last, hscans, hnames⟩
    exact (hcut hscans).1 hnames
  · intro h
    obtain ⟨parts, last, hscans⟩ := exists_scans pattern.toList
    exact ⟨parts, last, hscans, (hcut hscans).2 h⟩

theorem Interpolates.dollar (h : Interpolates config graph pattern) : .char '$' ∉ pieces pattern :=
  (interpolates_iff_pieces.1 h).1

theorem Interpolates.holes (h : Interpolates config graph pattern)
    (hinner : .hole inner ∈ pieces pattern) : ∃ name ∈ graph.names, inner = name.toList ∧
      name.toList.head? ≠ some '!' ∧ config.isExempt name = false :=
  (interpolates_iff_pieces.1 h).2 inner hinner

/-- Whether a pattern interpolates names, as it can be tested. -/
def interpolates (config : Config) (graph : ModuleGraph) (pattern : String) : Bool :=
  (pieces pattern).all fun
    | .char c => c != '$'
    | .hole inner => graph.names.any fun name =>
      inner == name.toList && name.toList.head? != some '!' && !config.isExempt name

theorem interpolates_iff : interpolates config graph pattern = true ↔
    Interpolates config graph pattern := by
  rw [interpolates, List.all_eq_true, interpolates_iff_pieces]
  constructor
  · intro h
    refine ⟨fun hdollar => by simpa using h _ hdollar, fun inner hinner => ?_⟩
    obtain ⟨name, hname, hall⟩ := List.any_eq_true.1 (h _ hinner)
    exact ⟨name, hname, by simpa [and_assoc] using hall⟩
  · intro h piece hpiece
    cases piece with
    | char c =>
        refine bne_iff_ne.2 ?_
        rintro rfl
        exact h.1 hpiece
    | hole inner =>
        obtain ⟨name, hname, hall⟩ := h.2 inner hpiece
        exact List.any_eq_true.2 ⟨name, hname, by simpa [and_assoc] using hall⟩

instance : Decidable (Interpolates config graph pattern) :=
  decidable_of_iff _ interpolates_iff

/-- The literal texts of a cut, with the texts for the names between them. -/
def interpolate (text : String → String) (parts : List (List Char × List Char))
    (last : List Char) : String :=
  String.ofList
    (parts.flatMap (fun part => part.1 ++ (text (String.ofList part.2)).toList) ++ last)

/-- The pattern that is left when each placeholder is filled with a text for its name. -/
def expand (text : String → String) (pattern : String) : String :=
  replace (fun placeholder => some (text placeholder.name)) pattern

theorem ofHole?_of_isAddressable {name : String} (hname : ModuleGraph.isAddressable name = true)
    (hhead : name.toList.head? ≠ some '!') :
    Placeholder.ofHole? name.toList = some ⟨name, none⟩ := by
  have hdot : '.' ∉ name.toList := by
    simp only [ModuleGraph.isAddressable, Bool.and_eq_true, Bool.not_eq_true'] at hname
    simpa using hname.2
  rw [Placeholder.ofHole?, if_neg hhead, Text.cutAt_eq_none_iff.2 hdot]
  simp

theorem Interpolates.read (h : Interpolates config graph pattern) (hvalid : graph.Valid)
    (hinner : .hole inner ∈ pieces pattern) : ∃ name ∈ graph.names,
      Placeholder.ofHole? inner = some ⟨name, none⟩ ∧ config.isExempt name = false := by
  obtain ⟨name, hname, rfl, hhead, hexempt⟩ := h.holes hinner
  exact ⟨name, hname, ofHole?_of_isAddressable (hvalid.addressable name hname) hhead, hexempt⟩

/-- What a pattern of names asks for is an entity that is not exempt. -/
theorem Interpolates.of_mem_names (h : Interpolates config graph pattern) (hvalid : graph.Valid)
    {name : String} (hname : name ∈ names pattern) :
    name ∈ graph.names ∧ config.isExempt name = false := by
  obtain ⟨inner, placeholder, hinner, hread, rfl⟩ := mem_names.1 hname
  obtain ⟨name, hdeclared, hread', hexempt⟩ := h.read hvalid hinner
  obtain rfl := Option.some.inj (hread.symm.trans hread')
  exact ⟨hdeclared, hexempt⟩

theorem interpolate_congr {text other : String → String}
    (h : ∀ part ∈ parts, text (String.ofList part.2) = other (String.ofList part.2)) :
    interpolate text parts last = interpolate other parts last := by
  rw [interpolate, interpolate, List.flatMap_congr fun part hpart => by rw [h part hpart]]

theorem IsCutAtNames.ofHole?_eq (h : IsCutAtNames config graph parts last) (hvalid : graph.Valid)
    {part : List Char × List Char} (hpart : part ∈ parts) :
    Placeholder.ofHole? part.2 = some ⟨String.ofList part.2, none⟩ := by
  obtain ⟨name, hname, hinner, hhead, -⟩ := h.names part hpart
  rw [hinner, String.ofList_toList]
  exact ofHole?_of_isAddressable (hvalid.addressable name hname) hhead

/-- Filling a pattern of names writes the texts between the literal texts of its cut. -/
theorem Scans.expand_eq (hscans : Scans pattern.toList parts last) (hvalid : graph.Valid)
    (hnames : IsCutAtNames config graph parts last) (text : String → String) :
    expand text pattern = interpolate text parts last := by
  have hread : ∀ part ∈ parts, Placeholder.ofHole? part.2 = some ⟨String.ofList part.2, none⟩ :=
    fun _ => hnames.ofHole?_eq hvalid
  rw [expand, replace, fill, pieces, hscans.pieces_eq, interpolate]
  refine congrArg String.ofList ?_
  clear hscans hnames
  induction parts with
  | nil => simp [assemble, fillPieces_map_char]
  | cons part rest ih =>
      have hrest := ih fun other hother => hread other (List.mem_cons_of_mem _ hother)
      rw [assemble_cons, fillPieces_append, fillPieces_map_char]
      simp [fillPieces, hread part List.mem_cons_self, hrest]

/-- The names that a pattern asks for are those that stand in its cut. -/
theorem Scans.mem_names_iff (hscans : Scans pattern.toList parts last) (hvalid : graph.Valid)
    (hnames : IsCutAtNames config graph parts last) {name : String} :
    name ∈ names pattern ↔ ∃ part ∈ parts, String.ofList part.2 = name := by
  rw [mem_names, pieces, hscans.pieces_eq]
  simp only [hole_mem_assemble]
  constructor
  · rintro ⟨_, placeholder, ⟨part, hpart, rfl⟩, hread, rfl⟩
    obtain rfl := Option.some.inj ((hnames.ofHole?_eq hvalid hpart).symm.trans hread)
    exact ⟨part, hpart, rfl⟩
  · rintro ⟨part, hpart, rfl⟩
    exact ⟨_, _, ⟨part, hpart, rfl⟩, hnames.ofHole?_eq hvalid hpart, rfl⟩

/-- A text without holes is its own expansion. -/
theorem expand_of_hasHoles {text : String → String} (h : hasHoles pattern = false) :
    expand text pattern = pattern :=
  replace_eq_self fun inner _ hinner => absurd hinner (hole_notMem_of_hasHoles h inner)

/-! ## One pass over a pattern of names -/

variable {around : Surroundings} {path : Path} {name : String}

theorem accepts_literal (h : Interpolates config graph pattern)
    (htexts : ∀ name text, around.literal? name = some text → '$' ∉ text.toList) :
    Accepts (fun placeholder => around.literal? placeholder.name) pattern :=
  accepts_of_notMem h.dollar fun _ placeholder text _ _ => htexts placeholder.name text

/-- Only the names without a text are asked for again. -/
theorem Interpolates.mem_names_literal (h : Interpolates config graph pattern)
    (htexts : ∀ name text, around.literal? name = some text → '$' ∉ text.toList) :
    name ∈ names (around.literal pattern) ↔
      name ∈ names pattern ∧ around.literal? name = none := by
  rw [mem_names, mem_names]
  constructor
  · rintro ⟨inner, placeholder, hinner, hread, rfl⟩
    obtain ⟨hold, hnone⟩ := (accepts_literal h htexts).hole_mem_iff.1 hinner
    exact ⟨⟨inner, placeholder, hold, hread, rfl⟩, hnone placeholder hread⟩
  · rintro ⟨⟨inner, placeholder, hinner, hread, rfl⟩, hnone⟩
    refine ⟨inner, placeholder, (accepts_literal h htexts).hole_mem_iff.2 ⟨hinner, ?_⟩, hread, rfl⟩
    intro other hother
    rwa [← Option.some.inj (hread.symm.trans hother)]

/-- What was put in is not read as a part of the pattern. -/
theorem Interpolates.literal (h : Interpolates config graph pattern)
    (htexts : ∀ name text, around.literal? name = some text → '$' ∉ text.toList) :
    Interpolates config graph (around.literal pattern) := by
  refine interpolates_iff_pieces.2 ⟨fun hdollar => ?_, fun inner hinner => ?_⟩
  · rcases (accepts_literal h htexts).char_mem hdollar with
      hold | ⟨inner, placeholder, text, -, -, htext, hmem⟩
    · exact h.dollar hold
    · exact htexts placeholder.name text htext hmem
  · exact h.holes ((accepts_literal h htexts).hole_mem_iff.1 hinner).1

/-- A pattern of names has holes as long as it asks for something. -/
theorem Interpolates.hasHoles_eq_false_iff (h : Interpolates config graph pattern)
    (hvalid : graph.Valid) : hasHoles pattern = false ↔ names pattern = [] := by
  rw [List.eq_nil_iff_forall_not_mem]
  constructor
  · intro hholes name hname
    obtain ⟨inner, -, hinner, -⟩ := mem_names.1 hname
    exact hole_notMem_of_hasHoles hholes inner hinner
  · intro hnone
    rw [hasHoles, List.any_eq_false]
    intro piece hpiece
    cases piece with
    | char c => simp [Piece.isHole]
    | hole inner =>
        obtain ⟨name, -, hread, -⟩ := h.read hvalid hpiece
        exact absurd (mem_names.2 ⟨inner, _, hpiece, hread, rfl⟩) (hnone name)

/-- Expanding what a pass leaves comes to the same as expanding the pattern. -/
theorem Interpolates.expand_literal (h : Interpolates config graph pattern)
    (htexts : ∀ name text, around.literal? name = some text → '$' ∉ text.toList)
    (text : String → String) : expand text (around.literal pattern) =
      expand (fun name => (around.literal? name).getD (text name)) pattern := by
  rw [expand, Surroundings.literal, (accepts_literal h htexts).replace_replace, expand]
  refine replace_congr fun _ placeholder _ _ => ?_
  cases around.literal? placeholder.name <;> rfl

end Pattern

namespace Surroundings

open Pattern (Interpolates)

variable {around : Surroundings} {graph : ModuleGraph} {pattern : String}

/-- A pass over a pattern of names puts in the texts of the free entities.  A text comes out if none
of the names has to wait, and otherwise a pattern again. -/
theorem exists_apply_interpolation (h : Interpolates around.config graph pattern)
    (hvalid : graph.Valid)
    (htexts : ∀ name text, around.literal? name = some text → '$' ∉ text.toList)
    (hnames : ∀ name ∈ graph.names, around.config.isExempt name = false →
      (∃ text, around.literal? name = some text) ∨ around.meaning name = .bound)
    (source : String) :
    ∃ outcome, around.apply source (.sub pattern []) =
        .ok (if outcome.isResolved then .string (around.literal pattern)
          else .sub (around.literal pattern) [], outcome) ∧
      (outcome.isResolved = true ↔
        ∀ name ∈ Pattern.names pattern, (around.literal? name).isSome = true) ∧
      (outcome.isResolved = true ↔ Pattern.hasHoles (around.literal pattern) = false) := by
  have hasks : around.AsksForScalars (Pattern.pieces pattern) := by
    intro inner hinner
    obtain ⟨name, hname, hread, hexempt⟩ := h.read hvalid hinner
    exact ⟨name, hread, hnames name hname hexempt⟩
  have hresolved : Outcome.isResolved { bound := around.awaited [source] (Pattern.pieces pattern) } =
      true ↔ ∀ name ∈ Pattern.names pattern, (around.literal? name).isSome = true := by
    rw [← @awaited_eq_nil_iff around pattern [source]]
    simp [Outcome.isResolved]
  have hholes : Pattern.hasHoles (around.literal pattern) = false ↔
      ∀ name ∈ Pattern.names pattern, (around.literal? name).isSome = true := by
    rw [(h.literal htexts).hasHoles_eq_false_iff hvalid, List.eq_nil_iff_forall_not_mem]
    simp only [h.mem_names_literal htexts, not_and, Option.isSome_iff_ne_none, ne_eq]
  refine ⟨_, ?_, hresolved, hresolved.trans hholes.symm⟩
  rw [show Value.sub pattern [] = .template pattern none from rfl, apply_literal hasks rfl source,
    literalValue_none]
  cases hhas : Pattern.hasHoles (around.literal pattern) with
  | true =>
      rw [if_pos rfl, if_neg]
      rw [hresolved, ← hholes, hhas]
      simp
  | false =>
      rw [if_neg Bool.false_ne_true, if_pos (hresolved.2 (hholes.1 hhas))]

end Surroundings

/-! ## Expansion -/

/-- The text that an entity of a module expands to: the text of a scalar, or the literal texts of a
pattern, with the texts that the targets of its placeholders expand to between them. -/
inductive Expands (graph : ModuleGraph) : String → String → Prop
  | scalar {entity : Entity} {s : Scalar} (hentity : entity ∈ graph.entities)
      (hreference : entity.reference = .scalar s) : Expands graph entity.fullName s.text
  | pattern {entity : Entity} {pattern : String} {parts : List (List Char × List Char)}
      {last : List Char} {text : String → String}
      (hentity : entity ∈ graph.entities) (hreference : entity.reference = .sub pattern [])
      (hscans : Pattern.Scans pattern.toList parts last)
      (h : ∀ part ∈ parts, Expands graph (String.ofList part.2) (text (String.ofList part.2))) :
      Expands graph entity.fullName (Pattern.interpolate text parts last)

/-- An entity expands to at most one text. -/
theorem Expands.unique {graph : ModuleGraph} {name first second : String}
    (hnodup : graph.names.Nodup) (h : Expands graph name first)
    (hother : Expands graph name second) : first = second := by
  have hsame : ∀ {x y : Entity}, x ∈ graph.entities → y ∈ graph.entities →
      y.fullName = x.fullName → y = x := fun hx hy heq => List.inj_on_of_nodup_map hnodup hy hx heq
  induction h generalizing second with
  | @scalar entity s hentity hreference =>
      generalize hname : entity.fullName = name at hother
      cases hother with
      | scalar hmem hreference' =>
          obtain rfl := hsame hmem hentity hname
          rw [Value.scalar.inj (hreference.symm.trans hreference')]
      | pattern hmem hreference' =>
          obtain rfl := hsame hmem hentity hname
          simp [hreference, Value.sub] at hreference'
  | @pattern entity pattern parts last text hentity hreference hscans _ ih =>
      generalize hname : entity.fullName = name at hother
      cases hother with
      | scalar hmem hreference' =>
          obtain rfl := hsame hmem hentity hname
          simp [hreference, Value.sub] at hreference'
      | @pattern _ pattern' _ _ _ hmem hreference' hscans' htexts =>
          obtain rfl := hsame hmem hentity hname
          obtain rfl : pattern = pattern' := by
            simpa [Value.sub, Value.string] using hreference.symm.trans hreference'
          obtain ⟨rfl, rfl⟩ := hscans.unique hscans'
          exact Pattern.interpolate_congr fun part hpart => ih part hpart (htexts part hpart)

namespace Resolver

variable {config : Config} {catalog : Catalog} {graph : ModuleGraph} {partition : Partition}
  {resolver next : Resolver} {name : String} {n : Nat}

/-! ## Steps -/

/-- Whether a pattern is what is left of the reference of an entity: it asks for nothing but what
the entity depends on, and its expansion is the one of the entity. -/
structure LeadsTo (config : Config) (graph : ModuleGraph) (name pattern : String) : Prop where
  interpolates : Pattern.Interpolates config graph pattern
  uses : ∀ other ∈ Pattern.names pattern, graph.DependsOn config name other
  expands : ∀ text : String → String, (∀ other ∈ Pattern.names pattern,
    Expands graph other (text other)) → Expands graph name (Pattern.expand text pattern)

/-- What the steps of a resolver preserve in a module of texts and patterns. -/
structure Expanding (config : Config) (graph : ModuleGraph) (resolver : Resolver) : Prop where
  config_eq : resolver.config = config
  kept : ∃ rounds, Kept graph rounds resolver
  free : ∀ entity ∈ resolver.free, ∃ s : Scalar, entity.reference = .scalar s ∧
    '$' ∉ s.text.toList ∧ Expands graph entity.fullName s.text ∧
      (entity ∈ graph.entities ∨ s = .string s.text)
  waiting : ∀ pending ∈ resolver.waiting, ∃ pattern,
    pending.entity.reference = .sub pattern [] ∧ LeadsTo config graph pending.name pattern

/-- Whether a reference is a text without dollar signs or a pattern of names. -/
def IsInterpolation (config : Config) (graph : ModuleGraph) (v : Value) : Prop :=
  (∃ s : Scalar, v = .scalar s ∧ '$' ∉ s.text.toList) ∨
    ∃ pattern, v = .sub pattern [] ∧ Pattern.Interpolates config graph pattern

theorem expanding_start (hvalid : graph.Valid)
    (hreferences : ∀ entity ∈ graph.entities, IsInterpolation config graph entity.reference)
    (h : graph.partition = .ok partition) :
    Expanding config graph (start config catalog partition) := by
  refine ⟨rfl, ⟨[], kept_start h config catalog⟩, fun entity hentity => ?free,
    fun pending hpending => ?waiting⟩
  case free =>
    have hmem : entity ∈ graph.entities := mem_entities_of_start h (List.mem_append_left _ hentity)
    rcases hreferences entity hmem with ⟨s, hreference, hdollar⟩ | ⟨pattern, hreference, -⟩
    · exact ⟨s, hreference, hdollar, .scalar hmem hreference, Or.inl hmem⟩
    · have hfree := classify_of_start h hentity
      rw [hreference] at hfree
      simp [Value.sub, Value.classify] at hfree
  case waiting =>
    obtain ⟨entity, hentity, rfl⟩ := List.mem_map.1 hpending
    rw [(ModuleGraph.partition_eq_ok h).2.2.2] at hentity
    obtain ⟨hmem, hbound⟩ := List.mem_filter.1 hentity
    rcases hreferences entity hmem with ⟨s, hreference, -⟩ | ⟨pattern, hreference, hnames⟩
    · simp [Entity.isFree, hreference, Value.classify] at hbound
    · refine ⟨pattern, hreference, hnames, fun other hother => ?_, fun text htext => ?_⟩
      · refine ⟨entity, hmem, rfl, ?_⟩
        rw [hreference, show Value.sub pattern [] = .template pattern none from rfl,
          Value.mem_uses_template rfl]
        exact Or.inl ⟨hother, by simp [Fields.keys], (hnames.of_mem_names hvalid hother).2⟩
      · obtain ⟨parts, last, hscans, hcut⟩ := hnames
        rw [hscans.expand_eq hvalid hcut]
        refine .pattern hmem hreference hscans fun part hpart => htext _ ?_
        exact (hscans.mem_names_iff hvalid hcut).2 ⟨part, hpart, rfl⟩

/-- The text of a free entity is its expansion. -/
theorem Expanding.of_literal (h : Expanding config graph resolver) {text : String}
    (htext : resolver.surroundings.literal? name = some text) :
    '$' ∉ text.toList ∧ Expands graph name text := by
  obtain ⟨target, s, hmeaning, hreference, rfl⟩ := Surroundings.literal?_eq_some_iff.1 htext
  obtain ⟨-, hfind⟩ := Surroundings.meaning_eq_free_iff.1 hmeaning
  obtain ⟨s', hreference', hdollar, hexpands, -⟩ := h.free target (Entity.mem_of_find? hfind)
  obtain rfl := Value.scalar.inj (hreference.symm.trans hreference')
  exact ⟨hdollar, Entity.fullName_of_find? hfind ▸ hexpands⟩

/-- A name of the module is free, and has a text then, or it is bound. -/
theorem Expanding.literal_or_bound (h : Expanding config graph resolver)
    (hname : name ∈ graph.names) (hexempt : config.isExempt name = false) :
    (∃ text, resolver.surroundings.literal? name = some text) ∨
      resolver.surroundings.meaning name = .bound := by
  obtain ⟨rounds, hkept⟩ := h.kept
  have hexempt' : resolver.surroundings.config.isExempt name = false := by
    rw [← hexempt, ← h.config_eq]
    rfl
  cases hfind : Entity.find? name resolver.free with
  | some target =>
      obtain ⟨s, hreference, -⟩ := h.free target (Entity.mem_of_find? hfind)
      exact Or.inl ⟨s.text, Surroundings.literal?_eq_some_iff.2
        ⟨target, s, Surroundings.meaning_eq_free_iff.2 ⟨hexempt', hfind⟩, hreference, rfl⟩⟩
  | none =>
      have hall := hkept.perm.mem_iff.2 hname
      rw [Entity.names_append, List.mem_append] at hall
      have hbound : name ∈ resolver.surroundings.bound :=
        hall.resolve_left (Entity.find?_eq_none_iff.1 hfind)
      exact Or.inr (Surroundings.meaning_eq_bound_iff.2 ⟨hexempt', hfind, hbound⟩)

/-- What a pass makes of a pattern that waits. -/
theorem Expanding.exists_apply (h : Expanding config graph resolver) (hvalid : graph.Valid)
    {pending : Pending} (hpending : pending ∈ resolver.waiting) :
    ∃ pattern outcome,
      pending.entity.reference = .sub pattern [] ∧ LeadsTo config graph pending.name pattern ∧
      resolver.surroundings.apply pending.entity.fullName pending.entity.reference =
        .ok (if outcome.isResolved then .string (resolver.surroundings.literal pattern)
          else .sub (resolver.surroundings.literal pattern) [], outcome) ∧
      (outcome.isResolved = true ↔
        ∀ name ∈ Pattern.names pattern, (resolver.surroundings.literal? name).isSome = true) ∧
      (outcome.isResolved = true ↔
        Pattern.hasHoles (resolver.surroundings.literal pattern) = false) := by
  obtain ⟨pattern, hreference, hleads⟩ := h.waiting pending hpending
  have hconfig : resolver.surroundings.config = config := h.config_eq
  have hinterpolates : Pattern.Interpolates resolver.surroundings.config graph pattern :=
    hconfig ▸ hleads.interpolates
  obtain ⟨outcome, happly⟩ := Surroundings.exists_apply_interpolation hinterpolates hvalid
    (fun name text htext => (h.of_literal htext).1)
    (fun name hname hexempt => h.literal_or_bound hname (by rw [← h.config_eq]; exact hexempt))
    pending.entity.fullName
  exact ⟨pattern, outcome, hreference, hleads, hreference ▸ happly⟩

/-- What a pass leaves of a pattern leads to the same expansion. -/
theorem Expanding.leadsTo_literal (h : Expanding config graph resolver) {pattern : String}
    (hleads : LeadsTo config graph name pattern) :
    LeadsTo config graph name (resolver.surroundings.literal pattern) := by
  have htexts : ∀ name text, resolver.surroundings.literal? name = some text →
      '$' ∉ text.toList := fun name text htext => (h.of_literal htext).1
  refine ⟨hleads.interpolates.literal htexts, fun other hother => ?_, fun text htext => ?_⟩
  · exact hleads.uses other ((hleads.interpolates.mem_names_literal htexts).1 hother).1
  · rw [hleads.interpolates.expand_literal htexts]
    refine hleads.expands _ fun other hother => ?_
    cases hliteral : resolver.surroundings.literal? other with
    | some found => exact (h.of_literal hliteral).2
    | none =>
        exact htext other ((hleads.interpolates.mem_names_literal htexts).2 ⟨hother, hliteral⟩)

theorem Expanding.step (h : Expanding config graph resolver) (hvalid : graph.Valid)
    (hstep : resolver.step = (next, .ok n)) : Expanding config graph next := by
  obtain ⟨rounds, hkept⟩ := h.kept
  have hconfig : next.config = resolver.config := by
    obtain ⟨-, -, rfl⟩ := step_eq_ok hstep
    rfl
  refine ⟨hconfig.trans h.config_eq, hkept.step hstep, fun entity hentity => ?free,
    fun kept hmem => ?waiting⟩
  case free =>
    rcases of_mem_free_step hstep hentity with
      hold | ⟨pending, hpending, value, outcome, happly, hresolved, rfl⟩
    · exact h.free entity hold
    · obtain ⟨pattern, later, -, hleads, happly', -, hholes⟩ := h.exists_apply hvalid hpending
      obtain ⟨rfl, rfl⟩ := Prod.mk.inj (Except.ok.inj (happly.symm.trans happly'))
      have hliteral := h.leadsTo_literal hleads
      -- Nothing is asked for any more, so the pattern is its own expansion.
      have hnone := hholes.1 hresolved
      have hexpands := hliteral.expands id fun other hother => absurd hother <| by
        rw [(hliteral.interpolates.hasHoles_eq_false_iff hvalid).1 hnone]
        exact List.not_mem_nil
      rw [Pattern.expand_of_hasHoles hnone] at hexpands
      rw [if_pos hresolved]
      exact ⟨.string _, rfl, Pattern.notMem_of_hasHoles hnone hliteral.interpolates.dollar,
        hexpands, Or.inr rfl⟩
  case waiting =>
    obtain ⟨pending, hpending, value, outcome, happly, hresolved, rfl⟩ :=
      of_mem_waiting_step hstep hmem
    obtain ⟨pattern, later, -, hleads, happly', -⟩ := h.exists_apply hvalid hpending
    obtain ⟨rfl, rfl⟩ := Prod.mk.inj (Except.ok.inj (happly.symm.trans happly'))
    refine ⟨resolver.surroundings.literal pattern, ?_, h.leadsTo_literal hleads⟩
    simp [hresolved]

/-- Among the patterns that wait there is one whose names are all free. -/
theorem Expanding.promotions_ne_nil (h : Expanding config graph resolver) (hvalid : graph.Valid)
    (hacyclic : graph.IsAcyclic config) (hwaiting : resolver.waiting ≠ []) :
    resolver.promotions ≠ [] := by
  obtain ⟨name, hname, hminimal⟩ := exists_terminal hacyclic
    (resolver.waiting.map Pending.name) (by simpa using hwaiting)
  obtain ⟨pending, hpending, rfl⟩ := List.mem_map.1 hname
  obtain ⟨pattern, outcome, -, hleads, happly, hresolved, -⟩ := h.exists_apply hvalid hpending
  have hall : outcome.isResolved = true := by
    refine hresolved.2 fun other hother => ?_
    obtain ⟨hdeclared, hexempt⟩ := hleads.interpolates.of_mem_names hvalid hother
    rcases h.literal_or_bound hdeclared hexempt with ⟨text, htext⟩ | hbound
    · rw [htext]
      rfl
    · refine absurd ?_ (hminimal other (hleads.uses other hother))
      rw [← names_bound]
      exact Surroundings.mem_bound_of_meaning hbound
  have hpromotes : resolver.surroundings.promotes? pending = some
      (pending.entity.withReference (.string (resolver.surroundings.literal pattern)),
        outcome.invalid) := by
    simp [Surroundings.promotes?, happly, hall]
  exact List.ne_nil_of_mem (List.mem_filterMap.2 ⟨pending, hpending, hpromotes⟩)

theorem Expanding.exists_step (h : Expanding config graph resolver) (hvalid : graph.Valid)
    (hacyclic : graph.IsAcyclic config) (hwaiting : resolver.waiting ≠ []) :
    ∃ next n, resolver.step = (next, .ok n) ∧ n ≠ 0 ∧ Expanding config graph next := by
  have hstep : resolver.step = _ := step_of_passes fun pending hpending => by
    obtain ⟨pattern, outcome, -, -, happly, -⟩ := h.exists_apply hvalid hpending
    exact ⟨_, outcome, happly⟩
  have hpromotions := h.promotions_ne_nil hvalid hacyclic hwaiting
  exact ⟨_, _, hstep, Nat.ne_of_gt (List.length_pos_iff.2 hpromotions), h.step hvalid hstep⟩

/-! ## Runs -/

/-- The texts of a state in which nothing waits are the expansions. -/
theorem Expanding.expanded (h : Expanding config graph resolver) (hvalid : graph.Valid)
    (hwaiting : resolver.waiting = []) {entity : Entity} (hentity : entity ∈ graph.entities)
    {pattern : String} (hreference : entity.reference = .sub pattern []) :
    ∃ text, Expands graph entity.fullName text ∧
      entity.withReference (.string text) ∈ resolver.free := by
  obtain ⟨rounds, hkept⟩ := h.kept
  obtain ⟨value, hfree⟩ := hkept.exists_free hvalid.nodup hwaiting hentity
  obtain ⟨s, rfl, -, hexpands, hdeclared | hstring⟩ := h.free _ hfree
  · -- A declared scalar is no pattern.
    obtain hsame : entity.withReference (.scalar s) = entity :=
      List.inj_on_of_nodup_map hvalid.nodup hdeclared hentity (Entity.fullName_withReference _ _)
    rw [← hsame, Entity.reference_withReference, Value.sub] at hreference
    simp at hreference
  · exact ⟨s.text, hexpands, hstring ▸ hfree⟩

/-- In an acyclic module of texts and patterns, a run leaves nothing bound, and the reference of
each pattern becomes the text that it expands to. -/
theorem run_expands (config : Config) (catalog : Catalog) (graph : ModuleGraph)
    (hvalid : graph.Valid)
    (hreferences : ∀ entity ∈ graph.entities, IsInterpolation config graph entity.reference)
    (hacyclic : graph.IsAcyclic config) :
    ∃ partition, graph.partition = .ok partition ∧
      (start config catalog partition).run.2 = none ∧
      (start config catalog partition).run.1.waiting = [] ∧
      ∀ entity ∈ graph.entities, ∀ pattern, entity.reference = .sub pattern [] →
        (∃ text, Expands graph entity.fullName text) ∧
        ∀ text, Expands graph entity.fullName text →
          entity.withReference (.string text) ∈ (start config catalog partition).run.1.free := by
  have hnull : ∀ entity ∈ graph.entities, entity.reference ≠ .null := by
    intro entity hentity hnull
    rcases hreferences entity hentity with ⟨s, hreference, -⟩ | ⟨pattern, hreference, -⟩ <;>
      simp [hnull, Value.sub] at hreference
  obtain ⟨parts, hsplit⟩ := Entity.exists_split hnull
  obtain ⟨partition, hpartition⟩ : ∃ partition, graph.partition = .ok partition :=
    ⟨_, by rw [ModuleGraph.partition, hsplit]; rfl⟩
  have hstart : Expanding config graph (start config catalog partition) :=
    expanding_start hvalid hreferences hpartition
  obtain ⟨hnone, hwaiting, -⟩ := run_complete (P := Expanding config graph)
    (fun h hne => h.exists_step hvalid hacyclic hne) hstart
  refine ⟨partition, hpartition, hnone, hwaiting, fun entity hentity pattern hreference => ?_⟩
  have hrun : (start config catalog partition).run =
      ((start config catalog partition).run.1, none) := Prod.ext rfl hnone
  obtain ⟨final, hfinal, hlast, -⟩ := run_invariant (fun h hstep => h.step hvalid hstep) hstart hrun
  rw [hlast] at hwaiting ⊢
  obtain ⟨text, hexpands, hfree⟩ := hfinal.expanded hvalid hwaiting hentity hreference
  exact ⟨⟨text, hexpands⟩, fun other hother => hexpands.unique hvalid.nodup hother ▸ hfree⟩

/-- A module whose patterns ask for texts and for each other, some of them more than once. -/
def woven : ModuleGraph where
  name := "Main"
  entities := [
    .value "A" (.string "a\x7d"), .value "N" (.scalar (.number (.int 5))),
    .value "Pair" (.sub "${A}-${A}" []), .value "Mixed" (.sub "<${Pair}|${N}|${A}>" []),
    .value "All" (.sub "${Mixed}${Pair}" [])]

/-- What is free in the end: the texts in the order of declaration, then each pattern as a text, in
the order in which they were promoted. -/
def wovenTexts : List Entity := [
  .value "A" (.string "a\x7d"), .value "N" (.scalar (.number (.int 5))),
  .value "Pair" (.string "a\x7d-a\x7d"), .value "Mixed" (.string "<a\x7d-a\x7d|5|a\x7d>"),
  .value "All" (.string "<a\x7d-a\x7d|5|a\x7d>a\x7d-a\x7d")]

theorem run_expands_woven :
    woven.Valid ∧
      (∀ entity ∈ woven.entities, IsInterpolation {} woven entity.reference) ∧
      woven.IsAcyclic {} ∧
      Expands woven "Pair" "a\x7d-a\x7d" ∧
      Expands woven "Mixed" "<a\x7d-a\x7d|5|a\x7d>" ∧
      Expands woven "All" "<a\x7d-a\x7d|5|a\x7d>a\x7d-a\x7d" ∧
      ∃ partition, woven.partition = .ok partition ∧
        (start {} .permissive partition).run.2 = none ∧
        (start {} .permissive partition).run.1.waiting = [] ∧
        (start {} .permissive partition).run.1.free = wovenTexts := by
  have hvalid : woven.Valid := ⟨by decide, by decide +kernel⟩
  have hreferences : ∀ entity ∈ woven.entities, IsInterpolation {} woven entity.reference := by
    simp only [woven, List.forall_mem_cons, List.not_mem_nil, false_imp_iff, forall_const, and_true]
    refine ⟨Or.inl ⟨_, rfl, ?_⟩, Or.inl ⟨_, rfl, ?_⟩, Or.inr ⟨_, rfl, ?_⟩, Or.inr ⟨_, rfl, ?_⟩,
      Or.inr ⟨_, rfl, ?_⟩⟩ <;> decide +kernel
  have hacyclic : woven.IsAcyclic {} :=
    (@ModuleGraph.closed_and_acyclic_of_isLayered {} woven hvalid.nodup (by decide +kernel)).2
  obtain ⟨partition, hpartition, hnone, hwaiting, hall⟩ :=
    run_expands {} .permissive woven hvalid hreferences hacyclic
  have hfree : (start {} .permissive partition).run.1.free = wovenTexts := by
    have hrun : woven.partition.toOption.map (fun p => (start {} .permissive p).run.1.free) =
        some wovenTexts := by decide +kernel
    simpa [hpartition, Except.toOption] using hrun
  -- The text that a pattern expands to is free, so it is the one that is listed.
  have hexpands : ∀ name text pattern, .value name (.sub pattern []) ∈ woven.entities →
      .value name (.string text) ∈ wovenTexts → Expands woven name text := by
    intro name text pattern hentity hmem
    obtain ⟨⟨other, hother⟩, hfound⟩ := hall _ hentity pattern rfl
    have hsame : Entity.value name (.string other) = .value name (.string text) :=
      List.inj_on_of_nodup_map (f := Entity.fullName) (by decide) (hfree ▸ hfound other hother)
        hmem rfl
    obtain rfl : other = text := by simpa [Entity.value, Value.string] using hsame
    exact hother
  exact ⟨hvalid, hreferences, hacyclic, hexpands _ _ "${A}-${A}" (by decide) (by decide),
    hexpands _ _ "<${Pair}|${N}|${A}>" (by decide) (by decide),
    hexpands _ _ "${Mixed}${Pair}" (by decide) (by decide), partition, hpartition, hnone, hwaiting,
    hfree⟩

end Resolver

end StackLinker
