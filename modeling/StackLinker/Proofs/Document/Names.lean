import StackLinker.Document.Codec
import StackLinker.Proofs.Document.Loading
import StackLinker.Schema

/-!
# Declared names

The schema asks of every declared name that it is not empty and has no dot.  The loader looks at
full names only, which are joined from the names along the way.  A dot in a name is a dot in its
full name, so dots are found at every depth.  But a child without a name has a full name all the
same, made of its parent's and the separator, and is accepted under it (`accepts_unnamed`).

This is the only difference: of the names in an accepted document exactly those of unnamed children
do not fit the schema, and there are configurations without such documents, those in which the
separator adds nothing to the parent's full name or adds a dot to it (`namesFit_iff`).
-/

namespace StackLinker

namespace EntityDeclaration

variable {separator : String} {parent : Option String} {declared : String × EntityDeclaration}

/-- Whether a listed declaration stands directly below another one, with a full name joined from
that one's and its own. -/
def StandsBelow (separator : String) (declared above : String × EntityDeclaration) : Prop :=
  declared.2 ∈ above.2.children ∧ declared.1 = fullName separator (some above.1) declared.2.name

/-- What is listed for a declaration and the rest is the declaration, what stands below it, or what
is listed for the rest. -/
private theorem cases_of_mem_cons {declaration : EntityDeclaration}
    {rest : List EntityDeclaration} {below others : List (String × EntityDeclaration)}
    {full : String} (hfull : full = fullName separator parent declaration.name)
    (hbelow : declared ∈ below →
      (declared.2 ∈ declaration.children ∧
        declared.1 = fullName separator (some full) declared.2.name) ∨
      ∃ above ∈ below, StandsBelow separator declared above)
    (hrest : declared ∈ others →
      (declared.2 ∈ rest ∧ declared.1 = fullName separator parent declared.2.name) ∨
      ∃ above ∈ others, StandsBelow separator declared above)
    (hmem : declared ∈ (full, declaration) :: below ++ others) :
    (declared.2 ∈ declaration :: rest ∧
      declared.1 = fullName separator parent declared.2.name) ∨
    ∃ above ∈ (full, declaration) :: below ++ others, StandsBelow separator declared above := by
  rw [List.cons_append, List.mem_cons, List.mem_append] at hmem
  rcases hmem with rfl | hmem | hmem
  · exact Or.inl ⟨List.mem_cons_self, hfull⟩
  · refine Or.inr ?_
    rcases hbelow hmem with hchild | ⟨above, habove, hstands⟩
    · exact ⟨_, List.mem_cons_self, hchild⟩
    · exact ⟨above, by simp [habove], hstands⟩
  · rcases hrest hmem with ⟨htop, hname⟩ | ⟨above, habove, hstands⟩
    · exact Or.inl ⟨List.mem_cons_of_mem _ htop, hname⟩
    · exact Or.inr ⟨above, by simp [habove], hstands⟩

/-- A listed declaration is one of those at the top or stands below another one in the listing. -/
theorem IsPreorder.cases_of_mem {declarations : List EntityDeclaration}
    {listing : List (String × EntityDeclaration)}
    (h : IsPreorder separator parent declarations listing) (hmem : declared ∈ listing) :
    (declared.2 ∈ declarations ∧ declared.1 = fullName separator parent declared.2.name) ∨
      ∃ above ∈ listing, StandsBelow separator declared above := by
  induction h with
  | nil => simp at hmem
  | top _ _ ihbelow ihrest => exact cases_of_mem_cons rfl ihbelow ihrest hmem
  | child _ _ ihbelow ihrest => exact cases_of_mem_cons rfl ihbelow ihrest hmem

theorem notMem_own_children (declaration : EntityDeclaration) :
    declaration ∉ declaration.children := by
  intro hmem
  have hless : sizeOf declaration < sizeOf declaration.children := List.sizeOf_lt_of_mem hmem
  have hgreater : sizeOf declaration.children < sizeOf declaration := by
    cases declaration
    simp only [EntityDeclaration.mk.sizeOf_spec]
    omega
  exact Nat.lt_asymm hless hgreater

/-- The characters of a full name are those of the parent's, the separator and the own name. -/
theorem toList_fullName (separator parent name : String) :
    (fullName separator (some parent) name).toList =
      parent.toList ++ separator.toList ++ name.toList := by
  simp [fullName]

theorem subset_toList_fullName (separator : String) (parent : Option String) (name : String) :
    name.toList ⊆ (fullName separator parent name).toList := by
  cases parent with
  | none => exact List.Subset.refl _
  | some parent =>
      rw [toList_fullName]
      exact List.subset_append_right _ _

end EntityDeclaration

theorem Schema.isOwnName_iff {name : String} :
    isOwnName (.string name) = true ↔ name ≠ "" ∧ '.' ∉ name.toList := by
  simp [isOwnName]

namespace ModuleDocument

open EntityDeclaration

/-- Whether a declaration of a document has an empty name below another declaration, so that its
full name is that one's and the separator. -/
structure IsUnnamedChild (config : Config) (document : ModuleDocument)
    (declared : String × EntityDeclaration) : Prop where
  unnamed : declared.2.name = ""
  below : ∃ above ∈ document.listing config,
    declared.2 ∈ above.2.children ∧ declared.1 = above.1 ++ config.separator

/-- Whether all names of a document are names by the schema, at every depth. -/
def NamesFit (config : Config) (document : ModuleDocument) : Prop :=
  ∀ declared ∈ document.listing config, Schema.isOwnName (.string declared.2.name) = true

variable {config : Config} {document : ModuleDocument} {graph : ModuleGraph}
  {declared : String × EntityDeclaration}

section Accepted

variable (h : ModuleGraph.ofDocument config document = .ok graph)
  (hmem : declared ∈ document.listing config)

include h

/-- The full names of an accepted document are those of its module. -/
theorem names_of_ofDocument : (document.listing config).map (·.1) = graph.names :=
  (ModuleGraph.declared_of_ofDocument h).entities.map_eq_map fun hentity =>
    (declares_of_toEntity hentity).fullName.symm

include hmem

theorem isAddressable_of_ofDocument : declared.1 ≠ "" ∧ '.' ∉ declared.1.toList := by
  refine ModuleGraph.isAddressable_iff.1 ?_
  refine (ModuleGraph.declared_of_ofDocument h).valid.addressable _ ?_
  exact names_of_ofDocument h ▸ List.mem_map_of_mem hmem

/-- The separator tells an unnamed child of an accepted document from its parent, and without a
dot. -/
theorem IsUnnamedChild.separator_ne (hchild : IsUnnamedChild config document declared) :
    config.separator ≠ "" ∧ '.' ∉ config.separator.toList := by
  have hnodup : ((document.listing config).map (·.1)).Nodup :=
    names_of_ofDocument h ▸ (ModuleGraph.declared_of_ofDocument h).valid.nodup
  obtain ⟨above, habove, hbelow, hname⟩ := hchild.below
  refine ⟨fun hempty => ?_, fun hdot => ?_⟩
  · -- Otherwise both have the same full name, and so are the same declaration.
    have hsame : declared = above := List.inj_on_of_nodup_map hnodup hmem habove (by
      rw [hname, hempty, String.append_empty])
    exact notMem_own_children _ (hsame ▸ hbelow)
  · refine (isAddressable_of_ofDocument h hmem).2 ?_
    rw [hname, String.toList_append]
    exact List.mem_append_right _ hdot

/-- In an accepted document, a name fits the schema unless it is that of an unnamed child. -/
theorem isOwnName_iff_of_ofDocument : Schema.isOwnName (.string declared.2.name) = true ↔
    ¬ IsUnnamedChild config document declared := by
  obtain ⟨hnonempty, hdotless⟩ := isAddressable_of_ofDocument h hmem
  rw [Schema.isOwnName_iff]
  refine ⟨fun hown hchild => hown.1 hchild.unnamed,
    fun hchild => ⟨fun hempty => ?_, fun hdot => ?_⟩⟩
  · rcases (isPreorder_listingAll none document.entities).cases_of_mem hmem with
      ⟨-, htop⟩ | ⟨above, habove, hbelow, hname⟩
    · exact hnonempty (htop.trans hempty)
    · refine hchild ⟨hempty, above, habove, hbelow, ?_⟩
      rw [hname, hempty, fullName, String.append_empty]
  · rcases (isPreorder_listingAll none document.entities).cases_of_mem hmem with
      ⟨-, hname⟩ | ⟨above, -, -, hname⟩ <;>
      exact hdotless (hname ▸ subset_toList_fullName _ _ _ hdot)

end Accepted

end ModuleDocument

/-! ## Unnamed children -/

/-- The declaration of a text. -/
def EntityDeclaration.ofText (name : String) (children : List EntityDeclaration) :
    EntityDeclaration where
  name := name
  kind := .value
  value := some (.string "x")
  children := children

/-- A text is added under every full name that is addressable and not taken. -/
theorem ModuleGraph.declare_ofText (config : Config) (graph : ModuleGraph) (name : String)
    (children : List EntityDeclaration) {fullName : String}
    (haddressable : isAddressable fullName = true) (hnew : graph.get? fullName = none) :
    graph.declare config fullName (.ofText name children) =
      .ok { graph with entities := graph.entities ++ [.value fullName (.string "x")] } := by
  have hentity : (EntityDeclaration.ofText name children).toEntity config fullName =
      .ok (.value fullName (.string "x")) := rfl
  simp [declare, hentity, Except.bind, add, Entity.value, haddressable, hnew]

namespace ModuleDocument

open EntityDeclaration

/-- An entity with a child that has no name. -/
def unnamed : ModuleDocument where
  name := "Main"
  entities := [.ofText "A" [.ofText "" []]]

theorem listing_unnamed (config : Config) : unnamed.listing config =
    [("A", .ofText "A" [.ofText "" []]), ("A" ++ config.separator, .ofText "" [])] := by
  simp [unnamed, listing, listingAll, EntityDeclaration.listing, ofText, fullName]

/-- If the separator fits the schema as a name, an unnamed child is accepted. -/
theorem exists_ofDocument_unnamed {config : Config} (hseparator : config.separator ≠ "")
    (hdot : '.' ∉ config.separator.toList) :
    ∃ graph, ModuleGraph.ofDocument config unnamed = .ok graph := by
  have hname : unnamed.name = "Main" := rfl
  have hfirst : ModuleGraph.isAddressable "A" = true := by decide +kernel
  have hparent := ModuleGraph.declare_ofText config ⟨"Main", []⟩ "A" [.ofText "" []] hfirst rfl
  have hsecond : ModuleGraph.isAddressable ("A" ++ config.separator) = true := by
    simp [ModuleGraph.isAddressable_iff, hdot]
  have hnew : "A" ≠ "A" ++ config.separator := fun heq =>
    hseparator (by simpa using congrArg String.toList heq)
  have hchild := ModuleGraph.declare_ofText config ⟨"Main", [.value "A" (.string "x")]⟩ "" []
    hsecond (by simp [ModuleGraph.get?, Entity.find?, Entity.value, hnew])
  refine ⟨⟨"Main", [.value "A" (.string "x"),
    .value ("A" ++ config.separator) (.string "x")]⟩, ?_⟩
  simp only [ModuleGraph.ofDocument, listing_unnamed, ModuleGraph.declareAll, hname, hparent,
    List.nil_append, hchild, List.singleton_append]
  -- Neither of the two has an identifier, so no identifiers collide.
  rfl

/-- Every name in an accepted document fits the schema, unless it is that of an unnamed child.  That
there are no unnamed children in any accepted document is the case for those configurations in which
the separator is empty or has a dot itself. -/
theorem namesFit_iff (config : Config) :
    (∀ document graph, ModuleGraph.ofDocument config document = .ok graph →
      ∀ declared ∈ document.listing config, Schema.isOwnName (.string declared.2.name) = true ↔
        ¬ IsUnnamedChild config document declared) ∧
    ((∀ document graph, ModuleGraph.ofDocument config document = .ok graph →
      document.NamesFit config) ↔ config.separator = "" ∨ '.' ∈ config.separator.toList) := by
  refine ⟨fun _ _ h declared hmem => isOwnName_iff_of_ofDocument h hmem, fun hfit => ?_,
    fun hseparator document graph h declared hmem => ?_⟩
  · by_contra hseparator
    push Not at hseparator
    obtain ⟨graph, hgraph⟩ := exists_ofDocument_unnamed hseparator.1 hseparator.2
    have hchild : ("A" ++ config.separator, .ofText "" []) ∈ unnamed.listing config := by
      simp [listing_unnamed]
    exact absurd (hfit unnamed graph hgraph _ hchild) (by simp [Schema.isOwnName, ofText])
  · refine (isOwnName_iff_of_ofDocument h hmem).2 fun hchild => ?_
    obtain ⟨hnonempty, hdotless⟩ := hchild.separator_ne h hmem
    exact hseparator.elim hnonempty hdotless

/-- An unnamed child is accepted, although the schema refuses the document, and although an entity
without a name is refused where it is no child. -/
theorem accepts_unnamed :
    (∃ graph, ModuleGraph.ofDocument {} unnamed = .ok graph ∧ graph.names = ["A", "A::"]) ∧
      ¬ unnamed.NamesFit {} ∧ Schema.isDocument unnamed.toJson = false ∧
      ModuleGraph.ofDocument {} { name := "Main", entities := [.ofText "" []] } =
        .error [.invalidName ""] := by
  obtain ⟨graph, hgraph⟩ := @exists_ofDocument_unnamed {} (by decide) (by decide +kernel)
  refine ⟨⟨graph, hgraph, (names_of_ofDocument hgraph).symm⟩, fun hfit => ?_, ?_, ?_⟩
  · exact absurd (hfit _ (List.mem_cons_of_mem _ List.mem_cons_self)) (by decide)
  · decide +kernel
  · rfl

end ModuleDocument

end StackLinker
