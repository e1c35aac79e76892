import StackLinker.CommandLine.Run
import StackLinker.Proofs.Document.Expressions
import StackLinker.Proofs.Document.Reading
import StackLinker.Proofs.Module.Declaration
import StackLinker.Proofs.Resolution.Ordinary

/-!
# What validation promises about linking

A file that passes validation holds a document, and the values in it are expressions.  So they are
well-formed when they are declared, but two things are still open.  The schema takes any object for
the metadata or the properties of a provider declaration, with nulls and malformed forms in it; and
it takes an object with a reserved key for an argument map, which is then read as a form.  Where
neither comes up (`ModuleGraph.IsSpelledOut`), the declared values are ordinary, and linking either
succeeds or ends with diagnostics (`not_structural_of_validate`).  `accepts_malformed` shows what
happens otherwise.
-/

namespace StackLinker

/-! ## Declared values -/

namespace ModuleGraph

variable {config : Config} {document : ModuleDocument} {graph : ModuleGraph}

/-- What the schema does not ask of a module. -/
structure IsSpelledOut (graph : ModuleGraph) : Prop where
  /-- Provider declarations hold no null and no malformed form. -/
  definitions : ∀ entity ∈ graph.entities, ∀ definition, entity.definition = some definition →
    definition.IsOrdinary
  /-- No argument map is itself a form. -/
  arguments : ∀ entity ∈ graph.entities, entity.reference.HasPlainArguments

/-- The references of a module are ordinary if the declared values are expressions. -/
theorem Declared.isOrdinary_reference (hdeclared : graph.Declared config document)
    (hvalues : ∀ declared ∈ document.listing config, ∀ json, declared.2.value = some json →
      Schema.isExpression json = true)
    (harguments : ∀ entity ∈ graph.entities, entity.reference.HasPlainArguments) :
    ∀ entity ∈ graph.entities, entity.reference.IsOrdinary := by
  intro entity hentity
  refine ⟨?_, harguments entity hentity⟩
  obtain ⟨declared, hmem, htoEntity⟩ := hdeclared.entities.exists_of_mem_right hentity
  have hdeclares := EntityDeclaration.declares_of_toEntity htoEntity
  cases hvalue : declared.2.value with
  | none =>
      rw [(hdeclares.resource hvalue).2]
      rfl
  | some json =>
      have hplain := harguments entity hentity
      rw [hdeclares.value json hvalue] at hplain ⊢
      exact Schema.isWellFormed_of_isExpression (hvalues declared hmem json hvalue) hplain

end ModuleGraph

/-! ## Accepted files -/

namespace CommandLine

variable {files : Files} {options : GeneralOptions} {path : String} {json : Json}
  {document : ModuleDocument}

theorem isDocument_of_validate (h : (validate files options path).code = 0) :
    ∃ json, readTree .data files path = .ok json ∧ Schema.isDocument json.merged = true := by
  unfold validate at h
  split at h
  · simp [fail] at h
  · rename_i json hjson
    refine ⟨json, hjson, ?_⟩
    split at h
    · assumption
    · simp at h

/-- A JSON file in which nothing is repeated is read as the document that its tree declares. -/
theorem readData_of_readTree (hformat : FileFormat.ofPath path = .json)
    (htree : readTree .data files path = .ok json) (hmerged : json.merged = json)
    (hread : ModuleDocument.ofJson json = .ok document) :
    readData .document ModuleDocument.ofJson files path = .ok document := by
  have hsame : readTree .document files path = readTree .data files path := by
    simp only [readTree, hformat, FileFormat.parse?]
  simp only [readData, hsame, htree, bind, Except.bind, hmerged, hread]
  rfl

/-- A file that validation accepts holds a document; if it is a JSON file in which nothing is
repeated, linking reads the same document from it.  If the document declares a module in which
provider declarations are well-formed and no argument map is itself a form, then linking meets no
structural error, whatever the configuration and the catalog. -/
theorem not_structural_of_validate (h : (validate files options path).code = 0) :
    ∃ json document, readTree .data files path = .ok json ∧
      ModuleDocument.ofJson json.merged = .ok document ∧
      (FileFormat.ofPath path = .json → json.merged = json →
        readData .document ModuleDocument.ofJson files path = .ok document) ∧
      ∀ config graph, ModuleGraph.ofDocument config document = .ok graph → graph.IsSpelledOut →
        ∀ catalog e, graph.link config catalog ≠ .error (.structural e) := by
  obtain ⟨json, htree, hschema⟩ := isDocument_of_validate h
  obtain ⟨document, hread, hvalues⟩ :=
    ModuleDocument.exists_of_isDocument hschema json.merged_merged
  refine ⟨json, document, htree, hread, ?read, ?linked⟩
  case read =>
    intro hformat hmerged
    exact readData_of_readTree hformat htree hmerged (hmerged ▸ hread)
  case linked =>
    intro config graph hgraph hspelled catalog e
    have hreferences := (ModuleGraph.declared_of_ofDocument hgraph).isOrdinary_reference
      (hvalues config) hspelled.arguments
    have hordinary : ∀ entity ∈ graph.entities, ∀ v ∈ entity.values, v.IsOrdinary :=
      fun entity hentity => Entity.forall_mem_values.2
        ⟨hreferences entity hentity, hspelled.definitions entity hentity⟩
    exact ModuleGraph.link_ne_structural hordinary e

/-! ## Files -/

/-- A file with the text of a tree, and nothing else. -/
def single (json : Json) : Files := fun path =>
  if path = "m.json" then .text json.compact else .missing

/-- A text that holds the tree is accepted if the tree fits the schema. -/
theorem code_validate_single
    (htree : (readTree .data (single json) "m.json").toOption = some json)
    (hschema : Schema.isDocument json.merged = true) :
    (validate (single json) {} "m.json").code = 0 := by
  simp only [validate, Resolver.eq_ok_of_toOption htree, hschema, if_true]

/-- A document with forms in a value, in an argument map, and in a provider declaration. -/
def post : Json :=
  .object [("module", .string "m"), ("entities", .array [
    .object [("name", .string "A"), ("kind", .string "Input")],
    .object [("name", .string "Q"), ("kind", .string "Resource"),
      ("value", .object [("Fn::Sub", .array [.string "${X}",
        .object [("X", .object [("Ref", .string "A")])]])]),
      ("resource", .object [("Type", .string "T"),
        ("Properties", .object [("N", .object [("Ref", .string "A")])])])]])]

/-- What the document declares. -/
def postGraph : ModuleGraph where
  name := "m"
  entities := [
    { fullName := "A", kind := .input, reference := .ref "@A" },
    { fullName := "Q"
      kind := .resource
      reference := .sub "${X}" [("X", .ref "A")]
      definition := some (.record { typeName := "T" } (.map []) (.map [("N", .ref "A")]))
      typeName := "T" }]

theorem isSpelledOut_postGraph : postGraph.IsSpelledOut := by
  have hlooks : ∀ entity ∈ postGraph.entities, ∀ v ∈ entity.values,
      v.isWellFormed = true ∧ v.looksPlain {} = true := by
    decide +kernel
  have hordinary : ∀ entity ∈ postGraph.entities, ∀ v ∈ entity.values, v.IsOrdinary := by
    intro entity hentity v hv
    obtain ⟨hwell, hplain⟩ := hlooks entity hentity v hv
    exact ⟨hwell, fun pattern => (Value.isPlain_of_looksPlain hplain).arguments (.string pattern)⟩
  exact ⟨fun entity hentity => (Entity.forall_mem_values.1 (hordinary entity hentity)).2,
    fun entity hentity => (hordinary entity hentity _ List.mem_cons_self).arguments⟩

theorem not_structural_of_validate_post :
    (validate (single post) {} "m.json").code = 0 ∧ ∃ document,
      readData .document ModuleDocument.ofJson (single post) "m.json" = .ok document ∧
      ModuleGraph.ofDocument {} document = .ok postGraph ∧
      ∀ catalog e, postGraph.link {} catalog ≠ .error (.structural e) := by
  have htext : (readTree .data (single post) "m.json").toOption = some post := by
    decide +kernel
  have hvalid := code_validate_single htext (by decide +kernel)
  obtain ⟨json, document, htree, hread, hdata, hlink⟩ := not_structural_of_validate hvalid
  obtain rfl : post = json := by simpa [htree, Except.toOption] using htext.symm
  have hgraph : ((ModuleDocument.ofJson post.merged).toOption.bind fun document =>
      (ModuleGraph.ofDocument {} document).toOption) = some postGraph := by
    decide +kernel
  have hdeclared : ModuleGraph.ofDocument {} document = .ok postGraph :=
    Resolver.eq_ok_of_toOption (by simpa [hread, Except.toOption] using hgraph)
  exact ⟨hvalid, document, hdata (by decide +kernel) (by decide +kernel), hdeclared,
    hlink {} postGraph hdeclared isSpelledOut_postGraph⟩

/-- A provider declaration with a null among its properties. -/
def blank : Json :=
  .object [("module", .string "m"), ("entities", .array [
    .object [("name", .string "Q"), ("kind", .string "Resource"),
      ("resource", .object [("Type", .string "T"), ("Properties", .object [("a", .null)])])]])]

/-- An argument map that is read as a malformed reference. -/
def misread : Json :=
  .object [("module", .string "m"), ("entities", .array [
    .object [("name", .string "S"), ("kind", .string "Value"),
      ("value", .object [("Fn::Sub", .array [.string "x", .object [("Ref", .int 5)]])])]])]

/-- A field that stands twice. -/
def repeated : Json := .object [("module", .string "m"), ("module", .string "m")]

/-- The structural error that ends the linking of what a tree declares, if one does. -/
def structural? (json : Json) : Option StructuralError :=
  match (ModuleDocument.ofJson json).toOption.bind fun document =>
      (ModuleGraph.ofDocument {} document).toOption with
  | none => none
  | some graph =>
    match graph.link {} .permissive with
    | .error (.structural e) => some e
    | _ => none

/-- Validation accepts files whose modules have structural errors, and a file that cannot be
read. -/
theorem accepts_malformed :
    (∀ json ∈ [blank, misread, repeated], (validate (single json) {} "m.json").code = 0) ∧
      structural? blank = some (.nullValue ["Q", "Properties", "a"]) ∧
      structural? misread =
        some (.malformed ["S", "Fn::Sub", "1"] (.referenceTarget .scalar)) ∧
      (readData .document ModuleDocument.ofJson (single repeated) "m.json").isOk = false := by
  have htext : ∀ json ∈ [blank, misread, repeated],
      (readTree .data (single json) "m.json").toOption = some json := by
    decide +kernel
  have hschema : ∀ json ∈ [blank, misread, repeated], Schema.isDocument json.merged = true := by
    decide +kernel
  exact ⟨fun json hjson => code_validate_single (htext json hjson) (hschema json hjson),
    by decide +kernel, by decide +kernel, by decide +kernel⟩

end CommandLine

end StackLinker
