import StackLinker.Form.Rule
import StackLinker.ModuleGraph
import StackLinker.Placeholder

/-!
# Finalization

Deferred names carry the preserve marker through resolution.  Finalization takes the marker off in
references, attribute references and placeholders; every other node stays as it is.
-/

namespace StackLinker

namespace Config

/-- A placeholder with its marker taken off, if it carries one. -/
def bareText? (config : Config) (placeholder : Placeholder) : Option String :=
  (config.stripPreserve? placeholder.name).map fun bare =>
    (Placeholder.mk bare placeholder.attr).text

/-- A pattern with the markers of its placeholders taken off. -/
def barePattern (config : Config) (pattern : String) : String :=
  Pattern.replace config.bareText? pattern

/-- The node for a form without markers. -/
def bareForm (config : Config) (node : Value) : Form → Value
  | .reference key =>
    match config.stripPreserve? key with
    | some bare => .ref bare
    | none => node
  | .attributeOf key attr =>
    match config.stripPreserve? key with
    | some bare => .getAtt bare attr
    | none => node
  | .substitution pattern arguments =>
    let bare := config.barePattern pattern
    if bare = pattern then node else .sub bare (arguments.getD [])

/-- The rule of finalization. -/
def finalizeRule (config : Config) : Rule Unit :=
  Rule.ofForms fun _ node form _ => (config.bareForm node form, ())

end Config

/-- Finalizes a value that stands under a root name. -/
def Value.finalize (config : Config) (root : String) (value : Value) : Progress Unit Value :=
  value.traverse config.finalizeRule [root] ()

namespace Entity

/-- Finalizes the reference of an entity, then its declaration.  What was finalized before a fault
stays finalized. -/
def finalize (config : Config) (entity : Entity) : Entity × Option StructuralError :=
  let reference := entity.reference.finalize config entity.fullName
  let entity := { entity with reference := reference.result }
  match reference.failure, entity.definition with
  | some e, _ => (entity, some e)
  | none, none => (entity, none)
  | none, some definition =>
    let definition := definition.finalize config entity.fullName
    ({ entity with definition := some definition.result }, definition.failure)

/-- Finalizes entities up to the first fault. -/
def finalizeAll (config : Config) : List Entity → List Entity × Option StructuralError
  | [] => ([], none)
  | entity :: rest =>
    match entity.finalize config with
    | (entity, some e) => (entity :: rest, some e)
    | (entity, none) =>
      let others := finalizeAll config rest
      (entity :: others.1, others.2)

end Entity

/-- Finalizes a module up to the first fault. -/
def ModuleGraph.finalize (config : Config) (graph : ModuleGraph) :
    ModuleGraph × Option StructuralError :=
  let finalized := Entity.finalizeAll config graph.entities
  ({ graph with entities := finalized.1 }, finalized.2)

end StackLinker
