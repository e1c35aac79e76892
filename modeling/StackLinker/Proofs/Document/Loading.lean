import Mathlib.Data.Option.Basic
import StackLinker.Proofs.Module.Declaration

/-!
# Loading documents

What `ModuleGraph.ofDocument` makes of any document (`loaded_exactly`).  The declarations are gone
through in preorder, with full names joined from the names on the way (`IsPreorder`); there is one
such listing only (`IsPreorder.eq_listingAll`).  Whether a declaration is accepted depends on those
before it: of the declarations with one full name that could be added, only the first one is
(`isAccepted_iff`).  If all declarations are accepted and the identifiers are distinct, the module
consists of what they make.  Otherwise each declaration that is not accepted is reported, and after
these each accepted one whose identifier is held already, with the first one that holds it.

What is declared, made and reported is written out here, without the loader's own helpers.

The proof goes along the listing.  Its invariant is that the entities so far are those made from the
accepted declarations so far (`declareAll_exact`), so that a full name is taken in the graph if and
only if an earlier declaration was accepted under it.
-/

/-! ## Selecting members of a list by those before them -/

namespace List

variable {α β : Type}

/-- What a function gives for the members of a list, depending on those before them.  The first list
is what stands before the second one. -/
def filterMapAfter (f : List α → α → Option β) : List α → List α → List β
  | _, [] => []
  | earlier, x :: rest => (f earlier x).toList ++ filterMapAfter f (earlier ++ [x]) rest

/-- The members of a list that satisfy a condition on those before them. -/
def filterAfter (p : List α → α → Prop) [∀ earlier x, Decidable (p earlier x)] :
    List α → List α → List α :=
  filterMapAfter fun earlier x => if p earlier x then some x else none

variable {f : List α → α → Option β} {p : List α → α → Prop}
  [∀ earlier x, Decidable (p earlier x)] {earlier xs ys : List α} {x : α} {y : β}

theorem filterAfter_cons : filterAfter p earlier (x :: xs) =
    (if p earlier x then [x] else []) ++ filterAfter p (earlier ++ [x]) xs := by
  by_cases h : p earlier x <;> simp [filterAfter, filterMapAfter, h]

theorem filterMapAfter_append :
    filterMapAfter f earlier (xs ++ ys) =
      filterMapAfter f earlier xs ++ filterMapAfter f (earlier ++ xs) ys := by
  induction xs generalizing earlier with
  | nil => simp [filterMapAfter]
  | cons x rest ih => simp [filterMapAfter, ih]

theorem mem_filterMapAfter : y ∈ filterMapAfter f earlier xs ↔
    ∃ before x after, xs = before ++ x :: after ∧ f (earlier ++ before) x = some y := by
  induction xs generalizing earlier with
  | nil => simp [filterMapAfter]
  | cons first rest ih =>
      rw [filterMapAfter, mem_append, Option.mem_toList, ih]
      constructor
      · rintro (hfirst | ⟨before, x, after, rfl, hx⟩)
        · exact ⟨[], first, rest, rfl, by simpa using hfirst⟩
        · exact ⟨first :: before, x, after, rfl, by simpa using hx⟩
      · rintro ⟨before, x, after, hsplit, hx⟩
        cases before with
        | nil =>
            obtain ⟨rfl, rfl⟩ := cons.inj hsplit
            exact Or.inl (by simpa using hx)
        | cons other before =>
            obtain ⟨rfl, rfl⟩ := cons.inj hsplit
            exact Or.inr ⟨before, x, after, rfl, by simpa using hx⟩

theorem mem_filterAfter : x ∈ filterAfter p earlier xs ↔
    ∃ before after, xs = before ++ x :: after ∧ p (earlier ++ before) x := by
  simp only [filterAfter, mem_filterMapAfter, Option.ite_none_right_eq_some, Option.some.injEq]
  constructor
  · rintro ⟨before, other, after, hsplit, hp, rfl⟩
    exact ⟨before, after, hsplit, hp⟩
  · rintro ⟨before, after, hsplit, hp⟩
    exact ⟨before, x, after, hsplit, hp, rfl⟩

theorem filterAfter_eq_nil_iff : filterAfter p earlier xs = [] ↔
    ∀ before x after, xs = before ++ x :: after → ¬ p (earlier ++ before) x := by
  simp only [eq_nil_iff_forall_not_mem, mem_filterAfter, not_exists, not_and]
  exact ⟨fun h before x after => h x before after, fun h x before after => h before x after⟩

/-- If no member fails the condition, nothing is left out. -/
theorem filterAfter_eq_self (h : filterAfter (fun earlier x => ¬ p earlier x) earlier xs = []) :
    filterAfter p earlier xs = xs := by
  induction xs generalizing earlier with
  | nil => rfl
  | cons x rest ih =>
      simp only [filterAfter, filterMapAfter, append_eq_nil_iff, Option.toList_eq_nil_iff,
        ite_eq_right_iff, reduceCtorEq, imp_false, not_not] at h ih ⊢
      simp [h.1, ih h.2]

end List

namespace StackLinker

namespace EntityDeclaration

variable {config : Config} {name separator : String} {declaration : EntityDeclaration}

/-! ## Preorder -/

/-- A listing of declarations in preorder with their full names.  At the top a full name is the
declared name; below another declaration it is that one's full name, the separator, and the declared
name. -/
inductive IsPreorder (separator : String) : Option String → List EntityDeclaration →
    List (String × EntityDeclaration) → Prop where
  | nil {parent : Option String} : IsPreorder separator parent [] []
  | top {declaration : EntityDeclaration} {rest : List EntityDeclaration}
      {below others : List (String × EntityDeclaration)} :
      IsPreorder separator (some declaration.name) declaration.children below →
      IsPreorder separator none rest others →
      IsPreorder separator none (declaration :: rest)
        ((declaration.name, declaration) :: below ++ others)
  | child {parent : String} {declaration : EntityDeclaration} {rest : List EntityDeclaration}
      {below others : List (String × EntityDeclaration)} :
      IsPreorder separator (some (parent ++ separator ++ declaration.name))
        declaration.children below →
      IsPreorder separator (some parent) rest others →
      IsPreorder separator (some parent) (declaration :: rest)
        ((parent ++ separator ++ declaration.name, declaration) :: below ++ others)

theorem isPreorder_listingAll : ∀ (parent : Option String) (declarations : List EntityDeclaration),
    IsPreorder separator parent declarations (listingAll separator parent declarations)
  | _, [] => .nil
  | none, ⟨name, _, _, _, _, _, _, children⟩ :: rest => by
      rw [listingAll, listing]
      exact .top (isPreorder_listingAll (some name) children) (isPreorder_listingAll none rest)
  | some parent, ⟨name, _, _, _, _, _, _, children⟩ :: rest => by
      rw [listingAll, listing]
      exact .child (isPreorder_listingAll (some (parent ++ separator ++ name)) children)
        (isPreorder_listingAll (some parent) rest)

/-- There is one such listing only. -/
theorem IsPreorder.eq_listingAll {parent : Option String} {declarations : List EntityDeclaration}
    {listing : List (String × EntityDeclaration)}
    (h : IsPreorder separator parent declarations listing) :
    listing = listingAll separator parent declarations := by
  induction h with
  | nil => rfl
  | @top declaration rest below others _ _ ihbelow ihrest =>
      cases declaration
      rw [ihbelow, ihrest, listingAll, EntityDeclaration.listing]
      rfl
  | @child parent declaration rest below others _ _ ihbelow ihrest =>
      cases declaration
      rw [ihbelow, ihrest, listingAll, EntityDeclaration.listing]
      rfl

/-! ## What declarations make -/

/-- Whether a declaration makes an entity. -/
structure MakesEntity (declaration : EntityDeclaration) : Prop where
  /-- Only resources and functions may declare a resource, and it must be possible to read it. -/
  resource : ∀ json ∈ declaration.resource,
    (declaration.kind = .resource ∨ declaration.kind = .function) ∧
      ∃ record, Record.ofJson json = .ok record
  value : declaration.value = none →
    declaration.kind = .input ∨ declaration.kind = .resource ∨ declaration.kind = .function

/-- The type of an entity: the declared one, else that of the declared resource. -/
inductive IsTypeOf (declaration : EntityDeclaration) : Option Record → String → Prop where
  | declared {record : Option Record} {typeName : String} :
      declaration.typeName = some typeName → IsTypeOf declaration record typeName
  | resource {record : Record} :
      declaration.typeName = none → IsTypeOf declaration (some record) record.header.typeName
  | untyped : declaration.typeName = none → IsTypeOf declaration none ""

theorem isTypeOf_effectiveType (declaration : EntityDeclaration) (record : Option Record) :
    IsTypeOf declaration record (declaration.effectiveType record) := by
  unfold effectiveType
  split
  · rename_i htype
    exact .declared htype
  · rename_i htype
    exact .resource htype
  · rename_i htype
    exact .untyped htype

/-- The identifier that goes with a full name. -/
def identifier (config : Config) (fullName : String) : String :=
  Text.replaceAll config.separator "" fullName

/-- An entity that is made from a declaration. -/
structure IsMadeFrom (config : Config) (declared : String × EntityDeclaration) (entity : Entity) :
    Prop where
  fullName : entity.fullName = declared.1
  kind : entity.kind = declared.2.kind
  scope : entity.scope = declared.2.scope
  pragmas : entity.pragmas = declared.2.pragmas
  record : ∃ record, Option.Rel (fun json record => Record.ofJson json = .ok record)
      declared.2.resource record ∧
    entity.definition = record.map Record.toValue ∧ IsTypeOf declared.2 record entity.typeName
  value : ∀ json, declared.2.value = some json → entity.reference = .ofJson json
  /-- Without a value, an entity stands for its identifier behind the preserve marker. -/
  own : declared.2.value = none →
    entity.reference = .ref (config.preserveMarker ++ identifier config declared.1)

theorem makesEntity_iff : declaration.MakesEntity ↔
    (∀ json ∈ declaration.resource,
      (declaration.kind = .resource ∨ declaration.kind = .function) ∧
        (Record.ofJson json).toOption.isSome = true) ∧
    (declaration.value = none →
      declaration.kind = .input ∨ declaration.kind = .resource ∨ declaration.kind = .function) := by
  have hread : ∀ json, (Record.ofJson json).toOption.isSome = true ↔
      ∃ record, Record.ofJson json = .ok record := by
    intro json
    cases Record.ofJson json <;> simp [Except.toOption]
  simp only [hread]
  exact ⟨fun h => ⟨h.resource, h.value⟩, fun h => ⟨h.1, h.2⟩⟩

instance : DecidablePred MakesEntity := fun _ => decidable_of_iff' _ makesEntity_iff

/-- Either the resource of a declaration is read, or there is a diagnostic. -/
theorem definition_cases (name : String) (declaration : EntityDeclaration) :
    ((∀ json ∈ declaration.resource,
        (declaration.kind = .resource ∨ declaration.kind = .function) ∧
          ∃ record, Record.ofJson json = .ok record) ∧
      ∃ record, Option.Rel (fun json record => Record.ofJson json = .ok record)
        declaration.resource record ∧ declaration.definition name = .ok record) ∨
    (¬ declaration.MakesEntity ∧
      ∃ message, declaration.definition name = .error (.invalidDeclaration name message)) := by
  unfold definition
  cases hresource : declaration.resource with
  | none => exact Or.inl ⟨by simp, none, .none, rfl⟩
  | some json =>
      cases hkind : declaration.kind.isManaged with
      | false =>
          refine Or.inr ⟨fun h => ?_, _, rfl⟩
          simp [EntityKind.isManaged_iff.2 (h.resource json hresource).1] at hkind
      | true =>
          cases hrecord : Record.ofJson json with
          | ok record =>
              refine Or.inl ⟨?_, some record, .some hrecord, by simp [hrecord]⟩
              rintro other ⟨⟩
              exact ⟨EntityKind.isManaged_iff.1 hkind, record, hrecord⟩
          | error e =>
              refine Or.inr ⟨fun h => ?_, _, by simp [hrecord]; rfl⟩
              obtain ⟨record, hread⟩ := (h.resource json hresource).2
              simp [hread] at hrecord

/-- Either a declaration makes an entity, as it says, or there is a diagnostic. -/
theorem toEntity_cases (config : Config) (name : String) (declaration : EntityDeclaration) :
    (declaration.MakesEntity ∧ ∃ entity, declaration.toEntity config name = .ok entity ∧
      IsMadeFrom config (name, declaration) entity) ∨
    (¬ declaration.MakesEntity ∧
      ∃ message, declaration.toEntity config name = .error (.invalidDeclaration name message)) := by
  rcases definition_cases name declaration with
    ⟨hresource, record, hrel, hdefinition⟩ | ⟨hunmade, message, hdefinition⟩
  · by_cases hvalue : declaration.value = none → declaration.kind.hasIdentifier = true
    · have hentity : ∃ entity, declaration.toEntity config name = .ok entity ∧
          entity.scope = declaration.scope ∧ entity.pragmas = declaration.pragmas ∧
          entity.definition = record.map Record.toValue ∧
          entity.typeName = declaration.effectiveType record := by
        unfold toEntity
        cases hjson : declaration.value with
        | some json => exact ⟨_, by simp only [hdefinition]; rfl, rfl, rfl, rfl, rfl⟩
        | none => exact ⟨_, by simp only [hdefinition, hvalue hjson]; rfl, rfl, rfl, rfl, rfl⟩
      obtain ⟨entity, hentity, hscope, hpragmas, hrecord, htype⟩ := hentity
      have hdeclares := declares_of_toEntity hentity
      refine Or.inl ⟨⟨hresource, fun h => EntityKind.hasIdentifier_iff.1 (hvalue h)⟩, entity,
        hentity, hdeclares.fullName, hdeclares.kind, hscope, hpragmas, ⟨record, hrel, hrecord, ?_⟩,
        hdeclares.value, fun hnone => ?_⟩
      · exact htype ▸ isTypeOf_effectiveType declaration record
      · rw [(hdeclares.resource hnone).2, Entity.resourceName, Entity.logicalId, hdeclares.fullName]
        rfl
    · obtain ⟨hnone, hkind⟩ := Classical.not_imp.1 hvalue
      refine Or.inr ⟨fun h => hvalue fun h' => EntityKind.hasIdentifier_iff.2 (h.value h'), ?_⟩
      unfold toEntity
      exact ⟨_, by simp only [hdefinition, hnone, hkind]; rfl⟩
  · refine Or.inr ⟨hunmade, message, ?_⟩
    unfold toEntity
    rw [hdefinition]
    rfl

end EntityDeclaration

/-! ## Accepted declarations -/

namespace EntityDeclaration

/-- Whether a declaration could be added to a graph without entities. -/
def CanBeAdded (declared : String × EntityDeclaration) : Prop :=
  declared.2.MakesEntity ∧ declared.1 ≠ "" ∧ '.' ∉ declared.1.toList

instance : DecidablePred CanBeAdded := fun _ => inferInstanceAs (Decidable (_ ∧ _ ∧ _))

/-- Whether a declaration is accepted behind earlier ones: it can be added, and none of the earlier
ones was accepted under its full name. -/
def IsAccepted (earlier : List (String × EntityDeclaration))
    (declared : String × EntityDeclaration) : Prop :=
  CanBeAdded declared ∧ ∀ before other after, (_ : earlier = before ++ other :: after) →
    other.1 = declared.1 → ¬ IsAccepted before other
termination_by earlier.length
decreasing_by simp_all

variable {name : String} {earlier : List (String × EntityDeclaration)}
  {declared : String × EntityDeclaration}

/-- Behind a declaration that can be added, its full name is taken. -/
theorem exists_isAccepted (hmem : declared ∈ earlier) (h : CanBeAdded declared) :
    ∃ before first after, earlier = before ++ first :: after ∧ first.1 = declared.1 ∧
      IsAccepted before first := by
  obtain ⟨before, after, rfl⟩ := List.append_of_mem hmem
  by_cases haccepted : IsAccepted before declared
  · exact ⟨before, declared, after, rfl, rfl, haccepted⟩
  · rw [IsAccepted] at haccepted
    push Not at haccepted
    obtain ⟨front, first, rest, rfl, hname, hfirst⟩ := haccepted h
    exact ⟨front, first, rest ++ declared :: after, by simp, hname, hfirst⟩

/-- Of the declarations with one full name that can be added, the first one is accepted. -/
theorem isAccepted_iff : IsAccepted earlier declared ↔
    CanBeAdded declared ∧ ∀ other ∈ earlier, other.1 = declared.1 → ¬ CanBeAdded other := by
  rw [IsAccepted]
  refine and_congr_right fun _ => ⟨fun h other hother hname hcan => ?_, ?_⟩
  · obtain ⟨before, first, after, hsplit, hfirst, haccepted⟩ := exists_isAccepted hother hcan
    exact h before first after hsplit (hfirst.trans hname) haccepted
  · rintro h before other after rfl hname haccepted
    rw [IsAccepted] at haccepted
    exact h other (by simp) hname haccepted.1

instance : ∀ earlier declared, Decidable (IsAccepted earlier declared) :=
  fun _ _ => decidable_of_iff' _ isAccepted_iff

/-- A declaration that makes no entity leaves its full name to a later one. -/
example : IsAccepted [("A", { name := "A", kind := .value })]
    ("A", { name := "A", kind := .input }) := by decide

/-- The accepted declarations of a listing. -/
def accepted (listing : List (String × EntityDeclaration)) : List (String × EntityDeclaration) :=
  List.filterAfter IsAccepted [] listing

/-- The declarations of a listing that are not accepted. -/
def rejected (listing : List (String × EntityDeclaration)) : List (String × EntityDeclaration) :=
  List.filterAfter (fun earlier declared => ¬ IsAccepted earlier declared) [] listing

/-- What is reported about a declaration that is not accepted. -/
inductive IsRefusal (declared : String × EntityDeclaration) : Diagnostic → Prop where
  | unmade (message : String) : ¬ declared.2.MakesEntity →
      IsRefusal declared {
        stage := 0
        kind := .invalidDeclaration
        entity := declared.1
        message := message }
  | unaddressable : declared.2.MakesEntity → declared.1 = "" ∨ '.' ∈ declared.1.toList →
      IsRefusal declared {
        stage := 0
        kind := .invalidDeclaration
        entity := declared.1
        message := "invalid entity name " ++ Text.quoted declared.1 ++
          ": names must be non-empty and cannot contain '.'" }
  | taken : CanBeAdded declared →
      IsRefusal declared {
        stage := 0
        kind := .duplicateName
        entity := declared.1
        message := "duplicate entity name " ++ Text.quoted declared.1 }

theorem rejected_eq_nil_iff {listing : List (String × EntityDeclaration)} : rejected listing = [] ↔
    ∀ before declared after, listing = before ++ declared :: after →
      IsAccepted before declared := by
  simp [rejected, List.filterAfter_eq_nil_iff]

theorem accepted_eq_self {listing : List (String × EntityDeclaration)} (h : rejected listing = []) :
    accepted listing = listing :=
  List.filterAfter_eq_self h

theorem accepted_append_singleton : accepted (earlier ++ [declared]) =
    accepted earlier ++ if IsAccepted earlier declared then [declared] else [] := by
  rw [accepted, List.filterAfter, List.filterMapAfter_append]
  by_cases h : IsAccepted earlier declared <;>
    simp [accepted, List.filterAfter, List.filterMapAfter, h]

/-- The full names that are taken. -/
theorem mem_names_accepted : name ∈ (accepted earlier).map (·.1) ↔
    ∃ other ∈ earlier, other.1 = name ∧ CanBeAdded other := by
  simp only [accepted, List.mem_map, List.mem_filterAfter, List.nil_append]
  constructor
  · rintro ⟨other, ⟨before, after, rfl, haccepted⟩, hname⟩
    exact ⟨other, by simp, hname, (isAccepted_iff.1 haccepted).1⟩
  · rintro ⟨other, hother, hname, hcan⟩
    obtain ⟨before, first, after, hsplit, hfirst, haccepted⟩ := exists_isAccepted hother hcan
    exact ⟨first, ⟨before, after, hsplit, haccepted⟩, hfirst.trans hname⟩

theorem isAccepted_iff_not_mem_names : IsAccepted earlier declared ↔
    CanBeAdded declared ∧ declared.1 ∉ (accepted earlier).map (·.1) := by
  rw [isAccepted_iff, mem_names_accepted]
  push Not
  rfl

/-! ## Identifiers -/

/-- The full names of the accepted inputs, resources and functions. -/
def holders (listing : List (String × EntityDeclaration)) : List String :=
  ((accepted listing).filter fun declared => decide (declared.2.kind = .input ∨
    declared.2.kind = .resource ∨ declared.2.kind = .function)).map (·.1)

/-- What is reported about a full name behind earlier ones: that the first one with the same
identifier holds it. -/
def collision? (config : Config) (earlier : List String) (fullName : String) : Option Diagnostic :=
  (earlier.find? fun owner => identifier config owner = identifier config fullName).map fun owner =>
    { stage := 0
      kind := .duplicateName
      entity := fullName
      reference := some owner
      related := [owner]
      message := "logical id " ++ Text.quoted (identifier config fullName) ++ " of " ++
        Text.quoted fullName ++ " collides with " ++ Text.quoted owner }

/-- What is reported about the accepted declarations of a listing. -/
def collisions (config : Config) (listing : List (String × EntityDeclaration)) : List Diagnostic :=
  List.filterMapAfter (collision? config) [] (holders listing)

end EntityDeclaration

theorem ModuleGraph.isAddressable_iff {name : String} :
    isAddressable name = true ↔ name ≠ "" ∧ '.' ∉ name.toList := by
  simp [isAddressable]

namespace ModuleGraph

open EntityDeclaration

variable {config : Config} {document : ModuleDocument} {graph : ModuleGraph}
  {earlier listing : List (String × EntityDeclaration)} {declared : String × EntityDeclaration}

/-! ## Along the listing -/

theorem names_of_isMadeFrom
    (hmade : List.Forall₂ (IsMadeFrom config) (accepted earlier) graph.entities) :
    graph.names = (accepted earlier).map (·.1) :=
  (hmade.map_eq_map fun h => h.fullName.symm).symm

/-- A declaration is added if and only if it is accepted. -/
theorem declare_cases
    (hmade : List.Forall₂ (IsMadeFrom config) (accepted earlier) graph.entities)
    (declared : String × EntityDeclaration) :
    (IsAccepted earlier declared ∧ ∃ entity, IsMadeFrom config declared entity ∧
      graph.declare config declared.1 declared.2 =
        .ok { graph with entities := graph.entities ++ [entity] }) ∨
    (¬ IsAccepted earlier declared ∧ ∃ diagnostic, IsRefusal declared diagnostic ∧
      graph.declare config declared.1 declared.2 = .error diagnostic) := by
  rw [isAccepted_iff_not_mem_names, ← names_of_isMadeFrom hmade, declare]
  rcases toEntity_cases config declared.1 declared.2 with
    ⟨hmakes, entity, hentity, hfrom⟩ | ⟨hunmade, message, herror⟩
  · rw [hentity, Except.bind, add, hfrom.fullName]
    cases haddressable : isAddressable declared.1 with
    | false =>
        have hname : ¬ (declared.1 ≠ "" ∧ '.' ∉ declared.1.toList) := fun h => by
          simp [isAddressable_iff.2 h] at haddressable
        refine Or.inr ⟨fun h => hname h.1.2, _, .unaddressable hmakes ?_, rfl⟩
        rwa [ne_eq, ← not_or, not_not] at hname
    | true =>
        have hcan : CanBeAdded declared := ⟨hmakes, isAddressable_iff.1 haddressable⟩
        by_cases htaken : declared.1 ∈ graph.names
        · have hget : (graph.get? declared.1).isSome = true := Entity.find?_isSome_iff.2 htaken
          exact Or.inr ⟨fun h => h.2 htaken, _, .taken hcan,
            by simp [hget, Diagnostic.duplicateName]⟩
        · have hget : ¬ (graph.get? declared.1).isSome = true := fun h =>
            htaken (Entity.find?_isSome_iff.1 h)
          exact Or.inl ⟨⟨hcan, htaken⟩, entity, hfrom, by simp [hget]⟩
  · exact Or.inr ⟨fun h => hunmade h.1.1, _, .unmade message hunmade, by rw [herror]; rfl⟩

/-- The entities so far are those of the accepted declarations so far, and the diagnostics those of
the others. -/
theorem declareAll_exact
    (hmade : List.Forall₂ (IsMadeFrom config) (accepted earlier) graph.entities)
    (listing : List (String × EntityDeclaration)) :
    (declareAll config listing graph).1.name = graph.name ∧
      List.Forall₂ (IsMadeFrom config) (accepted (earlier ++ listing))
        (declareAll config listing graph).1.entities ∧
      List.Forall₂ IsRefusal
        (List.filterAfter (fun earlier declared => ¬ IsAccepted earlier declared) earlier listing)
        (declareAll config listing graph).2 := by
  induction listing generalizing earlier graph with
  | nil => exact ⟨rfl, by simpa [declareAll] using hmade, .nil⟩
  | cons declared rest ih =>
      have hstep : accepted (earlier ++ [declared]) =
          accepted earlier ++ if IsAccepted earlier declared then [declared] else [] :=
        accepted_append_singleton
      rw [List.append_cons, List.filterAfter_cons, declareAll]
      rcases declare_cases hmade declared with
        ⟨haccepted, entity, hfrom, hdeclare⟩ | ⟨hrejected, diagnostic, hrefusal, hdeclare⟩
      · rw [if_pos haccepted] at hstep
        rw [hdeclare, if_neg (not_not.2 haccepted), List.nil_append]
        exact ih (hstep ▸ List.rel_append hmade (.cons hfrom .nil))
      · rw [if_neg hrejected, List.append_nil] at hstep
        rw [hdeclare, if_pos hrejected, List.singleton_append]
        obtain ⟨hname, hentities, hdiagnostics⟩ := ih (hstep ▸ hmade)
        exact ⟨hname, hentities, .cons hrefusal hdiagnostics⟩

/-! ## Identifiers that are held -/

/-- The owners on record are the first holders of their identifiers. -/
theorem collisionsFrom_eq {owners : Fields String} {earlier : List String} {entities : List Entity}
    (howners : ∀ id, owners.find? id = earlier.find? fun name => identifier config name = id) :
    collisionsFrom config owners entities = List.filterMapAfter (collision? config) earlier
      ((entities.filter fun entity => entity.kind.hasIdentifier).map (·.fullName)) := by
  induction entities generalizing owners earlier with
  | nil => rfl
  | cons entity rest ih =>
      cases hkind : entity.kind.hasIdentifier with
      | false =>
          rw [List.filter_cons_of_neg (by simp [hkind]), collisionsFrom, hkind]
          exact ih howners
      | true =>
          have hid : entity.logicalId config = identifier config entity.fullName := rfl
          rw [List.filter_cons_of_pos (by simpa using hkind), List.map_cons, List.filterMapAfter,
            collisionsFrom, hkind, if_pos rfl, collision?, ← howners, hid]
          cases howner : owners.find? (identifier config entity.fullName) with
          | some owner =>
              simp only [howner, Option.map_some, Option.toList_some, List.singleton_append]
              refine congrArg (List.cons _) (ih fun id => ?_)
              rw [howners] at howner ⊢
              by_cases hsame : identifier config entity.fullName = id
              · subst hsame
                rw [List.find?_append, howner, Option.some_or]
              · simp [List.find?_append, hsame]
          | none =>
              simp only [howner, Option.map_none, Option.toList_none, List.nil_append]
              refine ih fun id => ?_
              rw [Fields.find?_insert, List.find?_append, ← howners]
              by_cases hsame : id = identifier config entity.fullName
              · subst hsame
                simp [howner]
              · simp [hsame, Ne.symm hsame]

theorem holders_of_isMadeFrom {listing : List (String × EntityDeclaration)}
    {entities : List Entity} (hmade : List.Forall₂ (IsMadeFrom config) listing entities) :
    (entities.filter fun entity => entity.kind.hasIdentifier).map (·.fullName) =
      (listing.filter fun declared => decide (declared.2.kind = .input ∨
        declared.2.kind = .resource ∨ declared.2.kind = .function)).map (·.1) := by
  induction hmade with
  | nil => rfl
  | cons hfirst _ ih =>
      simp only [List.filter_cons, EntityKind.hasIdentifier_iff, hfirst.kind, decide_eq_true_eq]
      split <;> simp [ih, hfirst.fullName]

/-- The diagnostics for identifiers name the first holder, for each accepted declaration whose
identifier is held. -/
theorem identifierCollisions_of_isMadeFrom
    (hmade : List.Forall₂ (IsMadeFrom config) (accepted listing) graph.entities) :
    graph.identifierCollisions config = collisions config listing := by
  rw [collisions, holders, ← holders_of_isMadeFrom hmade]
  exact collisionsFrom_eq fun _ => rfl

theorem collisions_eq_nil_iff
    (hmade : List.Forall₂ (IsMadeFrom config) (accepted listing) graph.entities) :
    collisions config listing = [] ↔ ((holders listing).map (identifier config)).Nodup := by
  rw [← identifierCollisions_of_isMadeFrom hmade, identifierCollisions_eq_nil_iff, holders,
    ← holders_of_isMadeFrom hmade, List.map_map]
  rfl

/-! ## Whole documents -/

/-- A document gives the module of its accepted declarations if there is nothing to report. -/
theorem exists_loaded (config : Config) (document : ModuleDocument) :
    ∃ graph refusals, graph.name = document.name ∧
      List.Forall₂ (IsMadeFrom config) (accepted (document.listing config)) graph.entities ∧
      List.Forall₂ IsRefusal (rejected (document.listing config)) refusals ∧
      ofDocument config document =
        if refusals = [] ∧ collisions config (document.listing config) = [] then .ok graph
        else .error (refusals ++ collisions config (document.listing config)) := by
  have hempty : List.Forall₂ (IsMadeFrom config) (accepted [])
      ({ name := document.name } : ModuleGraph).entities := .nil
  obtain ⟨hname, hmade, hrefusals⟩ := declareAll_exact hempty (document.listing config)
  rw [List.nil_append] at hmade
  refine ⟨_, _, hname, hmade, hrefusals, ?_⟩
  rw [← identifierCollisions_of_isMadeFrom hmade]
  simp only [ofDocument, List.isEmpty_iff, List.append_eq_nil_iff]

/-- Loading a document is exact.  Its declarations are listed in preorder with their full names.
The document is accepted if and only if every declaration is accepted behind those before it and the
identifiers are distinct, and then the module consists of what the declarations make, in their
order.  Otherwise each declaration that is not accepted has one diagnostic, in the order of the
listing, and behind these each accepted one whose identifier is held has one, which names the first
holder. -/
theorem loaded_exactly (config : Config) (document : ModuleDocument) :
    ∃ listing, IsPreorder config.separator none document.entities listing ∧
      ((∃ graph, ofDocument config document = .ok graph) ↔
        (∀ before declared after, listing = before ++ declared :: after →
          IsAccepted before declared) ∧
        ((holders listing).map (identifier config)).Nodup) ∧
      (∀ graph, ofDocument config document = .ok graph → graph.name = document.name ∧
        List.Forall₂ (IsMadeFrom config) listing graph.entities) ∧
      ∀ errors, ofDocument config document = .error errors → ∃ refusals,
        List.Forall₂ IsRefusal (rejected listing) refusals ∧
        errors = refusals ++ collisions config listing := by
  obtain ⟨loaded, refusals, hname, hmade, hrefusals, hresult⟩ := exists_loaded config document
  have hrejected : refusals = [] ↔ rejected (document.listing config) = [] := by
    rw [← List.length_eq_zero_iff, ← List.length_eq_zero_iff, hrefusals.length_eq]
  refine ⟨document.listing config, isPreorder_listingAll none document.entities, ?accepts, ?graph,
    ?errors⟩
  case accepts =>
    rw [← rejected_eq_nil_iff, ← hrejected, ← collisions_eq_nil_iff hmade, hresult]
    split
    · rename_i hempty
      exact ⟨fun _ => hempty, fun _ => ⟨loaded, rfl⟩⟩
    · rename_i hnonempty
      exact ⟨fun h => absurd h.choose_spec (by simp), fun hempty => absurd hempty hnonempty⟩
  case graph =>
    intro graph hgraph
    rw [hresult] at hgraph
    split at hgraph
    · rename_i hempty
      obtain rfl := Except.ok.inj hgraph
      rw [accepted_eq_self (hrejected.1 hempty.1)] at hmade
      exact ⟨hname, hmade⟩
    · simp at hgraph
  case errors =>
    intro errors herrors
    rw [hresult] at herrors
    split at herrors
    · simp at herrors
    · exact ⟨refusals, hrefusals, (Except.error.inj herrors).symm⟩

end ModuleGraph

end StackLinker
