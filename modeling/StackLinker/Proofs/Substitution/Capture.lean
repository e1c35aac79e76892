import StackLinker.Proofs.Dependency.Waiting

/-!
# Substitution without capture

A placeholder with the name of an argument receives that argument.  Filling a pattern adds arguments
and writes new placeholders, so a placeholder may end up with the name of an argument that it did
not ask for.  `Becomes` says what should come into the place of each piece of a pattern: whatever is
left, and whatever is written for a reference or an attribute, has a name that no argument has.

The filling keeps to this as long as the names are apart (`IsApart`).  Its search for the name of an
added argument only looks at the arguments that are there already.  It looks neither at the other
placeholders of the pattern nor at the names that are still to be written, and
`captures_placeholders` has a pattern for each way in which this goes wrong.  What was written is
also read again as it was meant, if no text disturbs the reading of what stands around it
(`IsLegible`).

The proof follows one placeholder at a time.  At any time the arguments are the declared ones and
some added ones under numbered names (`Filling.Extends`), so a name that is apart from both has no
argument in the end either.
-/

namespace StackLinker

/-- The placeholders of a pattern.  Escapes are none. -/
def Pattern.placeholders (pattern : String) : List Placeholder :=
  (pieces pattern).filterMap fun
    | .char _ => none
    | .hole inner => Placeholder.ofHole? inner

theorem Pattern.mem_placeholders {pattern : String} {inner : List Char} {placeholder : Placeholder}
    (hmem : .hole inner ∈ pieces pattern) (hread : Placeholder.ofHole? inner = some placeholder) :
    placeholder ∈ placeholders pattern :=
  List.mem_filterMap.2 ⟨.hole inner, hmem, hread⟩

theorem Pattern.mem_placeholders_iff {pattern : String} {placeholder : Placeholder} :
    placeholder ∈ placeholders pattern ↔
      ∃ inner, .hole inner ∈ pieces pattern ∧ Placeholder.ofHole? inner = some placeholder := by
  constructor
  · intro h
    obtain ⟨piece, hmem, hread⟩ := List.mem_filterMap.1 h
    cases piece with
    | char c => simp at hread
    | hole inner => exact ⟨inner, hmem, hread⟩
  · rintro ⟨inner, hmem, hread⟩
    exact mem_placeholders hmem hread

namespace Surroundings

/-! ## What pieces become -/

/-- Whether a placeholder that no argument binds has to stay: its name is exempt, or no free entity
has it, or the entity does not have the attribute. -/
def Leaves (around : Surroundings) (source : String) (path : Path) (placeholder : Placeholder) :
    Prop :=
  around.config.isExempt placeholder.name = true ∨
    (around.meaning placeholder.name).isOpen = true ∨
    ∃ target attr fault, around.meaning placeholder.name = .free target ∧
      placeholder.attr = some attr ∧ around.checkAttribute source target attr path = .error fault

/-- What comes into the place of a piece, given the declared arguments and all arguments of the
filled pattern. -/
inductive Becomes (around : Surroundings) (source : String) (path : Path)
    (declared arguments : Fields Value) : Piece → List Piece → Prop
  | char (c : Char) : Becomes around source path declared arguments (.char c) [.char c]
  | escape {inner : List Char} (hread : Placeholder.ofHole? inner = none) :
      Becomes around source path declared arguments (.hole inner) [.hole inner]
  /-- A declared argument binds the placeholder. -/
  | bound {inner : List Char} {placeholder : Placeholder}
      (hread : Placeholder.ofHole? inner = some placeholder)
      (hown : placeholder.name ∈ declared.keys) :
      Becomes around source path declared arguments (.hole inner) [.hole inner]
  /-- The placeholder stays, and no argument binds it. -/
  | left {inner : List Char} {placeholder : Placeholder}
      (hread : Placeholder.ofHole? inner = some placeholder)
      (hleaves : around.Leaves source path placeholder)
      (hclear : placeholder.name ∉ arguments.keys) :
      Becomes around source path declared arguments (.hole inner) [.hole inner]
  | text {inner : List Char} {name : String} {target : Entity} {s : Scalar}
      (hread : Placeholder.ofHole? inner = some ⟨name, none⟩) (hown : name ∉ declared.keys)
      (hfree : around.meaning name = .free target) (hreference : target.reference = .scalar s) :
      Becomes around source path declared arguments (.hole inner) (Pattern.pieces s.text)
  /-- The entity stands for a reference or an attribute, and no argument binds its name. -/
  | forward {inner : List Char} {name : String} {target : Entity} {form : Form}
      {next : Placeholder} (hread : Placeholder.ofHole? inner = some ⟨name, none⟩)
      (hown : name ∉ declared.keys) (hfree : around.meaning name = .free target)
      (hreference : Form.recognize? target.reference = .ok (some form))
      (hnext : form.placeholder? = some next) (hclear : next.name ∉ arguments.keys) :
      Becomes around source path declared arguments (.hole inner) (Pattern.pieces next.text)
  /-- The value of the entity is an argument that was not declared. -/
  | argument {inner : List Char} {name fresh : String} {target : Entity}
      (hread : Placeholder.ofHole? inner = some ⟨name, none⟩) (hown : name ∉ declared.keys)
      (hfree : around.meaning name = .free target) (hother : target.reference.inserted? = none)
      (hfresh : fresh ∉ declared.keys) (hvalue : arguments.find? fresh = some target.reference) :
      Becomes around source path declared arguments (.hole inner)
        (Pattern.pieces (Placeholder.mk fresh none).text)
  /-- The entity has the attribute, and no argument binds the name of its resource. -/
  | attributeOf {inner : List Char} {name attr : String} {target : Entity}
      (hread : Placeholder.ofHole? inner = some ⟨name, some attr⟩) (hown : name ∉ declared.keys)
      (hfree : around.meaning name = .free target)
      (hcheck : around.checkAttribute source target attr path = .ok ())
      (hclear : target.resourceName around.config ∉ arguments.keys) :
      Becomes around source path declared arguments (.hole inner)
        (Pattern.pieces (Placeholder.mk (target.resourceName around.config) (some attr)).text)

/-- Whether the texts that come into a pattern leave the reading of the rest as it was. -/
def IsLegible (around : Surroundings) (pattern : String) (declared : Fields Value) : Prop :=
  ∀ placeholder ∈ Pattern.placeholders pattern, placeholder.name ∉ declared.keys →
    ∀ target s, around.meaning placeholder.name = .free target → target.reference = .scalar s →
      Pattern.isClosed s.text = true ∧
        (Pattern.isSpaced (Pattern.pieces pattern) = true ∨
          Pattern.isSolid s.text.toList = true)

/-- A substitution becomes a pattern with arguments in which nothing is captured.  The declared
arguments stay in front, and the added ones have names of their own. -/
structure AvoidsCapture (around : Surroundings) (source : String) (path : Path) (node : Value)
    (pattern : String) (arguments : Option (Fields Value)) (outcome : Outcome) (text : String)
    (added : Fields Value) : Prop where
  result : (around.substitution source path node pattern arguments outcome).1 =
        .sub text (arguments.getD [] ++ added) ∨
      (arguments.getD [] ++ added = [] ∧ Pattern.hasHoles text = false ∧
        (around.substitution source path node pattern arguments outcome).1 = .string text) ∨
      (text = pattern ∧ added = [] ∧
        (around.substitution source path node pattern arguments outcome).1 = node)
  /-- The new pattern is written, and where the texts allow it also read, part by part. -/
  parts : ∃ parts : List (List Piece), text = Pattern.render parts.flatten ∧
    (around.IsLegible pattern (arguments.getD []) → Pattern.pieces text = parts.flatten) ∧
    List.Forall₂ (around.Becomes source path (arguments.getD []) (arguments.getD [] ++ added))
      (Pattern.pieces pattern) parts
  added_new : ∀ argument ∈ added,
    around.IsAdded argument ∧ argument.1 ∉ Fields.keys (arguments.getD [])
  added_nodup : (Fields.keys added).Nodup

/-! ## Names that are apart -/

/-- The name under which a placeholder is written anew: that of the reference or attribute which the
entity stands for, or that of its resource. -/
def rename? (around : Surroundings) (placeholder : Placeholder) : Option String :=
  match around.meaning placeholder.name with
  | .free target =>
    match placeholder.attr with
    | none => ((Form.peek target.reference).bind Form.placeholder?).map (·.name)
    | some _ => some (target.resourceName around.config)
  | _ => none

/-- Whether a placeholder is out of reach of the arguments: where no declared argument binds it,
neither its name nor the name it is written under anew may be that of an argument. -/
structure IsClear (around : Surroundings) (declared : Fields Value) (placeholder : Placeholder) :
    Prop where
  number : ¬ around.config.IsSynthetic placeholder.name
  renamed : ∀ name, around.rename? placeholder = some name →
    name ∉ declared.keys ∧ ¬ around.config.IsSynthetic name

/-- Whether the placeholders of a pattern are out of reach of the arguments. -/
def IsApart (around : Surroundings) (pattern : String) (declared : Fields Value) : Prop :=
  ∀ placeholder ∈ Pattern.placeholders pattern, placeholder.name ∉ declared.keys →
    around.IsClear declared placeholder

variable {around : Surroundings} {source : String} {path : Path} {node : Value} {pattern : String}
  {declared : Fields Value} {arguments : Option (Fields Value)} {outcome : Outcome}

/-- The arguments of a filling are the declared ones, and behind them added ones with names of their
own. -/
def Filling.Extends (around : Surroundings) (declared : Fields Value) (filling : Filling) : Prop :=
  ∃ added, filling.arguments = declared ++ added ∧
    (∀ argument ∈ added, around.IsAdded argument ∧ argument.1 ∉ declared.keys) ∧
    (Fields.keys added).Nodup

theorem Filling.Extends.notMem_keys {filling : Filling} (h : filling.Extends around declared)
    {name : String} (hown : name ∉ declared.keys) (hnumber : ¬ around.config.IsSynthetic name) :
    name ∉ filling.arguments.keys := by
  obtain ⟨added, harguments, hadded⟩ := h
  rw [harguments]
  exact notMem_keys_append hown hnumber fun argument hmem => (hadded.1 argument hmem).1

theorem Filling.Extends.declared_subset {filling : Filling} (h : filling.Extends around declared) :
    declared.keys ⊆ filling.arguments.keys := by
  obtain ⟨added, harguments, -⟩ := h
  rw [harguments]
  simp [Fields.keys]

theorem Filling.Extends.answer {filling : Filling} (h : filling.Extends around declared)
    (placeholder : Placeholder) :
    (around.answer source path placeholder filling).2.Extends around declared := by
  have hanswered := answered around source path placeholder filling
  generalize (around.answer source path placeholder filling).1 = text at hanswered
  generalize (around.answer source path placeholder filling).2 = after at hanswered
  cases hanswered with
  | @argument target number hfree hnumber =>
      obtain ⟨added, harguments, hadded, hnodup⟩ := h
      rw [harguments, Fields.keys, List.map_append, List.mem_append, not_or] at hnumber
      refine ⟨added ++ [(around.syntheticName number, target.reference)],
        by simp [harguments], fun argument hmem => ?_, ?_⟩
      · rcases List.mem_append.1 hmem with hmem | hmem
        · exact hadded argument hmem
        · rw [List.mem_singleton.1 hmem]
          exact ⟨⟨⟨number, rfl⟩, ⟨target, mem_free_of_meaning hfree, rfl⟩⟩, hnumber.1⟩
      · rw [Fields.keys, List.map_append]
        exact List.nodup_append_comm.1 (List.nodup_cons.2 ⟨hnumber.2, hnodup⟩)
  | _ => exact h

theorem Filling.Extends.fillPieces {filling : Filling} (h : filling.Extends around declared)
    (pieces : List Piece) :
    (Pattern.fillPieces (around.answer source path) pieces filling).2.Extends around declared :=
  Pattern.fillPieces_invariant (fun _ placeholder _ _ _ hfilling => hfilling.answer placeholder) h

theorem Filling.extends_start (around : Surroundings) (arguments : Option (Fields Value))
    (outcome : Outcome) : (start arguments outcome).Extends around (arguments.getD []) :=
  ⟨[], by simp [start], by simp, by simp [Fields.keys]⟩

/-- Added arguments leave the names of the arguments distinct. -/
theorem Filling.Extends.nodup_keys {filling : Filling} (h : filling.Extends around declared)
    (hdeclared : declared.keys.Nodup) : filling.arguments.keys.Nodup := by
  obtain ⟨added, harguments, hadded, hnodup⟩ := h
  rw [harguments, Fields.keys, List.map_append]
  refine hdeclared.append hnodup fun name hname hnew => ?_
  obtain ⟨argument, hargument, rfl⟩ := List.mem_map.1 hnew
  exact (hadded argument hargument).2 hname

/-- A value with a text, or with a placeholder of its own, adds no argument. -/
theorem splice_of_inserted? {value : Value} {text : String} (h : value.inserted? = some text)
    (filling : Filling) : around.splice value filling = (text, filling) := by
  cases value with
  | scalar s => simpa [splice] using h
  | _ =>
      simp only [Value.inserted?, Option.map_eq_some_iff, Option.bind_eq_some_iff] at h
      obtain ⟨next, ⟨form, hpeek, hnext⟩, rfl⟩ := h
      cases form <;> simp only [Form.placeholder?, Option.some.injEq, reduceCtorEq] at hnext <;>
        simp [splice, hpeek, hnext]

/-- Any other value becomes an argument under the name that the search finds. -/
theorem splice_eq_of_not_inserted {value : Value} (h : value.inserted? = none) (filling : Filling)
    {number : Nat}
    (hnumber : number =
      around.freshNumber filling.arguments filling.arguments.length filling.next) :
    around.splice value filling = ((Placeholder.mk (around.syntheticName number) none).text,
      { filling with
        arguments := filling.arguments ++ [(around.syntheticName number, value)]
        next := number + 1 }) := by
  subst hnumber
  cases value with
  | scalar s => simp at h
  | _ =>
      rw [← Fields.insert_of_notMem _ (freshNumber_notMem around filling.arguments filling.next)]
      simp only [Value.inserted?, Option.map_eq_none_iff, Option.bind_eq_none_iff] at h
      simp only [splice]
      split
      · rename_i hpeek
        exact absurd (h _ hpeek) (by simp [Form.placeholder?])
      · rename_i hpeek
        exact absurd (h _ hpeek) (by simp [Form.placeholder?])
      · rfl

/-- The name of an added argument is not taken. -/
theorem splice_of_not_inserted {value : Value} (h : value.inserted? = none) (filling : Filling) :
    ∃ number, around.syntheticName number ∉ filling.arguments.keys ∧
      around.splice value filling = ((Placeholder.mk (around.syntheticName number) none).text,
        { filling with
          arguments := filling.arguments ++ [(around.syntheticName number, value)]
          next := number + 1 }) :=
  ⟨_, freshNumber_notMem around filling.arguments filling.next,
    splice_eq_of_not_inserted h filling rfl⟩

/-- The text of a value that is put into a pattern is its own, or that of a placeholder. -/
theorem inserted?_cases {value : Value} {text : String} (h : value.inserted? = some text) :
    (∃ s, value = .scalar s ∧ text = s.text) ∨
      ∃ form next, Form.recognize? value = .ok (some form) ∧ form.placeholder? = some next ∧
        text = next.text := by
  cases value with
  | scalar s => exact Or.inl ⟨s, rfl, by simpa using h.symm⟩
  | _ =>
      simp only [Value.inserted?, Option.map_eq_some_iff, Option.bind_eq_some_iff] at h
      obtain ⟨next, ⟨form, hpeek, hnext⟩, rfl⟩ := h
      exact Or.inr ⟨form, next, Form.peek_eq_some_iff.1 hpeek, hnext, rfl⟩

/-- The value of a free entity comes into its place as it should. -/
theorem becomes_splice {filling final : Filling} {inner : List Char} {name : String}
    {target : Entity} (hextends : filling.Extends around declared)
    (hfinal : (around.splice target.reference filling).2.arguments <+: final.arguments)
    (hafter : final.Extends around declared)
    (hread : Placeholder.ofHole? inner = some ⟨name, none⟩) (hown : name ∉ declared.keys)
    (hfree : around.meaning name = .free target) (hclear : around.IsClear declared ⟨name, none⟩) :
    Becomes around source path declared final.arguments (.hole inner)
      (Pattern.pieces (around.splice target.reference filling).1) := by
  cases hinserted : target.reference.inserted? with
  | some text =>
      rw [splice_of_inserted? hinserted]
      rcases inserted?_cases hinserted with ⟨s, hreference, rfl⟩ | ⟨form, next, hform, hnext, rfl⟩
      · exact .text hread hown hfree hreference
      · have hrenamed : around.rename? ⟨name, none⟩ = some next.name := by
          simp [rename?, hfree, Form.peek_eq_some_iff.2 hform, hnext]
        obtain ⟨hnew, hnumber⟩ := hclear.renamed _ hrenamed
        exact .forward hread hown hfree hform hnext (hafter.notMem_keys hnew hnumber)
  | none =>
      obtain ⟨number, hfresh, hsplice⟩ := splice_of_not_inserted hinserted filling
      rw [hsplice] at hfinal ⊢
      obtain ⟨more, harguments⟩ := hfinal
      refine .argument hread hown hfree hinserted
        (fun hdeclared => hfresh (hextends.declared_subset hdeclared)) ?_
      rw [← harguments, List.append_assoc, Fields.find?_append,
        Fields.find?_eq_none_iff.2 hfresh, Option.none_or]
      simp [Fields.find?]

/-- A placeholder that is out of reach is answered as it should be. -/
theorem becomes_answer {filling final : Filling} {inner : List Char} {placeholder : Placeholder}
    (hextends : filling.Extends around declared)
    (hfinal : (around.answer source path placeholder filling).2.arguments <+: final.arguments)
    (hafter : final.Extends around declared)
    (hread : Placeholder.ofHole? inner = some placeholder)
    (hclear : placeholder.name ∉ declared.keys → around.IsClear declared placeholder) :
    Becomes around source path declared final.arguments (.hole inner)
      (Pattern.replacement inner (around.answer source path placeholder filling).1) := by
  by_cases hown : placeholder.name ∈ declared.keys
  · have htaken := Fields.contains_iff_mem_keys.2 (hextends.declared_subset hown)
    simpa [answer, htaken, Pattern.replacement] using Becomes.bound hread hown
  · have hclear := hclear hown
    have hnot : Fields.contains placeholder.name filling.arguments = false := by
      rw [← Bool.not_eq_true, Fields.contains_iff_mem_keys]
      exact hextends.notMem_keys hown hclear.number
    have hleft : around.Leaves source path placeholder → Becomes around source path declared
        final.arguments (.hole inner) [.hole inner] :=
      fun hleaves => .left hread hleaves (hafter.notMem_keys hown hclear.number)
    obtain ⟨name, attr⟩ := placeholder
    cases hmeaning : around.meaning name with
    | exempt =>
        have hkept := hleft (Or.inl (meaning_eq_exempt_iff.1 hmeaning))
        simpa [answer, hnot, hmeaning, Pattern.replacement] using hkept
    | bound | missing =>
        have hkept := hleft (Or.inr (Or.inl (by rw [hmeaning]; rfl)))
        simpa [answer, hnot, hmeaning, Pattern.replacement] using hkept
    | free target =>
        cases attr with
        | none =>
            simp only [answer, hnot, hmeaning, Bool.false_eq_true, if_false] at hfinal ⊢
            exact becomes_splice hextends hfinal hafter hread hown hmeaning hclear
        | some attr =>
            cases hcheck : around.checkAttribute source target attr path with
            | error fault =>
                have hleaves : around.Leaves source path ⟨name, some attr⟩ :=
                  Or.inr (Or.inr ⟨target, attr, fault, hmeaning, rfl, hcheck⟩)
                simpa [answer, hnot, hmeaning, hcheck, Pattern.replacement] using hleft hleaves
            | ok =>
                have hrenamed : around.rename? ⟨name, some attr⟩ =
                    some (target.resourceName around.config) := by
                  simp [rename?, hmeaning]
                obtain ⟨hnew, hnumber⟩ := hclear.renamed _ hrenamed
                simpa [answer, hnot, hmeaning, hcheck, Pattern.replacement] using
                  Becomes.attributeOf hread hown hmeaning hcheck (hafter.notMem_keys hnew hnumber)

/-- The pieces of a pattern become what they should. -/
theorem becomes_filledPieces {pieces : List Piece} {filling final : Filling}
    (hextends : filling.Extends around declared)
    (hfinal : (Pattern.fillPieces (around.answer source path) pieces filling).2 = final)
    (hclear : ∀ inner placeholder, .hole inner ∈ pieces →
      Placeholder.ofHole? inner = some placeholder → placeholder.name ∉ declared.keys →
      around.IsClear declared placeholder) :
    ∃ parts : List (List Piece),
      Pattern.filledPieces (around.answer source path) pieces filling = parts.flatten ∧
      List.Forall₂ (around.Becomes source path declared final.arguments) pieces parts := by
  induction pieces generalizing filling with
  | nil => exact ⟨[], rfl, .nil⟩
  | cons piece rest ih =>
      have hrest := fun {later : Filling} (hlater : later.Extends around declared) hend =>
        ih hlater hend fun inner placeholder hmem =>
          hclear inner placeholder (List.mem_cons_of_mem _ hmem)
      cases piece with
      | char c =>
          obtain ⟨parts, hparts, hbecomes⟩ := hrest hextends hfinal
          exact ⟨_ :: parts, by simp [Pattern.filledPieces, hparts], .cons (.char c) hbecomes⟩
      | hole inner =>
          cases hread : Placeholder.ofHole? inner with
          | none =>
              simp only [Pattern.fillPieces, Pattern.filledPieces, hread] at hfinal ⊢
              obtain ⟨parts, hparts, hbecomes⟩ := hrest hextends hfinal
              exact ⟨_ :: parts, by simp [hparts], .cons (.escape hread) hbecomes⟩
          | some placeholder =>
              simp only [Pattern.fillPieces, Pattern.filledPieces, hread] at hfinal ⊢
              obtain ⟨parts, hparts, hbecomes⟩ := hrest (hextends.answer placeholder) hfinal
              have hgrows := Pattern.fillPieces_grows (growsTo_answer around source path) rest
                (around.answer source path placeholder filling).2
              obtain ⟨more, harguments, -⟩ := hgrows.arguments
              rw [hfinal] at harguments
              have hafter : final.Extends around declared := by
                rw [← hfinal]
                exact (hextends.answer placeholder).fillPieces rest
              have hpart := becomes_answer hextends ⟨more, harguments.symm⟩ hafter hread
                (hclear inner placeholder List.mem_cons_self hread)
              exact ⟨_ :: parts, by simp [hparts], .cons hpart hbecomes⟩

/-- A placeholder is only replaced with a note of it. -/
theorem answer_of_unchanged {placeholder : Placeholder} {filling : Filling}
    (h : (around.answer source path placeholder filling).2.changed = false) :
    (around.answer source path placeholder filling).1 = none := by
  have hanswered := answered around source path placeholder filling
  generalize (around.answer source path placeholder filling).1 = text at hanswered
  generalize (around.answer source path placeholder filling).2 = after at hanswered h
  cases hanswered <;> first | rfl | simp at h

/-- Where nothing was replaced, the pattern stays as it was written. -/
theorem fillPieces_of_unchanged {pieces : List Piece} {filling : Filling}
    (h : (Pattern.fillPieces (around.answer source path) pieces filling).2.changed = false) :
    (Pattern.fillPieces (around.answer source path) pieces filling).1 =
      pieces.flatMap Piece.render := by
  induction pieces generalizing filling with
  | nil => rfl
  | cons piece rest ih =>
      cases piece with
      | char c => simpa [Pattern.fillPieces, Piece.render] using ih h
      | hole inner =>
          cases hread : Placeholder.ofHole? inner with
          | none =>
              simp only [Pattern.fillPieces, hread] at h ⊢
              rw [ih h, List.flatMap_cons]
          | some placeholder =>
              simp only [Pattern.fillPieces, hread] at h ⊢
              have hgrows := Pattern.fillPieces_grows (growsTo_answer around source path) rest
                (around.answer source path placeholder filling).2
              have hbefore : (around.answer source path placeholder filling).2.changed = false :=
                eq_false_of_ne_true fun htrue => by simp [hgrows.changed htrue] at h
              rw [answer_of_unchanged hbefore, ih h, List.flatMap_cons]
              rfl

theorem eq_of_fill_of_unchanged {text : String} {filling final : Filling}
    (h : Pattern.fill (around.answer source path) pattern filling = (text, final))
    (hchanged : final.changed = false) : text = pattern := by
  obtain ⟨rfl, rfl⟩ := Prod.mk.inj h
  rw [fillPieces_of_unchanged hchanged]
  exact Pattern.render_pieces pattern

/-- What is put into a legible pattern is read there as it was written. -/
theorem pieces_fill_of_isLegible (hlegible : around.IsLegible pattern declared)
    {filling : Filling} (hstart : filling.arguments = declared) :
    Pattern.pieces (Pattern.fill (around.answer source path) pattern filling).1 =
      Pattern.filledPieces (around.answer source path) (Pattern.pieces pattern) filling := by
  have hfillers : ∀ filler ∈ Pattern.insertions (around.answer source path)
      (Pattern.pieces pattern) filling, Pattern.isClosed filler = true ∧
        (Pattern.isSpaced (Pattern.pieces pattern) = true ∨
          Pattern.isSolid filler.toList = true) := by
    intro filler hfiller
    obtain ⟨inner, placeholder, asked, hmem, hread, hgrows, htext⟩ :=
      Pattern.of_mem_insertions (growsTo_answer around source path) hfiller
    have hanswered := answered around source path placeholder asked
    rw [htext] at hanswered
    generalize (around.answer source path placeholder asked).2 = after at hanswered
    cases hanswered with
    | text hfree hreference hown =>
        refine hlegible placeholder (Pattern.mem_placeholders hmem hread) ?_ _ _ hfree hreference
        exact fun hdeclared => hown (hgrows.keys_subset (hstart ▸ hdeclared))
    | forward | argument | attributeOf =>
        exact ⟨Pattern.isClosed_text _, Or.inr (Pattern.isSolid_text _)⟩
  refine Pattern.pieces_fill (fun filler hmem => (hfillers filler hmem).1) ?_
  by_cases hspaced : Pattern.isSpaced (Pattern.pieces pattern) = true
  · exact Or.inl hspaced
  · exact Or.inr fun filler hmem => (hfillers filler hmem).2.resolve_left hspaced

/-- Where names are apart, a substitution captures nothing. -/
theorem avoidsCapture_of_isApart (hapart : around.IsApart pattern (arguments.getD [])) :
    ∃ text added,
      around.AvoidsCapture source path node pattern arguments outcome text added := by
  have hstart := Filling.extends_start around arguments outcome
  obtain ⟨text, filling, hfill, -, hresult⟩ :=
    substitution_cases around source path node pattern arguments outcome
  have hfinal : (Pattern.fillPieces (around.answer source path) (Pattern.pieces pattern)
      (.start arguments outcome)).2 = filling := congrArg Prod.snd hfill
  have htext : (Pattern.fill (around.answer source path) pattern (.start arguments outcome)).1 =
      text := congrArg Prod.fst hfill
  obtain ⟨added, harguments, hadded, hnodup⟩ : filling.Extends around (arguments.getD []) := by
    rw [← hfinal]
    exact hstart.fillPieces (Pattern.pieces pattern)
  obtain ⟨parts, hparts, hbecomes⟩ := becomes_filledPieces hstart hfinal
    fun inner placeholder hmem hread => hapart placeholder (Pattern.mem_placeholders hmem hread)
  refine ⟨text, added, ?result, ⟨parts, ?written, ?read, harguments ▸ hbecomes⟩, hadded, hnodup⟩
  case result =>
    rw [harguments] at hresult
    rcases hresult with ⟨hnil, hholes, hvalue⟩ | ⟨-, hvalue⟩ | ⟨hchanged, hvalue⟩
    · exact Or.inr (Or.inl ⟨hnil, hholes, hvalue⟩)
    · exact Or.inl hvalue
    · have hgrows := growsTo_fill around source path pattern (.start arguments outcome)
      rw [hfill] at hgrows
      have hsame : arguments.getD [] ++ added = arguments.getD [] :=
        harguments.symm.trans (hgrows.unchanged hchanged)
      have hkept : text = pattern := by
        rw [← htext, Pattern.fill, fillPieces_of_unchanged (hfinal ▸ hchanged)]
        exact Pattern.render_pieces pattern
      exact Or.inr (Or.inr ⟨hkept, by simpa using hsame, hvalue⟩)
  case written =>
    rw [← hparts, Pattern.render, Pattern.flatMap_render_filledPieces, ← htext, Pattern.fill]
  case read =>
    intro hlegible
    rw [← hparts, ← htext]
    exact pieces_fill_of_isLegible hlegible rfl

/-- A text, a list, a resource and a name that is still bound. -/
def fixture : Surroundings where
  config := {}
  catalog := .permissive
  free := [.value "X" (.string "abc"), .value "L" (.list [.string "a", .string "b"]),
    { fullName := "R", kind := .resource, reference := .ref "@R", typeName := "Queue" },
    .value "P1" (.string "one")]
  bound := ["B"]

/-- A pattern in which everything happens that can happen to a placeholder. -/
def variedPattern : String := "${X}${L}${R.Arn}${R}${B}${own}${!L}"

/-- A name that does not start with the marker is not that of an added argument. -/
theorem not_isSynthetic {config : Config} {name : String}
    (h : Text.startsWith config.syntheticMarker name = false) : ¬ config.IsSynthetic name := by
  rintro ⟨number, rfl⟩
  rw [← Bool.not_eq_true, Text.startsWith_iff, String.toList_append] at h
  exact h (List.prefix_append _ _)

theorem avoidsCapture_of_isApart_varied :
    fixture.IsApart variedPattern [("own", .string "o")] ∧
      ∃ text added, fixture.AvoidsCapture "E" ["E"] .null variedPattern
        (some [("own", .string "o")]) {} text added := by
  have hall : ∀ placeholder ∈ Pattern.placeholders variedPattern,
      Text.startsWith "P" placeholder.name = false ∧
        ∀ name ∈ fixture.rename? placeholder, name ≠ "own" ∧ Text.startsWith "P" name = false := by
    decide +kernel
  have hapart : fixture.IsApart variedPattern [("own", .string "o")] := by
    intro placeholder hmem hown
    obtain ⟨hnumber, hrenamed⟩ := hall placeholder hmem
    refine ⟨not_isSynthetic hnumber, fun name hname => ?_⟩
    obtain ⟨hnew, hsynthetic⟩ := hrenamed name hname
    exact ⟨by simpa [Fields.keys] using hnew, not_isSynthetic hsynthetic⟩
  exact ⟨hapart, avoidsCapture_of_isApart hapart⟩

/-! ## The conditions are needed -/

/-- The argument map of a rewritten substitution. -/
theorem AvoidsCapture.arguments_eq {text written : String} {added all : Fields Value}
    (h : around.AvoidsCapture source path .null pattern arguments outcome text added)
    (hresult : (around.substitution source path .null pattern arguments outcome).1 =
      .sub written all) (hall : all ≠ []) :
    text = written ∧ arguments.getD [] ++ added = all := by
  have hnot : all.isEmpty = false := by simpa using hall
  rcases h.result with heq | ⟨-, -, heq⟩ | ⟨-, -, heq⟩ <;> rw [hresult] at heq
  · cases hempty : (arguments.getD [] ++ added).isEmpty <;>
      simp [Value.sub, hnot, hempty, Value.string] at heq
    exact ⟨heq.1.symm, heq.2.symm⟩
  · simp [Value.sub, Value.string] at heq
  · simp [Value.sub] at heq

/-- A placeholder of no free entity stays, and only if no argument has its name. -/
theorem Becomes.notMem_of_isOpen {inner : List Char} {placeholder : Placeholder}
    {all : Fields Value} {part : List Piece}
    (h : Becomes around source path declared all (.hole inner) part)
    (hread : Placeholder.ofHole? inner = some placeholder)
    (hopen : (around.meaning placeholder.name).isOpen = true)
    (hown : placeholder.name ∉ declared.keys) : placeholder.name ∉ all.keys := by
  have hnot : ∀ {target : Entity}, around.meaning placeholder.name ≠ .free target := by
    intro target hfree
    simp [hfree, Meaning.isOpen] at hopen
  cases h with
  | escape hnone => simp [hread] at hnone
  | bound hother hdeclared =>
      obtain rfl := Option.some.inj (hread.symm.trans hother)
      exact absurd hdeclared hown
  | left hother _ hclear =>
      obtain rfl := Option.some.inj (hread.symm.trans hother)
      exact hclear
  | text hother _ hfree | forward hother _ hfree | argument hother _ hfree
  | attributeOf hother _ hfree =>
      obtain rfl := Option.some.inj (hread.symm.trans hother)
      exact absurd hfree hnot

/-- A placeholder of a free entity receives the text of its value, or a placeholder whose name is
that of no argument, unless the value is an argument. -/
theorem Becomes.of_free {inner : List Char} {name : String} {target : Entity} {all : Fields Value}
    {part : List Piece} (h : Becomes around source path declared all (.hole inner) part)
    (hread : Placeholder.ofHole? inner = some ⟨name, none⟩)
    (hfree : around.meaning name = .free target) (hown : name ∉ declared.keys) :
    (∃ s, target.reference = .scalar s ∧ part = Pattern.pieces s.text) ∨
      (∃ form next, Form.recognize? target.reference = .ok (some form) ∧
        form.placeholder? = some next ∧ next.name ∉ all.keys) ∨
      target.reference.inserted? = none := by
  have hname : ∀ {other : Placeholder}, Placeholder.ofHole? inner = some other →
      other = ⟨name, none⟩ := fun hother => Option.some.inj (hother.symm.trans hread)
  have htarget : ∀ {found : Entity}, around.meaning name = .free found → found = target :=
    fun hfound => Meaning.free.inj (hfound.symm.trans hfree)
  cases h with
  | escape hnone => simp [hread] at hnone
  | bound hother hdeclared =>
      obtain rfl := hname hother
      exact absurd hdeclared hown
  | left hother hleaves =>
      obtain rfl := hname hother
      rcases hleaves with hexempt | hopen | ⟨_, _, _, _, hattr, _⟩
      · simp [meaning_eq_exempt_iff.2 hexempt] at hfree
      · simp [hfree, Meaning.isOpen] at hopen
      · simp at hattr
  | text hother _ hfound hreference =>
      obtain ⟨rfl, -⟩ := Placeholder.mk.inj (hname hother)
      exact Or.inl ⟨_, htarget hfound ▸ hreference, rfl⟩
  | forward hother _ hfound hform hnext hclear =>
      obtain ⟨rfl, -⟩ := Placeholder.mk.inj (hname hother)
      exact Or.inr (Or.inl ⟨_, _, htarget hfound ▸ hform, hnext, hclear⟩)
  | argument hother _ hfound hnone =>
      obtain ⟨rfl, -⟩ := Placeholder.mk.inj (hname hother)
      exact Or.inr (Or.inr (htarget hfound ▸ hnone))
  | attributeOf hother =>
      obtain ⟨-, hattr⟩ := Placeholder.mk.inj (hname hother)
      simp at hattr

/-- Patterns that capture a placeholder: one of no entity, one of an entity, and one that is written
for a resource. -/
theorem captures_placeholders :
    (¬ ∃ text added, fixture.AvoidsCapture "E" ["E"] .null "${L}${P0}" none {} text added) ∧
      (¬ ∃ text added, fixture.AvoidsCapture "E" ["E"] .null "${L}${L}${P1}" none {} text added) ∧
      (¬ ∃ text added, fixture.AvoidsCapture "E" ["E"] .null "${R}"
        (some [("@R", .string "o")]) {} text added) := by
  refine ⟨?missing, ?entity, ?resource⟩
  case missing =>
    rintro ⟨text, added, h⟩
    have hpieces : Pattern.pieces "${L}${P0}" = [.hole ['L'], .hole ['P', '0']] := by decide
    have hread : Placeholder.ofHole? ['P', '0'] = some ⟨"P0", none⟩ := by decide
    have hresult : (fixture.substitution "E" ["E"] .null "${L}${P0}" none {}).1 =
        .sub "${P0}${P0}" [("P0", .list [.string "a", .string "b"])] := by decide +kernel
    obtain ⟨-, hall⟩ := h.arguments_eq hresult (by simp)
    obtain ⟨parts, -, -, hbecomes⟩ := h.parts
    rw [hpieces, hall] at hbecomes
    obtain _ | ⟨-, _ | ⟨hpart, -⟩⟩ := hbecomes
    exact hpart.notMem_of_isOpen hread (by decide +kernel) (by simp [Fields.keys])
      (by simp [Fields.keys])
  case entity =>
    rintro ⟨text, added, h⟩
    have hpieces : Pattern.pieces "${L}${L}${P1}" =
        [.hole ['L'], .hole ['L'], .hole ['P', '1']] := by decide
    have hread : Placeholder.ofHole? ['P', '1'] = some ⟨"P1", none⟩ := by decide
    have hresult : (fixture.substitution "E" ["E"] .null "${L}${L}${P1}" none {}).1 =
        .sub "${P0}${P1}${P1}" [("P0", .list [.string "a", .string "b"]),
          ("P1", .list [.string "a", .string "b"])] := by decide +kernel
    obtain ⟨rfl, -⟩ := h.arguments_eq hresult (by simp)
    obtain ⟨parts, htext, -, hbecomes⟩ := h.parts
    rw [hpieces] at hbecomes
    obtain _ | ⟨-, _ | ⟨-, _ | ⟨hpart, _ | _⟩⟩⟩ := hbecomes
    have hfree : fixture.meaning "P1" = .free (.value "P1" (.string "one")) := rfl
    -- The text of the entity would be the end of the pattern.
    have hlast := congrArg (fun text => text.toList.getLast?) htext
    rcases hpart.of_free hread hfree (by simp [Fields.keys]) with ⟨s, hs, rfl⟩ | h | h
    · obtain rfl : Scalar.string "one" = s := Value.scalar.inj hs
      simp [Scalar.text, Pattern.render, Pattern.pieces, Pattern.flatMap_render_pieces] at hlast
    · obtain ⟨form, next, hform, -⟩ := h
      simp [Entity.value, Value.string, Form.recognize?] at hform
    · simp [Entity.value, Value.string] at h
  case resource =>
    rintro ⟨text, added, h⟩
    have hpieces : Pattern.pieces "${R}" = [.hole ['R']] := by decide
    have hread : Placeholder.ofHole? ['R'] = some ⟨"R", none⟩ := by decide
    have hresult : (fixture.substitution "E" ["E"] .null "${R}" (some [("@R", .string "o")])
        {}).1 = .sub "${@R}" [("@R", .string "o")] := by decide +kernel
    obtain ⟨-, hall⟩ := h.arguments_eq hresult (by simp)
    obtain ⟨parts, -, -, hbecomes⟩ := h.parts
    rw [hpieces, hall] at hbecomes
    obtain _ | ⟨hpart, _ | _⟩ := hbecomes
    obtain ⟨target, hfree, htarget⟩ : ∃ target, fixture.meaning "R" = .free target ∧
        target.reference = .ref "@R" := ⟨_, rfl, rfl⟩
    rcases hpart.of_free hread hfree (by simp [Fields.keys]) with ⟨s, hs, -⟩ | h | h
    · simp [htarget, Value.ref] at hs
    · obtain ⟨form, next, hform, hnext, hclear⟩ := h
      rw [htarget, Form.recognize?_ref] at hform
      obtain rfl := Option.some.inj (Except.ok.inj hform)
      obtain rfl := Option.some.inj hnext
      simp [Fields.keys] at hclear
    · rw [htarget] at h
      exact absurd h (by decide)

end Surroundings

end StackLinker
