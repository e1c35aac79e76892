import StackLinker.Proofs.Dependency.Uses
import StackLinker.Proofs.Pattern.Replacing
import StackLinker.Proofs.Substitution.Granting

/-!
# Texts in the place of placeholders

A pattern whose placeholders ask for nothing but scalars becomes the text in which each placeholder
has given way to the text of its target.  `fillPieces_literal` computes the filled pattern together
with everything that the pass notes, and `apply_of_scalars` says what comes into the place of the
substitution.

The text is scanned once more to find out whether it is a pattern still.  Nothing marks the parts
that were put in, so a text that has a hole in it, or that makes one with what stands around it, is
taken for a pattern (`reads_spliced_text`).  This cannot happen if the texts are without holes and
can be followed by anything, and either no hole stands behind a literal dollar sign or no text is
empty or starts with a brace.
-/

namespace StackLinker

namespace Pattern

/-- The names that the holes among pieces ask for. -/
def wanted (pieces : List Piece) : List String :=
  pieces.filterMap fun
    | .char _ => none
    | .hole inner => (Placeholder.ofHole? inner).map (·.name)

theorem names_eq_wanted (pattern : String) : names pattern = wanted (pieces pattern) := rfl

@[simp] theorem wanted_nil : wanted [] = [] := rfl

@[simp] theorem wanted_char (c : Char) (rest : List Piece) :
    wanted (.char c :: rest) = wanted rest := rfl

theorem wanted_hole {inner : List Char} {placeholder : Placeholder}
    (h : Placeholder.ofHole? inner = some placeholder) (rest : List Piece) :
    wanted (.hole inner :: rest) = placeholder.name :: wanted rest := by
  simp [wanted, h]

end Pattern

namespace Surroundings

open Pattern (fillPieces wanted)

variable {around : Surroundings} {source name text pattern : String} {path : Path} {node : Value}
  {arguments : Option (Fields Value)} {filling : Filling} {pieces : List Piece} {notes : Outcome}

/-! ## Placeholders for scalars -/

/-- The text of the free entity with a name, if its value is a scalar. -/
def literal? (around : Surroundings) (name : String) : Option String :=
  match around.meaning name with
  | .free target =>
    match target.reference with
    | .scalar s => some s.text
    | _ => none
  | _ => none

theorem literal?_eq_some_iff : around.literal? name = some text ↔
    ∃ target s, around.meaning name = .free target ∧ target.reference = .scalar s ∧
      s.text = text := by
  unfold literal?
  cases around.meaning name with
  | free target => cases hreference : target.reference <;> simp [hreference]
  | _ => simp

theorem literal?_of_bound (h : around.meaning name = .bound) : around.literal? name = none := by
  simp [literal?, h]

/-- A text comes into the place of a placeholder for a scalar. -/
theorem answer_of_literal (hnone : filling.arguments = []) (h : around.literal? name = some text) :
    around.answer source path ⟨name, none⟩ filling = (some text, { filling with changed := true }) := by
  obtain ⟨target, s, hmeaning, hreference, rfl⟩ := literal?_eq_some_iff.1 h
  have hgrant : around.grant? ⟨name, none⟩ = some (.scalar s) := by
    simp [grant?, hmeaning, hreference]
  rw [answer_of_grant (by simp [hnone, Fields.keys]) hgrant]
  rfl

/-- A placeholder for a bound entity stays and is noted. -/
theorem answer_of_bound (hnone : filling.arguments = []) (h : around.meaning name = .bound) :
    around.answer source path ⟨name, none⟩ filling =
      (none, { filling with outcome := filling.outcome.leave .bound name path }) := by
  have hopen : (around.meaning (Placeholder.mk name none).name).isOpen = true := by
    rw [h]
    rfl
  rw [answer_of_denied (by simp [hnone, Fields.keys]) (grant?_of_isOpen hopen)]
  simp [note, h]

/-! ## Patterns of scalars -/

/-- Whether the holes among pieces ask for nothing but scalars, some of which may be bound. -/
def AsksForScalars (around : Surroundings) (pieces : List Piece) : Prop :=
  ∀ inner, .hole inner ∈ pieces → ∃ name, Placeholder.ofHole? inner = some ⟨name, none⟩ ∧
    ((∃ text, around.literal? name = some text) ∨ around.meaning name = .bound)

/-- The notes for the names that have to wait. -/
def awaited (around : Surroundings) (path : Path) (pieces : List Piece) : List Unresolved :=
  ((wanted pieces).filter fun name => (around.literal? name).isNone).map fun name => ⟨name, path⟩

theorem awaited_eq_nil_iff : around.awaited path (Pattern.pieces pattern) = [] ↔
    ∀ name ∈ Pattern.names pattern, (around.literal? name).isSome = true := by
  simp [awaited, Pattern.names_eq_wanted, Option.isSome_iff_ne_none]

/-- The text of a pattern in which the placeholders of scalars have given way to their texts. -/
def literal (around : Surroundings) (pattern : String) : String :=
  Pattern.replace (fun placeholder => around.literal? placeholder.name) pattern

/-- Filling a pattern of scalars puts their texts in and notes the names that have to wait. -/
theorem fillPieces_literal (hpieces : around.AsksForScalars pieces)
    (hnone : filling.arguments = []) :
    fillPieces (around.answer source path) pieces filling =
      ((fillPieces (fun placeholder (_ : Unit) => (around.literal? placeholder.name, ())) pieces
          ()).1,
        { filling with
          changed := filling.changed || (wanted pieces).any fun name => (around.literal? name).isSome
          outcome := { filling.outcome with
            bound := filling.outcome.bound ++ around.awaited path pieces } }) := by
  induction pieces generalizing filling with
  | nil => simp [fillPieces, awaited]
  | cons piece rest ih =>
      have hrest := fun {filling} => @ih filling fun inner hmem =>
        hpieces inner (List.mem_cons_of_mem _ hmem)
      cases piece with
      | char c => simp [fillPieces, hrest hnone, awaited]
      | hole inner =>
          obtain ⟨name, hread, ⟨text, htext⟩ | hbound⟩ := hpieces inner List.mem_cons_self
          · simp [fillPieces, hread, answer_of_literal hnone htext, htext, hrest, hnone, awaited,
              Pattern.wanted_hole hread]
          · simp [fillPieces, hread, answer_of_bound hnone hbound, literal?_of_bound hbound, hrest,
              hnone, awaited, Pattern.wanted_hole hread, Outcome.leave]

/-- What comes into the place of a substitution whose pattern asks for nothing but scalars. -/
def literalValue (around : Surroundings) (pattern : String) (arguments : Option (Fields Value)) :
    Value :=
  if Pattern.hasHoles (around.literal pattern) then
    if (Pattern.names pattern).any fun name => (around.literal? name).isSome then
      .sub (around.literal pattern) []
    else .template pattern arguments
  else .string (around.literal pattern)

/-- Without an argument map the new pattern comes into the place, whether or not it has changed. -/
theorem literalValue_none (around : Surroundings) (pattern : String) :
    around.literalValue pattern none =
      if Pattern.hasHoles (around.literal pattern) then .sub (around.literal pattern) []
      else .string (around.literal pattern) := by
  unfold literalValue
  by_cases hany : (Pattern.names pattern).any (fun name => (around.literal? name).isSome) = true
  · rw [if_pos hany]
  · have hself : around.literal pattern = pattern := by
      refine Pattern.replace_eq_self fun inner placeholder hhole hread => ?_
      simp only [List.any_eq_true, not_exists, not_and, Option.not_isSome_iff_eq_none] at hany
      exact hany _ (Pattern.mem_names.2 ⟨inner, placeholder, hhole, hread, rfl⟩)
    rw [if_neg hany, hself]
    rfl

theorem substitution_literal (hpieces : around.AsksForScalars (Pattern.pieces pattern))
    (harguments : arguments.getD [] = []) :
    around.substitution source path (.template pattern arguments) pattern arguments notes =
      (around.literalValue pattern arguments,
        { notes with bound := notes.bound ++ around.awaited path (Pattern.pieces pattern) }) := by
  have hfill : Pattern.fill (around.answer source path) pattern (.start arguments notes) =
      (around.literal pattern,
        { Filling.start arguments notes with
          changed := (Pattern.names pattern).any fun name => (around.literal? name).isSome
          outcome := { notes with
            bound := notes.bound ++ around.awaited path (Pattern.pieces pattern) } }) := by
    rw [Pattern.fill, fillPieces_literal hpieces harguments]
    rfl
  rw [substitution_eq hfill]
  unfold Filling.result literalValue
  cases Pattern.hasHoles (around.literal pattern) <;> simp [Filling.start, harguments]

/-- One pass over a substitution whose pattern asks for nothing but scalars. -/
theorem apply_literal (hpieces : around.AsksForScalars (Pattern.pieces pattern))
    (harguments : arguments.getD [] = []) (source : String) :
    around.apply source (.template pattern arguments) =
      .ok (around.literalValue pattern arguments,
        { bound := around.awaited [source] (Pattern.pieces pattern) }) := by
  have hsame : (arguments.map fun _ => []) = arguments := by
    cases arguments with
    | none => rfl
    | some declared => exact congrArg some harguments.symm
  refine apply_eq_ok_iff.2 ((Value.rewrites_template_iff (by rw [harguments]; rfl)).2
    ⟨[], {}, by rw [harguments]; exact .nil _, ?_⟩)
  rw [hsame, settle, substitution_literal hpieces harguments]
  rfl

/-! ## Patterns of free scalars -/

/-- Whether every hole of a pattern is a placeholder for a free entity with a scalar value. -/
def AsksForFreeScalars (around : Surroundings) (pattern : String) : Prop :=
  ∀ inner, .hole inner ∈ Pattern.pieces pattern → ∃ name target s,
    Placeholder.ofHole? inner = some ⟨name, none⟩ ∧ around.config.isExempt name = false ∧
      Entity.find? name around.free = some target ∧ target.reference = .scalar s

theorem AsksForFreeScalars.exists_literal (h : around.AsksForFreeScalars pattern)
    {inner : List Char} (hmem : .hole inner ∈ Pattern.pieces pattern) :
    ∃ name text, Placeholder.ofHole? inner = some ⟨name, none⟩ ∧
      around.literal? name = some text := by
  obtain ⟨name, target, s, hread, hexempt, hfind, hreference⟩ := h inner hmem
  exact ⟨name, s.text, hread, literal?_eq_some_iff.2
    ⟨target, s, meaning_eq_free_iff.2 ⟨hexempt, hfind⟩, hreference, rfl⟩⟩

theorem AsksForFreeScalars.asksForScalars (h : around.AsksForFreeScalars pattern) :
    around.AsksForScalars (Pattern.pieces pattern) := by
  intro inner hmem
  obtain ⟨name, text, hread, htext⟩ := h.exists_literal hmem
  exact ⟨name, hread, Or.inl ⟨text, htext⟩⟩

theorem AsksForFreeScalars.isSome_literal? (h : around.AsksForFreeScalars pattern)
    (hname : name ∈ Pattern.names pattern) : (around.literal? name).isSome = true := by
  obtain ⟨inner, placeholder, hmem, hread, rfl⟩ := Pattern.mem_names.1 hname
  obtain ⟨name, text, hread', htext⟩ := h.exists_literal hmem
  obtain rfl := Option.some.inj (hread.symm.trans hread')
  rw [htext]
  rfl

/-- A text without holes, that can be followed by anything, makes no hole in a pattern. -/
theorem hasHoles_literal (h : around.AsksForFreeScalars pattern)
    (htexts : ∀ name ∈ Pattern.names pattern, ∀ text, around.literal? name = some text →
      Pattern.isClosed text = true ∧ Pattern.hasHoles text = false)
    (hjoin : Pattern.isSpaced (Pattern.pieces pattern) = true ∨
      ∀ name ∈ Pattern.names pattern, ∀ text, around.literal? name = some text →
        Pattern.isSolid text.toList = true) :
    Pattern.hasHoles (around.literal pattern) = false := by
  have hname : ∀ {inner : List Char} {placeholder : Placeholder},
      .hole inner ∈ Pattern.pieces pattern → Placeholder.ofHole? inner = some placeholder →
        placeholder.name ∈ Pattern.names pattern := fun hhole hread =>
    Pattern.mem_names.2 ⟨_, _, hhole, hread, rfl⟩
  have haccepts : Pattern.Accepts (fun placeholder => around.literal? placeholder.name) pattern :=
    Pattern.accepts_of_isClosed
      (fun _ _ text hhole hread htext => htexts _ (hname hhole hread) text htext)
      (hjoin.imp_right fun hsolid _ _ text hhole hread htext =>
        hsolid _ (hname hhole hread) text htext)
  refine haccepts.hasHoles_replace fun inner hhole => ?_
  obtain ⟨name, text, hread, htext⟩ := h.exists_literal hhole
  exact ⟨⟨name, none⟩, text, hread, htext⟩

/-- Where every placeholder gives way, what comes out is the text, or a pattern again. -/
theorem literalValue_of_free_scalars (h : around.AsksForFreeScalars pattern)
    (arguments : Option (Fields Value)) :
    around.literalValue pattern arguments =
      if Pattern.hasHoles (around.literal pattern) then .sub (around.literal pattern) []
      else .string (around.literal pattern) := by
  unfold literalValue
  by_cases hholes : Pattern.hasHoles (around.literal pattern) = true
  · -- A pattern in which nothing gives way has no holes, and stays as it is.
    have hpattern : Pattern.hasHoles pattern = true := by
      by_contra hnone
      have hself : around.literal pattern = pattern :=
        Pattern.replace_eq_self fun inner _ hhole =>
          absurd hhole (Pattern.hole_notMem_of_hasHoles (by simpa using hnone) inner)
      exact hnone (hself ▸ hholes)
    obtain ⟨piece, hpiece, hhole⟩ := List.any_eq_true.1 hpattern
    cases piece with
    | char c => simp [Piece.isHole] at hhole
    | hole inner =>
        obtain ⟨name, text, hread, htext⟩ := h.exists_literal hpiece
        have hany : (Pattern.names pattern).any (fun name => (around.literal? name).isSome) = true :=
          List.any_eq_true.2 ⟨name, Pattern.mem_names.2 ⟨inner, _, hpiece, hread, rfl⟩, by
            rw [htext]
            rfl⟩
        rw [if_pos hany]
  · rw [if_neg hholes, if_neg hholes]

/-- What a pass makes of a substitution without arguments whose placeholders are for free scalars.
It is the text in which each placeholder has given way to the text of its target, unless this text
has holes, and it is so without holes if the texts have none, can be followed by anything, and meet
no dollar sign in front of them. -/
theorem apply_of_free_scalars (around : Surroundings) (source pattern : String)
    (arguments : Option (Fields Value)) (harguments : arguments.getD [] = [])
    (h : around.AsksForFreeScalars pattern) :
    around.apply source (.template pattern arguments) =
        .ok (if Pattern.hasHoles (around.literal pattern) then .sub (around.literal pattern) []
          else .string (around.literal pattern), {}) ∧
      ((∀ name ∈ Pattern.names pattern, ∀ text, around.literal? name = some text →
          Pattern.isClosed text = true ∧ Pattern.hasHoles text = false) →
        (Pattern.isSpaced (Pattern.pieces pattern) = true ∨
          ∀ name ∈ Pattern.names pattern, ∀ text, around.literal? name = some text →
            Pattern.isSolid text.toList = true) →
        around.apply source (.template pattern arguments) =
          .ok (.string (around.literal pattern), {})) := by
  -- Nothing has to wait.
  have hawaited : around.awaited [source] (Pattern.pieces pattern) = [] :=
    awaited_eq_nil_iff.2 fun name => h.isSome_literal?
  have happly := apply_literal h.asksForScalars harguments source
  rw [hawaited, literalValue_of_free_scalars h] at happly
  refine ⟨happly, fun htexts hjoin => ?_⟩
  rw [happly, hasHoles_literal h htexts hjoin]
  rfl

/-! ## Texts that are read again -/

/-- Free texts: an ordinary one, a number, one with a hole, one that ends in an opening, and one that
starts with a brace. -/
def texts : Surroundings where
  config := {}
  catalog := .permissive
  free := [
    .value "T" (.string "a\x7d"), .value "N" (.scalar (.number (.int 5))),
    .value "Hole" (.string "${x}"), .value "Open" (.string "t$\x7b"),
    .value "Brace" (.string "\x7bx\x7d")]
  bound := []

theorem asksForFreeScalars_of_names (names : List String)
    (hpieces : ∀ piece ∈ Pattern.pieces pattern, piece.isHole = true →
      ∃ name ∈ names, piece = .hole name.toList)
    (hnames : ∀ name ∈ names, Placeholder.ofHole? name.toList = some ⟨name, none⟩ ∧
      (around.literal? name).isSome = true) : around.AsksForFreeScalars pattern := by
  intro inner hmem
  obtain ⟨name, hname, heq⟩ := hpieces _ hmem rfl
  obtain ⟨hread, hsome⟩ := hnames name hname
  obtain ⟨text, htext⟩ := Option.isSome_iff_exists.1 hsome
  obtain ⟨target, s, hmeaning, hreference, -⟩ := literal?_eq_some_iff.1 htext
  obtain ⟨hexempt, hfind⟩ := meaning_eq_free_iff.1 hmeaning
  exact ⟨name, target, s, Piece.hole.inj heq ▸ hread, hexempt, hfind, hreference⟩

theorem apply_of_free_scalars_texts :
    (none : Option (Fields Value)).getD [] = [] ∧ texts.AsksForFreeScalars "<${T}-$${N}${T}>" ∧
      texts.literal "<${T}-$${N}${T}>" = "<a\x7d-$5a\x7d>" ∧
      texts.apply "Y" (.template "<${T}-$${N}${T}>" none) = .ok (.string "<a\x7d-$5a\x7d>", {}) := by
  have hasks : texts.AsksForFreeScalars "<${T}-$${N}${T}>" :=
    asksForFreeScalars_of_names ["T", "N"] (by decide +kernel) (by decide +kernel)
  have hliteral : texts.literal "<${T}-$${N}${T}>" = "<a\x7d-$5a\x7d>" := by decide +kernel
  have hcheck : ∀ name ∈ Pattern.names "<${T}-$${N}${T}>", (texts.literal? name).all (fun text =>
      Pattern.isClosed text && !Pattern.hasHoles text && Pattern.isSolid text.toList) = true := by
    decide +kernel
  simp only [Option.all_eq_true, Bool.and_eq_true, Bool.not_eq_true'] at hcheck
  have happly := (apply_of_free_scalars texts "Y" "<${T}-$${N}${T}>" none rfl hasks).2
    (fun name hname text htext => (hcheck name hname text htext).1)
    (Or.inr fun name hname text htext => (hcheck name hname text htext).2)
  exact ⟨rfl, hasks, hliteral, hliteral ▸ happly⟩

/-- A text that was put in is read as a part of the pattern, if it has a hole, if its opening is
closed by what follows, or if it starts with a brace behind a dollar sign.  No text comes out, and
the next pass looks for an entity that no one has asked for. -/
theorem reads_spliced_text :
    texts.AsksForFreeScalars "${Hole}" ∧ texts.literal "${Hole}" = "${x}" ∧
      texts.apply "Y" (.template "${Hole}" none) = .ok (.sub "${x}" [], {}) ∧
      texts.AsksForFreeScalars "${Open}x\x7d" ∧ texts.literal "${Open}x\x7d" = "t${x}" ∧
      texts.apply "Y" (.template "${Open}x\x7d" none) = .ok (.sub "t${x}" [], {}) ∧
      texts.AsksForFreeScalars "$${Brace}" ∧ texts.literal "$${Brace}" = "${x}" ∧
      texts.apply "Y" (.template "$${Brace}" none) = .ok (.sub "${x}" [], {}) ∧
      texts.apply "Y" (.sub "${x}" []) =
        .ok (.sub "${x}" [], { missing := [⟨"x", ["Y"]⟩] }) := by
  refine ⟨asksForFreeScalars_of_names ["Hole"] ?_ ?_, ?_, ?_,
    asksForFreeScalars_of_names ["Open"] ?_ ?_, ?_, ?_,
    asksForFreeScalars_of_names ["Brace"] ?_ ?_, ?_, ?_, ?_⟩ <;> decide +kernel

end Surroundings

end StackLinker
