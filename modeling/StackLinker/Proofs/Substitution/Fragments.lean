import StackLinker.Proofs.Substitution.Alike
import StackLinker.Proofs.Substitution.Repeating

/-!
# What stands in a filled pattern

A pass puts texts into a pattern, and written placeholders for the arguments that it adds.  Under
which names it adds them depends on what happened before, but what they stand for does not: every
piece of the pattern comes to the same fragments (`Surroundings.fragments`), which are pieces again
or values in the places of added arguments.  `Writes` relates fragments to the pieces and the added
arguments that they are written with.

* Filling writes the fragments of the pieces (`exists_writes_fillPieces`).
* Filling a pattern again refines its fragments (`exists_writes_refine`), and the fragments of an
  earlier filling are refined to those of a later one (`flatMap_refine_fragments`).
* The same fragments may be written under different names, but the results are alike
  (`Writes.alike`).
-/

namespace StackLinker

/-- What a configuration needs for added arguments to be found again in patterns: their names are
neither exempt nor read as escapes. -/
structure Config.HasUsableNumbers (config : Config) : Prop where
  exempt : ∀ name, config.IsSynthetic name → config.isExempt name = false
  escape : ∀ name, config.IsSynthetic name → name.toList.head? ≠ some '!'

/-- It is enough that no marker of exempt names starts like the names of added arguments. -/
theorem Config.hasUsableNumbers_of_head {config : Config} {c : Char}
    (hhead : config.syntheticMarker.toList.head? = some c) (hescape : c ≠ '!')
    (hmarkers : ∀ marker ∈ config.preserveMarker :: config.intrinsicMarkers,
      marker.toList.head? ≠ some c) : config.HasUsableNumbers := by
  have hstarts : ∀ name, config.IsSynthetic name → name.toList.head? = some c := by
    rintro name ⟨number, rfl⟩
    rw [String.toList_append, List.head?_append, hhead, Option.some_or]
  refine ⟨fun name hname => ?_, fun name hname hbang => ?_⟩
  · rw [← Bool.not_eq_true, Config.isExempt_iff]
    rintro ⟨marker, hne, hmarker, rest, hrest⟩
    refine hmarkers marker (List.mem_cons.2 hmarker.symm) ?_
    have hsome := hstarts name hname
    rw [← hrest, List.head?_append] at hsome
    cases htext : marker.toList with
    | nil => exact absurd (String.toList_eq_nil_iff.1 htext) hne
    | cons d more => simpa [htext] using hsome
  · exact hescape (Option.some.inj ((hstarts name hname).symm.trans hbang))

/-- A part of a filled pattern: a piece, or a value in the place of an added argument. -/
inductive Fragment where
  | piece (piece : Piece)
  | value (value : Value)

/-- Pieces that fragments are written with, and the arguments that are added for their values. -/
inductive Writes : List Fragment → List Piece → Fields Value → Prop
  | nil : Writes [] [] []
  | piece {piece : Piece} {fragments : List Fragment} {pieces : List Piece} {added : Fields Value}
      (h : Writes fragments pieces added) :
      Writes (.piece piece :: fragments) (piece :: pieces) added
  | value {hole : List Char} {argument : String × Value} {fragments : List Fragment}
      {pieces : List Piece} {added : Fields Value}
      (hread : Placeholder.ofHole? hole = some ⟨argument.1, none⟩)
      (h : Writes fragments pieces added) :
      Writes (.value argument.2 :: fragments) (.hole hole :: pieces) (argument :: added)

namespace Writes

variable {fragments more : List Fragment} {pieces others : List Piece} {added extra : Fields Value}

theorem append (h : Writes fragments pieces added) (hmore : Writes more others extra) :
    Writes (fragments ++ more) (pieces ++ others) (added ++ extra) := by
  induction h with
  | nil => exact hmore
  | piece _ ih => exact .piece ih
  | value hread _ ih => exact .value hread ih

/-- Fragments one after the other are written with pieces one after the other. -/
theorem exists_of_append (h : Writes (fragments ++ more) pieces added) :
    ∃ front back first second, pieces = front ++ back ∧ added = first ++ second ∧
      Writes fragments front first ∧ Writes more back second := by
  induction fragments generalizing pieces added with
  | nil => exact ⟨[], pieces, [], added, rfl, rfl, .nil, h⟩
  | cons fragment fragments ih =>
      cases h with
      | piece h =>
          obtain ⟨front, back, first, second, rfl, rfl, hfront, hback⟩ := ih h
          exact ⟨_ :: front, back, first, second, rfl, rfl, .piece hfront, hback⟩
      | value hread h =>
          obtain ⟨front, back, first, second, rfl, rfl, hfront, hback⟩ := ih h
          exact ⟨_ :: front, back, _ :: first, second, rfl, rfl, .value hread hfront, hback⟩

/-- Pieces are written as they are. -/
theorem of_pieces (pieces : List Piece) : Writes (pieces.map .piece) pieces [] := by
  induction pieces with
  | nil => exact .nil
  | cons piece pieces ih => exact .piece ih

/-- Where no argument was added, there are only pieces. -/
theorem eq_of_nil (h : Writes fragments pieces []) : fragments = pieces.map .piece := by
  generalize hadded : ([] : Fields Value) = added at h
  induction h with
  | nil => rfl
  | piece _ ih => rw [ih hadded, List.map_cons]
  | value => simp at hadded

end Writes

namespace Surroundings

variable {around earlier later : Surroundings} {splicing : Splicing} {source : String} {path : Path}
  {keys : List String} {declared added : Fields Value} {filling : Filling} {hole : List Char}
  {placeholder : Placeholder} {piece : Piece} {pieces : List Piece} {pattern : String}

/-! ## The fragments of a piece -/

/-- What is granted to a piece, unless an argument binds it. -/
def granted? (around : Surroundings) (keys : List String) : Piece → Option Value
  | .char _ => none
  | .hole hole =>
    (Placeholder.ofHole? hole).bind fun placeholder =>
      if placeholder.name ∈ keys then none else around.grant? placeholder

/-- The fragments that a piece comes to in a pattern with arguments of the given names. -/
def fragments (around : Surroundings) (keys : List String) (piece : Piece) : List Fragment :=
  match around.granted? keys piece with
  | none => [.piece piece]
  | some granted =>
    match granted.inserted? with
    | some text => (Pattern.pieces text).map .piece
    | none => [.value granted]

/-- The fragments that a fragment comes to in a later pass. -/
def refine (around : Surroundings) (keys : List String) : Fragment → List Fragment
  | .piece piece => around.fragments keys piece
  | .value value => [.value value]

/-- Whether something is put into the place of a fragment in a later pass. -/
def refines (around : Surroundings) (keys : List String) : Fragment → Bool
  | .piece piece => (around.granted? keys piece).isSome
  | .value _ => false

@[simp] theorem granted?_char (around : Surroundings) (keys : List String) (c : Char) :
    around.granted? keys (.char c) = none := rfl

theorem granted?_of_escape (hread : Placeholder.ofHole? hole = none) :
    around.granted? keys (.hole hole) = none := by
  simp [granted?, hread]

theorem granted?_of_mem (hread : Placeholder.ofHole? hole = some placeholder)
    (hown : placeholder.name ∈ keys) : around.granted? keys (.hole hole) = none := by
  simp [granted?, hread, hown]

theorem granted?_of_notMem (hread : Placeholder.ofHole? hole = some placeholder)
    (hown : placeholder.name ∉ keys) :
    around.granted? keys (.hole hole) = around.grant? placeholder := by
  simp [granted?, hread, hown]

theorem granted?_eq_some {granted : Value} (h : around.granted? keys piece = some granted) :
    ∃ hole placeholder, piece = .hole hole ∧ Placeholder.ofHole? hole = some placeholder ∧
      placeholder.name ∉ keys ∧ around.grant? placeholder = some granted := by
  cases piece with
  | char c => simp at h
  | hole hole =>
      obtain ⟨placeholder, hread, hgrant⟩ := Option.bind_eq_some_iff.1 h
      split at hgrant
      · simp at hgrant
      · exact ⟨hole, placeholder, rfl, hread, ‹_›, hgrant⟩

theorem fragments_of_none (h : around.granted? keys piece = none) :
    around.fragments keys piece = [.piece piece] := by
  simp [fragments, h]

theorem fragments_of_text {granted : Value} {text : String}
    (h : around.granted? keys piece = some granted) (htext : granted.inserted? = some text) :
    around.fragments keys piece = (Pattern.pieces text).map .piece := by
  simp [fragments, h, htext]

theorem fragments_of_value {granted : Value} (h : around.granted? keys piece = some granted)
    (hvalue : granted.inserted? = none) : around.fragments keys piece = [.value granted] := by
  simp [fragments, h, hvalue]

theorem fragments_congr {others : List String}
    (h : around.granted? keys piece = around.granted? others piece) :
    around.fragments keys piece = around.fragments others piece := by
  simp only [fragments, h]

/-- Exempt names are granted nothing. -/
theorem granted?_of_isInert (h : Pattern.IsInert around.config [] pieces)
    (hpiece : piece ∈ pieces) : around.granted? keys piece = none := by
  cases hgranted : around.granted? keys piece with
  | none => rfl
  | some granted =>
      obtain ⟨hole, placeholder, rfl, hread, -, hgrant⟩ := granted?_eq_some hgranted
      obtain hmem | hexempt := h hole placeholder hpiece hread
      · simp at hmem
      · obtain ⟨target, hmeaning, -⟩ := grant?_eq_some hgrant
        simp [meaning_eq_exempt_iff.2 hexempt] at hmeaning

/-! ## Filling a pattern -/

/-- The name of an added argument is read as it is written. -/
theorem ofHole?_syntheticName (hmarkers : around.config.HasPlainMarkers)
    (husable : around.config.HasUsableNumbers) (number : Nat) :
    Placeholder.ofHole? (around.syntheticName number).toList =
      some ⟨around.syntheticName number, none⟩ := by
  rw [Placeholder.ofHole?, if_neg (husable.escape (around.syntheticName number) ⟨number, rfl⟩),
    Text.cutAt_eq_none_iff.2 (notMem_syntheticName hmarkers number).1]
  simp

/-- Whether the placeholders that no declared argument binds have names that no added argument can
have. -/
def Avoids (config : Config) (declared : Fields Value) (pieces : List Piece) : Prop :=
  ∀ hole placeholder, .hole hole ∈ pieces → Placeholder.ofHole? hole = some placeholder →
    placeholder.name ∉ declared.keys → ¬ config.IsSynthetic placeholder.name

/-- What the answer to a placeholder, or the filling of a pattern, has done: fragments have been
written, and something has changed if something was granted. -/
structure WritesOut (fragments : List Fragment) (granted : Bool) (pieces : List Piece)
    (before after : Filling) (added : Fields Value) : Prop where
  arguments : after.arguments = before.arguments ++ added
  writes : Writes fragments pieces added
  changed : after.changed = (before.changed || granted)

theorem exists_writes_answer (hmarkers : around.config.HasPlainMarkers)
    (husable : around.config.HasUsableNumbers) (hextends : filling.Extends around declared)
    (hread : Placeholder.ofHole? hole = some placeholder)
    (havoids : placeholder.name ∉ declared.keys → ¬ around.config.IsSynthetic placeholder.name) :
    ∃ added, WritesOut (around.fragments declared.keys (.hole hole))
      (around.granted? declared.keys (.hole hole)).isSome
      (Pattern.replacement hole (around.answer source path placeholder filling).1) filling
      (around.answer source path placeholder filling).2 added := by
  by_cases hown : placeholder.name ∈ declared.keys
  · have hgranted := @granted?_of_mem around declared.keys _ _ hread hown
    rw [answer_of_own (hextends.declared_subset hown), fragments_of_none hgranted, hgranted]
    exact ⟨[], by simp, Writes.of_pieces [.hole hole], by simp⟩
  · have hfree := hextends.notMem_keys hown (havoids hown)
    have hgranted := @granted?_of_notMem around declared.keys _ _ hread hown
    cases hgrant : around.grant? placeholder with
    | none =>
        rw [hgrant] at hgranted
        rw [answer_of_denied hfree hgrant, fragments_of_none hgranted, hgranted]
        exact ⟨[], by simp, Writes.of_pieces [.hole hole], by simp⟩
    | some granted =>
        rw [hgrant] at hgranted
        rw [answer_of_grant hfree hgrant, hgranted]
        cases hinserted : granted.inserted? with
        | some text =>
            rw [splice_of_inserted? hinserted, fragments_of_text hgranted hinserted]
            exact ⟨[], by simp, Writes.of_pieces _, by simp⟩
        | none =>
            obtain ⟨number, -, hsplice⟩ := splice_of_not_inserted hinserted filling
            rw [hsplice, fragments_of_value hgranted hinserted]
            refine ⟨[(around.syntheticName number, granted)], by simp, ?_, by simp⟩
            have hbrace : '}' ∉ Pattern.inner ⟨around.syntheticName number, none⟩ :=
              (notMem_syntheticName hmarkers number).2
            rw [Pattern.replacement, Pattern.pieces_text hbrace]
            exact @Writes.value _ (around.syntheticName number, granted) _ _ _
              (ofHole?_syntheticName hmarkers husable number) .nil

/-- Filling pieces writes their fragments. -/
theorem exists_writes_fillPieces (hmarkers : around.config.HasPlainMarkers)
    (husable : around.config.HasUsableNumbers) (hextends : filling.Extends around declared)
    (havoids : Avoids around.config declared pieces) :
    ∃ added, WritesOut (pieces.flatMap (around.fragments declared.keys))
      (pieces.any fun piece => (around.granted? declared.keys piece).isSome)
      (Pattern.filledPieces (around.answer source path) pieces filling) filling
      (Pattern.fillPieces (around.answer source path) pieces filling).2 added := by
  induction pieces generalizing filling with
  | nil => exact ⟨[], by simp [Pattern.fillPieces], .nil, by simp [Pattern.fillPieces]⟩
  | cons piece rest ih =>
      have hrest := fun {filling : Filling} => @ih filling
      have havoidsRest : Avoids around.config declared rest :=
        fun hole placeholder hmem => havoids hole placeholder (List.mem_cons_of_mem _ hmem)
      have hstays (hgranted : around.granted? declared.keys piece = none) :
          ∃ added, WritesOut ((piece :: rest).flatMap (around.fragments declared.keys))
            ((piece :: rest).any fun piece => (around.granted? declared.keys piece).isSome)
            (piece :: Pattern.filledPieces (around.answer source path) rest filling) filling
            (Pattern.fillPieces (around.answer source path) rest filling).2 added := by
        obtain ⟨added, harguments, hwrites, hchanged⟩ := hrest hextends havoidsRest
        rw [List.flatMap_cons, List.any_cons, fragments_of_none hgranted, hgranted]
        exact ⟨added, harguments, .piece hwrites, by simpa using hchanged⟩
      cases piece with
      | char c =>
          simp only [Pattern.fillPieces, Pattern.filledPieces]
          exact hstays rfl
      | hole hole =>
          cases hread : Placeholder.ofHole? hole with
          | none =>
              simp only [Pattern.fillPieces, Pattern.filledPieces, hread]
              exact hstays (granted?_of_escape hread)
          | some placeholder =>
              simp only [Pattern.fillPieces, Pattern.filledPieces, hread]
              obtain ⟨first, hfirst⟩ := @exists_writes_answer _ source path _ _ _ _ hmarkers husable
                hextends hread (havoids hole placeholder List.mem_cons_self hread)
              obtain ⟨second, hsecond⟩ := hrest (hextends.answer placeholder) havoidsRest
              refine ⟨first ++ second, ?_, ?_, ?_⟩
              · rw [hsecond.arguments, hfirst.arguments, List.append_assoc]
              · exact hfirst.writes.append hsecond.writes
              · rw [hsecond.changed, hfirst.changed, List.any_cons, Bool.or_assoc]

/-! ## Filling a pattern again -/

/-- A filling that goes over pieces again refines the fragments that were written with them. -/
theorem exists_writes_refine {fragments : List Fragment} {others : List Piece}
    {extra : Fields Value} {all : List String} (hwrites : Writes fragments pieces added)
    (hadded : ∀ argument ∈ added, argument.1 ∈ all)
    (hsame : ∀ piece, .piece piece ∈ fragments →
      later.granted? all piece = later.granted? keys piece)
    (hmore : Writes (pieces.flatMap (later.fragments all)) others extra) :
    ∃ total, total.Perm (added ++ extra) ∧ Writes (fragments.flatMap (later.refine keys)) others
      total := by
  induction hwrites generalizing others extra with
  | nil => exact ⟨extra, List.Perm.refl _, hmore⟩
  | @piece piece fragments pieces added _ ih =>
      rw [List.flatMap_cons] at hmore
      obtain ⟨front, back, first, second, rfl, rfl, hfront, hback⟩ := hmore.exists_of_append
      obtain ⟨total, hperm, htotal⟩ := ih hadded
        (fun piece hpiece => hsame piece (List.mem_cons_of_mem _ hpiece)) hback
      refine ⟨first ++ total, ?_, ?_⟩
      · exact (hperm.append_left first).trans (List.perm_append_comm_assoc first added second)
      · have hpiece : later.fragments all piece = later.refine keys (.piece piece) :=
          fragments_congr (hsame piece List.mem_cons_self)
        rw [List.flatMap_cons, ← hpiece]
        exact hfront.append htotal
  | @value hole argument fragments pieces added hread _ ih =>
      -- The argument that was added binds its placeholder.
      have hown : later.granted? all (.hole hole) = none :=
        granted?_of_mem hread (hadded argument List.mem_cons_self)
      rw [List.flatMap_cons, fragments_of_none hown] at hmore
      cases hmore with
      | piece hmore =>
          obtain ⟨total, hperm, htotal⟩ := ih
            (fun other hother => hadded other (List.mem_cons_of_mem _ hother))
            (fun piece hpiece => hsame piece (List.mem_cons_of_mem _ hpiece)) hmore
          exact ⟨argument :: total, hperm.cons argument, .value hread htotal⟩

/-- Whether something is granted to pieces can be read off from their fragments. -/
theorem any_refines {fragments : List Fragment} {all : List String}
    (hwrites : Writes fragments pieces added) (hadded : ∀ argument ∈ added, argument.1 ∈ all)
    (hsame : ∀ piece, .piece piece ∈ fragments →
      later.granted? all piece = later.granted? keys piece) :
    (pieces.any fun piece => (later.granted? all piece).isSome) =
      fragments.any (later.refines keys) := by
  induction hwrites with
  | nil => rfl
  | piece _ ih =>
      rw [List.any_cons, List.any_cons, ih hadded
        fun piece hpiece => hsame piece (List.mem_cons_of_mem _ hpiece)]
      rw [refines, hsame _ List.mem_cons_self]
  | @value _ argument _ _ _ hread _ ih =>
      rw [List.any_cons, List.any_cons, ih
        (fun other hother => hadded other (List.mem_cons_of_mem _ hother))
        fun piece hpiece => hsame piece (List.mem_cons_of_mem _ hpiece)]
      rw [granted?_of_mem hread (hadded argument List.mem_cons_self), refines, Option.isSome_none]

/-- A piece of a pattern whose placeholders ask for known names. -/
def IsAsked (config : Config) (splicing : Splicing) (keys : List String) (piece : Piece) : Prop :=
  ∀ hole placeholder, piece = .hole hole → Placeholder.ofHole? hole = some placeholder →
    '}' ∉ hole ∧ (placeholder.name ∉ keys → config.isExempt placeholder.name = false →
      splicing.names placeholder.name)

/-- What the fragments of a piece come to in later surroundings is what the piece comes to there. -/
theorem flatMap_refine_fragments (hstill : earlier.Still splicing) (h : Precedes earlier later)
    (hasked : IsAsked earlier.config splicing keys piece) :
    (earlier.fragments keys piece).flatMap (later.refine keys) = later.fragments keys piece ∧
      ((earlier.granted? keys piece).isSome || (earlier.fragments keys piece).any
        (later.refines keys)) = (later.granted? keys piece).isSome := by
  cases hgranted : earlier.granted? keys piece with
  | none =>
      rw [fragments_of_none hgranted]
      exact ⟨List.flatMap_singleton _ _, by simp [refines]⟩
  | some granted =>
      obtain ⟨hole, placeholder, rfl, hread, hown, hgrant⟩ := granted?_eq_some hgranted
      have hlater : later.granted? keys (.hole hole) = some granted :=
        (granted?_of_notMem hread hown).trans (h.grant? hgrant)
      refine ⟨?_, by simp [hlater]⟩
      cases hinserted : granted.inserted? with
      | none =>
          rw [fragments_of_value hgranted hinserted, fragments_of_value hlater hinserted]
          rfl
      | some text =>
          -- Nothing is left to do in the text of what was granted.
          obtain ⟨hbrace, hname⟩ := hasked hole placeholder rfl hread
          have hinert := hstill.isInert_of_grant hread hbrace (hname hown) hgrant hinserted []
          rw [fragments_of_text hgranted hinserted, fragments_of_text hlater hinserted,
            List.flatMap_map, List.map_eq_flatMap]
          exact List.flatMap_congr fun piece hpiece =>
            fragments_of_none (granted?_of_isInert (h.config ▸ hinert) hpiece)

end Surroundings

/-! ## The same fragments under other names -/

/-- Arguments that are added behind declared ones, each under a name of its own. -/
structure Adds (config : Config) (declared added : Fields Value) : Prop where
  synthetic : ∀ argument ∈ added, config.IsSynthetic argument.1
  fresh : ∀ argument ∈ added, argument.1 ∉ declared.keys
  nodup : added.keys.Nodup

section Names

variable {config : Config} {declared others added extra arguments all : Fields Value}
  {fragments : List Fragment} {pieces written : List Piece}

/-- Arguments that two passes add one after the other. -/
theorem Adds.append {done final more total : Fields Value} (first : Adds config done added)
    (second : Adds config (final ++ added) more) (hkeys : final.keys = done.keys)
    (hperm : total.Perm (added ++ more)) :
    Adds config final total where
  synthetic argument hargument := by
    rcases List.mem_append.1 (hperm.mem_iff.1 hargument) with h | h
    · exact first.synthetic argument h
    · exact second.synthetic argument h
  fresh argument hargument := by
    rcases List.mem_append.1 (hperm.mem_iff.1 hargument) with h | h
    · exact hkeys ▸ first.fresh argument h
    · intro hmem
      refine second.fresh argument h ?_
      rw [Fields.keys, List.map_append]
      exact List.mem_append_left _ hmem
  nodup := by
    refine (hperm.map (·.1)).nodup_iff.2 ?_
    rw [List.map_append]
    refine List.nodup_append.2 ⟨first.nodup, second.nodup, ?_⟩
    rintro _ hleft _ hright rfl
    obtain ⟨argument, hargument, hname⟩ := List.mem_map.1 hright
    refine second.fresh argument hargument ?_
    rw [Fields.keys, List.map_append]
    exact List.mem_append_right _ (hname ▸ hleft)

/-- Added arguments are paired by their places. -/
theorem isPairing_of_adds (hkeys : others.keys = declared.keys)
    (hlength : added.length = extra.length) (hadded : Adds config declared added)
    (hextra : Adds config others extra)
    (harguments : arguments.Perm (declared ++ added)) (hall : all.Perm (others ++ extra)) :
    IsPairing config arguments all fun a b =>
      Aligned declared others a b ∨ Aligned added extra a b := by
  have hlengths : declared.length = others.length := by
    simpa [Fields.keys] using (congrArg List.length hkeys).symm
  -- A declared name is never that of an added argument.
  have hapart : ∀ {a b c d : String × Value}, Aligned declared others a b →
      Aligned added extra c d → a.1 ≠ c.1 ∧ b.1 ≠ d.1 := fun hleft hright =>
    ⟨fun hsame => hadded.fresh _ hright.mem.1 (hsame ▸ List.mem_map_of_mem hleft.mem.1),
      fun hsame => hextra.fresh _ hright.mem.2 (hsame ▸ List.mem_map_of_mem hleft.mem.2)⟩
  refine ⟨?mem, ?left, ?right, ?names, ?oneToOne⟩
  case mem =>
    rintro a b (h | h)
    · exact ⟨harguments.mem_iff.2 (List.mem_append_left _ h.mem.1),
        hall.mem_iff.2 (List.mem_append_left _ h.mem.2)⟩
    · exact ⟨harguments.mem_iff.2 (List.mem_append_right _ h.mem.1),
        hall.mem_iff.2 (List.mem_append_right _ h.mem.2)⟩
  case left =>
    intro a ha
    rcases List.mem_append.1 (harguments.mem_iff.1 ha) with ha | ha
    · exact (Aligned.exists_right hlengths ha).imp fun _ => Or.inl
    · exact (Aligned.exists_right hlength ha).imp fun _ => Or.inr
  case right =>
    intro b hb
    rcases List.mem_append.1 (hall.mem_iff.1 hb) with hb | hb
    · exact (Aligned.exists_right hlengths.symm hb).imp fun _ h => Or.inl h.symm
    · exact (Aligned.exists_right hlength.symm hb).imp fun _ h => Or.inr h.symm
  case names =>
    rintro a b (h | h)
    · exact Or.inl (h.key_eq hkeys).symm
    · exact Or.inr ⟨hadded.synthetic _ h.mem.1, hextra.synthetic _ h.mem.2⟩
  case oneToOne =>
    rintro a b c d (h | h) (hother | hother)
    · rw [h.key_eq hkeys, hother.key_eq hkeys]
    · exact iff_of_false (hapart h hother).1 (hapart h hother).2
    · exact iff_of_false (Ne.symm (hapart hother h).1) (Ne.symm (hapart hother h).2)
    · exact ⟨fun hsame => congrArg Prod.fst (h.eq_of_key_eq hadded.nodup hother hsame),
        fun hsame => congrArg Prod.fst (h.symm.eq_of_key_eq hextra.nodup hother.symm hsame)⟩

/-- The same fragments are written with the same values. -/
theorem Writes.values_eq (h : Writes fragments pieces added)
    (hother : Writes fragments written extra) :
    List.Forall₂ (fun a b => a.2 = b.2 ∧ .value a.2 ∈ fragments) added extra := by
  induction h generalizing written extra with
  | nil =>
      cases hother
      exact .nil
  | piece _ ih =>
      cases hother with
      | piece hother => exact (ih hother).imp fun _ _ h => ⟨h.1, List.mem_cons_of_mem _ h.2⟩
  | @value hole argument fragments pieces added _ _ ih =>
      generalize hvalue : argument.2 = value at hother ⊢
      cases hother with
      | value _ hother =>
          exact .cons ⟨hvalue, hvalue ▸ List.mem_cons_self⟩
            ((ih hother).imp fun _ _ h => ⟨h.1, List.mem_cons_of_mem _ h.2⟩)

/-- The same fragments are written with alike pieces. -/
theorem Writes.alike {pairs : String × Value → String × Value → Prop}
    (h : Writes fragments pieces added) (hother : Writes fragments written extra)
    (hpairs : ∀ a b, Aligned added extra a b → pairs a b)
    (hpieces : ∀ piece, .piece piece ∈ fragments → Piece.Alike arguments all pairs piece piece) :
    List.Forall₂ (Piece.Alike arguments all pairs) pieces written := by
  induction h generalizing written extra with
  | nil =>
      cases hother
      exact .nil
  | piece _ ih =>
      cases hother with
      | piece hother =>
          exact .cons (hpieces _ List.mem_cons_self)
            (ih hother hpairs fun piece hpiece => hpieces piece (List.mem_cons_of_mem _ hpiece))
  | @value hole argument fragments pieces added hread _ ih =>
      generalize argument.2 = value at hother
      cases hother with
      | value hotherRead hother =>
          exact .cons (.argument hread hotherRead (hpairs _ _ ⟨0, rfl, rfl⟩))
            (ih hother (fun a b ⟨i, ha, hb⟩ => hpairs a b ⟨i + 1, ha, hb⟩)
              fun piece hpiece => hpieces piece (List.mem_cons_of_mem _ hpiece))

/-- Two ways to write the same fragments, behind alike arguments, give alike patterns with alike
arguments. -/
theorem exists_pairing_of_writes
    (hdeclared : List.Forall₂ (fun a b => b.1 = a.1 ∧ a.2.Alike config b.2) declared others)
    (h : Writes fragments pieces added) (hother : Writes fragments written extra)
    (hadded : Adds config declared added) (hextra : Adds config others extra)
    (harguments : arguments.Perm (declared ++ added)) (hall : all.Perm (others ++ extra))
    (havoids : ∀ hole placeholder, .piece (.hole hole) ∈ fragments →
      Placeholder.ofHole? hole = some placeholder → placeholder.name ∉ declared.keys →
        ¬ config.IsSynthetic placeholder.name)
    (hvalues : ∀ value, .value value ∈ fragments → value.Alike config value) :
    ∃ pairs, IsPairing config arguments all pairs ∧
      List.Forall₂ (Piece.Alike arguments all pairs) pieces written ∧
      ∀ a b, pairs a b → a.2.Alike config b.2 := by
  have hkeys : others.keys = declared.keys :=
    (hdeclared.map_eq_map fun h => h.1.symm).symm
  have hsame := h.values_eq hother
  refine ⟨_, isPairing_of_adds hkeys hsame.length_eq hadded hextra harguments hall,
    h.alike hother (fun _ _ => Or.inr) fun piece hpiece => ?pieces, ?values⟩
  case pieces =>
    cases piece with
    | char c => exact .char c
    | hole hole =>
        cases hread : Placeholder.ofHole? hole with
        | none => exact .escape hread
        | some placeholder =>
            by_cases hown : placeholder.name ∈ declared.keys
            · obtain ⟨a, ha, hname⟩ := List.mem_map.1 hown
              obtain ⟨b, hbeside⟩ := Aligned.exists_right hdeclared.length_eq ha
              have hleft : Placeholder.ofHole? hole = some ⟨a.1, placeholder.attr⟩ := by
                rw [hread, hname]
              exact .argument hleft (by rw [hleft, hbeside.key_eq hkeys]) (Or.inl hbeside)
            · have hnumber := havoids hole placeholder hpiece hread hown
              have hclear : ∀ {declared added arguments : Fields Value},
                  placeholder.name ∉ declared.keys → Adds config declared added →
                  arguments.Perm (declared ++ added) → placeholder.name ∉ arguments.keys := by
                intro declared added arguments hown hadded hperm hmem
                obtain ⟨a, ha, hname⟩ := List.mem_map.1 hmem
                rcases List.mem_append.1 (hperm.mem_iff.1 ha) with ha | ha
                · exact hown (hname ▸ List.mem_map_of_mem ha)
                · exact hnumber (hname ▸ hadded.synthetic a ha)
              exact .unbound hread (hclear hown hadded harguments)
                (hclear (hkeys ▸ hown) hextra hall)
  case values =>
    rintro a b (hbeside | hbeside)
    · exact (hbeside.of_forall₂ hdeclared).2
    · obtain ⟨heq, hmem⟩ := hbeside.of_forall₂ hsame
      exact heq ▸ hvalues a.2 hmem

end Names

end StackLinker
