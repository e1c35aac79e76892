import StackLinker.Proofs.Substitution.Fragments

/-!
# Two passes come to one

A value is gone over by a pass, and what comes out of it by a later one, in which more entities are
free.  A single pass in the later surroundings would have made the same of the value, up to the
names of added arguments (`Yields.alike`).

Values without substitutions need no renaming (`Yields.absorb`).  For a substitution the argument
goes by fragments: `Composes` says what a pass makes of it, with its pattern as a list of fragments,
and the fragments of the first pass are refined by the second one to those of the single pass.
-/

namespace StackLinker

namespace Value

variable {config : Config} {splicing : Splicing} {pattern : String}
  {arguments : Option (Fields Value)}

theorem isTame_template_iff : (template pattern arguments).IsTame config splicing ↔
    (Pattern.isSpaced (Pattern.pieces pattern) = true ∨ splicing.solid) ∧
    (∀ name ∈ (Form.substitution pattern arguments).uses,
      config.isExempt name = false → splicing.names name) ∧
    Fields.isReserved (arguments.getD []) = false ∧
    ∀ argument ∈ arguments.getD [], argument.2.IsTame config splicing := by
  constructor
  · intro h
    generalize hu : template pattern arguments = u at h
    cases h with
    | scalar => simp [template] at hu
    | ordinary _ hordinary => simp [← hu, isReserved_template] at hordinary
    | target hform hplaceholder =>
        rw [← hu, Form.recognize?_template] at hform
        obtain rfl := Option.some.inj (Except.ok.inj hform)
        simp [Form.placeholder?] at hplaceholder
    | template hjoin hnames hordinary harguments =>
        obtain ⟨rfl, rfl⟩ := Form.template_inj.1 hu
        exact ⟨hjoin, hnames, hordinary, harguments⟩
  · rintro ⟨hjoin, hnames, hordinary, harguments⟩
    exact .template hjoin hnames hordinary harguments

end Value

namespace Surroundings

open Value

variable {around earlier later : Surroundings} {splicing : Splicing} {source : String} {path : Path}
  {pattern text : String} {arguments : Option (Fields Value)} {done added : Fields Value}
  {v w x y : Value} {before between after : Outcome} {filling : Filling}

/-! ## Passes over a substitution -/

/-- Whether something is granted to a piece of a pattern that the arguments do not bind. -/
def fillsAny (around : Surroundings) (keys : List String) (pattern : String) : Bool :=
  (Pattern.pieces pattern).any fun piece => (around.granted? keys piece).isSome

/-- What a pass makes of a substitution: the arguments are gone over, more of them are added, and
the fragments of the pattern are written. -/
structure Composes (around : Surroundings) (pattern : String) (arguments : Option (Fields Value))
    (w : Value) (done added : Fields Value) (text : String) : Prop where
  parts : around.YieldsParts (arguments.getD []) done
  adds : Adds around.config done added
  writes : Writes ((Pattern.pieces pattern).flatMap (around.fragments done.keys))
    (Pattern.pieces text) added
  result : (done ++ added = [] ∧ Pattern.hasHoles text = false ∧ w = .string text) ∨
    (¬ (done ++ added = [] ∧ Pattern.hasHoles text = false) ∧
      ∃ all, all.getD [] = done ++ added ∧ w = template text all ∧
        all.isSome = if around.fillsAny done.keys pattern then !(done ++ added).isEmpty
          else arguments.isSome)

/-- Names that are asked for are not those of added arguments. -/
theorem Still.not_isSynthetic (hstill : around.Still splicing)
    (husable : around.config.HasUsableNumbers) {name : String}
    (hname : around.config.isExempt name = false → splicing.names name) :
    ¬ around.config.IsSynthetic name := by
  intro hnumber
  exact hstill.numbers name (hname (husable.exempt name hnumber)) hnumber

theorem Still.avoids (hstill : around.Still splicing) (husable : around.config.HasUsableNumbers)
    (hasks : Asks around splicing pattern done) :
    Avoids around.config done (Pattern.pieces pattern) := fun _ _ hmem hread hown =>
  hstill.not_isSynthetic husable fun hexempt => names_of_asks hasks hmem hread hown hexempt

theorem Refills.composes (hstill : around.Still splicing)
    (husable : around.config.HasUsableNumbers)
    (hjoin : Pattern.isSpaced (Pattern.pieces pattern) = true ∨ splicing.solid)
    (h : Refills around splicing source path pattern arguments before w done between text
      filling) :
    ∃ added, filling.arguments = done ++ added ∧
      Composes around pattern arguments w done added text := by
  have hstart : (Filling.start (some done) between).Extends around done :=
    Filling.extends_start around (some done) between
  have hfilling : filling =
      (Pattern.fillPieces (around.answer source path) (Pattern.pieces pattern)
        (.start (some done) between)).2 := (congrArg Prod.snd h.fill).symm
  obtain ⟨added, harguments, hwrites, hchanged⟩ := @exists_writes_fillPieces _ source path _ _ _
    hstill.markers husable hstart (hstill.avoids husable h.asks)
  rw [← hfilling] at harguments hchanged
  rw [← pieces_fill_of_calm hstill.toCalm hjoin h.asks h.fill] at hwrites
  replace harguments : filling.arguments = done ++ added := harguments
  replace hchanged : filling.changed = around.fillsAny done.keys pattern := hchanged
  refine ⟨added, harguments, ?parts, ?adds, hwrites, ?result⟩
  case parts => exact h.thread.forall₂ fun _ hstep => ⟨rfl, yields_of_rewrites hstep⟩
  case adds =>
    obtain ⟨extra, hextra, hnew, hnodup⟩ := hfilling ▸ hstart.fillPieces (Pattern.pieces pattern)
    obtain rfl : extra = added := List.append_cancel_left (hextra.symm.trans harguments)
    exact ⟨fun argument hargument => (hnew argument hargument).1.name,
      fun argument hargument => (hnew argument hargument).2, hnodup⟩
  case result =>
    have hresult := h.result
    rwa [harguments, hchanged] at hresult

theorem exists_composes (hstill : around.Still splicing)
    (husable : around.config.HasUsableNumbers)
    (hv : (template pattern arguments).IsTame around.config splicing)
    (h : around.Yields (template pattern arguments) w) :
    ∃ done added text, Composes around pattern arguments w done added text := by
  obtain ⟨hjoin, hnames, hordinary, -⟩ := isTame_template_iff.1 hv
  obtain ⟨_, hpass⟩ := h "" [] {}
  obtain ⟨done, between, text, filling, -, hrefills⟩ := exists_refills
    (fun name hname hown => hnames name (Form.mem_uses_substitution.2 ⟨hname, hown⟩)) hordinary
    hpass
  obtain ⟨added, -, hcomposes⟩ := hrefills.composes hstill husable hjoin
  exact ⟨done, added, text, hcomposes⟩

/-! ## Both passes over a substitution -/

theorem Composes.keys_eq (h : Composes around pattern arguments w done added text) :
    Fields.keys done = Fields.keys (arguments.getD []) := h.parts.keys_eq

theorem isAsked_of_uses {config : Config}
    (hnames : ∀ name ∈ (Form.substitution pattern arguments).uses,
      config.isExempt name = false → splicing.names name)
    {piece : Piece} (hpiece : piece ∈ Pattern.pieces pattern) :
    IsAsked config splicing (Fields.keys (arguments.getD [])) piece := by
  rintro hole placeholder rfl hread
  refine ⟨Pattern.notMem_of_hole_mem hpiece, fun hown => hnames _ ?_⟩
  exact Form.mem_uses_substitution.2
    ⟨Pattern.mem_names.2 ⟨hole, placeholder, hpiece, hread, rfl⟩, hown⟩

/-- Behind the fragments of a pattern stand its own pieces, or inert ones. -/
theorem avoids_fragments (hstill : around.Still splicing)
    (husable : around.config.HasUsableNumbers)
    (hnames : ∀ name ∈ (Form.substitution pattern arguments).uses,
      around.config.isExempt name = false → splicing.names name)
    {keys : List String} (hkeys : keys = Fields.keys (arguments.getD [])) {hole : List Char}
    {placeholder : Placeholder}
    (hmem : .piece (.hole hole) ∈ (Pattern.pieces pattern).flatMap (around.fragments keys))
    (hread : Placeholder.ofHole? hole = some placeholder) (hown : placeholder.name ∉ keys) :
    ¬ around.config.IsSynthetic placeholder.name := by
  subst hkeys
  obtain ⟨piece, hpiece, hmem⟩ := List.mem_flatMap.1 hmem
  have hasked := isAsked_of_uses hnames hpiece
  cases hgranted : around.granted? (Fields.keys (arguments.getD [])) piece with
  | none =>
      rw [fragments_of_none hgranted, List.mem_singleton, Fragment.piece.injEq] at hmem
      subst hmem
      exact hstill.not_isSynthetic husable ((hasked hole placeholder rfl hread).2 hown)
  | some granted =>
      obtain ⟨outer, asked, rfl, houter, hfree, hgrant⟩ := granted?_eq_some hgranted
      obtain ⟨hbrace, hname⟩ := hasked outer asked rfl houter
      cases hinserted : granted.inserted? with
      | none => simp [fragments_of_value hgranted hinserted] at hmem
      | some text =>
          rw [fragments_of_text hgranted hinserted] at hmem
          have hinert := hstill.isInert_of_grant houter hbrace (hname hfree) hgrant hinserted []
          obtain hmem | hexempt := hinert hole placeholder (by simpa using hmem) hread
          · simp at hmem
          · exact fun hnumber => by simp [husable.exempt _ hnumber] at hexempt

/-- The values among the fragments are granted. -/
theorem exists_grant_of_value_mem {keys : List String} {value : Value}
    (hmem : .value value ∈ (Pattern.pieces pattern).flatMap (around.fragments keys)) :
    ∃ placeholder, around.grant? placeholder = some value := by
  obtain ⟨piece, -, hmem⟩ := List.mem_flatMap.1 hmem
  cases hgranted : around.granted? keys piece with
  | none => simp [fragments_of_none hgranted] at hmem
  | some granted =>
      obtain ⟨hole, placeholder, -, -, -, hgrant⟩ := granted?_eq_some hgranted
      cases hinserted : granted.inserted? with
      | some text => simp [fragments_of_text hgranted hinserted] at hmem
      | none =>
          rw [fragments_of_value hgranted hinserted, List.mem_singleton] at hmem
          obtain rfl := Fragment.value.inj hmem
          exact ⟨placeholder, hgrant⟩

/-- What is granted is tame. -/
theorem Still.isTame_of_grant (hstill : around.Still splicing) {placeholder : Placeholder}
    (hgrant : around.grant? placeholder = some w) : w.IsTame around.config splicing := by
  obtain ⟨target, hmeaning, ⟨-, rfl⟩ | ⟨attr, -, rfl⟩⟩ := grant?_eq_some hgrant
  · exact hstill.tame target (mem_free_of_meaning hmeaning)
  · exact .target (Form.recognize?_getAtt _ _) rfl

/-- The fragments of a pass are refined to those of a later one. -/
theorem flatMap_refine (hstill : earlier.Still splicing) (h : Precedes earlier later)
    (hnames : ∀ name ∈ (Form.substitution pattern arguments).uses,
      earlier.config.isExempt name = false → splicing.names name)
    {keys : List String} (hkeys : keys = Fields.keys (arguments.getD [])) :
    ((Pattern.pieces pattern).flatMap (earlier.fragments keys)).flatMap (later.refine keys) =
        (Pattern.pieces pattern).flatMap (later.fragments keys) ∧
      (earlier.fillsAny keys pattern || ((Pattern.pieces pattern).flatMap
        (earlier.fragments keys)).any (later.refines keys)) = later.fillsAny keys pattern := by
  subst hkeys
  have hpiece : ∀ piece ∈ Pattern.pieces pattern, _ := fun piece hmem =>
    flatMap_refine_fragments hstill h (isAsked_of_uses hnames hmem)
  refine ⟨?_, ?_⟩
  · rw [List.flatMap_assoc]
    exact List.flatMap_congr fun piece hmem => (hpiece piece hmem).1
  · rw [fillsAny, fillsAny, List.any_flatMap]
    generalize Pattern.pieces pattern = pieces at hpiece
    induction pieces with
    | nil => rfl
    | cons piece rest ih =>
        have hrest := ih fun piece hmem => hpiece piece (List.mem_cons_of_mem _ hmem)
        rw [List.any_cons, List.any_cons, List.any_cons, ← (hpiece piece List.mem_cons_self).2,
          ← hrest]
        ac_rfl

/-- Without holes there is nothing to refine. -/
theorem flatMap_refine_of_not_hasHoles (later : Surroundings) (keys : List String)
    (h : Pattern.hasHoles text = false) :
    ((Pattern.pieces text).map .piece).flatMap (later.refine keys) =
      (Pattern.pieces text).map .piece := by
  rw [List.flatMap_map, List.map_eq_flatMap]
  refine List.flatMap_congr fun piece hpiece => fragments_of_none ?_
  cases piece with
  | char c => rfl
  | hole hole =>
      have hholes := List.any_eq_false.1 h (.hole hole) hpiece
      simp [Piece.isHole] at hholes

/-- A pattern is determined by its pieces. -/
theorem eq_of_pieces_eq {other : String} (h : Pattern.pieces text = Pattern.pieces other) :
    text = other := by
  rw [← Pattern.render_pieces text, h, Pattern.render_pieces]

/-- Where the first pass leaves a plain text, the single pass leaves the same text. -/
private theorem alike_of_string {final extra : Fields Value} {result : String}
    (hearlier : earlier.Still splicing) (h : Precedes earlier later)
    (hnames : ∀ name ∈ (Form.substitution pattern arguments).uses,
      earlier.config.isExempt name = false → splicing.names name)
    (first : Composes earlier pattern arguments w done added text)
    (direct : Composes later pattern arguments y final extra result)
    (hnil : done ++ added = []) (hholes : Pattern.hasHoles text = false) : y = .string text := by
  obtain ⟨rfl, rfl⟩ := List.append_eq_nil_iff.1 hnil
  have hempty : Fields.keys (arguments.getD []) = [] := first.keys_eq.symm
  have hrefine := (flatMap_refine hearlier h hnames hempty.symm).1
  have hwrites := direct.writes
  rw [direct.keys_eq, hempty, ← hrefine, show ([] : List String) = Fields.keys ([] : Fields Value)
    from rfl, first.writes.eq_of_nil, flatMap_refine_of_not_hasHoles later _ hholes] at hwrites
  obtain rfl : extra = [] := by
    simpa using (hwrites.values_eq (Writes.of_pieces (Pattern.pieces text))).length_eq
  obtain rfl : result = text := eq_of_pieces_eq <|
    List.map_injective_iff.2 (fun _ _ => Fragment.piece.inj) hwrites.eq_of_nil.symm
  have hfinal : final = [] := by
    simpa [Fields.keys] using direct.keys_eq.trans hempty
  rcases direct.result with ⟨-, -, hy⟩ | ⟨hplain, -⟩
  · exact hy
  · exact absurd ⟨by simp [hfinal], hholes⟩ hplain

/-- A name that added arguments cannot have is granted the same behind them. -/
theorem granted?_append {config : Config} {piece : Piece} (hadds : Adds config done added)
    (havoids : ∀ hole placeholder, piece = .hole hole →
      Placeholder.ofHole? hole = some placeholder → placeholder.name ∉ Fields.keys done →
        ¬ config.IsSynthetic placeholder.name) :
    around.granted? (Fields.keys (done ++ added)) piece =
      around.granted? (Fields.keys done) piece := by
  cases piece with
  | char c => rfl
  | hole hole =>
      cases hread : Placeholder.ofHole? hole with
      | none => rw [granted?_of_escape hread, granted?_of_escape hread]
      | some placeholder =>
          have hkeys : Fields.keys (done ++ added) = Fields.keys done ++ Fields.keys added :=
            List.map_append
          by_cases hown : placeholder.name ∈ Fields.keys done
          · rw [granted?_of_mem hread hown, granted?_of_mem hread
              (hkeys ▸ List.mem_append_left _ hown)]
          · have hnew : placeholder.name ∉ Fields.keys added := by
              intro hmem
              obtain ⟨argument, hargument, hname⟩ := List.mem_map.1 hmem
              exact havoids hole placeholder rfl hread hown
                (hname ▸ hadds.synthetic argument hargument)
            rw [granted?_of_notMem hread hown, granted?_of_notMem hread
              (by rw [hkeys, List.mem_append]; exact not_or.2 ⟨hown, hnew⟩)]

/-- Added arguments are at rest in later surroundings. -/
theorem Composes.eq_added (hearlier : earlier.Still splicing) (h : Precedes earlier later)
    (first : Composes earlier pattern arguments w done added text) {rest : Fields Value}
    (hrest : later.YieldsParts added rest) : added = rest := by
  have hvalues := first.writes.values_eq first.writes
  refine List.forall₂_eq_eq_eq.le _ _ (hrest.imp_of_mem fun {a b} ha _ hstep => ?_)
  obtain ⟨c, -, hsame, hvalue⟩ := hvalues.exists_of_mem_left ha
  obtain ⟨placeholder, hgrant⟩ := exists_grant_of_value_mem hvalue
  have hfinal := hearlier.isFinal_of_grant hgrant
  have hrests : later.Yields a.2 a.2 := fun source path notes =>
    ⟨notes, hfinal later h.config source path notes⟩
  exact Prod.ext hstep.1.symm (eq_of_yields hrests hstep.2)

/-- The parts of a node, behind both passes and behind the single one. -/
private theorem forall₂_alike {config : Config} {parts middle rest final : Fields Value}
    (first : earlier.YieldsParts parts middle) (second : later.YieldsParts middle rest)
    (direct : later.YieldsParts parts final)
    (ih : ∀ part ∈ parts, ∀ {w x y}, earlier.Yields part.2 w → later.Yields w x →
      later.Yields part.2 y → y.Alike config x) :
    List.Forall₂ (fun a b => b.1 = a.1 ∧ a.2.Alike config b.2) final rest := by
  have hfinal := (direct.imp_of_mem fun {a b} ha _ hstep => And.intro ha hstep).flip
  refine (hfinal.comp (first.comp second)).imp ?_
  rintro b c ⟨a, ⟨ha, hkey, hdirect⟩, middle, ⟨hfirst, hearlier⟩, hsecond, hlater⟩
  exact ⟨by rw [hsecond, hfirst, hkey], ih a ha hearlier hlater hdirect⟩

/-- Whether there is an argument map does not depend on the number of passes. -/
private theorem isSome_eq {a b c : Bool} {all single : Option (Fields Value)}
    {middle : Option (Fields Value)} {xs ys zs : Fields Value}
    (hmiddle : middle.isSome = if a then !xs.isEmpty else arguments.isSome)
    (hall : all.isSome = if b then !ys.isEmpty else middle.isSome)
    (hsingle : single.isSome = if c then !zs.isEmpty else arguments.isSome) (hor : (a || b) = c)
    (hgetAll : all.getD [] = ys) (hgetSingle : single.getD [] = zs) (hnil : ys = [] ↔ zs = [])
    (hempty : ys = [] → xs = []) : all.isSome = single.isSome := by
  by_cases hys : ys = []
  · obtain rfl := hempty hys
    obtain rfl := hnil.1 hys
    subst hys hor
    rw [hall, hmiddle, hsingle]
    cases a <;> cases b <;> rfl
  · have hsome : ∀ {map : Option (Fields Value)}, map.getD [] ≠ [] → map.isSome = true := by
      intro map hmap
      cases map with
      | none => exact absurd rfl hmap
      | some => rfl
    rw [hsome (hgetAll ▸ hys), hsome (hgetSingle ▸ fun hzs => hys (hnil.2 hzs))]

/-- Where the first pass leaves a substitution, what the second one makes of it is alike to what the
single pass makes of the value. -/
private theorem alike_of_template {all : Option (Fields Value)}
    {finals more final extra : Fields Value} {result written : String}
    (hearlier : earlier.Still splicing) (hlater : later.Still splicing)
    (h : Precedes earlier later) (husable : earlier.config.HasUsableNumbers)
    (hnames : ∀ name ∈ (Form.substitution pattern arguments).uses,
      earlier.config.isExempt name = false → splicing.names name)
    (first : Composes earlier pattern arguments w done added text)
    (hall : all.getD [] = done ++ added)
    (hsome : all.isSome = if earlier.fillsAny (Fields.keys done) pattern
      then !(done ++ added).isEmpty else arguments.isSome)
    (second : Composes later text all x finals more result)
    (direct : Composes later pattern arguments y final extra written)
    (ih : ∀ argument ∈ arguments.getD [], ∀ {w x y}, earlier.Yields argument.2 w →
      later.Yields w x → later.Yields argument.2 y → y.Alike earlier.config x) :
    y.Alike earlier.config x := by
  have hparts := second.parts
  rw [hall] at hparts
  obtain ⟨front, back, rfl, hfront, hback⟩ : ∃ front back, finals = front ++ back ∧
      later.YieldsParts done front ∧ later.YieldsParts added back :=
    ⟨_, _, (List.take_append_drop _ _).symm, (List.forall₂_take_append _ _ _ hparts.flip).flip,
      (List.forall₂_drop_append _ _ _ hparts.flip).flip⟩
  obtain rfl := first.eq_added hearlier h hback
  have hkeys : Fields.keys done = Fields.keys (arguments.getD []) := first.keys_eq
  have hfront' : Fields.keys front = Fields.keys done := hfront.keys_eq
  have hfinal : Fields.keys final = Fields.keys done := direct.keys_eq.trans hkeys.symm
  have hboth : Fields.keys (front ++ added) = Fields.keys (done ++ added) := by
    rw [Fields.keys, Fields.keys, List.map_append, List.map_append]
    exact congrArg (· ++ _) hfront'
  -- Behind the added arguments the fragments of the first pass are granted what they were before.
  have hsame : ∀ piece, .piece piece ∈ (Pattern.pieces pattern).flatMap
        (earlier.fragments (Fields.keys done)) →
      later.granted? (Fields.keys (front ++ added)) piece =
        later.granted? (Fields.keys done) piece := by
    intro piece hpiece
    rw [hboth]
    refine granted?_append first.adds ?_
    rintro hole placeholder rfl hread hown
    exact avoids_fragments hearlier husable hnames hkeys hpiece hread hown
  have hbinds : ∀ argument ∈ added, argument.1 ∈ Fields.keys (front ++ added) :=
    fun argument hargument => List.mem_map_of_mem (List.mem_append_right _ hargument)
  obtain ⟨total, hperm, htotal⟩ := exists_writes_refine first.writes hbinds hsame second.writes
  obtain ⟨hrefine, hfills⟩ := @flatMap_refine _ later _ _ _ hearlier h hnames _ hkeys
  rw [hrefine] at htotal
  have hdirect := direct.writes
  rw [hfinal] at hdirect
  have hmore := second.adds
  have hextra := direct.adds
  rw [h.config] at hmore hextra
  have hgranted : ∀ value, .value value ∈ (Pattern.pieces pattern).flatMap
      (later.fragments (Fields.keys done)) → value.Alike earlier.config value := by
    intro value hvalue
    obtain ⟨placeholder, hgrant⟩ := exists_grant_of_value_mem hvalue
    exact h.config ▸ (hlater.isTame_of_grant hgrant).alike
  obtain ⟨pairs, hpairing, hpieces, hvalues⟩ := exists_pairing_of_writes
    (forall₂_alike first.parts hfront direct.parts ih) hdirect htotal hextra
    (first.adds.append hmore hfront' hperm) (List.Perm.refl _)
    (show (front ++ added ++ more).Perm (front ++ total) from
      List.append_assoc front added more ▸ hperm.symm.append_left front)
    (fun hole placeholder hpiece hread hown => h.config ▸ avoids_fragments hlater
      (h.config ▸ husable) (h.config ▸ hnames) hkeys hpiece hread (hfinal ▸ hown)) hgranted
  have hholes := Piece.Alike.hasHoles_eq hpieces
  rcases direct.result with ⟨hnil, hplain, rfl⟩ | ⟨hplain, single, hsingle, rfl, hsingleSome⟩ <;>
    rcases second.result with ⟨hnil', hplain', rfl⟩ | ⟨hplain', last, hlast, rfl, hlastSome⟩
  · rw [Piece.Alike.eq_of_not_hasHoles hpieces hplain]
    exact .scalar _
  · exact absurd ⟨hpairing.eq_nil_iff.2 hnil, hholes.trans hplain⟩ hplain'
  · exact absurd ⟨hpairing.eq_nil_iff.1 hnil', hholes.symm.trans hplain'⟩ hplain
  · refine .template (hsingle ▸ hlast ▸ hpairing) (hsingle ▸ hlast ▸ hpieces) ?_ hvalues
    rw [fillsAny, any_refines first.writes hbinds hsame] at hlastSome
    refine isSome_eq hsome hlastSome (hfinal ▸ hsingleSome) hfills hlast hsingle
      hpairing.eq_nil_iff fun hnil => ?_
    have hempty := List.append_eq_nil_iff.1 (List.append_eq_nil_iff.1 hnil).1
    exact List.append_eq_nil_iff.2
      ⟨by simpa [Fields.keys, hempty.1] using hfront'.symm, hempty.2⟩

/-! ## Both passes over a value -/

/-- What is granted stays as it is. -/
theorem Still.yields_of_grant (hearlier : earlier.Still splicing) (h : Precedes earlier later)
    {placeholder : Placeholder} (hgrant : earlier.grant? placeholder = some w) :
    later.Yields w w := fun source path notes =>
  ⟨notes, hearlier.isFinal_of_grant hgrant later h.config source path notes⟩

/-- What a later pass makes of the result of an earlier one is alike to what it makes of the value
itself. -/
theorem Yields.alike (hearlier : earlier.Still splicing) (hlater : later.Still splicing)
    (h : Precedes earlier later) (husable : earlier.config.HasUsableNumbers)
    (hv : v.IsTame earlier.config splicing) (first : earlier.Yields v w) (second : later.Yields w x)
    (direct : later.Yields v y) : y.Alike earlier.config x := by
  induction hv generalizing w x y with
  | scalar s =>
      obtain rfl := yields_scalar_iff.1 first
      obtain rfl := yields_scalar_iff.1 second
      obtain rfl := yields_scalar_iff.1 direct
      exact .scalar s
  | @ordinary v hv hordinary _ ih =>
      obtain ⟨parts, hparts, rfl⟩ := (yields_ordinary_iff hv hordinary).1 first
      have hkeys := hparts.keys_eq
      obtain ⟨rest, hrest, rfl⟩ := (yields_ordinary_iff (by rw [isCompound_withChildren, hv])
        (by rw [isReserved_withChildren hkeys, hordinary])).1 second
      rw [children_withChildren hkeys] at hrest
      obtain ⟨final, hfinal, rfl⟩ := (yields_ordinary_iff hv hordinary).1 direct
      have hrestKeys := hrest.keys_eq.trans hkeys
      rw [withChildren_withChildren hkeys hrestKeys]
      exact alike_withChildren hv hordinary hfinal.keys_eq <|
        forall₂_alike hparts hrest hfinal fun part hpart => ih part hpart
  | @target v form placeholder hform hplaceholder =>
      have hfirst := (yields_target_iff hform hplaceholder).1 first
      have hdirect := (yields_target_iff hform hplaceholder).1 direct
      cases hgrant : earlier.grant? placeholder with
      | some granted =>
          -- What was granted is final, and it would be granted later as well.
          rw [hgrant, Option.getD_some] at hfirst
          rw [h.grant? hgrant, Option.getD_some] at hdirect
          subst hfirst hdirect
          obtain rfl := eq_of_yields second (hearlier.yields_of_grant h hgrant)
          exact (hearlier.isTame_of_grant hgrant).alike
      | none =>
          rw [hgrant, Option.getD_none] at hfirst
          subst hfirst
          obtain rfl := eq_of_yields second direct
          cases hlast : later.grant? placeholder with
          | some granted =>
              rw [hlast, Option.getD_some] at hdirect
              exact hdirect ▸ h.config ▸ (hlater.isTame_of_grant hlast).alike
          | none =>
              rw [hlast, Option.getD_none] at hdirect
              exact hdirect ▸ .target hform hplaceholder
  | @template pattern arguments hjoin hnames hordinary harguments ih =>
      have hv := IsTame.template hjoin hnames hordinary harguments
      obtain ⟨done, added, text, hfirst⟩ := exists_composes hearlier husable hv first
      obtain ⟨final, extra, written, hdirect⟩ := exists_composes hlater (h.config ▸ husable)
        (h.config ▸ hv) direct
      rcases hfirst.result with ⟨hnil, hplain, rfl⟩ | ⟨hplain, all, hall, rfl, hsome⟩
      · obtain rfl := yields_scalar_iff.1 second
        rw [alike_of_string hearlier h hnames hfirst hdirect hnil hplain]
        exact .scalar _
      · obtain ⟨w', _, hpass, hreduces⟩ :=
          exists_rewrites_of_isTame hearlier.toCalm "" hv [] {}
        have htame := hreduces.tame
        rw [eq_of_yields (yields_of_rewrites hpass) first] at htame
        obtain ⟨finals, more, result, hsecond⟩ := exists_composes hlater (h.config ▸ husable)
          (h.config ▸ htame) second
        exact alike_of_template hearlier hlater h husable hnames hfirst hall hsome hsecond hdirect
          fun argument hargument => ih argument hargument

end Surroundings

end StackLinker
