import StackLinker.Proofs.Dependency.Waiting

/-!
# Values up to the names of added arguments

Under which number an argument is added depends on the order in which the placeholders of a pattern
are filled, and on the arguments that are there already.  `Value.Alike` says that two values are the
same apart from such names: in two substitutions the arguments are paired one to one
(`IsPairing`), the pieces of the patterns are the same but for the names of paired arguments
(`Piece.Alike`), and what is paired is alike again.  Only names of added arguments may differ.

The relation is symmetric and transitive, and tame values are alike to themselves.
-/

namespace StackLinker

/-- Members of two lists that stand at the same place. -/
def Aligned {α β : Type} (as : List α) (bs : List β) (a : α) (b : β) : Prop :=
  ∃ i : Nat, as[i]? = some a ∧ bs[i]? = some b

/-- A pairing of the arguments of two substitutions, in which paired names are the same or both
names of added arguments. -/
structure IsPairing (config : Config) (arguments others : Fields Value)
    (pairs : String × Value → String × Value → Prop) : Prop where
  mem : ∀ {a b}, pairs a b → a ∈ arguments ∧ b ∈ others
  left : ∀ a ∈ arguments, ∃ b, pairs a b
  right : ∀ b ∈ others, ∃ a, pairs a b
  names : ∀ {a b}, pairs a b → a.1 = b.1 ∨ (config.IsSynthetic a.1 ∧ config.IsSynthetic b.1)
  oneToOne : ∀ {a b c d}, pairs a b → pairs c d → (a.1 = c.1 ↔ b.1 = d.1)

/-- Pieces of two patterns that are the same, or placeholders of paired arguments. -/
inductive Piece.Alike (arguments others : Fields Value)
    (pairs : String × Value → String × Value → Prop) : Piece → Piece → Prop
  | char (c : Char) : Alike arguments others pairs (.char c) (.char c)
  | escape {hole : List Char} (hread : Placeholder.ofHole? hole = none) :
      Alike arguments others pairs (.hole hole) (.hole hole)
  /-- No argument binds the placeholder. -/
  | unbound {hole : List Char} {placeholder : Placeholder}
      (hread : Placeholder.ofHole? hole = some placeholder)
      (hleft : placeholder.name ∉ arguments.keys) (hright : placeholder.name ∉ others.keys) :
      Alike arguments others pairs (.hole hole) (.hole hole)
  | argument {hole other : List Char} {a b : String × Value} {attr : Option String}
      (hread : Placeholder.ofHole? hole = some ⟨a.1, attr⟩)
      (hother : Placeholder.ofHole? other = some ⟨b.1, attr⟩) (hpair : pairs a b) :
      Alike arguments others pairs (.hole hole) (.hole other)

/-- Values that are the same apart from the names of added arguments. -/
inductive Value.Alike (config : Config) : Value → Value → Prop
  | scalar (s : Scalar) : Alike config (.scalar s) (.scalar s)
  | ordinary {v : Value} {parts : Fields Value} (hv : v.isCompound = true)
      (hordinary : v.isReserved = false) (hkeys : parts.map (·.1) = v.children.map (·.1))
      (h : ∀ a b, Aligned v.children parts a b → Alike config a.2 b.2) :
      Alike config v (v.withChildren parts)
  | target {v : Value} {form : Form} {placeholder : Placeholder}
      (hform : Form.recognize? v = .ok (some form))
      (hplaceholder : form.placeholder? = some placeholder) : Alike config v v
  | template {pattern other : String} {arguments others : Option (Fields Value)}
      {pairs : String × Value → String × Value → Prop}
      (hpairing : IsPairing config (arguments.getD []) (others.getD []) pairs)
      (hpieces : List.Forall₂ (Piece.Alike (arguments.getD []) (others.getD []) pairs)
        (Pattern.pieces pattern) (Pattern.pieces other))
      (hsome : others.isSome = arguments.isSome)
      (h : ∀ a b, pairs a b → Alike config a.2 b.2) :
      Alike config (template pattern arguments) (template other others)

/-! ## Places -/

namespace Aligned

variable {α β γ : Type} {as : List α} {bs : List β} {cs : List γ} {a : α} {b : β} {c : γ}

theorem symm (h : Aligned as bs a b) : Aligned bs as b a :=
  h.imp fun _ => And.symm

theorem mem (h : Aligned as bs a b) : a ∈ as ∧ b ∈ bs :=
  h.elim fun _ hi => ⟨List.mem_of_getElem? hi.1, List.mem_of_getElem? hi.2⟩

theorem of_forall₂ {R : α → β → Prop} (hR : List.Forall₂ R as bs) (h : Aligned as bs a b) :
    R a b := by
  obtain ⟨i, ha, hb⟩ := h
  obtain ⟨hi, rfl⟩ := List.getElem?_eq_some_iff.1 ha
  obtain ⟨hi', rfl⟩ := List.getElem?_eq_some_iff.1 hb
  exact hR.get hi hi'

theorem eq_of_same {as : List α} {a b : α} (h : Aligned as as a b) : a = b :=
  h.of_forall₂ (List.forall₂_same.2 fun _ _ => rfl)

/-- In lists of one length every member has another one beside it. -/
theorem exists_right (hlength : as.length = bs.length) (ha : a ∈ as) : ∃ b, Aligned as bs a b := by
  obtain ⟨i, hi, rfl⟩ := List.mem_iff_getElem.1 ha
  have hother : i < bs.length := hlength ▸ hi
  exact ⟨bs[i], i, List.getElem?_eq_getElem hi, List.getElem?_eq_getElem hother⟩

/-- Between members at one place stands a member of a list between them. -/
theorem exists_between (hlength : bs.length = as.length) (h : Aligned as cs a c) :
    ∃ b, Aligned as bs a b ∧ Aligned bs cs b c := by
  obtain ⟨i, ha, hc⟩ := h
  obtain ⟨hi, -⟩ := List.getElem?_eq_some_iff.1 ha
  have hb := List.getElem?_eq_getElem (show i < bs.length from hlength ▸ hi)
  exact ⟨_, ⟨i, ha, hb⟩, i, hb, hc⟩

/-- Where two lists have the same keys, so have their members at one place. -/
theorem key_eq {as bs : Fields α} {a b : String × α} (hkeys : bs.map (·.1) = as.map (·.1))
    (h : Aligned as bs a b) : b.1 = a.1 := by
  obtain ⟨i, ha, hb⟩ := h
  have hi : (bs.map (·.1))[i]? = (as.map (·.1))[i]? := by rw [hkeys]
  simpa [List.getElem?_map, ha, hb] using hi

/-- Where the keys of a list are distinct, a key is at one place only. -/
theorem eq_of_key_eq {as : Fields α} {bs : Fields β} {a c : String × α} {b d : String × β}
    (hnodup : as.keys.Nodup) (h : Aligned as bs a b) (hother : Aligned as bs c d)
    (hkey : a.1 = c.1) : b = d := by
  obtain ⟨i, ha, hb⟩ := h
  obtain ⟨j, hc, hd⟩ := hother
  obtain ⟨hi, -⟩ := List.getElem?_eq_some_iff.1 ha
  obtain rfl : i = j := (List.getElem?_inj (by simpa [Fields.keys] using hi) hnodup).1
    (by simp [Fields.keys, List.getElem?_map, ha, hc, hkey])
  exact Option.some.inj (hb.symm.trans hd)

end Aligned

/-! ## Pairings -/

namespace IsPairing

variable {config : Config} {arguments others more : Fields Value}
  {pairs links : String × Value → String × Value → Prop}

/-- Arguments under the same keys are paired by their places. -/
theorem of_keys_eq (config : Config) (hkeys : others.keys = arguments.keys) :
    IsPairing config arguments others (Aligned arguments others) := by
  have hlength : arguments.length = others.length := by
    simpa [Fields.keys] using (congrArg List.length hkeys).symm
  refine ⟨Aligned.mem, fun a ha => Aligned.exists_right hlength ha, fun b hb => ?_,
    fun h => Or.inl (h.key_eq hkeys).symm, fun h hother => ?_⟩
  · exact (Aligned.exists_right hlength.symm hb).imp fun _ => Aligned.symm
  · rw [h.key_eq hkeys, hother.key_eq hkeys]

theorem symm (h : IsPairing config arguments others pairs) :
    IsPairing config others arguments fun b a => pairs a b where
  mem hpair := (h.mem hpair).symm
  left := h.right
  right := h.left
  names hpair := (h.names hpair).imp Eq.symm And.symm
  oneToOne hpair hother := (h.oneToOne hpair hother).symm

/-- One pairing after the other. -/
theorem comp (h : IsPairing config arguments others pairs)
    (hmore : IsPairing config others more links) :
    IsPairing config arguments more fun a c => ∃ b, pairs a b ∧ links b c where
  mem := fun ⟨_, hpair, hlink⟩ => ⟨(h.mem hpair).1, (hmore.mem hlink).2⟩
  left a ha := by
    obtain ⟨b, hpair⟩ := h.left a ha
    obtain ⟨c, hlink⟩ := hmore.left b (h.mem hpair).2
    exact ⟨c, b, hpair, hlink⟩
  right c hc := by
    obtain ⟨b, hlink⟩ := hmore.right c hc
    obtain ⟨a, hpair⟩ := h.right b (hmore.mem hlink).1
    exact ⟨a, b, hpair, hlink⟩
  names := by
    rintro a c ⟨b, hpair, hlink⟩
    rcases h.names hpair with hsame | ⟨hleft, hmid⟩
    · exact (hmore.names hlink).imp hsame.trans fun hnumber => ⟨hsame ▸ hnumber.1, hnumber.2⟩
    · rcases hmore.names hlink with hsame | ⟨-, hright⟩
      · exact Or.inr ⟨hleft, hsame ▸ hmid⟩
      · exact Or.inr ⟨hleft, hright⟩
  oneToOne := fun ⟨_, hpair, hlink⟩ ⟨_, hother, hnext⟩ =>
    (h.oneToOne hpair hother).trans (hmore.oneToOne hlink hnext)

/-- Only no arguments are paired with no arguments. -/
theorem eq_nil_iff (h : IsPairing config arguments others pairs) :
    others = [] ↔ arguments = [] := by
  refine ⟨fun hnil => ?_, fun hnil => ?_⟩ <;> subst hnil
  · exact List.eq_nil_iff_forall_not_mem.2 fun a ha => by
      obtain ⟨b, hpair⟩ := h.left a ha
      simpa using (h.mem hpair).2
  · exact List.eq_nil_iff_forall_not_mem.2 fun b hb => by
      obtain ⟨a, hpair⟩ := h.right b hb
      simpa using (h.mem hpair).1

/-- The keys of paired arguments are keys. -/
theorem mem_keys (h : IsPairing config arguments others pairs) {a b : String × Value}
    (hpair : pairs a b) : a.1 ∈ arguments.keys ∧ b.1 ∈ others.keys :=
  ⟨List.mem_map_of_mem (h.mem hpair).1, List.mem_map_of_mem (h.mem hpair).2⟩

end IsPairing

/-! ## Pieces -/

namespace Piece.Alike

variable {config : Config} {arguments others more : Fields Value}
  {pairs links : String × Value → String × Value → Prop} {p q r : Piece}

theorem symm (h : Alike arguments others pairs p q) :
    Alike others arguments (fun b a => pairs a b) q p := by
  cases h with
  | char c => exact .char c
  | escape hread => exact .escape hread
  | unbound hread hleft hright => exact .unbound hread hright hleft
  | argument hread hother hpair => exact .argument hother hread hpair

/-- Where arguments have the same keys, a piece is alike to itself. -/
theorem of_keys_eq (hkeys : others.keys = arguments.keys) (piece : Piece) :
    Alike arguments others (Aligned arguments others) piece piece := by
  have hlength : arguments.length = others.length := by
    simpa [Fields.keys] using (congrArg List.length hkeys).symm
  cases piece with
  | char c => exact .char c
  | hole hole =>
      cases hread : Placeholder.ofHole? hole with
      | none => exact .escape hread
      | some placeholder =>
          by_cases hown : placeholder.name ∈ arguments.keys
          · obtain ⟨a, ha, hname⟩ := List.mem_map.1 hown
            obtain ⟨b, hbeside⟩ := Aligned.exists_right hlength ha
            have hleft : Placeholder.ofHole? hole = some ⟨a.1, placeholder.attr⟩ := by
              rw [hread, hname]
            exact .argument hleft (by rw [hleft, hbeside.key_eq hkeys]) hbeside
          · exact .unbound hread hown (hkeys ▸ hown)

theorem trans (hpairing : IsPairing config arguments others pairs)
    (hlinks : IsPairing config others more links) (h : Alike arguments others pairs p q)
    (hmore : Alike others more links q r) :
    Alike arguments more (fun a c => ∃ b, pairs a b ∧ links b c) p r := by
  cases h with
  | char c =>
      cases hmore
      exact .char c
  | escape hread =>
      cases hmore with
      | escape => exact .escape hread
      | unbound hother => simp [hread] at hother
      | argument hother => simp [hread] at hother
  | unbound hread hleft hright =>
      cases hmore with
      | escape hother => simp [hread] at hother
      | unbound hother _ hlast =>
          obtain rfl := Option.some.inj (hread.symm.trans hother)
          exact .unbound hread hleft hlast
      | argument hother _ hlink =>
          obtain rfl := Option.some.inj (hread.symm.trans hother)
          exact absurd (hlinks.mem_keys hlink).1 hright
  | @argument hole other a b attr hread hother hpair =>
      cases hmore with
      | escape hnone => simp [hother] at hnone
      | unbound hsome hright =>
          obtain rfl := Option.some.inj (hother.symm.trans hsome)
          exact absurd (hpairing.mem_keys hpair).2 hright
      | @argument _ last c d attr' hsome hlast hlink =>
          have hname := hother.symm.trans hsome
          simp only [Option.some.injEq, Placeholder.mk.injEq] at hname
          obtain ⟨hname, rfl⟩ := hname
          -- The middle name may occur twice, but then its partners have one name as well.
          obtain ⟨partner, hpartner⟩ := hlinks.left b (hpairing.mem hpair).2
          have hsame : partner.1 = d.1 := (hlinks.oneToOne hpartner hlink).1 hname
          exact .argument hread (hsame ▸ hlast) ⟨b, hpair, hpartner⟩

/-- Alike pieces are holes both or characters both. -/
theorem isHole_eq (h : Alike arguments others pairs p q) : q.isHole = p.isHole := by
  cases h <;> rfl

theorem hasHoles_eq {pattern other : String}
    (h : List.Forall₂ (Alike arguments others pairs) (Pattern.pieces pattern)
      (Pattern.pieces other)) : Pattern.hasHoles other = Pattern.hasHoles pattern := by
  unfold Pattern.hasHoles
  generalize Pattern.pieces pattern = pieces, Pattern.pieces other = written at h
  induction h with
  | nil => rfl
  | cons hpiece _ ih => rw [List.any_cons, List.any_cons, hpiece.isHole_eq, ih]

/-- Patterns without holes are alike only if they are the same. -/
theorem eq_of_not_hasHoles {pattern other : String}
    (h : List.Forall₂ (Alike arguments others pairs) (Pattern.pieces pattern)
      (Pattern.pieces other)) (hholes : Pattern.hasHoles pattern = false) : other = pattern := by
  rw [← Pattern.render_pieces other, ← Pattern.render_pieces pattern]
  have hpieces : ∀ piece ∈ Pattern.pieces pattern, piece.isHole = false := by
    simpa [Pattern.hasHoles] using hholes
  refine congrArg Pattern.render (List.forall₂_eq_eq_eq.le _ _ ?_).symm
  refine h.imp_of_mem fun {p q} hp _ hpiece => ?_
  have hhole := hpieces p hp
  cases hpiece <;> simp_all [Piece.isHole]

end Piece.Alike

/-! ## Values -/

namespace Value

variable {config : Config} {splicing : Splicing} {v w x : Value}

/-- A tame value is alike to itself. -/
theorem IsTame.alike (h : v.IsTame config splicing) : v.Alike config v := by
  induction h with
  | scalar s => exact .scalar s
  | @ordinary v hv hordinary _ ih =>
      have hsame := @Alike.ordinary config v v.children hv hordinary rfl fun a b hbeside => by
        obtain rfl := hbeside.eq_of_same
        exact ih a hbeside.mem.1
      rwa [withChildren_children] at hsame
  | target hform hplaceholder => exact .target hform hplaceholder
  | template _ _ _ _ ih =>
      refine .template (IsPairing.of_keys_eq config rfl)
        (List.forall₂_same.2 fun piece _ => Piece.Alike.of_keys_eq rfl piece) rfl ?_
      intro a b hbeside
      obtain rfl := hbeside.eq_of_same
      exact ih a hbeside.mem.1

/-! ### Inversion -/

/-- Ordinary values are alike if they have the same keys and their parts are alike. -/
theorem Alike.exists_parts (hv : v.isCompound = true) (hordinary : v.isReserved = false)
    (h : v.Alike config w) : ∃ parts, w = v.withChildren parts ∧
      parts.map (·.1) = v.children.map (·.1) ∧
      ∀ a b, Aligned v.children parts a b → a.2.Alike config b.2 := by
  cases h with
  | scalar => simp [isCompound] at hv
  | ordinary _ _ hkeys hparts => exact ⟨_, rfl, hkeys, hparts⟩
  | target hform => simp [Form.isReserved_of_recognize? hform] at hordinary
  | template => simp [isReserved_template] at hordinary

/-- What asks for an entity is only alike to itself. -/
theorem Alike.eq_of_target {form : Form} {placeholder : Placeholder}
    (hform : Form.recognize? v = .ok (some form))
    (hplaceholder : form.placeholder? = some placeholder) (h : v.Alike config w) : w = v := by
  cases h with
  | scalar => rfl
  | ordinary _ hordinary => simp [Form.isReserved_of_recognize? hform] at hordinary
  | target => rfl
  | template =>
      rw [Form.recognize?_template] at hform
      obtain rfl := Option.some.inj (Except.ok.inj hform)
      simp [Form.placeholder?] at hplaceholder

theorem Alike.exists_template {pattern : String} {arguments : Option (Fields Value)}
    (h : (Value.template pattern arguments).Alike config w) : ∃ other others pairs,
      w = Value.template other others ∧
      IsPairing config (arguments.getD []) (others.getD []) pairs ∧
      List.Forall₂ (Piece.Alike (arguments.getD []) (others.getD []) pairs)
        (Pattern.pieces pattern) (Pattern.pieces other) ∧
      others.isSome = arguments.isSome ∧ ∀ a b, pairs a b → a.2.Alike config b.2 := by
  generalize hu : Value.template pattern arguments = u at h
  cases h with
  | scalar => simp [Value.template] at hu
  | ordinary _ hordinary => simp [← hu, isReserved_template] at hordinary
  | target hform hplaceholder =>
      rw [← hu, Form.recognize?_template] at hform
      obtain rfl := Option.some.inj (Except.ok.inj hform)
      simp [Form.placeholder?] at hplaceholder
  | template hpairing hpieces hsome hvalues =>
      obtain ⟨rfl, rfl⟩ := Form.template_inj.1 hu
      exact ⟨_, _, _, rfl, hpairing, hpieces, hsome, hvalues⟩

/-! ### Laws -/

theorem Alike.symm (h : v.Alike config w) : w.Alike config v := by
  induction h with
  | scalar s => exact .scalar s
  | @ordinary v parts hv hordinary hkeys _ ih =>
      have hback := @Alike.ordinary config (v.withChildren parts) v.children
        (by rw [isCompound_withChildren, hv]) (by rw [isReserved_withChildren hkeys, hordinary])
        (by rw [children_withChildren hkeys, hkeys]) (by
          rw [children_withChildren hkeys]
          exact fun b a hbeside => ih a b hbeside.symm)
      rwa [withChildren_withChildren hkeys rfl, withChildren_children] at hback
  | target hform hplaceholder => exact .target hform hplaceholder
  | template hpairing hpieces hsome _ ih =>
      exact .template hpairing.symm (hpieces.flip.imp fun _ _ h => h.symm) hsome.symm
        fun b a hpair => ih a b hpair

theorem Alike.trans (h : v.Alike config w) (hmore : w.Alike config x) : v.Alike config x := by
  induction h generalizing x with
  | scalar s => exact hmore
  | @ordinary v parts hv hordinary hkeys _ ih =>
      obtain ⟨others, rfl, hothers, hparts⟩ := hmore.exists_parts
        (by rw [isCompound_withChildren, hv]) (by rw [isReserved_withChildren hkeys, hordinary])
      rw [children_withChildren hkeys] at hothers hparts
      have hsame := hothers.trans hkeys
      rw [withChildren_withChildren hkeys hsame]
      refine .ordinary hv hordinary hsame fun a c hbeside => ?_
      have hlength : parts.length = v.children.length := by simpa using congrArg List.length hkeys
      obtain ⟨b, hfirst, hsecond⟩ := hbeside.exists_between hlength
      exact ih a b hfirst (hparts b c hsecond)
  | target hform hplaceholder =>
      obtain rfl := hmore.eq_of_target hform hplaceholder
      exact .target hform hplaceholder
  | template hpairing hpieces hsome _ ih =>
      obtain ⟨other, others, links, rfl, hlinks, hlast, hsome', hvalues⟩ := hmore.exists_template
      refine .template (hpairing.comp hlinks) ?_ (hsome'.trans hsome) ?_
      · exact (hpieces.comp hlast).imp fun _ _ ⟨_, hfirst, hsecond⟩ =>
          hfirst.trans hpairing hlinks hsecond
      · rintro a c ⟨b, hpair, hlink⟩
        exact ih a b hpair (hvalues b c hlink)

/-- Ordinary nodes with alike parts are alike. -/
theorem alike_withChildren {parts others : Fields Value} (hv : v.isCompound = true)
    (hordinary : v.isReserved = false) (hkeys : parts.map (·.1) = v.children.map (·.1))
    (h : List.Forall₂ (fun a b => b.1 = a.1 ∧ a.2.Alike config b.2) parts others) :
    (v.withChildren parts).Alike config (v.withChildren others) := by
  have hsame : others.map (·.1) = parts.map (·.1) := (h.map_eq_map fun h => h.1.symm).symm
  rw [← withChildren_withChildren hkeys (hsame.trans hkeys)]
  refine .ordinary (by rw [isCompound_withChildren, hv])
    (by rw [isReserved_withChildren hkeys, hordinary]) ?_ ?_
  · rw [children_withChildren hkeys, hsame]
  · rw [children_withChildren hkeys]
    exact fun a b hbeside => (hbeside.of_forall₂ h).2

theorem inserted?_template (pattern : String) (arguments : Option (Fields Value)) :
    (Value.template pattern arguments).inserted? = none := by
  have hpeek := Form.peek_eq_some_iff.2 (Form.recognize?_template pattern arguments)
  have hunfold : (Value.template pattern arguments).inserted? =
      ((Form.peek (Value.template pattern arguments)).bind Form.placeholder?).map
        Placeholder.text := rfl
  rw [hunfold, hpeek]
  rfl

/-- Alike values come into a pattern as the same text, unless they are added as arguments. -/
theorem Alike.inserted?_eq (h : v.Alike config w) : w.inserted? = v.inserted? := by
  cases h with
  | scalar => rfl
  | target => rfl
  | ordinary hv hordinary hkeys =>
      have hnone : ∀ {u : Value}, u.isCompound = true → u.isReserved = false →
          u.inserted? = none := by
        intro u hu hordinary
        have hpeek : Form.peek u = none := by
          simp [Form.peek, recognize?_of_not_isReserved hordinary, Except.toOption]
        cases u <;> simp_all [inserted?, isCompound]
      rw [hnone hv hordinary, hnone (by rw [isCompound_withChildren, hv])
        (by rw [isReserved_withChildren hkeys, hordinary])]
  | template => rw [inserted?_template, inserted?_template]

end Value

end StackLinker
