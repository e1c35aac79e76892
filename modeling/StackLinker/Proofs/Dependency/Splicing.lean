import StackLinker.Proofs.Config.Markers
import StackLinker.Proofs.Dependency.Uses
import StackLinker.Proofs.Substitution.Answers

/-!
# Values that are put into patterns

A pass puts texts and written placeholders into patterns, and a later pass reads them there.  Some
of them would be read as something that nobody declared; the definitions of this file say which
values are harmless.

`Splicing` says which names placeholders ask for.  The value of an entity with such a name has to be
spliceable (`Value.IsSpliceable`): its text, or its pattern, is closed, a text has no holes of its
own, and a reference or an attribute can be written as a placeholder.  For all values it is required
that argument maps are not themselves forms, and that a literal dollar sign in front of a
placeholder does no harm (`Value.IsTame`).
-/

namespace StackLinker

/-- What is known of the values that are put into patterns. -/
structure Splicing where
  /-- The names that placeholders ask for. -/
  names : String → Prop
  /-- Whether the texts are neither empty nor start with a brace. -/
  solid : Prop

/-- A pattern that asks for known names only, and in which a literal dollar sign does no harm. -/
structure Splicing.Covers (splicing : Splicing) (pattern : String) : Prop where
  names : ∀ name ∈ Pattern.names pattern, splicing.names name
  join : Pattern.isSpaced (Pattern.pieces pattern) = true ∨ splicing.solid

/-- A text that can be put into a pattern without changing how the rest of it is read. -/
structure Splicing.Admits (splicing : Splicing) (text : String) : Prop
    extends splicing.Covers text where
  closed : Pattern.isClosed text = true
  solid : splicing.solid → Pattern.isSolid text.toList = true

namespace Value

/-- The text of a scalar, or the pattern of a substitution. -/
def written? : Value → Option String
  | .scalar s => some s.text
  | v =>
    match Form.peek v with
    | some (.substitution pattern _) => some pattern
    | _ => none

@[simp] theorem written?_scalar (s : Scalar) : (Value.scalar s).written? = some s.text := rfl

@[simp] theorem written?_template (pattern : String) (arguments : Option (Fields Value)) :
    (template pattern arguments).written? = some pattern := by
  have hpeek := Form.peek_eq_some_iff.2 (Form.recognize?_template pattern arguments)
  unfold template at hpeek ⊢
  simp only [written?, hpeek]

theorem written?_of_placeholder {v : Value} {form : Form} {placeholder : Placeholder}
    (hform : Form.recognize? v = .ok (some form))
    (hplaceholder : form.placeholder? = some placeholder) : v.written? = none := by
  have hpeek := Form.peek_eq_some_iff.2 hform
  cases v with
  | scalar s => simp [Form.recognize?] at hform
  | _ => cases form <;> simp [Form.placeholder?] at hplaceholder <;> simp [written?, hpeek]

/-- The text that comes into a pattern for the value, unless an argument is added for it. -/
def inserted? : Value → Option String
  | .scalar s => some s.text
  | v => ((Form.peek v).bind Form.placeholder?).map Placeholder.text

@[simp] theorem inserted?_scalar (s : Scalar) : (Value.scalar s).inserted? = some s.text := rfl

theorem inserted?_of_placeholder {v : Value} {form : Form} {placeholder : Placeholder}
    (hform : Form.recognize? v = .ok (some form))
    (hplaceholder : form.placeholder? = some placeholder) :
    v.inserted? = some placeholder.text := by
  have hpeek := Form.peek_eq_some_iff.2 hform
  cases v with
  | scalar s => simp [Form.recognize?] at hform
  | _ => simp [inserted?, hpeek, hplaceholder]

/-- A value that is read as it is meant when it is put into a pattern. -/
structure IsSpliceable (config : Config) (splicing : Splicing) (v : Value) : Prop where
  closed : ∀ text, v.written? = some text → Pattern.isClosed text = true
  solid : splicing.solid → ∀ text, v.written? = some text → Pattern.isSolid text.toList = true
  holes : ∀ s, v = .scalar s → Pattern.hasHoles s.text = false
  target : ∀ form placeholder, Form.recognize? v = .ok (some form) →
    form.placeholder? = some placeholder → '}' ∉ Pattern.inner placeholder ∧
      (config.isExempt placeholder.name = false → splicing.names placeholder.name)

/-- A value that passes can go over without adding dependencies. -/
inductive IsTame (config : Config) (splicing : Splicing) : Value → Prop
  | scalar (s : Scalar) : IsTame config splicing (.scalar s)
  | ordinary {v : Value} (hv : v.isCompound = true) (hordinary : v.isReserved = false)
      (h : ∀ child ∈ v.children, IsTame config splicing child.2) : IsTame config splicing v
  | target {v : Value} {form : Form} {placeholder : Placeholder}
      (hform : Form.recognize? v = .ok (some form))
      (hplaceholder : form.placeholder? = some placeholder) : IsTame config splicing v
  | template {pattern : String} {arguments : Option (Fields Value)}
      (hjoin : Pattern.isSpaced (Pattern.pieces pattern) = true ∨ splicing.solid)
      (hnames : ∀ name ∈ (Form.substitution pattern arguments).uses,
        config.isExempt name = false → splicing.names name)
      (hordinary : Fields.isReserved (arguments.getD []) = false)
      (h : ∀ argument ∈ arguments.getD [], IsTame config splicing argument.2) :
      IsTame config splicing (template pattern arguments)

variable {config : Config} {splicing : Splicing} {v : Value}

/-- The parts of an ordinary tame value are tame. -/
theorem IsTame.children (h : v.IsTame config splicing) (hordinary : v.isReserved = false) :
    ∀ child ∈ v.children, child.2.IsTame config splicing := by
  cases h with
  | scalar s => simp [Value.children]
  | ordinary _ _ h => exact h
  | target hform => simp [Form.isReserved_of_recognize? hform] at hordinary
  | template => simp [isReserved_template] at hordinary

/-- Ordinary compound values are not put into patterns, only their names are. -/
theorem isSpliceable_of_ordinary (hv : v.isCompound = true) (hordinary : v.isReserved = false) :
    v.IsSpliceable config splicing := by
  have hform := recognize?_of_not_isReserved hordinary
  have hnone : v.written? = none := by
    cases v with
    | scalar s => simp [isCompound] at hv
    | _ => simp [written?, Form.peek, hform, Except.toOption]
  exact ⟨by simp [hnone], by simp [hnone], by rintro s rfl; simp [isCompound] at hv,
    by simp [hform]⟩

theorem isSpliceable_template {pattern : String} {arguments : Option (Fields Value)}
    (hclosed : Pattern.isClosed pattern = true)
    (hsolid : splicing.solid → Pattern.isSolid pattern.toList = true) :
    (template pattern arguments).IsSpliceable config splicing := by
  refine ⟨by simpa using hclosed, by simpa using hsolid, fun s hs => by simp [template] at hs,
    fun form placeholder hform hplaceholder => ?_⟩
  have := written?_of_placeholder hform hplaceholder
  simp at this

theorem isSpliceable_target {form : Form} {placeholder : Placeholder}
    (hform : Form.recognize? v = .ok (some form))
    (hplaceholder : form.placeholder? = some placeholder)
    (hbrace : '}' ∉ Pattern.inner placeholder)
    (hname : config.isExempt placeholder.name = false → splicing.names placeholder.name) :
    v.IsSpliceable config splicing := by
  have hnone := written?_of_placeholder hform hplaceholder
  refine ⟨by simp [hnone], by simp [hnone], ?_, fun other next hother hnext => ?_⟩
  · rintro s rfl
    simp [Form.recognize?] at hform
  · rw [hform] at hother
    simp only [Except.ok.injEq, Option.some.injEq] at hother
    subst hother
    rw [hplaceholder] at hnext
    obtain rfl := Option.some.inj hnext
    exact ⟨hbrace, hname⟩

end Value

namespace Surroundings

/-- A name of a pattern that nothing binds is noted unless it is settled. -/
theorem mem_unresolved_fill {around : Surroundings} {source name pattern : String} {path : Path}
    {start : Filling} (hname : name ∈ Pattern.names pattern)
    (hown : name ∉ (Pattern.fill (around.answer source path) pattern start).2.arguments.keys)
    (hopen : (around.meaning name).isOpen = true) :
    name ∈ (Pattern.fill (around.answer source path) pattern start).2.outcome.unresolved := by
  obtain ⟨inner, placeholder, hmem, hhole, rfl⟩ := Pattern.mem_names.1 hname
  obtain ⟨asked, -, hto, -⟩ := Pattern.replacement_subset_filledPieces
    (growsTo_answer around source path) hmem hhole start
  have hasked : placeholder.name ∉ asked.arguments.keys := fun h => hown (hto.keys_subset
    ((growsTo_answer around source path placeholder asked).keys_subset h))
  exact hto.outcome.unresolved_subset (answer_of_isOpen hasked hopen).2

end Surroundings

end StackLinker
