import Mathlib.Data.List.Infix
import StackLinker.CommandLine.Run
import StackLinker.Proofs.Config.Markers
import StackLinker.Proofs.Linking.Environments

/-!
# Names of variables

The name of a variable is a marker with the spelling of a full name behind it: the separator becomes
a low line, letters are brought into upper case, and anything else but digits becomes a low line.
So a spelling consists of capital letters, digits and low lines.  All such texts are spellings, with
one exception: a separator made of digits leaves no occurrence of itself (`isSpelling_spelling`,
`exists_spelling`).

Secrets have a marker of their own.  A configuration file must not give the same marker to secrets
and to other entities, but this alone does not keep their variables apart.  They are apart if and
only if neither marker is the other one with a spelling behind it (`secrets_apart_iff`).
-/

theorem List.map_eq_self {α : Type} {f : α → α} {xs : List α} (h : ∀ x ∈ xs, f x = x) :
    xs.map f = xs :=
  calc xs.map f = xs.map id := List.map_congr_left h
    _ = xs := List.map_id xs

namespace StackLinker

/-! ## Characters -/

namespace Text

/-- A statement on the first characters of the code, decided one by one. -/
theorem ascii_induction {P : Char → Prop} (hall : ∀ n < 128, P (Char.ofNat n)) {c : Char}
    (h : c.toNat < 128) : P c := by
  have hself : Char.ofNat c.toNat = c := Char.ofNat_toNat c
  exact hself ▸ hall c.toNat h

theorem toNat_lt_of_le {c last : Char} (h : c.val ≤ last.val) (hlast : last.toNat < 128) :
    c.toNat < 128 :=
  Nat.lt_of_le_of_lt (UInt32.le_iff_toNat_le.1 h) hlast

theorem toNat_lt_of_isUpper {c : Char} (h : c.isUpper = true) : c.toNat < 128 := by
  have hle : c.val ≤ 'Z'.val := (of_decide_eq_true h).2
  exact toNat_lt_of_le hle (by decide)

theorem toNat_lt_of_isLower {c : Char} (h : c.isLower = true) : c.toNat < 128 := by
  have hle : c.val ≤ 'z'.val := of_decide_eq_true (Bool.and_eq_true_iff.1 h).2
  exact toNat_lt_of_le hle (by decide)

theorem toNat_lt_of_isDigit {c : Char} (h : c.isDigit = true) : c.toNat < 128 := by
  have hle : c.val ≤ '9'.val := of_decide_eq_true (Bool.and_eq_true_iff.1 h).2
  exact toNat_lt_of_le hle (by decide)

theorem toNat_lt_of_isAlphanum {c : Char} (h : c.isAlphanum = true) : c.toNat < 128 := by
  rcases Bool.or_eq_true_iff.1 h with halpha | hdigit
  · rcases Bool.or_eq_true_iff.1 halpha with hupper | hlower
    · exact toNat_lt_of_isUpper hupper
    · exact toNat_lt_of_isLower hlower
  · exact toNat_lt_of_isDigit hdigit

end Text

namespace Entity

/-- The characters of variable names. -/
def isEnvChar (c : Char) : Bool := c.isUpper || c.isDigit || c == '_'

theorem isEnvChar_envChar (c : Char) : isEnvChar (envChar c) = true := by
  by_cases h : c.isAlphanum = true
  · exact Text.ascii_induction (P := fun c => isEnvChar (envChar c) = true) (by decide)
      (Text.toNat_lt_of_isAlphanum h)
  · rw [envChar, if_neg h]
    rfl

/-- Only a digit becomes a digit. -/
theorem envChar_of_isDigit {c : Char} (h : (envChar c).isDigit = true) : envChar c = c := by
  by_cases hc : c.isAlphanum = true
  · exact Text.ascii_induction
      (P := fun c => (envChar c).isDigit = true → envChar c = c) (by decide)
      (Text.toNat_lt_of_isAlphanum hc) h
  · rw [envChar, if_neg hc] at h
    simp at h

theorem toNat_lt_of_isEnvChar {c : Char} (h : isEnvChar c = true) : c.toNat < 128 := by
  simp only [isEnvChar, Bool.or_eq_true, beq_iff_eq] at h
  rcases h with (h | h) | rfl
  · exact Text.toNat_lt_of_isUpper h
  · exact Text.toNat_lt_of_isDigit h
  · decide

/-- A character that becomes the given one, and is not the one to be avoided. -/
def envSource (avoided c : Char) : Char :=
  if c ≠ avoided then c else if c = '_' then '-' else c.toLower

theorem envChar_of_isEnvChar {c : Char} (h : isEnvChar c = true) : envChar c = c ∧ c ≠ '.' :=
  Text.ascii_induction (P := fun c => isEnvChar c = true → envChar c = c ∧ c ≠ '.') (by decide)
    (toNat_lt_of_isEnvChar h) h

/-- Only digits have no other source than themselves. -/
theorem envChar_envSource {avoided c : Char} (havoided : avoided.isDigit = false)
    (hc : isEnvChar c = true) : envChar (envSource avoided c) = c ∧ envSource avoided c ≠ avoided ∧
      envSource avoided c ≠ '.' := by
  by_cases hne : c = avoided
  · subst hne
    refine Text.ascii_induction (P := fun c => c.isDigit = false → isEnvChar c = true →
      envChar (envSource c c) = c ∧ envSource c c ≠ c ∧ envSource c c ≠ '.') (by decide)
      (toNat_lt_of_isEnvChar hc) havoided hc
  · have hself : envSource avoided c = c := if_pos hne
    obtain ⟨hchar, hdot⟩ := envChar_of_isEnvChar hc
    rw [hself]
    exact ⟨hchar, hne, hdot⟩

end Entity

/-! ## Separators -/

namespace Text

variable {pattern text front : List Char} {r : Char}

/-- Of two texts that start the same text, one is the start of the other one. -/
theorem exists_tail_of_append_eq {first second x y : String} (h : first ++ x = second ++ y) :
    (∃ tail, second = first ++ tail ∧ x = tail ++ y) ∨
      ∃ tail, first = second ++ tail ∧ y = tail ++ x := by
  rw [← String.toList_inj, String.toList_append, String.toList_append,
    List.append_eq_append_iff] at h
  refine h.imp ?_ ?_
  all_goals
    rintro ⟨tail, hfront, hback⟩
    refine ⟨String.ofList tail, String.toList_injective ?_, String.toList_injective ?_⟩
    · simp [hfront]
    · simp [hback]

/-- A text in which the pattern does not occur stays as it is. -/
theorem replaceFrom_of_absent (replacement : List Char) (h : ¬ pattern <:+: text) :
    replaceFrom pattern replacement 0 text = text := by
  induction text with
  | nil => rfl
  | cons c rest ih =>
      have hfront : ¬ pattern <+: c :: rest := fun hstart => h hstart.isInfix
      have hrest : ¬ pattern <:+: rest := fun hoccurs => h (List.infix_cons hoccurs)
      rw [replaceFrom, if_neg (by simpa using hfront), ih hrest]

/-- What stands at the start after replacing, without the replacement, stood there before. -/
theorem prefix_of_prefix_replaceFrom (hr : r ∉ front)
    (h : front <+: replaceFrom pattern [r] 0 text) : front <+: text := by
  induction text generalizing front with
  | nil => exact h
  | cons c rest ih =>
      cases front with
      | nil => exact List.nil_prefix
      | cons d front =>
          obtain ⟨hd, hfront⟩ := not_or.1 (fun h => hr (List.mem_cons.2 h))
          rw [replaceFrom] at h
          split at h
          · exact absurd (List.cons_prefix_cons.1 h).1.symm hd
          · obtain ⟨heq, hrest⟩ := List.cons_prefix_cons.1 h
            exact List.cons_prefix_cons.2 ⟨heq, ih hfront hrest⟩

/-- A pattern does not occur any more when all its occurrences have been replaced by a character
that it does not have. -/
theorem replaceFrom_removes (hr : r ∉ pattern) (hne : pattern ≠ []) (skip : Nat) :
    ¬ pattern <:+: replaceFrom pattern [r] skip text := by
  induction text generalizing skip with
  | nil => simpa [replaceFrom] using hne
  | cons c rest ih =>
      cases skip with
      | succ skip => exact ih skip
      | zero =>
          by_cases hfront : pattern <+: c :: rest
          · rw [replaceFrom, if_pos (by simpa using hfront), List.singleton_append,
              List.infix_cons_iff]
            rintro (hstart | hoccurs)
            · obtain ⟨d, front, rfl⟩ := List.exists_cons_of_ne_nil hne
              exact hr ((List.cons_prefix_cons.1 hstart).1 ▸ List.mem_cons_self)
            · exact ih _ hoccurs
          · have hstep : replaceFrom pattern [r] 0 (c :: rest) =
                c :: replaceFrom pattern [r] 0 rest := by
              rw [replaceFrom, if_neg (by simpa using hfront)]
            rw [hstep, List.infix_cons_iff]
            rintro (hstart | hoccurs)
            · rw [← hstep] at hstart
              exact hfront (prefix_of_prefix_replaceFrom hr hstart)
            · exact ih 0 hoccurs

end Text

namespace Entity

/-! ## Spellings -/

/-- The spelling of a full name in the names of variables. -/
def spelling (separator fullName : String) : String :=
  String.ofList ((Text.replaceAll separator "_" fullName).toList.map envChar)

/-- The texts that are spellings. -/
structure IsSpelling (separator text : String) : Prop where
  chars : ∀ c ∈ text.toList, isEnvChar c = true
  /-- A separator made of digits does not occur. -/
  digits : (∀ c ∈ separator.toList, c.isDigit = true) → ¬ separator.toList <:+: text.toList

variable {separator text tail : String}

theorem isSpelling_iff : IsSpelling separator text ↔ text.toList.all isEnvChar = true ∧
    (separator.toList.all Char.isDigit = true → ¬ separator.toList <:+: text.toList) := by
  simp only [List.all_eq_true]
  exact ⟨fun h => ⟨h.chars, h.digits⟩, fun h => ⟨h.1, h.2⟩⟩

instance : Decidable (IsSpelling separator text) := decidable_of_iff' _ isSpelling_iff

theorem toList_spelling (hne : separator ≠ "") (fullName : String) :
    (spelling separator fullName).toList =
      (Text.replaceFrom separator.toList ['_'] 0 fullName.toList).map envChar := by
  have hempty : ¬ separator.isEmpty = true := by simpa using hne
  rw [spelling, Text.replaceAll, if_neg hempty, String.toList_ofList, String.toList_ofList]
  rfl

/-- Digits among mapped characters come from the same digits. -/
theorem occurs_of_occurs_map_envChar {front chars : List Char}
    (hdigits : ∀ c ∈ front, c.isDigit = true) (h : front <:+: chars.map envChar) :
    front <:+: chars := by
  obtain ⟨before, after, heq⟩ := h
  obtain ⟨rest, back, hchars, hrest, -⟩ := List.map_eq_append_iff.1 heq.symm
  obtain ⟨start, found, rfl, -, hfound⟩ := List.map_eq_append_iff.1 hrest
  have hself : found.map envChar = found := by
    refine List.map_eq_self fun c hc => envChar_of_isDigit (hdigits _ ?_)
    rw [← hfound]
    exact List.mem_map_of_mem hc
  rw [hself] at hfound
  exact ⟨start, back, by rw [hchars, hfound]⟩

theorem isSpelling_spelling (hne : separator ≠ "") (fullName : String) :
    IsSpelling separator (spelling separator fullName) where
  chars c hc := by
    rw [toList_spelling hne] at hc
    obtain ⟨source, -, rfl⟩ := List.mem_map.1 hc
    exact isEnvChar_envChar source
  digits hdigits hoccurs := by
    have hlow : '_' ∉ separator.toList := fun hmem => absurd (hdigits _ hmem) (by decide)
    have hnil : separator.toList ≠ [] := fun hnil => hne (String.toList_eq_nil_iff.1 hnil)
    rw [toList_spelling hne] at hoccurs
    exact Text.replaceFrom_removes hlow hnil 0 (occurs_of_occurs_map_envChar hdigits hoccurs)

/-- Every such text is the spelling of a name that an entity may have. -/
theorem exists_spelling (h : IsSpelling separator text) (hne : separator ≠ "") (htext : text ≠ "") :
    ∃ fullName, ModuleGraph.isAddressable fullName = true ∧
      spelling separator fullName = text := by
  have hsource : ∃ source : List Char, source.map envChar = text.toList ∧
      ¬ separator.toList <:+: source ∧ '.' ∉ source := by
    by_cases hdigits : ∀ c ∈ separator.toList, c.isDigit = true
    · have hself : ∀ c ∈ text.toList, envChar c = c ∧ c ≠ '.' := fun c hc =>
        envChar_of_isEnvChar (h.chars c hc)
      refine ⟨text.toList, List.map_eq_self fun c hc => (hself c hc).1, h.digits hdigits,
        fun hdot => (hself _ hdot).2 rfl⟩
    · obtain ⟨avoided, hmem, hdigit⟩ : ∃ c ∈ separator.toList, c.isDigit = false := by
        simpa using hdigits
      have hchar : ∀ c ∈ text.toList, envChar (envSource avoided c) = c ∧
          envSource avoided c ≠ avoided ∧ envSource avoided c ≠ '.' := fun c hc =>
        envChar_envSource hdigit (h.chars c hc)
      refine ⟨text.toList.map (envSource avoided), ?map, fun hoccurs => ?absent, fun hdot => ?dot⟩
      case map =>
        rw [List.map_map]
        exact List.map_eq_self fun c hc => (hchar c hc).1
      case absent =>
        obtain ⟨c, hc, heq⟩ := List.mem_map.1 (hoccurs.subset hmem)
        exact (hchar c hc).2.1 heq
      case dot =>
        obtain ⟨c, hc, heq⟩ := List.mem_map.1 hdot
        exact (hchar c hc).2.2 heq
  obtain ⟨source, hmap, hoccurs, hdot⟩ := hsource
  have hnil : source ≠ [] := by
    rintro rfl
    exact htext (String.toList_eq_nil_iff.1 hmap.symm)
  refine ⟨String.ofList source, ?_, ?_⟩
  · simp [ModuleGraph.isAddressable, hnil, hdot]
  · apply String.toList_injective
    rw [toList_spelling hne, String.toList_ofList, Text.replaceFrom_of_absent _ hoccurs, hmap]

theorem IsSpelling.of_append (h : IsSpelling separator (text ++ tail)) :
    IsSpelling separator text where
  chars c hc := h.chars c (by simp [hc])
  digits hdigits hoccurs := h.digits hdigits (by
    rw [String.toList_append]
    exact hoccurs.trans (List.prefix_append _ _).isInfix)

/-- A low line may be added to every spelling. -/
theorem IsSpelling.low (h : IsSpelling separator text) : IsSpelling separator (text ++ "_") where
  chars c hc := by
    simp only [String.toList_append, List.mem_append] at hc
    rcases hc with hc | hc
    · exact h.chars c hc
    · obtain rfl : c = '_' := by simpa using hc
      rfl
  digits hdigits hoccurs := by
    have hlow : '_' ∉ separator.toList := fun hmem => absurd (hdigits _ hmem) (by decide)
    have htoList : (text ++ "_").toList = text.toList ++ ['_'] := by simp
    rw [htoList, List.infix_concat_iff, List.suffix_concat_iff] at hoccurs
    rcases hoccurs with (hnil | ⟨front, hsplit, -⟩) | hoccurs
    · exact h.digits hdigits (hnil ▸ List.nil_infix)
    · -- The low line would be part of the occurrence.
      exact hlow (hsplit ▸ by simp)
    · exact h.digits hdigits hoccurs

theorem isSpelling_empty (hne : separator ≠ "") : IsSpelling separator "" where
  chars c hc := by simp at hc
  digits _ hoccurs := hne (String.toList_eq_nil_iff.1 (List.infix_nil.1 hoccurs))

end Entity

/-! ## Markers -/

namespace Config

variable {config : Config}

theorem separator_ne_of_accepted (h : config.fault? = none) : config.separator ≠ "" := by
  rintro hempty
  simp [fault?, hempty] at h

/-- Neither of the two markers for variables is the other one with a spelling behind it. -/
def KeepsSecretsApart (config : Config) : Prop :=
  ∀ tail, Entity.IsSpelling config.separator tail →
    config.secretEnvMarker ≠ config.plainEnvMarker ++ tail ∧
      config.plainEnvMarker ≠ config.secretEnvMarker ++ tail

/-- It is enough to look at what stands behind the shorter marker. -/
theorem keepsSecretsApart_iff : config.KeepsSecretsApart ↔
    (∀ tail ∈ Text.afterMarker? config.plainEnvMarker config.secretEnvMarker,
      ¬ Entity.IsSpelling config.separator tail) ∧
    ∀ tail ∈ Text.afterMarker? config.secretEnvMarker config.plainEnvMarker,
      ¬ Entity.IsSpelling config.separator tail := by
  simp only [Option.mem_def, Text.afterMarker?_eq_some_iff]
  constructor
  · intro h
    exact ⟨fun tail heq hspelling => (h tail hspelling).1 heq,
      fun tail heq hspelling => (h tail hspelling).2 heq⟩
  · rintro ⟨hsecret, hplain⟩ tail hspelling
    exact ⟨fun heq => hsecret tail heq hspelling, fun heq => hplain tail heq hspelling⟩

instance : DecidablePred KeepsSecretsApart := fun _ => decidable_of_iff _ keepsSecretsApart_iff.symm

end Config

namespace Entity

variable {config : Config} {secret other : Entity} {tail : String}

theorem envName_secret (h : secret.typeName = config.secretType) :
    secret.envName config =
      config.secretEnvMarker ++ spelling config.separator secret.fullName := by
  simp only [envName, if_pos h, spelling]

theorem envName_plain (h : other.typeName ≠ config.secretType) :
    other.envName config = config.plainEnvMarker ++ spelling config.separator other.fullName := by
  simp only [envName, if_neg h, spelling]

/-- With one marker longer than the other, the rest of it would be the start of a spelling. -/
theorem envName_ne (hne : config.separator ≠ "") (hapart : config.KeepsSecretsApart)
    (hsecret : secret.typeName = config.secretType) (hother : other.typeName ≠ config.secretType) :
    secret.envName config ≠ other.envName config := by
  intro heq
  rw [envName_secret hsecret, envName_plain hother] at heq
  rcases Text.exists_tail_of_append_eq heq with
    ⟨tail, hmarker, hspelling⟩ | ⟨tail, hmarker, hspelling⟩
  · have htail := isSpelling_spelling hne secret.fullName
    rw [hspelling] at htail
    exact (hapart tail htail.of_append).2 hmarker
  · have htail := isSpelling_spelling hne other.fullName
    rw [hspelling] at htail
    exact (hapart tail htail.of_append).1 hmarker

/-- If one marker is the other one with a spelling behind it, an entity of the longer marker is
called like one of the shorter marker whose name has the rest of the marker in front. -/
theorem exists_shared (hne : config.separator ≠ "") {marker longer : String}
    (htail : IsSpelling config.separator tail) (hlonger : longer = marker ++ tail) :
    ∃ long short : String, ModuleGraph.isAddressable long = true ∧
      ModuleGraph.isAddressable short = true ∧
      longer ++ spelling config.separator long = marker ++ spelling config.separator short := by
  have hlow : ∀ {text : String}, text ++ "_" ≠ "" := by
    intro text h
    simpa using congrArg String.toList h
  obtain ⟨long, hlong, hspelling⟩ := exists_spelling (isSpelling_empty hne).low hne hlow
  obtain ⟨short, hshort, hrest⟩ := exists_spelling htail.low hne hlow
  refine ⟨long, short, hlong, hshort, ?_⟩
  rw [hspelling, hrest, hlonger, String.append_assoc, String.empty_append]

/-- An accepted configuration keeps the variables of secrets and those of other entities apart if
and only if neither marker is the other one with a spelling behind it.  Otherwise there are entities
with valid names, one a secret and the other not, that have the same variable. -/
theorem secrets_apart_iff (haccepted : config.fault? = none) :
    (config.KeepsSecretsApart → ∀ secret other : Entity, secret.typeName = config.secretType →
      other.typeName ≠ config.secretType → secret.envName config ≠ other.envName config) ∧
    (¬ config.KeepsSecretsApart → ∃ secret other : Entity,
      ModuleGraph.isAddressable secret.fullName = true ∧
      ModuleGraph.isAddressable other.fullName = true ∧
      secret.typeName = config.secretType ∧ other.typeName ≠ config.secretType ∧
      secret.envName config = other.envName config) := by
  have hne : config.separator ≠ "" := Config.separator_ne_of_accepted haccepted
  refine ⟨fun hapart secret other => envName_ne hne hapart, fun hshared => ?shared⟩
  case shared =>
    obtain ⟨tail, htail, hmarkers⟩ : ∃ tail, IsSpelling config.separator tail ∧
        (config.secretEnvMarker = config.plainEnvMarker ++ tail ∨
          config.plainEnvMarker = config.secretEnvMarker ++ tail) := by
      simp only [Config.KeepsSecretsApart, not_forall, not_and_or, not_not] at hshared
      obtain ⟨tail, htail, hmarkers⟩ := hshared
      exact ⟨tail, htail, hmarkers⟩
    have hplain : config.secretType ++ "_" ≠ config.secretType := by
      intro h
      simpa using congrArg String.length h
    let secret (fullName : String) : Entity :=
      { fullName := fullName, kind := .value, reference := .null, typeName := config.secretType }
    let other (fullName : String) : Entity :=
      { secret fullName with typeName := config.secretType ++ "_" }
    rcases hmarkers with hlonger | hlonger
    · obtain ⟨long, short, hlong, hshort, heq⟩ := exists_shared hne htail hlonger
      refine ⟨secret long, other short, hlong, hshort, rfl, hplain, ?_⟩
      rw [envName_secret rfl, envName_plain hplain]
      exact heq
    · obtain ⟨long, short, hlong, hshort, heq⟩ := exists_shared hne htail hlonger
      refine ⟨secret short, other long, hshort, hlong, rfl, hplain, ?_⟩
      rw [envName_secret rfl, envName_plain hplain]
      exact heq.symm

/-- Markers of which one starts with the other, but goes on with the separator, a number. -/
def numbered : Config where
  separator := "10"
  secretEnvMarker := "V10"
  plainEnvMarker := "V"

theorem secrets_apart_numbered : numbered.fault? = none ∧ numbered.KeepsSecretsApart ∧
    ∀ secret other : Entity, secret.typeName = numbered.secretType →
      other.typeName ≠ numbered.secretType → secret.envName numbered ≠ other.envName numbered := by
  have haccepted : numbered.fault? = none := by decide
  have hapart : numbered.KeepsSecretsApart := by decide +kernel
  exact ⟨haccepted, hapart, (secrets_apart_iff haccepted).1 hapart⟩

/-- A configuration file in which the marker for secrets is the other one and a letter more. -/
def nearMarkers : CommandLine.Files := fun path =>
  if path = "modlink.toml" then .text "secret_env_prefix = \"STR_X\"\n" else .missing

/-- A function, a secret, and a text that is no secret; the function sees both. -/
def crossed : ModuleGraph where
  name := "Main"
  entities := [
    { fullName := "Run", kind := .function, reference := .ref "Run" },
    { fullName := "Key"
      kind := .value
      reference := .string "hidden"
      scope := ["Run"]
      typeName := "Secret" },
    { fullName := "XKey", kind := .value, reference := .string "open", scope := ["Run"] }]

/-- The configuration is accepted, and the secret and the text have the same variable, so that the
text takes the place of the secret. -/
theorem secret_shares_variable :
    ∃ config : Config, CommandLine.readConfig nearMarkers "modlink.toml" = .ok config ∧
      config.fault? = none ∧ crossed.Valid ∧
      (∃ secret ∈ crossed.entities, ∃ other ∈ crossed.entities,
        secret.typeName = config.secretType ∧ other.typeName ≠ config.secretType ∧
        secret.envName config = other.envName config) ∧
      (crossed.propagate config).2 = .ok [⟨"Run", [("STR_XKEY", .string "open")]⟩] := by
  let config : Config := { secretEnvMarker := "STR_X" }
  have hread : (CommandLine.readConfig nearMarkers "modlink.toml").toOption = some config := by
    decide +kernel
  have hsome : (crossed.propagate config).2.toOption =
      some [⟨"Run", [("STR_XKEY", .string "open")]⟩] := by decide +kernel
  have hshared : ∃ secret ∈ crossed.entities, ∃ other ∈ crossed.entities,
      secret.typeName = config.secretType ∧ other.typeName ≠ config.secretType ∧
      secret.envName config = other.envName config := by decide +kernel
  exact ⟨config, Resolver.eq_ok_of_toOption hread, by decide, ⟨by decide, by decide +kernel⟩,
    hshared, Resolver.eq_ok_of_toOption hsome⟩

end Entity

end StackLinker
