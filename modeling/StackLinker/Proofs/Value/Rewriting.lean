import Mathlib.Data.List.Forall2
import Mathlib.Order.Defs.Unbundled
import StackLinker.Form.Rule
import StackLinker.Proofs.Value.Nodes

/-!
# Traversals that reach their end

`Value.traverse` recurses through lists, maps and records by three functions.  Here its successful
runs get one description: `Rewrites rule path v notes w later` says that the traversal of `v` that
starts with `notes` ends with the value `w` and the notes `later`.

* `rewrites_iff` takes a compound node apart: its parts are rewritten from left to right, each with
  the notes that the one before left (`Thread`), and the rule is applied to the node with the new
  parts.
* `rewrites_induction` is the induction principle that goes with it.
* `rewrites_of_not_isReserved` says that under a rule for symbolic forms an ordinary node only
  changes in its parts, which for a record are its two fields (`rewrites_record_iff`).
-/

namespace StackLinker

theorem Path.push_append (path rest : Path) (segment : String) :
    path.push segment ++ rest = path ++ segment :: rest := by
  simp [push]

variable {ν : Type}

/-- Rewriting entries from left to right, each with the notes that the one before left. -/
inductive Thread (R : String → Value → ν → Value → ν → Prop) :
    Fields Value → ν → Fields Value → ν → Prop
  | nil (notes : ν) : Thread R [] notes [] notes
  | cons {key : String} {x y : Value} {rest done : Fields Value} {notes between later : ν}
      (head : R key x notes y between) (tail : Thread R rest between done later) :
      Thread R ((key, x) :: rest) notes ((key, y) :: done) later

namespace Thread

variable {R S : String → Value → ν → Value → ν → Prop} {before after : Fields Value}
  {notes later : ν}

@[simp] theorem thread_nil_iff : Thread R [] notes after later ↔ after = [] ∧ later = notes := by
  constructor
  · rintro ⟨⟩
    exact ⟨rfl, rfl⟩
  · rintro ⟨rfl, rfl⟩
    exact .nil _

theorem thread_cons_iff {key : String} {x : Value} :
    Thread R ((key, x) :: before) notes after later ↔ ∃ y done between,
      after = (key, y) :: done ∧ R key x notes y between ∧ Thread R before between done later := by
  constructor
  · rintro ⟨⟩
    rename_i y done between head tail
    exact ⟨y, done, between, rfl, head, tail⟩
  · rintro ⟨y, done, between, rfl, head, tail⟩
    exact .cons head tail

theorem thread_single_iff {key : String} {x : Value} :
    Thread R [(key, x)] notes after later ↔ ∃ y, after = [(key, y)] ∧ R key x notes y later := by
  rw [thread_cons_iff]
  constructor
  · rintro ⟨y, done, between, rfl, head, tail⟩
    obtain ⟨rfl, rfl⟩ := thread_nil_iff.1 tail
    exact ⟨y, rfl, head⟩
  · rintro ⟨y, rfl, head⟩
    exact ⟨y, [], later, rfl, head, .nil later⟩

theorem mono (h : Thread R before notes after later)
    (hmono : ∀ {key x n y m}, (key, x) ∈ before → R key x n y m → S key x n y m) :
    Thread S before notes after later := by
  induction h with
  | nil notes => exact .nil notes
  | cons head _ ih =>
      exact .cons (hmono List.mem_cons_self head)
        (ih fun hmem hR => hmono (List.mem_cons_of_mem _ hmem) hR)

/-- What can be done again to each entry can be done again to all of them. -/
theorem again (h : Thread R before notes after later)
    (hagain : ∀ {key x n y m}, (key, x) ∈ before → R key x n y m → S key y n y m) :
    Thread S after notes after later := by
  induction h with
  | nil notes => exact .nil notes
  | cons head _ ih =>
      exact .cons (hagain List.mem_cons_self head)
        (ih fun hmem hR => hagain (List.mem_cons_of_mem _ hmem) hR)

theorem append {others done : Fields Value} {last : ν} (h : Thread R before notes after later)
    (hrest : Thread R others later done last) :
    Thread R (before ++ others) notes (after ++ done) last := by
  induction h with
  | nil => exact hrest
  | cons head _ ih => exact .cons head (ih hrest)

/-- The old entries and the new ones, side by side. -/
theorem forall₂ {Q : String × Value → String × Value → Prop}
    (h : Thread R before notes after later)
    (hR : ∀ {key x n y m}, (key, x) ∈ before → R key x n y m → Q (key, x) (key, y)) :
    List.Forall₂ Q before after := by
  induction h with
  | nil => exact .nil
  | cons head _ ih =>
      exact .cons (hR List.mem_cons_self head)
        (ih fun hmem hstep => hR (List.mem_cons_of_mem _ hmem) hstep)

/-- Every entry is rewritten. -/
theorem exists_of_mem (h : Thread R before notes after later) {entry : String × Value}
    (hmem : entry ∈ before) : ∃ n y m, R entry.1 entry.2 n y m := by
  induction h with
  | nil => simp at hmem
  | cons head _ ih =>
      rcases List.mem_cons.1 hmem with rfl | hmem
      · exact ⟨_, _, _, head⟩
      · exact ih hmem

/-- Every new entry comes from an old one. -/
theorem exists_origin (h : Thread R before notes after later) {entry : String × Value}
    (hmem : entry ∈ after) : ∃ x n m, (entry.1, x) ∈ before ∧ R entry.1 x n entry.2 m := by
  induction h with
  | nil => simp at hmem
  | cons head _ ih =>
      rcases List.mem_cons.1 hmem with rfl | hmem
      · exact ⟨_, _, _, List.mem_cons_self, head⟩
      · obtain ⟨x, n, m, hx, hstep⟩ := ih hmem
        exact ⟨x, n, m, List.mem_cons_of_mem _ hx, hstep⟩

/-- What rewriting makes hold of each new entry holds of all of them. -/
theorem forall_after {P : Value → Prop} (h : Thread R before notes after later)
    (hR : ∀ {key x n y m}, R key x n y m → P y) : ∀ entry ∈ after, P entry.2 := by
  intro entry hentry
  obtain ⟨x, n, m, -, hstep⟩ := h.exists_origin hentry
  exact hR hstep

/-- What can be done to each entry can be done to all of them. -/
theorem exists_of_forall (h : ∀ entry ∈ before, ∀ n, ∃ y m, R entry.1 entry.2 n y m) (notes : ν) :
    ∃ after later, Thread R before notes after later := by
  induction before generalizing notes with
  | nil => exact ⟨[], notes, .nil notes⟩
  | cons entry rest ih =>
      obtain ⟨y, between, hhead⟩ := h entry List.mem_cons_self notes
      obtain ⟨done, later, htail⟩ := ih (fun other hother => h other (List.mem_cons_of_mem _ hother))
        between
      exact ⟨(entry.1, y) :: done, later, .cons hhead htail⟩

/-- If every entry stays, all of them do. -/
theorem eq_of_forall (h : Thread R before notes after later)
    (hsame : ∀ {key x n y m}, (key, x) ∈ before → R key x n y m → y = x) : after = before := by
  induction h with
  | nil => rfl
  | cons head _ ih =>
      rw [hsame List.mem_cons_self head, ih fun hmem hR => hsame (List.mem_cons_of_mem _ hmem) hR]

/-- The keys stay. -/
theorem keys_eq (h : Thread R before notes after later) :
    after.map (·.1) = before.map (·.1) := by
  induction h with
  | nil => rfl
  | cons _ _ ih => simp [ih]

/-- What each entry preserves of the notes, all of them preserve. -/
theorem preserves {P : ν → Prop} (h : Thread R before notes after later)
    (hR : ∀ {key x n y m}, (key, x) ∈ before → R key x n y m → P n → P m) (hstart : P notes) :
    P later := by
  induction h with
  | nil => exact hstart
  | cons head _ ih =>
      exact ih (fun hmem hstep => hR (List.mem_cons_of_mem _ hmem) hstep)
        (hR List.mem_cons_self head hstart)

/-- What holds of the notes in the end, but not in the beginning, comes in with some entry. -/
theorem exists_onset {P : ν → Prop} (h : Thread R before notes after later) (hlater : P later)
    (hnotes : ¬ P notes) : ∃ key x n y m, (key, x) ∈ before ∧ (key, y) ∈ after ∧
      R key x n y m ∧ P m ∧ ¬ P n := by
  induction h with
  | nil => exact absurd hlater hnotes
  | @cons key x y _ _ _ between _ head _ ih =>
      by_cases hbetween : P between
      · exact ⟨key, x, _, y, between, List.mem_cons_self, List.mem_cons_self, head, hbetween, hnotes⟩
      · obtain ⟨key, x, n, y, m, hx, hy, hstep, hm, hn⟩ := ih hlater hbetween
        exact ⟨key, x, n, y, m, List.mem_cons_of_mem _ hx, List.mem_cons_of_mem _ hy, hstep, hm, hn⟩

section Growth

variable {le : ν → ν → Prop} [IsPreorder ν le]

/-- Notes that only grow along each entry only grow along all of them. -/
theorem grows (h : Thread R before notes after later)
    (hR : ∀ {key x n y m}, (key, x) ∈ before → R key x n y m → le n m) : le notes later := by
  induction h with
  | nil notes => exact refl_of le notes
  | cons head _ ih =>
      exact trans_of le (hR List.mem_cons_self head)
        (ih fun hmem hstep => hR (List.mem_cons_of_mem _ hmem) hstep)

/-- Every new entry comes from an old one, and its notes lie between the first and the last. -/
theorem exists_of_mem_right (h : Thread R before notes after later)
    (hR : ∀ {key x n y m}, (key, x) ∈ before → R key x n y m → le n m)
    {entry : String × Value} (hmem : entry ∈ after) :
    ∃ x n m, (entry.1, x) ∈ before ∧ R entry.1 x n entry.2 m ∧ le notes n ∧ le m later := by
  induction h with
  | nil => simp at hmem
  | cons head tail ih =>
      have hrest := tail.grows fun hm hstep => hR (List.mem_cons_of_mem _ hm) hstep
      rcases List.mem_cons.1 hmem with rfl | hmem
      · exact ⟨_, _, _, List.mem_cons_self, head, refl_of le _, hrest⟩
      · obtain ⟨x, n, m, hx, hstep, hn, hm⟩ :=
          ih (fun hm hstep => hR (List.mem_cons_of_mem _ hm) hstep) hmem
        exact ⟨x, n, m, List.mem_cons_of_mem _ hx, hstep,
          trans_of le (hR List.mem_cons_self head) hn, hm⟩

/-- Every old entry leads to a new one, and its notes lie between the first and the last. -/
theorem exists_of_mem_left (h : Thread R before notes after later)
    (hR : ∀ {key x n y m}, (key, x) ∈ before → R key x n y m → le n m)
    {entry : String × Value} (hmem : entry ∈ before) :
    ∃ y n m, (entry.1, y) ∈ after ∧ R entry.1 entry.2 n y m ∧ le notes n ∧ le m later := by
  induction h with
  | nil => simp at hmem
  | cons head tail ih =>
      have hrest := tail.grows fun hm hstep => hR (List.mem_cons_of_mem _ hm) hstep
      rcases List.mem_cons.1 hmem with rfl | hmem
      · exact ⟨_, _, _, List.mem_cons_self, head, refl_of le _, hrest⟩
      · obtain ⟨y, n, m, hy, hstep, hn, hm⟩ :=
          ih (fun hm hstep => hR (List.mem_cons_of_mem _ hm) hstep) hmem
        exact ⟨y, n, m, List.mem_cons_of_mem _ hy, hstep,
          trans_of le (hR List.mem_cons_self head) hn, hm⟩

/-- A thread whose notes only grow can be followed with an eye on the last of them. -/
theorem mono_of_grows (h : Thread R before notes after later)
    (hR : ∀ {key x n y m}, (key, x) ∈ before → R key x n y m → le n m)
    (hmono : ∀ {key x n y m}, (key, x) ∈ before → R key x n y m → le m later → S key x n y m) :
    Thread S before notes after later := by
  induction h with
  | nil notes => exact .nil notes
  | cons head tail ih =>
      have hrest := tail.grows fun hm hstep => hR (List.mem_cons_of_mem _ hm) hstep
      exact .cons (hmono List.mem_cons_self head hrest)
        (ih (fun hm hstep => hR (List.mem_cons_of_mem _ hm) hstep)
          fun hm hstep => hmono (List.mem_cons_of_mem _ hm) hstep)

end Growth

end Thread

namespace Value

variable {rule : Rule ν} {path : Path} {v w : Value} {notes later : ν}

/-- The traversal of a value that starts with some notes ends, with a value and notes. -/
def Rewrites (rule : Rule ν) (path : Path) (v : Value) (notes : ν) (w : Value) (later : ν) : Prop :=
  v.traverse rule path notes = ⟨w, later, none⟩

theorem toExcept_traverse_eq_ok_iff :
    (v.traverse rule path notes).toExcept = .ok (w, later) ↔
      Rewrites rule path v notes w later := by
  unfold Rewrites
  rcases v.traverse rule path notes with ⟨result, after, failure⟩
  cases failure <;> simp [Progress.toExcept]

/-! ## Parts of a node -/

private theorem traverseItems_eq (index : Nat) (items : List Value) (notes : ν) :
    traverseItems rule path index items notes =
      (traverseEntries rule path (indexed index items) notes).map (List.map (·.2)) := by
  induction items generalizing index notes with
  | nil => rfl
  | cons x xs ih =>
      simp only [traverseItems, indexed, traverseEntries]
      split
      · simp [Progress.map]
      · simp [Progress.map, ih]

/-- A compound node is traversed by its parts first. -/
theorem traverse_compound (hv : v.isCompound = true) (notes : ν) :
    v.traverse rule path notes =
      ((traverseEntries rule path v.children notes).map v.withChildren).visit rule path := by
  cases v with
  | null => simp [isCompound] at hv
  | scalar s => simp [isCompound] at hv
  | list items => simp only [traverse, traverseItems_eq, children, Progress.map]; rfl
  | map entries => rfl
  | record header metadata properties =>
      simp only [traverse, children, traverseEntries, Progress.andThen]
      congr 1
      cases hm : (traverse rule (path.push "Metadata") metadata notes).failure with
      | some e => simp [Progress.map, withChildren]
      | none =>
          cases hp : (traverse rule (path.push "Properties") properties
            (traverse rule (path.push "Metadata") metadata notes).notes).failure <;>
            simp [Progress.map, withChildren, hp]

theorem traverseEntries_eq_iff {entries done : Fields Value} :
    traverseEntries rule path entries notes = ⟨done, later, none⟩ ↔
      Thread (fun key => Rewrites rule (path.push key)) entries notes done later := by
  induction entries generalizing done notes with
  | nil =>
      constructor
      · intro h
        simp only [traverseEntries, Progress.mk.injEq, and_true] at h
        obtain ⟨rfl, rfl⟩ := h
        exact .nil notes
      · rintro ⟨⟩
        rfl
  | cons entry rest ih =>
      obtain ⟨key, x⟩ := entry
      simp only [traverseEntries]
      constructor
      · intro h
        split at h
        · simp at h
        · rename_i hhead
          simp only [Progress.map, Progress.mk.injEq] at h
          obtain ⟨rfl, hlater, hfailure⟩ := h
          have hfirst : Rewrites rule (path.push key) x notes
              (traverse rule (path.push key) x notes).result
              (traverse rule (path.push key) x notes).notes := congrArg (Progress.mk _ _) hhead
          exact .cons hfirst (ih.1 (by rw [← hlater, ← hfailure]))
      · rintro ⟨⟩
        rename_i y done between head tail
        rw [show traverse rule (path.push key) x notes = ⟨y, between, none⟩ from head]
        simp [ih.2 tail, Progress.map]

/-- A successful traversal of a compound node rewrites the parts one after the other and then
applies the rule. -/
theorem rewrites_iff (hv : v.isCompound = true) :
    Rewrites rule path v notes w later ↔
      ∃ parts between, Thread (fun key => Rewrites rule (path.push key)) v.children notes
        parts between ∧ rule path (v.withChildren parts) between = .ok (w, later) := by
  unfold Rewrites
  rw [traverse_compound hv]
  rcases hprogress : traverseEntries rule path v.children notes with ⟨parts, between, failure⟩
  constructor
  · intro h
    cases failure with
    | some e => simp [Progress.map, Progress.visit] at h
    | none =>
        simp only [Progress.map, Progress.visit] at h
        refine ⟨parts, between, traverseEntries_eq_iff.1 hprogress, ?_⟩
        split at h <;> simp_all
  · rintro ⟨parts', between', hthread, hrule⟩
    have hsame := hprogress.symm.trans (traverseEntries_eq_iff.2 hthread)
    simp only [Progress.mk.injEq] at hsame
    obtain ⟨rfl, rfl, rfl⟩ := hsame
    simp [Progress.map, Progress.visit, hrule]

/-- A map with a single entry is looked at after the body of the entry. -/
theorem rewrites_entry_iff {key : String} {body : Value} :
    Rewrites rule path (.map [(key, body)]) notes w later ↔
      ∃ after between, Rewrites rule (path.push key) body notes after between ∧
        rule path (.map [(key, after)]) between = .ok (w, later) := by
  rw [rewrites_iff rfl]
  constructor
  · rintro ⟨parts, between, hthread, hrule⟩
    obtain ⟨after, rfl, hbody⟩ := Thread.thread_single_iff.1 hthread
    exact ⟨after, between, hbody, hrule⟩
  · rintro ⟨after, between, hbody, hrule⟩
    exact ⟨[(key, after)], between, Thread.thread_single_iff.2 ⟨after, rfl, hbody⟩, hrule⟩

@[simp] theorem rewrites_scalar_iff {s : Scalar} :
    Rewrites rule path (.scalar s) notes w later ↔ w = .scalar s ∧ later = notes := by
  simp [Rewrites, traverse, eq_comm]

theorem not_rewrites_null : ¬ Rewrites rule path .null notes w later := by
  simp [Rewrites, traverse]

/-- Induction along a successful traversal. -/
theorem rewrites_induction {Q : Path → Value → ν → Value → ν → Prop}
    (scalar : ∀ path s notes, Q path (.scalar s) notes (.scalar s) notes)
    (compound : ∀ {path v notes parts between w later}, v.isCompound = true →
      Thread (fun key x n y m => Rewrites rule (path.push key) x n y m ∧ Q (path.push key) x n y m)
        v.children notes parts between →
      rule path (v.withChildren parts) between = .ok (w, later) → Q path v notes w later)
    (h : Rewrites rule path v notes w later) : Q path v notes w later := by
  induction v using induction_on_children generalizing path notes w later with
  | h v ih =>
      cases hv : v.isCompound with
      | true =>
          obtain ⟨parts, between, hthread, hrule⟩ := (rewrites_iff hv).1 h
          exact compound hv (hthread.mono fun hmem hstep => ⟨hstep, ih _ hmem hstep⟩) hrule
      | false =>
          cases v with
          | null => exact absurd h not_rewrites_null
          | scalar s =>
              obtain ⟨rfl, rfl⟩ := rewrites_scalar_iff.1 h
              exact scalar path s _
          | _ => simp [isCompound] at hv

/-- Notes that only grow at each node only grow along a traversal. -/
theorem rewrites_grows {le : ν → ν → Prop} [IsPreorder ν le]
    (hrule : ∀ path node notes w later, rule path node notes = .ok (w, later) → le notes later)
    (h : Rewrites rule path v notes w later) : le notes later := by
  refine rewrites_induction (Q := fun _ _ notes _ later => le notes later)
    (fun _ _ notes => refl_of le notes) ?_ h
  intro path v notes parts between w later _ hthread hnode
  exact trans_of le (hthread.grows fun _ hstep => hstep.2) (hrule _ _ _ _ _ hnode)

/-- What the rule preserves of the notes, a traversal preserves. -/
theorem rewrites_preserves {P : ν → Prop}
    (hrule : ∀ {path node notes w later}, rule path node notes = .ok (w, later) →
      P notes → P later)
    (h : Rewrites rule path v notes w later) (hstart : P notes) : P later := by
  let keeps : ν → ν → Prop := fun n m => P n → P m
  have hpreorder : IsPreorder ν keeps :=
    { refl := fun _ => id, trans := fun _ _ _ first second => second ∘ first }
  have hkeeps : keeps notes later := rewrites_grows (fun _ _ _ _ _ => hrule) h
  exact hkeeps hstart

/-! ## Rules for symbolic forms -/

variable {action : FormAction ν}

/-- An ordinary node only changes in its parts. -/
theorem rewrites_of_not_isReserved (hv : v.isCompound = true) (hordinary : v.isReserved = false) :
    Rewrites (Rule.ofForms action) path v notes w later ↔
      ∃ parts, w = v.withChildren parts ∧
        Thread (fun key => Rewrites (Rule.ofForms action) (path.push key)) v.children notes
          parts later := by
  rw [rewrites_iff hv]
  have hrule : ∀ {parts : Fields Value} {between : ν},
      Thread (fun key => Rewrites (Rule.ofForms action) (path.push key)) v.children notes
        parts between →
      Rule.ofForms action path (v.withChildren parts) between =
        .ok (v.withChildren parts, between) := by
    intro parts between hthread
    refine Rule.ofForms_ordinary (recognize?_of_not_isReserved ?_) action path between
    rw [isReserved_withChildren hthread.keys_eq, hordinary]
  constructor
  · rintro ⟨parts, between, hthread, h⟩
    rw [hrule hthread] at h
    simp only [Except.ok.injEq, Prod.mk.injEq] at h
    obtain ⟨rfl, rfl⟩ := h
    exact ⟨parts, rfl, hthread⟩
  · rintro ⟨parts, rfl, hthread⟩
    exact ⟨parts, later, hthread, hrule hthread⟩

/-- The items of a pair are rewritten one after the other. -/
theorem rewrites_two_iff {x y : Value} :
    Rewrites (Rule.ofForms action) path (.list [x, y]) notes w later ↔
      ∃ first second between, w = .list [first, second] ∧
        Rewrites (Rule.ofForms action) (path.push "0") x notes first between ∧
        Rewrites (Rule.ofForms action) (path.push "1") y between second later := by
  rw [rewrites_of_not_isReserved rfl rfl]
  constructor
  · rintro ⟨parts, rfl, hthread⟩
    obtain ⟨first, rest, between, rfl, hfirst, hrest⟩ := Thread.thread_cons_iff.1 hthread
    obtain ⟨second, nothing, _, rfl, hsecond, hnothing⟩ := Thread.thread_cons_iff.1 hrest
    obtain ⟨rfl, rfl⟩ := Thread.thread_nil_iff.1 hnothing
    exact ⟨first, second, between, rfl, hfirst, hsecond⟩
  · rintro ⟨first, second, between, rfl, hfirst, hsecond⟩
    exact ⟨[("0", first), ("1", second)], rfl, .cons hfirst (.cons hsecond (.nil _))⟩

/-- Among lists, only a pair becomes a pair. -/
theorem exists_two_of_rewrites {items : List Value} {first second : Value}
    (h : Rewrites (Rule.ofForms action) path (.list items) notes (.list [first, second]) later) :
    ∃ x y, items = [x, y] := by
  obtain ⟨parts, hparts, hthread⟩ := (rewrites_of_not_isReserved rfl rfl).1 h
  have hlength : items.length = 2 := by
    have hkeys := congrArg List.length hthread.keys_eq
    have hitems := congrArg List.length (map_snd_indexed 0 items)
    have htwo := congrArg List.length (list.inj hparts)
    simp only [List.length_map, children, List.length_cons, List.length_nil] at hkeys hitems htwo
    omega
  exact List.length_eq_two.1 hlength

/-- A record is never a form: only its two fields are rewritten, the metadata first. -/
theorem rewrites_record_iff {header : Header} {metadata properties : Value} :
    Rewrites (Rule.ofForms action) path (.record header metadata properties) notes w later ↔
      ∃ x y between, w = .record header x y ∧
        Rewrites (Rule.ofForms action) (path.push "Metadata") metadata notes x between ∧
        Rewrites (Rule.ofForms action) (path.push "Properties") properties between y later := by
  rw [rewrites_of_not_isReserved rfl rfl]
  constructor
  · rintro ⟨parts, rfl, hthread⟩
    obtain ⟨x, rest, between, rfl, hmetadata, hrest⟩ := Thread.thread_cons_iff.1 hthread
    obtain ⟨y, nothing, _, rfl, hproperties, hnothing⟩ := Thread.thread_cons_iff.1 hrest
    obtain ⟨rfl, rfl⟩ := Thread.thread_nil_iff.1 hnothing
    exact ⟨x, y, between, rfl, hmetadata, hproperties⟩
  · rintro ⟨x, y, between, rfl, hmetadata, hproperties⟩
    exact ⟨[("Metadata", x), ("Properties", y)], rfl,
      .cons hmetadata (.cons hproperties (.nil later))⟩

end Value

end StackLinker
