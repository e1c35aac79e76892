import StackLinker.Partition
import StackLinker.Substitution

/-!
# Resolution

The resolver goes over the bound entities again and again.  Each sweep substitutes inside every
bound reference against the entities that were free when the sweep began.  An entity that has
nothing left to wait for is promoted at the end of the sweep; for the others the new reference
and what the pass found are kept.  The run ends when nothing is bound any more or a sweep
promotes nothing.

A sweep that meets a structural error promotes nothing: the references before the faulty one stay
as the sweep left them, and it does not count.  Each productive sweep leaves fewer bound entities,
which is why the run ends (`length_waiting_step`).
-/

namespace StackLinker

/-- A bound entity with what the latest pass over its reference found. -/
structure Pending where
  entity : Entity
  attempt : Option Outcome := none

/-- Counts of a run. -/
structure Stats where
  initiallyFree : Nat
  iterations : Nat := 0
  promoted : Nat := 0
deriving DecidableEq, Repr, Inhabited

/-- The wire form of the counts. -/
def Stats.toJson (stats : Stats) : Json :=
  .object [
    ("initially_free", .nat stats.initiallyFree),
    ("iterations", .nat stats.iterations),
    ("promoted", .nat stats.promoted)]

/-- The state of resolution. -/
structure Resolver where
  config : Config
  catalog : Catalog
  name : String
  /-- All full names in the order of declaration. -/
  order : List String
  free : List Entity
  waiting : List Pending
  /-- Faults in the references of promoted entities. -/
  diagnostics : List Diagnostic := []
  stats : Stats
  /-- Whether the latest step left nothing to do. -/
  settled : Bool := false

/-- What a sweep over bound entities leaves behind. -/
structure Sweep where
  waiting : List Pending
  promoted : List (Entity × List Diagnostic)
  failure : Option StructuralError

/-- Sweeps over bound entities. -/
def Surroundings.sweep (around : Surroundings) : List Pending → Sweep
  | [] => ⟨[], [], none⟩
  | pending :: rest =>
    match around.apply pending.entity.fullName pending.entity.reference with
    | .error e => ⟨pending :: rest, [], some e⟩
    | .ok (value, outcome) =>
      let later := around.sweep rest
      let updated := { pending.entity with reference := value }
      if outcome.isResolved then
        match later.failure with
        | some _ => { later with waiting := pending :: later.waiting }
        | none => { later with promoted := (updated, outcome.invalid) :: later.promoted }
      else
        { later with waiting := ⟨updated, some outcome⟩ :: later.waiting }

namespace Resolver

/-- The resolver that starts from a partition. -/
def start (config : Config) (catalog : Catalog) (partition : Partition) : Resolver where
  config := config
  catalog := catalog
  name := partition.name
  order := partition.order
  free := partition.free
  waiting := partition.bound.map fun entity => { entity := entity }
  stats := { initiallyFree := partition.free.length }

/-- The entities that are still bound. -/
def bound (resolver : Resolver) : List Entity :=
  resolver.waiting.map (·.entity)

/-- The free and bound entities. -/
def partition (resolver : Resolver) : Partition where
  name := resolver.name
  order := resolver.order
  free := resolver.free
  bound := resolver.bound

/-- What a pass sees in this state. -/
def surroundings (resolver : Resolver) : Surroundings where
  config := resolver.config
  catalog := resolver.catalog
  free := resolver.free
  bound := resolver.bound.map (·.fullName)

/-- The state after a sweep, and the number of promoted entities. -/
def absorb (resolver : Resolver) (sweep : Sweep) : Resolver × Except StructuralError Nat :=
  match sweep.failure with
  | some e => ({ resolver with waiting := sweep.waiting }, .error e)
  | none =>
    let promoted := sweep.promoted.length
    ({ resolver with
        free := resolver.free ++ sweep.promoted.map (·.1)
        waiting := sweep.waiting
        diagnostics := resolver.diagnostics ++ sweep.promoted.flatMap (·.2)
        stats := { resolver.stats with
          iterations := resolver.stats.iterations + 1
          promoted := resolver.stats.promoted + promoted }
        settled := resolver.settled || promoted == 0 || sweep.waiting.isEmpty },
      .ok promoted)

/-- One sweep.  It answers the number of promoted entities. -/
def step (resolver : Resolver) : Resolver × Except StructuralError Nat :=
  resolver.absorb (resolver.surroundings.sweep resolver.waiting)

/-! ## Every promotion shortens the list of bound entities -/

theorem length_sweep (around : Surroundings) (waiting : List Pending) :
    (around.sweep waiting).waiting.length + (around.sweep waiting).promoted.length =
        waiting.length ∧
      ((around.sweep waiting).failure.isSome → (around.sweep waiting).promoted = []) := by
  induction waiting with
  | nil => simp [Surroundings.sweep]
  | cons pending rest ih =>
    obtain ⟨hlength, hfailure⟩ := ih
    unfold Surroundings.sweep
    split
    · simp
    · rename_i value outcome _
      by_cases hresolved : outcome.isResolved = true
      · simp only [hresolved, if_true]
        split
        · rename_i e he
          have := hfailure (by simp [he])
          simp_all
        · rename_i he
          simp [he, List.length_cons]
          omega
      · simp only [hresolved]
        refine ⟨by simp; omega, by simpa using hfailure⟩

@[simp] theorem waiting_absorb (resolver : Resolver) (sweep : Sweep) :
    (resolver.absorb sweep).1.waiting = sweep.waiting := by
  unfold absorb
  split <;> rfl

theorem absorb_eq_ok {resolver : Resolver} {sweep : Sweep} {n : Nat}
    (h : (resolver.absorb sweep).2 = .ok n) : sweep.promoted.length = n := by
  unfold absorb at h
  split at h
  · simp at h
  · simpa using h

/-- A step that promotes `n` entities leaves `n` fewer bound ones. -/
theorem length_waiting_step {resolver : Resolver} {n : Nat} (h : resolver.step.2 = .ok n) :
    resolver.step.1.waiting.length + n = resolver.waiting.length := by
  have hsweep := (length_sweep resolver.surroundings resolver.waiting).1
  have hpromoted := absorb_eq_ok h
  simpa [step, hpromoted] using hsweep

/-- Sweeps until nothing is bound or nothing is promoted. -/
def run (resolver : Resolver) : Resolver × Option StructuralError :=
  if resolver.waiting.isEmpty then ({ resolver with settled := true }, none)
  else
    match _hstep : resolver.step with
    | (next, .error e) => (next, some e)
    | (next, .ok promoted) =>
      if promoted = 0 then ({ next with settled := true }, none) else next.run
termination_by resolver.waiting.length
decreasing_by
  have hlength := @length_waiting_step resolver promoted (by rw [_hstep])
  rw [_hstep] at hlength
  simp only at hlength
  omega

end Resolver

end StackLinker
