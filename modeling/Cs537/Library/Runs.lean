import Mathlib.Data.List.Basic

/-!
# Finite runs of a partial step function

A system is a step function on states and actions; `none` means that the action
is not possible in that state. A run executes a list of actions. Guards are
conditions on an action and the state before it, and are therefore conditions on
what a run is given rather than on what it computes.

The rules below are the only inductions over runs in this development: an
invariant rule, a rule for a condition on every visited state, an amortised rule
that compares two counts of steps, and the rules for a record of the past. They
name no particular system.
-/

namespace Cs537.Runs

universe u v
variable {σ : Type u} {α : Type v} {step : σ → α → Option σ}

/-- Execute the actions in order; an impossible action ends the run with none. -/
def run (step : σ → α → Option σ) : σ → List α → Option σ
  | state, [] => some state
  | state, action :: rest => (step state action).bind (fun next => run step next rest)

/-- Each executed action meets the guard in the state in which it is executed. -/
def Meets (step : σ → α → Option σ) (guard : σ → α → Prop) : σ → List α → Prop
  | _, [] => True
  | state, action :: rest =>
      guard state action ∧ ∀ next, step state action = some next → Meets step guard next rest

/-- Each visited state, the first and the last included, satisfies the property. -/
def Along (step : σ → α → Option σ) (holds : σ → Prop) : σ → List α → Prop
  | state, [] => holds state
  | state, action :: rest =>
      holds state ∧ ∀ next, step state action = some next → Along step holds next rest

/-- Total weight of the executed steps. -/
def tally (step : σ → α → Option σ) (weight : σ → α → σ → Nat) : σ → List α → Nat
  | _, [] => 0
  | state, action :: rest =>
      match step state action with
      | none => 0
      | some next => weight state action next + tally step weight next rest

/-- The event happens at some executed step, and from the state after it to the last one the
property holds. -/
def Since (step : σ → α → Option σ) (event : σ → α → Prop) (holds : σ → Prop) : σ → List α → Prop
  | _, [] => False
  | state, action :: rest => ∃ next, step state action = some next ∧
      (event state action ∧ Along step holds next rest ∨ Since step event holds next rest)

/-- The state that a run ends in, for evaluating runs that are known to complete. -/
def final (step : σ → α → Option σ) (state : σ) (actions : List α) : σ :=
  (run step state actions).getD state

/-- A guard is checked along a run by executing it. -/
instance Meets.decidable {guard : σ → α → Prop} [∀ state action, Decidable (guard state action)] :
    ∀ state actions, Decidable (Meets step guard state actions)
  | _, [] => isTrue trivial
  | state, action :: rest =>
    match moved : step state action with
    | none => decidable_of_iff (guard state action)
        ⟨fun met => ⟨met, fun next reached => by simp [moved] at reached⟩, And.left⟩
    | some next =>
      have : Decidable (Meets step guard next rest) := Meets.decidable next rest
      decidable_of_iff (guard state action ∧ Meets step guard next rest)
        ⟨fun met => ⟨met.1, fun other reached => by
            have same : next = other := Option.some.inj (moved.symm.trans reached)
            exact same ▸ met.2⟩,
          fun met => ⟨met.1, met.2 next moved⟩⟩

/-- A property is checked along a run by executing it. -/
instance Along.decidable {holds : σ → Prop} [∀ state, Decidable (holds state)] :
    ∀ state actions, Decidable (Along step holds state actions)
  | state, [] => inferInstanceAs (Decidable (holds state))
  | state, action :: rest =>
    match moved : step state action with
    | none => decidable_of_iff (holds state)
        ⟨fun met => ⟨met, fun next reached => by simp [moved] at reached⟩, And.left⟩
    | some next =>
      have : Decidable (Along step holds next rest) := Along.decidable next rest
      decidable_of_iff (holds state ∧ Along step holds next rest)
        ⟨fun met => ⟨met.1, fun other reached => by
            have same : next = other := Option.some.inj (moved.symm.trans reached)
            exact same ▸ met.2⟩,
          fun met => ⟨met.1, met.2 next moved⟩⟩

/-- A past event is found by executing the run. -/
instance Since.decidable {event : σ → α → Prop} {holds : σ → Prop}
    [∀ state action, Decidable (event state action)] [∀ state, Decidable (holds state)] :
    ∀ state actions, Decidable (Since step event holds state actions)
  | _, [] => isFalse id
  | state, action :: rest =>
    match moved : step state action with
    | none => isFalse fun happened => by
        obtain ⟨next, reached, _⟩ := happened
        simp [moved] at reached
    | some next =>
      have : Decidable (Since step event holds next rest) := Since.decidable next rest
      decidable_of_iff
        (event state action ∧ Along step holds next rest ∨ Since step event holds next rest)
        ⟨fun happened => ⟨next, moved, happened⟩, fun happened => by
            obtain ⟨other, reached, either⟩ := happened
            obtain rfl : next = other := Option.some.inj (moved.symm.trans reached)
            exact either⟩

/-- A nonempty run is its first step followed by the rest. -/
theorem run_cons {state last : σ} {action : α} {rest : List α}
    (completed : run step state (action :: rest) = some last) :
    ∃ next, step state action = some next ∧ run step next rest = some last := by
  simpa only [run, Option.bind_eq_some_iff] using completed

/-- A run that completes ends in its final state. -/
theorem run_final {state : σ} {actions : List α}
    (completed : (run step state actions).isSome = true) :
    run step state actions = some (final step state actions) := by
  obtain ⟨last, reached⟩ := Option.isSome_iff_exists.mp completed
  simp only [final, reached, Option.getD_some]

/-- A step that is possible ends in its final state. -/
theorem step_final {state : σ} {action : α} (possible : (step state action).isSome = true) :
    step state action = some (final step state [action]) := by
  obtain ⟨next, moved⟩ := Option.isSome_iff_exists.mp possible
  simp only [final, run, moved, Option.bind_some, Option.getD_some]

/-- Runs compose. -/
theorem run_append {state middle last : σ} {first second : List α}
    (front : run step state first = some middle) (back : run step middle second = some last) :
    run step state (first ++ second) = some last := by
  induction first generalizing state with
  | nil =>
    have same : state = middle := Option.some.inj front
    exact same ▸ back
  | cons action rest inductionHypothesis =>
    obtain ⟨next, moved, remaining⟩ := run_cons front
    simp only [List.cons_append, run, moved, Option.bind_some]
    exact inductionHypothesis remaining

/-- A guarded run is guarded on each part of a decomposition. -/
theorem meets_append {guard : σ → α → Prop} {state middle : σ} {first second : List α}
    (front : run step state first = some middle)
    (guarded : Meets step guard state (first ++ second)) :
    Meets step guard state first ∧ Meets step guard middle second := by
  induction first generalizing state with
  | nil =>
    have same : state = middle := Option.some.inj front
    exact ⟨trivial, same ▸ guarded⟩
  | cons action rest inductionHypothesis =>
    obtain ⟨next, moved, remaining⟩ := run_cons front
    obtain ⟨met, later⟩ := guarded
    obtain ⟨frontMet, backMet⟩ := inductionHypothesis remaining (later next moved)
    refine ⟨⟨met, ?_⟩, backMet⟩
    intro other reached
    have same : next = other := Option.some.inj (moved.symm.trans reached)
    exact same ▸ frontMet

/-- Guarded runs compose. -/
theorem Meets.append {guard : σ → α → Prop} {state middle : σ} {first second : List α}
    (front : run step state first = some middle) (one : Meets step guard state first)
    (two : Meets step guard middle second) : Meets step guard state (first ++ second) := by
  induction first generalizing state with
  | nil =>
    have same : state = middle := Option.some.inj front
    exact same ▸ two
  | cons action rest inductionHypothesis =>
    obtain ⟨next, moved, remaining⟩ := run_cons front
    refine ⟨one.1, fun other reached => ?_⟩
    obtain rfl : next = other := Option.some.inj (moved.symm.trans reached)
    exact inductionHypothesis remaining (one.2 next moved)

/-- A guard may be weakened along a whole run. -/
theorem Meets.weaken {guard weaker : σ → α → Prop}
    (implied : ∀ state action, guard state action → weaker state action)
    {state : σ} {actions : List α} (guarded : Meets step guard state actions) :
    Meets step weaker state actions := by
  induction actions generalizing state with
  | nil => trivial
  | cons action rest inductionHypothesis =>
    exact ⟨implied _ _ guarded.1, fun next moved => inductionHypothesis (guarded.2 next moved)⟩

/-- The guard that asks nothing is met by every run. -/
theorem Meets.unguarded (state : σ) (actions : List α) :
    Meets step (fun _ _ => True) state actions := by
  induction actions generalizing state with
  | nil => trivial
  | cons action rest inductionHypothesis =>
    exact ⟨trivial, fun next _ => inductionHypothesis next⟩

/-- A guard on the actions alone is met by a list of such actions. -/
theorem Meets.listed {allowed : α → Prop} (state : σ) {actions : List α}
    (all : ∀ action ∈ actions, allowed action) :
    Meets step (fun _ action => allowed action) state actions := by
  induction actions generalizing state with
  | nil => trivial
  | cons action rest inductionHypothesis =>
    exact ⟨all action List.mem_cons_self, fun next _ =>
      inductionHypothesis next fun later member => all later (List.mem_cons_of_mem _ member)⟩

/-- Two guards are met together. -/
theorem Meets.and {first second : σ → α → Prop} {state : σ} {actions : List α}
    (one : Meets step first state actions) (two : Meets step second state actions) :
    Meets step (fun s a => first s a ∧ second s a) state actions := by
  induction actions generalizing state with
  | nil => trivial
  | cons action rest inductionHypothesis =>
    exact ⟨⟨one.1, two.1⟩, fun next moved => inductionHypothesis (one.2 next moved) (two.2 next moved)⟩

/-- A property of every visited state is a guard. -/
theorem Along.meets {holds : σ → Prop} {state : σ} {actions : List α}
    (along : Along step holds state actions) :
    Meets step (fun s _ => holds s) state actions := by
  induction actions generalizing state with
  | nil => trivial
  | cons action rest inductionHypothesis =>
    exact ⟨along.1, fun next moved => inductionHypothesis (along.2 next moved)⟩

/-- A property that every guarded step preserves holds at the end of every
guarded run that starts with it. -/
theorem run_invariant {guard : σ → α → Prop} {inv : σ → Prop}
    (kept : ∀ state action next, guard state action → inv state →
      step state action = some next → inv next)
    {state last : σ} {actions : List α} (start : inv state)
    (guarded : Meets step guard state actions)
    (completed : run step state actions = some last) : inv last := by
  induction actions generalizing state with
  | nil =>
    have same : state = last := Option.some.inj completed
    exact same ▸ start
  | cons action rest inductionHypothesis =>
    obtain ⟨next, moved, remaining⟩ := run_cons completed
    exact inductionHypothesis (kept state action next guarded.1 start moved)
      (guarded.2 next moved) remaining

/-- A property that every guarded step preserves holds in every state of a guarded run that
starts with it. -/
theorem Along.invariant {guard : σ → α → Prop} {inv holds : σ → Prop}
    (kept : ∀ state action next, guard state action → inv state →
      step state action = some next → inv next)
    (implied : ∀ state, inv state → holds state) {state : σ} {actions : List α} (start : inv state)
    (guarded : Meets step guard state actions) : Along step holds state actions := by
  induction actions generalizing state with
  | nil => exact implied state start
  | cons action rest inductionHypothesis =>
    exact ⟨implied state start, fun next moved =>
      inductionHypothesis (kept state action next guarded.1 start moved) (guarded.2 next moved)⟩

/-- If every guarded step from a state with a property is possible and preserves it,
every guarded run can be completed. -/
theorem run_progress {guard : σ → α → Prop} {inv : σ → Prop}
    (moves : ∀ state action, guard state action → inv state →
      ∃ next, step state action = some next ∧ inv next)
    {state : σ} {actions : List α} (start : inv state) (guarded : Meets step guard state actions) :
    ∃ last, run step state actions = some last ∧ inv last := by
  induction actions generalizing state with
  | nil => exact ⟨state, rfl, start⟩
  | cons action rest inductionHypothesis =>
    obtain ⟨next, moved, kept⟩ := moves state action guarded.1 start
    obtain ⟨last, completed, held⟩ := inductionHypothesis kept (guarded.2 next moved)
    exact ⟨last, by rw [run, moved]; exact completed, held⟩

/-- If one action is possible in every state with a property, and leads to the goal or to a
state with the property and a smaller measure, then repeating it reaches the goal. -/
theorem run_reaches {inv goal : σ → Prop} {measure : σ → Nat} {action : α}
    (next : ∀ state, inv state → ∃ after, step state action = some after ∧
      (goal after ∨ inv after ∧ measure after < measure state))
    {state : σ} (start : inv state) :
    ∃ count last, count ≤ measure state + 1 ∧
      run step state (List.replicate count action) = some last ∧ goal last := by
  induction bound : measure state using Nat.strongRecOn generalizing state with
  | ind bound inductionHypothesis =>
    obtain ⟨after, moved, reached | ⟨kept, smaller⟩⟩ := next state start
    · refine ⟨1, after, Nat.le_add_left 1 _, ?_, reached⟩
      simp only [List.replicate_one, run, moved, Option.bind_some]
    · obtain ⟨count, last, short, completed, reached⟩ :=
        inductionHypothesis (measure after) (bound ▸ smaller) kept rfl
      refine ⟨count + 1, last, by omega, ?_, reached⟩
      rw [List.replicate_succ, run, moved]
      exact completed

/-- Refinement of a total system: if every guarded step from a related state is possible
and follows the update of the abstract state, every guarded run can be completed and
follows the updates. -/
theorem run_refines {β : Type*} {guard : σ → α → Prop} {related : σ → β → Prop} {update : β → α → β}
    (simulates : ∀ state abstract action, guard state action → related state abstract →
      ∃ next, step state action = some next ∧ related next (update abstract action))
    {state : σ} {abstract : β} {actions : List α} (start : related state abstract)
    (guarded : Meets step guard state actions) :
    ∃ last, run step state actions = some last ∧ related last (actions.foldl update abstract) := by
  induction actions generalizing state abstract with
  | nil => exact ⟨state, rfl, start⟩
  | cons action rest inductionHypothesis =>
    obtain ⟨next, moved, kept⟩ := simulates state abstract action guarded.1 start
    obtain ⟨last, completed, held⟩ := inductionHypothesis kept (guarded.2 next moved)
    exact ⟨last, by rw [run, moved]; exact completed, held⟩

/-- Two systems in lockstep: if related states can always take the same guarded action to
related states, every guarded run can be completed by both. -/
theorem run_lockstep {τ : Type*} {other : τ → α → Option τ} {guard : σ → α → Prop}
    {related : σ → τ → Prop}
    (simulates : ∀ state twin action, guard state action → related state twin →
      ∃ next next', step state action = some next ∧ other twin action = some next' ∧
        related next next')
    {state : σ} {twin : τ} {actions : List α} (start : related state twin)
    (guarded : Meets step guard state actions) :
    ∃ last last', run step state actions = some last ∧ run other twin actions = some last' ∧
      related last last' := by
  induction actions generalizing state twin with
  | nil => exact ⟨state, twin, rfl, rfl, start⟩
  | cons action rest inductionHypothesis =>
    obtain ⟨next, next', moved, moved', kept⟩ := simulates state twin action guarded.1 start
    obtain ⟨last, last', completed, completed', held⟩ :=
      inductionHypothesis kept (guarded.2 next moved)
    refine ⟨last, last', ?_, ?_, held⟩
    · rw [run, moved]
      exact completed
    · rw [run, moved']
      exact completed'

/-- A property required of every visited state holds at both ends of the run. -/
theorem Along.ends {holds : σ → Prop} {state last : σ} {actions : List α}
    (along : Along step holds state actions) (completed : run step state actions = some last) :
    holds state ∧ holds last := by
  induction actions generalizing state with
  | nil =>
    have same : state = last := Option.some.inj completed
    exact ⟨along, same ▸ along⟩
  | cons action rest inductionHypothesis =>
    obtain ⟨next, moved, remaining⟩ := run_cons completed
    exact ⟨along.1, (inductionHypothesis (along.2 next moved) remaining).2⟩

/-- Where a flag comes from: if, as long as the property holds, a step leaves the flag set
exactly when the event happens or the flag was set already, then it is set at the end of a run
exactly when the event has happened since, or it was set all along. -/
theorem run_since {inv flag holds : σ → Prop} {event : σ → α → Prop}
    (kept : ∀ state action next, inv state → step state action = some next → inv next)
    (raised : ∀ state action next, inv state → step state action = some next → holds next →
      (flag next ↔ event state action ∨ flag state ∧ holds state))
    {state last : σ} {actions : List α} (start : inv state)
    (completed : run step state actions = some last) (held : holds last) :
    flag last ↔ Since step event holds state actions ∨ flag state ∧ Along step holds state actions := by
  induction actions generalizing state with
  | nil =>
    have same : state = last := Option.some.inj completed
    subst same
    exact ⟨fun set => .inr ⟨set, held⟩, fun either => either.elim False.elim And.left⟩
  | cons action rest inductionHypothesis =>
    obtain ⟨next, moved, remaining⟩ := run_cons completed
    rw [inductionHypothesis (kept state action next start moved) remaining]
    constructor
    · rintro (later | ⟨set, along⟩)
      · exact .inl ⟨next, moved, .inr later⟩
      · rcases (raised state action next start moved (along.ends remaining).1).mp set with
          happened | ⟨before, now⟩
        · exact .inl ⟨next, moved, .inl ⟨happened, along⟩⟩
        · refine .inr ⟨before, now, fun other reached => ?_⟩
          rwa [← Option.some.inj (moved.symm.trans reached)]
    · rintro (⟨other, reached, now⟩ | ⟨before, now, along⟩)
      · obtain rfl : next = other := Option.some.inj (moved.symm.trans reached)
        rcases now with ⟨happened, along⟩ | later
        · have set := (raised state action next start moved (along.ends remaining).1).mpr (.inl happened)
          exact .inr ⟨set, along⟩
        · exact .inl later
      · have later := along next moved
        have set := (raised state action next start moved (later.ends remaining).1).mpr
          (.inr ⟨before, now⟩)
        exact .inr ⟨set, later⟩

/-- A quantity that is unchanged by every step between two states with the
required property is unchanged by every run on which the property always holds. -/
theorem run_constant {ν : Type*} {guard : σ → α → Prop} {inv holds : σ → Prop} {value : σ → ν}
    (kept : ∀ state action next, guard state action → inv state →
      step state action = some next → inv next)
    (constant : ∀ state action next, guard state action → inv state → holds state →
      step state action = some next → holds next → value next = value state)
    {state last : σ} {actions : List α} (start : inv state)
    (guarded : Meets step guard state actions) (along : Along step holds state actions)
    (completed : run step state actions = some last) : value last = value state := by
  induction actions generalizing state with
  | nil =>
    have same : state = last := Option.some.inj completed
    exact same ▸ rfl
  | cons action rest inductionHypothesis =>
    obtain ⟨next, moved, remaining⟩ := run_cons completed
    have later : Along step holds next rest := along.2 next moved
    have middle : holds next := (later.ends remaining).1
    rw [inductionHypothesis (kept state action next guarded.1 start moved)
      (guarded.2 next moved) later remaining]
    exact constant state action next guarded.1 start along.1 moved middle

/-- Amortised counting: when each guarded step pays for its first weight and for
the change of a potential with its second weight, the first count of a run is
bounded by the second one and the initial potential. -/
theorem tally_le {guard : σ → α → Prop} {inv : σ → Prop} {paid cost : σ → α → σ → Nat}
    {potential : σ → Nat}
    (kept : ∀ state action next, guard state action → inv state →
      step state action = some next → inv next)
    (amortised : ∀ state action next, guard state action → inv state →
      step state action = some next →
      cost state action next + potential next ≤ paid state action next + potential state)
    {state last : σ} {actions : List α} (start : inv state)
    (guarded : Meets step guard state actions)
    (completed : run step state actions = some last) :
    tally step cost state actions + potential last ≤
      tally step paid state actions + potential state := by
  induction actions generalizing state with
  | nil =>
    have same : state = last := Option.some.inj completed
    simp only [tally, same, Nat.zero_add, Nat.le_refl]
  | cons action rest inductionHypothesis =>
    obtain ⟨next, moved, remaining⟩ := run_cons completed
    have later := inductionHypothesis (kept state action next guarded.1 start moved)
      (guarded.2 next moved) remaining
    have now := amortised state action next guarded.1 start moved
    simp only [tally, moved]
    omega

/-- The tally of a run is the sum of the tallies of its parts. -/
theorem tally_append {weight : σ → α → σ → Nat} {state middle : σ} {first second : List α}
    (front : run step state first = some middle) :
    tally step weight state (first ++ second) =
      tally step weight state first + tally step weight middle second := by
  induction first generalizing state with
  | nil =>
    have same : state = middle := Option.some.inj front
    rw [List.nil_append, tally, Nat.zero_add, same]
  | cons action rest inductionHypothesis =>
    obtain ⟨next, moved, remaining⟩ := run_cons front
    simp only [List.cons_append, tally, moved, inductionHypothesis remaining, Nat.add_assoc]

/-- Actions without weight have no tally. -/
theorem tally_weightless {weight : σ → α → σ → Nat} (state : σ) {actions : List α}
    (none : ∀ action ∈ actions, ∀ before after, weight before action after = 0) :
    tally step weight state actions = 0 := by
  induction actions generalizing state with
  | nil => rfl
  | cons action rest inductionHypothesis =>
    rw [tally]
    split
    · rfl
    · rw [none action List.mem_cons_self, Nat.zero_add]
      exact inductionHypothesis _ fun later member => none later (List.mem_cons_of_mem _ member)

/-- Exact counting: when each guarded step between two states with the required
property adds its weight to the index of an invariant, a run adds its tally. -/
theorem run_count {guard : σ → α → Prop} {holds : σ → Prop} {weight : σ → α → σ → Nat}
    {inv : Nat → σ → Prop}
    (counted : ∀ state action next count, guard state action → holds next → inv count state →
      step state action = some next → inv (count + weight state action next) next)
    {state last : σ} {actions : List α} {count : Nat} (start : inv count state)
    (guarded : Meets step guard state actions) (along : Along step holds state actions)
    (completed : run step state actions = some last) :
    inv (count + tally step weight state actions) last := by
  induction actions generalizing state count with
  | nil =>
    have same : state = last := Option.some.inj completed
    exact same ▸ start
  | cons action rest inductionHypothesis =>
    obtain ⟨next, moved, remaining⟩ := run_cons completed
    have later : Along step holds next rest := along.2 next moved
    have now := counted state action next count guarded.1 (later.ends remaining).1 start moved
    have whole := inductionHypothesis now (guarded.2 next moved) later remaining
    simpa only [tally, moved, Nat.add_assoc] using whole

section History

variable {β : Type*} {note : β → σ → α → σ → β}

/-- A system together with a record of its past. -/
def observe (step : σ → α → Option σ) (note : β → σ → α → σ → β) (state : σ × β) (action : α) :
    Option (σ × β) :=
  (step state.1 action).map fun next => (next, note state.2 state.1 action next)

/-- A step of the system is a step with its record. -/
theorem observe_step {state next : σ} {action : α} (moved : step state action = some next)
    (seen : β) :
    observe step note (state, seen) action = some (next, note seen state action next) := by
  simp only [observe, moved, Option.map_some]

/-- Recording the past does not restrict the runs. -/
theorem run_observe {state last : σ} {actions : List α}
    (completed : run step state actions = some last) (seen : β) :
    ∃ after, run (observe step note) (state, seen) actions = some (last, after) := by
  induction actions generalizing state seen with
  | nil =>
    have same : state = last := Option.some.inj completed
    exact ⟨seen, by rw [same, run]⟩
  | cons action rest inductionHypothesis =>
    obtain ⟨next, moved, remaining⟩ := run_cons completed
    obtain ⟨after, reached⟩ := inductionHypothesis remaining (note seen state action next)
    exact ⟨after, by simp only [run, observe_step moved, Option.bind_some, reached]⟩

/-- Recording the past does not change a count. -/
theorem tally_observe (weight : σ → α → σ → Nat) {state last : σ} {actions : List α}
    (completed : run step state actions = some last) (seen : β) :
    tally (observe step note) (fun before action after => weight before.1 action after.1)
      (state, seen) actions = tally step weight state actions := by
  induction actions generalizing state seen with
  | nil => rfl
  | cons action rest inductionHypothesis =>
    obtain ⟨next, moved, remaining⟩ := run_cons completed
    simp only [tally, observe_step moved, moved, inductionHypothesis remaining]

end History

/-! ## Labelled traces -/

/-- A run of a step relation whose labels say what was done and what was observed. -/
inductive Trace {τ : Type*} {ℓ : Type*} (step : τ → ℓ → τ → Prop) : τ → List ℓ → τ → Prop where
  | nil (state : τ) : Trace step state [] state
  | cons {state next last : τ} {label : ℓ} {rest : List ℓ} (moved : step state label next)
      (remaining : Trace step next rest last) : Trace step state (label :: rest) last

/-- A property that every step keeps holds after every trace. -/
theorem Trace.invariant {τ ℓ : Type*} {step : τ → ℓ → τ → Prop} {inv : τ → Prop}
    (kept : ∀ state label next, inv state → step state label next → inv next) {state last : τ}
    {labels : List ℓ} (start : inv state) (trace : Trace step state labels last) : inv last := by
  induction trace with
  | nil state => exact start
  | cons moved _ inductionHypothesis => exact inductionHypothesis (kept _ _ _ start moved)

/-- A relation that every step keeps, when the other system takes a step with the same
label, carries whole traces over. -/
theorem Trace.simulate {τ υ ℓ : Type*} {concrete : τ → ℓ → τ → Prop} {abstract : υ → ℓ → υ → Prop}
    {related : τ → υ → Prop}
    (simulates : ∀ state other label next, related state other → concrete state label next →
      ∃ other', abstract other label other' ∧ related next other')
    {state last : τ} {other : υ} {labels : List ℓ} (start : related state other)
    (trace : Trace concrete state labels last) :
    ∃ other', Trace abstract other labels other' ∧ related last other' := by
  induction trace generalizing other with
  | nil state => exact ⟨other, .nil other, start⟩
  | cons moved _ inductionHypothesis =>
    obtain ⟨middle, step, between⟩ := simulates _ _ _ _ start moved
    obtain ⟨other', remaining, finish⟩ := inductionHypothesis between
    exact ⟨other', .cons step remaining, finish⟩

end Cs537.Runs
