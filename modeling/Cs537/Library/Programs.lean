import Mathlib.Data.List.Basic

/-!
# Programs that change a state and may stop

A program reads and writes a state and either returns a value or stops for a reason, after
which nothing runs any more. `Ensures` says what holds of the value and of the state when the
program returns, and of the reason when it stops; the rules below compute it along the program.
A loop over a list whose body may return from the surrounding function is `scan`.
-/

namespace Cs537.Programs

universe u
variable {σ ε α β ι : Type u}

/-- A program with state `σ` that may stop for a reason of type `ε`. -/
abbrev Program (σ ε : Type u) : Type u → Type u := StateT σ (Except ε)

/-- Started in this state, the program returns a value and a state as described, or stops for a
reason as described. -/
def Ensures (program : Program σ ε α) (state : σ) (post : α → σ → Prop) (stop : ε → Prop) : Prop :=
  match program.run state with
  | .ok (value, after) => post value after
  | .error reason => stop reason

/-- Run the body on the items in order. It goes on with a new value of the loop variable, or
returns a result, which ends the loop. -/
def scan (body : β → ι → Program σ ε (β ⊕ α)) : β → List ι → Program σ ε (β ⊕ α)
  | loop, [] => pure (.inl loop)
  | loop, item :: rest => do
    match ← body loop item with
    | .inl next => scan body next rest
    | .inr result => pure (.inr result)

section Rules

variable {program : Program σ ε α} {next : α → Program σ ε β} {state : σ}
  {post : α → σ → Prop} {stop : ε → Prop}

@[simp] theorem ensures_pure (value : α) :
    Ensures (pure value : Program σ ε α) state post stop ↔ post value state := Iff.rfl

@[simp] theorem ensures_get {post : σ → σ → Prop} :
    Ensures (get : Program σ ε σ) state post stop ↔ post state state := Iff.rfl

@[simp] theorem ensures_set {post : PUnit → σ → Prop} (after : σ) :
    Ensures (set after : Program σ ε PUnit) state post stop ↔ post ⟨⟩ after := Iff.rfl

@[simp] theorem ensures_modify {post : PUnit → σ → Prop} (change : σ → σ) :
    Ensures (modify change : Program σ ε PUnit) state post stop ↔ post ⟨⟩ (change state) := Iff.rfl

@[simp] theorem ensures_throw (reason : ε) :
    Ensures (throw reason : Program σ ε α) state post stop ↔ stop reason := Iff.rfl

@[simp] theorem ensures_ite (condition : Prop) [Decidable condition] (other : Program σ ε α) :
    Ensures (if condition then program else other) state post stop ↔
      if condition then Ensures program state post stop else Ensures other state post stop := by
  split <;> rfl

/-- One program after the other: what the first ensures is what the second needs. -/
@[simp] theorem ensures_bind {post : β → σ → Prop} :
    Ensures (program >>= next) state post stop ↔
      Ensures program state (fun value after => Ensures (next value) after post stop) stop := by
  unfold Ensures
  change (match (program.run state >>= fun made => (next made.1).run made.2) with
    | .ok (value, after) => post value after
    | .error reason => stop reason) ↔ _
  cases program.run state <;> rfl

/-- A program goes on from where the first one returned. -/
theorem run_bind_ok {value : α} {after : σ} (made : program.run state = .ok (value, after)) :
    (program >>= next).run state = (next value).run after := by
  rw [StateT.run_bind, made]
  rfl

/-- A program stops where the first one stops. -/
theorem run_bind_error {reason : ε} (made : program.run state = .error reason) :
    (program >>= next).run state = .error reason := by
  rw [StateT.run_bind, made]
  rfl

/-- What is ensured may be weakened. -/
theorem Ensures.mono {post' : α → σ → Prop} {stop' : ε → Prop}
    (ensured : Ensures program state post stop) (returns : ∀ value after, post value after → post' value after)
    (stops : ∀ reason, stop reason → stop' reason) : Ensures program state post' stop' := by
  unfold Ensures at *
  cases made : program.run state with
  | ok result => exact returns _ _ (by simpa only [made] using ensured)
  | error reason => exact stops _ (by simpa only [made] using ensured)

/-- What is ensured twice is ensured together. -/
theorem Ensures.and {post' : α → σ → Prop} {stop' : ε → Prop} (one : Ensures program state post stop)
    (other : Ensures program state post' stop') :
    Ensures program state (fun value after => post value after ∧ post' value after)
      (fun reason => stop reason ∧ stop' reason) := by
  unfold Ensures at *
  cases made : program.run state with
  | ok result => exact ⟨by simpa only [made] using one, by simpa only [made] using other⟩
  | error reason => exact ⟨by simpa only [made] using one, by simpa only [made] using other⟩

/-- What a program ensures holds of the value that it returns. -/
theorem Ensures.returned {value : α} {after : σ} (ensured : Ensures program state post stop)
    (made : program.run state = .ok (value, after)) : post value after := by
  unfold Ensures at ensured
  simpa only [made] using ensured

/-- A program does not both return and never return, and does not stop for two reasons that
exclude each other. -/
theorem Ensures.contradicts {post' : α → σ → Prop} {stop' : ε → Prop}
    (one : Ensures program state post stop) (other : Ensures program state post' stop')
    (returns : ∀ value after, post value after → ¬ post' value after)
    (stops : ∀ reason, stop reason → ¬ stop' reason) : False := by
  unfold Ensures at *
  cases made : program.run state with
  | ok result => exact returns _ _ (by simpa only [made] using one) (by simpa only [made] using other)
  | error reason => exact stops _ (by simpa only [made] using one) (by simpa only [made] using other)

end Rules

section Loops

variable {body : β → ι → Program σ ε (β ⊕ α)} {post : β ⊕ α → σ → Prop} {stop : ε → Prop}

/-- The invariant rule of the loop: the body keeps the invariant when it goes on, and
establishes the postcondition when it returns. -/
theorem ensures_scan {inv : β → σ → Prop} {items : List ι}
    (each : ∀ loop item state, item ∈ items → inv loop state → Ensures (body loop item) state
      (fun result after => Sum.elim (fun next => inv next after) (fun value => post (.inr value) after) result)
      stop)
    (ends : ∀ loop state, inv loop state → post (.inl loop) state)
    {loop : β} {state : σ} (start : inv loop state) :
    Ensures (scan body loop items) state post stop := by
  induction items generalizing loop state with
  | nil => exact ends loop state start
  | cons item rest inductionHypothesis =>
    rw [scan, ensures_bind]
    refine (each loop item state List.mem_cons_self start).mono ?_ fun _ stopped => stopped
    intro result after done
    cases result with
    | inl next =>
      exact inductionHypothesis (fun loop item state member => each loop item state
        (List.mem_cons_of_mem _ member)) done
    | inr value => exact done

/-- A loop that passes over its items without the property, and returns at the first one with
it, is a search. -/
theorem ensures_search_within {test : ι → Bool} {items : List ι} {loop : β} {state : σ}
    (miss : ∀ item ∈ items, test item = false → (body loop item).run state = .ok (.inl loop, state))
    (hit : ∀ item, items.find? test = some item → Ensures (body loop item) state
      (fun result after => (∃ value, result = .inr value) ∧ post result after) stop)
    (absent : items.find? test = none → post (.inl loop) state) :
    Ensures (scan body loop items) state post stop := by
  induction items with
  | nil => exact absent rfl
  | cons item rest inductionHypothesis =>
    rw [scan, ensures_bind]
    cases tested : test item with
    | false =>
      rw [List.find?_cons_of_neg (by simp [tested])] at hit absent
      unfold Ensures
      rw [miss item List.mem_cons_self tested]
      exact inductionHypothesis (fun item member => miss item (List.mem_cons_of_mem _ member)) hit absent
    | true =>
      refine (hit item (List.find?_cons_of_pos tested)).mono ?_ fun _ stopped => stopped
      rintro result after ⟨⟨value, rfl⟩, done⟩
      exact done

/-- The same of a loop that would pass over every item without the property. -/
theorem ensures_search {test : ι → Bool} {items : List ι} {loop : β} {state : σ}
    (miss : ∀ item, test item = false → (body loop item).run state = .ok (.inl loop, state))
    (hit : ∀ item, items.find? test = some item → Ensures (body loop item) state
      (fun result after => (∃ value, result = .inr value) ∧ post result after) stop)
    (absent : items.find? test = none → post (.inl loop) state) :
    Ensures (scan body loop items) state post stop :=
  ensures_search_within (fun item _ => miss item) hit absent

end Loops

end Cs537.Programs
