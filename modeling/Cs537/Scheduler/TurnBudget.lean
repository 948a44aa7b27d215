import Cs537.Scheduler.Compensation

/-!
# The budget of a turn

A process at the head of the queue keeps it until it has been dispatched as often
as its slice and its grant allow: only an iteration of the scheduler moves the head
of an active process, and only when the budget is used up. Everything else that
happens meanwhile appends to the queue and leaves the account of the process alone,
with two exceptions: `setslice` on the process, and `sys_sleep` called after the
process was killed. The latter sets the grant and restarts the count before it
tests `killed`, and returns without blocking.
-/

namespace Cs537.Scheduler

open LinkedQueue

/-- The process neither sleeps nor has exited. -/
def Active (x : Proc) : Prop := x.state = .runnable ∨ x.state = .running

instance (x : Proc) : Decidable (Active x) := inferInstanceAs (Decidable (_ ∨ _))

/-- `setslice` is not called on the process. -/
def Unsliced (p : Slot) (s : Sched) : Action → Prop
  | .setslice pid _ => int32 pid ≠ (s.proc p).pid
  | _ => True

instance (p : Slot) (s : Sched) (action : Action) : Decidable (Unsliced p s action) :=
  match action with
  | .setslice _ _ => inferInstanceAs (Decidable (_ ≠ _))
  | .load | .acquire | .iterate | .timer _ | .wakeup _ | .sleep _ | .sysSleep _ | .kill _ | .exit
  | .wait | .fork2 _ | .fork | .forkFail | .forkDone => isTrue trivial

/-- The process does not call `sys_sleep` after it was killed. -/
def Wakeful (p : Slot) (s : Sched) : Action → Prop
  | .sysSleep _ => s.cpu = .running p → (s.proc p).killed = false
  | _ => True

instance (p : Slot) (s : Sched) (action : Action) : Decidable (Wakeful p s action) :=
  match action with
  | .sysSleep _ => inferInstanceAs (Decidable (_ → _))
  | .load | .acquire | .iterate | .timer _ | .wakeup _ | .sleep _ | .kill _ | .exit | .wait
  | .setslice _ _ | .fork2 _ | .fork | .forkFail | .forkDone => isTrue trivial

/-- A dispatch of the process. -/
def dispatches (p : Slot) (_ : Sched) (action : Action) (t : Sched) : Nat :=
  if action = .iterate ∧ t.cpu = .running p then 1 else 0

/-- A dispatch of another process. -/
def intrusions (p : Slot) (_ : Sched) (action : Action) (t : Sched) : Nat :=
  if action = .iterate ∧ ∃ q, q ≠ p ∧ t.cpu = .running q then 1 else 0

/-- The number of dispatches that a turn allows. -/
def allowance (x : Proc) : Int := x.timeslice + x.activesleepticks

/-- The turn that began with the record `x` has come to its `k`-th dispatch. -/
structure InTurn (p : Slot) (x : Proc) (k : Nat) (t : Sched) : Prop where
  head : t.queue.head = some p
  active : Active (t.proc p)
  slice : (t.proc p).timeslice = x.timeslice
  grant : (t.proc p).activesleepticks = x.activesleepticks
  spent : (t.proc p).activeticks = k
  within : (k : Int) ≤ allowance x
  schedticks : (t.proc p).schedticks = x.schedticks + k
  compticks : (t.proc p).compticks = x.compticks + (k - x.timeslice).toNat
  switches : (t.proc p).switches = x.switches

/-- The turn that began with the record `x` has just ended. -/
structure TurnOver (p : Slot) (x : Proc) (t : Sched) : Prop where
  tail : t.queue.tail = some p
  slice : (t.proc p).timeslice = x.timeslice
  spent : (t.proc p).activeticks = 0
  grant : (t.proc p).activesleepticks = 0
  schedticks : ((t.proc p).schedticks : Int) = x.schedticks + allowance x
  compticks : ((t.proc p).compticks : Int) = x.compticks + x.activesleepticks
  switches : (t.proc p).switches = x.switches + 1

/-! ## Steps that are not the scheduler's -/

/-- The two records have the same account. -/
structure SameAccount (x y : Proc) : Prop where
  slice : y.timeslice = x.timeslice
  grant : y.activesleepticks = x.activesleepticks
  spent : y.activeticks = x.activeticks
  schedticks : y.schedticks = x.schedticks
  compticks : y.compticks = x.compticks
  switches : y.switches = x.switches

/-- Nobody wakes an active process. -/
theorem woken_active {x : Proc} (active : Active x) (chan : Option Chan) (ticks : Nat) :
    Sched.woken chan ticks x = x := by
  have awake : x.state ≠ .sleeping := by rcases active with state | state <;> simp [state]
  unfold Sched.woken
  exact if_neg fun matched => awake matched.1

/-- A change of an active process that leaves it active, and is neither made by the
scheduler nor one of the two exceptions, keeps its account. -/
theorem change_account {s : Sched} {p : Slot} {action : Action} {y : Proc}
    (changed : Change s p action y) (before : Active (s.proc p)) (after : Active y)
    (other : action ≠ .iterate) (unsliced : Unsliced p s action) (wakeful : Wakeful p s action) :
    SameAccount (s.proc p) y := by
  cases changed with
  | same | yielded | killed | forked | dropped => exact ⟨rfl, rfl, rfl, rfl, rfl, rfl⟩
  | slept | awaited | dozed | exited | reaped | failed => rcases after with state | state <;> cases state
  | refused n on dead => exact absurd (wakeful on) (by simp [dead])
  | ticked | roused =>
    rw [woken_active before]
    exact ⟨rfl, rfl, rfl, rfl, rfl, rfl⟩
  | passed q on y pass =>
    obtain ⟨_, _, rfl | ⟨asleep, _, _⟩⟩ := pass
    · exact ⟨rfl, rfl, rfl, rfl, rfl, rfl⟩
    · rcases before with state | state <;> simp [asleep] at state
  | sliced pid slice found => exact absurd (Eq.symm (by simpa using Sched.findSlot_some found)) unsliced
  | taken action forks unused => rcases before with state | state <;> simp [unused] at state
  | born q slice forking embryo => rcases before with state | state <;> simp [embryo] at state
  | dispatched | rotated => exact absurd rfl other

/-- An active process that stays active keeps the head of the queue, unless its turn ends. -/
theorem Shift.keeps_head {s t : Sched} {nodes after : List Slot} {p : Slot}
    (shift : Shift s t nodes after) (queued : Queued s nodes) (done : Queued t after)
    (head : nodes.head? = some p) (active : Active (t.proc p))
    (unfinished : (t.proc p).switches = (s.proc p).switches) : after.head? = some p := by
  cases shift with
  | append _ added switches fresh => rw [List.head?_append, head, Option.some_or]
  | pop _ switches gone =>
    have running : (t.proc p).state = .running := active.resolve_left (gone p head)
    exact done.front p ((done.running p).mp running)
  | rotate first rest charged switches =>
    obtain rfl : first = p := by simpa using head
    omega

/-! ## Iterations of the scheduler -/

section Turn

variable {p : Slot} {x : Proc} {k : Nat} {s t : Sched} {nodes : List Slot}

/-- The scheduler dispatches the process while its budget lasts, and then ends its turn. -/
theorem InTurn.iterate (turn : InTurn p x k s) (queued : Queued s nodes) (held : s.cpu = .loop)
    (slice : 0 ≤ x.timeslice) (grant : 0 ≤ x.activesleepticks) (bound : allowance x < 2 ^ 31) :
    (k < allowance x ∧ s.iterate.cpu = .running p ∧ InTurn p x (k + 1) s.iterate) ∨
      (k = allowance x ∧ s.iterate.cpu = .loop ∧ TurnOver p x s.iterate) := by
  have head := queued.represents.head_eq
  rw [turn.head] at head
  have exact : int32 ((s.proc p).timeslice + (s.proc p).activesleepticks) = allowance x := by
    unfold int32
    rw [turn.slice, turn.grant]
    unfold allowance at bound ⊢
    omega
  rcases iterate_cases queued with ⟨rfl, _⟩ | ⟨q, rest, rfl, cases⟩
  · cases head
  obtain rfl : q = p := by simpa using head.symm
  rcases cases with ⟨idle, _⟩ | ⟨ready, budget, result⟩ | ⟨ready, empty, result⟩
  · -- the head is not running while the scheduler holds the lock
    have running : (s.proc q).state = .running := turn.active.resolve_left idle
    have on : s.cpu = .running q := (queued.running q).mp running
    rw [held] at on
    cases on
  · have left : (k : Int) < allowance x := by
      simpa only [Sched.hasBudget, exact, turn.spent, decide_eq_true_eq] using budget
    refine .inl ⟨left, by rw [result]; rfl, ?_⟩
    have within : ((k + 1 : Nat) : Int) ≤ allowance x := by omega
    rw [result]
    refine ⟨turn.head, ?_, ?_, ?_, ?_, within, ?_, ?_, ?_⟩ <;>
      simp only [Sched.dispatch, Sched.set_proc, if_true]
    · exact .inr rfl
    · exact turn.slice
    · exact turn.grant
    · rw [turn.spent]
      rfl
    · rw [turn.schedticks]
      rfl
    · rw [turn.slice, turn.spent, turn.compticks]
      split_ifs <;> push_cast <;> omega
    · exact turn.switches
  · have used : allowance x ≤ (k : Int) := by
      simpa only [Sched.hasBudget, exact, turn.spent, decide_eq_false_iff_not, not_lt] using empty
    have full : (k : Int) = allowance x := le_antisymm turn.within used
    have last := (queued.rotate held rfl ready).represents.last
    rw [List.getLast?_append, List.getLast?_singleton, Option.some_or] at last
    refine .inr ⟨full, ?_, ?_⟩
    · rw [result, Sched.rotate_eq ready]
      simp [held]
    rw [result]
    refine ⟨last, ?_, ?_, ?_, ?_, ?_, ?_⟩ <;> simp only [Sched.rotate_proc ready, if_true]
    · exact turn.slice
    · rw [turn.schedticks]
      push_cast
      omega
    · rw [turn.compticks]
      unfold allowance at full
      push_cast
      omega
    · rw [turn.switches]

/-- One step of a turn: the process is dispatched, its turn ends, or nothing happens to
its account and its place. -/
theorem InTurn.next {action : Action} (turn : InTurn p x k s) (sound : Sound s)
    (slice : 0 ≤ x.timeslice) (grant : 0 ≤ x.activesleepticks) (bound : allowance x < 2 ^ 31)
    (unsliced : Unsliced p s action) (wakeful : Wakeful p s action) (active : Active (t.proc p))
    (moved : step s action = some t) :
    (action = .iterate ∧ k < allowance x ∧ t.cpu = .running p ∧ InTurn p x (k + 1) t) ∨
      (action = .iterate ∧ k = allowance x ∧ t.cpu = .loop ∧ TurnOver p x t) ∨
      (action ≠ .iterate ∧ InTurn p x k t) := by
  obtain ⟨⟨nodes, queued⟩, forks⟩ := sound
  by_cases other : action = .iterate
  · subst other
    cases step_cases moved with
    | iterate held =>
      rcases turn.iterate queued held slice grant bound with
        ⟨left, on, later⟩ | ⟨full, looping, ended⟩
      · exact .inl ⟨rfl, left, on, later⟩
      · exact .inr (.inl ⟨rfl, full, looping, ended⟩)
  · refine .inr (.inr ⟨other, ?_⟩)
    have same := change_account (step_change queued forks (step_cases moved) p) turn.active active
      other unsliced wakeful
    obtain ⟨after, done, shift, _⟩ := step_queued queued forks (step_cases moved)
    have head : nodes.head? = some p := queued.represents.head_eq.symm.trans turn.head
    have kept := shift.keeps_head queued done head active same.switches
    exact ⟨done.represents.head_eq.trans kept, active, same.slice.trans turn.slice,
      same.grant.trans turn.grant, same.spent.trans turn.spent, turn.within,
      same.schedticks.trans turn.schedticks, same.compticks.trans turn.compticks,
      same.switches.trans turn.switches⟩

end Turn

/-! ## Whole turns -/

/-- The ranges hold in every reachable state. -/
theorem reachable_ranged {s : Sched} (reachable : Reachable s) (p : Slot) : Ranged (s.proc p) := by
  obtain ⟨actions, completed⟩ := reachable
  have kept : ∀ s action t, True → (Sound s ∧ ∀ q, Ranged (s.proc q)) → step s action = some t →
      Sound t ∧ ∀ q, Ranged (t.proc q) := by
    intro s action t _ ⟨sound, ranged⟩ moved
    obtain ⟨⟨nodes, queued⟩, forks⟩ := id sound
    exact ⟨step_sound sound moved,
      fun q => change_ranged ranged (step_change queued forks (step_cases moved) q)⟩
  have start := userinit_compensated firstSlot
  exact (Runs.run_invariant kept ⟨start.sound, start.ranged⟩ (Runs.Meets.unguarded _ _)
    completed).2 p

/-- The turn that starts in `s` goes by the budget of the process, as long as the steps
meet the guard and the process stays active: up to any point of the turn nobody else is
dispatched, and the scheduler ends the turn after exactly the allowed dispatches. -/
def Budgeted (guard : Sched → Action → Prop) (p : Slot) (s : Sched) : Prop :=
  s.queue.head = some p → (s.proc p).activeticks = 0 →
    ∀ actions m, run s actions = some m → Runs.Meets step guard s actions →
      Runs.Along step (fun u => Active (u.proc p) ∧ (u.proc p).switches = (s.proc p).switches)
        s actions →
      Runs.tally step (intrusions p) s actions = 0 ∧
        InTurn p (s.proc p) (Runs.tally step (dispatches p) s actions) m ∧
        ∀ action t, guard m action → step m action = some t → Active (t.proc p) →
          (action = .iterate ∧
              Runs.tally step (dispatches p) s actions < allowance (s.proc p) ∧
              t.cpu = .running p) ∨
            (action = .iterate ∧
              Runs.tally step (dispatches p) s actions = allowance (s.proc p) ∧
              TurnOver p (s.proc p) t) ∨
            (action ≠ .iterate ∧ (t.proc p).switches = (s.proc p).switches)

/-- A process that starts with empty counters in `s` is charged its slice for each turn,
as long as the steps meet the guard and it stays active. -/
def Regular (guard : Sched → Action → Prop) (p : Slot) (s : Sched) : Prop :=
  (s.proc p).schedticks = 0 → (s.proc p).switches = 0 → (s.proc p).activeticks = 0 →
    (s.proc p).activesleepticks = 0 →
    ∀ actions t, run s actions = some t → Runs.Meets step guard s actions →
      Runs.Along step (fun u => Active (u.proc p)) s actions →
      ((t.proc p).schedticks : Int) =
        (t.proc p).timeslice * (t.proc p).switches + (t.proc p).activeticks

section Run

variable {p : Slot} {x : Proc} {s t m : Sched} {actions : List Action}

/-- The steps that neither set the slice of the process nor restart its count. -/
def Undisturbed (p : Slot) (s : Sched) (action : Action) : Prop :=
  Unsliced p s action ∧ Wakeful p s action

instance (p : Slot) (s : Sched) (action : Action) : Decidable (Undisturbed p s action) :=
  inferInstanceAs (Decidable (_ ∧ _))

/-- A step within a turn, with the number of dispatches that it makes. -/
theorem InTurn.counted {k : Nat} {action : Action} (turn : InTurn p x k s) (sound : Sound s)
    (slice : 0 ≤ x.timeslice) (grant : 0 ≤ x.activesleepticks) (bound : allowance x < 2 ^ 31)
    (undisturbed : Undisturbed p s action)
    (during : Active (t.proc p) ∧ (t.proc p).switches = x.switches)
    (moved : step s action = some t) :
    InTurn p x (k + dispatches p s action t) t ∧ intrusions p s action t = 0 := by
  unfold dispatches intrusions
  rcases turn.next sound slice grant bound undisturbed.1 undisturbed.2 during.1 moved with
    ⟨rfl, _, on, later⟩ | ⟨_, _, _, ended⟩ | ⟨other, later⟩
  · rw [if_pos ⟨rfl, on⟩, if_neg]
    · exact ⟨later, rfl⟩
    · rintro ⟨_, q, different, same⟩
      exact different (Cpu.running.inj (same.symm.trans on))
  · have more := ended.switches
    have same := during.2
    omega
  · rw [if_neg fun both => other both.1, if_neg fun both => other both.1]
    exact ⟨later, rfl⟩

/-- Within a turn the dispatches are those of the process. -/
theorem InTurn.until (turn : InTurn p x 0 s) (sound : Sound s)
    (slice : 0 ≤ x.timeslice) (grant : 0 ≤ x.activesleepticks) (bound : allowance x < 2 ^ 31)
    (undisturbed : Runs.Meets step (Undisturbed p) s actions)
    (during : Runs.Along step (fun u => Active (u.proc p) ∧ (u.proc p).switches = x.switches)
      s actions)
    (completed : run s actions = some m) :
    Sound m ∧ InTurn p x (Runs.tally step (dispatches p) s actions) m ∧
      Runs.tally step (intrusions p) s actions = 0 := by
  have dispatched := @Runs.run_count _ _ step (Undisturbed p) _ (dispatches p)
    (fun k u => Sound u ∧ InTurn p x k u)
    (fun _ _ _ _ guard held now moved =>
      ⟨step_sound now.1 moved, (now.2.counted now.1 slice grant bound guard held moved).1⟩)
    _ _ _ 0 ⟨sound, turn⟩ undisturbed during completed
  have intruded := @Runs.run_count _ _ step (Undisturbed p) _ (intrusions p)
    (fun count u => Sound u ∧ (∃ k, InTurn p x k u) ∧ count = 0)
    (fun u action v count guard held now moved => by
      obtain ⟨steady, ⟨k, current⟩, none⟩ := now
      obtain ⟨later, alone⟩ := current.counted steady slice grant bound guard held moved
      exact ⟨step_sound steady moved, ⟨_, later⟩, by omega⟩)
    _ _ _ 0 ⟨sound, ⟨0, turn⟩, rfl⟩ undisturbed during completed
  rw [Nat.zero_add] at dispatched intruded
  exact ⟨dispatched.1, dispatched.2, intruded.2.2⟩

end Run

/-! ## Whole lives -/

/-- The account of a process whose every turn had `slice` dispatches. -/
structure Even (slice : Int) (x : Proc) : Prop where
  slice_eq : x.timeslice = slice
  grant : x.activesleepticks = 0
  spent : x.activeticks ≤ slice
  total : (x.schedticks : Int) = slice * x.switches + x.activeticks

/-- What an iteration of the scheduler does to one process. -/
theorem iterate_record {s : Sched} {nodes : List Slot} (queued : Queued s nodes) (p : Slot) :
    s.iterate.proc p = s.proc p ∨
      (Sched.hasBudget (s.proc p) = true ∧ s.iterate.proc p = Sched.charged (s.proc p)) ∨
      (Sched.hasBudget (s.proc p) = false ∧ s.iterate.proc p =
        { s.proc p with
          switches := (s.proc p).switches + 1, activesleepticks := 0, activeticks := 0 }) := by
  rcases iterate_cases queued with ⟨_, result⟩ |
    ⟨q, rest, _, ⟨_, result⟩ | ⟨ready, budget, result⟩ | ⟨ready, empty, result⟩⟩
  · exact .inl (by rw [result])
  · exact .inl (by rw [result, Sched.pop_proc])
  · rw [result]
    by_cases same : p = q
    · subst same
      exact .inr (.inl ⟨budget, by simp [Sched.dispatch, Sched.charged]⟩)
    · exact .inl (by simp [Sched.dispatch, same])
  · rw [result, Sched.rotate_proc ready]
    by_cases same : p = q
    · subst same
      exact .inr (.inr ⟨empty, if_pos rfl⟩)
    · exact .inl (if_neg same)

/-- A step keeps the account even. -/
theorem Even.next {s t : Sched} {p : Slot} {slice : Int} {action : Action}
    (even : Even slice (s.proc p)) (sound : Sound s) (nonneg : 0 ≤ slice) (bound : slice < 2 ^ 31)
    (undisturbed : Undisturbed p s action) (before : Active (s.proc p)) (after : Active (t.proc p))
    (moved : step s action = some t) : Even slice (t.proc p) := by
  obtain ⟨⟨nodes, queued⟩, forks⟩ := sound
  have exact : int32 ((s.proc p).timeslice + (s.proc p).activesleepticks) = slice := by
    unfold int32
    rw [even.slice_eq, even.grant]
    omega
  have total := even.total
  by_cases other : action = .iterate
  · subst other
    cases step_cases moved with
    | iterate held =>
      rcases iterate_record queued p with same | ⟨budget, same⟩ | ⟨empty, same⟩
      · rw [same]
        exact even
      · have left : (s.proc p).activeticks < slice := by
          simpa only [Sched.hasBudget, exact, decide_eq_true_eq] using budget
        rw [same]
        refine ⟨even.slice_eq, even.grant, ?_, ?_⟩ <;> simp only [Sched.charged]
        · omega
        · push_cast
          omega
      · have used : slice ≤ (s.proc p).activeticks := by
          simpa only [Sched.hasBudget, exact, decide_eq_false_iff_not, not_lt] using empty
        have spent := even.spent
        rw [same]
        refine ⟨even.slice_eq, rfl, nonneg, ?_⟩
        rw [Int.natCast_add, Int.mul_add]
        simp only [Int.natCast_one, Int.mul_one, Int.add_zero]
        omega
  · obtain ⟨sliced, granted, counted, charged, _, switched⟩ := change_account
      (step_change queued forks (step_cases moved) p) before after other undisturbed.1 undisturbed.2
    refine ⟨sliced.trans even.slice_eq, granted.trans even.grant, ?_, ?_⟩
    · rw [counted]
      exact even.spent
    · rw [charged, switched, counted]
      exact total

/-- Every turn goes by its budget, and a process that never blocks is charged its slice
for each turn, if no killed process calls `sys_sleep`. -/
theorem turns_go_by_budget {s : Sched} {p : Slot} (reachable : Reachable s)
    (grant : 0 ≤ (s.proc p).activesleepticks) (bound : allowance (s.proc p) < 2 ^ 31) :
    Budgeted (Undisturbed p) p s ∧ Regular (Undisturbed p) p s := by
  have sound := reachable_sound reachable
  have slice := (reachable_ranged reachable p).slice
  constructor
  · intro head fresh actions m completed undisturbed during
    have active : Active (s.proc p) := (during.ends completed).1.1
    have turn : InTurn p (s.proc p) 0 s := by
      refine ⟨head, active, rfl, rfl, fresh, ?_, rfl, ?_, rfl⟩
      · unfold allowance
        omega
      · simp [slice]
    obtain ⟨middle, later, alone⟩ :=
      turn.until sound slice grant bound undisturbed during completed
    refine ⟨alone, later, ?_⟩
    intro action t guard moved awake
    rcases later.next middle slice grant bound guard.1 guard.2 awake moved with
      ⟨scheduled, left, on, _⟩ | ⟨scheduled, full, _, ended⟩ | ⟨other, calm⟩
    · exact .inl ⟨scheduled, left, on⟩
    · exact .inr (.inl ⟨scheduled, full, ended⟩)
    · exact .inr (.inr ⟨other, calm.switches⟩)
  · intro schedticks switches activeticks activesleepticks actions t completed undisturbed along
    have start : Even (s.proc p).timeslice (s.proc p) :=
      ⟨rfl, activesleepticks, by rw [activeticks]; exact slice,
        by rw [schedticks, switches, activeticks]; simp⟩
    have small : (s.proc p).timeslice < 2 ^ 31 := by
      unfold allowance at bound
      omega
    have even : Sound t ∧ Active (t.proc p) ∧ Even (s.proc p).timeslice (t.proc p) :=
      @Runs.run_count _ _ step (Undisturbed p) _ (fun _ _ _ => 0)
        (fun _ u => Sound u ∧ Active (u.proc p) ∧ Even (s.proc p).timeslice (u.proc p))
        (fun _ _ _ _ guard awake now moved => ⟨step_sound now.1 moved, awake,
          now.2.2.next now.1 slice small guard now.2.1 awake moved⟩)
        _ _ _ 0 ⟨sound, (along.ends completed).1, start⟩ undisturbed along completed
    rw [even.2.2.slice_eq]
    exact even.2.2.total

/-- The first process after it slept for two ticks, at the start of its turn. -/
def firstRested : Sched := Runs.final step userinit
  [.load, .acquire, .iterate, .sysSleep 2, .iterate, .timer true, .timer true]

/-- A turn of three dispatches: one for the slice and two for the sleep. -/
theorem turns_go_by_budget_rested :
    Reachable firstRested ∧
      ∃ m t, run firstRested [.load, .acquire, .iterate, .timer true, .iterate, .timer true, .iterate,
          .timer true] = some m ∧ step m .iterate = some t ∧
        TurnOver firstSlot (firstRested.proc firstSlot) t := by
  have reachable : Reachable firstRested := ⟨_, Runs.run_final (by decide +kernel)⟩
  have completed : run firstRested [.load, .acquire, .iterate, .timer true, .iterate, .timer true,
      .iterate, .timer true] = some _ := Runs.run_final (by decide +kernel)
  have moved : step (Runs.final step firstRested [.load, .acquire, .iterate, .timer true, .iterate,
      .timer true, .iterate, .timer true]) .iterate = some _ := Runs.step_final (by decide +kernel)
  obtain ⟨_, _, next⟩ := (@turns_go_by_budget firstRested firstSlot reachable (by decide +kernel)
    (by decide +kernel)).1 (by decide +kernel) (by decide +kernel) _ _ completed
    (by decide +kernel) (by decide +kernel)
  rcases next .iterate _ ⟨trivial, trivial⟩ moved (by decide +kernel) with
    ⟨_, left, _⟩ | ⟨_, _, ended⟩ | ⟨other, _⟩
  · exact absurd left (by decide +kernel)
  · exact ⟨reachable, _, _, completed, moved, ended⟩
  · exact absurd rfl other

/-- A child with slice two that was killed while it was inside `sys_sleep(-2)`, at the
start of its turn. -/
def childKilled : Sched := Runs.final step userinit
  [.load, .acquire, .iterate, .fork2 2, .forkDone, .timer true, .iterate, .iterate, .timer true,
    .iterate, .timer false, .iterate, .iterate, .kill 2, .timer true, .iterate]

/-- The turn of the killed child ends after one dispatch: `sys_sleep` set its grant to
minus two and its count to zero before it returned. -/
theorem killed_sleeper_cut_short :
    ¬ ∀ s p, Reachable s → 0 ≤ (s.proc p).activesleepticks → allowance (s.proc p) < 2 ^ 31 →
      Budgeted (Unsliced p) p s := by
  intro budgeted
  have reachable : Reachable childKilled := ⟨_, Runs.run_final (by decide +kernel)⟩
  have completed : run childKilled [.iterate, .sysSleep (-2), .timer false] = some _ :=
    Runs.run_final (by decide +kernel)
  have moved : step (Runs.final step childKilled [.iterate, .sysSleep (-2), .timer false]) .iterate
      = some _ := Runs.step_final (by decide +kernel)
  obtain ⟨_, _, next⟩ := budgeted childKilled ⟨1, by decide⟩ reachable (by decide +kernel)
    (by decide +kernel) (by decide +kernel) (by decide +kernel) _ _ completed (by decide +kernel)
    (by decide +kernel)
  rcases next .iterate _ trivial moved (by decide +kernel) with ⟨_, _, on⟩ | ⟨_, full, _⟩ | ⟨other, _⟩
  · exact absurd on (by decide +kernel)
  · exact absurd full (by decide +kernel)
  · exact absurd rfl other

end Cs537.Scheduler
