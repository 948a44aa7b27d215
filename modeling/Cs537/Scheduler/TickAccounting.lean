import Cs537.Scheduler.Changes

/-!
# Accounting of timer ticks

`schedticks` is meant to count the timer ticks for which a process was
scheduled, but the scheduler charges at dispatch. A process that gives up the
processor within a tick is charged for the whole tick, and so is the process
dispatched in its place. The charges of an interval stay within its ticks, up to
one, as long as nobody takes over within a tick that is already charged.

Whether the current tick is already charged is a fact about the past of the run
and is recorded beside the state.
-/

namespace Cs537.Scheduler

open LinkedQueue

/-- The charges that a step makes, over all processes. -/
def charges (s : Sched) (_ : Action) (t : Sched) : Nat :=
  ∑ p, ((t.proc p).schedticks - (s.proc p).schedticks)

/-- The timer ticks that a step counts. -/
def timers : Sched → Action → Sched → Nat
  | _, .timer _, _ => 1
  | _, _, _ => 0

/-- A process has been dispatched since the last timer interrupt. -/
def noteDispatch (spent : Bool) (_ : Sched) (action : Action) (t : Sched) : Bool :=
  match action, t.cpu with
  | .timer _, _ => false
  | .iterate, .running _ => true
  | _, _ => spent

/-- The kernel together with the record whether the current tick is charged. -/
abbrev chargedStep := Runs.observe step noteDispatch

/-- The running process is the only one in the queue. -/
def Alone (s : Sched) : Prop := ∀ p, s.cpu = .running p → s.runQueue = [p]

/-- Nobody takes over within this step: the caller does not block, or it is alone
in the queue; an exit wakes nobody; a wakeup finds nobody asleep, or a process
running. -/
def Undivided (s : Sched) : Action → Prop
  | .sleep _ => Alone s
  | .sysSleep _ => (∃ p, s.cpu = .running p ∧ (s.proc p).killed = true) ∨ Alone s
  | .wait => (∃ p, s.cpu = .running p ∧ ¬ s.waitBlocks p) ∨ Alone s
  | .exit => Alone s ∧ ∀ p q, s.cpu = .running p → (s.proc q).state = .sleeping →
      ¬ s.exitChannels p (s.proc q).chan
  | .wakeup chan => (∃ p, s.cpu = .running p) ∨
      ∀ q, (s.proc q).state = .sleeping → (s.proc q).chan ≠ some chan
  | _ => True

/-- While the current tick is charged, nobody takes over. -/
def Charging (s : Sched × Bool) (action : Action) : Prop := s.2 = true → Undivided s.1 action

/-- The next iteration of the scheduler cannot dispatch: a process is running, or
the queue holds no runnable process. -/
def Settled (s : Sched) : Prop :=
  (∃ p, s.cpu = .running p) ∨ ∀ p ∈ s.runQueue, (s.proc p).state ≠ .runnable

/-! ## Who can take over -/

section Settled

variable {s t : Sched} {nodes : List Slot}

/-- A caller that is alone leaves an empty queue when it goes to sleep. -/
theorem sleep_settled (queued : Queued s nodes) {p : Slot} (on : s.cpu = .running p)
    (alone : Alone s) (chan : Chan) : Settled (s.sleep p chan) := by
  have shape : nodes = [p] := queued.runQueue_eq.symm.trans (alone p on)
  have empty : s.popped [p] = [] := if_pos rfl
  refine .inr ?_
  rw [(queued.sleep on chan).runQueue_eq, shape, empty]
  simp

/-- `sys_sleep` returns to a killed caller; otherwise the caller has to be alone. -/
theorem sysSleep_settled (queued : Queued s nodes) {p : Slot} (on : s.cpu = .running p) (n : Int)
    (undivided : Undivided s (.sysSleep n)) : Settled (s.sysSleep p n) := by
  obtain ⟨marked, shape, ⟨_, result⟩ | ⟨alive, result⟩⟩ := Sched.sysSleep_cases s p n
  · rw [result, shape]
    exact .inl ⟨p, on⟩
  · rcases undivided with ⟨q, running, dead⟩ | alone
    · rw [on] at running
      obtain rfl : p = q := Cpu.running.inj running
      rw [alive] at dead
      cases dead
    · have states : ∀ q, (marked.proc q).state = (s.proc q).state := by
        intro q
        rw [shape, Sched.set_proc]
        split
        · rename_i equal
          rw [equal]
        · rfl
      have before : Queued marked nodes := queued.keep (by rw [shape]; rfl) (by rw [shape]; rfl)
        (fun q _ => states q) (fun q => by rw [states q])
      have still : marked.cpu = .running p := by
        rw [shape]
        exact on
      rw [result]
      apply sleep_settled before still
      intro q running
      rw [before.runQueue_eq, ← queued.runQueue_eq]
      exact alone q (on.trans (still.symm.trans running))

/-- A pass that wakes nobody leaves the queue. -/
theorem wakes_none {change : Proc → Proc → Prop} (queued : Queued s nodes)
    (pass : Sched.Wakes change s t)
    (nobody : ∀ p, (s.proc p).state = .sleeping → (t.proc p).state = .sleeping) :
    Queued t nodes := by
  obtain ⟨added, after, addedIff⟩ := queued.wakes pass
  have empty : added = [] := by
    rw [List.eq_nil_iff_forall_not_mem]
    intro p member
    obtain ⟨asleep, up⟩ := (addedIff p).mp member
    exact up (nobody p asleep)
  simpa [empty] using after

/-- A wakeup of a channel without sleepers leaves the queue without a runnable
process. -/
theorem wakeup_settled (queued : Queued s nodes) (settled : Settled s) (chan : Chan)
    (undivided : Undivided s (.wakeup chan)) : Settled (s.wakeup1 (some chan)) := by
  have pass := Sched.wakeup1_wakes (some chan) s
  rcases settled with ⟨p, on⟩ | quiet
  · exact .inl ⟨p, pass.cpu.trans on⟩
  · rcases undivided with ⟨p, on⟩ | nobody
    · exact .inl ⟨p, pass.cpu.trans on⟩
    · have same : ∀ p, (s.wakeup1 (some chan)).proc p = s.proc p := by
        intro p
        rw [pass.proc p, Sched.woken, if_neg]
        rintro ⟨asleep, listening⟩
        exact nobody p asleep listening
      have after := wakes_none queued pass fun p asleep => by rw [same p, asleep]
      refine .inr ?_
      rw [after.runQueue_eq, ← queued.runQueue_eq]
      intro p member
      rw [same p]
      exact quiet p member

/-- A process that exits alone and wakes nobody leaves itself, a zombie, in the
queue. -/
theorem exit_settled (queued : Queued s nodes) {p : Slot} (on : s.cpu = .running p)
    (notInit : s.initproc ≠ some p) (undivided : Undivided s .exit) : Settled (s.exit p) := by
  obtain ⟨alone, nobody⟩ := undivided
  have shape : nodes = [p] := queued.runQueue_eq.symm.trans (alone p on)
  obtain ⟨u, pass, result⟩ := Sched.exit_cases s p notInit
  have before : Queued u nodes := by
    apply wakes_none queued pass
    intro q asleep
    obtain ⟨parent, _, changed | ⟨_, listening, _⟩⟩ := pass.proc q
    · rw [changed]
      exact asleep
    · exact absurd listening (nobody p q on asleep)
  have after := before.zombie (pass.cpu.trans on)
  rw [result]
  refine .inr ?_
  rw [after.runQueue_eq, shape]
  intro q member
  rw [List.mem_singleton.mp member]
  simp

/-- An iteration of the scheduler on a queue without a runnable process does not
bring one about. -/
theorem iterate_settled (queued : Queued s nodes) (held : s.cpu = .loop) (settled : Settled s) :
    Settled s.iterate := by
  have quiet : ∀ p ∈ nodes, (s.proc p).state ≠ .runnable := by
    rcases settled with ⟨p, on⟩ | quiet
    · rw [held] at on
      cases on
    · exact queued.runQueue_eq ▸ quiet
  rcases iterate_cases queued with ⟨empty, result⟩ |
    ⟨p, rest, shape, ⟨_, result⟩ | ⟨ready, _, _⟩ | ⟨ready, _, _⟩⟩
  · rw [result]
    refine .inr fun p member => quiet p ?_
    exact queued.runQueue_eq ▸ member
  · rw [result]
    refine .inr ?_
    rw [(queued.reap held).runQueue_eq]
    intro q member
    rw [Sched.pop_proc]
    exact quiet q (List.mem_of_mem_tail (Sched.popped_subset s nodes q member))
  · exact absurd ready (quiet p (shape ▸ List.mem_cons_self))
  · exact absurd ready (quiet p (shape ▸ List.mem_cons_self))

/-- While nobody takes over, the scheduler cannot dispatch before the next timer
interrupt. -/
theorem step_settled {action : Action} (queued : Queued s nodes) (settled : Settled s)
    (undivided : Undivided s action) (moved : Step s action t)
    (noTick : ∀ user, action ≠ .timer user) : Settled t := by
  have parked : (∀ p, s.cpu ≠ .running p) → ∀ p ∈ s.runQueue, (s.proc p).state ≠ .runnable := by
    intro nobody
    rcases settled with ⟨p, on⟩ | quiet
    · exact absurd on (nobody p)
    · exact quiet
  cases moved with
  | load idle => exact .inr (parked (by simp [idle]))
  | skip loaded => exact .inr (parked (by simp [loaded]))
  | enter p loaded => exact .inr (parked (by simp [loaded]))
  | iterate held => exact iterate_settled queued held settled
  | tick user => exact absurd rfl (noTick user)
  | yield user => exact absurd rfl (noTick user)
  | wakeup chan => exact wakeup_settled queued settled chan undivided
  | sleep address p on => exact sleep_settled queued on undivided _
  | sysSleep n p on => exact sysSleep_settled queued on n undivided
  | kill pid p on =>
    rcases Sched.kill_cases s (int32 pid) with result | ⟨_, _, result⟩
    · exact .inl ⟨p, by rw [result, on]⟩
    · exact .inl ⟨p, by rw [result, Sched.set_cpu, on]⟩
  | exit p on ready notInit => exact exit_settled queued on notInit undivided
  | wait p on =>
    rcases Sched.wait_cases s p with result | ⟨blocks, result⟩ | ⟨child, _, result⟩
    · exact .inl ⟨p, by rw [result, on]⟩
    · rw [result]
      rcases undivided with ⟨q, running, returns⟩ | alone
      · obtain rfl : p = q := Cpu.running.inj (on.symm.trans running)
        exact absurd blocks returns
      · exact sleep_settled queued on alone _
    · exact .inl ⟨p, by rw [result, Sched.set_cpu, on]⟩
  | setslice pid slice p on =>
    rcases Sched.setslice_cases s (int32 pid) (int32 slice) with result | ⟨_, _, _, result⟩
    · exact .inl ⟨p, by rw [result, on]⟩
    · exact .inl ⟨p, by rw [result, Sched.set_cpu, on]⟩
  | fork2 slice p on => exact .inl ⟨p, (Sched.fork2_cpu s p _).trans on⟩
  | fork slice p on => exact .inl ⟨p, (Sched.fork2_cpu s p _).trans on⟩
  | forkFail p np slice on => exact .inl ⟨p, on⟩
  | forkDone p np slice on => exact .inl ⟨p, on⟩

end Settled

/-! ## Who is charged -/

/-- Only a dispatch raises `schedticks`. -/
theorem change_uncharged {s : Sched} {p : Slot} {action : Action} {y : Proc}
    (changed : Change s p action y) :
    y.schedticks ≤ (s.proc p).schedticks ∨
      (action = .iterate ∧ s.queue.head = some p ∧ (s.proc p).state = .runnable ∧
        y.schedticks = (s.proc p).schedticks + 1) := by
  cases changed with
  | dispatched held head ready => exact .inr ⟨rfl, head, ready, rfl⟩
  | ticked | roused =>
    refine .inl ?_
    simp only [Sched.woken]
    split_ifs <;> simp
  | passed q on y pass =>
    refine .inl ?_
    obtain ⟨_, _, rfl | ⟨_, _, rfl⟩⟩ := pass <;> simp
  | _ => exact .inl (by simp [Sched.dozing, Sched.allocated])

/-- A step without a runnable head charges nobody, and no step charges twice. -/
theorem step_charges {s t : Sched} {nodes : List Slot} {action : Action} (queued : Queued s nodes)
    (forks : Forks s) (moved : Step s action t) :
    charges s action t = 0 ∨
      (charges s action t = 1 ∧ action = .iterate ∧
        ∃ p, s.queue.head = some p ∧ (s.proc p).state = .runnable ∧ t.cpu = .running p) := by
  have each := fun p => change_uncharged (step_change queued forks moved p)
  by_cases uncharged : ∀ p, (t.proc p).schedticks ≤ (s.proc p).schedticks
  · refine .inl (Finset.sum_eq_zero fun p _ => ?_)
    exact Nat.sub_eq_zero_of_le (uncharged p)
  · obtain ⟨p, more⟩ := not_forall.mp uncharged
    rcases each p with fewer | ⟨same, head, ready, raised⟩
    · exact absurd fewer more
    · refine .inr ⟨?_, same, p, head, ready, ?_⟩
      · unfold charges
        rw [Finset.sum_eq_single p]
        · omega
        · intro q _ different
          rcases each q with fewer | ⟨_, other, _, _⟩
          · exact Nat.sub_eq_zero_of_le fewer
          · exact absurd (Option.some.inj (other.symm.trans head)) different
        · exact fun absent => absurd (Finset.mem_univ p) absent
      · subst same
        cases moved with
        | iterate held =>
          rw [queued.represents.head_eq] at head
          rcases iterate_cases queued with ⟨empty, _⟩ | ⟨q, rest, shape, outcome⟩
          · rw [empty] at head
            cases head
          · obtain rfl : q = p := by
              rw [shape] at head
              exact Option.some.inj head
            rcases outcome with ⟨dead, _⟩ | ⟨_, _, result⟩ | ⟨_, _, result⟩
            · exact absurd ready dead
            · rw [result]
              rfl
            · rw [result, Sched.rotate_proc ready, if_pos rfl] at raised
              exact absurd raised (Nat.ne_of_lt (Nat.lt_succ_self _))

/-- What is carried along a run with its record. -/
def Accounted (s : Sched × Bool) : Prop := Sound s.1 ∧ (s.2 = true → Settled s.1)

/-- A charged tick leaves no charge; any other leaves one. -/
def credit (s : Sched × Bool) : Nat := if s.2 then 0 else 1

/-- Iterations need the lock. -/
theorem iterate_held {s t : Sched} (moved : step s .iterate = some t) : s.cpu = .loop := by
  simp only [step, Option.ite_none_right_eq_some] at moved
  exact moved.1

/-- A step other than a timer interrupt and a dispatch keeps the record. -/
theorem noteDispatch_settled {s t : Sched} {action : Action} {spent : Bool} (sound : Sound s)
    (settled : spent = true → Settled s) (charging : spent = true → Undivided s action)
    (moved : step s action = some t) (noTick : ∀ user, action ≠ .timer user)
    (noted : noteDispatch spent s action t = true) : Settled t := by
  obtain ⟨⟨nodes, queued⟩, _⟩ := sound
  cases spent with
  | true => exact step_settled queued (settled rfl) (charging rfl) (step_cases moved) noTick
  | false =>
    unfold noteDispatch at noted
    split at noted
    · cases noted
    · rename_i p on
      exact .inl ⟨p, on⟩
    · cases noted

/-- A dispatch happens only in a tick that is not charged. -/
theorem dispatch_unspent {s t : Sched} {spent : Bool} (sound : Sound s)
    (settled : spent = true → Settled s) (moved : step s .iterate = some t) {p : Slot}
    (head : s.queue.head = some p) (ready : (s.proc p).state = .runnable) : spent = false := by
  obtain ⟨⟨nodes, queued⟩, _⟩ := sound
  cases spent with
  | false => rfl
  | true =>
    rcases settled rfl with ⟨q, running⟩ | quiet
    · rw [iterate_held moved] at running
      cases running
    · rw [queued.runQueue_eq] at quiet
      have member : p ∈ nodes :=
        List.mem_of_mem_head? (queued.represents.head_eq.symm.trans head)
      exact absurd ready (quiet p member)

/-- Without a timer interrupt the record is not erased. -/
theorem credit_noteDispatch {s t : Sched} {action : Action} (spent : Bool)
    (noTick : ∀ user, action ≠ .timer user) :
    credit (t, noteDispatch spent s action t) ≤ credit (s, spent) := by
  unfold credit noteDispatch
  split
  · exact absurd rfl (noTick _)
  · simp
  · rfl

/-- A step with its record, when nobody takes over within a charged tick: each
charge is paid by the timer tick of the step or by the tick that is not charged. -/
theorem charged_step {s t : Sched × Bool} {action : Action} (charging : Charging s action)
    (accounted : Accounted s) (moved : chargedStep s action = some t) :
    Accounted t ∧ charges s.1 action t.1 + credit t ≤ timers s.1 action t.1 + credit s := by
  obtain ⟨before, spent⟩ := s
  obtain ⟨after, stepped, rfl⟩ := Option.map_eq_some_iff.mp moved
  obtain ⟨sound, settled⟩ := accounted
  obtain ⟨⟨nodes, queued⟩, forks⟩ := id sound
  have charged := step_charges queued forks (step_cases stepped)
  by_cases tick : ∃ user, action = .timer user
  · obtain ⟨user, rfl⟩ := tick
    have none : charges before (.timer user) after = 0 := by simpa using charged
    refine ⟨⟨step_sound sound stepped, by simp [noteDispatch]⟩, ?_⟩
    simp [none, noteDispatch, credit, timers]
  · have noTick : ∀ user, action ≠ .timer user := fun user same => tick ⟨user, same⟩
    have noted := noteDispatch_settled sound settled charging stepped noTick
    refine ⟨⟨step_sound sound stepped, noted⟩, ?_⟩
    change charges before action after + credit (after, noteDispatch spent before action after) ≤
      timers before action after + credit (before, spent)
    have kept : credit (after, noteDispatch spent before action after) ≤ credit (before, spent) :=
      credit_noteDispatch spent noTick
    rcases charged with none | ⟨one, rfl, p, head, ready, on⟩
    · have zero : charges before action after = 0 := none
      omega
    · have fresh : spent = false := dispatch_unspent sound settled stepped head ready
      have spends : noteDispatch spent before .iterate after = true := by simp [noteDispatch, on]
      have charge : charges before .iterate after = 1 := one
      rw [charge, spends, fresh]
      simp [credit]

/-- In every run in which nobody takes over within a charged tick, the charges of
any interval are at most its timer ticks plus one. -/
theorem ticks_charged_once {front interval : List Action} {s t : Sched}
    (reached : run userinit front = some s) (completed : run s interval = some t)
    (charging : Runs.Meets chargedStep Charging (userinit, false) (front ++ interval)) :
    Runs.tally step charges s interval ≤ Runs.tally step timers s interval + 1 := by
  obtain ⟨spent, reachedNoted⟩ : ∃ spent,
      Runs.run chargedStep (userinit, false) front = some (s, spent) :=
    Runs.run_observe reached false
  obtain ⟨last, completedNoted⟩ : ∃ last,
      Runs.run chargedStep (s, spent) interval = some (t, last) :=
    Runs.run_observe completed spent
  obtain ⟨early, late⟩ := Runs.meets_append reachedNoted charging
  have kept : ∀ s action t, Charging s action → Accounted s → chargedStep s action = some t →
      Accounted t := fun _ _ _ charging accounted moved => (charged_step charging accounted moved).1
  have start : Accounted (userinit, false) := ⟨userinit_sound, by simp⟩
  have accounted := Runs.run_invariant kept start early reachedNoted
  have bound := Runs.tally_le kept
    (fun _ _ _ charging accounted moved => (charged_step charging accounted moved).2)
    accounted late completedNoted
  rw [Runs.tally_observe charges completed, Runs.tally_observe timers completed] at bound
  have one : credit (s, spent) ≤ 1 := by
    unfold credit
    split <;> simp
  omega

/-- Two processes that are preempted twice are charged within their ticks. -/
theorem ticks_charged_once_preempted :
    ∃ s t, run userinit [.load, .acquire, .iterate, .fork2 1, .forkDone] = some s ∧
      run s [.timer true, .iterate, .iterate, .timer true, .iterate, .iterate] = some t ∧
      Runs.tally step charges s [.timer true, .iterate, .iterate, .timer true, .iterate, .iterate] ≤
        Runs.tally step timers s
          [.timer true, .iterate, .iterate, .timer true, .iterate, .iterate] + 1 := by
  have reached : run userinit [.load, .acquire, .iterate, .fork2 1, .forkDone] = some _ :=
    Runs.run_final (by decide +kernel)
  have completed : run (Runs.final step userinit [.load, .acquire, .iterate, .fork2 1, .forkDone])
      [.timer true, .iterate, .iterate, .timer true, .iterate, .iterate] = some _ :=
    Runs.run_final (by decide +kernel)
  refine ⟨_, _, reached, completed, ticks_charged_once reached completed ?_⟩
  simp [Runs.Meets, Charging, Undivided]

/-- A child that is dispatched, sleeps, and is replaced by its parent in the same
tick: two charges and no timer tick. -/
theorem tick_charged_twice :
    ¬ ∀ (front interval : List Action) (s t : Sched), run userinit front = some s →
        run s interval = some t →
        Runs.tally step charges s interval ≤ Runs.tally step timers s interval + 1 := by
  intro claim
  have bound := claim [.load, .acquire, .iterate, .fork2 1, .forkDone, .timer true]
    [.iterate, .iterate, .sleep 0, .iterate] _ _ (Runs.run_final (by decide +kernel))
    (Runs.run_final (by decide +kernel))
  revert bound
  decide +kernel

end Cs537.Scheduler
