import Cs537.Scheduler.RunQueue
import Cs537.Scheduler.Steps

/-!
# The invariant of the scheduler

Every step from a state with a well formed queue leads to one, and moves the
nodes in one of three ways: it appends, it pops the head, or it rotates the head
to the tail. Together with the `switches` counters and with what a step can make
runnable, this is all that the whole-run results about the queue read of a step.

Each kind of step has its own lemma; the step lemma only selects one.
-/

namespace Cs537.Scheduler

open LinkedQueue

/-! ## Unfinished forks -/

/-- Two states agree on what `Forks` reads. -/
theorem Forks.keep {s t : Sched} (forks : Forks s)
    (forking : ∀ p, (t.proc p).forking = (s.proc p).forking)
    (embryo : ∀ p, (s.proc p).state = .embryo → (t.proc p).state = .embryo) : Forks t where
  embryo p np slice unfinished := embryo np (forks.embryo p np slice (forking p ▸ unfinished))
  creator p q np left right first second :=
    forks.creator p q np left right (forking p ▸ first) (forking q ▸ second)

/-- Neither kind of pass touches unfinished forks. -/
theorem Forks.wakes {change : Proc → Proc → Prop} {s t : Sched} (forks : Forks s)
    (unforked : ∀ x y, change x y → y.forking = x.forking) (pass : Sched.Wakes change s t) :
    Forks t := by
  apply forks.keep (fun p => unforked _ _ (pass.proc p))
  intro p state
  rcases pass.rises p with same | ⟨asleep, _⟩
  · exact same.trans state
  · rw [state] at asleep
    cases asleep

/-- Assignments to one process that keep its fork and an embryo state. -/
theorem Forks.set {s : Sched} (forks : Forks s) {p : Slot} {change : Proc → Proc}
    (unforked : (change (s.proc p)).forking = (s.proc p).forking)
    (embryo : (s.proc p).state = .embryo → (change (s.proc p)).state = .embryo) :
    Forks (s.set p change) := by
  apply forks.keep
  · intro q
    rw [Sched.set_proc]
    split
    · rename_i same
      exact same ▸ unforked
    · rfl
  · intro q state
    rw [Sched.set_proc]
    split
    · rename_i same
      exact embryo (same ▸ state)
    · exact state

/-- Putting a process that is not an embryo to sleep. -/
theorem Forks.sleep {s : Sched} (forks : Forks s) {p : Slot} (on : (s.proc p).state = .running)
    (chan : Chan) : Forks (s.sleep p chan) := by
  have asleep : Forks (s.set p fun x => { x with chan := some chan, state := .sleeping }) :=
    forks.set rfl (by simp [on])
  exact asleep.keep (fun q => by simp [Sched.sleep]) (fun q state => by simpa [Sched.sleep] using state)

/-- Taking a slot gives the caller an embryo that no other fork owns. -/
theorem fork2_forks {s : Sched} (forks : Forks s) {p : Slot} (on : (s.proc p).state = .running)
    (slice : Int) : Forks (s.fork2 p slice) := by
  rcases Sched.fork2_cases s p slice with result | ⟨np, t, taken, _, result⟩
  · rw [result]
    exact forks
  · obtain ⟨unused, embryo, unforked, _, _, others, _⟩ := Sched.allocproc_cases taken
    have different : p ≠ np := by
      intro same
      rw [same, unused] at on
      cases on
    have owner : ∀ q child left, ((s.fork2 p slice).proc q).forking = some (child, left) →
        (q = p ∧ child = np) ∨ (q ≠ p ∧ child ≠ np ∧ (s.proc q).forking = some (child, left)) := by
      intro q child left unfinished
      rw [result, Sched.set_proc] at unfinished
      split at unfinished
      · rename_i same
        exact .inl ⟨same, (Prod.mk.inj (Option.some.inj unfinished)).1.symm⟩
      · rename_i other
        have old : q ≠ np := by
          intro same
          rw [same, unforked] at unfinished
          cases unfinished
        rw [others q old] at unfinished
        refine .inr ⟨other, ?_, unfinished⟩
        intro same
        have state := forks.embryo q child left unfinished
        rw [same, unused] at state
        cases state
    have states : ∀ q, q ≠ np → ((s.fork2 p slice).proc q).state = (s.proc q).state := by
      intro q old
      rw [result, Sched.set_proc]
      split
      · rename_i same
        rw [same, others p different]
      · rw [others q old]
    constructor
    · intro q child left unfinished
      rcases owner q child left unfinished with ⟨_, rfl⟩ | ⟨_, old, earlier⟩
      · rw [result, Sched.set_proc, if_neg different.symm]
        exact embryo
      · rw [states child old]
        exact forks.embryo q child left earlier
    · intro q r child left right first second
      rcases owner q child left first with ⟨rfl, rfl⟩ | ⟨_, old, earlier⟩
      · rcases owner r child right second with ⟨rfl, _⟩ | ⟨_, old, _⟩
        · rfl
        · exact absurd rfl old
      · rcases owner r child right second with ⟨_, same⟩ | ⟨_, _, later⟩
        · exact absurd same old
        · exact forks.creator q r child left right earlier later

/-- Finishing or abandoning a fork drops the caller's embryo, which no other fork
owns, and leaves the other embryos alone. -/
theorem finish_forks {s t : Sched} (forks : Forks s) {p np : Slot} {slice : Int}
    (forking : (s.proc p).forking = some (np, slice))
    (dropped : ∀ q, (t.proc q).forking = if q = p then none else (s.proc q).forking)
    (states : ∀ q, q ≠ np → (t.proc q).state = (s.proc q).state) : Forks t := by
  have earlier : ∀ q child left, (t.proc q).forking = some (child, left) →
      q ≠ p ∧ (s.proc q).forking = some (child, left) := by
    intro q child left unfinished
    rw [dropped q] at unfinished
    split at unfinished
    · cases unfinished
    · rename_i other
      exact ⟨other, unfinished⟩
  constructor
  · intro q child left unfinished
    obtain ⟨other, old⟩ := earlier q child left unfinished
    have kept : child ≠ np := by
      intro same
      exact other (forks.creator q p child left slice old (same ▸ forking))
    rw [states child kept]
    exact forks.embryo q child left old
  · intro q r child left right first second
    exact forks.creator q r child left right (earlier q child left first).2
      (earlier r child right second).2

/-- The running process is in state running. -/
theorem Queued.on_running {s : Sched} {nodes : List Slot} (queued : Queued s nodes) {p : Slot}
    (on : s.cpu = .running p) : (s.proc p).state = .running := (queued.running p).mpr on

/-- A timer interrupt does not touch unfinished forks. -/
theorem Forks.tick {s : Sched} (forks : Forks s) : Forks s.tick := by
  have counted : Forks { s with ticks := (s.ticks + 1) % 2 ^ 32 } :=
    forks.keep (fun _ => rfl) (fun _ state => state)
  exact counted.wakes (fun _ _ => Sched.woken_forking) s.tick_wakes

/-- One iteration of the inner loop, by the state of the head. -/
theorem iterate_cases {s : Sched} {nodes : List Slot} (queued : Queued s nodes) :
    (nodes = [] ∧ s.iterate = { s with cpu := .idle }) ∨
      ∃ p rest, nodes = p :: rest ∧
        (((s.proc p).state ≠ .runnable ∧ s.iterate = s.pop) ∨
          ((s.proc p).state = .runnable ∧ Sched.hasBudget (s.proc p) = true ∧
            s.iterate = s.dispatch p) ∨
          ((s.proc p).state = .runnable ∧ Sched.hasBudget (s.proc p) = false ∧
            s.iterate = s.rotate p)) := by
  have head := queued.represents.head_eq
  cases nodes with
  | nil => exact .inl ⟨rfl, by simp [Sched.iterate, head]⟩
  | cons p rest =>
    refine .inr ⟨p, rest, rfl, ?_⟩
    simp only [Sched.iterate, head, List.head?_cons]
    by_cases ready : (s.proc p).state = .runnable
    · cases budget : Sched.hasBudget (s.proc p) <;> simp [ready]
    · simp [ready]

/-- An iteration of the scheduler does not touch unfinished forks. -/
theorem iterate_forks {s : Sched} {nodes : List Slot} (queued : Queued s nodes) (forks : Forks s) :
    Forks s.iterate := by
  rcases iterate_cases queued with ⟨_, result⟩ |
    ⟨p, rest, _, ⟨_, result⟩ | ⟨ready, _, result⟩ | ⟨ready, _, result⟩⟩
  · rw [result]
    exact forks.keep (fun _ => rfl) (fun _ state => state)
  · rw [result]
    exact forks.keep (fun q => by simp) (fun q state => by simpa using state)
  · rw [result]
    apply forks.keep
    · intro q
      simp only [Sched.dispatch, Sched.set_proc]
      split <;> simp_all
    · intro q state
      simp only [Sched.dispatch, Sched.set_proc]
      split <;> simp_all
  · rw [result]
    apply forks.keep
    · intro q
      rw [Sched.rotate_proc ready]
      split <;> simp_all
    · intro q state
      rw [Sched.rotate_proc ready]
      split <;> simp_all

/-- Unfinished forks keep their embryos in every step. -/
theorem step_forks {s t : Sched} {nodes : List Slot} {action : Action} (queued : Queued s nodes)
    (forks : Forks s) (moved : Step s action t) : Forks t := by
  cases moved with
  | load idle => exact forks.keep (fun _ => rfl) (fun _ state => state)
  | skip loaded => exact forks.keep (fun _ => rfl) (fun _ state => state)
  | enter p loaded => exact forks.keep (fun _ => rfl) (fun _ state => state)
  | iterate held => exact iterate_forks queued forks
  | tick user free => exact forks.tick
  | yield user p on =>
    have running : (s.proc p).state = .running := queued.on_running on
    have state : (s.tick.proc p).state = .running := by
      rw [s.tick_wakes.stays (by simp [running])]
      exact running
    have yielded : Forks (s.tick.set p fun x => { x with state := .runnable }) :=
      forks.tick.set rfl (by simp [state])
    exact yielded.keep (fun _ => rfl) (fun _ embryo => embryo)
  | wakeup chan free notTicks =>
    exact forks.wakes (fun _ _ => Sched.woken_forking) (Sched.wakeup1_wakes _ _)
  | sleep address p on => exact forks.sleep (queued.on_running on) _
  | sysSleep n p on =>
    obtain ⟨marked, shape, ⟨_, result⟩ | ⟨_, result⟩⟩ := Sched.sysSleep_cases s p n
    · rw [result, shape]
      exact forks.set rfl id
    · rw [result, shape]
      exact (forks.set rfl id).sleep (by simpa using queued.on_running on) _
  | kill pid =>
    rcases Sched.kill_cases s (int32 pid) with result | ⟨p, _, result⟩
    · rw [result]
      exact forks
    · rw [result]
      exact forks.set rfl (by intro state; simp [state])
  | exit p on ready notInit =>
    obtain ⟨u, pass, result⟩ := Sched.exit_cases s p notInit
    have before : Forks u := forks.wakes (fun _ _ => Sched.passed_forking) pass
    have running : (s.proc p).state = .running := queued.on_running on
    have state : (u.proc p).state = .running := by
      rw [pass.stays (by simp [running])]
      exact running
    have exited : Forks (u.set p fun x => { x with state := .zombie }) :=
      before.set rfl (by simp [state])
    rw [result]
    exact exited.keep (fun _ => rfl) (fun _ embryo => embryo)
  | wait p on =>
    rcases Sched.wait_cases s p with result | ⟨_, result⟩ | ⟨child, exited, result⟩
    · rw [result]
      exact forks
    · rw [result]
      exact forks.sleep (queued.on_running on) _
    · rw [result]
      exact forks.set rfl (by simp [exited])
  | setslice pid slice =>
    rcases Sched.setslice_cases s (int32 pid) (int32 slice) with result | ⟨p, _, _, result⟩
    · rw [result]
      exact forks
    · rw [result]
      exact forks.set rfl id
  | fork2 slice p on ready => exact fork2_forks forks (queued.on_running on) (int32 slice)
  | fork slice p on ready found => exact fork2_forks forks (queued.on_running on) slice
  | forkFail p np slice on forking =>
    apply finish_forks forks forking
    · intro q
      simp only [Sched.forkFail, Sched.set_proc]
      split_ifs <;> simp_all
    · intro q different
      simp only [Sched.forkFail, Sched.set_proc]
      split_ifs <;> simp_all
  | forkDone p np slice on forking =>
    apply finish_forks forks forking
    · intro q
      simp only [Sched.forkDone, Sched.set_proc, Sched.push_proc]
      split_ifs <;> simp_all
    · intro q different
      simp only [Sched.forkDone, Sched.set_proc, Sched.push_proc]
      split_ifs <;> simp_all

/-! ## How a step moves the queue -/

/-- How one step moves the queue and the `switches` counters of queued processes.
Appended processes were asleep or embryos; a removed head is no longer runnable;
a rotated one is charged a switch. -/
inductive Shift (s t : Sched) : List Slot → List Slot → Prop where
  | append (nodes added : List Slot)
      (switches : ∀ p ∈ nodes, (t.proc p).switches = (s.proc p).switches)
      (fresh : ∀ p ∈ added, (s.proc p).state = .sleeping ∨ (s.proc p).state = .embryo) :
      Shift s t nodes (nodes ++ added)
  | pop (nodes : List Slot)
      (switches : ∀ p ∈ nodes, (t.proc p).switches = (s.proc p).switches)
      (gone : ∀ p, nodes.head? = some p → (t.proc p).state ≠ .runnable) :
      Shift s t nodes (s.popped nodes)
  | rotate (p : Slot) (rest : List Slot)
      (charged : (t.proc p).switches = (s.proc p).switches + 1)
      (switches : ∀ q ∈ rest, (t.proc q).switches = (s.proc q).switches) :
      Shift s t (p :: rest) (s.popped (p :: rest) ++ [p])

/-- A step that leaves the queue alone. -/
theorem Shift.stay {s t : Sched} {nodes : List Slot}
    (switches : ∀ p ∈ nodes, (t.proc p).switches = (s.proc p).switches) : Shift s t nodes nodes := by
  simpa using Shift.append nodes [] switches (by simp)

/-- The action is a `kill` that finds this process asleep. -/
def Killed (s : Sched) : Action → Slot → Prop
  | .kill pid, p =>
    s.findSlot (fun x => x.pid = int32 pid) = some p ∧ (s.proc p).state = .sleeping
  | _, _ => False

instance (s : Sched) (action : Action) (p : Slot) : Decidable (Killed s action p) :=
  match action with
  | .kill _ => inferInstanceAs (Decidable (_ ∧ _))
  | .load | .acquire | .iterate | .timer _ | .wakeup _ | .sleep _ | .sysSleep _ | .exit | .wait
  | .setslice _ _ | .fork2 _ | .fork | .forkFail | .forkDone => isFalse id

/-- A process that a step made runnable is queued after it, unless it was killed
in its sleep. -/
def Raises (s t : Sched) (action : Action) (after : List Slot) : Prop :=
  ∀ p, (t.proc p).state = .runnable →
    (s.proc p).state = .runnable ∨ p ∈ after ∨ Killed s action p

/-- The queue after a step, with the movement that led to it. -/
def Moves (s t : Sched) (action : Action) (nodes : List Slot) : Prop :=
  ∃ after, Queued t after ∧ Shift s t nodes after ∧ Raises s t action after

section Cases

variable {s t : Sched} {nodes : List Slot} {action : Action}

/-- A step that changes neither the queue nor a state nor a counter. -/
theorem Queued.unmoved (after : Queued t nodes) (states : ∀ p, (t.proc p).state = (s.proc p).state)
    (switches : ∀ p, (t.proc p).switches = (s.proc p).switches) : Moves s t action nodes :=
  ⟨nodes, after, .stay fun p _ => switches p, fun p ready => .inl (states p ▸ ready)⟩

/-- Assignments to one process that keep its state and counter. -/
theorem Queued.assign (queued : Queued s nodes) {p : Slot} {change : Proc → Proc}
    (state : (change (s.proc p)).state = (s.proc p).state)
    (switches : (change (s.proc p)).switches = (s.proc p).switches) :
    Moves s (s.set p change) action nodes := by
  have states : ∀ q, ((s.set p change).proc q).state = (s.proc q).state := by
    intro q
    rw [Sched.set_proc]
    split
    · rename_i same
      exact same ▸ state
    · rfl
  refine Queued.unmoved (queued.keep rfl rfl (fun q _ => states q) fun q => by rw [states q]) states ?_
  intro q
  rw [Sched.set_proc]
  split
  · rename_i same
    exact same ▸ switches
  · rfl

/-- Assignments to a process that is not queued, after which it is neither
running nor runnable. -/
theorem Queued.outside (queued : Queued s nodes) {p : Slot} {change : Proc → Proc}
    (absent : p ∉ nodes) (before : (s.proc p).state ≠ .running)
    (after : (change (s.proc p)).state ≠ .running) (down : (change (s.proc p)).state ≠ .runnable) :
    Moves s (s.set p change) action nodes := by
  have others : ∀ q ∈ nodes, (s.set p change).proc q = s.proc q := by
    intro q member
    have different : q ≠ p := fun same => absent (same ▸ member)
    rw [Sched.set_proc, if_neg different]
  refine ⟨nodes, queued.keep rfl rfl (fun q member => by rw [others q member]) ?_,
    .stay fun q member => by rw [others q member], ?_⟩
  · intro q
    rw [Sched.set_proc]
    split
    · rename_i same
      rw [same]
      exact iff_of_false after before
    · rfl
  · intro q ready
    rw [Sched.set_proc] at ready
    split at ready
    · exact absurd ready down
    · exact .inl ready

/-- A processor state without a running process and without the lock. -/
theorem Queued.park (queued : Queued s nodes) (cpu : Cpu) (free : s.LockFree)
    (before : ∀ p, s.cpu ≠ .running p) (after : ∀ p, cpu ≠ .running p) :
    Moves s { s with cpu := cpu } action nodes := by
  refine Queued.unmoved ⟨queued.represents, ?_, ?_, ?_⟩ (fun _ => rfl) (fun _ => rfl)
  · intro p member
    exact (queued.live free p member).imp_right .inl
  · intro p
    exact iff_of_false (fun state => before p ((queued.running p).mp state)) (after p)
  · intro p on
    exact absurd on (after p)

/-- Putting the running process to sleep pops exactly its node or, if the pids of
the ends collide, all nodes. -/
theorem sleep_shift (queued : Queued s nodes)
    {p : Slot} (on : s.cpu = .running p) (chan : Chan) :
    Shift s (s.sleep p chan) nodes (s.popped nodes) ∧
      Raises s (s.sleep p chan) action (s.popped nodes) := by
  have each : ∀ q, (s.sleep p chan).proc q =
      if q = p then { s.proc p with chan := some chan, state := .sleeping } else s.proc q := by
    intro q
    simp only [Sched.sleep, Sched.pop_proc, Sched.set_proc]
  refine ⟨.pop nodes ?_ ?_, ?_⟩
  · intro q _
    rw [each q]
    split <;> simp_all
  · intro q head
    have same : q = p := Option.some.inj (head.symm.trans (queued.front p on))
    rw [each q, if_pos same]
    simp
  · intro q ready
    rw [each q] at ready
    split at ready
    · cases ready
    · exact .inl ready

/-- A pass over the table appends exactly the processes that it raised. -/
theorem wakes_shift {change : Proc → Proc → Prop} (queued : Queued s nodes)
    (unswitched : ∀ x y, change x y → y.switches = x.switches)
    (pass : Sched.Wakes change s t) : Moves s t action nodes := by
  obtain ⟨added, after, addedIff⟩ := queued.wakes pass
  refine ⟨nodes ++ added, after, .append nodes added ?_ fun q new => .inl ((addedIff q).mp new).1, ?_⟩
  · intro p _
    exact unswitched _ _ (pass.proc p)
  · intro p ready
    rcases pass.rises p with same | ⟨asleep, _⟩
    · exact .inl (same ▸ ready)
    · refine .inr (.inl (List.mem_append_right _ ((addedIff p).mpr ⟨asleep, ?_⟩)))
      simp [ready]

/-- Taking a slot for a fork leaves the queue and every queued process alone. -/
theorem fork2_shift (queued : Queued s nodes) {p : Slot} (on : s.cpu = .running p) (slice : Int) :
    Moves s (s.fork2 p slice) action nodes := by
  refine ⟨nodes, ?_⟩
  have free : s.LockFree := by simp [Sched.LockFree, on]
  rcases Sched.fork2_cases s p slice with result | ⟨np, t, taken, _, result⟩
  · rw [result]
    exact ⟨queued, .stay fun _ _ => rfl, fun _ ready => .inl ready⟩
  · obtain ⟨unused, embryo, _, _, _, others, queue, cpu, _⟩ := Sched.allocproc_cases taken
    have fresh : ∀ q ∈ nodes, q ≠ np := by
      intro q member same
      rcases queued.live free q member with state | state <;> simp [same, unused] at state
    have old : ∀ q, q ≠ np → ((s.fork2 p slice).proc q).state = (s.proc q).state ∧
        ((s.fork2 p slice).proc q).switches = (s.proc q).switches := by
      intro q different
      rw [result, Sched.set_proc]
      split
      · rename_i same
        subst same
        rw [others q different]
        exact ⟨rfl, rfl⟩
      · rw [others q different]
        exact ⟨rfl, rfl⟩
    have new : ((s.fork2 p slice).proc np).state = .embryo := by
      rw [result, Sched.set_proc]
      split
      · rename_i same
        rw [← same]
        exact embryo
      · exact embryo
    refine ⟨queued.keep ?_ ?_ ?_ ?_, .stay ?_, ?_⟩
    · rw [result]
      exact queue
    · rw [result]
      exact cpu
    · intro q member
      exact (old q (fresh q member)).1
    · intro q
      by_cases same : q = np
      · rw [same, new, unused]
        simp
      · rw [(old q same).1]
    · intro q member
      exact (old q (fresh q member)).2
    · intro q ready
      by_cases same : q = np
      · rw [same, new] at ready
        cases ready
      · exact .inl ((old q same).1 ▸ ready)

/-- An iteration of the scheduler leaves, pops, keeps or rotates the queue. -/
theorem iterate_shift (queued : Queued s nodes) (held : s.cpu = .loop) :
    Moves s s.iterate action nodes := by
  rcases iterate_cases queued with ⟨rfl, result⟩ |
    ⟨p, rest, shape, ⟨dead, result⟩ | ⟨ready, _, result⟩ | ⟨ready, _, result⟩⟩
  · rw [result]
    refine Queued.unmoved ⟨queued.represents, by simp, ?_, ?_⟩ (fun _ => rfl) (fun _ => rfl)
    · intro p
      simpa [held] using queued.running p
    · intro p impossible
      cases impossible
  · rw [result]
    refine ⟨_, queued.reap held, .pop nodes (by simp) ?_, ?_⟩
    · intro q head
      have same : p = q := by simpa [shape] using head
      simpa [same] using dead
    · intro q ready
      exact .inl (by simpa using ready)
  · rw [result]
    refine ⟨nodes, queued.dispatch held shape, .stay ?_, ?_⟩
    · intro q _
      simp only [Sched.dispatch, Sched.set_proc]
      split <;> simp_all
    · intro q up
      simp only [Sched.dispatch, Sched.set_proc] at up
      split at up
      · cases up
      · exact .inl up
  · rw [result]
    refine ⟨_, queued.rotate held shape ready, ?_, ?_⟩
    · subst shape
      have absent : p ∉ rest := (List.nodup_cons.mp queued.represents.distinct).1
      refine .rotate p rest ?_ ?_
      · rw [Sched.rotate_proc ready, if_pos rfl]
      · intro q member
        have other : q ≠ p := fun same => absent (same ▸ member)
        rw [Sched.rotate_proc ready, if_neg other]
    · intro q up
      rw [Sched.rotate_proc ready] at up
      split at up
      · rename_i same
        exact .inl (same ▸ ready)
      · exact .inl up

/-- The queue after the counted tick, before anybody is woken. -/
theorem Queued.counted (queued : Queued s nodes) :
    Queued { s with ticks := (s.ticks + 1) % 2 ^ 32 } nodes :=
  queued.keep rfl rfl (fun _ _ => rfl) (fun _ => .rfl)

/-- A timer interrupt without a yield appends the sleepers that are due. -/
theorem tick_shift (queued : Queued s nodes) : Moves s s.tick action nodes := by
  obtain ⟨added, after, addedIff⟩ := queued.counted.wakes s.tick_wakes
  refine ⟨nodes ++ added, after, .append nodes added ?_ fun q new => .inl ((addedIff q).mp new).1, ?_⟩
  · intro p _
    exact Sched.woken_switches (s.tick_wakes.proc p)
  · intro p ready
    rcases s.tick_wakes.rises p with kept | ⟨asleep, _⟩
    · rw [kept] at ready
      exact .inl ready
    · refine .inr (.inl (List.mem_append_right _ ((addedIff p).mpr ⟨asleep, ?_⟩)))
      simp [ready]

/-- A timer interrupt with a yield also leaves the running head runnable. -/
theorem yield_shift (queued : Queued s nodes) {p : Slot} (on : s.cpu = .running p) :
    Moves s (s.tick.yield p) action nodes := by
  obtain ⟨added, after, addedIff⟩ := queued.counted.wakes s.tick_wakes
  have still : s.tick.cpu = .running p := s.tick_wakes.cpu.trans on
  have each : ∀ q, (s.tick.yield p).proc q =
      if q = p then { s.tick.proc p with state := .runnable } else s.tick.proc q := by
    intro q
    simp only [Sched.yield, Sched.set_proc]
  refine ⟨nodes ++ added, after.yield still, .append nodes added ?_ fun q new => .inl ((addedIff q).mp new).1, ?_⟩
  · intro q _
    have kept : (s.tick.proc q).switches = (s.proc q).switches :=
      Sched.woken_switches (s.tick_wakes.proc q)
    rw [each q]
    split
    · rename_i same
      subst same
      exact kept
    · exact kept
  · intro q ready
    by_cases same : q = p
    · refine .inr (.inl (List.mem_append_left _ ?_))
      exact List.mem_of_mem_head? (same ▸ queued.front p on)
    · rw [each q, if_neg same] at ready
      rcases s.tick_wakes.rises q with kept | ⟨asleep, _⟩
      · rw [kept] at ready
        exact .inl ready
      · refine .inr (.inl (List.mem_append_right _ ((addedIff q).mpr ⟨asleep, ?_⟩)))
        simp [ready]

/-- `sys_sleep` assigns its fields and then sleeps, unless the caller is killed. -/
theorem sysSleep_shift (queued : Queued s nodes) {p : Slot} (on : s.cpu = .running p) (n : Int) :
    Moves s (s.sysSleep p n) action nodes := by
  obtain ⟨marked, shape, ⟨_, result⟩ | ⟨_, result⟩⟩ := Sched.sysSleep_cases s p n
  · rw [result, shape]
    exact queued.assign rfl rfl
  · have same : ∀ q, (marked.proc q).state = (s.proc q).state ∧
        (marked.proc q).switches = (s.proc q).switches ∧
        (marked.proc q).pid = (s.proc q).pid := by
      intro q
      rw [shape, Sched.set_proc]
      split
      · rename_i equal
        rw [equal]
        exact ⟨rfl, rfl, rfl⟩
      · exact ⟨rfl, rfl, rfl⟩
    have before : Queued marked nodes := queued.keep (by rw [shape]; rfl) (by rw [shape]; rfl)
      (fun q _ => (same q).1) (fun q => by rw [(same q).1])
    have still : marked.cpu = .running p := by
      rw [shape]
      exact on
    have pops : marked.popped nodes = s.popped nodes :=
      Sched.popped_congr (fun q => (same q).2.2) nodes
    have each : ∀ q, (marked.sleep p .ticks).proc q =
        if q = p then { marked.proc p with chan := some .ticks, state := .sleeping }
        else marked.proc q := by
      intro q
      simp only [Sched.sleep, Sched.pop_proc, Sched.set_proc]
    rw [result]
    refine ⟨s.popped nodes, pops ▸ before.sleep still _, .pop nodes ?_ ?_, ?_⟩
    · intro q _
      rw [← (same q).2.1, each q]
      split
      · rename_i equal
        rw [equal]
      · rfl
    · intro q head
      have equal : q = p := Option.some.inj (head.symm.trans (queued.front p on))
      rw [each q, if_pos equal]
      simp
    · intro q ready
      rw [each q] at ready
      split at ready
      · cases ready
      · exact .inl ((same q).1 ▸ ready)

/-- `kill` leaves the queue alone; a process killed in its sleep becomes runnable
without being queued. -/
theorem kill_shift (queued : Queued s nodes) (pid : Int) :
    Moves s (s.kill (int32 pid)) (.kill pid) nodes := by
  rcases Sched.kill_cases s (int32 pid) with result | ⟨p, found, result⟩
  · rw [result]
    exact queued.unmoved (fun _ => rfl) (fun _ => rfl)
  · rw [result]
    by_cases asleep : (s.proc p).state = .sleeping
    · have absent : p ∉ nodes := fun member => queued.awake p member asleep
      have others : ∀ q ∈ nodes, q ≠ p := fun q member same => absent (same ▸ member)
      refine ⟨nodes, queued.keep rfl rfl ?_ ?_, .stay ?_, ?_⟩
      · intro q member
        rw [Sched.set_proc, if_neg (others q member)]
      · intro q
        rw [Sched.set_proc]
        split
        · rename_i same
          simp [same, asleep]
        · rfl
      · intro q member
        rw [Sched.set_proc, if_neg (others q member)]
      · intro q ready
        rw [Sched.set_proc] at ready
        split at ready
        · rename_i same
          exact .inr (.inr ⟨same ▸ found, same ▸ asleep⟩)
        · exact .inl ready
    · exact queued.assign (by simp [asleep]) rfl

/-- `exit` wakes its channels and leaves the caller a zombie at the head. -/
theorem exit_shift (queued : Queued s nodes) {p : Slot} (on : s.cpu = .running p)
    (notInit : s.initproc ≠ some p) : Moves s (s.exit p) action nodes := by
  obtain ⟨u, pass, result⟩ := Sched.exit_cases s p notInit
  obtain ⟨added, after, addedIff⟩ := queued.wakes pass
  have still : u.cpu = .running p := pass.cpu.trans on
  rw [result]
  refine ⟨nodes ++ added, after.zombie still, .append nodes added ?_ fun q new => .inl ((addedIff q).mp new).1, ?_⟩
  · intro q _
    have kept := Sched.passed_switches (pass.proc q)
    simp only [Sched.set_proc]
    split
    · rename_i same
      subst same
      exact kept
    · exact kept
  · intro q up
    simp only [Sched.set_proc] at up
    split at up
    · cases up
    · rcases pass.rises q with kept | ⟨asleep, _⟩
      · exact .inl (kept ▸ up)
      · refine .inr (.inl (List.mem_append_right _ ((addedIff q).mpr ⟨asleep, ?_⟩)))
        simp [up]

/-- `wait` returns, frees a zombie, or sleeps. -/
theorem wait_shift (queued : Queued s nodes) {p : Slot} (on : s.cpu = .running p) :
    Moves s (s.wait p) action nodes := by
  rcases Sched.wait_cases s p with result | ⟨_, result⟩ | ⟨child, exited, result⟩
  · rw [result]
    exact queued.unmoved (fun _ => rfl) (fun _ => rfl)
  · rw [result]
    exact ⟨_, queued.sleep on _, sleep_shift queued on _⟩
  · have free : s.LockFree := by simp [Sched.LockFree, on]
    have absent : child ∉ nodes := by
      intro member
      rcases queued.live free child member with state | state <;> simp [exited] at state
    rw [result]
    exact queued.outside absent (by simp [exited]) (by simp) (by simp)

/-- Abandoning a fork frees the embryo, which is not queued. -/
theorem forkFail_shift (queued : Queued s nodes) {p np : Slot} (on : s.cpu = .running p)
    (embryo : (s.proc np).state = .embryo) : Moves s (s.forkFail p np) action nodes := by
  have free : s.LockFree := by simp [Sched.LockFree, on]
  have absent : np ∉ nodes := by
    intro member
    rcases queued.live free np member with state | state <;> simp [embryo] at state
  have states : ∀ q, ((s.forkFail p np).proc q).state =
      if q = np then .unused else (s.proc q).state := by
    intro q
    simp only [Sched.forkFail, Sched.set_proc]
    split_ifs <;> simp_all
  refine ⟨nodes, queued.keep rfl rfl ?_ ?_, .stay ?_, ?_⟩
  · intro q member
    have other : q ≠ np := fun same => absent (same ▸ member)
    rw [states q, if_neg other]
  · intro q
    rw [states q]
    split <;> simp_all
  · intro q _
    simp only [Sched.forkFail, Sched.set_proc]
    split_ifs <;> simp_all
  · intro q up
    rw [states q] at up
    split at up
    · cases up
    · exact .inl up

/-- Finishing a fork appends the child. -/
theorem forkDone_shift (queued : Queued s nodes) {p np : Slot} (on : s.cpu = .running p)
    (embryo : (s.proc np).state = .embryo) (slice : Int) :
    Moves s (s.forkDone p np slice) action nodes := by
  refine ⟨nodes ++ [np], queued.forkDone on embryo slice, .append nodes [np] ?_ ?_, ?_⟩
  · intro q _
    simp only [Sched.forkDone, Sched.set_proc, Sched.push_proc]
    split_ifs <;> simp_all
  · intro q new
    exact .inr (List.mem_singleton.mp new ▸ embryo)
  · intro q up
    by_cases same : q = np
    · exact .inr (.inl (by simp [same]))
    · refine .inl ?_
      simp only [Sched.forkDone, Sched.set_proc, Sched.push_proc] at up
      split_ifs at up <;> simp_all

/-- Every step leaves a queue, and moves its nodes in one of the three ways. -/
theorem step_queued (queued : Queued s nodes) (forks : Forks s) (moved : Step s action t) :
    Moves s t action nodes := by
  cases moved with
  | load idle =>
    exact queued.park _ (by simp [Sched.LockFree, idle]) (by simp [idle]) (by simp)
  | skip loaded =>
    exact queued.park _ (by simp [Sched.LockFree, loaded]) (by simp [loaded]) (by simp)
  | enter p loaded =>
    exact queued.park _ (by simp [Sched.LockFree, loaded]) (by simp [loaded]) (by simp)
  | iterate held => exact iterate_shift queued held
  | tick user free => exact tick_shift queued
  | yield user p on => exact yield_shift queued on
  | wakeup chan free notTicks =>
    exact wakes_shift queued (fun _ _ => Sched.woken_switches) (Sched.wakeup1_wakes _ _)
  | sleep address p on => exact ⟨_, queued.sleep on _, sleep_shift queued on _⟩
  | sysSleep n p on => exact sysSleep_shift queued on n
  | kill pid => exact kill_shift queued pid
  | exit p on ready notInit => exact exit_shift queued on notInit
  | wait p on => exact wait_shift queued on
  | setslice pid slice =>
    rcases Sched.setslice_cases s (int32 pid) (int32 slice) with result | ⟨p, _, _, result⟩
    · rw [result]
      exact queued.unmoved (fun _ => rfl) (fun _ => rfl)
    · rw [result]
      exact queued.assign rfl rfl
  | fork2 slice p on ready => exact fork2_shift queued on (int32 slice)
  | fork slice p on ready found => exact fork2_shift queued on slice
  | forkFail p np slice on forking =>
    exact forkFail_shift queued on (forks.embryo p np slice forking)
  | forkDone p np slice on forking =>
    exact forkDone_shift queued on (forks.embryo p np slice forking) slice

end Cases

/-- The invariant of the scheduler survives every step. -/
theorem step_sound {s t : Sched} {action : Action} (sound : Sound s)
    (moved : step s action = some t) : Sound t := by
  obtain ⟨⟨nodes, queued⟩, forks⟩ := sound
  have taken := step_cases moved
  obtain ⟨after, done, _, _⟩ := step_queued queued forks taken
  exact ⟨⟨after, done⟩, step_forks queued forks taken⟩

/-- The kernel starts with the first process as its only queued one. -/
theorem userinit_queued : Queued userinit [firstSlot] := by
  refine ⟨⟨⟨rfl, rfl⟩, rfl, List.nodup_singleton firstSlot⟩, ?_, ?_, ?_⟩
  · decide
  · decide
  · intro p on
    cases on

theorem userinit_sound : Sound userinit := by
  refine ⟨⟨[firstSlot], userinit_queued⟩, ?_, ?_⟩
  · have none : ∀ p, (userinit.proc p).forking = none := by decide
    intro p np slice unfinished
    rw [none p] at unfinished
    cases unfinished
  · have none : ∀ p, (userinit.proc p).forking = none := by decide
    intro p q np left right first
    rw [none p] at first
    cases first

/-- The invariant holds in every reachable state. -/
theorem reachable_sound {s : Sched} (reachable : Reachable s) : Sound s := by
  obtain ⟨actions, completed⟩ := reachable
  have kept : ∀ s action t, True → Sound s → step s action = some t → Sound t :=
    fun _ _ _ _ sound moved => step_sound sound moved
  exact Runs.run_invariant kept userinit_sound (Runs.Meets.unguarded _ _) completed

end Cs537.Scheduler
