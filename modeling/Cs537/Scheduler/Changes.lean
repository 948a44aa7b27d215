import Cs537.Scheduler.Invariant

/-!
# What a step does to one process

The accounting results read only the record of one process before and after a
step. `Change` lists every way in which a step can change a record, with the
conditions under which it does; `step_change` says that there are no others.
-/

namespace Cs537.Scheduler

namespace Sched

/-- The record of a process that has called `sys_sleep`, before the test of
`killed`. -/
def dozing (s : Sched) (n : Int) (x : Proc) : Proc :=
  { x with
    sleepdeadline := ((int32 n + s.ticks) % 2 ^ 32).toNat
    activesleepticks := int32 n
    activeticks := 0 }

/-- The record of a process that is charged and dispatched. -/
def charged (x : Proc) : Proc :=
  { x with
    schedticks := x.schedticks + 1
    activeticks := x.activeticks + 1
    compticks := if x.timeslice < x.activeticks + 1 then x.compticks + 1 else x.compticks
    state := .running
    chan := none }

end Sched

/-- The actions that call `fork2`. -/
def Forking : Action → Prop
  | .fork | .fork2 _ => True
  | _ => False

instance (action : Action) : Decidable (Forking action) :=
  match action with
  | .fork | .fork2 _ => isTrue trivial
  | .load | .acquire | .iterate | .timer _ | .wakeup _ | .sleep _ | .sysSleep _ | .kill _ | .exit
  | .wait | .setslice _ _ | .forkFail | .forkDone => isFalse id

/-- The changes that a step can make to the record of a process. -/
inductive Change (s : Sched) (p : Slot) : Action → Proc → Prop where
  | same (action : Action) : Change s p action (s.proc p)
  | slept (address : Nat) (on : s.cpu = .running p) :
      Change s p (.sleep address) { s.proc p with chan := some (.other address), state := .sleeping }
  | awaited (on : s.cpu = .running p) :
      Change s p .wait { s.proc p with chan := some (.proc p), state := .sleeping }
  | refused (n : Int) (on : s.cpu = .running p) (dead : (s.proc p).killed = true) :
      Change s p (.sysSleep n) (s.dozing n (s.proc p))
  | dozed (n : Int) (on : s.cpu = .running p) (alive : (s.proc p).killed = false) :
      Change s p (.sysSleep n)
        { s.dozing n (s.proc p) with chan := some .ticks, state := .sleeping }
  | ticked (user : Bool) :
      Change s p (.timer user) (Sched.woken (some .ticks) ((s.ticks + 1) % 2 ^ 32) (s.proc p))
  | yielded (user : Bool) (on : s.cpu = .running p) :
      Change s p (.timer user) { s.proc p with state := .runnable }
  | roused (chan : Chan) (notTicks : chan ≠ .ticks) :
      Change s p (.wakeup chan) (Sched.woken (some chan) s.ticks (s.proc p))
  | passed (q : Slot) (on : s.cpu = .running q) (y : Proc)
      (pass : Sched.Passed (s.exitChannels q) s.initproc (s.proc p) y) : Change s p .exit y
  | exited (on : s.cpu = .running p) (parent : Option Slot) :
      Change s p .exit { s.proc p with parent := parent, state := .zombie }
  | killed (pid : Int) (found : s.findSlot (fun x => x.pid = int32 pid) = some p) :
      Change s p (.kill pid)
        { s.proc p with
          killed := true
          state := if (s.proc p).state = .sleeping then .runnable else (s.proc p).state }
  | reaped (exited : (s.proc p).state = .zombie) :
      Change s p .wait { s.proc p with pid := 0, parent := none, killed := false, state := .unused }
  | sliced (pid slice : Int) (found : s.findSlot (fun x => x.pid = int32 pid) = some p)
      (positive : 1 ≤ int32 slice) :
      Change s p (.setslice pid slice) { s.proc p with timeslice := int32 slice }
  | taken (action : Action) (forks : Forking action) (unused : (s.proc p).state = .unused) :
      Change s p action (s.allocated (s.proc p))
  | forked (action : Action) (np : Slot) (slice : Int) (forks : Forking action)
      (on : s.cpu = .running p) (positive : 1 ≤ slice) :
      Change s p action { s.proc p with forking := some (np, slice) }
  | dropped (action : Action) (on : s.cpu = .running p)
      (ends : action = .forkFail ∨ action = .forkDone) :
      Change s p action { s.proc p with forking := none }
  | failed (embryo : (s.proc p).state = .embryo) :
      Change s p .forkFail { s.proc p with state := .unused }
  | born (q : Slot) (slice : Int) (forking : (s.proc q).forking = some (p, slice))
      (embryo : (s.proc p).state = .embryo) :
      Change s p .forkDone
        { s.proc p with parent := some q, state := .runnable, timeslice := slice }
  | dispatched (held : s.cpu = .loop) (head : s.queue.head = some p)
      (ready : (s.proc p).state = .runnable) (budget : Sched.hasBudget (s.proc p) = true) :
      Change s p .iterate (Sched.charged (s.proc p))
  | rotated (ready : (s.proc p).state = .runnable) :
      Change s p .iterate
        { s.proc p with
          switches := (s.proc p).switches + 1, activesleepticks := 0, activeticks := 0 }

section Cases

variable {s t : Sched} {nodes : List Slot}

/-- Assigning one process changes that process only. -/
theorem set_change {action : Action} {p : Slot} {change : Proc → Proc}
    (changed : Change s p action (change (s.proc p))) (q : Slot) :
    Change s q action ((s.set p change).proc q) := by
  rw [Sched.set_proc]
  split
  · rename_i equal
    exact equal ▸ changed
  · exact .same action

/-- The caller of `sleep` changes, and nobody else. -/
theorem sleep_change {action : Action} {p : Slot} {chan : Chan}
    (changed : Change s p action { s.proc p with chan := some chan, state := .sleeping }) (q : Slot) :
    Change s q action ((s.sleep p chan).proc q) := by
  simp only [Sched.sleep, Sched.pop_proc]
  exact set_change changed q

/-- `sys_sleep` changes its caller only. -/
theorem sysSleep_change {p : Slot} (on : s.cpu = .running p) (n : Int) (q : Slot) :
    Change s q (.sysSleep n) ((s.sysSleep p n).proc q) := by
  obtain ⟨marked, shape, ⟨dead, result⟩ | ⟨alive, result⟩⟩ := Sched.sysSleep_cases s p n
  · rw [result, shape]
    exact set_change (.refused n on dead) q
  · rw [result]
    simp only [Sched.sleep, Sched.pop_proc, Sched.set_proc, shape]
    split
    · rename_i equal
      rw [if_pos trivial, equal]
      exact .dozed n on alive
    · exact .same _

/-- An iteration of the scheduler changes the head, if it dispatches or rotates it. -/
theorem iterate_change (queued : Queued s nodes) (held : s.cpu = .loop) (q : Slot) :
    Change s q .iterate (s.iterate.proc q) := by
  rcases iterate_cases queued with ⟨_, result⟩ |
    ⟨p, rest, shape, ⟨_, result⟩ | ⟨ready, budget, result⟩ | ⟨ready, _, result⟩⟩
  · rw [result]
    exact .same _
  · rw [result, Sched.pop_proc]
    exact .same _
  · rw [result]
    have head : s.queue.head = some p := by rw [queued.represents.head_eq, shape, List.head?_cons]
    exact set_change (.dispatched held head ready budget) q
  · rw [result, Sched.rotate_proc ready]
    split
    · rename_i equal
      subst equal
      exact .rotated ready
    · exact .same _

/-- A timer interrupt that yields also changes the running process, which it
cannot wake. -/
theorem yield_change (queued : Queued s nodes) (user : Bool) {p : Slot} (on : s.cpu = .running p)
    (q : Slot) : Change s q (.timer user) ((s.tick.yield p).proc q) := by
  have each : s.tick.proc q = Sched.woken (some .ticks) ((s.ticks + 1) % 2 ^ 32) (s.proc q) :=
    s.tick_wakes.proc q
  simp only [Sched.yield, Sched.set_proc]
  split
  · rename_i equal
    subst equal
    have running : (s.proc q).state = .running := queued.on_running on
    have same : s.tick.proc q = s.proc q := by
      rw [each, Sched.woken, if_neg (by simp [running])]
    rw [same]
    exact .yielded user on
  · rw [each]
    exact .ticked user

/-- `exit` passes on or wakes other processes, and leaves its caller a zombie. -/
theorem exit_change (queued : Queued s nodes) {p : Slot} (on : s.cpu = .running p)
    (notInit : s.initproc ≠ some p) (q : Slot) : Change s q .exit ((s.exit p).proc q) := by
  obtain ⟨u, pass, result⟩ := Sched.exit_cases s p notInit
  rw [result]
  simp only [Sched.set_proc]
  split
  · rename_i equal
    subst equal
    have running : (s.proc q).state = .running := queued.on_running on
    obtain ⟨parent, _, changed | ⟨asleep, _, _⟩⟩ := pass.proc q
    · rw [changed]
      exact .exited on parent
    · rw [running] at asleep
      cases asleep
  · exact .passed p on _ (pass.proc q)

/-- `fork2` changes its caller and the slot that it takes. -/
theorem fork2_change (queued : Queued s nodes) {action : Action} (forks : Forking action) {p : Slot}
    (on : s.cpu = .running p) (slice : Int) (q : Slot) :
    Change s q action ((s.fork2 p slice).proc q) := by
  rcases Sched.fork2_cases s p slice with result | ⟨np, t, taken, positive, result⟩
  · rw [result]
    exact .same _
  · have unused := (Sched.allocproc_cases taken).1
    have others := (Sched.allocproc_cases taken).2.2.2.2.2.1
    have running : (s.proc p).state = .running := queued.on_running on
    have different : p ≠ np := by
      intro equal
      rw [equal, unused] at running
      cases running
    rw [result, Sched.set_proc]
    split
    · rename_i equal
      rw [equal, others p different]
      exact .forked _ np slice forks on positive
    · by_cases equal : q = np
      · rw [equal, Sched.allocproc_new taken]
        exact .taken _ forks unused
      · rw [others q equal]
        exact .same _

/-- A step changes the record of each process in one of the listed ways. -/
theorem step_change {action : Action} (queued : Queued s nodes) (forks : Forks s)
    (moved : Step s action t) (q : Slot) : Change s q action (t.proc q) := by
  cases moved with
  | load idle => exact .same _
  | skip loaded => exact .same _
  | enter p loaded => exact .same _
  | iterate held => exact iterate_change queued held q
  | tick user free =>
    rw [s.tick_wakes.proc q]
    exact .ticked user
  | yield user p on => exact yield_change queued user on q
  | wakeup chan free notTicks =>
    rw [Sched.wakeup1_proc]
    exact .roused chan notTicks
  | sleep address p on => exact sleep_change (.slept address on) q
  | sysSleep n p on => exact sysSleep_change on n q
  | kill pid =>
    rcases Sched.kill_cases s (int32 pid) with result | ⟨p, found, result⟩
    · rw [result]
      exact .same _
    · rw [result]
      exact set_change (.killed pid found) q
  | exit p on ready notInit => exact exit_change queued on notInit q
  | wait p on =>
    rcases Sched.wait_cases s p with result | ⟨_, result⟩ | ⟨child, exited, result⟩
    · rw [result]
      exact .same _
    · rw [result]
      exact sleep_change (.awaited on) q
    · rw [result]
      exact set_change (.reaped exited) q
  | setslice pid slice =>
    rcases Sched.setslice_cases s (int32 pid) (int32 slice) with result | ⟨p, found, positive, result⟩
    · rw [result]
      exact .same _
    · rw [result]
      exact set_change (.sliced pid slice found positive) q
  | fork2 slice p on ready => exact fork2_change queued (by trivial) on (int32 slice) q
  | fork slice p on ready found => exact fork2_change queued (by trivial) on slice q
  | forkFail p np slice on forking =>
    have embryo := forks.embryo p np slice forking
    have running : (s.proc p).state = .running := queued.on_running on
    have different : p ≠ np := fun equal => by simp [equal, embryo] at running
    simp only [Sched.forkFail, Sched.set_proc]
    split
    · rename_i equal
      rw [equal]
      exact .dropped _ on (.inl rfl)
    · split
      · rename_i equal
        rw [equal]
        exact .failed embryo
      · exact .same _
  | forkDone p np slice on forking =>
    have embryo := forks.embryo p np slice forking
    have running : (s.proc p).state = .running := queued.on_running on
    have different : p ≠ np := fun equal => by simp [equal, embryo] at running
    simp only [Sched.forkDone, Sched.set_proc, Sched.push_proc]
    split
    · rename_i equal
      rw [equal]
      exact .dropped _ on (.inr rfl)
    · split
      · rename_i equal
        rw [equal]
        exact .born p slice forking embryo
      · exact .same _

/-- Only `fork2` moves the pid counter and only the timer moves the ticks. -/
theorem step_counters {action : Action} (moved : Step s action t) :
    (Forking action ∨ t.nextpid = s.nextpid) ∧
      ((∃ user, action = .timer user) ∨ t.ticks = s.ticks) := by
  cases moved with
  | load | skip | enter | forkFail | forkDone => exact ⟨.inr rfl, .inr rfl⟩
  | iterate =>
    unfold Sched.iterate
    split
    · exact ⟨.inr rfl, .inr rfl⟩
    · split_ifs
      · exact ⟨.inr s.pop_nextpid, .inr s.pop_ticks⟩
      · exact ⟨.inr rfl, .inr rfl⟩
      · unfold Sched.rotate
        dsimp only
        split_ifs <;> simp
  | tick user => exact ⟨.inr s.tick_wakes.nextpid, .inl ⟨user, rfl⟩⟩
  | yield user => exact ⟨.inr s.tick_wakes.nextpid, .inl ⟨user, rfl⟩⟩
  | wakeup chan =>
    have pass := Sched.wakeup1_wakes (some chan) s
    exact ⟨.inr pass.nextpid, .inr pass.ticks⟩
  | sleep => exact ⟨.inr (by simp [Sched.sleep]), .inr (by simp [Sched.sleep])⟩
  | sysSleep n p =>
    obtain ⟨marked, shape, ⟨_, result⟩ | ⟨_, result⟩⟩ := Sched.sysSleep_cases s p n
    · rw [result, shape]
      exact ⟨.inr rfl, .inr rfl⟩
    · rw [result, shape]
      exact ⟨.inr (by simp [Sched.sleep]), .inr (by simp [Sched.sleep])⟩
  | kill pid =>
    rcases Sched.kill_cases s (int32 pid) with result | ⟨_, _, result⟩
    · exact ⟨.inr (by rw [result]), .inr (by rw [result])⟩
    · exact ⟨.inr (by rw [result, Sched.set_nextpid]), .inr (by rw [result, Sched.set_ticks])⟩
  | exit p _ _ notInit =>
    obtain ⟨u, pass, result⟩ := Sched.exit_cases s p notInit
    rw [result]
    exact ⟨.inr pass.nextpid, .inr pass.ticks⟩
  | wait p =>
    rcases Sched.wait_cases s p with result | ⟨_, result⟩ | ⟨_, _, result⟩
    · exact ⟨.inr (by rw [result]), .inr (by rw [result])⟩
    · rw [result]
      exact ⟨.inr (by simp [Sched.sleep]), .inr (by simp [Sched.sleep])⟩
    · exact ⟨.inr (by rw [result, Sched.set_nextpid]), .inr (by rw [result, Sched.set_ticks])⟩
  | setslice pid slice =>
    rcases Sched.setslice_cases s (int32 pid) (int32 slice) with result | ⟨_, _, _, result⟩
    · exact ⟨.inr (by rw [result]), .inr (by rw [result])⟩
    · exact ⟨.inr (by rw [result, Sched.set_nextpid]), .inr (by rw [result, Sched.set_ticks])⟩
  | fork2 slice p => exact ⟨.inl trivial, .inr (Sched.fork2_ticks s p _)⟩
  | fork slice p => exact ⟨.inl trivial, .inr (Sched.fork2_ticks s p _)⟩

end Cases

end Cs537.Scheduler
