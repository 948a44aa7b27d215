import Cs537.Syscalls.Kernel

/-!
# What the system-call counters count

The specification is a log of the creations of processes and of the system calls
that they completed. The calls of a process are the entries of its slot since the
last creation in it. The kernel keeps only two counters in the slot, and finds the
slot by its pid; the results say when these give the same answer.

A step is described once by its effect on the table: it leaves the accounts alone,
or it takes a slot, gives one back, completes a fork or counts a call.
-/

namespace Cs537.Syscalls

open Scheduler (ProcState Slot Chan NPROC firstSlot int32)

/-! ## The log -/

/-- An entry of the log. -/
inductive Event where
  | created (p : Slot)
  | completed (p : Slot) (call : Syscall) (value : Int)
deriving DecidableEq

/-- The calls that the present process of a slot has completed, from the newest entry
of the log back to its creation. -/
def callsSince (p : Slot) : List Event → List (Syscall × Int)
  | [] => []
  | .created q :: earlier => if q = p then [] else callsSince p earlier
  | .completed q call value :: earlier =>
    if q = p then (call, value) :: callsSince p earlier else callsSince p earlier

/-- The calls that are to be counted. -/
def Syscall.tracked (call : Syscall) : Bool :=
  call ≠ .fork ∧ call ≠ .exec ∧ call ≠ .sbrk ∧ call ≠ .getnumsyscalls ∧ call ≠ .getnumsyscallsgood

/-- The number of counted calls of a list. -/
def total (calls : List (Syscall × Int)) : Nat := calls.countP fun entry => entry.1.tracked

/-- The number of those that returned a value other than minus one. -/
def good (calls : List (Syscall × Int)) : Nat :=
  calls.countP fun entry => entry.1.tracked ∧ entry.2 ≠ -1

/-- Keep the log, newest entry first. -/
def note (log : List Event) (s : Kernel) : Action → Kernel → List Event
  | .fork _, _ =>
    match s.allocproc with
    | none => log
    | some (np, _) => .created np :: log
  | .finish p, _ =>
    match (s.proc p).task with
    | .returning num value =>
      match handler num with
      | none => log
      | some call => .completed p call value :: log
    | _ => log
  | _, _ => log

/-- The answers for a pid agree with the log. -/
structure Truthful (s : Kernel) (log : List Event) (pid : Int) : Prop where
  absent : s.getnumsyscalls pid = -1 ↔ ∀ p, (s.proc p).state ≠ .unused → (s.proc p).pid ≠ pid
  absentGood : s.getnumsyscallsgood pid = -1 ↔
    ∀ p, (s.proc p).state ≠ .unused → (s.proc p).pid ≠ pid
  counts : ∀ p, (s.proc p).state ≠ .unused → (s.proc p).pid = pid →
    s.getnumsyscalls pid = total (callsSince p log)
  countsGood : ∀ p, (s.proc p).state ≠ .unused → (s.proc p).pid = pid →
    s.getnumsyscallsgood pid = good (callsSince p log)

/-- Every process starts with empty counters and a new pid, and no slot is given up by a
failed fork. -/
def Fresh (s : Kernel) : Action → Prop
  | .fork _ => s.nextpid + 1 < 2 ^ 31 ∧
      ∀ np, s.findSlot (fun x => x.state = .unused) = some np →
        (s.proc np).syscalls = 0 ∧ (s.proc np).syscallsgood = 0
  | .forkFail _ => False
  | _ => True

instance (s : Kernel) (action : Action) : Decidable (Fresh s action) :=
  match action with
  | .fork _ => inferInstanceAs (Decidable (_ ∧ _))
  | .forkFail _ => isFalse id
  | .dispatch _ | .preempt _ | .trap _ _ | .handle _ _ _ | .badArgument _ | .forkDone _ | .exit _
  | .wait _ | .sleep _ _ | .wakeup _ | .finish _ => isTrue trivial

/-- The numbers that the code tests are those of the calls that are to be counted. -/
theorem counted_tracked {num : Int} {call : Syscall} (handled : handler num = some call) :
    counted num = call.tracked := by
  unfold handler at handled
  split at handled
  · rename_i range
    obtain ⟨positive, bound⟩ := range
    have below : num < 24 := bound
    interval_cases num <;> cases Option.some.inj handled <;> rfl
  · cases handled

/-! ## What the field updates do -/

namespace Kernel

@[simp] theorem set_proc (s : Kernel) (p : Slot) (change : Proc → Proc) (q : Slot) :
    (s.set p change).proc q = if q = p then change (s.proc p) else s.proc q := by
  simp only [set, Function.update_apply]

@[simp] theorem set_nextpid (s : Kernel) (p : Slot) (change : Proc → Proc) :
    (s.set p change).nextpid = s.nextpid := rfl

/-- A slot found by a search passes its test. -/
theorem findSlot_some {s : Kernel} {test : Proc → Bool} {p : Slot}
    (found : s.findSlot test = some p) : test (s.proc p) = true := by
  simpa using List.find?_some found

/-- A search fails if no slot passes the test. -/
theorem findSlot_none {s : Kernel} {test : Proc → Bool} (missing : s.findSlot test = none)
    (p : Slot) : test (s.proc p) = false := by
  have each := List.find?_eq_none.mp missing p (List.mem_finRange p)
  simpa using each

/-- The process that runs is in the table. -/
theorem running_some {s : Kernel} {p : Slot} {task : Task} (on : s.running p = some task) :
    (s.proc p).state = .running ∧ (s.proc p).task = task := by
  simpa only [running, Option.ite_none_right_eq_some, Option.some.injEq] using on

end Kernel

/-! ## Steps that leave the accounts alone -/

/-- The task belongs to a number with a handler. -/
def Task.Valid : Task → Prop
  | .user => True
  | .handling num call => handler num = some call
  | .forking num _ => handler num = some .fork
  | .returning num _ => ∃ call, handler num = some call

/-- A change of a record that keeps its account and does not begin a fork. -/
structure Quiet (x y : Proc) : Prop where
  pid : y.pid = x.pid
  syscalls : y.syscalls = x.syscalls
  syscallsgood : y.syscallsgood = x.syscallsgood
  unused : y.state = .unused ↔ x.state = .unused
  embryo : y.state = .embryo ↔ x.state = .embryo
  child : ∀ num np, y.task = .forking num np → x.task = .forking num np
  valid : x.task.Valid → y.task.Valid

theorem Quiet.refl (x : Proc) : Quiet x x :=
  ⟨rfl, rfl, rfl, .rfl, .rfl, fun _ _ same => same, id⟩

theorem Quiet.trans {x y z : Proc} (first : Quiet x y) (second : Quiet y z) : Quiet x z :=
  ⟨second.pid.trans first.pid, second.syscalls.trans first.syscalls,
    second.syscallsgood.trans first.syscallsgood, second.unused.trans first.unused,
    second.embryo.trans first.embryo,
    fun num np same => first.child num np (second.child num np same), second.valid ∘ first.valid⟩

/-- All accounts are kept. -/
def Calm (s t : Kernel) : Prop := (∀ p, Quiet (s.proc p) (t.proc p)) ∧ t.nextpid = s.nextpid

theorem Calm.refl (s : Kernel) : Calm s s := ⟨fun p => .refl (s.proc p), rfl⟩

theorem Calm.trans {s t u : Kernel} (first : Calm s t) (second : Calm t u) : Calm s u :=
  ⟨fun p => (first.1 p).trans (second.1 p), second.2.trans first.2⟩

/-- Assigning one process is calm if its own change is quiet. -/
theorem calm_set {s : Kernel} {p : Slot} {change : Proc → Proc}
    (quiet : Quiet (s.proc p) (change (s.proc p))) : Calm s (s.set p change) := by
  refine ⟨fun q => ?_, rfl⟩
  rw [Kernel.set_proc]
  split
  · rename_i same
    exact same ▸ quiet
  · exact .refl _

theorem wakeup1_calm (s : Kernel) (chan : Chan) : Calm s (s.wakeup1 chan) := by
  refine ⟨fun q => ?_, rfl⟩
  unfold Kernel.wakeup1
  dsimp only
  split
  · rename_i asleep
    exact ⟨rfl, rfl, rfl, by simp [asleep.1], by simp [asleep.1], fun _ _ same => same, id⟩
  · exact .refl _

theorem abandon_calm (curproc : Slot) (s : Kernel) (p : Slot) : Calm s (s.abandon curproc p) := by
  unfold Kernel.abandon
  have passed : Calm s (s.set p fun x => { x with parent := some s.initproc }) :=
    calm_set ⟨rfl, rfl, rfl, .rfl, .rfl, fun _ _ same => same, id⟩
  split
  · dsimp only
    split
    · exact passed.trans (wakeup1_calm _ _)
    · exact passed
  · exact .refl s

/-- The pass of `exit` over the table is calm. -/
theorem abandon_fold (curproc : Slot) (slots : List Slot) (s : Kernel) :
    Calm s (slots.foldl (Kernel.abandon curproc) s) := by
  induction slots generalizing s with
  | nil => exact .refl s
  | cons p rest inductionHypothesis =>
    exact (abandon_calm curproc s p).trans (inductionHypothesis _)

/-- A process that runs changes its state, its task or its flags, within the limits of
a quiet change. -/
theorem calm_running {s : Kernel} {p : Slot} {change : Proc → Proc}
    (on : (s.proc p).state = .running)
    (account : ∀ x, (change x).pid = x.pid ∧ (change x).syscalls = x.syscalls ∧
      (change x).syscallsgood = x.syscallsgood)
    (state : ∀ x : Proc, x.state = .running →
      (change x).state ≠ .unused ∧ (change x).state ≠ .embryo)
    (child : ∀ num np, (change (s.proc p)).task = .forking num np →
      (s.proc p).task = .forking num np)
    (valid : (s.proc p).task.Valid → (change (s.proc p)).task.Valid) : Calm s (s.set p change) := by
  obtain ⟨pid, syscalls, syscallsgood⟩ := account (s.proc p)
  obtain ⟨used, grown⟩ := state (s.proc p) on
  exact calm_set ⟨pid, syscalls, syscallsgood, by simp [on, used], by simp [on, grown], child, valid⟩

/-- A process that runs stores the value of its call. -/
theorem calm_return {s : Kernel} {p : Slot} {task : Task} {num : Int}
    (on : s.running p = some task) (value : Int)
    (handled : task.Valid → ∃ call, handler num = some call) :
    Calm s (s.set p fun x => { x with task := .returning num value }) := by
  obtain ⟨state, rfl⟩ := Kernel.running_some on
  refine calm_running state (fun _ => ⟨rfl, rfl, rfl⟩) (fun x on => by simp [on]) ?_ handled
  intro num np same
  cases same

/-- A process that ran before a calm change becomes a zombie after it. -/
theorem Calm.zombie {s u : Kernel} {p : Slot} (calm : Calm s u) (on : (s.proc p).state = .running) :
    Calm s (u.set p fun x => { x with state := .zombie }) := by
  have used := (calm.1 p).unused
  have grown := (calm.1 p).embryo
  rw [on] at used grown
  refine calm.trans (calm_set ⟨rfl, rfl, rfl, ?_, ?_, fun _ _ same => same, id⟩)
  · rw [used]
    simp
  · rw [grown]
    simp

theorem exit_calm {s : Kernel} {p : Slot} (on : (s.proc p).state = .running) : Calm s (s.exit p) := by
  unfold Kernel.exit
  refine (Calm.trans ?_ (abandon_fold p (List.finRange NPROC) _)).zombie on
  -- a process without a parent wakes nobody
  split
  · exact .refl s
  · exact wakeup1_calm s _

theorem kill_calm (s : Kernel) (pid : Int) :
    Calm s (s.kill pid).1 ∧ ∀ p, ((s.kill pid).1.proc p).task = (s.proc p).task := by
  unfold Kernel.kill
  split
  · exact ⟨.refl s, fun _ => rfl⟩
  · rename_i q found
    dsimp only
    constructor
    · refine calm_set ?_
      refine ⟨rfl, rfl, rfl, ?_, ?_, fun _ _ same => same, id⟩
      · dsimp only
        split <;> simp_all
      · dsimp only
        split <;> simp_all
    · intro p
      rw [Kernel.set_proc]
      split
      · rename_i same
        rw [same]
      · rfl

/-- A step that keeps all accounts, and is not logged. -/
def Silent (s : Kernel) (action : Action) (t : Kernel) : Prop :=
  Calm s t ∧ ∀ log, note log s action t = log

/-! ## The effect of a step -/

/-- What a step does to the accounts and to the slots. -/
inductive Effect (s : Kernel) : Action → Kernel → Prop where
  | silent {action : Action} {t : Kernel} (silent : Silent s action t) : Effect s action t
  | created {p np : Slot} {num : Int} {u : Kernel} (on : (s.proc p).state = .running)
      (handling : (s.proc p).task = .handling num .fork) (taken : s.allocproc = some (np, u)) :
      Effect s (.fork p) (u.set p fun x => { x with task := .forking num np })
  | failed {p : Slot} {t : Kernel} : Effect s (.forkFail p) t
  | grown {p np : Slot} {num : Int} (on : (s.proc p).state = .running)
      (forking : (s.proc p).task = .forking num np) : Effect s (.forkDone p) (s.forkDone p num np)
  | reaped {p child : Slot} {num : Int} (on : (s.proc p).state = .running)
      (handling : (s.proc p).task = .handling num .wait) (exited : (s.proc child).state = .zombie) :
      Effect s (.wait p)
        ((s.set child fun x => { x with pid := 0, parent := none, killed := false, state := .unused }).set
          p fun x => { x with task := .returning num (s.proc child).pid })
  | counted {p : Slot} {num value : Int} (on : (s.proc p).state = .running)
      (returning : (s.proc p).task = .returning num value) :
      Effect s (.finish p) (s.finish p num value)

theorem wait_effect {s : Kernel} {p : Slot} {num : Int}
    (on : s.running p = some (.handling num .wait)) : Effect s (.wait p) (s.wait p num) := by
  obtain ⟨state, task⟩ := Kernel.running_some on
  unfold Kernel.wait
  split
  · rename_i child found
    have exited := Kernel.findSlot_some found
    exact .reaped state task (by simpa using exited : _ ∧ _).2
  · split
    · exact .silent ⟨calm_return on (-1) fun valid => ⟨_, valid⟩, fun _ => rfl⟩
    · exact .silent ⟨calm_running state (fun _ => ⟨rfl, rfl, rfl⟩) (by simp)
        (fun _ _ same => same) id, fun _ => rfl⟩

theorem fork_effect {s : Kernel} {p : Slot} {num : Int}
    (on : s.running p = some (.handling num .fork)) : Effect s (.fork p) (s.fork p num) := by
  obtain ⟨state, task⟩ := Kernel.running_some on
  unfold Kernel.fork
  split
  · rename_i full
    refine .silent ⟨calm_return on (-1) fun valid => ⟨_, valid⟩, fun log => ?_⟩
    simp only [note, full]
  · rename_i np u taken
    exact .created state task taken

theorem handle_effect {s t : Kernel} {p : Slot} {num arg value : Int} {call : Syscall}
    {action : Action} (on : s.running p = some (.handling num call))
    (quiet : ∀ log, note log s action t = log)
    (handled : s.handle p num arg value call = some t) : Effect s action t := by
  have returns : ∀ value, Calm s (s.set p fun x => { x with task := .returning num value }) :=
    fun value => calm_return on value fun valid => ⟨_, valid⟩
  refine .silent ⟨?_, quiet⟩
  cases call <;> simp only [Kernel.handle, Option.some.injEq, reduceCtorEq] at handled <;>
    subst handled
  case kill =>
    -- the caller may have killed itself, which leaves it running
    obtain ⟨killed, tasks⟩ := kill_calm s arg
    refine killed.trans (calm_set ⟨rfl, rfl, rfl, .rfl, .rfl, ?_, ?_⟩)
    · intro num np same
      cases same
    · rw [tasks p, (Kernel.running_some on).2]
      exact fun valid => ⟨_, valid⟩
  case getpid => exact returns (s.proc p).pid
  all_goals exact returns _

/-- Every step has one of these effects. -/
theorem step_effect {s t : Kernel} {action : Action} (moved : step s action = some t) :
    Effect s action t := by
  cases action with
  | dispatch p =>
    obtain ⟨ready, rfl⟩ := by
      simpa only [step, Option.ite_none_right_eq_some, Option.some.injEq] using moved
    refine .silent ⟨calm_set ?_, fun _ => rfl⟩
    exact ⟨rfl, rfl, rfl, by simp [ready], by simp [ready], fun _ _ same => same, id⟩
  | preempt p =>
    obtain ⟨task, on, rfl⟩ := Option.map_eq_some_iff.mp moved
    exact .silent ⟨calm_running (Kernel.running_some on).1 (fun _ => ⟨rfl, rfl, rfl⟩) (by simp)
      (fun _ _ same => same) id, fun _ => rfl⟩
  | trap p num =>
    simp only [step] at moved
    split at moved
    · rename_i on
      split at moved
      · exact Option.some.inj moved ▸ .silent ⟨.refl s, fun _ => rfl⟩
      · rename_i call handled
        refine Option.some.inj moved ▸ .silent ⟨?_, fun _ => rfl⟩
        refine calm_running (Kernel.running_some on).1 (fun _ => ⟨rfl, rfl, rfl⟩)
          (fun x on => by simp [on]) ?_ fun _ => handled
        intro num np same
        cases same
    · cases moved
  | handle p arg value =>
    simp only [step] at moved
    split at moved
    · rename_i num call on
      exact handle_effect on (fun _ => rfl) moved
    · cases moved
  | badArgument p =>
    simp only [step] at moved
    split at moved
    · rename_i num call on
      split at moved
      · exact Option.some.inj moved ▸
          .silent ⟨calm_return on (-1) fun valid => ⟨_, valid⟩, fun _ => rfl⟩
      · cases moved
    · cases moved
  | fork p =>
    simp only [step] at moved
    split at moved
    · rename_i num on
      exact Option.some.inj moved ▸ fork_effect on
    · cases moved
  | forkFail p => exact .failed
  | forkDone p =>
    simp only [step] at moved
    split at moved
    · rename_i num np on
      exact Option.some.inj moved ▸ .grown (Kernel.running_some on).1 (Kernel.running_some on).2
    · cases moved
  | exit p =>
    simp only [step] at moved
    split at moved
    · cases moved
    · have leaves : ∀ task, s.running p = some task → Effect s (.exit p) (s.exit p) :=
        fun task on => .silent ⟨exit_calm (Kernel.running_some on).1, fun _ => rfl⟩
      split at moved
      · rename_i on
        split at moved
        · exact Option.some.inj moved ▸ leaves _ on
        · cases moved
      · rename_i on
        exact Option.some.inj moved ▸ leaves _ on
      · cases moved
  | wait p =>
    simp only [step] at moved
    split at moved
    · rename_i num on
      exact Option.some.inj moved ▸ wait_effect on
    · cases moved
  | sleep p address =>
    obtain ⟨task, on, rfl⟩ := Option.map_eq_some_iff.mp moved
    exact .silent ⟨calm_running (Kernel.running_some on).1 (fun _ => ⟨rfl, rfl, rfl⟩) (by simp)
      (fun _ _ same => same) id, fun _ => rfl⟩
  | wakeup chan => exact Option.some.inj moved ▸ .silent ⟨wakeup1_calm s chan, fun _ => rfl⟩
  | finish p =>
    simp only [step] at moved
    split at moved
    · rename_i num value on
      exact Option.some.inj moved ▸ .counted (Kernel.running_some on).1 (Kernel.running_some on).2
    · cases moved

/-! ## The invariant -/

/-- The counters of the slots in use agree with the log, and pids identify these slots. -/
structure Accurate (s : Kernel) (log : List Event) : Prop where
  counts : ∀ p, (s.proc p).state ≠ .unused → (s.proc p).syscalls = total (callsSince p log) ∧
    (s.proc p).syscallsgood = good (callsSince p log)
  vacant : ∀ p, (s.proc p).state = .unused → (s.proc p).pid = 0
  numbered : ∀ p, (s.proc p).state ≠ .unused → 0 < (s.proc p).pid ∧ (s.proc p).pid < s.nextpid
  distinct : ∀ p q, (s.proc p).state ≠ .unused → (s.proc q).state ≠ .unused →
    (s.proc p).pid = (s.proc q).pid → p = q
  child : ∀ p num np, (s.proc p).task = .forking num np → (s.proc np).state = .embryo
  creator : ∀ p q num num' np, (s.proc p).task = .forking num np →
    (s.proc q).task = .forking num' np → p = q
  valid : ∀ p, (s.proc p).task.Valid

theorem Accurate.calm {s t : Kernel} {log : List Event} (accurate : Accurate s log)
    (calm : Calm s t) : Accurate t log where
  counts p used := by
    rw [(calm.1 p).syscalls, (calm.1 p).syscallsgood]
    exact accurate.counts p (mt (calm.1 p).unused.mpr used)
  vacant p unused := by
    rw [(calm.1 p).pid]
    exact accurate.vacant p ((calm.1 p).unused.mp unused)
  numbered p used := by
    rw [(calm.1 p).pid, calm.2]
    exact accurate.numbered p (mt (calm.1 p).unused.mpr used)
  distinct p q first second same := by
    rw [(calm.1 p).pid, (calm.1 q).pid] at same
    exact accurate.distinct p q (mt (calm.1 p).unused.mpr first)
      (mt (calm.1 q).unused.mpr second) same
  child p num np forking := (calm.1 np).embryo.mpr
    (accurate.child p num np ((calm.1 p).child num np forking))
  creator p q num num' np first second := accurate.creator p q num num' np
    ((calm.1 p).child num np first) ((calm.1 q).child num' np second)
  valid p := (calm.1 p).valid (accurate.valid p)

/-- `allocproc` takes an unused slot, touches no other, and leaves its counters. -/
theorem allocproc_cases {s u : Kernel} {np : Slot} (taken : s.allocproc = some (np, u)) :
    s.findSlot (fun x => x.state = .unused) = some np ∧ (s.proc np).state = .unused ∧
      u.nextpid = int32 (s.nextpid + 1) ∧
      ∀ q, u.proc q =
        if q = np then { s.proc np with state := .embryo, pid := s.nextpid, task := .user }
        else s.proc q := by
  obtain ⟨p, found, same⟩ := Option.map_eq_some_iff.mp taken
  obtain ⟨rfl, rfl⟩ := Prod.mk.inj same
  have free := Kernel.findSlot_some found
  exact ⟨found, by simpa using free, rfl, fun q => by simp⟩

/-- A process is created in a slot with empty counters, under a new pid. -/
theorem Accurate.created {s u : Kernel} {log : List Event} {p np : Slot} {num : Int}
    (accurate : Accurate s log) (on : (s.proc p).state = .running)
    (handling : (s.proc p).task = .handling num .fork) (taken : s.allocproc = some (np, u))
    (fresh : Fresh s (.fork p)) :
    Accurate (u.set p fun x => { x with task := .forking num np }) (.created np :: log) := by
  obtain ⟨found, unused, counter, records⟩ := allocproc_cases taken
  obtain ⟨unwrapped, empty⟩ := fresh
  obtain ⟨calls, goods⟩ := empty np found
  obtain ⟨positive, bound⟩ := accurate.numbered p (by simp [on])
  have next : int32 (s.nextpid + 1) = s.nextpid + 1 := by
    unfold int32
    omega
  have different : p ≠ np := by
    intro same
    rw [same, unused] at on
    cases on
  have caller : (u.set p fun x => { x with task := .forking num np }).proc p =
      { s.proc p with task := .forking num np } := by
    rw [Kernel.set_proc, if_pos rfl, records, if_neg different]
  have child : (u.set p fun x => { x with task := .forking num np }).proc np =
      { s.proc np with state := .embryo, pid := s.nextpid, task := .user } := by
    rw [Kernel.set_proc, if_neg different.symm, records, if_pos rfl]
  have others : ∀ q, q ≠ p → q ≠ np →
      (u.set p fun x => { x with task := .forking num np }).proc q = s.proc q := by
    intro q notCaller notChild
    rw [Kernel.set_proc, if_neg notCaller, records, if_neg notChild]
  have counted : (u.set p fun x => { x with task := .forking num np }).nextpid = s.nextpid + 1 := by
    rw [Kernel.set_nextpid, counter, next]
  generalize (u.set p fun x => { x with task := .forking num np }) = t at caller child others counted
  obtain ⟨counts, vacant, numbered, distinct, embryo, creator, valid⟩ := accurate
  refine ⟨?_, ?_, ?_, ?_, ?_, ?_, ?_⟩
  · intro q used
    simp only [callsSince]
    by_cases same : q = np
    · subst same
      simp [child, calls, goods, total, good]
    · rw [if_neg (Ne.symm same)]
      by_cases mine : q = p
      · subst mine
        rw [caller]
        exact counts q (by simp [on])
      · rw [others q mine same] at used ⊢
        exact counts q used
  · grind
  · grind
  · grind
  · grind
  · grind
  · intro q
    by_cases same : q = np
    · subst same
      rw [child]
      trivial
    · by_cases mine : q = p
      · subst mine
        have handled := valid q
        rw [handling] at handled
        rw [caller]
        exact handled
      · rw [others q mine same]
        exact valid q

/-- The second part of `fork` only turns an embryo into a process. -/
theorem Accurate.grown {s : Kernel} {log : List Event} {p np : Slot} {num : Int}
    (accurate : Accurate s log) (on : (s.proc p).state = .running)
    (forking : (s.proc p).task = .forking num np) : Accurate (s.forkDone p num np) log := by
  have handled := accurate.valid p
  rw [forking] at handled
  obtain ⟨counts, vacant, numbered, distinct, embryo, creator, valid⟩ := accurate
  have unborn := embryo p num np forking
  have different : p ≠ np := by
    intro same
    rw [same, unborn] at on
    cases on
  have caller : (s.forkDone p num np).proc p =
      { s.proc p with task := .returning num (s.proc np).pid } := by
    simp [Kernel.forkDone, different]
  have child : (s.forkDone p num np).proc np =
      { s.proc np with parent := some p, state := .runnable } := by
    simp [Kernel.forkDone, different.symm]
  have others : ∀ q, q ≠ p → q ≠ np → (s.forkDone p num np).proc q = s.proc q := by
    intro q notCaller notChild
    simp [Kernel.forkDone, notCaller, notChild]
  have counter : (s.forkDone p num np).nextpid = s.nextpid := rfl
  generalize s.forkDone p num np = t at caller child others counter
  refine ⟨?_, ?_, ?_, ?_, ?_, ?_, ?_⟩
  · grind
  · grind
  · grind
  · grind
  · grind
  · grind
  · intro q
    by_cases mine : q = p
    · subst mine
      rw [caller]
      exact ⟨_, handled⟩
    · by_cases same : q = np
      · subst same
        rw [child]
        exact valid q
      · rw [others q mine same]
        exact valid q

/-- `wait` gives the slot of an exited child back, with pid zero. -/
theorem Accurate.reaped {s : Kernel} {log : List Event} {p child : Slot} {num : Int}
    (accurate : Accurate s log) (on : (s.proc p).state = .running)
    (handling : (s.proc p).task = .handling num .wait) (exited : (s.proc child).state = .zombie) :
    Accurate
      ((s.set child fun x => { x with pid := 0, parent := none, killed := false, state := .unused }).set
        p fun x => { x with task := .returning num (s.proc child).pid }) log := by
  have handled := accurate.valid p
  rw [handling] at handled
  obtain ⟨counts, vacant, numbered, distinct, embryo, creator, valid⟩ := accurate
  have different : p ≠ child := by
    intro same
    rw [same, exited] at on
    cases on
  let t := (s.set child fun x => { x with pid := 0, parent := none, killed := false, state := .unused }).set
    p fun x => { x with task := .returning num (s.proc child).pid }
  have caller : t.proc p = { s.proc p with task := .returning num (s.proc child).pid } := by
    simp [t, different]
  have freed : t.proc child =
      { s.proc child with pid := 0, parent := none, killed := false, state := .unused } := by
    simp [t, different.symm]
  have others : ∀ q, q ≠ p → q ≠ child → t.proc q = s.proc q := by
    intro q notCaller notChild
    simp [t, notCaller, notChild]
  have counter : t.nextpid = s.nextpid := rfl
  change Accurate t log
  generalize t = t at caller freed others counter
  refine ⟨?_, ?_, ?_, ?_, ?_, ?_, ?_⟩
  · grind
  · grind
  · grind
  · grind
  · grind
  · grind
  · intro q
    by_cases mine : q = p
    · subst mine
      rw [caller]
      exact ⟨_, handled⟩
    · by_cases same : q = child
      · subst same
        rw [freed]
        exact valid q
      · rw [others q mine same]
        exact valid q

/-- The end of `syscall` counts the call that is logged. -/
theorem Accurate.counted {s : Kernel} {log : List Event} {p : Slot} {num value : Int}
    {call : Syscall} (accurate : Accurate s log) (on : (s.proc p).state = .running)
    (handled : handler num = some call) :
    Accurate (s.finish p num value) (.completed p call value :: log) := by
  have tested := counted_tracked handled
  obtain ⟨counts, vacant, numbered, distinct, embryo, creator, valid⟩ := accurate
  have counter : (s.finish p num value).nextpid = s.nextpid := rfl
  have caller : (s.finish p num value).proc p =
      { s.proc p with
        task := .user
        syscalls := if call.tracked then (s.proc p).syscalls + 1 else (s.proc p).syscalls
        syscallsgood := if call.tracked ∧ value ≠ -1 then (s.proc p).syscallsgood + 1
          else (s.proc p).syscallsgood } := by
    simp [Kernel.finish, tested]
  have others : ∀ q, q ≠ p → (s.finish p num value).proc q = s.proc q := by
    intro q notCaller
    simp [Kernel.finish, notCaller]
  generalize s.finish p num value = t at caller others counter
  refine ⟨?_, ?_, ?_, ?_, ?_, ?_, ?_⟩
  · intro q used
    simp only [callsSince]
    by_cases mine : q = p
    · subst mine
      obtain ⟨calls, goods⟩ := counts q (by simp [on])
      rw [if_pos rfl, caller]
      simp only [total, good, List.countP_cons, decide_eq_true_eq] at calls goods ⊢
      rw [← calls, ← goods]
      constructor <;> split_ifs <;> rfl
    · rw [if_neg (Ne.symm mine), others q mine]
      exact counts q (others q mine ▸ used)
  · grind
  · grind
  · grind
  · grind
  · grind
  · intro q
    by_cases mine : q = p
    · subst mine
      rw [caller]
      trivial
    · rw [others q mine]
      exact valid q

/-- A fresh step keeps the counters in agreement with the log. -/
theorem step_accurate {s t : Kernel} {log : List Event} {action : Action}
    (accurate : Accurate s log) (fresh : Fresh s action) (moved : step s action = some t) :
    Accurate t (note log s action t) := by
  cases step_effect moved with
  | silent silent =>
    rw [silent.2]
    exact accurate.calm silent.1
  | created on handling taken =>
    have logged := accurate.created on handling taken fresh
    simpa only [note, taken] using logged
  | failed => exact fresh.elim
  | grown on forking => exact accurate.grown on forking
  | reaped on handling exited => exact accurate.reaped on handling exited
  | @counted p num value on returning =>
    have valid := accurate.valid p
    rw [returning] at valid
    obtain ⟨call, handled⟩ := valid
    have logged : Accurate (s.finish p num value) (.completed p call value :: log) :=
      accurate.counted on handled
    simpa only [note, returning, handled] using logged

theorem userinit_accurate : Accurate userinit [] := by
  have first : ∀ p, (userinit.proc p).state ≠ .unused → (userinit.proc p).pid = 1 ∧
      p = firstSlot ∧ (userinit.proc p).syscalls = 0 ∧ (userinit.proc p).syscallsgood = 0 := by
    decide
  have vacant : ∀ p, (userinit.proc p).state = .unused → (userinit.proc p).pid = 0 := by decide
  have tasks : ∀ p, (userinit.proc p).task = .user := by decide
  have counter : userinit.nextpid = 2 := by decide
  refine ⟨?_, vacant, ?_, ?_, ?_, ?_, ?_⟩
  · intro p used
    obtain ⟨_, _, calls, goods⟩ := first p used
    exact ⟨calls, goods⟩
  · intro p used
    rw [counter, (first p used).1]
    decide
  · intro p q one two _
    rw [(first p one).2.1, (first q two).2.1]
  · intro p num np forking
    rw [tasks p] at forking
    cases forking
  · intro p q num num' np forking
    rw [tasks p] at forking
    cases forking
  · intro p
    rw [tasks p]
    trivial

/-- Where the slots in use have nonzero pids of their own, the answers are true. -/
theorem Accurate.truthful {s : Kernel} {log : List Event} (accurate : Accurate s log) {pid : Int}
    (asked : pid ≠ 0 ∨ ∀ p, (s.proc p).state ≠ .unused) : Truthful s log pid := by
  obtain ⟨counts, vacant, numbered, distinct, _, _, _⟩ := accurate
  cases found : s.findSlot (fun x => x.pid = pid) with
  | none =>
    have missing : ∀ p, (s.proc p).pid ≠ pid := fun p => by
      simpa using Kernel.findSlot_none found p
    exact ⟨by simp [Kernel.getnumsyscalls, found, missing],
      by simp [Kernel.getnumsyscallsgood, found, missing],
      fun p _ same => absurd same (missing p), fun p _ same => absurd same (missing p)⟩
  | some q =>
    have named : (s.proc q).pid = pid := by simpa using Kernel.findSlot_some found
    have used : (s.proc q).state ≠ .unused := by
      intro free
      rcases asked with nonzero | full
      · exact nonzero (named.symm.trans (vacant q free))
      · exact full q free
    have only : ∀ p, (s.proc p).state ≠ .unused → (s.proc p).pid = pid → p = q :=
      fun p live same => distinct p q live used (same.trans named.symm)
    refine ⟨?_, ?_, ?_, ?_⟩
    · simp only [Kernel.getnumsyscalls, found]
      exact ⟨fun negative => by omega, fun none => absurd named (none q used)⟩
    · simp only [Kernel.getnumsyscallsgood, found]
      exact ⟨fun negative => by omega, fun none => absurd named (none q used)⟩
    · intro p live same
      obtain rfl := only p live same
      simp only [Kernel.getnumsyscalls, found, (counts p live).1]
    · intro p live same
      obtain rfl := only p live same
      simp only [Kernel.getnumsyscallsgood, found, (counts p live).2]

/-- In every run in which processes are created in slots with empty counters and no fork
gives its slot up, every pid but zero is answered truly, and so is zero in a full table. -/
theorem counters_truthful {actions : List Action} {s : Kernel} {log : List Event}
    (completed : Runs.run (Runs.observe step note) (userinit, []) actions = some (s, log))
    (fresh : Runs.Meets (Runs.observe step note) (fun u action => Fresh u.1 action) (userinit, [])
      actions)
    {pid : Int} (asked : pid ≠ 0 ∨ ∀ p, (s.proc p).state ≠ .unused) : Truthful s log pid := by
  have accurate : Accurate s log := by
    have kept : ∀ (u : Kernel × List Event) action v, Fresh u.1 action → Accurate u.1 u.2 →
        Runs.observe step note u action = some v → Accurate v.1 v.2 := by
      intro u action v guard accurate moved
      obtain ⟨t, stepped, rfl⟩ := Option.map_eq_some_iff.mp moved
      exact step_accurate accurate guard stepped
    exact @Runs.run_invariant _ _ _ _ (fun u => Accurate u.1 u.2) kept _ _ _ userinit_accurate fresh
      completed
  exact accurate.truthful asked

/-- The slot of the first child. -/
def secondSlot : Slot := ⟨1, Nat.le_of_ble_eq_true rfl⟩

/-- The first process forks, and its child completes `uptime` and a failed `read`. -/
def childCalls : List Action :=
  [.dispatch firstSlot, .trap firstSlot 1, .fork firstSlot, .forkDone firstSlot, .finish firstSlot,
    .dispatch secondSlot, .trap secondSlot 14, .handle secondSlot 0 5, .finish secondSlot,
    .trap secondSlot 5, .handle secondSlot 0 (-1), .finish secondSlot]

/-- The child exits, and the first process waits for it and forks again. -/
def childReplaced : List Action :=
  childCalls ++ [.trap secondSlot 2, .exit secondSlot, .trap firstSlot 3, .wait firstSlot, .finish firstSlot,
    .trap firstSlot 1, .fork firstSlot, .forkDone firstSlot]

/-- The child has completed two calls, one of them with a value other than minus one. -/
theorem counters_truthful_child :
    ∃ s log, Runs.run (Runs.observe step note) (userinit, []) childCalls = some (s, log) ∧
      s.getnumsyscalls 2 = 2 ∧ s.getnumsyscallsgood 2 = 1 := by
  have completed : Runs.run (Runs.observe step note) (userinit, []) childCalls = some _ :=
    Runs.run_final (by decide +kernel)
  have truthful := @counters_truthful childCalls _ _ completed (by decide +kernel) 2 (.inl (by decide))
  refine ⟨_, _, completed, ?_, ?_⟩
  · rw [truthful.counts secondSlot (by decide +kernel) (by decide +kernel)]
    decide +kernel
  · rw [truthful.countsGood secondSlot (by decide +kernel) (by decide +kernel)]
    decide +kernel

/-- The second child is answered with the calls of the first, whose slot it took. -/
theorem recycled_counters :
    ¬ ∀ actions last pid,
      Runs.run (Runs.observe step note) (userinit, []) actions = some last →
        Truthful last.1 last.2 pid := by
  intro truthful
  have completed : Runs.run (Runs.observe step note) (userinit, []) childReplaced = some _ :=
    Runs.run_final (by decide +kernel)
  have counts := (truthful childReplaced _ 3 completed).counts secondSlot (by decide +kernel)
    (by decide +kernel)
  exact absurd counts (by decide +kernel)

end Cs537.Syscalls
