import Cs537.Library.Runs
import Cs537.Scheduler.ProcTable

/-!
# Interleavings of the p4 kernel on one processor

An action is one atomic region: a locked region of a system call made by the
running process, an interrupt, or one iteration of a loop of `scheduler`. The
processor state decides which actions are possible. While a process is inside
`fork2` between its two locked regions it can only finish or abandon the fork,
but interrupts, and through them other processes, may come in between.

A process may otherwise call anything at any time. This admits more orders than
user programs can produce, and every order that they can. A panic (`init
exiting`, or the second `acquire` of `getslice`) has no next state.
-/

namespace Cs537.Scheduler

open LinkedQueue

inductive Action where
  | load
  | acquire
  | iterate
  | timer (user : Bool)
  | wakeup (chan : Chan)
  | sleep (address : Nat)
  | sysSleep (n : Int)
  | kill (pid : Int)
  | exit
  | wait
  | setslice (pid slice : Int)
  | fork2 (slice : Int)
  | fork
  | forkFail
  | forkDone
deriving DecidableEq

namespace Sched

/-- The running process, unless it is inside `fork2`. -/
def caller (s : Sched) : Option Slot :=
  match s.cpu with
  | .running p => if (s.proc p).forking = none then some p else none
  | _ => none

/-- The running process together with the locals of its unfinished `fork2`. -/
def forker (s : Sched) : Option (Slot × Slot × Int) :=
  match s.cpu with
  | .running p => (s.proc p).forking.map fun locals => (p, locals)
  | _ => none

/-- The rest of the timer branch. A killed process that was interrupted in user
mode goes on to `exit`; any other running process yields. -/
def timer (s : Sched) (user : Bool) : Option Sched :=
  match s.cpu with
  | .loop => none
  | .running p => some (if user && (s.tick.proc p).killed then s.tick else s.tick.yield p)
  | _ => some s.tick

end Sched

/-- The effect of one action, if it is possible. -/
def step (s : Sched) : Action → Option Sched
  | .load => if s.cpu = .idle then some { s with cpu := .loaded s.queue.head } else none
  | .acquire =>
    match s.cpu with
    | .loaded none => some { s with cpu := .idle }
    | .loaded (some _) => some { s with cpu := .loop }
    | _ => none
  | .iterate => if s.cpu = .loop then some s.iterate else none
  | .timer user => s.timer user
  | .wakeup chan =>
    if s.cpu = .loop ∨ chan = .ticks then none else some (s.wakeup1 (some chan))
  | .sleep address => s.caller.map fun p => s.sleep p (.other address)
  | .sysSleep n => s.caller.map fun p => s.sysSleep p n
  | .kill pid => s.caller.map fun _ => s.kill (int32 pid)
  | .exit => s.caller.bind fun p => if s.initproc = some p then none else some (s.exit p)
  | .wait => s.caller.map fun p => s.wait p
  | .setslice pid slice => s.caller.map fun _ => s.setslice (int32 pid) (int32 slice)
  | .fork2 slice => s.caller.map fun p => s.fork2 p (int32 slice)
  | .fork => s.caller.bind fun p => (s.getslice (s.proc p).pid).map fun slice => s.fork2 p slice
  | .forkFail => s.forker.map fun (p, np, _) => s.forkFail p np
  | .forkDone => s.forker.map fun (p, np, slice) => s.forkDone p np slice

/-- Runs of the kernel. -/
abbrev run := Runs.run step

/-- The states reached from `userinit`. -/
def Reachable (s : Sched) : Prop := ∃ actions, run userinit actions = some s

theorem Reachable.step {s t : Sched} {action : Action} (reachable : Reachable s)
    (moved : Scheduler.step s action = some t) : Reachable t := by
  obtain ⟨actions, completed⟩ := reachable
  refine ⟨actions ++ [action], Runs.run_append completed ?_⟩
  rw [Runs.run, moved]
  rfl

/-- One constructor for each way an action can take effect. -/
inductive Step (s : Sched) : Action → Sched → Prop where
  | load (idle : s.cpu = .idle) : Step s .load { s with cpu := .loaded s.queue.head }
  | skip (loaded : s.cpu = .loaded none) : Step s .acquire { s with cpu := .idle }
  | enter (p : Slot) (loaded : s.cpu = .loaded (some p)) : Step s .acquire { s with cpu := .loop }
  | iterate (held : s.cpu = .loop) : Step s .iterate s.iterate
  | tick (user : Bool) (free : s.LockFree) : Step s (.timer user) s.tick
  | yield (user : Bool) (p : Slot) (on : s.cpu = .running p) : Step s (.timer user) (s.tick.yield p)
  | wakeup (chan : Chan) (free : s.LockFree) (notTicks : chan ≠ .ticks) :
      Step s (.wakeup chan) (s.wakeup1 (some chan))
  | sleep (address : Nat) (p : Slot) (on : s.cpu = .running p) :
      Step s (.sleep address) (s.sleep p (.other address))
  | sysSleep (n : Int) (p : Slot) (on : s.cpu = .running p) : Step s (.sysSleep n) (s.sysSleep p n)
  | kill (pid : Int) (p : Slot) (on : s.cpu = .running p) : Step s (.kill pid) (s.kill (int32 pid))
  | exit (p : Slot) (on : s.cpu = .running p) (ready : (s.proc p).forking = none)
      (notInit : s.initproc ≠ some p) : Step s .exit (s.exit p)
  | wait (p : Slot) (on : s.cpu = .running p) : Step s .wait (s.wait p)
  | setslice (pid slice : Int) (p : Slot) (on : s.cpu = .running p) :
      Step s (.setslice pid slice) (s.setslice (int32 pid) (int32 slice))
  | fork2 (slice : Int) (p : Slot) (on : s.cpu = .running p) (ready : (s.proc p).forking = none) :
      Step s (.fork2 slice) (s.fork2 p (int32 slice))
  | fork (slice : Int) (p : Slot) (on : s.cpu = .running p) (ready : (s.proc p).forking = none)
      (found : s.getslice (s.proc p).pid = some slice) : Step s .fork (s.fork2 p slice)
  | forkFail (p np : Slot) (slice : Int) (on : s.cpu = .running p)
      (forking : (s.proc p).forking = some (np, slice)) : Step s .forkFail (s.forkFail p np)
  | forkDone (p np : Slot) (slice : Int) (on : s.cpu = .running p)
      (forking : (s.proc p).forking = some (np, slice)) : Step s .forkDone (s.forkDone p np slice)

theorem caller_some {s : Sched} {p : Slot} (called : s.caller = some p) :
    s.cpu = .running p ∧ (s.proc p).forking = none := by
  unfold Sched.caller at called
  split at called
  · rename_i q on
    split at called
    · rename_i ready
      have same : q = p := Option.some.inj called
      exact ⟨same ▸ on, same ▸ ready⟩
    · cases called
  · cases called

theorem forker_some {s : Sched} {p np : Slot} {slice : Int}
    (called : s.forker = some (p, np, slice)) :
    s.cpu = .running p ∧ (s.proc p).forking = some (np, slice) := by
  unfold Sched.forker at called
  split at called
  · rename_i q on
    obtain ⟨locals, forking, same⟩ := Option.map_eq_some_iff.mp called
    obtain ⟨rfl, rfl⟩ := Prod.mk.inj same
    exact ⟨on, forking⟩
  · cases called

/-- Every step is one of the cases above. -/
theorem step_cases {s t : Sched} {action : Action} (moved : step s action = some t) :
    Step s action t := by
  cases action with
  | load =>
    obtain ⟨idle, rfl⟩ := by simpa only [step, Option.ite_none_right_eq_some, Option.some.injEq] using moved
    exact .load idle
  | acquire =>
    simp only [step] at moved
    split at moved
    · rename_i loaded
      exact Option.some.inj moved ▸ .skip loaded
    · rename_i p loaded
      exact Option.some.inj moved ▸ .enter p loaded
    · cases moved
  | iterate =>
    obtain ⟨held, rfl⟩ := by simpa only [step, Option.ite_none_right_eq_some, Option.some.injEq] using moved
    exact .iterate held
  | timer user =>
    simp only [step, Sched.timer] at moved
    split at moved
    · cases moved
    · rename_i p on
      have free : s.LockFree := by simp [Sched.LockFree, on]
      have result := Option.some.inj moved
      split at result
      · exact result ▸ .tick user free
      · exact result ▸ .yield user p on
    · rename_i held _
      exact Option.some.inj moved ▸ .tick user held
  | wakeup chan =>
    obtain ⟨possible, rfl⟩ := by
      simpa only [step, Option.ite_none_left_eq_some, Option.some.injEq] using moved
    exact .wakeup chan (fun held => possible (.inl held)) (fun ticks => possible (.inr ticks))
  | sleep address =>
    obtain ⟨p, called, rfl⟩ := Option.map_eq_some_iff.mp moved
    exact .sleep address p (caller_some called).1
  | sysSleep n =>
    obtain ⟨p, called, rfl⟩ := Option.map_eq_some_iff.mp moved
    exact .sysSleep n p (caller_some called).1
  | kill pid =>
    obtain ⟨p, called, rfl⟩ := Option.map_eq_some_iff.mp moved
    exact .kill pid p (caller_some called).1
  | exit =>
    obtain ⟨p, called, result⟩ := Option.bind_eq_some_iff.mp moved
    obtain ⟨notInit, rfl⟩ := by
      simpa only [Option.ite_none_left_eq_some, Option.some.injEq] using result
    exact .exit p (caller_some called).1 (caller_some called).2 notInit
  | wait =>
    obtain ⟨p, called, rfl⟩ := Option.map_eq_some_iff.mp moved
    exact .wait p (caller_some called).1
  | setslice pid slice =>
    obtain ⟨p, called, rfl⟩ := Option.map_eq_some_iff.mp moved
    exact .setslice pid slice p (caller_some called).1
  | fork2 slice =>
    obtain ⟨p, called, rfl⟩ := Option.map_eq_some_iff.mp moved
    exact .fork2 slice p (caller_some called).1 (caller_some called).2
  | fork =>
    obtain ⟨p, called, result⟩ := Option.bind_eq_some_iff.mp moved
    obtain ⟨slice, found, rfl⟩ := Option.map_eq_some_iff.mp result
    exact .fork slice p (caller_some called).1 (caller_some called).2 found
  | forkFail =>
    obtain ⟨⟨p, np, slice⟩, called, rfl⟩ := Option.map_eq_some_iff.mp moved
    exact .forkFail p np slice (forker_some called).1 (forker_some called).2
  | forkDone =>
    obtain ⟨⟨p, np, slice⟩, called, rfl⟩ := Option.map_eq_some_iff.mp moved
    exact .forkDone p np slice (forker_some called).1 (forker_some called).2

end Cs537.Scheduler
