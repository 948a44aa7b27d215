import Mathlib
import Cs537.Library.LinkedQueue

/-!
# The p4 process table, its run queue and the kernel functions on them

The fields of a process are those that scheduling reads or writes; memory, files,
trap frame, kernel stack and name are left out. The link of each process and the
globals `head` and `tail` are kept together as one linked queue. Statistics are
natural numbers, since a signed overflow of such a counter is undefined in C;
`timeslice`, `activeticks` and `activesleepticks` are C ints, and their sum in
the scheduler wraps to 32 bits. `ticks` and `sleepdeadline` are unsigned words.

Each function below is the part of its C counterpart that runs under
`ptable.lock`, so it is atomic on one processor. The interleavings of these
functions are the subject of the next module.
-/

namespace Cs537.Scheduler

open LinkedQueue

def NPROC : Nat := 64

/-- A pointer into the process table. -/
abbrev Slot := Fin NPROC

/-- The slot that `userinit` takes. -/
def firstSlot : Slot := ⟨0, by decide⟩

inductive ProcState where
  | unused | embryo | sleeping | runnable | running | zombie
deriving DecidableEq, Repr

/-- Sleep channels are kernel addresses: that of the tick counter, that of a
process (used by `wait`), or any other one (pipes, buffers, locks, the log). -/
inductive Chan where
  | ticks
  | proc (slot : Slot)
  | other (address : Nat)
deriving DecidableEq, Repr

/-- Wrap to a 32-bit signed int. -/
def int32 (value : Int) : Int := (value + 2 ^ 31) % 2 ^ 32 - 2 ^ 31

/-- One entry of the process table. `forking` stands for the locals `np` and
`slice` of a `fork2` that this process is executing between its two locked
regions; they live on its kernel stack. -/
structure Proc where
  state : ProcState := .unused
  pid : Int := 0
  parent : Option Slot := none
  chan : Option Chan := none
  killed : Bool := false
  timeslice : Int := 0
  compticks : Nat := 0
  schedticks : Nat := 0
  sleepticks : Nat := 0
  switches : Nat := 0
  sleepdeadline : Nat := 0
  activeticks : Int := 0
  activesleepticks : Int := 0
  forking : Option (Slot × Int) := none
deriving DecidableEq

/-- What the processor is doing. In `idle` and `loaded` it is in the outer loop
of `scheduler` with interrupts enabled, before and after reading `head`; in
`loop` it is at the top of the inner loop and holds `ptable.lock`; otherwise it
runs a process, which does not hold the lock. -/
inductive Cpu where
  | idle
  | loaded (p : Option Slot)
  | loop
  | running (p : Slot)
deriving DecidableEq

structure Sched where
  proc : Slot → Proc
  queue : Links Slot
  nextpid : Int
  initproc : Option Slot
  ticks : Nat
  cpu : Cpu

namespace Sched

/-- Assign fields of one process. -/
def set (s : Sched) (p : Slot) (change : Proc → Proc) : Sched :=
  { s with proc := Function.update s.proc p (change (s.proc p)) }

/-- `push`: link a process behind the tail of the run queue. -/
def push (s : Sched) (p : Slot) : Sched := { s with queue := s.queue.push p }

/-- `pop`: remove the head. A queue whose ends have the same pid is taken to hold
one process and is emptied; otherwise the head moves along its link. -/
def pop (s : Sched) : Sched :=
  match s.queue.head with
  | none => s
  | some first =>
    if some (s.proc first).pid = s.queue.tail.map (fun last => (s.proc last).pid) then
      { s with queue := s.queue.clear }
    else { s with queue := s.queue.advance }

/-- The body of the loop in `wakeup1` for one process. -/
def wake (chan : Option Chan) (s : Sched) (p : Slot) : Sched :=
  if (s.proc p).state = .sleeping ∧ (s.proc p).chan = chan then
    if chan = some .ticks then
      if s.ticks < (s.proc p).sleepdeadline then
        s.set p fun x => { x with sleepticks := x.sleepticks + 1 }
      else
        ((s.set p fun x => { x with sleepticks := x.sleepticks + 1, state := .runnable }).push p).set p
          fun x => { x with activeticks := 0 }
    else
      ((s.set p fun x => { x with state := .runnable }).push p).set p
        fun x => { x with activeticks := 0 }
  else s

/-- `wakeup1`: visit the whole table in order. The definition is irreducible so
that the elaborator does not unfold the pass; `wakeup1_wakes` describes it. -/
@[irreducible] def wakeup1 (chan : Option Chan) (s : Sched) : Sched :=
  (List.finRange NPROC).foldl (wake chan) s

/-- `sleep` up to `sched`: the caller leaves the queue and enters the scheduler
with the lock held. -/
def sleep (s : Sched) (p : Slot) (chan : Chan) : Sched :=
  { (s.set p fun x => { x with chan := some chan, state := .sleeping }).pop with cpu := .loop }

/-- `sys_sleep` after its argument is fetched: the fields are set before the test
of `killed`. -/
def sysSleep (s : Sched) (p : Slot) (n : Int) : Sched :=
  let marked := s.set p fun x =>
    { x with
      sleepdeadline := ((int32 n + s.ticks) % 2 ^ 32).toNat
      activesleepticks := int32 n
      activeticks := 0 }
  if (marked.proc p).killed then marked else marked.sleep p .ticks

/-- The first slot of the table that satisfies a test. -/
def findSlot (s : Sched) (test : Proc → Bool) : Option Slot :=
  (List.finRange NPROC).find? fun p => test (s.proc p)

/-- `kill`: the first slot with this pid is marked; a sleeping process becomes
runnable. -/
def kill (s : Sched) (pid : Int) : Sched :=
  match s.findSlot (fun x => x.pid = pid) with
  | none => s
  | some p => s.set p fun x =>
      { x with killed := true, state := if x.state = .sleeping then .runnable else x.state }

/-- `setslice`: the first slot with this pid gets the slice. -/
def setslice (s : Sched) (pid slice : Int) : Sched :=
  if slice < 1 ∨ pid < 0 then s
  else match s.findSlot (fun x => x.pid = pid) with
    | none => s
    | some p => s.set p fun x => { x with timeslice := slice }

/-- `getslice` on a pid that the table holds. -/
def getslice (s : Sched) (pid : Int) : Option Int :=
  if pid < 0 then some (-1)
  else (s.findSlot (fun x => x.pid = pid)).map fun p => (s.proc p).timeslice

/-- The locked region of `allocproc`: the chosen slot becomes an embryo with the
next pid and zeroed statistics; `timeslice`, `chan`, `killed` and `parent` keep
what the slot held. -/
def allocproc (s : Sched) : Option (Slot × Sched) :=
  (s.findSlot (fun x => x.state = .unused)).map fun p =>
    (p, { s.set p fun x =>
            { x with
              state := .embryo
              pid := s.nextpid
              compticks := 0
              schedticks := 0
              sleepticks := 0
              switches := 0
              sleepdeadline := 0
              activeticks := 0
              activesleepticks := 0
              forking := none } with
          nextpid := int32 (s.nextpid + 1) })

/-- The first part of `fork2`: refuse a slice below one, else take a slot and
remember it with the slice. Without a slot the call returns at once. -/
def fork2 (s : Sched) (curproc : Slot) (slice : Int) : Sched :=
  if slice < 1 then s
  else match s.allocproc with
    | none => s
    | some (np, s) => s.set curproc fun x => { x with forking := some (np, slice) }

/-- The failure exits of `allocproc` and `fork2` after the slot was taken: no
kernel stack or no page table. -/
def forkFail (s : Sched) (curproc np : Slot) : Sched :=
  (s.set np fun x => { x with state := .unused }).set curproc fun x => { x with forking := none }

/-- The last part of `fork2`: the child becomes runnable and is queued. -/
def forkDone (s : Sched) (curproc np : Slot) (slice : Int) : Sched :=
  ((s.set np fun x =>
      { x with parent := some curproc, state := .runnable, timeslice := slice }).push np).set curproc
    fun x => { x with forking := none }

/-- The body of the loop in `exit` that passes one child to `initproc`. -/
def abandon (curproc : Slot) (s : Sched) (p : Slot) : Sched :=
  if (s.proc p).parent = some curproc then
    let passed := s.set p fun x => { x with parent := s.initproc }
    if (passed.proc p).state = .zombie then passed.wakeup1 (s.initproc.map .proc) else passed
  else s

/-- `exit` from the acquisition of the lock to `sched`. -/
def exit (s : Sched) (curproc : Slot) : Sched :=
  let woken := s.wakeup1 ((s.proc curproc).parent.map .proc)
  let passed := (List.finRange NPROC).foldl (abandon curproc) woken
  { passed.set curproc fun x => { x with state := .zombie } with cpu := .loop }

/-- One scan of `wait`: free the first exited child, or return when there is no
child or the caller is killed, or sleep on the caller's own address. -/
def wait (s : Sched) (curproc : Slot) : Sched :=
  match s.findSlot (fun x => x.parent = some curproc ∧ x.state = .zombie) with
  | some p => s.set p fun x =>
      { x with pid := 0, parent := none, killed := false, state := .unused }
  | none =>
    if (s.findSlot fun x => x.parent = some curproc) = none ∨ (s.proc curproc).killed then s
    else s.sleep curproc (.proc curproc)

/-- `yield` up to `sched`. -/
def yield (s : Sched) (p : Slot) : Sched :=
  { s.set p fun x => { x with state := .runnable } with cpu := .loop }

/-- The budget test of the scheduler; the sum of the two ints wraps. -/
def hasBudget (x : Proc) : Bool := x.activeticks < int32 (x.timeslice + x.activesleepticks)

/-- Charge and dispatch the head: the counters are updated before the switch, and
a process that resumes inside `sleep` clears its channel. -/
def dispatch (s : Sched) (p : Slot) : Sched :=
  { s.set p fun x =>
      { x with
        schedticks := x.schedticks + 1
        activeticks := x.activeticks + 1
        compticks := if x.timeslice < x.activeticks + 1 then x.compticks + 1 else x.compticks
        state := .running
        chan := none } with
    cpu := .running p }

/-- End the turn of a runnable head: it is popped and pushed back. -/
def rotate (s : Sched) (p : Slot) : Sched :=
  let popped := (s.set p fun x => { x with switches := x.switches + 1, activesleepticks := 0 }).pop
  if (popped.proc p).state ≠ .sleeping then
    (popped.push p).set p fun x => { x with activeticks := 0 }
  else popped

/-- One iteration of the inner loop of `scheduler`. -/
def iterate (s : Sched) : Sched :=
  match s.queue.head with
  | none => { s with cpu := .idle }
  | some p =>
    if (s.proc p).state ≠ .runnable then s.pop
    else if hasBudget (s.proc p) then s.dispatch p
    else s.rotate p

/-- The timer branch of `trap` before the final tests: count the tick and wake
the sleepers on it. -/
def tick (s : Sched) : Sched :=
  { s with ticks := (s.ticks + 1) % 2 ^ 32 }.wakeup1 (some .ticks)

/-- The run queue: the processes met by following the links from `head`. -/
def runQueue (s : Sched) : List Slot := follow s.queue.next NPROC s.queue.head

/-- `ptable.lock` is held only inside the inner loop of the scheduler. -/
def LockFree (s : Sched) : Prop := s.cpu ≠ .loop

end Sched

/-- The kernel before `userinit`: an empty table and an empty queue. -/
def boot : Sched :=
  { proc := fun _ => {}
    queue := ⟨none, none, fun _ => none⟩
    nextpid := 1
    initproc := none
    ticks := 0
    cpu := .idle }

/-- `userinit`: the first process is allocated, made runnable with slice one and
queued. -/
def userinit : Sched :=
  match boot.allocproc with
  | none => boot
  | some (p, s) =>
    ({ s with initproc := some p }.set p fun x => { x with state := .runnable, timeslice := 1 }).push p

end Cs537.Scheduler
