import Cs537.Library.Runs
import Cs537.Scheduler.ProcTable

/-!
# System calls and the process table of p2

The p2 kernel has the process table of plain xv6, without a run queue, and two
counters in each entry. The states, slots, channels and the 32-bit wrap are those
of the p4 table. Left out are memory, files, the trap frame beyond `eax`, the kernel
stack and the name; counters are natural numbers, since a signed overflow is
undefined in C.

What a process is doing inside the kernel lives on its kernel stack and is kept as
its task: the handler that it runs, a fork between the two locked regions, or a
value that a handler returned and that `syscall` has not yet stored and counted. A
step is one atomic region of one process, so that the steps of different processes
interleave as on several processors. Handlers that read and write nothing of the
process table (files, pipes, `exec`, `sbrk`, `sleep`, `uptime`) return any value.
-/

namespace Cs537.Syscalls

open Scheduler (ProcState Slot Chan NPROC firstSlot int32)

/-- The system calls of `syscall.h`. -/
inductive Syscall where
  | fork | exit | wait | pipe | read | kill | exec | fstat | chdir | dup | getpid | sbrk | sleep
  | uptime | open | write | mknod | unlink | link | mkdir | close | getnumsyscalls
  | getnumsyscallsgood
deriving DecidableEq

/-- The table `syscalls`, by the numbers of `syscall.h`; number zero has no handler. -/
def handlers : List (Option Syscall) :=
  [none, some .fork, some .exit, some .wait, some .pipe, some .read, some .kill, some .exec,
    some .fstat, some .chdir, some .dup, some .getpid, some .sbrk, some .sleep, some .uptime,
    some .open, some .write, some .mknod, some .unlink, some .link, some .mkdir, some .close,
    some .getnumsyscalls, some .getnumsyscallsgood]

/-- The test that `syscall` makes of the number in `eax`, and the handler behind it. -/
def handler (num : Int) : Option Syscall :=
  if 0 < num ∧ num < handlers.length then handlers[num.toNat]?.join else none

/-- The numbers that `syscall` counts. -/
def counted (num : Int) : Bool := num ≠ 1 ∧ num ≠ 7 ∧ num ≠ 12 ∧ num ≠ 22 ∧ num ≠ 23

/-- What a process is doing inside the kernel. -/
inductive Task where
  | user
  | handling (num : Int) (call : Syscall)
  | forking (num : Int) (np : Slot)
  | returning (num : Int) (value : Int)
deriving DecidableEq

/-- One entry of the process table. -/
structure Proc where
  state : ProcState := .unused
  pid : Int := 0
  parent : Option Slot := none
  chan : Option Chan := none
  killed : Bool := false
  syscalls : Nat := 0
  syscallsgood : Nat := 0
  task : Task := .user
deriving DecidableEq

structure Kernel where
  proc : Slot → Proc
  nextpid : Int
  initproc : Slot

namespace Kernel

/-- Assign fields of one process. -/
def set (s : Kernel) (p : Slot) (change : Proc → Proc) : Kernel :=
  { s with proc := Function.update s.proc p (change (s.proc p)) }

/-- The first slot of the table that satisfies a test. -/
def findSlot (s : Kernel) (test : Proc → Bool) : Option Slot :=
  (List.finRange NPROC).find? fun p => test (s.proc p)

/-- `wakeup1`: every process that sleeps on the channel becomes runnable. -/
def wakeup1 (s : Kernel) (chan : Chan) : Kernel :=
  { s with proc := fun p =>
      if (s.proc p).state = .sleeping ∧ (s.proc p).chan = some chan then
        { s.proc p with state := .runnable }
      else s.proc p }

/-- The locked region of `allocproc`. The assignments that would clear the two
counters stand behind the `goto` that leaves the loop and are never executed. -/
def allocproc (s : Kernel) : Option (Slot × Kernel) :=
  (s.findSlot (fun x => x.state = .unused)).map fun p =>
    (p, { s.set p fun x => { x with state := .embryo, pid := s.nextpid, task := .user } with
          nextpid := int32 (s.nextpid + 1) })

/-- `fork` up to the end of `allocproc`. Without a free slot it returns at once. -/
def fork (s : Kernel) (p : Slot) (num : Int) : Kernel :=
  match s.allocproc with
  | none => s.set p fun x => { x with task := .returning num (-1) }
  | some (np, s) => s.set p fun x => { x with task := .forking num np }

/-- The failure exits of `allocproc` and `fork` after the slot was taken: no kernel
stack or no page table. The pid of the slot stays. -/
def forkFail (s : Kernel) (p : Slot) (num : Int) (np : Slot) : Kernel :=
  (s.set np fun x => { x with state := .unused }).set p fun x => { x with task := .returning num (-1) }

/-- The rest of `fork`: the child becomes runnable and its pid is returned. -/
def forkDone (s : Kernel) (p : Slot) (num : Int) (np : Slot) : Kernel :=
  (s.set np fun x => { x with parent := some p, state := .runnable }).set p
    fun x => { x with task := .returning num (s.proc np).pid }

/-- The body of the loop in `exit` that passes one child to `initproc`. -/
def abandon (curproc : Slot) (s : Kernel) (p : Slot) : Kernel :=
  if (s.proc p).parent = some curproc then
    let passed := s.set p fun x => { x with parent := some s.initproc }
    if (s.proc p).state = .zombie then passed.wakeup1 (.proc s.initproc) else passed
  else s

/-- `exit` from the acquisition of the lock to `sched`. -/
def exit (s : Kernel) (curproc : Slot) : Kernel :=
  let woken := match (s.proc curproc).parent with
    | none => s
    | some parent => s.wakeup1 (.proc parent)
  let passed := (List.finRange NPROC).foldl (abandon curproc) woken
  passed.set curproc fun x => { x with state := .zombie }

/-- One scan of `wait`: free the first exited child, or return when there is no child
or the caller is killed, or sleep on the caller's own address. -/
def wait (s : Kernel) (curproc : Slot) (num : Int) : Kernel :=
  match s.findSlot (fun x => x.parent = some curproc ∧ x.state = .zombie) with
  | some p =>
    (s.set p fun x => { x with pid := 0, parent := none, killed := false, state := .unused }).set
      curproc fun x => { x with task := .returning num (s.proc p).pid }
  | none =>
    if (s.findSlot fun x => x.parent = some curproc) = none ∨ (s.proc curproc).killed then
      s.set curproc fun x => { x with task := .returning num (-1) }
    else s.set curproc fun x => { x with chan := some (.proc curproc), state := .sleeping }

/-- `kill` with its return value: the first slot with this pid is marked. -/
def kill (s : Kernel) (pid : Int) : Kernel × Int :=
  match s.findSlot (fun x => x.pid = pid) with
  | none => (s, -1)
  | some p => (s.set p fun x =>
      { x with killed := true, state := if x.state = .sleeping then .runnable else x.state }, 0)

/-- `getnumsyscalls`: the counter of the first slot with this pid. -/
def getnumsyscalls (s : Kernel) (pid : Int) : Int :=
  match s.findSlot (fun x => x.pid = pid) with
  | none => -1
  | some p => (s.proc p).syscalls

/-- `getnumsyscallsgood`: the same for the other counter. -/
def getnumsyscallsgood (s : Kernel) (pid : Int) : Int :=
  match s.findSlot (fun x => x.pid = pid) with
  | none => -1
  | some p => (s.proc p).syscallsgood

/-- The end of `syscall`: the value is stored, and the call is counted. -/
def finish (s : Kernel) (p : Slot) (num value : Int) : Kernel :=
  s.set p fun x =>
    { x with
      task := .user
      syscalls := if counted num then x.syscalls + 1 else x.syscalls
      syscallsgood :=
        if counted num ∧ value ≠ -1 then x.syscallsgood + 1 else x.syscallsgood }

/-- A handler that needs one step, with its argument. A value is given for those that
do not read the process table. -/
def handle (s : Kernel) (p : Slot) (num : Int) (arg value : Int) : Syscall → Option Kernel
  | .fork | .exit | .wait => none
  | .getpid => some (s.set p fun x => { x with task := .returning num x.pid })
  | .kill => some ((s.kill arg).1.set p fun x => { x with task := .returning num (s.kill arg).2 })
  | .getnumsyscalls =>
    some (s.set p fun x => { x with task := .returning num (s.getnumsyscalls arg) })
  | .getnumsyscallsgood =>
    some (s.set p fun x => { x with task := .returning num (s.getnumsyscallsgood arg) })
  | _ => some (s.set p fun x => { x with task := .returning num (int32 value) })

end Kernel

/-- The kernel before `userinit`: an empty table. -/
def boot : Kernel := { proc := fun _ => {}, nextpid := 1, initproc := firstSlot }

/-- `userinit`: the first process is allocated and made runnable. -/
def userinit : Kernel :=
  match boot.allocproc with
  | none => boot
  | some (p, s) => { s with initproc := p }.set p fun x => { x with state := .runnable }

inductive Action where
  | dispatch (p : Slot)
  | preempt (p : Slot)
  | trap (p : Slot) (num : Int)
  | handle (p : Slot) (arg value : Int)
  | badArgument (p : Slot)
  | fork (p : Slot)
  | forkFail (p : Slot)
  | forkDone (p : Slot)
  | exit (p : Slot)
  | wait (p : Slot)
  | sleep (p : Slot) (address : Nat)
  | wakeup (chan : Chan)
  | finish (p : Slot)
deriving DecidableEq

/-- The task of a process that a processor executes. -/
def Kernel.running (s : Kernel) (p : Slot) : Option Task :=
  if (s.proc p).state = .running then some (s.proc p).task else none

/-- The effect of one action, if it is possible. A killed process exits from user mode;
`init exiting` is a panic and has no next state. -/
def step (s : Kernel) : Action → Option Kernel
  | .dispatch p =>
    if (s.proc p).state = .runnable then
      some (s.set p fun x => { x with state := .running, chan := none })
    else none
  | .preempt p =>
    (s.running p).map fun _ => s.set p fun x => { x with state := .runnable }
  | .trap p num =>
    match s.running p with
    | some .user =>
      match handler num with
      | none => some s
      | some call => some (s.set p fun x => { x with task := .handling num call })
    | _ => none
  | .handle p arg value =>
    match s.running p with
    | some (.handling num call) => s.handle p num (int32 arg) value call
    | _ => none
  | .badArgument p =>
    match s.running p with
    | some (.handling num call) =>
      if call = .kill ∨ call = .getnumsyscalls ∨ call = .getnumsyscallsgood then
        some (s.set p fun x => { x with task := .returning num (-1) })
      else none
    | _ => none
  | .fork p =>
    match s.running p with
    | some (.handling num .fork) => some (s.fork p num)
    | _ => none
  | .forkFail p =>
    match s.running p with
    | some (.forking num np) => some (s.forkFail p num np)
    | _ => none
  | .forkDone p =>
    match s.running p with
    | some (.forking num np) => some (s.forkDone p num np)
    | _ => none
  | .exit p =>
    if s.initproc = p then none else
    match s.running p with
    | some .user => if (s.proc p).killed then some (s.exit p) else none
    | some (.handling _ .exit) => some (s.exit p)
    | _ => none
  | .wait p =>
    match s.running p with
    | some (.handling num .wait) => some (s.wait p num)
    | _ => none
  | .sleep p address =>
    (s.running p).map fun _ =>
      s.set p fun x => { x with chan := some (.other address), state := .sleeping }
  | .wakeup chan => some (s.wakeup1 chan)
  | .finish p =>
    match s.running p with
    | some (.returning num value) => some (s.finish p num value)
    | _ => none

/-- Runs of the kernel. -/
abbrev run := Runs.run step

end Cs537.Syscalls
