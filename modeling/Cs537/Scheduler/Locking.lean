import Cs537.Library.Programs
import Cs537.Scheduler.Effects

/-!
# The p4 process functions with their lock operations

The functions of the process table once more, with every `acquire` and `release` of
`ptable.lock` and the operations of `spinlock.c` that these are made of. A processor counts
the nesting of `pushcli`, remembers whether interrupts were enabled before it, and holds the
lock or not. Other processors and interrupts change the table whenever the lock is not held:
each time this processor gets the lock, and each time `sched` gives it away and gets it back,
it finds the next of the tables that the others leave behind, whatever they are. When there is
no further table it waits for ever.

The locks that other modules of the kernel take and give back within one call (`kalloc`,
`kfree`, `copyuvm`, `freevm`, `filedup`, `idup`) are left out; whether such a call succeeds is a
parameter.
-/

namespace Cs537.Scheduler

open Programs

/-- A processor in the kernel, the table as it sees it, and the tables that it will find. -/
structure World where
  table : Sched
  curproc : Slot
  others : List Sched
  interrupts : Bool
  ncli : Int
  intena : Bool
  held : Bool

/-- Why a call does not return. -/
inductive Stop where
  | panic (message : String)
  | waiting
deriving DecidableEq

/-- A function of the kernel. -/
abbrev Kernel := Program World Stop

namespace Kernel

def panic {α : Type} (message : String) : Kernel α := throw (.panic message)

/-! ## Spin locks -/

/-- `mycpu`: its result is this processor. -/
def mycpu : Kernel Unit := do
  if (← get).interrupts then panic "mycpu called with interrupts enabled\n"

def pushcli : Kernel Unit := do
  let eflags := (← get).interrupts
  modify fun w => { w with interrupts := false }
  mycpu
  if (← get).ncli = 0 then modify fun w => { w with intena := eflags }
  modify fun w => { w with ncli := w.ncli + 1 }

def popcli : Kernel Unit := do
  if (← get).interrupts then panic "popcli - interruptible"
  mycpu
  modify fun w => { w with ncli := w.ncli - 1 }
  if (← get).ncli < 0 then panic "popcli"
  if (← get).ncli = 0 ∧ (← get).intena = true then
    modify fun w => { w with interrupts := true }

/-- `holding(&ptable.lock)`: the lock is taken and this processor took it. -/
def holding : Kernel Bool := do
  pushcli
  let r := (← get).held
  popcli
  return r

/-- Let the others run. -/
def await : Kernel Unit := do
  match (← get).others with
  | [] => throw .waiting
  | table :: rest => modify fun w => { w with table := table, others := rest }

/-- `acquire(&ptable.lock)`: the spinning ends when the others have given the lock back. -/
def acquire : Kernel Unit := do
  pushcli
  if ← holding then panic "acquire"
  await
  modify fun w => { w with held := true }

/-- `release(&ptable.lock)`. -/
def release : Kernel Unit := do
  unless ← holding do panic "release"
  modify fun w => { w with held := false }
  popcli

/-! ## The running process -/

/-- An assignment to the table. -/
def assign (change : Sched → Sched) : Kernel Unit := modify fun w => { w with table := change w.table }

def myproc : Kernel Slot := do
  pushcli
  mycpu
  let p := (← get).curproc
  popcli
  return p

/-- The switch to the scheduler and back. The scheduler has interrupts enabled when it acquires
the lock, and it holds the lock when it switches to a process. -/
def swtch : Kernel Unit := do
  await
  modify fun w => { w with intena := true }

def sched : Kernel Unit := do
  let p ← myproc
  unless ← holding do panic "sched ptable.lock"
  unless (← get).ncli = 1 do panic "sched locks"
  if ((← get).table.proc p).state = .running then panic "sched running"
  if (← get).interrupts then panic "sched interruptible"
  let intena := (← get).intena
  swtch
  modify fun w => { w with intena := intena }

/-- `sleep(chan, &ptable.lock)`: the caller holds `ptable.lock`, so `sleep` neither takes it nor
gives it back. -/
def sleep (chan : Chan) : Kernel Unit := do
  let p ← myproc
  assign fun s => s.set p fun x => { x with chan := some chan }
  assign fun s => s.set p fun x => { x with state := .sleeping }
  assign Sched.pop
  sched
  assign fun s => s.set p fun x => { x with chan := none }

/-! ## The functions of the process table -/

/-- The entries of the table in order. -/
def slots : List Slot := List.finRange NPROC

/-- `allocproc`; `kalloc` says whether there is a page for the kernel stack. -/
def allocproc (kalloc : Bool) : Kernel (Option Slot) := do
  acquire
  match ← scan (fun _ p => do
    if ((← get).table.proc p).state = .unused then return .inr p
    return .inl ()) () slots with
  | .inl _ =>
    release
    return none
  | .inr p =>
    assign fun s => { s.set p s.allocated with nextpid := int32 (s.nextpid + 1) }
    release
    if kalloc then return some p
    assign fun s => s.set p fun x => { x with state := .unused }
    return none

/-- `fork2`; `copyuvm` says whether the memory of the parent can be copied. -/
def fork2 (slice : Int) (kalloc copyuvm : Bool) : Kernel Int := do
  let curproc ← myproc
  if slice < 1 then return -1
  match ← allocproc kalloc with
  | none => return -1
  | some np =>
    if copyuvm then
      assign fun s => s.set np fun x => { x with parent := some curproc }
      let pid := ((← get).table.proc np).pid
      acquire
      assign fun s => s.set np fun x => { x with state := .runnable }
      assign fun s => s.set np fun x => { x with timeslice := slice }
      assign fun s => s.push np
      release
      return pid
    else
      assign fun s => s.set np fun x => { x with state := .unused }
      return -1

/-- `getslice`. The second `acquire` stands where the sibling functions have a `release`. -/
def getslice (pid : Int) : Kernel Int := do
  if pid < 0 then return -1
  acquire
  match ← scan (fun _ p => do
    if ((← get).table.proc p).pid = pid then
      release
      return .inr ((← get).table.proc p).timeslice
    return .inl ()) () slots with
  | .inr timeslice => return timeslice
  | .inl _ =>
    acquire
    return -1

def fork (kalloc copyuvm : Bool) : Kernel Int := do
  let curproc ← myproc
  let slice ← getslice ((← get).table.proc curproc).pid
  fork2 slice kalloc copyuvm

def setslice (pid slice : Int) : Kernel Int := do
  if slice < 1 ∨ pid < 0 then return -1
  acquire
  match ← scan (fun _ p => do
    if ((← get).table.proc p).pid = pid then
      assign fun s => s.set p fun x => { x with timeslice := slice }
      release
      return .inr 0
    return .inl ()) () slots with
  | .inr value => return value
  | .inl _ =>
    release
    return -1

def kill (pid : Int) : Kernel Int := do
  acquire
  match ← scan (fun _ p => do
    if ((← get).table.proc p).pid = pid then
      assign fun s => s.set p fun x => { x with killed := true }
      if ((← get).table.proc p).state = .sleeping then
        assign fun s => s.set p fun x => { x with state := .runnable }
      release
      return .inr 0
    return .inl ()) () slots with
  | .inr value => return value
  | .inl _ =>
    release
    return -1

def wakeup (chan : Chan) : Kernel Unit := do
  acquire
  assign fun s => s.wakeup1 (some chan)
  release

/-- The body of the scan of `wait` for one slot; the loop variable is `havekids`. -/
def waitScan (curproc : Slot) (havekids : Bool) (p : Slot) : Kernel (Bool ⊕ Int) := do
  if ((← get).table.proc p).parent ≠ some curproc then return .inl havekids
  if ((← get).table.proc p).state = .zombie then
    let pid := ((← get).table.proc p).pid
    assign fun s => s.set p fun x =>
      { x with pid := 0, parent := none, killed := false, state := .unused }
    release
    return .inr pid
  return .inl true

/-- The loop of `wait`. An iteration that does not return ends in `sleep`, which uses up one of
the tables of the others, so their number and one more is enough fuel. -/
def waitFrom (curproc : Slot) : Nat → Kernel Int
  | 0 => throw .waiting
  | fuel + 1 => do
    match ← scan (waitScan curproc) false slots with
    | .inr pid => return pid
    | .inl havekids =>
      if !havekids || ((← get).table.proc curproc).killed then
        release
        return -1
      sleep (.proc curproc)
      waitFrom curproc fuel

def wait : Kernel Int := do
  let curproc ← myproc
  acquire
  waitFrom curproc ((← get).others.length + 1)

/-- One entry of `struct pstat`. -/
structure Pstat where
  inuse : Bool
  pid : Int
  timeslice : Int
  compticks : Nat
  schedticks : Nat
  sleepticks : Nat
  switches : Nat

/-- What `getpinfo` reports of a process. -/
def pstat (x : Proc) : Pstat where
  inuse := x.state ≠ .unused
  pid := x.pid
  timeslice := x.timeslice
  compticks := x.compticks
  schedticks := x.schedticks
  sleepticks := x.sleepticks
  switches := x.switches

/-- `getpinfo`: the value and the entries that it has written; `null` is the test of the
pointer. -/
def getpinfo (null : Bool) : Kernel (Int × List Pstat) := do
  if null then return (-1, [])
  acquire
  let table := (← get).table
  let entries := slots.map fun p => pstat (table.proc p)
  release
  return (0, entries)

end Kernel

end Cs537.Scheduler
