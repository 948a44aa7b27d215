import Cs537.Library.Counters
import Cs537.Library.Runs
import Mathlib.Data.List.Count
import Mathlib.Tactic.ByContra

/-!
# Pipes

A pipe is a buffer of PIPESIZE bytes with two free-running counters, shared by the
processes that hold a descriptor of one of its two files. A call runs under the
lock of the pipe up to where it returns or sleeps; between two such segments any
other process may run. A writer that finds the pipe full wakes the readers and
sleeps on `nwrite`, a reader that finds it empty sleeps on `nread`.

The routines are the same in all copies of the kernel. The descriptors are those
of the two files that pipealloc makes: a file is closed when its last descriptor
is, and a process that is inside a call holds its descriptor until the call
returns.
-/

namespace Cs537.Pipes

open Cs537.Counters

def PIPESIZE : Nat := 512

instance : NeZero PIPESIZE := ⟨by decide⟩

/-- The counters are unsigned words of 32 bits. -/
instance : Buffer.Divides 32 PIPESIZE := ⟨by decide, by decide⟩

abbrev Byte := BitVec 8

/-- `nread` is the count of bytes taken, `nwrite` the count of bytes stored. -/
structure Pipe where
  buffer : Buffer Byte 32 PIPESIZE
  readopen : Bool
  writeopen : Bool

/-- The pipe that pipealloc initialises. -/
def pipealloc (data : Fin PIPESIZE → Byte) : Pipe := ⟨⟨data, 0, 0⟩, true, true⟩

/-- How a segment of pipewrite ends: it has stored all bytes, it gives up, or it sleeps on `nwrite`
with the bytes that are left. -/
inductive Writing where
  | finished
  | gaveUp
  | sleeps (rest : List Byte)

/-- The loop of pipewrite, from where the process has the lock. -/
def pipewrite (p : Pipe) (killed : Bool) : List Byte → Pipe × Writing
  | [] => (p, .finished)
  | byte :: rest =>
      if p.buffer.isFull then
        if p.readopen = false ∨ killed then (p, .gaveUp) else (p, .sleeps (byte :: rest))
      else pipewrite { p with buffer := p.buffer.put byte } killed rest

/-- The copying loop of piperead: what it takes, and the buffer that is left. -/
def copyOut (b : Buffer Byte 32 PIPESIZE) : Nat → List Byte × Buffer Byte 32 PIPESIZE
  | 0 => ([], b)
  | n + 1 =>
      if b.isEmpty then ([], b)
      else
        let later := copyOut b.drop n
        (b.first :: later.1, later.2)

/-- How a segment of piperead ends. -/
inductive Reading where
  | took (bytes : List Byte)
  | gaveUp
  | sleeps

def piperead (p : Pipe) (killed : Bool) (n : Nat) : Pipe × Reading :=
  if p.buffer.isEmpty ∧ p.writeopen then
    if killed then (p, .gaveUp) else (p, .sleeps)
  else
    let copied := copyOut p.buffer n
    ({ p with buffer := copied.2 }, .took copied.1)

/-- The two ends of a pipe. -/
inductive End where
  | read
  | write
  deriving DecidableEq

def End.other : End → End
  | .read => .write
  | .write => .read

/-- pipeclose, before it wakes the other side; the pipe is freed when both ends are closed. -/
def pipeclose (p : Pipe) : End → Pipe
  | .write => { p with writeopen := false }
  | .read => { p with readopen := false }

/-- A call that has slept: what is left of a write and its return value, or the size of a read. -/
inductive Call where
  | writing (rest : List Byte) (n : Nat)
  | reading (n : Nat)
  deriving DecidableEq

/-- Where a process is: outside the pipe, asleep in a call, or awake again. -/
inductive Phase where
  | outside
  | asleep (call : Call)
  | awake (call : Call)
  deriving DecidableEq

/-- The end that a call is made on. -/
def Call.side : Call → End
  | .writing _ _ => .write
  | .reading _ => .read

/-- wakeup on the channel of one end: `nread` for the readers and `nwrite` for the writers. -/
def Phase.wakeup (side : End) : Phase → Phase
  | .asleep call => if call.side = side then .awake call else .asleep call
  | phase => phase

/-- kill makes a sleeping process runnable. -/
def Phase.rouse : Phase → Phase
  | .asleep call => .awake call
  | phase => phase

/-- The pipe, the descriptors of its ends by their owners, and the processes. `freed` counts the
calls of kfree, `returned` is the last return of a call, and `stored` and `taken` are all bytes that
have gone through the buffer. -/
structure System where
  pipe : Pipe
  freed : Nat
  holders : End → List Nat
  phase : Nat → Phase
  killed : Nat → Bool
  returned : Option (Nat × Int)
  stored : List Byte
  taken : List Byte

namespace System

def wakeup (s : System) (side : End) : System := { s with phase := fun pid => (s.phase pid).wakeup side }

def enter (s : System) (pid : Nat) (phase : Phase) : System :=
  { s with phase := Function.update s.phase pid phase }

def return' (s : System) (pid : Nat) (value : Int) : System :=
  { s.enter pid .outside with returned := some (pid, value) }

/-- A segment of a write of `n` bytes of which the given ones are left. -/
def write (s : System) (pid : Nat) (bytes : List Byte) (n : Nat) : System :=
  match pipewrite s.pipe (s.killed pid) bytes with
  | (p, .finished) =>
      ({ s with pipe := p, stored := s.stored ++ bytes }.wakeup .read).return' pid n
  | (p, .gaveUp) =>
      let put := bytes.take (PIPESIZE - s.pipe.buffer.contents.length)
      { s with pipe := p, stored := s.stored ++ put }.return' pid (-1)
  | (p, .sleeps rest) =>
      let put := bytes.take (PIPESIZE - s.pipe.buffer.contents.length)
      ({ s with pipe := p, stored := s.stored ++ put }.wakeup .read).enter pid (.asleep (.writing rest n))

/-- A segment of a read of up to `n` bytes. -/
def read (s : System) (pid : Nat) (n : Nat) : System :=
  match piperead s.pipe (s.killed pid) n with
  | (p, .took bytes) =>
      ({ s with pipe := p, taken := s.taken ++ bytes }.wakeup .write).return' pid bytes.length
  | (_, .gaveUp) => s.return' pid (-1)
  | (_, .sleeps) => s.enter pid (.asleep (.reading n))

/-- fileclose of the last descriptor closes the end and wakes the other side. -/
def close (s : System) (pid : Nat) (side : End) : System :=
  let left := (s.holders side).erase pid
  let s := { s with holders := Function.update s.holders side left }
  if left = [] then
    let p := pipeclose s.pipe side
    let s := { s with pipe := p }.wakeup side.other
    if p.readopen = false ∧ p.writeopen = false then { s with freed := s.freed + 1 } else s
  else s

end System

/-- What a process can do with the pipe. -/
inductive Action where
  | write (pid : Nat) (bytes : List Byte)
  | read (pid : Nat) (n : Nat)
  | resume (pid : Nat)
  | kill (pid : Nat)
  | dup (pid child : Nat) (side : End)
  | close (pid : Nat) (side : End)

def Phase.isOutside : Phase → Bool
  | .outside => true
  | _ => false

def step (s : System) : Action → Option System
  | .write pid bytes =>
      if pid ∈ s.holders .write ∧ (s.phase pid).isOutside then some (s.write pid bytes bytes.length)
      else none
  | .read pid n =>
      if pid ∈ s.holders .read ∧ (s.phase pid).isOutside then some (s.read pid n) else none
  | .resume pid =>
      match s.phase pid with
      | .awake (.writing rest n) => some (s.write pid rest n)
      | .awake (.reading n) => some (s.read pid n)
      | _ => none
  | .kill pid =>
      some { s.enter pid (s.phase pid).rouse with killed := Function.update s.killed pid true }
  | .dup pid child side =>
      if pid ∈ s.holders side ∧ (s.phase pid).isOutside then
        some { s with holders := Function.update s.holders side (child :: s.holders side) }
      else none
  | .close pid side =>
      if pid ∈ s.holders side ∧ (s.phase pid).isOutside then some (s.close pid side) else none

/-- A new pipe whose two descriptors one process holds. -/
def System.new (data : Fin PIPESIZE → Byte) (pid : Nat) : System where
  pipe := pipealloc data
  freed := 0
  holders := fun _ => [pid]
  phase := fun _ => .outside
  killed := fun _ => false
  returned := none
  stored := []
  taken := []

/-! ## The loops -/

/-- What a segment of a write has stored when it ends, and why it ends. -/
def Written (p : Pipe) (killed : Bool) (bytes : List Byte) (after : Pipe) : Writing → Prop
  | .finished => after.buffer.contents = p.buffer.contents ++ bytes ∧
      p.buffer.contents.length + bytes.length ≤ PIPESIZE
  | .gaveUp =>
      after.buffer.contents =
        p.buffer.contents ++ bytes.take (PIPESIZE - p.buffer.contents.length) ∧
      after.buffer.contents.length = PIPESIZE ∧
      PIPESIZE < p.buffer.contents.length + bytes.length ∧ (p.readopen = false ∨ killed = true)
  | .sleeps rest =>
      after.buffer.contents =
        p.buffer.contents ++ bytes.take (PIPESIZE - p.buffer.contents.length) ∧
      after.buffer.contents.length = PIPESIZE ∧
      rest = bytes.drop (PIPESIZE - p.buffer.contents.length) ∧ p.readopen = true ∧ killed = false

/-- The writing loop stores bytes until the pipe is full. -/
theorem pipewrite_written (p : Pipe) (killed : Bool) (bytes : List Byte)
    (within : p.buffer.contents.length ≤ PIPESIZE) :
    (pipewrite p killed bytes).1.readopen = p.readopen ∧
    (pipewrite p killed bytes).1.writeopen = p.writeopen ∧
    Written p killed bytes (pipewrite p killed bytes).1 (pipewrite p killed bytes).2 := by
  induction bytes generalizing p with
  | nil =>
    rw [pipewrite]
    exact ⟨rfl, rfl, (List.append_nil _).symm, by simpa using within⟩
  | cons byte rest inductionHypothesis =>
    rw [pipewrite]
    split
    · next full =>
      have length := (Buffer.isFull_iff _).mp full
      have none : PIPESIZE - p.buffer.contents.length = 0 := by omega
      split
      · next gives =>
        refine ⟨rfl, rfl, ?_, length, ?_, gives⟩
        · rw [none, List.take_zero, List.append_nil]
        · rw [List.length_cons]
          omega
      · next stays =>
        rw [not_or] at stays
        refine ⟨rfl, rfl, ?_, length, ?_, by simpa using stays.1, by simpa using stays.2⟩
        · rw [none, List.take_zero, List.append_nil]
        · rw [none, List.drop_zero]
    · next more =>
      have room : p.buffer.contents.length < PIPESIZE :=
        Nat.lt_of_le_of_ne within fun full => more ((Buffer.isFull_iff _).mpr full)
      have put := Buffer.contents_put room byte
      have length : (p.buffer.put byte).contents.length = p.buffer.contents.length + 1 := by
        rw [put, List.length_append, List.length_singleton]
      have later := inductionHypothesis { p with buffer := p.buffer.put byte } (by
        rw [length]
        exact room)
      obtain ⟨one, two, ends⟩ := later
      refine ⟨one, two, ?_⟩
      have fewer : PIPESIZE - p.buffer.contents.length =
          PIPESIZE - (p.buffer.put byte).contents.length + 1 := by omega
      revert ends
      cases (pipewrite { p with buffer := p.buffer.put byte } killed rest).2 with
      | finished =>
        rintro ⟨contents, fits⟩
        refine ⟨?_, ?_⟩
        · rw [contents, put, List.append_assoc]
          rfl
        · rw [List.length_cons]
          have : (p.buffer.put byte).contents.length + rest.length ≤ PIPESIZE := fits
          omega
      | gaveUp =>
        rintro ⟨contents, full, longer, why⟩
        refine ⟨?_, full, ?_, why⟩
        · rw [fewer, List.take_succ_cons, contents, put, List.append_assoc]
          rfl
        · rw [List.length_cons]
          have : PIPESIZE < (p.buffer.put byte).contents.length + rest.length := longer
          omega
      | sleeps left =>
        rintro ⟨contents, full, behind, why⟩
        refine ⟨?_, full, ?_, why⟩
        · rw [fewer, List.take_succ_cons, contents, put, List.append_assoc]
          rfl
        · rw [fewer, List.drop_succ_cons]
          exact behind

/-- The copying loop takes the first bytes, as many as there are. -/
theorem copyOut_eq (b : Buffer Byte 32 PIPESIZE) (n : Nat) :
    (copyOut b n).1 = b.contents.take n ∧ (copyOut b n).2.contents = b.contents.drop n := by
  induction n generalizing b with
  | zero => exact ⟨rfl, rfl⟩
  | succ n inductionHypothesis =>
    rw [copyOut]
    split
    · next empty =>
      have none := (Buffer.isEmpty_iff b).mp empty
      rw [none, List.take_nil, List.drop_nil]
      exact ⟨rfl, rfl⟩
    · next some =>
      have split := Buffer.contents_drop (b := b) fun none => some ((Buffer.isEmpty_iff b).mpr none)
      obtain ⟨first, last⟩ := inductionHypothesis b.drop
      rw [split, List.take_succ_cons, List.drop_succ_cons]
      exact ⟨congrArg (b.first :: ·) first, last⟩

/-- What a segment of a read has taken when it ends, and why it ends. -/
def Taken (p : Pipe) (killed : Bool) (n : Nat) (after : Pipe) : Reading → Prop
  | .took bytes => bytes = p.buffer.contents.take n ∧
      after.buffer.contents = p.buffer.contents.drop n ∧
      (p.buffer.contents = [] → p.writeopen = false)
  | .gaveUp => p.buffer.contents = [] ∧ killed = true
  | .sleeps => p.buffer.contents = [] ∧ p.writeopen = true ∧ killed = false

theorem piperead_taken (p : Pipe) (killed : Bool) (n : Nat) :
    (piperead p killed n).1.readopen = p.readopen ∧
    (piperead p killed n).1.writeopen = p.writeopen ∧
    Taken p killed n (piperead p killed n).1 (piperead p killed n).2 := by
  unfold piperead
  split
  · next waits =>
    have empty := (Buffer.isEmpty_iff _).mp waits.1
    split
    · next dies => exact ⟨rfl, rfl, empty, dies⟩
    · next lives => exact ⟨rfl, rfl, empty, waits.2, by simpa using lives⟩
  · next reads =>
    obtain ⟨first, last⟩ := copyOut_eq p.buffer n
    refine ⟨rfl, rfl, first, last, fun empty => ?_⟩
    by_contra opened
    exact reads ⟨(Buffer.isEmpty_iff _).mpr empty, by simpa using opened⟩

end Cs537.Pipes
