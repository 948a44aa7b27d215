import Cs537.Vm.Recryption
import Cs537.Vm.Process

/-!
# Processes that share a machine, with and without encryption

The kernel's side: any number of processes, each with its page table, over one
allocator and one memory. An access is one attempt of the processor: it completes on
a page that is present and open to users, and otherwise runs the fault handler, after
which the program may try again. A system call that panics, or that uses a missing
page-table entry, has no result.

The reference's side: each process has a map from pages to bytes and there is no
encryption. Its steps carry the same labels, what was done and what was answered, so
that a load is bound to the byte that it returned.
-/

namespace Cs537.Vm

/-! ## The kernel -/

structure System where
  km : Kmem
  procs : List Proc

/-- What process number `i` does. Only p5 has the system call `mencrypt`. -/
inductive Action where
  | load (i va : Nat)
  | store (i va : Nat) (byte : BitVec 8)
  | mencrypt (i va : Nat) (len : Int)
  | sbrk (i : Nat) (n : Int)
  | fork (i : Nat)
deriving DecidableEq

/-- What the process is answered: the byte of a load, the completion of a store or a
system call, its failure, or a fault. -/
inductive Answer where
  | byte (value : BitVec 8)
  | done
  | failed
  | fault
deriving DecidableEq

/-- The position of an address in its page. -/
def offset (va : Nat) : Fin 4096 := Fin.ofNat 4096 va

/-- The frame that the processor accesses for a user. -/
def translate (pd : PgDir) (va : Nat) : Option Frame :=
  (pd.walk (vpn va)).bind fun x => if x.p && x.u then some x.ppn else none

/-- The fault handler: `trap` calls `decrypt` in p5 and `mdecrypt` in p6. -/
def Version.handleFault : Version → Proc → Nat → Kmem → Result (Bool × Proc × Kmem)
  | .p5 => P5.decrypt
  | .p6 => P6.mdecrypt

def Version.growproc : Version → Proc → Int → Kmem → Result (Bool × Proc × Kmem)
  | .p5 => P5.growproc
  | .p6 => P6.growproc

def Version.exec :
    Version → Proc → Image → List (List (BitVec 8)) → Kmem → Result (Bool × Proc × Kmem)
  | .p5 => P5.exec
  | .p6 => P6.exec

namespace System

/-- The process of a number after a call, with the new state of the allocator. -/
def put (s : System) (i : Nat) (p : Proc) (km : Kmem) : System := ⟨km, s.procs.set i p⟩

/-- One attempt to access an address. A completed access sets the accessed flag; what
it answers and leaves depends on the page. -/
def access (ver : Version) (s : System) (i va : Nat) (complete : Page → Answer × Page) :
    Option (Answer × System) := do
  let p ← s.procs[i]?
  match translate p.pgdir va with
  | some f =>
    let (answer, page) := complete (s.km.mem f)
    let pd := p.pgdir.set (vpn va) { p.pgdir.pte (vpn va) with a := true }
    return (answer, s.put i { p with pgdir := pd } (s.km.write f page))
  | none =>
    let (_, p, km) ← (ver.handleFault p va s.km).toOption
    return (.fault, s.put i p km)

/-- A system call that changes its process only. -/
def call (s : System) (i : Nat) (function : Proc → Kmem → Result (Bool × Proc × Kmem)) :
    Option (Answer × System) := do
  let p ← s.procs[i]?
  let (succeeded, p, km) ← (function p s.km).toOption
  return (if succeeded then .done else .failed, s.put i p km)

/-- Perform an action. -/
def step (ver : Version) (s : System) : Action → Option (Answer × System)
  | .load i va => s.access ver i va fun page => (.byte (page (offset va)), page)
  | .store i va byte => s.access ver i va fun page => (.done, Function.update page (offset va) byte)
  | .mencrypt i va len =>
    match ver with
    | .p5 => s.call i fun p km => P5.mencrypt p va len km
    | .p6 => none
  | .sbrk i n => s.call i fun p km => ver.growproc p n km
  | .fork i => do
    let p ← s.procs[i]?
    let (child, km) ← (fork ver p s.km).toOption
    match child with
    | none => return (.failed, ⟨km, s.procs⟩)
    | some child => return (.done, ⟨km, s.procs ++ [child]⟩)

/-- Accesses are at user pages: mapped, in clear or encrypted, and open to users. -/
def Permits (s : System) : Action → Prop
  | .load i va | .store i va _ => ∀ p ∈ s.procs[i]?, p.pgdir.opens (vpn va)
  | _ => True

instance (s : System) (action : Action) : Decidable (s.Permits action) :=
  match action with
  | .load i _ | .store i _ _ => inferInstanceAs (Decidable (∀ p ∈ s.procs[i]?, _))
  | .mencrypt _ _ _ | .sbrk _ _ | .fork _ => isTrue trivial

/-- A step, labelled with the action and its answer. -/
def Step (ver : Version) (s : System) (label : Action × Answer) (t : System) : Prop :=
  s.Permits label.1 ∧ s.step ver label.1 = some (label.2, t)

/-- Perform actions one after the other, as far as they are permitted, and collect the
labels. -/
def perform (ver : Version) (s : System) : List Action → Option (List (Action × Answer) × System)
  | [] => some ([], s)
  | action :: rest =>
    if s.Permits action then do
      let (answer, t) ← s.step ver action
      let (labels, last) ← perform ver t rest
      return ((action, answer) :: labels, last)
    else none

end System

/-! ## The reference -/

/-- The memory of a process without encryption: the bytes of each mapped page. -/
abbrev Memory := Vpn → Option Page

namespace Memory

/-- The pages that begin in a range become new pages. -/
def fill (m : Memory) (lo hi : Nat) : Memory :=
  fun v => if lo ≤ v.addr ∧ v.addr < hi then some (fun _ => 0) else m v

/-- The pages that begin in a range disappear. -/
def drop (m : Memory) (lo hi : Nat) : Memory :=
  fun v => if lo ≤ v.addr ∧ v.addr < hi then none else m v

/-- Change one byte of a page. -/
def store (m : Memory) (va : Nat) (page : Page) (byte : BitVec 8) : Memory :=
  Function.update m (vpn va) (some (Function.update page (offset va) byte))

end Memory

/-- The reference semantics. A load returns the byte of the process's own memory, a
store changes one byte of it, and `mencrypt` does nothing. `sbrk` concerns the pages
that begin in a range of at most `n` bytes: all of them are new and zero, or all of
them are gone, or nothing changes. `fork` copies the memory. -/
inductive Reference.Step : List Memory → Action × Answer → List Memory → Prop where
  | load {r : List Memory} {i va : Nat} {m : Memory} {page : Page} (present : r[i]? = some m)
      (mapped : m (vpn va) = some page) : Step r (.load i va, .byte (page (offset va))) r
  | loadFault {r : List Memory} {i va : Nat} : Step r (.load i va, .fault) r
  | store {r : List Memory} {i va : Nat} {m : Memory} {page : Page} {byte : BitVec 8}
      (present : r[i]? = some m) (mapped : m (vpn va) = some page) :
      Step r (.store i va byte, .done) (r.set i (m.store va page byte))
  | storeFault {r : List Memory} {i va : Nat} {byte : BitVec 8} : Step r (.store i va byte, .fault) r
  | mencrypt {r : List Memory} {i va : Nat} {len : Int} {answer : Answer} :
      Step r (.mencrypt i va len, answer) r
  | sbrkKept {r : List Memory} {i : Nat} {n : Int} {answer : Answer} : Step r (.sbrk i n, answer) r
  | sbrkFilled {r : List Memory} {i lo hi : Nat} {n : Int} {m : Memory} {answer : Answer}
      (present : r[i]? = some m) (growing : 0 < n) (length : hi ≤ lo + n.natAbs) :
      Step r (.sbrk i n, answer) (r.set i (m.fill lo hi))
  | sbrkRemoved {r : List Memory} {i lo hi : Nat} {n : Int} {m : Memory} {answer : Answer}
      (present : r[i]? = some m) (length : hi ≤ lo + n.natAbs) :
      Step r (.sbrk i n, answer) (r.set i (m.drop lo hi))
  | fork {r : List Memory} {i : Nat} {m : Memory} (present : r[i]? = some m) :
      Step r (.fork i, .done) (r ++ [m])
  | forkFailed {r : List Memory} {i : Nat} : Step r (.fork i, .failed) r

/-- The memory of a process as it reads through its page table. -/
def PgDir.memory (pd : PgDir) (km : Kmem) : Memory :=
  fun v => if v.user ∧ (pd.pte v).mapped = true then some (pd.content km v) else none

/-- The memory of a process is part of a reference memory: each mapped page has the
bytes of the reference. -/
def PgDir.Shows (pd : PgDir) (km : Kmem) (m : Memory) : Prop :=
  ∀ v : Vpn, v.user → (pd.pte v).mapped = true → m v = some (pd.content km v)

/-- Each process shows its reference memory. -/
def System.Agrees (s : System) (r : List Memory) : Prop :=
  s.procs.length = r.length ∧
    ∀ (i : Nat) (p : Proc) (m : Memory), s.procs[i]? = some p → r[i]? = some m → p.pgdir.Shows s.km m

end Cs537.Vm
