import Cs537.Vm.Holdings
import Cs537.Vm.Process

/-!
# `exec` of p6 with its arguments and results

The system call as its caller sees it: the file is looked up, and when everything is
prepared the process has a new name, starts at the entry of the program, and finds its
arguments on the stack. The strings of the path and the arguments are those that the
kernel reads in the caller's memory; a page fault of such a read is a step of its own.
On the memory this `exec` is the one of the previous modules.
-/

namespace Cs537.Vm

namespace P6

/-- What `namei` finds: the program file and the address where it is entered. -/
structure Program where
  image : Image
  entry : Nat

/-- The calling process: its memory, the two registers of the trap frame that `exec`
assigns, and its name. -/
structure Caller where
  proc : Proc
  eip : Nat
  esp : Nat
  name : List (BitVec 8)

/-- The loop of `exec` over the path: what follows the last slash. -/
def lastElement : List (BitVec 8) → List (BitVec 8) → List (BitVec 8)
  | [], last => last
  | c :: s, last => lastElement s (if c = 0x2f then s else last)

/-- `safestrcpy` to an array of `n` bytes, of which the last one is the NUL. -/
def safestrcpy (t : List (BitVec 8)) (n : Nat) : List (BitVec 8) := t.take (n - 1)

/-- The stack of `exec`. It returns the size and the stack pointer, or none after a
jump to `bad`. -/
def initialStack (argv : List (List (BitVec 8))) (sz : Nat) (pd : PgDir) (km : Kmem) :
    Result (Option (Nat × Nat) × PgDir × Kmem) := do
  let sz := PGROUNDUP sz
  let (sz, pd, km) ← allocuvm .p6 pd sz (word (sz + 2 * PGSIZE)) km
  if sz = 0 then return (none, pd, km)
  else do
    let pd ← clearpteu pd (sz - 2 * PGSIZE)
    let (pushed, km) ← pushArgs .p6 pd argv sz [] km
    match pushed with
    | none => return (none, pd, km)
    | some (sp, args) => do
      let argc := args.length
      let ustack := [0xffffffff, argc, word (sp + 2 ^ 32 - (argc + 1) * 4)] ++ args ++ [0]
      let sp := word (sp + 2 ^ 32 - (3 + argc + 1) * 4)
      let (copied, km) ← copyout .p6 pd (4 * ustack.length + 1) sp (ustack.flatMap wordBytes) km
      if copied then return (some (sz, sp), pd, km) else return (none, pd, km)

/-- `exec` up to its commitment: the new page table with its size and the stack pointer,
or none after a jump to `bad`, where the page table is freed. -/
def prepare (image : Image) (argv : List (List (BitVec 8))) (km : Kmem) :
    Result (Option (Nat × Nat × PgDir) × Kmem) :=
  if !image.valid then .ok (none, km)
  else do
    let (pd, km) ← setupkvm .p6 km
    match pd with
    | none => return (none, km)
    | some pd => do
      let (sz, pd, km) ← loadSegments .p6 image.segments 0 pd km
      match sz with
      | none => do
        let km ← freevm pd km
        return (none, km)
      | some sz => do
        let (stack, pd, km) ← initialStack argv sz pd km
        match stack with
        | none => do
          let km ← freevm pd km
          return (none, km)
        | some (sz, sp) => return (some (sz, sp, pd), km)

/-- `exec`. The last `return -1` of the source, in the loop that encrypts the pages, leaves a
process that has been committed to the new image. -/
def Caller.exec (c : Caller) (namei : List (BitVec 8) → Option Program) (path : List (BitVec 8))
    (argv : List (List (BitVec 8))) (km : Kmem) : Result (Int × Caller × Kmem) :=
  match namei path with
  | none => .ok (-1, c, km)
  | some program => do
    let (made, km) ← prepare program.image argv km
    match made with
    | none => return (-1, c, km)
    | some (sz, sp, pd) => do
      let (encrypted, p, km) ← commit c.proc sz pd km
      return (if encrypted then 0 else -1, ⟨p, program.entry, sp, safestrcpy (lastElement path path) 16⟩, km)

/-! ## The memory -/

theorem map_bind {α β γ : Type} (first : Result α) (next : α → Result β) (change : β → γ) :
    (first >>= next).map change = first >>= fun value => (next value).map change := by
  cases first <;> rfl

/-- The stack pointer is all that `initialStack` adds. -/
theorem buildStack_eq (argv : List (List (BitVec 8))) (sz : Nat) (pd : PgDir) (km : Kmem) :
    buildStack .p6 argv sz pd km =
      (initialStack argv sz pd km).map fun made => (made.1.map Prod.fst, made.2) := by
  unfold buildStack initialStack
  simp only [map_bind]
  refine bind_congr fun grown => ?_
  obtain ⟨size, pages, between⟩ := grown
  dsimp only
  split
  · rfl
  · simp only [map_bind]
    refine bind_congr fun guarded => bind_congr fun made => ?_
    obtain ⟨pushed, later⟩ := made
    cases pushed with
    | none => rfl
    | some arguments =>
      simp only [map_bind]
      refine bind_congr fun made => ?_
      obtain ⟨copied, last⟩ := made
      cases copied <;> rfl

/-- On the memory this is `exec` of the previous modules. -/
theorem Caller.exec_proc {namei : List (BitVec 8) → Option Program} {path : List (BitVec 8)} {program : Program}
    (found : namei path = some program) (c : Caller) (argv : List (List (BitVec 8))) (km : Kmem) :
    (c.exec namei path argv km).map (fun made => (decide (made.1 = 0), made.2.1.proc, made.2.2)) =
      P6.exec c.proc program.image argv km := by
  unfold Caller.exec P6.exec execWith prepare
  rw [found]
  simp only
  split
  · rfl
  · simp only [map_bind, bind_assoc, buildStack_eq]
    refine bind_congr fun made => ?_
    obtain ⟨blank, first⟩ := made
    cases blank with
    | none => rfl
    | some blank =>
      simp only [bind_assoc]
      refine bind_congr fun made => ?_
      obtain ⟨size, loaded, second⟩ := made
      cases size with
      | none =>
        simp only [bind_assoc]
        exact bind_congr fun last => rfl
      | some size =>
        simp only [bind_assoc]
        cases stacked : initialStack argv size loaded second with
        | error halt => rfl
        | ok made =>
          obtain ⟨stack, final, third⟩ := made
          cases stack with
          | none =>
            change (freevm final third >>= _) >>= _ = freevm final third >>= _
            rw [bind_assoc]
            exact bind_congr fun last => rfl
          | some stack =>
            change (commit c.proc stack.1 final third >>= _).map _ = commit c.proc stack.1 final third
            rw [map_bind]
            refine (bind_congr fun made => ?_).trans (bind_pure _)
            obtain ⟨encrypted, p, last⟩ := made
            cases encrypted <;> rfl

end P6

end Cs537.Vm
