import Cs537.Vm.Encryption

/-!
# Processes of p5 and p6

The system calls that change the memory of a process: `fork`, `exec` and `growproc`.
A `fork` without a free process slot fails like one whose first `kalloc` is refused.
The program file that `exec` reads is given by its headers and by the data that each
read returns.
-/

namespace Cs537.Vm

/-- The sum of a size and a C int, as an unsigned word. -/
def grown (sz : Nat) (n : Int) : Nat := ((sz + n) % 2 ^ 32).toNat

/-- Wrap to a C int. -/
def int (value : Int) : Int := (value + 2 ^ 31) % 2 ^ 32 - 2 ^ 31

/-- `fork` up to the return of the child: kernel stack, then the copy of the page
table. p6 clears the child's queue first, and copies the parent's queue at the end;
the queue of a failed child is not used. -/
def fork (ver : Version) (p : Proc) (km : Kmem) : Result (Option Proc × Kmem) :=
  match km.kalloc with
  | (none, km) => .ok (none, km)
  | (some kstack, km) => do
    let (d, km) ← copyuvm ver p.pgdir p.sz km
    match d with
    | none => do
      let km ← km.kfree kstack
      return (none, km)
    | some d => return (some { p with pgdir := d, kstack := kstack }, km)

/-! ## `exec` -/

/-- A program header, with the bytes that `readi` gives for each page of the
segment; `none` stands for a short read. -/
structure Segment where
  load : Bool
  vaddr : Nat
  memsz : Nat
  filesz : Nat
  chunk : Nat → Option (Nat → BitVec 8)
  vaddrWord : vaddr < 2 ^ 32
  memszWord : memsz < 2 ^ 32

/-- A program file: whether its header is that of an executable, and its program
headers, of which some may fail to be read. -/
structure Image where
  valid : Bool
  segments : List (Option Segment)

/-- The loop of `loaduvm`. -/
def loaduvmFrom (pd : PgDir) (seg : Segment) : Nat → Nat → Kmem → Result (Bool × Kmem)
  | 0, _, km => .ok (true, km)
  | fuel + 1, i, km =>
    if i < seg.filesz then
      match pd.walk (vpn (word (seg.vaddr + i))) with
      | none => .error (.panic "loaduvm: address should exist")
      | some x =>
        let n := min (seg.filesz - i) PGSIZE
        match seg.chunk (i / PGSIZE) with
        | none => .ok (false, km)
        | some bytes =>
          loaduvmFrom pd seg fuel (i + PGSIZE)
            (km.write x.ppn fun o => if o.val < n then bytes o.val else km.mem x.ppn o)
    else .ok (true, km)

/-- `loaduvm`. -/
def loaduvm (pd : PgDir) (seg : Segment) (km : Kmem) : Result (Bool × Kmem) :=
  if seg.vaddr % PGSIZE ≠ 0 then .error (.panic "loaduvm: addr must be page aligned")
  else loaduvmFrom pd seg (seg.filesz / PGSIZE + 1) 0 km

/-- The loop of `exec` over the program headers. It returns the size, or none after
a jump to `bad`. -/
def loadSegments (ver : Version) : List (Option Segment) → Nat → PgDir → Kmem →
    Result (Option Nat × PgDir × Kmem)
  | [], sz, pd, km => .ok (some sz, pd, km)
  | none :: _, _, pd, km => .ok (none, pd, km)
  | some seg :: rest, sz, pd, km =>
    if !seg.load then loadSegments ver rest sz pd km
    else if seg.memsz < seg.filesz then .ok (none, pd, km)
    else if word (seg.vaddr + seg.memsz) < seg.vaddr then .ok (none, pd, km)
    else do
      let (sz, pd, km) ← allocuvm ver pd sz (word (seg.vaddr + seg.memsz)) km
      if sz = 0 then return (none, pd, km)
      else if seg.vaddr % PGSIZE ≠ 0 then return (none, pd, km)
      else do
        let (loaded, km) ← loaduvm pd seg km
        if loaded then loadSegments ver rest sz pd km else return (none, pd, km)

/-- `copyout`: page by page, through `uva2ka`. -/
def copyout (ver : Version) (pd : PgDir) : Nat → Nat → List (BitVec 8) → Kmem → Result (Bool × Kmem)
  | 0, _, _, km => .ok (true, km)
  | fuel + 1, va, bytes, km =>
    if bytes = [] then .ok (true, km)
    else do
      match ← uva2ka ver pd (PGROUNDDOWN va) with
      | none => return (false, km)
      | some f =>
        let start := va % PGSIZE
        let n := min (PGSIZE - start) bytes.length
        let page : Page := fun o =>
          if start ≤ o.val ∧ o.val < start + n then bytes.getD (o.val - start) 0 else km.mem f o
        copyout ver pd fuel (word (PGROUNDDOWN va + PGSIZE)) (bytes.drop n) (km.write f page)

/-- The bytes of a word. -/
def wordBytes (value : Nat) : List (BitVec 8) :=
  (List.range 4).map fun i => BitVec.ofNat 8 (value / 2 ^ (8 * i))

def MAXARG : Nat := 32

/-- The loop of `exec` over the arguments. It returns the stack pointer and the
pushed addresses, or none after a jump to `bad`. -/
def pushArgs (ver : Version) (pd : PgDir) : List (List (BitVec 8)) → Nat → List Nat → Kmem →
    Result (Option (Nat × List Nat) × Kmem)
  | [], sp, pushed, km => .ok (some (sp, pushed), km)
  | arg :: rest, sp, pushed, km =>
    if pushed.length ≥ MAXARG then .ok (none, km)
    else do
      let sp := word (sp + 2 ^ 32 - (arg.length + 1)) / 4 * 4
      let (copied, km) ← copyout ver pd (arg.length + 2) sp (arg ++ [0]) km
      if copied then pushArgs ver pd rest sp (pushed ++ [sp]) km else return (none, km)

/-- The stack of `exec`: two pages, the lower one inaccessible, the arguments and
the initial frame. It returns the size, or none after a jump to `bad`. -/
def buildStack (ver : Version) (argv : List (List (BitVec 8))) (sz : Nat) (pd : PgDir) (km : Kmem) :
    Result (Option Nat × PgDir × Kmem) := do
  let sz := PGROUNDUP sz
  let (sz, pd, km) ← allocuvm ver pd sz (word (sz + 2 * PGSIZE)) km
  if sz = 0 then return (none, pd, km)
  else do
    let pd ← clearpteu pd (sz - 2 * PGSIZE)
    let (pushed, km) ← pushArgs ver pd argv sz [] km
    match pushed with
    | none => return (none, pd, km)
    | some (sp, args) => do
      let argc := args.length
      let ustack := [0xffffffff, argc, word (sp + 2 ^ 32 - (argc + 1) * 4)] ++ args ++ [0]
      let sp := word (sp + 2 ^ 32 - (3 + argc + 1) * 4)
      let (copied, km) ← copyout ver pd (4 * ustack.length + 1) sp (ustack.flatMap wordBytes) km
      if copied then return (some sz, pd, km) else return (none, pd, km)

/-- `exec` of either kernel; they differ in how they commit to the new image. Every
jump to `bad` frees the new page table and leaves the process as it was. -/
def execWith (ver : Version) (commit : Proc → Nat → PgDir → Kmem → Result (Bool × Proc × Kmem))
    (p : Proc) (image : Image) (argv : List (List (BitVec 8))) (km : Kmem) :
    Result (Bool × Proc × Kmem) :=
  if !image.valid then .ok (false, p, km)
  else do
    let (pd, km) ← setupkvm ver km
    match pd with
    | none => return (false, p, km)
    | some pd => do
      let (sz, pd, km) ← loadSegments ver image.segments 0 pd km
      match sz with
      | none => do
        let km ← freevm pd km
        return (false, p, km)
      | some sz => do
        let (sz, pd, km) ← buildStack ver argv sz pd km
        match sz with
        | none => do
          let km ← freevm pd km
          return (false, p, km)
        | some sz => commit p sz pd km

namespace P6

/-- The loop at the end of `exec` that encrypts the user pages. -/
def encryptImage (sz : Nat) : Nat → Nat → PgDir → Kmem → Result (Bool × PgDir × Kmem)
  | 0, _, pd, km => .ok (true, pd, km)
  | fuel + 1, i, pd, km =>
    if i < sz then
      match pd.walk (vpn i) with
      | none => .error .nullEntry
      | some x =>
        if x.u then do
          let (encrypted, pd, km) ← mencrypt pd i 1 km
          if encrypted then encryptImage sz fuel (i + PGSIZE) pd km else return (false, pd, km)
        else encryptImage sz fuel (i + PGSIZE) pd km
    else .ok (true, pd, km)

/-- `exec` from the commitment to the new image on. -/
def commit (p : Proc) (sz : Nat) (pd : PgDir) (km : Kmem) : Result (Bool × Proc × Kmem) := do
  let new := clearwset { p with pgdir := pd, sz := sz }
  let (encrypted, pd, km) ← encryptImage sz (sz / PGSIZE + 1) 0 new.pgdir km
  let new := { new with pgdir := pd }
  if encrypted then do
    let km ← freevm p.pgdir km
    return (true, new, km)
  else return (false, new, km)

/-- `exec` of p6. -/
def exec : Proc → Image → List (List (BitVec 8)) → Kmem → Result (Bool × Proc × Kmem) :=
  execWith .p6 commit

/-- The loop of `growproc` that removes pages from the queue. -/
def deletePages (sz : Nat) : Nat → Nat → Proc → Result (Bool × Proc)
  | 0, _, p => .ok (true, p)
  | left + 1, i, p => do
    let (deleted, p) ← wsetdelete p (grown sz (-(i * PGSIZE : Int)))
    if deleted then deletePages sz left (i + 1) p else return (false, p)

/-- `growproc` of p6. -/
def growproc (p : Proc) (n : Int) (km : Kmem) : Result (Bool × Proc × Kmem) :=
  if 0 < n then do
    let (sz, pd, km) ← allocuvm .p6 p.pgdir p.sz (grown p.sz n) km
    let p := { p with pgdir := pd }
    if sz = 0 then return (false, p, km)
    else do
      let (encrypted, pd, km) ← mencrypt p.pgdir (grown sz (-n)) (n / PGSIZE) km
      let p := { p with pgdir := pd }
      if encrypted then return (true, { p with sz := sz }, km) else return (false, p, km)
  else if n < 0 then do
    let (sz, pd, km) ← deallocuvm p.pgdir p.sz (grown p.sz n) km
    let p := { p with pgdir := pd }
    if sz = 0 then return (false, p, km)
    else do
      let (deleted, p) ← deletePages sz ((int (-n)).tdiv PGSIZE).toNat 0 p
      if deleted then return (true, { p with sz := sz }, km) else return (false, p, km)
  else .ok (true, p, km)

end P6

namespace P5

/-- `exec` from the commitment to the new image on. -/
def commit (p : Proc) (sz : Nat) (pd : PgDir) (km : Kmem) : Result (Bool × Proc × Kmem) := do
  let km ← freevm p.pgdir km
  return (true, { p with pgdir := pd, sz := sz }, km)

/-- `exec` of p5. -/
def exec : Proc → Image → List (List (BitVec 8)) → Kmem → Result (Bool × Proc × Kmem) :=
  execWith .p5 commit

/-- `growproc` of p5. -/
def growproc (p : Proc) (n : Int) (km : Kmem) : Result (Bool × Proc × Kmem) :=
  if 0 < n then do
    let (sz, pd, km) ← allocuvm .p5 p.pgdir p.sz (grown p.sz n) km
    let p := { p with pgdir := pd }
    if sz = 0 then return (false, p, km) else return (true, { p with sz := sz }, km)
  else if n < 0 then do
    let (sz, pd, km) ← deallocuvm p.pgdir p.sz (grown p.sz n) km
    let p := { p with pgdir := pd }
    if sz = 0 then return (false, p, km) else return (true, { p with sz := sz }, km)
  else .ok (true, p, km)

end P5

end Cs537.Vm
