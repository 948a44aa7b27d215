import Cs537.Vm.PageTable

/-!
# Encrypted pages of p5 and p6 and the working set of p6

Encrypting a page complements its bytes and turns its entry from present to
encrypted; decrypting does the reverse. p5 reaches the bytes through the kernel's
own mapping of the frame. p6 reaches them through the user address, so that the
processor sets the accessed flag, and keeps the decrypted pages of a process in a
clock queue.

The functions return `false` where the source returns -1.
-/

namespace Cs537.Vm

/-- The part of `struct proc` that memory management uses. p5 has no clock queue.
An empty slot of the queue is the address -1; the hand is -1, here `none`, while
nothing has been inserted. -/
structure Proc where
  pgdir : PgDir
  sz : Nat
  kstack : Frame
  clockqueue : Fin 8 → Nat
  clockhand : Option (Fin 8)

/-- The address -1 that marks an empty slot. -/
def NOPAGE : Nat := 0xFFFFFFFF

/-- Complement the bytes of a frame. -/
def Kmem.complement (km : Kmem) (f : Frame) : Kmem := km.write f (km.mem f).flip

/-! ## p5 -/

namespace P5

/-- The checking loop of `mencrypt`. -/
def checkPages (pd : PgDir) (addr : Nat) : Nat → Nat → Result Bool
  | 0, _ => .ok true
  | left + 1, i => do
    match ← uva2ka .p5 pd (word (addr + i * PGSIZE)) with
    | none => return false
    | some _ => checkPages pd addr left (i + 1)

/-- The encrypting loop of `mencrypt`. -/
def encryptPages (addr : Nat) : Nat → Nat → PgDir → Kmem → Result (PgDir × Kmem)
  | 0, _, pd, km => .ok (pd, km)
  | left + 1, i, pd, km =>
    let v := vpn (word (addr + i * PGSIZE))
    match pd.walk v with
    | none => .error .nullEntry
    | some x =>
      if x.e then encryptPages addr left (i + 1) pd km
      else do
        match ← uva2ka .p5 pd (word (addr + i * PGSIZE)) with
        | none => .error .nullEntry
        | some f =>
          encryptPages addr left (i + 1) (pd.set v { x with e := true, p := false }) (km.complement f)

/-- `mencrypt`. The product with the page size is a C int that is compared as an
unsigned word. -/
def mencrypt (p : Proc) (va : Nat) (len : Int) (km : Kmem) : Result (Bool × Proc × Kmem) :=
  let addr := PGROUNDDOWN va
  if len < 0 ∨ word (len.toNat * PGSIZE) > p.sz then .ok (false, p, km)
  else do
    if ← checkPages p.pgdir addr len.toNat 0 then
      let (pd, km) ← encryptPages addr len.toNat 0 p.pgdir km
      return (true, { p with pgdir := pd }, km)
    else return (false, p, km)

/-- `decrypt`. A page that is encrypted but not a user page has no frame to write
to: the kernel would write through a null pointer. -/
def decrypt (p : Proc) (uva : Nat) (km : Kmem) : Result (Bool × Proc × Kmem) :=
  match p.pgdir.walk (vpn uva) with
  | none => .error .nullEntry
  | some x =>
    if x.e then do
      match ← uva2ka .p5 p.pgdir (PGROUNDDOWN uva) with
      | none => .error .nullEntry
      | some f =>
        let pd := p.pgdir.set (vpn uva) { x with p := true, e := false }
        return (true, { p with pgdir := pd }, km.complement f)
    else .ok (false, p, km)

end P5

/-! ## p6 -/

namespace P6

/-- The checking loop of `mencrypt`. -/
def checkPages (pd : PgDir) : Nat → Nat → Result Bool
  | 0, _ => .ok true
  | left + 1, slider => do
    match ← uva2ka .p6 pd slider with
    | none => return false
    | some _ => checkPages pd left (word (slider + PGSIZE))

/-- The encrypting loop of `mencrypt`. The bytes are complemented through the user
address, which is present; the accessed flag that this sets is cleared at once. -/
def encryptPages : Nat → Nat → PgDir → Kmem → Result (PgDir × Kmem)
  | 0, _, pd, km => .ok (pd, km)
  | left + 1, slider, pd, km =>
    match pd.walk (vpn slider) with
    | none => .error .nullEntry
    | some x =>
      if x.e then encryptPages left (word (slider + PGSIZE)) pd km
      else
        encryptPages left (word (slider + PGSIZE))
          (pd.set (vpn slider) { x with p := false, e := true, a := false }) (km.complement x.ppn)

/-- `mencrypt`. -/
def mencrypt (pd : PgDir) (va : Nat) (len : Int) (km : Kmem) : Result (Bool × PgDir × Kmem) := do
  let slider := PGROUNDDOWN va
  if ← checkPages pd len.toNat slider then
    let (pd, km) ← encryptPages len.toNat slider pd km
    return (true, pd, km)
  else return (false, pd, km)

instance slots_neZero : NeZero 8 := ⟨by decide⟩

/-- The next position of the clock hand. -/
def nextHand : Option (Fin 8) → Fin 8
  | none => 0
  | some hand => hand + 1

/-- The loop of `wsetinsert`. Each turn moves the hand, and either inserts the page
or clears one accessed flag. -/
def wsetinsertFrom (va : Nat) : Nat → Proc → Kmem → Result (Bool × Proc × Kmem)
  | 0, _, _ => .error .spin
  | fuel + 1, p, km =>
    let hand := nextHand p.clockhand
    let p := { p with clockhand := some hand }
    let old := p.clockqueue hand
    if old = NOPAGE then
      .ok (true, { p with clockqueue := Function.update p.clockqueue hand va }, km)
    else
      match p.pgdir.walk (vpn old) with
      | none => .error .nullEntry
      | some x =>
        if !x.a then do
          let (encrypted, pd, km) ← mencrypt p.pgdir old 1 km
          let p := { p with pgdir := pd }
          if encrypted then
            return (true, { p with clockqueue := Function.update p.clockqueue hand va }, km)
          else return (false, p, km)
        else
          wsetinsertFrom va fuel { p with pgdir := p.pgdir.set (vpn old) { x with a := false } } km

/-- `wsetinsert`. The hand passes each slot once before it finds a page that was
not accessed since, so that nine turns are enough. -/
def wsetinsert (va : Nat) (p : Proc) (km : Kmem) : Result (Bool × Proc × Kmem) :=
  wsetinsertFrom va 9 p km

/-- `mdecrypt`. The entry is turned before the bytes are complemented through the
user address, which sets the accessed flag. -/
def mdecrypt (p : Proc) (va : Nat) (km : Kmem) : Result (Bool × Proc × Kmem) :=
  if va ≥ KERNBASE then .ok (false, p, km)
  else
    match p.pgdir.walk (vpn va) with
    | none => .ok (false, p, km)
    | some x =>
      if x = {} then .ok (false, p, km)
      else
        let pd := p.pgdir.set (vpn va) { x with e := false, p := true, a := true }
        wsetinsert (PGROUNDDOWN va) { p with pgdir := pd } (km.complement x.ppn)

/-- The slot that `wsetdelete` inspects in its `i`-th turn. With the hand at -1 the
first turn reads the word before the queue, where nothing can be found. -/
def searchSlot : Option (Fin 8) → Nat → Option (Fin 8)
  | some hand, i => some (hand + Fin.ofNat 8 i)
  | none, 0 => none
  | none, i + 1 => some (Fin.ofNat 8 i)

/-- The search of `wsetdelete`: the last matching slot in the order of the turns. -/
def findPage (p : Proc) (va : Nat) : Option (Fin 8) :=
  ((List.range 8).filterMap fun i =>
    (searchSlot p.clockhand i).filter fun slot => p.clockqueue slot = va).getLast?

/-- The shifting loop of `wsetdelete`: the entries behind the found one move up to
the tail. -/
def shiftLeft {α : Type} (tail : Fin 8) : Nat → Fin 8 → (Fin 8 → α) → (Fin 8 → α)
  | 0, _, queue => queue
  | fuel + 1, i, queue =>
    if i = tail then queue
    else shiftLeft tail fuel (i + 1) (Function.update queue i (queue (i + 1)))

/-- `wsetdelete`. With the hand at -1 the shifting loop would never meet the tail. -/
def wsetdelete (p : Proc) (va : Nat) : Result (Bool × Proc) :=
  match findPage p va, p.clockhand with
  | none, _ => .ok (false, p)
  | some _, none => .error .spin
  | some found, some tail =>
    .ok (true, { p with
      clockqueue := Function.update (shiftLeft tail 8 found p.clockqueue) tail NOPAGE
      clockhand := some (tail - 1) })

/-- `clearwset`. -/
def clearwset (p : Proc) : Proc := { p with clockqueue := fun _ => NOPAGE, clockhand := none }

end P6

end Cs537.Vm
