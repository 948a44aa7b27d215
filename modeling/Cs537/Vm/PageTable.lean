import Mathlib

/-!
# Page tables and the page allocator of p5 and p6

A page table is kept as a tree: the frame of its root, the frames of its
page-table pages, and the entry of each virtual page. A page-table entry has the
fields that the code reads or writes; physical memory holds the bytes of data
pages. That no frame serves two of these purposes at once is not built in: it is
proved later, from the free list and the tree.

Each function takes the page table and the allocator and returns their new
values. A panic has no result, and neither has the use of a missing page-table
entry, for which C gives no meaning. `kalloc` may refuse any call: the list of
refusals stands for the rest of the machine. The two kernels differ in how
`mappages` enters an encrypted page; everything else here is shared.
-/

namespace Cs537.Vm

def PGSIZE : Nat := 4096

def KERNBASE : Nat := 0x80000000

def EXTMEM : Nat := 0x100000

def PHYSTOP : Nat := 0xE000000

def DEVSPACE : Nat := 0xFE000000

def KERNLINK : Nat := KERNBASE + EXTMEM

/-- Wrap to an unsigned word. -/
def word (value : Nat) : Nat := value % 2 ^ 32

def PGROUNDUP (size : Nat) : Nat := word (size + PGSIZE - 1) / PGSIZE * PGSIZE

def PGROUNDDOWN (address : Nat) : Nat := address / PGSIZE * PGSIZE

/-- A physical page. -/
abbrev Frame := Nat

/-- A virtual page: the upper twenty bits of an address. -/
abbrev Vpn := Fin 1048576

instance pages_neZero : NeZero 1048576 := ⟨by decide⟩

instance tables_neZero : NeZero 1024 := ⟨by decide⟩

/-- The page of an address. -/
def vpn (address : Nat) : Vpn := Fin.ofNat 1048576 (address / PGSIZE)

/-- The page directory index of a page. -/
def Vpn.pdx (v : Vpn) : Fin 1024 := ⟨v.val / 1024, by omega⟩

/-- Pages below `KERNBASE`. -/
def Vpn.user (v : Vpn) : Prop := v.val < 524288

instance (v : Vpn) : Decidable v.user := inferInstanceAs (Decidable (_ < _))

/-- The bytes of a page. -/
abbrev Page := Fin 4096 → BitVec 8

/-- Every byte of a page complemented. -/
def Page.flip (page : Page) : Page := fun offset => ~~~ page offset

/-- The low bits of an entry: present, writable, user, accessed, encrypted. -/
structure Flags where
  p : Bool := false
  w : Bool := false
  u : Bool := false
  a : Bool := false
  e : Bool := false
deriving DecidableEq, Repr

/-- A page-table entry. -/
structure Pte extends Flags where
  ppn : Frame := 0
deriving DecidableEq, Repr

/-- The entry maps a page, in clear or encrypted. -/
def Pte.mapped (x : Pte) : Bool := x.p || x.e

structure PgDir where
  root : Frame
  tables : Fin 1024 → Option Frame
  pte : Vpn → Pte

namespace PgDir

/-- Assign an entry. -/
def set (pd : PgDir) (v : Vpn) (x : Pte) : PgDir := { pd with pte := Function.update pd.pte v x }

/-- Install a zeroed page-table page. -/
def addTable (pd : PgDir) (i : Fin 1024) (f : Frame) : PgDir :=
  { pd with
    tables := Function.update pd.tables i (some f)
    pte := fun v => if v.pdx = i then {} else pd.pte v }

/-- `walkpgdir` without allocation, and the entry it points to. -/
def walk (pd : PgDir) (v : Vpn) : Option Pte := (pd.tables v.pdx).map fun _ => pd.pte v

end PgDir

/-- The addresses that the linker assigns: the start of kernel data and the end
of the kernel. -/
structure Layout where
  data : Nat
  kend : Nat
  above : KERNLINK < data
  ordered : data ≤ kend
  below : kend < KERNBASE + PHYSTOP

/-- A kernel with one page of text and one of data. -/
def Layout.small : Layout := ⟨KERNLINK + 0x1000, KERNLINK + 0x2000, by decide, by decide, by decide⟩

/-- The allocator and physical memory. `refusals` are the answers of the rest of
the machine to coming calls of `kalloc`. `doubled` is not in the kernel: it
records whether a frame was ever freed while it was on the free list. -/
structure Kmem where
  freelist : List Frame
  mem : Frame → Page
  refusals : List Bool
  layout : Layout
  doubled : Bool

/-- Why a kernel function does not return. -/
inductive Halt where
  | panic (message : String)
  | nullEntry
  | spin
deriving DecidableEq, Repr

abbrev Result := Except Halt

namespace Kmem

/-- `memset` of a whole page. -/
def fill (km : Kmem) (f : Frame) (byte : BitVec 8) : Kmem :=
  { km with mem := Function.update km.mem f fun _ => byte }

/-- Overwrite a page. -/
def write (km : Kmem) (f : Frame) (page : Page) : Kmem :=
  { km with mem := Function.update km.mem f page }

/-- `kalloc`: the first free frame, unless the call is refused. -/
def kalloc (km : Kmem) : Option Frame × Kmem :=
  match km.refusals.head?, km.freelist with
  | some true, _ => (none, { km with refusals := km.refusals.tail })
  | _, [] => (none, { km with refusals := km.refusals.tail })
  | _, f :: rest => (some f, { km with freelist := rest, refusals := km.refusals.tail })

/-- The frames that `kfree` takes: above the kernel and below the end of memory. -/
def accepts (km : Kmem) (f : Frame) : Bool :=
  decide (¬ (KERNBASE + f * PGSIZE < km.layout.kend ∨ PHYSTOP ≤ f * PGSIZE))

/-- `kfree`: junk the page and put it on the free list. -/
def kfree (f : Frame) (km : Kmem) : Result Kmem :=
  if !km.accepts f then .error (.panic "kfree")
  else .ok { km.fill f 1 with
    freelist := f :: km.freelist
    doubled := km.doubled || km.freelist.contains f }

end Kmem

/-- Which of the two kernels. -/
inductive Version where
  | p5 | p6
deriving DecidableEq

/-- The entry that `mappages` writes. p6 makes sure that an encrypted page is not
present; p5 takes the flags as they are. -/
def Version.entry : Version → Frame → Flags → Pte
  | .p5, ppn, perm =>
    if perm.e then { toFlags := { perm with e := true }, ppn := ppn }
    else { toFlags := { perm with p := true }, ppn := ppn }
  | .p6, ppn, perm =>
    if perm.e then { toFlags := { perm with e := true, p := false }, ppn := ppn }
    else { toFlags := { perm with p := true }, ppn := ppn }

/-- `walkpgdir` with allocation: the page table with a page-table page for `v`. -/
def walkpgdir (pd : PgDir) (v : Vpn) (km : Kmem) : Option PgDir × Kmem :=
  match pd.tables v.pdx with
  | some _ => (some pd, km)
  | none =>
    match km.kalloc with
    | (none, km) => (none, km)
    | (some f, km) => (some (pd.addTable v.pdx f), km.fill f 0)

/-- The loop of `mappages`, with the number of pages after this one. The page
table is returned also when it fails: the pages mapped so far stay. -/
def mappagesFrom (ver : Version) (perm : Flags) :
    Nat → Vpn → Frame → PgDir → Kmem → Result (Bool × PgDir × Kmem)
  | more, v, ppn, pd, km =>
    match walkpgdir pd v km with
    | (none, km) => .ok (false, pd, km)
    | (some pd, km) =>
      if (pd.pte v).mapped then .error (.panic "remap")
      else
        let pd := pd.set v (ver.entry ppn perm)
        match more with
        | 0 => .ok (true, pd, km)
        | more + 1 => mappagesFrom ver perm more (v + 1) (ppn + 1) pd km

/-- `mappages`. -/
def mappages (ver : Version) (pd : PgDir) (va size : Nat) (ppn : Frame) (perm : Flags) (km : Kmem) :
    Result (Bool × PgDir × Kmem) :=
  let a := vpn va
  let last := vpn (word (va + size + (2 ^ 32 - 1)))
  mappagesFrom ver perm (last - a).val a ppn pd km

/-- The loop of `deallocuvm`. A missing page-table page is skipped: the loop goes
on at the next four megabytes. -/
def deallocuvmFrom (oldsz : Nat) : Nat → Nat → PgDir → Kmem → Result (PgDir × Kmem)
  | 0, _, pd, km => .ok (pd, km)
  | fuel + 1, a, pd, km =>
    if a < oldsz then
      match pd.walk (vpn a) with
      | none => deallocuvmFrom oldsz fuel (word (((vpn a).pdx.val + 1) * 2 ^ 22)) pd km
      | some x =>
        if x.mapped then
          if x.ppn = 0 then .error (.panic "kfree")
          else do
            let km ← km.kfree x.ppn
            deallocuvmFrom oldsz fuel (word (a + PGSIZE)) (pd.set (vpn a) {}) km
        else deallocuvmFrom oldsz fuel (word (a + PGSIZE)) pd km
    else .ok (pd, km)

/-- `deallocuvm`. Each iteration passes a page, so there are at most as many as
pages below `oldsz`. -/
def deallocuvm (pd : PgDir) (oldsz newsz : Nat) (km : Kmem) : Result (Nat × PgDir × Kmem) :=
  if newsz ≥ oldsz then .ok (oldsz, pd, km)
  else do
    let (pd, km) ← deallocuvmFrom oldsz (oldsz / PGSIZE + 1) (PGROUNDUP newsz) pd km
    return (newsz, pd, km)

/-- The part of `freevm` after the user pages. -/
def freeTables (pd : PgDir) : List (Fin 1024) → Kmem → Result Kmem
  | [], km => .ok km
  | i :: rest, km =>
    match pd.tables i with
    | none => freeTables pd rest km
    | some f => do
      let km ← km.kfree f
      freeTables pd rest km

/-- `freevm`. -/
def freevm (pd : PgDir) (km : Kmem) : Result Kmem := do
  let (_, pd, km) ← deallocuvm pd KERNBASE 0 km
  let km ← freeTables pd (List.finRange 1024) km
  km.kfree pd.root

/-- One entry of `kmap`: virtual address, physical range, writable. -/
structure KmapEntry where
  virt : Nat
  physStart : Nat
  physEnd : Nat
  w : Bool

/-- The kernel's mappings, which are present in every page table. -/
def kmap (layout : Layout) : List KmapEntry :=
  [ ⟨KERNBASE, 0, EXTMEM, true⟩,
    ⟨KERNLINK, KERNLINK - KERNBASE, layout.data - KERNBASE, false⟩,
    ⟨layout.data, layout.data - KERNBASE, PHYSTOP, true⟩,
    ⟨DEVSPACE, DEVSPACE, 0, true⟩ ]

/-- The loop of `setupkvm`. -/
def setupkvmFrom (ver : Version) : List KmapEntry → PgDir → Kmem → Result (Option PgDir × Kmem)
  | [], pd, km => .ok (some pd, km)
  | k :: rest, pd, km => do
    let (mapped, pd, km) ← mappages ver pd k.virt (word (k.physEnd + 2 ^ 32 - k.physStart))
      (k.physStart / PGSIZE) { w := k.w } km
    if mapped then setupkvmFrom ver rest pd km
    else do
      let km ← freevm pd km
      return (none, km)

/-- `setupkvm`. -/
def setupkvm (ver : Version) (km : Kmem) : Result (Option PgDir × Kmem) :=
  match km.kalloc with
  | (none, km) => .ok (none, km)
  | (some root, km) =>
    if KERNBASE + PHYSTOP > DEVSPACE then .error (.panic "PHYSTOP too high")
    else setupkvmFrom ver (kmap km.layout) ⟨root, fun _ => none, fun _ => {}⟩ (km.fill root 0)

/-- The loop of `allocuvm`. -/
def allocuvmFrom (ver : Version) (oldsz newsz : Nat) :
    Nat → Nat → PgDir → Kmem → Result (Nat × PgDir × Kmem)
  | 0, _, pd, km => .ok (newsz, pd, km)
  | fuel + 1, a, pd, km =>
    if a < newsz then
      match km.kalloc with
      | (none, km) => do
        let (_, pd, km) ← deallocuvm pd newsz oldsz km
        return (0, pd, km)
      | (some mem, km) => do
        let (mapped, pd, km) ← mappages ver pd a PGSIZE mem { w := true, u := true } (km.fill mem 0)
        if mapped then allocuvmFrom ver oldsz newsz fuel (a + PGSIZE) pd km
        else do
          let (_, pd, km) ← deallocuvm pd newsz oldsz km
          let km ← km.kfree mem
          return (0, pd, km)
    else .ok (newsz, pd, km)

/-- `allocuvm`. -/
def allocuvm (ver : Version) (pd : PgDir) (oldsz newsz : Nat) (km : Kmem) :
    Result (Nat × PgDir × Kmem) :=
  if newsz ≥ KERNBASE then .ok (0, pd, km)
  else if newsz < oldsz then .ok (oldsz, pd, km)
  else allocuvmFrom ver oldsz newsz (newsz / PGSIZE + 1) (PGROUNDUP oldsz) pd km

/-- `clearpteu`. -/
def clearpteu (pd : PgDir) (uva : Nat) : Result PgDir :=
  match pd.walk (vpn uva) with
  | none => .error (.panic "clearpteu")
  | some x => .ok (pd.set (vpn uva) { x with u := false })

/-- The loop of `copyuvm` from the page table `pd` to the new one `d`. -/
def copyuvmFrom (ver : Version) (pd : PgDir) (sz : Nat) :
    Nat → Nat → PgDir → Kmem → Result (Option PgDir × Kmem)
  | 0, _, d, km => .ok (some d, km)
  | fuel + 1, i, d, km =>
    if i < sz then
      match pd.walk (vpn i) with
      | none => .error (.panic "copyuvm: pte should exist")
      | some x =>
        if x.mapped then
          match km.kalloc with
          | (none, km) => do
            let km ← freevm d km
            return (none, km)
          | (some mem, km) => do
            let (mapped, d, km) ← mappages ver d i PGSIZE mem x.toFlags (km.write mem (km.mem x.ppn))
            if mapped then copyuvmFrom ver pd sz fuel (word (i + PGSIZE)) d km
            else do
              let km ← km.kfree mem
              let km ← freevm d km
              return (none, km)
        else .error (.panic "copyuvm: page not present")
    else .ok (some d, km)

/-- `copyuvm`. -/
def copyuvm (ver : Version) (pd : PgDir) (sz : Nat) (km : Kmem) : Result (Option PgDir × Kmem) := do
  let (d, km) ← setupkvm ver km
  match d with
  | none => return (none, km)
  | some d => copyuvmFrom ver pd sz (sz / PGSIZE + 1) 0 d km

/-- `uva2ka`: the frame of a user page. p5 refuses an entry that is present and
encrypted at once. -/
def uva2ka (ver : Version) (pd : PgDir) (uva : Nat) : Result (Option Frame) :=
  match pd.walk (vpn uva) with
  | none => .error .nullEntry
  | some x =>
    if !x.mapped || !x.u then .ok none
    else if ver = .p5 ∧ x.p ∧ x.e then .ok none
    else .ok (some x.ppn)

end Cs537.Vm
