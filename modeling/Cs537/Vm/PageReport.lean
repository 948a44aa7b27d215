import Cs537.Library.Programs
import Cs537.Vm.PageFaults

/-!
# The page-table reports of p5 and p6

`getpgtable` describes pages of a process in an array of the process itself, which it fills
through the user addresses. A store of the kernel needs a page that is present and writable;
at any other page it faults, and the fault handler decides whether the store is tried again or
the kernel panics. A report is a program over the process, the machine, the words that the
kernel stored to, or tried to, and the entries that are complete. The fields of an entry are
kept as values: the words that hold them are not put into `mem`.

An entry has eight bytes. Its first two fields share the first word and the others the second;
an assignment to a field reads and writes the whole word. The second assignment to a word finds
its pages as the first one left them.
-/

namespace Cs537.Vm

open Programs

/-- `struct pt_entry` of p5. -/
structure PtEntry where
  pdx : Nat
  ptx : Nat
  ppage : Frame
  present : Bool
  writable : Bool
  encrypted : Bool
deriving DecidableEq, Repr

/-- The size of an entry. -/
def ENTRY : Nat := 8

/-- The state of a report: `stores` are the words that were stored to, in order, and `entries` the
complete entries, from index 0 on. -/
structure Desk (α : Type) where
  proc : Proc
  km : Kmem
  stores : List Nat
  entries : List α

/-- A part of a report. One that does not return leaves the state behind. -/
abbrev Reporting (α : Type) := Program (Desk α) (Halt × Desk α)

/-- The page table index of a page. -/
def Vpn.ptx (v : Vpn) : Nat := v.val % 1024

/-- The indices of a page recombine to its address. -/
theorem Vpn.addr_indices (v : Vpn) : v.pdx.val * 2 ^ 22 + v.ptx * 2 ^ 12 = v.addr := by
  simp only [Vpn.pdx, Vpn.ptx, Vpn.addr, PGSIZE]
  omega

namespace Reporting

variable {α : Type}

def halt {β : Type} (reason : Halt) : Reporting α β := do throw (reason, ← get)

/-- `*pte` for the result of `walkpgdir`, which may be null. -/
def readPte (v : Vpn) : Reporting α Pte := do
  match (← get).proc.pgdir.walk v with
  | none => halt .nullEntry
  | some x => return x

/-- The kernel can store to a page. -/
def writable (pd : PgDir) (v : Vpn) : Bool := ((pd.walk v).map fun x => x.p && x.w).getD false

/-- Where a store to a word faults, if it does: a word may lie in two pages. -/
def faultAt (pd : PgDir) (address : Nat) : Option Nat :=
  if !writable pd (vpn address) then some address
  else if !writable pd (vpn (address + 3)) then some (PGROUNDDOWN (word (address + 3)))
  else none

end Reporting

/-- The accessed flag of a page is set. -/
def PgDir.mark (pd : PgDir) (v : Vpn) : PgDir := pd.set v { pd.pte v with a := true }

namespace Reporting

variable {α : Type}

/-- One attempt to store to a word: whether it succeeded, or is to be tried again after a fault that
the handler resolved. -/
def attempt (ver : Version) (address : Nat) : Reporting α Bool := do
  let d ← get
  match faultAt d.proc.pgdir address with
  | none =>
    let pd := (d.proc.pgdir.mark (vpn address)).mark (vpn (address + 3))
    set { d with proc := { d.proc with pgdir := pd } }
    return true
  | some va =>
    match ver.handleFault d.proc va d.km with
    | .error reason => halt reason
    | .ok (false, _, _) => halt (.panic "trap")
    | .ok (true, p, km) => do
      set { d with proc := p, km := km }
      return false

/-- Attempts until one succeeds, as far as there are retries. -/
def persist (ver : Version) (address : Nat) : Nat → Reporting α Unit
  | 0 => do if !(← attempt ver address) then halt .spin
  | retries + 1 => do if !(← attempt ver address) then persist ver address retries

/-- An assignment to a field of an entry. -/
def store (ver : Version) (retries address : Nat) : Reporting α Unit := do
  modify fun d => { d with stores := d.stores ++ [address] }
  persist ver address retries

/-- An entry is complete. -/
def complete (entry : α) : Reporting α Unit := modify fun d => { d with entries := d.entries ++ [entry] }

end Reporting

/-! ## Pages that are stored to -/

/-- A range of addresses meets a page. -/
def Touches (lo hi : Nat) (v : Vpn) : Prop := lo < hi ∧ v.addr < hi ∧ lo < v.addr + PGSIZE

instance (lo hi : Nat) (v : Vpn) : Decidable (Touches lo hi v) := inferInstanceAs (Decidable (_ ∧ _))

/-- A range in two parts. -/
theorem Touches.split {lo mid hi : Nat} {v : Vpn} (first : lo ≤ mid) (second : mid ≤ hi) :
    Touches lo hi v ↔ Touches lo mid v ∨ Touches mid hi v := by
  unfold Touches PGSIZE
  omega

/-- The pages of a word. -/
theorem Touches.word {address : Nat} (small : address + 4 ≤ 2 ^ 32) {v : Vpn} :
    Touches address (address + 4) v ↔ v = vpn address ∨ v = vpn (address + 3) := by
  have first : (vpn address).val = address / 4096 := vpn_val (by omega)
  have last : (vpn (address + 3)).val = (address + 3) / 4096 := vpn_val (by omega)
  rw [Fin.ext_iff, Fin.ext_iff, first, last]
  unfold Touches Vpn.addr PGSIZE
  omega

/-- The page table after the pages of a range were stored to: they are present and accessed. -/
def PgDir.touched (pd : PgDir) (lo hi : Nat) : PgDir :=
  { pd with pte := fun v =>
      if Touches lo hi v then { pd.pte v with p := true, e := false, a := true } else pd.pte v }

/-- The process while it is reported: the first entries of the buffer were stored to. -/
def during (p : Proc) (entries index : Nat) : Proc :=
  { p with pgdir := p.pgdir.touched entries (entries + index * ENTRY) }

section Touched

variable {pd : PgDir} {lo mid hi : Nat} {v : Vpn}

theorem touched_pte (pd : PgDir) (lo hi : Nat) (v : Vpn) : (pd.touched lo hi).pte v =
    if Touches lo hi v then { pd.pte v with p := true, e := false, a := true } else pd.pte v := rfl

@[simp] theorem touched_tables (pd : PgDir) (lo hi : Nat) : (pd.touched lo hi).tables = pd.tables := rfl

theorem touched_empty (pd : PgDir) (lo : Nat) : pd.touched lo lo = pd := by
  refine PgDir.ext rfl rfl fun v => ?_
  rw [touched_pte, if_neg fun touches => absurd touches.1 (lt_irrefl lo)]

theorem during_zero (p : Proc) (entries : Nat) : during p entries 0 = p := by
  unfold during
  rw [Nat.zero_mul, Nat.add_zero, touched_empty]

/-- One range after the other. -/
theorem touched_touched (first : lo ≤ mid) (second : mid ≤ hi) :
    (pd.touched lo mid).touched mid hi = pd.touched lo hi := by
  refine PgDir.ext rfl rfl fun v => ?_
  simp only [touched_pte, Touches.split first second]
  split <;> split <;> simp_all

/-- Stores change neither which pages are mapped nor whether they are writable or open. -/
theorem touched_mapped (mapped : Touches lo hi v → (pd.pte v).mapped = true) :
    ((pd.touched lo hi).pte v).mapped = (pd.pte v).mapped := by
  rw [touched_pte]
  split
  · rename_i touches
    rw [mapped touches]
    rfl
  · rfl

theorem touched_w : ((pd.touched lo hi).pte v).w = (pd.pte v).w := by
  rw [touched_pte]
  split <;> rfl

theorem touched_ppn : ((pd.touched lo hi).pte v).ppn = (pd.pte v).ppn := by
  rw [touched_pte]
  split <;> rfl

/-- A process stays in order when mapped pages are stored to. -/
theorem Decent.touched {p : Proc} (decent : Decent p)
    (mapped : ∀ v, Touches lo hi v → (p.pgdir.pte v).mapped = true) :
    Decent { p with pgdir := p.pgdir.touched lo hi } := by
  have cases : ∀ v, ((p.pgdir.pte v).mapped = true ∧
      (p.pgdir.touched lo hi).pte v = { p.pgdir.pte v with p := true, e := false, a := true }) ∨
      (p.pgdir.touched lo hi).pte v = p.pgdir.pte v := by
    intro v
    by_cases touches : Touches lo hi v
    · exact .inl ⟨mapped v touches, if_pos touches⟩
    · exact .inr (if_neg touches)
  refine ⟨⟨fun v missing => ?_, fun v low filled => ?_, fun v high => ?_⟩, decent.bounded, fun v kept => ?_,
    fun v encrypted => ?_⟩
  all_goals
    obtain ⟨before, entry⟩ | entry := cases v
    all_goals simp only [entry, touched_tables] at *
  · exact absurd missing (decent.tidy.table before)
  · exact decent.tidy.rooted v missing
  · rfl
  · exact decent.tidy.clean v low filled
  · exact ⟨(decent.tidy.kernel v high).1, trivial⟩
  · exact decent.tidy.kernel v high
  · decide
  · exact decent.exclusive v kept
  · cases encrypted
  · exact decent.guarded v encrypted

end Touched

namespace Reporting

section Stores

variable {α : Type} {ver : Version} {d : Desk α} {v : Vpn} {retries address : Nat}

theorem readPte_run (table : d.proc.pgdir.tables v.pdx ≠ none) :
    (readPte v).run d = .ok (d.proc.pgdir.pte v, d) := by
  unfold readPte
  simp only [StateT.run_bind, StateT.run_get, pure_bind, PgDir.walk_some.mpr ⟨table, rfl⟩]
  rfl

theorem readPte_missing (missing : d.proc.pgdir.tables v.pdx = none) :
    (readPte v).run d = .error (.nullEntry, d) := by
  unfold readPte
  simp only [StateT.run_bind, StateT.run_get, pure_bind, PgDir.walk_none.mpr missing]
  rfl

theorem writable_eq {pd : PgDir} (table : pd.tables v.pdx ≠ none) :
    writable pd v = ((pd.pte v).p && (pd.pte v).w) := by
  rw [writable, PgDir.walk_some.mpr ⟨table, rfl⟩]
  rfl

/-- A page that the kernel can store to is present and writable. -/
theorem writable_flags {pd : PgDir} (stored : writable pd v = true) : (pd.pte v).p = true ∧ (pd.pte v).w = true := by
  unfold writable at stored
  cases walked : pd.walk v with
  | none => simp [walked] at stored
  | some x =>
    obtain ⟨-, rfl⟩ := PgDir.walk_some.mp walked
    simpa [walked] using stored

/-- The pages of a range can be stored to at once. -/
def Clear (pd : PgDir) (lo hi : Nat) : Prop :=
  ∀ v, Touches lo hi v → pd.tables v.pdx ≠ none ∧ (pd.pte v).p = true ∧ (pd.pte v).w = true ∧ (pd.pte v).e = false

/-- They can after other stores too. -/
theorem Clear.touched {pd : PgDir} {lo hi : Nat} (clear : Clear pd lo hi) (lo' hi' : Nat) :
    Clear (pd.touched lo' hi') lo hi := by
  intro v touches
  obtain ⟨table, present, writable, bare⟩ := clear v touches
  refine ⟨table, ?_, touched_w.trans writable, ?_⟩
  all_goals
    rw [touched_pte]
    split
  · rfl
  · exact present
  · rfl
  · exact bare

theorem Clear.mono {pd : PgDir} {lo hi lo' hi' : Nat} (clear : Clear pd lo hi) (above : lo ≤ lo')
    (below : hi' ≤ hi) : Clear pd lo' hi' :=
  fun v touches => clear v ⟨by have := touches.1; omega, by have := touches.2.1; omega,
    by have := touches.2.2; omega⟩

/-- Marking the pages of a word. -/
theorem mark_mark {pd : PgDir} (small : address + 4 ≤ 2 ^ 32) (clear : Clear pd address (address + 4)) :
    (pd.mark (vpn address)).mark (vpn (address + 3)) = pd.touched address (address + 4) := by
  refine PgDir.ext rfl rfl fun v => ?_
  have marked : ((pd.mark (vpn address)).mark (vpn (address + 3))).pte v =
      if v = vpn address ∨ v = vpn (address + 3) then { pd.pte v with a := true } else pd.pte v := by
    unfold PgDir.mark
    simp only [PgDir.set_pte]
    grind
  rw [marked, touched_pte]
  by_cases touches : Touches address (address + 4) v
  · obtain ⟨-, present, -, bare⟩ := clear v touches
    rw [if_pos ((Touches.word small).mp touches), if_pos touches, ← present, ← bare]
  · rw [if_neg fun word => touches ((Touches.word small).mpr word), if_neg touches]

/-- A store to pages in clear succeeds at once. -/
theorem persist_clear (small : address + 4 ≤ 2 ^ 32) (clear : Clear d.proc.pgdir address (address + 4)) :
    (persist ver address retries).run d = .ok ((), { d with
      proc := { d.proc with pgdir := d.proc.pgdir.touched address (address + 4) } }) := by
  have free : faultAt d.proc.pgdir address = none := by
    have first := clear (vpn address) ((Touches.word small).mpr (.inl rfl))
    have last := clear (vpn (address + 3)) ((Touches.word small).mpr (.inr rfl))
    unfold faultAt
    rw [writable_eq first.1, writable_eq last.1]
    simp [first.2.1, first.2.2.1, last.2.1, last.2.2.1]
  have tried : (attempt ver address).run d = .ok (true, { d with
      proc := { d.proc with pgdir := d.proc.pgdir.touched address (address + 4) } }) := by
    unfold attempt
    simp only [StateT.run_bind, StateT.run_get, pure_bind, free, mark_mark small clear]
    rfl
  cases retries with
  | zero =>
    rw [persist, run_bind_ok tried]
    rfl
  | succ retries =>
    rw [persist, run_bind_ok tried]
    rfl

theorem store_clear (small : address + 4 ≤ 2 ^ 32) (clear : Clear d.proc.pgdir address (address + 4)) :
    (store ver retries address).run d = .ok ((), { d with
      proc := { d.proc with pgdir := d.proc.pgdir.touched address (address + 4) }
      stores := d.stores ++ [address] }) :=
  persist_clear (d := { d with stores := d.stores ++ [address] }) small clear

/-- What a store leaves behind, whether it succeeds or not: the word is among the stores, no entry was
completed, and of the page table only flags have changed. -/
structure Stored (d : Desk α) (address : Nat) (after : Desk α) : Prop where
  stores : after.stores = d.stores ++ [address]
  entries : after.entries = d.entries
  retouched : Retouches d.proc.pgdir d.km after.proc.pgdir after.km
  size : after.proc.sz = d.proc.sz

@[simp] theorem ensures_halt {β : Type} {post : β → Desk α → Prop} {stop : Halt × Desk α → Prop}
    (reason : Halt) : Ensures (halt reason : Reporting α β) d post stop ↔ stop (reason, d) := Iff.rfl

/-- The fault handler changes flags only. -/
theorem handleFault_retouches {p p' : Proc} {va : Nat} {km km' : Kmem} {handled : Bool} (tidy : Tidy p.pgdir)
    (result : ver.handleFault p va km = .ok (handled, p', km')) :
    Retouches p.pgdir km p'.pgdir km' ∧ p'.sz = p.sz := by
  cases ver with
  | p5 =>
    obtain ⟨recrypted, same⟩ := P5.decrypt_recrypts tidy result
    exact ⟨recrypted.toRetouches, by rw [same]⟩
  | p6 =>
    refine ⟨P6.mdecrypt_retouches tidy result, ?_⟩
    obtain ⟨-, rfl, -⟩ | ⟨small, -, filled, inserted⟩ := P6.mdecrypt_cases result
    · rfl
    · have mapped := tidy.clean (vpn va) (vpn_user small) filled
      have step : Retouches p.pgdir km
          (p.pgdir.set (vpn va) { p.pgdir.pte (vpn va) with e := false, p := true, a := true })
          (km.complement (p.pgdir.pte (vpn va)).ppn) :=
        Retouches.entry rfl rfl (by rw [mapped]; rfl) (fun empty => absurd empty filled)
          (fun _ encrypted => by cases encrypted) (fun _ => by simp) rfl rfl rfl
      exact (P6.wsetinsertFrom_recrypts (step.tidy tidy) inserted).2.1

/-- Marking a page that the kernel can store to. -/
theorem mark_recrypts {pd : PgDir} (km : Kmem) (stored : writable pd v = true) :
    Recrypts pd km (pd.mark v) km := by
  refine Recrypts.mark pd km v true fun _ empty => ?_
  have present := (writable_flags stored).1
  rw [empty] at present
  cases present

theorem mark_retouches {pd : PgDir} (km : Kmem) (stored : writable pd v = true) :
    Retouches pd km (pd.mark v) km := (mark_recrypts km stored).toRetouches

/-- Marking a page makes none writable. -/
theorem writable_mark (pd : PgDir) (v w : Vpn) : writable (pd.mark v) w = writable pd w := by
  unfold writable PgDir.walk PgDir.mark
  rw [PgDir.set_pte, PgDir.set_tables]
  split
  · rename_i same
    rw [same]
    cases pd.tables v.pdx <;> rfl
  · rfl

theorem faultAt_none {pd : PgDir} (free : faultAt pd address = none) :
    writable pd (vpn address) = true ∧ writable pd (vpn (address + 3)) = true := by
  unfold faultAt at free
  split at free
  · cases free
  · rename_i first
    split at free
    · cases free
    · rename_i last
      exact ⟨by simpa using first, by simpa using last⟩

/-- An attempt changes flags only. -/
theorem attempt_ensures (tidy : Tidy d.proc.pgdir) :
    Ensures (attempt ver address) d
      (fun _ after => after.stores = d.stores ∧ after.entries = d.entries ∧
        Retouches d.proc.pgdir d.km after.proc.pgdir after.km ∧ after.proc.sz = d.proc.sz)
      (fun stopped => stopped.2 = d) := by
  unfold attempt
  simp only [ensures_bind, ensures_get]
  split
  · rename_i free
    simp only [ensures_set, ensures_bind, ensures_pure, true_and, and_true]
    obtain ⟨first, last⟩ := faultAt_none free
    rw [← writable_mark _ (vpn address)] at last
    exact (mark_retouches d.km first).trans (mark_retouches d.km last)
  · split
    · simp
    · simp
    · rename_i p km handled
      simp only [ensures_set, ensures_bind, ensures_pure, true_and]
      exact handleFault_retouches tidy handled

theorem persist_ensures (tidy : Tidy d.proc.pgdir) :
    Ensures (persist ver address retries) d
      (fun _ after => after.stores = d.stores ∧ after.entries = d.entries ∧
        Retouches d.proc.pgdir d.km after.proc.pgdir after.km ∧ after.proc.sz = d.proc.sz)
      (fun stopped => stopped.2.stores = d.stores ∧ stopped.2.entries = d.entries ∧
        Retouches d.proc.pgdir d.km stopped.2.proc.pgdir stopped.2.km ∧ stopped.2.proc.sz = d.proc.sz) := by
  induction retries generalizing d with
  | zero =>
    rw [persist, ensures_bind]
    refine (attempt_ensures tidy).mono (fun succeeded after changed => ?_) fun stopped same => ?_
    · cases succeeded
      · exact changed
      · exact changed
    · rw [same]
      exact ⟨rfl, rfl, Retouches.refl _ _, rfl⟩
  | succ retries inductionHypothesis =>
    rw [persist, ensures_bind]
    refine (attempt_ensures tidy).mono (fun succeeded after changed => ?_) fun stopped same => ?_
    · cases succeeded
      · obtain ⟨stores, entries, retouched, size⟩ := changed
        refine (inductionHypothesis (retouched.tidy tidy)).mono (fun _ last later => ?_) fun stopped later => ?_
        · rw [stores, entries, size] at later
          exact ⟨later.1, later.2.1, retouched.trans later.2.2.1, later.2.2.2⟩
        · rw [stores, entries, size] at later
          exact ⟨later.1, later.2.1, retouched.trans later.2.2.1, later.2.2.2⟩
      · exact changed
    · rw [same]
      exact ⟨rfl, rfl, Retouches.refl _ _, rfl⟩

theorem store_ensures (tidy : Tidy d.proc.pgdir) :
    Ensures (store ver retries address) d (fun _ after => Stored d address after)
      (fun stopped => Stored d address stopped.2) := by
  unfold store
  rw [ensures_bind, ensures_modify]
  refine (persist_ensures (d := { d with stores := d.stores ++ [address] }) tidy).mono
    (fun _ after changed => ?_) fun stopped changed => ?_
  · exact ⟨changed.1, changed.2.1, changed.2.2.1, changed.2.2.2⟩
  · exact ⟨changed.1, changed.2.1, changed.2.2.1, changed.2.2.2⟩

/-- Reading an entry changes nothing. -/
theorem readPte_ensures : Ensures (readPte v) d (fun x after => x = d.proc.pgdir.pte v ∧ after = d)
    fun stopped => stopped.2 = d := by
  unfold readPte
  simp only [ensures_bind, ensures_get]
  split
  · simp
  · rename_i x walked
    simp [(PgDir.walk_some.mp walked).2]

end Stores

end Reporting

/-! ## p5 -/

namespace P5

open Reporting

/-- Describe a page in the entry at an address. The page-table entry is first read after the first
word was stored to. -/
def describe (retries entry : Nat) (v : Vpn) : Reporting PtEntry Unit := do
  store .p5 retries entry
  let ppage := (← readPte v).ppn
  store .p5 retries (word (entry + 4))
  let pte ← readPte v
  complete ⟨v.pdx.val, v.ptx, ppage, pte.p, pte.w, pte.e⟩

/-- The loop of `getpgtable`, with the number of rounds that are left. -/
def describeFrom (retries entries : Nat) (num : Int) : Nat → Nat → Nat → Reporting PtEntry Int
  | 0, _, _ => return num
  | left + 1, i, addr => do
    if word (i * PGSIZE) > (← get).proc.sz then return (i : Int)
    else
      describe retries (word (entries + i * ENTRY)) (vpn addr)
      describeFrom retries entries num left (i + 1) (word (addr + 2 ^ 32 - PGSIZE))

/-- `getpgtable`, up to the printing of the entries. -/
def getpgtable (retries entries : Nat) (num : Int) : Reporting PtEntry Int := do
  if entries = 0 then return -1
  else
    let sz := (← get).proc.sz
    describeFrom retries entries num num.toNat 0 (PGROUNDDOWN (word (sz + 2 ^ 32 - 1)))

end P5

/-! ## p6 -/

namespace P6

open Reporting

/-- `struct pt_entry` of p6. -/
structure PtEntry extends Vm.PtEntry where
  user : Bool
  ref : Bool
deriving DecidableEq, Repr

/-- `searchwset`. -/
def searchwset (p : Proc) (va : Nat) : Bool :=
  (List.finRange 8).any fun i => p.clockqueue i ≠ NOPAGE && p.clockqueue i = va

/-- Describe a page in the entry at an address. -/
def describe (retries entry : Nat) (v : Vpn) : Reporting PtEntry Unit := do
  store .p6 retries entry
  let ppage := (← readPte v).ppn
  store .p6 retries (word (entry + 4))
  let pte ← readPte v
  complete ⟨⟨v.pdx.val, v.ptx, ppage, pte.p, pte.w, pte.e⟩, pte.u, pte.a⟩

/-- One round of `getpgtable`, at the page of number `n`: the number of entries after it. -/
def describePage (retries entries : Nat) (wsetOnly : Int) (n index : Nat) : Reporting PtEntry Nat := do
  let i := n * PGSIZE
  let pte ← readPte (vpn i)
  if pte ≠ {} ∧ (wsetOnly = 1 → searchwset (← get).proc i) then do
    describe retries (word (entries + index * ENTRY)) (vpn i)
    return index + 1
  else return index

/-- The loop of `getpgtable` from the page of number `n` down to page 0. The number of entries is
tested after each round. -/
def describeFrom (retries entries : Nat) (num wsetOnly : Int) : Nat → Nat → Reporting PtEntry Int
  | 0, index => do return (← describePage retries entries wsetOnly 0 index : Nat)
  | n + 1, index => do
    let index ← describePage retries entries wsetOnly (n + 1) index
    if index ≥ num then return index else describeFrom retries entries num wsetOnly n index

/-- `getpgtable`. -/
def getpgtable (retries entries : Nat) (num wsetOnly : Int) : Reporting PtEntry Int := do
  if wsetOnly ≠ 0 ∧ wsetOnly ≠ 1 then return -1
  else describeFrom retries entries num wsetOnly ((← get).proc.sz / PGSIZE) 0

end P6

end Cs537.Vm
