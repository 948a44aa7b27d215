import Cs537.Library.Ring
import Cs537.Vm.Transparency

/-!
# The clock of p6

The queue of pages in clear is a ring of eight slots with a hand. `wsetinsert` moves
the hand until it finds an empty slot or a page that was not accessed, and clears the
accessed flag of each page that it passes. Nine turns are enough, because after a full
round no page counts as accessed any more.
-/

namespace Cs537.Vm

open Occurrences Ledger

/-- An address is in the queue. -/
def Listed (queue : Fin 8 → Nat) (address : Nat) : Prop := ∃ slot, queue slot = address

instance (queue : Fin 8 → Nat) (address : Nat) : Decidable (Listed queue address) :=
  inferInstanceAs (Decidable (∃ _, _))

/-- Page tables with the same frames and entries are equal. -/
theorem PgDir.ext {pd pd' : PgDir} (root : pd.root = pd'.root) (tables : pd.tables = pd'.tables)
    (entries : ∀ v, pd.pte v = pd'.pte v) : pd = pd' := by
  cases pd
  cases pd'
  cases root
  cases tables
  congr
  funext v
  exact entries v

/-- The addresses of pages are not the mark of an empty slot. -/
theorem addr_ne_NOPAGE (v : Vpn) : v.addr ≠ NOPAGE := by
  unfold Vpn.addr PGSIZE NOPAGE
  omega

/-- The address of the page of an address. -/
theorem PGROUNDDOWN_eq {va : Nat} (low : va < KERNBASE) : PGROUNDDOWN va = (vpn va).addr := by
  unfold PGROUNDDOWN Vpn.addr
  rw [vpn_val (low.trans (by decide))]

section

variable {queue : Fin 8 → Nat} {slot : Fin 8} {va : Nat}

/-- A new address in a slot leaves the addresses different. -/
theorem distinct_update
    (distinct : ∀ slot other, queue slot ≠ NOPAGE → queue slot = queue other → slot = other)
    (fresh : ¬ Listed queue va) :
    ∀ one other, Function.update queue slot va one ≠ NOPAGE →
      Function.update queue slot va one = Function.update queue slot va other → one = other := by
  intro one other filled same
  rw [Function.update_apply] at filled
  rw [Function.update_apply, Function.update_apply] at same
  split at same <;> split at same
  · rename_i first second
    rw [first, second]
  · exact absurd ⟨other, same.symm⟩ fresh
  · exact absurd ⟨one, same⟩ fresh
  · rename_i first second
    rw [if_neg first] at filled
    exact distinct one other filled same

/-- The new address is in the queue and the one that it replaces is not. -/
theorem listed_update
    (distinct : ∀ slot other, queue slot ≠ NOPAGE → queue slot = queue other → slot = other)
    {address : Nat} (proper : address ≠ NOPAGE) :
    Listed (Function.update queue slot va) address ↔
      address = va ∨ Listed queue address ∧ address ≠ queue slot := by
  constructor
  · rintro ⟨other, held⟩
    rw [Function.update_apply] at held
    split at held
    · exact .inl held.symm
    · rename_i different
      refine .inr ⟨⟨other, held⟩, ?_⟩
      rintro rfl
      exact different (distinct other slot (held ▸ proper) held)
  · rintro (rfl | ⟨⟨other, held⟩, replaced⟩)
    · exact ⟨slot, Function.update_self ..⟩
    · have different : other ≠ slot := by
        rintro rfl
        exact replaced held.symm
      exact ⟨other, by rw [Function.update_of_ne different, held]⟩

end

/-- The queue holds addresses of different pages, for which there are page tables. -/
structure Queued (p : Proc) : Prop where
  distinct : ∀ slot other, p.clockqueue slot ≠ NOPAGE → p.clockqueue slot = p.clockqueue other → slot = other
  page : ∀ slot, p.clockqueue slot ≠ NOPAGE → (vpn (p.clockqueue slot)).addr = p.clockqueue slot
  table : ∀ slot, p.clockqueue slot ≠ NOPAGE → p.pgdir.tables (vpn (p.clockqueue slot)).pdx ≠ none

namespace P6

/-! ## The way of the hand -/

/-- The slot that the hand reaches after passing `k` slots. -/
def slotAt (hand : Option (Fin 8)) (k : Nat) : Fin 8 := nextHand hand + Fin.ofNat 8 k

/-- The hand stops at an empty slot and at a page that was not accessed. -/
def stops (p : Proc) (slot : Fin 8) : Bool :=
  p.clockqueue slot = NOPAGE || !(p.pgdir.pte (vpn (p.clockqueue slot))).a

/-- How many slots the hand passes before it stops: all eight if every page was
accessed. -/
def passes (p : Proc) : Nat := ((List.range 8).find? fun k => stops p (slotAt p.clockhand k)).getD 8

/-- The slot where the hand stops. -/
def target (p : Proc) : Fin 8 := slotAt p.clockhand (passes p)

/-- The pages in the first `k` slots. -/
def Passed (p : Proc) (k : Nat) (v : Vpn) : Prop := ∃ j < k, p.clockqueue (slotAt p.clockhand j) = v.addr

instance (p : Proc) (k : Nat) (v : Vpn) : Decidable (Passed p k v) :=
  inferInstanceAs (Decidable (∃ _ < _, _))

/-- The hand has passed `k` slots and their pages have lost the accessed flag. -/
def afterPassing (p : Proc) (k : Nat) : Proc := { p with
  clockhand := if k = 0 then p.clockhand else some (slotAt p.clockhand (k - 1))
  pgdir := { p.pgdir with
    pte := fun v => if Passed p k v then { p.pgdir.pte v with a := false } else p.pgdir.pte v } }

theorem slotAt_inj {hand : Option (Fin 8)} {j k : Nat} (small : j < 8) (small' : k < 8)
    (same : slotAt hand j = slotAt hand k) : j = k := by
  have equal := congrArg Fin.val (add_left_cancel same)
  simp only [Fin.ofNat_eq_cast, Fin.val_natCast] at equal
  omega

/-- The hand moves on by one slot. -/
theorem nextHand_afterPassing (p : Proc) (k : Nat) :
    nextHand (afterPassing p k).clockhand = slotAt p.clockhand k := by
  cases k with
  | zero => simp [afterPassing, slotAt]
  | succ k =>
    have moved : Fin.ofNat 8 k + 1 = Fin.ofNat 8 (k + 1) := by
      apply Fin.ext
      simp [Fin.val_add, Fin.ofNat]
    unfold slotAt
    rw [← moved, ← add_assoc]
    rfl

theorem passes_le (p : Proc) : passes p ≤ 8 := by
  unfold passes
  cases found : (List.range 8).find? fun k => stops p (slotAt p.clockhand k) with
  | none => exact le_rfl
  | some k => exact (List.mem_range.mp (List.mem_of_find?_eq_some found)).le

/-- The hand does not stop at the slots that it passes. -/
theorem stops_passed {p : Proc} {j : Nat} (below : j < passes p) :
    stops p (slotAt p.clockhand j) = false := by
  unfold passes at below
  cases found : (List.range 8).find? fun k => stops p (slotAt p.clockhand k) with
  | none =>
    rw [found] at below
    have none := List.find?_eq_none.mp found j (List.mem_range.mpr below)
    simpa using none
  | some k =>
    rw [found] at below
    obtain ⟨-, i, bound, here, before⟩ := List.find?_eq_some_iff_getElem.mp found
    simp only [List.getElem_range] at here before
    subst here
    simpa using before j below

/-- The hand stops after a full round or where it should. -/
theorem stops_target {p : Proc} (early : passes p < 8) : stops p (target p) = true := by
  unfold target
  unfold passes at early ⊢
  cases found : (List.range 8).find? fun k => stops p (slotAt p.clockhand k) with
  | none =>
    rw [found] at early
    exact absurd early (lt_irrefl 8)
  | some k =>
    have here := List.find?_some found
    exact here

/-- A slot that is not empty and where the hand does not stop. -/
theorem stops_eq_false {p : Proc} {slot : Fin 8} (going : stops p slot = false) :
    p.clockqueue slot ≠ NOPAGE ∧ (p.pgdir.pte (vpn (p.clockqueue slot))).a = true := by
  unfold stops at going
  simpa using going

theorem afterPassing_pte (p : Proc) (k : Nat) (v : Vpn) :
    (afterPassing p k).pgdir.pte v =
      if Passed p k v then { p.pgdir.pte v with a := false } else p.pgdir.pte v := rfl

/-- Before a full round, the page of a slot has not been passed. -/
theorem not_passed {p : Proc} {k : Nat} (queued : Queued p) (small : k < 8)
    (filled : p.clockqueue (slotAt p.clockhand k) ≠ NOPAGE) :
    ¬ Passed p k (vpn (p.clockqueue (slotAt p.clockhand k))) := by
  rintro ⟨j, below, same⟩
  rw [queued.page _ filled] at same
  have equal := queued.distinct _ _ filled same.symm
  exact absurd (slotAt_inj small (below.trans small) equal) (Nat.ne_of_gt below)

/-- One slot more is passed. -/
theorem afterPassing_succ {p : Proc} {k : Nat} (queued : Queued p) (small : k < 8)
    (filled : p.clockqueue (slotAt p.clockhand k) ≠ NOPAGE) :
    afterPassing p (k + 1) =
      { afterPassing p k with
        clockhand := some (slotAt p.clockhand k)
        pgdir := (afterPassing p k).pgdir.set (vpn (p.clockqueue (slotAt p.clockhand k)))
          { p.pgdir.pte (vpn (p.clockqueue (slotAt p.clockhand k))) with a := false } } := by
  have entries : ∀ v, (afterPassing p (k + 1)).pgdir.pte v =
      ((afterPassing p k).pgdir.set (vpn (p.clockqueue (slotAt p.clockhand k)))
        { p.pgdir.pte (vpn (p.clockqueue (slotAt p.clockhand k))) with a := false }).pte v := by
    intro v
    rw [PgDir.set_pte, afterPassing_pte, afterPassing_pte]
    have more : Passed p (k + 1) v ↔ Passed p k v ∨ v = vpn (p.clockqueue (slotAt p.clockhand k)) := by
      constructor
      · rintro ⟨j, below, same⟩
        obtain below | rfl := Nat.lt_succ_iff_lt_or_eq.mp below
        · exact .inl ⟨j, below, same⟩
        · exact .inr (by rw [same, vpn_of_addr])
      · rintro (⟨j, below, same⟩ | rfl)
        · exact ⟨j, Nat.lt_succ_of_lt below, same⟩
        · exact ⟨k, Nat.lt_succ_self k, (queued.page _ filled).symm⟩
    by_cases here : v = vpn (p.clockqueue (slotAt p.clockhand k))
    · rw [if_pos (more.mpr (.inr here)), if_pos here, here]
    · rw [if_neg here]
      by_cases before : Passed p k v
      · rw [if_pos (more.mpr (.inl before)), if_pos before]
      · rw [if_neg before, if_neg fun passed => (more.mp passed).elim before here]
  have directory : (afterPassing p (k + 1)).pgdir =
      (afterPassing p k).pgdir.set (vpn (p.clockqueue (slotAt p.clockhand k)))
        { p.pgdir.pte (vpn (p.clockqueue (slotAt p.clockhand k))) with a := false } := by
    exact PgDir.ext rfl rfl entries
  rw [← directory]
  simp [afterPassing]

/-! ## Insertion -/

/-- The last turn of `wsetinsert`: the page takes the slot under the hand, and the page
that was there, if any, is encrypted. -/
def replace (va : Nat) (slot : Fin 8) (p : Proc) (km : Kmem) : Result (Bool × Proc × Kmem) := do
  let p := { p with clockhand := some slot }
  if p.clockqueue slot = NOPAGE then
    return (true, { p with clockqueue := Function.update p.clockqueue slot va }, km)
  else
    let (encrypted, pd, km) ← mencrypt p.pgdir (p.clockqueue slot) 1 km
    if encrypted then
      return (true, { p with pgdir := pd, clockqueue := Function.update p.clockqueue slot va }, km)
    else return (false, { p with pgdir := pd }, km)

/-- The loop of `wsetinsert` passes over slots. -/
theorem wsetinsertFrom_passes {p : Proc} (queued : Queued p) (va fuel : Nat) (km : Kmem) {k : Nat}
    (passed : k ≤ passes p) :
    wsetinsertFrom va (fuel + k) p km = wsetinsertFrom va fuel (afterPassing p k) km := by
  induction k generalizing fuel with
  | zero =>
    have same : afterPassing p 0 = p := by
      simp [afterPassing, Passed]
    rw [same]
    rfl
  | succ k inductionHypothesis =>
    have small : k < 8 := lt_of_lt_of_le passed (passes_le p)
    obtain ⟨filled, accessed⟩ := stops_eq_false (stops_passed passed)
    rw [show fuel + (k + 1) = fuel + 1 + k by omega, inductionHypothesis (fuel + 1) (Nat.le_of_succ_le passed)]
    rw [wsetinsertFrom]
    simp only [nextHand_afterPassing]
    have entry : (afterPassing p k).pgdir.walk (vpn (p.clockqueue (slotAt p.clockhand k))) =
        some (p.pgdir.pte (vpn (p.clockqueue (slotAt p.clockhand k)))) := by
      rw [PgDir.walk_some, afterPassing_pte, if_neg (not_passed queued small filled)]
      exact ⟨queued.table _ filled, rfl⟩
    have queue : (afterPassing p k).clockqueue = p.clockqueue := rfl
    rw [queue, if_neg filled, entry, afterPassing_succ queued small filled]
    simp [accessed, queue]

/-- The last turn: the hand stops. -/
theorem wsetinsertFrom_stops {p : Proc} (queued : Queued p) (va fuel : Nat) (km : Kmem) :
    wsetinsertFrom va (fuel + 1) (afterPassing p (passes p)) km =
      replace va (target p) (afterPassing p (passes p)) km := by
  rw [wsetinsertFrom]
  unfold replace
  simp only [nextHand_afterPassing]
  have queue : (afterPassing p (passes p)).clockqueue = p.clockqueue := rfl
  have slot : slotAt p.clockhand (passes p) = target p := rfl
  rw [queue, slot]
  split
  · rfl
  · rename_i filled
    have entry : (afterPassing p (passes p)).pgdir.walk (vpn (p.clockqueue (target p))) =
        some ((afterPassing p (passes p)).pgdir.pte (vpn (p.clockqueue (target p)))) :=
      PgDir.walk_some.mpr ⟨queued.table _ filled, rfl⟩
    have idle : ((afterPassing p (passes p)).pgdir.pte (vpn (p.clockqueue (target p)))).a = false := by
      rw [afterPassing_pte]
      obtain early | full := Nat.lt_or_ge (passes p) 8
      · have unpassed : ¬ Passed p (passes p) (vpn (p.clockqueue (target p))) :=
          not_passed queued early filled
        rw [if_neg unpassed]
        have here := stops_target early
        unfold stops at here
        simpa [filled] using here
      · -- After a full round the hand is back at the first slot.
        have round : passes p = 8 := le_antisymm (passes_le p) full
        have back : target p = slotAt p.clockhand 0 := by
          unfold target
          rw [round]
          rfl
        rw [if_pos ⟨0, by omega, by rw [← back, queued.page _ filled]⟩]
    rw [entry]
    simp only [idle]
    rfl

/-- `wsetinsert` passes over slots and then replaces the content of one; any number of
turns from nine on gives the same. -/
theorem wsetinsertFrom_eq {p : Proc} (queued : Queued p) (va : Nat) (km : Kmem) {fuel : Nat}
    (enough : passes p < fuel) :
    wsetinsertFrom va fuel p km = replace va (target p) (afterPassing p (passes p)) km := by
  obtain ⟨rest, rfl⟩ := Nat.exists_eq_add_of_lt enough
  rw [show passes p + rest + 1 = rest + 1 + passes p by omega,
    wsetinsertFrom_passes queued va (rest + 1) km le_rfl, wsetinsertFrom_stops queued]

/-- The process after an insertion: the page is under the hand, the page that was there
is encrypted, and those that were passed have lost the accessed flag. -/
def inserted (va : Nat) (p : Proc) : Proc := { p with
  clockhand := some (target p)
  clockqueue := Function.update p.clockqueue (target p) va
  pgdir := { p.pgdir with
    pte := fun v =>
      if p.clockqueue (target p) = v.addr then sealed (p.pgdir.pte v)
      else if Passed p (passes p) v then { p.pgdir.pte v with a := false }
      else p.pgdir.pte v } }

/-- The memory after an insertion. -/
def evicted (p : Proc) (km : Kmem) : Kmem :=
  if p.clockqueue (target p) = NOPAGE then km
  else km.complement (p.pgdir.pte (vpn (p.clockqueue (target p)))).ppn

/-- An insertion succeeds when the pages in the queue are open to users and in clear. -/
theorem wsetinsertFrom_inserted {p : Proc} (queued : Queued p)
    (clear : ∀ slot, p.clockqueue slot ≠ NOPAGE → p.pgdir.opens (vpn (p.clockqueue slot)) ∧
      (p.pgdir.pte (vpn (p.clockqueue slot))).e = false)
    (va : Nat) (km : Kmem) {fuel : Nat} (enough : passes p < fuel) :
    wsetinsertFrom va fuel p km = .ok (true, inserted va p, evicted p km) := by
  rw [wsetinsertFrom_eq queued va km enough]
  have queue : (afterPassing p (passes p)).clockqueue = p.clockqueue := rfl
  unfold replace evicted
  simp only [queue]
  split
  · rename_i empty
    have directory : (inserted va p).pgdir = (afterPassing p (passes p)).pgdir := by
      refine PgDir.ext rfl rfl fun v => ?_
      have elsewhere : p.clockqueue (target p) ≠ v.addr := fun same =>
        addr_ne_NOPAGE v (same.symm.trans empty)
      simp only [inserted, if_neg elsewhere, afterPassing_pte]
    have same : inserted va p = { afterPassing p (passes p) with
        pgdir := (inserted va p).pgdir
        clockhand := some (target p)
        clockqueue := Function.update p.clockqueue (target p) va } := rfl
    rw [same, directory]
    rfl
  · rename_i filled
    obtain ⟨opened, bare⟩ := clear _ filled
    have kept : (afterPassing p (passes p)).pgdir.opens (vpn (p.clockqueue (target p))) ∧
        ((afterPassing p (passes p)).pgdir.pte (vpn (p.clockqueue (target p)))).e = false ∧
        sealed ((afterPassing p (passes p)).pgdir.pte (vpn (p.clockqueue (target p)))) =
          sealed (p.pgdir.pte (vpn (p.clockqueue (target p)))) ∧
        ((afterPassing p (passes p)).pgdir.pte (vpn (p.clockqueue (target p)))).ppn =
          (p.pgdir.pte (vpn (p.clockqueue (target p)))).ppn := by
      unfold PgDir.opens at opened ⊢
      rw [afterPassing_pte]
      split
      · exact ⟨opened, bare, rfl, rfl⟩
      · exact ⟨opened, bare, rfl, rfl⟩
    have directory : (inserted va p).pgdir = (afterPassing p (passes p)).pgdir.set
        (vpn (p.clockqueue (target p))) (sealed (p.pgdir.pte (vpn (p.clockqueue (target p))))) := by
      refine PgDir.ext rfl rfl fun v => ?_
      rw [PgDir.set_pte, afterPassing_pte]
      have here : p.clockqueue (target p) = v.addr ↔ v = vpn (p.clockqueue (target p)) := by
        constructor
        · intro same
          rw [same, vpn_of_addr]
        · rintro rfl
          exact (queued.page _ filled).symm
      simp only [inserted, here]
      split
      · rename_i same
        rw [same]
      · rfl
    have same : inserted va p = { afterPassing p (passes p) with
        pgdir := (inserted va p).pgdir
        clockhand := some (target p)
        clockqueue := Function.update p.clockqueue (target p) va } := rfl
    have table : (afterPassing p (passes p)).pgdir.tables (vpn (p.clockqueue (target p))).pdx ≠ none :=
      queued.table _ filled
    rw [mencrypt_open table kept.1, kept.2.1, kept.2.2.1, kept.2.2.2, same, directory]
    rfl

/-- Where the hand stops depends on the entries of the pages in the queue only. -/
theorem passes_congr {p q : Proc} (queue : q.clockqueue = p.clockqueue) (hand : q.clockhand = p.clockhand)
    (entries : ∀ slot, p.clockqueue slot ≠ NOPAGE →
      q.pgdir.pte (vpn (p.clockqueue slot)) = p.pgdir.pte (vpn (p.clockqueue slot))) :
    passes q = passes p := by
  have same : ∀ slot, stops q slot = stops p slot := by
    intro slot
    unfold stops
    rw [queue]
    by_cases empty : p.clockqueue slot = NOPAGE
    · simp [empty]
    · rw [entries slot empty]
  unfold passes
  rw [hand]
  simp only [same]

/-- The process in `mdecrypt` before the insertion: the page is in clear. -/
def cleared (p : Proc) (v : Vpn) : Proc :=
  { p with pgdir := p.pgdir.set v { p.pgdir.pte v with e := false, p := true, a := true } }

section Mdecrypt

variable {p : Proc} {va : Nat}

/-- The page that is decrypted is not in the queue, so that the way of the hand is the
same before and after its entry is turned. -/
theorem cleared_pte (fresh : ¬ Listed p.clockqueue (vpn va).addr) (queued : Queued p) {slot : Fin 8}
    (filled : p.clockqueue slot ≠ NOPAGE) :
    (cleared p (vpn va)).pgdir.pte (vpn (p.clockqueue slot)) = p.pgdir.pte (vpn (p.clockqueue slot)) := by
  unfold cleared
  rw [PgDir.set_pte, if_neg]
  intro same
  exact fresh ⟨slot, by rw [← same, queued.page slot filled]⟩

/-- The queue has no page table less. -/
theorem Queued.cleared (queued : Queued p) (v : Vpn) : Queued (cleared p v) :=
  ⟨queued.distinct, queued.page, queued.table⟩

/-- The pages in the queue stay in clear. -/
theorem cleared_clear (queued : Queued p) (fresh : ¬ Listed p.clockqueue (vpn va).addr)
    (clear : ∀ slot, p.clockqueue slot ≠ NOPAGE → p.pgdir.opens (vpn (p.clockqueue slot)) ∧
      (p.pgdir.pte (vpn (p.clockqueue slot))).e = false) (slot : Fin 8)
    (filled : (cleared p (vpn va)).clockqueue slot ≠ NOPAGE) :
    (cleared p (vpn va)).pgdir.opens (vpn ((cleared p (vpn va)).clockqueue slot)) ∧
      ((cleared p (vpn va)).pgdir.pte (vpn ((cleared p (vpn va)).clockqueue slot))).e = false := by
  have queue : (cleared p (vpn va)).clockqueue = p.clockqueue := rfl
  rw [queue] at filled ⊢
  unfold PgDir.opens
  rw [cleared_pte fresh queued filled]
  exact clear slot filled

/-- `mdecrypt` of a page that is mapped and not in the queue. -/
theorem mdecrypt_inserted (queued : Queued p)
    (clear : ∀ slot, p.clockqueue slot ≠ NOPAGE → p.pgdir.opens (vpn (p.clockqueue slot)) ∧
      (p.pgdir.pte (vpn (p.clockqueue slot))).e = false)
    (low : va < KERNBASE) (table : p.pgdir.tables (vpn va).pdx ≠ none) (filled : p.pgdir.pte (vpn va) ≠ {})
    (fresh : ¬ Listed p.clockqueue (vpn va).addr) (km : Kmem) :
    mdecrypt p va km = .ok (true, inserted (vpn va).addr (cleared p (vpn va)),
      evicted (cleared p (vpn va)) (km.complement (p.pgdir.pte (vpn va)).ppn)) := by
  have walked : p.pgdir.walk (vpn va) = some (p.pgdir.pte (vpn va)) := PgDir.walk_some.mpr ⟨table, rfl⟩
  unfold mdecrypt
  rw [if_neg (Nat.not_le.mpr low), walked]
  simp only [if_neg filled, PGROUNDDOWN_eq low]
  exact wsetinsertFrom_inserted (Queued.cleared queued (vpn va)) (cleared_clear queued fresh clear) _ _
    (Nat.lt_succ_of_le (passes_le _))

end Mdecrypt

end P6

/-! ## Processes at rest -/

/-- A process whose queue lists the pages in clear: its addresses are those of
different pages that are open to users, and of the pages open to users exactly those in
the queue are present and not encrypted. -/
structure Settled (p : Proc) : Prop where
  decent : Decent p
  distinct : ∀ slot other, p.clockqueue slot ≠ NOPAGE → p.clockqueue slot = p.clockqueue other → slot = other
  page : ∀ slot, p.clockqueue slot ≠ NOPAGE → (vpn (p.clockqueue slot)).addr = p.clockqueue slot
  listed : ∀ slot, p.clockqueue slot ≠ NOPAGE → p.pgdir.opens (vpn (p.clockqueue slot))
  known : ∀ v, p.pgdir.opens v →
    (((p.pgdir.pte v).p = true ∧ (p.pgdir.pte v).e = false) ↔ Listed p.clockqueue v.addr)

namespace Settled

variable {p : Proc}

theorem queued (settled : Settled p) : Queued p :=
  ⟨settled.distinct, settled.page, fun slot filled => settled.decent.tidy.table (settled.listed slot filled).1⟩

/-- The pages in the queue are in clear. -/
theorem clear (settled : Settled p) (slot : Fin 8) (filled : p.clockqueue slot ≠ NOPAGE) :
    p.pgdir.opens (vpn (p.clockqueue slot)) ∧ (p.pgdir.pte (vpn (p.clockqueue slot))).e = false := by
  have opened := settled.listed slot filled
  exact ⟨opened, ((settled.known _ opened).mpr ⟨slot, (settled.page slot filled).symm⟩).2⟩

/-- A page that is encrypted or closed to users is not in the queue. -/
theorem fresh (settled : Settled p) {v : Vpn}
    (hidden : (p.pgdir.pte v).e = true ∨ (p.pgdir.pte v).u = false) : ¬ Listed p.clockqueue v.addr := by
  rintro ⟨slot, held⟩
  have filled : p.clockqueue slot ≠ NOPAGE := fun empty => addr_ne_NOPAGE v (held.symm.trans empty)
  obtain ⟨⟨-, user⟩, bare⟩ := settled.clear slot filled
  rw [held, vpn_of_addr] at user bare
  obtain encrypted | closed := hidden
  · rw [encrypted] at bare
    cases bare
  · rw [closed] at user
    cases user

end Settled

/-! ## A process with a full queue -/

/-- Ten pages: eight that are in clear and were accessed, the guard page and the stack,
which is encrypted. -/
def crowdedPages : PgDir where
  root := 1
  tables := fun i => if i = 0 then some 2 else none
  pte := fun v =>
    if v.val < 8 then { p := true, w := true, u := true, a := true, ppn := 3 + v.val }
    else if v.val = 8 then { p := true, w := true, ppn := 11 }
    else if v.val = 9 then { w := true, u := true, e := true, ppn := 12 }
    else {}

/-- A process with a full queue and its hand at the last slot. -/
def crowded : Proc where
  pgdir := crowdedPages
  sz := 10 * PGSIZE
  kstack := 13
  clockqueue := fun slot => slot.val * PGSIZE
  clockhand := some 7

theorem crowdedPages_table {v : Vpn} (mapped : crowdedPages.pte v ≠ {}) :
    crowdedPages.tables v.pdx ≠ none := by
  have low : v.val < 10 := by
    by_contra high
    refine mapped ?_
    unfold crowdedPages
    simp only
    rw [if_neg (by omega), if_neg (by omega), if_neg (by omega)]
  have first : v.pdx = 0 := by
    unfold Vpn.pdx
    apply Fin.ext
    simp only [Fin.val_zero]
    omega
  simp [crowdedPages, first]

theorem crowded_decent : Decent crowded := by
  have cases : ∀ v, crowdedPages.pte v = {} ∨ v.user ∧ (crowdedPages.pte v).p ≠ (crowdedPages.pte v).e ∧
      ((crowdedPages.pte v).e = true → (crowdedPages.pte v).u = true) := by
    intro v
    unfold crowdedPages Vpn.user
    simp only
    split
    · exact .inr ⟨by omega, by simp, by simp⟩
    · split
      · exact .inr ⟨by omega, by simp, by simp⟩
      · split
        · exact .inr ⟨by omega, by simp, by simp⟩
        · exact .inl rfl
  refine ⟨⟨fun v missing => ?_, fun v low filled => ?_, fun v high => ?_⟩, by decide, fun v mapped => ?_,
    fun v encrypted => ?_⟩
  · by_contra filled
    exact crowdedPages_table filled missing
  · obtain empty | ⟨-, exclusive, -⟩ := cases v
    · exact absurd empty filled
    · change (crowdedPages.pte v).mapped = true
      unfold Pte.mapped
      revert exclusive
      cases (crowdedPages.pte v).p <;> cases (crowdedPages.pte v).e <;> simp
  · obtain empty | ⟨low, -⟩ := cases v
    · change (crowdedPages.pte v).u = false ∧ (crowdedPages.pte v).e = false
      rw [empty]
      exact ⟨rfl, rfl⟩
    · exact absurd low high
  · obtain empty | ⟨-, exclusive, -⟩ := cases v
    · change (crowdedPages.pte v).mapped = true at mapped
      rw [empty] at mapped
      cases mapped
    · exact exclusive
  · obtain empty | ⟨-, -, guarded⟩ := cases v
    · change (crowdedPages.pte v).e = true at encrypted
      rw [empty] at encrypted
      cases encrypted
    · exact guarded encrypted

theorem crowded_settled : Settled crowded := by
  have page : ∀ slot : Fin 8, (vpn (slot.val * PGSIZE)).addr = slot.val * PGSIZE := by decide
  refine ⟨crowded_decent, by decide, fun slot _ => page slot, by decide, fun v opened => ?_⟩
  have low : v.val < 8 ∨ v.val = 9 := by
    unfold PgDir.opens crowded crowdedPages at opened
    simp only at opened
    by_contra other
    rw [if_neg (by omega)] at opened
    split at opened
    · cases opened.2
    · rw [if_neg (by omega)] at opened
      cases opened.2
  obtain low | rfl : v.val < 8 ∨ v = 9 := low.imp_right fun same => Fin.ext same
  · constructor
    · intro _
      exact ⟨⟨v.val, low⟩, rfl⟩
    · intro _
      simp [crowded, crowdedPages, low]
  · constructor
    · intro bare
      exact absurd bare (by decide)
    · intro listed
      exact absurd listed (by decide)

/-- A machine without free frames. -/
def quiet : Kmem where
  freelist := []
  mem := fun _ _ => 0
  refusals := []
  layout := .small
  doubled := false

end Cs537.Vm
