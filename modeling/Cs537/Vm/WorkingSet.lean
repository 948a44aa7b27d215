import Cs537.Vm.ClockRing
import Cs537.Vm.PageFaults
import Cs537.Vm.Supply

/-!
# The working set of p6

The clock queue of a process should list the pages that are in clear. Page faults,
evictions, `fork` and `exec` keep it so. `growproc` does not in general: upwards it
rounds the number of new pages down and starts at the page of the old size, and
downwards it removes the pages at and below the new size from the queue where the
pages at and above it have gone.
-/

namespace Cs537.Vm

open Occurrences Ledger Runs

/-! ## Coherence -/

/-- What is asked of a process: the addresses in its queue are distinct, page-aligned
and below its size, and of the pages open to users exactly those in the queue are in
clear. -/
structure WorkingSet (p : Proc) : Prop where
  distinct : ∀ slot other, p.clockqueue slot ≠ NOPAGE → p.clockqueue slot = p.clockqueue other → slot = other
  aligned : ∀ slot, p.clockqueue slot ≠ NOPAGE → PGSIZE ∣ p.clockqueue slot
  below : ∀ slot, p.clockqueue slot ≠ NOPAGE → p.clockqueue slot < p.sz
  known : ∀ v, p.pgdir.opens v →
    (((p.pgdir.pte v).p = true ∧ (p.pgdir.pte v).e = false) ↔ Listed p.clockqueue v.addr)

/-- The invariant: also, the pages in the queue are open to users, the mapped pages lie
below the size, and the hand has moved once the queue is used. -/
structure Coherent (p : Proc) : Prop extends WorkingSet p where
  decent : Decent p
  listed : ∀ slot, p.clockqueue slot ≠ NOPAGE → p.pgdir.opens (vpn (p.clockqueue slot))
  inside : ∀ v : Vpn, v.user → (p.pgdir.pte v).mapped = true → v.addr < p.sz
  moved : p.clockhand = none → ∀ slot, p.clockqueue slot = NOPAGE

/-- At most as many pages are in clear as the queue has slots. -/
theorem WorkingSet.few {p : Proc} (coherent : WorkingSet p) :
    {v | p.pgdir.opens v ∧ (p.pgdir.pte v).p = true ∧ (p.pgdir.pte v).e = false}.ncard ≤ 8 := by
  have slots : ∀ v ∈ {v | p.pgdir.opens v ∧ (p.pgdir.pte v).p = true ∧ (p.pgdir.pte v).e = false},
      ∃ slot, p.clockqueue slot = v.addr :=
    fun v member => (coherent.known v member.1).mp member.2
  choose! slot found using slots
  have bound := Set.ncard_le_ncard_of_injOn (t := Set.univ) slot (fun _ _ => Set.mem_univ _) (by
    intro v member w member' same
    exact addr_inj ((found v member).symm.trans ((congrArg p.clockqueue same).trans (found w member'))))
  simpa [Set.ncard_univ] using bound

/-- An address in the queue is that of its page. -/
theorem Coherent.addr {p : Proc} (coherent : Coherent p) {slot : Fin 8}
    (filled : p.clockqueue slot ≠ NOPAGE) : (vpn (p.clockqueue slot)).addr = p.clockqueue slot := by
  have below := coherent.below slot filled
  have bounded := coherent.decent.bounded
  refine vpn_addr ?_ (coherent.aligned slot filled)
  unfold KERNBASE at bounded
  omega

/-- A coherent process is settled. -/
theorem Coherent.settled {p : Proc} (coherent : Coherent p) : Settled p :=
  ⟨coherent.decent, coherent.distinct, fun _ filled => coherent.addr filled, coherent.listed, coherent.known⟩

/-- The pages above the size of a coherent process are not mapped. -/
theorem Coherent.blank {p : Proc} (coherent : Coherent p) {v : Vpn} (low : v.user) (above : p.sz ≤ v.addr) :
    p.pgdir.pte v = {} := by
  refine coherent.decent.tidy.empty low fun mapped => ?_
  exact absurd (coherent.inside v low mapped) (Nat.not_lt.mpr above)

/-! ## Page faults -/

/-- Neither the present nor the encrypted flag changes with the accessed flag. -/
theorem mark_flags (pd : PgDir) (w u : Vpn) (a : Bool) :
    ((pd.set w { pd.pte w with a := a }).pte u).p = (pd.pte u).p ∧
      ((pd.set w { pd.pte w with a := a }).pte u).e = (pd.pte u).e := by
  rw [PgDir.set_pte]
  split
  · rename_i same
    rw [same]
    exact ⟨rfl, rfl⟩
  · exact ⟨rfl, rfl⟩

/-- `mdecrypt` of an encrypted user page keeps the working set. -/
theorem P6.mdecrypt_coherent {p p' : Proc} {va : Nat} {km km' : Kmem} {decrypted : Bool}
    (coherent : Coherent p) (opened : p.pgdir.opens (vpn va))
    (encrypted : (p.pgdir.pte (vpn va)).e = true)
    (result : mdecrypt p va km = .ok (decrypted, p', km')) : Coherent p' := by
  obtain ⟨-, rfl, -⟩ | ⟨low, table, filled, -⟩ := mdecrypt_cases result
  · exact coherent
  have fresh := coherent.settled.fresh (.inl encrypted)
  have queued := coherent.settled.queued
  have recrypted := mdecrypt_recrypts coherent.decent.tidy opened encrypted result
  rw [mdecrypt_inserted queued coherent.settled.clear low table filled fresh km] at result
  obtain ⟨-, rfl, rfl⟩ : true = decrypted ∧ _ = p' ∧ _ = km' := by simpa using result
  have replaced := inserted_replaced queued fresh km
  generalize inserted (vpn va).addr (cleared p (vpn va)) = p' at replaced recrypted ⊢
  generalize evicted (cleared p (vpn va)) (km.complement (p.pgdir.pte (vpn va)).ppn) = km' at replaced recrypted
  have retouched := recrypted.1.toRetouches
  have place : ∀ slot, p'.clockqueue slot = if slot = target p then (vpn va).addr else p.clockqueue slot := by
    intro slot
    rw [replaced.queue, Function.update_apply]
  refine ⟨⟨?_, fun slot held => ?_, fun slot held => ?_, fun v opened' => ?_⟩,
    coherent.decent.recrypt retouched replaced.size.1, fun slot held => ?_, fun v user mapped => ?_,
    fun none => by rw [replaced.hand] at none; cases none⟩
  · rw [replaced.queue]
    exact distinct_update coherent.distinct fresh
  · rw [place] at held ⊢
    split
    · exact Dvd.intro_left _ rfl
    · rename_i different
      exact coherent.aligned slot (by rwa [if_neg different] at held)
  · rw [place] at held ⊢
    rw [replaced.size.1]
    split
    · exact coherent.inside _ (coherent.decent.tidy.low opened.2) opened.1
    · rename_i different
      exact coherent.below slot (by rwa [if_neg different] at held)
  · rw [replaced.queue, listed_update coherent.distinct (addr_ne_NOPAGE v)]
    by_cases new : v = vpn va
    · rw [new, replaced.page]
      exact ⟨fun _ => .inl rfl, fun _ => ⟨rfl, rfl⟩⟩
    have apart : v.addr ≠ (vpn va).addr := fun same => new (addr_inj same)
    by_cases old : v.addr = p.clockqueue (target p)
    · rw [replaced.victim v old]
      exact ⟨fun bare => (by cases bare.2), fun listed => (listed.elim apart fun kept => kept.2 old).elim⟩
    · have flags : (p'.pgdir.pte v).p = (p.pgdir.pte v).p ∧ (p'.pgdir.pte v).e = (p.pgdir.pte v).e := by
        by_cases passed : Passed p (passes p) v
        · rw [replaced.passed v old passed]
          exact ⟨rfl, rfl⟩
        · rw [replaced.others v new old passed]
          exact ⟨rfl, rfl⟩
      rw [flags.1, flags.2, coherent.known v (retouched.opens.mp opened')]
      exact ⟨fun listed => .inr ⟨listed, old⟩, fun listed => (listed.resolve_left apart).1⟩
  · rw [retouched.opens]
    rw [place] at held ⊢
    split
    · rw [vpn_of_addr]
      exact opened
    · rename_i different
      exact coherent.listed slot (by rwa [if_neg different] at held)
  · rw [replaced.size.1]
    exact coherent.inside v user (retouched.mapped v ▸ mapped)

/-- A completed access sets the accessed flag, which does not matter either. -/
theorem Coherent.touch {p : Proc} (coherent : Coherent p) (km : Kmem) {v : Vpn}
    (filled : p.pgdir.pte v ≠ {}) :
    Coherent { p with pgdir := p.pgdir.set v { p.pgdir.pte v with a := true } } := by
  have marked := Recrypts.mark p.pgdir km v true fun _ => filled
  have flags := fun u => mark_flags p.pgdir v u true
  refine ⟨⟨coherent.distinct, coherent.aligned, coherent.below, fun u opened => ?_⟩,
    coherent.decent.recrypt marked.toRetouches rfl, fun slot filled => ?_, fun u low mapped => ?_,
    coherent.moved⟩
  · simp only [(flags u).1, (flags u).2]
    exact coherent.known u (marked.opens.mp opened)
  · exact marked.opens.mpr (coherent.listed slot filled)
  · exact coherent.inside u low (marked.mapped u ▸ mapped)

/-! ## A process after `exec` -/

/-- A process as `exec` leaves it: every page open to users is encrypted, and the queue is
empty. -/
structure Fresh (p : Proc) : Prop where
  decent : Decent p
  empty : ∀ slot, p.clockqueue slot = NOPAGE
  hand : p.clockhand = none
  hidden : ∀ v, p.pgdir.opens v → (p.pgdir.pte v).e = true
  inside : ∀ v : Vpn, v.user → (p.pgdir.pte v).mapped = true → v.addr < p.sz

theorem Fresh.coherent {p : Proc} (fresh : Fresh p) : Coherent p := by
  refine ⟨⟨fun slot _ filled => absurd (fresh.empty slot) filled, fun slot filled => absurd (fresh.empty slot) filled,
    fun slot filled => absurd (fresh.empty slot) filled, fun v opened => ⟨fun clear => ?_, fun listed => ?_⟩⟩,
    fresh.decent, fun slot filled => absurd (fresh.empty slot) filled, fresh.inside, fun _ => fresh.empty⟩
  · exact absurd (clear.2.symm.trans (fresh.hidden v opened)) Bool.false_ne_true
  · obtain ⟨slot, held⟩ := listed
    exact absurd (held.symm.trans (fresh.empty slot)) (addr_ne_NOPAGE v)

/-- Three pages: one of the program, the guard page and the stack. -/
def launchedPages : PgDir :=
  (((PgDir.addTable ⟨1024, fun _ => none, fun _ => {}⟩ 0 1025).set 0
    { w := true, u := true, e := true, ppn := 1026 }).set 1
    { p := true, w := true, ppn := 1027 }).set 2
    { w := true, u := true, e := true, ppn := 1028 }

/-- A process as `exec` leaves it. -/
def launched : Proc := ⟨launchedPages, 3 * PGSIZE, 1029, fun _ => NOPAGE, none⟩

/-- Two frames are free. -/
def twoFrames : Kmem where
  freelist := [1030, 1031]
  mem := fun _ _ => 0
  refusals := []
  layout := .small
  doubled := false

theorem launchedPages_pte (v : Vpn) : launchedPages.pte v =
    if v = 2 then { w := true, u := true, e := true, ppn := 1028 }
    else if v = 1 then { p := true, w := true, ppn := 1027 }
    else if v = 0 then { w := true, u := true, e := true, ppn := 1026 }
    else {} := by
  rw [launchedPages, PgDir.set_pte, PgDir.set_pte, PgDir.set_pte, (tidy_blank 1024).addTable_pte rfl]

theorem launchedPages_refs (f : Frame) : launchedPages.refs f =
    one 1024 f + one 1025 f + one 1026 f + one 1027 f + one 1028 f := by
  have user : ∀ v : Vpn, v.val < 3 → v.user := fun v small => by unfold Vpn.user; omega
  unfold launchedPages
  rw [Tidy.refs_map (user 2 (by decide)) rfl rfl, Tidy.refs_map (user 1 (by decide)) rfl rfl,
    Tidy.refs_map (user 0 (by decide)) rfl rfl, (tidy_blank 1024).refs_addTable rfl, refs_blank]

theorem launchedPages_tidy : Tidy launchedPages := by
  have blank : Tidy (PgDir.addTable ⟨1024, fun _ => none, fun _ => {}⟩ 0 1025) :=
    (tidy_blank 1024).addTable rfl 1025
  have low : ∀ v : Vpn, v.val < 3 → v.user := fun v small => by unfold Vpn.user; omega
  refine ((blank.set ?_ (fun _ _ => rfl) fun high => absurd (low 0 (by decide)) high).set ?_ (fun _ _ => rfl)
    fun high => absurd (low 1 (by decide)) high).set ?_ (fun _ _ => rfl)
    fun high => absurd (low 2 (by decide)) high
  all_goals simp [PgDir.addTable, Vpn.pdx]

theorem launched_fresh : Fresh launched := by
  have flags : ∀ v, (launchedPages.pte v).mapped = true →
      v.val < 3 ∧ (launchedPages.pte v).p = (!(launchedPages.pte v).e) ∧
        (launchedPages.pte v).e = (launchedPages.pte v).u := by
    intro v mapped
    rw [launchedPages_pte] at mapped ⊢
    split at mapped
    · rename_i same
      rw [if_pos same, same]
      decide
    · rename_i first
      rw [if_neg first]
      split at mapped
      · rename_i same
        rw [if_pos same, same]
        decide
      · rename_i second
        rw [if_neg second]
        split at mapped
        · rename_i same
          rw [if_pos same, same]
          decide
        · cases mapped
  refine ⟨⟨launchedPages_tidy, by decide, fun v mapped => ?_, fun v encrypted => ?_⟩, fun _ => rfl, rfl,
    fun v opened => ?_, fun v _ mapped => ?_⟩
  · obtain ⟨-, opposite, -⟩ := flags v mapped
    intro same
    change (launchedPages.pte v).p = (launchedPages.pte v).e at same
    rw [same] at opposite
    revert opposite
    cases (launchedPages.pte v).e <;> simp
  · have mapped : (launchedPages.pte v).mapped = true := by
      change (launchedPages.pte v).e = true at encrypted
      simp [Pte.mapped, encrypted]
    obtain ⟨-, -, same⟩ := flags v mapped
    exact same ▸ encrypted
  · obtain ⟨-, -, same⟩ := flags v opened.1
    exact same.trans opened.2
  · obtain ⟨small, -⟩ := flags v mapped
    change v.addr < 3 * PGSIZE
    unfold Vpn.addr PGSIZE
    omega

theorem launched_coherent : Coherent launched := launched_fresh.coherent

/-- Each frame has one place. -/
theorem launched_single : Single launched.pgdir.refs twoFrames.store := by
  intro f
  have refs : launched.pgdir.refs f = _ := launchedPages_refs f
  rw [refs]
  simp only [Kmem.store, twoFrames, List.count_cons, List.count_nil, one, beq_iff_eq]
  grind

/-- All frames may be freed. -/
theorem launched_proper : Proper launched.pgdir twoFrames := by
  intro f placed
  have refs : launched.pgdir.refs f = _ := launchedPages_refs f
  rw [refs] at placed
  have one_of : f ∈ [1024, 1025, 1026, 1027, 1028, 1030, 1031] := by
    simp only [twoFrames, List.count_cons, List.count_nil, one, beq_iff_eq] at placed
    simp only [List.mem_cons, List.not_mem_nil, or_false]
    grind
  have all : ∀ f ∈ [1024, 1025, 1026, 1027, 1028, 1030, 1031], twoFrames.accepts f = true := by decide
  exact all f one_of

end Cs537.Vm
