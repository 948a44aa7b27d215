import Cs537.Vm.Supply

/-!
# The frames that a new page table asks for

A new page table grows at three places: in the kernel's memory, in the range of the
devices, and in the user's memory. In each of them the page-table pages that are there
are those below a mark, so that the calls of `kalloc` can be counted exactly. What is
left after a number of granted calls grants exactly the calls after them.
-/

namespace Cs537.Vm

open Occurrences Ledger

/-! ## Granted calls -/

/-- After `count` granted calls `km'` is left. -/
def Kmem.Draws (km : Kmem) (count : Nat) (km' : Kmem) : Prop :=
  ∀ more, km.grants (count + more) = km'.grants more

namespace Kmem

variable {km km' km'' : Kmem} {count count' : Nat}

theorem Draws.refl (km : Kmem) : km.Draws 0 km := by
  intro more
  rw [Nat.zero_add]

theorem Draws.trans (first : km.Draws count km') (second : km'.Draws count' km'') :
    km.Draws (count + count') km'' := by
  intro more
  rw [Nat.add_assoc, first, second]

/-- The calls were granted. -/
theorem Draws.granted (drawn : km.Draws count km') : km.grants count = true := drawn 0

/-- What follows is refused. -/
theorem Draws.refused (drawn : km.Draws count km') (refused : km'.grants count' = false) :
    km.grants (count + count') = false := (drawn count').trans refused

/-- One granted call, after which the page is filled. -/
theorem Draws.first {f : Frame} (granted : km.kalloc = (some f, km')) (byte : BitVec 8) :
    km.Draws 1 (km'.fill f byte) := by
  intro more
  rw [Nat.add_comm, grants_granted granted, grants_fill]

/-- If more calls are granted, fewer are. -/
theorem grants_fewer {more : Nat} (granted : km.grants (count + more) = true) : km.grants count = true := by
  induction count generalizing km with
  | zero => rfl
  | succ count inductionHypothesis =>
    rw [Nat.add_right_comm] at granted
    unfold grants at granted ⊢
    split at granted
    · cases granted
    · exact inductionHypothesis granted

theorem grants_le {more : Nat} (granted : km.grants count = true) (fewer : more ≤ count) :
    km.grants more = true := by
  rw [← Nat.add_sub_cancel' fewer] at granted
  exact grants_fewer granted

end Kmem

/-! ## Page-table pages below a mark -/

/-- The page-table pages of a page table are those whose first address is in a set. -/
def PgDir.Covers (pd : PgDir) (bases : Nat → Prop) : Prop :=
  ∀ i : Fin 1024, pd.tables i ≠ none ↔ bases (i.val * 2 ^ 22)

theorem PgDir.Covers.congr {pd : PgDir} {bases bases' : Nat → Prop} (covers : pd.Covers bases)
    (same : ∀ i : Fin 1024, bases (i.val * 2 ^ 22) ↔ bases' (i.val * 2 ^ 22)) : pd.Covers bases' :=
  fun i => (covers i).trans (same i)

/-- The set `others`, and the addresses from `lo` up to a mark. -/
def upto (others : Nat → Prop) (lo mark : Nat) : Nat → Prop := fun a => others a ∨ lo ≤ a ∧ a < mark

/-- The number of page-table pages for the addresses below a mark. -/
def tablesBelow (mark : Nat) : Nat := (mark + 2 ^ 22 - 1) / 2 ^ 22

theorem tablesBelow_mono {mark mark' : Nat} (le : mark ≤ mark') : tablesBelow mark ≤ tablesBelow mark' := by
  unfold tablesBelow
  omega

section Region

variable {others : Nat → Prop} {lo hi : Nat} (base : 2 ^ 22 ∣ lo) (top : hi ≤ 2 ^ 32)
  (apart : ∀ a, others a → a < lo ∨ hi ≤ a)

include base top apart

/-- `walkpgdir` for the page at the mark: a page-table page is allocated exactly at the
start of four megabytes. -/
theorem walkpgdir_upto {a : Nat} {pd : PgDir} (aligned : PGSIZE ∣ a) (above : lo ≤ a) (below : a < hi)
    (covers : pd.Covers (upto others lo a)) (km : Kmem) :
    match walkpgdir pd (vpn a) km with
    | (none, _) => km.grants (tablesBelow (a + PGSIZE) - tablesBelow a) = false
    | (some pd', km') => pd'.Covers (upto others lo (a + PGSIZE)) ∧
        km.Draws (tablesBelow (a + PGSIZE) - tablesBelow a) km' := by
  obtain ⟨first, last⟩ := pdx_bounds (below.trans_le top)
  have known := covers (vpn a).pdx
  have foreign : ¬ others ((vpn a).pdx.val * 2 ^ 22) := by
    intro other
    have outside := apart _ other
    omega
  have further : ∀ i : Fin 1024, i ≠ (vpn a).pdx →
      (upto others lo a (i.val * 2 ^ 22) ↔ upto others lo (a + PGSIZE) (i.val * 2 ^ 22)) := by
    intro i different
    have other : i.val ≠ (vpn a).pdx.val := fun same => different (Fin.ext same)
    refine or_congr Iff.rfl (and_congr Iff.rfl ?_)
    clear known foreign covers
    unfold PGSIZE at *
    omega
  have here : upto others lo (a + PGSIZE) ((vpn a).pdx.val * 2 ^ 22) := by
    refine .inr ⟨?_, ?_⟩
    · clear known foreign covers further
      omega
    · clear known foreign covers further
      unfold PGSIZE
      omega
  unfold walkpgdir
  cases present : pd.tables (vpn a).pdx with
  | some t =>
    have begun : (vpn a).pdx.val * 2 ^ 22 < a :=
      ((known.mp (by simp [present])).resolve_left foreign).2
    have none : tablesBelow (a + PGSIZE) - tablesBelow a = 0 := by
      clear known foreign covers further here
      unfold tablesBelow PGSIZE at *
      omega
    refine ⟨fun i => ?_, by rw [none]; exact Kmem.Draws.refl km⟩
    by_cases same : i = (vpn a).pdx
    · rw [same]
      exact iff_of_true (by simp [present]) here
    · exact (covers i).trans (further i same)
  | none =>
    have start : ¬ (vpn a).pdx.val * 2 ^ 22 < a := fun begun => by
      refine (known.mpr (.inr ⟨?_, begun⟩)) present
      clear known foreign covers further here
      omega
    have one : tablesBelow (a + PGSIZE) - tablesBelow a = 1 := by
      clear known foreign covers further here
      unfold tablesBelow PGSIZE at *
      omega
    rw [one]
    cases asked : km.kalloc with
    | mk made rest =>
      cases made with
      | none => exact Kmem.grants_refused asked 0
      | some f =>
        refine ⟨fun i => ?_, Kmem.Draws.first asked 0⟩
        by_cases same : i = (vpn a).pdx
        · rw [same]
          exact iff_of_true (by simp [PgDir.addTable]) here
        · simp only [PgDir.addTable, Function.update_of_ne same]
          exact (covers i).trans (further i same)

/-- One turn of the loop of `mappages` at the mark, for a page that is not mapped. -/
theorem mappagesFrom_turn {ver : Version} {w : Bool} {more a : Nat} {ppn : Frame} {pd : PgDir} {km : Kmem}
    (aligned : PGSIZE ∣ a) (above : lo ≤ a) (below : a < hi) (tidy : Tidy pd) (high : KERNBASE ≤ a)
    (blank : ∀ v : Vpn, a ≤ v.addr → (pd.pte v).mapped = false) (covers : pd.Covers (upto others lo a)) :
    (∃ rest, mappagesFrom ver { w := w } more (vpn a) ppn pd km = .ok (false, pd, rest) ∧
      km.grants (tablesBelow (a + PGSIZE) - tablesBelow a) = false) ∨
    ∃ pd' km', (mappagesFrom ver { w := w } more (vpn a) ppn pd km =
        match more with
        | 0 => .ok (true, pd', km')
        | more + 1 => mappagesFrom ver { w := w } more (vpn a + 1) (ppn + 1) pd' km') ∧
      pd'.Covers (upto others lo (a + PGSIZE)) ∧ km.Draws (tablesBelow (a + PGSIZE) - tablesBelow a) km' ∧
      Tidy pd' ∧ ∀ v : Vpn, a + PGSIZE ≤ v.addr → (pd'.pte v).mapped = false := by
  have page : (vpn a).addr = a := vpn_addr (below.trans_le top) aligned
  have upper : ¬ (vpn a).user := fun low => by
    rw [Vpn.user_iff, page] at low
    omega
  have walked := walkpgdir_upto base top apart aligned above below covers km
  cases result : walkpgdir pd (vpn a) km with
  | mk made rest =>
    rw [result] at walked
    cases made with
    | none => exact .inl ⟨rest, by rw [mappagesFrom, result], walked⟩
    | some middle =>
      have entries := (walkpgdir_some tidy result).1
      have unmapped : ¬ (middle.pte (vpn a)).mapped = true := by
        rw [entries, blank (vpn a) page.ge]
        exact Bool.false_ne_true
      refine .inr ⟨middle.set (vpn a) (ver.entry ppn { w := w }), rest, ?_, walked.1, walked.2,
        (enter_kernel ver w ppn tidy upper result).1, fun v beyond => ?_⟩
      · rw [mappagesFrom, result]
        simp only [if_neg unmapped]
        cases more <;> rfl
      · have different : v ≠ vpn a := by
          rintro rfl
          unfold PGSIZE at beyond
          omega
        rw [PgDir.set_pte, if_neg different, entries]
        exact blank v (by omega)

/-- The loop of `mappages` from the mark on, over pages that are not mapped. -/
theorem mappagesFrom_upto {ver : Version} {w : Bool} {more a : Nat} {ppn : Frame} {pd : PgDir} {km : Kmem}
    (aligned : PGSIZE ∣ a) (above : lo ≤ a) (below : a + (more + 1) * PGSIZE ≤ hi) (tidy : Tidy pd)
    (high : KERNBASE ≤ a) (blank : ∀ v : Vpn, a ≤ v.addr → (pd.pte v).mapped = false)
    (covers : pd.Covers (upto others lo a)) :
    ∃ mapped pd' km', mappagesFrom ver { w := w } more (vpn a) ppn pd km = .ok (mapped, pd', km') ∧
      if mapped then
        pd'.Covers (upto others lo (a + (more + 1) * PGSIZE)) ∧
          km.Draws (tablesBelow (a + (more + 1) * PGSIZE) - tablesBelow a) km' ∧
          ∀ v : Vpn, a + (more + 1) * PGSIZE ≤ v.addr → (pd'.pte v).mapped = false
      else km.grants (tablesBelow (a + (more + 1) * PGSIZE) - tablesBelow a) = false := by
  induction more generalizing a ppn pd km with
  | zero =>
    rw [Nat.zero_add, Nat.one_mul] at below ⊢
    have inside : a < hi := by
      unfold PGSIZE at below
      omega
    obtain ⟨rest, result, refused⟩ | ⟨pd', km', result, covers', drawn, -, blank'⟩ :=
      @mappagesFrom_turn others lo hi base top apart ver w 0 a ppn pd km aligned above inside tidy high blank covers
    · exact ⟨false, pd, rest, result, refused⟩
    · exact ⟨true, pd', km', result, covers', drawn, blank'⟩
  | succ more inductionHypothesis =>
    have length : a + (more + 1 + 1) * PGSIZE = a + PGSIZE + (more + 1) * PGSIZE := by
      rw [Nat.succ_mul (more + 1)]
      omega
    rw [length] at below ⊢
    have inside : a < hi := by
      unfold PGSIZE at below
      omega
    have lower : tablesBelow a ≤ tablesBelow (a + PGSIZE) := tablesBelow_mono (by omega)
    have upper : tablesBelow (a + PGSIZE) ≤ tablesBelow (a + PGSIZE + (more + 1) * PGSIZE) :=
      tablesBelow_mono (by omega)
    have total : tablesBelow (a + PGSIZE + (more + 1) * PGSIZE) - tablesBelow a =
        (tablesBelow (a + PGSIZE) - tablesBelow a) +
          (tablesBelow (a + PGSIZE + (more + 1) * PGSIZE) - tablesBelow (a + PGSIZE)) := by
      omega
    obtain ⟨rest, result, refused⟩ | ⟨pd', km', result, covers', drawn, tidy', blank'⟩ :=
      @mappagesFrom_turn others lo hi base top apart ver w (more + 1) a ppn pd km aligned above inside tidy high
        blank covers
    · refine ⟨false, pd, rest, result, ?_⟩
      rw [if_neg Bool.false_ne_true, total, ← Bool.not_eq_true]
      intro granted
      rw [Kmem.grants_fewer granted] at refused
      cases refused
    · have next : vpn a + 1 = vpn (a + PGSIZE) := by
        have start := vpn_val (inside.trans_le top)
        have following : (vpn (a + PGSIZE)).val = (a + PGSIZE) / PGSIZE := vpn_val (by
          unfold PGSIZE at below ⊢
          omega)
        apply Fin.ext
        rw [Fin.val_add_one_of_lt' (by unfold PGSIZE at *; omega), start, following]
        unfold PGSIZE
        omega
      obtain ⟨mapped, pd'', km'', looped, outcome⟩ := @inductionHypothesis (a + PGSIZE) (ppn + 1) pd' km'
        (Nat.dvd_add aligned (dvd_refl PGSIZE)) (by omega) below tidy' (by omega) blank' covers'
      refine ⟨mapped, pd'', km'', ?_, ?_⟩
      · rw [result, next]
        exact looped
      · rw [total]
        cases mapped with
        | true => exact ⟨outcome.1, drawn.trans outcome.2.1, outcome.2.2⟩
        | false => exact drawn.refused outcome

/-- `mappages` of whole pages in the kernel's half, from the mark on. -/
theorem mappages_upto {ver : Version} {w : Bool} {va size : Nat} {ppn : Frame} {pd : PgDir} {km : Kmem}
    (aligned : PGSIZE ∣ va) (whole : PGSIZE ∣ size) (nonempty : 0 < size) (above : lo ≤ va)
    (below : va + size ≤ hi) (tidy : Tidy pd) (high : KERNBASE ≤ va)
    (blank : ∀ v : Vpn, va ≤ v.addr → (pd.pte v).mapped = false) (covers : pd.Covers (upto others lo va)) :
    ∃ mapped pd' km', mappages ver pd va size ppn { w := w } km = .ok (mapped, pd', km') ∧
      if mapped then
        pd'.Covers (upto others lo (va + size)) ∧ km.Draws (tablesBelow (va + size) - tablesBelow va) km' ∧
          ∀ v : Vpn, va + size ≤ v.addr → (pd'.pte v).mapped = false
      else km.grants (tablesBelow (va + size) - tablesBelow va) = false := by
  have wrapped : word (va + size + (2 ^ 32 - 1)) = va + size - 1 := by
    unfold word
    omega
  obtain ⟨pages, rfl⟩ := whole
  obtain ⟨more, rfl⟩ : ∃ more, pages = more + 1 :=
    Nat.exists_eq_succ_of_ne_zero fun none => by simp [none] at nonempty
  have start : (vpn va).val = va / PGSIZE := vpn_val (by omega)
  have last : (vpn (va + PGSIZE * (more + 1) - 1)).val = (va + PGSIZE * (more + 1) - 1) / PGSIZE :=
    vpn_val (by omega)
  have turns : (vpn (va + PGSIZE * (more + 1) - 1) - vpn va).val = more := by
    obtain ⟨k, rfl⟩ := aligned
    rw [Fin.sub_val_of_le (by rw [Fin.le_def, start, last]; unfold PGSIZE; omega), start, last]
    unfold PGSIZE
    omega
  unfold mappages
  simp only [wrapped, turns]
  rw [Nat.mul_comm] at below ⊢
  exact mappagesFrom_upto base top apart aligned above below tidy high blank covers

end Region

/-! ## `setupkvm` -/

/-- The page-table pages of the kernel's memory. -/
def kernelMemory : Nat → Prop := upto (fun _ => False) KERNBASE (KERNBASE + PHYSTOP)

/-- The page-table pages of the kernel's half: its memory, and the devices. -/
def kernelHalf : Nat → Prop := upto kernelMemory DEVSPACE (2 ^ 32)

/-- A mark at the start of its range adds nothing. -/
theorem upto_start (others : Nat → Prop) (lo a : Nat) : upto others lo lo a ↔ others a := by
  unfold upto
  constructor
  · rintro (other | inside)
    · exact other
    · omega
  · exact .inl

/-- The loop of `setupkvm` returns: with a page table that has the given page-table pages
after `count` granted calls, or because one of these calls is refused. -/
def Arranged (ver : Version) (entries : List KmapEntry) (pd : PgDir) (km : Kmem) (count : Nat)
    (bases : Nat → Prop) : Prop :=
  ∃ made km', setupkvmFrom ver entries pd km = .ok (made, km') ∧
    match made with
    | none => km.grants count = false
    | some pd' => pd'.Covers bases ∧ km.Draws count km'

section Setupkvm

variable {ver : Version} {pd : PgDir} {km : Kmem}

/-- One entry of `kmap` from the mark on, and the rest. -/
theorem Arranged.cons {others bases : Nat → Prop} {lo hi count : Nat} {k : KmapEntry}
    {rest : List KmapEntry} {size : Nat} (base : 2 ^ 22 ∣ lo) (top : hi ≤ 2 ^ 32)
    (apart : ∀ a, others a → a < lo ∨ hi ≤ a) (high : KERNBASE ≤ lo)
    (length : word (k.physEnd + 2 ^ 32 - k.physStart) = size) (aligned : PGSIZE ∣ k.virt)
    (whole : PGSIZE ∣ size) (nonempty : 0 < size) (above : lo ≤ k.virt) (below : k.virt + size ≤ hi)
    (tidy : Tidy pd) (proper : Proper pd km)
    (blank : ∀ v : Vpn, k.virt ≤ v.addr → (pd.pte v).mapped = false)
    (covers : pd.Covers (upto others lo k.virt))
    (next : ∀ pd' km', Tidy pd' → Proper pd' km' → pd'.Covers (upto others lo (k.virt + size)) →
      (∀ v : Vpn, k.virt + size ≤ v.addr → (pd'.pte v).mapped = false) →
      Arranged ver rest pd' km' count bases) :
    Arranged ver (k :: rest) pd km (tablesBelow (k.virt + size) - tablesBelow k.virt + count) bases := by
  obtain ⟨mapped, pd', km', entered, outcome⟩ := @mappages_upto others lo hi base top apart ver k.w k.virt size
    (k.physStart / PGSIZE) pd km aligned whole nonempty above below tidy (high.trans above) blank covers
  obtain ⟨tidy', taken, -⟩ := mappages_kernel tidy (high.trans above) nonempty (below.trans top) entered
  have proper' : Proper pd' km' := proper.move taken.exchanges.toBalances
  unfold Arranged setupkvmFrom
  rw [length, entered]
  cases mapped with
  | true =>
    obtain ⟨covers', drawn, blank'⟩ := outcome
    obtain ⟨made, km'', looped, outcome'⟩ := next pd' km' tidy' proper' covers' blank'
    refine ⟨made, km'', looped, ?_⟩
    cases made with
    | none => exact drawn.refused outcome'
    | some pd'' => exact ⟨outcome'.1, drawn.trans outcome'.2⟩
  | false =>
    obtain ⟨last, freed⟩ := @freevm_returns pd' km' fun f held => proper' f (Nat.le_add_left_of_le held)
    refine ⟨none, last, bind_ok.mpr ⟨_, rfl, bind_ok.mpr ⟨last, freed, rfl⟩⟩, ?_⟩
    refine Bool.eq_false_iff.mpr fun granted => ?_
    exact Bool.eq_false_iff.mp outcome (Kmem.grants_fewer granted)

/-- All entries of `kmap`: 56 page-table pages for the kernel's memory and 8 for the devices. The linker
script places the kernel's data at a page. -/
theorem kmap_arranged (layout : Layout) (aligned : PGSIZE ∣ layout.data) (tidy : Tidy pd) (proper : Proper pd km)
    (blank : ∀ v, (pd.pte v).mapped = false) (covers : pd.Covers fun _ => False) :
    Arranged ver (kmap layout) pd km 64 kernelHalf := by
  have above := layout.above
  have inside := layout.ordered.trans_lt layout.below
  have memoryBase : 2 ^ 22 ∣ KERNBASE := by decide
  have deviceBase : 2 ^ 22 ∣ DEVSPACE := by decide
  have memoryTop : KERNBASE + PHYSTOP ≤ 2 ^ 32 := by decide
  have linkAligned : PGSIZE ∣ KERNLINK := by decide
  have linkAbove : KERNBASE ≤ KERNLINK := by decide
  have devices : KERNBASE + PHYSTOP ≤ DEVSPACE := by decide
  have nothing : ∀ a, False → a < KERNBASE ∨ KERNBASE + PHYSTOP ≤ a := fun _ no => no.elim
  have memoryApart : ∀ a, kernelMemory a → a < DEVSPACE ∨ 2 ^ 32 ≤ a := by
    rintro a (no | ⟨-, below⟩)
    · exact no.elim
    · exact .inl (below.trans (by decide))
  have count : tablesBelow (KERNBASE + EXTMEM) - tablesBelow KERNBASE +
      (tablesBelow (KERNLINK + (layout.data - KERNLINK)) - tablesBelow KERNLINK +
      (tablesBelow (layout.data + (KERNBASE + PHYSTOP - layout.data)) - tablesBelow layout.data +
      (tablesBelow (DEVSPACE + (2 ^ 32 - DEVSPACE)) - tablesBelow DEVSPACE + 0))) = 64 := by
    unfold tablesBelow
    unfold KERNLINK KERNBASE EXTMEM PHYSTOP DEVSPACE at *
    omega
  rw [← count]
  refine Arranged.cons memoryBase memoryTop nothing le_rfl (by decide) (by decide) (by decide) (by decide)
    le_rfl (by decide) tidy proper (fun v _ => blank v)
    (covers.congr fun i => (upto_start (fun _ => False) KERNBASE _).symm) fun pd km tidy proper covers blank => ?_
  refine Arranged.cons memoryBase memoryTop nothing le_rfl ?_ linkAligned ?_ (by omega) linkAbove ?_ tidy proper
    blank covers fun pd km tidy proper covers blank => ?_
  · simp only
    unfold word
    unfold KERNLINK KERNBASE EXTMEM PHYSTOP at *
    omega
  · exact (Nat.dvd_sub_iff_left above.le linkAligned).mpr aligned
  · simp only
    omega
  have second : KERNLINK + (layout.data - KERNLINK) = layout.data := by omega
  simp only [second] at covers blank
  refine Arranged.cons memoryBase memoryTop nothing le_rfl ?_ aligned ?_ (by omega) (linkAbove.trans above.le) ?_ tidy
    proper blank covers fun pd km tidy proper covers blank => ?_
  · simp only
    unfold word
    unfold KERNLINK KERNBASE EXTMEM PHYSTOP at *
    omega
  · exact (Nat.dvd_sub_iff_left inside.le aligned).mpr (by decide)
  · simp only
    omega
  have third : layout.data + (KERNBASE + PHYSTOP - layout.data) = KERNBASE + PHYSTOP := by omega
  simp only [third] at covers blank
  refine Arranged.cons deviceBase le_rfl memoryApart (by decide) (by decide) (by decide) (by decide) (by decide) le_rfl
    (by decide) tidy proper (fun v beyond => blank v (devices.trans beyond))
    (covers.congr fun i => (upto_start kernelMemory DEVSPACE _).symm) fun pd km tidy proper covers blank => ?_
  exact ⟨some pd, km, rfl, covers, Kmem.Draws.refl km⟩

theorem Kmem.kalloc_layout (km : Kmem) : km.kalloc.2.layout = km.layout := by
  unfold Kmem.kalloc
  split <;> rfl

/-- `setupkvm` returns, and makes a page table exactly if 65 calls of `kalloc` are granted. -/
theorem setupkvm_granted (aligned : PGSIZE ∣ km.layout.data)
    (proper : ∀ f, 1 ≤ km.freelist.count f → km.accepts f = true) :
    ∃ made km', setupkvm ver km = .ok (made, km') ∧
      match made with
      | none => km.grants 65 = false
      | some pd => pd.Covers kernelHalf ∧ km.Draws 65 km' := by
  unfold setupkvm
  cases asked : km.kalloc with
  | mk made rest =>
    cases made with
    | none => exact ⟨none, rest, rfl, Kmem.grants_refused asked 64⟩
    | some root =>
      have layout : rest.layout = km.layout := by
        have kept := km.kalloc_layout
        rwa [asked] at kept
      obtain ⟨free, -, -, accepts⟩ := Kmem.kalloc_some asked
      have proper' : Proper ⟨root, fun _ => none, fun _ => {}⟩ (rest.fill root 0) := by
        intro f placed
        have accepted : (rest.fill root 0).accepts = km.accepts := accepts
        rw [refs_blank] at placed
        rw [accepted]
        refine proper f ?_
        have rest' : (rest.fill root 0).freelist = rest.freelist := rfl
        rw [rest'] at placed
        rw [free, List.count_cons]
        simp only [one, beq_iff_eq] at placed ⊢
        exact placed
      obtain ⟨made, km', looped, outcome⟩ := @kmap_arranged ver ⟨root, fun _ => none, fun _ => {}⟩ (rest.fill root 0)
        rest.layout (layout ▸ aligned) (tidy_blank root) proper' (fun _ => rfl) fun i => by simp
      refine ⟨made, km', ?_, ?_⟩
      · simp only
        rw [if_neg (by decide)]
        exact looped
      · cases made with
        | none => exact (Kmem.Draws.first asked 0).refused outcome
        | some pd => exact ⟨outcome.1, (Kmem.Draws.first asked 0).trans outcome.2⟩

end Setupkvm

/-! ## `allocuvm` -/

/-- The frames of a process of a size: its pages, and their page-table pages. -/
def framesBelow (size : Nat) : Nat := (size + PGSIZE - 1) / PGSIZE + tablesBelow size

theorem framesBelow_mono {size size' : Nat} (le : size ≤ size') : framesBelow size ≤ framesBelow size' := by
  unfold framesBelow tablesBelow
  unfold PGSIZE
  omega

/-- The frames for one more page. -/
theorem framesBelow_page {a : Nat} (aligned : PGSIZE ∣ a) :
    framesBelow (a + PGSIZE) = framesBelow a + 1 + (tablesBelow (a + PGSIZE) - tablesBelow a) := by
  obtain ⟨k, rfl⟩ := aligned
  unfold framesBelow tablesBelow
  unfold PGSIZE
  omega

/-- Only whole pages count. -/
theorem framesBelow_whole {a size : Nat} (aligned : PGSIZE ∣ a) (above : size ≤ a) (near : a < size + PGSIZE) :
    framesBelow a = framesBelow size := by
  obtain ⟨k, rfl⟩ := aligned
  unfold framesBelow tablesBelow
  unfold PGSIZE at *
  omega

theorem upto_whole {others : Nat → Prop} {a size : Nat} (aligned : PGSIZE ∣ a) (above : size ≤ a)
    (near : a < size + PGSIZE) (i : Fin 1024) :
    upto others 0 a (i.val * 2 ^ 22) ↔ upto others 0 size (i.val * 2 ^ 22) := by
  refine or_congr Iff.rfl (and_congr Iff.rfl ?_)
  obtain ⟨k, rfl⟩ := aligned
  unfold PGSIZE at *
  omega

/-- The kernel's page-table pages are not those of the user. -/
theorem kernelHalf_apart (a : Nat) (kernel : kernelHalf a) : a < 0 ∨ KERNBASE ≤ a := by
  obtain (no | ⟨above, -⟩) | ⟨above, -⟩ := kernel
  · exact no.elim
  · exact .inr above
  · refine .inr (le_trans ?_ above)
    decide

section Allocuvm

variable {ver : Version} {oldsz newsz : Nat}

/-- The outcome of the loop of `allocuvm` from the mark `a` on. -/
def Counted (newsz a : Nat) (km : Kmem) (size : Nat) (pd' : PgDir) (km' : Kmem) : Prop :=
  if size = 0 then km.grants (framesBelow newsz - framesBelow a) = false
  else pd'.Covers (upto kernelHalf 0 newsz) ∧ km.Draws (framesBelow newsz - framesBelow a) km'

/-- The loop has passed the new size. -/
theorem Counted.passed {a : Nat} {pd : PgDir} {km : Kmem} (positive : 0 < newsz) (aligned : PGSIZE ∣ a)
    (passed : newsz ≤ a) (near : a < newsz + PGSIZE) (covers : pd.Covers (upto kernelHalf 0 a)) :
    Counted newsz a km newsz pd km := by
  unfold Counted
  rw [if_neg positive.ne', framesBelow_whole aligned passed near, Nat.sub_self]
  exact ⟨covers.congr (upto_whole aligned passed near), Kmem.Draws.refl km⟩

/-- The frames for the next page are among those that are needed. -/
theorem framesBelow_next {a : Nat} (aligned : PGSIZE ∣ a) (inside : a < newsz) :
    framesBelow newsz - framesBelow a =
      1 + (tablesBelow (a + PGSIZE) - tablesBelow a) + (framesBelow newsz - framesBelow (a + PGSIZE)) := by
  have further := framesBelow_page aligned
  have bounded : framesBelow (a + PGSIZE) ≤ framesBelow newsz := by
    obtain ⟨k, rfl⟩ := aligned
    unfold framesBelow tablesBelow
    unfold PGSIZE at *
    omega
  omega

/-- One page was added, and the loop went on. -/
theorem Counted.page {a size : Nat} {pd' : PgDir} {km km₁ km₂ km' : Kmem} (aligned : PGSIZE ∣ a) (inside : a < newsz)
    (first : km.Draws 1 km₁) (second : km₁.Draws (tablesBelow (a + PGSIZE) - tablesBelow a) km₂)
    (counted : Counted newsz (a + PGSIZE) km₂ size pd' km') : Counted newsz a km size pd' km' := by
  have drawn := first.trans second
  unfold Counted at counted ⊢
  rw [framesBelow_next aligned inside]
  split
  · rename_i failed
    rw [if_pos failed] at counted
    exact drawn.refused counted
  · rename_i succeeded
    rw [if_neg succeeded] at counted
    exact ⟨counted.1, drawn.trans counted.2⟩

/-- The loop of `allocuvm` from the mark on. -/
theorem allocuvmFrom_counted {fuel a size : Nat} {pd pd' : PgDir} {km km' : Kmem} (small : newsz < KERNBASE)
    (positive : 0 < newsz) (aligned : PGSIZE ∣ a) (enough : newsz ≤ a + fuel * PGSIZE) (near : a < newsz + PGSIZE)
    (tidy : Tidy pd) (blank : ∀ v : Vpn, a ≤ v.addr → v.addr < newsz → pd.pte v = {})
    (covers : pd.Covers (upto kernelHalf 0 a))
    (result : allocuvmFrom ver oldsz newsz fuel a pd km = .ok (size, pd', km')) :
    Counted newsz a km size pd' km' := by
  induction fuel generalizing a pd km with
  | zero =>
    obtain ⟨rfl, rfl, rfl⟩ : newsz = size ∧ pd = pd' ∧ km = km' := by simpa [allocuvmFrom] using result
    exact .passed positive aligned (by omega) near covers
  | succ fuel inductionHypothesis =>
    unfold allocuvmFrom at result
    split at result
    · rename_i inside
      have low : a < KERNBASE := inside.trans small
      have page : (vpn a).addr = a := vpn_addr (low.trans (by decide)) aligned
      have needed := framesBelow_next aligned inside
      split at result
      · -- no frame for the page
        rename_i rest refused
        obtain ⟨_, -, result⟩ := bind_ok.mp result
        obtain ⟨rfl, -⟩ : 0 = size ∧ _ := by simpa [pure, Except.pure] using result
        unfold Counted
        rw [if_pos rfl, needed, Nat.add_assoc, Nat.add_comm]
        exact Kmem.grants_refused refused _
      · rename_i mem rest granted
        have drawn := Kmem.Draws.first granted 0
        have walked := walkpgdir_upto (by decide) (by decide) kernelHalf_apart aligned (Nat.zero_le a) low covers
          (rest.fill mem 0)
        rw [mappages_blank tidy aligned low (blank _ (by omega) (by omega))] at result
        cases table : walkpgdir pd (vpn a) (rest.fill mem 0) with
        | mk made later =>
          rw [table] at walked result
          cases made with
          | none =>
            -- no frame for the page-table page
            obtain ⟨_, mapped, result⟩ := bind_ok.mp result
            obtain rfl := Except.ok.inj mapped
            obtain ⟨_, -, result⟩ := bind_ok.mp result
            obtain ⟨_, -, result⟩ := bind_ok.mp result
            obtain ⟨rfl, -⟩ : 0 = size ∧ _ := by simpa [pure, Except.pure] using result
            unfold Counted
            rw [if_pos rfl, needed]
            exact Bool.eq_false_iff.mpr fun all =>
              Bool.eq_false_iff.mp (drawn.refused walked) (Kmem.grants_fewer all)
          | some middle =>
            obtain ⟨entries, present, tidy', -⟩ := walkpgdir_some tidy table
            refine .page aligned inside drawn walked.2 (inductionHypothesis ?_ ?_ ?_ ?_ ?_ ?_ result)
            · exact Nat.dvd_add aligned (dvd_refl PGSIZE)
            · unfold PGSIZE at *
              omega
            · omega
            · exact tidy'.set present (fun _ _ => ver.entry_mapped mem _)
                fun high => absurd (vpn_user low) high
            · intro v above below
              have different : v ≠ vpn a := by
                rintro rfl
                unfold PGSIZE at above
                omega
              rw [PgDir.set_pte, if_neg different, entries]
              exact blank v (by omega) below
            · exact walked.1
    · rename_i passed
      obtain ⟨rfl, rfl, rfl⟩ : newsz = size ∧ pd = pd' ∧ km = km' := by simpa using result
      exact .passed positive aligned (Nat.le_of_not_lt passed) near covers

/-- `allocuvm` from the size up to which page-table pages are there. -/
theorem allocuvm_counted {size : Nat} {pd pd' : PgDir} {km km' : Kmem} (tidy : Tidy pd) (bounded : oldsz ≤ KERNBASE)
    (growing : oldsz < newsz) (blank : ∀ v : Vpn, v.user → oldsz ≤ v.addr → pd.pte v = {})
    (small : newsz < KERNBASE) (covers : pd.Covers (upto kernelHalf 0 oldsz))
    (result : allocuvm ver pd oldsz newsz km = .ok (size, pd', km')) : Counted newsz oldsz km size pd' km' := by
  obtain ⟨above, near⟩ := le_PGROUNDUP bounded
  have aligned := PGROUNDUP_aligned oldsz
  unfold allocuvm at result
  rw [if_neg (Nat.not_le.mpr small), if_neg (Nat.not_lt.mpr growing.le)] at result
  have counted := allocuvmFrom_counted small (Nat.zero_lt_of_lt growing) aligned (by unfold PGSIZE at *; omega)
    (by omega) tidy (fun v begun below => blank v ((Vpn.user_iff v).mpr (below.trans small)) (above.trans begun))
    (covers.congr fun i => (upto_whole aligned above near i).symm) result
  unfold Counted at counted ⊢
  rwa [framesBelow_whole aligned above near] at counted

end Allocuvm

end Cs537.Vm
