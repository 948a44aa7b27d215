import Cs537.Vm.HeapGrowth

/-!
# Shrinking the heap of p6

`growproc` frees the pages at and above the new size and then removes pages from the
queue: one for each whole page of the difference, starting at the new size and going
down. The first that is not in the queue makes the call fail, with the pages gone and
the old size kept. Only a shrinkage by less than a page without queued pages, by one
queued page, or over pages that are not mapped does what it should.
-/

namespace Cs537.Vm

open Occurrences Ledger

/-- The pages of the queue in the order of the clock; none before the first insertion. -/
def clockOrder (p : Proc) : List Nat :=
  match p.clockhand with
  | none => []
  | some hand => entries hand p.clockqueue

/-- The order of the clock is that of the queue and the hand. -/
theorem clockOrder_congr {p q : Proc} (queue : q.clockqueue = p.clockqueue)
    (hand : q.clockhand = p.clockhand) : clockOrder q = clockOrder p := by
  unfold clockOrder
  rw [queue, hand]

/-- A queue of different pages, which is empty before the first insertion. -/
structure Orderly (p : Proc) : Prop where
  distinct : ∀ slot other, p.clockqueue slot ≠ NOPAGE → p.clockqueue slot = p.clockqueue other → slot = other
  moved : p.clockhand = none → ∀ slot, p.clockqueue slot = NOPAGE

namespace Orderly

variable {p : Proc}

theorem mem (orderly : Orderly p) {a : Nat} :
    a ∈ clockOrder p ↔ Listed p.clockqueue a ∧ a ≠ NOPAGE := by
  unfold clockOrder
  cases hand : p.clockhand with
  | none =>
    refine ⟨fun member => (by cases member), ?_⟩
    rintro ⟨⟨slot, rfl⟩, filled⟩
    exact absurd (orderly.moved hand slot) filled
  | some hand => exact mem_entries

theorem nodup (orderly : Orderly p) : (clockOrder p).Nodup := by
  unfold clockOrder
  cases p.clockhand with
  | none => exact List.nodup_nil
  | some hand => exact nodup_entries.mpr orderly.distinct

/-- A page that is in the queue is deleted from it. -/
theorem delete (orderly : Orderly p) {a : Nat} (member : a ∈ clockOrder p) :
    ∃ queue hand, P6.wsetdelete p a = .ok (true, { p with clockqueue := queue, clockhand := some hand }) ∧
      clockOrder { p with clockqueue := queue, clockhand := some hand } = (clockOrder p).erase a ∧
      Orderly { p with clockqueue := queue, clockhand := some hand } := by
  obtain ⟨present, proper⟩ := orderly.mem.mp member
  cases moved : p.clockhand with
  | none => exact absurd member (by simp [clockOrder, moved])
  | some hand =>
    obtain ⟨queue, done, read⟩ := P6.wsetdelete_listed moved present proper orderly.distinct
    have order : entries (hand - 1) queue = (entries hand p.clockqueue).erase a := P6.entries_delete read
    refine ⟨queue, hand - 1, done, ?_, ?_, fun none => (by cases none)⟩
    · simp only [clockOrder, moved]
      exact order
    · refine (@nodup_entries (hand - 1) queue).mp ?_
      rw [order]
      exact (nodup_entries.mpr orderly.distinct).erase a

/-- A page that is not in the queue is not deleted. -/
theorem keep (orderly : Orderly p) {a : Nat} (absent : a ∉ clockOrder p) (proper : a ≠ NOPAGE) :
    P6.wsetdelete p a = .ok (false, p) :=
  P6.wsetdelete_absent fun present => absent (orderly.mem.mpr ⟨present, proper⟩)

end Orderly

theorem Coherent.orderly {p : Proc} (coherent : Coherent p) : Orderly p := ⟨coherent.distinct, coherent.moved⟩

namespace P6

/-- The addresses that `growproc` removes are those of pages. -/
theorem grown_page {sz : Nat} (aligned : PGSIZE ∣ sz) (i : Nat) :
    grown sz (-(i * PGSIZE : Int)) ≠ NOPAGE := by
  obtain ⟨k, rfl⟩ := aligned
  unfold grown PGSIZE NOPAGE
  omega

/-- The loop of `growproc` removes pages only. -/
theorem deletePages_order {sz left i : Nat} {p p' : Proc} {deleted : Bool} (orderly : Orderly p)
    (aligned : PGSIZE ∣ sz) (result : deletePages sz left i p = .ok (deleted, p')) :
    ∀ a ∈ clockOrder p', a ∈ clockOrder p := by
  induction left generalizing i p with
  | zero =>
    obtain ⟨-, rfl⟩ : true = deleted ∧ p = p' := by simpa [deletePages] using result
    exact fun a member => member
  | succ left inductionHypothesis =>
    unfold deletePages at result
    by_cases member : grown sz (-(i * PGSIZE : Int)) ∈ clockOrder p
    · obtain ⟨queue, hand, done, order, orderly'⟩ := orderly.delete member
      rw [done] at result
      intro a present
      have kept := inductionHypothesis orderly' result a present
      rw [order] at kept
      exact List.mem_of_mem_erase kept
    · rw [orderly.keep member (grown_page aligned i)] at result
      obtain ⟨-, rfl⟩ : false = deleted ∧ p = p' := by
        simpa [bind, Except.bind, pure, Except.pure] using result
      exact fun a present => present

/-! ## What a shrinkage does -/

section

variable {p : Proc} {n : Int} {km : Kmem}

/-- A shrinkage frees pages and then removes pages from the queue. -/
theorem growproc_frees (decent : Decent p) (shrinking : n < 0) {value : Nat × PgDir × Kmem}
    (freed : deallocuvm p.pgdir p.sz (grown p.sz n) km = .ok value) :
    growproc p n km =
      if min p.sz (grown p.sz n) = 0 then
        .ok (false, { p with pgdir := p.pgdir.clear (grown p.sz n) p.sz }, value.2.2)
      else do
        let (deleted, q) ← deletePages (min p.sz (grown p.sz n)) ((int (-n)).tdiv PGSIZE).toNat 0
          { p with pgdir := p.pgdir.clear (grown p.sz n) p.sz }
        if deleted then return (true, { q with sz := min p.sz (grown p.sz n) }, value.2.2)
        else return (false, q, value.2.2) := by
  obtain ⟨size, pd, km'⟩ := value
  obtain ⟨rfl, rfl, -⟩ := deallocuvm_gives decent.tidy decent.bounded freed
  unfold growproc
  rw [if_neg (by omega), if_pos shrinking, freed]
  simp only [bind, Except.bind, pure, Except.pure]

/-- The numbers of a shrinkage to a positive size. -/
theorem shrunk (bounded : p.sz ≤ KERNBASE) (shrinking : n < 0) (partly : -n < p.sz) :
    (grown p.sz n : Int) = p.sz + n ∧ ((int (-n)).tdiv PGSIZE).toNat = (-n).toNat / PGSIZE := by
  have wrapped : int (-n) = -n := by
    unfold int
    unfold KERNBASE at bounded
    omega
  refine ⟨?_, ?_⟩
  · unfold grown
    unfold KERNBASE at bounded
    omega
  · rw [wrapped, Int.tdiv_eq_ediv_of_nonneg (by omega)]
    unfold PGSIZE
    omega

/-- What is asked of a shrinkage: it returns. If it succeeds, the size is the new one, no
page above it is mapped, and the queue lists the pages below it in the same order. If it
fails, every entry, the size and the queue are as before. -/
def ShrinksWell (p : Proc) (n : Int) (km : Kmem) : Prop :=
  ∃ succeeded p' km', growproc p n km = .ok (succeeded, p', km') ∧
    (succeeded = true → (p'.sz : Int) = p.sz + n ∧
      (∀ v : Vpn, v.user → p'.sz ≤ v.addr → (p'.pgdir.pte v).mapped = false) ∧
      clockOrder p' = (clockOrder p).filter (· < p'.sz)) ∧
    (succeeded = false → p'.pgdir.pte = p.pgdir.pte ∧ p'.sz = p.sz ∧ p'.clockqueue = p.clockqueue ∧
      p'.clockhand = p.clockhand)

/-- What is asked of a shrinkage that succeeds. -/
theorem shrinksWell_true {p' : Proc} {km' : Kmem} (result : growproc p n km = .ok (true, p', km')) :
    ShrinksWell p n km ↔ (p'.sz : Int) = p.sz + n ∧
      (∀ v : Vpn, v.user → p'.sz ≤ v.addr → (p'.pgdir.pte v).mapped = false) ∧
      clockOrder p' = (clockOrder p).filter (· < p'.sz) := by
  constructor
  · rintro ⟨succeeded, q, km'', result', success, -⟩
    obtain ⟨rfl, rfl, -⟩ : true = succeeded ∧ p' = q ∧ km' = km'' := by simpa [result] using result'
    exact success rfl
  · exact fun success => ⟨true, p', km', result, fun _ => success, fun no => (by cases no)⟩

/-- What is asked of a shrinkage that fails. -/
theorem shrinksWell_false {p' : Proc} {km' : Kmem} (result : growproc p n km = .ok (false, p', km')) :
    ShrinksWell p n km ↔ p'.pgdir.pte = p.pgdir.pte ∧ p'.sz = p.sz ∧ p'.clockqueue = p.clockqueue ∧
      p'.clockhand = p.clockhand := by
  constructor
  · rintro ⟨succeeded, q, km'', result', -, failure⟩
    obtain ⟨rfl, rfl, -⟩ : false = succeeded ∧ p' = q ∧ km' = km'' := by simpa [result] using result'
    exact failure rfl
  · exact fun failure => ⟨false, p', km', result, fun no => (by cases no), fun _ => failure⟩

/-- The shrinkages that do it. The number of pages to remove from the queue is the number
of whole pages in `-n`: there are none, and none is to be removed; or no page is mapped
above the new size; or there is one, it is in the queue, and no other above it is. -/
def Shrinkable (p : Proc) (n : Int) : Prop :=
  ((-n).toNat / PGSIZE = 0 ∧ ∀ slot, p.clockqueue slot ≠ NOPAGE → p.clockqueue slot < grown p.sz n) ∨
  (1 ≤ (-n).toNat / PGSIZE ∧ ∀ v : Vpn, v.user → grown p.sz n ≤ v.addr → (p.pgdir.pte v).mapped = false) ∨
  ((-n).toNat / PGSIZE = 1 ∧ Listed p.clockqueue (grown p.sz n) ∧
    ∀ slot, p.clockqueue slot ≠ NOPAGE → p.clockqueue slot ≤ grown p.sz n)

/-- The process after the pages are freed and before the queue is changed. -/
def freedAbove (p : Proc) (newsz : Nat) : Proc := { p with pgdir := p.pgdir.clear newsz p.sz }

/-- The first address that is removed is the new size. -/
theorem first_deleted {sz : Nat} (small : sz ≤ KERNBASE) (i : Nat) (zero : i = 0) :
    grown sz (-(i * PGSIZE : Int)) = sz := by
  subst zero
  unfold grown
  unfold KERNBASE at small
  omega

/-- The second one is the page below it. -/
theorem second_deleted {sz : Nat} (small : sz ≤ KERNBASE) (aligned : PGSIZE ∣ sz) (positive : 0 < sz) :
    grown sz (-((0 + 1 : Nat) * PGSIZE : Int)) = sz - PGSIZE := by
  obtain ⟨k, rfl⟩ := aligned
  unfold grown
  unfold KERNBASE PGSIZE at *
  omega

/-- No page above the new size is mapped any more. -/
theorem freedAbove_unmapped (coherent : Coherent p) {newsz : Nat} {v : Vpn} (low : v.user)
    (above : newsz ≤ v.addr) : ((freedAbove p newsz).pgdir.pte v).mapped = false := by
  unfold freedAbove
  simp only [PgDir.clear_pte]
  split
  · rfl
  · rename_i outside
    have empty := coherent.blank low (Nat.le_of_not_lt fun below => outside ⟨above, below⟩)
    rw [empty]
    rfl

/-- The entries are the same exactly if no page above the new size was mapped. -/
theorem freedAbove_same (coherent : Coherent p) {newsz : Nat} :
    (freedAbove p newsz).pgdir.pte = p.pgdir.pte ↔
      ∀ v : Vpn, v.user → newsz ≤ v.addr → (p.pgdir.pte v).mapped = false := by
  constructor
  · intro same v low above
    rw [← congrFun same v]
    exact freedAbove_unmapped coherent low above
  · intro unmapped
    funext v
    unfold freedAbove
    simp only [PgDir.clear_pte]
    split
    · rename_i range
      have low : v.user := (Vpn.user_iff v).mpr (range.2.trans_le coherent.decent.bounded)
      refine (coherent.decent.tidy.empty low ?_).symm
      rw [unmapped v low range.1]
      exact Bool.false_ne_true
    · rfl

/-- An address in the queue is that of a mapped page. -/
theorem mem_clockOrder (coherent : Coherent p) {a : Nat} (member : a ∈ clockOrder p) :
    (vpn a).user ∧ (p.pgdir.pte (vpn a)).mapped = true ∧ (vpn a).addr = a ∧ PGSIZE ∣ a := by
  obtain ⟨⟨slot, rfl⟩, filled⟩ := coherent.orderly.mem.mp member
  have opened := coherent.listed slot filled
  exact ⟨coherent.decent.tidy.low opened.2, opened.1, coherent.addr filled, coherent.aligned slot filled⟩

/-- A property of the pages of the queue. -/
theorem forall_clockOrder (coherent : Coherent p) (bound : Nat → Prop) :
    (∀ a ∈ clockOrder p, bound a) ↔ ∀ slot, p.clockqueue slot ≠ NOPAGE → bound (p.clockqueue slot) := by
  constructor
  · exact fun all slot filled => all _ (coherent.orderly.mem.mpr ⟨⟨slot, rfl⟩, filled⟩)
  · intro all a member
    obtain ⟨⟨slot, rfl⟩, filled⟩ := coherent.orderly.mem.mp member
    exact all slot filled

/-- Removing one page leaves the pages below it exactly if it is the highest. -/
theorem erase_eq_filter {order : List Nat} {top : Nat} (nodup : order.Nodup) :
    order.erase top = order.filter (· < top) ↔ ∀ a ∈ order, a ≤ top := by
  constructor
  · intro same a present
    by_contra above
    have kept : a ∈ order.erase top := (List.mem_erase_of_ne (by omega)).mpr present
    rw [same] at kept
    have below := (List.mem_filter.mp kept).2
    simp only [decide_eq_true_eq] at below
    omega
  · intro bounded
    rw [nodup.erase_eq_filter]
    refine List.filter_congr fun a present => ?_
    have upper := bounded a present
    rw [Bool.eq_iff_iff, bne_iff_ne, decide_eq_true_iff]
    omega

section Shrinking

variable (coherent : Coherent p) (shrinking : n < 0) (partly : -n < p.sz)

include coherent shrinking partly

/-- A shrinkage to a positive size. -/
theorem growproc_shrunk {value : Nat × PgDir × Kmem}
    (freed : deallocuvm p.pgdir p.sz (grown p.sz n) km = .ok value) :
    growproc p n km = do
      let (deleted, q) ← deletePages (grown p.sz n) ((-n).toNat / PGSIZE) 0 (freedAbove p (grown p.sz n))
      if deleted then return (true, { q with sz := grown p.sz n }, value.2.2)
      else return (false, q, value.2.2) := by
  obtain ⟨newsz, pages⟩ := shrunk coherent.decent.bounded shrinking partly
  have smaller : min p.sz (grown p.sz n) = grown p.sz n := by omega
  rw [growproc_frees coherent.decent shrinking freed, smaller, pages, if_neg (by omega)]
  rfl

/-- Two pages or more, of which the first is in the queue: whatever happens next, a page
below the new size has left the queue or the call fails with a page gone. -/
theorem not_shrinksWell_two {value : Nat × PgDir × Kmem}
    (freed : deallocuvm p.pgdir p.sz (grown p.sz n) km = .ok value) {more : Nat}
    (pages : (-n).toNat / PGSIZE = more + 2) (member : grown p.sz n ∈ clockOrder p) :
    ¬ ShrinksWell p n km := by
  obtain ⟨newsz, -⟩ := shrunk coherent.decent.bounded shrinking partly
  have bounded : grown p.sz n ≤ KERNBASE := by
    have upper := coherent.decent.bounded
    omega
  obtain ⟨low, mapped, page, aligned⟩ := mem_clockOrder coherent member
  rintro ⟨succeeded, p', km', result, success, failure⟩
  rw [growproc_shrunk coherent shrinking partly freed, pages] at result
  obtain ⟨⟨deleted, q⟩, looped, result⟩ := bind_ok.mp result
  have directory := (deletePages_pgdir looped).1
  cases deleted with
  | false =>
    obtain ⟨rfl, rfl, -⟩ : false = succeeded ∧ q = p' ∧ value.2.2 = km' := by
      simpa [pure, Except.pure] using result
    have same := (failure rfl).1
    rw [directory] at same
    have unmapped := (freedAbove_same coherent).mp same (vpn (grown p.sz n)) low page.ge
    rw [mapped] at unmapped
    cases unmapped
  | true =>
    obtain ⟨rfl, rfl, -⟩ : true = succeeded ∧ { q with sz := grown p.sz n } = p' ∧ value.2.2 = km' := by
      simpa [pure, Except.pure] using result
    have orderly : Orderly (freedAbove p (grown p.sz n)) := ⟨coherent.distinct, coherent.moved⟩
    have before : clockOrder (freedAbove p (grown p.sz n)) = clockOrder p := clockOrder_congr rfl rfl
    obtain ⟨queue, hand, done, order, orderly'⟩ := orderly.delete (before.symm ▸ member)
    unfold deletePages at looped
    rw [first_deleted bounded 0 rfl, done] at looped
    change deletePages _ (more + 1) (0 + 1) _ = _ at looped
    have below : grown (grown p.sz n) (-((0 + 1 : Nat) * PGSIZE : Int)) < grown p.sz n := by
      rw [second_deleted bounded aligned (by omega)]
      unfold PGSIZE
      omega
    unfold deletePages at looped
    by_cases second : grown (grown p.sz n) (-((0 + 1 : Nat) * PGSIZE : Int)) ∈
        clockOrder { freedAbove p (grown p.sz n) with clockqueue := queue, clockhand := some hand }
    · obtain ⟨queue', hand', done', order', orderly''⟩ := orderly'.delete second
      rw [done'] at looped
      have fewer := deletePages_order orderly'' aligned looped
      rw [order'] at fewer
      rw [order] at second
      have kept : grown (grown p.sz n) (-((0 + 1 : Nat) * PGSIZE : Int)) ∈ clockOrder q := by
        have listed := (success rfl).2.2
        rw [show clockOrder { q with sz := grown p.sz n } = clockOrder q from clockOrder_congr rfl rfl] at listed
        rw [listed, List.mem_filter]
        exact ⟨before ▸ List.mem_of_mem_erase second, by simpa using below⟩
      exact orderly'.nodup.not_mem_erase (fewer _ kept)
    · rw [orderly'.keep second (grown_page aligned _)] at looped
      simp [bind, Except.bind, pure, Except.pure] at looped

/-- Less than a page: nothing is removed from the queue. -/
theorem growproc_less {value : Nat × PgDir × Kmem}
    (freed : deallocuvm p.pgdir p.sz (grown p.sz n) km = .ok value) (pages : (-n).toNat / PGSIZE = 0) :
    growproc p n km = .ok (true, { freedAbove p (grown p.sz n) with sz := grown p.sz n }, value.2.2) := by
  rw [growproc_shrunk coherent shrinking partly freed, pages]
  rfl

/-- The first page is not in the queue: the call fails. -/
theorem growproc_absent {value : Nat × PgDir × Kmem}
    (freed : deallocuvm p.pgdir p.sz (grown p.sz n) km = .ok value) {more : Nat}
    (pages : (-n).toNat / PGSIZE = more + 1) (absent : grown p.sz n ∉ clockOrder p) :
    growproc p n km = .ok (false, freedAbove p (grown p.sz n), value.2.2) := by
  obtain ⟨newsz, -⟩ := shrunk coherent.decent.bounded shrinking partly
  have upper := coherent.decent.bounded
  have bounded : grown p.sz n ≤ KERNBASE := by omega
  have orderly : Orderly (freedAbove p (grown p.sz n)) := ⟨coherent.distinct, coherent.moved⟩
  have before : clockOrder (freedAbove p (grown p.sz n)) = clockOrder p := clockOrder_congr rfl rfl
  have proper : grown p.sz n ≠ NOPAGE := by
    unfold NOPAGE
    unfold KERNBASE at bounded
    omega
  rw [growproc_shrunk coherent shrinking partly freed, pages]
  unfold deletePages
  rw [first_deleted bounded 0 rfl, orderly.keep (before.symm ▸ absent) proper]
  rfl

/-- One page, which is in the queue. -/
theorem growproc_one {value : Nat × PgDir × Kmem}
    (freed : deallocuvm p.pgdir p.sz (grown p.sz n) km = .ok value) (pages : (-n).toNat / PGSIZE = 1)
    (member : grown p.sz n ∈ clockOrder p) :
    ∃ queue hand, growproc p n km = .ok (true, { freedAbove p (grown p.sz n) with
        clockqueue := queue, clockhand := some hand, sz := grown p.sz n }, value.2.2) ∧
      clockOrder { freedAbove p (grown p.sz n) with
        clockqueue := queue, clockhand := some hand, sz := grown p.sz n } =
        (clockOrder p).erase (grown p.sz n) := by
  obtain ⟨newsz, -⟩ := shrunk coherent.decent.bounded shrinking partly
  have upper := coherent.decent.bounded
  have bounded : grown p.sz n ≤ KERNBASE := by omega
  have orderly : Orderly (freedAbove p (grown p.sz n)) := ⟨coherent.distinct, coherent.moved⟩
  have before : clockOrder (freedAbove p (grown p.sz n)) = clockOrder p := clockOrder_congr rfl rfl
  obtain ⟨queue, hand, done, order, -⟩ := orderly.delete (before.symm ▸ member)
  refine ⟨queue, hand, ?_, ?_⟩
  · rw [growproc_shrunk coherent shrinking partly freed, pages]
    unfold deletePages
    rw [first_deleted bounded 0 rfl, done]
    rfl
  · rw [← before, ← order]
    exact clockOrder_congr rfl rfl

/-- The kinds of shrinkages that do what they should, by what happens. -/
theorem shrinkable_iff :
    ((-n).toNat / PGSIZE = 0 → (Shrinkable p n ↔ ∀ a ∈ clockOrder p, a < grown p.sz n)) ∧
    (∀ more, (-n).toNat / PGSIZE = more + 1 → grown p.sz n ∉ clockOrder p →
      (Shrinkable p n ↔ (freedAbove p (grown p.sz n)).pgdir.pte = p.pgdir.pte)) ∧
    (∀ more, (-n).toNat / PGSIZE = more + 1 → grown p.sz n ∈ clockOrder p →
      (Shrinkable p n ↔ more = 0 ∧ ∀ a ∈ clockOrder p, a ≤ grown p.sz n)) := by
  obtain ⟨newsz, -⟩ := shrunk coherent.decent.bounded shrinking partly
  have upper := coherent.decent.bounded
  have proper : grown p.sz n ≠ NOPAGE := by
    unfold NOPAGE
    unfold KERNBASE at upper
    omega
  have listed : Listed p.clockqueue (grown p.sz n) ↔ grown p.sz n ∈ clockOrder p := by
    rw [coherent.orderly.mem]
    exact ⟨fun present => ⟨present, proper⟩, And.left⟩
  refine ⟨fun pages => ?_, fun more pages absent => ?_, fun more pages member => ?_⟩
  · rw [forall_clockOrder coherent (· < grown p.sz n)]
    unfold Shrinkable
    rw [pages]
    simp
  · rw [freedAbove_same coherent]
    unfold Shrinkable
    rw [pages, listed]
    constructor
    · rintro (⟨impossible, -⟩ | ⟨-, unmapped⟩ | ⟨-, member, -⟩)
      · omega
      · exact unmapped
      · exact absurd member absent
    · exact fun unmapped => .inr (.inl ⟨by omega, unmapped⟩)
  · obtain ⟨low, mapped, page, -⟩ := mem_clockOrder coherent member
    rw [forall_clockOrder coherent (· ≤ grown p.sz n)]
    unfold Shrinkable
    rw [pages, listed]
    constructor
    · rintro (⟨impossible, -⟩ | ⟨-, unmapped⟩ | ⟨one, -, bounded⟩)
      · omega
      · have contradiction := unmapped _ low page.ge
        rw [mapped] at contradiction
        cases contradiction
      · exact ⟨by omega, bounded⟩
    · rintro ⟨rfl, bounded⟩
      exact .inr (.inr ⟨rfl, member, bounded⟩)

/-- A shrinkage is as it should be exactly if it is of the right kind. -/
theorem growproc_shrinks_iff (proper : Proper p.pgdir km) : ShrinksWell p n km ↔ Shrinkable p n := by
  obtain ⟨newsz, -⟩ := shrunk coherent.decent.bounded shrinking partly
  obtain ⟨value, freed⟩ := deallocuvm_returns p.sz (grown p.sz n) coherent.decent.bounded proper
  have unmapped : ∀ v : Vpn, v.user → grown p.sz n ≤ v.addr →
      ((freedAbove p (grown p.sz n)).pgdir.pte v).mapped = false :=
    fun v low above => freedAbove_unmapped coherent low above
  obtain ⟨less, gone, first⟩ := shrinkable_iff coherent shrinking partly
  match pages : (-n).toNat / PGSIZE with
  | 0 =>
    have same : clockOrder { freedAbove p (grown p.sz n) with sz := grown p.sz n } = clockOrder p :=
      clockOrder_congr rfl rfl
    rw [less pages, shrinksWell_true (growproc_less coherent shrinking partly freed pages), same]
    constructor
    · rintro ⟨-, -, filtered⟩ a member
      rw [filtered] at member
      simpa using (List.mem_filter.mp member).2
    · intro below
      refine ⟨newsz, unmapped, (List.filter_eq_self.mpr fun a member => ?_).symm⟩
      simpa using below a member
  | more + 1 =>
    by_cases member : grown p.sz n ∈ clockOrder p
    · rw [first more pages member]
      cases more with
      | succ more =>
        exact ⟨fun well => absurd well (not_shrinksWell_two coherent shrinking partly freed pages member),
          fun impossible => (by cases impossible.1)⟩
      | zero =>
        obtain ⟨queue, hand, result, order⟩ := growproc_one coherent shrinking partly freed pages member
        rw [shrinksWell_true result, order]
        have bound := @erase_eq_filter (clockOrder p) (grown p.sz n) coherent.orderly.nodup
        exact ⟨fun well => ⟨rfl, bound.mp well.2.2⟩, fun kind => ⟨newsz, unmapped, bound.mpr kind.2⟩⟩
    · rw [gone more pages member, shrinksWell_false (growproc_absent coherent shrinking partly freed pages member)]
      exact ⟨And.left, fun same => ⟨same, rfl, rfl, rfl⟩⟩

end Shrinking

/-- Shrinking the new process by a hundred bytes. -/
theorem growproc_shrinks_iff_bytes : ShrinksWell launched (-100) twoFrames :=
  (growproc_shrinks_iff launched_coherent (by decide) (by decide) launched_proper).mpr
    (.inl ⟨by decide, fun slot filled => absurd rfl filled⟩)

/-- Shrinking the new process by a page, which is not in the queue: the call fails, and
the page is gone. -/
theorem failed_shrink_unmaps : Coherent launched ∧ Proper launched.pgdir twoFrames ∧
    ¬ ShrinksWell launched (-4096) twoFrames := by
  refine ⟨launched_coherent, launched_proper, ?_⟩
  obtain ⟨value, freed⟩ := deallocuvm_returns launched.sz (grown launched.sz (-4096))
    launched_coherent.decent.bounded launched_proper
  have absent : grown launched.sz (-4096) ∉ clockOrder launched := by decide
  have pages : (-(-4096) : Int).toNat / PGSIZE = 0 + 1 := by decide
  rw [shrinksWell_false (growproc_absent launched_coherent (by decide) (by decide) freed pages absent),
    freedAbove_same launched_coherent]
  intro unmapped
  exact absurd (unmapped.1 2 (by decide) (by decide)) (by decide)

end

end P6

end Cs537.Vm
