import Cs537.Vm.HeapShrink
import Cs537.Vm.Refinement

/-!
# Pages in clear over whole runs of p6

Over any run of processes of p6, the queue of each process lists its pages in clear, and
so at most eight pages of a process are in clear at a time. The run may contain page
faults, `fork` and `exec` at will. Of the calls of `sbrk` it is asked that a growth is
refused or whole, and that a shrinkage leaves no stale page in the queue and removes none
that stays.
-/

namespace Cs537.Vm

open Occurrences Ledger Runs

/-! ## Shrinking -/

/-- The whole pages of a shrinkage, which `growproc` removes from the queue. -/
def pagesOf (n : Int) : Nat := ((int (-n)).tdiv PGSIZE).toNat

/-- A shrinkage after which the queue is right: no page in the queue is freed; or one is,
it is the first that is removed from the queue, and the next one to be removed, if any,
is not in the queue. -/
def Trims (p : Proc) (n : Int) : Prop :=
  (∀ slot, p.clockqueue slot ≠ NOPAGE → p.clockqueue slot < grown p.sz n) ∨
  (0 < grown p.sz n ∧ 1 ≤ pagesOf n ∧ Listed p.clockqueue (grown p.sz n) ∧
    (∀ slot, p.clockqueue slot ≠ NOPAGE → p.clockqueue slot ≤ grown p.sz n) ∧
    (pagesOf n = 1 ∨ ¬ Listed p.clockqueue (grown p.sz n - PGSIZE)))

instance (p : Proc) (n : Int) : Decidable (Trims p n) := inferInstanceAs (Decidable (_ ∨ _))

/-- A process stays coherent when pages above some size and their addresses in the queue
disappear. -/
theorem Coherent.trim {p : Proc} (coherent : Coherent p) {newsz size : Nat} {queue : Fin 8 → Nat}
    {hand : Option (Fin 8)}
    (kept : ∀ a, a ≠ NOPAGE → (Listed queue a ↔ Listed p.clockqueue a ∧ a < newsz))
    (distinct : ∀ slot other, queue slot ≠ NOPAGE → queue slot = queue other → slot = other)
    (moved : hand = none → ∀ slot, queue slot = NOPAGE) (above : min p.sz newsz ≤ size)
    (small : size ≤ KERNBASE) :
    Coherent { p with
      pgdir := p.pgdir.clear newsz p.sz, sz := size, clockqueue := queue, clockhand := hand } := by
  have entry : ∀ v : Vpn, v.addr < newsz → (p.pgdir.clear newsz p.sz).pte v = p.pgdir.pte v := by
    intro v below
    rw [PgDir.clear_pte, if_neg fun range => absurd below (Nat.not_lt.mpr range.1)]
  have mapped_below : ∀ v : Vpn, v.user → ((p.pgdir.clear newsz p.sz).pte v).mapped = true →
      v.addr < newsz ∧ v.addr < p.sz := by
    intro v low mapped
    rw [PgDir.clear_pte] at mapped
    split at mapped
    · cases mapped
    · rename_i outside
      have inside := coherent.inside v low mapped
      exact ⟨Nat.lt_of_not_le fun beyond => outside ⟨beyond, inside⟩, inside⟩
  have slots : ∀ slot, queue slot ≠ NOPAGE → Listed p.clockqueue (queue slot) ∧ queue slot < newsz :=
    fun slot filled => (kept _ filled).mp ⟨slot, rfl⟩
  have cleared := coherent.decent.clear (coherent.decent.tidy.clear newsz p.sz) rfl
  refine ⟨⟨distinct, fun slot filled => ?_, fun slot filled => ?_, fun v opened => ?_⟩,
    ⟨cleared.tidy, small, cleared.exclusive, cleared.guarded⟩, fun slot filled => ?_, fun v low mapped => ?_, moved⟩
  · obtain ⟨⟨old, same⟩, -⟩ := slots slot filled
    change queue slot ≠ NOPAGE at filled
    change PGSIZE ∣ queue slot
    rw [← same] at filled ⊢
    exact coherent.aligned old filled
  · obtain ⟨⟨old, same⟩, below⟩ := slots slot filled
    change queue slot ≠ NOPAGE at filled
    change queue slot < size
    rw [← same] at filled
    have inside := coherent.below old filled
    omega
  · change (p.pgdir.clear newsz p.sz).opens v at opened
    have low := (coherent.decent.tidy.clear newsz p.sz).low opened.2
    obtain ⟨below, -⟩ := mapped_below v low opened.1
    unfold PgDir.opens at opened
    rw [entry v below] at opened
    change ((p.pgdir.clear newsz p.sz).pte v).p = true ∧ ((p.pgdir.clear newsz p.sz).pte v).e = false ↔
      Listed queue v.addr
    rw [entry v below, coherent.known v opened, kept _ (addr_ne_NOPAGE v)]
    exact ⟨fun listed => ⟨listed, below⟩, And.left⟩
  · obtain ⟨⟨old, same⟩, below⟩ := slots slot filled
    change queue slot ≠ NOPAGE at filled
    change (p.pgdir.clear newsz p.sz).opens (vpn (queue slot))
    rw [← same] at filled below ⊢
    have inner : (vpn (p.clockqueue old)).addr < newsz := by
      rw [coherent.addr filled]
      exact below
    unfold PgDir.opens
    rw [entry _ inner]
    exact coherent.listed old filled
  · obtain ⟨below, inside⟩ := mapped_below v low mapped
    change v.addr < size
    omega

/-- A shrinkage of the right kind keeps the working set. -/
theorem P6.growproc_trims {p p' : Proc} {n : Int} {km km' : Kmem} {succeeded : Bool}
    (coherent : Coherent p) (shrinking : n < 0) (fits : -2 ^ 31 ≤ n) (trims : Trims p n)
    (result : P6.growproc p n km = .ok (succeeded, p', km')) : Coherent p' := by
  have bounded := coherent.decent.bounded
  have freed : ∃ value, deallocuvm p.pgdir p.sz (grown p.sz n) km = .ok value := by
    unfold growproc at result
    rw [if_neg (by omega), if_pos shrinking] at result
    obtain ⟨value, freed, -⟩ := bind_ok.mp result
    exact ⟨value, freed⟩
  obtain ⟨value, freed⟩ := freed
  rw [growproc_frees coherent.decent shrinking freed] at result
  -- the queue stays as it is
  have unlisted : (∀ slot, p.clockqueue slot ≠ NOPAGE → p.clockqueue slot < grown p.sz n) →
      ∀ size, min p.sz (grown p.sz n) ≤ size → size ≤ KERNBASE →
      Coherent { p with pgdir := p.pgdir.clear (grown p.sz n) p.sz, sz := size } := by
    intro below size above small
    refine coherent.trim (fun a proper => ⟨?_, And.left⟩) coherent.distinct coherent.moved above small
    rintro ⟨slot, rfl⟩
    exact ⟨⟨slot, rfl⟩, below slot proper⟩
  have orderly : Orderly (freedAbove p (grown p.sz n)) := ⟨coherent.distinct, coherent.moved⟩
  have before : clockOrder (freedAbove p (grown p.sz n)) = clockOrder p := clockOrder_congr rfl rfl
  by_cases below : ∀ slot, p.clockqueue slot ≠ NOPAGE → p.clockqueue slot < grown p.sz n
  · have absent : min p.sz (grown p.sz n) ∉ clockOrder (freedAbove p (grown p.sz n)) := by
      rw [before]
      intro member
      obtain ⟨⟨slot, same⟩, filled⟩ := coherent.orderly.mem.mp member
      rw [← same] at filled
      have inside := coherent.below slot filled
      have under := below slot filled
      omega
    have proper : min p.sz (grown p.sz n) ≠ NOPAGE := by
      unfold NOPAGE
      unfold KERNBASE at bounded
      omega
    split at result
    · obtain ⟨-, rfl, -⟩ : false = succeeded ∧ _ = p' ∧ _ = km' := by simpa using result
      exact unlisted below p.sz (min_le_left _ _) bounded
    · change (deletePages _ (pagesOf n) 0 (freedAbove p (grown p.sz n)) >>= _) = _ at result
      cases pages : pagesOf n with
      | zero =>
        rw [pages] at result
        obtain ⟨-, rfl, -⟩ : true = succeeded ∧ _ = p' ∧ _ = km' := by
          simpa [deletePages, bind, Except.bind, pure, Except.pure] using result
        exact unlisted below _ le_rfl ((min_le_left _ _).trans bounded)
      | succ more =>
        rw [pages] at result
        unfold deletePages at result
        rw [first_deleted ((min_le_left _ _).trans bounded) 0 rfl, orderly.keep absent proper] at result
        obtain ⟨-, rfl, -⟩ : false = succeeded ∧ _ = p' ∧ _ = km' := by
          simpa [bind, Except.bind, pure, Except.pure] using result
        exact unlisted below p.sz (min_le_left _ _) bounded
  · obtain ⟨positive, atLeast, listed, highest, next⟩ := trims.resolve_left below
    have smaller : grown p.sz n < p.sz := by
      obtain ⟨slot, filled, beyond⟩ : ∃ slot, p.clockqueue slot ≠ NOPAGE ∧ grown p.sz n ≤ p.clockqueue slot := by
        simpa using below
      exact beyond.trans_lt (coherent.below slot filled)
    have small : grown p.sz n ≤ KERNBASE := smaller.le.trans bounded
    have proper : grown p.sz n ≠ NOPAGE := by
      unfold NOPAGE
      unfold KERNBASE at small
      omega
    have member : grown p.sz n ∈ clockOrder p := coherent.orderly.mem.mpr ⟨listed, proper⟩
    obtain ⟨-, -, -, aligned⟩ := mem_clockOrder coherent member
    obtain ⟨queue, hand, done, order, orderly'⟩ := orderly.delete (before.symm ▸ member)
    -- the freed page is gone from the queue
    have removed : ∀ size, grown p.sz n ≤ size → size ≤ KERNBASE → Coherent { p with
        pgdir := p.pgdir.clear (grown p.sz n) p.sz, sz := size, clockqueue := queue, clockhand := some hand } := by
      intro size above fit
      refine coherent.trim (fun a proper => ?_) orderly'.distinct (fun none => (by cases none))
        ((min_le_right _ _).trans above) fit
      have new := @Orderly.mem _ orderly' a
      rw [order, before, coherent.orderly.nodup.mem_erase_iff, coherent.orderly.mem] at new
      constructor
      · intro present
        obtain ⟨different, old, -⟩ := new.mpr ⟨present, proper⟩
        obtain ⟨slot, rfl⟩ := old
        exact ⟨⟨slot, rfl⟩, lt_of_le_of_ne (highest slot proper) different⟩
      · rintro ⟨present, under⟩
        exact (new.mp ⟨under.ne, present, proper⟩).1
    rw [min_eq_right smaller.le, if_neg positive.ne'] at result
    change (deletePages _ (pagesOf n) 0 (freedAbove p (grown p.sz n)) >>= _) = _ at result
    obtain ⟨more, pages⟩ := Nat.exists_eq_succ_of_ne_zero (Nat.one_le_iff_ne_zero.mp atLeast)
    rw [pages] at result
    unfold deletePages at result
    rw [first_deleted small 0 rfl, done] at result
    cases more with
    | zero =>
      obtain ⟨-, rfl, -⟩ : true = succeeded ∧ _ = p' ∧ _ = km' := by
        simpa [deletePages, bind, Except.bind, pure, Except.pure] using result
      exact removed _ le_rfl small
    | succ more =>
      change (deletePages _ (more + 1) (0 + 1) _ >>= _) = _ at result
      have absent : grown (grown p.sz n) (-((0 + 1 : Nat) * PGSIZE : Int)) ∉
          clockOrder { freedAbove p (grown p.sz n) with clockqueue := queue, clockhand := some hand } := by
        rw [order, before, second_deleted small aligned positive]
        intro present
        exact next.resolve_left (by omega) (coherent.orderly.mem.mp (List.mem_of_mem_erase present)).1
      unfold deletePages at result
      rw [orderly'.keep absent (grown_page aligned _)] at result
      obtain ⟨-, rfl, -⟩ : false = succeeded ∧ _ = p' ∧ _ = km' := by
        simpa [bind, Except.bind, pure, Except.pure] using result
      exact removed p.sz smaller.le bounded

/-! ## The other calls -/

/-- What a successful `fork` makes. -/
theorem fork_copied {ver : Version} {p : Proc} {km km' : Kmem} {made : Option Proc} (bounded : p.sz ≤ KERNBASE)
    (result : fork ver p km = .ok (made, km')) :
    made = none ∨ ∃ d kstack start rest, made = some { p with pgdir := d, kstack := kstack } ∧
      Copied ver p.pgdir p.sz start d rest := by
  unfold fork at result
  split at result
  · obtain ⟨rfl, -⟩ : none = made ∧ _ := by simpa using result
    exact .inl rfl
  · rename_i kstack start granted
    obtain ⟨⟨d, rest⟩, copying, result⟩ := bind_ok.mp result
    obtain ⟨rfl, -⟩ | ⟨copy, rfl, copied⟩ := copyuvm_cases bounded copying
    · obtain ⟨_, -, result⟩ := bind_ok.mp result
      obtain ⟨rfl, -⟩ : none = made ∧ _ := by simpa [pure, Except.pure] using result
      exact .inl rfl
    · obtain ⟨rfl, -⟩ : some { p with pgdir := copy, kstack := kstack } = made ∧ _ := by
        simpa [pure, Except.pure] using result
      exact .inr ⟨copy, kstack, start, rest, rfl, copied⟩

/-- A child is as coherent as its parent. -/
theorem Coherent.fork {p : Proc} {d : PgDir} {kstack : Frame} {start rest : Kmem} (coherent : Coherent p)
    (copied : Copied .p6 p.pgdir p.sz start d rest) : Coherent { p with pgdir := d, kstack := kstack } := by
  have flags : ∀ v : Vpn, v.addr < p.sz → (d.pte v).p = (p.pgdir.pte v).p ∧
      (d.pte v).e = (p.pgdir.pte v).e ∧ (d.pte v).u = (p.pgdir.pte v).u := by
    intro v below
    obtain ⟨mapped, f, entry, -⟩ := copied.inside v below
    rw [entry]
    exact Version.p6.entry_flags f (coherent.decent.exclusive v mapped)
  have opens : ∀ v : Vpn, v.addr < p.sz → (d.opens v ↔ p.pgdir.opens v) := by
    intro v below
    unfold PgDir.opens Pte.mapped
    rw [(flags v below).1, (flags v below).2.1, (flags v below).2.2]
  have inside : ∀ v : Vpn, v.user → (d.pte v).mapped = true → v.addr < p.sz := by
    intro v low mapped
    by_contra beyond
    rw [copied.outside v low (Nat.le_of_not_lt beyond)] at mapped
    cases mapped
  refine ⟨⟨coherent.distinct, coherent.aligned, coherent.below, fun v opened => ?_⟩,
    copied.decent coherent.decent, fun slot filled => ?_, inside, coherent.moved⟩
  · have below := inside v (copied.tidy.low opened.2) opened.1
    have known := coherent.known v ((opens v below).mp opened)
    rw [← (flags v below).1, ← (flags v below).2.1] at known
    exact known
  · have below := coherent.below slot filled
    rw [← coherent.addr filled] at below
    exact (opens _ below).mpr (coherent.listed slot filled)

/-- A successful `exec` leaves a fresh process. -/
theorem P6.exec_fresh {p p' : Proc} {image : Image} {argv : List (List (BitVec 8))} {km km' : Kmem}
    {succeeded : Bool} (tidy : Tidy p.pgdir) (result : P6.exec p image argv km = .ok (succeeded, p', km')) :
    (succeeded = false ∧ p' = p) ∨ Fresh p' := by
  obtain ⟨failed, same, -⟩ | ⟨-, middle, launched, -, shape⟩ := P6.exec_cases tidy result
  · exact .inl ⟨failed, same⟩
  · have inside : ∀ v : Vpn, v.user → (p'.pgdir.pte v).mapped = true → v.addr < p'.sz := by
      intro v low mapped
      by_contra beyond
      rw [launched.outside v low (Nat.le_of_not_lt beyond)] at mapped
      cases mapped
    refine .inr ⟨⟨launched.tidy, launched.bounded, fun v mapped => ?_, fun v encrypted => ?_⟩, ?_, ?_,
      fun v opened => ?_, inside⟩
    · by_cases low : v.user
      · obtain ⟨encrypted, present⟩ := launched.inside v (inside v low mapped)
        rw [encrypted, present]
        cases (p'.pgdir.pte v).u <;> simp
      · exact launched.tidy.kernel_exclusive low mapped
    · have low : v.user := by
        by_contra high
        rw [(launched.tidy.kernel v high).2] at encrypted
        cases encrypted
      have mapped : (p'.pgdir.pte v).mapped = true := by simp [Pte.mapped, encrypted]
      rw [← (launched.inside v (inside v low mapped)).1]
      exact encrypted
    · rw [shape]
      exact fun slot => rfl
    · rw [shape]
      rfl
    · rw [(launched.inside v (inside v (launched.tidy.low opened.2) opened.1)).1]
      exact opened.2

/-! ## Runs -/

/-- What the processes do: accesses, `sbrk` and `fork` as before, and `exec`. -/
inductive Deed where
  | act (action : Action)
  | exec (i : Nat) (image : Image) (argv : List (List (BitVec 8)))

namespace System

/-- Perform a deed. -/
def deed (s : System) : Deed → Option System
  | .act action => (s.step .p6 action).map Prod.snd
  | .exec i image argv => (s.call i fun p km => P6.exec p image argv km).map Prod.snd

/-- Accesses are at user pages, the argument of `sbrk` is a C int, a growth is refused or
whole, and a shrinkage leaves the queue right. -/
def Keeps (s : System) : Deed → Prop
  | .act (.load i va) | .act (.store i va _) => ∀ p ∈ s.procs[i]?, p.pgdir.opens (vpn va)
  | .act (.sbrk i n) => ∀ p ∈ s.procs[i]?, (-2 ^ 31 ≤ n ∧ n < 2 ^ 31) ∧
      (0 < n → ¬ Affordable p.pgdir p.sz (grown p.sz n) s.km ∨ P6.Whole p.sz n) ∧ (n < 0 → Trims p n)
  | _ => True

instance (s : System) (deed : Deed) : Decidable (s.Keeps deed) :=
  match deed with
  | .act (.load i _) | .act (.store i _ _) | .act (.sbrk i _) =>
    inferInstanceAs (Decidable (∀ p ∈ s.procs[i]?, _))
  | .act (.mencrypt _ _ _) | .act (.fork _) | .exec _ _ _ => isTrue trivial

variable {s t : System} {i : Nat}

/-- The processes are coherent. -/
def AllCoherent (s : System) : Prop := ∀ p ∈ s.procs, Coherent p

/-- One process is replaced. -/
theorem AllCoherent.put {p : Proc} {km : Kmem} (all : s.AllCoherent) (coherent : Coherent p) :
    (s.put i p km).AllCoherent := by
  intro q member
  obtain old | rfl := List.mem_or_eq_of_mem_set member
  · exact all q old
  · exact coherent

theorem access_coherent {va : Nat} {complete : Page → Answer × Page} {answer : Answer} (all : s.AllCoherent)
    (permitted : ∀ p, s.procs[i]? = some p → p.pgdir.opens (vpn va))
    (moved : s.access .p6 i va complete = some (answer, t)) : t.AllCoherent := by
  unfold access at moved
  obtain ⟨p, present, moved⟩ := Option.bind_eq_some_iff.mp moved
  have coherent := all p (List.mem_of_getElem? present)
  have opened := permitted p present
  split at moved
  · rename_i f found
    obtain ⟨-, rfl⟩ : _ = answer ∧ _ = t := by simpa using moved
    have filled : p.pgdir.pte (vpn va) ≠ {} := by
      intro empty
      rw [PgDir.opens, empty] at opened
      cases opened.1
    exact all.put (coherent.touch s.km filled)
  · rename_i missing
    obtain ⟨⟨handled, p', km'⟩, returned, moved⟩ := Option.bind_eq_some_iff.mp moved
    obtain ⟨-, rfl⟩ : _ = answer ∧ _ = t := by simpa using moved
    exact all.put (P6.mdecrypt_coherent coherent opened
      (translate_none coherent.decent.tidy opened missing) (toOption_some returned))

/-- Every deed of the right kind keeps the processes coherent. -/
theorem deed_coherent {deed : Deed} (all : s.AllCoherent) (keeps : s.Keeps deed)
    (moved : s.deed deed = some t) : t.AllCoherent := by
  cases deed with
  | exec i image argv =>
    obtain ⟨⟨answer, t'⟩, performed, rfl⟩ := Option.map_eq_some_iff.mp moved
    obtain ⟨p, present, performed⟩ := Option.bind_eq_some_iff.mp performed
    obtain ⟨⟨succeeded, p', km'⟩, returned, performed⟩ := Option.bind_eq_some_iff.mp performed
    obtain ⟨-, rfl⟩ : _ = answer ∧ _ = t' := by simpa using performed
    have coherent := all p (List.mem_of_getElem? present)
    obtain ⟨-, rfl⟩ | fresh := P6.exec_fresh coherent.decent.tidy (toOption_some returned)
    · exact all.put coherent
    · exact all.put fresh.coherent
  | act action =>
    obtain ⟨⟨answer, t'⟩, performed, rfl⟩ := Option.map_eq_some_iff.mp moved
    cases action with
    | load i va =>
      unfold step at performed
      exact access_coherent all keeps performed
    | store i va byte =>
      unfold step at performed
      exact access_coherent all keeps performed
    | mencrypt i va len => cases performed
    | sbrk i n =>
      obtain ⟨p, present, performed⟩ := Option.bind_eq_some_iff.mp performed
      obtain ⟨⟨succeeded, p', km'⟩, returned, performed⟩ := Option.bind_eq_some_iff.mp performed
      obtain ⟨-, rfl⟩ : _ = answer ∧ _ = t' := by simpa using performed
      have coherent := all p (List.mem_of_getElem? present)
      obtain ⟨⟨lower, upper⟩, growth, shrinkage⟩ := keeps p present
      have result : P6.growproc p n s.km = .ok (succeeded, p', km') := toOption_some returned
      refine all.put ?_
      obtain shrinking | rfl | growing := lt_trichotomy n 0
      · exact P6.growproc_trims coherent shrinking lower (shrinkage shrinking) result
      · obtain ⟨-, rfl, -⟩ : true = succeeded ∧ p = p' ∧ s.km = km' := by simpa [P6.growproc] using result
        exact coherent
      · exact P6.growproc_coherent coherent growing upper (growth growing) result
    | fork i =>
      obtain ⟨p, present, performed⟩ := Option.bind_eq_some_iff.mp performed
      obtain ⟨⟨made, km'⟩, returned, performed⟩ := Option.bind_eq_some_iff.mp performed
      have coherent := all p (List.mem_of_getElem? present)
      obtain rfl | ⟨d, kstack, start, rest, rfl, copied⟩ :=
        fork_copied coherent.decent.bounded (toOption_some returned)
      · obtain ⟨-, rfl⟩ : _ = answer ∧ _ = t' := by simpa using performed
        exact all
      · obtain ⟨-, rfl⟩ : _ = answer ∧ _ = t' := by simpa using performed
        intro q member
        obtain old | new := List.mem_append.mp member
        · exact all q old
        · rw [List.mem_singleton.mp new]
          exact coherent.fork copied

/-- `exec` leaves a fresh process; and from fresh processes on, in every run of deeds of
the right kind, the queue of each process lists its pages in clear, of which there are at
most eight. -/
theorem clear_pages_listed {s₀ : System} {deeds : List Deed} (fresh : ∀ p ∈ s₀.procs, Fresh p)
    (kept : Meets deed Keeps s₀ deeds) (completed : run deed s₀ deeds = some s) :
    (∀ p p' image argv km km', Tidy p.pgdir → P6.exec p image argv km = .ok (true, p', km') → Fresh p') ∧
    ∀ p ∈ s.procs, WorkingSet p ∧
      {v | p.pgdir.opens v ∧ (p.pgdir.pte v).p = true ∧ (p.pgdir.pte v).e = false}.ncard ≤ 8 := by
  refine ⟨fun p p' image argv km km' tidy result => ?_, fun p member => ?_⟩
  · exact (P6.exec_fresh tidy result).resolve_left fun failed => Bool.noConfusion failed.1
  · have all : s.AllCoherent := run_invariant (fun _ _ _ keeps all moved => deed_coherent all keeps moved)
      (fun p member => (fresh p member).coherent) kept completed
    exact ⟨(all p member).toWorkingSet, (all p member).toWorkingSet.few⟩

/-- A process after `exec` on a machine with two free frames. -/
def started : System := ⟨twoFrames, [launched]⟩

theorem started_fresh : ∀ p ∈ started.procs, Fresh p := by
  intro p member
  rw [List.mem_singleton.mp member]
  exact launched_fresh

/-- The process grows by a page and accesses its program and its new page. -/
theorem clear_pages_listed_started :
    Meets deed Keeps started [.act (.sbrk 0 4096), .act (.load 0 5), .act (.load 0 5), .act (.store 0 0x3000 7)] ∧
    ∀ p ∈ (final deed started [.act (.sbrk 0 4096), .act (.load 0 5), .act (.load 0 5),
      .act (.store 0 0x3000 7)]).procs, WorkingSet p := by
  refine ⟨by decide +kernel, fun p member => ?_⟩
  exact ((clear_pages_listed started_fresh (by decide +kernel) (run_final (by decide +kernel))).2 p member).1

/-- The process grows by a hundred bytes: its new page is in clear and not in the queue. -/
theorem clear_page_unlisted : (∀ p ∈ started.procs, Fresh p) ∧
    ∃ s, run deed started [.act (.sbrk 0 100)] = some s ∧ ∃ p ∈ s.procs, ¬ WorkingSet p := by
  refine ⟨started_fresh, _, run_final (by decide +kernel),
    (final deed started [.act (.sbrk 0 100)]).procs.getD 0 launched, ?_, fun coherent => ?_⟩
  · rw [List.getD_eq_getElem _ _ (by decide +kernel)]
    exact List.getElem_mem _
  · have listed := (coherent.known 3 (by decide +kernel)).mp (by decide +kernel)
    exact absurd listed (by decide +kernel)

end System

end Cs537.Vm
