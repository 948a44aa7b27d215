import Cs537.Vm.Clock

/-!
# Page faults of p6

A fault on an encrypted page of the user decrypts it and puts it into the queue, where
it takes the first slot in the order of the clock that is empty or holds a page that was
not accessed. `mdecrypt` looks for an entry that is not zero and does not ask whether the
page is open to users, so that a fault on the guard page below the stack is also taken
for an encrypted page: it is not refused, and the program faults again.
-/

namespace Cs537.Vm

namespace P6

/-! ## Replacement -/

/-- What the insertion of the page of `va` does. The page takes the slot where the hand
stops; the page that was there is encrypted; the pages in the slots before it lose the
accessed flag; and nothing else changes. -/
structure Replaced (p : Proc) (va : Nat) (km : Kmem) (p' : Proc) (km' : Kmem) : Prop where
  hand : p'.clockhand = some (target p)
  queue : p'.clockqueue = Function.update p.clockqueue (target p) (vpn va).addr
  size : p'.sz = p.sz ∧ p'.kstack = p.kstack
  tables : p'.pgdir.root = p.pgdir.root ∧ p'.pgdir.tables = p.pgdir.tables
  page : p'.pgdir.pte (vpn va) = { p.pgdir.pte (vpn va) with e := false, p := true, a := true }
  victim : ∀ v, v.addr = p.clockqueue (target p) → p'.pgdir.pte v = sealed (p.pgdir.pte v)
  passed : ∀ v, v.addr ≠ p.clockqueue (target p) → Passed p (passes p) v →
    p'.pgdir.pte v = { p.pgdir.pte v with a := false }
  others : ∀ v, v ≠ vpn va → v.addr ≠ p.clockqueue (target p) → ¬ Passed p (passes p) v →
    p'.pgdir.pte v = p.pgdir.pte v
  memory : km' =
    if p.clockqueue (target p) = NOPAGE then km.complement (p.pgdir.pte (vpn va)).ppn
    else (km.complement (p.pgdir.pte (vpn va)).ppn).complement
      (p.pgdir.pte (vpn (p.clockqueue (target p)))).ppn

section

variable {p : Proc} {va : Nat}

/-- The page that is decrypted is none of those in the queue. -/
theorem inserted_replaced (queued : Queued p) (fresh : ¬ Listed p.clockqueue (vpn va).addr) (km : Kmem) :
    Replaced p va km (inserted (vpn va).addr (cleared p (vpn va)))
      (evicted (cleared p (vpn va)) (km.complement (p.pgdir.pte (vpn va)).ppn)) := by
  have same : passes (cleared p (vpn va)) = passes p :=
    passes_congr rfl rfl fun slot filled => cleared_pte fresh queued filled
  have slot : target (cleared p (vpn va)) = target p := by
    unfold target
    rw [same]
    rfl
  have pte : ∀ v, (inserted (vpn va).addr (cleared p (vpn va))).pgdir.pte v =
      if p.clockqueue (target p) = v.addr then sealed ((cleared p (vpn va)).pgdir.pte v)
      else if Passed p (passes p) v then { (cleared p (vpn va)).pgdir.pte v with a := false }
      else (cleared p (vpn va)).pgdir.pte v := by
    intro v
    unfold inserted
    simp only [slot, same]
    rfl
  have before : ∀ v, (cleared p (vpn va)).pgdir.pte v =
      if v = vpn va then { p.pgdir.pte (vpn va) with e := false, p := true, a := true }
      else p.pgdir.pte v := fun v => PgDir.set_pte ..
  have apart : ∀ slot v, p.clockqueue slot = v.addr → v ≠ vpn va := by
    rintro slot v held rfl
    exact fresh ⟨slot, held⟩
  refine ⟨by rw [← slot]; rfl, by rw [← slot]; rfl, ⟨rfl, rfl⟩, ⟨rfl, rfl⟩, ?_, fun v held => ?_,
    fun v other passed => ?_, fun v different other unpassed => ?_, ?_⟩
  · have elsewhere : p.clockqueue (target p) ≠ (vpn va).addr := fun held => fresh ⟨_, held⟩
    have unpassed : ¬ Passed p (passes p) (vpn va) := fun ⟨j, _, held⟩ => fresh ⟨_, held⟩
    rw [pte, if_neg elsewhere, if_neg unpassed, before, if_pos rfl]
  · rw [pte, if_pos held.symm, before, if_neg (apart _ v held.symm)]
  · obtain ⟨j, below, held⟩ := passed
    rw [pte, if_neg (Ne.symm other), if_pos ⟨j, below, held⟩, before, if_neg (apart _ v held)]
  · rw [pte, if_neg (Ne.symm other), if_neg unpassed, before, if_neg different]
  · unfold evicted
    rw [slot]
    have queue : (cleared p (vpn va)).clockqueue = p.clockqueue := rfl
    rw [queue]
    split
    · rfl
    · rename_i filled
      rw [cleared_pte fresh queued filled]

/-- `mdecrypt` of an encrypted user page stops after at most nine advances of the hand,
in the first slot in the order of the clock that is empty or holds a page that was not
accessed, or after a full round in the first slot of all. -/
theorem mdecrypt_replaces (settled : Settled p) (low : va < KERNBASE)
    (opened : p.pgdir.opens (vpn va)) (encrypted : (p.pgdir.pte (vpn va)).e = true) (km : Kmem) :
    passes p + 1 ≤ 9 ∧
    ∃ p' km', mdecrypt p va km = .ok (true, p', km') ∧ Replaced p va km p' km' ∧
      ∀ advances, passes p + 1 ≤ advances →
        wsetinsertFrom (PGROUNDDOWN va) advances (cleared p (vpn va))
          (km.complement (p.pgdir.pte (vpn va)).ppn) = .ok (true, p', km') := by
  have fresh := settled.fresh (.inl encrypted)
  have table := settled.decent.tidy.table opened.1
  have filled : p.pgdir.pte (vpn va) ≠ {} := by
    intro empty
    rw [empty] at encrypted
    cases encrypted
  have queued := settled.queued
  refine ⟨Nat.succ_le_succ (passes_le p), _, _,
    mdecrypt_inserted queued settled.clear low table filled fresh km,
    inserted_replaced queued fresh km, fun advances enough => ?_⟩
  have same : passes (cleared p (vpn va)) = passes p :=
    passes_congr rfl rfl fun slot held => cleared_pte fresh queued held
  rw [PGROUNDDOWN_eq low]
  exact wsetinsertFrom_inserted (Queued.cleared queued (vpn va))
    (cleared_clear queued fresh settled.clear) _ _ (by rw [same]; exact enough)

end

end P6

namespace P6

/-- All pages were accessed: the hand makes a full round and replaces the first page. -/
theorem mdecrypt_replaces_crowded :
    passes crowded + 1 = 9 ∧ target crowded = 0 ∧
      ∃ p' km', mdecrypt crowded 0x9000 quiet = .ok (true, p', km') ∧ Replaced crowded 0x9000 quiet p' km' := by
  obtain ⟨-, p', km', returned, replaced, -⟩ :=
    @mdecrypt_replaces crowded 0x9000 crowded_settled (by decide) (by decide) (by decide) quiet
  exact ⟨by decide, by decide, p', km', returned, replaced⟩

/-! ## Which faults are resolved -/

/-- What is asked of `mdecrypt` at a fault: it returns; it succeeds exactly on encrypted
pages of the user, which are then accessible; and a failure changes nothing. -/
def Resolves (p : Proc) (va : Nat) (km : Kmem) : Prop :=
  ∃ decrypted p' km', mdecrypt p va km = .ok (decrypted, p', km') ∧
    (decrypted = true ↔ va < KERNBASE ∧ (p.pgdir.pte (vpn va)).e = true ∧ (p.pgdir.pte (vpn va)).u = true) ∧
    (decrypted = true → (p'.pgdir.pte (vpn va)).p = true ∧ (p'.pgdir.pte (vpn va)).u = true ∧
      (p'.pgdir.pte (vpn va)).e = false) ∧
    (decrypted = false → p' = p ∧ km' = km)

section

variable {p : Proc} {va : Nat}

/-- A mapped page below the kernel that is closed to users: the guard page. -/
def Guards (p : Proc) (va : Nat) : Prop :=
  va < KERNBASE ∧ (p.pgdir.pte (vpn va)).mapped = true ∧ (p.pgdir.pte (vpn va)).u = false

/-- A fault on a guard page is not refused. -/
theorem mdecrypt_guard (settled : Settled p) (guard : Guards p va) (km : Kmem) : ¬ Resolves p va km := by
  obtain ⟨low, mapped, closed⟩ := guard
  have filled : p.pgdir.pte (vpn va) ≠ {} := by
    intro empty
    rw [empty] at mapped
    cases mapped
  have returned := mdecrypt_inserted settled.queued settled.clear low (settled.decent.tidy.table mapped) filled
    (settled.fresh (.inr closed)) km
  rintro ⟨decrypted, p', km', result, succeeds, -⟩
  rw [returned] at result
  obtain ⟨rfl, -⟩ : true = decrypted ∧ _ := by simpa using result
  have user := (succeeds.mp rfl).2.2
  rw [closed] at user
  cases user

/-- `mdecrypt` refuses an address of the kernel and a page that is not mapped. -/
theorem mdecrypt_refuses (decent : Decent p) (km : Kmem)
    (absent : KERNBASE ≤ va ∨ (p.pgdir.pte (vpn va)).mapped = false) :
    mdecrypt p va km = .ok (false, p, km) := by
  unfold mdecrypt
  by_cases high : va ≥ KERNBASE
  · rw [if_pos high]
  · rw [if_neg high]
    have unmapped := absent.resolve_left high
    have empty : p.pgdir.pte (vpn va) = {} :=
      decent.tidy.empty (vpn_user (Nat.lt_of_not_le high)) (by rw [unmapped]; exact Bool.false_ne_true)
    cases walked : p.pgdir.walk (vpn va) with
    | none => rfl
    | some x =>
      obtain ⟨-, rfl⟩ := PgDir.walk_some.mp walked
      simp only [if_pos empty]

/-- A fault is resolved as it should be exactly when it is not on a guard page. -/
theorem mdecrypt_resolves_iff (settled : Settled p) (faulting : translate p.pgdir va = none) (km : Kmem) :
    Resolves p va km ↔
      ¬ (va < KERNBASE ∧ (p.pgdir.pte (vpn va)).mapped = true ∧ (p.pgdir.pte (vpn va)).u = false) := by
  constructor
  · exact fun resolved guard => mdecrypt_guard settled guard km resolved
  · intro unguarded
    by_cases absent : KERNBASE ≤ va ∨ (p.pgdir.pte (vpn va)).mapped = false
    · refine ⟨false, p, km, mdecrypt_refuses settled.decent km absent, ⟨fun no => (by cases no), ?_⟩,
        fun no => (by cases no), fun _ => ⟨rfl, rfl⟩⟩
      rintro ⟨low, encrypted, -⟩
      obtain high | unmapped := absent
      · exact absurd low (Nat.not_lt.mpr high)
      · unfold Pte.mapped at unmapped
        rw [encrypted] at unmapped
        simp at unmapped
    · obtain ⟨low, mapped⟩ := not_or.mp absent
      have low := Nat.lt_of_not_le low
      have mapped : (p.pgdir.pte (vpn va)).mapped = true := by simpa using mapped
      have user : (p.pgdir.pte (vpn va)).u = true := by
        by_contra closed
        exact unguarded ⟨low, mapped, by simpa using closed⟩
      have encrypted := translate_none settled.decent.tidy ⟨mapped, user⟩ faulting
      have fresh := settled.fresh (.inl encrypted)
      have filled : p.pgdir.pte (vpn va) ≠ {} := by
        intro empty
        rw [empty] at mapped
        cases mapped
      have replaced := inserted_replaced settled.queued fresh km
      refine ⟨true, _, _, mdecrypt_inserted settled.queued settled.clear low
        (settled.decent.tidy.table mapped) filled fresh km, ⟨fun _ => ⟨low, encrypted, user⟩, fun _ => rfl⟩,
        fun _ => ?_, fun no => by cases no⟩
      rw [replaced.page]
      exact ⟨rfl, user, rfl⟩

end

/-- The stack of the crowded process is faulted in. -/
theorem mdecrypt_resolves_iff_crowded : Resolves crowded 0x9000 quiet :=
  (mdecrypt_resolves_iff crowded_settled (by decide) quiet).mpr (by decide)

/-- The stack of the crowded process overflows into its guard page: `mdecrypt` reports
that the fault is resolved. -/
theorem guard_page_taken : Settled crowded ∧ translate crowded.pgdir 0x8ffc = none ∧
    ¬ Resolves crowded 0x8ffc quiet :=
  ⟨crowded_settled, by decide, mdecrypt_guard crowded_settled (by unfold Guards; decide) quiet⟩

end P6

end Cs537.Vm
