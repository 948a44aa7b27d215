import Cs537.Vm.Supply
import Cs537.Vm.WorkingSet

/-!
# Growing the heap of p6

`growproc` allocates from the rounded-up old size on and encrypts from the rounded-down
old size on, as many pages as fit into the number of bytes. The two agree when the size
and the number are multiples of the page size, or when the growth stays in the last page.
-/

namespace Cs537.Vm

open Occurrences Ledger

/-! ## Encrypting a range -/

namespace P6

section Range

variable {pd pd' : PgDir} {km km' : Kmem}

/-- `checkPages` passes over pages that are open to users. -/
theorem checkPages_true {left slider : Nat} (tidy : Tidy pd)
    (opened : ∀ j, j < left → pd.opens (vpn (slider + j * PGSIZE))) :
    checkPages pd left slider = .ok true := by
  induction left generalizing slider with
  | zero => rfl
  | succ left inductionHypothesis =>
    have first : pd.opens (vpn slider) := by simpa using opened 0 (Nat.succ_pos left)
    unfold checkPages
    rw [uva2ka_p6 (tidy.table first.1), first.1, first.2]
    refine inductionHypothesis fun j below => ?_
    rw [vpn_slide]
    exact opened (j + 1) (Nat.succ_lt_succ below)

/-- The pages outside the range keep their entries. -/
theorem encryptPages_outside {left slider : Nat}
    (result : encryptPages left slider pd km = .ok (pd', km')) {v : Vpn}
    (outside : ∀ j, j < left → v ≠ vpn (slider + j * PGSIZE)) : pd'.pte v = pd.pte v := by
  induction left generalizing slider pd km with
  | zero =>
    obtain ⟨rfl, -⟩ : pd = pd' ∧ km = km' := by simpa [encryptPages] using result
    rfl
  | succ left inductionHypothesis =>
    have rest : ∀ j, j < left → v ≠ vpn (word (slider + PGSIZE) + j * PGSIZE) := by
      intro j below
      rw [vpn_slide]
      exact outside (j + 1) (Nat.succ_lt_succ below)
    unfold encryptPages at result
    split at result
    · cases result
    · split at result
      · exact inductionHypothesis result rest
      · rw [inductionHypothesis result rest, PgDir.set_pte, if_neg]
        simpa using outside 0 (Nat.succ_pos left)

/-- Pages that are encrypted already stay as they are. -/
theorem encryptPages_kept {left slider : Nat}
    (result : encryptPages left slider pd km = .ok (pd', km')) {v : Vpn}
    (encrypted : (pd.pte v).e = true) : pd'.pte v = pd.pte v := by
  induction left generalizing slider pd km with
  | zero =>
    obtain ⟨rfl, -⟩ : pd = pd' ∧ km = km' := by simpa [encryptPages] using result
    rfl
  | succ left inductionHypothesis =>
    unfold encryptPages at result
    split at result
    · cases result
    · rename_i x walked
      obtain ⟨-, rfl⟩ := PgDir.walk_some.mp walked
      split at result
      · exact inductionHypothesis result encrypted
      · rename_i clear
        have different : v ≠ vpn slider := by
          rintro rfl
          exact clear encrypted
        have kept : (pd.set (vpn slider) (sealed (pd.pte (vpn slider)))).pte v = pd.pte v := by
          rw [PgDir.set_pte, if_neg different]
        rw [← kept] at encrypted ⊢
        exact inductionHypothesis result encrypted

/-- The pages in the range are encrypted. -/
theorem encryptPages_returns {left slider : Nat} (tidy : Tidy pd) (km : Kmem)
    (opened : ∀ j, j < left → pd.opens (vpn (slider + j * PGSIZE))) :
    ∃ pd' km', encryptPages left slider pd km = .ok (pd', km') ∧
      ∀ j, j < left → (pd'.pte (vpn (slider + j * PGSIZE))).e = true := by
  induction left generalizing slider pd km with
  | zero => exact ⟨pd, km, rfl, fun j below => absurd below (Nat.not_lt_zero j)⟩
  | succ left inductionHypothesis =>
    have first : pd.opens (vpn slider) := by simpa using opened 0 (Nat.succ_pos left)
    have walked : pd.walk (vpn slider) = some (pd.pte (vpn slider)) :=
      PgDir.walk_some.mpr ⟨tidy.table first.1, rfl⟩
    -- the first page is encrypted, before or now, and the others follow
    have rest : ∀ pd₁ km₁, Tidy pd₁ → (∀ v, pd.opens v → pd₁.opens v) → (pd₁.pte (vpn slider)).e = true →
        ∃ pd' km', encryptPages left (word (slider + PGSIZE)) pd₁ km₁ = .ok (pd', km') ∧
          ∀ j, j < left + 1 → (pd'.pte (vpn (slider + j * PGSIZE))).e = true := by
      intro pd₁ km₁ tidy₁ opens₁ encrypted
      obtain ⟨pd', km', done, others⟩ := inductionHypothesis tidy₁ km₁ fun j below => by
        rw [vpn_slide]
        exact opens₁ _ (opened (j + 1) (Nat.succ_lt_succ below))
      refine ⟨pd', km', done, fun j below => ?_⟩
      cases j with
      | zero =>
        rw [Nat.zero_mul, Nat.add_zero, encryptPages_kept done encrypted]
        exact encrypted
      | succ j =>
        rw [← vpn_slide]
        exact others j (Nat.lt_of_succ_lt_succ below)
    unfold encryptPages
    rw [walked]
    by_cases encrypted : (pd.pte (vpn slider)).e = true
    · simp only [encrypted, if_true]
      exact rest pd km tidy (fun _ opened => opened) encrypted
    · simp only [encrypted]
      refine rest _ _ (tidy.set (tidy.table first.1) (fun _ _ => by simp [Pte.mapped])
        fun high => absurd (tidy.low first.2) high) (fun v opened => ?_) (by rw [PgDir.set_pte_self])
      unfold PgDir.opens at opened ⊢
      rw [PgDir.set_pte]
      split
      · rename_i same
        rw [same] at opened
        exact ⟨by simp [Pte.mapped], opened.2⟩
      · exact opened

/-- `mencrypt` of pages that are open to users. -/
theorem mencrypt_returns {va : Nat} {len : Int} (tidy : Tidy pd) (km : Kmem)
    (opened : ∀ j, j < len.toNat → pd.opens (vpn (PGROUNDDOWN va + j * PGSIZE))) :
    ∃ pd' km', mencrypt pd va len km = .ok (true, pd', km') ∧
      (∀ j, j < len.toNat → (pd'.pte (vpn (PGROUNDDOWN va + j * PGSIZE))).e = true) ∧
      ∀ v, (∀ j, j < len.toNat → v ≠ vpn (PGROUNDDOWN va + j * PGSIZE)) → pd'.pte v = pd.pte v := by
  obtain ⟨pd', km', done, encrypted⟩ := encryptPages_returns tidy km opened
  refine ⟨pd', km', ?_, encrypted, fun v outside => encryptPages_outside done outside⟩
  unfold mencrypt
  exact bind_ok.mpr ⟨true, checkPages_true tidy opened, bind_ok.mpr ⟨_, done, rfl⟩⟩

/-- Whatever `mencrypt` does, the pages outside the range keep their entries. -/
theorem mencrypt_outside {va : Nat} {len : Int} {encrypted : Bool}
    (result : mencrypt pd va len km = .ok (encrypted, pd', km')) {v : Vpn}
    (outside : ∀ j, j < len.toNat → v ≠ vpn (PGROUNDDOWN va + j * PGSIZE)) : pd'.pte v = pd.pte v := by
  unfold mencrypt at result
  obtain ⟨passed, -, result⟩ := bind_ok.mp result
  split at result
  · obtain ⟨⟨middle, rest⟩, done, result⟩ := bind_ok.mp result
    obtain ⟨-, rfl, -⟩ : true = encrypted ∧ middle = pd' ∧ rest = km' := by
      simpa [pure, Except.pure] using result
    exact encryptPages_outside done outside
  · obtain ⟨-, rfl, -⟩ : false = encrypted ∧ pd = pd' ∧ km = km' := by
      simpa [pure, Except.pure] using result
    rfl

end Range

/-! ## Growing -/

/-- What is asked of a growth: it returns. If it succeeds, the size grows by `n`, the new
pages read as zero and are encrypted, and the old pages keep their entries and contents.
If it fails, every entry, the size and the queue are as before. -/
def GrowsWell (p : Proc) (n : Int) (km : Kmem) : Prop :=
  ∃ succeeded p' km', growproc p n km = .ok (succeeded, p', km') ∧
    (succeeded = true → (p'.sz : Int) = p.sz + n ∧
      ∀ v : Vpn, v.user →
        ((p.pgdir.pte v).mapped = true →
          p'.pgdir.pte v = p.pgdir.pte v ∧ p'.pgdir.content km' v = p.pgdir.content km v) ∧
        ((p.pgdir.pte v).mapped = false → (p'.pgdir.pte v).mapped = true →
          (p'.pgdir.pte v).e = true ∧ (p'.pgdir.pte v).p = false ∧
            p'.pgdir.content km' v = fun _ => 0)) ∧
    (succeeded = false → p'.pgdir.pte = p.pgdir.pte ∧ p'.sz = p.sz ∧ p'.clockqueue = p.clockqueue ∧
      p'.clockhand = p.clockhand)

section Growing

variable {p : Proc} {n : Int} {km : Kmem}

/-- The size after a growth does not wrap. -/
theorem grown_add (bounded : p.sz ≤ KERNBASE) (growing : 0 < n) (fits : n < 2 ^ 31) :
    (grown p.sz n : Int) = p.sz + n := by
  unfold grown
  unfold KERNBASE at bounded
  omega

/-- The old size is found again. -/
theorem grown_sub (bounded : p.sz ≤ KERNBASE) (growing : 0 < n) (fits : n < 2 ^ 31) :
    grown (grown p.sz n) (-n) = p.sz := by
  have added := grown_add bounded growing fits
  unfold grown at added ⊢
  unfold KERNBASE at bounded
  omega

/-- The allocation of a growth returns when the frames are proper. -/
theorem growth_returns (coherent : Coherent p) (proper : Proper p.pgdir km) (growing : 0 < n)
    (fits : n < 2 ^ 31) : ∃ result, allocuvm .p6 p.pgdir p.sz (grown p.sz n) km = .ok result := by
  have bounded := coherent.decent.bounded
  have added := grown_add bounded growing fits
  exact (allocuvm_affordable coherent.decent.tidy bounded (by omega)
    fun v low above => coherent.blank low above).2 proper

/-- A growth begins with `allocuvm`: it fails and every entry is as before, or the new
pages are there. -/
theorem growproc_allocates (coherent : Coherent p) (growing : 0 < n) (fits : n < 2 ^ 31)
    (returned : ∃ result, allocuvm .p6 p.pgdir p.sz (grown p.sz n) km = .ok result) :
    (¬ Affordable p.pgdir p.sz (grown p.sz n) km ∧ ∃ pd km', growproc p n km =
        .ok (false, { p with pgdir := pd }, km') ∧ Tidy pd ∧ pd.pte = p.pgdir.pte) ∨
      (Affordable p.pgdir p.sz (grown p.sz n) km ∧ ∃ pd km',
        Fills .p6 (fun _ => userPage) (fun _ _ => 0) (∀ g, km.freelist.count g ≤ 1) p.sz (grown p.sz n)
          p.pgdir km pd km' ∧
        growproc p n km = (do
          let (encrypted, pd, km) ← mencrypt pd p.sz (n / PGSIZE) km'
          if encrypted then return (true, { p with pgdir := pd, sz := grown p.sz n }, km)
          else return (false, { p with pgdir := pd }, km))) := by
  have bounded := coherent.decent.bounded
  have added := grown_add bounded growing fits
  have larger : p.sz < grown p.sz n := by omega
  obtain ⟨⟨size, pd, km'⟩, allocated⟩ := returned
  have succeeds := (@allocuvm_affordable .p6 p.sz (grown p.sz n) p.pgdir km coherent.decent.tidy bounded
    larger fun v low above => coherent.blank low above).1 size pd km' allocated
  have cases := allocuvm_cases coherent.decent.tidy allocated
  by_cases afford : Affordable p.pgdir p.sz (grown p.sz n) km
  · obtain ⟨same, fills⟩ : size = grown p.sz n ∧
        Fills .p6 (fun _ => userPage) (fun _ _ => 0) (∀ g, km.freelist.count g ≤ 1) p.sz (grown p.sz n)
          p.pgdir km pd km' := by
      cases cases with
      | tooLarge large => exact absurd rfl (succeeds.mpr afford)
      | smaller small below => exact absurd larger below.not_gt
      | done small above fills => exact ⟨rfl, fills⟩
      | undone => exact absurd rfl (succeeds.mpr afford)
    refine .inr ⟨afford, pd, km', fills, ?_⟩
    unfold growproc
    rw [if_pos growing, allocated]
    simp only [bind, Except.bind, if_neg (succeeds.mpr afford)]
    rw [same, grown_sub bounded growing fits]
  · have zero : size = 0 := by
      by_contra positive
      exact afford (succeeds.mp positive)
    refine .inl ⟨afford, pd, km', ?_, ?_⟩
    · unfold growproc
      rw [if_pos growing, allocated, zero]
      rfl
    · cases cases with
      | tooLarge large => exact ⟨coherent.decent.tidy, rfl⟩
      | smaller small below => exact absurd larger below.not_gt
      | done small above fills => exact absurd zero (Nat.zero_lt_of_lt larger).ne'
      | undone small above tidy exchanged entries =>
        refine ⟨tidy, ?_⟩
        funext v
        rw [entries, PgDir.clear_pte]
        split
        · rename_i range
          exact (coherent.blank ((Vpn.user_iff v).mpr (range.2.trans small)) range.1).symm
        · rfl

/-- The pages that are encrypted are the new ones: the size and the number are multiples
of the page size, or the growth stays in the last page. -/
def Whole (sz : Nat) (n : Int) : Prop :=
  (PGSIZE ∣ sz ∧ (PGSIZE : Int) ∣ n) ∨ (0 < sz % PGSIZE ∧ (sz % PGSIZE : Nat) + n ≤ PGSIZE)

instance (sz : Nat) (n : Int) : Decidable (Whole sz n) := inferInstanceAs (Decidable (_ ∨ _))

/-- The pages of the encrypted range. -/
theorem range_addr {sz : Nat} {j : Nat} (below : sz + j * PGSIZE < 2 ^ 32) :
    (vpn (PGROUNDDOWN sz + j * PGSIZE)).addr = PGROUNDDOWN sz + j * PGSIZE := by
  refine vpn_addr ?_ (Nat.dvd_add (Dvd.intro_left _ rfl) (Dvd.intro_left _ rfl))
  unfold PGROUNDDOWN PGSIZE at *
  omega

/-- If the growth is whole, the encrypted pages are the new ones. -/
theorem range_new {sz : Nat} (whole : Whole sz n) (growing : 0 < n) {newsz : Nat}
    (added : (newsz : Int) = sz + n) (small : newsz < KERNBASE) (v : Vpn) :
    (∃ j, j < (n / PGSIZE).toNat ∧ v = vpn (PGROUNDDOWN sz + j * PGSIZE)) ↔
      sz ≤ v.addr ∧ v.addr < newsz := by
  have near : ∀ j, j < (n / PGSIZE).toNat → sz + j * PGSIZE < 2 ^ 32 := by
    intro j below
    unfold KERNBASE PGSIZE at *
    omega
  constructor
  · rintro ⟨j, below, rfl⟩
    rw [range_addr (near j below)]
    unfold Whole PGROUNDDOWN PGSIZE at *
    omega
  · rintro ⟨above, below⟩
    have exact : ∃ j, j < (n / PGSIZE).toNat ∧ v.addr = PGROUNDDOWN sz + j * PGSIZE := by
      refine ⟨(v.addr - PGROUNDDOWN sz) / PGSIZE, ?_, ?_⟩
      all_goals
        unfold Whole PGROUNDDOWN Vpn.addr PGSIZE at *
        omega
    obtain ⟨j, bound, same⟩ := exact
    refine ⟨j, bound, addr_inj ?_⟩
    rw [range_addr (near j bound), same]

/-- If the growth is not whole, the last new page is not encrypted. -/
theorem range_last {sz : Nat} (partly : ¬ Whole sz n) (growing : 0 < n) {newsz : Nat}
    (added : (newsz : Int) = sz + n) (small : newsz < KERNBASE) :
    ∃ v : Vpn, sz ≤ v.addr ∧ v.addr < newsz ∧
      ∀ j, j < (n / PGSIZE).toNat → v ≠ vpn (PGROUNDDOWN sz + j * PGSIZE) := by
  have page : (vpn (newsz - 1)).addr = (newsz - 1) / PGSIZE * PGSIZE := by
    unfold Vpn.addr
    rw [vpn_val]
    unfold KERNBASE at small
    omega
  refine ⟨vpn (newsz - 1), ?_, ?_, fun j below same => ?_⟩
  · rw [page]
    unfold Whole PGSIZE at *
    omega
  · rw [page]
    unfold PGSIZE
    omega
  · have near : sz + j * PGSIZE < 2 ^ 32 := by
      unfold KERNBASE PGSIZE at *
      omega
    have equal := congrArg Vpn.addr same
    rw [page, range_addr near] at equal
    unfold Whole PGROUNDDOWN PGSIZE at *
    omega

/-- The entries after a growth by whole pages. -/
structure Grown (p : Proc) (hi : Nat) (pd : PgDir) : Prop where
  tidy : Tidy pd
  kept : ∀ v : Vpn, ¬ (p.sz ≤ v.addr ∧ v.addr < hi) → pd.pte v = p.pgdir.pte v
  new : ∀ v : Vpn, p.sz ≤ v.addr → v.addr < hi →
    (pd.pte v).e = true ∧ (pd.pte v).p = false ∧ (pd.pte v).u = true

/-- A growth by whole pages encrypts the new pages and nothing else. -/
theorem mencrypt_grown {pd : PgDir} {km' : Kmem} (whole : Whole p.sz n) (growing : 0 < n)
    (fits : n < 2 ^ 31) (bounded : p.sz ≤ KERNBASE) (small : grown p.sz n < KERNBASE) {sure : Prop}
    (fills : Fills .p6 (fun _ => userPage) (fun _ _ => 0) sure p.sz (grown p.sz n) p.pgdir km pd km') :
    ∃ pd' km'', mencrypt pd p.sz (n / PGSIZE) km' = .ok (true, pd', km'') ∧ Grown p (grown p.sz n) pd' ∧
      Recrypts pd km' pd' km'' := by
  have added := grown_add bounded growing fits
  have range := fun v => range_new whole growing added small v
  have fresh : ∀ v : Vpn, p.sz ≤ v.addr → v.addr < grown p.sz n →
      (pd.pte v).p = true ∧ (pd.pte v).e = false ∧ (pd.pte v).u = true := by
    intro v above below
    obtain ⟨-, f, entry, -⟩ := fills.inside v above below
    rw [entry]
    exact ⟨rfl, rfl, rfl⟩
  obtain ⟨pd', km'', done, encrypted, outside⟩ := @mencrypt_returns pd p.sz (n / PGSIZE) fills.tidy km'
    fun j below => by
      obtain ⟨above, under⟩ := (range _).mp ⟨j, below, rfl⟩
      obtain ⟨present, -, user⟩ := fresh _ above under
      exact ⟨by simp [Pte.mapped, present], user⟩
  have recrypted := mencrypt_recrypts fills.tidy done
  refine ⟨pd', km'', done, ⟨recrypted.toRetouches.tidy fills.tidy, fun v away => ?_, fun v above below => ?_⟩,
    recrypted⟩
  · rw [outside v fun j below same => away ((range v).mp ⟨j, below, same⟩), fills.outside v away]
  · obtain ⟨j, bound, same⟩ := (range v).mpr ⟨above, below⟩
    obtain ⟨present, clear, user⟩ := fresh v above below
    have encrypted : (pd'.pte v).e = true := same ▸ encrypted j bound
    have exclusive := recrypted.exclusive v (by rw [present, clear]; exact Bool.noConfusion)
    refine ⟨encrypted, ?_, recrypted.user v ▸ user⟩
    rw [encrypted] at exclusive
    simpa using exclusive

/-- What the pages hold after a growth by whole pages. -/
theorem contents_grown {pd pd' : PgDir} {km' km'' : Kmem} {hi : Nat}
    (single : Single p.pgdir.refs km.store)
    (fills : Fills .p6 (fun _ => userPage) (fun _ _ => 0) (∀ g, km.freelist.count g ≤ 1) p.sz hi
      p.pgdir km pd km')
    (recrypted : Recrypts pd km' pd' km'') {v : Vpn} (low : v.user) :
    (p.sz ≤ v.addr → v.addr < hi → pd'.content km'' v = fun _ => 0) ∧
      ((p.pgdir.pte v).mapped = true → ¬ (p.sz ≤ v.addr ∧ v.addr < hi) →
        pd'.content km'' v = p.pgdir.content km v) := by
  have refs := single_refs (fills.takes.single single)
  constructor
  · intro above below
    obtain ⟨-, f, entry, -, zero⟩ := fills.inside v above below
    have mapped : (pd.pte v).mapped = true := by
      rw [entry]
      exact Version.entry_mapped ..
    rw [recrypted.contents refs v low mapped]
    unfold PgDir.content
    rw [entry]
    exact zero fun g => (Nat.le_add_right _ _).trans (single g)
  · intro mapped away
    have same := fills.outside v away
    rw [recrypted.contents refs v low (same ▸ mapped)]
    exact content_congr same (fills.takes.memory _ (mapped_not_free single low mapped))

/-- A growth that is neither refused nor whole leaves its last page in clear, or fails
with new pages mapped. -/
theorem not_growsWell (coherent : Coherent p) (growing : 0 < n) (fits : n < 2 ^ 31)
    (returned : ∃ result, allocuvm .p6 p.pgdir p.sz (grown p.sz n) km = .ok result)
    (afford : Affordable p.pgdir p.sz (grown p.sz n) km) (partly : ¬ Whole p.sz n) : ¬ GrowsWell p n km := by
  have added := grown_add coherent.decent.bounded growing fits
  rintro ⟨succeeded, p', km'', result, success, failure⟩
  obtain ⟨refused, -⟩ | ⟨-, pd, km', fills, continued⟩ := growproc_allocates coherent growing fits returned
  · exact refused afford
  obtain ⟨v, above, below, outside⟩ := range_last partly growing added afford.1
  have low : v.user := (Vpn.user_iff v).mpr (below.trans afford.1)
  have blank := coherent.blank low above
  obtain ⟨-, f, entry, -⟩ := fills.inside v above below
  rw [continued] at result
  obtain ⟨⟨encrypted, pd', rest⟩, done, result⟩ := bind_ok.mp result
  have kept := mencrypt_outside done outside
  rw [entry] at kept
  cases encrypted with
  | false =>
    obtain ⟨rfl, rfl, -⟩ : false = succeeded ∧ _ = p' ∧ _ = km'' := by
      simpa [pure, Except.pure] using result
    have same := congrFun (failure rfl).1 v
    rw [blank, kept] at same
    exact absurd same (by simp [Version.entry, userPage])
  | true =>
    obtain ⟨rfl, rfl, -⟩ : true = succeeded ∧ _ = p' ∧ _ = km'' := by
      simpa [pure, Except.pure] using result
    have mapped : (pd'.pte v).mapped = true := by
      rw [kept]
      exact Version.entry_mapped ..
    have new := (((success rfl).2 v low).2 (by rw [blank]; rfl) mapped).1
    simp only [kept] at new
    cases new

/-- A growth is as it should be exactly if it is refused or whole. -/
theorem growproc_grows_iff (coherent : Coherent p) (single : Single p.pgdir.refs km.store)
    (proper : Proper p.pgdir km) (growing : 0 < n) (fits : n < 2 ^ 31) :
    GrowsWell p n km ↔ ¬ Affordable p.pgdir p.sz (grown p.sz n) km ∨ Whole p.sz n := by
  have bounded := coherent.decent.bounded
  have added := grown_add bounded growing fits
  have returned := growth_returns coherent proper growing fits
  constructor
  · intro grows
    by_contra neither
    obtain ⟨afford, partly⟩ := not_or.mp neither
    exact not_growsWell coherent growing fits returned (not_not.mp afford) partly grows
  intro condition
  obtain ⟨-, pd, km', failed, -, entries⟩ | ⟨afford, pd, km', fills, continued⟩ :=
    growproc_allocates coherent growing fits returned
  · exact ⟨false, _, km', failed, fun no => (by cases no), fun _ => ⟨entries, rfl, rfl, rfl⟩⟩
  have whole := condition.resolve_left fun refused => refused afford
  obtain ⟨pd', km'', done, grows, recrypted⟩ := mencrypt_grown whole growing fits bounded afford.1 fills
  refine ⟨true, { p with pgdir := pd', sz := grown p.sz n }, km'', ?_, fun _ => ⟨added, fun v low => ?_⟩,
    fun no => (by cases no)⟩
  · rw [continued, done]
    rfl
  · obtain ⟨new, old⟩ := contents_grown single fills recrypted low
    refine ⟨fun mapped => ?_, fun unmapped mapped => ?_⟩
    · have away : ¬ (p.sz ≤ v.addr ∧ v.addr < grown p.sz n) := fun range =>
        absurd (coherent.inside v low mapped) (Nat.not_lt.mpr range.1)
      exact ⟨grows.kept v away, old mapped away⟩
    · by_cases range : p.sz ≤ v.addr ∧ v.addr < grown p.sz n
      · obtain ⟨encrypted, absent, -⟩ := grows.new v range.1 range.2
        exact ⟨encrypted, absent, new range.1 range.2⟩
      · have same := grows.kept v range
        simp only [same] at mapped
        rw [unmapped] at mapped
        cases mapped

/-- A process stays coherent when encrypted pages are added above its size. -/
theorem Grown.coherent {pd : PgDir} {hi : Nat} (grows : Grown p hi pd) (coherent : Coherent p)
    (above : p.sz ≤ hi) (small : hi ≤ KERNBASE) : Coherent { p with pgdir := pd, sz := hi } := by
  have entry : ∀ v, pd.pte v = p.pgdir.pte v ∨
      p.sz ≤ v.addr ∧ v.addr < hi ∧ (pd.pte v).e = true ∧ (pd.pte v).p = false ∧ (pd.pte v).u = true := by
    intro v
    by_cases range : p.sz ≤ v.addr ∧ v.addr < hi
    · exact .inr ⟨range.1, range.2, grows.new v range.1 range.2⟩
    · exact .inl (grows.kept v range)
  refine ⟨⟨coherent.distinct, coherent.aligned, fun slot filled => (coherent.below slot filled).trans_le above,
    fun v opened => ?_⟩, ⟨grows.tidy, small, fun v mapped => ?_, fun v encrypted => ?_⟩, fun slot filled => ?_,
    fun v low mapped => ?_, coherent.moved⟩
  · change pd.opens v at opened
    change (pd.pte v).p = true ∧ (pd.pte v).e = false ↔ Listed p.clockqueue v.addr
    obtain same | ⟨beyond, -, encrypted, -⟩ := entry v
    · unfold PgDir.opens at opened
      rw [same] at opened ⊢
      exact coherent.known v opened
    · rw [encrypted]
      refine ⟨fun clear => (by cases clear.2), fun ⟨slot, held⟩ => ?_⟩
      have below := coherent.below slot (held ▸ addr_ne_NOPAGE v)
      omega
  · change (pd.pte v).mapped = true at mapped
    change (pd.pte v).p ≠ (pd.pte v).e
    obtain same | ⟨-, -, encrypted, absent, -⟩ := entry v
    · rw [same] at mapped ⊢
      exact coherent.decent.exclusive v mapped
    · rw [encrypted, absent]
      exact Bool.false_ne_true
  · change (pd.pte v).e = true at encrypted
    change (pd.pte v).u = true
    obtain same | ⟨-, -, -, -, user⟩ := entry v
    · rw [same] at encrypted ⊢
      exact coherent.decent.guarded v encrypted
    · exact user
  · change pd.opens (vpn (p.clockqueue slot))
    obtain same | ⟨beyond, -⟩ := entry (vpn (p.clockqueue slot))
    · unfold PgDir.opens
      rw [same]
      exact coherent.listed slot filled
    · rw [coherent.addr filled] at beyond
      exact absurd (coherent.below slot filled) (Nat.not_lt.mpr beyond)
  · change (pd.pte v).mapped = true at mapped
    obtain same | ⟨-, inside, -⟩ := entry v
    · rw [same] at mapped
      exact (coherent.inside v low mapped).trans_le above
    · exact inside

/-- A growth that is refused or whole keeps the working set. -/
theorem growproc_coherent {p' : Proc} {km' : Kmem} {succeeded : Bool} (coherent : Coherent p)
    (growing : 0 < n) (fits : n < 2 ^ 31)
    (condition : ¬ Affordable p.pgdir p.sz (grown p.sz n) km ∨ Whole p.sz n)
    (result : growproc p n km = .ok (succeeded, p', km')) : Coherent p' := by
  have bounded := coherent.decent.bounded
  have added := grown_add bounded growing fits
  have returned : ∃ result, allocuvm .p6 p.pgdir p.sz (grown p.sz n) km = .ok result := by
    unfold growproc at result
    rw [if_pos growing] at result
    obtain ⟨value, allocated, -⟩ := bind_ok.mp result
    exact ⟨value, allocated⟩
  obtain ⟨-, pd, rest, failed, tidy, entries⟩ | ⟨afford, pd, rest, fills, continued⟩ :=
    growproc_allocates coherent growing fits returned
  · rw [failed] at result
    obtain ⟨-, rfl, -⟩ : false = succeeded ∧ _ = p' ∧ _ = km' := by simpa using result
    have kept : Grown p p.sz pd :=
      ⟨tidy, fun v _ => congrFun entries v, fun v above below => absurd below (Nat.not_lt.mpr above)⟩
    exact kept.coherent coherent le_rfl bounded
  · have whole := condition.resolve_left fun refused => refused afford
    obtain ⟨pd', later, done, grows, -⟩ := mencrypt_grown whole growing fits bounded afford.1 fills
    rw [continued, done] at result
    obtain ⟨-, rfl, -⟩ : true = succeeded ∧ _ = p' ∧ _ = km' := by
      simpa [bind, Except.bind, pure, Except.pure] using result
    exact grows.coherent coherent (by omega) afford.1.le

/-- Growing the new process by a page. -/
theorem growproc_grows_iff_page : GrowsWell launched 4096 twoFrames :=
  (growproc_grows_iff launched_coherent launched_single launched_proper (by decide) (by decide)).mpr
    (.inr (by decide))

/-- Growing the new process by a hundred bytes leaves the new page in clear. -/
theorem partial_page_in_clear : Coherent launched ∧ Single launched.pgdir.refs twoFrames.store ∧
    Proper launched.pgdir twoFrames ∧ ¬ GrowsWell launched 100 twoFrames :=
  ⟨launched_coherent, launched_single, launched_proper,
    not_growsWell launched_coherent (by decide) (by decide)
      (growth_returns launched_coherent launched_proper (by decide) (by decide)) (by decide +kernel) (by decide)⟩

end Growing

end P6

end Cs537.Vm
