import Cs537.Vm.Holdings

/-!
# What the page-table functions do

For each function the entries that it leaves, as a statement about every page at
once, and the frames that it moves, as a transaction of the ledger. A function that
runs out of memory gives back what it has taken.
-/

namespace Cs537.Vm

open Occurrences Ledger

/-! ## Entering a page -/

/-- `walkpgdir` leaves every entry, and adds at most a page-table page. -/
theorem walkpgdir_some {pd pd' : PgDir} {v : Vpn} {km km' : Kmem} (tidy : Tidy pd)
    (walked : walkpgdir pd v km = (some pd', km')) :
    pd'.pte = pd.pte ∧ pd'.tables v.pdx ≠ none ∧ Tidy pd' ∧
      Takes pd.refs km.store pd'.refs km'.store := by
  unfold walkpgdir at walked
  split at walked
  · rename_i table present
    obtain ⟨rfl, rfl⟩ : pd = pd' ∧ km = km' := by simpa using walked
    exact ⟨rfl, by simp [present], tidy, Takes.refl _ _⟩
  · rename_i missing
    split at walked
    · simp at walked
    · rename_i f rest granted
      obtain ⟨rfl, rfl⟩ : pd.addTable v.pdx f = pd' ∧ rest.fill f 0 = km' := by simpa using walked
      refine ⟨tidy.addTable_pte missing f, by simp [PgDir.addTable], tidy.addTable missing f, ?_⟩
      have others : ∀ g, g ≠ f → (rest.fill f 0).mem g = rest.mem g :=
        fun g different => rest.write_mem_other _ different
      refine (Kmem.kalloc_takes granted pd.refs others).recount fun g => ?_
      rw [tidy.refs_addTable missing]
      omega

/-- A `walkpgdir` that fails changes nothing. -/
theorem walkpgdir_none {pd : PgDir} {v : Vpn} {km km' : Kmem}
    (walked : walkpgdir pd v km = (none, km')) : km'.store = km.store := by
  unfold walkpgdir at walked
  split at walked
  · simp at walked
  · split at walked
    · rename_i rest refused
      obtain rfl : rest = km' := by simpa using walked
      exact Kmem.kalloc_none refused
    · simp at walked

/-- Every entry that `mappages` writes maps the page. -/
theorem Version.entry_mapped (ver : Version) (f : Frame) (perm : Flags) :
    (ver.entry f perm).mapped = true := by
  cases ver <;> cases encrypted : perm.e <;> simp [Version.entry, Pte.mapped, encrypted]

@[simp] theorem Version.entry_ppn (ver : Version) (f : Frame) (perm : Flags) :
    (ver.entry f perm).ppn = f := by
  cases ver <;> cases encrypted : perm.e <;> simp [Version.entry, encrypted]

/-- One aligned page is one turn of the loop of `mappages`. -/
theorem mappages_page {ver : Version} {pd : PgDir} {a : Nat} {f : Frame} {perm : Flags} {km : Kmem}
    (aligned : PGSIZE ∣ a) (small : a < KERNBASE) :
    mappages ver pd a PGSIZE f perm km = mappagesFrom ver perm 0 (vpn a) f pd km := by
  have bounded : a < 2 ^ 32 := small.trans (by decide)
  have wrapped : word (a + PGSIZE + (2 ^ 32 - 1)) = a + PGSIZE - 1 := by
    unfold word PGSIZE
    unfold KERNBASE at small
    omega
  have last : vpn (a + PGSIZE - 1) = vpn a := by
    unfold PGSIZE KERNBASE at *
    apply Fin.ext
    rw [vpn_val (by omega), vpn_val bounded]
    unfold PGSIZE
    omega
  unfold mappages
  simp only [wrapped, last, Fin.sub_self, Fin.val_zero]

/-- `mappages` of one user page: its entry was empty and is written, and the frame
goes from the caller to the page table; or nothing changes. -/
theorem mappages_user {ver : Version} {pd pd' : PgDir} {a : Nat} {f : Frame} {perm : Flags}
    {km km' : Kmem} {mapped : Bool} (tidy : Tidy pd) (aligned : PGSIZE ∣ a) (small : a < KERNBASE)
    (result : mappages ver pd a PGSIZE f perm km = .ok (mapped, pd', km')) :
    if mapped then
      pd.pte (vpn a) = {} ∧ (∀ v, pd'.pte v = if v = vpn a then ver.entry f perm else pd.pte v) ∧
        Tidy pd' ∧ Takes (fun g => pd.refs g + one f g) km.store pd'.refs km'.store
    else pd' = pd ∧ km'.store = km.store := by
  have low : (vpn a).user := vpn_user small
  rw [mappages_page aligned small] at result
  unfold mappagesFrom at result
  split at result
  · rename_i rest walked
    obtain ⟨rfl, rfl, rfl⟩ : false = mapped ∧ pd = pd' ∧ rest = km' := by simpa using result
    exact ⟨rfl, walkpgdir_none walked⟩
  · rename_i middle rest walked
    obtain ⟨entries, table, middleTidy, taken⟩ := walkpgdir_some tidy walked
    split at result
    · cases result
    · rename_i unmapped
      obtain ⟨rfl, rfl, rfl⟩ :
          true = mapped ∧ middle.set (vpn a) (ver.entry f perm) = pd' ∧ rest = km' := by
        simpa using result
      have empty : middle.pte (vpn a) = {} := middleTidy.empty low unmapped
      rw [if_pos rfl]
      refine ⟨entries ▸ empty, fun v => ?_, ?_, ?_⟩
      · rw [PgDir.set_pte, entries]
      · exact middleTidy.set table (fun _ _ => ver.entry_mapped f perm) (fun high => absurd low high)
      · refine (taken.frame (one f)).recount fun g => ?_
        rw [Tidy.refs_map low empty (ver.entry_mapped f perm), Version.entry_ppn]
        omega

/-- One turn of the loop of `mappages` in the kernel's half, for a page that only
the kernel may use: user entries stay, and a page-table page may be taken. -/
theorem enter_kernel (ver : Version) (w : Bool) (ppn : Frame) {v : Vpn} {pd pd' : PgDir} {km km' : Kmem}
    (tidy : Tidy pd) (high : ¬ v.user) (walked : walkpgdir pd v km = (some pd', km')) :
    Tidy (pd'.set v (ver.entry ppn { w := w })) ∧
      Takes pd.refs km.store (pd'.set v (ver.entry ppn { w := w })).refs km'.store ∧
      ∀ u : Vpn, u.user → (pd'.set v (ver.entry ppn { w := w })).pte u = pd.pte u := by
  obtain ⟨entries, table, tidy', taken⟩ := walkpgdir_some tidy walked
  refine ⟨tidy'.set table (fun low => absurd low high) (fun _ => ?_), ?_, fun u low => ?_⟩
  · cases ver <;> exact ⟨rfl, rfl⟩
  · rw [PgDir.refs_set_kernel _ _ high]
    exact taken
  · have different : u ≠ v := fun same => high (same ▸ low)
    rw [PgDir.set_pte, if_neg different, entries]

/-- The loop of `mappages` in the kernel's half. -/
theorem mappagesFrom_kernel {ver : Version} {w : Bool} {more : Nat} {v : Vpn} {ppn : Frame}
    {pd pd' : PgDir} {km km' : Kmem} {mapped : Bool} (tidy : Tidy pd) (high : ¬ v.user)
    (bounded : v.val + more < 1048576)
    (result : mappagesFrom ver { w := w } more v ppn pd km = .ok (mapped, pd', km')) :
    Tidy pd' ∧ Takes pd.refs km.store pd'.refs km'.store ∧ ∀ u : Vpn, u.user → pd'.pte u = pd.pte u := by
  induction more generalizing v ppn pd km with
  | zero =>
    unfold mappagesFrom at result
    split at result
    · rename_i rest walked
      obtain ⟨rfl, rfl, rfl⟩ : false = mapped ∧ pd = pd' ∧ rest = km' := by simpa using result
      exact ⟨tidy, walkpgdir_none walked ▸ Takes.refl _ _, fun _ _ => rfl⟩
    · rename_i middle rest walked
      split at result
      · cases result
      · obtain ⟨rfl, rfl, rfl⟩ :
            true = mapped ∧ middle.set v (ver.entry ppn { w := w }) = pd' ∧ rest = km' := by
          simpa using result
        exact enter_kernel ver w ppn tidy high walked
  | succ more inductionHypothesis =>
    unfold mappagesFrom at result
    split at result
    · rename_i rest walked
      obtain ⟨rfl, rfl, rfl⟩ : false = mapped ∧ pd = pd' ∧ rest = km' := by simpa using result
      exact ⟨tidy, walkpgdir_none walked ▸ Takes.refl _ _, fun _ _ => rfl⟩
    · rename_i middle rest walked
      split at result
      · cases result
      · obtain ⟨entered, taken, kept⟩ := enter_kernel ver w ppn tidy high walked
        have following : (v + 1).val = v.val + 1 := by
          rw [Fin.val_add_one_of_lt']
          omega
        have stillHigh : ¬ (v + 1).user := by
          unfold Vpn.user at high ⊢
          omega
        obtain ⟨tidy', taken', kept'⟩ :=
          inductionHypothesis entered stillHigh (by omega) result
        exact ⟨tidy', taken.trans taken', fun u low => (kept' u low).trans (kept u low)⟩

/-- `mappages` of a range above `KERNBASE`. -/
theorem mappages_kernel {ver : Version} {w : Bool} {va size : Nat} {ppn : Frame} {pd pd' : PgDir}
    {km km' : Kmem} {mapped : Bool} (tidy : Tidy pd) (high : KERNBASE ≤ va) (nonempty : 0 < size)
    (bounded : va + size ≤ 2 ^ 32)
    (result : mappages ver pd va size ppn { w := w } km = .ok (mapped, pd', km')) :
    Tidy pd' ∧ Takes pd.refs km.store pd'.refs km'.store ∧ ∀ u : Vpn, u.user → pd'.pte u = pd.pte u := by
  have wrapped : word (va + size + (2 ^ 32 - 1)) = va + size - 1 := by
    unfold word
    omega
  have start : (vpn va).val = va / PGSIZE := vpn_val (by omega)
  have last : (vpn (va + size - 1)).val = (va + size - 1) / PGSIZE := vpn_val (by omega)
  have ordered : (vpn va).val ≤ (vpn (va + size - 1)).val := by
    rw [start, last]
    exact Nat.div_le_div_right (by omega)
  unfold mappages at result
  simp only [wrapped] at result
  refine mappagesFrom_kernel tidy ?_ ?_ result
  · unfold Vpn.user
    rw [start]
    unfold PGSIZE
    unfold KERNBASE at high
    omega
  · rw [Fin.sub_val_of_le ordered]
    omega

/-! ## Removing pages -/

/-- The page table without the pages that begin in a range of addresses. -/
def PgDir.clear (pd : PgDir) (lo hi : Nat) : PgDir :=
  { pd with pte := fun v => if lo ≤ v.addr ∧ v.addr < hi then {} else pd.pte v }

theorem PgDir.clear_pte (pd : PgDir) (lo hi : Nat) (v : Vpn) :
    (pd.clear lo hi).pte v = if lo ≤ v.addr ∧ v.addr < hi then {} else pd.pte v := rfl

/-- Two ranges that differ in empty entries only. -/
theorem PgDir.clear_congr {pd : PgDir} {lo hi lo' hi' : Nat}
    (same : ∀ v, ¬ ((lo ≤ v.addr ∧ v.addr < hi) ↔ (lo' ≤ v.addr ∧ v.addr < hi')) → pd.pte v = {}) :
    pd.clear lo hi = pd.clear lo' hi' := by
  unfold PgDir.clear
  congr 1
  funext v
  have empty := same v
  split <;> split <;> simp_all

/-- An entry in the range may have been assigned before. -/
theorem PgDir.clear_set {pd : PgDir} {lo hi : Nat} {v : Vpn} {x : Pte}
    (inside : lo ≤ v.addr ∧ v.addr < hi) : (pd.set v x).clear lo hi = pd.clear lo hi := by
  unfold PgDir.clear
  simp only [PgDir.set_root, PgDir.set_tables]
  congr 1
  funext w
  rw [PgDir.set_pte]
  by_cases same : w = v
  · rw [same, if_pos inside, if_pos inside]
  · rw [if_neg same]

/-- An empty range. -/
theorem PgDir.clear_empty (pd : PgDir) {lo hi : Nat} (empty : hi ≤ lo) : pd.clear lo hi = pd := by
  unfold PgDir.clear
  congr 1
  funext v
  rw [if_neg (by omega)]

/-- An empty entry at the start may be left out of the range. -/
theorem PgDir.clear_skip {pd : PgDir} {a hi : Nat} (page : (vpn a).addr = a)
    (empty : pd.pte (vpn a) = {}) : pd.clear (a + PGSIZE) hi = pd.clear a hi := by
  apply PgDir.clear_congr
  intro v differs
  have aligned : PGSIZE ∣ a := Dvd.intro_left _ page
  have here : v.addr = a := by
    clear page empty
    unfold Vpn.addr PGSIZE at *
    omega
  rw [addr_inj (here.trans page.symm), empty]

theorem Tidy.clear {pd : PgDir} (tidy : Tidy pd) (lo hi : Nat) : Tidy (pd.clear lo hi) := by
  refine ⟨fun v missing => ?_, fun v low => ?_, fun v high => ?_⟩
  all_goals rw [PgDir.clear_pte]
  all_goals split
  · rfl
  · exact tidy.rooted v missing
  · exact fun filled => absurd rfl filled
  · exact tidy.clean v low
  · exact ⟨rfl, rfl⟩
  · exact tidy.kernel v high

/-- The loop of `deallocuvm` clears the rest of the range and gives the frames of
its pages back. -/
theorem deallocuvmFrom_gives {oldsz fuel a : Nat} {pd pd' : PgDir} {km km' : Kmem} (tidy : Tidy pd)
    (bounded : oldsz ≤ KERNBASE) (aligned : PGSIZE ∣ a) (enough : oldsz ≤ a + fuel * PGSIZE)
    (result : deallocuvmFrom oldsz fuel a pd km = .ok (pd', km')) :
    pd' = pd.clear a oldsz ∧ Gives pd.refs km.store pd'.refs km'.store := by
  induction fuel generalizing a pd km with
  | zero =>
    obtain ⟨rfl, rfl⟩ : pd = pd' ∧ km = km' := by simpa [deallocuvmFrom] using result
    exact ⟨(pd.clear_empty (by omega)).symm, Gives.refl _ _⟩
  | succ fuel inductionHypothesis =>
    unfold deallocuvmFrom at result
    split at result
    · rename_i inside
      have small : a < KERNBASE := by omega
      have page : (vpn a).addr = a := vpn_addr (small.trans (by decide)) aligned
      have low : (vpn a).user := vpn_user small
      have next : word (a + PGSIZE) = a + PGSIZE := word_small (by
        unfold PGSIZE KERNBASE at *
        omega)
      have alignedNext : PGSIZE ∣ a + PGSIZE := (Nat.dvd_add_right aligned).mpr (dvd_refl _)
      have enoughNext : oldsz ≤ a + PGSIZE + fuel * PGSIZE := by
        rw [Nat.succ_mul] at enough
        omega
      split at result
      · rename_i missing
        have jump : word (((vpn a).pdx.val + 1) * 2 ^ 22) = (a / 2 ^ 22 + 1) * 2 ^ 22 := by
          unfold Vpn.pdx
          simp only
          rw [vpn_val (small.trans (by decide)), word_small]
          all_goals unfold PGSIZE KERNBASE at *
          all_goals omega
        -- the whole page-table page is missing, so that its entries are empty
        have region : pd.clear ((a / 2 ^ 22 + 1) * 2 ^ 22) oldsz = pd.clear a oldsz := by
          apply PgDir.clear_congr
          intro v differs
          have sameTable : v.pdx = (vpn a).pdx := by
            apply Fin.ext
            unfold Vpn.pdx
            simp only
            rw [vpn_val (small.trans (by decide))]
            unfold Vpn.addr PGSIZE at *
            omega
          exact tidy.rooted v (sameTable ▸ PgDir.walk_none.mp missing)
        rw [jump] at result
        rw [← region]
        refine inductionHypothesis tidy ?_ ?_ result
        · unfold PGSIZE
          omega
        · unfold PGSIZE at *
          omega
      · rename_i x walked
        obtain ⟨table, entry⟩ := PgDir.walk_some.mp walked
        rw [next] at result
        split at result
        · rename_i mapped
          split at result
          · cases result
          · obtain ⟨rest, freed, result⟩ := bind_ok.mp result
            rw [← entry] at mapped freed
            obtain ⟨rfl, given⟩ := inductionHypothesis
              (tidy.set table (fun _ filled => absurd rfl filled) (fun high => absurd low high))
              alignedNext enoughNext result
            refine ⟨?_, ?_⟩
            · rw [PgDir.clear_skip page (pd.set_pte_self _ _)]
              exact PgDir.clear_set ⟨page.ge, page.trans_lt inside⟩
            · refine Gives.trans ?_ given
              refine (Kmem.kfree_gives freed (pd.set (vpn a) {}).refs).recount ?_ ?_
              · intro g
                rw [Tidy.refs_unmap low mapped]
              · intro g
                have removed := Tidy.refs_unmap low mapped g
                omega
        · rename_i unmapped
          rw [← entry] at unmapped
          rw [← PgDir.clear_skip page (tidy.empty low unmapped)]
          exact inductionHypothesis tidy alignedNext enoughNext result
    · obtain ⟨rfl, rfl⟩ : pd = pd' ∧ km = km' := by simpa using result
      exact ⟨(pd.clear_empty (by omega)).symm, Gives.refl _ _⟩

/-- Rounding up passes no page that begins at the size or above. -/
theorem PGROUNDUP_le_addr {size : Nat} (small : size ≤ KERNBASE) (v : Vpn) :
    PGROUNDUP size ≤ v.addr ↔ size ≤ v.addr := by
  unfold PGROUNDUP Vpn.addr word PGSIZE
  unfold KERNBASE at small
  omega

theorem PGROUNDUP_aligned (size : Nat) : PGSIZE ∣ PGROUNDUP size := Dvd.intro_left _ rfl

theorem le_PGROUNDUP {size : Nat} (small : size ≤ KERNBASE) :
    size ≤ PGROUNDUP size ∧ PGROUNDUP size < size + PGSIZE := by
  unfold PGROUNDUP word PGSIZE
  unfold KERNBASE at small
  omega

/-- `deallocuvm` removes the pages that begin between the sizes, encrypted or not,
and gives their frames back. -/
theorem deallocuvm_gives {pd pd' : PgDir} {oldsz newsz size : Nat} {km km' : Kmem} (tidy : Tidy pd)
    (bounded : oldsz ≤ KERNBASE) (result : deallocuvm pd oldsz newsz km = .ok (size, pd', km')) :
    size = min oldsz newsz ∧ pd' = pd.clear newsz oldsz ∧
      Gives pd.refs km.store pd'.refs km'.store := by
  unfold deallocuvm at result
  split at result
  · rename_i above
    obtain ⟨rfl, rfl, rfl⟩ : oldsz = size ∧ pd = pd' ∧ km = km' := by simpa using result
    exact ⟨(min_eq_left above).symm, (pd.clear_empty above).symm, Gives.refl _ _⟩
  · rename_i below
    obtain ⟨⟨cleared, rest⟩, looped, result⟩ := bind_ok.mp result
    obtain ⟨rfl, rfl, rfl⟩ : newsz = size ∧ cleared = pd' ∧ rest = km' := by
      simpa [pure, Except.pure] using result
    have small : newsz ≤ KERNBASE := by omega
    obtain ⟨rfl, given⟩ := deallocuvmFrom_gives tidy bounded (PGROUNDUP_aligned newsz) (by
      have above := (le_PGROUNDUP small).1
      unfold PGSIZE
      omega) looped
    have range : pd.clear (PGROUNDUP newsz) oldsz = pd.clear newsz oldsz := by
      apply PgDir.clear_congr
      intro v differs
      rw [PGROUNDUP_le_addr small] at differs
      exact absurd Iff.rfl differs
    exact ⟨by omega, range, given⟩

/-- The frames of the page-table pages in a list of directory entries. -/
theorem freeTables_gives {pd : PgDir} {entries : List (Fin 1024)} {km km' : Kmem}
    (held : Frame → Nat) (result : freeTables pd entries km = .ok km') :
    Gives (fun f => held f + (entries.map fun i => holds (pd.tables i) f).sum) km.store held
      km'.store := by
  induction entries generalizing km with
  | nil =>
    obtain rfl : km = km' := by simpa [freeTables] using result
    simpa using Gives.refl held km.store
  | cons i rest inductionHypothesis =>
    unfold freeTables at result
    split at result
    · rename_i missing
      simpa [missing] using inductionHypothesis result
    · rename_i f present
      obtain ⟨middle, freed, result⟩ := bind_ok.mp result
      refine Gives.trans ?_ (inductionHypothesis result)
      refine (Kmem.kfree_gives freed fun g =>
        held g + (rest.map fun i => holds (pd.tables i) g).sum).recount (fun g => ?_) (fun g => ?_)
      all_goals simp only [List.map_cons, List.sum_cons, present, holds_some]
      all_goals omega

/-- `freevm` gives every frame of the page table back. -/
theorem freevm_gives {pd : PgDir} {km km' : Kmem} (tidy : Tidy pd) (result : freevm pd km = .ok km') :
    Gives pd.refs km.store (fun _ => 0) km'.store := by
  obtain ⟨⟨size, cleared, middle⟩, removed, result⟩ := bind_ok.mp result
  obtain ⟨last, tables, result⟩ := bind_ok.mp result
  obtain ⟨-, rfl, given⟩ := deallocuvm_gives tidy le_rfl removed
  have nothing : ∀ v, (pd.clear 0 KERNBASE).owned v = none := by
    intro v
    by_cases low : v.user
    · have cleared : (pd.clear 0 KERNBASE).pte v = {} :=
        if_pos ⟨Nat.zero_le _, (Vpn.user_iff v).mp low⟩
      simp [PgDir.owned, cleared, Pte.mapped]
    · simp [PgDir.owned, low]
  refine given.trans (Gives.trans ?_ (Kmem.kfree_gives result _))
  have freed := freeTables_gives (fun g => 0 + one (pd.clear 0 KERNBASE).root g) tables
  refine freed.recount (fun g => ?_) (fun g => ?_)
  all_goals simp only [PgDir.refs, occurrences_empty nothing, occurrences_row]
  all_goals omega

/-- `kfree` returns for the frames that it accepts. -/
theorem Kmem.kfree_returns {km : Kmem} {f : Frame} (accepted : km.accepts f = true) :
    ∃ km', km.kfree f = .ok km' ∧ km'.accepts = km.accepts := by
  unfold Kmem.kfree
  rw [accepted]
  exact ⟨_, rfl, rfl⟩

/-- The kernel itself lies at the first frame, which is therefore never free. -/
theorem Kmem.accepts_pos {km : Kmem} {f : Frame} (accepted : km.accepts f = true) : f ≠ 0 := by
  rintro rfl
  have above := km.layout.above
  have ordered := km.layout.ordered
  simp only [Kmem.accepts, decide_eq_true_eq, Nat.zero_mul, Nat.add_zero] at accepted
  unfold KERNLINK at above
  omega

/-- The loop of `deallocuvm` does not panic when the frames of the pages are proper. -/
theorem deallocuvmFrom_returns {oldsz : Nat} (fuel a : Nat) {pd : PgDir} {km : Kmem}
    (bounded : oldsz ≤ KERNBASE)
    (proper : ∀ v : Vpn, v.user → (pd.pte v).mapped = true → km.accepts (pd.pte v).ppn = true) :
    ∃ pd' km', deallocuvmFrom oldsz fuel a pd km = .ok (pd', km') ∧ pd'.tables = pd.tables ∧
      pd'.root = pd.root ∧ km'.accepts = km.accepts := by
  induction fuel generalizing a pd km with
  | zero => exact ⟨pd, km, rfl, rfl, rfl, rfl⟩
  | succ fuel inductionHypothesis =>
    unfold deallocuvmFrom
    split
    · rename_i inside
      split
      · exact inductionHypothesis _ proper
      · rename_i x walked
        obtain rfl := (PgDir.walk_some.mp walked).2
        split
        · rename_i mapped
          have accepted := proper (vpn a) (vpn_user (by omega)) mapped
          rw [if_neg (Kmem.accepts_pos accepted)]
          obtain ⟨rest, freed, same⟩ := Kmem.kfree_returns accepted
          have remaining : ∀ v : Vpn, v.user → ((pd.set (vpn a) {}).pte v).mapped = true →
              rest.accepts ((pd.set (vpn a) {}).pte v).ppn = true := by
            intro v low present
            rw [PgDir.set_pte] at present ⊢
            split at present
            · cases present
            · rename_i different
              rw [if_neg different, same]
              exact proper v low present
          obtain ⟨pd', km', looped, tables, root, kept⟩ := inductionHypothesis (word (a + PGSIZE)) remaining
          exact ⟨pd', km', bind_ok.mpr ⟨rest, freed, looped⟩, tables, root, kept.trans same⟩
        · exact inductionHypothesis _ proper
    · exact ⟨pd, km, rfl, rfl, rfl, rfl⟩

/-- The loop of `freevm` over the page-table pages does not panic either. -/
theorem freeTables_returns {pd : PgDir} (entries : List (Fin 1024)) {km : Kmem}
    (proper : ∀ i f, pd.tables i = some f → km.accepts f = true) :
    ∃ km', freeTables pd entries km = .ok km' ∧ km'.accepts = km.accepts := by
  induction entries generalizing km with
  | nil => exact ⟨km, rfl, rfl⟩
  | cons i rest inductionHypothesis =>
    unfold freeTables
    split
    · exact inductionHypothesis proper
    · rename_i f present
      obtain ⟨middle, freed, same⟩ := Kmem.kfree_returns (proper i f present)
      rw [← same] at proper
      obtain ⟨km', looped, kept⟩ := inductionHypothesis proper
      exact ⟨km', bind_ok.mpr ⟨middle, freed, looped⟩, kept.trans same⟩

/-- `freevm` returns when every frame of the page table is proper. -/
theorem freevm_returns {pd : PgDir} {km : Kmem} (proper : ∀ f, 1 ≤ pd.refs f → km.accepts f = true) :
    ∃ km', freevm pd km = .ok km' := by
  obtain ⟨cleared, middle, looped, tables, root, accepts⟩ :=
    deallocuvmFrom_returns (KERNBASE / PGSIZE + 1) (PGROUNDUP 0) le_rfl
      fun v low mapped => proper _ (refs_pos low mapped)
  have removed : deallocuvm pd KERNBASE 0 km = .ok (0, cleared, middle) := by
    unfold deallocuvm
    rw [if_neg (by decide)]
    exact bind_ok.mpr ⟨_, looped, rfl⟩
  have tablesProper : ∀ i f, cleared.tables i = some f → middle.accepts f = true := by
    intro i f present
    rw [tables] at present
    rw [accepts]
    apply proper
    have occurs : 1 ≤ occurrences pd.tables f := occurrences_pos present
    unfold PgDir.refs
    exact occurs.trans ((Nat.le_add_left _ _).trans (Nat.le_add_right _ _))
  obtain ⟨later, emptied, same⟩ := freeTables_returns (List.finRange 1024) tablesProper
  have accepted : later.accepts cleared.root = true := by
    rw [same, accepts, root]
    apply proper
    unfold PgDir.refs
    rw [one_self]
    omega
  obtain ⟨km', freed, -⟩ := Kmem.kfree_returns accepted
  exact ⟨km', bind_ok.mpr ⟨_, removed, bind_ok.mpr ⟨_, emptied, freed⟩⟩⟩

/-! ## New page tables -/

/-- A page table with a root and nothing else. -/
theorem tidy_blank (root : Frame) : Tidy ⟨root, fun _ => none, fun _ => {}⟩ :=
  ⟨fun _ _ => rfl, fun _ _ filled => absurd rfl filled, fun _ _ => ⟨rfl, rfl⟩⟩

theorem refs_blank (root f : Frame) : (⟨root, fun _ => none, fun _ => {}⟩ : PgDir).refs f = one root f := by
  have nothing : ∀ v, (⟨root, fun _ => none, fun _ => {}⟩ : PgDir).owned v = none := by
    intro v
    simp [PgDir.owned, Pte.mapped]
  unfold PgDir.refs
  rw [occurrences_empty nothing, occurrences_empty fun _ => rfl]
  rfl

/-- A range of the kernel's half that does not wrap. -/
def KmapEntry.proper (k : KmapEntry) : Prop :=
  KERNBASE ≤ k.virt ∧ 0 < word (k.physEnd + 2 ^ 32 - k.physStart) ∧
    k.virt + word (k.physEnd + 2 ^ 32 - k.physStart) ≤ 2 ^ 32

/-- The ranges of `kmap` are proper. -/
theorem kmap_proper (layout : Layout) : ∀ k ∈ kmap layout, k.proper := by
  intro k member
  have above := layout.above
  have ordered := layout.ordered
  have below := layout.below
  simp only [kmap, List.mem_cons, List.not_mem_nil, or_false] at member
  unfold KmapEntry.proper
  unfold KERNLINK PHYSTOP KERNBASE EXTMEM at *
  rcases member with rfl | rfl | rfl | rfl <;> unfold word <;> simp only [DEVSPACE] <;> omega

/-- The loop of `setupkvm` leaves the user's half empty. -/
theorem setupkvmFrom_cases {ver : Version} {entries : List KmapEntry} {pd : PgDir}
    {km km' : Kmem} {made : Option PgDir} (tidy : Tidy pd) (proper : ∀ k ∈ entries, k.proper)
    (result : setupkvmFrom ver entries pd km = .ok (made, km')) :
    (made = none ∧ Exchanges pd.refs km.store (fun _ => 0) km'.store) ∨
      ∃ pd', made = some pd' ∧ Tidy pd' ∧ Takes pd.refs km.store pd'.refs km'.store ∧
        ∀ v : Vpn, v.user → pd'.pte v = pd.pte v := by
  induction entries generalizing pd km with
  | nil =>
    obtain ⟨rfl, rfl⟩ : some pd = made ∧ km = km' := by simpa [setupkvmFrom] using result
    exact .inr ⟨pd, rfl, tidy, Takes.refl _ _, fun _ _ => rfl⟩
  | cons k rest inductionHypothesis =>
    obtain ⟨⟨mapped, middle, between⟩, entered, result⟩ := bind_ok.mp result
    obtain ⟨high, nonempty, bounded⟩ := proper k List.mem_cons_self
    obtain ⟨tidy', taken, kept⟩ := mappages_kernel tidy high nonempty bounded entered
    simp only at result
    split at result
    · obtain ⟨failed, exchanged⟩ | ⟨pd', made, tidy'', taken', kept'⟩ :=
        inductionHypothesis tidy' (fun k member => proper k (List.mem_cons_of_mem _ member)) result
      · exact .inl ⟨failed, taken.exchange exchanged⟩
      · exact .inr ⟨pd', made, tidy'', taken.trans taken',
          fun v low => (kept' v low).trans (kept v low)⟩
    · obtain ⟨last, freed, result⟩ := bind_ok.mp result
      obtain ⟨rfl, rfl⟩ : none = made ∧ last = km' := by simpa [pure, Except.pure] using result
      exact .inl ⟨rfl, taken.exchange (freevm_gives tidy' freed).exchanges⟩

/-- `setupkvm` makes a page table without user pages, or changes nothing. -/
theorem setupkvm_cases {ver : Version} {km km' : Kmem} {made : Option PgDir}
    (result : setupkvm ver km = .ok (made, km')) :
    (made = none ∧ Exchanges (fun _ => 0) km.store (fun _ => 0) km'.store) ∨
      ∃ pd, made = some pd ∧ Tidy pd ∧ Takes (fun _ => 0) km.store pd.refs km'.store ∧
        ∀ v : Vpn, v.user → pd.pte v = {} := by
  unfold setupkvm at result
  split at result
  · rename_i rest refused
    obtain ⟨rfl, rfl⟩ : none = made ∧ rest = km' := by simpa using result
    exact .inl ⟨rfl, Kmem.kalloc_none refused ▸ (Takes.refl _ _).exchanges⟩
  · rename_i root rest granted
    split at result
    · cases result
    · have taken : Takes (fun _ => 0) km.store
          (⟨root, fun _ => none, fun _ => {}⟩ : PgDir).refs (rest.fill root 0).store := by
        have others : ∀ g, g ≠ root → (rest.fill root 0).mem g = rest.mem g :=
          fun g different => rest.write_mem_other _ different
        refine (Kmem.kalloc_takes granted (fun _ => 0) others).recount fun g => ?_
        rw [refs_blank]
        omega
      obtain ⟨failed, exchanged⟩ | ⟨pd, made, tidy, taken', kept⟩ :=
        setupkvmFrom_cases (tidy_blank root) (kmap_proper _) result
      · exact .inl ⟨failed, taken.exchange exchanged⟩
      · exact .inr ⟨pd, made, tidy, taken.trans taken', kept⟩

end Cs537.Vm
