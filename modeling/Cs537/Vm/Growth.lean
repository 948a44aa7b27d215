import Cs537.Vm.Mappings

/-!
# Ranges of new pages

`allocuvm` and `copyuvm` fill a range of pages one after the other: a frame is
allocated, its bytes are written, and it is mapped. Both are described by the same
relation, which is extended by one page at a time.
-/

namespace Cs537.Vm

open Occurrences Ledger

/-- The pages that begin in a range have been given new frames. Their contents are
known under a condition: a frame that is twice on the free list would be handed out
twice, and a page that is copied must not be free itself. -/
structure Fills (ver : Version) (perm : Vpn → Flags) (page : Vpn → Page) (sure : Prop) (lo hi : Nat)
    (pd : PgDir) (km : Kmem) (pd' : PgDir) (km' : Kmem) : Prop where
  tidy : Tidy pd'
  takes : Takes pd.refs km.store pd'.refs km'.store
  inside : ∀ v, lo ≤ v.addr → v.addr < hi → pd.pte v = {} ∧
    ∃ f, pd'.pte v = ver.entry f (perm v) ∧ km'.freelist.count f < km.freelist.count f ∧
      (sure → km'.mem f = page v)
  outside : ∀ v, ¬ (lo ≤ v.addr ∧ v.addr < hi) → pd'.pte v = pd.pte v

namespace Fills

variable {ver : Version} {perm : Vpn → Flags} {page : Vpn → Page} {sure : Prop} {lo hi : Nat}
  {pd pd' pd'' : PgDir} {km km' km'' : Kmem}

/-- Nothing is done yet. -/
theorem nil (ver : Version) (perm : Vpn → Flags) (page : Vpn → Page) (sure : Prop) {lo hi : Nat}
    {pd : PgDir} (km : Kmem) (tidy : Tidy pd) (empty : hi ≤ lo) :
    Fills ver perm page sure lo hi pd km pd km :=
  ⟨tidy, Takes.refl _ _, fun v above below => absurd (above.trans_lt below) (by omega), fun _ _ => rfl⟩

/-- Only the pages that begin in the range count. -/
theorem range {hi' : Nat} (fills : Fills ver perm page sure lo hi pd km pd' km')
    (same : ∀ v : Vpn, v.addr < hi ↔ v.addr < hi') : Fills ver perm page sure lo hi' pd km pd' km' := by
  refine ⟨fills.tidy, fills.takes, fun v above below => ?_, fun v outer => ?_⟩
  · exact fills.inside v above ((same v).mpr below)
  · exact fills.outside v (by rwa [same])

/-- One more page. -/
theorem snoc {a : Nat} {f : Frame} {image : Page} {rest : Kmem}
    (fills : Fills ver perm page sure lo a pd km pd' km') (above : lo ≤ a) (aligned : PGSIZE ∣ a)
    (small : a < KERNBASE) (single : sure → ∀ g, km.freelist.count g ≤ 1)
    (granted : km'.kalloc = (some f, rest)) (filled : sure → image = page (vpn a))
    (result : mappages ver pd' a PGSIZE f (perm (vpn a)) (rest.write f image) = .ok (true, pd'', km'')) :
    Fills ver perm page sure lo (a + PGSIZE) pd km pd'' km'' := by
  have start : (vpn a).addr = a := vpn_addr (small.trans (by decide)) aligned
  obtain ⟨empty, entries, tidy, taken⟩ := mappages_user fills.tidy aligned small result
  have first : Takes pd'.refs km'.store (fun g => pd'.refs g + one f g) (rest.write f image).store :=
    Kmem.kalloc_takes granted pd'.refs fun g different => rest.write_mem_other image different
  have both : Takes pd'.refs km'.store pd''.refs km''.store := first.trans taken
  have free : km'.freelist = f :: rest.freelist := (Kmem.kalloc_some granted).1
  refine ⟨tidy, fills.takes.trans both, fun v lower upper => ?_, fun v outer => ?_⟩
  · have shrunk := fun g => fills.takes.shrinks g
    have shrunk' := fun g => both.shrinks g
    by_cases here : v = vpn a
    · have last := taken.shrinks f
      have before := shrunk f
      simp only [Kmem.store, Kmem.write, free, List.count_cons_self] at before last
      refine ⟨?_, f, ?_, ?_, fun known => ?_⟩
      · rw [← fills.outside v (by rw [here, start]; omega), here, empty]
      · rw [entries, if_pos here, here]
      · omega
      · have once := single known f
        have gone : (rest.write f image).freelist.count f = 0 := by
          simp only [Kmem.write]
          omega
        rw [here, ← filled known]
        exact (taken.memory f gone).trans (rest.write_mem_self f image)
    · have earlier : v.addr < a := by
        have different : v.addr ≠ a := fun same => here (addr_inj (same.trans start.symm))
        clear start
        unfold Vpn.addr PGSIZE at *
        omega
      obtain ⟨was, g, entry, fewer, content⟩ := fills.inside v lower earlier
      have later := shrunk' g
      simp only [Kmem.store] at later
      refine ⟨was, g, ?_, by omega, fun known => ?_⟩
      · rw [entries, if_neg here, entry]
      · have once := single known g
        have gone : km'.freelist.count g = 0 := by omega
        exact (both.memory g gone).trans (content known)
  · have different : v ≠ vpn a := by
      intro here
      rw [here, start] at outer
      unfold PGSIZE at outer
      omega
    rw [entries, if_neg different, fills.outside v (by omega)]

end Fills

/-- Within one page of the end of a range of whole pages. -/
theorem addr_lt_iff {a size : Nat} (aligned : PGSIZE ∣ a) (above : size ≤ a) (near : a < size + PGSIZE)
    (v : Vpn) : v.addr < a ↔ v.addr < size := by
  unfold Vpn.addr PGSIZE at *
  omega

/-! ## `allocuvm` -/

/-- The flags of a new page of a growing process. -/
def userPage : Flags := { w := true, u := true }

/-- What `allocuvm` can do. -/
inductive Allocated (ver : Version) (pd : PgDir) (oldsz newsz : Nat) (km : Kmem) :
    Nat → PgDir → Kmem → Prop where
  | tooLarge (large : KERNBASE ≤ newsz) : Allocated ver pd oldsz newsz km 0 pd km
  | smaller (small : newsz < KERNBASE) (below : newsz < oldsz) :
      Allocated ver pd oldsz newsz km oldsz pd km
  | done {pd' : PgDir} {km' : Kmem} (small : newsz < KERNBASE) (above : oldsz ≤ newsz)
      (fills : Fills ver (fun _ => userPage) (fun _ _ => 0) (∀ g, km.freelist.count g ≤ 1)
        oldsz newsz pd km pd' km') : Allocated ver pd oldsz newsz km newsz pd' km'
  | undone {pd' : PgDir} {km' : Kmem} (small : newsz < KERNBASE) (above : oldsz ≤ newsz)
      (tidy : Tidy pd') (exchanged : Exchanges pd.refs km.store pd'.refs km'.store)
      (entries : pd'.pte = (pd.clear oldsz newsz).pte) : Allocated ver pd oldsz newsz km 0 pd' km'

/-- After a failure the pages of the range are removed again. -/
theorem Fills.clear_pte {ver : Version} {perm : Vpn → Flags} {page : Vpn → Page} {sure : Prop}
    {lo a oldsz newsz : Nat} {pd pd' : PgDir} {km km' : Kmem}
    (fills : Fills ver perm page sure lo a pd km pd' km')
    (within : ∀ v : Vpn, lo ≤ v.addr → v.addr < a → oldsz ≤ v.addr ∧ v.addr < newsz) :
    (pd'.clear oldsz newsz).pte = (pd.clear oldsz newsz).pte := by
  funext v
  rw [PgDir.clear_pte, PgDir.clear_pte]
  split
  · rfl
  · rename_i outer
    exact fills.outside v fun inner => outer (within v inner.1 inner.2)

section Allocuvm

variable {ver : Version} {oldsz newsz a : Nat} {pd pd' : PgDir} {km km' : Kmem}

/-- The loop of `allocuvm` has passed the new size. -/
theorem Fills.allocated (small : newsz < KERNBASE) (above : oldsz ≤ newsz) (aligned : PGSIZE ∣ a)
    (near : a < newsz + PGSIZE) (passed : newsz ≤ a)
    (fills : Fills ver (fun _ => userPage) (fun _ _ => 0) (∀ g, km.freelist.count g ≤ 1)
      (PGROUNDUP oldsz) a pd km pd' km') : Allocated ver pd oldsz newsz km newsz pd' km' := by
  have within := PGROUNDUP_le_addr (above.trans small.le)
  refine .done small above ⟨fills.tidy, fills.takes, fun v lower upper => ?_, fun v outer => ?_⟩
  · refine fills.inside v ((within v).mpr lower) ?_
    rwa [addr_lt_iff aligned passed near]
  · refine fills.outside v ?_
    rwa [within, addr_lt_iff aligned passed near]

/-- The loop of `allocuvm` has run out of memory; `kept` is a frame that it holds
outside the page table. -/
theorem Fills.abandoned {pd'' : PgDir} {middle km'' : Kmem} {size : Nat} {kept : Frame → Nat}
    (small : newsz < KERNBASE) (above : oldsz ≤ newsz) (inside : a < newsz)
    (fills : Fills ver (fun _ => userPage) (fun _ _ => 0) (∀ g, km.freelist.count g ≤ 1)
      (PGROUNDUP oldsz) a pd km pd' km')
    (taken : Takes pd'.refs km'.store (fun g => pd'.refs g + kept g) middle.store)
    (removed : deallocuvm pd' newsz oldsz middle = .ok (size, pd'', km'')) :
    Tidy pd'' ∧ Exchanges pd.refs km.store (fun g => pd''.refs g + kept g) km''.store ∧
      pd''.pte = (pd.clear oldsz newsz).pte := by
  obtain ⟨-, rfl, given⟩ := deallocuvm_gives fills.tidy small.le removed
  refine ⟨fills.tidy.clear _ _, (fills.takes.trans taken).exchange ?_, fills.clear_pte ?_⟩
  · refine (given.recount (fun g => Nat.le_add_right _ _) fun g => ?_).exchanges
    omega
  · intro v lower upper
    rw [PGROUNDUP_le_addr (above.trans small.le)] at lower
    exact ⟨lower, upper.trans inside⟩

/-- The loop of `allocuvm`, after the pages up to `a`. -/
theorem allocuvmFrom_cases {fuel size : Nat} {pd'' : PgDir} {km'' : Kmem} (small : newsz < KERNBASE)
    (above : oldsz ≤ newsz) (aligned : PGSIZE ∣ a) (started : PGROUNDUP oldsz ≤ a)
    (near : a < newsz + PGSIZE) (enough : newsz ≤ a + fuel * PGSIZE)
    (fills : Fills ver (fun _ => userPage) (fun _ _ => 0) (∀ g, km.freelist.count g ≤ 1)
      (PGROUNDUP oldsz) a pd km pd' km')
    (result : allocuvmFrom ver oldsz newsz fuel a pd' km' = .ok (size, pd'', km'')) :
    Allocated ver pd oldsz newsz km size pd'' km'' := by
  induction fuel generalizing a pd' km' with
  | zero =>
    obtain ⟨rfl, rfl, rfl⟩ : newsz = size ∧ pd' = pd'' ∧ km' = km'' := by
      simpa [allocuvmFrom] using result
    exact fills.allocated small above aligned near (by omega)
  | succ fuel inductionHypothesis =>
    unfold allocuvmFrom at result
    split at result
    · rename_i inside
      split at result
      · rename_i rest refused
        obtain ⟨⟨_, cleared, last⟩, removed, result⟩ := bind_ok.mp result
        obtain ⟨rfl, rfl, rfl⟩ : 0 = size ∧ cleared = pd'' ∧ last = km'' := by
          simpa [pure, Except.pure] using result
        have nothing : Takes pd'.refs km'.store (fun g => pd'.refs g + 0) rest.store :=
          Kmem.kalloc_none refused ▸ Takes.refl _ _
        obtain ⟨tidy, exchanged, entries⟩ := fills.abandoned small above inside nothing removed
        exact .undone small above tidy exchanged entries
      · rename_i f rest granted
        obtain ⟨⟨mapped, entered, between⟩, entering, continued⟩ := bind_ok.mp result
        clear result
        simp only at continued
        cases mapped with
        | true =>
          have grown := fills.snoc started aligned (inside.trans small) id granted (fun _ => rfl) entering
          rw [if_pos rfl] at continued
          refine inductionHypothesis ((Nat.dvd_add_right aligned).mpr (dvd_refl _)) (by omega)
            (by omega) ?_ grown continued
          rw [Nat.succ_mul] at enough
          omega
        | false =>
          rw [if_neg Bool.false_ne_true] at continued
          obtain ⟨rfl, same⟩ := mappages_user fills.tidy aligned (inside.trans small) entering
          obtain ⟨⟨_, cleared, last⟩, removed, result⟩ := bind_ok.mp continued
          obtain ⟨final, freed, result⟩ := bind_ok.mp result
          obtain ⟨rfl, rfl, rfl⟩ : 0 = size ∧ cleared = pd'' ∧ final = km'' := by
            simpa [pure, Except.pure] using result
          have first : Takes entered.refs km'.store (fun g => entered.refs g + one f g) between.store :=
            same ▸ Kmem.kalloc_takes granted _ fun g different => rest.write_mem_other _ different
          obtain ⟨tidy, exchanged, entries⟩ := fills.abandoned small above inside first removed
          exact .undone small above tidy (exchanged.gives (Kmem.kfree_gives freed _)) entries
    · obtain ⟨rfl, rfl, rfl⟩ : newsz = size ∧ pd' = pd'' ∧ km' = km'' := by simpa using result
      exact fills.allocated small above aligned near (by omega)

/-- `allocuvm`. -/
theorem allocuvm_cases {size : Nat} (tidy : Tidy pd)
    (result : allocuvm ver pd oldsz newsz km = .ok (size, pd', km')) :
    Allocated ver pd oldsz newsz km size pd' km' := by
  unfold allocuvm at result
  split at result
  · rename_i large
    obtain ⟨rfl, rfl, rfl⟩ : 0 = size ∧ pd = pd' ∧ km = km' := by simpa using result
    exact .tooLarge large
  · rename_i small
    split at result
    · rename_i below
      obtain ⟨rfl, rfl, rfl⟩ : oldsz = size ∧ pd = pd' ∧ km = km' := by simpa using result
      exact .smaller (by omega) below
    · have rounded : oldsz ≤ PGROUNDUP oldsz ∧ PGROUNDUP oldsz < oldsz + PGSIZE :=
        le_PGROUNDUP (by omega)
      refine allocuvmFrom_cases (by omega) (by omega) (PGROUNDUP_aligned oldsz) le_rfl (by omega) ?_
        (Fills.nil _ _ _ _ km tidy le_rfl) result
      unfold PGSIZE
      omega

end Allocuvm

/-! ## `copyuvm` -/

/-- The pages of a page table below a size are mapped to frames that are not free. -/
def Readable (pd : PgDir) (km : Kmem) : Prop :=
  (∀ g, km.freelist.count g ≤ 1) ∧
    ∀ v : Vpn, v.user → (pd.pte v).mapped = true → km.freelist.count (pd.pte v).ppn = 0

/-- A page table has been copied: the pages below the size have new frames with the
same flags and the same bytes. -/
structure Copied (ver : Version) (pd : PgDir) (sz : Nat) (km : Kmem) (d : PgDir) (km' : Kmem) : Prop where
  tidy : Tidy d
  takes : Takes (fun _ => 0) km.store d.refs km'.store
  inside : ∀ v : Vpn, v.addr < sz → (pd.pte v).mapped = true ∧
    ∃ f, d.pte v = ver.entry f (pd.pte v).toFlags ∧
      (Readable pd km → km'.mem f = km.mem (pd.pte v).ppn)
  outside : ∀ v : Vpn, v.user → sz ≤ v.addr → d.pte v = {}

section Copyuvm

variable {ver : Version} {pd d d' : PgDir} {sz a : Nat} {km km' : Kmem}

/-- The loop of `copyuvm`, after the pages up to `a`. -/
theorem copyuvmFrom_cases {fuel : Nat} {start km'' : Kmem} {made : Option PgDir} {blank : PgDir}
    (bounded : sz ≤ KERNBASE) (aligned : PGSIZE ∣ a) (near : a < sz + PGSIZE)
    (enough : sz ≤ a + fuel * PGSIZE)
    (begun : Takes (fun _ => 0) start.store blank.refs km.store)
    (mapped : ∀ v : Vpn, v.addr < a → (pd.pte v).mapped = true)
    (fills : Fills ver (fun v => (pd.pte v).toFlags) (fun v => start.mem (pd.pte v).ppn)
      (Readable pd start) 0 a blank km d km')
    (result : copyuvmFrom ver pd sz fuel a d km' = .ok (made, km'')) :
    (made = none ∧ Exchanges (fun _ => 0) start.store (fun _ => 0) km''.store) ∨
      ∃ d', made = some d' ∧ (∀ v : Vpn, v.addr < sz → (pd.pte v).mapped = true) ∧
        Fills ver (fun v => (pd.pte v).toFlags) (fun v => start.mem (pd.pte v).ppn)
          (Readable pd start) 0 sz blank km d' km'' := by
  induction fuel generalizing a d km' with
  | zero =>
    obtain ⟨rfl, rfl⟩ : some d = made ∧ km' = km'' := by simpa [copyuvmFrom] using result
    have same := addr_lt_iff aligned (by omega) near
    exact .inr ⟨d, rfl, fun v below => mapped v ((same v).mpr below), fills.range same⟩
  | succ fuel inductionHypothesis =>
    unfold copyuvmFrom at result
    split at result
    · rename_i inside
      have small : a < KERNBASE := by omega
      have page : (vpn a).addr = a := vpn_addr (small.trans (by decide)) aligned
      split at result
      · cases result
      · rename_i x walked
        obtain rfl := (PgDir.walk_some.mp walked).2
        split at result
        · rename_i present
          split at result
          · rename_i rest refused
            obtain ⟨last, freed, result⟩ := bind_ok.mp result
            obtain ⟨rfl, rfl⟩ : none = made ∧ last = km'' := by simpa [pure, Except.pure] using result
            have given := freevm_gives fills.tidy freed
            rw [Kmem.kalloc_none refused] at given
            exact .inl ⟨rfl, (begun.trans fills.takes).exchange given.exchanges⟩
          · rename_i f rest granted
            obtain ⟨⟨entered, copy, between⟩, entering, continued⟩ := bind_ok.mp result
            clear result
            simp only at continued
            cases entered with
            | true =>
              rw [if_pos rfl, word_small (by unfold PGSIZE KERNBASE at *; omega)] at continued
              refine inductionHypothesis ((Nat.dvd_add_right aligned).mpr (dvd_refl _)) (by omega) ?_
                ?_ (fills.snoc (Nat.zero_le _) aligned small ?_ granted ?_ entering) continued
              · rw [Nat.succ_mul] at enough
                omega
              · intro v below
                by_cases here : v = vpn a
                · rw [here, present]
                · apply mapped
                  have different : v.addr ≠ a := fun same => here (addr_inj (same.trans page.symm))
                  clear page
                  unfold Vpn.addr PGSIZE at *
                  omega
              · exact fun known g => (begun.shrinks g).trans (known.1 g)
              · intro known
                rw [(Kmem.kalloc_some granted).2.1]
                exact (begun.trans fills.takes).memory _ (known.2 _ (vpn_user small) present)
            | false =>
              rw [if_neg Bool.false_ne_true] at continued
              obtain ⟨rfl, same⟩ := mappages_user fills.tidy aligned small entering
              obtain ⟨later, freed, result⟩ := bind_ok.mp continued
              obtain ⟨last, emptied, result⟩ := bind_ok.mp result
              obtain ⟨rfl, rfl⟩ : none = made ∧ last = km'' := by
                simpa [pure, Except.pure] using result
              have first : Takes copy.refs km'.store (fun g => copy.refs g + one f g) between.store :=
                same ▸ Kmem.kalloc_takes granted _ fun g different => rest.write_mem_other _ different
              have given := (Kmem.kfree_gives freed copy.refs).trans (freevm_gives fills.tidy emptied)
              exact .inl ⟨rfl, ((begun.trans fills.takes).trans first).exchange given.exchanges⟩
        · cases result
    · obtain ⟨rfl, rfl⟩ : some d = made ∧ km' = km'' := by simpa using result
      have same := addr_lt_iff aligned (by omega) near
      exact .inr ⟨d, rfl, fun v below => mapped v ((same v).mpr below), fills.range same⟩

/-- `copyuvm` copies the pages below the size, or leaves every frame where it was. -/
theorem copyuvm_cases {made : Option PgDir} (bounded : sz ≤ KERNBASE)
    (result : copyuvm ver pd sz km = .ok (made, km')) :
    (made = none ∧ Exchanges (fun _ => 0) km.store (fun _ => 0) km'.store) ∨
      ∃ d, made = some d ∧ Copied ver pd sz km d km' := by
  obtain ⟨⟨blank, middle⟩, prepared, result⟩ := bind_ok.mp result
  obtain ⟨rfl, exchanged⟩ | ⟨d, rfl, tidy, taken, empty⟩ := setupkvm_cases prepared
  · obtain ⟨rfl, rfl⟩ : none = made ∧ middle = km' := by simpa [pure, Except.pure] using result
    exact .inl ⟨rfl, exchanged⟩
  · have enough : sz ≤ 0 + (sz / PGSIZE + 1) * PGSIZE := by
      unfold PGSIZE
      omega
    obtain failed | ⟨d', rfl, mapped, fills⟩ := copyuvmFrom_cases (a := 0) bounded (dvd_zero _)
      (by unfold PGSIZE; omega) enough taken (by omega)
      (Fills.nil _ _ _ _ middle tidy le_rfl) result
    · exact .inl failed
    · refine .inr ⟨d', rfl, fills.tidy, taken.trans fills.takes, fun v below => ?_, fun v low above => ?_⟩
      · obtain ⟨-, f, entry, -, content⟩ := fills.inside v (Nat.zero_le _) below
        exact ⟨mapped v below, f, entry, content⟩
      · rw [fills.outside v (by omega), empty v low]

end Copyuvm

end Cs537.Vm
