import Cs537.Vm.Growth

/-!
# When `allocuvm` succeeds

`allocuvm` takes one frame for each new page and one for each page-table page that is
missing on the way. It succeeds exactly if `kalloc` grants that many calls. Otherwise it
undoes its work, which does not panic as long as the frames that it may have to free are
proper ones.
-/

namespace Cs537.Vm

open Occurrences Ledger

/-- The next `count` calls of `kalloc` succeed. -/
def Kmem.grants : Nat → Kmem → Bool
  | 0, _ => true
  | count + 1, km =>
    match km.kalloc with
    | (none, _) => false
    | (some _, km) => Kmem.grants count km

/-- The page-table pages that are missing for the addresses of a range. -/
def PgDir.missing (pd : PgDir) (lo hi : Nat) : Nat :=
  (Finset.univ.filter fun i : Fin 1024 =>
    pd.tables i = none ∧ lo < (i.val + 1) * 2 ^ 22 ∧ i.val * 2 ^ 22 < hi).card

/-- The frames that are needed to map the pages from the page address `lo` up to `hi`. -/
def PgDir.demand (pd : PgDir) (lo hi : Nat) : Nat :=
  if lo < hi then (hi - lo + PGSIZE - 1) / PGSIZE + pd.missing lo hi else 0

/-- All frames that are free or in the page table may be freed. -/
def Proper (pd : PgDir) (km : Kmem) : Prop :=
  ∀ f, 1 ≤ km.freelist.count f + pd.refs f → km.accepts f = true

/-! ## Counting -/

/-- Only the free list and the refusals count. -/
theorem Kmem.grants_congr {km km' : Kmem} (free : km'.freelist = km.freelist)
    (refusals : km'.refusals = km.refusals) (count : Nat) : km'.grants count = km.grants count := by
  induction count generalizing km km' with
  | zero => rfl
  | succ count inductionHypothesis =>
    unfold Kmem.grants Kmem.kalloc
    rw [free, refusals]
    cases km.refusals.head? with
    | none =>
      cases km.freelist with
      | nil => rfl
      | cons g rest => exact inductionHypothesis rfl rfl
    | some refused =>
      cases refused with
      | true => rfl
      | false =>
        cases km.freelist with
        | nil => rfl
        | cons g rest => exact inductionHypothesis rfl rfl

/-- Filling a frame does not concern the free list. -/
theorem Kmem.grants_fill (km : Kmem) (f : Frame) (byte : BitVec 8) (count : Nat) :
    (km.fill f byte).grants count = km.grants count :=
  @Kmem.grants_congr km (km.fill f byte) rfl rfl count

theorem Kmem.grants_refused {km km' : Kmem} (refused : km.kalloc = (none, km')) (count : Nat) :
    km.grants (count + 1) = false := by
  unfold Kmem.grants
  rw [refused]

theorem Kmem.grants_granted {km km' : Kmem} {f : Frame} (granted : km.kalloc = (some f, km'))
    (count : Nat) : km.grants (count + 1) = km'.grants count := by
  rw [Kmem.grants, granted]

/-- The table of an address. -/
theorem pdx_bounds {a : Nat} (small : a < 2 ^ 32) :
    (vpn a).pdx.val * 2 ^ 22 ≤ a ∧ a < ((vpn a).pdx.val + 1) * 2 ^ 22 := by
  have value : (vpn a).pdx.val = (vpn a).val / 1024 := rfl
  rw [value, vpn_val small]
  unfold PGSIZE
  omega

/-- Beyond one page, the other tables concern the same rest of a range. -/
theorem pdx_other {a hi : Nat} (aligned : PGSIZE ∣ a) (small : a < KERNBASE) {i : Fin 1024}
    (different : i ≠ (vpn a).pdx) :
    (a < (i.val + 1) * 2 ^ 22 ∧ i.val * 2 ^ 22 < hi) ↔
      (a + PGSIZE < (i.val + 1) * 2 ^ 22 ∧ i.val * 2 ^ 22 < hi) := by
  obtain ⟨below, above⟩ := pdx_bounds (small.trans (by decide))
  have other : i.val ≠ (vpn a).pdx.val := fun same => different (Fin.ext same)
  obtain ⟨k, rfl⟩ := aligned
  unfold PGSIZE at *
  omega

section Demand

variable {pd pd' : PgDir} {a hi : Nat} (aligned : PGSIZE ∣ a) (small : a < KERNBASE) (inside : a < hi)

include aligned small inside

/-- The demand of the pages behind the first one. -/
theorem demand_rest (table : pd'.tables (vpn a).pdx ≠ none) :
    pd'.demand (a + PGSIZE) hi + 1 = (hi - a + PGSIZE - 1) / PGSIZE + pd'.missing a hi := by
  have same : pd'.missing a hi = pd'.missing (a + PGSIZE) hi := by
    unfold PgDir.missing
    refine congrArg Finset.card (Finset.filter_congr fun i _ => and_congr_right fun missing => ?_)
    have different : i ≠ (vpn a).pdx := by
      rintro rfl
      exact table missing
    exact pdx_other aligned small different
  unfold PgDir.demand
  split
  · rw [same]
    unfold PGSIZE at *
    omega
  · rename_i beyond
    have none : pd'.missing a hi = 0 := by
      unfold PgDir.missing
      rw [Finset.card_eq_zero, Finset.filter_eq_empty_iff]
      rintro i - ⟨missing, range⟩
      have different : i ≠ (vpn a).pdx := by
        rintro rfl
        exact table missing
      obtain ⟨below, above⟩ := pdx_bounds (small.trans (by decide))
      have other : i.val ≠ (vpn a).pdx.val := fun same => different (Fin.ext same)
      obtain ⟨k, rfl⟩ := aligned
      unfold PGSIZE at *
      omega
    rw [none]
    unfold PGSIZE at *
    omega

/-- If its table is there, a page needs one frame. -/
theorem demand_page (table : pd'.tables (vpn a).pdx ≠ none) (same : pd'.tables = pd.tables) :
    pd.demand a hi = pd'.demand (a + PGSIZE) hi + 1 := by
  rw [demand_rest aligned small inside table]
  unfold PgDir.demand PgDir.missing
  rw [if_pos inside, same]

/-- If its table is missing, a page needs two frames. -/
theorem demand_table (missing : pd.tables (vpn a).pdx = none) (table : pd'.tables (vpn a).pdx ≠ none)
    (others : ∀ i, i ≠ (vpn a).pdx → pd'.tables i = pd.tables i) :
    pd.demand a hi = pd'.demand (a + PGSIZE) hi + 2 := by
  have more : pd.missing a hi = pd'.missing a hi + 1 := by
    have split : (Finset.univ.filter fun i : Fin 1024 =>
        pd.tables i = none ∧ a < (i.val + 1) * 2 ^ 22 ∧ i.val * 2 ^ 22 < hi) =
        insert (vpn a).pdx (Finset.univ.filter fun i : Fin 1024 =>
          pd'.tables i = none ∧ a < (i.val + 1) * 2 ^ 22 ∧ i.val * 2 ^ 22 < hi) := by
      ext i
      simp only [Finset.mem_filter, Finset.mem_univ, true_and, Finset.mem_insert]
      obtain rfl | different := eq_or_ne i (vpn a).pdx
      · obtain ⟨below, above⟩ := pdx_bounds (small.trans (by decide))
        exact ⟨fun _ => .inl rfl, fun _ => ⟨missing, above, below.trans_lt inside⟩⟩
      · rw [others i different]
        exact ⟨fun held => .inr held, fun held => held.resolve_left different⟩
    unfold PgDir.missing
    rw [split, Finset.card_insert_of_notMem]
    intro member
    exact table (Finset.mem_filter.mp member).2.1
  have rest := demand_rest aligned small inside table
  unfold PgDir.demand at rest ⊢
  rw [if_pos inside, more]
  omega

end Demand

theorem demand_pos (pd : PgDir) {a hi : Nat} (inside : a < hi) : ∃ more, pd.demand a hi = more + 1 := by
  refine Nat.exists_eq_succ_of_ne_zero ?_
  unfold PgDir.demand
  rw [if_pos inside]
  unfold PGSIZE
  omega

/-! ## Returning -/

/-- `deallocuvm` does not panic when the frames of the pages are proper. -/
theorem deallocuvm_returns {pd : PgDir} {km : Kmem} (oldsz newsz : Nat) (bounded : oldsz ≤ KERNBASE)
    (proper : Proper pd km) : ∃ result, deallocuvm pd oldsz newsz km = .ok result := by
  unfold deallocuvm
  split
  · exact ⟨_, rfl⟩
  · obtain ⟨pd', km', looped, -⟩ := deallocuvmFrom_returns (oldsz / PGSIZE + 1) (PGROUNDUP newsz) bounded
      fun v low mapped => proper _ (Nat.le_add_left_of_le (refs_pos low mapped))
    exact ⟨_, bind_ok.mpr ⟨_, looped, rfl⟩⟩

/-- Frames change their places, and the proper ones stay the same. -/
theorem Proper.move {pd pd' : PgDir} {km km' : Kmem} (proper : Proper pd km)
    (balanced : Balances pd.refs km.store pd'.refs km'.store) : Proper pd' km' := by
  intro f placed
  have accepts : km'.accepts = km.accepts := balanced.accepts
  rw [accepts]
  exact proper f (balanced.places f ▸ placed)

/-- `mappages` of a page that is not mapped. -/
theorem mappages_blank {ver : Version} {pd : PgDir} {a : Nat} {f : Frame} {perm : Flags} {km : Kmem}
    (tidy : Tidy pd) (aligned : PGSIZE ∣ a) (small : a < KERNBASE) (blank : pd.pte (vpn a) = {}) :
    mappages ver pd a PGSIZE f perm km =
      match walkpgdir pd (vpn a) km with
      | (none, km) => .ok (false, pd, km)
      | (some pd, km) => .ok (true, pd.set (vpn a) (ver.entry f perm), km) := by
  rw [mappages_page aligned small]
  unfold mappagesFrom
  cases walked : walkpgdir pd (vpn a) km with
  | mk made rest =>
    cases made with
    | none => rfl
    | some middle =>
      have entries := (walkpgdir_some tidy walked).1
      have unmapped : ¬ (middle.pte (vpn a)).mapped = true := by
        rw [entries, blank]
        exact Bool.false_ne_true
      simp only [if_neg unmapped]

section Allocuvm

variable {ver : Version} {oldsz newsz : Nat}

/-- The loop of `allocuvm` over pages that are not mapped succeeds exactly if the frames
that are still needed are granted, and it returns if the frames are proper. -/
theorem allocuvmFrom_granted {fuel a : Nat} {pd : PgDir} {km : Kmem} (small : newsz < KERNBASE)
    (positive : 0 < newsz) (aligned : PGSIZE ∣ a) (enough : newsz ≤ a + fuel * PGSIZE) (tidy : Tidy pd)
    (blank : ∀ v : Vpn, a ≤ v.addr → v.addr < newsz → pd.pte v = {}) :
    (∀ size pd' km', allocuvmFrom ver oldsz newsz fuel a pd km = .ok (size, pd', km') →
      (size ≠ 0 ↔ km.grants (pd.demand a newsz) = true)) ∧
    (Proper pd km → ∃ result, allocuvmFrom ver oldsz newsz fuel a pd km = .ok result) := by
  induction fuel generalizing a pd km with
  | zero =>
    have none : pd.demand a newsz = 0 := by
      unfold PgDir.demand
      rw [if_neg (by omega)]
    refine ⟨fun size pd' km' result => ?_, fun _ => ⟨_, rfl⟩⟩
    obtain ⟨rfl, -⟩ : newsz = size ∧ _ := by simpa [allocuvmFrom] using result
    rw [none]
    exact ⟨fun _ => rfl, fun _ => positive.ne'⟩
  | succ fuel inductionHypothesis =>
    unfold allocuvmFrom
    split
    · rename_i inside
      have low : a < KERNBASE := inside.trans small
      have page : (vpn a).addr = a := vpn_addr (low.trans (by decide)) aligned
      have empty : pd.pte (vpn a) = {} := blank _ (by omega) (by omega)
      have further : ∀ v : Vpn, a + PGSIZE ≤ v.addr → v.addr < newsz → v ≠ vpn a ∧ pd.pte v = {} := by
        intro v above below
        refine ⟨?_, blank v (by omega) below⟩
        rintro rfl
        unfold PGSIZE at above
        omega
      split
      · -- no frame for the page
        rename_i rest refused
        obtain ⟨more, needed⟩ := demand_pos pd inside
        refine ⟨fun size pd' km' result => ?_, fun proper => ?_⟩
        · obtain ⟨_, -, result⟩ := bind_ok.mp result
          obtain ⟨rfl, -⟩ : 0 = size ∧ _ := by simpa [pure, Except.pure] using result
          rw [needed, Kmem.grants_refused refused]
          simp
        · have proper' : Proper pd rest :=
            proper.move (Kmem.kalloc_none refused ▸ (Takes.refl pd.refs km.store).exchanges.toBalances)
          obtain ⟨⟨size, pd', km'⟩, undone⟩ := deallocuvm_returns newsz oldsz small.le proper'
          exact ⟨_, bind_ok.mpr ⟨_, undone, rfl⟩⟩
      · rename_i mem rest granted
        have taken : Takes pd.refs km.store (fun g => pd.refs g + one mem g) (rest.fill mem 0).store :=
          Kmem.kalloc_takes granted pd.refs fun g different => Function.update_of_ne different ..
        -- the page is mapped and the loop goes on
        have continued : ∀ pd₂ km₂, mappages ver pd a PGSIZE mem { w := true, u := true } (rest.fill mem 0) =
            .ok (true, pd₂, km₂) →
            (∀ size pd' km', allocuvmFrom ver oldsz newsz fuel (a + PGSIZE) pd₂ km₂ = .ok (size, pd', km') →
              (size ≠ 0 ↔ km₂.grants (pd₂.demand (a + PGSIZE) newsz) = true)) ∧
            (Proper pd km → ∃ result, allocuvmFrom ver oldsz newsz fuel (a + PGSIZE) pd₂ km₂ = .ok result) := by
          intro pd₂ km₂ mapping
          obtain ⟨-, entries, tidy', mapped⟩ := mappages_user tidy aligned low mapping
          obtain ⟨succeeds, returns⟩ := @inductionHypothesis (a + PGSIZE) pd₂ km₂
            (Nat.dvd_add aligned (dvd_refl PGSIZE)) (by unfold PGSIZE at *; omega) tidy'
            fun v above below => by
              obtain ⟨different, unmapped⟩ := further v above below
              rw [entries, if_neg different, unmapped]
          exact ⟨succeeds, fun proper => returns (proper.move (taken.trans mapped).exchanges.toBalances)⟩
        have mapping := @mappages_blank ver pd a mem { w := true, u := true } (rest.fill mem 0) tidy aligned low
          empty
        unfold walkpgdir at mapping
        cases table : pd.tables (vpn a).pdx with
        | some t =>
          simp only [table] at mapping
          have filled : (pd.set (vpn a) (ver.entry mem { w := true, u := true })).tables (vpn a).pdx ≠ none := by
            rw [PgDir.set_tables, table]
            exact Option.some_ne_none t
          have needed := demand_page aligned low inside filled (PgDir.set_tables pd _ _)
          obtain ⟨succeeds, returns⟩ := continued _ _ mapping
          rw [mapping, needed, Kmem.grants_granted granted, ← Kmem.grants_fill rest mem 0]
          exact ⟨succeeds, returns⟩
        | none =>
          simp only [table] at mapping
          have needed : ∀ f x, pd.demand a newsz =
              ((pd.addTable (vpn a).pdx f).set (vpn a) x).demand (a + PGSIZE) newsz + 2 := by
            intro f x
            exact demand_table aligned low inside table (by simp [PgDir.addTable])
              fun i different => by simp [PgDir.addTable, different]
          cases second : (rest.fill mem 0).kalloc with
          | mk made later =>
            cases made with
            | none =>
              -- no frame for the page-table page
              simp only [second] at mapping
              refine ⟨fun size pd' km' result => ?_, fun proper => ?_⟩
              · obtain ⟨_, mapped, result⟩ := bind_ok.mp result
                obtain rfl := Except.ok.inj (mapping.symm.trans mapped)
                obtain ⟨_, -, result⟩ := bind_ok.mp result
                obtain ⟨_, -, result⟩ := bind_ok.mp result
                obtain ⟨rfl, -⟩ : 0 = size ∧ _ := by simpa [pure, Except.pure] using result
                rw [needed 0 {}, Kmem.grants_granted granted, ← Kmem.grants_fill rest mem 0,
                  Kmem.grants_refused second]
                simp
              · have proper' : ∀ f, 1 ≤ later.freelist.count f + (pd.refs f + one mem f) →
                    later.accepts f = true := by
                  intro f placed
                  have same := Kmem.kalloc_none second
                  have accepts : later.accepts = km.accepts :=
                    (congrArg Store.accepts same).trans taken.accepts
                  have free : later.freelist = (rest.fill mem 0).freelist := congrArg Store.free same
                  rw [accepts]
                  refine proper f ?_
                  rw [free] at placed
                  exact taken.places f ▸ placed
                obtain ⟨⟨size, pd', km'⟩, undone⟩ := @deallocuvm_returns pd later newsz oldsz small.le
                  fun f placed => proper' f (by omega)
                have accepts : km'.accepts = later.accepts := (deallocuvm_gives tidy small.le undone).2.2.accepts
                obtain ⟨last, freed, -⟩ := @Kmem.kfree_returns km' mem (by
                  rw [accepts]
                  exact proper' mem (by rw [one_self]; omega))
                exact ⟨_, bind_ok.mpr ⟨_, mapping, bind_ok.mpr ⟨_, undone, bind_ok.mpr ⟨_, freed, rfl⟩⟩⟩⟩
            | some f =>
              simp only [second] at mapping
              obtain ⟨succeeds, returns⟩ := continued _ _ mapping
              rw [mapping, needed f (ver.entry mem { w := true, u := true }), Kmem.grants_granted granted,
                ← Kmem.grants_fill rest mem 0, Kmem.grants_granted second, ← Kmem.grants_fill later f 0]
              exact ⟨succeeds, returns⟩
    · rename_i passed
      have none : pd.demand a newsz = 0 := by
        unfold PgDir.demand
        rw [if_neg passed]
      refine ⟨fun size pd' km' result => ?_, fun _ => ⟨_, rfl⟩⟩
      obtain ⟨rfl, -⟩ : newsz = size ∧ _ := by simpa using result
      rw [none]
      exact ⟨fun _ => rfl, fun _ => positive.ne'⟩

/-- The new size is small enough and the frames for it are granted. -/
def Affordable (pd : PgDir) (oldsz newsz : Nat) (km : Kmem) : Prop :=
  newsz < KERNBASE ∧ km.grants (pd.demand (PGROUNDUP oldsz) newsz) = true

instance (pd : PgDir) (oldsz newsz : Nat) (km : Kmem) : Decidable (Affordable pd oldsz newsz km) :=
  inferInstanceAs (Decidable (_ ∧ _))

/-- `allocuvm` of pages that are not mapped succeeds exactly if they are affordable, and
it returns if the frames are proper. -/
theorem allocuvm_affordable {pd : PgDir} {km : Kmem} (tidy : Tidy pd) (bounded : oldsz ≤ KERNBASE)
    (growing : oldsz < newsz) (blank : ∀ v : Vpn, v.user → oldsz ≤ v.addr → pd.pte v = {}) :
    (∀ size pd' km', allocuvm ver pd oldsz newsz km = .ok (size, pd', km') →
      (size ≠ 0 ↔ Affordable pd oldsz newsz km)) ∧
    (Proper pd km → ∃ result, allocuvm ver pd oldsz newsz km = .ok result) := by
  unfold allocuvm
  split
  · rename_i large
    refine ⟨fun size pd' km' result => ?_, fun _ => ⟨_, rfl⟩⟩
    obtain ⟨rfl, -⟩ : 0 = size ∧ _ := by simpa using result
    exact ⟨fun no => absurd rfl no, fun afford => absurd afford.1 (Nat.not_lt.mpr large)⟩
  · rename_i small
    have small := Nat.lt_of_not_le small
    rw [if_neg (Nat.not_lt.mpr growing.le)]
    obtain ⟨above, near⟩ := le_PGROUNDUP bounded
    obtain ⟨succeeds, returns⟩ :=
      @allocuvmFrom_granted ver oldsz newsz (newsz / PGSIZE + 1) (PGROUNDUP oldsz) pd km small
        (Nat.zero_lt_of_lt growing) (PGROUNDUP_aligned oldsz) (by unfold PGSIZE at *; omega) tidy
        fun v begun below => blank v ((Vpn.user_iff v).mpr (below.trans small)) (above.trans begun)
    exact ⟨fun size pd' km' looped => (succeeds size pd' km' looped).trans
      ⟨fun granted => ⟨small, granted⟩, And.right⟩, returns⟩

end Allocuvm

end Cs537.Vm
