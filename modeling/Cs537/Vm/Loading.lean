import Cs537.Vm.Allotment
import Cs537.Vm.Exec
import Cs537.Vm.Launch

/-!
# When `exec` can load a program

The program headers decide a size, whatever their number, order and overlap. The program
is loaded exactly if they do and `kalloc` grants the frames for that size; there is no
other outcome than a page table without holes below the size, or one that is given up.
-/

namespace Cs537.Vm

open Occurrences Ledger

/-! ## What the file says -/

/-- All bytes of the segment can be read. -/
def Segment.readable (seg : Segment) : Bool :=
  (List.range ((seg.filesz + PGSIZE - 1) / PGSIZE)).all fun i => (seg.chunk i).isSome

/-- The size that the program headers ask for, or none if one of them is refused. -/
def imageSize : List (Option Segment) → Nat → Option Nat
  | [], sz => some sz
  | none :: _, _ => none
  | some seg :: rest, sz =>
    if !seg.load then imageSize rest sz
    else if seg.memsz < seg.filesz ∨ word (seg.vaddr + seg.memsz) < seg.vaddr then none
    else if KERNBASE ≤ word (seg.vaddr + seg.memsz) then none
    else if max sz (word (seg.vaddr + seg.memsz)) = 0 then none
    else if seg.vaddr % PGSIZE ≠ 0 ∨ seg.readable = false then none
    else imageSize rest (max sz (word (seg.vaddr + seg.memsz)))

/-- Headers only enlarge the size. -/
theorem imageSize_le {segments : List (Option Segment)} {sz n : Nat} (asked : imageSize segments sz = some n) :
    sz ≤ n := by
  fun_induction imageSize segments sz with
  | case1 sz =>
    obtain rfl := Option.some.inj asked
    exact le_rfl
  | case2 | case4 | case5 | case6 | case7 => cases asked
  | case3 seg rest sz skipped inductionHypothesis => exact inductionHypothesis asked
  | case8 seg rest sz _ _ _ _ _ inductionHypothesis => exact (le_max_left _ _).trans (inductionHypothesis asked)

/-- The size stays below the kernel. -/
theorem imageSize_bounded {segments : List (Option Segment)} {sz n : Nat} (bounded : sz ≤ KERNBASE)
    (asked : imageSize segments sz = some n) : n ≤ KERNBASE := by
  fun_induction imageSize segments sz with
  | case1 sz =>
    obtain rfl := Option.some.inj asked
    exact bounded
  | case2 | case4 | case5 | case6 | case7 => cases asked
  | case3 seg rest sz skipped inductionHypothesis => exact inductionHypothesis bounded asked
  | case8 seg rest sz _ _ small _ _ inductionHypothesis =>
    exact inductionHypothesis (max_le bounded (Nat.le_of_not_le small)) asked

/-- The pages of a segment that must be read. -/
theorem Segment.readable_iff (seg : Segment) :
    seg.readable = true ↔ ∀ i, i * PGSIZE < seg.filesz → (seg.chunk i).isSome = true := by
  unfold Segment.readable
  rw [List.all_eq_true]
  simp only [List.mem_range]
  refine forall_congr' fun i => imp_congr ?_ Iff.rfl
  unfold PGSIZE
  omega

/-! ## Writing to memory -/

/-- At most the bytes of pages differ. -/
def Kmem.Wrote (km km' : Kmem) : Prop := km' = { km with mem := km'.mem }

theorem Kmem.Wrote.refl (km : Kmem) : km.Wrote km := rfl

theorem Kmem.Wrote.trans {km km' km'' : Kmem} (first : km.Wrote km') (second : km'.Wrote km'') : km.Wrote km'' := by
  unfold Kmem.Wrote at *
  rw [second, first]

theorem Kmem.Wrote.write (km : Kmem) (f : Frame) (page : Page) : km.Wrote (km.write f page) := rfl

/-- Writing leaves the free list alone. -/
theorem Kmem.Draws.wrote {start km km' : Kmem} {count : Nat} (drawn : start.Draws count km) (wrote : km.Wrote km') :
    start.Draws count km' := by
  intro more
  rw [drawn more]
  refine (Kmem.grants_congr ?_ ?_ more).symm
  · rw [wrote]
  · rw [wrote]

/-! ## A program that is being loaded -/

/-- A page table under construction that has a page-table page for each page below the
size and no others, and whose frames are those that were granted first. -/
structure Loading (start : Kmem) (sz : Nat) (pd : PgDir) (km : Kmem) : Prop extends Building start sz pd km where
  opened : ∀ v : Vpn, v.addr < sz → (pd.pte v).u = true
  covers : pd.Covers (upto kernelHalf 0 sz)
  draws : start.Draws (65 + framesBelow sz) km

section

variable {ver : Version} {start km km' : Kmem} {sz : Nat} {pd pd' : PgDir}

/-- The frames of a page table under construction were free. -/
theorem Building.proper (building : Building start sz pd km)
    (proper : ∀ f, 1 ≤ start.freelist.count f → start.accepts f = true) : Proper pd km := by
  intro f placed
  have accepts : km.accepts = start.accepts := building.takes.accepts
  have places : km.freelist.count f + pd.refs f = start.freelist.count f + 0 := building.takes.places f
  rw [accepts]
  exact proper f (by omega)

/-- A page table that was given up can be freed. -/
theorem Abandoned.returns (abandoned : Abandoned start pd km)
    (proper : ∀ f, 1 ≤ start.freelist.count f → start.accepts f = true) : ∃ km', Vm.freevm pd km = .ok km' := by
  refine freevm_returns fun f held => ?_
  have accepts : km.accepts = start.accepts := abandoned.2.accepts
  have places : km.freelist.count f + pd.refs f = start.freelist.count f + 0 := abandoned.2.places f
  rw [accepts]
  exact proper f (by omega)

/-- Bytes of the new pages were written. -/
theorem Loading.wrote (loading : Loading start sz pd km) (building : Building start sz pd km')
    (wrote : km.Wrote km') : Loading start sz pd km' :=
  ⟨building, loading.opened, loading.covers, loading.draws.wrote wrote⟩

/-- `allocuvm` extends the program exactly if the frames up to the new size are granted. -/
theorem Loading.allocuvm (loading : Loading start sz pd km)
    (proper : ∀ f, 1 ≤ start.freelist.count f → start.accepts f = true) (newsz : Nat) :
    ∃ size pd' km', allocuvm ver pd sz newsz km = .ok (size, pd', km') ∧
      size = (if newsz < KERNBASE ∧ start.grants (65 + framesBelow (max sz newsz)) = true then max sz newsz else 0) ∧
      (size ≠ 0 → Loading start size pd' km') := by
  have granted := loading.draws.granted
  obtain small | large := Nat.lt_or_ge newsz KERNBASE
  · obtain growing | within := Nat.lt_or_ge sz newsz
    · obtain ⟨-, returns⟩ := @allocuvm_affordable ver sz newsz pd km loading.tidy loading.bounded growing
        loading.outside
      obtain ⟨⟨size, pd', km'⟩, result⟩ := returns (loading.toBuilding.proper proper)
      have counted := allocuvm_counted loading.tidy loading.bounded growing loading.outside small loading.covers result
      have total : 65 + framesBelow newsz = 65 + framesBelow sz + (framesBelow newsz - framesBelow sz) := by
        have mono := framesBelow_mono growing.le
        omega
      unfold Counted at counted
      rw [max_eq_right growing.le, total]
      cases allocuvm_cases loading.tidy result with
      | tooLarge large => exact absurd small (Nat.not_lt.mpr large)
      | smaller _ below => exact absurd growing (Nat.lt_asymm below)
      | done _ above fills =>
        have positive : newsz ≠ 0 := Nat.ne_zero_of_lt growing
        rw [if_neg positive] at counted
        have drawn := loading.draws.trans counted.2
        refine ⟨newsz, pd', km', result, (if_pos ⟨small, drawn.granted⟩).symm, fun _ => ⟨?_, fun v below => ?_,
          counted.1, total ▸ drawn⟩⟩
        · obtain ⟨built, -⟩ | ⟨zero, -⟩ := loading.toBuilding.allocuvm result
          · exact built
          · exact absurd zero positive
        · by_cases new : sz ≤ v.addr
          · obtain ⟨-, f, entry, -⟩ := fills.inside v new below
            rw [entry]
            cases ver <;> rfl
          · rw [fills.outside v (by omega)]
            exact loading.opened v (by omega)
      | undone _ above tidy exchanged entries =>
        rw [if_pos rfl] at counted
        have refused := loading.draws.refused counted
        refine ⟨0, pd', km', result, (if_neg fun both => ?_).symm, fun no => absurd rfl no⟩
        rw [both.2] at refused
        cases refused
    · -- the size does not grow
      refine ⟨sz, pd, km, ?_, ?_, fun _ => loading⟩
      · unfold Vm.allocuvm
        rw [if_neg (Nat.not_le.mpr small)]
        split
        · rfl
        · have same : newsz = sz := by omega
          obtain ⟨above, -⟩ := le_PGROUNDUP loading.bounded
          unfold allocuvmFrom
          rw [if_neg (by omega), same]
      · rw [max_eq_left within, if_pos ⟨small, granted⟩]
  · refine ⟨0, pd, km, ?_, ?_, fun no => absurd rfl no⟩
    · unfold Vm.allocuvm
      rw [if_pos large]
    · rw [if_neg fun both => absurd both.1 (Nat.not_lt.mpr large)]

/-- The loop of `loaduvm` from a page of the segment on: it succeeds exactly if the rest can
be read. -/
theorem Building.loaduvmFrom_returns {seg : Segment} {fuel : Nat} (building : Building start sz pd km)
    (aligned : PGSIZE ∣ seg.vaddr) (fits : seg.vaddr + seg.filesz ≤ sz) (j : Nat)
    (enough : seg.filesz ≤ (j + fuel) * PGSIZE) :
    ∃ loaded km', Vm.loaduvmFrom pd seg fuel (j * PGSIZE) km = .ok (loaded, km') ∧ km.Wrote km' ∧
      (loaded = true ↔ ∀ i, j ≤ i → i * PGSIZE < seg.filesz → (seg.chunk i).isSome = true) := by
  -- nothing is left to be read
  have finished : ∀ j, seg.filesz ≤ j * PGSIZE →
      ∀ i, j ≤ i → i * PGSIZE < seg.filesz → (seg.chunk i).isSome = true := by
    intro j passed i later inside
    have further := Nat.mul_le_mul_right PGSIZE later
    omega
  induction fuel generalizing j km with
  | zero => exact ⟨true, km, rfl, .refl km, fun _ => finished j enough, fun _ => rfl⟩
  | succ fuel inductionHypothesis =>
    unfold Vm.loaduvmFrom
    split
    · rename_i inside
      have bounded := building.bounded
      have small : seg.vaddr + j * PGSIZE < 2 ^ 32 := by
        unfold KERNBASE at bounded
        omega
      have page : (vpn (word (seg.vaddr + j * PGSIZE))).addr = seg.vaddr + j * PGSIZE := by
        rw [word_small small]
        exact vpn_addr small (Nat.dvd_add aligned (Nat.dvd_mul_left _ _))
      obtain ⟨low, mapped⟩ := @Building.mapped start km sz pd building (vpn (word (seg.vaddr + j * PGSIZE))) (by omega)
      have walked : pd.walk (vpn (word (seg.vaddr + j * PGSIZE))) = some (pd.pte (vpn (word (seg.vaddr + j * PGSIZE)))) :=
        PgDir.walk_some.mpr ⟨building.tidy.table mapped, rfl⟩
      have index : j * PGSIZE / PGSIZE = j := Nat.mul_div_cancel j (by decide)
      rw [walked]
      simp only [index]
      cases read : seg.chunk j with
      | none =>
        refine ⟨false, km, rfl, .refl km, fun no => (by cases no), fun all => ?_⟩
        have readable := all j le_rfl inside
        rw [read] at readable
        cases readable
      | some bytes =>
        have next : j * PGSIZE + PGSIZE = (j + 1) * PGSIZE := (Nat.succ_mul j PGSIZE).symm
        simp only [next]
        obtain ⟨loaded, km', looped, wrote, succeeds⟩ := inductionHypothesis
          (building.write low mapped _) (j + 1) (by rwa [Nat.add_right_comm])
        refine ⟨loaded, km', looped, (Kmem.Wrote.write km _ _).trans wrote, succeeds.trans ⟨fun all i later => ?_,
          fun all i later => all i (by omega)⟩⟩
        obtain rfl | after := Nat.eq_or_lt_of_le later
        · exact fun _ => by rw [read]; rfl
        · exact all i after
    · rename_i passed
      exact ⟨true, km, rfl, .refl km, fun _ => finished j (Nat.le_of_not_lt passed), fun _ => rfl⟩

/-- `loaduvm` of a segment below the size. -/
theorem Loading.loaduvm {seg : Segment} (loading : Loading start sz pd km) (aligned : seg.vaddr % PGSIZE = 0)
    (fits : seg.vaddr + seg.filesz ≤ sz) :
    ∃ km', Vm.loaduvm pd seg km = .ok (seg.readable, km') ∧ Loading start sz pd km' := by
  have enough : seg.filesz ≤ (0 + (seg.filesz / PGSIZE + 1)) * PGSIZE := by
    unfold PGSIZE
    omega
  obtain ⟨loaded, km', looped, wrote, succeeds⟩ :=
    loading.toBuilding.loaduvmFrom_returns (Nat.dvd_of_mod_eq_zero aligned) fits 0 enough
  have same : loaded = seg.readable := by
    rw [Bool.eq_iff_iff, succeeds, Segment.readable_iff]
    exact ⟨fun all i => all i (Nat.zero_le i), fun all i _ => all i⟩
  have result : Vm.loaduvm pd seg km = .ok (seg.readable, km') := by
    unfold Vm.loaduvm
    rw [if_neg (by simpa using aligned), ← same, ← looped, Nat.zero_mul]
  exact ⟨km', result, loading.wrote (loading.toBuilding.loaduvm fits result) wrote⟩

/-- A header that is loaded and passes the first two checks: the pages are allocated, the address is
checked, and the bytes are read. -/
theorem loadSegments_cons {seg : Segment} {rest : List (Option Segment)} {size : Nat} (loaded : ¬ (!seg.load) = true)
    (plain : ¬ (seg.memsz < seg.filesz ∨ word (seg.vaddr + seg.memsz) < seg.vaddr))
    (called : Vm.allocuvm ver pd sz (word (seg.vaddr + seg.memsz)) km = .ok (size, pd', km')) :
    Vm.loadSegments ver (some seg :: rest) sz pd km =
      if size = 0 ∨ seg.vaddr % PGSIZE ≠ 0 then .ok (none, pd', km')
      else do
        let (loaded, km') ← Vm.loaduvm pd' seg km'
        if loaded then Vm.loadSegments ver rest size pd' km' else return (none, pd', km') := by
  obtain ⟨covered, unwrapped⟩ := not_or.mp plain
  rw [Vm.loadSegments, if_neg loaded, if_neg covered, if_neg unwrapped, called]
  simp only [bind, Except.bind]
  by_cases zero : size = 0
  · rw [if_pos zero, if_pos (.inl zero)]
    rfl
  · rw [if_neg zero]
    by_cases skewed : seg.vaddr % PGSIZE ≠ 0
    · rw [if_pos skewed, if_pos (.inr skewed)]
      rfl
    · rw [if_neg skewed, if_neg (not_or.mpr ⟨zero, skewed⟩)]

/-- The bytes of a segment lie below the size that was allocated for it. -/
theorem Segment.fits {size : Nat} {afforded : Prop} [Decidable afforded] (seg : Segment)
    (plain : ¬ (seg.memsz < seg.filesz ∨ word (seg.vaddr + seg.memsz) < seg.vaddr))
    (same : size = if afforded then max sz (word (seg.vaddr + seg.memsz)) else 0) (nonzero : ¬ size = 0) :
    seg.vaddr + seg.filesz ≤ size := by
  have vaddrWord := seg.vaddrWord
  have memszWord := seg.memszWord
  split at same
  · have above := le_max_right sz (word (seg.vaddr + seg.memsz))
    unfold word at *
    omega
  · exact absurd same nonzero

/-- A size for which the frames are not granted. -/
theorem imageSize_refused {segments : List (Option Segment)} (refused : start.grants (65 + framesBelow sz) = false) :
    (imageSize segments sz).filter (fun n => start.grants (65 + framesBelow n)) = none := by
  cases asked : imageSize segments sz with
  | none => rfl
  | some n =>
    refine Option.filter_some_neg (Bool.eq_false_iff.mpr fun granted => ?_)
    have fewer : start.grants (65 + framesBelow sz) = true :=
      Kmem.grants_le granted (Nat.add_le_add_left (framesBelow_mono (imageSize_le asked)) 65)
    rw [fewer] at refused
    cases refused

/-- The loop over the program headers returns. It succeeds exactly if they have a size and
the frames for that size are granted. -/
theorem Loading.loadSegments (loading : Loading start sz pd km)
    (proper : ∀ f, 1 ≤ start.freelist.count f → start.accepts f = true) (segments : List (Option Segment)) :
    ∃ made pd' km', Vm.loadSegments ver segments sz pd km = .ok (made, pd', km') ∧
      made = (imageSize segments sz).filter (fun n => start.grants (65 + framesBelow n)) ∧
      ∀ n, made = some n → Loading start n pd' km' := by
  have failed : ∀ n pd km, (none : Option Nat) = some n → Loading start n pd km := fun _ _ _ no => by cases no
  fun_induction imageSize segments sz generalizing pd km with
  | case1 sz =>
    refine ⟨some sz, pd, km, rfl, ?_, fun n same => Option.some.inj same ▸ loading⟩
    exact (Option.filter_some_pos (p := fun n => start.grants (65 + framesBelow n)) loading.draws.granted).symm
  | case2 rest sz => exact ⟨none, pd, km, rfl, rfl, fun n => failed n pd km⟩
  | case3 seg rest sz skipped inductionHypothesis =>
    unfold Vm.loadSegments
    rw [if_pos skipped]
    exact inductionHypothesis loading
  | case4 seg rest sz loaded refused =>
    refine ⟨none, pd, km, ?_, rfl, fun n => failed n pd km⟩
    unfold Vm.loadSegments
    rw [if_neg loaded]
    split
    · rfl
    · rename_i covered
      rw [if_pos (refused.resolve_left covered)]
  | case5 seg rest sz loaded plain large =>
    obtain ⟨size, pd', km', called, same, -⟩ := loading.allocuvm proper (word (seg.vaddr + seg.memsz))
    rw [if_neg fun both => absurd both.1 (Nat.not_lt.mpr large)] at same
    refine ⟨none, pd', km', ?_, rfl, fun n => failed n pd' km'⟩
    rw [loadSegments_cons loaded plain called, if_pos (.inl same)]
  | case6 seg rest sz loaded plain small empty =>
    obtain ⟨size, pd', km', called, same, -⟩ := loading.allocuvm proper (word (seg.vaddr + seg.memsz))
    rw [empty, ite_self] at same
    refine ⟨none, pd', km', ?_, rfl, fun n => failed n pd' km'⟩
    rw [loadSegments_cons loaded plain called, if_pos (.inl same)]
  | case7 seg rest sz loaded plain small nonempty refused =>
    obtain ⟨size, pd', km', called, same, built⟩ := loading.allocuvm proper (word (seg.vaddr + seg.memsz))
    rw [loadSegments_cons loaded plain called]
    split
    · exact ⟨none, pd', km', rfl, rfl, fun n => failed n pd' km'⟩
    · rename_i good
      obtain ⟨nonzero, aligned⟩ := not_or.mp good
      have fits := seg.fits plain same nonzero
      obtain ⟨km'', read, -⟩ := (built nonzero).loaduvm (Decidable.not_not.mp aligned) fits
      rw [refused.resolve_left aligned] at read
      refine ⟨none, pd', km'', ?_, rfl, fun n => failed n pd' km''⟩
      rw [read]
      rfl
  | case8 seg rest sz loaded plain small nonempty good inductionHypothesis =>
    obtain ⟨size, pd', km', called, same, built⟩ := loading.allocuvm proper (word (seg.vaddr + seg.memsz))
    obtain ⟨aligned, readable⟩ := not_or.mp good
    rw [loadSegments_cons loaded plain called]
    by_cases zero : size = 0
    · -- the frames are not granted
      refine ⟨none, pd', km', if_pos (.inl zero), (imageSize_refused ?_).symm, fun n => failed n pd' km'⟩
      refine Bool.eq_false_iff.mpr fun granted => nonempty ?_
      rwa [if_pos ⟨Nat.lt_of_not_le small, granted⟩, zero, eq_comm] at same
    · rw [if_neg (not_or.mpr ⟨zero, aligned⟩)]
      have fits := seg.fits plain same zero
      obtain ⟨km'', read, continued⟩ := (built zero).loaduvm (Decidable.not_not.mp aligned) fits
      have whole : size = max sz (word (seg.vaddr + seg.memsz)) := by
        by_contra different
        rw [same] at different zero
        exact different (if_pos (by_contra fun no => zero (if_neg no)))
      rw [Bool.not_eq_false] at readable
      rw [read, readable, ← whole]
      rw [← whole] at inductionHypothesis
      exact inductionHypothesis continued

end

end Cs537.Vm
