import Cs537.Vm.Arguments

/-!
# `exec` is all or nothing

Up to its commitment `exec` works on frames that were free, and every jump to `bad` gives
them back. After the commitment it encrypts the pages of the new image, which cannot fail,
since no page below the size is missing: each page open to users is complemented once. What
remains is an argument that strays: there `exec` has no result.
-/

namespace Cs537.Vm

open Occurrences Ledger

/-- Pages of the new image are mapped, whether they are encrypted or not. -/
theorem Launched.mapped {start km : Kmem} {sz : Nat} {pd : PgDir} (launched : Launched start sz pd km)
    {v : Vpn} (inside : v.addr < sz) : (pd.pte v).mapped = true := by
  obtain ⟨encrypted, present⟩ := launched.inside v inside
  unfold Pte.mapped
  rw [encrypted, present]
  cases (pd.pte v).u <;> rfl

namespace P6

/-! ## Encrypting the image -/

/-- The loop that encrypts the image, from the page of `i` on: the pages open to users are
encrypted, their bytes are complemented once, and no other page changes. -/
structure Veiled (sz i : Nat) (pd : PgDir) (km : Kmem) (pd' : PgDir) (km' : Kmem) : Prop where
  entries : ∀ v : Vpn, pd'.pte v =
    if i ≤ v.addr ∧ v.addr < sz ∧ (pd.pte v).u = true then sealed (pd.pte v) else pd.pte v
  flipped : ∀ v : Vpn, i ≤ v.addr → v.addr < sz → (pd.pte v).u = true →
    km'.mem (pd.pte v).ppn = (km.mem (pd.pte v).ppn).flip
  kept : ∀ f, (∀ v : Vpn, i ≤ v.addr → v.addr < sz → (pd.pte v).u = true → (pd.pte v).ppn ≠ f) →
    km'.mem f = km.mem f

section

variable {start km km' : Kmem} {sz i : Nat} {pd pd' : PgDir}

/-- Nothing is left. -/
theorem Veiled.passed (passed : sz ≤ i) (pd : PgDir) (km : Kmem) : Veiled sz i pd km pd km := by
  have nothing : ∀ v : Vpn, i ≤ v.addr → ¬ v.addr < sz := fun v after before => by omega
  refine ⟨fun v => ?_, fun v after before => absurd before (nothing v after), fun _ _ => rfl⟩
  rw [if_neg fun all => nothing v all.1 all.2.1]

/-- The pages after a page. -/
theorem addr_after (aligned : PGSIZE ∣ i) (small : i < 2 ^ 32) {v : Vpn} (different : v ≠ vpn i) :
    i + PGSIZE ≤ v.addr ↔ i ≤ v.addr := by
  have page : (vpn i).addr = i := vpn_addr small aligned
  have apart : v.addr ≠ i := fun same => different (addr_inj (same.trans page.symm))
  clear page
  obtain ⟨k, rfl⟩ := aligned
  unfold Vpn.addr PGSIZE at *
  omega

/-- A page closed to users is passed over. -/
theorem Veiled.closed (aligned : PGSIZE ∣ i) (small : i < 2 ^ 32) (shut : (pd.pte (vpn i)).u = false)
    (veiled : Veiled sz (i + PGSIZE) pd km pd' km') : Veiled sz i pd km pd' km' := by
  have after : ∀ v : Vpn, (pd.pte v).u = true → (i + PGSIZE ≤ v.addr ↔ i ≤ v.addr) := by
    intro v opened
    refine addr_after aligned small ?_
    rintro rfl
    rw [shut] at opened
    cases opened
  refine ⟨fun v => ?_, fun v begun below opened => ?_, fun f others => ?_⟩
  · rw [veiled.entries v]
    refine if_congr ⟨fun all => ⟨?_, all.2⟩, fun all => ⟨?_, all.2⟩⟩ rfl rfl
    · exact (after v all.2.2).mp all.1
    · exact (after v all.2.2).mpr all.1
  · exact veiled.flipped v ((after v opened).mpr begun) below opened
  · exact veiled.kept f fun v begun below opened => others v ((after v opened).mp begun) below opened

/-- A page open to users is complemented, and its frame is not that of a later page. -/
theorem Veiled.opened (aligned : PGSIZE ∣ i) (small : i < 2 ^ 32) (inside : i < sz)
    (opened : (pd.pte (vpn i)).u = true)
    (unique : ∀ v : Vpn, v ≠ vpn i → v.addr < sz → i ≤ v.addr → (pd.pte v).ppn ≠ (pd.pte (vpn i)).ppn)
    (veiled : Veiled sz (i + PGSIZE) (pd.set (vpn i) (sealed (pd.pte (vpn i))))
      (km.complement (pd.pte (vpn i)).ppn) pd' km') : Veiled sz i pd km pd' km' := by
  have page : (vpn i).addr = i := vpn_addr small aligned
  have others : ∀ v : Vpn, v ≠ vpn i → (pd.set (vpn i) (sealed (pd.pte (vpn i)))).pte v = pd.pte v := by
    intro v different
    rw [PgDir.set_pte, if_neg different]
  have later : ∀ v : Vpn, i + PGSIZE ≤ v.addr → v ≠ vpn i := by
    rintro v beyond rfl
    unfold PGSIZE at beyond
    omega
  have elsewhere : ∀ g, g ≠ (pd.pte (vpn i)).ppn → (km.complement (pd.pte (vpn i)).ppn).mem g = km.mem g :=
    fun g different => km.write_mem_other _ different
  refine ⟨fun v => ?_, fun v begun below open_ => ?_, fun f outside => ?_⟩
  · rw [veiled.entries v]
    by_cases same : v = vpn i
    · subst same
      rw [if_neg fun all => later _ all.1 rfl, if_pos ⟨page.ge, by omega, opened⟩, PgDir.set_pte_self]
    · rw [others v same]
      exact if_congr (and_congr (addr_after aligned small same) Iff.rfl) rfl rfl
  · by_cases same : v = vpn i
    · subst same
      rw [veiled.kept (pd.pte (vpn i)).ppn fun v beyond below' _ => ?_]
      · exact km.write_mem_self _ _
      · rw [others v (later v beyond)]
        exact unique v (later v beyond) below' (by omega)
    · have flipped := veiled.flipped v ((addr_after aligned small same).mpr begun) below
      rw [others v same] at flipped
      rw [flipped open_, elsewhere _ (unique v same below begun)]
  · rw [veiled.kept f fun v beyond below open_ => ?_]
    · exact elsewhere f (outside (vpn i) page.ge (by omega) opened).symm
    · rw [others v (later v beyond)] at open_ ⊢
      exact outside v (by omega) below open_

/-- The frames of a page table under construction are those of its pages only. -/
theorem takes_single (single : ∀ f, start.freelist.count f ≤ 1)
    (taken : Takes (fun _ => 0) start.store pd.refs km.store) (f : Frame) : pd.refs f ≤ 1 := by
  have places : km.freelist.count f + pd.refs f = start.freelist.count f + 0 := taken.places f
  have once := single f
  omega

/-- The encrypting loop returns, and does not fail. -/
theorem encryptImage_veils {fuel : Nat} (aligned : PGSIZE ∣ i) (enough : sz ≤ i + fuel * PGSIZE)
    (single : ∀ f, start.freelist.count f ≤ 1) (sealing : Sealing start sz i pd km) :
    ∃ pd' km', encryptImage sz fuel i pd km = .ok (true, pd', km') ∧ Veiled sz i pd km pd' km' := by
  induction fuel generalizing i pd km with
  | zero => exact ⟨pd, km, rfl, .passed (by omega) pd km⟩
  | succ fuel inductionHypothesis =>
    unfold encryptImage
    split
    · rename_i inside
      have bounded := sealing.bounded
      have small : i < 2 ^ 32 := by
        unfold KERNBASE at bounded
        omega
      have page : (vpn i).addr = i := vpn_addr small aligned
      have user : ∀ v : Vpn, v.addr < sz → v.user := fun v below => (Vpn.user_iff v).mpr (below.trans_le bounded)
      have mapped : ∀ v : Vpn, v.addr < sz → i ≤ v.addr → (pd.pte v).mapped = true := by
        intro v below begun
        unfold Pte.mapped
        rw [(sealing.left v below begun).1, Bool.true_or]
      obtain ⟨here, -, bare⟩ := sealing.here aligned inside
      have table := sealing.tidy.table here
      have alignedNext : PGSIZE ∣ i + PGSIZE := Nat.dvd_add aligned (dvd_refl _)
      have enoughNext : sz ≤ i + PGSIZE + fuel * PGSIZE := by
        rw [Nat.succ_mul] at enough
        omega
      rw [PgDir.walk_some.mpr ⟨table, rfl⟩]
      simp only
      split
      · rename_i opened
        obtain ⟨pd', km', looped, veiled⟩ :=
          inductionHypothesis alignedNext enoughNext (sealing.opened aligned inside opened)
        rw [mencrypt_open table ⟨here, opened⟩, bare]
        refine ⟨pd', km', looped, veiled.opened aligned small inside opened fun v different below begun same => ?_⟩
        exact different (refs_unique (takes_single single sealing.takes) (user v below) (mapped v below begun)
          (user _ (by omega)) here same)
      · rename_i shut
        have closed : (pd.pte (vpn i)).u = false := by simpa using shut
        obtain ⟨pd', km', looped, veiled⟩ :=
          inductionHypothesis alignedNext enoughNext (sealing.closed aligned inside closed)
        exact ⟨pd', km', looped, veiled.closed aligned small closed⟩
    · rename_i passed
      exact ⟨pd, km, rfl, .passed (Nat.le_of_not_lt passed) pd km⟩

end

/-! ## The commitment -/

/-- A process that was committed to the page table `pd`, prepared in `middle`: every page below
the size is mapped; those open to users are encrypted, complemented once; all but the guard
page are open to users; the queue is empty; and the old page table is freed. -/
structure Relaunched (p : Proc) (km : Kmem) (sz : Nat) (pd : PgDir) (middle : Kmem) (p' : Proc) (km' : Kmem) :
    Prop where
  size : p'.sz = sz
  mapped : ∀ v : Vpn, v.addr < p'.sz → (p'.pgdir.pte v).mapped = true
  encrypted : ∀ v : Vpn, (p'.pgdir.pte v).u = true →
    (p'.pgdir.pte v).e = true ∧ (p'.pgdir.pte v).p = false ∧
      km'.mem (p'.pgdir.pte v).ppn = (middle.mem (pd.pte v).ppn).flip
  guard : 2 * PGSIZE ≤ p'.sz ∧ ∀ v : Vpn, v.addr < p'.sz →
    ((p'.pgdir.pte v).u = false ↔ v.addr = p'.sz - 2 * PGSIZE) ∧
      ((p'.pgdir.pte v).u = false → (p'.pgdir.pte v).p = true)
  queue : ∀ slot, p'.clockqueue slot = NOPAGE
  freed : ∀ f, p.pgdir.refs f ≤ km'.freelist.count f
  balance : ∀ f, km'.freelist.count f + p'.pgdir.refs f = km.freelist.count f + p.pgdir.refs f

section

variable {p : Proc} {start middle : Kmem} {sz : Nat} {pd : PgDir}

/-- `exec` from its commitment on. -/
theorem commit_relaunches (stacked : Stacked start sz pd middle) (tidy : Tidy p.pgdir)
    (single : Single p.pgdir.refs start.store) (proper : Proper p.pgdir start) :
    (∃ pd' km', encryptImage sz (sz / PGSIZE + 1) 0 pd middle = .ok (true, pd', km')) ∧
    ∃ p' km', commit p sz pd middle = .ok (true, p', km') ∧ Relaunched p start sz pd middle p' km' := by
  have once : ∀ f, start.freelist.count f ≤ 1 := fun f => (Nat.le_add_right _ _).trans (single f)
  have enough : sz ≤ 0 + (sz / PGSIZE + 1) * PGSIZE := by
    unfold PGSIZE
    omega
  have sealing : Sealing start sz 0 pd middle :=
    ⟨stacked.tidy, stacked.takes, stacked.bounded, fun v _ early => absurd early (Nat.not_lt_zero _),
      fun v below _ => stacked.inside v below, stacked.outside⟩
  obtain ⟨pd', last, looped, veiled⟩ := encryptImage_veils (dvd_zero _) enough once sealing
  obtain ⟨-, launched⟩ := encryptImage_launched (dvd_zero _) enough sealing looped
  refine ⟨⟨pd', last, looped⟩, ?_⟩
  obtain ⟨km', freed⟩ := @freevm_returns p.pgdir last fun f held => by
    have accepts : last.accepts = start.accepts := launched.takes.accepts
    rw [accepts]
    exact proper f (Nat.le_add_left_of_le held)
  have given := freevm_gives tidy freed
  refine ⟨clearwset { p with pgdir := pd', sz := sz }, km', ?_, ?_⟩
  · unfold commit
    refine bind_ok.mpr ⟨_, looped, ?_⟩
    exact bind_ok.mpr ⟨_, freed, rfl⟩
  · have taken : ∀ f, last.freelist.count f + pd'.refs f = start.freelist.count f + 0 := launched.takes.places
    have returned : ∀ f, km'.freelist.count f + 0 = last.freelist.count f + p.pgdir.refs f := given.places
    have kept : ∀ v, (pd'.pte v).u = (pd.pte v).u ∧ (pd'.pte v).ppn = (pd.pte v).ppn := by
      intro v
      rw [veiled.entries v]
      split <;> exact ⟨rfl, rfl⟩
    have below : ∀ v : Vpn, (pd'.pte v).u = true → v.addr < sz := by
      intro v opened
      by_contra beyond
      rw [launched.outside v (launched.tidy.low opened) (Nat.le_of_not_lt beyond)] at opened
      cases opened
    refine ⟨rfl, fun v inside => ?_, fun v opened => ?_, ⟨stacked.room, fun v inside => ⟨?_, fun closed => ?_⟩⟩,
      fun _ => rfl, fun f => ?_, fun f => ?_⟩
    · exact launched.mapped inside
    · change (pd'.pte v).u = true at opened
      have inside := below v opened
      obtain ⟨encrypted, present⟩ := launched.inside v inside
      rw [opened] at encrypted present
      refine ⟨encrypted, present, ?_⟩
      -- the frame of the page is not on the free list, so that freeing the old image leaves it alone
      have held := refs_pos ((Vpn.user_iff v).mpr (inside.trans_le launched.bounded)) (launched.mapped inside)
      have place := single (pd'.pte v).ppn
      have gone : km'.freelist.count (pd'.pte v).ppn = 0 := by
        have one := taken (pd'.pte v).ppn
        have two := returned (pd'.pte v).ppn
        simp only [Kmem.store] at place
        omega
      have same : km'.mem (pd'.pte v).ppn = last.mem (pd'.pte v).ppn := given.memory _ gone
      change km'.mem (pd'.pte v).ppn = _
      rw [same, (kept v).2]
      exact veiled.flipped v (Nat.zero_le _) inside ((kept v).1.symm.trans opened)
    · change (pd'.pte v).u = false ↔ v.addr = sz - 2 * PGSIZE
      rw [(kept v).1, ← Bool.not_eq_true, stacked.opened v inside, not_not]
    · have present := (launched.inside v inside).2
      change (pd'.pte v).u = false at closed
      rw [closed] at present
      exact present
    · have two := returned f
      omega
    · have one := taken f
      have two := returned f
      change km'.freelist.count f + pd'.refs f = _
      omega

end

/-! ## The preparation -/

/-- The program can be loaded with the frames that there are, and one of its arguments strays. -/
def strays (image : Image) (argv : List (List (BitVec 8))) (km : Kmem) : Bool :=
  image.valid &&
    match imageSize image.segments 0 with
    | none => false
    | some sz => decide (Affords km sz) && straying (stackTop sz) argv (stackTop sz) 0

theorem strays_iff {image : Image} {argv : List (List (BitVec 8))} {km : Kmem} :
    strays image argv km = true ↔ image.valid = true ∧
      ∃ sz, imageSize image.segments 0 = some sz ∧ Affords km sz ∧ straying (stackTop sz) argv (stackTop sz) 0 = true := by
  unfold strays
  cases asked : imageSize image.segments 0 with
  | none => simp
  | some sz => simp

/-- What `prepare` returns: every frame is back in its place, or there is a page table with a
stack. -/
def Prepared (km : Kmem) (km' : Kmem) : Option (Nat × Nat × PgDir) → Prop
  | none => Exchanges (fun _ => 0) km.store (fun _ => 0) km'.store
  | some (sz, _, pd) => Stacked km sz pd km'

section

variable {image : Image} {argv : List (List (BitVec 8))} {km : Kmem}

/-- `setupkvm` begins the loading of a program. -/
theorem setupkvm_loading {blank : PgDir} {first : Kmem} (made : setupkvm .p6 km = .ok (some blank, first))
    (covers : blank.Covers kernelHalf) (drawn : km.Draws 65 first) : Loading km 0 blank first := by
  obtain ⟨no, -⟩ | ⟨_, same, tidy, taken, empty⟩ := setupkvm_cases made
  · cases no
  · obtain rfl := Option.some.inj same
    exact ⟨⟨tidy, taken, Nat.zero_le _, fun v below => absurd below (Nat.not_lt_zero _), fun v low _ => empty v low⟩,
      fun v below => absurd below (Nat.not_lt_zero _), covers.congr fun i => (upto_start kernelHalf 0 _).symm, drawn⟩

/-- A stage of `prepare` that jumps to `bad`. -/
theorem prepared_bad {start km : Kmem} {pd : PgDir} (abandoned : Abandoned start pd km)
    (proper : ∀ f, 1 ≤ start.freelist.count f → start.accepts f = true) :
    ∃ km', freevm pd km = .ok km' ∧ Prepared start km' none := by
  obtain ⟨km', freed⟩ := abandoned.returns proper
  exact ⟨km', freed, abandoned.freevm freed⟩

/-- `prepare` returns, unless an argument strays. -/
theorem prepare_returns (aligned : PGSIZE ∣ km.layout.data)
    (proper : ∀ f, 1 ≤ km.freelist.count f → km.accepts f = true)
    (fetched : ∀ arg ∈ argv, arg.length < KERNBASE) :
    (strays image argv km = true → prepare image argv km = .error .nullEntry) ∧
    (strays image argv km = false → ∃ made km', prepare image argv km = .ok (made, km') ∧ Prepared km km' made) := by
  rw [← Bool.not_eq_true, strays_iff]
  unfold prepare
  by_cases valid : image.valid = true
  · rw [if_neg (by simp [valid])]
    obtain ⟨made, first, prepared, outcome⟩ := @setupkvm_granted .p6 km aligned proper
    rw [prepared]
    simp only [bind, Except.bind, pure, Except.pure]
    cases made with
    | none =>
      -- without the frames for the kernel's half the image is not affordable
      refine ⟨?_, fun _ => ⟨none, first, rfl, ?_⟩⟩
      · rintro ⟨-, sz, -, affords, -⟩
        have granted : km.grants 65 = true := Kmem.grants_le affords.2 (Nat.le_add_right _ _)
        rw [granted] at outcome
        cases outcome
      · obtain ⟨-, exchanged⟩ | ⟨_, no, -⟩ := setupkvm_cases prepared
        · exact exchanged
        · cases no
    | some blank =>
      have loading := setupkvm_loading prepared outcome.1 outcome.2
      obtain ⟨size, loaded, second, loads, decided, continued⟩ :=
        @Loading.loadSegments .p6 km first 0 blank loading proper image.segments
      simp only [loads]
      cases size with
      | none =>
        obtain ⟨last, freed, back⟩ := prepared_bad (loading.toBuilding.loadSegments loads) proper
        refine ⟨?_, fun _ => ⟨none, last, ?_, back⟩⟩
        · rintro ⟨-, sz, asked, affords, -⟩
          have top : sz ≤ stackTop sz :=
            (le_PGROUNDUP (imageSize_bounded (Nat.zero_le _) asked)).1.trans (Nat.le_add_right _ _)
          have granted : km.grants (65 + framesBelow sz) = true :=
            Kmem.grants_le affords.2 (Nat.add_le_add_left (framesBelow_mono top) 65)
          rw [asked, Option.filter_some_pos (p := fun n => km.grants (65 + framesBelow n)) granted] at decided
          cases decided
        · simp only [freed]
      | some sz =>
        have loading' := continued sz rfl
        have asked : imageSize image.segments 0 = some sz := (Option.filter_eq_some_iff.mp decided.symm).1
        obtain ⟨strayed, returned⟩ := loading'.initialStack proper fetched
        constructor
        · rintro ⟨-, sz', asked', both⟩
          obtain rfl := Option.some.inj (asked.symm.trans asked')
          simp only [strayed both]
        · intro tame
          obtain ⟨made, stacked, third, stacking, builds⟩ := returned fun both => tame ⟨valid, sz, asked, both⟩
          simp only [stacking]
          cases made with
          | none =>
            have abandoned : Abandoned km stacked third :=
              @Building.buildStack .p6 km second third sz loaded stacked argv none loading'.toBuilding
                (by rw [buildStack_eq, stacking]; rfl)
            obtain ⟨last, freed, back⟩ := prepared_bad abandoned proper
            refine ⟨none, last, ?_, back⟩
            simp only [freed]
          | some stack => exact ⟨_, third, rfl, builds stack.1 stack.2 rfl⟩
  · refine ⟨fun both => absurd both.1 valid, fun _ => ⟨none, km, ?_, (Takes.refl _ _).exchanges⟩⟩
    rw [if_pos (by simp [valid])]

end

/-! ## All or nothing -/

/-- A failed `exec` changes nothing of the caller: its page table, size, registers, name, queue
and hand. Every frame that was allocated is free again, and the bytes of all other frames
are as they were. -/
structure Unchanged (c : Caller) (km : Kmem) (c' : Caller) (km' : Kmem) : Prop where
  caller : c' = c
  freed : km'.freelist.Perm km.freelist
  memory : ∀ f, f ∉ km.freelist → km'.mem f = km.mem f

/-- What is asked of `exec`: it returns, either -1 with nothing changed or 0 with the caller
relaunched; and when it has prepared the new image, encrypting it does not fail. -/
def AllOrNothing (c : Caller) (namei : List (BitVec 8) → Option Program) (path : List (BitVec 8))
    (argv : List (List (BitVec 8))) (km : Kmem) : Prop :=
  (∃ code c' km', c.exec namei path argv km = .ok (code, c', km') ∧
    (code = -1 ∧ Unchanged c km c' km' ∨
      code = 0 ∧ ∃ program sz sp pd middle, namei path = some program ∧
        prepare program.image argv km = .ok (some (sz, sp, pd), middle) ∧
        Relaunched c.proc km sz pd middle c'.proc km')) ∧
  ∀ program sz sp pd middle, namei path = some program →
    prepare program.image argv km = .ok (some (sz, sp, pd), middle) →
    ∃ pd' km', encryptImage sz (sz / PGSIZE + 1) 0 pd middle = .ok (true, pd', km')

section

variable {c : Caller} {namei : List (BitVec 8) → Option Program} {path : List (BitVec 8)}
  {argv : List (List (BitVec 8))} {km : Kmem}

/-- Frames that are back in their places. -/
theorem unchanged_of_exchanges {km' : Kmem} (c : Caller)
    (exchanged : Exchanges (fun _ => 0) km.store (fun _ => 0) km'.store) : Unchanged c km c km' := by
  have counts : ∀ f, km'.freelist.count f = km.freelist.count f := exchanged.places
  refine ⟨rfl, List.perm_iff_count.mpr counts, fun f absent => ?_⟩
  have none : km.freelist.count f = 0 := List.count_eq_zero.mpr absent
  exact exchanged.memory f none ((counts f).trans none)

/-- An argument strays: `exec` has no result. -/
theorem exec_strays {program : Program} (aligned : PGSIZE ∣ km.layout.data)
    (proper : ∀ f, 1 ≤ km.freelist.count f → km.accepts f = true) (fetched : ∀ arg ∈ argv, arg.length < KERNBASE)
    (found : namei path = some program) (strayed : strays program.image argv km = true) :
    ¬ AllOrNothing c namei path argv km := by
  rintro ⟨⟨code, c', km', result, -⟩, -⟩
  unfold Caller.exec at result
  simp only [found, (prepare_returns aligned proper fetched).1 strayed] at result
  cases result

/-- `exec` is all or nothing exactly if no argument strays. -/
theorem exec_all_or_nothing_iff (tidy : Tidy c.proc.pgdir) (single : Single c.proc.pgdir.refs km.store)
    (proper : Proper c.proc.pgdir km) (bounded : c.proc.sz ≤ KERNBASE) (aligned : PGSIZE ∣ km.layout.data)
    (fetched : ∀ arg ∈ argv, arg.length < c.proc.sz) :
    AllOrNothing c namei path argv km ↔ ∀ program, namei path = some program → strays program.image argv km = false := by
  have proper' : ∀ f, 1 ≤ km.freelist.count f → km.accepts f = true :=
    fun f free => proper f (Nat.le_add_right_of_le free)
  have fetched' : ∀ arg ∈ argv, arg.length < KERNBASE := fun arg member => (fetched arg member).trans_le bounded
  constructor
  · intro all program found
    by_contra strayed
    exact exec_strays aligned proper' fetched' found (Bool.not_eq_false _ ▸ strayed) all
  · intro tame
    cases found : namei path with
    | none =>
      refine ⟨⟨-1, c, km, ?_, .inl ⟨rfl, unchanged_of_exchanges c (Takes.refl _ _).exchanges⟩⟩, ?_⟩
      · unfold Caller.exec
        rw [found]
      · rintro program _ _ _ _ impossible
        rw [found] at impossible
        cases impossible
    | some program =>
      obtain ⟨made, middle, preparing, prepared⟩ :=
        (@prepare_returns program.image argv km aligned proper' fetched').2 (tame program found)
      cases made with
      | none =>
        refine ⟨⟨-1, c, middle, ?_, .inl ⟨rfl, unchanged_of_exchanges c prepared⟩⟩, ?_⟩
        · unfold Caller.exec
          simp only [found, preparing]
          rfl
        · intro other sz sp pd km' found' preparing'
          obtain rfl := Option.some.inj (found.symm.trans found')
          rw [preparing] at preparing'
          cases preparing'
      | some image =>
        obtain ⟨sz, sp, pd⟩ := image
        obtain ⟨encrypts, p', km', committed, relaunched⟩ := commit_relaunches prepared tidy single proper
        refine ⟨⟨0, ⟨p', program.entry, sp, safestrcpy (lastElement path path) 16⟩, km', ?_,
          .inr ⟨rfl, program, sz, sp, pd, middle, found, preparing, relaunched⟩⟩, ?_⟩
        · unfold Caller.exec
          simp only [found]
          exact bind_ok.mpr ⟨_, preparing, bind_ok.mpr ⟨_, committed, rfl⟩⟩
        · intro other sz' sp' pd' km'' found' preparing'
          obtain rfl := Option.some.inj (found.symm.trans found')
          rw [preparing] at preparing'
          obtain ⟨⟨rfl, rfl, rfl⟩, rfl⟩ : (sz = sz' ∧ sp = sp' ∧ pd = pd') ∧ middle = km'' := by
            simpa using preparing'
          exact encrypts

end

/-! ## A caller with a large heap -/

/-- A process of 33 megabytes: a page of the program, the guard page, the stack and the heap. -/
def vastPages : PgDir where
  root := 2047
  tables := fun i => if i.val < 9 ∨ 512 ≤ i.val ∧ i.val < 568 ∨ 1016 ≤ i.val then some (2048 + i.val) else none
  pte := fun v =>
    if v.val < 8448 then
      if v.val = 1 then { p := true, w := true, ppn := 4097 }
      else { w := true, u := true, e := true, ppn := 4096 + v.val }
    else if 524288 ≤ v.val ∧ v.val < 581632 then { p := true, w := true, ppn := v.val - 524288 }
    else if 1040384 ≤ v.val then { p := true, w := true, ppn := v.val }
    else {}

def vast : Caller := ⟨⟨vastPages, 8448 * PGSIZE, 2046, fun _ => NOPAGE, none⟩, 0x10, 0x2ff0, [0x73, 0x68]⟩

/-- Eighty frames are free. -/
def eightyFrames : Kmem where
  freelist := List.range' 20000 80
  mem := fun _ _ => 0
  refusals := []
  layout := .small
  doubled := false

/-- A program of one page. -/
def small : Program where
  image := ⟨true, [some ⟨true, 0, 100, 100, fun _ => some fun _ => 0x90, by decide, by decide⟩]⟩
  entry := 0

theorem vastPages_tidy : Tidy vastPages := by
  refine ⟨fun v missing => ?_, fun v low filled => ?_, fun v high => ?_⟩
  · have absent : ¬ (v.pdx.val < 9 ∨ 512 ≤ v.pdx.val ∧ v.pdx.val < 568 ∨ 1016 ≤ v.pdx.val) := by
      intro present
      simp [vastPages, present] at missing
    have value : v.pdx.val = v.val / 1024 := rfl
    simp only [vastPages]
    rw [if_neg (by omega), if_neg (by omega), if_neg (by omega)]
  · unfold Vpn.user at low
    simp only [vastPages] at filled ⊢
    split
    · split <;> rfl
    · rename_i beyond
      rw [if_neg beyond, if_neg (by omega), if_neg (by omega)] at filled
      exact absurd rfl filled
  · unfold Vpn.user at high
    simp only [vastPages]
    rw [if_neg (by omega)]
    split
    · exact ⟨rfl, rfl⟩
    · split <;> exact ⟨rfl, rfl⟩

/-- The frames of the user's pages. -/
theorem vastPages_owned {v : Vpn} {f : Nat} (held : vastPages.owned v = some f) :
    v.val < 8448 ∧ f = 4096 + v.val := by
  unfold PgDir.owned at held
  split at held
  · rename_i both
    obtain ⟨low, mapped⟩ := both
    unfold Vpn.user at low
    have inside : v.val < 8448 := by
      by_contra beyond
      simp only [vastPages] at mapped
      rw [if_neg beyond, if_neg (by omega), if_neg (by omega)] at mapped
      cases mapped
    obtain rfl := Option.some.inj held
    refine ⟨inside, ?_⟩
    simp only [vastPages]
    rw [if_pos inside]
    split
    · rename_i guard
      rw [guard]
    · rfl
  · cases held

/-- The frames of the page-table pages. -/
theorem vastPages_tables {i : Fin 1024} {f : Nat} (held : vastPages.tables i = some f) : f = 2048 + i.val := by
  simp only [vastPages] at held
  split at held
  · exact (Option.some.inj held).symm
  · cases held

/-- A frame has one place. -/
theorem vast_places (f : Nat) : eightyFrames.freelist.count f + vastPages.refs f ≤ 1 ∧
    (1 ≤ eightyFrames.freelist.count f + vastPages.refs f → 2047 ≤ f ∧ f < 20080) := by
  have tables : occurrences vastPages.tables f ≤ 1 ∧ (1 ≤ occurrences vastPages.tables f → 2048 ≤ f ∧ f < 3072) := by
    refine ⟨occurrences_le_one fun i j first second => ?_, fun held => ?_⟩
    · have one := vastPages_tables first
      have two := vastPages_tables second
      exact Fin.ext (by omega)
    · by_contra outside
      rw [occurrences_absent fun i held => outside ?_] at held
      · cases held
      · have value := vastPages_tables held
        omega
  have pages : occurrences vastPages.owned f ≤ 1 ∧ (1 ≤ occurrences vastPages.owned f → 4096 ≤ f ∧ f < 12544) := by
    refine ⟨occurrences_le_one fun v w first second => ?_, fun held => ?_⟩
    · have one := vastPages_owned first
      have two := vastPages_owned second
      exact Fin.ext (by omega)
    · by_contra outside
      rw [occurrences_absent fun v held => outside ?_] at held
      · cases held
      · have value := vastPages_owned held
        omega
  have free : eightyFrames.freelist.count f ≤ 1 ∧ (1 ≤ eightyFrames.freelist.count f → 20000 ≤ f ∧ f < 20080) := by
    refine ⟨List.nodup_iff_count_le_one.mp List.nodup_range' f, fun held => ?_⟩
    have member : f ∈ List.range' 20000 80 := List.count_pos_iff.mp held
    rw [List.mem_range'_1] at member
    omega
  have root : one vastPages.root f ≤ 1 ∧ (1 ≤ one vastPages.root f → f = 2047) := by
    change (if 2047 = f then 1 else 0) ≤ 1 ∧ (1 ≤ (if 2047 = f then 1 else 0) → f = 2047)
    split <;> omega
  unfold PgDir.refs
  omega

theorem vast_single : Single vast.proc.pgdir.refs eightyFrames.store := fun f => (vast_places f).1

theorem vast_proper : Proper vast.proc.pgdir eightyFrames := by
  intro (f : Nat) placed
  obtain ⟨above, below⟩ := (vast_places f).2 placed
  refine decide_eq_true ?_
  change ¬ (KERNBASE + f * PGSIZE < KERNLINK + 0x2000 ∨ PHYSTOP ≤ f * PGSIZE)
  unfold KERNLINK KERNBASE EXTMEM PHYSTOP PGSIZE
  omega

/-- The caller runs the small program with one argument. -/
theorem exec_all_or_nothing_iff_vast :
    AllOrNothing vast (fun _ => some small) [0x2f, 0x6c, 0x73] [[0x6c, 0x73]] eightyFrames :=
  (exec_all_or_nothing_iff vastPages_tidy vast_single vast_proper (by decide) (by decide) (by decide)).mpr (by
    rintro _ ⟨⟩
    decide +kernel)

/-- An argument of 32.5 megabytes is pushed below the devices, where there is no page-table page. -/
theorem strays_long {arg : List (BitVec 8)} (length : arg.length = 0x2080000) :
    strays small.image [arg] eightyFrames = true := by
  have address : argAddress (stackTop 100) arg = 4260900860 := by
    unfold argAddress
    rw [length]
    decide
  refine strays_iff.mpr ⟨rfl, 100, by decide, by decide +kernel, ?_⟩
  rw [straying, if_neg (by decide), address, if_pos (by decide)]

/-- The caller has such an argument in its memory, and `exec` has no result. -/
theorem exec_long {arg : List (BitVec 8)} (length : arg.length = 0x2080000) :
    arg.length < vast.proc.sz ∧
      ¬ AllOrNothing vast (fun _ => some small) [0x2f, 0x6c, 0x73] [arg] eightyFrames := by
  have fetched : arg.length < vast.proc.sz := by
    rw [length]
    decide
  refine ⟨fetched, exec_strays (by decide) (fun f free => vast_proper f (Nat.le_add_right_of_le free)) ?_ rfl
    (strays_long length)⟩
  intro other member
  rw [List.mem_singleton.mp member]
  exact fetched.trans_le (by decide)

theorem exec_without_result :
    (Tidy vast.proc.pgdir ∧ Single vast.proc.pgdir.refs eightyFrames.store ∧ Proper vast.proc.pgdir eightyFrames ∧
      (List.replicate 0x2080000 (0x61 : BitVec 8)).length < vast.proc.sz) ∧
      ¬ AllOrNothing vast (fun _ => some small) [0x2f, 0x6c, 0x73] [List.replicate 0x2080000 0x61] eightyFrames := by
  obtain ⟨fetched, failed⟩ := exec_long (List.length_replicate (n := 0x2080000) (a := (0x61 : BitVec 8)))
  exact ⟨⟨vastPages_tidy, vast_single, vast_proper, fetched⟩, failed⟩

end P6

end Cs537.Vm
