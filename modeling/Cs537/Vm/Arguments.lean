import Cs537.Vm.Loading

/-!
# The arguments of a program

`exec` pushes the arguments on a stack of one page above a guard page. The stack pointer is
an unsigned word and is not compared with the bounds of the stack: `copyout` finds out, page
by page, whether it may write. It refuses the guard page and the pages of the kernel. But an
argument that is longer than the whole image takes the stack pointer below zero, to the top
of the address space, and if it is longer by 32 megabytes, below the devices: there is no
page-table page there, and `uva2ka` reads the entry without asking.
-/

namespace Cs537.Vm

open Occurrences Ledger

/-- The address to which an argument is pushed. -/
def argAddress (sp : Nat) (arg : List (BitVec 8)) : Nat := word (sp + 2 ^ 32 - (arg.length + 1)) / 4 * 4

/-- One of the arguments is pushed to an address between the kernel's memory and the devices, and those
before it fit into the stack. -/
def straying (sz : Nat) : List (List (BitVec 8)) → Nat → Nat → Bool
  | [], _, _ => false
  | arg :: rest, sp, argc =>
    if argc ≥ MAXARG then false
    else if KERNBASE + PHYSTOP ≤ argAddress sp arg ∧ argAddress sp arg < DEVSPACE then true
    else if sz - PGSIZE ≤ argAddress sp arg ∧ argAddress sp arg < sz then straying sz rest (argAddress sp arg) (argc + 1)
    else false

/-- A page table with a stack: the page below the uppermost one is closed to users, and no
other one. -/
structure Stacked (start : Kmem) (sz : Nat) (pd : PgDir) (km : Kmem) : Prop extends Building start sz pd km where
  aligned : PGSIZE ∣ sz
  room : 2 * PGSIZE ≤ sz
  opened : ∀ v : Vpn, v.addr < sz → ((pd.pte v).u = true ↔ v.addr ≠ sz - 2 * PGSIZE)
  covers : pd.Covers (upto kernelHalf 0 sz)

section

variable {start km km' : Kmem} {sz : Nat} {pd : PgDir}

namespace Stacked

theorem wrote (stacked : Stacked start sz pd km) (building : Building start sz pd km') : Stacked start sz pd km' :=
  ⟨building, stacked.aligned, stacked.room, stacked.opened, stacked.covers⟩

/-- `uva2ka` of a page below the size. -/
theorem uva2ka_below (stacked : Stacked start sz pd km) {a : Nat} (aligned : PGSIZE ∣ a) (below : a < sz) :
    uva2ka .p6 pd a = .ok (if a = sz - 2 * PGSIZE then none else some (pd.pte (vpn a)).ppn) := by
  have bounded := stacked.bounded
  have page : (vpn a).addr = a := vpn_addr (by unfold KERNBASE at bounded; omega) aligned
  obtain ⟨low, mapped⟩ := stacked.toBuilding.mapped (v := vpn a) (by omega)
  have walked : pd.walk (vpn a) = some (pd.pte (vpn a)) := PgDir.walk_some.mpr ⟨stacked.tidy.table mapped, rfl⟩
  have user := stacked.opened (vpn a) (by omega)
  rw [page] at user
  unfold uva2ka
  rw [walked]
  by_cases guard : a = sz - 2 * PGSIZE
  · have closed : (pd.pte (vpn a)).u = false := Bool.eq_false_iff.mpr fun opened => user.mp opened guard
    rw [if_pos guard]
    simp [closed]
  · simp [mapped, user.mpr guard, guard]

/-- `uva2ka` of an address of the kernel's half. -/
theorem uva2ka_above (stacked : Stacked start sz pd km) {a : Nat} (high : KERNBASE ≤ a) (small : a < 2 ^ 32) :
    uva2ka .p6 pd a = if KERNBASE + PHYSTOP ≤ a ∧ a < DEVSPACE then .error .nullEntry else .ok none := by
  have bounded := stacked.bounded
  obtain ⟨first, last⟩ := pdx_bounds small
  have table : pd.tables (vpn a).pdx ≠ none ↔ ¬ (KERNBASE + PHYSTOP ≤ a ∧ a < DEVSPACE) := by
    rw [stacked.covers]
    simp only [kernelHalf, kernelMemory, upto, false_or]
    unfold KERNBASE PHYSTOP DEVSPACE at *
    omega
  have upper : ¬ (vpn a).user := by
    unfold Vpn.user
    rw [vpn_val small]
    unfold KERNBASE at high
    unfold PGSIZE
    omega
  unfold uva2ka
  split
  · rename_i missing
    rw [if_pos (Decidable.not_not.mp fun no => table.mpr no (PgDir.walk_none.mp missing))]
  · rename_i x walked
    obtain ⟨present, rfl⟩ := PgDir.walk_some.mp walked
    rw [if_neg (table.mp present), (stacked.tidy.kernel _ upper).1]
    simp

/-! ### `copyout` -/

/-- One turn of the loop of `copyout`. -/
theorem copyout_turn (km : Kmem) (fuel : Nat) {va : Nat} {bytes : List (BitVec 8)} (nonempty : bytes ≠ []) {f : Frame}
    (found : uva2ka .p6 pd (PGROUNDDOWN va) = .ok (some f)) :
    ∃ page, Vm.copyout .p6 pd (fuel + 1) va bytes km =
      Vm.copyout .p6 pd fuel (word (PGROUNDDOWN va + PGSIZE)) (bytes.drop (min (PGSIZE - va % PGSIZE) bytes.length))
        (km.write f page) := by
  rw [Vm.copyout, if_neg nonempty, found]
  exact ⟨_, rfl⟩

/-- What lies in the stack is copied. -/
theorem copyout_fits (stacked : Stacked start sz pd km) (fuel : Nat) {va : Nat} {bytes : List (BitVec 8)}
    (above : sz - PGSIZE ≤ va) (below : va + bytes.length ≤ sz) (nonempty : bytes ≠ []) :
    ∃ km', Vm.copyout .p6 pd (fuel + 2) va bytes km = .ok (true, km') := by
  have bounded := stacked.bounded
  have room := stacked.room
  have length : 0 < bytes.length := List.length_pos_iff.mpr nonempty
  have page : PGROUNDDOWN va = sz - PGSIZE := by
    obtain ⟨k, rfl⟩ := stacked.aligned
    unfold PGROUNDDOWN
    unfold PGSIZE at *
    omega
  have found := stacked.uva2ka_below (a := sz - PGSIZE) (Nat.dvd_sub stacked.aligned (dvd_refl _))
    (by unfold PGSIZE at *; omega)
  rw [if_neg (by unfold PGSIZE at *; omega), ← page] at found
  obtain ⟨bytes', turned⟩ := copyout_turn km (fuel + 1) nonempty found
  have all : min (PGSIZE - va % PGSIZE) bytes.length = bytes.length := by
    refine min_eq_right ?_
    obtain ⟨k, rfl⟩ := stacked.aligned
    unfold PGSIZE at *
    omega
  refine ⟨km.write (pd.pte (vpn (PGROUNDDOWN va))).ppn bytes', ?_⟩
  rw [turned, all, List.drop_length, Vm.copyout, if_pos rfl]

/-- What reaches into the guard page is refused. -/
theorem copyout_guard (stacked : Stacked start sz pd km) {fuel va : Nat} {bytes : List (BitVec 8)}
    (below : va < sz - PGSIZE) (reaching : sz - 2 * PGSIZE < va + bytes.length) (nonempty : bytes ≠ [])
    (enough : bytes.length < fuel) : ∃ km', Vm.copyout .p6 pd fuel va bytes km = .ok (false, km') := by
  have room := stacked.room
  have bounded := stacked.bounded
  induction fuel generalizing va bytes km with
  | zero => exact absurd enough (Nat.not_lt_zero _)
  | succ fuel inductionHypothesis =>
    have aligned : PGSIZE ∣ PGROUNDDOWN va := Nat.dvd_mul_left _ _
    have found := stacked.uva2ka_below aligned (by unfold PGROUNDDOWN; unfold PGSIZE at *; omega)
    by_cases guard : PGROUNDDOWN va = sz - 2 * PGSIZE
    · rw [if_pos guard] at found
      refine ⟨km, ?_⟩
      rw [Vm.copyout, if_neg nonempty, found]
      rfl
    · rw [if_neg guard] at found
      obtain ⟨page, turned⟩ := copyout_turn km fuel nonempty found
      rw [turned]
      -- the copy goes on at the next page, which is not above the guard page
      have next : PGROUNDDOWN va + PGSIZE ≤ sz - 2 * PGSIZE := by
        obtain ⟨k, rfl⟩ := stacked.aligned
        unfold PGROUNDDOWN at *
        unfold PGSIZE at *
        omega
      have copied : min (PGSIZE - va % PGSIZE) bytes.length = PGSIZE - va % PGSIZE := by
        refine min_eq_left ?_
        unfold PGROUNDDOWN at *
        unfold PGSIZE at *
        omega
      have small : PGROUNDDOWN va + PGSIZE < 2 ^ 32 := by
        unfold KERNBASE at bounded
        omega
      have left : (bytes.drop (PGSIZE - va % PGSIZE)).length = bytes.length - (PGSIZE - va % PGSIZE) :=
        List.length_drop
      have progress : va + bytes.length = PGROUNDDOWN va + PGSIZE + (bytes.length - (PGSIZE - va % PGSIZE)) ∧
          bytes.length - (PGSIZE - va % PGSIZE) < bytes.length := by
        unfold PGROUNDDOWN at *
        unfold PGSIZE at *
        omega
      rw [copied, word_small small]
      have opened := uva2ka_some found
      refine inductionHypothesis
        (stacked.wrote (stacked.toBuilding.write (stacked.tidy.low opened.1.2) opened.1.1 page)) ?_ ?_ ?_ ?_
      · unfold PGSIZE at *
        omega
      · rw [left]
        omega
      · rw [← List.length_pos_iff, left]
        omega
      · rw [left]
        omega

/-- In the kernel's half nothing is copied. -/
theorem copyout_above (stacked : Stacked start sz pd km) {fuel va : Nat} {bytes : List (BitVec 8)}
    (high : KERNBASE ≤ va) (small : va < 2 ^ 32) (nonempty : bytes ≠ []) :
    Vm.copyout .p6 pd (fuel + 1) va bytes km =
      if KERNBASE + PHYSTOP ≤ va ∧ va < DEVSPACE then .error .nullEntry else .ok (false, km) := by
  have page : (KERNBASE ≤ PGROUNDDOWN va ∧ PGROUNDDOWN va < 2 ^ 32) ∧
      (KERNBASE + PHYSTOP ≤ PGROUNDDOWN va ∧ PGROUNDDOWN va < DEVSPACE ↔ KERNBASE + PHYSTOP ≤ va ∧ va < DEVSPACE) := by
    unfold PGROUNDDOWN
    unfold PGSIZE KERNBASE PHYSTOP DEVSPACE at *
    omega
  have found := stacked.uva2ka_above page.1.1 page.1.2
  rw [Vm.copyout, if_neg nonempty, found]
  simp only [page.2]
  split <;> rfl

/-! ### The loop over the arguments -/

/-- Where an argument goes: right below the stack pointer, or to the kernel's half. -/
theorem argAddress_cases {sp : Nat} {arg : List (BitVec 8)} (bounded : sz ≤ KERNBASE) (below : sp ≤ sz)
    (fetched : arg.length < KERNBASE) :
    argAddress sp arg + (arg.length + 1) ≤ sp ∧ sp < argAddress sp arg + (arg.length + 1) + 4 ∨
      KERNBASE ≤ argAddress sp arg ∧ argAddress sp arg < 2 ^ 32 := by
  unfold argAddress word
  unfold KERNBASE at *
  omega

/-- What the loop over the arguments returns keeps the stack pointer in the stack. -/
def Pushed (sz : Nat) (made : Option (Nat × List Nat)) : Prop :=
  ∀ sp args, made = some (sp, args) → sz - PGSIZE ≤ sp ∧ sp ≤ sz ∧ args.length ≤ MAXARG

theorem pushed_none (sz : Nat) : Pushed sz none := fun _ _ no => by cases no

/-- The loop over the arguments returns, unless one of them strays. -/
theorem pushArgs_returns (stacked : Stacked start sz pd km) {argv : List (List (BitVec 8))}
    (fetched : ∀ arg ∈ argv, arg.length < KERNBASE) {sp : Nat} {pushed : List Nat} (above : sz - PGSIZE ≤ sp)
    (below : sp ≤ sz) (few : pushed.length ≤ MAXARG) :
    (straying sz argv sp pushed.length = true → Vm.pushArgs .p6 pd argv sp pushed km = .error .nullEntry) ∧
    (straying sz argv sp pushed.length = false →
      ∃ made km', Vm.pushArgs .p6 pd argv sp pushed km = .ok (made, km') ∧ Pushed sz made) := by
  have bounded := stacked.bounded
  have room := stacked.room
  induction argv generalizing sp pushed km with
  | nil =>
    refine ⟨fun no => (by cases no), fun _ => ⟨some (sp, pushed), km, rfl, ?_⟩⟩
    rintro _ _ ⟨⟩
    exact ⟨above, below, few⟩
  | cons arg rest inductionHypothesis =>
    have filled : arg ++ [0] ≠ [] := by simp
    have length : (arg ++ [0]).length = arg.length + 1 := by simp
    by_cases many : pushed.length ≥ MAXARG
    · rw [straying, if_pos many, Vm.pushArgs, if_pos many]
      exact ⟨fun no => (by cases no), fun _ => ⟨none, km, rfl, pushed_none sz⟩⟩
    · have pushing : Vm.pushArgs .p6 pd (arg :: rest) sp pushed km =
          Vm.copyout .p6 pd (arg.length + 2) (argAddress sp arg) (arg ++ [0]) km >>= fun made =>
            if made.1 then Vm.pushArgs .p6 pd rest (argAddress sp arg) (pushed ++ [argAddress sp arg]) made.2
            else .ok (none, made.2) := by
        rw [Vm.pushArgs, if_neg many]
        rfl
      rw [straying, if_neg many, pushing]
      obtain ⟨under, close⟩ | ⟨high, small⟩ := argAddress_cases bounded below (fetched arg List.mem_cons_self)
      · have low : ¬ (KERNBASE + PHYSTOP ≤ argAddress sp arg ∧ argAddress sp arg < DEVSPACE) := by omega
        rw [if_neg low]
        obtain short | fits := Nat.lt_or_ge (argAddress sp arg) (sz - PGSIZE)
        · have four : 4 ≤ PGSIZE := by decide
          obtain ⟨km', refused⟩ := stacked.copyout_guard short (by omega) filled (length.trans_lt (Nat.lt_succ_self _))
          rw [if_neg fun inside => Nat.not_le.mpr short inside.1, refused]
          exact ⟨fun no => (by cases no), fun _ => ⟨none, km', rfl, pushed_none sz⟩⟩
        · obtain ⟨km', copied⟩ := stacked.copyout_fits arg.length fits (by omega) filled
          have rest' := @inductionHypothesis km' (stacked.wrote (stacked.toBuilding.copyout copied))
            (fun arg member => fetched arg (List.mem_cons_of_mem _ member)) (argAddress sp arg)
            (pushed ++ [argAddress sp arg]) fits (by omega)
            (by simp only [List.length_append, List.length_singleton]; omega)
          rw [List.length_append, List.length_singleton] at rest'
          rw [if_pos ⟨fits, by omega⟩, copied]
          exact rest'
      · rw [stacked.copyout_above high small filled]
        by_cases hole : KERNBASE + PHYSTOP ≤ argAddress sp arg ∧ argAddress sp arg < DEVSPACE
        · rw [if_pos hole, if_pos hole]
          exact ⟨fun _ => rfl, fun no => (by cases no)⟩
        · have outside : ¬ (sz - PGSIZE ≤ argAddress sp arg ∧ argAddress sp arg < sz) := by omega
          rw [if_neg hole, if_neg hole, if_neg outside]
          exact ⟨fun no => (by cases no), fun _ => ⟨none, km, rfl, pushed_none sz⟩⟩

end Stacked

/-! ## The stack -/

/-- Only whole pages count. -/
theorem Loading.whole (loading : Loading start sz pd km) : Loading start (PGROUNDUP sz) pd km := by
  obtain ⟨above, near⟩ := le_PGROUNDUP loading.bounded
  have aligned := PGROUNDUP_aligned sz
  have same := addr_lt_iff aligned above near
  have bounded : PGROUNDUP sz ≤ KERNBASE := by
    have small := loading.bounded
    unfold PGSIZE KERNBASE at *
    omega
  refine ⟨loading.toBuilding.resize bounded same, fun v below => loading.opened v ((same v).mp below),
    loading.covers.congr fun i => (upto_whole aligned above near i).symm, ?_⟩
  rw [framesBelow_whole aligned above near]
  exact loading.draws

/-- `clearpteu` makes the guard page. -/
theorem Loading.clearpteu (loading : Loading start sz pd km) (aligned : PGSIZE ∣ sz) (room : 2 * PGSIZE ≤ sz) :
    ∃ pd', Vm.clearpteu pd (sz - 2 * PGSIZE) = .ok pd' ∧ Stacked start sz pd' km := by
  have bounded := loading.bounded
  have page : (vpn (sz - 2 * PGSIZE)).addr = sz - 2 * PGSIZE :=
    vpn_addr (by unfold KERNBASE at bounded; omega) (Nat.dvd_sub aligned (Nat.dvd_mul_left _ _))
  have below : (vpn (sz - 2 * PGSIZE)).addr < sz := by
    unfold PGSIZE at *
    omega
  obtain ⟨low, mapped⟩ := loading.toBuilding.mapped below
  have table := loading.tidy.table mapped
  have result : Vm.clearpteu pd (sz - 2 * PGSIZE) =
      .ok (pd.set (vpn (sz - 2 * PGSIZE)) { pd.pte (vpn (sz - 2 * PGSIZE)) with u := false }) := by
    unfold Vm.clearpteu
    rw [PgDir.walk_some.mpr ⟨table, rfl⟩]
  refine ⟨_, result, loading.toBuilding.clearpteu below result, aligned, room, fun v inside => ?_, loading.covers⟩
  rw [PgDir.set_pte]
  split
  · rename_i same
    rw [same, page]
    simp
  · rename_i different
    have apart : v.addr ≠ sz - 2 * PGSIZE := fun same => different (addr_inj (same.trans page.symm))
    exact iff_of_true (loading.opened v inside) apart

/-- The words of the initial frame. -/
theorem length_flatMap_wordBytes (words : List Nat) : (words.flatMap wordBytes).length = 4 * words.length := by
  induction words with
  | nil => rfl
  | cons first rest inductionHypothesis =>
    have four : (wordBytes first).length = 4 := by simp [wordBytes]
    rw [List.flatMap_cons, List.length_append, inductionHypothesis, four, List.length_cons]
    omega

/-- The initial frame is copied below the arguments, or reaches into the guard page. -/
theorem Stacked.copyout_frame (stacked : Stacked start sz pd km) {sp : Nat} (words : List Nat)
    (above : sz - PGSIZE ≤ sp) (below : sp ≤ sz) (nonempty : 0 < words.length) (few : words.length ≤ 36) :
    ∃ copied km', Vm.copyout .p6 pd (4 * words.length + 1) (word (sp + 2 ^ 32 - words.length * 4))
      (words.flatMap wordBytes) km = .ok (copied, km') := by
  have room := stacked.room
  have bounded := stacked.bounded
  have length := length_flatMap_wordBytes words
  have filled : words.flatMap wordBytes ≠ [] := by
    rw [← List.length_pos_iff, length]
    omega
  have address : word (sp + 2 ^ 32 - words.length * 4) = sp - 4 * words.length := by
    unfold word
    unfold PGSIZE KERNBASE at *
    omega
  rw [address]
  obtain low | fits := Nat.lt_or_ge (sp - 4 * words.length) (sz - PGSIZE)
  · obtain ⟨km', refused⟩ := @Stacked.copyout_guard start km sz pd stacked (4 * words.length + 1) _ _ low
      (by unfold PGSIZE at *; omega) filled (by omega)
    exact ⟨false, km', refused⟩
  · obtain ⟨km', copied⟩ := stacked.copyout_fits (4 * words.length - 1) fits (by unfold PGSIZE at *; omega) filled
    have fuel : 4 * words.length - 1 + 2 = 4 * words.length + 1 := by omega
    rw [fuel] at copied
    exact ⟨true, km', copied⟩

/-- The size of an image with its stack. -/
def stackTop (sz : Nat) : Nat := PGROUNDUP sz + 2 * PGSIZE

/-- The stack of `exec` can be allocated. -/
def Affords (start : Kmem) (sz : Nat) : Prop :=
  stackTop sz < KERNBASE ∧ start.grants (65 + framesBelow (stackTop sz)) = true

instance (start : Kmem) (sz : Nat) : Decidable (Affords start sz) := inferInstanceAs (Decidable (_ ∧ _))

/-- The pages of the stack are allocated, or there is a jump to `bad`. -/
theorem Loading.allocateStack (loading : Loading start sz pd km)
    (proper : ∀ f, 1 ≤ start.freelist.count f → start.accepts f = true) :
    ∃ size pd' km', Vm.allocuvm .p6 pd (PGROUNDUP sz) (word (PGROUNDUP sz + 2 * PGSIZE)) km = .ok (size, pd', km') ∧
      (Affords start sz → size = stackTop sz ∧ Loading start size pd' km') ∧ (¬ Affords start sz → size = 0) := by
  have whole := loading.whole
  have next : word (PGROUNDUP sz + 2 * PGSIZE) = stackTop sz := by
    have bounded := whole.bounded
    unfold stackTop
    refine word_small ?_
    unfold PGSIZE KERNBASE at *
    omega
  have larger : max (PGROUNDUP sz) (stackTop sz) = stackTop sz := max_eq_right (Nat.le_add_right _ _)
  rw [next]
  obtain ⟨size, pd', km', called, same, built⟩ := whole.allocuvm proper (stackTop sz)
  rw [larger] at same
  refine ⟨size, pd', km', called, fun affords => ?_, fun refused => same.trans (if_neg refused)⟩
  have size' : size = stackTop sz := same.trans (if_pos affords)
  refine ⟨size', built ?_⟩
  rw [size']
  unfold stackTop PGSIZE
  omega

/-- The stack of `exec` is made or refused, unless an argument strays. -/
theorem Loading.initialStack (loading : Loading start sz pd km)
    (proper : ∀ f, 1 ≤ start.freelist.count f → start.accepts f = true) {argv : List (List (BitVec 8))}
    (fetched : ∀ arg ∈ argv, arg.length < KERNBASE) :
    (Affords start sz ∧ straying (stackTop sz) argv (stackTop sz) 0 = true →
      P6.initialStack argv sz pd km = .error .nullEntry) ∧
    (¬ (Affords start sz ∧ straying (stackTop sz) argv (stackTop sz) 0 = true) →
      ∃ made pd' km', P6.initialStack argv sz pd km = .ok (made, pd', km') ∧
        ∀ size sp, made = some (size, sp) → Stacked start size pd' km') := by
  obtain ⟨size, grown, between, called, granted, refused⟩ := loading.allocateStack proper
  have failed : ∀ pd' km' size sp, (none : Option (Nat × Nat)) = some (size, sp) → Stacked start size pd' km' :=
    fun _ _ _ _ no => by cases no
  unfold P6.initialStack
  simp only [called]
  by_cases affords : Affords start sz
  · obtain ⟨rfl, extended⟩ := granted affords
    have aligned : PGSIZE ∣ stackTop sz := Nat.dvd_add (PGROUNDUP_aligned sz) (Nat.dvd_mul_left _ _)
    have room : 2 * PGSIZE ≤ stackTop sz := Nat.le_add_left _ _
    have nonzero : stackTop sz ≠ 0 := by
      unfold PGSIZE at room
      omega
    obtain ⟨guarded, cleared, stacked⟩ := extended.clearpteu aligned room
    obtain ⟨strayed, returned⟩ := @Stacked.pushArgs_returns start between (stackTop sz) guarded stacked argv fetched
      (stackTop sz) [] (Nat.sub_le _ _) le_rfl (Nat.zero_le _)
    simp only [bind, Except.bind, if_neg nonzero, cleared]
    constructor
    · intro both
      rw [strayed both.2]
    · intro tame
      obtain ⟨pushed, later, pushing, bounds⟩ := returned (by simpa [affords] using tame)
      have filled := stacked.wrote (stacked.toBuilding.pushArgs pushing)
      simp only [pushing]
      cases pushed with
      | none => exact ⟨none, guarded, later, rfl, failed guarded later⟩
      | some arguments =>
        obtain ⟨sp, args⟩ := arguments
        obtain ⟨above, below, few⟩ := bounds sp args rfl
        have frame := fun words : List Nat => filled.copyout_frame words above below
        have words : ([0xffffffff, args.length, word (sp + 2 ^ 32 - (args.length + 1) * 4)] ++ args ++ [0]).length =
            3 + args.length + 1 := by
          simp only [List.length_append, List.length_cons, List.length_nil]
        obtain ⟨copied, last, copying⟩ := frame _ (by rw [words]; omega) (by rw [words]; unfold MAXARG at few; omega)
        rw [words] at copying
        simp only [words, copying]
        cases copied with
        | true =>
          refine ⟨_, guarded, last, rfl, ?_⟩
          rintro _ _ ⟨⟩
          exact filled.wrote (filled.toBuilding.copyout copying)
        | false => exact ⟨none, guarded, last, rfl, failed guarded last⟩
  · refine ⟨fun both => absurd both.1 affords, fun _ => ⟨none, grown, between, ?_, failed grown between⟩⟩
    refine bind_ok.mpr ⟨_, rfl, ?_⟩
    rw [if_pos (refused affords)]
    rfl

end

end Cs537.Vm
