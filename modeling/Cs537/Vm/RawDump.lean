import Cs537.Vm.FaultHandler
import Cs537.Vm.StoredWords
import Cs537.Vm.WorkingSet

/-!
# The raw dump of a frame

`dump_rawphymem` copies the bytes of a frame into a buffer of the process. `copyout` writes through
the frames of the buffer's pages and leaves their entries as they are, so that what it writes into an
encrypted page is complemented when the program reads it. p6 therefore touches the first byte of
the buffer before it copies, which decrypts the first page. A buffer may lie in two pages.
-/

namespace Cs537.Vm

open Ledger Runs

/-! ## What `copyout` writes -/

section Copyout

variable {ver : Version} {pd : PgDir} {fuel va : Nat} {bytes : List (BitVec 8)} {km km' : Kmem}

/-- The bytes are in the frames of the pages at the addresses from `va` on, and nothing else has
changed. -/
structure Wrote (pd : PgDir) (va : Nat) (bytes : List (BitVec 8)) (km km' : Kmem) : Prop where
  opened : ∀ j < bytes.length, pd.opens (vpn (va + j))
  copied : ∀ j < bytes.length, km'.mem (pd.pte (vpn (va + j))).ppn (offset (va + j)) = bytes.getD j 0
  others : ∀ f, (∀ j < bytes.length, (pd.pte (vpn (va + j))).ppn ≠ f) → km'.mem f = km.mem f
  kept : km' = { km with mem := km'.mem }

/-- The addresses that a turn of the loop writes to lie in one page, and the next turn begins in
the page after it. -/
theorem turn_bounds (low : va + bytes.length ≤ KERNBASE) (nonempty : bytes ≠ []) :
    0 < min (PGSIZE - va % PGSIZE) bytes.length ∧ word (PGROUNDDOWN va + PGSIZE) = PGROUNDDOWN va + PGSIZE ∧
      (∀ j < min (PGSIZE - va % PGSIZE) bytes.length, vpn (va + j) = vpn va) ∧
      ∀ j, min (PGSIZE - va % PGSIZE) bytes.length ≤ j → j < bytes.length →
        va + j = PGROUNDDOWN va + PGSIZE + (j - min (PGSIZE - va % PGSIZE) bytes.length) ∧
          vpn (va + j) ≠ vpn va := by
  have length : 0 < bytes.length := List.length_pos_iff.mpr nonempty
  have small : va + bytes.length < 2 ^ 32 := low.trans_lt (by decide)
  have page : (vpn va).val = va / PGSIZE := vpn_val (by omega)
  refine ⟨?_, word_small ?_, fun j below => Fin.ext ?_, fun j above below => ⟨?_, fun same => ?_⟩⟩
  · unfold PGSIZE
    omega
  · unfold PGROUNDDOWN PGSIZE
    unfold KERNBASE at low
    omega
  · rw [page, vpn_val (by omega)]
    unfold PGSIZE at *
    omega
  · unfold PGROUNDDOWN PGSIZE at *
    omega
  · have number := congrArg Fin.val same
    rw [page, vpn_val (by omega)] at number
    unfold PGSIZE at *
    omega

/-- The bytes of a turn stay when the turns after it write to other pages. -/
theorem Wrote.turn {n : Nat} (tidy : Tidy pd) (single : ∀ f, pd.refs f ≤ 1) (here : pd.opens (vpn va))
    (positive : 0 < n) (short : n ≤ bytes.length) (within : n ≤ PGSIZE - va % PGSIZE)
    (first : ∀ j < n, vpn (va + j) = vpn va)
    (rest : ∀ j, n ≤ j → j < bytes.length →
      va + j = PGROUNDDOWN va + PGSIZE + (j - n) ∧ vpn (va + j) ≠ vpn va)
    (wrote : Wrote pd (PGROUNDDOWN va + PGSIZE) (bytes.drop n) (km.write (pd.pte (vpn va)).ppn fun o =>
      if va % PGSIZE ≤ o.val ∧ o.val < va % PGSIZE + n then bytes.getD (o.val - va % PGSIZE) 0
      else km.mem (pd.pte (vpn va)).ppn o) km') : Wrote pd va bytes km km' := by
  have dropped : (bytes.drop n).length = bytes.length - n := List.length_drop
  have later : ∀ j, j < (bytes.drop n).length →
      va + (j + n) = PGROUNDDOWN va + PGSIZE + j ∧ vpn (va + (j + n)) ≠ vpn va := by
    intro j below
    have moved := rest (j + n) (by omega) (by omega)
    rwa [Nat.add_sub_cancel] at moved
  have opened : ∀ j < bytes.length, pd.opens (vpn (va + j)) := by
    intro j below
    by_cases early : j < n
    · rw [first j early]
      exact here
    · rw [(rest j (by omega) below).1]
      exact wrote.opened _ (by omega)
  have apart : ∀ j < (bytes.drop n).length,
      (pd.pte (vpn (PGROUNDDOWN va + PGSIZE + j))).ppn ≠ (pd.pte (vpn va)).ppn := by
    intro j below same
    have there := wrote.opened j below
    refine (later j below).2 ?_
    rw [(later j below).1]
    exact refs_unique single (tidy.low there.2) there.1 (tidy.low here.2) here.1 same
  refine ⟨opened, fun j below => ?_, fun f other => ?_, ?_⟩
  · by_cases early : j < n
    · rw [first j early, wrote.others _ apart, Kmem.write_mem_self]
      have place : (offset (va + j)).val = va % PGSIZE + j := by
        simp only [offset, Fin.ofNat, PGSIZE] at *
        omega
      rw [if_pos (by omega), place, Nat.add_sub_cancel_left]
    · have moved := (rest j (by omega) below).1
      have copied := wrote.copied (j - n) (by omega)
      rw [moved, copied, List.getD_eq_getElem?_getD, List.getD_eq_getElem?_getD, List.getElem?_drop,
        Nat.add_sub_cancel' (by omega)]
  · have outside : (pd.pte (vpn va)).ppn ≠ f := by
      have start := other 0 (by omega)
      rwa [Nat.add_zero] at start
    rw [wrote.others f fun j below => ?_, Kmem.write_mem_other _ _ outside.symm]
    rw [← (later j below).1]
    exact other _ (by omega)
  · rw [wrote.kept]
    rfl

/-- `copyout` that succeeds has written its bytes. -/
theorem copyout_wrote (tidy : Tidy pd) (single : ∀ f, pd.refs f ≤ 1) (low : va + bytes.length ≤ KERNBASE)
    (enough : bytes.length < fuel) (result : copyout ver pd fuel va bytes km = .ok (true, km')) :
    Wrote pd va bytes km km' := by
  induction fuel generalizing va bytes km with
  | zero => exact absurd enough (Nat.not_lt_zero _)
  | succ fuel inductionHypothesis =>
    unfold copyout at result
    split at result
    · rename_i empty
      obtain rfl : km = km' := by simpa using result
      rw [empty]
      exact ⟨fun _ below => absurd below (Nat.not_lt_zero _), fun _ below => absurd below (Nat.not_lt_zero _),
        fun _ _ => rfl, rfl⟩
    · rename_i nonempty
      obtain ⟨frame, found, continued⟩ := bind_ok.mp result
      cases frame with
      | none => simp [pure, Except.pure] at continued
      | some f =>
        obtain ⟨here, rfl⟩ := uva2ka_some found
        rw [vpn_PGROUNDDOWN] at here continued
        simp only at continued
        obtain ⟨positive, next, first, rest⟩ := turn_bounds low nonempty
        rw [next] at continued
        generalize turn : min (PGSIZE - va % PGSIZE) bytes.length = n at positive first rest continued
        have short : n ≤ bytes.length := turn ▸ min_le_right _ _
        have dropped : (bytes.drop n).length = bytes.length - n := List.length_drop
        have later : PGROUNDDOWN va + PGSIZE + (bytes.drop n).length ≤ KERNBASE := by
          unfold PGROUNDDOWN PGSIZE KERNBASE at *
          omega
        have within : n ≤ PGSIZE - va % PGSIZE := turn ▸ min_le_left _ _
        exact (inductionHypothesis later (by omega) continued).turn tidy single here positive short within first rest

/-- `copyout` to open pages succeeds. -/
theorem copyout_opened (ver : Version) (bytes : List (BitVec 8)) (km : Kmem) (fuel : Nat) (tidy : Tidy pd)
    (exclusive : ∀ v, (pd.pte v).mapped = true → (pd.pte v).p ≠ (pd.pte v).e)
    (low : va + bytes.length ≤ KERNBASE) (opened : ∀ j < bytes.length, pd.opens (vpn (va + j))) :
    ∃ km', copyout ver pd fuel va bytes km = .ok (true, km') := by
  induction fuel generalizing va bytes km with
  | zero => exact ⟨km, rfl⟩
  | succ fuel inductionHypothesis =>
    by_cases empty : bytes = []
    · exact ⟨km, by rw [copyout, if_pos empty]⟩
    · obtain ⟨positive, next, first, rest⟩ := turn_bounds low empty
      have here := opened 0 (List.length_pos_iff.mpr empty)
      rw [Nat.add_zero] at here
      have found : uva2ka ver pd (PGROUNDDOWN va) = .ok (some (pd.pte (vpn va)).ppn) := by
        have walked : pd.walk (vpn va) = some (pd.pte (vpn va)) :=
          PgDir.walk_some.mpr ⟨tidy.table here.1, rfl⟩
        have single : ¬ ((pd.pte (vpn va)).p = true ∧ (pd.pte (vpn va)).e = true) := by
          rintro ⟨present, sealed⟩
          exact exclusive _ here.1 (present.trans sealed.symm)
        rw [uva2ka, vpn_PGROUNDDOWN, walked]
        simp only [here.1, here.2, Bool.not_true, Bool.or_self, Bool.false_eq_true, if_false]
        rw [if_neg fun refused => single refused.2]
      rw [copyout, if_neg empty, found, next]
      have dropped : ∀ n, (bytes.drop n).length = bytes.length - n := fun n => List.length_drop
      refine inductionHypothesis _ _ ?_ fun j below => ?_
      · rw [dropped]
        unfold PGROUNDDOWN PGSIZE KERNBASE at *
        omega
      · rw [dropped] at below
        have moved := rest (j + min (PGSIZE - va % PGSIZE) bytes.length) (by omega) (by omega)
        rw [Nat.add_sub_cancel] at moved
        rw [← moved.1]
        exact opened _ (by omega)

end Copyout

/-! ## `dump_rawphymem` -/

/-- `*buffer = *buffer`: the byte is read and written back, with as many page faults as there are
retries. -/
def touch (ver : Version) (buffer : Nat) : Nat → Proc → Kmem → Result (Proc × Kmem)
  | 0, p, km =>
    if Reporting.writable p.pgdir (vpn buffer) then .ok ({ p with pgdir := p.pgdir.mark (vpn buffer) }, km)
    else .error .spin
  | retries + 1, p, km =>
    if Reporting.writable p.pgdir (vpn buffer) then .ok ({ p with pgdir := p.pgdir.mark (vpn buffer) }, km)
    else do
      let (handled, p, km) ← ver.handleFault p buffer km
      if handled then touch ver buffer retries p km else .error (.panic "trap")

/-- `dump_rawphymem` of p5. -/
def P5.dump_rawphymem (p : Proc) (physicalAddr buffer : Nat) (km : Kmem) : Result (Bool × Proc × Kmem) := do
  let (copied, km) ← copyout .p5 p.pgdir (PGSIZE + 1) buffer (List.ofFn (km.mem (physicalAddr / PGSIZE))) km
  return (copied, p, km)

/-- `dump_rawphymem` of p6. -/
def P6.dump_rawphymem (retries : Nat) (p : Proc) (physicalAddr buffer : Nat) (km : Kmem) :
    Result (Bool × Proc × Kmem) := do
  let (p, km) ← touch .p6 buffer retries p km
  let (copied, km) ← copyout .p6 p.pgdir (PGSIZE + 1) buffer (List.ofFn (km.mem (physicalAddr / PGSIZE))) km
  return (copied, p, km)

/-- `sys_dump_rawphymem` with its arguments: whether it returns 0, and the state after it. -/
def sys_dump_rawphymem (ver : Version) (retries : Nat) (p : Proc) (physicalAddr buffer : Nat) (km : Kmem) :
    Result (Bool × Proc × Kmem) :=
  if buffer ≥ p.sz ∨ word (buffer + PGSIZE) > p.sz then .ok (false, p, km)
  else
    match ver with
    | .p5 => P5.dump_rawphymem p physicalAddr buffer km
    | .p6 => P6.dump_rawphymem retries p physicalAddr buffer km

/-! ## What touching a page encrypts -/

namespace P6

/-- The loop of `wsetinsert` on accessed flags alone: the address of the page that it encrypts. -/
def victimFrom (queue : Fin 8 → Nat) : Nat → Option (Fin 8) → (Vpn → Bool) → Option Nat
  | 0, _, _ => none
  | fuel + 1, clockhand, accessed =>
    let hand := nextHand clockhand
    if queue hand = NOPAGE then none
    else if accessed (vpn (queue hand)) then
      victimFrom queue fuel (some hand) (Function.update accessed (vpn (queue hand)) false)
    else some (queue hand)

/-- The address of the page that is encrypted when a page is decrypted at a page fault. -/
def victim (p : Proc) (v : Vpn) : Option Nat :=
  victimFrom p.clockqueue 9 p.clockhand (Function.update (fun w => (p.pgdir.pte w).a) v true)

section Victim

variable {p p' : Proc} {va fuel a : Nat} {km km' : Kmem} {v : Vpn} {queue : Fin 8 → Nat} {hand : Option (Fin 8)}
  {accessed : Vpn → Bool}

/-- The page is in the queue. -/
theorem victimFrom_listed (found : victimFrom queue fuel hand accessed = some a) :
    Listed queue a ∧ a ≠ NOPAGE := by
  induction fuel generalizing hand accessed with
  | zero => cases found
  | succ fuel inductionHypothesis =>
    unfold victimFrom at found
    simp only at found
    split at found
    · cases found
    · rename_i filled
      split at found
      · exact inductionHypothesis found
      · obtain rfl := Option.some.inj found
        exact ⟨⟨_, rfl⟩, filled⟩

/-- `mencrypt` of one page that succeeds encrypts it and leaves the others alone. -/
theorem mencrypt_one {pd pd' : PgDir} (table : pd.tables (vpn va).pdx ≠ none)
    (result : mencrypt pd va 1 km = .ok (true, pd', km')) :
    (pd'.pte (vpn va)).e = true ∧ ∀ v, v ≠ vpn va → pd'.pte v = pd.pte v := by
  by_cases opened : pd.opens (vpn va)
  · rw [mencrypt_open table opened] at result
    split at result
    · rename_i encrypted
      obtain ⟨rfl, -⟩ : pd = pd' ∧ km = km' := by simpa using result
      exact ⟨encrypted, fun _ _ => rfl⟩
    · obtain ⟨rfl, -⟩ : pd.set (vpn va) (sealed (pd.pte (vpn va))) = pd' ∧ _ = km' := by simpa using result
      refine ⟨?_, fun v other => ?_⟩
      · rw [PgDir.set_pte, if_pos rfl]
        rfl
      · rw [PgDir.set_pte, if_neg other]
  · rw [mencrypt_closed table opened] at result
    simp at result

/-- An insertion encrypts the page that the clock finds, and of no other page it changes more than
the accessed flag. -/
theorem wsetinsertFrom_victim (result : wsetinsertFrom va fuel p km = .ok (true, p', km')) :
    (∀ a, victimFrom p.clockqueue fuel p.clockhand (fun w => (p.pgdir.pte w).a) = some a →
      (p'.pgdir.pte (vpn a)).e = true) ∧
    ∀ v, (∀ a, victimFrom p.clockqueue fuel p.clockhand (fun w => (p.pgdir.pte w).a) = some a → vpn a ≠ v) →
      (p'.pgdir.pte v).p = (p.pgdir.pte v).p ∧ (p'.pgdir.pte v).e = (p.pgdir.pte v).e := by
  induction fuel generalizing p km with
  | zero => cases result
  | succ fuel inductionHypothesis =>
    unfold wsetinsertFrom at result
    unfold victimFrom
    simp only at result ⊢
    split at result
    · rename_i empty
      obtain ⟨rfl, -⟩ : _ = p' ∧ km = km' := by simpa using result
      rw [if_pos empty]
      exact ⟨fun _ found => (by cases found), fun _ _ => ⟨rfl, rfl⟩⟩
    · rename_i filled
      rw [if_neg filled]
      split at result
      · cases result
      · rename_i x walked
        obtain ⟨table, rfl⟩ := PgDir.walk_some.mp walked
        generalize p.clockqueue (nextHand p.clockhand) = old at *
        split at result
        · rename_i unaccessed
          obtain ⟨⟨encrypted, pd, rest⟩, evicted, result⟩ := bind_ok.mp result
          rw [if_neg (by simpa using unaccessed)]
          simp only [pure, Except.pure] at result
          split at result
          · rename_i succeeded
            rw [succeeded] at evicted
            obtain ⟨rfl, -⟩ : _ = p' ∧ rest = km' := by simpa using result
            obtain ⟨done, others⟩ := mencrypt_one table evicted
            refine ⟨fun a found => ?_, fun v apart => ?_⟩
            · obtain rfl := Option.some.inj found
              exact done
            · simp only [others v (apart old rfl).symm, and_self]
          · simp at result
        · rename_i passed
          have flags : (fun w => ((p.pgdir.set (vpn old) { p.pgdir.pte (vpn old) with a := false }).pte w).a) =
              Function.update (fun w => (p.pgdir.pte w).a) (vpn old) false := by
            funext w
            rw [PgDir.set_pte, Function.update_apply]
            split <;> rfl
          rw [if_pos (by simpa using passed)]
          obtain ⟨sealed, others⟩ := inductionHypothesis result
          simp only [flags] at sealed others
          refine ⟨sealed, fun v apart => ?_⟩
          obtain ⟨present, encrypted⟩ := others v apart
          rw [present, encrypted, PgDir.set_pte]
          split
          · rename_i here
            rw [here]
            exact ⟨rfl, rfl⟩
          · exact ⟨rfl, rfl⟩

/-- A page fault makes its page present, unless the clock finds this page, and encrypts the page that
the clock finds. -/
theorem mdecrypt_victim (low : va < KERNBASE) (table : p.pgdir.tables (vpn va).pdx ≠ none)
    (filled : p.pgdir.pte (vpn va) ≠ {}) (result : mdecrypt p va km = .ok (true, p', km')) :
    (∀ a, victim p (vpn va) = some a → (p'.pgdir.pte (vpn a)).e = true) ∧
      ((∀ a, victim p (vpn va) = some a → vpn a ≠ vpn va) → (p'.pgdir.pte (vpn va)).p = true) ∧
      ∀ v, v ≠ vpn va → (∀ a, victim p (vpn va) = some a → vpn a ≠ v) →
        (p'.pgdir.pte v).e = (p.pgdir.pte v).e := by
  have walked : p.pgdir.walk (vpn va) = some (p.pgdir.pte (vpn va)) := PgDir.walk_some.mpr ⟨table, rfl⟩
  unfold mdecrypt at result
  rw [if_neg (Nat.not_le.mpr low), walked] at result
  simp only [if_neg filled] at result
  have entry : ∀ w, (p.pgdir.set (vpn va) { p.pgdir.pte (vpn va) with e := false, p := true, a := true }).pte w =
      if w = vpn va then { p.pgdir.pte (vpn va) with e := false, p := true, a := true } else p.pgdir.pte w :=
    fun w => PgDir.set_pte ..
  have flags : (fun w => ((p.pgdir.set (vpn va)
      { p.pgdir.pte (vpn va) with e := false, p := true, a := true }).pte w).a) =
        Function.update (fun w => (p.pgdir.pte w).a) (vpn va) true := by
    funext w
    rw [entry, Function.update_apply]
    split <;> rfl
  obtain ⟨sealed, others⟩ := wsetinsertFrom_victim result
  simp only [flags] at sealed others
  refine ⟨sealed, fun apart => ?_, fun v different apart => ?_⟩
  · rw [(others (vpn va) apart).1, entry, if_pos rfl]
  · rw [(others v apart).2, entry, if_neg different]

end Victim

end P6

section Touch

variable {p p' : Proc} {buffer retries : Nat} {km km' : Kmem}

/-- A page that can be written to is only marked. -/
theorem touch_writable {ver : Version} (stored : Reporting.writable p.pgdir (vpn buffer) = true) :
    touch ver buffer retries p km = .ok ({ p with pgdir := p.pgdir.mark (vpn buffer) }, km) := by
  cases retries with
  | zero => rw [touch, if_pos stored]
  | succ retries => rw [touch, if_pos stored]

/-- Touching a page changes flags only, and ends with a page that can be written to. -/
theorem touch_keeps {ver : Version} (tidy : Tidy p.pgdir) (result : touch ver buffer retries p km = .ok (p', km')) :
    Keeps p.pgdir km p'.pgdir km' ∧ Reporting.writable p'.pgdir (vpn buffer) = true := by
  have marked : ∀ q : Proc, Reporting.writable q.pgdir (vpn buffer) = true →
      Reporting.writable (q.pgdir.mark (vpn buffer)) (vpn buffer) = true := by
    intro q stored
    rwa [Reporting.writable_mark]
  induction retries generalizing p km with
  | zero =>
    unfold touch at result
    split at result
    · rename_i stored
      obtain ⟨rfl, rfl⟩ : _ = p' ∧ km = km' := by simpa using result
      exact ⟨Reporting.mark_keeps stored, marked p stored⟩
    · cases result
  | succ retries inductionHypothesis =>
    unfold touch at result
    split at result
    · rename_i stored
      obtain ⟨rfl, rfl⟩ : _ = p' ∧ km = km' := by simpa using result
      exact ⟨Reporting.mark_keeps stored, marked p stored⟩
    · obtain ⟨⟨handled, q, next⟩, faulted, continued⟩ := bind_ok.mp result
      simp only at continued
      split at continued
      · have keeps := Reporting.handleFault_keeps tidy faulted
        obtain ⟨later, stored⟩ := inductionHypothesis (keeps.tidy tidy) continued
        exact ⟨keeps.trans later, stored⟩
      · cases continued

/-- A mapped page that cannot be written to, though its writable bit is set, is encrypted. -/
theorem sealed_of_refused {v : Vpn} (decent : Decent p) (mapped : (p.pgdir.pte v).mapped = true)
    (w : (p.pgdir.pte v).w = true) (refused : ¬ Reporting.writable p.pgdir v = true) :
    (p.pgdir.pte v).p = false ∧ (p.pgdir.pte v).e = true ∧ p.pgdir.opens v := by
  have absent : (p.pgdir.pte v).p = false := by
    rw [Reporting.writable_eq (decent.tidy.table mapped), w, Bool.and_true] at refused
    exact eq_false_of_ne_true refused
  have sealed : (p.pgdir.pte v).e = true := by
    unfold Pte.mapped at mapped
    rwa [absent, Bool.false_or] at mapped
  exact ⟨absent, sealed, mapped, decent.guarded v sealed⟩

namespace P6

/-- Touching a page changes nothing that the process can see. -/
theorem touch_recrypts (decent : Decent p) (low : buffer < KERNBASE)
    (result : touch .p6 buffer retries p km = .ok (p', km')) :
    Recrypts p.pgdir km p'.pgdir km' ∧ p'.sz = p.sz ∧ p'.kstack = p.kstack := by
  obtain ⟨keeps, stored⟩ := touch_keeps decent.tidy result
  have w : (p.pgdir.pte (vpn buffer)).w = true :=
    (keeps.w _).symm.trans (Reporting.writable_flags stored).2
  clear keeps stored
  induction retries generalizing p km with
  | zero =>
    unfold touch at result
    split at result
    · rename_i stored
      obtain ⟨rfl, rfl⟩ : _ = p' ∧ km = km' := by simpa using result
      exact ⟨Reporting.mark_recrypts km stored, rfl, rfl⟩
    · cases result
  | succ retries inductionHypothesis =>
    unfold touch at result
    split at result
    · rename_i stored
      obtain ⟨rfl, rfl⟩ : _ = p' ∧ km = km' := by simpa using result
      exact ⟨Reporting.mark_recrypts km stored, rfl, rfl⟩
    · rename_i refused
      obtain ⟨⟨handled, q, next⟩, faulted, continued⟩ := bind_ok.mp result
      simp only at continued
      split at continued
      · rename_i succeeded
        rw [succeeded] at faulted
        obtain ⟨failed, -⟩ | ⟨-, table, filled, -⟩ := mdecrypt_cases faulted
        · cases failed
        · have mapped := decent.tidy.clean (vpn buffer) (vpn_user low) filled
          obtain ⟨-, sealed, opened⟩ := sealed_of_refused decent mapped w refused
          obtain ⟨recrypted, size, kstack⟩ := mdecrypt_recrypts decent.tidy opened sealed faulted
          obtain ⟨later, size', kstack'⟩ := inductionHypothesis
            (decent.recrypt recrypted.toRetouches size) continued ((mdecrypt_w faulted _).trans w)
          exact ⟨recrypted.trans later, size'.trans size, kstack'.trans kstack⟩
      · cases continued

/-- Touching a page leaves another in clear, unless the clock finds one of them. -/
theorem touch_spares {v : Vpn} (decent : Decent p) (low : buffer < KERNBASE)
    (result : touch .p6 buffer retries p km = .ok (p', km')) (different : v ≠ vpn buffer)
    (bare : (p.pgdir.pte v).e = false) (missed : (p.pgdir.pte (vpn buffer)).p = false →
      ∀ a ∈ victim p (vpn buffer), vpn a ≠ vpn buffer ∧ vpn a ≠ v) : (p'.pgdir.pte v).e = false := by
  have marked : ∀ pd : PgDir, ((pd.mark (vpn buffer)).pte v).e = (pd.pte v).e := by
    intro pd
    rw [PgDir.mark, PgDir.set_pte, if_neg different]
  by_cases stored : Reporting.writable p.pgdir (vpn buffer) = true
  · rw [touch_writable stored] at result
    obtain ⟨rfl, -⟩ : _ = p' ∧ km = km' := by simpa using result
    exact (marked p.pgdir).trans bare
  · obtain ⟨keeps, after⟩ := touch_keeps decent.tidy result
    have w : (p.pgdir.pte (vpn buffer)).w = true := (keeps.w _).symm.trans (Reporting.writable_flags after).2
    cases retries with
    | zero => simp [touch, stored] at result
    | succ retries =>
      rw [touch, if_neg stored] at result
      obtain ⟨⟨handled, q, next⟩, faulted, continued⟩ := bind_ok.mp result
      cases handled with
      | false => simp at continued
      | true =>
        obtain ⟨failed, -⟩ | ⟨-, table, filled, -⟩ := mdecrypt_cases faulted
        · cases failed
        have mapped := decent.tidy.clean (vpn buffer) (vpn_user low) filled
        have absent := (sealed_of_refused decent mapped w stored).1
        obtain ⟨-, made, others⟩ := mdecrypt_victim low table filled faulted
        have present := made fun a found => (missed absent a found).1
        have ready : Reporting.writable q.pgdir (vpn buffer) = true := by
          rw [Reporting.writable_eq (by rwa [(mdecrypt_retouches decent.tidy faulted).tables]), present,
            mdecrypt_w faulted, w]
          rfl
        simp only [if_true, touch_writable ready] at continued
        obtain ⟨rfl, -⟩ : _ = p' ∧ next = km' := by simpa using continued
        rw [marked, others v different fun a found => (missed absent a found).2]
        exact bare

end P6

end Touch

/-! ## Faults on encrypted pages -/

section Resolved

variable {p : Proc} {buffer va : Nat} {km : Kmem}

/-- A page fault of p5 on an encrypted page is resolved. -/
theorem P5.fault_resolved (decent : Decent p) (mapped : (p.pgdir.pte (vpn va)).mapped = true)
    (sealed : (p.pgdir.pte (vpn va)).e = true) :
    ∃ q next, decrypt p va km = .ok (true, q, next) ∧ (q.pgdir.pte (vpn va)).p = true := by
  refine ⟨_, _, decrypt_sealed km decent (decent.tidy.table mapped) sealed, ?_⟩
  rw [PgDir.set_pte, if_pos rfl]

namespace P6

/-- A page fault of p6 on an encrypted page is resolved, and the queue lists the pages in clear. -/
theorem fault_resolved (km : Kmem) (coherent : Coherent p) (low : va < KERNBASE) (opened : p.pgdir.opens (vpn va))
    (sealed : (p.pgdir.pte (vpn va)).e = true) :
    ∃ q next, mdecrypt p va km = .ok (true, q, next) ∧ (q.pgdir.pte (vpn va)).p = true ∧ Coherent q := by
  obtain ⟨-, q, next, decrypted, replaced, -⟩ := mdecrypt_replaces coherent.settled low opened sealed km
  refine ⟨q, next, decrypted, ?_, mdecrypt_coherent coherent opened sealed decrypted⟩
  rw [replaced.page]

/-- An encrypted page is not found by the clock. -/
theorem victim_other (coherent : Coherent p) {v : Vpn} (sealed : (p.pgdir.pte v).e = true) {a : Nat}
    (found : a ∈ victim p v) : vpn a ≠ v := by
  obtain ⟨⟨slot, rfl⟩, filled⟩ := victimFrom_listed found
  rintro rfl
  exact coherent.settled.fresh (.inl sealed) ⟨slot, (coherent.addr filled).symm⟩

/-- Touching an open and writable page of a coherent process succeeds after at most one fault. A page
that is encrypted or found by the clock is encrypted then. -/
theorem touch_succeeds (km : Kmem) (coherent : Coherent p) (low : buffer < KERNBASE)
    (opened : p.pgdir.opens (vpn buffer)) (w : (p.pgdir.pte (vpn buffer)).w = true) {v : Vpn} (different : v ≠ vpn buffer)
    (hidden : (p.pgdir.pte v).e = true ∨
      (p.pgdir.pte (vpn buffer)).p = false ∧ ∃ a ∈ victim p (vpn buffer), vpn a = v) :
    ∃ q next, touch .p6 buffer 1 p km = .ok (q, next) ∧ Coherent q ∧ (q.pgdir.pte v).e = true := by
  have filled : ∀ q : Proc, (q.pgdir.pte (vpn buffer)).p = true → q.pgdir.pte (vpn buffer) ≠ {} := by
    intro q present empty
    rw [empty] at present
    cases present
  have marked : ∀ pd : PgDir, ((pd.mark (vpn buffer)).pte v).e = (pd.pte v).e := by
    intro pd
    rw [PgDir.mark, PgDir.set_pte, if_neg different]
  have table := coherent.decent.tidy.table opened.1
  cases present : (p.pgdir.pte (vpn buffer)).p with
  | true =>
    have stored : Reporting.writable p.pgdir (vpn buffer) = true := by
      rw [Reporting.writable_eq table, present, w]
      rfl
    refine ⟨_, _, touch_writable stored, coherent.touch km (filled p present), ?_⟩
    obtain sealed | ⟨absent, -⟩ := hidden
    · exact (marked p.pgdir).trans sealed
    · cases present.symm.trans absent
  | false =>
    have refused : ¬ Reporting.writable p.pgdir (vpn buffer) = true :=
      fun stored => Bool.false_ne_true (present.symm.trans (Reporting.writable_flags stored).1)
    obtain ⟨-, sealed, -⟩ := sealed_of_refused coherent.decent opened.1 w refused
    obtain ⟨q, next, decrypted, shown, coherent'⟩ := fault_resolved km coherent low opened sealed
    have stored : Reporting.writable q.pgdir (vpn buffer) = true := by
      have tables := (mdecrypt_retouches coherent.decent.tidy decrypted).tables
      rw [Reporting.writable_eq (by rwa [tables]), shown, mdecrypt_w decrypted, w]
      rfl
    have touched : touch .p6 buffer 1 p km = touch .p6 buffer 0 q next := by
      conv_lhs => rw [touch, if_neg refused]
      simp only [Version.handleFault, decrypted]
      rfl
    refine ⟨_, _, touched.trans (touch_writable stored), coherent'.touch next (filled q shown), ?_⟩
    have entry : p.pgdir.pte (vpn buffer) ≠ {} := by
      intro empty
      rw [empty] at sealed
      cases sealed
    obtain ⟨found, -, others⟩ := mdecrypt_victim low table entry decrypted
    refine (marked q.pgdir).trans ?_
    by_cases hit : ∃ a ∈ victim p (vpn buffer), vpn a = v
    · obtain ⟨a, member, rfl⟩ := hit
      exact found a member
    · obtain before | ⟨-, now⟩ := hidden
      · rw [others v different fun a member same => hit ⟨a, member, same⟩]
        exact before
      · exact absurd now hit

end P6

end Resolved

/-! ## What the program reads -/

/-- An action that only reads. -/
def Action.reads : Action → Prop
  | .load _ _ => True
  | _ => False

/-- The last page of a buffer of one page's size. -/
def lastPage (buffer : Nat) : Vpn := vpn (buffer + (PGSIZE - 1))

/-- The frame is mapped by no page of the buffer. -/
def Apart (p : Proc) (physicalAddr buffer : Nat) : Prop :=
  ∀ j < PGSIZE, (p.pgdir.pte (vpn (buffer + j))).ppn ≠ physicalAddr / PGSIZE

/-- Where the raw bytes reach the program. In p5 no page of the buffer is encrypted. In p6 the second
page of a buffer that lies in two is neither encrypted nor, when the first page is not present, found
by the clock as the page to encrypt instead of the first; the first itself is not found either. -/
def Spared (ver : Version) (p : Proc) (buffer : Nat) : Prop :=
  p.pgdir.opens (vpn buffer) → p.pgdir.opens (lastPage buffer) →
    match ver with
    | .p5 => (p.pgdir.pte (vpn buffer)).e = false ∧ (p.pgdir.pte (lastPage buffer)).e = false
    | .p6 => (p.pgdir.pte (vpn buffer)).w = true → vpn buffer ≠ lastPage buffer →
      (p.pgdir.pte (lastPage buffer)).e = false ∧
        ((p.pgdir.pte (vpn buffer)).p = false → ∀ a ∈ P6.victim p (vpn buffer),
          vpn a ≠ vpn buffer ∧ vpn a ≠ lastPage buffer)

namespace System

/-- Process number `i` reads a page's bytes from its buffer: each load from the buffer that completes
returns the byte, after whatever loads and page faults. -/
def Reads (ver : Version) (s : System) (i buffer : Nat) (page : Page) : Prop :=
  ∀ labels t, Trace (Step ver) s labels t → (∀ label ∈ labels, label.1.reads) →
    ∀ j < PGSIZE, ∀ byte u, Step ver t (.load i (buffer + j), .byte byte) u → byte = page (offset j)

/-- After a dump that returns 0 the program reads the bytes that the frame has. -/
def DumpReaches (ver : Version) (s : System) (i physicalAddr buffer : Nat) : Prop :=
  ∀ retries p, s.procs[i]? = some p → ∀ p' km',
    sys_dump_rawphymem ver retries p physicalAddr buffer s.km = .ok (true, p', km') →
      (s.put i p' km').Reads ver i buffer (km'.mem (physicalAddr / PGSIZE))

section Reading

variable {ver : Version} {s t u : System} {i va : Nat} {p p' : Proc} {physicalAddr buffer retries : Nat}
  {km km' : Kmem} {byte : BitVec 8}

/-- Loads change no memory. -/
theorem loads_keep {r r' : List Memory} {labels : List (Action × Answer)}
    (trace : Trace Reference.Step r labels r') (loads : ∀ label ∈ labels, label.1.reads) : r' = r := by
  induction trace with
  | nil => rfl
  | cons moved remaining inductionHypothesis =>
    rw [inductionHypothesis fun label member => loads label (List.mem_cons_of_mem _ member)]
    have load := loads _ List.mem_cons_self
    cases moved with
    | load => rfl
    | loadFault => rfl
    | store => cases load
    | storeFault => cases load
    | mencrypt => cases load
    | sbrkKept => cases load
    | sbrkFilled => cases load
    | sbrkRemoved => cases load
    | fork => cases load
    | forkFailed => cases load

/-- What is read is the content of the page, complemented where it is encrypted. -/
theorem read_content {labels : List (Action × Answer)} (sound : s.Sound) (present : s.procs[i]? = some p)
    (trace : Trace (Step ver) s labels t) (loads : ∀ label ∈ labels, label.1.reads)
    (moved : Step ver t (.load i va, .byte byte) u) :
    byte = p.pgdir.content s.km (vpn va) (offset va) := by
  obtain ⟨r, reference, follows⟩ := trace_follows sound.follows trace
  obtain rfl := loads_keep reference loads
  obtain ⟨permitted, moved⟩ := moved
  simp only [step] at moved
  obtain ⟨m, page, kept, mapped, answered, -⟩ | ⟨faulted, -⟩ := access_follows follows permitted moved
  · obtain rfl : p.pgdir.memory s.km = m := by simpa [memories, present] using kept
    obtain ⟨-, rfl⟩ : _ ∧ p.pgdir.content s.km (vpn va) = page := by simpa [PgDir.memory] using mapped
    exact Answer.byte.inj answered
  · cases faulted

/-- The bytes of the frame are in the frames of the buffer's pages, and the process is in order. -/
structure Dumped (p : Proc) (km : Kmem) (physicalAddr buffer : Nat) (p' : Proc) (km' : Kmem) : Prop where
  moves : Moves p km p' km'
  opened : ∀ j < PGSIZE, p'.pgdir.opens (vpn (buffer + j))
  raw : ∀ j < PGSIZE, km'.mem (p'.pgdir.pte (vpn (buffer + j))).ppn (offset (buffer + j)) =
    km'.mem (physicalAddr / PGSIZE) (offset j)

/-- Copying the frame to the buffer of a process in order. -/
theorem copied_dumped (decent : Decent p) (single : Single p.pgdir.refs km.store)
    (low : buffer + PGSIZE ≤ KERNBASE) (apart : Apart p physicalAddr buffer)
    (copied : copyout ver p.pgdir (PGSIZE + 1) buffer (List.ofFn (km.mem (physicalAddr / PGSIZE))) km =
      .ok (true, km')) : Dumped p km physicalAddr buffer p km' := by
  have length : (List.ofFn (km.mem (physicalAddr / PGSIZE))).length = PGSIZE := List.length_ofFn
  have wrote := copyout_wrote decent.tidy (single_refs single) (by rwa [length])
    (by rw [length]; exact Nat.lt_succ_self _) copied
  obtain ⟨opened, bytes, others, kept⟩ := wrote
  rw [length] at opened bytes others
  refine ⟨⟨decent, rfl, ?_, fun f absent => others f fun j below => ?_⟩, opened, fun j below => ?_⟩
  · have free : km'.freelist = km.freelist := by rw [kept]
    have doubled : km'.doubled = km.doubled := by rw [kept]
    have layout : km'.layout = km.layout := by rw [kept]
    refine ⟨fun f => ?_, fun _ => doubled, ?_⟩
    · simp only [Kmem.store, free]
    · funext f
      simp only [Kmem.store, Kmem.accepts, layout]
  · rintro rfl
    have held := refs_pos (decent.tidy.low (opened j below).2) (opened j below).1
    omega
  · rw [bytes j below, others _ (apart), List.getD_eq_getElem _ _ (by rwa [length]), List.getElem_ofFn]
    exact congrArg _ (Fin.ext (Nat.mod_eq_of_lt below).symm)

/-- `sys_dump_rawphymem` that returns 0. -/
theorem dumped (decent : Decent p) (single : Single p.pgdir.refs km.store) (accepted : buffer + PGSIZE ≤ p.sz)
    (apart : Apart p physicalAddr buffer)
    (result : sys_dump_rawphymem ver retries p physicalAddr buffer km = .ok (true, p', km')) :
    Dumped p km physicalAddr buffer p' km' ∧ (ver = .p5 ∧ p' = p ∨
      ver = .p6 ∧ ∃ next, touch .p6 buffer retries p km = .ok (p', next)) := by
  have low : buffer + PGSIZE ≤ KERNBASE := accepted.trans decent.bounded
  unfold sys_dump_rawphymem at result
  split at result
  · cases result
  · cases ver with
    | p5 =>
      obtain ⟨⟨copied, last⟩, copying, continued⟩ := bind_ok.mp result
      obtain ⟨rfl, rfl, rfl⟩ : copied = true ∧ p = p' ∧ last = km' := by
        simpa [pure, Except.pure] using continued
      exact ⟨copied_dumped decent single low apart copying, .inl ⟨rfl, rfl⟩⟩
    | p6 =>
      obtain ⟨⟨q, next⟩, touched, continued⟩ := bind_ok.mp result
      obtain ⟨⟨copied, last⟩, copying, continued⟩ := bind_ok.mp continued
      obtain ⟨rfl, rfl, rfl⟩ : copied = true ∧ q = p' ∧ last = km' := by
        simpa [pure, Except.pure] using continued
      obtain ⟨recrypted, size, kstack⟩ := P6.touch_recrypts decent (by unfold PGSIZE at low; omega) touched
      have moves := Moves.recrypt decent recrypted size kstack
      have after := copied_dumped moves.decent (moves.balanced.single single) low (fun j below => ?_) copying
      · exact ⟨⟨moves.trans after.moves, after.opened, after.raw⟩, .inr ⟨rfl, next, touched⟩⟩
      · rw [recrypted.ppn]
        exact apart j below

theorem put_present (present : s.procs[i]? = some p) : (s.put i p' km').procs[i]? = some p' := by
  obtain ⟨inside, -⟩ := List.getElem?_eq_some_iff.mp present
  simp only [System.put, List.getElem?_set_self inside]

/-- Where no page of the buffer is encrypted, the raw bytes are read. -/
theorem Dumped.reads (dumped : Dumped p s.km physicalAddr buffer p' km') (sound : s.Sound)
    (present : s.procs[i]? = some p) (bare : ∀ j < PGSIZE, (p'.pgdir.pte (vpn (buffer + j))).e = false) :
    (s.put i p' km').Reads ver i buffer (km'.mem (physicalAddr / PGSIZE)) := by
  intro labels t trace loads j below byte u moved
  rw [read_content (sound.put present dumped.moves) (put_present present) trace loads moved]
  unfold PgDir.content
  rw [bare j below, ← dumped.raw j below]
  rfl

theorem not_ne_self (x : BitVec 8) : ~~~ x ≠ x := by
  intro same
  have bit := congrArg (fun y => y.getLsbD 0) same
  simp at bit

/-- Where a page of the buffer is encrypted and a page fault is resolved, the program reads
complements. -/
theorem Dumped.misreads {q : Proc} {next : Kmem} {j : Nat} (dumped : Dumped p s.km physicalAddr buffer p' km')
    (sound : s.Sound) (present : s.procs[i]? = some p) (below : j < PGSIZE)
    (sealed : (p'.pgdir.pte (vpn (buffer + j))).e = true)
    (handled : ver.handleFault p' (buffer + j) km' = .ok (true, q, next))
    (made : (q.pgdir.pte (vpn (buffer + j))).p = true) :
    ¬ (s.put i p' km').Reads ver i buffer (km'.mem (physicalAddr / PGSIZE)) := by
  intro reads
  have sound' := sound.put present dumped.moves
  have opened := dumped.opened j below
  have decent := dumped.moves.decent
  have retouched := (Reporting.handleFault_retouches decent.tidy handled).1
  have hidden : translate p'.pgdir (buffer + j) = none := by
    have absent : (p'.pgdir.pte (vpn (buffer + j))).p = false := by
      have different := decent.exclusive _ opened.1
      rw [sealed] at different
      exact eq_false_of_ne_true different
    rw [translate, PgDir.walk_some.mpr ⟨decent.tidy.table opened.1, rfl⟩]
    simp [absent]
  have shown : translate q.pgdir (buffer + j) = some (q.pgdir.pte (vpn (buffer + j))).ppn := by
    have table : q.pgdir.tables (vpn (buffer + j)).pdx ≠ none := by
      rw [retouched.tables]
      exact decent.tidy.table opened.1
    rw [translate, PgDir.walk_some.mpr ⟨table, rfl⟩]
    simp [made, retouched.user, opened.2]
  have faulted : Step ver (s.put i p' km') (.load i (buffer + j), .fault) ((s.put i p' km').put i q next) := by
    refine ⟨fun r found => ?_, ?_⟩
    · obtain rfl : p' = r := Option.some.inj ((put_present present).symm.trans found)
      exact opened
    · simp only [step, access, put_present present]
      simp only [Option.bind_eq_bind, Option.bind_some, hidden, System.put, handled]
      rfl
  have again : ((s.put i p' km').put i q next).procs[i]? = some q := put_present (put_present present)
  obtain ⟨byte, u, loaded⟩ : ∃ byte u,
      Step ver ((s.put i p' km').put i q next) (.load i (buffer + j), .byte byte) u := by
    let frame := (q.pgdir.pte (vpn (buffer + j))).ppn
    let marked := { q with pgdir := q.pgdir.mark (vpn (buffer + j)) }
    refine ⟨next.mem frame (offset (buffer + j)), ((s.put i p' km').put i q next).put i marked
      (next.write frame (next.mem frame)), fun r found => ?_, ?_⟩
    · obtain rfl : q = r := Option.some.inj (again.symm.trans found)
      exact retouched.opens.mpr opened
    · simp only [step, access, again, Option.bind_eq_bind, Option.bind_some, shown]
      rfl
  have trace : Trace (Step ver) (s.put i p' km') [(.load i (buffer + j), .fault)]
      ((s.put i p' km').put i q next) := .cons faulted (.nil _)
  have loads : ∀ label ∈ [((.load i (buffer + j), .fault) : Action × Answer)], label.1.reads := by
    intro label member
    rw [List.mem_singleton.mp member]
    trivial
  have asked := reads _ _ trace loads j below byte u loaded
  have got := read_content sound' (put_present present) trace loads loaded
  unfold PgDir.content at got
  rw [sealed, if_pos rfl, Page.flip] at got
  rw [asked, ← dumped.raw j below] at got
  exact not_ne_self _ got.symm

/-- The pages of a buffer are its first and its last. -/
theorem buffer_pages {j : Nat} (low : buffer + PGSIZE ≤ KERNBASE) (below : j < PGSIZE) :
    vpn (buffer + j) = vpn buffer ∨ vpn (buffer + j) = lastPage buffer := by
  unfold lastPage
  rw [Fin.ext_iff, Fin.ext_iff, vpn_val, vpn_val, vpn_val]
  all_goals
    unfold PGSIZE at *
    unfold KERNBASE at low
    omega

/-- Where the condition holds, the raw bytes reach the program. -/
theorem reaches_of_spared (spared : Spared ver p buffer) (sound : s.Sound) (present : s.procs[i]? = some p)
    (accepted : buffer + PGSIZE ≤ p.sz) (apart : Apart p physicalAddr buffer) :
    s.DumpReaches ver i physicalAddr buffer := by
  intro retries q found p' km' result
  obtain rfl : p = q := Option.some.inj (present.symm.trans found)
  have decent := sound.member present
  have low : buffer + PGSIZE ≤ KERNBASE := accepted.trans decent.bounded
  obtain ⟨done, calls⟩ := dumped decent (sound.alone present) accepted apart result
  refine done.reads sound present fun j below => ?_
  have firstOpened := done.opened 0 (by decide)
  have lastOpened := done.opened (PGSIZE - 1) (by decide)
  obtain ⟨rfl, rfl⟩ | ⟨rfl, next, touched⟩ := calls
  · obtain ⟨first, last⟩ := spared firstOpened lastOpened
    obtain same | same := buffer_pages low below
    · rw [same, first]
    · rw [same, last]
  · obtain ⟨keeps, after⟩ := touch_keeps decent.tidy touched
    obtain ⟨shown, w⟩ := Reporting.writable_flags after
    rw [keeps.w] at w
    have first : (p'.pgdir.pte (vpn buffer)).e = false := by
      have different := done.moves.decent.exclusive _ firstOpened.1
      rw [Nat.add_zero, shown] at different
      exact eq_false_of_ne_true different.symm
    obtain same | same := buffer_pages low below
    · rw [same, first]
    · by_cases one : lastPage buffer = vpn buffer
      · rw [same, one, first]
      · obtain ⟨bare, missed⟩ := spared (keeps.opens.mp firstOpened) (keeps.opens.mp lastOpened) w (Ne.symm one)
        rw [same]
        exact P6.touch_spares decent (by unfold PGSIZE at low; omega) touched one bare missed

/-- `dump_rawphymem` of p5 to open pages returns 0. -/
theorem dump_p5 (km : Kmem) (retries physicalAddr : Nat) (decent : Decent p) (accepted : buffer + PGSIZE ≤ p.sz)
    (opened : ∀ j < PGSIZE, p.pgdir.opens (vpn (buffer + j))) :
    ∃ km', sys_dump_rawphymem .p5 retries p physicalAddr buffer km = .ok (true, p, km') := by
  have low : buffer + PGSIZE ≤ KERNBASE := accepted.trans decent.bounded
  have length : (List.ofFn (km.mem (physicalAddr / PGSIZE))).length = PGSIZE := List.length_ofFn
  obtain ⟨km', copied⟩ := copyout_opened .p5 (List.ofFn (km.mem (physicalAddr / PGSIZE))) km (PGSIZE + 1)
    decent.tidy decent.exclusive (by rwa [length]) (by rwa [length])
  refine ⟨km', ?_⟩
  rw [sys_dump_rawphymem, if_neg ?_]
  · exact bind_ok.mpr ⟨(true, km'), copied, rfl⟩
  · rw [word_small (by unfold KERNBASE at low; omega)]
    unfold PGSIZE at *
    omega

/-- `dump_rawphymem` of p6 returns 0 when touching the buffer leaves its pages open. -/
theorem dump_p6 {q : Proc} {next : Kmem} (physicalAddr : Nat) (decent : Decent q) (bounded : p.sz ≤ KERNBASE)
    (accepted : buffer + PGSIZE ≤ p.sz) (touched : touch .p6 buffer retries p km = .ok (q, next))
    (opened : ∀ j < PGSIZE, q.pgdir.opens (vpn (buffer + j))) :
    ∃ km', sys_dump_rawphymem .p6 retries p physicalAddr buffer km = .ok (true, q, km') := by
  have low : buffer + PGSIZE ≤ KERNBASE := accepted.trans bounded
  have length : (List.ofFn (next.mem (physicalAddr / PGSIZE))).length = PGSIZE := List.length_ofFn
  obtain ⟨km', copied⟩ := copyout_opened .p6 (List.ofFn (next.mem (physicalAddr / PGSIZE))) next (PGSIZE + 1)
    decent.tidy decent.exclusive (by rwa [length]) (by rwa [length])
  refine ⟨km', ?_⟩
  rw [sys_dump_rawphymem, if_neg ?_]
  · exact bind_ok.mpr ⟨(q, next), touched, bind_ok.mpr ⟨(true, km'), copied, rfl⟩⟩
  · rw [word_small (by unfold KERNBASE at low; omega)]
    unfold PGSIZE at *
    omega

/-- Where the condition fails, the program reads complements; in p6 of a process whose queue lists the
pages in clear. -/
theorem spared_of_reaches (sound : s.Sound) (present : s.procs[i]? = some p) (accepted : buffer + PGSIZE ≤ p.sz)
    (apart : Apart p physicalAddr buffer) (coherent : ver = .p6 → Coherent p)
    (reaches : s.DumpReaches ver i physicalAddr buffer) : Spared ver p buffer := by
  intro first last
  have decent := sound.member present
  have low : buffer + PGSIZE ≤ KERNBASE := accepted.trans decent.bounded
  have pages : ∀ j < PGSIZE, p.pgdir.opens (vpn (buffer + j)) := by
    intro j below
    obtain same | same := buffer_pages low below
    · rwa [same]
    · rwa [same]
  cases ver with
  | p5 =>
    obtain ⟨km', returned⟩ := dump_p5 s.km 0 physicalAddr decent accepted pages
    have done := (dumped decent (sound.alone present) accepted apart returned).1
    have clear : ∀ j < PGSIZE, (p.pgdir.pte (vpn (buffer + j))).e = false := by
      intro j below
      by_contra sealed
      obtain ⟨q, next, handled, made⟩ : ∃ q next,
          Version.p5.handleFault p (buffer + j) km' = .ok (true, q, next) ∧
            (q.pgdir.pte (vpn (buffer + j))).p = true :=
        P5.fault_resolved decent (pages j below).1 (eq_true_of_ne_false sealed)
      exact done.misreads sound present below (eq_true_of_ne_false sealed) handled made
        (reaches 0 p present p km' returned)
    exact ⟨clear 0 (by decide), clear (PGSIZE - 1) (by decide)⟩
  | p6 =>
    intro w two
    have start := coherent rfl
    have small : buffer < KERNBASE := by unfold PGSIZE at low; omega
    have spared : ¬ ((p.pgdir.pte (lastPage buffer)).e = true ∨
        (p.pgdir.pte (vpn buffer)).p = false ∧ ∃ a ∈ P6.victim p (vpn buffer), vpn a = lastPage buffer) := by
      intro hidden
      obtain ⟨q, next, touched, coherent', sealed⟩ := P6.touch_succeeds s.km start small first w
        (Ne.symm two) hidden
      have opens : ∀ j < PGSIZE, q.pgdir.opens (vpn (buffer + j)) := fun j below =>
        (touch_keeps decent.tidy touched).1.opens.mpr (pages j below)
      obtain ⟨km', returned⟩ := dump_p6 physicalAddr coherent'.decent decent.bounded accepted
        touched opens
      have done := (dumped decent (sound.alone present) accepted apart returned).1
      have inside : buffer + (PGSIZE - 1) < KERNBASE :=
        (Nat.add_lt_add_left (by decide) buffer).trans_le low
      obtain ⟨r, after, handled, made, -⟩ : ∃ r after,
          Version.p6.handleFault q (buffer + (PGSIZE - 1)) km' = .ok (true, r, after) ∧
            (r.pgdir.pte (vpn (buffer + (PGSIZE - 1)))).p = true ∧ Coherent r :=
        P6.fault_resolved km' coherent' inside (opens _ (by decide)) sealed
      exact done.misreads sound present (by decide) sealed handled made (reaches 1 p present q km' returned)
    refine ⟨eq_false_of_ne_true fun sealed => spared (.inl sealed), fun absent a member => ⟨?_, fun same => ?_⟩⟩
    · have refused : ¬ Reporting.writable p.pgdir (vpn buffer) = true :=
        fun stored => Bool.false_ne_true (absent.symm.trans (Reporting.writable_flags stored).1)
      exact P6.victim_other start (sealed_of_refused decent first.1 w refused).2.1 member
    · exact spared (.inr ⟨absent, a, member, same⟩)

/-- In every state of every run from a sound system: where no page of the buffer is encrypted (p5), or the
second page of a buffer in two pages is not encrypted before the dump or by its first access (p6), the
raw bytes reach the program; and elsewhere they do not, for p6 if the process is coherent. -/
theorem dump_reaches_iff {s₀ : System} {labels : List (Action × Answer)} (sound : s₀.Sound)
    (trace : Trace (Step ver) s₀ labels s) (present : s.procs[i]? = some p) (accepted : buffer + PGSIZE ≤ p.sz)
    (apart : Apart p physicalAddr buffer) :
    (Spared ver p buffer → s.DumpReaches ver i physicalAddr buffer) ∧
      ((ver = .p6 → Coherent p) → s.DumpReaches ver i physicalAddr buffer → Spared ver p buffer) := by
  obtain ⟨r, -, sound', -⟩ := trace_follows sound.follows trace
  exact ⟨fun spared => reaches_of_spared spared sound' present accepted apart,
    fun coherent reaches => spared_of_reaches sound' present accepted apart coherent reaches⟩

end Reading

theorem onePage_apart : ∀ p ∈ onePage.procs, Apart p 0 0 := by
  intro p member j below
  obtain rfl := List.mem_singleton.mp member
  have first : vpn (0 + j) = 0 := Fin.ext (by
    rw [vpn_val (by unfold PGSIZE at below; omega), Nat.zero_add]
    exact Nat.div_eq_of_lt below)
  rw [first]
  decide

/-- The buffer is the only page of the process, which is encrypted: in p6 the dump decrypts it. -/
theorem dump_reaches_iff_onePage : onePage.DumpReaches .p6 0 0 0 := by
  refine (dump_reaches_iff onePage_sound (.nil _) (p := ⟨sealedPage, 4096, 4, fun _ => NOPAGE, none⟩) rfl
    (by decide) (onePage_apart _ (List.mem_singleton_self _))).1 fun _ _ w two => ?_
  exact absurd (by decide) two

/-- In p5 the program reads the complements of the bytes. -/
theorem dump_complemented :
    onePage.Sound ∧ (∀ p ∈ onePage.procs, Apart p 0 0) ∧ ¬ onePage.DumpReaches .p5 0 0 0 := by
  refine ⟨onePage_sound, onePage_apart, fun reaches => ?_⟩
  have spared : Spared .p5 ⟨sealedPage, 4096, 4, fun _ => NOPAGE, none⟩ 0 :=
    spared_of_reaches onePage_sound rfl (by decide) (onePage_apart _ (List.mem_singleton_self _))
      (fun impossible => by cases impossible) reaches
  exact absurd (spared (by decide) (by decide)).1 (by decide)

end System

end Cs537.Vm
