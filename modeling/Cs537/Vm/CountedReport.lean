import Cs537.Vm.FaultHandler
import Cs537.Vm.StoredWords

/-!
# The report of p5

`getpgtable` counts entries up and addresses down from the last page of the process, and stops
when the number of entries, in bytes of pages, exceeds the size. For a size between two pages
that is after the first page; for a multiple of the page size one round later, when the address
has gone below zero and names the highest page there is. A page of the buffer that is encrypted
is decrypted by the first store to it, so that a store needs at most two retries.
-/

namespace Cs537.Vm

open Programs Reporting Ledger Runs

namespace P5

/-! ## Stores -/

section Stores

variable {α : Type} {d : Desk α} {retries address : Nat}

/-- The pages of a word are writable for the kernel as far as they are present. -/
theorem writable_word (decent : Decent d.proc) (small : address + 4 ≤ 2 ^ 32)
    (ready : Ready d.proc.pgdir address (address + 4)) :
    writable d.proc.pgdir (vpn address) = (d.proc.pgdir.pte (vpn address)).p ∧
      writable d.proc.pgdir (vpn (address + 3)) = (d.proc.pgdir.pte (vpn (address + 3))).p := by
  obtain ⟨mapped, stored⟩ := ready (vpn address) ((Touches.word small).mpr (.inl rfl))
  obtain ⟨mapped', stored'⟩ := ready (vpn (address + 3)) ((Touches.word small).mpr (.inr rfl))
  rw [writable_eq (decent.tidy.table mapped), writable_eq (decent.tidy.table mapped'), stored, stored',
    Bool.and_true, Bool.and_true]
  exact ⟨rfl, rfl⟩

/-- A page that is not present is decrypted and the store is tried again. -/
theorem persist_resolved {va : Nat} (retries : Nat) (decent : Decent d.proc) (small : address + 4 ≤ 2 ^ 32)
    (ready : Ready d.proc.pgdir address (address + 4)) (faults : faultAt d.proc.pgdir address = some va)
    (own : vpn va = vpn address ∨ vpn va = vpn (address + 3))
    (absent : (d.proc.pgdir.pte (vpn va)).p = false) :
    ∃ pd km, (persist .p5 address (retries + 1)).run d =
        (persist .p5 address retries).run { d with proc := { d.proc with pgdir := pd }, km := km } ∧
      Decent { d.proc with pgdir := pd } ∧ Ready pd address (address + 4) ∧
      (∀ w, (pd.pte w).p = if w = vpn va then true else (d.proc.pgdir.pte w).p) ∧
      pd.touched address (address + 4) = d.proc.pgdir.touched address (address + 4) := by
  have touches := (Touches.word small).mpr own
  obtain ⟨mapped, stored⟩ := ready (vpn va) touches
  have table := decent.tidy.table mapped
  have sealed : (d.proc.pgdir.pte (vpn va)).e = true := by simpa [Pte.mapped, absent] using mapped
  have handled := decrypt_sealed d.km decent table sealed
  have recrypted := (decrypt_recrypts decent.tidy handled).1
  have tried : (attempt .p5 address).run d = .ok (false, { d with
      proc := { d.proc with
        pgdir := d.proc.pgdir.set (vpn va) { d.proc.pgdir.pte (vpn va) with p := true, e := false } }
      km := d.km.complement (d.proc.pgdir.pte (vpn va)).ppn }) := by
    unfold attempt
    simp only [StateT.run_bind, StateT.run_get, pure_bind, faults, Version.handleFault, handled]
    rfl
  have entries : ∀ w, (d.proc.pgdir.set (vpn va) { d.proc.pgdir.pte (vpn va) with p := true, e := false }).pte w =
      if w = vpn va then { d.proc.pgdir.pte (vpn va) with p := true, e := false } else d.proc.pgdir.pte w :=
    fun w => PgDir.set_pte ..
  have retried : (persist .p5 address (retries + 1)).run d = (persist .p5 address retries).run { d with
      proc := { d.proc with
        pgdir := d.proc.pgdir.set (vpn va) { d.proc.pgdir.pte (vpn va) with p := true, e := false } }
      km := d.km.complement (d.proc.pgdir.pte (vpn va)).ppn } := by
    rw [persist, run_bind_ok tried]
    rfl
  refine ⟨_, _, retried, decent.recrypt recrypted.toRetouches rfl, fun w touched => ?_, fun w => ?_, ?_⟩
  · obtain ⟨kept, stored'⟩ := ready w touched
    refine ⟨(recrypted.mapped w).trans kept, ?_⟩
    rw [entries]
    split
    · exact stored
    · exact stored'
  · rw [entries]
    split
    · rfl
    · rfl
  · refine PgDir.ext rfl rfl fun w => ?_
    rw [touched_pte, touched_pte, entries]
    by_cases here : w = vpn va
    · rw [if_pos here, here, if_pos touches, if_pos touches]
    · rw [if_neg here]

/-- When both pages are present the store succeeds. -/
theorem persist_present (decent : Decent d.proc) (small : address + 4 ≤ 2 ^ 32)
    (ready : Ready d.proc.pgdir address (address + 4)) (first : (d.proc.pgdir.pte (vpn address)).p = true)
    (second : (d.proc.pgdir.pte (vpn (address + 3))).p = true) :
    (persist .p5 address retries).run d = .ok ((), { d with
      proc := { d.proc with pgdir := d.proc.pgdir.touched address (address + 4) } }) := by
  refine persist_clear small fun v touches => ?_
  obtain ⟨mapped, stored⟩ := ready v touches
  have present : (d.proc.pgdir.pte v).p = true := by
    rcases (Touches.word small).mp touches with rfl | rfl
    · exact first
    · exact second
  refine ⟨decent.tidy.table mapped, present, stored, ?_⟩
  have different := decent.exclusive v mapped
  rw [present] at different
  exact eq_false_of_ne_true different.symm

/-- When the first page is present, at most one retry is needed. -/
theorem persist_second (retries : Nat) (decent : Decent d.proc) (small : address + 4 ≤ 2 ^ 32)
    (ready : Ready d.proc.pgdir address (address + 4)) (first : (d.proc.pgdir.pte (vpn address)).p = true) :
    ∃ km, (persist .p5 address (retries + 1)).run d = .ok ((), { d with
      proc := { d.proc with pgdir := d.proc.pgdir.touched address (address + 4) }
      km := km }) := by
  cases second : (d.proc.pgdir.pte (vpn (address + 3))).p with
  | true => exact ⟨d.km, persist_present decent small ready first second⟩
  | false =>
    have stores := writable_word decent small ready
    have page : vpn (PGROUNDDOWN (word (address + 3))) = vpn (address + 3) := by
      rw [vpn_PGROUNDDOWN, vpn_word]
    have faults : faultAt d.proc.pgdir address = some (PGROUNDDOWN (word (address + 3))) := by
      unfold faultAt
      rw [stores.1, stores.2, first, second]
      rfl
    obtain ⟨pd, km, tried, decent', ready', present, same⟩ :=
      persist_resolved retries decent small ready faults (.inr page) (by rw [page]; exact second)
    rw [tried]
    refine ⟨km, ?_⟩
    rw [persist_present decent' small ready' ?_ ?_]
    · simp only [same]
    · simp only [present]
      split
      · rfl
      · exact first
    · simp only [present, page, if_true]

/-- At most two retries are needed. -/
theorem persist_ready (decent : Decent d.proc) (small : address + 4 ≤ 2 ^ 32)
    (ready : Ready d.proc.pgdir address (address + 4)) :
    ∃ km, (persist .p5 address (retries + 2)).run d = .ok ((), { d with
      proc := { d.proc with pgdir := d.proc.pgdir.touched address (address + 4) }
      km := km }) := by
  cases first : (d.proc.pgdir.pte (vpn address)).p with
  | true => exact persist_second _ decent small ready first
  | false =>
    have stores := writable_word decent small ready
    have faults : faultAt d.proc.pgdir address = some address := by
      unfold faultAt
      rw [stores.1, first]
      rfl
    obtain ⟨pd, km, tried, decent', ready', present, same⟩ :=
      persist_resolved (retries + 1) decent small ready faults (.inl rfl) first
    rw [tried]
    obtain ⟨km', succeeded⟩ := persist_second retries
      (d := { d with proc := { d.proc with pgdir := pd }, km := km }) decent' small ready'
      (by simp only [present, if_true])
    refine ⟨km', ?_⟩
    rw [succeeded]
    simp only [same]

/-- A store to mapped and writable pages succeeds. -/
theorem store_ready (decent : Decent d.proc) (small : address + 4 ≤ 2 ^ 32) (patient : 2 ≤ retries)
    (ready : Ready d.proc.pgdir address (address + 4)) :
    ∃ km, (store .p5 retries address).run d = .ok ((), { d with
      proc := { d.proc with pgdir := d.proc.pgdir.touched address (address + 4) }
      km := km
      stores := d.stores ++ [address] }) := by
  obtain ⟨more, rfl⟩ := Nat.exists_eq_add_of_le' patient
  exact persist_ready (d := { d with stores := d.stores ++ [address] }) decent small ready

end Stores

/-! ## What a report is to be -/

/-- An entry of the report for a page. -/
def decode (v : Vpn) (pte : Pte) : PtEntry := ⟨v.pdx.val, v.ptx, pte.ppn, pte.p, pte.w, pte.e⟩

/-- The indices of an entry recombine to the address of the page. -/
theorem decode_addr (v : Vpn) (pte : Pte) : (decode v pte).pdx * 2 ^ 22 + (decode v pte).ptx * 2 ^ 12 = v.addr :=
  v.addr_indices

/-- The number of pages of a process. -/
def pageCount (sz : Nat) : Nat := PGROUNDUP sz / PGSIZE

/-- The pages of a process, counted down from the last. -/
def countdown (sz i : Nat) : Vpn := vpn (PGROUNDUP sz - (i + 1) * PGSIZE)

/-- What a report is to be: as many pages as there are and are asked for, counted down from the last.
An entry shows its page as it is when the buffer was written up to this entry, which makes the
pages of the buffer present. Every entry describes an address below the size. -/
def Reports (retries : Nat) (p : Proc) (km : Kmem) (entries : Nat) (num : Int) : Prop :=
  ∃ d, (getpgtable retries entries num).run ⟨p, km, [], []⟩ = .ok (min num (pageCount p.sz), d) ∧
    d.entries = (List.range (min num.toNat (pageCount p.sz))).map (fun i => decode (countdown p.sz i)
      ((p.pgdir.touched entries (entries + (i + 1) * ENTRY)).pte (countdown p.sz i))) ∧
    ∀ x ∈ d.entries, x.pdx * 2 ^ 22 + x.ptx * 2 ^ 12 < p.sz

/-! ## The rounds -/

section Rounds

variable {p : Proc} {km : Kmem} {d : Desk PtEntry} {retries entries i : Nat} {num : Int}

/-- The size lies in the last page or at its end. -/
theorem pageCount_bounds {sz : Nat} (positive : 0 < sz) (bounded : sz < KERNBASE) :
    PGROUNDUP sz = pageCount sz * PGSIZE ∧ (pageCount sz - 1) * PGSIZE < sz ∧ sz ≤ pageCount sz * PGSIZE ∧
      0 < pageCount sz ∧ pageCount sz ≤ 524288 := by
  unfold pageCount PGROUNDUP word PGSIZE
  unfold KERNBASE at bounded
  omega

theorem countdown_val {sz : Nat} (positive : 0 < sz) (bounded : sz < KERNBASE) (inside : i < pageCount sz) :
    (countdown sz i).val = pageCount sz - 1 - i := by
  obtain ⟨rounded, -, -, -, few⟩ := pageCount_bounds positive bounded
  unfold countdown
  rw [rounded, vpn_val (by unfold PGSIZE; omega)]
  unfold PGSIZE
  omega

/-- The pages of the report lie below the size. -/
theorem countdown_below {sz : Nat} (positive : 0 < sz) (bounded : sz < KERNBASE) (inside : i < pageCount sz) :
    (countdown sz i).addr < sz := by
  have last := (pageCount_bounds positive bounded).2.1
  unfold Vpn.addr
  rw [countdown_val positive bounded inside]
  exact (Nat.mul_le_mul_right _ (Nat.sub_le _ _)).trans_lt last

/-- The address in a round of the loop. -/
def addrAt (sz i : Nat) : Nat := word (PGROUNDUP sz + 2 ^ 32 - (i + 1) * PGSIZE)

theorem addrAt_zero {sz : Nat} (positive : 0 < sz) (bounded : sz ≤ KERNBASE) :
    PGROUNDDOWN (word (sz + 2 ^ 32 - 1)) = addrAt sz 0 := by
  unfold addrAt PGROUNDDOWN PGROUNDUP word PGSIZE
  unfold KERNBASE at bounded
  omega

theorem addrAt_succ {sz : Nat} (few : i ≤ 524288) : word (addrAt sz i + 2 ^ 32 - PGSIZE) = addrAt sz (i + 1) := by
  unfold addrAt word PGSIZE
  omega

theorem vpn_addrAt {sz : Nat} (positive : 0 < sz) (bounded : sz < KERNBASE) (inside : i < pageCount sz) :
    vpn (addrAt sz i) = countdown sz i := by
  obtain ⟨rounded, -, -, -, few⟩ := pageCount_bounds positive bounded
  have high : PGROUNDUP sz + 2 ^ 32 - (i + 1) * PGSIZE = PGROUNDUP sz - (i + 1) * PGSIZE + 2 ^ 32 := by
    rw [rounded]
    unfold PGSIZE
    omega
  have same : ∀ x, word (x + 2 ^ 32) = word x := fun x => Nat.add_mod_right x _
  unfold addrAt countdown
  rw [high, same, vpn_word]

/-- The two words of an entry are stored to, and the entry is complete. -/
theorem describe_ready {entry : Nat} {v : Vpn} (decent : Decent d.proc) (patient : 2 ≤ retries)
    (small : entry + ENTRY ≤ 2 ^ 32) (ready : Ready d.proc.pgdir entry (entry + ENTRY))
    (table : d.proc.pgdir.tables v.pdx ≠ none) :
    ∃ km, (describe retries entry v).run d = .ok ((), {
      proc := { d.proc with pgdir := d.proc.pgdir.touched entry (entry + ENTRY) }
      km := km
      stores := d.stores ++ [entry, entry + 4]
      entries := d.entries ++ [decode v ((d.proc.pgdir.touched entry (entry + ENTRY)).pte v)] }) := by
  unfold ENTRY at *
  have first : Ready d.proc.pgdir entry (entry + 4) := ready.mono le_rfl (by omega)
  have second : Ready (d.proc.pgdir.touched entry (entry + 4)) (entry + 4) (entry + 4 + 4) :=
    ready.touched.mono (by omega) le_rfl
  have both : (d.proc.pgdir.touched entry (entry + 4)).touched (entry + 4) (entry + 8) =
      d.proc.pgdir.touched entry (entry + 8) := touched_touched (by omega) (by omega)
  obtain ⟨km, stored⟩ := store_ready decent (by omega) patient first
  obtain ⟨km', stored'⟩ := store_ready (d := { d with
      proc := { d.proc with pgdir := d.proc.pgdir.touched entry (entry + 4) }
      km := km
      stores := d.stores ++ [entry] }) (decent.touched fun v touches => (first v touches).1)
    (by omega) patient second
  refine ⟨km', ?_⟩
  unfold describe
  rw [run_bind_ok stored]
  refine (run_bind_ok (readPte_run (by exact table))).trans ?_
  rw [word_small (by omega)]
  refine (run_bind_ok stored').trans ?_
  refine (run_bind_ok (readPte_run (by exact table))).trans ?_
  simp only [complete, StateT.run_modify, List.append_assoc, List.singleton_append, decode, touched_ppn, both]
  rfl

/-- A number of rounds at pages of the process. -/
theorem describeFrom_reaches {k left : Nat} (decent : Decent p) (positive : 0 < p.sz) (bounded : p.sz < KERNBASE)
    (mapped : ∀ v : Vpn, v.addr < p.sz → (p.pgdir.pte v).mapped = true) (patient : 2 ≤ retries)
    (small : entries + (i + k) * ENTRY ≤ 2 ^ 32)
    (ready : Ready p.pgdir entries (entries + (i + k) * ENTRY)) (inside : i + k ≤ pageCount p.sz)
    (held : d.proc = during p entries i) :
    ∃ d', (describeFrom retries entries num (left + k) i (addrAt p.sz i)).run d =
        (describeFrom retries entries num left (i + k) (addrAt p.sz (i + k))).run d' ∧
      d'.proc = during p entries (i + k) ∧
      d'.entries = d.entries ++ (List.range' i k).map fun j => decode (countdown p.sz j)
        ((p.pgdir.touched entries (entries + (j + 1) * ENTRY)).pte (countdown p.sz j)) := by
  obtain ⟨-, last, -, -, few⟩ := pageCount_bounds positive bounded
  induction k generalizing i d with
  | zero => exact ⟨d, rfl, held, by simp⟩
  | succ k inductionHypothesis =>
    have page := vpn_addrAt positive bounded (i := i) (by omega)
    have below := countdown_below positive bounded (i := i) (by omega)
    have continues : ¬ word (i * PGSIZE) > d.proc.sz := by
      rw [held]
      unfold during word PGSIZE at *
      simp only
      omega
    have next : entries + i * ENTRY + ENTRY = entries + (i + 1) * ENTRY := by unfold ENTRY; omega
    have sooner : entries + (i + 1) * ENTRY ≤ entries + (i + (k + 1)) * ENTRY := by unfold ENTRY; omega
    have stored : ∀ v, Touches entries (entries + i * ENTRY) v → (p.pgdir.pte v).mapped = true := by
      intro v touches
      exact (ready.mono le_rfl (by unfold ENTRY; omega) v touches).1
    have orderly : Decent d.proc := held ▸ decent.touched stored
    have table : d.proc.pgdir.tables (countdown p.sz i).pdx ≠ none := by
      rw [held]
      exact decent.tidy.table (mapped _ below)
    have buffer : Ready d.proc.pgdir (entries + i * ENTRY) (entries + i * ENTRY + ENTRY) := by
      rw [held, next]
      exact ready.touched.mono (Nat.le_add_right _ _) sooner
    have both : (p.pgdir.touched entries (entries + i * ENTRY)).touched (entries + i * ENTRY)
        (entries + i * ENTRY + ENTRY) = p.pgdir.touched entries (entries + (i + 1) * ENTRY) := by
      rw [next]
      exact touched_touched (Nat.le_add_right _ _) (by omega)
    obtain ⟨km, described⟩ := describe_ready orderly patient (by omega) buffer table
    have round : (describe retries (word (entries + i * ENTRY)) (vpn (addrAt p.sz i))).run d = .ok ((), {
        proc := during p entries (i + 1)
        km := km
        stores := d.stores ++ [entries + i * ENTRY, entries + i * ENTRY + 4]
        entries := d.entries ++ [decode (countdown p.sz i)
          ((p.pgdir.touched entries (entries + (i + 1) * ENTRY)).pte (countdown p.sz i))] }) := by
      rw [page, word_small (by unfold ENTRY at *; omega), described, held]
      simp only [during, both]
    have rest : i + (k + 1) = i + 1 + k := by omega
    rw [rest] at small ready inside ⊢
    obtain ⟨d', later, held', entered⟩ := inductionHypothesis (i := i + 1) (d := {
        proc := during p entries (i + 1)
        km := km
        stores := d.stores ++ [entries + i * ENTRY, entries + i * ENTRY + 4]
        entries := d.entries ++ [decode (countdown p.sz i)
          ((p.pgdir.touched entries (entries + (i + 1) * ENTRY)).pte (countdown p.sz i))] })
      small ready inside rfl
    refine ⟨d', ?_, held', ?_⟩
    · rw [← later, ← Nat.add_assoc, describeFrom, StateT.run_bind, StateT.run_get, pure_bind, if_neg continues,
        run_bind_ok round, addrAt_succ (by omega)]
    · rw [entered, List.range'_succ, List.map_cons, List.append_assoc, List.singleton_append]

theorem describe_eq (retries entry : Nat) (v : Vpn) : describe retries entry v =
    describeAs .p5 retries entry v fun ppage pte => ⟨v.pdx.val, v.ptx, ppage, pte.p, pte.w, pte.e⟩ := rfl

/-- `describe` completes an entry, or stops at one of its words. -/
theorem describe_described {v : Vpn} (tidy : Tidy p.pgdir) (described : Described p km entries i d) :
    Ensures (describe retries (word (entries + i * ENTRY)) v) d
      (fun _ after => Described p km entries (i + 1) after ∧ p.pgdir.tables v.pdx ≠ none)
      (fun stopped => Halted p km stopped.2 ∧ (stopped.2.stores = cells entries (2 * i + 1) ∨
        stopped.2.stores = cells entries (2 * i + 2) ∧ p.pgdir.tables v.pdx ≠ none)) := by
  rw [describe_eq]
  exact describeAs_described tidy described

/-- The rounds of the loop are limited by the number of entries and by the size. Those whose second
word is stored to have a page-table page. -/
theorem describeFrom_described {left : Nat} (tidy : Tidy p.pgdir) (bounded : p.sz ≤ KERNBASE)
    (count : num = (i + left : Nat)) (inside : i ≤ p.sz / PGSIZE + 1) (described : Described p km entries i d)
    (reached : ∀ j < i, p.pgdir.tables (vpn (addrAt p.sz j)).pdx ≠ none) :
    Ensures (describeFrom retries entries num left i (addrAt p.sz i)) d
      (fun value after => value = (min (i + left) (p.sz / PGSIZE + 1) : Nat) ∧
        Described p km entries (min (i + left) (p.sz / PGSIZE + 1)) after ∧
        ∀ j < min (i + left) (p.sz / PGSIZE + 1), p.pgdir.tables (vpn (addrAt p.sz j)).pdx ≠ none)
      (fun stopped => Halted p km stopped.2 ∧ ∃ words, stopped.2.stores = cells entries words ∧
        words ≤ 2 * min (i + left) (p.sz / PGSIZE + 1) ∧
        ∀ j, 2 * j + 1 < words → p.pgdir.tables (vpn (addrAt p.sz j)).pdx ≠ none) := by
  have pages : p.sz / PGSIZE ≤ 524288 := by
    unfold PGSIZE
    unfold KERNBASE at bounded
    omega
  induction left generalizing i d with
  | zero =>
    have all : min (i + 0) (p.sz / PGSIZE + 1) = i := by omega
    rw [describeFrom, ensures_pure, all]
    exact ⟨count, described, reached⟩
  | succ left inductionHypothesis =>
    have small : word (i * PGSIZE) = i * PGSIZE := word_small (by unfold PGSIZE at *; omega)
    rw [describeFrom, ensures_bind, ensures_get, ensures_ite, described.size, small]
    split
    · rename_i past
      have all : min (i + (left + 1)) (p.sz / PGSIZE + 1) = i := by
        unfold PGSIZE at *
        omega
      rw [ensures_pure, all]
      exact ⟨rfl, described, reached⟩
    · rename_i within
      have further : i + 1 ≤ p.sz / PGSIZE + 1 := by
        unfold PGSIZE at *
        omega
      have total : i + 1 + left = i + (left + 1) := by omega
      rw [ensures_bind]
      refine (describe_described tidy described).mono (fun _ after done => ?_) fun stopped halted => ?_
      · obtain ⟨described', table⟩ := done
        rw [addrAt_succ (by omega), ← total]
        refine inductionHypothesis (count.trans (by rw [total])) further described' fun j below => ?_
        obtain earlier | rfl := Nat.lt_succ_iff_lt_or_eq.mp below
        · exact reached j earlier
        · exact table
      · obtain ⟨halted, first | ⟨second, table⟩⟩ := halted
        · exact ⟨halted, _, first, by omega, fun j below => reached j (by omega)⟩
        · refine ⟨halted, _, second, by omega, fun j below => ?_⟩
          obtain earlier | rfl := Nat.lt_succ_iff_lt_or_eq.mp (show j < i + 1 by omega)
          · exact reached j earlier
          · exact table

/-- `getpgtable` with a buffer. -/
theorem getpgtable_described (tidy : Tidy p.pgdir) (positive : 0 < p.sz) (bounded : p.sz ≤ KERNBASE)
    (count : 0 ≤ num) (buffer : entries ≠ 0) :
    Ensures (getpgtable retries entries num) ⟨p, km, [], []⟩
      (fun value after => value = (min num.toNat (p.sz / PGSIZE + 1) : Nat) ∧
        Described p km entries (min num.toNat (p.sz / PGSIZE + 1)) after ∧
        ∀ j < min num.toNat (p.sz / PGSIZE + 1), p.pgdir.tables (vpn (addrAt p.sz j)).pdx ≠ none)
      (fun stopped => Halted p km stopped.2 ∧ ∃ words, stopped.2.stores = cells entries words ∧
        words ≤ 2 * min num.toNat (p.sz / PGSIZE + 1) ∧
        ∀ j, 2 * j + 1 < words → p.pgdir.tables (vpn (addrAt p.sz j)).pdx ≠ none) := by
  have looped := @describeFrom_described p km _ retries entries 0 num num.toNat tidy bounded
    (by omega) (Nat.zero_le _) (described_start p km entries) fun _ below => absurd below (Nat.not_lt_zero _)
  rw [Nat.zero_add] at looped
  unfold getpgtable
  rw [ensures_ite, if_neg buffer, ensures_bind, ensures_get]
  simp only [addrAt_zero positive bounded]
  exact looped

end Rounds

/-! ## The result -/

section Result

variable {p : Proc} {km : Kmem} {retries entries : Nat} {num : Int}

/-- The last page begins below the size, and the rounds exceed the pages by one where the size is a
multiple of the page size. -/
theorem rounds_eq {sz : Nat} (positive : 0 < sz) (bounded : sz < KERNBASE) :
    sz / PGSIZE + 1 = if PGSIZE ∣ sz then pageCount sz + 1 else pageCount sz := by
  obtain ⟨-, last, top, some, -⟩ := pageCount_bounds positive bounded
  split
  · rename_i aligned
    obtain ⟨pages, rfl⟩ := aligned
    unfold PGSIZE at *
    omega
  · rename_i apart
    unfold PGSIZE at *
    omega

/-- The report on a buffer whose pages are mapped and writable, when the rounds do not exceed
the pages. -/
theorem getpgtable_reports (decent : Decent p) (positive : 0 < p.sz) (bounded : p.sz < KERNBASE)
    (mapped : ∀ v : Vpn, v.addr < p.sz → (p.pgdir.pte v).mapped = true) (patient : 2 ≤ retries)
    (count : 0 ≤ num) (small : entries + min num.toNat (pageCount p.sz) * ENTRY ≤ 2 ^ 32) (buffer : entries ≠ 0)
    (ready : Ready p.pgdir entries (entries + min num.toNat (pageCount p.sz) * ENTRY))
    (within : PGSIZE ∣ p.sz → num ≤ pageCount p.sz) : Reports retries p km entries num := by
  obtain ⟨rest, split⟩ := Nat.exists_eq_add_of_le' (min_le_left num.toNat (pageCount p.sz))
  obtain ⟨d, reached, held, entered⟩ := @describeFrom_reaches p ⟨p, km, [], []⟩ retries
    entries 0 num (min num.toNat (pageCount p.sz)) rest decent positive bounded mapped patient
    (by rwa [Nat.zero_add]) (by rwa [Nat.zero_add])
    (by omega) (during_zero p entries).symm
  rw [Nat.zero_add] at reached held
  rw [List.nil_append] at entered
  have started : (getpgtable retries entries num).run ⟨p, km, [], []⟩ =
      (describeFrom retries entries num num.toNat 0 (addrAt p.sz 0)).run ⟨p, km, [], []⟩ := by
    unfold getpgtable
    rw [if_neg buffer, StateT.run_bind, StateT.run_get, pure_bind]
    simp only [addrAt_zero positive bounded.le]
  have returned : (getpgtable retries entries num).run ⟨p, km, [], []⟩ =
      .ok (min num (pageCount p.sz), d) := by
    rw [started, split, reached]
    cases rest with
    | zero =>
      have all : min num (pageCount p.sz) = num := by omega
      rw [describeFrom, all]
      rfl
    | succ rest =>
      have all : min num.toNat (pageCount p.sz) = pageCount p.sz := by omega
      have value : min num (pageCount p.sz) = (pageCount p.sz : Int) := by omega
      obtain ⟨rounded, last, top, some, few⟩ := pageCount_bounds positive bounded
      have past : word (pageCount p.sz * PGSIZE) > d.proc.sz := by
        rw [held]
        have apart : ¬ PGSIZE ∣ p.sz := fun aligned => by have := within aligned; omega
        have different : p.sz ≠ pageCount p.sz * PGSIZE := fun same => apart (same ▸ Nat.dvd_mul_left ..)
        rw [word_small (by unfold PGSIZE; omega)]
        exact lt_of_le_of_ne top different
      rw [describeFrom, all, value, StateT.run_bind, StateT.run_get, pure_bind, if_pos past]
      rfl
  refine ⟨d, returned, ?_, ?_⟩
  · rw [entered, List.range_eq_range']
  · rw [entered]
    intro x member
    obtain ⟨j, below, rfl⟩ := List.mem_map.mp member
    rw [decode_addr]
    exact countdown_below positive bounded (by have := List.mem_range'_1.mp below; omega)

/-- A report that is as it is to be had a buffer whose pages were mapped and writable, and made no
more rounds than there are pages. -/
theorem reports_only (decent : Decent p) (positive : 0 < p.sz) (bounded : p.sz < KERNBASE) (count : 0 ≤ num)
    (small : entries + min num.toNat (pageCount p.sz) * ENTRY ≤ 2 ^ 32)
    (reports : Reports retries p km entries num) : entries ≠ 0 ∧
      Ready p.pgdir entries (entries + min num.toNat (pageCount p.sz) * ENTRY) ∧
      (PGSIZE ∣ p.sz → num ≤ pageCount p.sz) := by
  obtain ⟨d, returned, -⟩ := reports
  have buffer : entries ≠ 0 := by
    rintro rfl
    have refused : (getpgtable retries 0 num).run ⟨p, km, [], []⟩ = .ok (-1, ⟨p, km, [], []⟩) := rfl
    rw [refused, Except.ok.injEq, Prod.mk.injEq] at returned
    omega
  obtain ⟨value, described, -⟩ :=
    (getpgtable_described decent.tidy positive bounded.le count buffer).returned returned
  have rounds := rounds_eq positive bounded
  have fewer : pageCount p.sz ≤ p.sz / PGSIZE + 1 := by
    rw [rounds]
    split <;> omega
  refine ⟨buffer, ?_, fun aligned => ?_⟩
  · have length : min num.toNat (pageCount p.sz) * ENTRY = 4 * (2 * min num.toNat (pageCount p.sz)) := by
      unfold ENTRY
      omega
    rw [length] at small ⊢
    refine Ready.of_cells small fun a member => described.ready a ?_
    rw [described.stores]
    unfold cells at member ⊢
    obtain ⟨j, below, rfl⟩ := List.mem_map.mp member
    refine List.mem_map.mpr ⟨j, List.mem_range.mpr ?_, rfl⟩
    have := List.mem_range.mp below
    omega
  · rw [if_pos aligned] at rounds
    omega

/-- In every state of every run from a sound system, the report of a process whose pages below the
size are mapped is as it is to be if and only if it is given a buffer, the pages of the buffer are
mapped and writable, and a size that is a multiple of the page size comes with no more entries
than pages. -/
theorem getpgtable_counts_iff {s₀ s : System} {labels : List (Action × Answer)} (sound : s₀.Sound)
    (trace : Trace (System.Step .p5) s₀ labels s) (member : p ∈ s.procs) (positive : 0 < p.sz)
    (bounded : p.sz < KERNBASE) (mapped : ∀ v : Vpn, v.addr < p.sz → (p.pgdir.pte v).mapped = true)
    (count : 0 ≤ num) (patient : 2 ≤ retries)
    (small : entries + min num.toNat (pageCount p.sz) * ENTRY ≤ 2 ^ 32) :
    Reports retries p s.km entries num ↔ entries ≠ 0 ∧
      Ready p.pgdir entries (entries + min num.toNat (pageCount p.sz) * ENTRY) ∧
      (PGSIZE ∣ p.sz → num ≤ pageCount p.sz) := by
  obtain ⟨r, -, sound', -⟩ := System.trace_follows sound.follows trace
  have decent := sound'.decent p member
  constructor
  · exact reports_only decent positive bounded count small
  · rintro ⟨buffer, ready, within⟩
    exact getpgtable_reports decent positive bounded mapped patient count small buffer ready within

end Result

/-- The only page of the process, encrypted, is mapped and writable. -/
theorem sealedPage_ready {hi : Nat} (small : hi ≤ PGSIZE) : Ready System.sealedPage 16 hi := by
  intro v touches
  have first : v = 0 := Fin.ext (by
    have below := touches.2.1
    unfold Vpn.addr PGSIZE at *
    simp only [Fin.val_zero]
    omega)
  rw [first]
  decide

theorem sealedPage_mapped {v : Vpn} (below : v.addr < PGSIZE) : (System.sealedPage.pte v).mapped = true := by
  have first : v = 0 := Fin.ext (by
    unfold Vpn.addr PGSIZE at below
    simp only [Fin.val_zero]
    omega)
  rw [first]
  decide

/-- A process of one page asks for one entry, in a buffer on that page, which is encrypted. -/
theorem getpgtable_counts_iff_onePage :
    ∃ p ∈ System.onePage.procs, Reports 2 p System.onePage.km 16 1 := by
  have member : (⟨System.sealedPage, 4096, 4, fun _ => NOPAGE, none⟩ : Proc) ∈ System.onePage.procs :=
    List.mem_singleton.mpr rfl
  refine ⟨_, member, (getpgtable_counts_iff System.onePage_sound (.nil _) member (by decide) (by decide)
    (fun v below => sealedPage_mapped below) (by decide) (by decide) (by decide)).mpr ⟨by decide, ?_, ?_⟩⟩
  · exact sealedPage_ready (by decide)
  · decide

/-- It asks for two entries: the second describes the highest page there is. -/
theorem report_of_two :
    System.onePage.Sound ∧ ∀ p ∈ System.onePage.procs, p.sz = 4096 ∧
      (∀ v : Vpn, v.addr < p.sz → (p.pgdir.pte v).mapped = true) ∧ ¬ Reports 2 p System.onePage.km 16 2 := by
  refine ⟨System.onePage_sound, fun p member => ?_⟩
  have decent := System.onePage_sound.decent p member
  obtain rfl := List.mem_singleton.mp member
  refine ⟨rfl, fun v below => sealedPage_mapped below, fun reports => ?_⟩
  have within := (reports_only decent (by decide) (by decide) (by decide) (by decide) reports).2.2
  exact absurd (within (by decide)) (by decide)

end P5

end Cs537.Vm
