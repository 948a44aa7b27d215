import Cs537.Vm.PageReport
import Cs537.Vm.Refinement

/-!
# The report of p6

`getpgtable` goes down from the page of the size to page 0. It describes a page whose entry is
not zero, and which is in the clock queue if only the working set is asked for, and tests the
number of entries after that. From a size that is a multiple of the page size it starts one page
above the last, and reads its entry without asking whether there is a page-table page; and when
no entry is asked for it still writes one, if the first page is to be described.
-/

namespace Cs537.Vm

open Programs Reporting Runs

namespace P6

/-- An entry of the report for a page. -/
def decode (v : Vpn) (pte : Pte) : PtEntry :=
  ⟨⟨v.pdx.val, v.ptx, pte.ppn, pte.p, pte.w, pte.e⟩, pte.u, pte.a⟩

/-- The page is to be described. -/
def Selected (p : Proc) (wsetOnly : Int) (v : Vpn) : Prop :=
  p.pgdir.pte v ≠ {} ∧ (wsetOnly = 1 → Listed p.clockqueue v.addr)

instance (p : Proc) (wsetOnly : Int) (v : Vpn) : Decidable (Selected p wsetOnly v) :=
  inferInstanceAs (Decidable (_ ∧ _))

/-- What a report is to be: the mapped pages below the size, those in the queue if only the working
set is asked for, from the highest on and no more than are asked for. An entry shows its page as
it is when the buffer was written up to this entry, which sets the accessed flag of the pages of
the buffer. No word behind the last entry is stored to. -/
def Reports (retries : Nat) (p : Proc) (km : Kmem) (entries : Nat) (num wsetOnly : Int) : Prop :=
  ∃ pages : List Vpn, pages.Pairwise (fun v w => w.addr < v.addr) ∧
    (∀ v, v ∈ pages ↔ v.addr < p.sz ∧ (p.pgdir.pte v).mapped = true ∧
      (wsetOnly = 1 → Listed p.clockqueue v.addr)) ∧
    ∃ d, (getpgtable retries entries num wsetOnly).run ⟨p, km, [], []⟩ =
        .ok (min num pages.length, d) ∧
      d.entries = (pages.take num.toNat).mapIdx (fun i v =>
        decode v ((p.pgdir.touched entries (entries + (i + 1) * ENTRY)).pte v)) ∧
      ∀ address ∈ d.stores, entries ≤ address ∧ address + 4 ≤ entries + d.entries.length * ENTRY

/-! ## The pages of a report -/

section Listing

variable {p : Proc} {wsetOnly : Int}

/-- The pages to be described among the first `n`, from the highest on. -/
def listing (p : Proc) (wsetOnly : Int) : Nat → List Vpn
  | 0 => []
  | n + 1 =>
    if Selected p wsetOnly (vpn (n * PGSIZE)) then vpn (n * PGSIZE) :: listing p wsetOnly n
    else listing p wsetOnly n

theorem vpn_number {n : Nat} (small : n < 1048576) : (vpn (n * PGSIZE)).val = n := by
  rw [vpn_val (by unfold PGSIZE; omega), Nat.mul_div_cancel _ (by decide)]

theorem mem_listing {n : Nat} (small : n ≤ 1048576) {v : Vpn} :
    v ∈ listing p wsetOnly n ↔ v.val < n ∧ Selected p wsetOnly v := by
  induction n with
  | zero => simp [listing]
  | succ n inductionHypothesis =>
    have number := vpn_number (n := n) (by omega)
    have same : v = vpn (n * PGSIZE) ↔ v.val = n := by rw [Fin.ext_iff, number]
    have earlier := inductionHypothesis (by omega)
    rw [listing]
    split
    · rename_i selected
      rw [List.mem_cons, earlier, same]
      constructor
      · rintro (here | below)
        · exact ⟨by omega, same.mpr here ▸ selected⟩
        · exact ⟨by omega, below.2⟩
      · rintro ⟨below, chosen⟩
        by_cases here : v.val = n
        · exact .inl here
        · exact .inr ⟨by omega, chosen⟩
    · rename_i omitted
      rw [earlier]
      constructor
      · exact fun below => ⟨by omega, below.2⟩
      · rintro ⟨below, chosen⟩
        have different : v.val ≠ n := fun here => omitted (same.mpr here ▸ chosen)
        exact ⟨by omega, chosen⟩

theorem listing_descends {n : Nat} (small : n ≤ 1048576) :
    (listing p wsetOnly n).Pairwise (fun v w => w.addr < v.addr) := by
  induction n with
  | zero => exact List.Pairwise.nil
  | succ n inductionHypothesis =>
    have number := vpn_number (n := n) (by omega)
    have earlier := inductionHypothesis (by omega)
    rw [listing]
    split
    · refine List.Pairwise.cons (fun v member => ?_) earlier
      have below := ((mem_listing (by omega)).mp member).1
      unfold Vpn.addr PGSIZE
      unfold PGSIZE at number
      omega
    · exact earlier

/-- `searchwset` finds the pages in the queue. -/
theorem searchwset_iff {v : Vpn} : searchwset p v.addr = true ↔ Listed p.clockqueue v.addr := by
  unfold searchwset Listed
  simp only [List.any_eq_true, List.mem_finRange, true_and, Bool.and_eq_true, decide_eq_true_eq]
  constructor
  · rintro ⟨slot, -, held⟩
    exact ⟨slot, held⟩
  · rintro ⟨slot, held⟩
    exact ⟨slot, fun empty => addr_ne_NOPAGE v (held.symm.trans empty), held⟩

/-- The test of a round. -/
theorem selected_iff {n : Nat} (small : n < 1048576) :
    (p.pgdir.pte (vpn (n * PGSIZE)) ≠ {} ∧ (wsetOnly = 1 → searchwset p (n * PGSIZE) = true)) ↔
      Selected p wsetOnly (vpn (n * PGSIZE)) := by
  have address : (vpn (n * PGSIZE)).addr = n * PGSIZE := by
    unfold Vpn.addr
    rw [vpn_number small]
  unfold Selected
  rw [← searchwset_iff, address]

end Listing

/-! ## The loop on a buffer in clear -/

section Loop

variable {p : Proc} {wsetOnly : Int} {d : Desk PtEntry} {retries entries : Nat}

/-- The two words of an entry are stored to, and the entry is complete. -/
theorem describe_clear {entry : Nat} {v : Vpn} (small : entry + ENTRY ≤ 2 ^ 32)
    (clear : Clear d.proc.pgdir entry (entry + ENTRY)) (table : d.proc.pgdir.tables v.pdx ≠ none) :
    (describe retries entry v).run d = .ok ((), {
      proc := { d.proc with pgdir := d.proc.pgdir.touched entry (entry + ENTRY) }
      km := d.km
      stores := d.stores ++ [entry, entry + 4]
      entries := d.entries ++ [decode v ((d.proc.pgdir.touched entry (entry + ENTRY)).pte v)] }) := by
  unfold ENTRY at *
  have first : Clear d.proc.pgdir entry (entry + 4) := clear.mono le_rfl (by omega)
  have second : Clear (d.proc.pgdir.touched entry (entry + 4)) (entry + 4) (entry + 4 + 4) :=
    (clear.touched _ _).mono (by omega) le_rfl
  have both : (d.proc.pgdir.touched entry (entry + 4)).touched (entry + 4) (entry + 8) =
      d.proc.pgdir.touched entry (entry + 8) := touched_touched (by omega) (by omega)
  unfold describe
  refine (run_bind_ok (store_clear (by omega) first)).trans ?_
  refine (run_bind_ok (readPte_run (by exact table))).trans ?_
  rw [word_small (by omega)]
  refine (run_bind_ok (store_clear (by omega) second)).trans ?_
  refine (run_bind_ok (readPte_run (by exact table))).trans ?_
  simp only [complete, StateT.run_modify, List.append_assoc, List.singleton_append, decode, touched_ppn, both]
  rfl

/-- The state after a page was described. -/
def described (p : Proc) (entries index : Nat) (v : Vpn) (d : Desk PtEntry) : Desk PtEntry where
  proc := during p entries (index + 1)
  km := d.km
  stores := d.stores ++ [entries + index * ENTRY, entries + index * ENTRY + 4]
  entries := d.entries ++ [decode v ((p.pgdir.touched entries (entries + (index + 1) * ENTRY)).pte v)]

/-- The selection of a page does not change during the report. -/
theorem during_selected {index : Nat} {v : Vpn}
    (clear : Clear p.pgdir entries (entries + index * ENTRY)) :
    Selected (during p entries index) wsetOnly v ↔ Selected p wsetOnly v := by
  unfold Selected during
  simp only [touched_pte]
  split
  · rename_i touches
    have present := (clear v touches).2.1
    have filled : p.pgdir.pte v ≠ {} := by
      intro empty
      rw [empty] at present
      cases present
    refine and_congr_left fun _ => iff_of_true (fun empty => ?_) filled
    have impossible := congrArg (fun x : Pte => x.p) empty
    cases impossible
  · rfl

/-- A round at a page that is not to be described. -/
theorem describePage_skip {n index : Nat} (table : d.proc.pgdir.tables (vpn (n * PGSIZE)).pdx ≠ none)
    (small : n < 1048576) (omitted : ¬ Selected d.proc wsetOnly (vpn (n * PGSIZE))) :
    (describePage retries entries wsetOnly n index).run d = .ok (index, d) := by
  unfold describePage
  refine (run_bind_ok (readPte_run table)).trans ?_
  simp only [StateT.run_bind, StateT.run_get, pure_bind, if_neg (mt (selected_iff small).mp omitted)]
  rfl

/-- A round at a page that is to be described. -/
theorem describePage_clear {n index : Nat} (table : d.proc.pgdir.tables (vpn (n * PGSIZE)).pdx ≠ none)
    (small : n < 1048576) (selected : Selected d.proc wsetOnly (vpn (n * PGSIZE)))
    (held : d.proc = during p entries index) (room : entries + (index + 1) * ENTRY ≤ 2 ^ 32)
    (clear : Clear p.pgdir entries (entries + (index + 1) * ENTRY)) :
    (describePage retries entries wsetOnly n index).run d =
      .ok (index + 1, described p entries index (vpn (n * PGSIZE)) d) := by
  have next : entries + index * ENTRY + ENTRY = entries + (index + 1) * ENTRY := by unfold ENTRY; omega
  have buffer : Clear d.proc.pgdir (entries + index * ENTRY) (entries + index * ENTRY + ENTRY) := by
    rw [next, held]
    exact (clear.touched _ _).mono (Nat.le_add_right _ _) le_rfl
  have both : (p.pgdir.touched entries (entries + index * ENTRY)).touched (entries + index * ENTRY)
      (entries + index * ENTRY + ENTRY) = p.pgdir.touched entries (entries + (index + 1) * ENTRY) := by
    rw [next]
    exact touched_touched (Nat.le_add_right _ _) (by omega)
  unfold describePage
  refine (run_bind_ok (readPte_run table)).trans ?_
  simp only [StateT.run_bind, StateT.run_get, pure_bind, if_pos ((selected_iff small).mpr selected)]
  rw [word_small (by unfold ENTRY at *; omega), describe_clear (by omega) buffer table, held]
  simp only [during, described, both]
  rfl

/-- The report went on with these pages, from an entry on: as many of them as were asked for are
described, and the words that were stored to are those of their entries. -/
structure Continues (p : Proc) (entries : Nat) (num : Int) (index : Nat) (pages : List Vpn)
    (d d' : Desk PtEntry) (value : Int) : Prop where
  counted : value = min num (index + pages.length : Nat)
  entered : d'.entries = d.entries ++ (pages.take (num.toNat - index)).mapIdx fun i v =>
    decode v ((p.pgdir.touched entries (entries + (index + i + 1) * ENTRY)).pte v)
  stored : ∀ address ∈ d'.stores, address ∈ d.stores ∨
    entries ≤ address ∧ address + 4 ≤ entries + value.toNat * ENTRY

section Continues

variable {num value : Int} {index : Nat} {v : Vpn} {rest : List Vpn} {d' : Desk PtEntry}

/-- There are no more pages. -/
theorem Continues.nil (room : index < num.toNat) : Continues p entries num index [] d d index := by
  refine ⟨?_, ?_, fun address member => .inl member⟩
  · rw [List.length_nil, Nat.add_zero]
    omega
  · rw [List.take_nil, List.mapIdx_nil, List.append_nil]

theorem described_stored {address : Nat} (member : address ∈ (described p entries index v d).stores) :
    address ∈ d.stores ∨ entries ≤ address ∧ address + 4 ≤ entries + (index + 1) * ENTRY := by
  rcases List.mem_append.mp member with old | new
  · exact .inl old
  · unfold ENTRY at *
    simp only [List.mem_cons, List.not_mem_nil, or_false] at new
    omega

/-- The page that was described is the last one, or no more are asked for. -/
theorem Continues.last (room : index < num.toNat) (ends : rest = [] ∨ num.toNat = index + 1) :
    Continues p entries num index (v :: rest) d (described p entries index v d) (index + 1 : Nat) := by
  have one : (v :: rest).take (num.toNat - index) = [v] := by
    rw [show num.toNat - index = (num.toNat - index - 1) + 1 by omega, List.take_succ_cons]
    rcases ends with rfl | full
    · rw [List.take_nil]
    · rw [full, Nat.add_sub_cancel_left, Nat.sub_self, List.take_zero]
  refine ⟨?_, ?_, fun address member => described_stored member⟩
  · rw [List.length_cons]
    rcases ends with rfl | full
    · rw [List.length_nil]
      omega
    · omega
  · rw [one]
    rfl

/-- The report goes on after the page. -/
theorem Continues.cons (room : index + 1 < num.toNat)
    (later : Continues p entries num (index + 1) rest (described p entries index v d) d' value) :
    Continues p entries num index (v :: rest) d d' value := by
  obtain ⟨counted, entered, stored⟩ := later
  refine ⟨?_, ?_, fun address member => ?_⟩
  · rw [counted, List.length_cons]
    omega
  · have first : num.toNat - index = (num.toNat - (index + 1)) + 1 := by omega
    have shift : ∀ i, index + (i + 1) = index + 1 + i := fun i => by omega
    rw [first, List.take_succ_cons, List.mapIdx_cons, entered, described, List.append_assoc]
    refine congrArg (fun later => d.entries ++ ([_] ++ later))
      (List.mapIdx_eq_mapIdx_iff.mpr fun i inside => ?_)
    rw [shift i]
  · rcases stored address member with before | here
    · refine (described_stored before).imp_right fun here => ⟨here.1, here.2.trans ?_⟩
      unfold ENTRY
      omega
    · exact .inr here

end Continues

/-- The loop on a buffer in clear, while there is room. -/
theorem describeFrom_clear {n index : Nat} {num : Int} (below : n < 1048576)
    (tables : ∀ m ≤ n, p.pgdir.tables (vpn (m * PGSIZE)).pdx ≠ none)
    (small : entries + num.toNat * ENTRY ≤ 2 ^ 32)
    (clear : Clear p.pgdir entries (entries + num.toNat * ENTRY)) (room : index < num.toNat)
    (held : d.proc = during p entries index) :
    ∃ value d', (describeFrom retries entries num wsetOnly n index).run d = .ok (value, d') ∧
      Continues p entries num index (listing p wsetOnly (n + 1)) d d' value := by
  have sooner : entries + (index + 1) * ENTRY ≤ entries + num.toNat * ENTRY := by
    unfold ENTRY
    omega
  have table : d.proc.pgdir.tables (vpn (n * PGSIZE)).pdx ≠ none := by
    rw [held]
    exact tables n le_rfl
  have same : Selected d.proc wsetOnly (vpn (n * PGSIZE)) ↔ Selected p wsetOnly (vpn (n * PGSIZE)) := by
    rw [held]
    exact during_selected (clear.mono le_rfl (by unfold ENTRY; omega))
  induction n generalizing d index with
  | zero =>
    rw [listing, describeFrom]
    by_cases selected : Selected p wsetOnly (vpn (0 * PGSIZE))
    · rw [if_pos selected, run_bind_ok (describePage_clear table below (same.mpr selected) held (by omega)
        (clear.mono le_rfl sooner))]
      exact ⟨_, _, rfl, Continues.last room (.inl rfl)⟩
    · rw [if_neg selected, run_bind_ok (describePage_skip table below (mt same.mp selected))]
      exact ⟨_, _, rfl, Continues.nil room⟩
  | succ n inductionHypothesis =>
    rw [listing, describeFrom]
    by_cases selected : Selected p wsetOnly (vpn ((n + 1) * PGSIZE))
    · rw [if_pos selected, run_bind_ok (describePage_clear table below (same.mpr selected) held (by omega)
        (clear.mono le_rfl sooner))]
      by_cases full : num.toNat = index + 1
      · rw [if_pos (by omega)]
        exact ⟨_, _, rfl, Continues.last room (.inr full)⟩
      · rw [if_neg (by omega)]
        have more : index + 1 < num.toNat := by omega
        obtain ⟨value, d', later, went⟩ := @inductionHypothesis
          (described p entries index (vpn ((n + 1) * PGSIZE)) d) (index + 1) (by omega)
          (fun m small => tables m (by omega)) more rfl (by unfold ENTRY; omega) (tables n (by omega))
          (during_selected (clear.mono le_rfl (by unfold ENTRY; omega)))
        exact ⟨value, d', later, Continues.cons more went⟩
    · rw [if_neg selected, run_bind_ok (describePage_skip table below (mt same.mp selected)),
        if_neg (by omega)]
      refine inductionHypothesis (by omega) (fun m small => tables m (by omega)) room held sooner ?_ ?_
      · rw [held]
        exact tables n (by omega)
      · rw [held]
        exact during_selected (clear.mono le_rfl (by unfold ENTRY; omega))

end Loop

/-! ## Any report -/

section Any

variable {d : Desk PtEntry} {retries entries : Nat} {wsetOnly num : Int}

/-- What a page leaves behind when it is described, or when the report stops at it: only the two words
of its entry were stored to. -/
structure Wrote (d : Desk PtEntry) (entry : Nat) (after : Desk PtEntry) : Prop where
  stores : ∀ address ∈ after.stores, address ∈ d.stores ∨ address = entry ∨ address = word (entry + 4)
  retouched : Retouches d.proc.pgdir d.km after.proc.pgdir after.km
  size : after.proc.sz = d.proc.sz

theorem Wrote.store {entry address : Nat} {middle after : Desk PtEntry} (wrote : Wrote d entry middle)
    (stored : Stored middle address after) (own : address = entry ∨ address = word (entry + 4)) :
    Wrote d entry after := by
  refine ⟨fun other member => ?_, wrote.retouched.trans stored.retouched, stored.size.trans wrote.size⟩
  rw [stored.stores] at member
  rcases List.mem_append.mp member with old | new
  · exact wrote.stores other old
  · obtain rfl := List.mem_singleton.mp new
    exact .inr own

theorem describe_ensures {entry : Nat} {v : Vpn} (tidy : Tidy d.proc.pgdir) :
    Ensures (describe retries entry v) d
      (fun _ after => Wrote d entry after ∧
        ∃ x : PtEntry, after.entries = d.entries ++ [x] ∧ x.pdx = v.pdx.val ∧ x.ptx = v.ptx)
      (fun stopped => Wrote d entry stopped.2) := by
  have start : Wrote d entry d := ⟨fun _ member => .inl member, Retouches.refl _ _, rfl⟩
  unfold describe
  rw [ensures_bind]
  refine (store_ensures tidy).mono (fun _ first stored => ?_) fun _ stored => start.store stored (.inl rfl)
  have wrote := start.store stored (.inl rfl)
  rw [ensures_bind]
  refine readPte_ensures.mono (fun x _ read => ?_) fun _ read => read ▸ wrote
  obtain ⟨rfl, rfl⟩ := read
  rw [ensures_bind]
  refine (store_ensures (stored.retouched.tidy tidy)).mono (fun _ second stored' => ?_)
    fun _ stored' => wrote.store stored' (.inr rfl)
  have wrote' := wrote.store stored' (.inr rfl)
  rw [ensures_bind]
  refine readPte_ensures.mono (fun x _ read => ?_) fun _ read => read ▸ wrote'
  obtain ⟨rfl, rfl⟩ := read
  rw [complete, ensures_modify]
  refine ⟨⟨wrote'.stores, wrote'.retouched, wrote'.size⟩, ?_⟩
  rw [stored'.entries, stored.entries]
  exact ⟨_, rfl, rfl, rfl⟩

/-- A page that is to be described is described when the round returns. -/
theorem describePage_selected {n index : Nat} (tidy : Tidy d.proc.pgdir) (small : n < 1048576)
    (selected : Selected d.proc wsetOnly (vpn (n * PGSIZE))) :
    Ensures (describePage retries entries wsetOnly n index) d
      (fun next after => next = index + 1 ∧ Wrote d (word (entries + index * ENTRY)) after ∧
        ∃ x : PtEntry, after.entries = d.entries ++ [x] ∧
          x.pdx = (vpn (n * PGSIZE)).pdx.val ∧ x.ptx = (vpn (n * PGSIZE)).ptx)
      (fun stopped => Wrote d (word (entries + index * ENTRY)) stopped.2) := by
  have start : Wrote d (word (entries + index * ENTRY)) d :=
    ⟨fun _ member => .inl member, Retouches.refl _ _, rfl⟩
  unfold describePage
  rw [ensures_bind]
  refine readPte_ensures.mono (fun x _ read => ?_) fun _ read => read ▸ start
  obtain ⟨rfl, rfl⟩ := read
  rw [ensures_bind, ensures_get, ensures_ite, if_pos ((selected_iff small).mpr selected), ensures_bind]
  refine (describe_ensures tidy).mono (fun _ after done => ?_) fun _ wrote => wrote
  rw [ensures_pure]
  exact ⟨rfl, done⟩

/-- A page that is not to be described is passed over. -/
theorem describePage_omitted {n index : Nat} (small : n < 1048576)
    (omitted : ¬ Selected d.proc wsetOnly (vpn (n * PGSIZE))) :
    Ensures (describePage retries entries wsetOnly n index) d (fun next after => next = index ∧ after = d)
      (fun stopped => stopped.2 = d) := by
  unfold describePage
  rw [ensures_bind]
  refine readPte_ensures.mono (fun x _ read => ?_) fun _ same => same
  obtain ⟨rfl, rfl⟩ := read
  rw [ensures_bind, ensures_get, ensures_ite, if_neg (mt (selected_iff small).mp omitted), ensures_pure]
  exact ⟨rfl, rfl⟩

/-- Entries are only added. -/
theorem describeFrom_extends {n index : Nat} (tidy : Tidy d.proc.pgdir) (small : n < 1048576) :
    Ensures (describeFrom retries entries num wsetOnly n index) d (fun _ after => d.entries <+: after.entries)
      (fun _ => True) := by
  have round : ∀ (n index : Nat) (d : Desk PtEntry), n < 1048576 → Tidy d.proc.pgdir →
      Ensures (describePage retries entries wsetOnly n index) d
        (fun _ after => d.entries <+: after.entries ∧ Tidy after.proc.pgdir) (fun _ => True) := by
    intro n index d small tidy
    by_cases selected : Selected d.proc wsetOnly (vpn (n * PGSIZE))
    · refine (describePage_selected tidy small selected).mono (fun _ after done => ?_) fun _ _ => trivial
      obtain ⟨-, wrote, x, entered, -⟩ := done
      exact ⟨⟨[x], entered.symm⟩, wrote.retouched.tidy tidy⟩
    · refine (describePage_omitted small selected).mono (fun _ after done => ?_) fun _ _ => trivial
      rw [done.2]
      exact ⟨List.prefix_rfl, tidy⟩
  induction n generalizing d index with
  | zero =>
    rw [describeFrom, ensures_bind]
    exact (round 0 index d small tidy).mono (fun _ after done => done.1) fun _ _ => trivial
  | succ n inductionHypothesis =>
    rw [describeFrom, ensures_bind]
    refine (round (n + 1) index d small tidy).mono (fun next after done => ?_) fun _ _ => trivial
    rw [ensures_ite]
    split
    · exact done.1
    · exact (inductionHypothesis done.2 (by omega)).mono (fun _ _ longer => done.1.trans longer) fun _ _ => trivial

/-- The page that the report starts with has the first entry. -/
theorem getpgtable_first {p : Proc} {km : Kmem} (tidy : Tidy p.pgdir) (bounded : p.sz ≤ KERNBASE)
    (mode : wsetOnly = 0 ∨ wsetOnly = 1) (selected : Selected p wsetOnly (vpn p.sz)) :
    Ensures (getpgtable retries entries num wsetOnly) ⟨p, km, [], []⟩
      (fun _ after => ∃ x : PtEntry, [x] <+: after.entries ∧ x.pdx = (vpn p.sz).pdx.val ∧ x.ptx = (vpn p.sz).ptx)
      (fun _ => True) := by
  have top : vpn (p.sz / PGSIZE * PGSIZE) = vpn p.sz := vpn_PGROUNDDOWN p.sz
  have small : p.sz / PGSIZE < 1048576 := by
    unfold PGSIZE
    unfold KERNBASE at bounded
    omega
  have chosen : Selected p wsetOnly (vpn (p.sz / PGSIZE * PGSIZE)) := by rwa [top]
  unfold getpgtable
  rw [ensures_ite, if_neg (by omega), ensures_bind, ensures_get]
  simp only
  rw [← top]
  generalize p.sz / PGSIZE = n at small chosen
  have round := @describePage_selected ⟨p, km, [], []⟩ retries entries wsetOnly n 0 tidy small chosen
  cases n with
  | zero =>
    rw [describeFrom, ensures_bind]
    refine round.mono (fun _ after done => ?_) fun _ _ => trivial
    obtain ⟨-, -, x, entered, indices⟩ := done
    rw [ensures_pure, entered]
    exact ⟨x, List.prefix_rfl, indices⟩
  | succ n =>
    rw [describeFrom, ensures_bind]
    refine round.mono (fun _ after done => ?_) fun _ _ => trivial
    obtain ⟨-, wrote, x, entered, indices⟩ := done
    rw [ensures_ite]
    split
    · rw [ensures_pure, entered]
      exact ⟨x, List.prefix_rfl, indices⟩
    · refine (describeFrom_extends (wrote.retouched.tidy tidy) (by omega)).mono (fun _ last longer => ?_)
        fun _ _ => trivial
      rw [entered] at longer
      exact ⟨x, longer, indices⟩

/-- Without a page-table page for the page of the size there is no entry to read. -/
theorem getpgtable_missing {p : Proc} {km : Kmem} (mode : wsetOnly = 0 ∨ wsetOnly = 1)
    (missing : p.pgdir.tables (vpn p.sz).pdx = none) :
    (getpgtable retries entries num wsetOnly).run ⟨p, km, [], []⟩ = .error (.nullEntry, ⟨p, km, [], []⟩) := by
  have top : p.pgdir.tables (vpn (p.sz / PGSIZE * PGSIZE)).pdx = none := by
    rw [show vpn (p.sz / PGSIZE * PGSIZE) = vpn p.sz from vpn_PGROUNDDOWN p.sz]
    exact missing
  have stops : ∀ index, (describePage retries entries wsetOnly (p.sz / PGSIZE) index).run ⟨p, km, [], []⟩ =
      .error (.nullEntry, ⟨p, km, [], []⟩) := fun _ => run_bind_error (readPte_missing top)
  unfold getpgtable
  rw [if_neg (by omega), StateT.run_bind, StateT.run_get, pure_bind]
  simp only
  generalize p.sz / PGSIZE = n at stops
  cases n with
  | zero => exact run_bind_error (stops 0)
  | succ n => exact run_bind_error (stops 0)

end Any

/-! ## The result -/

section Result

variable {p : Proc} {km : Kmem} {retries entries : Nat} {num wsetOnly : Int}

/-- The pages from the page of the size down are the pages of the report, unless the former is to
be described and lies at the size. -/
theorem mem_listing_iff (decent : Decent p) (mapped : ∀ v : Vpn, v.addr < p.sz → (p.pgdir.pte v).mapped = true)
    (top : Selected p wsetOnly (vpn p.sz) → ¬ PGSIZE ∣ p.sz) (v : Vpn) :
    v ∈ listing p wsetOnly (p.sz / PGSIZE + 1) ↔ v.addr < p.sz ∧ (p.pgdir.pte v).mapped = true ∧
      (wsetOnly = 1 → Listed p.clockqueue v.addr) := by
  have bounded := decent.bounded
  unfold KERNBASE at bounded
  rw [mem_listing (by unfold PGSIZE; omega)]
  constructor
  · rintro ⟨number, selected⟩
    have below : v.addr < p.sz := by
      by_contra above
      have here : v.addr = p.sz := by
        unfold Vpn.addr PGSIZE at *
        omega
      have same : vpn p.sz = v := by rw [← here, vpn_of_addr]
      exact top (same ▸ selected) ⟨v.val, by rw [← here, Vpn.addr, Nat.mul_comm]⟩
    exact ⟨below, mapped v below, selected.2⟩
  · rintro ⟨below, kept, listed⟩
    refine ⟨?_, fun empty => ?_, listed⟩
    · unfold Vpn.addr PGSIZE at *
      omega
    · rw [empty] at kept
      cases kept

/-- The report of a process whose pages below the size are mapped, on a buffer in clear. -/
theorem reports_iff (decent : Decent p) (mapped : ∀ v : Vpn, v.addr < p.sz → (p.pgdir.pte v).mapped = true)
    (count : 0 ≤ num) (mode : wsetOnly = 0 ∨ wsetOnly = 1) (small : entries + num.toNat * ENTRY ≤ 2 ^ 32)
    (buffer : Clear p.pgdir entries (entries + num.toNat * ENTRY)) :
    Reports retries p km entries num wsetOnly ↔ p.pgdir.tables (vpn p.sz).pdx ≠ none ∧
      (Selected p wsetOnly (vpn p.sz) → 0 < num ∧ ¬ PGSIZE ∣ p.sz) := by
  have bounded := decent.bounded
  unfold KERNBASE at bounded
  have number : p.sz / PGSIZE < 1048576 := by
    unfold PGSIZE
    omega
  have topmost : vpn (p.sz / PGSIZE * PGSIZE) = vpn p.sz := vpn_PGROUNDDOWN p.sz
  constructor
  · rintro ⟨pages, descends, exactly, d, returned, entered, stored⟩
    refine ⟨fun missing => ?_, fun selected => ?_⟩
    · rw [getpgtable_missing mode missing] at returned
      cases returned
    · obtain ⟨x, ⟨others, first⟩, pdx, ptx⟩ :=
        (getpgtable_first decent.tidy decent.bounded mode selected).returned returned
      rw [entered] at first
      cases listed : pages.take num.toNat with
      | nil => simp [listed] at first
      | cons v rest =>
        have positive : num.toNat ≠ 0 := by
          intro zero
          simp [zero] at listed
        have member : v ∈ pages := List.mem_of_mem_take (listed ▸ List.mem_cons_self)
        rw [listed, List.mapIdx_cons, List.singleton_append, List.cons.injEq] at first
        rw [first.1] at pdx ptx
        have same : v = vpn p.sz := by
          simp only [decode, Vpn.pdx, Vpn.ptx] at pdx ptx
          exact Fin.ext (by omega)
        refine ⟨by omega, fun aligned => ?_⟩
        have below := ((exactly v).mp member).1
        rw [same, vpn_addr (by omega) aligned] at below
        exact absurd below (lt_irrefl _)
  · rintro ⟨table, condition⟩
    have tables : ∀ m ≤ p.sz / PGSIZE, p.pgdir.tables (vpn (m * PGSIZE)).pdx ≠ none := by
      intro m small
      by_cases top : m = p.sz / PGSIZE
      · rwa [top, topmost]
      · refine decent.tidy.table (mapped _ ?_)
        unfold Vpn.addr
        rw [vpn_number (by omega)]
        unfold PGSIZE at *
        omega
    refine ⟨listing p wsetOnly (p.sz / PGSIZE + 1), listing_descends (by omega),
      mem_listing_iff decent mapped fun selected => (condition selected).2, ?_⟩
    have run : (getpgtable retries entries num wsetOnly).run ⟨p, km, [], []⟩ =
        (describeFrom retries entries num wsetOnly (p.sz / PGSIZE) 0).run ⟨p, km, [], []⟩ := by
      unfold getpgtable
      rw [if_neg (by omega), StateT.run_bind, StateT.run_get, pure_bind]
    rw [run]
    by_cases positive : 0 < num
    · obtain ⟨value, d', returned, continues⟩ := @describeFrom_clear p wsetOnly ⟨p, km, [], []⟩ retries entries
        (p.sz / PGSIZE) 0 num number tables small buffer (by omega) (during_zero p entries).symm
      obtain ⟨counted, described, stored⟩ := continues
      rw [Nat.zero_add] at counted
      have length : value.toNat = d'.entries.length := by
        rw [described, counted, List.nil_append, List.length_mapIdx, List.length_take]
        omega
      refine ⟨d', by rw [returned, counted], ?_, fun address member => ?_⟩
      · rw [described, List.nil_append, Nat.sub_zero]
        simp only [Nat.zero_add]
      · rw [← length]
        exact (stored address member).resolve_left List.not_mem_nil
    · have omitted : ¬ Selected p wsetOnly (vpn (p.sz / PGSIZE * PGSIZE)) := by
        rw [topmost]
        exact fun selected => positive (condition selected).1
      have none : num = 0 := by omega
      have round : (describePage retries entries wsetOnly (p.sz / PGSIZE) 0).run ⟨p, km, [], []⟩ =
          .ok (0, ⟨p, km, [], []⟩) := describePage_skip (by exact tables _ le_rfl) number omitted
      refine ⟨⟨p, km, [], []⟩, ?_, ?_, fun address member => absurd member List.not_mem_nil⟩
      · have least : min num (listing p wsetOnly (p.sz / PGSIZE + 1)).length = 0 := by omega
        rw [least]
        generalize p.sz / PGSIZE = n at round
        cases n with
        | zero =>
          rw [describeFrom, run_bind_ok round]
          rfl
        | succ n =>
          rw [describeFrom, run_bind_ok round, if_pos (by omega)]
          rfl
      · rw [none]
        rfl

/-- In every state of every run from a sound system, the report of a process whose pages below the
size are mapped is as it is to be if and only if there is a page-table page for the page of the
size, and this page is not to be described, unless entries are asked for and the size is not a
multiple of the page size. -/
theorem getpgtable_reports_iff {s₀ s : System} {labels : List (Action × Answer)} (sound : s₀.Sound)
    (trace : Trace (System.Step .p6) s₀ labels s) (member : p ∈ s.procs)
    (mapped : ∀ v : Vpn, v.addr < p.sz → (p.pgdir.pte v).mapped = true) (count : 0 ≤ num)
    (mode : wsetOnly = 0 ∨ wsetOnly = 1) (small : entries + num.toNat * ENTRY ≤ 2 ^ 32)
    (buffer : Clear p.pgdir entries (entries + num.toNat * ENTRY)) :
    Reports retries p s.km entries num wsetOnly ↔ p.pgdir.tables (vpn p.sz).pdx ≠ none ∧
      (Selected p wsetOnly (vpn p.sz) → 0 < num ∧ ¬ PGSIZE ∣ p.sz) := by
  obtain ⟨r, -, sound', -⟩ := System.trace_follows sound.follows trace
  exact reports_iff (sound'.decent p member) mapped count mode small buffer

end Result

/-- A process that has touched its only page asks for its working set, in a buffer on that page. -/
theorem getpgtable_reports_iff_touched :
    ∃ s, Trace (System.Step .p6) System.onePage [(.load 0 5, .fault)] s ∧
      ∃ p ∈ s.procs, Reports 0 p s.km 16 1 1 := by
  have performed : (System.onePage.perform .p6 [.load 0 5]).map (fun r =>
      (r.1, r.2.procs.map fun p => (p.sz, p.pgdir.pte 0, p.pgdir.pte 1, (p.pgdir.tables 0).isSome))) =
      some ([(.load 0 5, .fault)],
        [(4096, { p := true, w := true, u := true, a := true, ppn := 3 }, {}, true)]) := by decide +kernel
  obtain ⟨⟨labels, last⟩, completed, facts⟩ := Option.map_eq_some_iff.mp performed
  obtain ⟨rfl, shape⟩ := Prod.mk.inj facts
  obtain ⟨p, procs, facts⟩ := List.map_eq_singleton_iff.mp shape
  obtain ⟨size, zero, one, table⟩ : p.sz = 4096 ∧ p.pgdir.pte 0 = _ ∧ p.pgdir.pte 1 = {} ∧ _ := by
    simpa only [Prod.mk.injEq] using facts
  have trace := System.perform_trace completed
  have member : p ∈ last.procs := by rw [procs]; exact List.mem_singleton_self p
  have here : p.pgdir.tables 0 ≠ none := Option.isSome_iff_ne_none.mp table
  have top : vpn p.sz = 1 := by rw [size]; decide
  refine ⟨last, trace, p, member, (getpgtable_reports_iff System.onePage_sound trace member ?_ (by decide)
    (.inr rfl) (by decide) ?_).mpr ⟨?_, fun selected => ?_⟩⟩
  · intro v below
    have first : v = 0 := Fin.ext (by rw [size] at below; unfold Vpn.addr PGSIZE at below; simp; omega)
    rw [first, zero]
    rfl
  · intro v touches
    have first : v = 0 := Fin.ext (by
      have below := touches.2.1
      unfold Vpn.addr PGSIZE ENTRY at below
      simp at below ⊢
      omega)
    rw [first, zero]
    exact ⟨here, rfl, rfl, rfl⟩
  · rw [top]
    exact here
  · rw [top] at selected
    exact absurd one selected.1

/-- The process gives back the end of its page and asks for no entry: it gets one. -/
theorem report_of_none :
    ∃ s, Trace (System.Step .p6) System.onePage [(.load 0 5, .fault), (.sbrk 0 (-96), .done)] s ∧
      ∃ p ∈ s.procs, p.sz = 4000 ∧ (∀ v : Vpn, v.addr < p.sz → (p.pgdir.pte v).mapped = true) ∧
        Clear p.pgdir 16 (16 + (0 : Int).toNat * ENTRY) ∧ ¬ Reports 0 p s.km 16 0 0 := by
  have performed : (System.onePage.perform .p6 [.load 0 5, .sbrk 0 (-96)]).map (fun r =>
      (r.1, r.2.procs.map fun p => (p.sz, p.pgdir.pte 0))) =
      some ([(.load 0 5, .fault), (.sbrk 0 (-96), .done)],
        [(4000, { p := true, w := true, u := true, a := true, ppn := 3 })]) := by decide +kernel
  obtain ⟨⟨labels, last⟩, completed, facts⟩ := Option.map_eq_some_iff.mp performed
  obtain ⟨rfl, shape⟩ := Prod.mk.inj facts
  obtain ⟨p, procs, facts⟩ := List.map_eq_singleton_iff.mp shape
  obtain ⟨size, zero⟩ : p.sz = 4000 ∧ p.pgdir.pte 0 = _ := by simpa only [Prod.mk.injEq] using facts
  have trace := System.perform_trace completed
  have member : p ∈ last.procs := by rw [procs]; exact List.mem_singleton_self p
  obtain ⟨r, -, sound, -⟩ := System.trace_follows System.onePage_sound.follows trace
  have mapped : ∀ v : Vpn, v.addr < p.sz → (p.pgdir.pte v).mapped = true := by
    intro v below
    have first : v = 0 := Fin.ext (by rw [size] at below; unfold Vpn.addr PGSIZE at below; simp; omega)
    rw [first, zero]
    rfl
  have buffer : Clear p.pgdir 16 (16 + (0 : Int).toNat * ENTRY) := fun v touches => absurd touches.1 (by decide)
  have top : vpn p.sz = 0 := by rw [size]; decide
  refine ⟨last, trace, p, member, size, mapped, buffer, fun reports => ?_⟩
  have condition := ((reports_iff (sound.decent p member) mapped (by decide) (.inl rfl) (by decide)
    buffer).mp reports).2
  have selected : Selected p 0 (vpn p.sz) := by
    rw [top, Selected, zero]
    exact ⟨by decide, fun impossible => absurd impossible (by decide)⟩
  exact absurd (condition selected).1 (by decide)

end P6

end Cs537.Vm
