import Cs537.Vm.DescendingReport
import Cs537.Vm.WrittenWords

/-!
# Where a report is written

`sys_getpgtable` checks the buffer with the size of a pointer, four bytes, before anything is known
of the number of entries. The report then stores two words for every entry. Behind the last byte
of the process there is more of its last page, which is mapped and writable, and nothing stops the
kernel there.
-/

namespace Cs537.Vm

open Programs Reporting Runs

/-- The check of `argptr`. -/
def argptr (sz address size : Nat) : Bool := !(address ≥ sz || word (address + size) > sz)

/-- `sys_getpgtable` of p5 with its arguments. The size is that of the pointer `entries`. -/
def P5.sys_getpgtable (retries entries : Nat) (num : Int) : Reporting PtEntry Int := do
  if argptr (← get).proc.sz entries 4 then getpgtable retries entries num else return -1

/-- `sys_getpgtable` of p6 with its arguments. -/
def P6.sys_getpgtable (retries entries : Nat) (num wsetOnly : Int) : Reporting PtEntry Int := do
  if argptr (← get).proc.sz entries 4 then getpgtable retries entries num wsetOnly else return -1

namespace Reporting

/-- What is asked of a call: unless it returns -1, every word that it has written lies below the size. -/
def Inside {α : Type} (sz : Nat) (result : Except (Halt × Desk α) (Int × Desk α)) : Prop :=
  result.toOption.map Prod.fst ≠ some (-1) → ∀ address ∈ written result, address + 4 ≤ sz

end Reporting

/-- The writes of `sys_getpgtable` stay below the size, in p6 with every flag. -/
def WritesInside (ver : Version) (p : Proc) (km : Kmem) (entries : Nat) (num : Int) : Prop :=
  match ver with
  | .p5 => ∀ retries, Inside p.sz ((P5.sys_getpgtable retries entries num).run ⟨p, km, [], []⟩)
  | .p6 => ∀ retries wsetOnly,
      Inside p.sz ((P6.sys_getpgtable retries entries num wsetOnly).run ⟨p, km, [], []⟩)

/-- The number of the word of a buffer that reaches the size or crosses it. -/
def crossing (sz entries : Nat) : Nat := (sz - entries) / 4

/-- The number of the pages between two pages that have an entry in the page table. -/
def occupied (pd : PgDir) (low top : Nat) : Nat :=
  (List.range' low (top + 1 - low)).countP fun n => pd.pte (vpn (n * PGSIZE)) ≠ {}

/-- A report comes to its word number `t` if no store stops it: the word's entry has a turn, and the
page-table pages that are read before are there. p5 counts the turns. p6 goes down from the page of the
size and describes the pages that have an entry, and tests the number of its own entries after each page. -/
def Due (ver : Version) (p : Proc) (num : Int) (t : Nat) : Prop :=
  match ver with
  | .p5 => t / 2 < min num.toNat (p.sz / PGSIZE + 1) ∧
      ∀ j, 2 * j + 1 ≤ t → p.pgdir.tables (vpn (P5.addrAt p.sz j)).pdx ≠ none
  | .p6 => ∃ low ≤ p.sz / PGSIZE, t / 2 < occupied p.pgdir low (p.sz / PGSIZE) ∧
      (∀ n, low ≤ n → n ≤ p.sz / PGSIZE → p.pgdir.tables (vpn (n * PGSIZE)).pdx ≠ none) ∧
      ((t / 2 : Nat) < num ∨ t / 2 = 0 ∧ low = p.sz / PGSIZE)

/-- A call is accepted, its report comes to the word that crosses the size, and the pages of the buffer up
to the end of this word are mapped and writable. -/
structure Oversteps (ver : Version) (p : Proc) (entries : Nat) (num : Int) : Prop where
  accepted : argptr p.sz entries 4 = true
  buffer : ver = .p5 → entries ≠ 0
  due : Due ver p num (crossing p.sz entries)
  ready : Ready p.pgdir entries (entries + 4 * (crossing p.sz entries + 1))

/-! ## Words that are accounted for -/

namespace Reporting

variable {α : Type} {ver : Version} {d : Desk α} {entries : Nat} {p : Proc} {km : Kmem}

/-- The words are the first ones of the buffer, the report comes to each of them, and they lie in mapped and
writable pages. -/
def Accounted (ver : Version) (p : Proc) (entries : Nat) (num : Int) (words : List Nat) : Prop :=
  ∃ count, words = cells entries count ∧ (∀ t < count, Due ver p num t) ∧
    ∀ a ∈ words, a + 4 ≤ 2 ^ 32 → Ready p.pgdir a (a + 4)

theorem cells_dropLast (entries count : Nat) : (cells entries count).dropLast = cells entries (count - 1) := by
  cases count with
  | zero => rfl
  | succ count => rw [cells_succ, List.dropLast_concat, Nat.add_sub_cancel]

/-- Of the words of a report that stops, those that are written are accounted for. -/
theorem Halted.accounted {stopped : Halt × Desk α} {num : Int} {words : Nat} (halted : Halted p km stopped.2)
    (stores : stopped.2.stores = cells entries words) (due : ∀ t < words, Due ver p num t) :
    Accounted ver p entries num (leftBehind stopped) := by
  unfold leftBehind
  split
  · refine ⟨words - 1, ?_, fun t below => due t (by omega), halted.ready⟩
    rw [stores, cells_dropLast]
  · rename_i free
    refine ⟨words, stores, due, fun a member small => ?_⟩
    have nonempty := List.ne_nil_of_mem member
    rw [← List.dropLast_append_getLast nonempty] at member
    obtain before | last := List.mem_append.mp member
    · exact halted.ready a before small
    · refine ready_of_free halted.keeps small ?_
      by_contra faults
      refine free (.inr ⟨a, ?_, faults⟩)
      rw [List.mem_singleton.mp last, List.getLast?_eq_some_getLast nonempty]
      rfl

end Reporting

/-! ## The report of p5 -/

namespace P5

variable {d : Desk PtEntry} {p : Proc} {km : Kmem} {retries address entries i t left addr : Nat} {num : Int}

/-- `describe` comes to a word whose pages are mapped and writable, or completes an entry before it. -/
theorem describe_lands {v : Vpn} (tidy : Tidy p.pgdir) (backed : Backed p km d) (steady : Steady .p5 d.proc)
    (patient : 2 ≤ retries) (small : entries + 4 * (t + 1) ≤ 2 ^ 32)
    (ready : Ready p.pgdir entries (entries + 4 * (t + 1))) (early : 2 * i ≤ t)
    (table : 2 * i + 1 ≤ t → p.pgdir.tables v.pdx ≠ none) :
    Ensures (describe retries (word (entries + i * ENTRY)) v) d
      (fun _ after => Landed (entries + 4 * t) after ∨ 2 * (i + 1) ≤ t ∧ Steady .p5 after.proc)
      (fun stopped => entries + 4 * t ∈ leftBehind stopped) := by
  rw [describe_eq]
  exact describeAs_lands tidy backed steady patient small ready early table

/-- A word that is written stays in the rounds after it. -/
theorem describeFrom_keeps (landed : Landed address d) (count : 0 ≤ num) :
    Ensures (describeFrom retries entries num left i addr) d
      (fun value after => value ≠ -1 ∧ Landed address after) (fun stopped => address ∈ leftBehind stopped) := by
  induction left generalizing d i addr with
  | zero =>
    rw [describeFrom, ensures_pure]
    exact ⟨by omega, landed⟩
  | succ left inductionHypothesis =>
    rw [describeFrom, ensures_bind, ensures_get, ensures_ite]
    split
    · rw [ensures_pure]
      exact ⟨by omega, landed⟩
    · rw [ensures_bind, describe_eq]
      exact landed.describeAs.mono (fun _ _ landed => inductionHypothesis landed) fun _ left => left

/-- The rounds come to a word that is due. -/
theorem describeFrom_lands (tidy : Tidy p.pgdir) (bounded : p.sz ≤ KERNBASE) (count : num = (i + left : Nat))
    (described : Described p km entries i d) (steady : Steady .p5 d.proc) (patient : 2 ≤ retries)
    (small : entries + 4 * (t + 1) ≤ 2 ^ 32) (ready : Ready p.pgdir entries (entries + 4 * (t + 1)))
    (early : 2 * i ≤ t) (due : Due .p5 p num t) :
    Ensures (describeFrom retries entries num left i (addrAt p.sz i)) d
      (fun value after => value ≠ -1 ∧ Landed (entries + 4 * t) after)
      (fun stopped => entries + 4 * t ∈ leftBehind stopped) := by
  obtain ⟨turn, tables⟩ := due
  have pages : p.sz / PGSIZE ≤ 524288 := by
    unfold PGSIZE
    unfold KERNBASE at bounded
    omega
  induction left generalizing i d with
  | zero => omega
  | succ left inductionHypothesis =>
    have within : ¬ word (i * PGSIZE) > d.proc.sz := by
      rw [described.size, word_small (by unfold PGSIZE at *; omega)]
      unfold PGSIZE at *
      omega
    have total : i + (left + 1) = i + 1 + left := by omega
    rw [describeFrom, ensures_bind, ensures_get, ensures_ite, if_neg within, ensures_bind]
    have lands := describe_lands tidy described.toBacked steady patient small ready early (tables i)
    refine (lands.and (describe_described tidy described)).mono (fun _ after done => ?_) fun _ left => left.1
    obtain ⟨landed | ⟨later, steady'⟩, described', -⟩ := done
    · exact describeFrom_keeps landed (by omega)
    · rw [addrAt_succ (by omega)]
      exact inductionHypothesis (count.trans (by rw [total])) described' steady' later

/-- The words that a call writes are accounted for. -/
theorem getpgtable_accounted (decent : Decent p) (positive : 0 < p.sz) (buffer : entries ≠ 0) :
    Ensures (getpgtable retries entries num) ⟨p, km, [], []⟩
      (fun _ after => Accounted .p5 p entries num after.stores)
      (fun stopped => Accounted .p5 p entries num (leftBehind stopped)) := by
  by_cases count : 0 ≤ num
  · refine (getpgtable_described decent.tidy positive decent.bounded count buffer).mono
      (fun value after done => ?_) fun stopped halted => ?_
    · obtain ⟨-, described, tables⟩ := done
      refine ⟨_, described.stores, fun t below => ⟨by omega, fun j before => tables j (by omega)⟩, described.ready⟩
    · obtain ⟨halted, words, stores, most, tables⟩ := halted
      exact halted.accounted stores fun t below => ⟨by omega, fun j before => tables j (by omega)⟩
  · have none : num.toNat = 0 := by omega
    unfold getpgtable
    rw [if_neg buffer, none, ensures_bind, ensures_get, describeFrom, ensures_pure]
    exact ⟨0, rfl, fun _ below => absurd below (Nat.not_lt_zero _), fun _ member => absurd member List.not_mem_nil⟩

/-- A call comes to a word that is due, if the pages of the buffer are mapped and writable up to its end. -/
theorem getpgtable_lands (decent : Decent p) (positive : 0 < p.sz) (buffer : entries ≠ 0) (patient : 2 ≤ retries)
    (small : entries + 4 * (t + 1) ≤ 2 ^ 32) (ready : Ready p.pgdir entries (entries + 4 * (t + 1)))
    (due : Due .p5 p num t) :
    Ensures (getpgtable retries entries num) ⟨p, km, [], []⟩
      (fun value after => value ≠ -1 ∧ Landed (entries + 4 * t) after)
      (fun stopped => entries + 4 * t ∈ leftBehind stopped) := by
  have count : num = (0 + num.toNat : Nat) := by
    have turn := due.1
    omega
  unfold getpgtable
  rw [ensures_ite, if_neg buffer, ensures_bind, ensures_get]
  simp only [addrAt_zero positive decent.bounded]
  exact describeFrom_lands decent.tidy decent.bounded count (described_start p km entries) decent patient small ready (Nat.zero_le _) due

end P5

/-! ## The report of p6 -/

section Occupied

variable {pd : PgDir} {low high top : Nat}

/-- One page more. -/
theorem occupied_step (inside : low ≤ top) : occupied pd low top =
    occupied pd (low + 1) top + if pd.pte (vpn (low * PGSIZE)) ≠ {} then 1 else 0 := by
  unfold occupied
  rw [show top + 1 - low = top - low + 1 by omega, List.range'_succ, List.countP_cons,
    show top + 1 - (low + 1) = top - low by omega]
  simp only [decide_eq_true_eq]

/-- Further down there are no fewer pages. -/
theorem occupied_mono (below : low ≤ high) (inside : high ≤ top + 1) : occupied pd high top ≤ occupied pd low top := by
  induction high, below using Nat.le_induction with
  | base => exact le_rfl
  | succ high below inductionHypothesis =>
    have before := inductionHypothesis (by omega)
    rw [occupied_step (by omega)] at before
    omega

theorem occupied_above : occupied pd (top + 1) top = 0 := by
  unfold occupied
  rw [Nat.sub_self]
  rfl

end Occupied

/-- Whether a user page has an entry does not change. -/
theorem Keeps.blank {pd pd' : PgDir} {km km' : Kmem} {v : Vpn} (keeps : Keeps pd km pd' km') (tidy : Tidy pd)
    (low : v.user) : pd'.pte v = {} ↔ pd.pte v = {} := by
  refine ⟨fun empty => ?_, keeps.empty v⟩
  by_contra filled
  have mapped := tidy.clean v low filled
  rw [← keeps.mapped v, empty] at mapped
  cases mapped

namespace P6

variable {d : Desk PtEntry} {p : Proc} {km : Kmem} {retries address entries index n t : Nat} {num wsetOnly : Int}

theorem describe_eq (retries entry : Nat) (v : Vpn) : describe retries entry v =
    describeAs .p6 retries entry v fun ppage pte =>
      ⟨⟨v.pdx.val, v.ptx, ppage, pte.p, pte.w, pte.e⟩, pte.u, pte.a⟩ := rfl

/-- A page that is described has an entry in the page table. -/
theorem describePage_described (tidy : Tidy p.pgdir) (described : Described p km entries index d) :
    Ensures (describePage retries entries wsetOnly n index) d
      (fun next after => Described p km entries next after ∧ p.pgdir.tables (vpn (n * PGSIZE)).pdx ≠ none ∧
        (next = index ∨ next = index + 1 ∧ p.pgdir.pte (vpn (n * PGSIZE)) ≠ {}))
      (fun stopped => Halted p km stopped.2 ∧ ∃ words, stopped.2.stores = cells entries words ∧
        (words = 2 * index ∨ words ≤ 2 * index + 2 ∧ p.pgdir.tables (vpn (n * PGSIZE)).pdx ≠ none ∧
          p.pgdir.pte (vpn (n * PGSIZE)) ≠ {})) := by
  unfold describePage
  rw [ensures_bind]
  refine ((readPte_backed described.toBacked).and readPte_ensures).mono (fun x after read => ?_)
    fun stopped missing => ?_
  · obtain ⟨⟨rfl, table⟩, rfl, -⟩ := read
    rw [ensures_bind, ensures_get, ensures_ite]
    split
    · rename_i selected
      have filled : p.pgdir.pte (vpn (n * PGSIZE)) ≠ {} :=
        fun empty => selected.1 (described.keeps.empty _ empty)
      rw [ensures_bind, describe_eq]
      refine (describeAs_described tidy described).mono (fun _ after done => ?_) fun stopped halted => ?_
      · exact ⟨done.1, table, .inr ⟨rfl, filled⟩⟩
      · obtain ⟨halted, first | ⟨second, -⟩⟩ := halted
        · exact ⟨halted, _, first, .inr ⟨by omega, table, filled⟩⟩
        · exact ⟨halted, _, second, .inr ⟨le_rfl, table, filled⟩⟩
    · exact ⟨described, table, .inl rfl⟩
  · obtain ⟨⟨same, -⟩, -⟩ := missing
    rw [same]
    exact ⟨described.toBacked.halted, _, described.stores, .inl rfl⟩

/-- The walk has come down to a page: the page-table pages above are there, and at most the pages above that
have an entry are described. -/
structure Walked (p : Proc) (num : Int) (n index : Nat) : Prop where
  inside : n ≤ p.sz / PGSIZE
  tables : ∀ m, n < m → m ≤ p.sz / PGSIZE → p.pgdir.tables (vpn (m * PGSIZE)).pdx ≠ none
  fewer : index ≤ occupied p.pgdir (n + 1) (p.sz / PGSIZE)
  room : (index : Int) < num ∨ index = 0 ∧ n = p.sz / PGSIZE

theorem walked_start : Walked p num (p.sz / PGSIZE) 0 :=
  ⟨le_rfl, fun _ above inside => absurd inside (Nat.not_le.mpr above), Nat.zero_le _, .inr ⟨rfl, rfl⟩⟩

/-- The words of the page are due, if it has an entry. -/
theorem Walked.due (walked : Walked p num n index) (table : p.pgdir.tables (vpn (n * PGSIZE)).pdx ≠ none)
    (filled : p.pgdir.pte (vpn (n * PGSIZE)) ≠ {}) (own : t < 2 * index + 2) : Due .p6 p num t := by
  obtain ⟨inside, tables, fewer, room⟩ := walked
  refine ⟨n, inside, ?_, fun m above below => ?_, ?_⟩
  · rw [occupied_step inside, if_pos filled]
    omega
  · obtain rfl | higher := Nat.eq_or_lt_of_le above
    · exact table
    · exact tables m higher below
  · omega

/-- The walk goes on to the next page. -/
theorem Walked.next {next : Nat} (walked : Walked p num (n + 1) index)
    (table : p.pgdir.tables (vpn ((n + 1) * PGSIZE)).pdx ≠ none)
    (described : next = index ∨ next = index + 1 ∧ p.pgdir.pte (vpn ((n + 1) * PGSIZE)) ≠ {})
    (more : (next : Int) < num) : Walked p num n next := by
  obtain ⟨inside, tables, fewer, -⟩ := walked
  refine ⟨by omega, fun m above below => ?_, ?_, .inl more⟩
  · obtain rfl | higher := Nat.eq_or_lt_of_le (Nat.succ_le_of_lt above)
    · exact table
    · exact tables m higher below
  · rw [occupied_step inside]
    rcases described with rfl | ⟨rfl, filled⟩
    · omega
    · rw [if_pos filled]
      omega

/-- The words that a report writes are accounted for. -/
theorem describeFrom_accounted (tidy : Tidy p.pgdir) (described : Described p km entries index d)
    (walked : Walked p num n index) (due : ∀ t < 2 * index, Due .p6 p num t) :
    Ensures (describeFrom retries entries num wsetOnly n index) d
      (fun _ after => Accounted .p6 p entries num after.stores)
      (fun stopped => Accounted .p6 p entries num (leftBehind stopped)) := by
  -- a round keeps what is known of the words
  have round : ∀ (n index : Nat) (d : Desk PtEntry), Described p km entries index d → Walked p num n index →
      (∀ t < 2 * index, Due .p6 p num t) →
      Ensures (describePage retries entries wsetOnly n index) d
        (fun next after => Described p km entries next after ∧ (∀ t < 2 * next, Due .p6 p num t) ∧
          p.pgdir.tables (vpn (n * PGSIZE)).pdx ≠ none ∧
          (next = index ∨ next = index + 1 ∧ p.pgdir.pte (vpn (n * PGSIZE)) ≠ {}))
        (fun stopped => Accounted .p6 p entries num (leftBehind stopped)) := by
    intro n index d described walked due
    refine (describePage_described tidy described).mono (fun next after done => ?_) fun stopped halted => ?_
    · obtain ⟨described', table, chosen⟩ := done
      refine ⟨described', fun t below => ?_, table, chosen⟩
      obtain rfl | ⟨rfl, filled⟩ := chosen
      · exact due t below
      · exact walked.due table filled (by omega)
    · obtain ⟨halted, words, stores, few⟩ := halted
      refine halted.accounted stores fun t below => ?_
      obtain rfl | ⟨most, table, filled⟩ := few
      · exact due t below
      · exact walked.due table filled (by omega)
  have closed : ∀ (next : Nat) (after : Desk PtEntry), Described p km entries next after →
      (∀ t < 2 * next, Due .p6 p num t) → Accounted .p6 p entries num after.stores :=
    fun next after described due => ⟨_, described.stores, due, described.ready⟩
  induction n generalizing d index with
  | zero =>
    rw [describeFrom, ensures_bind]
    exact (round 0 index d described walked due).mono (fun next after done => closed next after done.1 done.2.1)
      fun _ accounted => accounted
  | succ n inductionHypothesis =>
    rw [describeFrom, ensures_bind]
    refine (round (n + 1) index d described walked due).mono (fun next after done => ?_)
      fun _ accounted => accounted
    obtain ⟨described', due', table, chosen⟩ := done
    rw [ensures_ite]
    split
    · exact closed next after described' due'
    · rename_i more
      exact inductionHypothesis described' (walked.next table chosen (by omega)) due'

theorem getpgtable_accounted (decent : Decent p) (mode : wsetOnly = 0 ∨ wsetOnly = 1) :
    Ensures (getpgtable retries entries num wsetOnly) ⟨p, km, [], []⟩
      (fun _ after => Accounted .p6 p entries num after.stores)
      (fun stopped => Accounted .p6 p entries num (leftBehind stopped)) := by
  unfold getpgtable
  rw [ensures_ite, if_neg (by omega), ensures_bind, ensures_get]
  exact describeFrom_accounted decent.tidy (described_start p km entries) walked_start fun _ below => absurd below (Nat.not_lt_zero _)

/-! ## The words that are due -/

/-- A word that is written stays when a page is described. -/
theorem describePage_keeps (landed : Landed address d) : Ensures (describePage retries entries wsetOnly n index) d
    (fun _ after => Landed address after) (fun stopped => address ∈ leftBehind stopped) := by
  unfold describePage
  rw [ensures_bind]
  refine landed.readPte.mono (fun x after landed => ?_) fun _ left => left
  rw [ensures_bind, ensures_get, ensures_ite]
  split
  · rw [ensures_bind, describe_eq]
    exact landed.describeAs.mono (fun _ _ landed => landed) fun _ left => left
  · exact landed

theorem describeFrom_keeps (landed : Landed address d) :
    Ensures (describeFrom retries entries num wsetOnly n index) d
      (fun value after => value ≠ -1 ∧ Landed address after) (fun stopped => address ∈ leftBehind stopped) := by
  induction n generalizing d index with
  | zero =>
    rw [describeFrom, ensures_bind]
    refine (describePage_keeps landed).mono (fun next after landed => ?_) fun _ left => left
    rw [ensures_pure]
    exact ⟨by omega, landed⟩
  | succ n inductionHypothesis =>
    rw [describeFrom, ensures_bind]
    refine (describePage_keeps landed).mono (fun next after landed => ?_) fun _ left => left
    rw [ensures_ite]
    split
    · rw [ensures_pure]
      exact ⟨by omega, landed⟩
    · exact inductionHypothesis landed

/-- A round of the walk comes to the word that is due, or goes on with all pages so far described that have an
entry. -/
theorem describePage_lands (tidy : Tidy p.pgdir) (bounded : p.sz ≤ KERNBASE) (described : Described p km entries index d)
    (steady : Steady .p6 d.proc) (patient : 2 ≤ retries) (small : entries + 4 * (t + 1) ≤ 2 ^ 32)
    (ready : Ready p.pgdir entries (entries + 4 * (t + 1))) (inside : n ≤ p.sz / PGSIZE)
    (all : index = occupied p.pgdir (n + 1) (p.sz / PGSIZE)) (early : 2 * index ≤ t) (due : Due .p6 p num t)
    (same : d.proc.pgdir.pte (vpn (n * PGSIZE)) = {} ↔ p.pgdir.pte (vpn (n * PGSIZE)) = {}) :
    Ensures (describePage retries entries 0 n index) d
      (fun next after => Landed (entries + 4 * t) after ∨ 2 * next ≤ t ∧ (next : Int) < num ∧
        next = occupied p.pgdir n (p.sz / PGSIZE) ∧ Described p km entries next after ∧ Steady .p6 after.proc)
      (fun stopped => entries + 4 * t ∈ leftBehind stopped) := by
  obtain ⟨low, top, count, tables, room⟩ := due
  have number : n < 1048576 := by
    unfold PGSIZE at inside
    unfold KERNBASE at bounded
    omega
  -- the walk has not passed the pages whose entries are due
  have above : low ≤ n := by
    by_contra passed
    have most := @occupied_mono p.pgdir (n + 1) low (p.sz / PGSIZE) (by omega) (by omega)
    omega
  have table := tables n above inside
  have step := @occupied_step p.pgdir n (p.sz / PGSIZE) inside
  by_cases empty : p.pgdir.pte (vpn (n * PGSIZE)) = {}
  · rw [if_neg (not_not.mpr empty), Nat.add_zero, ← all] at step
    have skipped : (describePage retries entries 0 n index).run d = .ok (index, d) := by
      refine describePage_skip ?_ number fun selected => selected.1 (same.mpr empty)
      rwa [described.keeps.tables]
    unfold Ensures
    rw [skipped]
    refine .inr ⟨early, ?_, step.symm, described, steady⟩
    rcases room with more | ⟨first, rfl⟩
    · omega
    · obtain rfl : n = p.sz / PGSIZE := by omega
      omega
  · rw [if_pos empty, ← all] at step
    unfold describePage
    rw [ensures_bind]
    refine ((readPte_backed described.toBacked).and readPte_ensures).mono (fun x after read => ?_)
      fun _ missing => absurd missing.1.2 table
    obtain ⟨⟨rfl, -⟩, rfl, -⟩ := read
    rw [ensures_bind, ensures_get, ensures_ite,
      if_pos ⟨fun blank => empty (same.mp blank), fun impossible => absurd impossible (by decide)⟩,
      ensures_bind, describe_eq]
    refine ((describeAs_lands tidy described.toBacked steady patient small ready early fun _ => table).and
      (describeAs_described tidy described)).mono (fun _ after done => ?_) fun _ left => left.1
    obtain ⟨landed | ⟨later, steady'⟩, described', -⟩ := done
    · exact .inl landed
    · exact .inr ⟨later, by omega, step.symm, described', steady'⟩

/-- The walk comes to a word that is due. -/
theorem describeFrom_lands (tidy : Tidy p.pgdir) (bounded : p.sz ≤ KERNBASE) (described : Described p km entries index d)
    (steady : Steady .p6 d.proc) (patient : 2 ≤ retries) (small : entries + 4 * (t + 1) ≤ 2 ^ 32)
    (ready : Ready p.pgdir entries (entries + 4 * (t + 1))) (inside : n ≤ p.sz / PGSIZE)
    (all : index = occupied p.pgdir (n + 1) (p.sz / PGSIZE)) (early : 2 * index ≤ t) (due : Due .p6 p num t)
    (same : d.proc.pgdir.pte (vpn (n * PGSIZE)) = {} ↔ p.pgdir.pte (vpn (n * PGSIZE)) = {}) :
    Ensures (describeFrom retries entries num 0 n index) d
      (fun value after => value ≠ -1 ∧ Landed (entries + 4 * t) after)
      (fun stopped => entries + 4 * t ∈ leftBehind stopped) := by
  induction n generalizing d index with
  | zero =>
    rw [describeFrom, ensures_bind]
    refine (describePage_lands tidy bounded described steady patient small ready inside all early due same).mono
      (fun next after done => ?_) fun _ left => left
    obtain landed | ⟨later, -, whole, -⟩ := done
    · exact ⟨by omega, landed⟩
    · obtain ⟨low, top, count, -⟩ := due
      have most := @occupied_mono p.pgdir 0 low (p.sz / PGSIZE) (Nat.zero_le low) (by omega)
      omega
  | succ n inductionHypothesis =>
    rw [describeFrom, ensures_bind]
    refine (describePage_lands tidy bounded described steady patient small ready inside all early due same).mono
      (fun next after done => ?_) fun _ left => left
    rw [ensures_ite]
    obtain landed | ⟨later, more, whole, described', steady'⟩ := done
    · split
      · exact ⟨by omega, landed⟩
      · exact describeFrom_keeps landed
    · have user : (vpn (n * PGSIZE)).user := vpn_user (by
        unfold PGSIZE at *
        unfold KERNBASE at *
        omega)
      rw [if_neg (by omega)]
      exact inductionHypothesis described' steady' (by omega) whole later (described'.keeps.blank tidy user)

/-- A call comes to a word that is due, if the pages of the buffer are mapped and writable up to its end. -/
theorem getpgtable_lands (coherent : Coherent p) (patient : 2 ≤ retries) (small : entries + 4 * (t + 1) ≤ 2 ^ 32)
    (ready : Ready p.pgdir entries (entries + 4 * (t + 1))) (due : Due .p6 p num t) :
    Ensures (getpgtable retries entries num 0) ⟨p, km, [], []⟩
      (fun value after => value ≠ -1 ∧ Landed (entries + 4 * t) after)
      (fun stopped => entries + 4 * t ∈ leftBehind stopped) := by
  unfold getpgtable
  rw [ensures_ite, if_neg (by decide), ensures_bind, ensures_get]
  exact describeFrom_lands coherent.decent.tidy coherent.decent.bounded (described_start p km entries) coherent patient small
    ready le_rfl occupied_above.symm (Nat.zero_le _) due Iff.rfl

end P6

/-! ## The result -/

section Result

variable {ver : Version} {p : Proc} {km : Kmem} {entries retries : Nat} {num wsetOnly : Int} {words : List Nat}

/-- The buffer of a call that is accepted begins with a word below the size. -/
theorem argptr_below (bounded : p.sz ≤ KERNBASE) (accepted : argptr p.sz entries 4 = true) : entries + 4 ≤ p.sz := by
  unfold argptr word at accepted
  unfold KERNBASE at bounded
  simp only [Bool.not_eq_true', Bool.or_eq_false_iff, decide_eq_false_iff_not, ge_iff_le, Nat.not_le,
    gt_iff_lt, Nat.not_lt] at accepted
  omega

/-- The words of a call that does not overstep lie below the size. -/
theorem Reporting.Accounted.inside (accounted : Accounted ver p entries num words) (bounded : p.sz ≤ KERNBASE)
    (accepted : argptr p.sz entries 4 = true) (buffer : ver = .p5 → entries ≠ 0)
    (kept : ¬ Oversteps ver p entries num) : ∀ address ∈ words, address + 4 ≤ p.sz := by
  obtain ⟨count, rfl, due, ready⟩ := accounted
  have below := argptr_below bounded accepted
  have few : count ≤ crossing p.sz entries := by
    by_contra more
    have small : entries + 4 * (crossing p.sz entries + 1) ≤ 2 ^ 32 := by
      unfold crossing
      unfold KERNBASE at bounded
      omega
    refine kept ⟨accepted, buffer, due _ (by omega), Ready.of_cells small fun a member => ready a ?_⟩
    obtain ⟨j, before, rfl⟩ := List.mem_map.mp member
    refine List.mem_map.mpr ⟨j, List.mem_range.mpr ?_, rfl⟩
    have := List.mem_range.mp before
    omega
  intro address member
  obtain ⟨j, before, rfl⟩ := List.mem_map.mp member
  have early := List.mem_range.mp before
  unfold crossing at few
  rw [word_small (by unfold KERNBASE at bounded; omega)]
  omega

/-- What is asked of a call, as what its program ensures. -/
theorem inside_iff {α : Type} {program : Reporting α Int} {d : Desk α} {sz : Nat} : Inside sz (program.run d) ↔
    Ensures program d (fun value after => value ≠ -1 → ∀ address ∈ after.stores, address + 4 ≤ sz)
      (fun stopped => ∀ address ∈ leftBehind stopped, address + 4 ≤ sz) := by
  unfold Inside Ensures
  cases ended : program.run d with
  | ok result => exact imp_congr_left (not_congr Option.some_inj)
  | error stopped => exact ⟨fun inside => inside (by simp [Except.toOption]), fun inside _ => inside⟩

/-- A call that does not overstep writes below the size only. -/
theorem inside_of_kept (decent : Decent p) (kept : ¬ Oversteps ver p entries num) :
    WritesInside ver p km entries num := by
  cases ver with
  | p5 =>
    intro retries
    rw [inside_iff, P5.sys_getpgtable, ensures_bind, ensures_get, ensures_ite]
    split
    · rename_i accepted
      by_cases buffer : entries = 0
      · rw [buffer, P5.getpgtable, if_pos rfl, ensures_pure]
        exact fun served => absurd rfl served
      · have below := argptr_below decent.bounded accepted
        refine (P5.getpgtable_accounted decent (by omega) buffer).mono (fun _ _ accounted _ => ?_) fun _ accounted => ?_
        · exact accounted.inside decent.bounded accepted (fun _ => buffer) kept
        · exact accounted.inside decent.bounded accepted (fun _ => buffer) kept
    · exact fun served => absurd rfl served
  | p6 =>
    intro retries wsetOnly
    rw [inside_iff, P6.sys_getpgtable, ensures_bind, ensures_get, ensures_ite]
    split
    · rename_i accepted
      by_cases mode : wsetOnly = 0 ∨ wsetOnly = 1
      · refine (P6.getpgtable_accounted decent mode).mono (fun _ _ accounted _ => ?_) fun _ accounted => ?_
        · exact accounted.inside decent.bounded accepted (fun impossible => by cases impossible) kept
        · exact accounted.inside decent.bounded accepted (fun impossible => by cases impossible) kept
      · rw [P6.getpgtable, if_pos (not_or.mp mode), ensures_pure]
        exact fun served => absurd rfl served
    · exact fun served => absurd rfl served

/-- A call that oversteps writes the word that reaches or crosses the size. -/
theorem not_inside_of_oversteps (steady : Steady ver p) (bounded : p.sz ≤ KERNBASE)
    (oversteps : Oversteps ver p entries num) : ¬ WritesInside ver p km entries num := by
  obtain ⟨accepted, buffer, due, ready⟩ := oversteps
  have below := argptr_below bounded accepted
  have small : entries + 4 * (crossing p.sz entries + 1) ≤ 2 ^ 32 := by
    unfold crossing
    unfold KERNBASE at bounded
    omega
  have beyond : ¬ entries + 4 * crossing p.sz entries + 4 ≤ p.sz := by
    unfold crossing
    omega
  intro inside
  cases ver with
  | p5 =>
    have served := inside 2
    rw [inside_iff, P5.sys_getpgtable, ensures_bind, ensures_get, ensures_ite, if_pos accepted] at served
    exact served.contradicts (P5.getpgtable_lands steady (by omega) (buffer rfl) le_rfl small ready due)
      (fun value after all landed => beyond (all landed.1 _ landed.2.member)) fun stopped all left => beyond (all _ left)
  | p6 =>
    have served := inside 2 0
    rw [inside_iff, P6.sys_getpgtable, ensures_bind, ensures_get, ensures_ite, if_pos accepted] at served
    exact served.contradicts (P6.getpgtable_lands steady le_rfl small ready due)
      (fun value after all landed => beyond (all landed.1 _ landed.2.member)) fun stopped all left => beyond (all _ left)

/-- In every state of every run from a sound system: a call that does not overstep writes below the size
only; and one that does writes beyond it, in p6 if the process is coherent. -/
theorem sys_getpgtable_inside_iff {s₀ s : System} {labels : List (Action × Answer)} (sound : s₀.Sound)
    (trace : Trace (System.Step ver) s₀ labels s) (member : p ∈ s.procs) :
    (¬ Oversteps ver p entries num → WritesInside ver p s.km entries num) ∧
      ((ver = .p6 → Coherent p) → WritesInside ver p s.km entries num → ¬ Oversteps ver p entries num) := by
  obtain ⟨r, -, sound', -⟩ := System.trace_follows sound.follows trace
  have decent := sound'.decent p member
  refine ⟨inside_of_kept decent, fun coherent inside oversteps => ?_⟩
  have steady : Steady ver p := by
    cases ver with
    | p5 => exact decent
    | p6 => exact coherent rfl
  exact not_inside_of_oversteps steady decent.bounded oversteps inside

end Result

/-- A process of one page asks for one entry at the start of its page. -/
theorem sys_getpgtable_inside_iff_onePage :
    ∃ p ∈ System.onePage.procs, WritesInside .p5 p System.onePage.km 16 1 := by
  have member : (⟨System.sealedPage, 4096, 4, fun _ => NOPAGE, none⟩ : Proc) ∈ System.onePage.procs :=
    List.mem_singleton.mpr rfl
  refine ⟨_, member, (sys_getpgtable_inside_iff System.onePage_sound (.nil _) member).1 fun oversteps => ?_⟩
  exact absurd oversteps.due.1 (by decide)

/-- The process has given back the end of its page, and a call with the last four bytes as its buffer writes the
two words of an entry. -/
theorem overruns {ver : Version} {α : Type} {call : Proc → Kmem → Except (Halt × Desk α) (Int × Desk α)}
    (performed : (System.onePage.perform ver [.sbrk 0 (-96)]).map (fun r => (r.1, r.2.procs.map fun p =>
      (p.sz, (call p r.2.km).toOption.map Prod.fst, written (call p r.2.km)))) =
      some ([(.sbrk 0 (-96), .done)], [(4000, some 1, [3996, 4000])])) :
    ∃ s, Trace (System.Step ver) System.onePage [(.sbrk 0 (-96), .done)] s ∧
      ∃ p ∈ s.procs, p.sz = 4000 ∧ ¬ Inside p.sz (call p s.km) := by
  obtain ⟨⟨labels, last⟩, completed, facts⟩ := Option.map_eq_some_iff.mp performed
  obtain ⟨rfl, shape⟩ := Prod.mk.inj facts
  obtain ⟨p, procs, facts⟩ := List.map_eq_singleton_iff.mp shape
  obtain ⟨size, result⟩ := Prod.mk.inj facts
  obtain ⟨returned, words⟩ := Prod.mk.inj result
  have member : p ∈ last.procs := by rw [procs]; exact List.mem_singleton_self p
  refine ⟨last, System.perform_trace completed, p, member, size, fun inside => ?_⟩
  have below := inside (by rw [returned]; decide) 4000 (by rw [words]; decide)
  omega

/-- In either version the second word of the entry is written behind the last byte of the process. -/
theorem entry_overruns :
    (∃ s, Trace (System.Step .p5) System.onePage [(.sbrk 0 (-96), .done)] s ∧
      ∃ p ∈ s.procs, p.sz = 4000 ∧ ¬ WritesInside .p5 p s.km 3996 1) ∧
    ∃ s, Trace (System.Step .p6) System.onePage [(.sbrk 0 (-96), .done)] s ∧
      ∃ p ∈ s.procs, p.sz = 4000 ∧ ¬ WritesInside .p6 p s.km 3996 1 := by
  constructor
  · obtain ⟨s, trace, p, member, size, beyond⟩ := @overruns .p5 _
      (fun p km => (P5.sys_getpgtable 2 3996 1).run ⟨p, km, [], []⟩) (by decide +kernel)
    exact ⟨s, trace, p, member, size, fun inside => beyond (inside 2)⟩
  · obtain ⟨s, trace, p, member, size, beyond⟩ := @overruns .p6 _
      (fun p km => (P6.sys_getpgtable 2 3996 1 0).run ⟨p, km, [], []⟩) (by decide +kernel)
    exact ⟨s, trace, p, member, size, fun inside => beyond (inside 2 0)⟩

end Cs537.Vm
