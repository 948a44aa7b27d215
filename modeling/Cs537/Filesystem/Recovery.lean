import Cs537.Filesystem.Log
import Mathlib.Data.List.GetD
import Mathlib.Data.List.Nodup

/-!
# Recovery from the log

The disk writes of recovery and of a commit, as lists. The log on the disk is a
redo log in the sense of the library: its plan is to write the logged contents to
the blocks that the header names, and clearing it is one write of the header
block. What a power cut during recovery or during a commit leaves is therefore
given by the rules for redo logs.
-/

namespace Cs537.Filesystem

open Cs537.Journal

/-! ## The header block -/

theorem headed_word {block : List Nat} {buf : Block} (short : block.length < LOGSIZE + 1) :
    (headed block buf).word 0 = BitVec.ofNat 32 block.length ∧
    ∀ i < block.length, (headed block buf).word (i + 1) = BitVec.ofNat 32 (block.getD i 0) := by
  have turns : ∀ count ≤ block.length,
      let hb := (List.range count).foldl
        (fun hb i => hb.setWord (i + 1) (BitVec.ofNat 32 (block.getD i 0)))
        (buf.setWord 0 (BitVec.ofNat 32 block.length))
      hb.word 0 = BitVec.ofNat 32 block.length ∧
      ∀ i < count, hb.word (i + 1) = BitVec.ofNat 32 (block.getD i 0) := by
    intro count
    induction count with
    | zero =>
      intro _
      exact ⟨Block.word_setWord_self (by decide), fun i none => absurd none (Nat.not_lt_zero i)⟩
    | succ count inductionHypothesis =>
      intro within
      obtain ⟨first, entries⟩ := inductionHypothesis (by omega)
      have room : count + 1 < BSIZE / 4 := by
        have limit : LOGSIZE + 1 < BSIZE / 4 := by decide
        omega
      rw [List.range_succ, List.foldl_append, List.foldl_cons, List.foldl_nil]
      constructor
      · rw [Block.word_setWord_other (by omega)]
        exact first
      · intro i below
        by_cases last : i = count
        · rw [last, Block.word_setWord_self room]
        · rw [Block.word_setWord_other (by omega)]
          exact entries i (by omega)
  exact turns block.length (Nat.le_refl _)

theorem map_getD_range (entries : List Nat) :
    (List.range entries.length).map (fun i => entries.getD i 0) = entries := by
  apply List.ext_getElem
  · rw [List.length_map, List.length_range]
  · intro i _ inside
    rw [List.getElem_map, List.getElem_range, List.getD_eq_getElem entries 0 inside]

/-- What write_head writes is what read_head reads. -/
theorem header_headed {block : List Nat} {buf : Block} (short : block.length ≤ LOGSIZE)
    (addressed : ∀ blockno ∈ block, blockno < 2 ^ 31) : header (headed block buf) = block := by
  obtain ⟨first, entries⟩ := @headed_word block buf (Nat.lt_succ_of_le short)
  have limit : LOGSIZE < 2 ^ 31 := by decide
  have number : (BitVec.ofNat 32 block.length).toInt.toNat = block.length := by
    have small : 2 * block.length < 2 ^ 32 := by omega
    rw [BitVec.toInt_ofNat', Int.bmod_eq_of_le (by omega) (by omega), Int.toNat_natCast]
  rw [header, first, number]
  refine Eq.trans (List.map_congr_left fun i member => ?_) (map_getD_range block)
  have inside : i < block.length := List.mem_range.mp member
  rw [entries i inside, BitVec.toNat_ofNat]
  apply Nat.mod_eq_of_lt
  have small := addressed (block.getD i 0) (by
    rw [List.getD_eq_getElem block 0 inside]
    exact List.getElem_mem inside)
  omega

/-- A cleared header names no blocks. -/
theorem header_cleared (buf : Block) : header (headed [] buf) = [] :=
  header_headed (Nat.zero_le _) fun _ none => absurd none List.not_mem_nil

/-! ## The redo log on the disk -/

variable (layout : Layout)

/-- What the log on a disk asks to have written. -/
def plan (disk : Nat → Block) : List (Nat × Block) :=
  let block := header (disk layout.logstart)
  (List.range block.length).map fun tail => (block.getD tail 0, disk (layout.logstart + tail + 1))

/-- The write that clears the log. -/
def clear (disk : Nat → Block) : Nat × Block :=
  (layout.logstart, headed [] (disk layout.logstart))

/-- A header that a commit can have left: it names home blocks, and their contents fit in the
log. -/
structure Sound (disk : Nat → Block) : Prop where
  home : ∀ blockno ∈ header (disk layout.logstart), layout.IsHome blockno
  fits : (header (disk layout.logstart)).length < layout.nlog
  short : (header (disk layout.logstart)).length ≤ LOGSIZE

variable {layout}

theorem Layout.IsHome.ne_log {blockno : Nat} (home : layout.IsHome blockno) {offset : Nat}
    (inside : offset < layout.nlog) : blockno ≠ layout.logstart + offset := by
  have := home.2
  omega

theorem Layout.IsHome.ne_start {blockno : Nat} (home : layout.IsHome blockno) :
    blockno ≠ layout.logstart :=
  home.ne_log layout.header

theorem plan_congr {one two : Nat → Block}
    (agree : ∀ offset < layout.nlog, one (layout.logstart + offset) = two (layout.logstart + offset))
    (sound : Sound layout two) : plan layout one = plan layout two := by
  have start : one layout.logstart = two layout.logstart := agree 0 layout.header
  unfold plan
  rw [start]
  apply List.map_congr_left
  intro tail member
  have inside : tail < (header (two layout.logstart)).length := List.mem_range.mp member
  have fits := sound.fits
  have same : one (layout.logstart + tail + 1) = two (layout.logstart + tail + 1) :=
    agree (tail + 1) (by omega)
  rw [same]

theorem plan_keys (disk : Nat → Block) :
    (plan layout disk).map Prod.fst = header (disk layout.logstart) := by
  rw [plan, List.map_map]
  exact map_getD_range _

theorem plan_nil {disk : Nat → Block} (empty : header (disk layout.logstart) = []) :
    plan layout disk = [] := by
  rw [plan, empty]
  rfl

theorem Sound.congr {one two : Nat → Block} (same : one layout.logstart = two layout.logstart)
    (sound : Sound layout two) : Sound layout one :=
  ⟨same ▸ sound.home, same ▸ sound.fits, same ▸ sound.short⟩

theorem Sound.empty {disk : Nat → Block} (empty : header (disk layout.logstart) = []) :
    Sound layout disk :=
  ⟨empty ▸ fun _ none => absurd none List.not_mem_nil, empty ▸ layout.header,
    empty ▸ Nat.zero_le _⟩

/-- Writes to home blocks leave the log area as it is. -/
theorem carryOut_log {disk : Nat → Block} {writes : List (Nat × Block)}
    (home : ∀ blockno ∈ writes.map Prod.fst, layout.IsHome blockno) {offset : Nat}
    (inside : offset < layout.nlog) :
    carryOut disk writes (layout.logstart + offset) = disk (layout.logstart + offset) :=
  carryOut_absent fun present => (home _ present).ne_log inside rfl

/-- The log of the file system is a redo log. -/
theorem redo : Redo (plan layout) (clear layout) (Sound layout) layout.IsHome where
  steady := by
    intro disk part sound begun
    have home : ∀ blockno ∈ part.map Prod.fst, layout.IsHome blockno := by
      intro blockno present
      apply sound.home
      rw [← plan_keys]
      exact (begun.map Prod.fst).subset present
    have same : ∀ offset < layout.nlog,
        carryOut disk part (layout.logstart + offset) = disk (layout.logstart + offset) :=
      fun offset inside => carryOut_log home inside
    exact ⟨sound.congr (same 0 layout.header), plan_congr same sound⟩
  cleared := by
    intro disk _
    have empty : header (carryOut disk [clear layout disk] layout.logstart) = [] := by
      rw [clear, carryOut_cons, carryOut_nil, Function.update_self]
      exact header_cleared _
    exact ⟨.empty empty, plan_nil empty⟩
  uncounted := fun _ home => home.ne_start rfl

/-! ## The writes of the routines -/

theorem install_trans_eq {m : Machine} (home : ∀ blockno ∈ m.block, layout.IsHome blockno)
    (fits : m.n < layout.nlog) :
    install_trans layout m = m.issue ((List.range m.n).map fun tail =>
      (m.block.getD tail 0, m.cache (layout.logstart + tail + 1))) := by
  apply copies_eq
  intro i small j less
  have member : m.block.getD j 0 ∈ m.block := by
    rw [List.getD_eq_getElem m.block 0 less]
    exact List.getElem_mem less
  have apart : m.block.getD j 0 ≠ layout.logstart + (i + 1) := (home _ member).ne_log (by omega)
  omega

theorem write_log_eq {m : Machine} (home : ∀ blockno ∈ m.block, layout.IsHome blockno)
    (fits : m.n < layout.nlog) :
    write_log layout m = m.issue ((List.range m.n).map fun tail =>
      (layout.logstart + tail + 1, m.cache (m.block.getD tail 0))) := by
  apply copies_eq
  intro i small j less
  have member : m.block.getD i 0 ∈ m.block := by
    rw [List.getD_eq_getElem m.block 0 small]
    exact List.getElem_mem small
  have apart : m.block.getD i 0 ≠ layout.logstart + (j + 1) := (home _ member).ne_log (by omega)
  omega

theorem write_head_eq (m : Machine) :
    write_head layout m = m.issue [(layout.logstart, headed m.block (m.cache layout.logstart))] :=
  rfl

/-- Installing the transaction in memory and clearing the header is the repair of the log. -/
theorem install_clear_eq {m : Machine} (sound : Sound layout m.cache)
    (loaded : m.block = header (m.cache layout.logstart)) :
    write_head layout (install_trans layout m).forget =
      (m.issue (repair (plan layout) (clear layout) m.cache)).forget := by
  have home : ∀ blockno ∈ m.block, layout.IsHome blockno := loaded ▸ sound.home
  have fits : m.n < layout.nlog := by
    rw [Machine.n, loaded]
    exact sound.fits
  have planned : ((List.range m.n).map fun tail =>
      (m.block.getD tail 0, m.cache (layout.logstart + tail + 1))) = plan layout m.cache := by
    rw [plan, Machine.n, loaded]
  rw [install_trans_eq home fits, planned, repair, ← Machine.issue_issue]
  rfl

/-- Recovery issues the repair of the log that it finds, and forgets it. -/
theorem recover_eq {disk : Nat → Block} (sound : Sound layout disk) :
    recover_from_log layout (boot disk) =
      (boot disk).issue (repair (plan layout) (clear layout) disk) := by
  have step := install_clear_eq (m := read_head layout (boot disk)) sound rfl
  rw [recover_from_log]
  exact step

/-- The contents of the announced blocks, on their way to the log. -/
def filling (layout : Layout) (m : Machine) : List (Nat × Block) :=
  (List.range m.n).map fun tail => (layout.logstart + tail + 1, m.cache (m.block.getD tail 0))

/-- The write that is the point of commit. -/
def flip (layout : Layout) (m : Machine) : Nat × Block :=
  (layout.logstart, headed m.block (m.cache layout.logstart))

theorem filling_keys {m : Machine} {blockno : Nat}
    (present : blockno ∈ (filling layout m).map Prod.fst) :
    ∃ tail < m.n, blockno = layout.logstart + (tail + 1) := by
  simp only [filling, List.map_map, List.mem_map, List.mem_range, Function.comp] at present
  obtain ⟨tail, small, rfl⟩ := present
  exact ⟨tail, small, Nat.add_assoc _ _ _⟩

theorem filling_nodup (m : Machine) : ((filling layout m).map Prod.fst).Nodup := by
  rw [filling, List.map_map]
  refine List.Nodup.map_on ?_ List.nodup_range
  intro i _ j _ same
  have equal : layout.logstart + i + 1 = layout.logstart + j + 1 := same
  omega

/-- A transaction that is ready to be committed: its blocks are home blocks and have room. -/
structure Committable (layout : Layout) (m : Machine) : Prop where
  home : ∀ blockno ∈ m.block, layout.IsHome blockno
  fits : m.n < layout.nlog
  short : m.n ≤ LOGSIZE

theorem Committable.addressed {m : Machine} (ready : Committable layout m) :
    ∀ blockno ∈ m.block, blockno < 2 ^ 31 := by
  intro blockno member
  have := (ready.home blockno member).1
  have := layout.addressed
  omega

/-- After the point of commit the log on any disk says what the transaction is. -/
theorem Committable.planned {m : Machine} (ready : Committable layout m) (disk : Nat → Block) :
    let logged := carryOut disk (filling layout m ++ [flip layout m])
    header (logged layout.logstart) = m.block ∧ Sound layout logged ∧
    plan layout logged = m.block.map fun blockno => (blockno, m.cache blockno) := by
  intro logged
  have named : header (logged layout.logstart) = m.block := by
    have written : logged layout.logstart = headed m.block (m.cache layout.logstart) := by
      change carryOut disk (filling layout m ++ [flip layout m]) layout.logstart = _
      rw [carryOut_append]
      exact Function.update_self ..
    rw [written]
    exact header_headed ready.short ready.addressed
  have contents : ∀ tail < m.n,
      logged (layout.logstart + tail + 1) = m.cache (m.block.getD tail 0) := by
    intro tail small
    change carryOut disk (filling layout m ++ [flip layout m]) _ = _
    have other : layout.logstart + tail + 1 ∉ [flip layout m].map Prod.fst := by
      rw [List.map_singleton, List.mem_singleton]
      exact Nat.ne_of_gt (by omega : layout.logstart < layout.logstart + tail + 1)
    rw [carryOut_append, carryOut_absent other]
    apply carryOut_once _ (filling_nodup m)
    exact List.mem_map.mpr ⟨tail, List.mem_range.mpr small, rfl⟩
  refine ⟨named, ⟨named ▸ ready.home, named ▸ ready.fits, named ▸ ready.short⟩, ?_⟩
  rw [plan, named]
  conv => rhs; rw [← map_getD_range m.block]
  rw [List.map_map]
  apply List.map_congr_left
  intro tail member
  have small : tail < m.n := List.mem_range.mp member
  rw [contents tail small]
  rfl

/-- Stores that agree in the log area are repaired with the same writes. -/
theorem repair_congr {one two : Nat → Block}
    (agree : ∀ offset < layout.nlog, one (layout.logstart + offset) = two (layout.logstart + offset))
    (sound : Sound layout two) :
    repair (plan layout) (clear layout) one = repair (plan layout) (clear layout) two := by
  have same := plan_congr agree sound
  have home : ∀ blockno ∈ (plan layout two).map Prod.fst, layout.IsHome blockno := by
    rw [plan_keys]
    exact sound.home
  have start : carryOut one (plan layout two) layout.logstart =
      carryOut two (plan layout two) layout.logstart :=
    carryOut_congr fun _ => agree 0 layout.header
  simp only [repair, same, clear, start]

/-- The disk writes of a commit. -/
def commitWrites (layout : Layout) (m : Machine) : List (Nat × Block) :=
  if 0 < m.n then
    (filling layout m ++ [flip layout m]) ++
      repair (plan layout) (clear layout) (carryOut m.disk (filling layout m ++ [flip layout m]))
  else []

/-- A commit fills the log, writes the header, and repairs. -/
theorem commit_eq {m : Machine} (ready : Committable layout m)
    (agree : ∀ offset < layout.nlog,
      m.cache (layout.logstart + offset) = m.disk (layout.logstart + offset)) :
    commit layout m = (m.issue (commitWrites layout m)).forget := by
  by_cases some : 0 < m.n
  · have logged : write_head layout (write_log layout m) =
        m.issue (filling layout m ++ [flip layout m]) := by
      have start : (m.issue (filling layout m)).cache layout.logstart = m.cache layout.logstart := by
        apply carryOut_absent
        intro present
        obtain ⟨tail, _, same⟩ := filling_keys present
        omega
      rw [write_log_eq ready.home ready.fits]
      change write_head layout (m.issue (filling layout m)) = _
      rw [write_head_eq, start, Machine.issue_issue]
      rfl
    obtain ⟨named, sound, -⟩ := ready.planned m.cache
    have same : repair (plan layout) (clear layout)
          (carryOut m.cache (filling layout m ++ [flip layout m])) =
        repair (plan layout) (clear layout)
          (carryOut m.disk (filling layout m ++ [flip layout m])) :=
      repair_congr (fun offset inside => carryOut_congr fun _ => agree offset inside)
        (ready.planned m.disk).2.1
    rw [commit, if_pos some, commitWrites, if_pos some, ← same]
    change write_head layout
      (install_trans layout (write_head layout (write_log layout m))).forget = _
    rw [logged, install_clear_eq (m := m.issue (filling layout m ++ [flip layout m])) sound named.symm,
      Machine.issue_issue]
    rfl
  · have none : m.block = [] := List.length_eq_zero_iff.mp (Nat.le_zero.mp (Nat.not_lt.mp some))
    rw [commit, if_neg some, commitWrites, if_neg some, Machine.issue_nil, Machine.forget, ← none]

/-- A commit that a power cut interrupts has taken effect as a whole or not at all: what the
disk means to recovery is what was there before, or what the cache holds. -/
theorem commit_interrupted {m : Machine} (ready : Committable layout m)
    (cleared : header (m.disk layout.logstart) = [])
    (clean : ∀ blockno, layout.IsHome blockno → blockno ∉ m.block → m.cache blockno = m.disk blockno)
    {part : List (Nat × Block)} (begun : part <+: commitWrites layout m) :
    Sound layout (carryOut m.disk part) ∧
    ∀ blockno, layout.IsHome blockno → meaning (plan layout) (carryOut m.disk part) blockno =
      if part.length ≤ m.n then m.disk blockno else m.cache blockno := by
  by_cases some : 0 < m.n
  · rw [commitWrites, if_pos some] at begun
    obtain ⟨named, sound, planned⟩ := ready.planned m.disk
    have quiet : ∀ first, first <+: filling layout m →
        Sound layout (carryOut m.disk first) ∧ plan layout (carryOut m.disk first) = [] := by
      intro first filled
      have same : carryOut m.disk first layout.logstart = m.disk layout.logstart := by
        apply carryOut_absent
        intro present
        obtain ⟨tail, _, same⟩ := filling_keys ((filled.map Prod.fst).subset present)
        omega
      have empty : header (carryOut m.disk first layout.logstart) = [] := by
        rw [same]
        exact cleared
      exact ⟨.empty empty, plan_nil empty⟩
    have apart : ∀ write ∈ filling layout m ++ [flip layout m], ¬ layout.IsHome write.1 := by
      intro write member home
      rcases List.mem_append.mp member with copied | last
      · obtain ⟨tail, small, same⟩ := filling_keys (List.mem_map_of_mem copied)
        have fits := ready.fits
        exact home.ne_log (by omega) same
      · rw [List.mem_singleton.mp last] at home
        exact home.ne_start rfl
    obtain ⟨held, means⟩ := redo.logged quiet apart sound planned begun
    refine ⟨held, fun blockno home => ?_⟩
    have length : (filling layout m).length = m.n := by
      rw [filling, List.length_map, List.length_range]
    rw [means blockno home, length]
    by_cases listed : blockno ∈ m.block
    · rw [carryOut_copies listed]
    · rw [carryOut_absent (by simpa using listed), clean blockno home listed]
  · rw [commitWrites, if_neg some] at begun
    have none : m.n = 0 := Nat.le_zero.mp (Nat.not_lt.mp some)
    obtain rfl : part = [] := List.prefix_nil.mp begun
    refine ⟨.empty cleared, fun blockno _ => ?_⟩
    rw [carryOut_nil, meaning, plan_nil cleared, List.length_nil, if_pos (Nat.zero_le _), carryOut_nil]

/-- A commit that completes leaves a clear log and the contents of the cache on the disk. -/
theorem commit_completed {m : Machine} (ready : Committable layout m)
    (cleared : header (m.disk layout.logstart) = [])
    (clean : ∀ blockno, layout.IsHome blockno → blockno ∉ m.block → m.cache blockno = m.disk blockno) :
    header (carryOut m.disk (commitWrites layout m) layout.logstart) = [] ∧
    ∀ blockno, layout.IsHome blockno →
      carryOut m.disk (commitWrites layout m) blockno = m.cache blockno := by
  by_cases some : 0 < m.n
  · obtain ⟨named, sound, planned⟩ := ready.planned m.disk
    obtain ⟨-, empty, same⟩ := redo.repaired sound
    have none : header (carryOut m.disk (commitWrites layout m) layout.logstart) = [] := by
      rw [commitWrites, if_pos some, carryOut_append, ← plan_keys, empty]
      rfl
    refine ⟨none, fun blockno home => ?_⟩
    have means := (commit_interrupted ready cleared clean (List.prefix_refl _)).2 blockno home
    rw [meaning, plan_nil none, carryOut_nil] at means
    rw [means, if_neg]
    rw [commitWrites, if_pos some, filling]
    simp only [List.length_append, List.length_map, List.length_range, List.length_singleton]
    omega
  · have none : m.block = [] := List.length_eq_zero_iff.mp (Nat.le_zero.mp (Nat.not_lt.mp some))
    rw [commitWrites, if_neg some, carryOut_nil]
    exact ⟨cleared, fun blockno home => (clean blockno home (none ▸ List.not_mem_nil)).symm⟩

end Cs537.Filesystem
