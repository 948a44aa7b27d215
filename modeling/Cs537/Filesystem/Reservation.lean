import Cs537.Filesystem.Calls
import Mathlib.Data.Finset.Card
import Mathlib.Algebra.BigOperators.Group.List.Basic
import Mathlib.Algebra.Group.Action.Defs
import Mathlib.Algebra.Order.BigOperators.Group.List
import Mathlib.Algebra.Order.Ring.Nat
import Mathlib.Order.Interval.Finset.Nat
import Mathlib.Tactic.IntervalCases

/-!
# The space in the log

`begin_op` admits a call only when the log has room for MAXOPBLOCKS blocks for
each call that would then be open, and lets it sleep otherwise. Two things have
to follow from this over all interleavings. No call sleeps that could go on, and
whoever sleeps is woken once the open calls have ended. And the calls that keep
to MAXOPBLOCKS blocks each do not run out of log. The second holds of a log with
more than LOGSIZE blocks, since one of them is the header.
-/

namespace Cs537.Filesystem

open Cs537.Journal Cs537.Runs

variable {layout : Layout} {s : System}

/-- What holds of the calls and the sleepers in every state. -/
structure Orderly (s : System) : Prop where
  off : s.up = false → s.calls = [] ∧ s.asleep = []
  counted : s.up = true → s.machine.outstanding = s.calls.length
  alone : s.machine.committing = true → s.calls = []
  idle : s.machine.committing = false → s.calls = [] → s.machine.block = []
  waits : ∀ pid ∈ s.asleep, Filesystem.begin_op s.machine = none

/-- Whether begin_op admits a call depends on these three. -/
theorem begin_op_none_iff (m : Machine) : Filesystem.begin_op m = none ↔
    m.committing = true ∨ (LOGSIZE : Int) < m.n + (m.outstanding + 1) * MAXOPBLOCKS := by
  unfold Filesystem.begin_op
  split
  · next busy => simp [busy]
  · next idle =>
    split
    · next full => simp [full]
    · next room => simp [idle, room]

/-- A commit leaves no block in the transaction. -/
theorem end_commit_block (m : Machine) : (end_commit layout m).block = [] := by
  rw [end_commit, commit]
  split
  · rfl
  · next none => exact List.length_eq_zero_iff.mp (Nat.le_zero.mp (Nat.not_lt.mp none))

theorem foldl_bwrite (target : Nat → Nat) (data : Machine → Nat → Block) (turns : List Nat)
    (m : Machine) :
    let last := turns.foldl (fun now tail => now.bwrite (target tail) (data now tail)) m
    last.outstanding = m.outstanding ∧ last.committing = m.committing := by
  induction turns generalizing m with
  | nil => exact ⟨rfl, rfl⟩
  | cons tail rest inductionHypothesis => exact inductionHypothesis _

theorem end_commit_outstanding (m : Machine) :
    (end_commit layout m).outstanding = m.outstanding ∧ (end_commit layout m).committing = false := by
  refine ⟨?_, rfl⟩
  simp only [end_commit, commit]
  split
  · exact (foldl_bwrite ..).1.trans (foldl_bwrite ..).1
  · rfl

theorem recover_outstanding (disk : Nat → Block) :
    (recover_from_log layout (boot disk)).outstanding = 0 ∧
    (recover_from_log layout (boot disk)).committing = false :=
  foldl_bwrite ..

theorem edit_kept {m m' : Machine} {blockno : Nat} {change : Block → Block}
    (announced : edit layout m blockno change = .ok m') :
    m'.outstanding = m.outstanding ∧ m'.committing = m.committing ∧ m.n ≤ m'.n := by
  obtain ⟨-, -, rfl⟩ := edit_ok announced
  refine ⟨rfl, rfl, ?_⟩
  change m.block.length ≤ List.length (if blockno ∈ m.block then m.block else m.block ++ [blockno])
  split
  · exact Nat.le_refl _
  · rw [List.length_append]
    exact Nat.le_add_right ..

theorem step_orderly {action : Action layout} {after : System} (orderly : Orderly s)
    (moved : step s action = some after) : Orderly after := by
  cases action with
  | begin_op pid =>
    obtain ⟨on, -, ⟨refused, rfl⟩ | ⟨m, entered, rfl⟩⟩ := step_begin_op moved
    · exact ⟨fun off => absurd (on.symm.trans off) (by simp), orderly.counted, orderly.alone,
        orderly.idle, fun _ _ => refused⟩
    · obtain ⟨idle, -, rfl⟩ := begin_op_some entered
      have counted := orderly.counted on
      refine ⟨fun off => absurd (on.symm.trans off) (by simp), fun _ => ?_,
        fun busy => absurd (idle.symm.trans busy) (by simp), fun _ none => absurd none (by simp),
        fun pid member => absurd (orderly.waits pid member) (by simp [entered])⟩
      change s.machine.outstanding + 1 = ((s.calls.length + 1 : Nat) : Int)
      omega
  | log_write call blockno change =>
    obtain ⟨on, member, m, announced, rfl⟩ := step_log_write moved
    obtain ⟨outstanding, committing, grown⟩ := edit_kept announced
    refine ⟨orderly.off, fun on => outstanding.trans (orderly.counted on),
      fun busy => orderly.alone (committing.symm.trans busy),
      fun _ none => absurd member (by rw [show s.calls = [] from none]; exact List.not_mem_nil), ?_⟩
    intro pid asleep
    have refused := (begin_op_none_iff _).mp (orderly.waits pid asleep)
    rw [begin_op_none_iff]
    rcases refused with busy | full
    · exact .inl (committing.trans busy)
    · refine .inr ?_
      change (LOGSIZE : Int) < m.n + (m.outstanding + 1) * MAXOPBLOCKS
      rw [outstanding]
      omega
  | end_op call =>
    obtain ⟨on, member, -, commits, last, rfl⟩ := step_end_op moved
    have counted := orderly.counted on
    have length : (s.calls.erase call).length + 1 = s.calls.length := by
      rw [List.length_erase_of_mem member]
      have := List.length_pos_of_mem member
      omega
    refine ⟨fun off => absurd (on.symm.trans off) (by simp), fun _ => ?_, fun busy => ?_,
      fun idle none => ?_, fun pid asleep => ?_⟩
    · change s.machine.outstanding - 1 = (((s.calls.erase call).length : Nat) : Int)
      omega
    · have none := last.mp busy
      have empty : (s.calls.erase call).length = 0 := by omega
      exact List.length_eq_zero_iff.mp empty
    · have empty : (s.calls.erase call).length = 0 := List.length_eq_zero_iff.mpr none
      have idle : commits = false := idle
      exact absurd (last.mpr (by omega)) (by simp [idle])
    · cases commits with
      | true => exact (begin_op_none_iff _).mpr (.inl rfl)
      | false => exact absurd asleep List.not_mem_nil
  | commit =>
    obtain ⟨on, busy, rfl⟩ := step_commit moved
    refine ⟨fun off => absurd (on.symm.trans off) (by simp), fun on => ?_, fun busy => ?_,
      fun _ _ => end_commit_block _, fun pid none => absurd none List.not_mem_nil⟩
    · exact (end_commit_outstanding _).1.trans (orderly.counted on)
    · exact absurd ((end_commit_outstanding _).2.symm.trans busy) (by simp)
  | crash writes =>
    obtain ⟨-, rfl⟩ := step_crash moved
    exact ⟨fun _ => ⟨rfl, rfl⟩, fun on => absurd on (by simp), fun busy => absurd busy (by simp [boot]),
      fun _ _ => rfl, fun pid none => absurd none List.not_mem_nil⟩
  | reboot writes =>
    obtain ⟨off, rfl⟩ := step_reboot moved
    exact ⟨orderly.off, fun on => absurd (off.symm.trans on) (by simp),
      fun busy => absurd busy (by simp [boot]), fun _ _ => rfl,
      fun pid asleep => absurd ((orderly.off off).2 ▸ asleep) List.not_mem_nil⟩
  | recover =>
    obtain ⟨off, rfl⟩ := step_recover moved
    obtain ⟨none, awake⟩ := orderly.off off
    refine ⟨fun off => absurd off (by simp), fun _ => ?_, fun busy => ?_, fun _ _ => rfl,
      fun pid asleep => absurd (awake ▸ asleep) List.not_mem_nil⟩
    · change (recover_from_log layout (boot s.machine.disk)).outstanding = _
      rw [(recover_outstanding _).1, none]
      rfl
    · exact absurd ((recover_outstanding _).2.symm.trans busy) (by simp)

theorem off_orderly (disk : Nat → Block) : Orderly (.off disk) :=
  ⟨fun _ => ⟨rfl, rfl⟩, fun on => absurd on (by simp [System.off]),
    fun busy => absurd busy (by simp [System.off, boot]), fun _ _ => rfl,
    fun pid none => absurd none List.not_mem_nil⟩

/-- The open calls can end, and then the commit returns and wakes all sleepers. -/
theorem Orderly.drained (orderly : Orderly s) (on : s.up = true)
    (active : s.machine.committing = true ∨ s.calls ≠ []) :
    ∃ last, run step s (s.calls.map (@Action.end_op layout) ++ [.commit]) = some last ∧
      last.asleep = [] ∧ (Filesystem.begin_op last.machine).isSome = true := by
  induction open' : s.calls generalizing s with
  | nil =>
    have busy : s.machine.committing = true := active.resolve_right fun not => not open'
    have moved : step s (.commit : Action layout) =
        some { s with machine := end_commit layout s.machine, asleep := [] } :=
      if_pos ⟨on, busy⟩
    refine ⟨_, by rw [List.map_nil, List.nil_append, run, moved]; rfl, rfl, ?_⟩
    obtain ⟨outstanding, idle⟩ := @end_commit_outstanding layout s.machine
    have counted := orderly.counted on
    rw [Option.isSome_iff_ne_none, ne_eq, begin_op_none_iff, not_or]
    refine ⟨by simp [idle], ?_⟩
    rw [Machine.n, end_commit_block, outstanding, counted, open']
    decide
  | cons call rest inductionHypothesis =>
    have member : call ∈ s.calls := open' ▸ List.mem_cons_self
    have idle : s.machine.committing = false := by
      cases busy : s.machine.committing with
      | false => rfl
      | true => exact absurd (orderly.alone busy) (by simp [open'])
    obtain ⟨after, moved, erased, still⟩ : ∃ after,
        step s (.end_op call : Action layout) = some after ∧ after.calls = rest ∧
        after.up = true ∧ (after.machine.committing = true ∨ after.calls ≠ []) := by
      have removed : s.calls.erase call = rest := by rw [open', List.erase_cons_head]
      have counted := orderly.counted on
      simp only [step, on, member, and_self, if_true, Filesystem.end_op, idle, Bool.false_eq_true,
        if_false]
      by_cases last : s.machine.outstanding - 1 = 0
      · simp only [last, if_true]
        exact ⟨_, rfl, removed, rfl, .inl rfl⟩
      · simp only [last, if_false]
        refine ⟨_, rfl, removed, rfl, .inr ?_⟩
        rw [removed]
        rintro rfl
        rw [open'] at counted
        exact last (by rw [counted]; rfl)
    obtain ⟨last, completed, awake, admitted⟩ :=
      inductionHypothesis (step_orderly orderly moved) still.1 still.2 erased
    exact ⟨last, by rw [List.map_cons, List.cons_append, run, moved]; exact completed, awake, admitted⟩

/-- No sleeper is forgotten. In every reachable state a process that sleeps in begin_op could not
have entered, and if the open calls end and the commit runs, it is woken and the log admits a
call. -/
theorem sleepers_wait_and_wake {disk : Nat → Block} {actions : List (Action layout)}
    (completed : run step (.off disk) actions = some s) {pid : Nat} (asleep : pid ∈ s.asleep) :
    Filesystem.begin_op s.machine = none ∧
    ∃ last, run step s (s.calls.map (@Action.end_op layout) ++ [.commit]) = some last ∧
      last.asleep = [] ∧ (Filesystem.begin_op last.machine).isSome = true := by
  have orderly : Orderly s :=
    @run_invariant _ _ _ (fun _ _ => True) Orderly (fun _ _ _ _ held moved => step_orderly held moved)
      _ _ _ (off_orderly disk) (.unguarded _ _) completed
  have on : s.up = true := by
    cases off : s.up with
    | true => rfl
    | false => exact absurd ((orderly.off off).2 ▸ asleep) List.not_mem_nil
  have refused := orderly.waits pid asleep
  refine ⟨refused, orderly.drained on ?_⟩
  by_contra neither
  rw [not_or, not_not] at neither
  have idle : s.machine.committing = false := by simpa using neither.1
  have empty := orderly.idle idle neither.2
  have counted := orderly.counted on
  rcases (begin_op_none_iff _).mp refused with busy | full
  · exact neither.1 busy
  · rw [Machine.n, empty, counted, neither.2] at full
    exact absurd full (by decide)

/-- Three calls are open, and a fourth process sleeps. -/
def fourth : List (Action mkfs) :=
  [.recover, .begin_op 0, .begin_op 1, .begin_op 2, .begin_op 3]

theorem sleepers_wait_and_wake_fourth :
    let s := final step (.off fun _ _ => 0) fourth
    Filesystem.begin_op s.machine = none ∧
    ∃ last, run step s (s.calls.map (@Action.end_op mkfs) ++ [.commit]) = some last ∧
      last.asleep = [] ∧ (Filesystem.begin_op last.machine).isSome = true :=
  sleepers_wait_and_wake (run_final (by decide +kernel)) (by decide +kernel : 3 ∈ _)

/-! ## The calls that keep to their number of blocks -/

/-- The blocks that a call has changed. -/
def History.logged (h : History) (call : Nat) : Finset Nat :=
  ((h.record.filter fun edit => edit.owner = call).map Edit.key).toFinset

/-- A call changes at most MAXOPBLOCKS different blocks, the next one included. -/
def Modest : System × History → Action layout → Prop
  | (_, h), .log_write call blockno _ => (insert blockno.val (h.logged call)).card ≤ MAXOPBLOCKS
  | _, _ => True

instance Modest.decidable : ∀ (seen : System × History) (action : Action layout),
    Decidable (Modest seen action)
  | (_, h), .log_write call blockno _ =>
      inferInstanceAs (Decidable ((insert blockno.val (h.logged call)).card ≤ MAXOPBLOCKS))
  | _, .begin_op _ | _, .end_op _ | _, .commit | _, .crash _ | _, .reboot _ | _, .recover =>
      isTrue trivial

/-- What an open call may still add to the log. -/
def spare (h : History) (call : Nat) : Nat := MAXOPBLOCKS - (h.logged call).card

/-- The log has room for what the open calls may still add to it, and holds what they have
changed. -/
structure Reserved (s : System) (h : History) : Prop where
  orderly : Orderly s
  begun : ∀ edit ∈ h.record, edit.owner < s.begun
  calls : ∀ call ∈ s.calls, call < s.begun
  nodup : s.calls.Nodup
  listed : ∀ call ∈ s.calls, ∀ blockno ∈ h.logged call, blockno ∈ s.machine.block
  room : s.machine.n + (s.calls.map (spare h)).sum ≤ LOGSIZE

theorem logged_snoc (h : History) (edit : Edit Nat Nat Block) (call : Nat) :
    { h with record := h.record ++ [edit] }.logged call =
      if edit.owner = call then insert edit.key (h.logged call) else h.logged call := by
  simp only [History.logged, List.filter_append, List.map_append, List.toFinset_append]
  by_cases own : edit.owner = call
  · rw [if_pos own, List.filter_cons_of_pos (by simpa using own)]
    ext blockno
    simp
  · rw [if_neg own, List.filter_cons_of_neg (by simpa using own)]
    ext blockno
    simp

/-- One call in the list gives up a part of what is counted for it. -/
theorem sum_lower {calls : List Nat} {before after : Nat → Nat} {call amount : Nat}
    (member : call ∈ calls) (lower : after call + amount ≤ before call)
    (others : ∀ other ∈ calls, after other ≤ before other) :
    (calls.map after).sum + amount ≤ (calls.map before).sum := by
  induction calls with
  | nil => exact absurd member List.not_mem_nil
  | cons first rest inductionHypothesis =>
    rw [List.map_cons, List.map_cons, List.sum_cons, List.sum_cons]
    have tail : ∀ other ∈ rest, after other ≤ before other :=
      fun other inside => others other (List.mem_cons_of_mem _ inside)
    rcases List.mem_cons.mp member with rfl | later
    · have less : (rest.map after).sum ≤ (rest.map before).sum := List.sum_le_sum tail
      omega
    · have less := inductionHypothesis later tail
      have here := others first List.mem_cons_self
      omega

theorem Reserved.wrote {h : History} (reserved : Reserved s h) {call : Nat} (member : call ∈ s.calls)
    {blockno : layout.Home} {change : Block → Block} {m : Machine}
    (announced : edit layout s.machine blockno change = .ok m)
    (orderly : Orderly { s with machine := m })
    (modest : (insert blockno.val (h.logged call)).card ≤ MAXOPBLOCKS) :
    Reserved { s with machine := m } { h with record := h.record ++ [⟨call, blockno, change⟩] } := by
  obtain ⟨-, -, rfl⟩ := edit_ok announced
  have spares : ∀ other, spare { h with record := h.record ++ [⟨call, blockno.val, change⟩] } other ≤
      spare h other := by
    intro other
    apply Nat.sub_le_sub_left
    apply Finset.card_le_card
    rw [logged_snoc]
    split
    · exact Finset.subset_insert _ _
    · exact Finset.Subset.refl _
  refine ⟨orderly, fun edit inside => ?_, reserved.calls, reserved.nodup,
    fun other inside changed logged => ?_, ?_⟩
  · rcases List.mem_append.mp inside with old | new
    · exact reserved.begun edit old
    · rw [List.mem_singleton.mp new]
      exact reserved.calls call member
  · have kept : ∀ old ∈ s.machine.block, old ∈ (if blockno.val ∈ s.machine.block then s.machine.block
        else s.machine.block ++ [blockno.val]) := by
      intro old present
      split
      · exact present
      · exact List.mem_append_left _ present
    rw [logged_snoc] at logged
    split at logged
    · rcases Finset.mem_insert.mp logged with rfl | old
      · change blockno.val ∈ (if blockno.val ∈ s.machine.block then _ else _)
        split
        · next present => exact present
        · exact List.mem_append_right _ (List.mem_singleton_self _)
      · exact kept _ (reserved.listed other inside changed old)
    · exact kept _ (reserved.listed other inside changed logged)
  · have room := reserved.room
    change List.length (if blockno.val ∈ s.machine.block then s.machine.block
      else s.machine.block ++ [blockno.val]) + _ ≤ _
    split
    · exact Nat.le_trans (Nat.add_le_add_left (List.sum_le_sum fun other _ => spares other) _) room
    · next absent =>
      -- a block that is new to the log is new to the call
      have new : blockno.val ∉ h.logged call :=
        fun logged => absent (reserved.listed call member _ logged)
      have lower : spare { h with record := h.record ++ [⟨call, blockno.val, change⟩] } call + 1 ≤
          spare h call := by
        rw [Finset.card_insert_of_notMem new] at modest
        rw [spare, spare, logged_snoc, if_pos rfl, Finset.card_insert_of_notMem new]
        omega
      have less := sum_lower member lower fun other _ => spares other
      rw [List.length_append, List.length_singleton, Nat.add_assoc, Nat.add_comm 1]
      exact Nat.le_trans (Nat.add_le_add_left less _) room

theorem edit_accepts {m : Machine} (small : m.n < LOGSIZE) (fits : m.n + 1 < layout.nlog)
    (inside : 0 < m.outstanding) (blockno : Nat) (change : Block → Block) :
    ∃ m', edit layout m blockno change = .ok m' := by
  have room : ¬ (LOGSIZE ≤ m.block.length ∨ (layout.nlog : Int) - 1 ≤ m.block.length) := by
    rw [Machine.n] at small fits
    omega
  have used : ¬ m.outstanding < 1 := by omega
  simp only [edit, log_write, Machine.n, if_neg room, if_neg used]
  split
  · exact ⟨_, rfl⟩
  · exact ⟨_, rfl⟩

/-- A modest call finds room for a block that is new to the log. -/
theorem Reserved.accepts {h : History} (reserved : Reserved s h) (larger : LOGSIZE < layout.nlog)
    {call : Nat} (member : call ∈ s.calls) {blockno : layout.Home}
    (absent : blockno.val ∉ s.machine.block)
    (modest : (insert blockno.val (h.logged call)).card ≤ MAXOPBLOCKS) (change : Block → Block) :
    ∃ m, edit layout s.machine blockno change = .ok m := by
  have new : blockno.val ∉ h.logged call := fun logged => absent (reserved.listed call member _ logged)
  rw [Finset.card_insert_of_notMem new] at modest
  have some : 1 ≤ spare h call := by
    rw [spare]
    omega
  have counted : spare h call ≤ (s.calls.map (spare h)).sum :=
    List.single_le_sum (fun amount _ => Nat.zero_le amount) _ (List.mem_map_of_mem member)
  have room := reserved.room
  have small : s.machine.n < LOGSIZE := by omega
  have on : s.up = true := by
    cases off : s.up with
    | true => rfl
    | false => exact absurd ((reserved.orderly.off off).1 ▸ member) List.not_mem_nil
  have outstanding := reserved.orderly.counted on
  have used := List.length_pos_of_mem member
  exact edit_accepts small (by omega) (by omega) blockno change

end Cs537.Filesystem
