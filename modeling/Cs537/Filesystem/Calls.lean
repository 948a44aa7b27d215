import Cs537.Library.Runs
import Cs537.Filesystem.Recovery

/-!
# Calls of the file system and power cuts

The system is a machine on which any number of calls are between `begin_op` and
`end_op`. Their steps interleave; each of them may change home blocks with
`log_write`. The call that ends last commits. Power may fail at any step, also
after any of the disk writes of a commit, and recovery may itself be cut short
any number of times before it completes.

The result is that the calls are atomic and durable: what is read is always the
replay of the changes of a set of calls in the order in which they were made, a
call is in this set with all of its changes or with none, and only calls that a
power cut caught before their commit had returned can be missing.
-/

namespace Cs537.Filesystem

open Cs537.Journal Cs537.Runs

variable (layout : Layout)

/-- The machine and who uses it: the open calls, the number of calls that have begun, and the
processes that sleep on the log. -/
structure System where
  machine : Machine
  up : Bool
  begun : Nat
  calls : List Nat
  asleep : List Nat

/-- What can happen. A crash during a commit comes after a number of its disk writes, and so
does a crash during recovery. -/
inductive Action where
  | begin_op (pid : Nat)
  | log_write (call : Nat) (blockno : layout.Home) (change : Block → Block)
  | end_op (call : Nat)
  | commit
  | crash (writes : Nat)
  | reboot (writes : Nat)
  | recover

variable {layout}

/-- The disk writes that a power cut can interrupt: those of the commit, if one is under way. -/
def System.pending (layout : Layout) (s : System) : List (Nat × Block) :=
  if s.machine.committing then
    (Filesystem.commit layout { s.machine with issued := [] }).issued
  else []

def step (s : System) : Action layout → Option System
  | .begin_op pid =>
      if s.up ∧ pid ∉ s.asleep then
        match Filesystem.begin_op s.machine with
        | none => some { s with asleep := pid :: s.asleep }
        | some m => some { s with machine := m, begun := s.begun + 1, calls := s.begun :: s.calls }
      else none
  | .log_write call blockno change =>
      if s.up ∧ call ∈ s.calls then
        match edit layout s.machine blockno change with
        | .error _ => none
        | .ok m => some { s with machine := m }
      else none
  | .end_op call =>
      if s.up ∧ call ∈ s.calls then
        match Filesystem.end_op s.machine with
        | .error _ => none
        | .ok (m, true) => some { s with machine := m, calls := s.calls.erase call }
        -- wakeup(&log)
        | .ok (m, false) => some { s with machine := m, calls := s.calls.erase call, asleep := [] }
      else none
  | .commit =>
      if s.up ∧ s.machine.committing then
        some { s with machine := end_commit layout s.machine, asleep := [] }
      else none
  | .crash writes =>
      if s.up then
        some { s with
          machine := boot (carryOut s.machine.disk ((s.pending layout).take writes))
          up := false
          calls := []
          asleep := [] }
      else none
  | .reboot writes =>
      if s.up then none
      else some { s with
        machine := boot (carryOut s.machine.disk
          ((recover_from_log layout (boot s.machine.disk)).issued.take writes)) }
  | .recover =>
      if s.up then none
      else some { s with machine := recover_from_log layout (boot s.machine.disk), up := true }

/-- A disk without a transaction in its log, before the machine is switched on. -/
def System.off (disk : Nat → Block) : System := ⟨boot disk, false, 0, [], []⟩

/-- What an observer of a run notes: the changes in their order, the calls since the last commit
or recovery, the calls that a power cut caught outside a commit, and the groups of calls that one
caught during their commit. -/
structure History where
  record : List (Edit Nat Nat Block)
  recent : List Nat
  lost : List Nat
  torn : List (List Nat)

def History.none : History := ⟨[], [], [], []⟩

def note (h : History) (before : System) (action : Action layout) (after : System) : History :=
  match action with
  | .begin_op _ =>
      if after.begun = before.begun then h else { h with recent := before.begun :: h.recent }
  | .log_write call blockno change => { h with record := h.record ++ [⟨call, blockno, change⟩] }
  | .commit => { h with recent := [] }
  | .crash _ =>
      if before.machine.committing then { h with recent := [], torn := h.recent :: h.torn }
      else { h with recent := [], lost := h.recent ++ h.lost }
  | _ => h

/-- The changes of the calls that survive. -/
def History.surviving (h : History) (survives : Nat → Bool) : List (Edit Nat Nat Block) :=
  h.record.filter fun edit => survives edit.owner

/-- The calls that survive, as far as the history decides it: a lost call does not, a torn group
survives as a whole or not at all, and every other call does. -/
structure History.Decides (h : History) (survives : Nat → Bool) : Prop where
  lost : ∀ call ∈ h.lost, survives call = false
  torn : ∀ group ∈ h.torn,
    (∀ call ∈ group, survives call = true) ∨ (∀ call ∈ group, survives call = false)
  others : ∀ call, call ∉ h.lost → (∀ group ∈ h.torn, call ∉ group) → survives call = true

/-- The calls of the history have begun, and the recent ones have not been caught. -/
structure History.Numbered (h : History) (begun : Nat) : Prop where
  record : ∀ edit ∈ h.record, edit.owner < begun
  recent : ∀ call ∈ h.recent, call < begun
  lost : ∀ call ∈ h.lost, call < begun ∧ call ∉ h.recent
  torn : ∀ group ∈ h.torn, ∀ call ∈ group, call < begun ∧ call ∉ h.recent

/-- The calls that a power cut cannot take back any more. -/
def settled (h : History) (survives : Nat → Bool) (call : Nat) : Bool :=
  survives call && !h.recent.contains call

/-- While the machine is up, the disk has the settled changes and the cache all that survive;
they differ at blocks of the transaction in memory. -/
structure Up (layout : Layout) (start : Nat → Block) (s : System) (h : History)
    (survives : Nat → Bool) : Prop where
  ready : Committable layout s.machine
  cleared : header (s.machine.disk layout.logstart) = []
  logArea : ∀ offset < layout.nlog,
    s.machine.cache (layout.logstart + offset) = s.machine.disk (layout.logstart + offset)
  counted : s.machine.outstanding = s.calls.length
  alone : s.machine.committing = true → s.calls = []
  nodup : s.calls.Nodup
  listed : ∀ call ∈ s.calls, call ∈ h.recent
  clean : ∀ blockno, layout.IsHome blockno → blockno ∉ s.machine.block →
    s.machine.cache blockno = s.machine.disk blockno
  durable : ∀ blockno, layout.IsHome blockno →
    s.machine.disk blockno = replay start (h.surviving (settled h survives)) blockno
  current : ∀ blockno, layout.IsHome blockno →
    s.machine.cache blockno = replay start (h.surviving survives) blockno

/-- While the machine is down, the disk means to recovery what the surviving calls made of it. -/
structure Down (layout : Layout) (start : Nat → Block) (s : System) (h : History)
    (survives : Nat → Bool) : Prop where
  sound : Sound layout s.machine.disk
  recent : h.recent = []
  calls : s.calls = []
  means : ∀ blockno, layout.IsHome blockno →
    meaning (plan layout) s.machine.disk blockno = replay start (h.surviving survives) blockno

/-- The invariant of all runs, with the calls that have survived so far. -/
structure Shows (layout : Layout) (start : Nat → Block) (s : System) (h : History)
    (survives : Nat → Bool) : Prop where
  decides : h.Decides survives
  numbered : h.Numbered s.begun
  up : s.up = true → Up layout start s h survives
  down : s.up = false → Down layout start s h survives

/-! ## What the steps do -/

theorem surviving_congr {h : History} {one two : Nat → Bool}
    (same : ∀ edit ∈ h.record, one edit.owner = two edit.owner) :
    h.surviving one = h.surviving two :=
  List.filter_congr same

theorem surviving_snoc {h : History} {survives : Nat → Bool} {edit : Edit Nat Nat Block}
    (alive : survives edit.owner = true) :
    { h with record := h.record ++ [edit] }.surviving survives = h.surviving survives ++ [edit] := by
  rw [History.surviving, List.filter_append,
    List.filter_cons_of_pos (p := fun edit : Edit Nat Nat Block => survives edit.owner) alive]
  rfl

theorem surviving_snoc_lost {h : History} {survives : Nat → Bool} {edit : Edit Nat Nat Block}
    (lost : survives edit.owner = false) :
    { h with record := h.record ++ [edit] }.surviving survives = h.surviving survives := by
  rw [History.surviving, List.filter_append, List.filter_cons_of_neg (by simp [lost])]
  exact List.append_nil _

theorem edit_ok {m m' : Machine} {blockno : Nat} {change : Block → Block}
    (announced : edit layout m blockno change = .ok m') :
    m.n < LOGSIZE ∧ m.n + 1 < layout.nlog ∧
    m' = { m with
      cache := Function.update m.cache blockno (change (m.cache blockno))
      block := if blockno ∈ m.block then m.block else m.block ++ [blockno] } := by
  unfold edit log_write at announced
  split at announced
  · exact absurd announced (by simp)
  · next room =>
    rw [not_or, Nat.not_le, Int.not_le] at room
    have bounds : m.n < LOGSIZE ∧ m.n + 1 < layout.nlog := by
      have small : m.n < LOGSIZE := room.1
      have fits : ((m.n : Nat) : Int) < (layout.nlog : Int) - 1 := room.2
      omega
    refine ⟨bounds.1, bounds.2, ?_⟩
    split at announced
    · exact absurd announced (by simp)
    · split at announced
      · next listed =>
        rw [if_pos listed, ← Except.ok.inj announced]
        rfl
      · next absent =>
        rw [if_neg absent, ← Except.ok.inj announced]
        rfl

theorem begin_op_some {m m' : Machine} (entered : Filesystem.begin_op m = some m') :
    m.committing = false ∧ m.n + (m.outstanding + 1) * MAXOPBLOCKS ≤ LOGSIZE ∧
    m' = { m with outstanding := m.outstanding + 1 } := by
  unfold Filesystem.begin_op at entered
  split at entered
  · exact absurd entered (by simp)
  · next idle =>
    split at entered
    · exact absurd entered (by simp)
    · next room =>
      exact ⟨by simpa using idle, Int.not_lt.mp room, (Option.some.inj entered).symm⟩

theorem end_op_ok {m m' : Machine} {commits : Bool} (ended : Filesystem.end_op m = .ok (m', commits)) :
    m.committing = false ∧ (commits = true ↔ m.outstanding - 1 = 0) ∧
    m' = { m with outstanding := m.outstanding - 1, committing := commits } := by
  unfold Filesystem.end_op at ended
  cases idle : m.committing with
  | true =>
    simp only [idle, if_true] at ended
    exact absurd ended (by simp)
  | false =>
    simp only [idle, Bool.false_eq_true, if_false] at ended
    split at ended
    · next last =>
      obtain ⟨rfl, rfl⟩ := Prod.mk.inj (Except.ok.inj ended)
      exact ⟨rfl, ⟨fun _ => last, fun _ => rfl⟩, rfl⟩
    · next others =>
      obtain ⟨rfl, rfl⟩ := Prod.mk.inj (Except.ok.inj ended)
      exact ⟨rfl, ⟨fun not => absurd not (by simp), fun last => absurd last others⟩, by rw [← idle]⟩

/-- A call enters, or its process goes to sleep. -/
theorem step_begin_op {s after : System} {pid : Nat}
    (moved : step s (.begin_op pid : Action layout) = some after) :
    s.up = true ∧ pid ∉ s.asleep ∧
    (Filesystem.begin_op s.machine = none ∧ after = { s with asleep := pid :: s.asleep } ∨
      ∃ m, Filesystem.begin_op s.machine = some m ∧
        after = { s with machine := m, begun := s.begun + 1, calls := s.begun :: s.calls }) := by
  simp only [step] at moved
  split at moved
  · next can =>
    refine ⟨can.1, can.2, ?_⟩
    split at moved
    · next refused => exact .inl ⟨refused, (Option.some.inj moved).symm⟩
    · next m entered => exact .inr ⟨m, entered, (Option.some.inj moved).symm⟩
  · exact absurd moved (by simp)

theorem step_log_write {s after : System} {call : Nat} {blockno : layout.Home}
    {change : Block → Block} (moved : step s (.log_write call blockno change) = some after) :
    s.up = true ∧ call ∈ s.calls ∧
    ∃ m, edit layout s.machine blockno change = .ok m ∧ after = { s with machine := m } := by
  simp only [step] at moved
  split at moved
  · next can =>
    refine ⟨can.1, can.2, ?_⟩
    split at moved
    · exact absurd moved (by simp)
    · next m announced => exact ⟨m, announced, (Option.some.inj moved).symm⟩
  · exact absurd moved (by simp)

/-- A call leaves; the last one goes on to commit, the others wake the sleepers. -/
theorem step_end_op {s after : System} {call : Nat}
    (moved : step s (.end_op call : Action layout) = some after) :
    s.up = true ∧ call ∈ s.calls ∧ s.machine.committing = false ∧
    ∃ commits : Bool, (commits = true ↔ s.machine.outstanding - 1 = 0) ∧
      after = { s with
        machine := { s.machine with outstanding := s.machine.outstanding - 1, committing := commits }
        calls := s.calls.erase call
        asleep := if commits then s.asleep else [] } := by
  simp only [step] at moved
  split at moved
  · next can =>
    refine ⟨can.1, can.2, ?_⟩
    split at moved
    · exact absurd moved (by simp)
    · next m ended =>
      obtain ⟨idle, last, rfl⟩ := end_op_ok ended
      exact ⟨idle, true, last, (Option.some.inj moved).symm⟩
    · next m ended =>
      obtain ⟨idle, last, rfl⟩ := end_op_ok ended
      exact ⟨idle, false, last, (Option.some.inj moved).symm⟩
  · exact absurd moved (by simp)

theorem step_commit {s after : System} (moved : step s (.commit : Action layout) = some after) :
    s.up = true ∧ s.machine.committing = true ∧
    after = { s with machine := end_commit layout s.machine, asleep := [] } := by
  simp only [step] at moved
  split at moved
  · next can => exact ⟨can.1, can.2, (Option.some.inj moved).symm⟩
  · exact absurd moved (by simp)

theorem step_crash {s after : System} {writes : Nat}
    (moved : step s (.crash writes : Action layout) = some after) :
    s.up = true ∧
    after = { s with
      machine := boot (carryOut s.machine.disk ((s.pending layout).take writes))
      up := false
      calls := []
      asleep := [] } := by
  simp only [step] at moved
  split at moved
  · next on => exact ⟨on, (Option.some.inj moved).symm⟩
  · exact absurd moved (by simp)

theorem step_reboot {s after : System} {writes : Nat}
    (moved : step s (.reboot writes : Action layout) = some after) :
    s.up = false ∧
    after = { s with
      machine := boot (carryOut s.machine.disk
        ((recover_from_log layout (boot s.machine.disk)).issued.take writes)) } := by
  simp only [step] at moved
  split at moved
  · exact absurd moved (by simp)
  · next off => exact ⟨by simpa using off, (Option.some.inj moved).symm⟩

theorem step_recover {s after : System} (moved : step s (.recover : Action layout) = some after) :
    s.up = false ∧
    after = { s with machine := recover_from_log layout (boot s.machine.disk), up := true } := by
  simp only [step] at moved
  split at moved
  · exact absurd moved (by simp)
  · next off => exact ⟨by simpa using off, (Option.some.inj moved).symm⟩

variable {start : Nat → Block} {s : System} {h : History} {survives : Nat → Bool}

theorem Shows.alive (shows : Shows layout start s h survives) {call : Nat}
    (recent : call ∈ h.recent) : survives call = true :=
  shows.decides.others call
    (fun lost => (shows.numbered.lost call lost).2 recent)
    (fun group torn member => (shows.numbered.torn group torn call member).2 recent)

theorem Shows.new (shows : Shows layout start s h survives) : survives s.begun = true :=
  shows.decides.others s.begun
    (fun lost => Nat.lt_irrefl _ (shows.numbered.lost _ lost).1)
    (fun group torn member => Nat.lt_irrefl _ (shows.numbered.torn group torn _ member).1)

/-- A call that begins. -/
theorem Shows.began (shows : Shows layout start s h survives) (on : s.up = true)
    (idle : s.machine.committing = false) :
    Shows layout start
      { s with
        machine := { s.machine with outstanding := s.machine.outstanding + 1 }
        begun := s.begun + 1
        calls := s.begun :: s.calls }
      { h with recent := s.begun :: h.recent } survives where
  decides := ⟨shows.decides.lost, shows.decides.torn, shows.decides.others⟩
  numbered := by
    refine ⟨fun edit member => Nat.lt_succ_of_lt (shows.numbered.record edit member), ?_, ?_, ?_⟩
    · intro call member
      rcases List.mem_cons.mp member with rfl | old
      · exact Nat.lt_succ_self _
      · exact Nat.lt_succ_of_lt (shows.numbered.recent call old)
    · intro call lost
      obtain ⟨before, apart⟩ := shows.numbered.lost call lost
      exact ⟨Nat.lt_succ_of_lt before, by simp [apart, Nat.ne_of_lt before]⟩
    · intro group torn call member
      obtain ⟨before, apart⟩ := shows.numbered.torn group torn call member
      exact ⟨Nat.lt_succ_of_lt before, by simp [apart, Nat.ne_of_lt before]⟩
  up := by
    intro _
    have now := shows.up on
    have same : History.surviving { h with recent := s.begun :: h.recent }
        (settled { h with recent := s.begun :: h.recent } survives) =
        h.surviving (settled h survives) := by
      refine surviving_congr fun edit member => ?_
      have other := Nat.ne_of_lt (shows.numbered.record edit member)
      simp [settled, other]
    exact {
      ready := ⟨now.ready.home, now.ready.fits, now.ready.short⟩
      cleared := now.cleared
      logArea := now.logArea
      counted := by
        have counted := now.counted
        change s.machine.outstanding + 1 = ((s.calls.length + 1 : Nat) : Int)
        omega
      alone := fun busy => absurd (idle.symm.trans busy) (by simp)
      nodup := List.nodup_cons.mpr ⟨fun member =>
        Nat.lt_irrefl _ (shows.numbered.recent _ (now.listed _ member)), now.nodup⟩
      listed := fun call member => by
        rcases List.mem_cons.mp member with rfl | old
        · exact List.mem_cons_self
        · exact List.mem_cons_of_mem _ (now.listed call old)
      clean := now.clean
      durable := fun blockno home => by
        rw [same]
        exact now.durable blockno home
      current := now.current }
  down := fun off => absurd (on.symm.trans off) (by simp)

/-- A change that is announced. -/
theorem Shows.wrote (shows : Shows layout start s h survives) (on : s.up = true) {call : Nat}
    (member : call ∈ s.calls) {blockno : layout.Home} {change : Block → Block} {m : Machine}
    (announced : edit layout s.machine blockno change = .ok m) :
    Shows layout start { s with machine := m }
      { h with record := h.record ++ [⟨call, blockno, change⟩] } survives where
  decides := ⟨shows.decides.lost, shows.decides.torn, shows.decides.others⟩
  numbered := by
    refine ⟨fun edit member' => ?_, shows.numbered.recent, shows.numbered.lost, shows.numbered.torn⟩
    rcases List.mem_append.mp member' with old | new
    · exact shows.numbered.record edit old
    · rw [List.mem_singleton.mp new]
      exact shows.numbered.recent call ((shows.up on).listed call member)
  up := by
    intro _
    have now := shows.up on
    obtain ⟨short, fits, rfl⟩ := edit_ok announced
    have recent := now.listed call member
    have listed : ∀ other, other ∈ s.machine.block ∨ other = blockno.val ↔
        other ∈ (if blockno.val ∈ s.machine.block then s.machine.block
          else s.machine.block ++ [blockno.val]) := by
      intro other
      split
      · next present =>
        refine ⟨fun either => either.elim id fun same => same ▸ present, Or.inl⟩
      · rw [List.mem_append, List.mem_singleton]
    have length : (if blockno.val ∈ s.machine.block then s.machine.block
        else s.machine.block ++ [blockno.val]).length ≤ s.machine.n + 1 := by
      split
      · exact Nat.le_succ _
      · rw [List.length_append, List.length_singleton]
        exact Nat.le_refl _
    have unsettled : settled h survives call = false := by
      simp [settled, recent]
    exact {
      ready := ⟨fun other inside => ((listed other).mpr inside).elim (now.ready.home other)
          fun same => same ▸ blockno.property,
        Nat.lt_of_le_of_lt length fits, Nat.le_trans length short⟩
      cleared := now.cleared
      logArea := fun offset inside => by
        rw [← now.logArea offset inside]
        exact Function.update_of_ne (blockno.property.ne_log inside).symm ..
      counted := now.counted
      alone := now.alone
      nodup := now.nodup
      listed := now.listed
      clean := fun other home absent => by
        have apart : ¬ (other ∈ s.machine.block ∨ other = blockno.val) :=
          fun either => absent ((listed other).mp either)
        rw [not_or] at apart
        exact (Function.update_of_ne apart.2 ..).trans (now.clean other home apart.1)
      durable := fun other home => by
        have same : settled { h with record := h.record ++ [⟨call, blockno.val, change⟩] } survives =
            settled h survives := rfl
        rw [same, surviving_snoc_lost unsettled]
        exact now.durable other home
      current := fun other home => by
        change Function.update s.machine.cache blockno.val _ other = _
        rw [surviving_snoc (shows.alive recent), replay_append, replay, replay]
        by_cases same : other = blockno.val
        · rw [same, Function.update_self, Function.update_self, ← now.current _ blockno.property]
        · rw [Function.update_of_ne same, Function.update_of_ne same]
          exact now.current other home }
  down := fun off => absurd (on.symm.trans off) (by simp)

/-- A call that ends; the last one starts the commit. -/
theorem Shows.ended (shows : Shows layout start s h survives) (on : s.up = true) {call : Nat}
    (member : call ∈ s.calls) {commits : Bool}
    (last : commits = true ↔ s.machine.outstanding - 1 = 0) (asleep : List Nat) :
    Shows layout start
      { s with
        machine := { s.machine with outstanding := s.machine.outstanding - 1, committing := commits }
        calls := s.calls.erase call
        asleep := asleep } h survives where
  decides := shows.decides
  numbered := shows.numbered
  up := by
    intro _
    have now := shows.up on
    have length : (s.calls.erase call).length + 1 = s.calls.length := by
      rw [List.length_erase_of_mem member]
      have := List.length_pos_of_mem member
      omega
    have counted := now.counted
    exact {
      ready := ⟨now.ready.home, now.ready.fits, now.ready.short⟩
      cleared := now.cleared
      logArea := now.logArea
      counted := by
        change s.machine.outstanding - 1 = (((s.calls.erase call).length : Nat) : Int)
        omega
      alone := fun commits => by
        have none := last.mp commits
        have empty : (s.calls.erase call).length = 0 := by omega
        exact List.length_eq_zero_iff.mp empty
      nodup := now.nodup.erase call
      listed := fun other inside => now.listed other (List.mem_of_mem_erase inside)
      clean := now.clean
      durable := now.durable
      current := now.current }
  down := fun off => absurd (on.symm.trans off) (by simp)

/-- A commit settles all calls so far. -/
theorem Shows.committed (shows : Shows layout start s h survives) (on : s.up = true)
    (busy : s.machine.committing = true) :
    Shows layout start { s with machine := end_commit layout s.machine, asleep := [] }
      { h with recent := [] } survives where
  decides := ⟨shows.decides.lost, shows.decides.torn, shows.decides.others⟩
  numbered := ⟨shows.numbered.record, fun call none => absurd none List.not_mem_nil,
    fun call lost => ⟨(shows.numbered.lost call lost).1, List.not_mem_nil⟩,
    fun group torn call member => ⟨(shows.numbered.torn group torn call member).1, List.not_mem_nil⟩⟩
  up := by
    intro _
    have now := shows.up on
    obtain ⟨cleared, copied⟩ := commit_completed now.ready now.cleared now.clean
    have same : History.surviving { h with recent := [] } (settled { h with recent := [] } survives) =
        h.surviving survives :=
      surviving_congr fun edit _ => by simp [settled]
    have ended : end_commit layout s.machine =
        { (s.machine.issue (commitWrites layout s.machine)).forget with committing := false } := by
      rw [end_commit, commit_eq now.ready now.logArea]
    have cached : ∀ blockno, layout.IsHome blockno →
        carryOut s.machine.cache (commitWrites layout s.machine) blockno = s.machine.cache blockno := by
      intro blockno home
      by_cases written : blockno ∈ (commitWrites layout s.machine).map Prod.fst
      · rw [← copied blockno home]
        exact carryOut_congr fun absent => absurd written absent
      · exact carryOut_absent written
    rw [ended]
    exact {
      ready := ⟨fun other none => absurd none List.not_mem_nil, layout.header, Nat.zero_le _⟩
      cleared := cleared
      logArea := fun offset inside => carryOut_congr fun _ => now.logArea offset inside
      counted := now.counted
      alone := fun busy => absurd busy (by simp)
      nodup := now.nodup
      listed := fun call inside => absurd inside (by rw [now.alone busy]; exact List.not_mem_nil)
      clean := fun other home _ => (cached other home).trans (copied other home).symm
      durable := fun other home => by
        rw [same, ← now.current other home]
        exact copied other home
      current := fun other home => (cached other home).trans (now.current other home) }
  down := fun off => absurd (on.symm.trans off) (by simp)

/-- The calls that survive a power cut that takes the recent ones. -/
theorem Shows.lose (shows : Shows layout start s h survives) (on : s.up = true) {part : List (Nat × Block)}
    (held : Sound layout (carryOut s.machine.disk part))
    (means : ∀ blockno, layout.IsHome blockno →
      meaning (plan layout) (carryOut s.machine.disk part) blockno = s.machine.disk blockno)
    {lost : List Nat} {torn : List (List Nat)}
    (caught : lost = h.recent ++ h.lost ∧ torn = h.torn ∨ lost = h.lost ∧ torn = h.recent :: h.torn) :
    Shows layout start
      { s with machine := boot (carryOut s.machine.disk part), up := false, calls := [], asleep := [] }
      { h with recent := [], lost := lost, torn := torn } (settled h survives) where
  decides := by
    have dead : ∀ call ∈ h.recent, settled h survives call = false := by
      intro call member
      simp [settled, member]
    have same : ∀ call, call ∉ h.recent → settled h survives call = survives call := by
      intro call apart
      simp [settled, apart]
    have older : ∀ group ∈ h.torn, (∀ call ∈ group, settled h survives call = true) ∨
        (∀ call ∈ group, settled h survives call = false) := by
      intro group member
      have agree : ∀ call ∈ group, settled h survives call = survives call :=
        fun call inside => same call (shows.numbered.torn group member call inside).2
      rcases shows.decides.torn group member with all | none
      · exact .inl fun call inside => (agree call inside).trans (all call inside)
      · exact .inr fun call inside => (agree call inside).trans (none call inside)
    have gone : ∀ call ∈ h.lost, settled h survives call = false := by
      intro call member
      rw [same call (shows.numbered.lost call member).2]
      exact shows.decides.lost call member
    rcases caught with ⟨rfl, rfl⟩ | ⟨rfl, rfl⟩
    · refine ⟨fun call member => ?_, older, fun call apart others => ?_⟩
      · rcases List.mem_append.mp member with recent | before
        · exact dead call recent
        · exact gone call before
      · rw [List.mem_append, not_or] at apart
        rw [same call apart.1]
        exact shows.decides.others call apart.2 others
    · refine ⟨gone, fun group member => ?_, fun call apart others => ?_⟩
      · rcases List.mem_cons.mp member with rfl | before
        · exact .inr dead
        · exact older group before
      · rw [same call (others _ List.mem_cons_self)]
        exact shows.decides.others call apart fun group member =>
          others group (List.mem_cons_of_mem _ member)
  numbered := by
    refine ⟨shows.numbered.record, fun call none => absurd none List.not_mem_nil, ?_, ?_⟩
    · intro call member
      refine ⟨?_, List.not_mem_nil⟩
      rcases caught with ⟨rfl, -⟩ | ⟨rfl, -⟩
      · rcases List.mem_append.mp member with recent | before
        · exact shows.numbered.recent call recent
        · exact (shows.numbered.lost call before).1
      · exact (shows.numbered.lost call member).1
    · intro group member call inside
      refine ⟨?_, List.not_mem_nil⟩
      rcases caught with ⟨-, rfl⟩ | ⟨-, rfl⟩
      · exact (shows.numbered.torn group member call inside).1
      · rcases List.mem_cons.mp member with rfl | before
        · exact shows.numbered.recent call inside
        · exact (shows.numbered.torn group before call inside).1
  up := fun on => absurd on (by simp)
  down := fun _ => ⟨held, rfl, rfl, fun blockno home =>
    (means blockno home).trans ((shows.up on).durable blockno home)⟩

/-- A power cut after the point of commit takes nothing. -/
theorem Shows.spare (shows : Shows layout start s h survives) (on : s.up = true) {part : List (Nat × Block)}
    (held : Sound layout (carryOut s.machine.disk part))
    (means : ∀ blockno, layout.IsHome blockno →
      meaning (plan layout) (carryOut s.machine.disk part) blockno = s.machine.cache blockno) :
    Shows layout start
      { s with machine := boot (carryOut s.machine.disk part), up := false, calls := [], asleep := [] }
      { h with recent := [], torn := h.recent :: h.torn } survives where
  decides := by
    refine ⟨shows.decides.lost, fun group member => ?_, fun call apart others => ?_⟩
    · rcases List.mem_cons.mp member with rfl | before
      · exact .inl fun call recent => shows.alive recent
      · exact shows.decides.torn group before
    · exact shows.decides.others call apart fun group member =>
        others group (List.mem_cons_of_mem _ member)
  numbered := by
    refine ⟨shows.numbered.record, fun call none => absurd none List.not_mem_nil,
      fun call lost => ⟨(shows.numbered.lost call lost).1, List.not_mem_nil⟩, ?_⟩
    intro group member call inside
    refine ⟨?_, List.not_mem_nil⟩
    rcases List.mem_cons.mp member with rfl | before
    · exact shows.numbered.recent call inside
    · exact (shows.numbered.torn group before call inside).1
  up := fun on => absurd on (by simp)
  down := fun _ => ⟨held, rfl, rfl, fun blockno home =>
    (means blockno home).trans ((shows.up on).current blockno home)⟩

theorem Up.pending_eq (now : Up layout start s h survives) :
    s.pending layout = if s.machine.committing then commitWrites layout s.machine else [] := by
  have issued : (Filesystem.commit layout { s.machine with issued := [] }).issued =
      commitWrites layout s.machine := by
    rw [commit_eq (m := { s.machine with issued := [] }) ⟨now.ready.home, now.ready.fits, now.ready.short⟩
      now.logArea]
    exact List.nil_append _
  rw [System.pending, issued]

/-- A power cut, at any time. -/
theorem Shows.crashed (shows : Shows layout start s h survives) (on : s.up = true) (writes : Nat)
    {after : System}
    (cut : after = { s with
      machine := boot (carryOut s.machine.disk ((s.pending layout).take writes))
      up := false
      calls := []
      asleep := [] }) :
    ∃ survives', Shows layout start after (note h s (.crash writes : Action layout) after) survives' := by
  have now := shows.up on
  rw [cut, note, now.pending_eq]
  cases busy : s.machine.committing with
  | true =>
    simp only [if_true]
    obtain ⟨held, means⟩ := commit_interrupted now.ready now.cleared now.clean
      (List.take_prefix writes (commitWrites layout s.machine))
    by_cases early : ((commitWrites layout s.machine).take writes).length ≤ s.machine.n
    · refine ⟨settled h survives, shows.lose on held (fun blockno home => ?_) (.inr ⟨rfl, rfl⟩)⟩
      rw [means blockno home, if_pos early]
    · refine ⟨survives, shows.spare on held fun blockno home => ?_⟩
      rw [means blockno home, if_neg early]
  | false =>
    simp only [Bool.false_eq_true, if_false, List.take_nil]
    have sound : Sound layout (carryOut s.machine.disk []) := .empty now.cleared
    refine ⟨settled h survives, shows.lose on sound (fun blockno _ => ?_) (.inl ⟨rfl, rfl⟩)⟩
    rw [carryOut_nil, meaning, plan_nil now.cleared, carryOut_nil]

/-- A recovery that is cut short. -/
theorem Shows.rebooted (shows : Shows layout start s h survives) (off : s.up = false)
    (part : List (Nat × Block)) (begun : part <+: repair (plan layout) (clear layout) s.machine.disk) :
    Shows layout start { s with machine := boot (carryOut s.machine.disk part) } h survives where
  decides := shows.decides
  numbered := shows.numbered
  up := fun on => absurd (off.symm.trans on) (by simp)
  down := by
    intro _
    have now := shows.down off
    obtain ⟨held, same⟩ := redo.interrupted now.sound begun
    exact ⟨held, now.recent, now.calls, fun blockno home =>
      (same blockno home).trans (now.means blockno home)⟩

/-- A recovery that completes. -/
theorem Shows.recovered (shows : Shows layout start s h survives) (off : s.up = false) :
    Shows layout start { s with machine := recover_from_log layout (boot s.machine.disk), up := true }
      h survives where
  decides := shows.decides
  numbered := shows.numbered
  up := by
    intro _
    have now := shows.down off
    obtain ⟨held, empty, same⟩ := redo.repaired now.sound
    have kept : settled h survives = survives := by
      funext call
      simp [settled, now.recent]
    rw [recover_eq now.sound]
    have durable : ∀ blockno, layout.IsHome blockno →
        carryOut s.machine.disk (repair (plan layout) (clear layout) s.machine.disk) blockno =
          replay start (h.surviving survives) blockno :=
      fun blockno home => (same blockno home).trans (now.means blockno home)
    exact {
      ready := ⟨fun other none => absurd none List.not_mem_nil, layout.header, Nat.zero_le _⟩
      cleared := by
        change header (carryOut s.machine.disk _ layout.logstart) = []
        rw [← plan_keys, empty]
        rfl
      logArea := fun _ _ => rfl
      counted := by
        rw [now.calls]
        rfl
      alone := fun _ => now.calls
      nodup := now.calls ▸ List.nodup_nil
      listed := fun call inside => absurd (now.calls ▸ inside) List.not_mem_nil
      clean := fun _ _ _ => rfl
      durable := by
        rw [kept]
        exact durable
      current := durable }
  down := fun on => absurd on (by simp)

/-- Sleeping on the log changes nothing that is kept. -/
theorem Shows.slept (shows : Shows layout start s h survives) (asleep : List Nat) :
    Shows layout start { s with asleep := asleep } h survives where
  decides := shows.decides
  numbered := shows.numbered
  up := fun on => let now := shows.up on
    ⟨now.ready, now.cleared, now.logArea, now.counted, now.alone, now.nodup, now.listed, now.clean,
      now.durable, now.current⟩
  down := fun off => let now := shows.down off
    ⟨now.sound, now.recent, now.calls, now.means⟩

/-- Every step keeps the invariant, with the calls that still survive. -/
theorem step_shows {action : Action layout} {after : System}
    (shows : Shows layout start s h survives) (moved : step s action = some after) :
    ∃ survives', Shows layout start after (note h s action after) survives' := by
  cases action with
  | begin_op pid =>
    obtain ⟨on, -, ⟨-, rfl⟩ | ⟨m, entered, rfl⟩⟩ := step_begin_op moved
    · rw [note, if_pos rfl]
      exact ⟨survives, shows.slept _⟩
    · obtain ⟨idle, -, rfl⟩ := begin_op_some entered
      rw [note, if_neg (Nat.succ_ne_self _)]
      exact ⟨survives, shows.began on idle⟩
  | log_write call blockno change =>
    obtain ⟨on, member, m, announced, rfl⟩ := step_log_write moved
    exact ⟨survives, shows.wrote on member announced⟩
  | end_op call =>
    obtain ⟨on, member, -, commits, last, rfl⟩ := step_end_op moved
    exact ⟨survives, shows.ended on member last _⟩
  | commit =>
    obtain ⟨on, busy, rfl⟩ := step_commit moved
    exact ⟨survives, shows.committed on busy⟩
  | crash writes =>
    obtain ⟨on, cut⟩ := step_crash moved
    exact shows.crashed on writes cut
  | reboot writes =>
    obtain ⟨off, rfl⟩ := step_reboot moved
    rw [recover_eq (shows.down off).sound]
    exact ⟨survives, shows.rebooted off _ (List.take_prefix _ _)⟩
  | recover =>
    obtain ⟨off, rfl⟩ := step_recover moved
    exact ⟨survives, shows.recovered off⟩

/-- Before the machine is switched on for the first time. -/
theorem off_shows {disk : Nat → Block} (cleared : header (disk layout.logstart) = []) :
    Shows layout disk (.off disk) .none (fun _ => true) where
  decides := ⟨fun call none => absurd none List.not_mem_nil,
    fun group none => absurd none List.not_mem_nil, fun _ _ _ => rfl⟩
  numbered := ⟨fun edit none => absurd none List.not_mem_nil,
    fun call none => absurd none List.not_mem_nil, fun call none => absurd none List.not_mem_nil,
    fun group none => absurd none List.not_mem_nil⟩
  up := fun on => absurd on (by simp [System.off])
  down := fun _ => ⟨.empty cleared, rfl, rfl, fun blockno _ => by
    change meaning (plan layout) disk blockno = _
    rw [meaning, plan_nil cleared]
    rfl⟩

/-- Calls are atomic and durable. In every run, with any interleaving of calls and any number of
power cuts, there are calls whose changes are replayed in order, and no others, in what is
read from the cache; a call is missing only if a power cut caught it, with its whole group if
their commit was under way. -/
theorem calls_atomic {disk : Nat → Block} (cleared : header (disk layout.logstart) = [])
    {actions : List (Action layout)} {s : System} {h : History}
    (completed : run (observe step note) (.off disk, .none) actions = some (s, h))
    (on : s.up = true) :
    ∃ survives : Nat → Bool, h.Decides survives ∧
      (∀ call ∈ s.calls, survives call = true) ∧
      ∀ blockno, layout.IsHome blockno →
        s.machine.bread blockno = replay disk (h.surviving survives) blockno := by
  have always : ∃ survives, Shows layout disk s h survives := by
    refine @run_invariant _ _ (observe step note) (fun _ _ => True)
      (fun seen => ∃ survives, Shows layout disk seen.1 seen.2 survives)
      ?_ _ _ _ ⟨_, off_shows cleared⟩ (.unguarded _ _) completed
    rintro ⟨before, past⟩ action next - ⟨survives, shows⟩ moved
    obtain ⟨after, stepped, rfl⟩ := Option.map_eq_some_iff.mp moved
    exact step_shows shows stepped
  obtain ⟨survives, shows⟩ := always
  have now := shows.up on
  exact ⟨survives, shows.decides, fun call member => shows.alive (now.listed call member), now.current⟩

/-- A call that is committed, and one that a power cut catches after the point of commit, when one
block of two has been copied home; recovery is cut short once. -/
def cutShort : List (Action mkfs) :=
  [.recover, .begin_op 0, .log_write 0 ⟨100, by decide⟩ (fun _ _ => 1), .end_op 0, .commit,
    .begin_op 0, .log_write 1 ⟨100, by decide⟩ (fun block i => block i + 1),
    .log_write 1 ⟨101, by decide⟩ (fun _ _ => 7), .end_op 1, .crash 4, .reboot 1, .recover]

theorem calls_atomic_cut_short :
    let last := final (observe step note) (.off fun _ _ => 0, .none) cutShort
    ∃ survives : Nat → Bool, last.2.Decides survives ∧
      (∀ call ∈ last.1.calls, survives call = true) ∧
      ∀ blockno, mkfs.IsHome blockno →
        last.1.machine.bread blockno = replay (fun _ _ => 0) (last.2.surviving survives) blockno :=
  calls_atomic (by decide)
    (@run_final _ _ (observe step note) (.off fun _ _ => 0, .none) cutShort (by decide +kernel))
    (by decide +kernel)

end Cs537.Filesystem
