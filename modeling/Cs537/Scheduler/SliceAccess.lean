import Cs537.Scheduler.Integrity
import Cs537.Scheduler.TurnBudget

/-!
# Access to a time slice by pid

`setslice` and `getslice` search the table for a pid and do not look at the state of the
slot. A pid that is in use belongs to one slot only, so for the pid of a process both
functions do what they are meant to do. A slot that is not in use has a pid as well: zero
before its first process and after `wait` has freed it, and the pid of the child when a fork
failed. `setslice` accepts such a pid, `getslice` answers with the slice that the slot last
held, and a pid that no slot has makes `getslice` acquire the lock a second time.
-/

namespace Cs537.Scheduler

namespace Sched

/-- `setslice` with the value that it returns. -/
def setsliceCall (s : Sched) (pid slice : Int) : Int × Sched :=
  if slice < 1 ∨ pid < 0 then (-1, s)
  else match s.findSlot (fun x => x.pid = pid) with
    | none => (-1, s)
    | some p => (0, s.set p fun x => { x with timeslice := slice })

/-- The state after the call is that of the step. -/
theorem setsliceCall_state (s : Sched) (pid slice : Int) :
    (s.setsliceCall pid slice).2 = s.setslice pid slice := by
  unfold setsliceCall setslice
  split
  · rfl
  · cases s.findSlot (fun x => x.pid = pid) <;> rfl

/-- A search succeeds if some slot passes its test. -/
theorem findSlot_exists {s : Sched} {test : Proc → Bool} {p : Slot}
    (passes : test (s.proc p) = true) : ∃ q, s.findSlot test = some q :=
  Option.isSome_iff_exists.mp
    (List.find?_isSome.mpr ⟨p, List.mem_finRange p, passes⟩)

/-- A search that only one slot can pass finds it. -/
theorem findSlot_only {s : Sched} {test : Proc → Bool} {p : Slot}
    (passes : test (s.proc p) = true) (only : ∀ q, test (s.proc q) = true → q = p) :
    s.findSlot test = some p := by
  obtain ⟨q, found⟩ := findSlot_exists passes
  rw [found, only q (findSlot_some found)]

end Sched

/-- A slot in use with this pid. -/
def Owns (s : Sched) (p : Slot) (pid : Int) : Prop :=
  (s.proc p).state ≠ .unused ∧ (s.proc p).pid = pid

instance (s : Sched) (p : Slot) (pid : Int) : Decidable (Owns s p pid) :=
  inferInstanceAs (Decidable (_ ∧ _))

/-- The slice of `p` is not set, and no fork makes the pid counter wrap. -/
def SliceKept (p : Slot) (s : Sched) (action : Action) : Prop :=
  Unwrapped s action ∧ Unsliced p s action

instance (p : Slot) (s : Sched) (action : Action) : Decidable (SliceKept p s action) :=
  inferInstanceAs (Decidable (_ ∧ _))

/-- What the two calls are to do with a pid and a slice in this state. As long as the slot is
in use and its slice is not set again, `getslice` goes on returning the slice that was set. -/
structure SliceAccess (s : Sched) (pid slice : Int) : Prop where
  accepted : (s.setsliceCall pid slice).1 = 0 ↔ 1 ≤ slice ∧ ∃ p, Owns s p pid
  refused : (s.setsliceCall pid slice).1 ≠ 0 → s.setsliceCall pid slice = (-1, s)
  changed : (s.setsliceCall pid slice).1 = 0 → ∀ p, Owns s p pid →
    (s.setsliceCall pid slice).2 = s.set p fun x => { x with timeslice := slice }
  kept : (s.setsliceCall pid slice).1 = 0 → ∀ p, Owns s p pid → ∀ actions u,
    run (s.setsliceCall pid slice).2 actions = some u →
    Runs.Meets step (SliceKept p) (s.setsliceCall pid slice).2 actions →
    Runs.Along step (fun v => (v.proc p).state ≠ .unused) (s.setsliceCall pid slice).2 actions →
    u.getslice pid = some slice
  answered : s.getslice pid = some (-1) ↔ ¬ ∃ p, Owns s p pid

/-- The pid is negative, or a slot in use has it and no `fork2` that is about to give that
slot another slice is unfinished. -/
def Served (s : Sched) (pid slice : Int) : Prop :=
  pid < 0 ∨ ∃ p, Owns s p pid ∧
    (1 ≤ slice → ∀ q given, (s.proc q).forking = some (p, given) → given = slice)

/-! ## Pids of all slots -/

/-- The pids of all slots, in use or not: they are below the next one, a slot in use has a
positive one, and no two slots share a positive one. -/
structure Registered (s : Sched) : Prop where
  positive : 1 ≤ s.nextpid
  nonneg : ∀ p, 0 ≤ (s.proc p).pid
  below : ∀ p, (s.proc p).pid < s.nextpid
  distinct : ∀ p q, (s.proc p).pid = (s.proc q).pid → (s.proc p).pid ≠ 0 → p = q
  used : ∀ p, (s.proc p).state ≠ .unused → (s.proc p).pid ≠ 0

/-- Outside `fork2` a pid stays or is cleared. -/
theorem change_pid {s : Sched} {p : Slot} {action : Action} {y : Proc}
    (plain : ¬ Forking action) (changed : Change s p action y) :
    y.pid = (s.proc p).pid ∨ y.pid = 0 := by
  cases changed with
  | taken _ forks => exact absurd forks plain
  | forked _ _ _ forks => exact absurd forks plain
  | reaped => exact .inr rfl
  | ticked | roused =>
    left
    unfold Sched.woken
    split_ifs <;> rfl
  | passed q on y pass =>
    obtain ⟨_, _, rfl | ⟨_, _, rfl⟩⟩ := pass <;> exact .inl rfl
  | _ => exact .inl rfl

section Kept

variable {s t : Sched} {action : Action}

/-- A fork gives the slot that it takes a pid that no slot has. -/
theorem fork2_registered (registered : Registered s) (p : Slot) (slice : Int)
    (unwrapped : s.nextpid + 1 < 2 ^ 31) : Registered (s.fork2 p slice) := by
  rcases Sched.fork2_cases s p slice with result | ⟨np, t, taken, _, result⟩
  · exact result.symm ▸ registered
  · obtain ⟨_, _, _, pid, nextpid, others, _⟩ := Sched.allocproc_cases taken
    have positive := registered.positive
    have next : (s.fork2 p slice).nextpid = s.nextpid + 1 := by
      rw [result, Sched.set_nextpid, nextpid, int32]
      omega
    have fresh : ((s.fork2 p slice).proc np).pid = s.nextpid := by
      rw [result, Sched.set_proc]
      split
      · rename_i same
        exact same ▸ pid
      · exact pid
    have old : ∀ q, q ≠ np → ((s.fork2 p slice).proc q).pid = (s.proc q).pid ∧
        ((s.fork2 p slice).proc q).state = (s.proc q).state := by
      intro q different
      rw [result, Sched.set_proc]
      split
      · rename_i same
        rw [← same, others q different]
        exact ⟨rfl, rfl⟩
      · rw [others q different]
        exact ⟨rfl, rfl⟩
    refine ⟨by omega, ?_, ?_, ?_, ?_⟩
    · intro q
      by_cases equal : q = np
      · rw [equal, fresh]
        omega
      · rw [(old q equal).1]
        exact registered.nonneg q
    · intro q
      by_cases equal : q = np
      · rw [equal, fresh, next]
        omega
      · rw [(old q equal).1, next]
        have := registered.below q
        omega
    · intro q r shared nonzero
      have belowQ := registered.below q
      have belowR := registered.below r
      by_cases newQ : q = np
      · by_cases newR : r = np
        · rw [newQ, newR]
        · rw [newQ, fresh, (old r newR).1] at shared
          omega
      · by_cases newR : r = np
        · rw [newR, fresh, (old q newQ).1] at shared
          omega
        · rw [(old q newQ).1] at shared nonzero
          exact registered.distinct q r (shared.trans (old r newR).1) nonzero
    · intro q live
      by_cases equal : q = np
      · rw [equal, fresh]
        omega
      · rw [(old q equal).2] at live
        rw [(old q equal).1]
        exact registered.used q live

/-- Pids stay in order in every step that does not wrap their counter. -/
theorem step_registered (sound : Sound s) (registered : Registered s)
    (unwrapped : Unwrapped s action) (moved : Step s action t) : Registered t := by
  by_cases forks : Forking action
  · cases moved with
    | fork2 slice p => exact fork2_registered registered p _ (unwrapped forks)
    | fork slice p => exact fork2_registered registered p _ (unwrapped forks)
    | _ => exact forks.elim
  · obtain ⟨⟨nodes, queued⟩, unfinished⟩ := sound
    have pids : ∀ p, (t.proc p).pid = (s.proc p).pid ∨ (t.proc p).pid = 0 := fun p =>
      change_pid forks (step_change queued unfinished moved p)
    have inherits : ∀ p, Inherits s t p := fun p =>
      change_inherits queued forks (step_change queued unfinished moved p)
    have nextpid : t.nextpid = s.nextpid := (step_counters moved).1.resolve_left forks
    have positive := registered.positive
    refine ⟨nextpid ▸ positive, ?_, ?_, ?_, ?_⟩
    · intro p
      have := registered.nonneg p
      rcases pids p with same | cleared <;> omega
    · intro p
      have := registered.below p
      rcases pids p with same | cleared <;> omega
    · intro p q shared nonzero
      have sameP := (pids p).resolve_right nonzero
      have sameQ := (pids q).resolve_right (shared ▸ nonzero)
      exact registered.distinct p q (by rw [← sameP, ← sameQ, shared]) (sameP ▸ nonzero)
    · intro p live
      obtain ⟨earlier, same⟩ := inherits p live
      rw [same]
      exact registered.used p earlier

theorem userinit_registered : Registered userinit := by
  refine ⟨by decide, by decide, by decide, ?_, by decide⟩
  have only : ∀ p, (userinit.proc p).pid ≠ 0 → p = firstSlot := by decide
  intro p q shared nonzero
  rw [only p nonzero, only q (shared ▸ nonzero)]

end Kept

/-! ## The slice of one process -/

section Slice

variable {s t : Sched} {p : Slot} {pid slice : Int} {action : Action}

/-- A search for the pid of a slot in use finds that slot. -/
theorem Registered.find (registered : Registered s) (owns : Owns s p pid) :
    s.findSlot (fun x => x.pid = pid) = some p := by
  obtain ⟨live, rfl⟩ := owns
  apply Sched.findSlot_only (by simp)
  intro q found
  have shared : (s.proc q).pid = (s.proc p).pid := by simpa using found
  exact registered.distinct q p shared (shared ▸ registered.used p live)

/-- The pid of a slot in use is positive. -/
theorem Registered.owned (registered : Registered s) (owns : Owns s p pid) : 0 < pid := by
  have nonneg := registered.nonneg p
  have nonzero := registered.used p owns.1
  rw [owns.2] at nonneg nonzero
  omega

/-- Outside `fork2` no fork begins. -/
theorem change_forking {y : Proc} (plain : ¬ Forking action) (changed : Change s p action y) :
    y.forking = (s.proc p).forking ∨ y.forking = none := by
  cases changed with
  | taken _ forks => exact absurd forks plain
  | forked _ _ _ forks => exact absurd forks plain
  | dropped => exact .inr rfl
  | ticked | roused => exact .inl (Sched.woken_forking rfl)
  | passed q on y pass => exact .inl (Sched.passed_forking pass)
  | _ => exact .inl rfl

/-- A fork that begins is one of a slot that was not in use. -/
theorem step_forking (sound : Sound s) (live : (s.proc p).state ≠ .unused) {q : Slot} {given : Int}
    (moved : Step s action t) (after : (t.proc q).forking = some (p, given)) :
    (s.proc q).forking = some (p, given) := by
  have fork2 : ∀ r size, ((s.fork2 r size).proc q).forking = some (p, given) →
      (s.proc q).forking = some (p, given) := by
    intro r size begun
    rcases Sched.fork2_cases s r size with result | ⟨np, u, taken, _, result⟩
    · rwa [result] at begun
    · obtain ⟨unused, _, empty, _, _, others, _⟩ := Sched.allocproc_cases taken
      rw [result, Sched.set_proc] at begun
      split at begun
      · have same := (Prod.mk.inj (Option.some.inj begun)).1
        exact absurd (same ▸ unused) live
      · by_cases equal : q = np
        · rw [equal, empty] at begun
          cases begun
        · rwa [others q equal] at begun
  by_cases forks : Forking action
  · cases moved with
    | fork2 size r => exact fork2 r _ after
    | fork size r => exact fork2 r _ after
    | _ => exact forks.elim
  · obtain ⟨⟨nodes, queued⟩, unfinished⟩ := sound
    rcases change_forking forks (step_change queued unfinished moved q) with same | ended
    · exact same ▸ after
    · rw [ended] at after
      cases after

/-- While a slot stays in use its pid stays. -/
theorem change_named {y : Proc} (live : (s.proc p).state ≠ .unused) (still : y.state ≠ .unused)
    (changed : Change s p action y) : y.pid = (s.proc p).pid := by
  cases changed with
  | taken _ _ unused => exact absurd unused live
  | reaped | failed => exact absurd rfl still
  | ticked | roused =>
    unfold Sched.woken
    split_ifs <;> rfl
  | passed q on y pass =>
    obtain ⟨_, _, rfl | ⟨_, _, rfl⟩⟩ := pass <;> rfl
  | _ => rfl

/-- A slice changes only by `setslice` and by the end of the fork that took the slot. -/
theorem change_slice {y : Proc} (unsliced : Unsliced p s action) (changed : Change s p action y) :
    y.timeslice = (s.proc p).timeslice ∨
      ∃ q given, (s.proc q).forking = some (p, given) ∧ y.timeslice = given := by
  cases changed with
  | sliced pid slice found => exact absurd (Eq.symm (by simpa using Sched.findSlot_some found)) unsliced
  | born q given forking => exact .inr ⟨q, given, forking, rfl⟩
  | ticked | roused =>
    unfold Sched.woken
    split_ifs <;> exact .inl rfl
  | passed q on y pass =>
    obtain ⟨_, _, rfl | ⟨_, _, rfl⟩⟩ := pass <;> exact .inl rfl
  | _ => exact .inl rfl

/-- The slot has this pid and slice, and no unfinished fork is to give it another slice. -/
structure Granted (p : Slot) (pid slice : Int) (s : Sched) : Prop where
  named : (s.proc p).pid = pid
  sliced : (s.proc p).timeslice = slice
  pending : ∀ q given, (s.proc q).forking = some (p, given) → given = slice

/-- A step that keeps the slice leaves it granted. -/
theorem Granted.next (granted : Granted p pid slice s) (sound : Sound s)
    (live : (s.proc p).state ≠ .unused) (still : (t.proc p).state ≠ .unused)
    (unsliced : Unsliced p s action) (moved : Step s action t) : Granted p pid slice t := by
  obtain ⟨⟨nodes, queued⟩, unfinished⟩ := id sound
  have changed := step_change queued unfinished moved p
  refine ⟨(change_named live still changed).trans granted.named, ?_, ?_⟩
  · rcases change_slice unsliced changed with stays | ⟨q, given, forking, set⟩
    · exact stays.trans granted.sliced
    · exact set.trans (granted.pending q given forking)
  · exact fun q given after => granted.pending q given (step_forking sound live moved after)

/-- The slice stays granted in every run that keeps it and in which the slot stays in use. -/
theorem Granted.run (granted : Granted p pid slice s) (sound : Sound s) (registered : Registered s)
    {actions : List Action} (completed : Scheduler.run s actions = some t)
    (kept : Runs.Meets step (SliceKept p) s actions)
    (live : Runs.Along step (fun v => (v.proc p).state ≠ .unused) s actions) :
    Granted p pid slice t ∧ Registered t := by
  have preserved : ∀ v action w, SliceKept p v action ∧ (v.proc p).state ≠ .unused →
      (Sound v ∧ Registered v ∧ ((v.proc p).state ≠ .unused → Granted p pid slice v)) →
      step v action = some w →
      Sound w ∧ Registered w ∧ ((w.proc p).state ≠ .unused → Granted p pid slice w) := by
    intro v action w ⟨⟨unwrapped, unsliced⟩, live⟩ ⟨sound, registered, granted⟩ moved
    exact ⟨step_sound sound moved, step_registered sound registered unwrapped (step_cases moved),
      fun still => (granted live).next sound live still unsliced (step_cases moved)⟩
  obtain ⟨_, after, lasting⟩ := Runs.run_invariant preserved
    ⟨sound, registered, fun _ => granted⟩ (kept.and live.meets) completed
  exact ⟨lasting (live.ends completed).2, after⟩

/-- Setting the slice of one process keeps the invariants. -/
theorem sliced_sound (sound : Sound s) (p : Slot) (slice : Int) :
    Sound (s.set p fun x => { x with timeslice := slice }) := by
  obtain ⟨⟨nodes, queued⟩, forks⟩ := sound
  have moves : Moves s (s.set p fun x => { x with timeslice := slice }) .load nodes :=
    queued.assign rfl rfl
  obtain ⟨after, done, _⟩ := moves
  exact ⟨⟨after, done⟩, forks.set rfl id⟩

theorem sliced_registered (registered : Registered s) (p : Slot) (slice : Int) :
    Registered (s.set p fun x => { x with timeslice := slice }) := by
  have same : ∀ q, ((s.set p fun x => { x with timeslice := slice }).proc q).pid = (s.proc q).pid ∧
      ((s.set p fun x => { x with timeslice := slice }).proc q).state = (s.proc q).state := by
    intro q
    rw [Sched.set_proc]
    split
    · rename_i equal
      exact equal ▸ ⟨rfl, rfl⟩
    · exact ⟨rfl, rfl⟩
  refine ⟨registered.positive, ?_, ?_, ?_, ?_⟩
  · exact fun q => (same q).1 ▸ registered.nonneg q
  · exact fun q => (same q).1 ▸ registered.below q
  · intro q r shared nonzero
    rw [(same q).1] at shared nonzero
    exact registered.distinct q r (shared.trans (same r).1) nonzero
  · intro q live
    rw [(same q).1]
    exact registered.used q ((same q).2 ▸ live)

/-! ## The two calls -/

/-- `getslice` of the pid of a slot in use is its slice. -/
theorem Registered.getslice (registered : Registered s) (owns : Owns s p pid) :
    s.getslice pid = some (s.proc p).timeslice := by
  have positive := registered.owned owns
  rw [Sched.getslice, if_neg (by omega), registered.find owns, Option.map_some]

/-- `setslice` on the pid of a slot in use sets its slice. -/
theorem Registered.setslice (registered : Registered s) (owns : Owns s p pid) (valid : 1 ≤ slice) :
    s.setsliceCall pid slice = (0, s.set p fun x => { x with timeslice := slice }) := by
  have positive := registered.owned owns
  rw [Sched.setsliceCall, if_neg (by omega), registered.find owns]

/-- `setslice` refuses a pid that no slot has, and a slice below one. -/
theorem Sched.setsliceCall_refused (s : Sched) (pid slice : Int) (refused : slice < 1 ∨ pid < 0) :
    s.setsliceCall pid slice = (-1, s) := by
  rw [Sched.setsliceCall, if_pos refused]

/-- A call that is refused is to be refused. -/
theorem SliceAccess.of_refused (refused : s.setsliceCall pid slice = (-1, s))
    (invalid : ¬ (1 ≤ slice ∧ ∃ p, Owns s p pid))
    (answered : s.getslice pid = some (-1) ↔ ¬ ∃ p, Owns s p pid) : SliceAccess s pid slice := by
  have value : (s.setsliceCall pid slice).1 ≠ 0 := by
    rw [refused]
    omega
  exact ⟨iff_of_false value invalid, fun _ => refused, fun accepted => absurd accepted value,
    fun accepted => absurd accepted value, answered⟩

/-- A negative pid is refused by both calls, and belongs to no slot. -/
theorem Registered.negative (registered : Registered s) (slice : Int) (negative : pid < 0) :
    SliceAccess s pid slice := by
  have nobody : ¬ ∃ p, Owns s p pid := by
    rintro ⟨p, owns⟩
    have := registered.owned owns
    omega
  apply SliceAccess.of_refused (s.setsliceCall_refused pid slice (.inr negative))
  · exact fun accepted => nobody accepted.2
  · rw [Sched.getslice, if_pos negative]
    exact iff_of_true rfl nobody

/-- The calls do what they are meant to do with the pid of a slot in use. -/
theorem Registered.owner (registered : Registered s) (sound : Sound s) (owns : Owns s p pid)
    (ranged : 0 ≤ (s.proc p).timeslice)
    (settled : 1 ≤ slice → ∀ q given, (s.proc q).forking = some (p, given) → given = slice) :
    SliceAccess s pid slice := by
  have sole : ∀ q, Owns s q pid → q = p := fun q other =>
    Option.some.inj ((registered.find other).symm.trans (registered.find owns))
  have answered : s.getslice pid = some (-1) ↔ ¬ ∃ p, Owns s p pid := by
    rw [registered.getslice owns]
    refine iff_of_false ?_ (not_not.mpr ⟨p, owns⟩)
    intro negative
    have := Option.some.inj negative
    omega
  by_cases valid : 1 ≤ slice
  · have set := registered.setslice owns valid
    refine ⟨?_, ?_, ?_, ?_, answered⟩
    · rw [set]
      exact iff_of_true rfl ⟨valid, p, owns⟩
    · rw [set]
      exact fun rejected => absurd rfl rejected
    · intro _ q other
      rw [set, sole q other]
    · intro _ q other actions u completed kept live
      rw [set, sole q other] at *
      have granted : Granted p pid slice (s.set p fun x => { x with timeslice := slice }) := by
        refine ⟨by simp [owns.2], by simp, ?_⟩
        intro r given forking
        apply settled valid r given
        rw [Sched.set_proc] at forking
        split at forking
        · rename_i equal
          exact equal ▸ forking
        · exact forking
      obtain ⟨lasting, after⟩ := granted.run (sliced_sound sound p slice) (sliced_registered registered p slice)
        completed kept live
      rw [after.getslice ⟨(live.ends completed).2, lasting.named⟩, lasting.sliced]
  · have refused := s.setsliceCall_refused pid slice (.inl (by omega))
    exact .of_refused refused (fun accepted => valid accepted.1) answered

/-- A pid that is not negative and that no slot in use has is treated as if one had it, or
makes `getslice` panic. -/
theorem SliceAccess.owned (access : SliceAccess s pid slice)
    (ranged : ∀ p, 0 ≤ (s.proc p).timeslice) : pid < 0 ∨ ∃ p, Owns s p pid := by
  by_cases negative : pid < 0
  · exact .inl negative
  · refine .inr (not_not.mp fun nobody => ?_)
    have answer := access.answered.mpr nobody
    rw [Sched.getslice, if_neg negative] at answer
    obtain ⟨p, _, stale⟩ := Option.map_eq_some_iff.mp answer
    have := ranged p
    omega

end Slice

/-- In every run in which the pid counter does not wrap, both calls do what they are meant to
do with a pid and a slice if the pid is negative, or if it belongs to a slot in use that no
unfinished fork is about to give another slice. For every other pid that no slot in use has
they do not. -/
theorem slice_access_iff_served {actions : List Action} {s : Sched}
    (completed : run userinit actions = some s)
    (unwrapped : Runs.Meets step Unwrapped userinit actions) (pid slice : Int) :
    (Served s pid slice → SliceAccess s pid slice) ∧
      (SliceAccess s pid slice → pid < 0 ∨ ∃ p, Owns s p pid) := by
  have kept : ∀ s action t, Unwrapped s action → Sound s ∧ Registered s →
      step s action = some t → Sound t ∧ Registered t := by
    intro s action t bounded ⟨sound, registered⟩ moved
    exact ⟨step_sound sound moved, step_registered sound registered bounded (step_cases moved)⟩
  obtain ⟨sound, registered⟩ :=
    Runs.run_invariant kept ⟨userinit_sound, userinit_registered⟩ unwrapped completed
  have ranged : ∀ p, 0 ≤ (s.proc p).timeslice := fun p =>
    (reachable_ranged ⟨actions, completed⟩ p).slice
  refine ⟨?_, fun access => access.owned ranged⟩
  rintro (negative | ⟨p, owns, settled⟩)
  · exact registered.negative slice negative
  · exact registered.owner sound owns (ranged p) settled

/-- The first process sets its own slice. -/
theorem slice_access_iff_served_first :
    SliceAccess (Runs.final step userinit [.load, .acquire, .iterate]) 1 3 := by
  apply (slice_access_iff_served (Runs.run_final (by decide +kernel)) (by decide +kernel) 1 3).1
  refine .inr ⟨firstSlot, by decide +kernel, ?_⟩
  have none : ∀ q, ((Runs.final step userinit [.load, .acquire, .iterate]).proc q).forking = none := by
    decide +kernel
  intro _ q given forking
  rw [none q] at forking
  cases forking

/-- The slots that no process has used have pid zero: `setslice` accepts it. -/
theorem setslice_zero_accepted :
    ¬ ∀ (actions : List Action) (s : Sched), run userinit actions = some s →
        ∀ pid slice, SliceAccess s pid slice := by
  intro claim
  have completed : run userinit [.load, .acquire, .iterate] = some _ := Runs.run_final (by decide +kernel)
  have access := claim _ _ completed 0 5
  obtain ⟨_, p, owns⟩ := access.accepted.mp (by decide +kernel)
  revert p
  decide +kernel

end Cs537.Scheduler
