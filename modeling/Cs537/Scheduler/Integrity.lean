import Cs537.Scheduler.Changes

/-!
# Integrity of the run queue and schedulability

Two whole-run results about the queue. While pids do not wrap, live processes
have distinct pids, so `pop` removes exactly the head, and in `sleep` the head is
the caller. Every runnable process stays queued as long as no process is killed
in its sleep: `kill` makes such a process runnable and forgets to queue it, which
`wakeup1` does for every process that it wakes.
-/

namespace Cs537.Scheduler

open LinkedQueue

/-! ## Pids -/

/-- A process after a step was one before it, with the same pid. -/
def Inherits (s t : Sched) (p : Slot) : Prop :=
  (t.proc p).state ≠ .unused → (s.proc p).state ≠ .unused ∧ (t.proc p).pid = (s.proc p).pid

/-- Pids in use are distinct and below the next one. -/
structure Numbered (s : Sched) : Prop where
  positive : 1 ≤ s.nextpid
  below : ∀ p, (s.proc p).state ≠ .unused → (s.proc p).pid < s.nextpid
  distinct : ∀ p q, (s.proc p).state ≠ .unused → (s.proc q).state ≠ .unused →
    (s.proc p).pid = (s.proc q).pid → p = q

/-- A fork does not make the pid counter wrap. -/
def Unwrapped (s : Sched) (action : Action) : Prop := Forking action → s.nextpid + 1 < 2 ^ 31

instance (s : Sched) (action : Action) : Decidable (Unwrapped s action) :=
  inferInstanceAs (Decidable (_ → _))

/-- Outside `fork2` no slot is taken and no pid changes while the slot is in use. -/
theorem change_inherits {s t : Sched} {nodes : List Slot} {p : Slot} {action : Action}
    (queued : Queued s nodes) (plain : ¬ Forking action)
    (changed : Change s p action (t.proc p)) : Inherits s t p := by
  unfold Inherits
  generalize t.proc p = y at changed
  cases changed with
  | same | refused | sliced | dropped | born | dispatched | rotated =>
    simp_all [Sched.dozing, Sched.charged]
  | slept _ on | awaited on | dozed _ on | yielded _ on | exited on =>
    simp [queued.on_running on, Sched.dozing]
  | killed => grind
  | ticked | roused =>
    simp only [Sched.woken]
    split_ifs <;> simp_all
  | passed q on y pass =>
    obtain ⟨parent, _, rfl | ⟨asleep, _, rfl⟩⟩ := pass
    · exact fun used => ⟨used, rfl⟩
    · simp [asleep]
  | reaped | failed => simp
  | taken _ forks => exact absurd forks plain
  | forked _ _ _ forks => exact absurd forks plain

/-- A fork takes at most one unused slot, and gives it the next pid. -/
theorem fork2_pids (s : Sched) (p : Slot) (slice : Int) :
    s.fork2 p slice = s ∨
      ∃ np, (s.proc np).state = .unused ∧ ((s.fork2 p slice).proc np).pid = s.nextpid ∧
        (s.fork2 p slice).nextpid = int32 (s.nextpid + 1) ∧
        ∀ q, q ≠ np → Inherits s (s.fork2 p slice) q := by
  rcases Sched.fork2_cases s p slice with result | ⟨np, t, taken, _, result⟩
  · exact .inl result
  · obtain ⟨unused, _, _, pid, nextpid, others, _⟩ := Sched.allocproc_cases taken
    refine .inr ⟨np, unused, ?_, ?_, ?_⟩
    · rw [result, Sched.set_proc]
      split
      · rename_i same
        exact same ▸ pid
      · exact pid
    · rw [result, Sched.set_nextpid, nextpid]
    · intro q old
      unfold Inherits
      rw [result, Sched.set_proc]
      split
      · rename_i same
        rw [← same, others q old]
        exact fun used => ⟨used, rfl⟩
      · rw [others q old]
        exact fun used => ⟨used, rfl⟩

/-- Pids stay distinct in a fork that does not wrap. -/
theorem fork2_numbered {s : Sched} (numbered : Numbered s) (p : Slot) (slice : Int)
    (unwrapped : s.nextpid + 1 < 2 ^ 31) : Numbered (s.fork2 p slice) := by
  rcases fork2_pids s p slice with result | ⟨np, unused, pid, nextpid, others⟩
  · exact result.symm ▸ numbered
  · have positive := numbered.positive
    have next : (s.fork2 p slice).nextpid = s.nextpid + 1 := by
      rw [nextpid, int32]
      omega
    have old : ∀ q, q ≠ np → ((s.fork2 p slice).proc q).state ≠ .unused →
        ((s.fork2 p slice).proc q).pid < s.nextpid := by
      intro q other used
      obtain ⟨earlier, same⟩ := others q other used
      rw [same]
      exact numbered.below q earlier
    refine ⟨by omega, ?_, ?_⟩
    · intro q used
      by_cases equal : q = np
      · rw [equal, pid, next]
        omega
      · have := old q equal used
        omega
    · intro q r usedQ usedR equal
      by_cases newQ : q = np
      · by_cases newR : r = np
        · rw [newQ, newR]
        · have := old r newR usedR
          rw [← equal, newQ, pid] at this
          omega
      · by_cases newR : r = np
        · have := old q newQ usedQ
          rw [equal, newR, pid] at this
          omega
        · obtain ⟨earlierQ, sameQ⟩ := others q newQ usedQ
          obtain ⟨earlierR, sameR⟩ := others r newR usedR
          exact numbered.distinct q r earlierQ earlierR (sameQ ▸ sameR ▸ equal)

/-- Pids stay distinct in every step that does not wrap their counter. -/
theorem step_numbered {s t : Sched} {action : Action} (sound : Sound s) (numbered : Numbered s)
    (unwrapped : Unwrapped s action) (moved : Step s action t) : Numbered t := by
  by_cases forks : Forking action
  · cases moved with
    | fork2 slice p => exact fork2_numbered numbered p _ (unwrapped forks)
    | fork slice p => exact fork2_numbered numbered p _ (unwrapped forks)
    | _ => exact forks.elim
  · obtain ⟨⟨nodes, queued⟩, unfinished⟩ := sound
    have inherits : ∀ p, Inherits s t p := fun p =>
      change_inherits queued forks (step_change queued unfinished moved p)
    have nextpid : t.nextpid = s.nextpid := (step_counters moved).1.resolve_left forks
    refine ⟨nextpid ▸ numbered.positive, ?_, ?_⟩
    · intro p used
      obtain ⟨earlier, same⟩ := inherits p used
      rw [same, nextpid]
      exact numbered.below p earlier
    · intro p q usedP usedQ equal
      obtain ⟨earlierP, sameP⟩ := inherits p usedP
      obtain ⟨earlierQ, sameQ⟩ := inherits q usedQ
      exact numbered.distinct p q earlierP earlierQ (sameP ▸ sameQ ▸ equal)

theorem userinit_numbered : Numbered userinit := by
  refine ⟨by decide, by decide, ?_⟩
  have only : ∀ p, (userinit.proc p).state ≠ .unused → p = firstSlot := by decide
  intro p q usedP usedQ _
  rw [only p usedP, only q usedQ]

/-! ## Popping the head -/

/-- Two processes at the ends of the queue share a pid. -/
def Collides (s : Sched) : Prop :=
  ∃ p q, s.queue.head = some p ∧ s.queue.tail = some q ∧ p ≠ q ∧ (s.proc p).pid = (s.proc q).pid

/-- Only the two ends have to be compared. -/
theorem collides_iff (s : Sched) :
    Collides s ↔ (s.queue.head.any fun p => s.queue.tail.any fun q =>
      p ≠ q ∧ (s.proc p).pid = (s.proc q).pid) = true := by
  simp [Collides, Option.any_eq_true]

instance (s : Sched) : Decidable (Collides s) := decidable_of_iff _ (collides_iff s).symm

/-- Without a collision `pop` removes the head and nothing else. -/
theorem Queued.popped_eq {s : Sched} {nodes : List Slot} (queued : Queued s nodes)
    (apart : ¬ Collides s) : s.popped nodes = nodes.tail := by
  unfold Sched.popped
  split
  · rename_i agree
    have head := queued.represents.head_eq
    have last := queued.represents.last
    cases nodes with
    | nil => rfl
    | cons p rest =>
      cases rest with
      | nil => rfl
      | cons q others =>
        exfalso
        obtain ⟨r, tail⟩ : ∃ r, (p :: q :: others).getLast? = some r := ⟨_, List.getLast?_cons⟩
        have member : r ∈ q :: others := by
          rw [List.getLast?_cons_cons] at tail
          exact List.mem_of_getLast? tail
        have different : p ≠ r := fun same =>
          (List.nodup_cons.mp queued.represents.distinct).1 (same ▸ member)
        refine apart ⟨p, r, head, last.trans tail, different, ?_⟩
        simp only [Sched.endsAgree, tail] at agree
        simpa using agree
  · rfl

/-- Distinct pids do not collide at the ends of the queue. -/
theorem Numbered.apart {s : Sched} {nodes : List Slot} (numbered : Numbered s)
    (queued : Queued s nodes) : ¬ Collides s := by
  rintro ⟨p, q, head, tail, different, same⟩
  have used : ∀ r ∈ nodes, (s.proc r).state ≠ .unused := by
    intro r member
    rcases queued.members r member with state | state | ⟨_, state, _⟩ <;> simp [state]
  have first : p ∈ nodes := List.mem_of_mem_head? (queued.represents.head_eq.symm.trans head)
  have last : q ∈ nodes := List.mem_of_getLast? (queued.represents.last.symm.trans tail)
  exact different (numbered.distinct p q (used p first) (used q last) same)

/-- What the queue looks like whenever `ptable.lock` is free. -/
structure Integrity (s : Sched) : Prop where
  ends : s.queue.head = none ↔ s.queue.tail = none
  distinct : s.runQueue.Nodup
  last : s.runQueue.getLast? = s.queue.tail
  ended : ∀ p, s.queue.tail = some p → s.queue.next p = none
  members : ∀ p ∈ s.runQueue, (s.proc p).state = .runnable ∨ (s.proc p).state = .running
  running : ∀ p, (s.proc p).state = .running → s.queue.head = some p
  removed : ∀ p chan, s.cpu = .running p → s.runQueue = p :: (s.sleep p chan).runQueue

/-- A well formed queue of processes with distinct pids has integrity. -/
theorem Queued.integrity {s : Sched} {nodes : List Slot} (queued : Queued s nodes)
    (numbered : Numbered s) (free : s.LockFree) : Integrity s := by
  have list := queued.runQueue_eq
  have head := queued.represents.head_eq
  have last := queued.represents.last
  refine ⟨?_, ?_, ?_, ?_, ?_, ?_, ?_⟩
  · rw [head, last, List.head?_eq_none_iff, List.getLast?_eq_none_iff]
  · rw [list]
    exact queued.represents.distinct
  · rw [list, last]
  · intro p tail
    exact queued.represents.chain.last_next (last.symm.trans tail)
  · rw [list]
    exact queued.live free
  · intro p state
    rw [head]
    exact queued.front p ((queued.running p).mp state)
  · intro p chan on
    obtain ⟨rest, shape, _⟩ := queued.split on
    have after := (queued.sleep on chan).runQueue_eq
    rw [list, after, queued.popped_eq (numbered.apart queued), shape, List.tail_cons]

/-- The queue has integrity in every lock-free state of every run in which the
pid counter does not wrap. -/
theorem runQueue_integrity {actions : List Action} {s : Sched}
    (completed : run userinit actions = some s)
    (unwrapped : Runs.Meets step Unwrapped userinit actions) (free : s.LockFree) :
    Integrity s := by
  have kept : ∀ s action t, Unwrapped s action → Sound s ∧ Numbered s →
      step s action = some t → Sound t ∧ Numbered t := by
    intro s action t bounded ⟨sound, numbered⟩ moved
    exact ⟨step_sound sound moved, step_numbered sound numbered bounded (step_cases moved)⟩
  obtain ⟨⟨⟨nodes, queued⟩, _⟩, numbered⟩ :=
    Runs.run_invariant kept ⟨userinit_sound, userinit_numbered⟩ unwrapped completed
  exact queued.integrity numbered free

/-- The first process forks a child and the two are queued. -/
theorem runQueue_integrity_forked :
    Integrity (Runs.final step userinit [.load, .acquire, .iterate, .fork2 1, .forkDone]) := by
  apply runQueue_integrity (Runs.run_final (by decide +kernel))
  · decide +kernel
  · unfold Sched.LockFree
    decide +kernel

/-! ## No process is lost -/

/-- The step neither kills a process in its sleep nor starts with two processes
of one pid at the ends of the queue. -/
def Orderly (s : Sched) (action : Action) : Prop := (∀ p, ¬ Killed s action p) ∧ ¬ Collides s

instance (s : Sched) (action : Action) : Decidable (Orderly s action) :=
  inferInstanceAs (Decidable (_ ∧ _))

/-- Every runnable process is queued. -/
def Listed (s : Sched) : Prop := ∀ p, (s.proc p).state = .runnable → p ∈ s.runQueue

/-- A queued process that is still runnable after the step is still queued. -/
theorem Shift.retains {s t : Sched} {nodes after : List Slot} (shift : Shift s t nodes after)
    (tail : s.popped nodes = nodes.tail) {p : Slot} (member : p ∈ nodes)
    (ready : (t.proc p).state = .runnable) : p ∈ after := by
  cases shift with
  | append => exact List.mem_append_left _ member
  | pop _ _ gone =>
    rw [tail]
    cases nodes with
    | nil => cases member
    | cons first rest =>
      rcases List.mem_cons.mp member with same | later
      · exact absurd ready (gone p (by rw [same, List.head?_cons]))
      · exact later
  | rotate first rest =>
    rw [tail, List.tail_cons]
    rcases List.mem_cons.mp member with same | later
    · exact List.mem_append_right _ (List.mem_singleton.mpr same)
    · exact List.mem_append_left _ later

/-- An orderly step loses no process. -/
theorem step_listed {s t : Sched} {action : Action} (sound : Sound s) (listed : Listed s)
    (orderly : Orderly s action) (moved : Step s action t) : Listed t := by
  obtain ⟨⟨nodes, queued⟩, forks⟩ := sound
  obtain ⟨after, done, shift, raises⟩ := step_queued queued forks moved
  intro p ready
  rw [done.runQueue_eq]
  rcases raises p ready with before | new | slain
  · have member : p ∈ nodes := queued.runQueue_eq ▸ listed p before
    exact shift.retains (queued.popped_eq orderly.2) member ready
  · exact new
  · exact absurd slain (orderly.1 p)

/-- In every orderly run a runnable process occurs exactly once in the run queue,
whether or not the lock is free. -/
theorem runnable_queued_once {actions : List Action} {s : Sched}
    (completed : run userinit actions = some s)
    (orderly : Runs.Meets step Orderly userinit actions) (p : Slot)
    (ready : (s.proc p).state = .runnable) : s.runQueue.count p = 1 := by
  have kept : ∀ s action t, Orderly s action → Sound s ∧ Listed s →
      step s action = some t → Sound t ∧ Listed t := by
    intro s action t orderly ⟨sound, listed⟩ moved
    exact ⟨step_sound sound moved, step_listed sound listed orderly (step_cases moved)⟩
  have start : Listed userinit := by
    intro p ready
    rw [userinit_queued.runQueue_eq]
    revert p
    decide
  obtain ⟨⟨⟨nodes, queued⟩, _⟩, listed⟩ :=
    Runs.run_invariant kept ⟨userinit_sound, start⟩ orderly completed
  have distinct : s.runQueue.Nodup := queued.runQueue_eq ▸ queued.represents.distinct
  exact List.count_eq_one_of_mem distinct (listed p ready)

/-- The first process yields to its child and is queued behind it. -/
theorem runnable_queued_once_yielded :
    (Runs.final step userinit [.load, .acquire, .iterate, .fork2 1, .forkDone, .timer true,
      .iterate, .iterate]).runQueue.count firstSlot = 1 := by
  apply runnable_queued_once (Runs.run_final (by decide +kernel))
  · decide +kernel
  · decide +kernel

/-- A child goes to sleep and its parent kills it: the child is runnable and not
in the queue. -/
theorem killed_sleeper_lost :
    ¬ ∀ (actions : List Action) (s : Sched), run userinit actions = some s → s.LockFree →
        ∀ p, (s.proc p).state = .runnable → s.runQueue.count p = 1 := by
  intro claim
  have completed : run userinit [.load, .acquire, .iterate, .fork2 1, .forkDone, .timer true,
      .iterate, .iterate, .sleep 0, .iterate, .kill 2] = some _ := Runs.run_final (by decide +kernel)
  have queued := claim _ _ completed (by unfold Sched.LockFree; decide +kernel)
    ⟨1, by decide⟩ (by decide +kernel)
  revert queued
  decide +kernel

end Cs537.Scheduler
