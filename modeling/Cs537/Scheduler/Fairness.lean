import Cs537.Scheduler.Invariant

/-!
# Round-robin fairness

For two processes that stay in the queue, the difference of their `switches`
counters is tied to their order in it: the counter of the one that ends its turn
rises, and that process moves behind the other. The remaining movements of the
queue change neither. The difference corrected by the order is therefore
constant over an interval, whatever else happens.
-/

namespace Cs537.Scheduler

open LinkedQueue

/-- One if the second process stands before the first. -/
def behind (nodes : List Slot) (p q : Slot) : Int :=
  if nodes.idxOf q < nodes.idxOf p then 1 else 0

/-- The lead of the first process over the second in completed turns, corrected
by their order in the queue. -/
def lead (s : Sched) (nodes : List Slot) (p q : Slot) : Int :=
  (s.proc p).switches - (s.proc q).switches - behind nodes p q

/-- The process is in the run queue, runnable or running. -/
def Waiting (s : Sched) (p : Slot) : Prop :=
  p ∈ s.runQueue ∧ ((s.proc p).state = .runnable ∨ (s.proc p).state = .running)

instance (s : Sched) (p : Slot) : Decidable (Waiting s p) := inferInstanceAs (Decidable (_ ∧ _))

/-- New nodes at the tail do not change the order of the old ones. -/
theorem behind_append {nodes : List Slot} {p q : Slot} (first : p ∈ nodes) (second : q ∈ nodes)
    (added : List Slot) : behind (nodes ++ added) p q = behind nodes p q := by
  unfold behind
  rw [List.idxOf_append_of_mem first, List.idxOf_append_of_mem second]

/-- Removing a third process from the head does not change the order. -/
theorem behind_tail {head p q : Slot} (rest : List Slot) (first : head ≠ p) (second : head ≠ q) :
    behind (head :: rest) p q = behind rest p q := by
  unfold behind
  simp only [List.idxOf_cons_ne _ first, List.idxOf_cons_ne _ second, Nat.succ_eq_add_one,
    Nat.add_lt_add_iff_right]

/-- The head stands before every other node. -/
theorem behind_head {p q : Slot} (rest : List Slot) (different : p ≠ q) :
    behind (p :: rest) p q = 0 ∧ behind (p :: rest) q p = 1 := by
  unfold behind
  simp [List.idxOf_cons_ne _ different]

/-- A node at the tail stands behind every other node. -/
theorem behind_last {rest : List Slot} {p q : Slot} (member : q ∈ rest) (absent : p ∉ rest) :
    behind (rest ++ [p]) p q = 1 ∧ behind (rest ++ [p]) q p = 0 := by
  have early : (rest ++ [p]).idxOf q < rest.length := by
    rw [List.idxOf_append_of_mem member]
    exact List.idxOf_lt_length_of_mem member
  have late : (rest ++ [p]).idxOf p = rest.length := by
    rw [List.idxOf_append_of_notMem absent]
    simp
  unfold behind
  rw [late]
  exact ⟨if_pos early, if_neg (by omega)⟩

/-- Some node of the tail was left by `pop`, so all were. -/
theorem popped_of_mem {s : Sched} {nodes : List Slot} {p : Slot} (member : p ∈ s.popped nodes) :
    s.popped nodes = nodes.tail := by
  unfold Sched.popped at member ⊢
  split
  · rename_i agree
    rw [if_pos agree] at member
    cases member
  · rfl

/-- A movement of the queue keeps the lead of two processes that stay in it. -/
theorem Shift.lead_eq {s t : Sched} {nodes after : List Slot} (shift : Shift s t nodes after)
    (distinct : nodes.Nodup) {p q : Slot} (different : p ≠ q) (first : p ∈ nodes)
    (second : q ∈ nodes) (firstAfter : p ∈ after) (secondAfter : q ∈ after) :
    lead t after p q = lead s nodes p q := by
  cases shift with
  | append _ added switches =>
    unfold lead
    rw [switches p first, switches q second, behind_append first second]
  | pop _ switches =>
    have tail := popped_of_mem firstAfter
    rw [tail] at firstAfter secondAfter
    unfold lead
    rw [switches p first, switches q second, tail]
    cases nodes with
    | nil => cases first
    | cons head rest =>
      obtain ⟨absent, _⟩ := List.nodup_cons.mp distinct
      have firstOther : head ≠ p := fun same => absent (same ▸ firstAfter)
      have secondOther : head ≠ q := fun same => absent (same ▸ secondAfter)
      rw [behind_tail rest firstOther secondOther, List.tail_cons]
  | rotate head rest charged switches =>
    obtain ⟨absent, _⟩ := List.nodup_cons.mp distinct
    have tail : s.popped (head :: rest) = rest := by
      rcases List.mem_append.mp firstAfter with left | last
      · exact popped_of_mem left
      · rcases List.mem_append.mp secondAfter with left | other
        · exact popped_of_mem left
        · exact absurd ((List.mem_singleton.mp last).trans (List.mem_singleton.mp other).symm) different
    rw [tail] at firstAfter secondAfter ⊢
    unfold lead
    by_cases firstHead : head = p
    · subst firstHead
      have member : q ∈ rest := by simpa [different.symm] using second
      rw [charged, switches q member, (behind_head rest different).1, (behind_last member absent).1]
      omega
    · have firstRest : p ∈ rest := by simpa [Ne.symm firstHead] using first
      by_cases secondHead : head = q
      · subst secondHead
        rw [charged, switches p firstRest, (behind_head rest different.symm).2,
          (behind_last firstRest absent).2]
        omega
      · have secondRest : q ∈ rest := by simpa [Ne.symm secondHead] using second
        rw [switches p firstRest, switches q secondRest, behind_append firstRest secondRest,
          behind_tail rest firstHead secondHead]

/-- A step keeps the lead of two processes that are queued before and after it. -/
theorem step_lead {s t : Sched} {action : Action} (sound : Sound s)
    (moved : step s action = some t) {p q : Slot} (different : p ≠ q)
    (before : Waiting s p ∧ Waiting s q) (after : Waiting t p ∧ Waiting t q) :
    lead t t.runQueue p q = lead s s.runQueue p q := by
  obtain ⟨⟨nodes, queued⟩, forks⟩ := sound
  obtain ⟨left, done, shift, _⟩ := step_queued queued forks (step_cases moved)
  have old := queued.runQueue_eq
  have new := done.runQueue_eq
  rw [old, new]
  exact shift.lead_eq queued.represents.distinct different (old ▸ before.1.1) (old ▸ before.2.1)
    (new ▸ after.1.1) (new ▸ after.2.1)

/-- Over any interval in which two processes stay queued, their numbers of
completed turns differ by at most one. -/
theorem switches_fair {s t : Sched} {actions : List Action} {p q : Slot}
    (reachable : Reachable s) (completed : run s actions = some t)
    (waiting : Runs.Along step (fun u => Waiting u p ∧ Waiting u q) s actions) :
    |(((t.proc p).switches : Int) - (s.proc p).switches) -
      ((t.proc q).switches - (s.proc q).switches)| ≤ 1 := by
  by_cases different : p = q
  · subst different
    simp
  · have kept : ∀ s action t, True → Sound s → step s action = some t → Sound t :=
      fun _ _ _ _ sound moved => step_sound sound moved
    have constant : lead t t.runQueue p q = lead s s.runQueue p q :=
      Runs.run_constant kept
        (fun _ _ _ _ sound before moved after => step_lead sound moved different before after)
        (reachable_sound reachable) (Runs.Meets.unguarded _ _) waiting completed
    have early : behind s.runQueue p q = 0 ∨ behind s.runQueue p q = 1 := by
      unfold behind
      split <;> simp
    have late : behind t.runQueue p q = 0 ∨ behind t.runQueue p q = 1 := by
      unfold behind
      split <;> simp
    unfold lead at constant
    rw [abs_le]
    constructor <;> omega

/-- The first process and its child take turns over two timer interrupts. -/
theorem switches_fair_forked :
    ∃ s t, Reachable s ∧ run s [.timer true, .iterate, .iterate, .timer true, .iterate] = some t ∧
      |(((t.proc firstSlot).switches : Int) - (s.proc firstSlot).switches) -
        ((t.proc ⟨1, by decide⟩).switches - (s.proc ⟨1, by decide⟩).switches)| ≤ 1 := by
  have reached : run userinit [.load, .acquire, .iterate, .fork2 1, .forkDone] = some _ :=
    Runs.run_final (by decide +kernel)
  have completed : run (Runs.final step userinit [.load, .acquire, .iterate, .fork2 1, .forkDone])
      [.timer true, .iterate, .iterate, .timer true, .iterate] = some _ :=
    Runs.run_final (by decide +kernel)
  exact ⟨_, _, ⟨_, reached⟩, completed, switches_fair ⟨_, reached⟩ completed (by decide +kernel)⟩

end Cs537.Scheduler
