import Cs537.Scheduler.Changes

/-!
# The inner loop of the scheduler ends

A pass of the loop takes the head off the queue, dispatches it, or moves it to the
tail with its counters reset. A moved process is dispatched when its turn comes again,
because its slice is at least one. So the loop reaches a dispatch or an empty queue
after at most two passes for each process, from any well formed queue whose slices are
positive, and in a reachable state they always are.
-/

namespace Cs537.Scheduler

open LinkedQueue

/-- A slice as `setslice` and `fork2` accept it: a positive C int. -/
def Sliced (slice : Int) : Prop := 1 ≤ slice ∧ slice < 2 ^ 31

/-- A well formed queue of processes with such slices. -/
structure Provided (s : Sched) (nodes : List Slot) : Prop where
  represents : Represents s.queue nodes
  slices : ∀ p ∈ nodes, Sliced (s.proc p).timeslice

/-- The loop was left: a process was dispatched, or the queue is empty. -/
def LoopLeft (s : Sched) : Prop :=
  (∃ p, s.cpu = .running p) ∨ (s.cpu = .idle ∧ s.queue.head = none)

/-- The passes that a process can take: one, and one more if it has to be moved to the
tail first. -/
def passesOf (x : Proc) : Nat := if Sched.hasBudget x then 1 else 2

/-- The passes that a queue can take. -/
def effort (s : Sched) (nodes : List Slot) : Nat := (nodes.map fun p => passesOf (s.proc p)).sum

section Loop

variable {s : Sched} {nodes : List Slot}

theorem passesOf_pos (x : Proc) : 1 ≤ passesOf x := by
  unfold passesOf
  split <;> omega

theorem effort_le (s : Sched) (nodes : List Slot) : effort s nodes ≤ 2 * nodes.length := by
  induction nodes with
  | nil => exact Nat.le_refl 0
  | cons p rest inductionHypothesis =>
    have most : passesOf (s.proc p) ≤ 2 := by
      unfold passesOf
      split <;> omega
    simp only [effort, List.map_cons, List.sum_cons, List.length_cons] at inductionHypothesis ⊢
    omega

/-- Processes that keep their records keep their share of the effort. -/
theorem effort_congr {t : Sched} (same : ∀ p ∈ nodes, t.proc p = s.proc p) :
    effort t nodes = effort s nodes := by
  unfold effort
  rw [List.map_congr_left fun p member => congrArg passesOf (same p member)]

/-- What `pop` leaves takes no more than the nodes behind the head. -/
theorem effort_popped (s : Sched) (nodes : List Slot) :
    effort s (s.popped nodes) ≤ effort s nodes.tail := by
  unfold Sched.popped
  split
  · exact Nat.zero_le _
  · exact Nat.le_refl _

/-- With empty counters a process has budget. -/
theorem hasBudget_reset {x : Proc} (slice : Sliced x.timeslice) (active : x.activeticks = 0)
    (grant : x.activesleepticks = 0) : Sched.hasBudget x = true := by
  have exact : int32 (x.timeslice + 0) = x.timeslice := by
    obtain ⟨_, small⟩ := slice
    unfold int32
    omega
  obtain ⟨positive, _⟩ := slice
  rw [Sched.hasBudget, active, grant, exact, decide_eq_true_eq]
  omega

/-- One pass leaves the loop, or leaves a queue that takes fewer passes. -/
theorem iterate_effort (provided : Provided s nodes) (held : s.cpu = .loop) :
    LoopLeft s.iterate ∨ ∃ after, Provided s.iterate after ∧ s.iterate.cpu = .loop ∧
      effort s.iterate after < effort s nodes := by
  obtain ⟨represents, slices⟩ := provided
  have head := represents.head_eq
  cases nodes with
  | nil =>
    rw [List.head?_nil] at head
    have idle : s.iterate = { s with cpu := .idle } := by simp only [Sched.iterate, head]
    rw [idle]
    exact .inl (.inr ⟨rfl, head⟩)
  | cons p rest =>
    rw [List.head?_cons] at head
    have behind : ∀ q ∈ s.popped (p :: rest), q ∈ rest := Sched.popped_subset s (p :: rest)
    have total : effort s (p :: rest) = passesOf (s.proc p) + effort s rest := by
      simp only [effort, List.map_cons, List.sum_cons]
    have fewer : effort s (s.popped (p :: rest)) ≤ effort s rest := effort_popped s (p :: rest)
    by_cases ready : (s.proc p).state = .runnable
    · cases budget : Sched.hasBudget (s.proc p) with
      | true =>
        have dispatched : s.iterate = s.dispatch p := by
          simp [Sched.iterate, head, ready, budget]
        rw [dispatched]
        exact .inl (.inl ⟨p, rfl⟩)
      | false =>
        have rotated : s.iterate = s.rotate p := by simp [Sched.iterate, head, ready, budget]
        have moved : ∀ q ∈ s.popped (p :: rest), (s.rotate p).proc q = s.proc q := by
          intro q member
          have different : q ≠ p := fun same =>
            (List.nodup_cons.mp represents.distinct).1 (same ▸ behind q member)
          rw [Sched.rotate_proc ready, if_neg different]
        have last : passesOf ((s.rotate p).proc p) = 1 := by
          have renewed : Sched.hasBudget { s.proc p with
              switches := (s.proc p).switches + 1, activesleepticks := 0, activeticks := 0 } = true :=
            hasBudget_reset (slices p List.mem_cons_self) rfl rfl
          rw [Sched.rotate_proc ready, if_pos rfl]
          exact if_pos renewed
        have before : passesOf (s.proc p) = 2 := by rw [passesOf, budget]; rfl
        rw [rotated]
        refine .inr ⟨s.popped (p :: rest) ++ [p], ⟨Sched.rotate_represents represents ready, ?_⟩, ?_, ?_⟩
        · intro q member
          rw [Sched.rotate_proc ready]
          rcases List.mem_append.mp member with earlier | only
          · split
            · exact slices p List.mem_cons_self
            · exact slices q (List.mem_cons_of_mem p (behind q earlier))
          · rw [if_pos (List.mem_singleton.mp only)]
            exact slices p List.mem_cons_self
        · rw [Sched.rotate_eq ready]
          simpa using held
        · have parts : effort (s.rotate p) (s.popped (p :: rest) ++ [p]) =
              effort s (s.popped (p :: rest)) + 1 := by
            rw [← effort_congr moved]
            simp only [effort, List.map_append, List.sum_append, List.map_singleton,
              List.sum_singleton, last]
          omega
    · have popped : s.iterate = s.pop := by simp [Sched.iterate, head, ready]
      have same : effort s.pop (s.popped (p :: rest)) = effort s (s.popped (p :: rest)) :=
        effort_congr fun q _ => by rw [Sched.pop_proc]
      have positive := passesOf_pos (s.proc p)
      rw [popped]
      refine .inr ⟨s.popped (p :: rest), ⟨Sched.pop_represents represents, ?_⟩, ?_, by omega⟩
      · intro q member
        rw [Sched.pop_proc]
        exact slices q (List.mem_cons_of_mem p (behind q member))
      · rw [Sched.pop_cpu, held]

/-- The passes of the loop lead out of it. -/
theorem loop_left (provided : Provided s nodes) (held : s.cpu = .loop) :
    ∃ count t, count ≤ 2 * nodes.length + 1 ∧
      run s (List.replicate count .iterate) = some t ∧ LoopLeft t := by
  have next : ∀ u : Sched, Provided u u.runQueue ∧ u.cpu = .loop → ∃ after, step u .iterate = some after ∧
      (LoopLeft after ∨ (Provided after after.runQueue ∧ after.cpu = .loop) ∧
        effort after after.runQueue < effort u u.runQueue) := by
    rintro u ⟨provided, held⟩
    refine ⟨u.iterate, if_pos held, ?_⟩
    rcases iterate_effort provided held with left | ⟨after, later, within, less⟩
    · exact .inl left
    · rw [Sched.runQueue_represents later.represents]
      exact .inr ⟨⟨later, within⟩, less⟩
  have whole := Sched.runQueue_represents provided.represents
  obtain ⟨count, t, short, completed, left⟩ := Runs.run_reaches next ⟨whole ▸ provided, held⟩
  have most := effort_le s nodes
  rw [whole] at short
  exact ⟨count, t, by omega, completed, left⟩

end Loop

/-! ## Slices of reachable states -/

/-- The slices that the code can read: of a process in use, and of an unfinished fork. Those of
free slots and embryos are only bounded. -/
structure Endowed (x : Proc) : Prop where
  small : x.timeslice < 2 ^ 31
  used : x.state ≠ .unused → x.state ≠ .embryo → 1 ≤ x.timeslice
  forking : ∀ np slice, x.forking = some (np, slice) → Sliced slice

theorem int32_small (value : Int) : int32 value < 2 ^ 31 := by
  unfold int32
  omega

/-- A fork that is unfinished after the first part of `fork2` has its slice, or was begun before. -/
theorem fork2_forking {s : Sched} {p q np : Slot} {slice begun : Int}
    (unfinished : ((s.fork2 p slice).proc q).forking = some (np, begun)) :
    begun = slice ∨ (s.proc q).forking = some (np, begun) := by
  rcases Sched.fork2_cases s p slice with result | ⟨child, t, taken, _, result⟩
  · rw [result] at unfinished
    exact .inr unfinished
  · rw [result, Sched.set_proc] at unfinished
    split at unfinished
    · exact .inl (Prod.mk.inj (Option.some.inj unfinished)).2.symm
    · by_cases same : q = child
      · rw [same, (Sched.allocproc_cases taken).2.2.1] at unfinished
        cases unfinished
      · rw [(Sched.allocproc_cases taken).2.2.2.2.2.1 q same] at unfinished
        exact .inr unfinished

/-- The slice that `fork` takes from `getslice` is that of a slot, or minus one. -/
theorem getslice_small {s : Sched} (small : ∀ p, (s.proc p).timeslice < 2 ^ 31) {pid slice : Int}
    (found : s.getslice pid = some slice) : slice < 2 ^ 31 := by
  unfold Sched.getslice at found
  split at found
  · rw [← Option.some.inj found]
    decide
  · obtain ⟨p, _, rfl⟩ := Option.map_eq_some_iff.mp found
    exact small p

/-- Slices stay as they should in every change of a record. -/
theorem change_endowed {s : Sched} {nodes : List Slot} (queued : Queued s nodes)
    (endowed : ∀ p, Endowed (s.proc p)) {p : Slot} {action : Action} {y : Proc}
    (asked : ∀ np slice, Forking action → y.forking = some (np, slice) → slice < 2 ^ 31)
    (changed : Change s p action y) : Endowed y := by
  obtain ⟨small, used, forking⟩ := endowed p
  have standing : ∀ state, (s.proc p).state = state → state ≠ .unused → state ≠ .embryo →
      1 ≤ (s.proc p).timeslice := fun state is busy grown => used (is ▸ busy) (is ▸ grown)
  cases changed with
  | same | refused => exact ⟨small, used, forking⟩
  | slept _ on | awaited on | dozed _ on | yielded _ on | exited on =>
    have positive := standing .running (queued.on_running on) (by decide) (by decide)
    exact ⟨small, fun _ _ => positive, forking⟩
  | dispatched _ _ ready | rotated ready =>
    have positive := standing .runnable ready (by decide) (by decide)
    exact ⟨small, fun _ _ => positive, forking⟩
  | killed =>
    refine ⟨small, ?_, forking⟩
    dsimp only
    split
    · rename_i asleep
      exact fun _ _ => standing .sleeping asleep (by decide) (by decide)
    · exact used
  | reaped => exact ⟨small, fun busy => absurd rfl busy, forking⟩
  | failed => exact ⟨small, fun busy => absurd rfl busy, forking⟩
  | ticked | roused =>
    unfold Sched.woken
    split
    · rename_i asleep
      have positive := standing .sleeping asleep.1 (by decide) (by decide)
      split_ifs <;> exact ⟨small, fun _ _ => positive, forking⟩
    · exact ⟨small, used, forking⟩
  | passed q on y pass =>
    obtain ⟨_, _, rfl | ⟨asleep, _, rfl⟩⟩ := pass
    · exact ⟨small, used, forking⟩
    · exact ⟨small, fun _ _ => standing .sleeping asleep (by decide) (by decide), forking⟩
  | sliced pid slice found positive => exact ⟨int32_small slice, fun _ _ => positive, forking⟩
  | taken => exact ⟨small, fun _ grown => absurd rfl grown, by simp [Sched.allocated]⟩
  | forked action np slice forks on positive =>
    refine ⟨small, used, fun child begun same => ?_⟩
    have bound := asked child begun forks same
    obtain ⟨_, rfl⟩ := Prod.mk.inj (Option.some.inj same)
    exact ⟨positive, bound⟩
  | dropped => exact ⟨small, used, by simp⟩
  | born q slice unfinished =>
    obtain ⟨positive, bound⟩ := (endowed q).forking p slice unfinished
    exact ⟨bound, fun _ _ => positive, forking⟩

/-- Slices stay as they should in every step. -/
theorem step_endowed {s t : Sched} {action : Action} (sound : Sound s)
    (endowed : ∀ p, Endowed (s.proc p)) (moved : Step s action t) (p : Slot) : Endowed (t.proc p) := by
  obtain ⟨⟨nodes, queued⟩, forks⟩ := sound
  refine change_endowed queued endowed (fun np slice calls unfinished => ?_) (step_change queued forks moved p)
  cases moved with
  | fork2 value q =>
    rcases fork2_forking unfinished with rfl | earlier
    · exact int32_small value
    · exact ((endowed p).forking np slice earlier).2
  | fork value q on ready found =>
    rcases fork2_forking unfinished with rfl | earlier
    · exact getslice_small (fun r => (endowed r).small) found
    · exact ((endowed p).forking np slice earlier).2
  | _ => exact calls.elim

theorem reachable_endowed {s : Sched} (reachable : Reachable s) : ∀ p, Endowed (s.proc p) := by
  obtain ⟨actions, completed⟩ := reachable
  have kept : ∀ s action t, True → (Sound s ∧ ∀ q, Endowed (s.proc q)) → step s action = some t →
      Sound t ∧ ∀ q, Endowed (t.proc q) := fun s action t _ ⟨sound, endowed⟩ moved =>
    ⟨step_sound sound moved, step_endowed sound endowed (step_cases moved)⟩
  have start : ∀ q, Endowed (userinit.proc q) := by
    intro q
    have none : ∀ p, (userinit.proc p).forking = none := by decide
    refine ⟨?_, ?_, fun np slice unfinished => ?_⟩
    · revert q
      decide
    · revert q
      decide
    · rw [none q] at unfinished
      cases unfinished
  exact (Runs.run_invariant kept ⟨userinit_sound, start⟩ (Runs.Meets.unguarded _ _) completed).2

/-- Every queue of a reachable state is provided for. -/
theorem reachable_provided {s : Sched} (reachable : Reachable s) : Provided s s.runQueue := by
  have endowed := reachable_endowed reachable
  obtain ⟨⟨nodes, queued⟩, _⟩ := reachable_sound reachable
  rw [queued.runQueue_eq]
  refine ⟨queued.represents, fun p member => ⟨(endowed p).used ?_ ?_, (endowed p).small⟩⟩
  · rcases queued.members p member with state | state | ⟨_, state, _⟩ <;> simp [state]
  · rcases queued.members p member with state | state | ⟨_, state, _⟩ <;> simp [state]

/-- From every well formed queue of processes with positive slices, and so from every queue of
a reachable state, the passes of the inner loop lead out of it: to a dispatch or to an empty
queue, after at most two passes for each process and one more. -/
theorem scheduler_leaves_loop :
    (∀ s, Reachable s → Provided s s.runQueue) ∧
      ∀ (s : Sched) (nodes : List Slot), Provided s nodes → s.cpu = .loop →
        ∃ count t, count ≤ 2 * nodes.length + 1 ∧
          run s (List.replicate count .iterate) = some t ∧ LoopLeft t := by
  refine ⟨fun s reachable => reachable_provided reachable, fun s nodes provided held => ?_⟩
  exact loop_left provided held

end Cs537.Scheduler
