import Cs537.Scheduler.Effects

/-!
# Integrity of the run queue

The queue is described by the list of its nodes. While a process runs it is the
first node; every node is runnable or running, except that the first may be a
zombie while the scheduler holds the lock after an `exit`. None of this depends
on pids: a collision of pids makes `pop` empty the queue, which is still a well
formed queue. That `pop` removes only the head does depend on them.

Each kernel function gets one lemma with the exact list after it. The step
lemma collects these, and says how the list and the `switches` counters of the
queued processes move; the later modules use only that.
-/

namespace Cs537.Scheduler

open LinkedQueue

namespace Sched

/-- The pids of the two ends of a queue agree, so `pop` takes it for a singleton. -/
def endsAgree (s : Sched) (nodes : List Slot) : Prop :=
  nodes.head?.map (fun p => (s.proc p).pid) = nodes.getLast?.map (fun p => (s.proc p).pid)

instance (s : Sched) (nodes : List Slot) : Decidable (s.endsAgree nodes) :=
  inferInstanceAs (Decidable (_ = _))

/-- The nodes that `pop` leaves. -/
def popped (s : Sched) (nodes : List Slot) : List Slot :=
  if s.endsAgree nodes then [] else nodes.tail

/-- A node left by `pop` was a node before it, behind the head. -/
theorem popped_subset (s : Sched) (nodes : List Slot) : ∀ p ∈ s.popped nodes, p ∈ nodes.tail := by
  intro p member
  unfold popped at member
  split at member
  · cases member
  · exact member

/-- `pop` leaves exactly these nodes. -/
theorem pop_represents {s : Sched} {nodes : List Slot} (represents : Represents s.queue nodes) :
    Represents s.pop.queue (s.popped nodes) := by
  have head := represents.head_eq
  cases nodes with
  | nil =>
    have unchanged : s.pop = s := by simp [pop, head]
    rw [unchanged]
    simpa [popped] using represents
  | cons first rest =>
    by_cases agree : s.endsAgree (first :: rest)
    · have cleared : s.pop = { s with queue := s.queue.clear } := by
        simp only [pop, head, List.head?_cons, represents.last]
        exact if_pos agree
      rw [cleared, popped, if_pos agree]
      exact clear_represents s.queue
    · have advanced : s.pop = { s with queue := s.queue.advance } := by
        simp only [pop, head, List.head?_cons, represents.last]
        exact if_neg agree
      rw [advanced, popped, if_neg agree]
      cases rest with
      | nil => simp [endsAgree] at agree
      | cons second others => exact advance_represents represents

/-- `pop` reads nothing of the processes but their pids. -/
theorem popped_congr {s t : Sched} (pids : ∀ p, (t.proc p).pid = (s.proc p).pid)
    (nodes : List Slot) : t.popped nodes = s.popped nodes := by
  have same : t.endsAgree nodes ↔ s.endsAgree nodes := by simp only [endsAgree, pids]
  unfold popped
  by_cases agree : s.endsAgree nodes
  · rw [if_pos agree, if_pos (same.mpr agree)]
  · rw [if_neg agree, if_neg fun other => agree (same.mp other)]

/-- Ending the turn of the head moves it behind the nodes that `pop` leaves. -/
theorem rotate_represents {s : Sched} {p : Slot} {rest : List Slot}
    (represents : Represents s.queue (p :: rest)) (ready : (s.proc p).state = .runnable) :
    Represents (s.rotate p).queue (s.popped (p :: rest) ++ [p]) := by
  let charged := s.set p fun x => { x with switches := x.switches + 1, activesleepticks := 0 }
  have same : charged.popped (p :: rest) = s.popped (p :: rest) := by
    apply popped_congr
    intro q
    simp only [charged, set_proc]
    split
    · rename_i equal
      rw [equal]
    · rfl
  have popped : Represents charged.pop.queue (s.popped (p :: rest)) :=
    same ▸ pop_represents represents
  have fresh : p ∉ s.popped (p :: rest) := fun member =>
    (List.nodup_cons.mp represents.distinct).1 (popped_subset s (p :: rest) p member)
  rw [rotate_eq ready]
  exact push_represents popped fresh

/-- A queue has at most as many nodes as the table, so following the links from
the head recovers it. -/
theorem runQueue_represents {s : Sched} {nodes : List Slot} (represents : Represents s.queue nodes) :
    s.runQueue = nodes := by
  apply follow_chain represents.chain
  have bound := List.Nodup.length_le_card represents.distinct
  simpa only [Fintype.card_fin] using bound

end Sched

/-- The shape of the queue and its relation to the states of the processes. -/
structure Queued (s : Sched) (nodes : List Slot) : Prop where
  represents : Represents s.queue nodes
  members : ∀ p ∈ nodes, (s.proc p).state = .runnable ∨ (s.proc p).state = .running ∨
    (s.cpu = .loop ∧ (s.proc p).state = .zombie ∧ nodes.head? = some p)
  running : ∀ p, (s.proc p).state = .running ↔ s.cpu = .running p
  front : ∀ p, s.cpu = .running p → nodes.head? = some p

/-- Unfinished forks own distinct embryos. -/
structure Forks (s : Sched) : Prop where
  embryo : ∀ p np slice, (s.proc p).forking = some (np, slice) → (s.proc np).state = .embryo
  creator : ∀ p q np left right, (s.proc p).forking = some (np, left) →
    (s.proc q).forking = some (np, right) → p = q

/-- The invariant of the scheduler that holds without any assumption. -/
def Sound (s : Sched) : Prop := (∃ nodes, Queued s nodes) ∧ Forks s

namespace Queued

variable {s t : Sched} {nodes : List Slot}

/-- A queued process is not asleep. -/
theorem awake (queued : Queued s nodes) : ∀ p ∈ nodes, (s.proc p).state ≠ .sleeping := by
  intro p member
  rcases queued.members p member with state | state | ⟨_, state, _⟩ <;> simp [state]

theorem runQueue_eq (queued : Queued s nodes) : s.runQueue = nodes :=
  Sched.runQueue_represents queued.represents

/-- Changes that keep the queue, the processor and the states of queued and
running processes keep the invariant. -/
theorem keep (queued : Queued s nodes) (queue : t.queue = s.queue) (cpu : t.cpu = s.cpu)
    (members : ∀ p ∈ nodes, (t.proc p).state = (s.proc p).state)
    (running : ∀ p, (t.proc p).state = .running ↔ (s.proc p).state = .running) :
    Queued t nodes where
  represents := queue ▸ queued.represents
  members p member := by
    rw [members p member, cpu]
    exact queued.members p member
  running p := by rw [running p, cpu, queued.running p]
  front p on := queued.front p (cpu ▸ on)

/-- When the processor is not in the inner loop, no queued process is a zombie. -/
theorem live (queued : Queued s nodes) (free : s.LockFree) :
    ∀ p ∈ nodes, (s.proc p).state = .runnable ∨ (s.proc p).state = .running := by
  intro p member
  rcases queued.members p member with state | state | ⟨held, _, _⟩
  · exact .inl state
  · exact .inr state
  · exact absurd held free

/-- While a process runs, every other queued process is runnable. -/
theorem others (queued : Queued s nodes) {p : Slot} (on : s.cpu = .running p) :
    ∀ q ∈ nodes, q ≠ p → (s.proc q).state = .runnable := by
  intro q member different
  have free : s.LockFree := by simp [Sched.LockFree, on]
  rcases queued.live free q member with state | state
  · exact state
  · have same : s.cpu = .running q := (queued.running q).mp state
    rw [on] at same
    exact absurd (Cpu.running.inj same).symm different

/-- The running process is the head of its queue. -/
theorem split (queued : Queued s nodes) {p : Slot} (on : s.cpu = .running p) :
    ∃ rest, nodes = p :: rest ∧ p ∉ rest := by
  have head := queued.front p on
  cases nodes with
  | nil => simp at head
  | cons first rest =>
    obtain rfl : first = p := by simpa using head
    exact ⟨rest, rfl, (List.nodup_cons.mp queued.represents.distinct).1⟩

/-- A pass over the table appends the processes that it wakes. -/
theorem wakes {change : Proc → Proc → Prop} (queued : Queued s nodes)
    (pass : Sched.Wakes change s t) :
    ∃ added, Queued t (nodes ++ added) ∧
      ∀ p, p ∈ added ↔ (s.proc p).state = .sleeping ∧ (t.proc p).state ≠ .sleeping := by
  obtain ⟨added, represents, addedIff⟩ := pass.queue nodes queued.represents queued.awake
  refine ⟨added, ⟨represents, ?_, ?_, ?_⟩, addedIff⟩
  · intro p member
    have rise := pass.rises p
    rcases List.mem_append.mp member with old | new
    · have awake := queued.awake p old
      have same : (t.proc p).state = (s.proc p).state := by
        rcases rise with same | ⟨asleep, _⟩
        · exact same
        · exact absurd asleep awake
      rw [same, pass.cpu]
      rcases queued.members p old with state | state | ⟨held, state, head⟩
      · exact .inl state
      · exact .inr (.inl state)
      · refine .inr (.inr ⟨held, state, ?_⟩)
        rw [List.head?_append, head, Option.some_or]
    · obtain ⟨asleep, up⟩ := (addedIff p).mp new
      rcases rise with same | ⟨_, raised⟩
      · exact absurd (same.trans asleep) up
      · exact .inl raised
  · intro p
    rw [pass.cpu, ← queued.running p]
    rcases pass.rises p with same | ⟨asleep, raised⟩
    · rw [same]
    · rw [asleep, raised]
      simp
  · intro p on
    rw [List.head?_append, queued.front p (pass.cpu ▸ on), Option.some_or]

/-- `sleep` pops the queue while the caller is its head. -/
theorem sleep (queued : Queued s nodes) {p : Slot} (on : s.cpu = .running p) (chan : Chan) :
    Queued (s.sleep p chan) (s.popped nodes) := by
  obtain ⟨rest, rfl, absent⟩ := queued.split on
  let asleep := s.set p fun x => { x with chan := some chan, state := .sleeping }
  have same : asleep.popped (p :: rest) = s.popped (p :: rest) := by
    apply Sched.popped_congr
    intro q
    simp only [asleep, Sched.set_proc]
    split
    · rename_i equal
      rw [equal]
    · rfl
  have represents : Represents asleep.pop.queue (asleep.popped (p :: rest)) :=
    Sched.pop_represents queued.represents
  have behind : ∀ q ∈ s.popped (p :: rest), q ∈ rest := Sched.popped_subset s (p :: rest)
  refine ⟨same ▸ represents, ?_, ?_, ?_⟩
  · intro q member
    have different : q ≠ p := fun equal => absent (equal ▸ behind q member)
    have state := queued.others on q (List.mem_cons_of_mem _ (behind q member)) different
    refine .inl ?_
    simp [Sched.sleep, different, state]
  · intro q
    have only := queued.running q
    rw [on] at only
    simp only [Sched.sleep, Sched.pop_proc, Sched.set_proc, reduceCtorEq, iff_false]
    split
    · simp
    · rename_i different
      rw [only]
      exact fun equal => different (Cpu.running.inj equal).symm
  · intro q impossible
    simp [Sched.sleep] at impossible

/-- `yield` leaves the caller runnable at the head. -/
theorem yield (queued : Queued s nodes) {p : Slot} (on : s.cpu = .running p) :
    Queued (s.yield p) nodes := by
  refine ⟨queued.represents, ?_, ?_, ?_⟩
  · intro q member
    refine .inl ?_
    simp only [Sched.yield, Sched.set_proc]
    split
    · rfl
    · rename_i different
      exact queued.others on q member different
  · intro q
    have only := queued.running q
    rw [on] at only
    simp only [Sched.yield, Sched.set_proc, reduceCtorEq, iff_false]
    split
    · simp
    · rename_i different
      rw [only]
      exact fun equal => different (Cpu.running.inj equal).symm
  · intro q impossible
    simp [Sched.yield] at impossible

/-- A running process that becomes a zombie stays at the head until the
scheduler pops it. -/
theorem zombie (queued : Queued s nodes) {p : Slot} (on : s.cpu = .running p) :
    Queued { s.set p fun x => { x with state := .zombie } with cpu := .loop } nodes := by
  refine ⟨queued.represents, ?_, ?_, ?_⟩
  · intro q member
    simp only [Sched.set_proc]
    split
    · rename_i same
      exact .inr (.inr ⟨trivial, rfl, same ▸ queued.front p on⟩)
    · rename_i different
      exact .inl (queued.others on q member different)
  · intro q
    have only := queued.running q
    rw [on] at only
    simp only [Sched.set_proc, reduceCtorEq, iff_false]
    split
    · simp
    · rename_i different
      rw [only]
      exact fun equal => different (Cpu.running.inj equal).symm
  · intro q impossible
    cases impossible

/-- In the inner loop nobody runs, and the nodes behind the head are runnable. -/
theorem behind (queued : Queued s nodes) (held : s.cpu = .loop) {first : Slot} {rest : List Slot}
    (shape : nodes = first :: rest) : ∀ q ∈ rest, (s.proc q).state = .runnable := by
  intro q member
  subst shape
  have different : q ≠ first := fun equal =>
    (List.nodup_cons.mp queued.represents.distinct).1 (equal ▸ member)
  rcases queued.members q (List.mem_cons_of_mem _ member) with state | state | ⟨_, _, head⟩
  · exact state
  · have on := (queued.running q).mp state
    rw [held] at on
    cases on
  · exact absurd (by simpa using head : first = q).symm different

/-- Popping a zombie off the head. -/
theorem reap (queued : Queued s nodes) (held : s.cpu = .loop) :
    Queued s.pop (s.popped nodes) := by
  refine ⟨Sched.pop_represents queued.represents, ?_, ?_, ?_⟩
  · intro q member
    cases shape : nodes with
    | nil =>
      subst shape
      exact absurd (Sched.popped_subset s [] q member) (by simp)
    | cons first rest =>
      have later := Sched.popped_subset s nodes q member
      rw [shape] at later
      rw [Sched.pop_proc]
      exact .inl (queued.behind held shape q later)
  · intro q
    rw [Sched.pop_proc, Sched.pop_cpu]
    exact queued.running q
  · intro q on
    rw [Sched.pop_cpu, held] at on
    cases on

/-- Dispatching a runnable head. -/
theorem dispatch (queued : Queued s nodes) (held : s.cpu = .loop) {p : Slot} {rest : List Slot}
    (shape : nodes = p :: rest) : Queued (s.dispatch p) nodes := by
  have nobody : ∀ q, (s.proc q).state ≠ .running := by
    intro q state
    have on := (queued.running q).mp state
    rw [held] at on
    cases on
  refine ⟨queued.represents, ?_, ?_, ?_⟩
  · intro q member
    simp only [Sched.dispatch, Sched.set_proc]
    split
    · exact .inr (.inl rfl)
    · rename_i different
      subst shape
      rcases List.mem_cons.mp member with same | later
      · exact absurd same different
      · exact .inl (queued.behind held rfl q later)
  · intro q
    simp only [Sched.dispatch, Sched.set_proc]
    split
    · rename_i same
      simp [same]
    · rename_i different
      simp only [nobody q, false_iff]
      exact fun equal => different (Cpu.running.inj equal).symm
  · intro q on
    have same : p = q := Cpu.running.inj on
    rw [shape, List.head?_cons, same]

/-- Ending the turn of a runnable head moves it behind the nodes that `pop`
leaves. -/
theorem rotate (queued : Queued s nodes) (held : s.cpu = .loop) {p : Slot} {rest : List Slot}
    (shape : nodes = p :: rest) (ready : (s.proc p).state = .runnable) :
    Queued (s.rotate p) (s.popped nodes ++ [p]) := by
  subst shape
  have behind : ∀ q ∈ s.popped (p :: rest), q ∈ rest := Sched.popped_subset s (p :: rest)
  have result := Sched.rotate_eq ready
  have states : ∀ q, ((s.rotate p).proc q).state = (s.proc q).state := by
    intro q
    rw [Sched.rotate_proc ready]
    split
    · rename_i equal
      rw [equal]
    · rfl
  refine ⟨Sched.rotate_represents queued.represents ready, ?_, ?_, ?_⟩
  · intro q member
    refine .inl ?_
    rw [states q]
    rcases List.mem_append.mp member with left | last
    · exact queued.behind held rfl q (behind q left)
    · exact (List.mem_singleton.mp last) ▸ ready
  · intro q
    rw [states q, queued.running q, result]
    simp
  · intro q on
    rw [result] at on
    simp [held] at on

/-- A process that is made runnable from a state that cannot be queued is
appended. -/
theorem forkDone (queued : Queued s nodes) {p np : Slot} (on : s.cpu = .running p)
    (embryo : (s.proc np).state = .embryo) (slice : Int) :
    Queued (s.forkDone p np slice) (nodes ++ [np]) := by
  have free : s.LockFree := by simp [Sched.LockFree, on]
  have fresh : np ∉ nodes := by
    intro member
    rcases queued.live free np member with state | state <;> simp [embryo] at state
  have states : ∀ q, ((s.forkDone p np slice).proc q).state =
      if q = np then .runnable else (s.proc q).state := by
    intro q
    simp only [Sched.forkDone, Sched.set_proc, Sched.push_proc]
    split_ifs <;> simp_all
  refine ⟨push_represents queued.represents fresh, ?_, ?_, ?_⟩
  · intro q member
    rw [states q]
    rcases List.mem_append.mp member with left | last
    · have different : q ≠ np := fun equal => fresh (equal ▸ left)
      rw [if_neg different]
      exact (queued.live free q left).imp_right .inl
    · rw [if_pos (List.mem_singleton.mp last)]
      exact .inl rfl
  · intro q
    rw [states q]
    have only := queued.running q
    split
    · rename_i same
      subst same
      rw [embryo] at only
      simp only [reduceCtorEq, false_iff] at only ⊢
      exact only
    · exact only
  · intro q running
    rw [List.head?_append, queued.front q running, Option.some_or]

end Queued

end Cs537.Scheduler
