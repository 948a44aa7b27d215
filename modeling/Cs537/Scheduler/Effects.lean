import Cs537.Scheduler.ProcTable

/-!
# What the kernel functions do to the table

One lemma for each function of the process table: the fields it leaves alone,
the cases in which it returns, and its effect on each process. A pass over the
table (`wakeup1`, the timer interrupt, the part of `exit` before the caller
becomes a zombie) is described by its effect on one process, because it changes
each process by itself and appends those that became runnable to the queue.
-/

namespace Cs537.Scheduler

open LinkedQueue

namespace Sched

/-! ## What the field updates do -/

@[simp] theorem set_proc (s : Sched) (p : Slot) (change : Proc → Proc) (q : Slot) :
    (s.set p change).proc q = if q = p then change (s.proc p) else s.proc q := by
  simp only [set, Function.update_apply]

@[simp] theorem set_queue (s : Sched) (p : Slot) (change : Proc → Proc) :
    (s.set p change).queue = s.queue := rfl

@[simp] theorem set_cpu (s : Sched) (p : Slot) (change : Proc → Proc) :
    (s.set p change).cpu = s.cpu := rfl

@[simp] theorem set_ticks (s : Sched) (p : Slot) (change : Proc → Proc) :
    (s.set p change).ticks = s.ticks := rfl

@[simp] theorem set_nextpid (s : Sched) (p : Slot) (change : Proc → Proc) :
    (s.set p change).nextpid = s.nextpid := rfl

@[simp] theorem push_proc (s : Sched) (p : Slot) : (s.push p).proc = s.proc := rfl

@[simp] theorem push_queue (s : Sched) (p : Slot) : (s.push p).queue = s.queue.push p := rfl

@[simp] theorem push_cpu (s : Sched) (p : Slot) : (s.push p).cpu = s.cpu := rfl

@[simp] theorem push_ticks (s : Sched) (p : Slot) : (s.push p).ticks = s.ticks := rfl

@[simp] theorem push_nextpid (s : Sched) (p : Slot) : (s.push p).nextpid = s.nextpid := rfl

/-- `pop` changes nothing but the queue. -/
theorem pop_frame (s : Sched) : s.pop = { s with queue := s.pop.queue } := by
  unfold pop
  split
  · rfl
  · split <;> rfl

@[simp] theorem pop_proc (s : Sched) : s.pop.proc = s.proc := by rw [pop_frame]

@[simp] theorem pop_cpu (s : Sched) : s.pop.cpu = s.cpu := by rw [pop_frame]

@[simp] theorem pop_ticks (s : Sched) : s.pop.ticks = s.ticks := by rw [pop_frame]

@[simp] theorem pop_nextpid (s : Sched) : s.pop.nextpid = s.nextpid := by rw [pop_frame]

/-- A slot found by a search passes its test. -/
theorem findSlot_some {s : Sched} {test : Proc → Bool} {p : Slot}
    (found : s.findSlot test = some p) : test (s.proc p) = true := by
  simpa using List.find?_some found

/-! ## Waking processes

A pass over the table changes each process by itself and appends those that
became runnable to the queue, so that it is described by the change of one
process. The same description covers `wakeup1` on a channel and the part of
`exit` that wakes the parent and passes the children on. -/

/-- The change that `wakeup1` makes to one process. -/
def woken (chan : Option Chan) (ticks : Nat) (x : Proc) : Proc :=
  if x.state = .sleeping ∧ x.chan = chan then
    if chan = some .ticks then
      if ticks < x.sleepdeadline then { x with sleepticks := x.sleepticks + 1 }
      else { x with sleepticks := x.sleepticks + 1, state := .runnable, activeticks := 0 }
    else { x with state := .runnable, activeticks := 0 }
  else x

/-- A change of one process during a pass: the state stays, or a sleeper becomes
runnable. -/
def Rises (x y : Proc) : Prop := y.state = x.state ∨ x.state = .sleeping ∧ y.state = .runnable

/-- A pass from `s` to `t` whose effect on each process is `change`. -/
structure Wakes (change : Proc → Proc → Prop) (s t : Sched) : Prop where
  cpu : t.cpu = s.cpu
  ticks : t.ticks = s.ticks
  nextpid : t.nextpid = s.nextpid
  initproc : t.initproc = s.initproc
  proc : ∀ p, change (s.proc p) (t.proc p)
  rises : ∀ p, Rises (s.proc p) (t.proc p)
  queue : ∀ nodes, Represents s.queue nodes → (∀ p ∈ nodes, (s.proc p).state ≠ .sleeping) →
    ∃ added, Represents t.queue (nodes ++ added) ∧
      ∀ p, p ∈ added ↔ (s.proc p).state = .sleeping ∧ (t.proc p).state ≠ .sleeping

/-- A pass that leaves everything alone. -/
theorem Wakes.refl {change : Proc → Proc → Prop} (same : ∀ x, change x x) (s : Sched) :
    Wakes change s s where
  cpu := rfl
  ticks := rfl
  nextpid := rfl
  initproc := rfl
  proc p := same _
  rises p := .inl rfl
  queue nodes represents _ := ⟨[], by simpa using represents, by simp⟩

/-- Passes compose. A process that rose in the first pass is runnable, so it is
not appended again by the second. -/
theorem Wakes.trans {first second change : Proc → Proc → Prop} {s t u : Sched}
    (compose : ∀ x y z, first x y → second y z → change x z)
    (front : Wakes first s t) (back : Wakes second t u) : Wakes change s u where
  cpu := back.cpu.trans front.cpu
  ticks := back.ticks.trans front.ticks
  nextpid := back.nextpid.trans front.nextpid
  initproc := back.initproc.trans front.initproc
  proc p := compose _ _ _ (front.proc p) (back.proc p)
  rises p := by
    have early := front.rises p
    have late := back.rises p
    unfold Rises at *
    grind
  queue nodes represents awake := by
    obtain ⟨added, middle, addedIff⟩ := front.queue nodes represents awake
    have middleAwake : ∀ p ∈ nodes ++ added, (t.proc p).state ≠ .sleeping := by
      intro p member
      rcases List.mem_append.mp member with queued | fresh
      · have rise := front.rises p
        have up := awake p queued
        unfold Rises at rise
        grind
      · exact ((addedIff p).mp fresh).2
    obtain ⟨more, final, moreIff⟩ := back.queue _ middle middleAwake
    refine ⟨added ++ more, by simpa only [List.append_assoc] using final, ?_⟩
    intro p
    have early := front.rises p
    have late := back.rises p
    unfold Rises at early late
    rw [List.mem_append, addedIff p, moreIff p]
    grind

/-- One iteration of the loop of `wakeup1` changes one process, and appends it
if it became runnable. -/
theorem wake_proc (chan : Option Chan) (s : Sched) (p q : Slot) :
    (s.wake chan p).proc q = if q = p then woken chan s.ticks (s.proc p) else s.proc q := by
  unfold wake woken
  split_ifs <;> simp_all

theorem wake_queue (chan : Option Chan) (s : Sched) (p : Slot) :
    (s.wake chan p).queue =
      if (s.proc p).state = .sleeping ∧ (woken chan s.ticks (s.proc p)).state ≠ .sleeping
      then s.queue.push p else s.queue := by
  unfold wake woken
  split_ifs <;> simp_all

theorem wake_frame (chan : Option Chan) (s : Sched) (p : Slot) :
    (s.wake chan p).cpu = s.cpu ∧ (s.wake chan p).ticks = s.ticks ∧
      (s.wake chan p).nextpid = s.nextpid ∧ (s.wake chan p).initproc = s.initproc := by
  unfold wake
  split_ifs <;> exact ⟨rfl, rfl, rfl, rfl⟩

theorem woken_rises (chan : Option Chan) (ticks : Nat) (x : Proc) :
    Rises x (woken chan ticks x) := by
  unfold woken Rises
  split_ifs <;> simp_all

/-- A pass over distinct slots changes each of them by `woken`, and appends to
the queue those that rose.

Induction over the slots still to be visited; a visited slot does not occur
later, so the change of a slot reads the state in which the pass began. -/
theorem wake_fold (chan : Option Chan) (slots : List Slot) (s : Sched) (distinct : slots.Nodup) :
    Wakes (fun x y => y = x ∨ y = woken chan s.ticks x) s (slots.foldl (wake chan) s) ∧
      ∀ p, (slots.foldl (wake chan) s).proc p =
        if p ∈ slots then woken chan s.ticks (s.proc p) else s.proc p := by
  induction slots generalizing s with
  | nil => exact ⟨Wakes.refl (fun _ => .inl rfl) s, by simp⟩
  | cons p rest inductionHypothesis =>
    obtain ⟨absent, restDistinct⟩ := List.nodup_cons.mp distinct
    obtain ⟨cpu, ticks, nextpid, initproc⟩ := wake_frame chan s p
    obtain ⟨later, laterProc⟩ := inductionHypothesis (s.wake chan p) restDistinct
    have visited : ∀ q, (rest.foldl (wake chan) (s.wake chan p)).proc q =
        if q ∈ p :: rest then woken chan s.ticks (s.proc q) else s.proc q := by
      intro q
      rw [laterProc q, wake_proc, ticks]
      by_cases same : q = p
      · subst same
        simp [absent]
      · simp [same]
    have first : Wakes (fun x y => y = x ∨ y = woken chan s.ticks x) s (s.wake chan p) := by
      refine ⟨cpu, ticks, nextpid, initproc, ?_, ?_, ?_⟩
      · intro q
        rw [wake_proc]
        split
        · rename_i same
          exact same ▸ .inr rfl
        · exact .inl rfl
      · intro q
        rw [wake_proc]
        split
        · rename_i same
          exact same ▸ woken_rises chan s.ticks _
        · exact .inl rfl
      · intro nodes represents awake
        rw [wake_queue]
        split
        · rename_i rose
          have fresh : p ∉ nodes := fun member => awake p member rose.1
          refine ⟨[p], push_represents represents fresh, ?_⟩
          intro q
          rw [wake_proc]
          by_cases same : q = p
          · subst same
            simp [rose]
          · simp [same]
        · rename_i stayed
          refine ⟨[], by simpa using represents, ?_⟩
          intro q
          rw [wake_proc]
          by_cases same : q = p
          · subst same
            simpa using stayed
          · simp [same]
    refine ⟨?_, visited⟩
    have pass : Wakes (fun _ _ => True) s _ := first.trans (fun _ _ _ _ _ => trivial) later
    refine ⟨pass.cpu, pass.ticks, pass.nextpid, pass.initproc, ?_, pass.rises, pass.queue⟩
    intro q
    rw [List.foldl_cons, visited q]
    split
    · exact .inr rfl
    · exact .inl rfl

/-- `wakeup1` changes every process by `woken`. -/
theorem wakeup1_proc (chan : Option Chan) (s : Sched) (p : Slot) :
    (s.wakeup1 chan).proc p = woken chan s.ticks (s.proc p) := by
  unfold wakeup1
  rw [(wake_fold chan (List.finRange NPROC) s (List.nodup_finRange NPROC)).2 p,
    if_pos (List.mem_finRange p)]

/-- `wakeup1` is a pass that changes every process by `woken`. -/
theorem wakeup1_wakes (chan : Option Chan) (s : Sched) :
    Wakes (fun x y => y = woken chan s.ticks x) s (s.wakeup1 chan) := by
  have pass := (wake_fold chan (List.finRange NPROC) s (List.nodup_finRange NPROC)).1
  have each := wakeup1_proc chan s
  unfold wakeup1 at each ⊢
  exact ⟨pass.cpu, pass.ticks, pass.nextpid, pass.initproc, each, pass.rises, pass.queue⟩

/-- A timer interrupt is a pass from the state with the counted tick. -/
theorem tick_wakes (s : Sched) :
    Wakes (fun x y => y = woken (some .ticks) ((s.ticks + 1) % 2 ^ 32) x)
      { s with ticks := (s.ticks + 1) % 2 ^ 32 } s.tick := by
  unfold tick
  exact wakeup1_wakes (some .ticks) { s with ticks := (s.ticks + 1) % 2 ^ 32 }

/-- A process that is not asleep keeps its state in a pass. -/
theorem Wakes.stays {change : Proc → Proc → Prop} {s t : Sched} (pass : Wakes change s t)
    {p : Slot} (awake : (s.proc p).state ≠ .sleeping) :
    (t.proc p).state = (s.proc p).state := by
  rcases pass.rises p with same | ⟨asleep, _⟩
  · exact same
  · exact absurd asleep awake

/-- The change that `exit` makes to another process: it may be passed on to an
heir, and if it sleeps on one of the channels it may become runnable. -/
def Passed (channels : Option Chan → Prop) (heir : Option Slot) (x y : Proc) : Prop :=
  ∃ parent, (parent = x.parent ∨ parent = heir) ∧
    (y = { x with parent := parent } ∨
      (x.state = .sleeping ∧ channels x.chan ∧
        y = { x with parent := parent, state := .runnable, activeticks := 0 }))

section Passing

variable {channels : Option Chan → Prop} {heir : Option Slot}

theorem Passed.refl (channels : Option Chan → Prop) (heir : Option Slot) (x : Proc) :
    Passed channels heir x x := ⟨x.parent, .inl rfl, .inl rfl⟩

theorem Passed.trans {x y z : Proc} (first : Passed channels heir x y)
    (second : Passed channels heir y z) : Passed channels heir x z := by
  obtain ⟨early, kept, rfl | ⟨asleep, listed, rfl⟩⟩ := first
  · obtain ⟨late, later, rfl | ⟨asleep, listed, rfl⟩⟩ := second
    · exact ⟨late, by grind, .inl rfl⟩
    · exact ⟨late, by grind, .inr ⟨asleep, listed, rfl⟩⟩
  · obtain ⟨late, later, rfl | ⟨impossible, _, _⟩⟩ := second
    · exact ⟨late, by grind, .inr ⟨asleep, listed, rfl⟩⟩
    · cases impossible

theorem Wakes.passed {s t u : Sched} (front : Wakes (Passed channels heir) s t)
    (back : Wakes (Passed channels heir) t u) : Wakes (Passed channels heir) s u :=
  front.trans (fun _ _ _ first second => first.trans second) back

/-- A zombie of this parent was one before the pass, unless the heir is that parent. -/
theorem Passed.zombie {x y : Proc} {parent : Slot} (passed : Passed channels heir x y)
    (other : heir ≠ some parent) (child : y.parent = some parent) (exited : y.state = .zombie) :
    x.parent = some parent ∧ x.state = .zombie := by
  obtain ⟨now, kept, rfl | ⟨_, _, rfl⟩⟩ := passed
  · rcases kept with same | given
    · exact ⟨same ▸ child, exited⟩
    · exact absurd (given ▸ child) other
  · cases exited

/-- Waking a channel other than that of the tick counter is such a change. -/
theorem woken_passed {chan : Option Chan} (notTicks : chan ≠ some .ticks) (listed : channels chan)
    (ticks : Nat) (x : Proc) : Passed channels heir x (woken chan ticks x) := by
  unfold woken
  split
  · rename_i matched
    exact ⟨x.parent, .inl rfl, .inr ⟨matched.1, matched.2.symm ▸ listed, rfl⟩⟩
  · exact .refl channels heir x

/-- A pass of `wakeup1` on a listed channel. -/
theorem wakeup1_passed {chan : Option Chan} (notTicks : chan ≠ some .ticks)
    (listed : channels chan) (s : Sched) : Wakes (Passed channels heir) s (s.wakeup1 chan) := by
  have pass := wakeup1_wakes chan s
  refine ⟨pass.cpu, pass.ticks, pass.nextpid, pass.initproc, ?_, pass.rises, pass.queue⟩
  intro p
  rw [pass.proc p]
  exact woken_passed notTicks listed s.ticks _

/-- Passing a process on is a pass that wakes nobody. -/
theorem setParent_passed (channels : Option Chan → Prop) (heir : Option Slot) (s : Sched)
    (p : Slot) : Wakes (Passed channels heir) s (s.set p fun x => { x with parent := heir }) := by
  refine ⟨rfl, rfl, rfl, rfl, ?_, ?_, ?_⟩
  · intro q
    rw [set_proc]
    split
    · rename_i same
      exact same ▸ ⟨heir, .inr rfl, .inl rfl⟩
    · exact .refl channels heir _
  · intro q
    rw [set_proc]
    split
    · rename_i same
      exact same ▸ .inl rfl
    · exact .inl rfl
  · intro nodes represents _
    refine ⟨[], by simpa using represents, ?_⟩
    intro q
    rw [set_proc]
    split
    · rename_i same
      simp [same]
    · simp

end Passing

theorem proc_not_ticks (slot : Option Slot) : slot.map Chan.proc ≠ some .ticks := by
  cases slot <;> simp

/-- Passing on one child of an exiting process. Only a zombie child wakes the heir. -/
theorem abandon_passed {channels : Option Chan → Prop} (s : Sched) (curproc p : Slot)
    (listed : (s.proc p).parent = some curproc → (s.proc p).state = .zombie →
      channels (s.initproc.map .proc)) :
    Wakes (Passed channels s.initproc) s (s.abandon curproc p) := by
  unfold abandon
  split
  · rename_i child
    have assigned := setParent_passed channels s.initproc s p
    dsimp only
    split
    · rename_i exited
      have zombie : (s.proc p).state = .zombie := by simpa using exited
      exact assigned.passed (wakeup1_passed (proc_not_ticks s.initproc) (listed child zombie) _)
    · exact assigned
  · exact .refl (.refl channels s.initproc) s

/-- The channels on which an exiting process wakes sleepers: the address of its
parent and, if it leaves a zombie child, that of `initproc`. -/
def exitChannels (s : Sched) (curproc : Slot) (chan : Option Chan) : Prop :=
  chan = (s.proc curproc).parent.map .proc ∨
    (chan = s.initproc.map .proc ∧
      ∃ child, (s.proc child).parent = some curproc ∧ (s.proc child).state = .zombie)

instance (s : Sched) (curproc : Slot) (chan : Option Chan) :
    Decidable (s.exitChannels curproc chan) := inferInstanceAs (Decidable (_ ∨ _))

/-- `exit` is a pass that wakes sleepers on its channels, after which the caller
becomes a zombie and the scheduler runs with the lock held. -/
theorem exit_cases (s : Sched) (curproc : Slot) (notInit : s.initproc ≠ some curproc) :
    ∃ t, Wakes (Passed (s.exitChannels curproc) s.initproc) s t ∧
      s.exit curproc = { t.set curproc fun x => { x with state := .zombie } with cpu := .loop } := by
  have parents : Wakes (Passed (s.exitChannels curproc) s.initproc) s _ :=
    wakeup1_passed (proc_not_ticks (s.proc curproc).parent) (.inl rfl) s
  have children : ∀ (slots : List Slot) (t : Sched),
      Wakes (Passed (s.exitChannels curproc) s.initproc) s t →
      Wakes (Passed (s.exitChannels curproc) s.initproc) s (slots.foldl (abandon curproc) t) := by
    intro slots
    induction slots with
    | nil => exact fun t before => before
    | cons p rest inductionHypothesis =>
      intro t before
      apply inductionHypothesis
      have next : Wakes (Passed (s.exitChannels curproc) t.initproc) t (t.abandon curproc p) := by
        apply abandon_passed
        intro child exited
        exact .inr ⟨by rw [before.initproc], p, (before.proc p).zombie notInit child exited⟩
      rw [before.initproc] at next
      exact before.passed next
  exact ⟨_, children _ _ parents, rfl⟩

/-! ## Cases of the other functions -/

theorem woken_forking {chan : Option Chan} {ticks : Nat} {x y : Proc}
    (raised : y = woken chan ticks x) : y.forking = x.forking := by
  subst raised
  unfold woken
  split_ifs <;> rfl

theorem woken_switches {chan : Option Chan} {ticks : Nat} {x y : Proc}
    (raised : y = woken chan ticks x) : y.switches = x.switches := by
  subst raised
  unfold woken
  split_ifs <;> rfl

theorem passed_forking {channels : Option Chan → Prop} {heir : Option Slot} {x y : Proc}
    (passed : Passed channels heir x y) : y.forking = x.forking := by
  obtain ⟨_, _, rfl | ⟨_, _, rfl⟩⟩ := passed <;> rfl

theorem passed_switches {channels : Option Chan → Prop} {heir : Option Slot} {x y : Proc}
    (passed : Passed channels heir x y) : y.switches = x.switches := by
  obtain ⟨_, _, rfl | ⟨_, _, rfl⟩⟩ := passed <;> rfl

/-- A runnable head is requeued by `rotate`. -/
theorem rotate_eq {s : Sched} {p : Slot} (ready : (s.proc p).state = .runnable) :
    s.rotate p =
      (((s.set p fun x => { x with switches := x.switches + 1, activesleepticks := 0 }).pop).push p).set p
        fun x => { x with activeticks := 0 } := by
  unfold rotate
  exact if_pos (by simp [ready])

/-- The counters that the end of a turn changes. -/
theorem rotate_proc {s : Sched} {p : Slot} (ready : (s.proc p).state = .runnable) (q : Slot) :
    (s.rotate p).proc q =
      if q = p then
        { s.proc p with switches := (s.proc p).switches + 1, activesleepticks := 0, activeticks := 0 }
      else s.proc q := by
  rw [rotate_eq ready]
  simp only [set_proc, push_proc, pop_proc]
  split_ifs <;> simp_all

/-- The assignments of `allocproc` to the slot that it takes. -/
def allocated (s : Sched) (x : Proc) : Proc :=
  { x with
    state := .embryo
    pid := s.nextpid
    compticks := 0
    schedticks := 0
    sleepticks := 0
    switches := 0
    sleepdeadline := 0
    activeticks := 0
    activesleepticks := 0
    forking := none }

/-- `allocproc` takes an unused slot and touches no other. -/
theorem allocproc_cases {s t : Sched} {np : Slot} (taken : s.allocproc = some (np, t)) :
    (s.proc np).state = .unused ∧ (t.proc np).state = .embryo ∧ (t.proc np).forking = none ∧
      (t.proc np).pid = s.nextpid ∧ t.nextpid = int32 (s.nextpid + 1) ∧
      (∀ p, p ≠ np → t.proc p = s.proc p) ∧ t.queue = s.queue ∧ t.cpu = s.cpu ∧
      t.ticks = s.ticks := by
  obtain ⟨p, found, same⟩ := Option.map_eq_some_iff.mp taken
  obtain ⟨rfl, rfl⟩ := Prod.mk.inj same
  have free := findSlot_some found
  refine ⟨by simpa using free, by simp, by simp, by simp, rfl, ?_, rfl, rfl, rfl⟩
  intro q different
  simp [different]

/-- The record that `allocproc` leaves in the slot that it takes. -/
theorem allocproc_new {s t : Sched} {np : Slot} (taken : s.allocproc = some (np, t)) :
    t.proc np = s.allocated (s.proc np) := by
  obtain ⟨p, _, same⟩ := Option.map_eq_some_iff.mp taken
  obtain ⟨rfl, rfl⟩ := Prod.mk.inj same
  simp [allocated]

/-- The three outcomes of the first part of `fork2`, as one change of state: no
slot is taken, or an unused slot becomes an embryo of the caller. -/
theorem fork2_cases (s : Sched) (p : Slot) (slice : Int) :
    s.fork2 p slice = s ∨
      ∃ np t, s.allocproc = some (np, t) ∧ 1 ≤ slice ∧
        s.fork2 p slice = t.set p fun x => { x with forking := some (np, slice) } := by
  unfold fork2
  split
  · exact .inl rfl
  · rename_i valid
    split
    · exact .inl rfl
    · rename_i np t taken
      exact .inr ⟨np, t, taken, by omega, rfl⟩

/-- `fork2` returns to its caller. -/
theorem fork2_cpu (s : Sched) (p : Slot) (slice : Int) : (s.fork2 p slice).cpu = s.cpu := by
  rcases fork2_cases s p slice with result | ⟨np, t, taken, _, result⟩
  · rw [result]
  · rw [result, set_cpu]
    exact (allocproc_cases taken).2.2.2.2.2.2.2.1

theorem fork2_ticks (s : Sched) (p : Slot) (slice : Int) : (s.fork2 p slice).ticks = s.ticks := by
  rcases fork2_cases s p slice with result | ⟨np, t, taken, _, result⟩
  · rw [result]
  · rw [result, set_ticks]
    exact (allocproc_cases taken).2.2.2.2.2.2.2.2

/-- A scan of `wait` finds children, none of them exited, and the caller is not
killed. -/
def waitBlocks (s : Sched) (p : Slot) : Prop :=
  (∃ child, (s.proc child).parent = some p) ∧
    (∀ child, (s.proc child).parent = some p → (s.proc child).state ≠ .zombie) ∧
    (s.proc p).killed = false

/-- The three outcomes of one scan of `wait`. -/
theorem wait_cases (s : Sched) (p : Slot) :
    s.wait p = s ∨ (s.waitBlocks p ∧ s.wait p = s.sleep p (.proc p)) ∨
      ∃ child, (s.proc child).state = .zombie ∧ s.wait p = s.set child fun x =>
        { x with pid := 0, parent := none, killed := false, state := .unused } := by
  unfold wait
  split
  · rename_i child found
    have exited := findSlot_some found
    exact .inr (.inr ⟨child, (by simpa using exited : _ ∧ _).2, rfl⟩)
  · rename_i absent
    split
    · exact .inl rfl
    · rename_i blocks
      refine .inr (.inl ⟨?_, rfl⟩)
      simp only [findSlot, List.find?_eq_none, List.mem_finRange, forall_const, not_or] at absent blocks
      exact ⟨by simpa using blocks.1, by simpa using absent, by simpa using blocks.2⟩

/-- `kill` marks one process and may make it runnable. -/
theorem kill_cases (s : Sched) (pid : Int) :
    s.kill pid = s ∨ ∃ p, s.findSlot (fun x => x.pid = pid) = some p ∧
      s.kill pid = s.set p fun x =>
        { x with killed := true, state := if x.state = .sleeping then .runnable else x.state } := by
  unfold kill
  split
  · exact .inl rfl
  · rename_i p found
    exact .inr ⟨p, found, rfl⟩

/-- `setslice` changes one slice, to a positive one. -/
theorem setslice_cases (s : Sched) (pid slice : Int) :
    s.setslice pid slice = s ∨ ∃ p, s.findSlot (fun x => x.pid = pid) = some p ∧ 1 ≤ slice ∧
      s.setslice pid slice = s.set p fun x => { x with timeslice := slice } := by
  unfold setslice
  split
  · exact .inl rfl
  · rename_i valid
    split
    · exact .inl rfl
    · rename_i p found
      exact .inr ⟨p, found, by omega, rfl⟩

/-- `sys_sleep` marks the caller and, unless it is killed, puts it to sleep. -/
theorem sysSleep_cases (s : Sched) (p : Slot) (n : Int) :
    ∃ marked, marked = (s.set p fun x =>
        { x with
          sleepdeadline := ((int32 n + s.ticks) % 2 ^ 32).toNat
          activesleepticks := int32 n
          activeticks := 0 }) ∧
      (((s.proc p).killed = true ∧ s.sysSleep p n = marked) ∨
        ((s.proc p).killed = false ∧ s.sysSleep p n = marked.sleep p .ticks)) := by
  refine ⟨_, rfl, ?_⟩
  unfold sysSleep
  dsimp only
  split
  · rename_i dead
    exact .inl ⟨by simpa using dead, rfl⟩
  · rename_i alive
    exact .inr ⟨by simpa using alive, rfl⟩

end Sched

end Cs537.Scheduler
