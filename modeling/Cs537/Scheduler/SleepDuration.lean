import Cs537.Scheduler.Compensation
import Cs537.Scheduler.Dispatching
import Cs537.Scheduler.TickAccounting

/-!
# The duration of a sleep

`sys_sleep` stores an absolute deadline, the sum of the tick counter and its argument as
an unsigned word, and every timer tick compares the counter with it. While neither the
deadline nor the counter wraps, the caller sleeps for as many ticks as it asked for, and
for one tick if it asked for none. The other system calls, wakeups and sleepers cannot
change that. When the sum wraps the deadline lies in the past and the first tick ends the
sleep; when only the counter wraps, a sleep of no ticks lasts for the whole cycle of the
counter.
-/

namespace Cs537.Scheduler

/-- The ticks that a call of `sys_sleep` is to last. -/
def duration (n : Int) : Nat := (max n 1).toNat

/-- The deadline is met by the counter at the right tick: a sleep of no ticks does not start
at the largest value of the counter, and for a longer one than a tick the deadline does not
wrap unless the counter wraps with the first tick. -/
def Timely (ticks : Nat) (n : Int) : Prop :=
  (n = 0 → ticks ≠ 2 ^ 32 - 1) ∧ (2 ≤ n → ticks + n < 2 ^ 32 ∨ ticks = 2 ^ 32 - 1)

/-- After the call of `p` in `s`, which led to `t`, and as long as `p` is not killed: it is
asleep up to its last tick and every tick is counted, and at the last tick it becomes runnable
and is queued once. -/
def SleepsFor (p : Slot) (n : Int) (s t : Sched) : Prop :=
  ∀ actions u, run t actions = some u → Runs.Along step (fun v => (v.proc p).killed = false) t actions →
    (Runs.tally step timers t actions < duration n →
      (u.proc p).state = .sleeping ∧
        (u.proc p).sleepticks = (s.proc p).sleepticks + Runs.tally step timers t actions) ∧
    ∀ user v, Runs.tally step timers t actions + 1 = duration n → step u (.timer user) = some v →
      (v.proc p).state = .runnable ∧ v.runQueue.count p = 1 ∧
        (v.proc p).sleepticks = (s.proc p).sleepticks + duration n

/-- The process has slept for `k` ticks since its call in `s`. -/
structure Dozing (p : Slot) (n : Int) (s : Sched) (k : Nat) (u : Sched) : Prop where
  asleep : (u.proc p).state = .sleeping
  listening : (u.proc p).chan = some .ticks
  deadline : (u.proc p).sleepdeadline = ((n + s.ticks) % 2 ^ 32).toNat
  counted : (u.proc p).sleepticks = (s.proc p).sleepticks + k
  clock : u.ticks = (s.ticks + k) % 2 ^ 32

section Sleep

variable {s t u v : Sched} {p : Slot} {n : Int} {k : Nat}

/-- The tick counter is an unsigned word. -/
theorem reachable_ticks (reachable : Reachable s) : s.ticks < 2 ^ 32 := by
  obtain ⟨actions, completed⟩ := reachable
  have kept : ∀ s action t, True → (Sound s ∧ s.ticks < 2 ^ 32) → step s action = some t →
      Sound t ∧ t.ticks < 2 ^ 32 := by
    intro s action t _ ⟨sound, small⟩ moved
    refine ⟨step_sound sound moved, ?_⟩
    rcases (step_counters (step_cases moved)).2 with ⟨user, rfl⟩ | same
    · cases step_cases moved with
      | tick => exact s.tick_wakes.ticks.trans_lt (Nat.mod_lt _ (by decide))
      | yield => exact s.tick_wakes.ticks.trans_lt (Nat.mod_lt _ (by decide))
    · rwa [same]
  exact (Runs.run_invariant kept ⟨userinit_sound, by decide⟩ (Runs.Meets.unguarded _ _) completed).2

/-- The call of a process that is not killed puts it to sleep. -/
theorem sysSleep_dozing (on : s.cpu = .running p) (alive : (s.proc p).killed = false)
    (nonneg : 0 ≤ n) (small : n < 2 ^ 31) (bound : s.ticks < 2 ^ 32)
    (called : step s (.sysSleep n) = some t) : Dozing p n s 0 t := by
  have exact : int32 n = n := by
    unfold int32
    omega
  cases step_cases called with
  | sysSleep _ q other =>
    obtain rfl : p = q := Cpu.running.inj (on.symm.trans other)
    obtain ⟨marked, shape, ⟨dead, _⟩ | ⟨_, result⟩⟩ := Sched.sysSleep_cases s p n
    · rw [alive] at dead
      cases dead
    · rw [result, shape]
      refine ⟨?_, ?_, ?_, ?_, ?_⟩ <;> simp [Sched.sleep, exact]
      omega

/-- The caller is not killed by its call, which ends in the scheduler. -/
theorem sysSleep_blocks (on : s.cpu = .running p) (alive : (s.proc p).killed = false)
    (called : step s (.sysSleep n) = some t) : (t.proc p).killed = false ∧ t.cpu = .loop := by
  cases step_cases called with
  | sysSleep _ q other =>
    obtain rfl : p = q := Cpu.running.inj (on.symm.trans other)
    obtain ⟨marked, shape, ⟨dead, _⟩ | ⟨_, result⟩⟩ := Sched.sysSleep_cases s p n
    · rw [alive] at dead
      cases dead
    · rw [result, shape]
      simp [Sched.sleep, alive]

/-- A timer interrupt visits every sleeper. -/
theorem timer_asleep {user : Bool} (queued : ∃ nodes, Queued s nodes)
    (asleep : (s.proc p).state = .sleeping) (moved : Step s (.timer user) t) :
    t.proc p = Sched.woken (some .ticks) ((s.ticks + 1) % 2 ^ 32) (s.proc p) ∧
      t.ticks = (s.ticks + 1) % 2 ^ 32 := by
  cases moved with
  | tick => exact ⟨s.tick_wakes.proc p, s.tick_wakes.ticks⟩
  | yield _ q on =>
    obtain ⟨nodes, queued⟩ := queued
    have different : p ≠ q := by
      rintro rfl
      rw [queued.on_running on] at asleep
      cases asleep
    refine ⟨?_, s.tick_wakes.ticks⟩
    simp only [Sched.yield, Sched.set_proc, if_neg different]
    exact s.tick_wakes.proc p

/-- No other action wakes a process that sleeps on the tick counter, unless it is killed. -/
theorem change_asleep {nodes : List Slot} {action : Action} {y : Proc} (queued : Queued s nodes)
    (asleep : (s.proc p).state = .sleeping) (listening : (s.proc p).chan = some .ticks)
    (other : ∀ user, action ≠ .timer user) (alive : y.killed = false) (changed : Change s p action y) :
    y.state = .sleeping ∧ y.chan = some .ticks ∧ y.sleepdeadline = (s.proc p).sleepdeadline ∧
      y.sleepticks = (s.proc p).sleepticks := by
  have idle : s.cpu ≠ .running p := fun on => by
    rw [queued.on_running on] at asleep
    cases asleep
  cases changed with
  | same | sliced => exact ⟨asleep, listening, rfl, rfl⟩
  | slept _ on | awaited on | refused _ on | dozed _ on | yielded _ on | exited on | forked _ _ _ _ on
  | dropped _ on => exact absurd on idle
  | ticked user => exact absurd rfl (other user)
  | roused chan notTicks =>
    have deaf : ¬ ((s.proc p).state = .sleeping ∧ (s.proc p).chan = some chan) := by
      rintro ⟨_, same⟩
      exact notTicks (Option.some.inj (same.symm.trans listening))
    rw [Sched.woken, if_neg deaf]
    exact ⟨asleep, listening, rfl, rfl⟩
  | passed q on y pass =>
    obtain ⟨_, _, rfl | ⟨_, channel, _⟩⟩ := pass
    · exact ⟨asleep, listening, rfl, rfl⟩
    · exfalso
      rw [listening] at channel
      rcases channel with parent | ⟨heir, _⟩
      · exact Sched.proc_not_ticks _ parent.symm
      · exact Sched.proc_not_ticks _ heir.symm
  | killed => cases alive
  | reaped state | taken _ _ state | failed state | born _ _ _ state | dispatched _ _ state
  | rotated state =>
    rw [state] at asleep
    cases asleep

/-- Neither the scheduler nor the timer kills. -/
theorem change_spared {action : Action} {y : Proc}
    (quiet : action = .iterate ∨ ∃ user, action = .timer user) (changed : Change s p action y) :
    y.killed = (s.proc p).killed := by
  cases changed with
  | ticked =>
    unfold Sched.woken
    split_ifs <;> rfl
  | killed | reaped | roused | passed => simp at quiet
  | _ => rfl

/-- The comparison of `wakeup1` at the tick after `k` others, for a timely call. -/
theorem due_iff {ticks : Nat} (timely : Timely ticks n) (nonneg : 0 ≤ n) (small : n < 2 ^ 31)
    (bound : ticks < 2 ^ 32) (before : k < duration n) :
    ((ticks + k) % 2 ^ 32 + 1) % 2 ^ 32 < ((n + ticks) % 2 ^ 32).toNat ↔ k + 1 < duration n := by
  obtain ⟨none, several⟩ := timely
  unfold duration at *
  omega

/-- A tick before the last one is counted, and the last one ends the sleep. -/
theorem Dozing.tick {user : Bool} (dozing : Dozing p n s k u) (timely : Timely s.ticks n)
    (nonneg : 0 ≤ n) (small : n < 2 ^ 31) (bound : s.ticks < 2 ^ 32) (before : k < duration n)
    (sound : Sound u) (moved : Step u (.timer user) v) :
    (k + 1 < duration n → Dozing p n s (k + 1) v) ∧
      (k + 1 = duration n →
        (v.proc p).state = .runnable ∧ (v.proc p).sleepticks = (s.proc p).sleepticks + (k + 1)) := by
  obtain ⟨asleep, listening, deadline, counted, clock⟩ := dozing
  obtain ⟨record, ticks⟩ := timer_asleep sound.1 asleep moved
  have compare := due_iff timely nonneg small bound before
  rw [Sched.woken, if_pos ⟨asleep, listening⟩, if_pos rfl, clock, deadline] at record
  rw [clock] at ticks
  constructor
  · intro more
    rw [if_pos (compare.mpr more)] at record
    refine ⟨?_, ?_, ?_, ?_, ?_⟩
    · rw [record]
      exact asleep
    · rw [record]
      exact listening
    · rw [record]
    · rw [record, counted, Nat.add_assoc]
    · omega
  · intro last
    rw [if_neg (by omega)] at record
    rw [record]
    exact ⟨rfl, congrArg (· + 1) counted⟩

/-- No other step disturbs the sleep. -/
theorem Dozing.other {action : Action} (dozing : Dozing p n s k u) (sound : Sound u)
    (other : ∀ user, action ≠ .timer user) (alive : (v.proc p).killed = false)
    (moved : Step u action v) : Dozing p n s k v := by
  obtain ⟨asleep, listening, deadline, counted, clock⟩ := dozing
  obtain ⟨⟨nodes, queued⟩, forks⟩ := sound
  obtain ⟨still, channel, due, ticks⟩ :=
    change_asleep queued asleep listening other alive (step_change queued forks moved p)
  refine ⟨still, channel, due.trans deadline, ticks.trans counted, ?_⟩
  rcases (step_counters moved).2 with ⟨user, timer⟩ | same
  · exact absurd timer (other user)
  · exact same.trans clock

/-- During a timely sleep every tick is counted. -/
theorem Dozing.until {actions : List Action} (dozing : Dozing p n s 0 t) (timely : Timely s.ticks n)
    (nonneg : 0 ≤ n) (small : n < 2 ^ 31) (bound : s.ticks < 2 ^ 32) (sound : Sound t)
    (alive : Runs.Along step (fun v => (v.proc p).killed = false) t actions)
    (completed : run t actions = some u) :
    Sound u ∧ (Runs.tally step timers t actions < duration n →
      Dozing p n s (Runs.tally step timers t actions) u) := by
  have counted : ∀ state action next count, True → (next.proc p).killed = false →
      (Sound state ∧ (count < duration n → Dozing p n s count state)) →
      step state action = some next →
      Sound next ∧ (count + timers state action next < duration n →
        Dozing p n s (count + timers state action next) next) := by
    intro state action next count _ spared ⟨steady, current⟩ moved
    refine ⟨step_sound steady moved, fun within => ?_⟩
    by_cases other : ∀ user, action ≠ .timer user
    · have none : timers state action next = 0 := by
        unfold timers
        split
        · rename_i user
          exact absurd rfl (other user)
        · rfl
      rw [none, Nat.add_zero] at within ⊢
      exact (current within).other steady other spared (step_cases moved)
    · obtain ⟨user, timer⟩ := not_forall.mp other
      obtain rfl := not_not.mp timer
      have before : count < duration n := by
        unfold timers at within
        omega
      exact ((current before).tick timely nonneg small bound before steady (step_cases moved)).1 within
  have whole := Runs.run_count counted ⟨sound, fun _ => dozing⟩ (Runs.Meets.unguarded t actions)
    alive completed
  rwa [Nat.zero_add] at whole

/-- A timely call lasts as long as it is to. -/
theorem timely_sleeps (sound : Sound t) (dozing : Dozing p n s 0 t) (timely : Timely s.ticks n)
    (nonneg : 0 ≤ n) (small : n < 2 ^ 31) (bound : s.ticks < 2 ^ 32) : SleepsFor p n s t := by
  intro actions u completed alive
  obtain ⟨steady, current⟩ := dozing.until timely nonneg small bound sound alive completed
  refine ⟨fun before => ⟨(current before).asleep, (current before).counted⟩, ?_⟩
  intro user v last moved
  have before : Runs.tally step timers t actions < duration n := by omega
  have taken := step_cases moved
  obtain ⟨ready, ticks⟩ := ((current before).tick timely nonneg small bound before steady taken).2 last
  refine ⟨ready, ?_, last ▸ ticks⟩
  obtain ⟨⟨nodes, queued⟩, forks⟩ := steady
  obtain ⟨after, done, _, raises⟩ := step_queued queued forks taken
  rw [done.runQueue_eq]
  -- it was asleep and nobody killed it, so it is in the queue because the tick woke it
  rcases raises p ready with earlier | member | slain
  · rw [(current before).asleep] at earlier
    cases earlier
  · exact List.count_eq_one_of_mem done.represents.distinct member
  · exact slain.elim

/-- After the call the scheduler loop comes to its end with `p` asleep, and the timer can
interrupt. -/
theorem Dozing.interrupted (dozing : Dozing p n s 0 t) (reachable : Reachable t)
    (alive : (t.proc p).killed = false) (held : t.cpu = .loop) :
    ∃ actions u v, (∀ action ∈ actions, action = .iterate) ∧ run t actions = some u ∧
      Dozing p n s 0 u ∧ Sound u ∧ step u (.timer false) = some v := by
  obtain ⟨count, u, _, completed, left⟩ := loop_left (reachable_provided reachable) held
  have listed : ∀ action ∈ List.replicate count Action.iterate, action = .iterate :=
    fun action member => List.eq_of_mem_replicate member
  have kept : ∀ u action v, action = .iterate → (Dozing p n s 0 u ∧ (u.proc p).killed = false ∧ Sound u) →
      step u action = some v → Dozing p n s 0 v ∧ (v.proc p).killed = false ∧ Sound v := by
    rintro u action v rfl ⟨dozing, alive, sound⟩ moved
    obtain ⟨⟨nodes, queued⟩, forks⟩ := id sound
    have spared : (v.proc p).killed = false :=
      (change_spared (.inl rfl) (step_change queued forks (step_cases moved) p)).trans alive
    exact ⟨dozing.other sound (by simp) spared (step_cases moved), spared, step_sound sound moved⟩
  obtain ⟨still, _, sound⟩ := Runs.run_invariant kept ⟨dozing, alive, reachable_sound reachable⟩
    (Runs.Meets.listed t listed) completed
  have possible : (step u (.timer false)).isSome = true := by
    rcases left with ⟨q, on⟩ | ⟨idle, _⟩ <;> simp [step, Sched.timer, *]
  obtain ⟨v, moved⟩ := Option.isSome_iff_exists.mp possible
  exact ⟨_, u, v, listed, completed, still, sound, moved⟩

/-- A call that is not timely does not last as long as it is to: the first tick ends a long
sleep, or does not end a sleep of no ticks. -/
theorem sleeps_timely (reachable : Reachable t) (dozing : Dozing p n s 0 t)
    (alive : (t.proc p).killed = false) (held : t.cpu = .loop) (nonneg : 0 ≤ n) (small : n < 2 ^ 31)
    (bound : s.ticks < 2 ^ 32) (sleeps : SleepsFor p n s t) : Timely s.ticks n := by
  obtain ⟨actions, u, v, iterates, completed, still, sound, moved⟩ :=
    dozing.interrupted reachable alive held
  have kept : ∀ u action v, (action = .iterate ∨ ∃ user, action = .timer user) →
      (Sound u ∧ (u.proc p).killed = false) → step u action = some v →
      Sound v ∧ (v.proc p).killed = false := by
    intro u action v quiet ⟨sound, spared⟩ moved
    obtain ⟨⟨nodes, queued⟩, forks⟩ := id sound
    exact ⟨step_sound sound moved,
      (change_spared quiet (step_change queued forks (step_cases moved) p)).trans spared⟩
  have spared : ∀ list : List Action, (∀ action ∈ list, action = .iterate ∨ ∃ user, action = .timer user) →
      Runs.Along step (fun v => (v.proc p).killed = false) t list := fun list quiet =>
    Runs.Along.invariant kept (fun _ => And.right) ⟨reachable_sound reachable, alive⟩
      (Runs.Meets.listed t quiet)
  have silent : Runs.tally step timers t actions = 0 :=
    Runs.tally_weightless t fun action member _ _ => by rw [iterates action member]; rfl
  obtain ⟨record, _⟩ := timer_asleep sound.1 still.asleep (step_cases moved)
  rw [Sched.woken, if_pos ⟨still.asleep, still.listening⟩, if_pos rfl, still.clock, still.deadline] at record
  refine ⟨fun none last => ?_, fun several => ?_⟩
  · -- the counter wraps to zero, below the deadline, and the process goes on sleeping
    have ready := ((sleeps actions u completed (spared _ fun action member => .inl (iterates action member))).2
      false v (by rw [silent, none]; rfl) moved).1
    rw [record, if_pos (by omega)] at ready
    exact ProcState.noConfusion (still.asleep.symm.trans ready)
  · by_contra early
    obtain ⟨wrapped, below⟩ := not_or.mp early
    have whole : run t (actions ++ [.timer false]) = some v := by
      refine Runs.run_append completed ?_
      rw [Runs.run, moved]
      rfl
    have single : Runs.tally step timers t (actions ++ [.timer false]) = 1 := by
      rw [Runs.tally_append completed, silent, Runs.tally, moved]
      rfl
    have quiet : ∀ action ∈ actions ++ [.timer false],
        action = Action.iterate ∨ ∃ user, action = .timer user := by
      intro action member
      rcases List.mem_append.mp member with earlier | last
      · exact .inl (iterates action earlier)
      · exact .inr ⟨false, List.mem_singleton.mp last⟩
    have asleep := ((sleeps _ v whole (spared _ quiet)).1 (by rw [single, duration]; omega)).1
    rw [record, if_neg (by omega)] at asleep
    cases asleep

/-- For every value of the tick counter and every argument: a process that calls `sys_sleep`
sleeps for the ticks it asked for, whatever else happens, exactly if the call is timely. -/
theorem sleeps_iff_timely (reachable : Reachable s) (on : s.cpu = .running p)
    (alive : (s.proc p).killed = false) (nonneg : 0 ≤ n) (small : n < 2 ^ 31)
    (called : step s (.sysSleep n) = some t) : SleepsFor p n s t ↔ Timely s.ticks n := by
  have bound := reachable_ticks reachable
  have dozing := sysSleep_dozing on alive nonneg small bound called
  have later : Reachable t := reachable.step called
  obtain ⟨spared, held⟩ := sysSleep_blocks on alive called
  exact ⟨sleeps_timely later dozing spared held nonneg small bound, fun timely =>
    timely_sleeps (reachable_sound later) dozing timely nonneg small bound⟩

end Sleep

/-- The first process asks for two ticks when the counter is zero. -/
theorem sleeps_iff_timely_first : SleepsFor firstSlot 2 firstCalled firstAsleep := by
  have reachable : Reachable firstCalled := ⟨_, Runs.run_final (by decide +kernel)⟩
  have called : step firstCalled (.sysSleep 2) = some firstAsleep := Runs.step_final (by decide +kernel)
  exact (sleeps_iff_timely reachable (by decide +kernel) (by decide +kernel) (by decide) (by decide)
    called).mpr ⟨by decide, fun _ => .inl (by decide +kernel)⟩

/-! ## Late calls -/

/-- A pass that finds nobody asleep does nothing. -/
theorem wakeup1_awake {s : Sched} (awake : ∀ p, (s.proc p).state ≠ .sleeping) (chan : Option Chan) :
    s.wakeup1 chan = s := by
  unfold Sched.wakeup1
  generalize List.finRange NPROC = slots
  induction slots with
  | nil => rfl
  | cons p rest inductionHypothesis =>
    rw [List.foldl_cons, Sched.wake, if_neg fun asleep => awake p asleep.1]
    exact inductionHypothesis

/-- The first process is running when the counter has any value. -/
def lateCalled (ticks : Nat) : Sched := { firstCalled with ticks := ticks }

/-- The timer can interrupt the idle scheduler any number of times before the first dispatch. -/
theorem late_reachable {ticks : Nat} (small : ticks < 2 ^ 32) : Reachable (lateCalled ticks) := by
  have awake : ∀ p, (userinit.proc p).state ≠ .sleeping := by decide
  have idle : ∀ count, count < 2 ^ 32 →
      run userinit (List.replicate count (.timer false)) = some { userinit with ticks := count } := by
    intro count
    induction count with
    | zero => exact fun _ => rfl
    | succ count inductionHypothesis =>
      intro below
      rw [List.replicate_succ']
      refine Runs.run_append (inductionHypothesis (by omega)) ?_
      have counted : (count + 1) % 2 ^ 32 = count + 1 := Nat.mod_eq_of_lt below
      have ticked : Sched.tick { userinit with ticks := count } = { userinit with ticks := count + 1 } := by
        unfold Sched.tick
        rw [wakeup1_awake (by exact awake), counted]
      have moved : step { userinit with ticks := count } (.timer false) =
          some { userinit with ticks := count + 1 } := congrArg some ticked
      rw [Runs.run, moved]
      rfl
  refine ⟨List.replicate ticks (.timer false) ++ [.load, .acquire, .iterate],
    Runs.run_append (idle ticks small) ?_⟩
  rfl

/-- A sleep of four ticks that starts when the counter is about to wrap ends with the first
tick. -/
theorem late_sleep_short :
    ¬ ∀ s t p n, Reachable s → s.cpu = .running p → (s.proc p).killed = false → 0 ≤ n → n < 2 ^ 31 →
        step s (.sysSleep n) = some t → SleepsFor p n s t := by
  intro claim
  have reachable : Reachable (lateCalled (2 ^ 32 - 2)) := late_reachable (by decide)
  have on : (lateCalled (2 ^ 32 - 2)).cpu = .running firstSlot := by decide +kernel
  have alive : ((lateCalled (2 ^ 32 - 2)).proc firstSlot).killed = false := by decide +kernel
  have called : step (lateCalled (2 ^ 32 - 2)) (.sysSleep 4) = some _ := Runs.step_final (by decide +kernel)
  have dozing := sysSleep_dozing on alive (by decide) (by decide) (reachable_ticks reachable) called
  obtain ⟨spared, held⟩ := sysSleep_blocks on alive called
  have timely := sleeps_timely (reachable.step called) dozing spared held (by decide) (by decide)
    (reachable_ticks reachable) (claim _ _ _ _ reachable on alive (by decide) (by decide) called)
  rcases timely.2 (by decide) with unwrapped | last
  · exact absurd unwrapped (by decide)
  · exact absurd last (by decide)

end Cs537.Scheduler
