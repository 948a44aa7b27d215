import Cs537.Scheduler.Changes

/-!
# Compensation for sleep

A call of `sys_sleep` grants `activesleepticks` extra dispatches. How many of them
are spent is not stored: it is the excess of `activeticks` over `timeslice`. The
grant is therefore spent again when `activeticks` is reset, by a wakeup on another
channel, or when `timeslice` is raised while the process is being compensated. A
killed caller and a deadline that wraps are granted ticks that they do not sleep.

In runs without these events, what is spent and what is left of a grant never
exceed the ticks slept. The bound is carried relative to a starting point, so
that it serves both for one sleep and for the whole life of a process.
-/

namespace Cs537.Scheduler

open LinkedQueue

/-- What is left of the grant of a process. -/
def spare (x : Proc) : Nat := x.activesleepticks.toNat - (x.activeticks - x.timeslice).toNat

/-- The process has used up its slice and is spending its grant. -/
def Compensating (x : Proc) : Prop := x.timeslice < x.activeticks ∧ 0 < x.activesleepticks

instance (x : Proc) : Decidable (Compensating x) := inferInstanceAs (Decidable (_ ∧ _))

/-- No grant is renewed by this step, and none is made without the sleep. -/
def Sparing (s : Sched) : Action → Prop
  | .wakeup chan => ∀ p, (s.proc p).state = .sleeping → (s.proc p).chan = some chan →
      ¬ Compensating (s.proc p)
  | .exit => ∀ p q, s.cpu = .running q → (s.proc p).state = .sleeping →
      s.exitChannels q (s.proc p).chan → ¬ Compensating (s.proc p)
  | .setslice pid slice => ∀ p, s.findSlot (fun x => x.pid = int32 pid) = some p →
      Compensating (s.proc p) → int32 slice ≤ (s.proc p).timeslice
  | .sysSleep n => ∀ p, s.cpu = .running p → 0 < int32 n →
      (s.proc p).killed = false ∧ (int32 n ≤ 1 ∨ int32 n + s.ticks < 2 ^ 32)
  | _ => True

instance (s : Sched) (action : Action) : Decidable (Sparing s action) :=
  match action with
  | .wakeup _ => inferInstanceAs (Decidable (∀ _, _ → _ → _))
  | .exit => inferInstanceAs (Decidable (∀ _ _, _ → _ → _ → _))
  | .setslice _ _ => inferInstanceAs (Decidable (∀ _, _ → _ → _))
  | .sysSleep _ => inferInstanceAs (Decidable (∀ _, _ → _ → _))
  | .load | .acquire | .iterate | .timer _ | .sleep _ | .kill _ | .wait | .fork2 _ | .fork
  | .forkFail | .forkDone => isTrue trivial

/-! ## Ranges -/

/-- The ranges of the fields that the budget is computed from. -/
structure Ranged (x : Proc) : Prop where
  slice : 0 ≤ x.timeslice
  grant : -2 ^ 31 ≤ x.activesleepticks
  deadline : x.sleepdeadline < 2 ^ 32
  forking : ∀ np slice, x.forking = some (np, slice) → 1 ≤ slice

theorem int32_ge (value : Int) : -2 ^ 31 ≤ int32 value := by
  unfold int32
  omega

theorem int32_le {value : Int} (small : -2 ^ 31 ≤ value) : int32 value ≤ value := by
  unfold int32
  omega

/-- The ranges survive every change of a record. -/
theorem change_ranged {s : Sched} (ranged : ∀ p, Ranged (s.proc p)) {p : Slot} {action : Action}
    {y : Proc} (changed : Change s p action y) : Ranged y := by
  obtain ⟨slice, grant, deadline, forking⟩ := ranged p
  cases changed with
  | same | slept | awaited | yielded | exited | killed | reaped | failed | dispatched =>
    exact ⟨slice, grant, deadline, forking⟩
  | refused | dozed =>
    refine ⟨slice, int32_ge _, ?_, forking⟩
    simp only [Sched.dozing]
    omega
  | ticked | roused =>
    unfold Sched.woken
    split_ifs <;> exact ⟨slice, grant, deadline, forking⟩
  | passed q on y pass =>
    obtain ⟨_, _, rfl | ⟨_, _, rfl⟩⟩ := pass <;> exact ⟨slice, grant, deadline, forking⟩
  | sliced pid new found positive => exact ⟨by dsimp only; omega, grant, deadline, forking⟩
  | taken => exact ⟨slice, by simp [Sched.allocated], by simp [Sched.allocated], by simp [Sched.allocated]⟩
  | forked action np new forks on positive =>
    refine ⟨slice, grant, deadline, ?_⟩
    intro child kept same
    obtain ⟨_, rfl⟩ := Prod.mk.inj (Option.some.inj same)
    exact positive
  | dropped => exact ⟨slice, grant, deadline, by simp⟩
  | born q new unfinished =>
    have positive := (ranged q).forking p new unfinished
    exact ⟨by dsimp only; omega, grant, deadline, forking⟩
  | rotated => exact ⟨slice, by simp, deadline, forking⟩

/-! ## Spending a grant -/

/-- A reset of `activeticks` does not renew a grant that is not being spent. -/
theorem spare_reset {x y : Proc} (ranged : Ranged x) (idle : ¬ Compensating x)
    (grant : y.activesleepticks = x.activesleepticks) (slice : y.timeslice = x.timeslice)
    (reset : y.activeticks = 0) : spare y ≤ spare x := by
  have positive := ranged.slice
  unfold Compensating at idle
  unfold spare
  rw [grant, slice, reset]
  omega

/-- A lower slice, or any slice for a process that is not compensated, does not
renew its grant. -/
theorem spare_sliced {x y : Proc} (slice : Int)
    (lower : Compensating x → slice ≤ x.timeslice)
    (grant : y.activesleepticks = x.activesleepticks) (active : y.activeticks = x.activeticks)
    (sliced : y.timeslice = slice) : spare y ≤ spare x := by
  unfold Compensating at lower
  unfold spare
  rw [grant, active, sliced]
  omega

/-- A dispatch spends exactly what it counts as compensation. -/
theorem spare_charged {x : Proc} (ranged : Ranged x) (budget : Sched.hasBudget x = true) :
    (Sched.charged x).compticks + spare (Sched.charged x) = x.compticks + spare x := by
  have slice := ranged.slice
  have grant := ranged.grant
  have within : x.activeticks < x.timeslice + x.activesleepticks := by
    have test : x.activeticks < int32 (x.timeslice + x.activesleepticks) := by
      simpa [Sched.hasBudget] using budget
    exact lt_of_lt_of_le test (int32_le (by omega))
  unfold spare Sched.charged
  dsimp only
  split <;> omega

/-- The bound on the compensation of one process, relative to a starting point at
which it had been compensated for `c` of `k` ticks slept. While the process is
queued or sleeps on another channel, what is left of its grant is within the
bound; while it sleeps in `sys_sleep` the whole grant is, up to the ticks still
to come. -/
structure Bounded (k c ticks : Nat) (listed : Prop) (x : Proc) : Prop where
  total : x.compticks + k ≤ x.sleepticks + c
  ready : listed ∨ (x.state = .sleeping ∧ x.chan ≠ some .ticks) →
    x.compticks + spare x + k ≤ x.sleepticks + c
  embryo : x.state = .embryo → x.compticks + x.activesleepticks.toNat + k ≤ x.sleepticks + c
  asleep : x.state = .sleeping → x.chan = some .ticks →
    x.compticks + x.activesleepticks.toNat + k ≤
      x.sleepticks + c + max 1 (x.sleepdeadline - ticks)

section Records

variable {k c ticks : Nat} {listed listed' : Prop} {x y : Proc}

/-- Changes that leave the counters alone, do not renew the grant, and do not
bring the process to a place where more is required of it. -/
theorem Bounded.carry (bounded : Bounded k c ticks listed x)
    (compticks : y.compticks = x.compticks) (sleepticks : y.sleepticks = x.sleepticks)
    (grant : y.activesleepticks = x.activesleepticks)
    (deadline : y.sleepdeadline = x.sleepdeadline) (unspent : spare y ≤ spare x)
    (ready : listed' ∨ (y.state = .sleeping ∧ y.chan ≠ some .ticks) →
      listed ∨ (x.state = .sleeping ∧ x.chan ≠ some .ticks))
    (embryo : y.state = .embryo → x.state = .embryo)
    (asleep : y.state = .sleeping → y.chan = some .ticks →
      x.state = .sleeping ∧ x.chan = some .ticks) : Bounded k c ticks listed' y := by
  refine ⟨?_, ?_, ?_, ?_⟩
  · rw [compticks, sleepticks]
    exact bounded.total
  · intro placed
    have bound := bounded.ready (ready placed)
    rw [compticks, sleepticks]
    omega
  · intro new
    rw [compticks, sleepticks, grant]
    exact bounded.embryo (embryo new)
  · intro down listening
    obtain ⟨before, channel⟩ := asleep down listening
    rw [compticks, sleepticks, grant, deadline]
    exact bounded.asleep before channel

/-- A process that has nothing left of its grant. -/
theorem Bounded.spent (total : x.compticks + k ≤ x.sleepticks + c)
    (grant : x.activesleepticks ≤ 0) : Bounded k c ticks listed x := by
  have none : x.activesleepticks.toNat = 0 := by omega
  have nothing : spare x = 0 := by
    unfold spare
    omega
  refine ⟨total, fun _ => ?_, fun _ => ?_, fun _ _ => ?_⟩ <;> omega

/-- A sleeper in `sys_sleep` is counted and perhaps woken by a tick. The tick may
wrap, in which case every deadline has passed. -/
theorem Bounded.tick (bounded : Bounded k c ticks listed x) (ranged : Ranged x)
    (entered : listed' → listed ∨ x.state = .sleeping ∨ x.state = .embryo)
    (standing : listed' →
      (Sched.woken (some .ticks) ((ticks + 1) % 2 ^ 32) x).state ≠ .sleeping ∧
        (Sched.woken (some .ticks) ((ticks + 1) % 2 ^ 32) x).state ≠ .embryo) :
    Bounded k c ((ticks + 1) % 2 ^ 32) listed'
      (Sched.woken (some .ticks) ((ticks + 1) % 2 ^ 32) x) := by
  have deadline := ranged.deadline
  have slice := ranged.slice
  by_cases due : x.state = .sleeping ∧ x.chan = some .ticks
  · have grant := bounded.asleep due.1 due.2
    have total := bounded.total
    unfold Sched.woken
    rw [if_pos due, if_pos rfl]
    split
    · rename_i early
      refine ⟨by dsimp only; omega, ?_, ?_, ?_⟩
      · rintro (placed | ⟨_, elsewhere⟩)
        · have up := (standing placed).1
          unfold Sched.woken at up
          rw [if_pos due, if_pos rfl, if_pos early] at up
          exact absurd due.1 up
        · exact absurd due.2 elsewhere
      · intro embryo
        exact absurd (embryo.symm.trans due.1) (by simp)
      · intro _ _
        dsimp only
        omega
    · rename_i late
      refine ⟨by dsimp only; omega, ?_, ?_, ?_⟩
      · intro _
        unfold spare
        dsimp only
        omega
      · intro embryo
        cases embryo
      · intro asleep
        cases asleep
  · have same : Sched.woken (some .ticks) ((ticks + 1) % 2 ^ 32) x = x := by
      unfold Sched.woken
      rw [if_neg due]
    rw [same] at standing ⊢
    refine ⟨bounded.total, ?_, bounded.embryo, fun asleep listening => absurd ⟨asleep, listening⟩ due⟩
    rintro (placed | elsewhere)
    · rcases entered placed with before | asleep | embryo
      · exact bounded.ready (.inl before)
      · exact absurd asleep (standing placed).1
      · exact absurd embryo (standing placed).2
    · exact bounded.ready (.inr elsewhere)

end Records

/-- A queued process is neither asleep nor an embryo. -/
theorem Queued.standing {s : Sched} {nodes : List Slot} (queued : Queued s nodes) {p : Slot}
    (member : p ∈ nodes) : (s.proc p).state ≠ .sleeping ∧ (s.proc p).state ≠ .embryo ∧
      (s.proc p).state ≠ .unused := by
  rcases queued.members p member with state | state | ⟨_, state, _⟩ <;> simp [state]

/-- A process that enters the queue was asleep or an embryo. -/
theorem Shift.entered {s t : Sched} {nodes after : List Slot} (shift : Shift s t nodes after)
    {p : Slot} (member : p ∈ after) :
    p ∈ nodes ∨ (s.proc p).state = .sleeping ∨ (s.proc p).state = .embryo := by
  cases shift with
  | append _ added _ fresh =>
    rcases List.mem_append.mp member with old | new
    · exact .inl old
    · exact .inr (fresh p new)
  | pop => exact .inl (List.mem_of_mem_tail (Sched.popped_subset s _ p member))
  | rotate first rest =>
    rcases List.mem_append.mp member with left | last
    · exact .inl (List.mem_cons_of_mem _ (Sched.popped_subset s _ p left))
    · exact .inl (List.mem_singleton.mp last ▸ List.mem_cons_self)

/-- Changes that also leave the state and the channel alone. -/
theorem Bounded.keep {k c ticks : Nat} {listed listed' : Prop} {x y : Proc}
    (bounded : Bounded k c ticks listed x) (state : y.state = x.state) (chan : y.chan = x.chan)
    (compticks : y.compticks = x.compticks) (sleepticks : y.sleepticks = x.sleepticks)
    (grant : y.activesleepticks = x.activesleepticks)
    (deadline : y.sleepdeadline = x.sleepdeadline) (unspent : spare y ≤ spare x)
    (entered : listed' → listed ∨ x.state = .sleeping ∨ x.state = .embryo)
    (standing : listed' → y.state ≠ .sleeping ∧ y.state ≠ .embryo ∧ y.state ≠ .unused) :
    Bounded k c ticks listed' y := by
  apply bounded.carry compticks sleepticks grant deadline unspent
  · rw [state, chan]
    rintro (placed | elsewhere)
    · obtain ⟨up, grown, _⟩ := standing placed
      rw [state] at up grown
      rcases entered placed with before | asleep | embryo
      · exact .inl before
      · exact absurd asleep up
      · exact absurd embryo grown
    · exact .inr elsewhere
  · rw [state]
    exact id
  · rw [state, chan]
    exact fun asleep listening => ⟨asleep, listening⟩

/-- A sleep that begins is granted no more than the ticks to its deadline. -/
theorem dozed_bounded {k c : Nat} {s : Sched} {p : Slot} {n : Int} {listed' : Prop}
    (total : (s.proc p).compticks + k ≤ (s.proc p).sleepticks + c)
    (granted : 0 < int32 n → int32 n ≤ 1 ∨ int32 n + s.ticks < 2 ^ 32) (absent : ¬ listed') :
    Bounded k c s.ticks listed'
      { s.dozing n (s.proc p) with chan := some .ticks, state := .sleeping } := by
  refine ⟨total, ?_, by simp, ?_⟩
  · rintro (placed | ⟨_, elsewhere⟩)
    · exact absurd placed absent
    · exact absurd rfl elsewhere
  · intro _ _
    simp only [Sched.dozing]
    omega

/-- A sparing change keeps the bound of a process, unless its slot is recycled. -/
theorem change_bounded {k c : Nat} {s : Sched} {nodes : List Slot} {p : Slot} {action : Action}
    {y : Proc} {listed' : Prop} (queued : Queued s nodes) (ranged : ∀ q, Ranged (s.proc q))
    (bounded : Bounded k c s.ticks (p ∈ nodes) (s.proc p)) (sparing : Sparing s action)
    (recycled : (s.proc p).state = .unused → k ≤ c) (noTick : ∀ user, action ≠ .timer user)
    (changed : Change s p action y)
    (entered : listed' → p ∈ nodes ∨ (s.proc p).state = .sleeping ∨ (s.proc p).state = .embryo)
    (standing : listed' → y.state ≠ .sleeping ∧ y.state ≠ .embryo ∧ y.state ≠ .unused)
    (unlisted : Killed s action p → ¬ listed') : Bounded k c s.ticks listed' y := by
  have front : s.cpu = .running p → p ∈ nodes := fun on => List.mem_of_mem_head? (queued.front p on)
  cases changed with
  | same | forked | dropped =>
    exact bounded.keep rfl rfl rfl rfl rfl rfl le_rfl entered standing
  | slept address on | awaited on =>
    exact bounded.carry rfl rfl rfl rfl le_rfl (fun _ => .inl (front on)) (by simp) (by simp)
  | refused n on dead =>
    have none : int32 n ≤ 0 := by
      by_contra positive
      have alive := (sparing p on (by omega)).1
      rw [dead] at alive
      cases alive
    exact .spent bounded.total none
  | dozed n on alive =>
    exact dozed_bounded bounded.total (fun positive => (sparing p on positive).2)
      (fun placed => (standing placed).1 rfl)
  | ticked user => exact absurd rfl (noTick user)
  | yielded user => exact absurd rfl (noTick user)
  | roused chan notTicks =>
    by_cases woken : (s.proc p).state = .sleeping ∧ (s.proc p).chan = some chan
    · have idle := sparing p woken.1 woken.2
      have elsewhere : (s.proc p).chan ≠ some .ticks := by simpa [woken.2] using notTicks
      unfold Sched.woken
      rw [if_pos woken, if_neg (by simpa using notTicks)]
      exact bounded.carry rfl rfl rfl rfl (spare_reset (ranged p) idle rfl rfl rfl)
        (fun _ => .inr ⟨woken.1, elsewhere⟩) (by simp) (by simp)
    · have same : Sched.woken (some chan) s.ticks (s.proc p) = s.proc p := by
        unfold Sched.woken
        rw [if_neg woken]
      rw [same] at standing ⊢
      exact bounded.keep rfl rfl rfl rfl rfl rfl le_rfl entered standing
  | passed q on y pass =>
    obtain ⟨parent, _, rfl | ⟨asleep, listening, rfl⟩⟩ := pass
    · exact bounded.keep rfl rfl rfl rfl rfl rfl le_rfl entered standing
    · have idle := sparing p q on asleep listening
      have elsewhere : (s.proc p).chan ≠ some .ticks := by
        rcases listening with parents | ⟨heirs, _⟩
        · rw [parents]
          exact Sched.proc_not_ticks _
        · rw [heirs]
          exact Sched.proc_not_ticks _
      exact bounded.carry rfl rfl rfl rfl (spare_reset (ranged p) idle rfl rfl rfl)
        (fun _ => .inr ⟨asleep, elsewhere⟩) (by simp) (by simp)
  | exited on parent =>
    exact bounded.carry rfl rfl rfl rfl le_rfl (fun _ => .inl (front on)) (by simp) (by simp)
  | killed pid found =>
    by_cases asleep : (s.proc p).state = .sleeping
    · have absent : ¬ listed' := unlisted ⟨found, asleep⟩
      exact bounded.carry rfl rfl rfl rfl le_rfl (by simp [absent, asleep]) (by simp [asleep])
        (by simp [asleep])
    · rw [if_neg asleep] at standing ⊢
      exact bounded.keep rfl rfl rfl rfl rfl rfl le_rfl entered standing
  | reaped | failed =>
    have absent : ¬ listed' := fun placed => (standing placed).2.2 rfl
    exact bounded.carry rfl rfl rfl rfl le_rfl (by simp [absent]) (by simp) (by simp)
  | sliced pid slice found positive =>
    have unspent : spare { s.proc p with timeslice := int32 slice } ≤ spare (s.proc p) :=
      spare_sliced (int32 slice) (sparing p found) rfl rfl rfl
    exact bounded.keep rfl rfl rfl rfl rfl rfl unspent entered standing
  | taken _ _ unused =>
    have start := recycled unused
    exact .spent (by simpa [Sched.allocated] using start) (by simp [Sched.allocated])
  | born q slice unfinished embryo =>
    have grant := bounded.embryo embryo
    refine ⟨bounded.total, fun _ => ?_, by simp, by simp⟩
    unfold spare
    dsimp only
    omega
  | dispatched held head ready budget =>
    have member : p ∈ nodes := List.mem_of_mem_head? (queued.represents.head_eq.symm.trans head)
    have spends := spare_charged (ranged p) budget
    have bound := bounded.ready (.inl member)
    have slept : (Sched.charged (s.proc p)).sleepticks = (s.proc p).sleepticks := rfl
    refine ⟨by omega, fun _ => by omega, ?_, ?_⟩
    · intro embryo
      cases embryo
    · intro asleep
      cases asleep
  | rotated => exact .spent bounded.total le_rfl

/-! ## Steps and runs -/

/-- What is carried along a run for one process. -/
structure Compensated (k c : Nat) (p : Slot) (s : Sched) : Prop where
  sound : Sound s
  ranged : ∀ q, Ranged (s.proc q)
  bounded : Bounded k c s.ticks (p ∈ s.runQueue) (s.proc p)

/-- A process that is killed in its sleep does not enter the queue. -/
theorem killed_unqueued {s t : Sched} {nodes after : List Slot} {action : Action} {p : Slot}
    (queued : Queued s nodes) (taken : Step s action t) (done : Queued t after)
    (slain : Killed s action p) : p ∉ after := by
  cases taken with
  | kill pid =>
    have links : (s.kill (int32 pid)).queue = s.queue := by
      rcases Sched.kill_cases s (int32 pid) with result | ⟨_, _, result⟩
      · rw [result]
      · rw [result, Sched.set_queue]
    have same : after = nodes := by
      rw [← done.runQueue_eq, ← queued.runQueue_eq, Sched.runQueue, Sched.runQueue, links]
    rw [same]
    exact fun member => queued.awake p member slain.2
  | _ => exact slain.elim

/-- A timer interrupt keeps the bound of a process. -/
theorem timer_bounded {k c : Nat} {s t : Sched} {nodes after : List Slot} {user : Bool} {p : Slot}
    (queued : Queued s nodes) (ranged : Ranged (s.proc p))
    (bounded : Bounded k c s.ticks (p ∈ nodes) (s.proc p)) (taken : Step s (.timer user) t)
    (done : Queued t after)
    (entered : p ∈ after → p ∈ nodes ∨ (s.proc p).state = .sleeping ∨ (s.proc p).state = .embryo) :
    Bounded k c t.ticks (p ∈ after) (t.proc p) := by
  have standing : p ∈ after → _ := done.standing
  cases taken with
  | tick =>
    have ticks : s.tick.ticks = (s.ticks + 1) % 2 ^ 32 := s.tick_wakes.ticks
    have record := s.tick_wakes.proc p
    rw [record] at standing
    rw [ticks, record]
    exact bounded.tick ranged entered fun placed => ⟨(standing placed).1, (standing placed).2.1⟩
  | yield _ q on =>
    have ticks : (s.tick.yield q).ticks = (s.ticks + 1) % 2 ^ 32 := s.tick_wakes.ticks
    have record : s.tick.proc p = Sched.woken (some .ticks) ((s.ticks + 1) % 2 ^ 32) (s.proc p) :=
      s.tick_wakes.proc p
    rw [ticks]
    by_cases equal : p = q
    · subst equal
      have running : (s.proc p).state = .running := queued.on_running on
      have member : p ∈ nodes := List.mem_of_mem_head? (queued.front p on)
      have same : s.tick.proc p = s.proc p := by
        rw [record, Sched.woken, if_neg (by simp [running])]
      simp only [Sched.yield, Sched.set_proc, if_true, same]
      exact ⟨bounded.total, fun _ => bounded.ready (.inl member), by simp, by simp⟩
    · simp only [Sched.yield, Sched.set_proc, if_neg equal, record] at standing ⊢
      exact bounded.tick ranged entered fun placed => ⟨(standing placed).1, (standing placed).2.1⟩

/-- A sparing step keeps the bound of a process, unless its slot is recycled. -/
theorem step_compensated {k c : Nat} {p : Slot} {s t : Sched} {action : Action}
    (compensated : Compensated k c p s) (sparing : Sparing s action)
    (recycled : (s.proc p).state = .unused → k ≤ c) (moved : step s action = some t) :
    Compensated k c p t := by
  obtain ⟨⟨⟨nodes, queued⟩, forks⟩, ranged, bounded⟩ := compensated
  have taken := step_cases moved
  obtain ⟨after, done, shift, _⟩ := step_queued queued forks taken
  have changed := step_change queued forks taken
  refine ⟨step_sound ⟨⟨nodes, queued⟩, forks⟩ moved, fun q => change_ranged ranged (changed q), ?_⟩
  rw [queued.runQueue_eq] at bounded
  rw [done.runQueue_eq]
  by_cases tick : ∃ user, action = .timer user
  · obtain ⟨user, rfl⟩ := tick
    exact timer_bounded queued (ranged p) bounded taken done shift.entered
  · have noTick : ∀ user, action ≠ .timer user := fun user same => tick ⟨user, same⟩
    have ticks : t.ticks = s.ticks := (step_counters taken).2.resolve_left tick
    rw [ticks]
    exact change_bounded queued ranged bounded sparing recycled noTick (changed p) shift.entered
      done.standing (killed_unqueued queued taken done)

/-- A call of `sys_sleep` starts from what has been slept and compensated so far,
whatever is left of an earlier grant. -/
theorem sysSleep_compensated {k c : Nat} {p : Slot} {n : Int} {s t : Sched} (sound : Sound s)
    (ranged : ∀ q, Ranged (s.proc q))
    (total : (s.proc p).compticks + k ≤ (s.proc p).sleepticks + c) (on : s.cpu = .running p)
    (sparing : Sparing s (.sysSleep n)) (moved : step s (.sysSleep n) = some t)
    (asleep : (t.proc p).state = .sleeping) : Compensated k c p t := by
  have later := step_sound sound moved
  obtain ⟨⟨nodes, queued⟩, forks⟩ := sound
  have taken := step_cases moved
  have changed := step_change queued forks taken
  have running : (s.proc p).state = .running := queued.on_running on
  refine ⟨later, fun q => change_ranged ranged (changed q), ?_⟩
  obtain ⟨⟨after, done⟩, _⟩ := later
  rw [done.runQueue_eq, (step_counters taken).2.resolve_left (by simp)]
  have absent : p ∉ after := fun member => done.awake p member asleep
  have record := changed p
  generalize t.proc p = y at asleep record
  cases record with
  | same => exact absurd (running.symm.trans asleep) (by simp)
  | refused => exact absurd (running.symm.trans asleep) (by simp)
  | dozed _ _ alive => exact dozed_bounded total (fun positive => (sparing p on positive).2) absent
  | taken _ forks => exact forks.elim
  | forked _ _ _ forks => exact forks.elim
  | dropped _ _ ends => simp at ends

/-- Outside `sys_sleep` no tick is counted as slept. -/
theorem change_rested {s : Sched} {p : Slot} {action : Action} {y : Proc}
    (used : (s.proc p).state ≠ .unused)
    (silent : ∀ m, action = .sysSleep m → s.cpu ≠ .running p)
    (rested : ¬ ((s.proc p).state = .sleeping ∧ (s.proc p).chan = some .ticks))
    (changed : Change s p action y) :
    ¬ (y.state = .sleeping ∧ y.chan = some .ticks) ∧ y.sleepticks = (s.proc p).sleepticks := by
  cases changed with
  | same | sliced | forked | dropped | rotated => exact ⟨rested, rfl⟩
  | slept | awaited | yielded | exited | reaped | failed | born => exact ⟨by simp, rfl⟩
  | dispatched => exact ⟨by simp [Sched.charged], rfl⟩
  | refused n on => exact absurd on (silent n rfl)
  | dozed n on => exact absurd on (silent n rfl)
  | ticked =>
    unfold Sched.woken
    rw [if_neg rested]
    exact ⟨rested, rfl⟩
  | roused chan notTicks =>
    unfold Sched.woken
    split
    · rw [if_neg (by simpa using notTicks)]
      exact ⟨by simp, rfl⟩
    · exact ⟨rested, rfl⟩
  | passed q on y pass =>
    obtain ⟨_, _, rfl | ⟨_, _, rfl⟩⟩ := pass
    · exact ⟨rested, rfl⟩
    · exact ⟨by simp, rfl⟩
  | killed =>
    refine ⟨?_, rfl⟩
    rintro ⟨asleep, listening⟩
    split at asleep
    · cases asleep
    · rename_i awake
      exact awake asleep
  | taken _ _ unused => exact absurd unused used

/-- Compensation is never taken back while the slot is in use. -/
theorem change_compticks {s : Sched} {p : Slot} {action : Action} {y : Proc}
    (used : (s.proc p).state ≠ .unused) (changed : Change s p action y) :
    (s.proc p).compticks ≤ y.compticks := by
  cases changed with
  | ticked | roused =>
    unfold Sched.woken
    split_ifs <;> exact le_rfl
  | passed q on y pass => obtain ⟨_, _, rfl | ⟨_, _, rfl⟩⟩ := pass <;> exact le_rfl
  | dispatched =>
    simp only [Sched.charged]
    split <;> omega
  | taken _ _ unused => exact absurd unused used
  | _ => exact le_rfl

/-- A run in which `p` calls `sys_sleep`, sleeps until a timer interrupt wakes it,
and has then not called `sys_sleep` again. -/
structure Nap (p : Slot) (actions : List Action) (t : Sched) where
  front : List Action
  n : Int
  nap : List Action
  user : Bool
  rest : List Action
  called : Sched
  asleep : Sched
  due : Sched
  woken : Sched
  parts : actions = front ++ .sysSleep n :: (nap ++ .timer user :: rest)
  reached : run userinit front = some called
  on : called.cpu = .running p
  nonneg : 0 ≤ int32 n
  calls : step called (.sysSleep n) = some asleep
  sleeps : run asleep nap = some due
  sleeping : Runs.Along step (fun u => (u.proc p).state = .sleeping) asleep nap
  wakes : step due (.timer user) = some woken
  awake : (woken.proc p).state = .runnable
  rests : run woken rest = some t
  lives : Runs.Along step (fun u => (u.proc p).state ≠ .unused) woken rest
  silent : Runs.Meets step (fun u action => ∀ m, action = .sysSleep m → u.cpu ≠ .running p) woken rest

/-- The ticks that the process slept in its call. -/
def Nap.slept {p : Slot} {actions : List Action} {t : Sched} (nap : Nap p actions t) : Nat :=
  (nap.woken.proc p).sleepticks - (nap.called.proc p).sleepticks

/-- The parts of a nap make up a run. -/
theorem Nap.completed {p : Slot} {actions : List Action} {t : Sched} (nap : Nap p actions t) :
    run userinit actions = some t := by
  have back : run nap.due (.timer nap.user :: nap.rest) = some t := by
    simp only [run, Runs.run, nap.wakes, Option.bind_some]
    exact nap.rests
  have middle : run nap.called (.sysSleep nap.n :: (nap.nap ++ .timer nap.user :: nap.rest)) = some t := by
    simp only [run, Runs.run, nap.calls, Option.bind_some]
    exact Runs.run_append nap.sleeps back
  rw [nap.parts]
  exact Runs.run_append nap.reached middle

theorem userinit_compensated (p : Slot) : Compensated 0 0 p userinit := by
  refine ⟨userinit_sound, ?_, ?_⟩
  · intro q
    have fields : ∀ q, 0 ≤ (userinit.proc q).timeslice ∧ (userinit.proc q).activesleepticks = 0 ∧
        (userinit.proc q).sleepdeadline = 0 ∧ (userinit.proc q).forking = none := by decide
    obtain ⟨slice, grant, deadline, forking⟩ := fields q
    exact ⟨slice, by rw [grant]; decide, by rw [deadline]; decide, by simp [forking]⟩
  · have fields : ∀ q, (userinit.proc q).compticks = 0 ∧ (userinit.proc q).activesleepticks = 0 := by
      decide
    obtain ⟨compticks, grant⟩ := fields p
    exact .spent (by rw [compticks]; omega) (by rw [grant])

/-- The bound holds at the end of every sparing run, relative to any starting point
in which it holds, if the slot is not recycled or the starting point is zero. -/
theorem run_compensated {k c : Nat} {p : Slot} {s t : Sched} {actions : List Action}
    (compensated : Compensated k c p s)
    (sparing : Runs.Meets step
      (fun u action => Sparing u action ∧ ((u.proc p).state = .unused → k ≤ c)) s actions)
    (completed : run s actions = some t) : Compensated k c p t :=
  Runs.run_invariant
    (fun _ _ _ guard compensated moved => step_compensated compensated guard.1 guard.2 moved)
    compensated sparing completed

/-- A step that leaves the slot in use takes no compensation back. -/
theorem step_compticks {s t : Sched} {p : Slot} {action : Action} (sound : Sound s)
    (used : (s.proc p).state ≠ .unused) (moved : step s action = some t) :
    (s.proc p).compticks ≤ (t.proc p).compticks := by
  obtain ⟨⟨nodes, queued⟩, forks⟩ := sound
  exact change_compticks used (step_change queued forks (step_cases moved) p)

/-- While a process sleeps its compensation stays. -/
theorem sleeping_compticks {s t : Sched} {p : Slot} {actions : List Action} (sound : Sound s)
    (sleeping : Runs.Along step (fun u => (u.proc p).state = .sleeping) s actions)
    (completed : run s actions = some t) : (s.proc p).compticks ≤ (t.proc p).compticks := by
  have kept : ∀ u action v, (u.proc p).state = .sleeping →
      Sound u ∧ (s.proc p).compticks ≤ (u.proc p).compticks → step u action = some v →
      Sound v ∧ (s.proc p).compticks ≤ (v.proc p).compticks := by
    intro u action v asleep ⟨sound, least⟩ moved
    exact ⟨step_sound sound moved, least.trans (step_compticks sound (by simp [asleep]) moved)⟩
  exact (Runs.run_invariant kept ⟨sound, le_rfl⟩ sleeping.meets completed).2

/-- Between a sleep and the next call of `sys_sleep` no tick is counted as slept. -/
theorem rested_sleepticks {s t : Sched} {p : Slot} {actions : List Action} (sound : Sound s)
    (awake : (s.proc p).state = .runnable)
    (lives : Runs.Along step (fun u => (u.proc p).state ≠ .unused) s actions)
    (silent : Runs.Meets step
      (fun u action => ∀ m, action = .sysSleep m → u.cpu ≠ .running p) s actions)
    (completed : run s actions = some t) : (t.proc p).sleepticks = (s.proc p).sleepticks := by
  have kept : ∀ u action v,
      ((u.proc p).state ≠ .unused ∧ ∀ m, action = .sysSleep m → u.cpu ≠ .running p) →
      (Sound u ∧ ¬ ((u.proc p).state = .sleeping ∧ (u.proc p).chan = some .ticks) ∧
        (u.proc p).sleepticks = (s.proc p).sleepticks) → step u action = some v →
      (Sound v ∧ ¬ ((v.proc p).state = .sleeping ∧ (v.proc p).chan = some .ticks) ∧
        (v.proc p).sleepticks = (s.proc p).sleepticks) := by
    intro u action v ⟨used, silent⟩ ⟨sound, rested, same⟩ moved
    refine ⟨step_sound sound moved, ?_⟩
    obtain ⟨⟨nodes, queued⟩, forks⟩ := sound
    obtain ⟨still, kept⟩ := change_rested used silent rested
      (step_change queued forks (step_cases moved) p)
    exact ⟨still, kept.trans same⟩
  exact (Runs.run_invariant kept ⟨sound, by simp [awake], rfl⟩ (lives.meets.and silent) completed).2.2

/-- The compensation after a sleep is at most the ticks slept in it. -/
theorem Nap.bounded {p : Slot} {actions : List Action} {t : Sched} (nap : Nap p actions t)
    (sparing : Runs.Meets step Sparing userinit actions) :
    (t.proc p).compticks ≤ (nap.woken.proc p).compticks + nap.slept := by
  obtain ⟨early, called, late⟩ := Runs.meets_append nap.reached (nap.parts ▸ sparing)
  obtain ⟨napping, tick, resting⟩ := Runs.meets_append nap.sleeps (late _ nap.calls)
  have base : Compensated 0 0 p nap.called := run_compensated (userinit_compensated p)
    (early.weaken fun _ _ sparing => ⟨sparing, fun _ => le_rfl⟩) nap.reached
  obtain ⟨down, still⟩ := nap.sleeping.ends nap.sleeps
  have asleep : Compensated (nap.called.proc p).sleepticks (nap.called.proc p).compticks p
      nap.asleep :=
    sysSleep_compensated base.sound base.ranged (Nat.add_comm _ _).le nap.on called nap.calls down
  have due := run_compensated asleep ((napping.and nap.sleeping.meets).weaken
    fun _ _ guard => ⟨guard.1, fun unused => by simp [guard.2] at unused⟩) nap.sleeps
  have woken := step_compensated due tick (fun unused => by simp [still] at unused) nap.wakes
  have ends := run_compensated woken (((resting _ nap.wakes).and nap.lives.meets).weaken
    fun _ _ guard => ⟨guard.1, fun unused => absurd unused guard.2⟩) nap.rests
  have total := ends.bounded.total
  have rested := rested_sleepticks woken.sound nap.awake nap.lives nap.silent nap.rests
  have used : (nap.called.proc p).state ≠ .unused := by
    obtain ⟨⟨nodes, queued⟩, _⟩ := base.sound
    simp [queued.on_running nap.on]
  have first := step_compticks base.sound used nap.calls
  have second := sleeping_compticks asleep.sound nap.sleeping nap.sleeps
  have stays : (nap.due.proc p).state ≠ .unused := by simp [still]
  have third := step_compticks due.sound stays nap.wakes
  unfold Nap.slept
  omega

/-- In every sparing run, compensation never exceeds sleep, and between the wake
from a call of `sys_sleep` and the next call it rises by at most the ticks slept
in that call. -/
theorem compensation_within_sleep {actions : List Action} {s : Sched}
    (completed : run userinit actions = some s)
    (sparing : Runs.Meets step Sparing userinit actions) :
    (∀ p, (s.proc p).compticks ≤ (s.proc p).sleepticks) ∧
      ∀ p (nap : Nap p actions s),
        (s.proc p).compticks ≤ (nap.woken.proc p).compticks + nap.slept := by
  refine ⟨fun p => ?_, fun p nap => nap.bounded sparing⟩
  have guarded := sparing.weaken fun u action met =>
    (⟨met, fun _ => le_rfl⟩ : Sparing u action ∧ ((u.proc p).state = .unused → 0 ≤ 0))
  exact (run_compensated (userinit_compensated p) guarded completed).bounded.total

/-- The first process calls `sys_sleep` for two ticks and is woken by the second. -/
def firstCalled : Sched := Runs.final step userinit [.load, .acquire, .iterate]

def firstAsleep : Sched := Runs.final step firstCalled [.sysSleep 2]

def firstDue : Sched := Runs.final step firstAsleep [.iterate, .timer true]

def firstWoken : Sched := Runs.final step firstDue [.timer true]

/-- A run that goes on from there has the shape that the bound speaks of. -/
def firstNap {rest : List Action} {t : Sched} (rests : run firstWoken rest = some t)
    (lives : Runs.Along step (fun u => (u.proc firstSlot).state ≠ .unused) firstWoken rest)
    (silent : Runs.Meets step
      (fun u action => ∀ m, action = .sysSleep m → u.cpu ≠ .running firstSlot) firstWoken rest) :
    Nap firstSlot ([.load, .acquire, .iterate] ++ .sysSleep 2 ::
      ([.iterate, .timer true] ++ .timer true :: rest)) t where
  front := [.load, .acquire, .iterate]
  n := 2
  nap := [.iterate, .timer true]
  user := true
  rest := rest
  called := firstCalled
  asleep := firstAsleep
  due := firstDue
  woken := firstWoken
  parts := rfl
  reached := Runs.run_final (by decide +kernel)
  on := by decide +kernel
  nonneg := by decide
  calls := Runs.step_final (by decide +kernel)
  sleeps := Runs.run_final (by decide +kernel)
  sleeping := by decide +kernel
  wakes := Runs.step_final (by decide +kernel)
  awake := by decide +kernel
  rests := rests
  lives := lives
  silent := silent

/-- The first process spends its grant of two ticks. -/
theorem compensation_within_sleep_first :
    ∃ s, run userinit ([.load, .acquire, .iterate] ++ .sysSleep 2 ::
        ([.iterate, .timer true] ++ .timer true ::
          [.load, .acquire, .iterate, .timer true, .iterate])) = some s ∧
      (s.proc firstSlot).compticks ≤ (s.proc firstSlot).sleepticks ∧
      (s.proc firstSlot).compticks ≤ (firstWoken.proc firstSlot).compticks +
        ((firstWoken.proc firstSlot).sleepticks - (firstCalled.proc firstSlot).sleepticks) := by
  have rests : run firstWoken [.load, .acquire, .iterate, .timer true, .iterate] = some _ :=
    Runs.run_final (by decide +kernel)
  let nap := firstNap rests (by decide +kernel) (by simp [Runs.Meets])
  have bound := compensation_within_sleep nap.completed (by decide +kernel)
  exact ⟨_, nap.completed, bound.1 firstSlot, bound.2 firstSlot nap⟩

/-- A process that is compensated for two ticks of sleep blocks on another channel
and is compensated for them once more. -/
theorem grant_spent_twice :
    ¬ ∀ (actions : List Action) (s : Sched), run userinit actions = some s →
        (∀ p, (s.proc p).compticks ≤ (s.proc p).sleepticks) ∧
          ∀ p (nap : Nap p actions s),
            (s.proc p).compticks ≤ (nap.woken.proc p).compticks + nap.slept := by
  intro claim
  have rests : run firstWoken [.load, .acquire, .iterate, .timer true, .iterate, .timer true, .iterate,
      .sleep 0, .iterate, .wakeup (.other 0), .load, .acquire, .iterate, .timer true, .iterate] =
      some _ := Runs.run_final (by decide +kernel)
  let nap := firstNap rests (by decide +kernel) (by simp [Runs.Meets])
  have bound : (Runs.final step firstWoken [.load, .acquire, .iterate, .timer true, .iterate,
      .timer true, .iterate, .sleep 0, .iterate, .wakeup (.other 0), .load, .acquire, .iterate,
      .timer true, .iterate] |>.proc firstSlot).compticks ≤ (firstWoken.proc firstSlot).compticks +
      ((firstWoken.proc firstSlot).sleepticks - (firstCalled.proc firstSlot).sleepticks) :=
    (claim _ _ nap.completed).2 firstSlot nap
  revert bound
  decide +kernel

end Cs537.Scheduler
