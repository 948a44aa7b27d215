import Cs537.Scheduler.TurnBudget

/-!
# The first record of a process

A process gets a slot that others have used. `allocproc` clears the statistics and the end of
`fork2` assigns the slice, so the scheduling state of a new process does not depend on the past
of its slot, with one exception. The flag `killed` is cleared by `wait` alone, when the last
process of the slot is reaped, and `kill` looks for a pid only: it finds slots that are not in
use. A process whose slot was found by `kill` before it came to life is born killed.
-/

namespace Cs537.Scheduler

open LinkedQueue

/-- The part of a record that scheduling depends on. -/
structure Account where
  timeslice : Int
  compticks : Nat
  schedticks : Nat
  sleepticks : Nat
  switches : Nat
  sleepdeadline : Nat
  activeticks : Int
  activesleepticks : Int
  killed : Bool
deriving DecidableEq

/-- The account of a process. -/
def Proc.account (x : Proc) : Account where
  timeslice := x.timeslice
  compticks := x.compticks
  schedticks := x.schedticks
  sleepticks := x.sleepticks
  switches := x.switches
  sleepdeadline := x.sleepdeadline
  activeticks := x.activeticks
  activesleepticks := x.activesleepticks
  killed := x.killed

/-- The account that a new process is to have. -/
def fresh (slice : Int) : Account := ⟨slice, 0, 0, 0, 0, 0, 0, 0, false⟩

/-- The process in slot `np` was created by the step from `s` to `t`: its account is fresh, and
it is queued once, at the tail. -/
structure Newborn (s t : Sched) (np : Slot) (slice : Int) : Prop where
  account : (t.proc np).account = fresh slice
  queued : t.runQueue = s.runQueue ++ [np]
  once : t.runQueue.count np = 1

/-- The slot has no process that came to life. -/
def Unborn (p : Slot) (s : Sched) : Prop := (s.proc p).state = .unused ∨ (s.proc p).state = .embryo

instance (p : Slot) (s : Sched) : Decidable (Unborn p s) := inferInstanceAs (Decidable (_ ∨ _))

/-- The action is a `kill` that finds the slot, which has no process that came to life. -/
def KilledUnborn (p : Slot) (s : Sched) : Action → Prop
  | .kill pid => s.findSlot (fun x => x.pid = int32 pid) = some p ∧ Unborn p s
  | _ => False

instance (p : Slot) (s : Sched) (action : Action) : Decidable (KilledUnborn p s action) :=
  match action with
  | .kill _ => inferInstanceAs (Decidable (_ ∧ _))
  | .load | .acquire | .iterate | .timer _ | .wakeup _ | .sleep _ | .sysSleep _ | .exit | .wait
  | .setslice _ _ | .fork2 _ | .fork | .forkFail | .forkDone => isFalse id

/-- In this history a `kill` has found the slot since it last had a process. -/
def Marked (p : Slot) (history : List Action) : Prop :=
  Runs.Since step (KilledUnborn p) (Unborn p) userinit history

instance (p : Slot) (history : List Action) : Decidable (Marked p history) :=
  inferInstanceAs (Decidable (Runs.Since _ _ _ _ _))

section Birth

variable {s t : Sched} {p : Slot} {action : Action}

/-- As long as a slot has no process that came to life, no action but `kill` changes its flag;
the slot of a process that was reaped starts with the flag cleared. -/
theorem change_mark {y : Proc} (unborn : y.state = .unused ∨ y.state = .embryo)
    (plain : ∀ pid, action ≠ .kill pid) (changed : Change s p action y) :
    y.killed = true ↔ (s.proc p).killed = true ∧ Unborn p s := by
  unfold Unborn
  cases changed with
  | same | refused | sliced | dropped | forked => exact (and_iff_left unborn).symm
  | killed pid => exact absurd rfl (plain pid)
  | reaped exited => simp [exited]
  | taken _ _ unused => simp [Sched.allocated, unused]
  | failed embryo => simp [embryo]
  | ticked | roused =>
    revert unborn
    unfold Sched.woken
    split_ifs <;> simp_all
  | passed q on y pass =>
    obtain ⟨_, _, rfl | ⟨_, _, rfl⟩⟩ := pass
    · exact (and_iff_left unborn).symm
    · simp at unborn
  | _ => simp_all [Sched.charged]

/-- `kill` sets the flag of the slot that it finds. -/
theorem kill_mark (pid : Int) (unborn : Unborn p (s.kill pid)) :
    ((s.kill pid).proc p).killed = true ↔
      (s.findSlot (fun x => x.pid = pid) = some p ∧ Unborn p s) ∨
        (s.proc p).killed = true ∧ Unborn p s := by
  unfold Unborn at *
  cases found : s.findSlot fun x => x.pid = pid with
  | none =>
    rw [Sched.kill, found] at unborn ⊢
    simp [unborn]
  | some q =>
    rw [Sched.kill, found] at unborn ⊢
    by_cases same : q = p
    · subst same
      simp only [Sched.set_proc, if_true] at unborn ⊢
      have before : (s.proc q).state = .unused ∨ (s.proc q).state = .embryo := by
        split at unborn <;> simp_all
      simp [before]
    · have other : p ≠ q := Ne.symm same
      simp only [Sched.set_proc, if_neg other] at unborn ⊢
      simp [unborn, same]

/-- While a slot has no process that came to life, its flag is set by the kills that find it and
kept by everything else. -/
theorem step_mark (sound : Sound s) (moved : Step s action t) (unborn : Unborn p t) :
    (t.proc p).killed = true ↔
      KilledUnborn p s action ∨ (s.proc p).killed = true ∧ Unborn p s := by
  obtain ⟨⟨nodes, queued⟩, forks⟩ := sound
  by_cases kills : ∃ pid, action = .kill pid
  · obtain ⟨pid, rfl⟩ := kills
    cases moved with
    | kill _ q on => exact kill_mark (int32 pid) unborn
  · have plain : ∀ pid, action ≠ .kill pid := fun pid same => kills ⟨pid, same⟩
    have nothing : ¬ KilledUnborn p s action := by
      cases action with
      | kill pid => exact absurd rfl (plain pid)
      | _ => exact id
    rw [change_mark unborn plain (step_change queued forks moved p), or_iff_right nothing]

/-- The flag of a slot without a process that came to life is set exactly if a `kill` found the
slot since it last had one. -/
theorem run_marked {history : List Action} (completed : run userinit history = some s)
    (unborn : Unborn p s) : (s.proc p).killed = true ↔ Marked p history := by
  have start : ¬ ((userinit.proc p).killed = true ∧ Runs.Along step (Unborn p) userinit history) := by
    have clear : ∀ q, (userinit.proc q).killed = false := by decide
    simp [clear p]
  have kept : ∀ s action t, Sound s → step s action = some t → Sound t :=
    fun _ _ _ sound moved => step_sound sound moved
  have raised : ∀ s action t, Sound s → step s action = some t → Unborn p t →
      ((t.proc p).killed = true ↔ KilledUnborn p s action ∨ (s.proc p).killed = true ∧ Unborn p s) :=
    fun _ _ _ sound moved after => step_mark sound (step_cases moved) after
  have since := Runs.run_since kept raised userinit_sound completed unborn
  rw [since, or_iff_left start]
  rfl

/-- Nothing has been charged to the process. -/
def Blank (x : Proc) : Prop := x.account = { fresh x.timeslice with killed := x.killed }

/-- An embryo is blank: it became one by `allocproc`, and nothing is charged to it. -/
theorem change_blank {nodes : List Slot} {y : Proc} (queued : Queued s nodes)
    (blank : (s.proc p).state = .embryo → Blank (s.proc p)) (embryo : y.state = .embryo)
    (changed : Change s p action y) : Blank y := by
  unfold Blank Proc.account fresh at *
  cases changed with
  | refused n on =>
    have running : (s.proc p).state = .embryo := embryo
    rw [queued.on_running on] at running
    cases running
  | taken => rfl
  | ticked | roused =>
    revert embryo
    unfold Sched.woken
    split_ifs <;> simp_all
  | passed q on y pass =>
    obtain ⟨_, _, rfl | ⟨_, _, rfl⟩⟩ := pass <;> simp_all
  | killed pid found =>
    split at embryo <;> simp_all
  | _ => simp_all [Sched.charged]

/-- Embryos are blank in every reachable state. -/
theorem reachable_blank (reachable : Reachable s) (embryo : (s.proc p).state = .embryo) :
    Blank (s.proc p) := by
  obtain ⟨actions, completed⟩ := reachable
  have kept : ∀ s action t, True → (Sound s ∧ ∀ q, (s.proc q).state = .embryo → Blank (s.proc q)) →
      step s action = some t → Sound t ∧ ∀ q, (t.proc q).state = .embryo → Blank (t.proc q) := by
    intro s action t _ ⟨sound, blank⟩ moved
    obtain ⟨⟨nodes, queued⟩, forks⟩ := id sound
    exact ⟨step_sound sound moved, fun q embryo =>
      change_blank queued (blank q) embryo (step_change queued forks (step_cases moved) q)⟩
  have start : ∀ q, (userinit.proc q).state ≠ .embryo := by decide
  have inv := Runs.run_invariant kept ⟨userinit_sound, fun q embryo => absurd embryo (start q)⟩
    (Runs.Meets.unguarded _ _) completed
  exact inv.2 p embryo

/-- The child of a fork that finishes is queued once at the tail, and its account is fresh but
for the flag that its slot had. -/
theorem forkDone_born (reachable : Reachable s) {q : Slot} {slice : Int}
    (forker : s.forker = some (q, p, slice)) (done : step s .forkDone = some t) :
    (t.proc p).account = { fresh slice with killed := (s.proc p).killed } ∧
      t.runQueue = s.runQueue ++ [p] ∧ t.runQueue.count p = 1 := by
  obtain ⟨⟨nodes, queued⟩, forks⟩ := reachable_sound reachable
  obtain ⟨on, forking⟩ := forker_some forker
  have embryo := forks.embryo q p slice forking
  have blank := reachable_blank reachable embryo
  have finished : s.forkDone q p slice = t := by
    simpa only [step, forker, Option.map_some, Option.some.injEq] using done
  have after := queued.forkDone on embryo slice
  rw [finished] at after
  have different : p ≠ q := by
    rintro rfl
    rw [queued.on_running on] at embryo
    cases embryo
  have born : t.proc p = { s.proc p with parent := some q, state := .runnable, timeslice := slice } := by
    simp only [← finished, Sched.forkDone, Sched.set_proc, Sched.push_proc, if_neg different, if_true]
  refine ⟨?_, ?_, ?_⟩
  · rw [born]
    unfold Blank Proc.account fresh at *
    simp_all
  · rw [after.runQueue_eq, queued.runQueue_eq]
  · rw [after.runQueue_eq]
    exact List.count_eq_one_of_mem after.represents.distinct (by simp)

/-- A process is born as it should be exactly if its slot is not marked. -/
theorem newborn_iff {history : List Action} (completed : run userinit history = some s) {q : Slot}
    {slice : Int} (forker : s.forker = some (q, p, slice)) (done : step s .forkDone = some t) :
    Newborn s t p slice ↔ ¬ Marked p history := by
  have reachable : Reachable s := ⟨history, completed⟩
  have embryo := (reachable_sound reachable).2.embryo q p slice (forker_some forker).2
  have flag := run_marked completed (.inr embryo)
  obtain ⟨account, queued, once⟩ := forkDone_born reachable forker done
  rw [← flag, Bool.not_eq_true]
  constructor
  · intro newborn
    have same := congrArg Account.killed (account.symm.trans newborn.account)
    exact same
  · intro clear
    rw [clear] at account
    exact ⟨account, queued, once⟩

end Birth

/-- Two processes created with the same slice in any two histories, by any parents, start with
the same fresh account, each queued once at the tail, exactly if neither history marks the slot
that it takes the process from: no `kill` has found it since it last had a process. -/
theorem newborns_alike_iff_unmarked {first second : List Action} {s t u v : Sched} {p q np nq : Slot}
    {slice : Int} (one : run userinit first = some s) (other : run userinit second = some u)
    (forker : s.forker = some (p, np, slice)) (otherForker : u.forker = some (q, nq, slice))
    (done : step s .forkDone = some t) (otherDone : step u .forkDone = some v) :
    (Newborn s t np slice ∧ Newborn u v nq slice ∧ (t.proc np).account = (v.proc nq).account) ↔
      ¬ Marked np first ∧ ¬ Marked nq second := by
  rw [← newborn_iff one forker done, ← newborn_iff other otherForker otherDone]
  constructor
  · exact fun alike => ⟨alike.1, alike.2.1⟩
  · exact fun born => ⟨born.1, born.2, born.1.account.trans born.2.account.symm⟩

/-- The second slot of the table. -/
def secondSlot : Slot := ⟨1, by decide⟩

/-- The first process is inside its first `fork2`. -/
def freshFork : Sched := Runs.final step userinit [.load, .acquire, .iterate, .fork2 1]

/-- The same after a fork of another slice has failed and `setslice` has found the slot. -/
def reusedFork : Sched := Runs.final step userinit
  [.load, .acquire, .iterate, .fork2 7, .forkFail, .setslice 2 9, .fork2 1]

/-- The same after `kill(0)` has found the slot. -/
def killedFork : Sched := Runs.final step userinit [.load, .acquire, .iterate, .kill 0, .fork2 1]

/-- A failed fork and a slice set on the unused slot leave no trace. -/
theorem newborns_alike_iff_unmarked_reused :
    Newborn freshFork (Runs.final step freshFork [.forkDone]) secondSlot 1 ∧
      Newborn reusedFork (Runs.final step reusedFork [.forkDone]) secondSlot 1 ∧
      ((Runs.final step freshFork [.forkDone]).proc secondSlot).account =
        ((Runs.final step reusedFork [.forkDone]).proc secondSlot).account := by
  have forker : freshFork.forker = some (firstSlot, secondSlot, 1) := by decide +kernel
  have again : reusedFork.forker = some (firstSlot, secondSlot, 1) := by decide +kernel
  refine (newborns_alike_iff_unmarked (Runs.run_final (by decide +kernel))
    (Runs.run_final (by decide +kernel)) forker again (Runs.step_final (by decide +kernel))
    (Runs.step_final (by decide +kernel))).mpr ⟨?_, ?_⟩
  · decide +kernel
  · decide +kernel

/-- The first process calls `kill(0)`, which finds the second slot, and its child is born
killed. -/
theorem newborn_killed :
    ¬ ∀ (first second : List Action) (s t u v : Sched) (p np nq : Slot) (slice : Int),
        run userinit first = some s → run userinit second = some u →
        s.forker = some (p, np, slice) → u.forker = some (p, nq, slice) → s.proc p = u.proc p →
        step s .forkDone = some t → step u .forkDone = some v →
        Newborn s t np slice ∧ Newborn u v nq slice ∧ (t.proc np).account = (v.proc nq).account := by
  intro claim
  have forker : freshFork.forker = some (firstSlot, secondSlot, 1) := by decide +kernel
  have killed : killedFork.forker = some (firstSlot, secondSlot, 1) := by decide +kernel
  have alike := claim _ _ _ _ _ _ _ _ _ _ (Runs.run_final (by decide +kernel))
    (Runs.run_final (by decide +kernel)) forker killed (by decide +kernel)
    (Runs.step_final (by decide +kernel)) (Runs.step_final (by decide +kernel))
  have different : ((Runs.final step freshFork [.forkDone]).proc secondSlot).account ≠
      ((Runs.final step killedFork [.forkDone]).proc secondSlot).account := by
    decide +kernel
  exact different alike.2.2

end Cs537.Scheduler
