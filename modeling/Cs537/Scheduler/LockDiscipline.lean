import Cs537.Scheduler.Locking
import Cs537.Scheduler.SliceAccess

/-!
# The lock discipline of the process table

Every function of the process table that is entered without `ptable.lock` takes it at most
twice, one after the other, and gives it back as often, whatever the table holds and wherever
a search in it ends. The one exception is `getslice` of a pid that no slot has.
-/

namespace Cs537.Scheduler

open Programs

namespace Kernel

/-- The processor does not hold the lock; `pushcli` is nested to this depth. -/
structure Free (depth : Int) (w : World) : Prop where
  held : w.held = false
  ncli : w.ncli = depth

/-- The processor holds the lock, which accounts for one more `pushcli`. -/
structure Locked (depth : Int) (w : World) : Prop where
  held : w.held = true
  ncli : w.ncli = depth + 1
  disabled : w.interrupts = false

/-- The table, the process and the others' tables are left alone. -/
structure Same (w after : World) : Prop where
  table : after.table = w.table
  curproc : after.curproc = w.curproc
  others : after.others = w.others

/-- The reason why a call may fail to return: others keep the lock, or never wake it. -/
def Waits (reason : Stop) : Prop := reason = .waiting

theorem waits : Waits .waiting := rfl

/-! ## Spin locks -/

section Spin

variable {w : World} {depth : Int} {stop : Stop → Prop}

@[simp] theorem ensures_panic {α : Type} {message : String} {post : α → World → Prop} :
    Ensures (panic message : Kernel α) w post stop ↔ stop (.panic message) := Iff.rfl

@[simp] theorem ensures_assign {change : Sched → Sched} {post : Unit → World → Prop} :
    Ensures (assign change) w post stop ↔ post () { w with table := change w.table } := Iff.rfl

/-- `pushcli` disables interrupts and counts. -/
theorem ensures_pushcli {post : Unit → World → Prop} : Ensures pushcli w post stop ↔ post () { w with
    interrupts := false
    intena := if w.ncli = 0 then w.interrupts else w.intena
    ncli := w.ncli + 1 } := by
  unfold pushcli mycpu
  by_cases outer : w.ncli = 0 <;> simp [outer]

/-- `popcli` counts back, and enables interrupts at the outermost level. -/
theorem ensures_popcli {post : Unit → World → Prop} (disabled : w.interrupts = false)
    (pushed : 1 ≤ w.ncli) : Ensures popcli w post stop ↔ post () { w with
      interrupts := decide (w.ncli = 1 ∧ w.intena = true)
      ncli := w.ncli - 1 } := by
  have nonneg : ¬ w.ncli < 1 := by omega
  have outer : w.ncli - 1 = 0 ↔ w.ncli = 1 := by omega
  unfold popcli mycpu
  by_cases enables : w.ncli = 1 ∧ w.intena = true
  · simp [disabled, enables]
  · simp [disabled, nonneg, outer, enables]

/-- Asking whether the lock is held changes nothing when interrupts are disabled. -/
theorem ensures_holding {post : Bool → World → Prop} (disabled : w.interrupts = false)
    (pushed : 1 ≤ w.ncli) : Ensures holding w post stop ↔ post w.held w := by
  have inner : w.ncli ≠ 0 := by omega
  have inner' : w.ncli + 1 ≠ 1 := by omega
  unfold holding
  simp only [ensures_bind, ensures_pushcli, ensures_get]
  rw [ensures_popcli rfl (by dsimp only; omega)]
  simp [inner, inner', ← disabled]

/-- `myproc` leaves the lock alone, and the depth. -/
theorem myproc_ensures (nonneg : 0 ≤ w.ncli) : Ensures myproc w
    (fun p after => p = w.curproc ∧ Same w after ∧ after.held = w.held ∧ after.ncli = w.ncli ∧
      (w.interrupts = false → after.interrupts = false)) stop := by
  unfold myproc mycpu
  simp only [ensures_bind, ensures_pushcli, ensures_get, ensures_ite, ensures_panic, ensures_pure,
    Bool.false_eq_true, if_false]
  rw [ensures_popcli rfl (by dsimp only; omega)]
  refine ⟨trivial, ⟨rfl, rfl, rfl⟩, rfl, by dsimp only; omega, ?_⟩
  intro disabled
  by_cases outer : w.ncli = 0 <;> simp [outer, disabled]

/-- The lock is obtained with the next table that the others leave behind. -/
theorem acquire_finds (free : Free depth w) (nonneg : 0 ≤ depth) {s : Sched} {rest : List Sched}
    (finds : w.others = s :: rest) : Ensures acquire w
      (fun _ after => Locked depth after ∧ after.curproc = w.curproc ∧ after.table = s ∧
        after.others = rest) stop := by
  obtain ⟨held, ncli⟩ := free
  unfold acquire await
  simp only [ensures_bind, ensures_pushcli]
  rw [ensures_holding rfl (by dsimp only; omega)]
  simp only [held, Bool.false_eq_true, if_false, ensures_bind, ensures_get, finds]
  exact ⟨⟨rfl, by dsimp only; omega, rfl⟩, rfl, rfl, rfl⟩

/-- Without such a table the lock is never obtained. -/
theorem acquire_waits (free : Free depth w) (nonneg : 0 ≤ depth) (none : w.others = []) :
    Ensures acquire w (fun _ _ => False) Waits := by
  obtain ⟨held, ncli⟩ := free
  unfold acquire await
  simp only [ensures_bind, ensures_pushcli]
  rw [ensures_holding rfl (by dsimp only; omega)]
  simp only [held, Bool.false_eq_true, if_false, ensures_bind, ensures_get, none]
  exact waits

/-- Acquiring the lock that this processor holds is a panic. -/
theorem acquire_panics (locked : w.held = true) (nonneg : 0 ≤ w.ncli) :
    Ensures acquire w (fun _ _ => False) (· = .panic "acquire") := by
  unfold acquire
  simp only [ensures_bind, ensures_pushcli]
  rw [ensures_holding rfl (by dsimp only; omega)]
  simp only [locked, if_true]
  exact rfl

/-- The lock is given back. -/
theorem release_ensures (locked : Locked depth w) (nonneg : 0 ≤ depth) :
    Ensures release w (fun _ after => Free depth after ∧ Same w after) stop := by
  obtain ⟨held, ncli, disabled⟩ := locked
  unfold release
  rw [ensures_bind, ensures_holding disabled (by omega)]
  simp only [held, if_true, ensures_bind, ensures_modify]
  rw [ensures_popcli (by exact disabled) (by dsimp only; omega)]
  exact ⟨⟨rfl, by dsimp only; omega⟩, rfl, rfl, rfl⟩

end Spin

/-! ## One locked region

A call that takes the lock once finds a table, changes it, and leaves the lock free. -/

/-- The call found a table, changed it in this way and returned this value. -/
structure Atomic {α : Type} (depth : Int) (w : World) (effect : Sched → α × Sched) (value : α)
    (after : World) : Prop where
  free : Free depth after
  curproc : after.curproc = w.curproc
  found : ∃ table, w.others = table :: after.others ∧ effect table = (value, after.table)

section Calls

variable {w : World} {depth : Int} {stop : Stop → Prop}

/-- What remains when the lock has been taken. -/
theorem acquire_then {α : Type} {next : Unit → Kernel α} {post : α → World → Prop}
    (free : Free depth w) (nonneg : 0 ≤ depth) (waiting : stop .waiting)
    (rest : ∀ locked : World, Locked depth locked → locked.curproc = w.curproc →
      w.others = locked.table :: locked.others → Ensures (next ()) locked post stop) :
    Ensures (acquire >>= next) w post stop := by
  rw [ensures_bind]
  cases finds : w.others with
  | nil =>
    refine (acquire_waits free nonneg finds).mono ?_ fun reason same => same ▸ waiting
    exact fun _ _ impossible => impossible.elim
  | cons s others =>
    refine (acquire_finds free nonneg finds).mono ?_ fun _ stopped => stopped
    rintro _ after ⟨locked, curproc, table, later⟩
    exact rest after locked curproc (by rw [finds, table, later])

/-- What remains when the lock has been given back. -/
theorem release_then {α : Type} {next : Unit → Kernel α} {post : α → World → Prop}
    (locked : Locked depth w) (nonneg : 0 ≤ depth)
    (rest : ∀ free : World, Free depth free → Same w free → Ensures (next ()) free post stop) :
    Ensures (release >>= next) w post stop := by
  rw [ensures_bind]
  refine (release_ensures locked nonneg).mono ?_ fun _ stopped => stopped
  exact fun _ after free => rest after free.1 free.2

/-- An assignment to the table leaves the lock alone. -/
theorem Locked.assign (locked : Locked depth w) (table : Sched) :
    Locked depth { w with table := table } := ⟨locked.held, locked.ncli, locked.disabled⟩

/-- The region ends with the release of the lock. -/
theorem atomic_of_release {α : Type} {effect : Sched → α × Sched} {value : α} {table : Sched}
    {now after : World} (released : Free depth after) (same : Same now after)
    (curproc : now.curproc = w.curproc) (found : w.others = table :: now.others)
    (done : effect table = (value, now.table)) : Atomic depth w effect value after :=
  ⟨released, same.curproc.trans curproc, table, same.others ▸ found, by rw [same.table, done]⟩

/-- Two assignments to one process are one. -/
theorem set_set (s : Sched) (p : Slot) (first second : Proc → Proc) :
    (s.set p first).set p second = s.set p fun x => second (first x) := by
  simp [Sched.set]

/-- Assignments to one process that agree on its record are the same. -/
theorem set_congr {s : Sched} {p : Slot} {first : Proc → Proc} (second : Proc → Proc)
    (same : first (s.proc p) = second (s.proc p)) : s.set p first = s.set p second := by
  rw [Sched.set, same, Sched.set]

/-- `wakeup` wakes the processes that sleep on its channel. -/
theorem wakeup_ensures (free : Free depth w) (nonneg : 0 ≤ depth) (chan : Chan) :
    Ensures (wakeup chan) w (Atomic depth w fun s => ((), s.wakeup1 (some chan))) Waits := by
  unfold wakeup
  apply acquire_then free nonneg waits
  intro locked holds curproc found
  rw [ensures_bind, ensures_assign]
  refine (release_ensures (holds.assign _) nonneg).mono ?_ fun _ stopped => stopped
  rintro _ after ⟨released, same⟩
  exact atomic_of_release released same curproc found rfl

/-- The value that `kill` returns, and its effect. -/
def killCall (pid : Int) (s : Sched) : Int × Sched :=
  (if (s.findSlot fun x => x.pid = pid).isSome then 0 else -1, s.kill pid)

/-- A loop over the table that returns at the first slot that passes a test. -/
theorem scan_slots {α : Type} (test : Proc → Prop) [DecidablePred test]
    {found : World → Slot → Kernel (Unit ⊕ α)} {post : Unit ⊕ α → World → Prop}
    (hit : ∀ p, w.table.findSlot (fun x => test x) = some p →
      Ensures (found w p) w (fun result after => (∃ value, result = .inr value) ∧ post result after) stop)
    (absent : w.table.findSlot (fun x => test x) = none → post (.inl ()) w) :
    Ensures (scan (fun _ p => get >>= fun now =>
      if test (now.table.proc p) then found now p else pure (.inl ())) () slots) w post stop := by
  have miss : ∀ p, decide (test (w.table.proc p)) = false →
      (get >>= fun now : World => if test (now.table.proc p) then found now p else pure (.inl ())).run w =
        .ok (.inl (), w) := by
    intro p fails
    have other : ¬ test (w.table.proc p) := by simpa using fails
    change (if test (w.table.proc p) then found w p else pure (.inl ())).run w = _
    rw [if_neg other]
    rfl
  refine ensures_search miss ?_ absent
  intro p first
  have passes : test (w.table.proc p) := by simpa using List.find?_some first
  rw [ensures_bind, ensures_get, if_pos passes]
  exact hit p first

/-- `kill` acts on the first slot with the pid. -/
theorem kill_ensures (free : Free depth w) (nonneg : 0 ≤ depth) (pid : Int) :
    Ensures (kill pid) w (Atomic depth w (killCall pid)) Waits := by
  unfold kill
  apply acquire_then free nonneg waits
  intro locked holds curproc found
  rw [ensures_bind]
  apply scan_slots fun x => x.pid = pid
  · intro p first
    have effect : killCall pid locked.table = (0, locked.table.set p fun x =>
        { x with killed := true, state := if x.state = .sleeping then .runnable else x.state }) := by
      rw [killCall, first, Sched.kill, first]
      rfl
    rw [ensures_bind, ensures_assign, ensures_bind, ensures_get]
    by_cases asleep : (locked.table.proc p).state = .sleeping
    · have twice : (locked.table.set p fun x => { x with killed := true }).set p
          (fun x => { x with state := .runnable }) = locked.table.set p fun x =>
            { x with killed := true, state := if x.state = .sleeping then .runnable else x.state } := by
        rw [set_set]
        exact set_congr _ (by simp [asleep])
      rw [if_pos (by simpa using asleep), ensures_bind, ensures_assign]
      apply release_then ((holds.assign _).assign _) nonneg
      intro after released same
      exact ⟨⟨0, rfl⟩, atomic_of_release released same curproc found (by rw [effect, twice])⟩
    · have once : (locked.table.set p fun x => { x with killed := true }) = locked.table.set p fun x =>
            { x with killed := true, state := if x.state = .sleeping then .runnable else x.state } :=
        set_congr _ (by simp [asleep])
      rw [if_neg (by simpa using asleep)]
      apply release_then (holds.assign _) nonneg
      intro after released same
      exact ⟨⟨0, rfl⟩, atomic_of_release released same curproc found (by rw [effect, once])⟩
  · intro absent
    apply release_then holds nonneg
    intro after released same
    refine atomic_of_release released same curproc found ?_
    rw [killCall, absent, Sched.kill, absent]
    rfl

/-- `setslice` is the call of the model without locks. -/
theorem setslice_ensures (free : Free depth w) (nonneg : 0 ≤ depth) (pid slice : Int)
    (valid : ¬ (slice < 1 ∨ pid < 0)) :
    Ensures (setslice pid slice) w (Atomic depth w fun s => s.setsliceCall pid slice) Waits := by
  unfold setslice
  rw [if_neg valid]
  apply acquire_then free nonneg waits
  intro locked holds curproc found
  rw [ensures_bind]
  apply scan_slots fun x => x.pid = pid
  · intro p first
    rw [ensures_bind, ensures_assign]
    apply release_then (holds.assign _) nonneg
    intro after released same
    refine ⟨⟨0, rfl⟩, atomic_of_release released same curproc found ?_⟩
    rw [Sched.setsliceCall, if_neg valid, first]
  · intro absent
    apply release_then holds nonneg
    intro after released same
    refine atomic_of_release released same curproc found ?_
    rw [Sched.setsliceCall, if_neg valid, absent]

/-- `getslice` reads the slice of the first slot with the pid, if there is one. -/
theorem getslice_ensures (free : Free depth w) (nonneg : 0 ≤ depth) {pid : Int} (valid : 0 ≤ pid)
    (present : ∀ s rest, w.others = s :: rest → (s.getslice pid).isSome) :
    Ensures (getslice pid) w (Atomic depth w fun s => ((s.getslice pid).getD 0, s)) Waits := by
  unfold getslice
  rw [if_neg (by omega)]
  apply acquire_then free nonneg waits
  intro locked holds curproc found
  rw [ensures_bind]
  apply scan_slots fun x => x.pid = pid
  · intro p first
    apply release_then holds nonneg
    intro after released same
    rw [ensures_bind, ensures_get]
    refine ⟨⟨_, rfl⟩, atomic_of_release released same curproc found ?_⟩
    rw [Sched.getslice, if_neg (by omega), first, Option.map_some, Option.getD_some, same.table]
  · intro absent
    have nobody := present _ _ found
    rw [Sched.getslice, if_neg (by omega), absent] at nobody
    cases nobody

/-- `getslice` of a pid that no slot of the table has panics in its second `acquire`. -/
theorem getslice_panics (free : Free depth w) (nonneg : 0 ≤ depth) {pid : Int} (valid : 0 ≤ pid)
    {s : Sched} {rest : List Sched} (finds : w.others = s :: rest) (missing : s.getslice pid = none) :
    Ensures (getslice pid) w (fun _ _ => False) (· = .panic "acquire") := by
  rw [Sched.getslice, if_neg (by omega), Option.map_eq_none_iff] at missing
  unfold getslice
  rw [if_neg (by omega), ensures_bind]
  refine (acquire_finds free nonneg finds).mono ?_ fun _ stopped => stopped
  rintro _ locked ⟨holds, _, rfl, _⟩
  rw [ensures_bind]
  apply scan_slots fun x => x.pid = pid
  · intro p first
    rw [missing] at first
    cases first
  · intro _
    change Ensures (acquire >>= _) locked _ _
    rw [ensures_bind]
    refine (acquire_panics holds.held (by rw [holds.ncli]; omega)).mono ?_ fun _ same => same
    exact fun _ _ impossible => impossible.elim

/-- The value that `allocproc` returns, and its effect, which ends outside the lock when there
is no page for the stack. -/
def allocprocCall (kalloc : Bool) (s : Sched) : Option Slot × Sched :=
  match s.allocproc with
  | none => (none, s)
  | some (p, t) => if kalloc then (some p, t) else (none, t.set p fun x => { x with state := .unused })

/-- `allocproc` takes the first unused slot. -/
theorem allocproc_ensures (free : Free depth w) (nonneg : 0 ≤ depth) (kalloc : Bool) :
    Ensures (allocproc kalloc) w (Atomic depth w (allocprocCall kalloc)) Waits := by
  unfold allocproc
  apply acquire_then free nonneg waits
  intro locked holds curproc found
  rw [ensures_bind]
  apply scan_slots fun x => x.state = .unused
  · intro p first
    have taken : locked.table.allocproc = some (p, { locked.table.set p locked.table.allocated with
        nextpid := int32 (locked.table.nextpid + 1) }) := by
      rw [Sched.allocproc, first, Option.map_some]
      rfl
    rw [ensures_pure]
    refine ⟨⟨p, rfl⟩, ?_⟩
    rw [ensures_bind, ensures_assign]
    apply release_then (holds.assign _) nonneg
    intro after released same
    cases kalloc with
    | true =>
      refine atomic_of_release released same curproc found ?_
      rw [allocprocCall, taken]
      rfl
    | false =>
      refine ⟨⟨released.held, released.ncli⟩, same.curproc.trans curproc, locked.table,
        same.others ▸ found, ?_⟩
      rw [allocprocCall, taken]
      dsimp only
      rw [same.table]
      rfl
  · intro absent
    apply release_then holds nonneg
    intro after released same
    refine atomic_of_release released same curproc found ?_
    rw [allocprocCall, Sched.allocproc, absent]
    rfl

/-- `getpinfo` reports the table that it finds. -/
theorem getpinfo_ensures (free : Free depth w) (nonneg : 0 ≤ depth) :
    Ensures (getpinfo false) w
      (Atomic depth w fun s => ((0, slots.map fun p => pstat (s.proc p)), s)) Waits := by
  unfold getpinfo
  apply acquire_then free nonneg waits
  intro locked holds curproc found
  rw [ensures_bind, ensures_get]
  apply release_then holds nonneg
  intro after released same
  exact atomic_of_release released same curproc found rfl

end Calls

/-! ## Two locked regions, and sleeping in one -/

/-- A call may fail to return because it waits, or because it sleeps although its caller has
called `pushcli`. -/
def Halts (depth : Int) (reason : Stop) : Prop :=
  Waits reason ∨ depth ≠ 0 ∧ reason = .panic "sched locks"

section Regions

variable {w : World} {depth : Int} {stop : Stop → Prop}

/-- `fork2` takes the lock a second time only after it has given it back. -/
theorem fork2_ensures (free : Free depth w) (nonneg : 0 ≤ depth) (slice : Int) (kalloc copyuvm : Bool) :
    Ensures (fork2 slice kalloc copyuvm) w (fun _ after => Free depth after) Waits := by
  unfold fork2
  rw [ensures_bind]
  refine (myproc_ensures (by rw [free.ncli]; exact nonneg)).mono ?_ fun _ stopped => stopped
  rintro curproc now ⟨_, _, held, ncli, _⟩
  have idle : Free depth now := ⟨held.trans free.held, ncli.trans free.ncli⟩
  rw [ensures_ite]
  split
  · exact idle
  · rw [ensures_bind]
    refine (allocproc_ensures idle nonneg kalloc).mono ?_ fun _ stopped => stopped
    intro made later region
    cases made with
    | none => exact region.free
    | some np =>
      cases copyuvm with
      | false => exact ⟨region.free.held, region.free.ncli⟩
      | true =>
        have again : Free depth { later with table := later.table.set np fun x => { x with parent := some curproc } } :=
          ⟨region.free.held, region.free.ncli⟩
        dsimp only
        rw [if_pos rfl, ensures_bind, ensures_assign, ensures_bind, ensures_get]
        apply acquire_then again nonneg waits
        intro locked holds _ _
        simp only [ensures_bind, ensures_assign]
        refine (release_ensures (((holds.assign _).assign _).assign _) nonneg).mono ?_ fun _ stopped => stopped
        exact fun _ _ released => released.1

/-- The lock is held when `sched` returns; the caller must not be marked as running. -/
theorem sched_ensures (locked : Locked depth w) (nonneg : 0 ≤ depth)
    (stopped : (w.table.proc w.curproc).state ≠ .running) :
    Ensures sched w (fun _ after => Locked depth after ∧ after.curproc = w.curproc ∧
      after.others.length < w.others.length) (Halts depth) := by
  unfold sched
  rw [ensures_bind]
  refine (myproc_ensures (by rw [locked.ncli]; omega)).mono ?_ fun _ reason => reason
  rintro p now ⟨rfl, same, held, ncli, disabled⟩
  have disabled := disabled locked.disabled
  rw [ensures_bind, ensures_holding disabled (by rw [ncli, locked.ncli]; omega), held, locked.held]
  simp only [if_true, ensures_bind]
  rw [ensures_get, ensures_ite]
  split
  · rename_i outer
    have resting : ¬ (now.table.proc w.curproc).state = .running := by rwa [same.table]
    simp only [ensures_bind, ensures_get, ensures_ite, resting, if_false, disabled, Bool.false_eq_true]
    unfold swtch await
    simp only [ensures_bind, ensures_get]
    rw [same.others]
    cases w.others with
    | nil => exact .inl waits
    | cons table rest =>
      exact ⟨⟨held.trans locked.held, ncli.trans locked.ncli, disabled⟩, same.curproc, Nat.lt_succ_self _⟩
  · rename_i nested
    exact .inr ⟨fun outer => nested (by rw [ncli, locked.ncli, outer]; rfl), rfl⟩

/-- `wait` calls `sleep` with the lock held and gets it back. -/
theorem sleep_ensures (locked : Locked depth w) (nonneg : 0 ≤ depth) (chan : Chan) :
    Ensures (sleep chan) w (fun _ after => Locked depth after ∧ after.curproc = w.curproc ∧
      after.others.length < w.others.length) (Halts depth) := by
  unfold sleep
  rw [ensures_bind]
  refine (myproc_ensures (by rw [locked.ncli]; omega)).mono ?_ fun _ reason => reason
  rintro p now ⟨rfl, same, held, ncli, disabled⟩
  have holds : Locked depth now :=
    ⟨held.trans locked.held, ncli.trans locked.ncli, disabled locked.disabled⟩
  simp only [ensures_bind, ensures_assign]
  refine (sched_ensures (((holds.assign _).assign _).assign _) nonneg ?_).mono ?_ fun _ reason => reason
  · simp [same.curproc]
  · rintro _ after ⟨done, curproc, shorter⟩
    exact ⟨done.assign _, curproc.trans same.curproc, by rwa [← same.others]⟩

/-- One slot of the scan of `wait`: the scan goes on in the same state, or it has freed a child
and given the lock back. -/
theorem waitScan_ensures (locked : Locked depth w) (nonneg : 0 ≤ depth) (curproc : Slot)
    (havekids : Bool) (p : Slot) : Ensures (waitScan curproc havekids p) w
      (fun result after => Sum.elim (fun _ => after = w) (fun _ => Free depth after) result) stop := by
  unfold waitScan
  simp only [ensures_bind, ensures_get, ensures_ite]
  split
  · exact rfl
  · split
    · rw [ensures_assign]
      refine (release_ensures (locked.assign _) nonneg).mono ?_ fun _ reason => reason
      exact fun _ _ released => released.1
    · exact rfl

/-- Every way out of the loop of `wait` gives the lock back, and every turn of it that does not
leave the loop uses up a table, so the fuel lasts. -/
theorem waitFrom_ensures (nonneg : 0 ≤ depth) (curproc : Slot) {fuel : Nat} (locked : Locked depth w)
    (enough : w.others.length < fuel) :
    Ensures (waitFrom curproc fuel) w (fun _ after => Free depth after) (Halts depth) := by
  induction fuel generalizing w with
  | zero => exact absurd enough (Nat.not_lt_zero _)
  | succ fuel inductionHypothesis =>
    rw [waitFrom, ensures_bind]
    have each : ∀ havekids p now, p ∈ slots → now = w → Ensures (waitScan curproc havekids p) now
        (fun result after => Sum.elim (fun _ => after = w) (fun _ => Free depth after) result)
        (Halts depth) := by
      rintro havekids p now _ rfl
      exact waitScan_ensures locked nonneg curproc havekids p
    have scanned : Ensures (scan (waitScan curproc) false slots) w
        (fun result after => Sum.elim (fun _ => after = w) (fun _ => Free depth after) result)
        (Halts depth) := ensures_scan each (fun _ _ same => same) rfl
    refine scanned.mono ?_ fun _ reason => reason
    intro result after done
    cases result with
    | inr pid => exact done
    | inl havekids =>
      obtain rfl : after = w := done
      simp only [ensures_bind, ensures_get, ensures_ite]
      split
      · exact (release_ensures locked nonneg).mono (fun _ _ released => released.1) fun _ reason => reason
      · refine (sleep_ensures locked nonneg (.proc curproc)).mono ?_ fun _ reason => reason
        rintro _ later ⟨again, _, shorter⟩
        exact inductionHypothesis again (by omega)

/-- `wait` enters its loop with the lock held. -/
theorem wait_ensures (free : Free depth w) (nonneg : 0 ≤ depth) :
    Ensures wait w (fun _ after => Free depth after) (Halts depth) := by
  unfold wait
  rw [ensures_bind]
  refine (myproc_ensures (by rw [free.ncli]; exact nonneg)).mono ?_ fun _ reason => reason
  rintro curproc now ⟨_, _, held, ncli, _⟩
  apply acquire_then ⟨held.trans free.held, ncli.trans free.ncli⟩ nonneg (.inl waits)
  intro locked holds _ _
  rw [ensures_bind, ensures_get]
  exact waitFrom_ensures nonneg curproc holds (Nat.lt_succ_self _)

/-- `fork` looks its own slice up and calls `fork2`. -/
theorem fork_ensures (free : Free depth w) (nonneg : 0 ≤ depth) (kalloc copyuvm : Bool)
    (own : ∀ s ∈ w.others, (s.proc w.curproc).pid = (w.table.proc w.curproc).pid) :
    Ensures (fork kalloc copyuvm) w (fun _ after => Free depth after) Waits := by
  unfold fork
  rw [ensures_bind]
  refine (myproc_ensures (by rw [free.ncli]; exact nonneg)).mono ?_ fun _ reason => reason
  rintro curproc now ⟨rfl, same, held, ncli, _⟩
  have idle : Free depth now := ⟨held.trans free.held, ncli.trans free.ncli⟩
  rw [ensures_bind, ensures_get, ensures_bind]
  by_cases negative : (now.table.proc w.curproc).pid < 0
  · rw [getslice, if_pos negative, ensures_pure]
    exact fork2_ensures idle nonneg _ _ _
  · refine (getslice_ensures idle nonneg (by omega) ?_).mono ?_ fun _ reason => reason
    · intro s rest found
      have member : s ∈ w.others := by
        rw [← same.others, found]
        exact List.mem_cons_self
      have kept : (s.proc w.curproc).pid = (now.table.proc w.curproc).pid := by
        rw [own s member, same.table]
      have passes : decide ((s.proc w.curproc).pid = (now.table.proc w.curproc).pid) = true := by
        simpa using kept
      have present : ∃ q, s.findSlot (fun x => x.pid = (now.table.proc w.curproc).pid) = some q :=
        Sched.findSlot_exists passes
      obtain ⟨q, first⟩ := present
      rw [Sched.getslice, if_neg negative, first]
      rfl
    · intro slice after region
      exact fork2_ensures region.free nonneg slice kalloc copyuvm

end Regions

end Kernel

/-! ## All functions -/

/-- A call of one of the functions of the process table, with its arguments and the outcomes of
the allocations on the way. -/
inductive Call where
  | allocproc (kalloc : Bool)
  | fork2 (slice : Int) (kalloc copyuvm : Bool)
  | fork (kalloc copyuvm : Bool)
  | wait
  | kill (pid : Int)
  | wakeup (chan : Chan)
  | setslice (pid slice : Int)
  | getslice (pid : Int)
  | getpinfo (null : Bool)

/-- A call whose value is not used. -/
def silently {α : Type} (call : Kernel α) : Kernel Unit := do
  let _ ← call

/-- The call as a program, without its value. -/
def Call.perform : Call → Kernel Unit
  | .allocproc kalloc => silently (Kernel.allocproc kalloc)
  | .fork2 slice kalloc copyuvm => silently (Kernel.fork2 slice kalloc copyuvm)
  | .fork kalloc copyuvm => silently (Kernel.fork kalloc copyuvm)
  | .wait => silently Kernel.wait
  | .kill pid => silently (Kernel.kill pid)
  | .wakeup chan => Kernel.wakeup chan
  | .setslice pid slice => silently (Kernel.setslice pid slice)
  | .getslice pid => silently (Kernel.getslice pid)
  | .getpinfo null => silently (Kernel.getpinfo null)

/-- The processor does not hold the lock, and the others leave the pid of its process alone. -/
structure Entered (w : World) : Prop where
  free : w.held = false
  nonneg : 0 ≤ w.ncli
  own : ∀ s ∈ w.others, (s.proc w.curproc).pid = (w.table.proc w.curproc).pid

/-- The call returns with the lock free and the depth of `pushcli` as it was. It may wait for
ever, and `sched` may refuse to sleep at another depth than zero, but no `acquire`, `release` or
`popcli` panics. -/
def Disciplined (call : Call) (w : World) : Prop :=
  Ensures call.perform w (fun _ after => after.held = false ∧ after.ncli = w.ncli)
    (Kernel.Halts w.ncli)

/-- `getslice` looks for a pid that no slot of the table has. -/
def Missing (w : World) : Call → Prop
  | .getslice pid => 0 ≤ pid ∧ ∃ s rest, w.others = s :: rest ∧ ∀ p, (s.proc p).pid ≠ pid
  | _ => False

section Discipline

variable {w : World}

/-- What `Entered` asks of the others holds in the model of their interleavings: no step changes
the pid of a slot that stays in use. -/
theorem run_pid {s t : Sched} {p : Slot} {actions : List Action} (sound : Sound s)
    (completed : run s actions = some t)
    (live : Runs.Along step (fun v => (v.proc p).state ≠ .unused) s actions) :
    (t.proc p).pid = (s.proc p).pid := by
  have kept : ∀ s action t, True → Sound s → step s action = some t → Sound t :=
    fun _ _ _ _ sound moved => step_sound sound moved
  have constant : ∀ s action t, True → Sound s → (s.proc p).state ≠ .unused →
      step s action = some t → (t.proc p).state ≠ .unused → (t.proc p).pid = (s.proc p).pid := by
    intro s action t _ ⟨⟨nodes, queued⟩, forks⟩ before moved after
    exact change_named before after (step_change queued forks (step_cases moved) p)
  exact Runs.run_constant kept constant sound
    (Runs.Meets.unguarded _ _) live completed

/-- A call that leaves the lock free is disciplined, whatever its value. -/
theorem disciplined_silently {α : Type} {call : Kernel α} {post : α → World → Prop} {stop : Stop → Prop}
    (ensured : Ensures call w post stop)
    (returns : ∀ value after, post value after → Kernel.Free w.ncli after)
    (stops : ∀ reason, stop reason → Kernel.Halts w.ncli reason) :
    Ensures (silently call) w (fun _ after => after.held = false ∧ after.ncli = w.ncli)
      (Kernel.Halts w.ncli) := by
  unfold silently
  rw [ensures_bind]
  exact ensured.mono (fun value after done => ⟨(returns value after done).held,
    (returns value after done).ncli⟩) stops

/-- No slot of the table has the pid. -/
theorem getslice_none {s : Sched} {pid : Int} (nonneg : 0 ≤ pid) :
    s.getslice pid = none ↔ ∀ p, (s.proc p).pid ≠ pid := by
  rw [Sched.getslice, if_neg (by omega), Option.map_eq_none_iff, Sched.findSlot, List.find?_eq_none]
  simp

/-- Looking for a missing pid ends in a panic of `acquire`. -/
theorem missing_panics (entered : Entered w) {pid : Int} (missing : Missing w (.getslice pid)) :
    ¬ Disciplined (.getslice pid) w := by
  intro disciplined
  obtain ⟨nonneg, s, rest, finds, absent⟩ := missing
  have panics := Kernel.getslice_panics ⟨entered.free, rfl⟩ entered.nonneg nonneg finds
    ((getslice_none nonneg).mpr absent)
  rw [Disciplined, Call.perform, silently, ensures_bind] at disciplined
  refine disciplined.contradicts panics (fun _ _ _ impossible => impossible) ?_
  rintro reason (waits | ⟨_, locks⟩) acquired
  · exact absurd (waits.symm.trans acquired) (by decide)
  · exact absurd (locks.symm.trans acquired) (by decide)

end Discipline

/-- Entered with the lock free, every function of the process table keeps the lock discipline,
whatever tables it finds, except `getslice` of a pid that no slot of the table has. -/
theorem disciplined_iff_present {w : World} (entered : Entered w) (call : Call) :
    Disciplined call w ↔ ¬ Missing w call := by
  obtain ⟨held, nonneg, own⟩ := id entered
  have free : Kernel.Free w.ncli w := ⟨held, rfl⟩
  have waits : ∀ reason, Kernel.Waits reason → Kernel.Halts w.ncli reason := fun _ => .inl
  cases call with
  | allocproc kalloc =>
    exact iff_of_true (disciplined_silently (Kernel.allocproc_ensures free nonneg kalloc)
      (fun _ _ region => region.free) waits) id
  | fork2 slice kalloc copyuvm =>
    exact iff_of_true (disciplined_silently (Kernel.fork2_ensures free nonneg slice kalloc copyuvm)
      (fun _ _ done => done) waits) id
  | fork kalloc copyuvm =>
    exact iff_of_true (disciplined_silently (Kernel.fork_ensures free nonneg kalloc copyuvm own)
      (fun _ _ done => done) waits) id
  | wait =>
    exact iff_of_true (disciplined_silently (Kernel.wait_ensures free nonneg)
      (fun _ _ done => done) fun _ reason => reason) id
  | kill pid =>
    exact iff_of_true (disciplined_silently (Kernel.kill_ensures free nonneg pid)
      (fun _ _ region => region.free) waits) id
  | wakeup chan =>
    exact iff_of_true ((Kernel.wakeup_ensures free nonneg chan).mono
      (fun _ _ region => ⟨region.free.held, region.free.ncli⟩) waits) id
  | setslice pid slice =>
    refine iff_of_true ?_ id
    by_cases valid : slice < 1 ∨ pid < 0
    · have refused : Ensures (Kernel.setslice pid slice) w (fun _ after => after = w) (Kernel.Halts w.ncli) := by
        rw [Kernel.setslice, if_pos valid, ensures_pure]
      exact disciplined_silently refused (fun _ _ same => same ▸ free) fun _ reason => reason
    · exact disciplined_silently (Kernel.setslice_ensures free nonneg pid slice valid)
        (fun _ _ region => region.free) waits
  | getslice pid =>
    by_cases negative : pid < 0
    · have refused : Ensures (Kernel.getslice pid) w (fun _ after => after = w) (Kernel.Halts w.ncli) := by
        rw [Kernel.getslice, if_pos negative, ensures_pure]
      refine iff_of_true (disciplined_silently refused (fun _ _ same => same ▸ free)
        fun _ reason => reason) ?_
      rintro ⟨nonneg, _⟩
      omega
    · refine ⟨fun disciplined missing => missing_panics entered missing disciplined, fun present => ?_⟩
      refine disciplined_silently (Kernel.getslice_ensures free nonneg (by omega) ?_)
        (fun _ _ region => region.free) waits
      intro s rest finds
      rw [Option.isSome_iff_ne_none]
      intro none
      exact present ⟨by omega, s, rest, finds, (getslice_none (by omega)).mp none⟩
  | getpinfo null =>
    refine iff_of_true ?_ id
    cases null with
    | true =>
      have refused : Ensures (Kernel.getpinfo true) w (fun _ after => after = w) (Kernel.Halts w.ncli) := by
        rw [Kernel.getpinfo, if_pos rfl, ensures_pure]
      exact disciplined_silently refused (fun _ _ same => same ▸ free) fun _ reason => reason
    | false =>
      exact disciplined_silently (Kernel.getpinfo_ensures free nonneg) (fun _ _ region => region.free) waits

/-- The first process is alone in the kernel. -/
def firstEntry : World where
  table := userinit
  curproc := firstSlot
  others := [userinit, userinit]
  interrupts := true
  ncli := 0
  intena := false
  held := false

/-- The table of the first process does not change. -/
theorem firstEntry_entered : Entered firstEntry := by
  refine ⟨rfl, Int.le_refl 0, ?_⟩
  intro s member
  have same : s = userinit := by simpa [firstEntry] using member
  rw [same]
  rfl

/-- The first process forks. -/
theorem disciplined_iff_present_fork : Disciplined (.fork true true) firstEntry :=
  (disciplined_iff_present firstEntry_entered (.fork true true)).mpr id

/-- The first process asks for the slice of a process that does not exist. -/
theorem getslice_absent_panics : ¬ ∀ (w : World) (call : Call), Entered w → Disciplined call w := by
  intro claim
  have absent : ∀ p, (userinit.proc p).pid ≠ 100 := by decide
  exact missing_panics firstEntry_entered ⟨by decide, userinit, [userinit], rfl, absent⟩
    (claim firstEntry (.getslice 100) firstEntry_entered)

end Cs537.Scheduler
