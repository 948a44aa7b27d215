import Cs537.Library.Forest
import Cs537.Scheduler.Newborn

/-!
# The tree of processes

A process is created by `fork2` under its caller, its children pass to `initproc` when it
exits, and it leaves when its parent finds it in `wait`. In every reachable state the
processes form one tree under `initproc` in which every parent is living, so that an exited
process always has somebody to reap it.

A process that sleeps in `wait` depends on the wakeups that `exit` sends. None of them is
lost: in every reachable state such a process has a child, and none of its children has
exited.
-/

namespace Cs537.Scheduler

open Forest

/-- The process has come to life and has not exited. -/
def Living (s : Sched) (p : Slot) : Prop :=
  (s.proc p).state = .sleeping ∨ (s.proc p).state = .runnable ∨ (s.proc p).state = .running

/-- The slot has a process that came to life, exited or not. -/
def InUse (s : Sched) (p : Slot) : Prop := ¬ Unborn p s

instance (s : Sched) (p : Slot) : Decidable (Living s p) := inferInstanceAs (Decidable (_ ∨ _))

instance (s : Sched) (p : Slot) : Decidable (InUse s p) := inferInstanceAs (Decidable (¬ _))

/-- Who is whose parent. -/
def Sched.parents (s : Sched) (p : Slot) : Option Slot := (s.proc p).parent

theorem Living.inUse {s : Sched} {p : Slot} (living : Living s p) : InUse s p := by
  unfold Living at living
  simp only [InUse, Unborn]
  grind

/-- Whoever is in use and not living has exited. -/
theorem InUse.living {s : Sched} {p : Slot} (used : InUse s p) (alive : (s.proc p).state ≠ .zombie) :
    Living s p := by
  simp only [InUse, Unborn] at used
  unfold Living
  cases state : (s.proc p).state <;> simp_all

/-- Parent, life and use of each process stay. -/
def Akin (s t : Sched) (p : Slot) : Prop :=
  t.parents p = s.parents p ∧ (Living t p ↔ Living s p) ∧ (InUse t p ↔ InUse s p)

/-- What a step does to the family: nothing, a birth, a death or a funeral. -/
inductive Kinship (s t : Sched) : Prop where
  | same (akin : ∀ p, Akin s t p)
  | birth (p q : Slot) (embryo : (s.proc p).state = .embryo) (runs : (s.proc q).state = .running)
      (parent : t.parents p = some q) (ready : (t.proc p).state = .runnable)
      (others : ∀ other, other ≠ p → Akin s t other)
  | death (q : Slot) (runs : (s.proc q).state = .running) (notInit : s.initproc ≠ some q)
      (parents : ∀ p, t.parents p = if s.parents p = some q then s.initproc else s.parents p)
      (exited : (t.proc q).state = .zombie)
      (others : ∀ p, p ≠ q → (Living t p ↔ Living s p) ∧ (InUse t p ↔ InUse s p))
      (told : ∀ p, (t.proc p).state = .sleeping →
        (t.proc p).chan ≠ (s.parents q).map .proc ∧
          ∀ child, s.parents child = some q → (s.proc child).state = .zombie →
            (t.proc p).chan ≠ s.initproc.map .proc)
  | funeral (q : Slot) (exited : (s.proc q).state = .zombie) (gone : t.proc q = { s.proc q with
        pid := 0, parent := none, killed := false, state := .unused })
      (others : ∀ p, p ≠ q → t.proc p = s.proc p)

/-- A record with the same parent and state. -/
theorem Akin.of_record {s t : Sched} {p : Slot} (parent : (t.proc p).parent = (s.proc p).parent)
    (state : (t.proc p).state = (s.proc p).state) : Akin s t p := by
  simp only [Akin, Sched.parents, Living, InUse, Unborn, parent, state, and_self]

/-- A process that sleeps, wakes, runs or yields stays living. -/
theorem Akin.of_living {s t : Sched} {p : Slot} (parent : (t.proc p).parent = (s.proc p).parent)
    (before : Living s p) (after : Living t p) : Akin s t p :=
  ⟨parent, iff_of_true after before, iff_of_true after.inUse before.inUse⟩

/-- A slot that is taken for a fork, or given back, is not in use. -/
theorem Akin.of_unborn {s t : Sched} {p : Slot} (parent : (t.proc p).parent = (s.proc p).parent)
    (before : Unborn p s) (after : Unborn p t) : Akin s t p :=
  ⟨parent, iff_of_false (fun living => living.inUse after) (fun living => living.inUse before),
    iff_of_false (fun used => used after) (fun used => used before)⟩

/-- A process that may have been roused stays in the family as it is. -/
theorem Akin.of_rises {s t : Sched} {p : Slot} (parent : (t.proc p).parent = (s.proc p).parent)
    (rises : Sched.Rises (s.proc p) (t.proc p)) : Akin s t p := by
  rcases rises with state | ⟨asleep, ready⟩
  · exact .of_record parent state
  · exact .of_living parent (.inl asleep) (.inr (.inl ready))

theorem Sched.woken_parent (chan : Option Chan) (ticks : Nat) (x : Proc) :
    (Sched.woken chan ticks x).parent = x.parent := by
  unfold Sched.woken
  split_ifs <;> rfl

/-- The actions other than `exit`, `wait` and the end of a fork leave the family alone. -/
theorem Change.akin {s t : Sched} {nodes : List Slot} {p : Slot} {action : Action}
    (queued : Queued s nodes) (change : Change s p action (t.proc p)) (notExit : action ≠ .exit)
    (notWait : action ≠ .wait) (notDone : action ≠ .forkDone) : Akin s t p := by
  generalize after : t.proc p = y at change
  cases change with
  | same => exact .of_record (by rw [after]) (by rw [after])
  | slept _ on =>
    exact .of_living (by rw [after]) (.inr (.inr (queued.on_running on))) (.inl (by rw [after]))
  | awaited => exact absurd rfl notWait
  | refused n on =>
    exact .of_record (by rw [after, Sched.dozing]) (by rw [after, Sched.dozing])
  | dozed n on =>
    refine .of_living ?_ (.inr (.inr (queued.on_running on))) (.inl ?_)
    · rw [after, Sched.dozing]
    · rw [after]
  | ticked | roused =>
    refine .of_rises ?_ ?_
    · rw [after, Sched.woken_parent]
    · rw [after]
      exact Sched.woken_rises _ _ _
  | yielded _ on =>
    exact .of_living (by rw [after]) (.inr (.inr (queued.on_running on))) (.inr (.inl (by rw [after])))
  | passed => exact absurd rfl notExit
  | exited => exact absurd rfl notExit
  | killed pid found =>
    refine .of_rises ?_ ?_
    · rw [after]
    · rw [after]
      by_cases asleep : (s.proc p).state = .sleeping
      · exact .inr ⟨asleep, if_pos asleep⟩
      · exact .inl (if_neg asleep)
  | reaped => exact absurd rfl notWait
  | sliced | forked => exact .of_record (by rw [after]) (by rw [after])
  | taken _ _ unused =>
    refine .of_unborn ?_ (.inl unused) (.inr ?_)
    · rw [after, Sched.allocated]
    · rw [after, Sched.allocated]
  | dropped => exact .of_record (by rw [after]) (by rw [after])
  | failed embryo => exact .of_unborn (by rw [after]) (.inr embryo) (.inl (by rw [after]))
  | born => exact absurd rfl notDone
  | dispatched held head ready =>
    refine .of_living ?_ (.inr (.inl ready)) (.inr (.inr ?_))
    · rw [after, Sched.charged]
    · rw [after, Sched.charged]
  | rotated => exact .of_record (by rw [after]) (by rw [after])

/-! ## What `exit` does to the family -/

namespace Sched

/-- A pass leaves a sleeper as it was, or wakes it. -/
theorem Wakes.asleep {channels : Option Chan → Prop} {heir : Option Slot} {s t : Sched}
    (pass : Wakes (Passed channels heir) s t) {p : Slot} (asleep : (t.proc p).state = .sleeping) :
    (s.proc p).state = .sleeping ∧ (t.proc p).chan = (s.proc p).chan := by
  obtain ⟨parent, _, same | ⟨_, _, roused⟩⟩ := pass.proc p
  · rw [same] at asleep ⊢
    exact ⟨asleep, rfl⟩
  · rw [roused] at asleep
    cases asleep

/-- Nobody sleeps on a channel after a wakeup on it, that of the tick counter apart. -/
theorem wakeup1_told {chan : Option Chan} (notTicks : chan ≠ some .ticks) (s : Sched) {p : Slot}
    (asleep : ((s.wakeup1 chan).proc p).state = .sleeping) :
    ((s.wakeup1 chan).proc p).chan ≠ chan := by
  intro same
  rw [wakeup1_proc] at asleep same
  by_cases matched : (s.proc p).state = .sleeping ∧ (s.proc p).chan = chan
  · rw [woken, if_pos matched, if_neg notTicks] at asleep
    cases asleep
  · rw [woken, if_neg matched] at asleep same
    exact matched ⟨asleep, same⟩

theorem wakeup1_parents (chan : Option Chan) (s : Sched) (p : Slot) :
    (s.wakeup1 chan).parents p = s.parents p := by
  rw [parents, wakeup1_proc, woken_parent, parents]

/-- One iteration of the loop in `exit`: a child is passed on, and an exited one wakes the heir. -/
theorem abandon_eq (s : Sched) (curproc child : Slot) :
    s.abandon curproc child =
      if s.parents child = some curproc then
        if (s.proc child).state = .zombie then
          (s.set child fun x => { x with parent := s.initproc }).wakeup1 (s.initproc.map .proc)
        else s.set child fun x => { x with parent := s.initproc }
      else s := by
  unfold abandon
  by_cases ours : (s.proc child).parent = some curproc
  · rw [if_pos ours, if_pos (show s.parents child = some curproc from ours)]
    simp only [set_proc, if_true]
  · rw [if_neg ours, if_neg (show ¬ s.parents child = some curproc from ours)]

theorem abandon_parents (s : Sched) (curproc child p : Slot) :
    (s.abandon curproc child).parents p =
      if p = child ∧ s.parents p = some curproc then s.initproc else s.parents p := by
  have assigned : (s.set child fun x => { x with parent := s.initproc }).parents p =
      if p = child then s.initproc else s.parents p := by
    simp only [parents, set_proc]
    split_ifs <;> rfl
  rw [abandon_eq]
  by_cases ours : s.parents child = some curproc
  · rw [if_pos ours, ite_and]
    have either : (if (s.proc child).state = .zombie then
          (s.set child fun x => { x with parent := s.initproc }).wakeup1 (s.initproc.map .proc)
        else s.set child fun x => { x with parent := s.initproc }).parents p =
        if p = child then s.initproc else s.parents p := by
      split_ifs at assigned ⊢ <;> simp only [wakeup1_parents, assigned]
    rw [either]
    by_cases same : p = child
    · rw [if_pos same, if_pos same, if_pos (same ▸ ours)]
    · rw [if_neg same, if_neg same]
  · rw [if_neg ours, if_neg]
    rintro ⟨rfl, child⟩
    exact ours child

/-- Passing on a child is a pass. -/
theorem abandon_pass (s : Sched) (curproc child : Slot) :
    Wakes (Passed (fun _ => True) s.initproc) s (s.abandon curproc child) :=
  abandon_passed s curproc child fun _ _ => trivial

/-- Passing on an exited child wakes everybody who sleeps on the heir. -/
theorem abandon_told {s : Sched} {curproc child p : Slot} (ours : s.parents child = some curproc)
    (exited : (s.proc child).state = .zombie)
    (asleep : ((s.abandon curproc child).proc p).state = .sleeping) :
    ((s.abandon curproc child).proc p).chan ≠ s.initproc.map .proc := by
  have passes : s.abandon curproc child =
      (s.set child fun x => { x with parent := s.initproc }).wakeup1 (s.initproc.map .proc) := by
    rw [abandon_eq, if_pos ours, if_pos exited]
  rw [passes] at asleep ⊢
  exact wakeup1_told (proc_not_ticks s.initproc) _ asleep

/-- Passing on children is a pass. -/
theorem abandons_passed (curproc : Slot) (slots : List Slot) (s : Sched) :
    Wakes (Passed (fun _ => True) s.initproc) s (slots.foldl (abandon curproc) s) := by
  induction slots generalizing s with
  | nil => exact .refl (.refl _ _) s
  | cons child rest inductionHypothesis =>
    have first := abandon_pass s curproc child
    have later := inductionHypothesis (s.abandon curproc child)
    rw [first.initproc] at later
    exact first.passed later

/-- The children among the visited slots get the heir as their parent. -/
theorem abandons_parents {curproc : Slot} (slots : List Slot) {s : Sched}
    (notInit : s.initproc ≠ some curproc) (p : Slot) :
    (slots.foldl (abandon curproc) s).parents p =
      if p ∈ slots ∧ s.parents p = some curproc then s.initproc else s.parents p := by
  induction slots generalizing s with
  | nil => simp
  | cons child rest inductionHypothesis =>
    have same := (abandon_pass s curproc child).initproc
    rw [List.foldl_cons, inductionHypothesis (same.symm ▸ notInit), same, abandon_parents]
    by_cases here : p = child ∧ s.parents p = some curproc
    · have first : p ∈ child :: rest ∧ s.parents p = some curproc := ⟨by simp [here.1], here.2⟩
      rw [if_pos here, if_pos first, if_neg fun both => notInit both.2]
    · rw [if_neg here]
      have members : (p ∈ child :: rest ∧ s.parents p = some curproc) ↔
          (p ∈ rest ∧ s.parents p = some curproc) := by
        rw [List.mem_cons]
        tauto
      simp only [members]

/-- If one of the visited children has exited, nobody sleeps on the heir any more. The wakeup
comes when that child is visited, and the rest of the pass puts nobody to sleep. -/
theorem abandons_told {curproc child p : Slot} (slots : List Slot) {s : Sched}
    (notInit : s.initproc ≠ some curproc) (visited : child ∈ slots)
    (ours : s.parents child = some curproc) (exited : (s.proc child).state = .zombie)
    (asleep : ((slots.foldl (abandon curproc) s).proc p).state = .sleeping) :
    ((slots.foldl (abandon curproc) s).proc p).chan ≠ s.initproc.map .proc := by
  induction slots generalizing s with
  | nil => exact absurd visited List.not_mem_nil
  | cons first rest inductionHypothesis =>
    have pass := abandon_pass s curproc first
    have later := abandons_passed curproc rest (s.abandon curproc first)
    rw [List.foldl_cons] at asleep ⊢
    by_cases here : child = first
    · subst here
      obtain ⟨before, chan⟩ := later.asleep asleep
      rw [chan]
      exact abandon_told ours exited before
    · rw [← pass.initproc]
      have kept : (s.abandon curproc first).parents child = some curproc := by
        rw [abandon_parents, if_neg fun both => here both.1, ours]
      have state : ((s.abandon curproc first).proc child).state = .zombie := by
        rw [pass.stays (by simp [exited]), exited]
      exact inductionHypothesis (pass.initproc.symm ▸ notInit)
        ((List.mem_cons.mp visited).resolve_left here) kept state asleep

/-- When `exit` has passed on the children, nobody sleeps any more on the address of the parent
or, if a child has exited, on that of the heir. -/
theorem exit_passes (s : Sched) {curproc : Slot} (notInit : s.initproc ≠ some curproc) :
    ∃ t, Wakes (Passed (fun _ => True) s.initproc) s t ∧
      (∀ p, t.parents p = if s.parents p = some curproc then s.initproc else s.parents p) ∧
      (∀ p, (t.proc p).state = .sleeping → (t.proc p).chan ≠ (s.parents curproc).map .proc ∧
        ∀ child, s.parents child = some curproc → (s.proc child).state = .zombie →
          (t.proc p).chan ≠ s.initproc.map .proc) ∧
      s.exit curproc = { t.set curproc fun x => { x with state := .zombie } with cpu := .loop } := by
  have notTicks := proc_not_ticks (s.proc curproc).parent
  have rouse : Wakes (Passed (fun _ => True) s.initproc) s _ := wakeup1_passed notTicks trivial s
  have told := fun p => wakeup1_told notTicks s (p := p)
  have parents := wakeup1_parents ((s.proc curproc).parent.map .proc) s
  have result : s.exit curproc = { ((List.finRange NPROC).foldl (abandon curproc)
      (s.wakeup1 ((s.proc curproc).parent.map .proc))).set curproc
        (fun x => { x with state := .zombie }) with cpu := .loop } := rfl
  generalize s.wakeup1 ((s.proc curproc).parent.map .proc) = woken at *
  have passed := abandons_passed curproc (List.finRange NPROC) woken
  have other : woken.initproc ≠ some curproc := rouse.initproc.symm ▸ notInit
  refine ⟨_, rouse.passed (rouse.initproc ▸ passed), fun p => ?_, fun p asleep => ⟨?_, ?_⟩, result⟩
  · rw [abandons_parents _ other, rouse.initproc, parents]
    simp only [List.mem_finRange, true_and]
  · obtain ⟨before, chan⟩ := passed.asleep asleep
    rw [chan]
    exact told p before
  · intro child ours exited
    rw [← rouse.initproc]
    refine abandons_told _ other (List.mem_finRange child) ?_ ?_ asleep
    · rw [parents, ours]
    · rw [rouse.stays (by simp [exited]), exited]

/-- The death of a process. -/
theorem exit_kinship (s : Sched) {curproc : Slot} (runs : (s.proc curproc).state = .running)
    (notInit : s.initproc ≠ some curproc) : Kinship s (s.exit curproc) := by
  obtain ⟨t, pass, parents, told, result⟩ := exit_passes s notInit
  have after : ∀ p, (s.exit curproc).proc p =
      if p = curproc then { t.proc curproc with state := .zombie } else t.proc p := by
    intro p
    rw [result]
    exact set_proc t curproc (fun x => { x with state := .zombie }) p
  refine .death curproc runs notInit ?_ ?_ ?_ ?_
  · intro p
    rw [← parents p, Sched.parents, after p]
    split_ifs with same
    · rw [same]
      rfl
    · rfl
  · rw [after curproc, if_pos rfl]
  · intro p other
    have state : ((s.exit curproc).proc p).state = (t.proc p).state := by
      rw [after p, if_neg other]
    have rises := pass.rises p
    simp only [Rises, ← state] at rises
    simp only [Living, InUse, Unborn]
    grind
  · intro p asleep
    by_cases same : p = curproc
    · rw [after p, if_pos same] at asleep
      cases asleep
    · rw [after p, if_neg same] at asleep ⊢
      exact told p asleep

end Sched

/-! ## What a step does to the family -/

variable {s t : Sched} {nodes : List Slot}

/-- A running process that goes to sleep leaves the family alone. -/
theorem sleep_akin {p : Slot} (runs : (s.proc p).state = .running) (chan : Chan) (q : Slot) :
    Akin s (s.sleep p chan) q := by
  have after : (s.sleep p chan).proc q =
      if q = p then { s.proc p with chan := some chan, state := .sleeping } else s.proc q := by
    simp only [Sched.sleep, Sched.pop_proc, Sched.set_proc]
  by_cases same : q = p
  · rw [if_pos same] at after
    subst same
    exact .of_living (by rw [after]) (.inr (.inr runs)) (.inl (by rw [after]))
  · rw [if_neg same] at after
    exact .of_record (by rw [after]) (by rw [after])

/-- The end of a fork is a birth. -/
theorem forkDone_kinship {p np : Slot} {slice : Int} (runs : (s.proc p).state = .running)
    (embryo : (s.proc np).state = .embryo) : Kinship s (s.forkDone p np slice) := by
  have different : np ≠ p := fun equal => by simp [equal, runs] at embryo
  have after : ∀ q, (s.forkDone p np slice).proc q =
      if q = p then { s.proc p with forking := none }
      else if q = np then { s.proc np with parent := some p, state := .runnable, timeslice := slice }
      else s.proc q := by
    intro q
    simp only [Sched.forkDone, Sched.set_proc, Sched.push_proc, if_neg different.symm]
  refine .birth np p embryo runs ?_ ?_ fun other apart => ?_
  · rw [Sched.parents, after np, if_neg different, if_pos rfl]
  · rw [after np, if_neg different, if_pos rfl]
  · have record := after other
    by_cases same : other = p
    · subst same
      rw [if_pos rfl] at record
      exact .of_record (by rw [record]) (by rw [record])
    · rw [if_neg same, if_neg apart] at record
      exact .of_record (by rw [record]) (by rw [record])

/-- Every step is one of the four events in the family. -/
theorem step_kinship {action : Action} (queued : Queued s nodes) (forks : Forks s)
    (moved : Step s action t) : Kinship s t := by
  have change := step_change queued forks moved
  cases moved with
  | exit p on ready notInit => exact Sched.exit_kinship s (queued.on_running on) notInit
  | wait p on =>
    rcases Sched.wait_cases s p with result | ⟨_, result⟩ | ⟨child, exited, result⟩
    · rw [result]
      exact .same fun q => .of_record rfl rfl
    · rw [result]
      exact .same fun q => sleep_akin (queued.on_running on) (.proc p) q
    · refine .funeral child exited ?_ fun q other => ?_
      · rw [result, Sched.set_proc, if_pos rfl]
      · rw [result, Sched.set_proc, if_neg other]
  | forkDone p np slice on forking =>
    exact forkDone_kinship (queued.on_running on) (forks.embryo p np slice forking)
  | load | skip | enter | iterate | tick | yield | wakeup | sleep | sysSleep | kill | setslice
  | fork2 | fork | forkFail =>
    exact .same fun q => (change q).akin queued (by simp) (by simp) (by simp)

theorem fork2_initproc (s : Sched) (p : Slot) (slice : Int) :
    (s.fork2 p slice).initproc = s.initproc := by
  rcases Sched.fork2_cases s p slice with result | ⟨np, u, taken, _, result⟩
  · rw [result]
  · obtain ⟨free, _, same⟩ := Option.map_eq_some_iff.mp taken
    obtain ⟨rfl, rfl⟩ := Prod.mk.inj same
    rw [result]
    rfl

/-- No step moves `initproc`. -/
theorem step_initproc {action : Action} (moved : Step s action t) : t.initproc = s.initproc := by
  cases moved with
  | load | skip | enter | forkFail | forkDone => rfl
  | iterate =>
    unfold Sched.iterate
    split
    · rfl
    · split_ifs
      · rw [Sched.pop_frame]
      · rfl
      · unfold Sched.rotate
        dsimp only
        split_ifs <;> rw [Sched.pop_frame] <;> rfl
  | tick => exact s.tick_wakes.initproc
  | yield => exact s.tick_wakes.initproc
  | wakeup chan => exact (Sched.wakeup1_wakes (some chan) s).initproc
  | sleep => rw [Sched.sleep, Sched.pop_frame]; rfl
  | sysSleep n p =>
    obtain ⟨marked, shape, ⟨_, result⟩ | ⟨_, result⟩⟩ := Sched.sysSleep_cases s p n
    · rw [result, shape]
      rfl
    · rw [result, Sched.sleep, Sched.pop_frame, shape]
      rfl
  | kill pid =>
    rcases Sched.kill_cases s (int32 pid) with result | ⟨_, _, result⟩ <;> rw [result]
    rfl
  | exit p _ _ notInit =>
    obtain ⟨u, pass, result⟩ := Sched.exit_cases s p notInit
    rw [result]
    exact pass.initproc
  | wait p =>
    rcases Sched.wait_cases s p with result | ⟨_, result⟩ | ⟨_, _, result⟩ <;> rw [result]
    · rw [Sched.sleep, Sched.pop_frame]
      rfl
    · rfl
  | setslice pid slice =>
    rcases Sched.setslice_cases s (int32 pid) (int32 slice) with result | ⟨_, _, _, result⟩ <;>
      rw [result]
    rfl
  | fork2 _ p => exact fork2_initproc s p _
  | fork _ p => exact fork2_initproc s p _

/-! ## The tree -/

/-- The processes form one tree under `initproc`. -/
def OneFamily (s : Sched) : Prop :=
  ∃ init, s.initproc = some init ∧ Rooted s.parents (Living s) (InUse s) init

/-- Every event in the family keeps the tree. -/
theorem OneFamily.step {action : Action} (family : OneFamily s) (queued : Queued s nodes)
    (forks : Forks s) (moved : Step s action t) : OneFamily t := by
  obtain ⟨init, named, rooted⟩ := family
  refine ⟨init, (step_initproc moved).trans named, ?_⟩
  cases step_kinship queued forks moved with
  | same akin =>
    exact rooted.congr (fun p => (akin p).1) (fun p => (akin p).2.1) (fun p => (akin p).2.2)
  | birth p q embryo runs parent ready others =>
    have new : ¬ InUse s p := fun used => used (.inr embryo)
    have alive : Living t p := .inr (.inl ready)
    refine rooted.graft new (.inr (.inr runs)) parent (fun other apart => (others other apart).1)
      (fun other => ?_) (fun other => ?_)
    · by_cases same : other = p
      · exact iff_of_true (same ▸ alive) (.inr same)
      · rw [(others other same).2.1, or_iff_left same]
    · by_cases same : other = p
      · exact iff_of_true (same ▸ alive.inUse) (.inr same)
      · rw [(others other same).2.2, or_iff_left same]
  | death q runs notInit parents exited others =>
    have other : q ≠ init := fun equal => notInit (equal ▸ named)
    have used : InUse s q := Living.inUse (.inr (.inr runs))
    refine rooted.bequeath other (fun p child => ?_) (fun p child => ?_) (fun p => ?_) (fun p => ?_)
    · rw [parents p, if_pos child, named]
    · rw [parents p, if_neg child]
    · by_cases same : p = q
      · subst same
        exact iff_of_false (fun living => by simp [Living, exited] at living) fun both => both.2 rfl
      · rw [(others p same).1, and_iff_left same]
    · by_cases same : p = q
      · subst same
        exact iff_of_true (by simp [InUse, Unborn, exited]) used
      · exact (others p same).2
  | funeral q exited gone others =>
    have dead : ¬ Living s q := fun living => by simp [Living, exited] at living
    refine rooted.prune dead ?_ (fun p apart => ?_) (fun p => ?_) (fun p => ?_)
    · rw [Sched.parents, gone]
    · rw [Sched.parents, others p apart, Sched.parents]
    · by_cases same : p = q
      · subst same
        exact iff_of_false (fun living => by simp [Living, gone] at living) dead
      · rw [Living, others p same, Living]
    · by_cases same : p = q
      · subst same
        exact iff_of_false (fun used => used (.inl (by rw [gone]))) fun both => both.2 rfl
      · rw [InUse, Unborn, others p same, and_iff_left same, InUse, Unborn]

/-! ## Sleep in `wait` -/

/-- The process has children, and none of them has exited. -/
def Expecting (s : Sched) (p : Slot) : Prop :=
  (∃ child, s.parents child = some p) ∧
    ∀ child, s.parents child = some p → (s.proc child).state ≠ .zombie

/-- Whoever sleeps on the address of a process sleeps in `wait` on its own, with a reason. -/
def Attended (s : Sched) : Prop :=
  ∀ p q, (s.proc p).state = .sleeping → (s.proc p).chan = some (.proc q) →
    q = p ∧ (s.proc p).killed = false ∧ Expecting s p

/-- Whoever sleeps on the address of a process did so before, or has called `wait`. -/
theorem Change.waits {p q : Slot} {action : Action} {y : Proc} (change : Change s p action y)
    (asleep : y.state = .sleeping) (waits : y.chan = some (.proc q)) :
    ((s.proc p).state = .sleeping ∧ (s.proc p).chan = some (.proc q) ∧
        y.killed = (s.proc p).killed) ∨
      (action = .wait ∧ s.cpu = .running p ∧ q = p ∧ y.killed = (s.proc p).killed) := by
  cases change with
  | same | refused | sliced | forked | dropped | rotated => exact .inl ⟨asleep, waits, rfl⟩
  | slept | dozed => cases waits
  | awaited on => exact .inr ⟨rfl, on, by simpa using waits.symm, rfl⟩
  | ticked | roused =>
    unfold Sched.woken at asleep waits ⊢
    split_ifs at asleep waits ⊢ <;> first | cases asleep | exact .inl ⟨asleep, waits, rfl⟩
  | passed _ _ _ pass =>
    obtain ⟨_, _, same | ⟨_, _, roused⟩⟩ := pass
    · subst same
      exact .inl ⟨asleep, waits, rfl⟩
    · subst roused
      cases asleep
  | yielded | exited | reaped | taken | failed | born | dispatched => cases asleep
  | killed =>
    dsimp only at asleep
    split_ifs at asleep
    exact absurd asleep ‹_›

/-- Somebody who sleeps in `wait` through a step is still expecting a child: a child that exits
in the step would have woken it, and so would an exited child that is passed on to it. -/
theorem Kinship.expecting {p : Slot} (kinship : Kinship s t) (family : OneFamily s)
    (asleep : (t.proc p).state = .sleeping) (waits : (t.proc p).chan = some (.proc p))
    (before : (s.proc p).state = .sleeping) (expecting : Expecting s p) : Expecting t p := by
  obtain ⟨⟨child, ours⟩, none⟩ := expecting
  obtain ⟨init, named, rooted⟩ := family
  cases kinship with
  | same akin =>
    refine ⟨⟨child, (akin child).1.trans ours⟩, fun other theirs exited => ?_⟩
    have living := none other ((akin other).1 ▸ theirs)
    have used : InUse t other := by simp [InUse, Unborn, exited]
    have alive := (akin other).2.1.mpr (((akin other).2.2.mp used).living living)
    simp [Living, exited] at alive
  | birth np q embryo runs parent ready others =>
    have absent := rooted.unrelated np fun used => used (.inr embryo)
    have apart : child ≠ np := fun equal => by simp [← equal, ours] at absent
    refine ⟨⟨child, (others child apart).1.trans ours⟩, fun other theirs exited => ?_⟩
    have different : other ≠ np := fun equal => by simp [equal, ready] at exited
    have akin := others other different
    have living := none other (akin.1 ▸ theirs)
    have used : InUse t other := by simp [InUse, Unborn, exited]
    have alive := akin.2.1.mpr ((akin.2.2.mp used).living living)
    simp [Living, exited] at alive
  | death q runs notInit parents exited others told =>
    have different : p ≠ q := fun equal => by simp [equal, runs] at before
    refine ⟨⟨child, ?_⟩, fun other theirs gone => ?_⟩
    · rw [parents child, ours, if_neg fun equal => different (Option.some.inj equal)]
    · rw [parents other] at theirs
      obtain ⟨notParent, notHeir⟩ := told p asleep
      rw [waits] at notParent notHeir
      by_cases same : other = q
      · subst same
        have used : InUse s other := Living.inUse (.inr (.inr runs))
        have orphan := (rooted.under other used).apart rooted.top
        rw [if_neg orphan] at theirs
        exact notParent (by rw [theirs]; rfl)
      · have dead : (s.proc other).state = .zombie := by
          by_contra alive
          have used : InUse t other := by simp [InUse, Unborn, gone]
          have living := (others other same).1.mpr (((others other same).2.mp used).living alive)
          simp [Living, gone] at living
        split_ifs at theirs with theirChild
        · exact notHeir other theirChild dead (by rw [theirs]; rfl)
        · exact none other theirs dead
  | funeral q exited gone others =>
    have apart : child ≠ q := fun equal => none child ours (equal ▸ exited)
    refine ⟨⟨child, ?_⟩, fun other theirs dead => ?_⟩
    · rw [Sched.parents, others child apart]
      exact ours
    · by_cases same : other = q
      · rw [same, gone] at dead
        cases dead
      · rw [Sched.parents, others other same] at theirs
        exact none other theirs (others other same ▸ dead)

/-- What every reachable state satisfies. -/
structure Household (s : Sched) : Prop where
  sound : Sound s
  family : OneFamily s
  attended : Attended s

theorem Household.step {action : Action} (household : Household s)
    (moved : Scheduler.step s action = some t) : Household t := by
  obtain ⟨nodes, queued⟩ := household.sound.1
  have forks := household.sound.2
  have taken := step_cases moved
  refine ⟨step_sound household.sound moved, household.family.step queued forks taken, ?_⟩
  intro p q asleep waits
  rcases (step_change queued forks taken p).waits asleep waits with
    ⟨before, chan, killed⟩ | ⟨called, on, rfl, killed⟩
  · obtain ⟨rfl, alive, expecting⟩ := household.attended p q before chan
    exact ⟨rfl, killed ▸ alive,
      (step_kinship queued forks taken).expecting household.family asleep waits before expecting⟩
  · subst called
    cases taken with
    | wait caller onCaller =>
      obtain rfl : caller = q := Cpu.running.inj (onCaller.symm.trans on)
      have runs := queued.on_running on
      rcases s.wait_cases caller with result | ⟨⟨children, none, alive⟩, result⟩ | ⟨child, exited, result⟩
      · rw [result, runs] at asleep
        cases asleep
      · have akin := sleep_akin runs (.proc caller)
        refine ⟨rfl, killed ▸ alive, ?_⟩
        rw [result]
        refine ⟨children.imp fun child ours => (akin child).1.trans ours, fun child theirs dead => ?_⟩
        have apart : child ≠ caller := fun equal => by simp [equal, Sched.sleep] at dead
        have exited : (s.proc child).state = .zombie := by simpa [Sched.sleep, apart] using dead
        exact none child ((akin child).1.symm.trans theirs) exited
      · have apart : caller ≠ child := fun equal => by simp [equal, exited] at runs
        rw [result, Sched.set_proc, if_neg apart, runs] at asleep
        cases asleep

theorem reachable_household {s : Sched} (reachable : Reachable s) : Household s := by
  obtain ⟨actions, completed⟩ := reachable
  have kept : ∀ s action t, True → Household s → step s action = some t → Household t :=
    fun _ _ _ _ household moved => household.step moved
  refine Runs.run_invariant kept ⟨userinit_sound, ?_, ?_⟩ (Runs.Meets.unguarded _ _) completed
  · refine ⟨firstSlot, rfl, ?_, ?_, ?_, ?_, ?_⟩
    · decide
    · decide
    · exact fun p living => living.inUse
    · have only : ∀ p, InUse userinit p → p = firstSlot := by decide
      intro p used
      rw [only p used]
      exact .root
    · decide
  · have none : ∀ p, (userinit.proc p).state ≠ .sleeping := by decide
    exact fun p q asleep => absurd asleep (none p)

/-- In every reachable state the processes form one tree under `initproc`: each process in use,
exited or not, is led to `initproc` by its parents, which are all living, and a slot that is not
in use has no parent. -/
theorem processes_form_tree {s : Sched} (reachable : Reachable s) :
    ∃ init, s.initproc = some init ∧ Rooted s.parents (Living s) (InUse s) init :=
  (reachable_household reachable).family

/-- The first process forks, its child forks and exits: the grandchild passes to the first. -/
def orphaned : Sched := Runs.final step userinit
  [.load, .acquire, .iterate, .fork2 1, .forkDone, .timer false, .iterate, .iterate, .fork2 1,
    .forkDone, .exit]

/-- The tree with an exited child and a grandchild of the first process. -/
theorem processes_form_tree_orphaned :
    ((orphaned.proc secondSlot).state = .zombie ∧ orphaned.parents secondSlot = some firstSlot ∧
      orphaned.parents ⟨2, by decide⟩ = some firstSlot) ∧
      ∃ init, orphaned.initproc = some init ∧
        Rooted orphaned.parents (Living orphaned) (InUse orphaned) init :=
  ⟨by decide +kernel, processes_form_tree ⟨_, Runs.run_final (by decide +kernel)⟩⟩

/-- No process is forgotten in `wait`. In every reachable state a process that sleeps on the
address of a process sleeps on its own, has not been killed, has a child, and all its children
are living: a child that exits wakes it. -/
theorem waiters_attended {s : Sched} (reachable : Reachable s) {p q : Slot}
    (asleep : (s.proc p).state = .sleeping) (waits : (s.proc p).chan = some (.proc q)) :
    q = p ∧ (s.proc p).killed = false ∧ (∃ child, s.parents child = some p) ∧
      ∀ child, s.parents child = some p → Living s child := by
  have household := reachable_household reachable
  obtain ⟨init, _, rooted⟩ := household.family
  obtain ⟨same, alive, children, none⟩ := household.attended p q asleep waits
  refine ⟨same, alive, children, fun child ours => ?_⟩
  have used : InUse s child := by
    by_contra stranger
    simp [rooted.unrelated child stranger] at ours
  exact used.living (none child ours)

/-- The first process waits for its child. -/
def awaiting : Sched := Runs.final step userinit
  [.load, .acquire, .iterate, .fork2 1, .forkDone, .wait]

/-- The first process is attended while it waits. -/
theorem waiters_attended_awaiting :
    firstSlot = firstSlot ∧ (awaiting.proc firstSlot).killed = false ∧
      (∃ child, awaiting.parents child = some firstSlot) ∧
      ∀ child, awaiting.parents child = some firstSlot → Living awaiting child :=
  waiters_attended ⟨_, Runs.run_final (by decide +kernel)⟩ (by decide +kernel) (by decide +kernel)

end Cs537.Scheduler
