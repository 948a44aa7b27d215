import Cs537.Pipes.Pipe

/-!
# What holds of a pipe across all interleavings

Three properties of the processes that share a pipe, whatever order their
segments run in. Every byte that is stored is taken once and in order, although
the counters wrap. The pipe is freed exactly when the last descriptor is closed,
and no process is inside a call then. And no sleeper is forgotten: a writer sleeps
only on a full pipe that can still be read, a reader only on an empty one that can
still be written. The last needs a condition, since a writer that was killed
returns without waking the readers of the bytes that it has stored.
-/

namespace Cs537.Pipes

open Cs537.Counters Cs537.Runs

/-- The process is in a call on the end of the pipe. -/
def Phase.On : Phase → End → Prop
  | .asleep call, side | .awake call, side => call.side = side
  | .outside, _ => False

/-- The pipe is open at the ends that are held. -/
def Pipe.isOpen (p : Pipe) : End → Bool
  | .read => p.readopen
  | .write => p.writeopen

/-- The pipe is a queue of bytes, its ends are open as long as they are held, and the processes
inside hold their end. -/
structure Sound (s : System) : Prop where
  within : s.pipe.buffer.contents.length ≤ PIPESIZE
  fifo : s.stored = s.taken ++ s.pipe.buffer.contents
  held : ∀ side, s.pipe.isOpen side = true ↔ s.holders side ≠ []
  freed : s.freed = if s.holders .read = [] ∧ s.holders .write = [] then 1 else 0
  inside : ∀ pid side, (s.phase pid).On side → pid ∈ s.holders side

/-- What a call on an end waits for has not happened: the pipe is full and can be read, or it is
empty and can be written. -/
def Pipe.Blocks (p : Pipe) : End → Prop
  | .write => p.buffer.contents.length = PIPESIZE ∧ p.readopen = true
  | .read => p.buffer.contents = [] ∧ p.writeopen = true

/-- A sleeping process has a reason to sleep. -/
def Alert (s : System) : Prop :=
  ∀ pid call, s.phase pid = .asleep call → s.pipe.Blocks call.side ∧ s.killed pid = false

theorem on_wakeup (phase : Phase) (woken side : End) : (phase.wakeup woken).On side ↔ phase.On side := by
  cases phase with
  | outside => exact Iff.rfl
  | awake call => exact Iff.rfl
  | asleep call =>
    simp only [Phase.wakeup]
    split <;> exact Iff.rfl

/-- Who sleeps after a wakeup has slept before it, on another channel. -/
theorem wakeup_asleep {phase : Phase} {side : End} {call : Call}
    (still : phase.wakeup side = .asleep call) : phase = .asleep call ∧ call.side ≠ side := by
  cases phase with
  | outside => exact absurd still (by simp [Phase.wakeup])
  | awake call => exact absurd still (by simp [Phase.wakeup])
  | asleep call' =>
    simp only [Phase.wakeup] at still
    split at still
    · exact absurd still (by simp)
    · next other =>
      obtain rfl : call' = call := by simpa using still
      exact ⟨rfl, other⟩

theorem on_rouse (phase : Phase) (side : End) : phase.rouse.On side ↔ phase.On side := by
  cases phase <;> exact Iff.rfl

variable {s : System} {pid : Nat}

/-- A step that moves bytes through the pipe, wakes some processes and puts one in another phase. -/
theorem Sound.moved (sound : Sound s) {p : Pipe} {phase : Nat → Phase} {now : Phase}
    {stored taken : List Byte} {killed : Nat → Bool} {returned : Option (Nat × Int)}
    (within : p.buffer.contents.length ≤ PIPESIZE) (fifo : stored = taken ++ p.buffer.contents)
    (ends : p.readopen = s.pipe.readopen ∧ p.writeopen = s.pipe.writeopen)
    (same : ∀ other side, (phase other).On side ↔ (s.phase other).On side)
    (here : ∀ side, now.On side → pid ∈ s.holders side) :
    Sound { s with
      pipe := p
      phase := Function.update phase pid now
      killed := killed
      returned := returned
      stored := stored
      taken := taken } where
  within := within
  fifo := fifo
  held := by
    rintro (_ | _)
    · exact (iff_of_eq (congrArg (· = true) ends.1)).trans (sound.held .read)
    · exact (iff_of_eq (congrArg (· = true) ends.2)).trans (sound.held .write)
  freed := sound.freed
  inside := by
    intro other side on
    by_cases first : other = pid
    · subst first
      exact here side (by simpa using on)
    · exact sound.inside other side ((same other side).mp (by simpa [first] using on))

/-- How the stored bytes and the pipe change in a segment of a write. -/
theorem Sound.write (sound : Sound s) {bytes : List Byte} {n : Nat} (holds : pid ∈ s.holders .write) :
    Sound (s.write pid bytes n) := by
  obtain ⟨readopen, writeopen, written⟩ := pipewrite_written s.pipe (s.killed pid) bytes sound.within
  unfold System.write
  revert written
  rcases segment : pipewrite s.pipe (s.killed pid) bytes with ⟨p, _ | _ | rest⟩
  all_goals rw [segment] at readopen writeopen
  · rintro ⟨contents, fits⟩
    refine sound.moved ?_ ?_ ⟨readopen, writeopen⟩ (fun _ _ => on_wakeup ..) (fun _ on => on.elim)
    · change p.buffer.contents.length ≤ PIPESIZE
      rw [contents, List.length_append]
      exact fits
    · change s.stored ++ bytes = s.taken ++ p.buffer.contents
      rw [contents, sound.fifo, List.append_assoc]
  · rintro ⟨contents, full, -⟩
    refine sound.moved (Nat.le_of_eq full) ?_ ⟨readopen, writeopen⟩ (fun _ _ => Iff.rfl)
      (fun _ on => on.elim)
    change s.stored ++ _ = s.taken ++ p.buffer.contents
    rw [contents, sound.fifo, List.append_assoc]
  · rintro ⟨contents, full, -⟩
    refine sound.moved (Nat.le_of_eq full) ?_ ⟨readopen, writeopen⟩ (fun _ _ => on_wakeup ..)
      (fun side on => ?_)
    · change s.stored ++ _ = s.taken ++ p.buffer.contents
      rw [contents, sound.fifo, List.append_assoc]
    · obtain rfl : .write = side := on
      exact holds

theorem Sound.read (sound : Sound s) {n : Nat} (holds : pid ∈ s.holders .read) :
    Sound (s.read pid n) := by
  obtain ⟨readopen, writeopen, took⟩ := piperead_taken s.pipe (s.killed pid) n
  unfold System.read
  revert took
  rcases segment : piperead s.pipe (s.killed pid) n with ⟨p, bytes | _ | _⟩
  all_goals rw [segment] at readopen writeopen
  · rintro ⟨first, last, -⟩
    refine sound.moved ?_ ?_ ⟨readopen, writeopen⟩ (fun _ _ => on_wakeup ..) (fun _ on => on.elim)
    · change p.buffer.contents.length ≤ PIPESIZE
      rw [last, List.length_drop]
      exact Nat.le_trans (Nat.sub_le _ _) sound.within
    · change s.stored = (s.taken ++ bytes) ++ p.buffer.contents
      rw [first, last, List.append_assoc, List.take_append_drop]
      exact sound.fifo
  · intro _
    exact sound.moved sound.within sound.fifo ⟨rfl, rfl⟩ (fun _ _ => Iff.rfl) (fun _ on => on.elim)
  · intro _
    refine sound.moved sound.within sound.fifo ⟨rfl, rfl⟩ (fun _ _ => Iff.rfl) (fun side on => ?_)
    obtain rfl : .read = side := on
    exact holds

theorem Sound.closed (sound : Sound s) {side : End} (holds : pid ∈ s.holders side)
    (out : (s.phase pid).isOutside = true) : Sound (s.close pid side) := by
  have apart : ∀ other end', (s.phase other).On end' → end' = side → other ≠ pid := by
    rintro other _ on rfl rfl
    cases phase : s.phase other with
    | outside =>
      rw [phase] at on
      exact on
    | awake call => simp [phase, Phase.isOutside] at out
    | asleep call => simp [phase, Phase.isOutside] at out
  have inside : ∀ other end', (s.phase other).On end' →
      other ∈ Function.update s.holders side ((s.holders side).erase pid) end' := by
    intro other end' on
    have member := sound.inside other end' on
    by_cases same : end' = side
    · rw [same, Function.update_self]
      exact (List.mem_erase_of_ne (apart other end' on same)).mpr (same ▸ member)
    · rw [Function.update_of_ne same]
      exact member
  have some : s.holders side ≠ [] := List.ne_nil_of_mem holds
  have unfreed : s.freed = 0 := by
    rw [sound.freed, if_neg]
    rintro ⟨readers, writers⟩
    cases side with
    | read => exact some readers
    | write => exact some writers
  unfold System.close
  simp only
  split
  · next last =>
    have held : ∀ end', (pipeclose s.pipe side).isOpen end' = true ↔
        Function.update s.holders side ((s.holders side).erase pid) end' ≠ [] := by
      intro end'
      rw [last]
      cases side <;> cases end'
      · simp [pipeclose, Pipe.isOpen]
      · simpa [pipeclose, Pipe.isOpen, Function.update_of_ne] using sound.held .write
      · simpa [pipeclose, Pipe.isOpen, Function.update_of_ne] using sound.held .read
      · simp [pipeclose, Pipe.isOpen]
    have same : (pipeclose s.pipe side).buffer = s.pipe.buffer := by
      cases side <;> rfl
    have both : ((pipeclose s.pipe side).readopen = false ∧ (pipeclose s.pipe side).writeopen = false) ↔
        (Function.update s.holders side ((s.holders side).erase pid) .read = [] ∧
          Function.update s.holders side ((s.holders side).erase pid) .write = []) := by
      have one := not_congr (held .read)
      have two := not_congr (held .write)
      rw [Bool.not_eq_true, not_not] at one two
      exact and_congr one two
    have closed : ∀ freed : Nat,
        freed = (if Function.update s.holders side ((s.holders side).erase pid) .read = [] ∧
          Function.update s.holders side ((s.holders side).erase pid) .write = [] then 1 else 0) →
        Sound { s with
          pipe := pipeclose s.pipe side
          freed := freed
          holders := Function.update s.holders side ((s.holders side).erase pid)
          phase := fun other => (s.phase other).wakeup side.other } := by
      intro freed counted
      refine ⟨?_, ?_, held, counted, fun other end' on => inside other end' ((on_wakeup ..).mp on)⟩
      · change (pipeclose s.pipe side).buffer.contents.length ≤ PIPESIZE
        rw [same]
        exact sound.within
      · change s.stored = s.taken ++ (pipeclose s.pipe side).buffer.contents
        rw [same]
        exact sound.fifo
    split
    · next none =>
      refine closed (s.freed + 1) ?_
      rw [if_pos (both.mp none), unfreed]
    · next some =>
      refine closed s.freed ?_
      rw [if_neg fun empty => some (both.mpr empty), unfreed]
  · next more =>
    have held : ∀ end', s.pipe.isOpen end' = true ↔
        Function.update s.holders side ((s.holders side).erase pid) end' ≠ [] := by
      intro end'
      by_cases here : end' = side
      · rw [here, Function.update_self, sound.held side]
        exact iff_of_true some more
      · rw [Function.update_of_ne here]
        exact sound.held end'
    refine ⟨sound.within, sound.fifo, held, ?_, inside⟩
    change s.freed = _
    rw [unfreed, if_neg]
    rintro ⟨readers, writers⟩
    cases side with
    | read => exact more (by simpa using readers)
    | write => exact more (by simpa using writers)

theorem step_sound {action : Action} {after : System} (sound : Sound s)
    (moved : step s action = some after) : Sound after := by
  cases action with
  | write pid bytes =>
    simp only [step] at moved
    split at moved
    · next can => exact Option.some.inj moved ▸ sound.write can.1
    · exact absurd moved (by simp)
  | read pid n =>
    simp only [step] at moved
    split at moved
    · next can => exact Option.some.inj moved ▸ sound.read can.1
    · exact absurd moved (by simp)
  | resume pid =>
    simp only [step] at moved
    split at moved
    · next phase => exact Option.some.inj moved ▸ sound.write (sound.inside pid .write (by rw [phase]; rfl))
    · next phase => exact Option.some.inj moved ▸ sound.read (sound.inside pid .read (by rw [phase]; rfl))
    · exact absurd moved (by simp)
  | kill pid =>
    rw [← Option.some.inj moved]
    exact sound.moved sound.within sound.fifo ⟨rfl, rfl⟩ (fun _ _ => Iff.rfl)
      (fun side on => sound.inside pid side ((on_rouse ..).mp on))
  | dup pid child side =>
    simp only [step] at moved
    split at moved
    · next can =>
      rw [← Option.some.inj moved]
      have more : ∀ end', Function.update s.holders side (child :: s.holders side) end' = [] ↔
          s.holders end' = [] := by
        intro end'
        by_cases here : end' = side
        · rw [here, Function.update_self]
          exact iff_of_false (List.cons_ne_nil _ _) (List.ne_nil_of_mem can.1)
        · rw [Function.update_of_ne here]
      refine ⟨sound.within, sound.fifo, fun end' => (sound.held end').trans (not_congr (more end').symm),
        ?_, fun other end' on => ?_⟩
      · change s.freed = _
        simp only [more]
        exact sound.freed
      · change other ∈ Function.update s.holders side (child :: s.holders side) end'
        by_cases here : end' = side
        · rw [here, Function.update_self]
          exact List.mem_cons_of_mem _ (here ▸ sound.inside other end' on)
        · rw [Function.update_of_ne here]
          exact sound.inside other end' on
    · exact absurd moved (by simp)
  | close pid side =>
    simp only [step] at moved
    split at moved
    · next can => exact Option.some.inj moved ▸ sound.closed can.1 can.2
    · exact absurd moved (by simp)

theorem new_empty (data : Fin PIPESIZE → Byte) (pid : Nat) :
    (System.new data pid).pipe.buffer.contents = [] :=
  (Buffer.isEmpty_iff _).mp rfl

theorem new_sound (data : Fin PIPESIZE → Byte) (pid : Nat) : Sound (.new data pid) where
  within := by
    rw [new_empty]
    exact Nat.zero_le _
  fifo := (new_empty data pid).symm
  held := by
    rintro (_ | _)
    · exact iff_of_true rfl (List.cons_ne_nil _ _)
    · exact iff_of_true rfl (List.cons_ne_nil _ _)
  freed := rfl
  inside := fun _ _ on => on.elim

theorem run_sound {data : Fin PIPESIZE → Byte} {actions : List Action}
    (completed : run step (.new data pid) actions = some s) : Sound s :=
  @run_invariant _ _ _ (fun _ _ => True) Sound (fun _ _ _ _ held moved => step_sound held moved)
    _ _ _ (new_sound data pid) (.unguarded _ _) completed

/-- A pipe is a bounded queue. In every interleaving the bytes that were taken and the bytes in the
pipe are the bytes that were stored, in order, and a read of more than no bytes returns none only
when all of them were taken and nobody holds the write end. -/
theorem pipe_queues {data : Fin PIPESIZE → Byte} {actions : List Action}
    (completed : run step (.new data pid) actions = some s) :
    s.stored = s.taken ++ s.pipe.buffer.contents ∧
    s.pipe.buffer.contents.length ≤ PIPESIZE ∧
    ∀ killed n, 0 < n → (piperead s.pipe killed n).2 = .took [] →
      s.stored = s.taken ∧ s.holders .write = [] := by
  have sound := run_sound completed
  refine ⟨sound.fifo, sound.within, fun killed n positive took => ?_⟩
  obtain ⟨-, -, taken⟩ := piperead_taken s.pipe killed n
  rw [took] at taken
  obtain ⟨first, -, closed⟩ := taken
  have empty : s.pipe.buffer.contents = [] := by
    rcases List.take_eq_nil_iff.mp first.symm with zero | none
    · omega
    · exact none
  refine ⟨by rw [sound.fifo, empty, List.append_nil], ?_⟩
  by_contra some
  exact absurd ((sound.held .write).mpr some) (by simp [Pipe.isOpen, closed empty])

/-- One process writes to another, which has read a part of it. -/
def shared : List Action :=
  [.dup 1 2 .read, .close 1 .read, .write 1 [104, 105, 33], .read 2 2]

theorem pipe_queues_shared :
    let s := final step (.new (fun _ => 0) 1) shared
    s.stored = s.taken ++ s.pipe.buffer.contents ∧
    s.pipe.buffer.contents.length ≤ PIPESIZE ∧
    ∀ killed n, 0 < n → (piperead s.pipe killed n).2 = .took [] →
      s.stored = s.taken ∧ s.holders .write = [] :=
  pipe_queues (run_final (by decide +kernel))

/-- A pipe is freed once. In every interleaving kfree has been called exactly if no descriptor of
either end is left, never twice, and a process that is inside a call holds its end. -/
theorem pipe_freed_once {data : Fin PIPESIZE → Byte} {actions : List Action}
    (completed : run step (.new data pid) actions = some s) :
    s.freed ≤ 1 ∧ (s.freed = 1 ↔ ∀ side, s.holders side = []) ∧
    ∀ other side, (s.phase other).On side →
      other ∈ s.holders side ∧ s.pipe.isOpen side = true ∧ s.freed = 0 := by
  have sound := run_sound completed
  have both : (∀ side, s.holders side = []) ↔ s.holders .read = [] ∧ s.holders .write = [] := by
    refine ⟨fun none => ⟨none _, none _⟩, ?_⟩
    rintro ⟨one, two⟩ (_ | _)
    · exact one
    · exact two
  have freed := sound.freed
  rw [both]
  refine ⟨?_, ?_, fun other side on => ?_⟩
  · split at freed <;> omega
  · split at freed
    · next none => exact iff_of_true freed none
    · next some => exact iff_of_false (by omega) some
  · have holds := sound.inside other side on
    have some := List.ne_nil_of_mem holds
    refine ⟨holds, (sound.held side).mpr some, ?_⟩
    rw [freed, if_neg]
    exact fun none => some (both.mpr none side)

theorem pipe_freed_once_shared :
    let s := final step (.new (fun _ => 0) 1) shared
    s.freed ≤ 1 ∧ (s.freed = 1 ↔ ∀ side, s.holders side = []) ∧
    ∀ other side, (s.phase other).On side →
      other ∈ s.holders side ∧ s.pipe.isOpen side = true ∧ s.freed = 0 :=
  pipe_freed_once (run_final (by decide +kernel))

/-! ## Sleepers -/

/-- A write that a killed process starts or goes on with stores all of its bytes, or none. -/
def Whole (s : System) (pid : Nat) (bytes : List Byte) : Prop :=
  s.killed pid = true → s.pipe.buffer.contents.length + bytes.length ≤ PIPESIZE ∨
    s.pipe.buffer.contents.length = PIPESIZE

/-- No killed process gives up after it has stored bytes. -/
def Steady (s : System) : Action → Prop
  | .write pid bytes => Whole s pid bytes
  | .resume pid => ∀ rest n, s.phase pid = .awake (.writing rest n) → Whole s pid rest
  | _ => True

/-- A step that changes the pipe, wakes some processes and puts one in another phase. -/
theorem Alert.moved {p : Pipe} {phase : Nat → Phase} {now : Phase} {stored taken : List Byte}
    {returned : Option (Nat × Int)} {killed : Nat → Bool}
    (others : ∀ other call, other ≠ pid → phase other = .asleep call →
      p.Blocks call.side ∧ killed other = false)
    (here : ∀ call, now = .asleep call → p.Blocks call.side ∧ killed pid = false) :
    Alert { s with
      pipe := p
      phase := Function.update phase pid now
      killed := killed
      returned := returned
      stored := stored
      taken := taken } := by
  intro other call asleep
  by_cases first : other = pid
  · subst first
    exact here call (by simpa using asleep)
  · exact others other call first (by simpa [first] using asleep)

theorem not_read {call : Call} (other : call.side ≠ .read) : call.side = .write := by
  cases call with
  | writing => rfl
  | reading => exact absurd rfl other

theorem not_write {call : Call} (other : call.side ≠ .write) : call.side = .read := by
  cases call with
  | writing => exact absurd rfl other
  | reading => rfl

theorem Alert.write (alert : Alert s) (sound : Sound s) {bytes : List Byte} {n : Nat}
    (whole : Whole s pid bytes) : Alert (s.write pid bytes n) := by
  obtain ⟨readopen, writeopen, written⟩ := pipewrite_written s.pipe (s.killed pid) bytes sound.within
  unfold System.write
  revert written
  rcases segment : pipewrite s.pipe (s.killed pid) bytes with ⟨p, _ | _ | rest⟩
  all_goals rw [segment] at readopen writeopen
  · rintro ⟨contents, fits⟩
    refine Alert.moved (fun other call _ asleep => ?_) (fun _ none => absurd none (by simp))
    obtain ⟨before, side⟩ := wakeup_asleep asleep
    obtain ⟨blocks, lives⟩ := alert other call before
    rw [not_read side] at blocks ⊢
    obtain ⟨full, opened⟩ := blocks
    refine ⟨⟨?_, readopen.trans opened⟩, lives⟩
    change p.buffer.contents.length = PIPESIZE
    rw [show p.buffer.contents = _ from contents, List.length_append]
    omega
  · rintro ⟨contents, full, longer, why⟩
    refine Alert.moved (fun other call _ before => ?_) (fun _ none => absurd none (by simp))
    obtain ⟨blocks, lives⟩ := alert other call before
    refine ⟨?_, lives⟩
    cases side : call.side with
    | write =>
      rw [side] at blocks
      exact ⟨full, readopen.trans blocks.2⟩
    | read =>
      -- a reader sleeps, so the read end is open and the writer was killed
      rw [side] at blocks
      have holds := sound.inside other .read (by
        rw [show s.phase other = _ from before]
        exact side)
      have opened : s.pipe.readopen = true := (sound.held .read).mpr (List.ne_nil_of_mem holds)
      have room := whole (why.resolve_left (by simp [opened]))
      have some : 0 < PIPESIZE := by decide
      rw [blocks.1, List.length_nil] at longer room
      omega
  · rintro ⟨contents, full, -, opened, lives⟩
    refine Alert.moved (fun other call _ asleep => ?_) (fun call same => ?_)
    · obtain ⟨before, side⟩ := wakeup_asleep asleep
      rw [not_read side]
      exact ⟨⟨full, readopen.trans opened⟩, (alert other call before).2⟩
    · obtain rfl : .writing rest n = call := by simpa using same
      exact ⟨⟨full, readopen.trans opened⟩, lives⟩

theorem Alert.read (alert : Alert s) {n : Nat} : Alert (s.read pid n) := by
  obtain ⟨readopen, writeopen, took⟩ := piperead_taken s.pipe (s.killed pid) n
  unfold System.read
  revert took
  rcases segment : piperead s.pipe (s.killed pid) n with ⟨p, bytes | _ | _⟩
  all_goals rw [segment] at readopen writeopen
  · rintro ⟨-, last, -⟩
    refine Alert.moved (fun other call _ asleep => ?_) (fun _ none => absurd none (by simp))
    obtain ⟨before, side⟩ := wakeup_asleep asleep
    obtain ⟨blocks, lives⟩ := alert other call before
    rw [not_write side] at blocks ⊢
    refine ⟨⟨?_, writeopen.trans blocks.2⟩, lives⟩
    change p.buffer.contents = []
    rw [show p.buffer.contents = _ from last, blocks.1, List.drop_nil]
  · intro _
    exact Alert.moved (fun other call _ before => alert other call before)
      (fun _ none => absurd none (by simp))
  · rintro ⟨empty, opened, lives⟩
    refine Alert.moved (fun other call _ before => alert other call before) (fun call same => ?_)
    obtain rfl : .reading n = call := by simpa using same
    exact ⟨⟨empty, opened⟩, lives⟩

/-- Closing an end wakes the other side, and nobody sleeps on the end that is closed. -/
theorem Alert.closed (alert : Alert s) (sound : Sound s) {side : End} (holds : pid ∈ s.holders side)
    (out : (s.phase pid).isOutside = true) : Alert (s.close pid side) := by
  unfold System.close
  simp only
  split
  · next last =>
    have none : ∀ other call, (s.phase other).wakeup side.other ≠ .asleep call := by
      intro other call asleep
      obtain ⟨before, apart⟩ := wakeup_asleep asleep
      have here : call.side = side := by
        cases side with
        | read => exact not_write apart
        | write => exact not_read apart
      have member := sound.inside other side (by rw [before]; exact here)
      have different : other ≠ pid := by
        rintro rfl
        simp [before, Phase.isOutside] at out
      have left := (List.mem_erase_of_ne different).mpr member
      rw [last] at left
      exact List.not_mem_nil left
    split
    · exact fun other call asleep => absurd asleep (none other call)
    · exact fun other call asleep => absurd asleep (none other call)
  · exact alert

theorem step_alert {action : Action} {after : System} (alert : Alert s) (sound : Sound s)
    (steady : Steady s action) (moved : step s action = some after) : Alert after := by
  cases action with
  | write pid bytes =>
    simp only [step] at moved
    split at moved
    · exact Option.some.inj moved ▸ alert.write sound steady
    · exact absurd moved (by simp)
  | read pid n =>
    simp only [step] at moved
    split at moved
    · exact Option.some.inj moved ▸ alert.read
    · exact absurd moved (by simp)
  | resume pid =>
    simp only [step] at moved
    split at moved
    · next rest n phase => exact Option.some.inj moved ▸ alert.write sound (steady rest n phase)
    · exact Option.some.inj moved ▸ alert.read
    · exact absurd moved (by simp)
  | kill pid =>
    rw [← Option.some.inj moved]
    refine Alert.moved (fun other call first before => ?_) (fun call asleep => ?_)
    · obtain ⟨blocks, lives⟩ := alert other call before
      exact ⟨blocks, (Function.update_of_ne first ..).trans lives⟩
    · cases phase : s.phase pid <;> simp [phase, Phase.rouse] at asleep
  | dup pid child side =>
    simp only [step] at moved
    split at moved
    · exact Option.some.inj moved ▸ alert
    · exact absurd moved (by simp)
  | close pid side =>
    simp only [step] at moved
    split at moved
    · next can => exact Option.some.inj moved ▸ alert.closed sound can.1 can.2
    · exact absurd moved (by simp)

/-- No sleeper is forgotten. In every interleaving in which no killed writer gives up on bytes that
it has begun to store, a sleeping writer finds the pipe full and its read end held, a
sleeping reader finds the pipe empty and its write end held, and neither was killed. -/
theorem pipe_wakes {data : Fin PIPESIZE → Byte} {actions : List Action}
    (steady : Meets step Steady (.new data pid) actions)
    (completed : run step (.new data pid) actions = some s) {other : Nat} {call : Call}
    (asleep : s.phase other = .asleep call) :
    s.pipe.Blocks call.side ∧ s.killed other = false ∧ s.holders call.side.other ≠ [] := by
  have both : Sound s ∧ Alert s := by
    refine @run_invariant _ _ _ Steady (fun s => Sound s ∧ Alert s) ?_ _ _ _
      ⟨new_sound data pid, fun _ _ none => absurd none (by simp [System.new])⟩ steady completed
    rintro before action after steady ⟨sound, alert⟩ moved
    exact ⟨step_sound sound moved, step_alert alert sound steady moved⟩
  obtain ⟨sound, alert⟩ := both
  obtain ⟨blocks, lives⟩ := alert other call asleep
  refine ⟨blocks, lives, ?_⟩
  cases call with
  | writing => exact (sound.held .read).mp blocks.2
  | reading => exact (sound.held .write).mp blocks.2

/-- A reader that waits for the first byte. -/
def waiting : List Action := [.dup 1 2 .read, .read 2 4]

theorem pipe_wakes_waiting :
    let s := final step (.new (fun _ => 0) 1) waiting
    s.pipe.Blocks .read ∧ s.killed 2 = false ∧ s.holders .write ≠ [] :=
  @pipe_wakes _ 1 _ waiting ⟨trivial, fun _ _ => ⟨trivial, fun _ _ => trivial⟩⟩
    (run_final (by decide +kernel)) 2 (.reading 4) (by decide +kernel)

/-- The condition is needed: a killed writer fills the pipe and returns, and the reader sleeps on. -/
theorem killed_writer_forgets_reader :
    let s := final step (.new (fun _ => 0) 1)
      (waiting ++ [.kill 1, .write 1 (List.replicate (PIPESIZE + 1) 0)])
    s.phase 2 = .asleep (.reading 4) ∧ s.pipe.buffer.count = PIPESIZE ∧ s.returned = some (1, -1) := by
  decide +kernel

end Cs537.Pipes
