import Cs537.Library.Chunks
import Cs537.Mysh.Loops

/-!
# The lines of a batch file

`batch_mode` reads its file into a buffer of 512 characters and takes what it finds there
for a line. The specification takes the lines of at most 512 characters for commands, up
to the first `exit`. A longer line arrives in blocks of 511 characters, and the test for
its length is made on one block. A command is named by its place in the file.
-/

namespace Cs537.Mysh

open Chunks

/-- What the loop does with a line: it is written out, and interpreted as a command. -/
inductive Frame where
  | echoed (text : Text)
  | interpreted (offset : Nat) (text : Text)
deriving DecidableEq

/-- The loop of `batch_mode` around the interpretation of a line, with the part of the
file that has been read. -/
def framesFrom (offset : Nat) : List Text → List Frame
  | [] => []
  | chunk :: rest =>
    let buf := string chunk
    if MAX_CMD_LINE_SIZE < buf.length then
      .echoed (buf.take MAX_CMD_LINE_SIZE) :: framesFrom (offset + chunk.length) rest
    else
      .echoed buf ::
        if buf = exitLine then []
        else .interpreted offset buf :: framesFrom (offset + chunk.length) rest

/-- What `batch_mode` does with a file. -/
def frames (file : Text) : List Frame := framesFrom 0 (fgets MAX_CMD_LINE_SIZE file)

/-- The specification: a longer line is only written out. -/
def intendedFrom (offset : Nat) : List Text → List Frame
  | [] => []
  | line :: rest =>
    .echoed line ::
      if line = exitLine then []
      else if line.length ≤ MAX_CMD_LINE_SIZE then
        .interpreted offset line :: intendedFrom (offset + line.length) rest
      else intendedFrom (offset + line.length) rest

/-- What should be done with a file. -/
def intended (file : Text) : List Frame := intendedFrom 0 (lines '\n' file)

/-- The commands, each with its place in the file. -/
def commands (list : List Frame) : List (Nat × Text) :=
  list.filterMap fun frame => match frame with
    | .interpreted offset text => some (offset, text)
    | .echoed _ => none

/-- All that is written out. -/
def echo (list : List Frame) : Text :=
  list.flatMap fun frame => match frame with
    | .echoed text => text
    | .interpreted _ _ => []

/-- The commands are the lines of the file that should be, and these are written out. -/
def Framed (file : Text) : Prop :=
  commands (frames file) = commands (intended file) ∧ echo (frames file) = echo (intended file)

/-! ## The command loop -/

/-- The inputs of a session that reads a file, with the answers of the environment by their
place in the file. -/
def batchInputs (answers : Nat → Input) (offset : Nat) : List Text → List Input
  | [] => []
  | chunk :: rest =>
    { answers offset with line := string chunk } ::
      batchInputs answers (offset + chunk.length) rest

/-- The effect of frames on the aliases and the output. -/
def replay (answers : Nat → Input) : Shell × List Event → List Frame → Option (Shell × List Event)
  | state, [] => some state
  | state, .echoed text :: rest => replay answers (state.1, state.2 ++ [.echo text]) rest
  | state, .interpreted offset text :: rest =>
    (batchLine state.1 { answers offset with line := text }).bind fun after =>
      replay answers (after.1, state.2 ++ after.2) rest

/-- Behind `exit` nothing happens any more. -/
theorem run_ended {session : Session} (ended : session.running = false) (inputs : List Input) :
    Runs.run batchStep session inputs = some session := by
  induction inputs with
  | nil => rfl
  | cons input rest inductionHypothesis =>
    have idle : batchStep session input = some session := by
      rw [batchStep, ended]
      rfl
    rw [Runs.run, idle, Option.bind_some, inductionHypothesis]

/-- A session is the effect of the frames of its file. -/
theorem run_replays (answers : Nat → Input) {bufs : List Text}
    (fits : ∀ chunk ∈ bufs, chunk.length ≤ MAX_CMD_LINE_SIZE) {session : Session}
    (running : session.running = true) (offset : Nat) :
    (Runs.run batchStep session (batchInputs answers offset bufs)).map
        (fun after => (after.shell, after.output)) =
      replay answers (session.shell, session.output) (framesFrom offset bufs) := by
  induction bufs generalizing session offset with
  | nil => rfl
  | cons chunk rest inductionHypothesis =>
    obtain ⟨short, later⟩ := List.forall_mem_cons.mp fits
    have within : ¬ MAX_CMD_LINE_SIZE < (string chunk).length :=
      Nat.not_lt.mpr (Nat.le_trans (List.takeWhile_sublist _).length_le short)
    simp only [batchInputs, Runs.run, framesFrom, if_neg within, replay, batchStep, running, if_true]
    by_cases leaves : string chunk = exitLine
    · rw [if_pos leaves, if_pos leaves, Option.bind_some, run_ended rfl]
      rfl
    · simp only [if_neg leaves, replay]
      cases batchLine session.shell { answers offset with line := string chunk } with
      | none => rfl
      | some after =>
        simp only [Option.map_some, Option.bind_some]
        exact inductionHypothesis later rfl _

/-! ## Lines that fit -/

theorem room_pos : 0 < MAX_CMD_LINE_SIZE - 1 := by decide

@[simp] theorem commands_echoed (text : Text) (rest : List Frame) :
    commands (.echoed text :: rest) = commands rest := rfl

@[simp] theorem commands_interpreted (offset : Nat) (text : Text) (rest : List Frame) :
    commands (.interpreted offset text :: rest) = (offset, text) :: commands rest := rfl

/-- The commands that should be are in the file behind what has been read. -/
theorem intendedFrom_behind {offset : Nat} {list : List Text} {command : Nat × Text}
    (inside : command ∈ commands (intendedFrom offset list)) : offset ≤ command.1 := by
  induction list generalizing offset with
  | nil => cases inside
  | cons line rest inductionHypothesis =>
    unfold intendedFrom at inside
    split at inside
    · cases inside
    · split at inside
      · simp only [commands_echoed, commands_interpreted, List.mem_cons] at inside
        rcases inside with rfl | later
        · exact Nat.le_refl _
        · exact Nat.le_trans (Nat.le_add_right _ _) (inductionHypothesis later)
      · exact Nat.le_trans (Nat.le_add_right _ _) (inductionHypothesis inside)

/-- A buffer that holds `exit` holds nothing else. -/
theorem string_exit {buf : Text} (inner : '\n' ∉ buf.dropLast) (leaves : string buf = exitLine) :
    buf = exitLine := by
  obtain ⟨rest, rfl⟩ : ∃ rest, buf = exitLine ++ rest := by
    obtain ⟨rest, whole⟩ := List.takeWhile_prefix (l := buf) (fun c => c ≠ NUL)
    exact ⟨rest, by rw [← whole, ← leaves]; rfl⟩
  cases rest with
  | nil => rw [List.append_nil]
  | cons c rest =>
    refine absurd ?_ inner
    rw [List.dropLast_append_of_ne_nil (by simp)]
    exact List.mem_append_left _ (by decide)

/-- The lines in front of the first `exit`. -/
def live (list : List Text) : List Text := list.takeWhile (· ≠ exitLine)

@[simp] theorem live_exit (rest : List Text) : live (exitLine :: rest) = [] := by
  simp [live]

theorem live_cons {line : Text} (goesOn : line ≠ exitLine) (rest : List Text) :
    live (line :: rest) = line :: live rest := by
  simp [live, goesOn]

/-- A line that fits into the buffer is read at once. -/
theorem fgets_line {line : Text} (framed : line ≠ [] ∧ '\n' ∉ line.dropLast)
    (short : line.length < MAX_CMD_LINE_SIZE) : fgets MAX_CMD_LINE_SIZE line = [line] :=
  chunks_short ⟨framed.1, Nat.le_pred_of_lt short, framed.2⟩

/-- A buffer that does not hold `exit` is interpreted. -/
theorem framesFrom_cons {chunk : Text} (inner : '\n' ∉ chunk.dropLast)
    (fits : chunk.length < MAX_CMD_LINE_SIZE) (goesOn : chunk ≠ exitLine) (offset : Nat)
    (rest : List Text) :
    framesFrom offset (chunk :: rest) = .echoed (string chunk) ::
      .interpreted offset (string chunk) :: framesFrom (offset + chunk.length) rest := by
  have within : ¬ MAX_CMD_LINE_SIZE < (string chunk).length :=
    Nat.not_lt.mpr (Nat.le_trans (List.takeWhile_sublist _).length_le (Nat.le_of_lt fits))
  have stays : string chunk ≠ exitLine := fun leaves => goesOn (string_exit inner leaves)
  rw [framesFrom]
  simp only [if_neg within, if_neg stays]

theorem framesFrom_exit (offset : Nat) (rest : List Text) :
    framesFrom offset (exitLine :: rest) = [.echoed exitLine] := by
  have whole : string exitLine = exitLine := by decide
  have within : ¬ MAX_CMD_LINE_SIZE < exitLine.length := by decide
  rw [framesFrom]
  simp only [whole, if_neg within, if_true]

/-- Lines that fit into the buffer and hold no zero are treated as they should be. -/
theorem framesFrom_intended {list : List Text} (offset : Nat)
    (framed : ∀ line ∈ list, line ≠ [] ∧ '\n' ∉ line.dropLast)
    (fit : ∀ line ∈ live list, line.length < MAX_CMD_LINE_SIZE ∧ NUL ∉ line) :
    framesFrom offset (list.flatMap (fgets MAX_CMD_LINE_SIZE)) = intendedFrom offset list := by
  induction list generalizing offset with
  | nil => rfl
  | cons line rest inductionHypothesis =>
    obtain ⟨shape, later⟩ := List.forall_mem_cons.mp framed
    rw [List.flatMap_cons]
    by_cases leaves : line = exitLine
    · subst leaves
      rw [fgets_line shape (by decide), List.singleton_append, framesFrom_exit, intendedFrom, if_pos rfl]
    · rw [live_cons leaves] at fit
      obtain ⟨⟨short, clean⟩, others⟩ := List.forall_mem_cons.mp fit
      rw [fgets_line shape short, List.singleton_append, framesFrom_cons shape.2 short leaves,
        inductionHypothesis _ later others, string_eq_iff.mpr clean, intendedFrom, if_neg leaves,
        if_pos (Nat.le_of_lt short)]

/-- If the commands are those that should be, the lines fit into the buffer and hold no
zero. -/
theorem fit_of_commands {list : List Text} (offset : Nat)
    (framed : ∀ line ∈ list, line ≠ [] ∧ '\n' ∉ line.dropLast)
    (same : commands (framesFrom offset (list.flatMap (fgets MAX_CMD_LINE_SIZE))) =
      commands (intendedFrom offset list)) :
    ∀ line ∈ live list, line.length < MAX_CMD_LINE_SIZE ∧ NUL ∉ line := by
  induction list generalizing offset with
  | nil => simp [live]
  | cons line rest inductionHypothesis =>
    obtain ⟨shape, later⟩ := List.forall_mem_cons.mp framed
    rw [List.flatMap_cons] at same
    by_cases leaves : line = exitLine
    · subst leaves
      simp
    · rw [live_cons leaves]
      rw [intendedFrom, if_neg leaves] at same
      by_cases short : line.length < MAX_CMD_LINE_SIZE
      · rw [fgets_line shape short, List.singleton_append, framesFrom_cons shape.2 short leaves,
          if_pos (Nat.le_of_lt short)] at same
        simp only [commands_echoed, commands_interpreted, List.cons.injEq, Prod.mk.injEq, true_and]
          at same
        exact List.forall_mem_cons.mpr
          ⟨⟨short, string_eq_iff.mp same.1⟩, inductionHypothesis _ later same.2⟩
      · -- the first block of a longer line is interpreted in the place of the line
        have long : MAX_CMD_LINE_SIZE - 1 < line.length := Nat.lt_of_lt_of_le (by decide)
          (Nat.not_lt.mp short)
        have block : (line.take (MAX_CMD_LINE_SIZE - 1)).length < MAX_CMD_LINE_SIZE := by
          rw [List.length_take_of_le (Nat.le_of_lt long)]
          decide
        have unmarked := take_unmarked shape.2 long
        have inner : '\n' ∉ (line.take (MAX_CMD_LINE_SIZE - 1)).dropLast := fun inside =>
          unmarked (List.mem_of_mem_dropLast inside)
        have goesOn : line.take (MAX_CMD_LINE_SIZE - 1) ≠ exitLine := fun leaves =>
          unmarked (leaves ▸ by decide)
        rw [fgets, chunks_long room_pos shape.2 long, List.cons_append,
          framesFrom_cons inner block goesOn] at same
        simp only [commands_echoed, commands_interpreted] at same
        split at same
        · rename_i fits
          simp only [commands_interpreted, List.cons.injEq, Prod.mk.injEq, true_and] at same
          have length : (string (line.take (MAX_CMD_LINE_SIZE - 1))).length < MAX_CMD_LINE_SIZE :=
            Nat.lt_of_le_of_lt (List.takeWhile_sublist _).length_le block
          exact absurd (same.1 ▸ length) short
        · have member : (offset, string (line.take (MAX_CMD_LINE_SIZE - 1))) ∈
              commands (intendedFrom (offset + line.length) rest) := by
            rw [← same]
            exact List.mem_cons_self
          have behind := intendedFrom_behind member
          have positive := List.length_pos_iff.mpr shape.1
          simp only at behind
          omega

/-- The commands that are interpreted are the lines of at most 512 characters up to the
first `exit`, and longer lines are only written out, if and only if every line in front of
it has at most 511 characters and holds no zero. -/
theorem framed_iff (file : Text) :
    Framed file ↔
      ∀ line ∈ live (lines '\n' file), line.length < MAX_CMD_LINE_SIZE ∧ NUL ∉ line := by
  have shapes : ∀ line ∈ lines '\n' file, _ := (lines_framed file).1
  have parts : frames file = framesFrom 0 ((lines '\n' file).flatMap (fgets MAX_CMD_LINE_SIZE)) := by
    rw [frames, fgets, chunks_lines room_pos]
    rfl
  constructor
  · intro framed
    have same := framed.1
    rw [parts] at same
    exact fit_of_commands 0 shapes same
  · intro fit
    have equal : frames file = intended file := by
      rw [parts]
      exact framesFrom_intended 0 shapes fit
    exact ⟨congrArg commands equal, congrArg echo equal⟩

instance (file : Text) : Decidable (Framed file) := inferInstanceAs (Decidable (_ ∧ _))

/-- A line of 600 characters is interpreted as two commands. -/
theorem framed_long : ¬ Framed (List.replicate 600 'a' ++ ['\n']) ∧
    commands (frames (List.replicate 600 'a' ++ ['\n'])) =
      [(0, List.replicate 511 'a'), (511, List.replicate 89 'a' ++ ['\n'])] := by
  decide +kernel

end Cs537.Mysh
