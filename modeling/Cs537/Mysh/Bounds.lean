import Cs537.Mysh.Copies
import Cs537.Mysh.Redirection

/-!
# The arrays of the command loops

The words of a line go through four local arrays and the array of an alias node, each of
100 elements. The log of a line names every element that is written or read, from the first
loop to the child process, as both copies of the command loop do it. Behind an access
outside of an array nothing is defined, and the log ends with the loop that made it.
-/

namespace Cs537.Mysh

open DoublyLinked

/-- The arrays of `MAX_LINE_CMDS` pointers; the last one is that of an alias node. -/
inductive PathArray where
  | args
  | redirOutput
  | redirArgs
  | path
  | nodePath
deriving DecidableEq

/-- An element of an array that is written or read. -/
abbrev Access := PathArray × Nat

/-- The accesses to one array. -/
def touching (array : PathArray) (indices : List Nat) : List Access := indices.map fun i => (array, i)

/-- The loop that prints the path of a node. -/
def Node.printAccesses (node : Node) : List Access := touching .nodePath (List.range node.num.toNat)

/-- The loop of `printList`. -/
def printAccesses (heap : Addr → Option Node) : Nat → Link Addr → Option (List Access)
  | _, .null => some []
  | fuel + 1, .node temp => do
    let node ← heap temp
    let later ← printAccesses heap fuel node.next
    some (node.printAccesses ++ later)
  | _, _ => none

/-- The block of `alias`. The local path is filled one element too far, with the null behind
the words, and copied into the node by `addNodePath`. -/
def aliasAccesses (s : Shell) : List Text → Option (List Access)
  | [_] => do
    let node ← s.load (← s.first)
    printAccesses s.heap s.live node.next
  | [_, name] => do
    match ← s.checkAlias (← s.first) name with
    | none => some [(.args, 1)]
    | some print => do
      let node ← s.load (.node print)
      some ((.args, 1) :: node.printAccesses)
  | _ :: name :: path =>
    if name = aliasWord ∨ name = unaliasWord ∨ name = exitWord then some [(.args, 1)]
    else
      some ((.args, 1) ::
        touching .args (List.range' 2 (path.length + 1)) ++ touching .path (List.range (path.length + 1)) ++
          touching .path (List.range path.length) ++ touching .nodePath (List.range path.length))
  | [] => none

/-- From the search for a redirection to the child process. -/
def commandAccesses (s : Shell) (input : Input) (kept : Text) (args : List Text) :
    Option (List Access) :=
  let found := redirect input.line kept
  let log := touching .redirOutput (found.output.elim [] Split.accesses) ++
    touching .redirArgs (found.args.elim [] Split.accesses)
  if found.accepted ∧ input.forks then do
    match ← s.checkAlias (← s.first) (args.headD []) with
    | some _ => some (log ++ [(.args, 0), (.nodePath, 0)])
    | none =>
      if found.flag then some (log ++ [(.args, 0), (.redirOutput, 0), (.redirArgs, 0)])
      else some (log ++ [(.args, 0)])
  else some log

/-- The body of either loop, behind the test for `exit`. -/
def lineAccesses (s : Shell) (input : Input) : Option (List Access) :=
  let split := splitLoop blank (some input.line) []
  let log := touching .args split.accesses
  if MAX_LINE_CMDS ≤ split.count then some log
  else
    let args := split.entries.filterMap id
    (if args = [] then some [(.args, 0)]
      else if args.head? = some aliasWord then aliasAccesses s args
      else if args.head? = some unaliasWord then
        if args.length > 2 ∨ args.length < 2 then some [(.args, 0)] else some [(.args, 1)]
      else commandAccesses s input split.kept args).map fun later => log ++ (.args, 0) :: later

/-- Every access of a line is inside of its array, and the vectors for `execv` have a null
behind the last word, still inside. -/
structure InBounds (s : Shell) (input : Input) : Prop where
  accesses : ∃ log, lineAccesses s input = some log ∧ ∀ access ∈ log, access.2 < MAX_LINE_CMDS
  args : (splitLoop blank (some input.line) []).entries = vector (words input.line) ∧
    (vector (words input.line)).length ≤ MAX_LINE_CMDS
  redirArgs : ∀ split, (redirect input.line (splitLoop blank (some input.line) []).kept).accepted = true →
    (redirect input.line (splitLoop blank (some input.line) []).kept).args = some split →
    split.entries = vector (words (beforeMark input.line)) ∧
      (vector (words (beforeMark input.line))).length ≤ MAX_LINE_CMDS

/-! ## Logs -/

/-- Every access of the log is inside of its array. -/
def Within (log : List Access) : Prop := ∀ access ∈ log, access.2 < MAX_LINE_CMDS

theorem within_nil : Within [] := fun _ member => absurd member List.not_mem_nil

theorem Within.append {one two : List Access} (first : Within one) (second : Within two) :
    Within (one ++ two) := by
  intro access member
  exact (List.mem_append.mp member).elim (first access) (second access)

theorem Within.cons {array : PathArray} {i : Nat} {log : List Access} (small : i < MAX_LINE_CMDS)
    (within : Within log) : Within ((array, i) :: log) := by
  intro access member
  rcases List.mem_cons.mp member with rfl | later
  · exact small
  · exact within access later

theorem within_touching {array : PathArray} {indices : List Nat} (small : ∀ i ∈ indices, i < MAX_LINE_CMDS) :
    Within (touching array indices) := by
  intro access member
  obtain ⟨i, inside, rfl⟩ := List.mem_map.mp member
  exact small i inside

theorem within_range {array : PathArray} {n : Nat} (small : n ≤ MAX_LINE_CMDS) :
    Within (touching array (List.range n)) := by
  apply within_touching
  intro i inside
  exact Nat.lt_of_lt_of_le (List.mem_range.mp inside) small

/-- The path of a node that stores an entry is printed from its array. -/
theorem Stores.within {node : Node} {entry : Entry} (stores : Stores node entry) :
    Within node.printAccesses := by
  have count : node.num.toNat = entry.words.length := by
    rw [stores.num]
    rfl
  rw [Node.printAccesses, count]
  exact within_range (Nat.le_of_lt stores.bound)

/-! ## Lines of few words -/

section Line

variable {s : Shell} {sentinel : Addr} {cells : List (Addr × Entry)} {input : Input}

/-- The loop of `printList` stays inside of the arrays of the nodes. -/
theorem printAccesses_within {heap : Addr → Option Node} {fuel : Nat} (trail : Trail heap cells)
    (enough : cells.length ≤ fuel) :
    ∃ log, printAccesses heap fuel (linkTo cells) = some log ∧ Within log := by
  induction cells generalizing fuel with
  | nil => cases fuel <;> exact ⟨[], rfl, within_nil⟩
  | cons cell rest inductionHypothesis =>
    obtain ⟨⟨node, found, stores, onward⟩, later⟩ := trail
    cases fuel with
    | zero => simp at enough
    | succ fuel =>
      obtain ⟨log, walked, within⟩ := inductionHypothesis later (Nat.le_of_succ_le_succ enough)
      refine ⟨node.printAccesses ++ log, ?_, stores.within.append within⟩
      rw [linkTo_cons]
      simp only [printAccesses, found, Option.bind_eq_bind, Option.bind_some, onward, walked]

/-- The block of `alias` stays inside of the arrays. -/
theorem Represents.aliasAccesses (represents : Represents s sentinel cells) {args : List Text}
    (few : args.length < MAX_LINE_CMDS) (some_ : args ≠ []) :
    ∃ log, Mysh.aliasAccesses s args = some log ∧ Within log := by
  have one : 1 < MAX_LINE_CMDS := by decide
  rcases args with _ | ⟨first, _ | ⟨name, _ | ⟨word, more⟩⟩⟩
  · exact absurd rfl some_
  · obtain ⟨node, found, onward⟩ := represents.behind
    simp only [Mysh.aliasAccesses, represents.first, Option.bind_eq_bind, Option.bind_some, Shell.load,
      found, onward]
    exact printAccesses_within represents.trail represents.live
  · simp only [Mysh.aliasAccesses, represents.first, Option.bind_eq_bind, Option.bind_some,
      represents.checkAlias]
    rcases find_cases cells name with ⟨missing, _⟩ | ⟨front, ⟨a, entry⟩, rest, found, rfl, _, _⟩
    · rw [missing]
      exact ⟨_, rfl, Within.cons one within_nil⟩
    · obtain ⟨node, there, stores⟩ := represents.stored (a, entry) (by simp)
      rw [found]
      simp only [Option.map_some, Shell.load, there, Option.bind_some]
      exact ⟨_, rfl, Within.cons one stores.within⟩
  · simp only [List.length_cons] at few
    simp only [Mysh.aliasAccesses]
    split
    · exact ⟨_, rfl, Within.cons one within_nil⟩
    · refine ⟨_, rfl, Within.append (Within.append (Within.append (Within.cons one ?_) ?_) ?_) ?_⟩
      · apply within_touching
        intro j inside
        rw [List.mem_range'_1] at inside
        simp only [List.length_cons] at inside
        omega
      · exact within_range (by simp only [List.length_cons]; omega)
      · exact within_range (by simp only [List.length_cons]; omega)
      · exact within_range (by simp only [List.length_cons]; omega)

/-- The search for a redirection and the child process stay inside of the arrays. -/
theorem Represents.commandAccesses (represents : Represents s sentinel cells)
    (few : (words input.line).length < MAX_LINE_CMDS) (kept : Text) (args : List Text) :
    ∃ log, Mysh.commandAccesses s input kept args = some log ∧ Within log := by
  have searched := redirect_searched few kept
  have zero : 0 < MAX_LINE_CMDS := by decide
  have output : Within (touching .redirOutput ((redirect input.line kept).output.elim [] Split.accesses)) := by
    apply within_touching
    cases found : (redirect input.line kept).output with
    | none => exact fun _ inside => absurd inside List.not_mem_nil
    | some split => exact (searched.output split found).2
  have before : Within (touching .redirArgs ((redirect input.line kept).args.elim [] Split.accesses)) := by
    apply within_touching
    cases found : (redirect input.line kept).args with
    | none => exact fun _ inside => absurd inside List.not_mem_nil
    | some split => exact (searched.args split found).2
  have parts := output.append before
  simp only [Mysh.commandAccesses]
  split
  · simp only [represents.first, Option.bind_eq_bind, Option.bind_some, represents.checkAlias]
    cases cells.find? fun cell => cell.2.name = args.headD [] with
    | some cell => exact ⟨_, rfl, parts.append (.cons zero (.cons zero within_nil))⟩
    | none =>
      simp only [Option.map_none]
      split
      · exact ⟨_, rfl, parts.append (.cons zero (.cons zero (.cons zero within_nil)))⟩
      · exact ⟨_, rfl, parts.append (.cons zero within_nil)⟩
  · exact ⟨_, rfl, parts⟩

/-- A line of at most 99 words stays inside of the arrays. -/
theorem Represents.inBounds (represents : Represents s sentinel cells)
    (few : (words input.line).length < MAX_LINE_CMDS) : InBounds s input := by
  obtain ⟨entries, _, touched⟩ := @splitLoop_words blank (some input.line) [] few
  have zero : 0 < MAX_LINE_CMDS := by decide
  have one : 1 < MAX_LINE_CMDS := by decide
  have fits : ∀ list : List Text, list.length < MAX_LINE_CMDS → (vector list).length ≤ MAX_LINE_CMDS := by
    intro list short
    simpa [vector] using short
  refine ⟨?_, ⟨entries, fits _ few⟩, ?_⟩
  · have room : ¬ MAX_LINE_CMDS ≤ (splitLoop blank (some input.line) []).count := by
      rw [vector_count entries]
      exact Nat.not_le.mpr few
    have args : (splitLoop blank (some input.line) []).entries.filterMap id = words input.line := by
      rw [entries]
      simp [vector, words]
    simp only [lineAccesses, if_neg room, args]
    suffices later : ∃ log, (if words input.line = [] then some [(PathArray.args, 0)]
        else if (words input.line).head? = some aliasWord then Mysh.aliasAccesses s (words input.line)
        else if (words input.line).head? = some unaliasWord then
          if (words input.line).length > 2 ∨ (words input.line).length < 2 then some [(.args, 0)]
          else some [(.args, 1)]
        else Mysh.commandAccesses s input (splitLoop blank (some input.line) []).kept
          (words input.line)) = some log ∧ Within log by
      obtain ⟨log, walked, within⟩ := later
      rw [walked]
      exact ⟨_, rfl, (within_touching touched).append (.cons zero within)⟩
    split_ifs with empty named unnamed wrong
    · exact ⟨_, rfl, .cons zero within_nil⟩
    · exact represents.aliasAccesses few empty
    · exact ⟨_, rfl, .cons zero within_nil⟩
    · exact ⟨_, rfl, .cons one within_nil⟩
    · exact represents.commandAccesses few _ _
  · intro split accepted found
    have searched := redirect_searched few (splitLoop blank (some input.line) []).kept
    obtain ⟨before, _⟩ := (refused_iff input.line).2 (searched.accepted.mp accepted)
    rw [← before]
    exact ⟨(searched.args split found).1, fits _ (pieces_few few 0)⟩

end Line

/-! ## Lines of many words -/

/-- A line of 100 words or more leaves the first array. -/
theorem few_of_inBounds {s : Shell} {input : Input} (inBounds : InBounds s input) :
    (words input.line).length < MAX_LINE_CMDS := by
  by_contra many
  obtain ⟨log, walked, within⟩ := inBounds.accesses
  have reached : 100 ∈ (splitLoop blank (some input.line) []).accesses := by
    refine splitFrom_reaches (Nat.zero_le 100) ?_
    rw [pending_call, Nat.zero_add]
    exact Nat.not_lt.mp many
  have member : (PathArray.args, 100) ∈ log := by
    have first : (PathArray.args, 100) ∈
        touching .args (splitLoop blank (some input.line) []).accesses :=
      List.mem_map_of_mem reached
    unfold lineAccesses at walked
    dsimp only at walked
    split at walked
    · exact Option.some.inj walked ▸ first
    · obtain ⟨later, _, rfl⟩ := Option.map_eq_some_iff.mp walked
      exact List.mem_append_left _ first
  exact absurd (within _ member) (by decide)

/-- After every session of admissible lines, in either command loop, all accesses to the
arrays for a line are inside of them, with a null behind the words of the vectors, if and
only if the line has at most 99 words. -/
theorem inBounds_iff {head tail : Addr × Node} (apart : head.1 ≠ tail.1) {inputs : List Input}
    (admissible : Runs.Meets batchStep Admissible (opened head tail) inputs) {session : Session}
    (completed : Runs.run batchStep (opened head tail) inputs = some session) (input : Input) :
    (InBounds session.shell input ↔ (words input.line).length < MAX_LINE_CMDS) ∧
      (Runs.Meets batchStep Cleared (opened head tail) inputs →
        ∀ interactive, Runs.run interactiveStep (opened head tail) inputs = some interactive →
          (InBounds interactive.shell input ↔ (words input.line).length < MAX_LINE_CMDS)) := by
  obtain ⟨_, sentinel, cells, represents, _⟩ := run_records apart admissible completed
  have same : InBounds session.shell input ↔ (words input.line).length < MAX_LINE_CMDS :=
    ⟨few_of_inBounds, represents.inBounds⟩
  refine ⟨same, fun cleared interactive completed' => ?_⟩
  obtain ⟨batch, other, ran, ran', agrees⟩ := copies_agree apart admissible cleared
  obtain rfl : batch = session := Option.some.inj (ran.symm.trans completed)
  obtain rfl : other = interactive := Option.some.inj (ran'.symm.trans completed')
  rw [agrees.shell]
  exact same

/-- A definition, and a line with a redirection after it. -/
theorem inBounds_iff_defined :
    ∃ session, Runs.run batchStep (opened (0, zeroed) (1, zeroed)) defined = some session ∧
      InBounds session.shell (cleanLineAt 3 "/bin/echo a>b\n") := by
  have completed : Runs.run batchStep (opened (0, zeroed) (1, zeroed)) defined = some _ :=
    Runs.run_final (by decide +kernel)
  exact ⟨_, completed, ((@inBounds_iff (0, zeroed) (1, zeroed) (by decide) defined (by decide +kernel) _
    completed (cleanLineAt 3 "/bin/echo a>b\n")).1).mpr (by decide +kernel)⟩

/-- A line of 100 words. -/
def wordy : Text := (List.replicate 100 ['a', ' ']).flatten ++ ['\n']

/-- It can be read, and it leaves the first array. -/
theorem args_overrun : wordy.length < MAX_CMD_LINE_SIZE ∧
    ∀ s cell forks execs, ¬ InBounds s ⟨wordy, cell, forks, execs⟩ := by
  refine ⟨by decide +kernel, fun s cell forks execs inBounds => ?_⟩
  have few : (words wordy).length < MAX_LINE_CMDS := few_of_inBounds inBounds
  exact absurd few (by decide +kernel)

end Cs537.Mysh
