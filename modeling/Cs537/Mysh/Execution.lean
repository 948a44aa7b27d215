import Cs537.Mysh.AliasTable

/-!
# The argument vector of an alias

`addNodePath` writes the words of a definition into the array of the node and no null
behind them, so the vector that `execv` reads goes on with whatever follows: what
`malloc` left there, or a word of an earlier and longer definition. It is the word
list of the present definition exactly if neither is the case.
-/

namespace Cs537.Mysh

open DoublyLinked OrderedMap

/-- The array of the node ends behind the present definition: `malloc` left a null there,
and no definition of the node has reached that far. -/
def Entry.Terminated (entry : Entry) : Prop :=
  entry.contents entry.words.length = .null ∧
    ∀ definition ∈ entry.earlier, definition.length ≤ entry.words.length

/-- The vector is the present definition if the array ends behind it. -/
theorem Stores.vector_iff {node : Node} {entry : Entry} (stores : Stores node entry) :
    node.vector = entry.words.map .text ↔ entry.Terminated := by
  have bound := stores.bound
  have array : (List.range MAX_LINE_CMDS).map node.path = entry.words.map .text ++
      node.path entry.words.length ::
        (List.range' (entry.words.length + 1) (MAX_LINE_CMDS - entry.words.length - 1)).map node.path := by
    have first : (List.range entry.words.length).map node.path = entry.words.map .text := by
      refine List.ext_getElem (by simp) ?_
      intro i small inside
      rw [List.getElem_map, List.getElem_map, List.getElem_range]
      exact stores.path i _ (List.getElem?_eq_getElem _)
    have split : List.range MAX_LINE_CMDS = List.range entry.words.length ++
        entry.words.length ::
          List.range' (entry.words.length + 1) (MAX_LINE_CMDS - entry.words.length - 1) := by
      have whole : MAX_LINE_CMDS = entry.words.length + (MAX_LINE_CMDS - entry.words.length - 1 + 1) := by
        omega
      rw [← List.range'_succ, List.range_eq_range', List.range_eq_range']
      have joined := @List.range'_append_1 0 entry.words.length
        (MAX_LINE_CMDS - entry.words.length - 1 + 1)
      rw [Nat.zero_add] at joined
      rw [joined, ← whole]
    rw [split, List.map_append, first, List.map_cons]
  have full : ∀ pointer ∈ entry.words.map Pointer.text, decide (pointer ≠ .null) = true := by
    intro pointer member
    obtain ⟨word, _, rfl⟩ := List.mem_map.mp member
    rfl
  have null : entry.Terminated ↔ node.path entry.words.length = .null := by
    rw [stores.nulls, List.forall_mem_cons]
    exact ⟨fun ⟨left, earlier⟩ => ⟨left, Nat.le_refl _, earlier⟩,
      fun ⟨left, _, earlier⟩ => ⟨left, earlier⟩⟩
  rw [null, Node.vector, array, List.takeWhile_append_of_pos full]
  by_cases ends : node.path entry.words.length = .null
  · simp [ends]
  · simp [ends]

/-- A definition is made only under a name that is not reserved. -/
theorem revise_allowed {entries : List Entry} {input : Input}
    (allowed : ∀ entry ∈ entries, ¬ reserved entry.name) :
    ∀ entry ∈ History.revise entries input, ¬ reserved entry.name := by
  unfold History.revise
  split
  · split
    · exact fun entry member => allowed entry (List.mem_of_mem_filter member)
    · exact allowed
  · rename_i first name word more _
    split
    · rename_i defines
      intro entry member
      rcases upsert_cases member with old | ⟨old, _, same, rfl⟩ | rfl
      · exact allowed entry old
      · have kept : ¬ reserved old.name := same ▸ defines.2
        exact kept
      · exact defines.2
    · exact allowed
  · exact allowed

/-- No bound name is reserved. -/
theorem history_allowed (inputs : List Input) (history : History)
    (allowed : ∀ entry ∈ history.entries, ¬ reserved entry.name) :
    ∀ entry ∈ (inputs.foldl History.read history).entries, ¬ reserved entry.name := by
  induction inputs generalizing history with
  | nil => exact allowed
  | cons input rest inductionHypothesis =>
    refine inductionHypothesis (history.read input) ?_
    unfold History.read
    split
    · split
      · exact allowed
      · exact revise_allowed allowed
    · exact allowed

section Line

variable {s : Shell} {sentinel : Addr} {cells : List (Addr × Entry)} {input : Input} {entry : Entry}

/-- The cell of an entry is the one that a search for its name finds. -/
theorem Represents.found (represents : Represents s sentinel cells) {a : Addr}
    (member : (a, entry) ∈ cells) :
    (cells.find? fun cell => cell.2.name = entry.name) = some (a, entry) := by
  rcases find_cases cells entry.name with ⟨_, absent⟩ | ⟨front, cell, rest, found, split, same, _⟩
  · exact absurd rfl (absent (a, entry) member)
  · have inside : cell ∈ cells := by simp [split]
    have equal := List.inj_on_of_nodup_map represents.distinct inside member same
    rw [found, equal]

/-- A line that starts with an alias executes the vector of its node, without redirection. -/
theorem Represents.executes (represents : Represents s sentinel cells) {a : Addr}
    (member : (a, entry) ∈ cells) (args output redirected : List Text)
    (named : args.head? = some entry.name) :
    ∃ node, s.heap a = some node ∧ Stores node entry ∧
      s.child input args output redirected =
        some (.execv (node.path 0) node.vector none ::
          if input.execs then [] else [.notFound (node.path 0)]) := by
  obtain ⟨node, there, stores⟩ := represents.stored (a, entry) member
  have first : args.headD [] = entry.name := by rw [List.headD_eq_head?_getD, named, Option.getD_some]
  refine ⟨node, there, stores, ?_⟩
  simp only [Shell.child, represents.first, Option.bind_eq_bind, Option.bind_some,
    represents.checkAlias, first, represents.found member, Option.map_some, Shell.load, there]

/-- The vectors that a line with an alias in front executes. -/
theorem Represents.launches_alias (represents : Represents s sentinel cells) {a : Addr}
    (member : (a, entry) ∈ cells) (few : (words input.line).length < MAX_LINE_CMDS)
    (named : (words input.line).head? = some entry.name) :
    ∃ events, s.launch input (words input.line) = some events ∧
      (input.forks = true → '>' ∉ input.line → ∃ path argv file, .execv path argv file ∈ events) ∧
      ∀ path argv file, .execv path argv file ∈ events →
        (argv = entry.words.map .text ↔ entry.Terminated) := by
  obtain ⟨marked, launched⟩ | ⟨failed, launched⟩ | launched := launch_cases s (words input.line) few
  · exact ⟨_, launched, fun _ none => absurd marked none, by simp⟩
  · exact ⟨_, launched, fun forks _ => absurd (forks.symm.trans failed) (by decide), by simp⟩
  · obtain ⟨node, _, stores, executed⟩ := @Represents.executes s sentinel cells input entry represents a member
      (words input.line) _ _ named
    refine ⟨_, launched.trans executed, fun _ _ => ⟨_, _, _, List.mem_cons_self⟩, ?_⟩
    intro path argv file inside
    have same : argv = node.vector := by
      rcases List.mem_cons.mp inside with equal | later
      · exact (Event.execv.inj equal).2.1
      · split at later
        · cases later
        · simp at later
    rw [same]
    exact stores.vector_iff

end Line

/-- After any session of admissible lines, a line whose first word is a bound alias hands
the words of the most recent definition to `execv` if and only if the array of the node
ends behind them. -/
theorem alias_vector_iff {head tail : Addr × Node} (apart : head.1 ≠ tail.1) {inputs : List Input}
    (admissible : Runs.Meets batchStep Admissible (opened head tail) inputs) {session : Session}
    (completed : Runs.run batchStep (opened head tail) inputs = some session)
    (running : session.running = true) {input : Input} (next : Admissible session input)
    {entry : Entry} (bound : entry ∈ (inputs.foldl History.read ⟨[], true⟩).entries)
    (named : (words input.line).head? = some entry.name) :
    ∃ events,
      batchStep session input =
        some { session with output := session.output ++ [.echo input.line] ++ events } ∧
      (input.forks = true → '>' ∉ input.line → ∃ path argv file, .execv path argv file ∈ events) ∧
      ∀ path argv file, .execv path argv file ∈ events →
        (argv = entry.words.map .text ↔ entry.Terminated) := by
  have records := run_records apart admissible completed
  obtain ⟨_, sentinel, cells, represents, same⟩ := records
  have allowed : ¬ reserved entry.name := history_allowed inputs ⟨[], true⟩ (by simp) entry bound
  unfold reserved at allowed
  rw [← same] at bound
  obtain ⟨⟨a, _⟩, member, rfl⟩ := List.mem_map.mp bound
  obtain ⟨events, launched, executes, vectors⟩ := represents.launches_alias member next.1 named
  refine ⟨events, ?_, executes, vectors⟩
  have goesOn : input.line ≠ exitLine := by
    intro leaves
    rw [leaves, show words exitLine = [exitWord] by decide, List.head?_cons] at named
    exact allowed (.inr (.inr (Option.some.inj named).symm))
  rw [batchStep_launch running goesOn next.1 named (fun equal => allowed (.inl equal))
    (fun equal => allowed (.inr (.inl equal))), launched, Option.map_some]

/-- A block of memory full of zeros. -/
def zeroed : Node := ⟨.null, fun _ => .null, 0, .null, .null⟩

/-- A line, with a zeroed block at an address for the node that it may need. -/
def cleanLineAt (a : Addr) (line : String) : Input := ⟨line.toList, (a, zeroed), true, true⟩

/-- A definition with two words. -/
def defined : List Input := [cleanLineAt 2 "alias a /bin/ls -l\n"]

/-- The same name defined with one word afterwards. -/
def redefined : List Input := defined ++ [cleanLineAt 3 "alias a /bin/cat\n"]

theorem defined_entries : (defined.foldl History.read ⟨[], true⟩).entries =
    [⟨['a'], ["/bin/ls".toList, ['-', 'l']], [], zeroed.path⟩] := rfl

theorem redefined_entries : (redefined.foldl History.read ⟨[], true⟩).entries =
    [⟨['a'], ["/bin/cat".toList], [["/bin/ls".toList, ['-', 'l']]], zeroed.path⟩] := rfl

/-- In a zeroed block the first definition is executed as it stands. -/
theorem alias_vector_iff_defined :
    ∃ session events path argv file,
      Runs.run batchStep (opened (0, zeroed) (1, zeroed)) defined = some session ∧
      batchStep session (cleanLineAt 3 "a\n") =
        some { session with output := session.output ++ [.echo "a\n".toList] ++ events } ∧
      .execv path argv file ∈ events ∧ argv = [.text "/bin/ls".toList, .text ['-', 'l']] := by
  have completed : Runs.run batchStep (opened (0, zeroed) (1, zeroed)) defined = some _ :=
    Runs.run_final (by decide +kernel)
  obtain ⟨events, executed, runs, vectors⟩ := @alias_vector_iff (0, zeroed) (1, zeroed) (by decide)
    defined (by decide +kernel) _ completed (by decide +kernel) (cleanLineAt 3 "a\n")
    (by decide +kernel) _ (by rw [defined_entries]; exact List.mem_singleton_self _)
    (by decide +kernel)
  obtain ⟨path, argv, file, member⟩ := runs rfl (by decide +kernel)
  exact ⟨_, events, path, argv, file, completed, executed, member,
    (vectors path argv file member).mpr ⟨rfl, by simp⟩⟩

/-- After a shorter definition the words of the longer one are still there: `a` executes
`/bin/cat -l`. -/
theorem stale_word_executed :
    ¬ ∀ (inputs : List Input) (session next : Session) (input : Input) (entry : Entry) path argv file,
      Runs.Meets batchStep Admissible (opened (0, zeroed) (1, zeroed)) inputs →
      Runs.run batchStep (opened (0, zeroed) (1, zeroed)) inputs = some session →
      session.running = true → Admissible session input →
      entry ∈ (inputs.foldl History.read ⟨[], true⟩).entries →
      (words input.line).head? = some entry.name →
      batchStep session input = some next → next.output.getLast? = some (.execv path argv file) →
      argv = entry.words.map .text := by
  intro claimed
  have completed : Runs.run batchStep (opened (0, zeroed) (1, zeroed)) redefined = some _ :=
    Runs.run_final (by decide +kernel)
  have executed : batchStep (Runs.final batchStep (opened (0, zeroed) (1, zeroed)) redefined)
      (cleanLineAt 4 "a\n") = some _ := Runs.step_final (by decide +kernel)
  have vector := claimed redefined _ _ (cleanLineAt 4 "a\n") _ (.text "/bin/cat".toList)
    [.text "/bin/cat".toList, .text ['-', 'l']] none (by decide +kernel) completed (by decide +kernel)
    (by decide +kernel) (by rw [redefined_entries]; exact List.mem_singleton_self _)
    (by decide +kernel) executed (by decide +kernel)
  exact absurd vector (by decide +kernel)

end Cs537.Mysh
