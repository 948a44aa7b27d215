import Cs537.Mysh.Redirection

/-!
# The blanks of a line

What `batch_mode` does with a line is decided by its words, the search for `>` in the
whole line included, with one exception: the end of the session is decided by the line
itself.
-/

namespace Cs537.Mysh

/-! ## What the words tell of a line -/

/-- The words are the characters of a text without the delimiters. -/
theorem wordsFrom_flatten {delimiter : Char → Bool} (current text : Text) :
    (wordsFrom delimiter current text).flatten =
      current.reverse ++ text.filter fun c => !delimiter c := by
  induction text generalizing current with
  | nil =>
    by_cases begun : current = []
    · simp [wordsFrom, begun]
    · simp [wordsFrom, begun]
  | cons c rest inductionHypothesis =>
    by_cases ends : delimiter c = true
    · by_cases begun : current = []
      · simp [wordsFrom, begun, ends, inductionHypothesis]
      · simp [wordsFrom, begun, ends, inductionHypothesis]
    · simp [wordsFrom, ends, inductionHypothesis]

theorem count_words (line : Text) : (words line).flatten.count '>' = line.count '>' := by
  have characters : (words line).flatten = line.filter fun c => !blank c := wordsFrom_flatten [] line
  rw [characters, List.count_filter (by decide)]

/-- The words in front of the first mark. -/
def cutBefore : List Text → List Text
  | [] => []
  | word :: rest =>
    if '>' ∈ word then
      if beforeMark word = [] then [] else [beforeMark word]
    else word :: cutBefore rest

/-- The words behind the first mark. -/
def cutBehind : List Text → List Text
  | [] => []
  | word :: rest =>
    if '>' ∈ word then
      if behindMark word = [] then rest else behindMark word :: rest
    else cutBehind rest

/-- The rest of a word, if any, and the words behind it. -/
theorem words_split (text : Text) :
    words text = (if text.takeWhile (fun c => !blank c) = [] then []
      else [text.takeWhile fun c => !blank c]) ++
        words (text.dropWhile fun c => !blank c).tail := by
  cases text with
  | nil => rfl
  | cons c rest =>
    by_cases ends : blank c = true
    · simp [words, strtok, wordsFrom, ends]
    · have word : wordsFrom blank [c] rest = _ := wordsFrom_word (List.cons_ne_nil c []) rest
      simp only [words, strtok, wordsFrom, if_neg ends, word]
      simp [ends]

/-- The words around the first mark, when a word has begun. -/
theorem cut_wordsFrom {current : Text} (unmarked : '>' ∉ current) (text : Text) :
    wordsFrom blank current (beforeMark text) = cutBefore (wordsFrom blank current text) ∧
      ('>' ∈ text → words (behindMark text) = cutBehind (wordsFrom blank current text)) := by
  induction text generalizing current with
  | nil =>
    refine ⟨?_, by simp⟩
    by_cases begun : current = []
    · simp [wordsFrom, begun, beforeMark, cutBefore]
    · simp [wordsFrom, begun, beforeMark, cutBefore, unmarked]
  | cons c rest inductionHypothesis =>
    by_cases mark : c = '>'
    · subst mark
      have plain : ¬ blank '>' = true := by decide
      have parts := @mark_append current.reverse (by simpa using unmarked)
        (rest.takeWhile fun d => !blank d)
      have here : beforeMark ('>' :: rest) = [] ∧ behindMark ('>' :: rest) = rest :=
        @mark_append [] (by simp) rest
      have whole : wordsFrom blank current ('>' :: rest) =
          (current.reverse ++ '>' :: rest.takeWhile fun d => !blank d) ::
            words (rest.dropWhile fun d => !blank d).tail := by
        rw [wordsFrom, if_neg plain, wordsFrom_word (List.cons_ne_nil _ _)]
        simp [words]
      have inside : '>' ∈ current.reverse ++ '>' :: rest.takeWhile fun d => !blank d := by simp
      rw [here.1, here.2, whole, cutBefore, cutBehind, if_pos inside, if_pos inside, parts.1, parts.2]
      refine ⟨?_, fun _ => ?_⟩
      · simp [wordsFrom]
      · rw [words_split rest]
        split <;> simp
    · have before : beforeMark (c :: rest) = c :: beforeMark rest := by simp [beforeMark, mark]
      have behind : behindMark (c :: rest) = behindMark rest := by simp [behindMark, mark]
      have later : '>' ∈ c :: rest → '>' ∈ rest := by
        intro inside
        exact (List.mem_cons.mp inside).resolve_left (Ne.symm mark)
      rw [before, behind]
      by_cases ends : blank c = true
      · obtain ⟨first, second⟩ := @inductionHypothesis [] (by simp)
        by_cases begun : current = []
        · subst begun
          simp only [wordsFrom, if_pos ends, if_true]
          exact ⟨first, fun inside => second (later inside)⟩
        · simp only [wordsFrom, if_pos ends, if_neg begun]
          have plain : ¬ '>' ∈ current.reverse := by simpa using unmarked
          rw [cutBefore, cutBehind, if_neg plain, if_neg plain, first]
          exact ⟨rfl, fun inside => second (later inside)⟩
      · have plain : '>' ∉ c :: current := by simpa using ⟨Ne.symm mark, unmarked⟩
        obtain ⟨first, second⟩ := inductionHypothesis plain
        simp only [wordsFrom, if_neg ends]
        exact ⟨first, fun inside => second (later inside)⟩

/-- Lines with the same words have the same marks and the same words around the first. -/
theorem marks_congr {one two : Text} (same : words one = words two) :
    one.count '>' = two.count '>' ∧ words (beforeMark one) = words (beforeMark two) ∧
      ('>' ∈ one → words (behindMark one) = words (behindMark two)) := by
  have count : one.count '>' = two.count '>' := by
    rw [← count_words one, ← count_words two, same]
  have first := @cut_wordsFrom [] (by simp) one
  have second := @cut_wordsFrom [] (by simp) two
  have equal : wordsFrom blank [] one = wordsFrom blank [] two := same
  refine ⟨count, ?_, fun inside => ?_⟩
  · exact (first.1.trans (congrArg cutBefore equal)).trans second.1.symm
  · have inside' : '>' ∈ two := by
      rw [← List.count_pos_iff] at inside ⊢
      exact count ▸ inside
    rw [first.2 inside, second.2 inside', equal]

/-- Lines with the same words are misformatted together. -/
theorem misformatted_congr {one two : Text} (same : words one = words two) :
    Misformatted one ↔ Misformatted two := by
  obtain ⟨count, before, behind⟩ := marks_congr same
  unfold Misformatted
  rw [count, before]
  by_cases single : two.count '>' = 1
  · have inside : '>' ∈ one := by
      rw [← List.count_pos_iff, count, single]
      decide
    rw [behind inside]
  · simp [single]

/-! ## What a line does -/

section Line

variable {s : Shell} {input : Input} {other : Text}

/-- The child process asks of the line only whether it has a mark, and needs a file only then. -/
theorem child_congr (marked : '>' ∈ input.line ↔ '>' ∈ other) {output output' : List Text}
    (file : '>' ∈ input.line → output = output') (args redirected : List Text) :
    s.child input args output redirected =
      s.child { input with line := other } args output' redirected := by
  simp only [Shell.child, List.contains_iff_mem]
  by_cases inside : '>' ∈ input.line
  · rw [file inside]
    simp only [if_pos inside, if_pos (marked.mp inside)]
  · simp only [if_neg inside, if_neg fun there => inside (marked.mpr there)]

/-- The search for a redirection depends on the words alone. -/
theorem launch_congr (same : words input.line = words other)
    (few : (words input.line).length < MAX_LINE_CMDS) (args : List Text) :
    s.launch input args = s.launch { input with line := other } args := by
  have few' : (words other).length < MAX_LINE_CMDS := same ▸ few
  have accepts : ∀ line, (words line).length < MAX_LINE_CMDS →
      ((redirect line []).accepted = true ↔ ¬ Misformatted line) := by
    intro line few
    rw [(redirect_searched few []).accepted, (refused_iff line).1]
  rw [launch_eq few [], @launch_eq s { input with line := other } few' []]
  by_cases refused : Misformatted input.line
  · have refused' := (misformatted_congr same).mp refused
    rw [if_neg fun accepted => (accepts _ few).mp accepted refused,
      if_neg fun accepted => (accepts _ few').mp accepted refused']
  · have allowed : ¬ Misformatted other := fun refused' => refused ((misformatted_congr same).mpr refused')
    rw [if_pos ((accepts _ few).mpr refused), if_pos ((accepts _ few').mpr allowed)]
    obtain ⟨count, before, behind⟩ := marks_congr same
    have marked : '>' ∈ input.line ↔ '>' ∈ other := by
      rw [← List.count_pos_iff, ← List.count_pos_iff, count]
    obtain ⟨first, second⟩ := (refused_iff input.line).2 fun kept =>
      refused ((refused_iff input.line).1.mp kept)
    obtain ⟨first', second'⟩ := (refused_iff other).2 fun kept =>
      allowed ((refused_iff other).1.mp kept)
    have file : '>' ∈ input.line → pieceWords input.line 1 = pieceWords other 1 := by
      intro inside
      rw [second inside, second' (marked.mp inside), behind inside]
    rw [child_congr marked file, first, first', before]

/-- The body of the loop depends on the words alone. -/
theorem batchLine_congr (same : words input.line = words other)
    (few : (words input.line).length < MAX_LINE_CMDS) :
    batchLine s input = batchLine s { input with line := other } := by
  have launches := launch_congr (s := s) same few (words input.line)
  have aliases : ∀ args, batchAlias s input args = batchAlias s { input with line := other } args := by
    intro args
    rcases args with _ | ⟨_, _ | ⟨_, _ | ⟨_, _⟩⟩⟩ <;> rfl
  unfold batchLine
  dsimp only
  rw [← same, launches, aliases]

end Line

/-- Two lines have the same effect on a session but for the echo: it ends or goes on, with
the same aliases, outputs, errors and executions. -/
def SameEffect (session : Session) (one two : Input) : Prop :=
  ∃ shell running events,
    batchStep session one = some ⟨shell, running, session.output ++ [.echo one.line] ++ events⟩ ∧
    batchStep session two = some ⟨shell, running, session.output ++ [.echo two.line] ++ events⟩

/-- After every session of admissible lines, an admissible line and one with the same words have the
same effect if and only if both of them or neither is the line that ends the session. -/
theorem spacing_iff {head tail : Addr × Node} (apart : head.1 ≠ tail.1) {inputs : List Input}
    (admissible : Runs.Meets batchStep Admissible (opened head tail) inputs) {session : Session}
    (completed : Runs.run batchStep (opened head tail) inputs = some session)
    (running : session.running = true) {input : Input} {other : Text}
    (next : Admissible session input) (same : words input.line = words other) :
    SameEffect session input { input with line := other } ↔
      (input.line = exitLine ↔ other = exitLine) := by
  obtain ⟨_, sentinel, cells, represents, _⟩ := run_records apart admissible completed
  -- a line that does not end the session leaves it running
  have goesOn : ∀ line, line ≠ exitLine → ∀ events shell stays,
      batchStep session { input with line := line } = some ⟨shell, stays, events⟩ → stays = true := by
    intro line stays events shell result stepped
    simp only [batchStep, running, if_true, if_neg stays] at stepped
    obtain ⟨_, _, final⟩ := Option.map_eq_some_iff.mp stepped
    exact (congrArg Session.running final).symm
  constructor
  · rintro ⟨shell, stays, events, first, second⟩
    constructor
    · intro leaves
      by_contra stay
      rw [batchStep_exit running leaves, Option.some.injEq] at first
      have ended := congrArg Session.running first
      rw [goesOn other stay _ _ _ second] at ended
      cases ended
    · intro leaves
      by_contra stay
      rw [@batchStep_exit _ { input with line := other } running leaves, Option.some.injEq] at second
      have ended := congrArg Session.running second
      rw [goesOn input.line stay _ _ _ first] at ended
      cases ended
  · intro both
    by_cases leaves : input.line = exitLine
    · refine ⟨session.shell, false, [], ?_, ?_⟩
      · rw [batchStep_exit running leaves, List.append_nil]
      · rw [@batchStep_exit _ { input with line := other } running (both.mp leaves), List.append_nil]
    · have stay : other ≠ exitLine := fun other_leaves => leaves (both.mpr other_leaves)
      obtain ⟨few, short, fresh⟩ := next
      obtain ⟨shell, events, _, executed, _⟩ := represents.line few short fresh
      have executed' : batchLine session.shell { input with line := other } = some (shell, events) := by
        rw [← batchLine_congr same few, executed]
      refine ⟨shell, true, events, ?_, ?_⟩
      · simp only [batchStep, running, if_true, if_neg leaves, executed, Option.map_some]
      · simp only [batchStep, running, if_true, if_neg stay, executed', Option.map_some]

/-- A definition, with more blanks and without them. -/
theorem spacing_iff_alias :
    SameEffect (opened (0, zeroed) (1, zeroed)) (cleanLineAt 2 "alias  a /bin/ls>x\n")
      { cleanLineAt 2 "alias  a /bin/ls>x\n" with line := "alias a\t/bin/ls>x".toList } :=
  (@spacing_iff (0, zeroed) (1, zeroed) (by decide) [] trivial _ rfl rfl
    (cleanLineAt 2 "alias  a /bin/ls>x\n") "alias a\t/bin/ls>x".toList (by decide +kernel)
    (by decide +kernel)).mpr (by decide +kernel)

/-- `exit` with a blank in front of it is executed as a program. -/
theorem exit_spaced :
    ¬ ∀ (session : Session) (input : Input) (other : Text), session = opened (0, zeroed) (1, zeroed) →
      Admissible session input → Admissible session { input with line := other } →
      words input.line = words other → SameEffect session input { input with line := other } := by
  intro claimed
  obtain ⟨shell, running, events, first, second⟩ := claimed _ (cleanLineAt 2 "exit\n") " exit\n".toList
    rfl (by decide) (by decide) (by decide)
  have ends : (batchStep (opened (0, zeroed) (1, zeroed)) (cleanLineAt 2 "exit\n")).map Session.running =
      some false := by
    decide +kernel
  have stays : (batchStep (opened (0, zeroed) (1, zeroed)) (cleanLineAt 2 " exit\n")).map
      Session.running = some true := by
    decide +kernel
  have second : batchStep (opened (0, zeroed) (1, zeroed)) (cleanLineAt 2 " exit\n") = _ := second
  rw [first, Option.map_some, Option.some.injEq] at ends
  rw [second, Option.map_some, Option.some.injEq, ends] at stays
  cases stays

end Cs537.Mysh
