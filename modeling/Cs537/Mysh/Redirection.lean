import Cs537.Mysh.Execution
import Cs537.Mysh.Tokenizer

/-!
# The redirection of a command

The shell looks for `>` in a copy of the line, splits the copy there and splits both
parts into words, all with one `strtok`. The grammar asks for one mark at most, one word
at least in front of it and exactly one word behind it. The two agree on every line,
wherever the mark and the blanks around it stand. A file that is to be opened is taken to
open.
-/

namespace Cs537.Mysh

/-! ## The source -/

/-- `strchr`: the index of the first one. -/
def strchr (text : Text) (c : Char) : Option Nat := text.findIdx? (· = c)

/-- `strrchr`: the index of the last one. -/
def strrchr (text : Text) (c : Char) : Option Nat :=
  (text.reverse.findIdx? (· = c)).map fun i => text.length - 1 - i

/-- What the search for a redirection leaves: whether there is one, the splits that were
made, and whether the line was accepted. -/
structure Redirection where
  flag : Bool
  output : Option Split
  args : Option Split
  accepted : Bool
deriving DecidableEq

/-- From the search for a mark to the call of `fork`. -/
def redirect (redir kept : Text) : Redirection :=
  let flag := (strchr redir '>').isSome
  let forward := strchr redir '>'
  let backward := strrchr redir '>'
  if forward ≠ backward ∧ flag then ⟨flag, none, none, false⟩
  else
    let before_redirect := strtokCall (· = '>') (some redir) kept
    let after_redirect := strtokCall (· = '>') none before_redirect.2
    let output := splitLoop blank after_redirect.1 after_redirect.2
    if output.count ≠ 1 ∧ flag then ⟨flag, some output, none, false⟩
    else
      let args := splitLoop blank before_redirect.1 output.kept
      if args.count = 0 ∧ flag then ⟨flag, some output, some args, false⟩
      else ⟨flag, some output, some args, true⟩

/-! ## The grammar -/

/-- The part of a line in front of its first mark. -/
def beforeMark (line : Text) : Text := line.takeWhile (· ≠ '>')

/-- The part of a line behind its first mark. -/
def behindMark (line : Text) : Text := (line.dropWhile (· ≠ '>')).tail

/-- A line with several marks, or with one that does not stand between some words and
exactly one word. -/
def Misformatted (line : Text) : Prop :=
  1 < line.count '>' ∨
    line.count '>' = 1 ∧ ¬ (words (beforeMark line) ≠ [] ∧ (words (behindMark line)).length = 1)

instance (line : Text) : Decidable (Misformatted line) := inferInstanceAs (Decidable (_ ∨ _))

/-- The file of a redirection. -/
def target (line : Text) : Option Text :=
  if '>' ∈ line then (words (behindMark line)).head? else none

/-! ## Marks -/

section Marks

variable {c : Char}

theorem strchr_isSome {text : Text} : (strchr text c).isSome = true ↔ c ∈ text := by
  simp [strchr, List.findIdx?_isSome]

/-- Nothing in front of it is found first. -/
theorem strchr_append {front : Text} (absent : c ∉ front) (rest : Text) :
    strchr (front ++ c :: rest) c = some front.length := by
  have none : front.findIdx? (fun d => decide (d = c)) = none := by
    apply List.findIdx?_eq_none_iff.mpr
    intro d inside
    have different : d ≠ c := fun same => absent (same ▸ inside)
    simpa using different
  rw [strchr, List.findIdx?_append, none, List.findIdx?_cons]
  simp

/-- Nothing behind it is found last. -/
theorem strrchr_append {rest : Text} (absent : c ∉ rest) (front : Text) :
    strrchr (front ++ c :: rest) c = some front.length := by
  have reversed : (front ++ c :: rest).reverse = rest.reverse ++ c :: front.reverse := by simp
  have found := @strchr_append c rest.reverse (by simpa using absent) front.reverse
  rw [strchr] at found
  rw [strrchr, reversed, found, Option.map_some, List.length_append, List.length_cons,
    List.length_reverse]
  congr 1
  omega

/-- The first and the last mark are different ones if and only if there are two. -/
theorem marks_differ {text : Text} :
    strchr text c ≠ strrchr text c ∧ (strchr text c).isSome = true ↔ 1 < text.count c := by
  rw [strchr_isSome]
  by_cases inside : c ∈ text
  · obtain ⟨front, rest, rfl, first⟩ := List.eq_append_cons_of_mem inside
    have count : (front ++ c :: rest).count c = rest.count c + 1 := by
      rw [List.count_append, List.count_eq_zero_of_not_mem first, List.count_cons_self, Nat.zero_add]
    rw [strchr_append first, count]
    by_cases again : c ∈ rest
    · obtain ⟨later, middle, split, last⟩ := List.eq_append_cons_of_mem (List.mem_reverse.mpr again)
      have whole : front ++ c :: rest = (front ++ c :: middle.reverse) ++ c :: later.reverse := by
        have forward := congrArg List.reverse split
        rw [List.reverse_reverse] at forward
        simp [forward]
      have found := @strrchr_append c later.reverse (by simpa using last)
        (front ++ c :: middle.reverse)
      have positive := List.count_pos_iff.mpr again
      rw [← whole] at found
      rw [found]
      simp [positive]
    · rw [strrchr_append again]
      simp [List.count_eq_zero_of_not_mem again]
  · have none : text.count c = 0 := List.count_eq_zero_of_not_mem inside
    simp [inside, none]

end Marks

/-! ## The two parts of a line -/

/-- The words of one of the pieces between the marks of a line. -/
def pieceWords (line : Text) (i : Nat) : List Text := ((strtok (· = '>') line)[i]?).elim [] words

theorem vector_count {split : Split} {list : List Text} (holds : split.entries = vector list) :
    split.count = list.length := by
  simp [Split.count, holds, vector]

section Parts

variable {line : Text} (few : (words line).length < MAX_LINE_CMDS) (kept : Text)

include few

/-- The loop behind the mark splits the second piece. -/
theorem output_split :
    let before := strtokCall (· = '>') (some line) kept
    let after := strtokCall (· = '>') none before.2
    let output := splitLoop blank after.1 after.2
    output.entries = vector (pieceWords line 1) ∧ output.kept = [] ∧
      ∀ j ∈ output.accesses, j < MAX_LINE_CMDS := by
  intro before after output
  have source : strtok blank (after.1.getD after.2) = pieceWords line 1 := by
    unfold pieceWords
    rcases strtokCall_cases (· = '>') (some line) kept with ⟨call, empty⟩ | ⟨word, rest, call, some_⟩
    · rw [Option.getD_some] at empty
      have second : after = (none, []) := by
        show strtokCall _ none before.2 = _
        rw [show before.2 = [] by rw [show before = _ from call]]
        rfl
      rw [second, empty]
      rfl
    · rw [Option.getD_some] at some_
      have step : after = strtokCall (· = '>') none rest := by
        show strtokCall _ none before.2 = _
        rw [show before = _ from call]
      rw [step, some_]
      rcases strtokCall_cases (· = '>') none rest with ⟨call, empty⟩ | ⟨next, later, call, more⟩
      · rw [Option.getD_none] at empty
        rw [call, empty]
        rfl
      · rw [Option.getD_none] at more
        rw [call, more]
        rfl
  have bound : (strtok blank (after.1.getD after.2)).length < MAX_LINE_CMDS := by
    rw [source]
    exact pieces_few few 1
  rw [← source]
  exact splitLoop_words bound

/-- The loop in front of the mark splits the first piece. -/
theorem args_split :
    let before := strtokCall (· = '>') (some line) kept
    let args := splitLoop blank before.1 []
    args.entries = vector (pieceWords line 0) ∧ ∀ j ∈ args.accesses, j < MAX_LINE_CMDS := by
  intro before args
  have source : strtok blank (before.1.getD []) = pieceWords line 0 := by
    unfold pieceWords
    rcases strtokCall_cases (· = '>') (some line) kept with ⟨call, empty⟩ | ⟨word, rest, call, some_⟩
    · rw [Option.getD_some] at empty
      rw [show before = _ from call, empty]
      rfl
    · rw [Option.getD_some] at some_
      rw [show before = _ from call, some_]
      rfl
  have bound : (strtok blank (before.1.getD [])).length < MAX_LINE_CMDS := by
    rw [source]
    exact pieces_few few 0
  obtain ⟨entries, _, touched⟩ := splitLoop_words bound
  rw [source] at entries
  exact ⟨entries, touched⟩

end Parts

/-- The source refuses a line: in terms of the pieces that `strtok` finds. -/
def Refused (line : Text) : Prop :=
  1 < line.count '>' ∨
    '>' ∈ line ∧ ((pieceWords line 1).length ≠ 1 ∨ (pieceWords line 0).length = 0)

/-- What the search for a redirection leaves of a line. -/
structure Searched (line : Text) (result : Redirection) : Prop where
  flag : result.flag = decide ('>' ∈ line)
  accepted : result.accepted = true ↔ ¬ Refused line
  output : ∀ split, result.output = some split →
    split.entries = vector (pieceWords line 1) ∧ ∀ j ∈ split.accesses, j < MAX_LINE_CMDS
  args : ∀ split, result.args = some split →
    split.entries = vector (pieceWords line 0) ∧ ∀ j ∈ split.accesses, j < MAX_LINE_CMDS
  complete : result.accepted = true → ∃ output args,
    result.output = some output ∧ result.args = some args

/-- The search ends in one of four ways. -/
theorem redirect_searched {line : Text} (few : (words line).length < MAX_LINE_CMDS) (kept : Text) :
    Searched line (redirect line kept) := by
  obtain ⟨output, empty, outputTouched⟩ := output_split few kept
  obtain ⟨args, argsTouched⟩ := args_split few kept
  have flag : (strchr line '>').isSome = decide ('>' ∈ line) := by
    rw [Bool.eq_iff_iff, strchr_isSome, decide_eq_true_iff]
  have marks : strchr line '>' ≠ strrchr line '>' ∧ '>' ∈ line ↔ 1 < line.count '>' := by
    rw [← strchr_isSome]
    exact marks_differ
  unfold redirect
  simp only [flag, marks, vector_count output, empty, vector_count args, decide_eq_true_eq]
  by_cases several : 1 < line.count '>'
  · rw [if_pos several]
    exact ⟨rfl, by simp [Refused, several], nofun, nofun, nofun⟩
  · rw [if_neg several]
    by_cases loose : (pieceWords line 1).length ≠ 1 ∧ '>' ∈ line
    · rw [if_pos loose]
      refine ⟨rfl, by simp [Refused, loose.1, loose.2], ?_, nofun, nofun⟩
      rintro split ⟨rfl⟩
      exact ⟨output, outputTouched⟩
    · rw [if_neg loose]
      by_cases bare : (pieceWords line 0).length = 0 ∧ '>' ∈ line
      · rw [if_pos bare]
        refine ⟨rfl, by simp [Refused, bare.1, bare.2], ?_, ?_, nofun⟩
        · rintro split ⟨rfl⟩
          exact ⟨output, outputTouched⟩
        · rintro split ⟨rfl⟩
          exact ⟨args, argsTouched⟩
      · rw [if_neg bare]
        refine ⟨rfl, ?_, ?_, ?_, fun _ => ⟨_, _, rfl, rfl⟩⟩
        · have kept : ¬ Refused line := by
            rintro (more | ⟨inside, second | first⟩)
            · exact several more
            · exact loose ⟨second, inside⟩
            · exact bare ⟨first, inside⟩
          simp [kept]
        · rintro split ⟨rfl⟩
          exact ⟨output, outputTouched⟩
        · rintro split ⟨rfl⟩
          exact ⟨args, argsTouched⟩

/-- The command loops search for a redirection as the source does. -/
theorem launch_eq {s : Shell} {input : Input} (few : (words input.line).length < MAX_LINE_CMDS)
    (kept : Text) (args : List Text) :
    s.launch input args =
      if (redirect input.line kept).accepted = true then
        if input.forks then s.child input args (pieceWords input.line 1) (pieceWords input.line 0)
        else some [.forkFailed]
      else some [.error INVALID_REDIRECT] := by
  have output : ¬ MAX_LINE_CMDS ≤ (pieceWords input.line 1).length := Nat.not_le.mpr (pieces_few few 1)
  have redirected : ¬ MAX_LINE_CMDS ≤ (pieceWords input.line 0).length :=
    Nat.not_le.mpr (pieces_few few 0)
  have contains : input.line.contains '>' = true ↔ '>' ∈ input.line := List.contains_iff_mem
  have searched := (redirect_searched few kept).accepted
  unfold Refused at searched
  unfold pieceWords at output redirected searched ⊢
  simp only [Shell.launch, if_neg output, if_neg redirected, contains]
  split_ifs with several loose bare forks <;> simp_all

/-! ## The source follows the grammar -/

/-- The characters of a text without a mark are not marks. -/
theorem unmarked_passes {text : Text} (unmarked : '>' ∉ text) : ∀ c ∈ text, decide (c ≠ '>') = true := by
  intro c member
  have different : c ≠ '>' := fun same => unmarked (same ▸ member)
  simpa using different

/-- The first mark in a text whose beginning has none. -/
theorem mark_append {front : Text} (unmarked : '>' ∉ front) (rest : Text) :
    beforeMark (front ++ '>' :: rest) = front ∧ behindMark (front ++ '>' :: rest) = rest := by
  have all := unmarked_passes unmarked
  constructor
  · rw [beforeMark, List.takeWhile_append_of_pos all]
    simp
  · rw [behindMark, List.dropWhile_append_of_pos all]
    simp

/-- A line without a mark, or the first mark and what stands around it. -/
theorem mark_cases (line : Text) :
    '>' ∉ line ∧ beforeMark line = line ∨
      line = beforeMark line ++ '>' :: behindMark line ∧ '>' ∉ beforeMark line := by
  by_cases inside : '>' ∈ line
  · obtain ⟨front, rest, rfl, first⟩ := List.eq_append_cons_of_mem inside
    obtain ⟨before, behind⟩ := mark_append first rest
    rw [before, behind]
    exact .inr ⟨rfl, first⟩
  · exact .inl ⟨inside, List.takeWhile_eq_self_iff.mpr (unmarked_passes inside)⟩

/-- A piece goes on up to the next mark. -/
theorem strtok_cons {c : Char} (first : c ≠ '>') (rest : Text) :
    strtok (· = '>') (c :: rest) = (c :: beforeMark rest) :: strtok (· = '>') (behindMark rest) := by
  have begins : ¬ decide (c = '>') = true := by simpa using first
  have same : (fun d : Char => !decide (d = '>')) = fun d => decide (d ≠ '>') := by
    funext d
    exact (decide_not).symm
  rw [strtok, wordsFrom, if_neg begins, wordsFrom_word (List.cons_ne_nil c []), same]
  rfl

/-- A text without marks is one piece. -/
theorem strtok_unmarked {text : Text} (some_ : text ≠ []) (unmarked : '>' ∉ text) :
    strtok (· = '>') text = [text] := by
  obtain ⟨c, rest, rfl⟩ := List.exists_cons_of_ne_nil some_
  obtain ⟨first, later⟩ := not_or.mp (fun inside => unmarked (List.mem_cons.mpr inside))
  have all := unmarked_passes later
  rw [strtok_cons (Ne.symm first), beforeMark, behindMark, List.takeWhile_eq_self_iff.mpr all,
    List.dropWhile_eq_nil_iff.mpr all]
  rfl

/-- A text in front of a mark is the first piece. -/
theorem strtok_marked {front : Text} (some_ : front ≠ []) (unmarked : '>' ∉ front) (rest : Text) :
    strtok (· = '>') (front ++ '>' :: rest) = front :: strtok (· = '>') rest := by
  obtain ⟨c, more, rfl⟩ := List.exists_cons_of_ne_nil some_
  obtain ⟨first, later⟩ := not_or.mp (fun inside => unmarked (List.mem_cons.mpr inside))
  obtain ⟨before, behind⟩ := mark_append later rest
  rw [List.cons_append, strtok_cons (Ne.symm first), before, behind]

theorem pieceWords_unmarked {line : Text} (unmarked : '>' ∉ line) : pieceWords line 0 = words line := by
  by_cases empty : line = []
  · subst empty
    rfl
  · rw [pieceWords, strtok_unmarked empty unmarked]
    rfl

/-- With one mark behind some text, the two pieces are the parts around it. -/
theorem pieceWords_marked {front rest : Text} (some_ : front ≠ []) (first : '>' ∉ front)
    (last : '>' ∉ rest) :
    pieceWords (front ++ '>' :: rest) 0 = words front ∧
      pieceWords (front ++ '>' :: rest) 1 = words rest := by
  unfold pieceWords
  rw [strtok_marked some_ first]
  refine ⟨rfl, ?_⟩
  by_cases empty : rest = []
  · subst empty
    rfl
  · rw [strtok_unmarked empty last]
    rfl

/-- With one mark in front, there is no second piece. -/
theorem pieceWords_bare {rest : Text} (last : '>' ∉ rest) : pieceWords ('>' :: rest) 1 = [] := by
  have skipped : strtok (· = '>') ('>' :: rest) = strtok (· = '>') rest := by
    rw [strtok, wordsFrom]
    rfl
  unfold pieceWords
  rw [skipped]
  by_cases empty : rest = []
  · subst empty
    rfl
  · rw [strtok_unmarked empty last]
    rfl

/-- The source refuses exactly the lines that are misformatted, and finds the words around
the mark of any other. -/
theorem refused_iff (line : Text) :
    (Refused line ↔ Misformatted line) ∧
      (¬ Refused line → pieceWords line 0 = words (beforeMark line) ∧
        ('>' ∈ line → pieceWords line 1 = words (behindMark line))) := by
  unfold Refused Misformatted
  rcases mark_cases line with ⟨unmarked, whole⟩ | ⟨split, first⟩
  · have none : line.count '>' = 0 := List.count_eq_zero_of_not_mem unmarked
    rw [whole, none]
    refine ⟨by simp [unmarked], fun _ => ⟨pieceWords_unmarked unmarked, fun inside => ?_⟩⟩
    exact absurd inside unmarked
  · generalize beforeMark line = front at split first
    generalize behindMark line = rest at split
    subst split
    have count : (front ++ '>' :: rest).count '>' = rest.count '>' + 1 := by
      rw [List.count_append, List.count_eq_zero_of_not_mem first, List.count_cons_self, Nat.zero_add]
    have inside : '>' ∈ front ++ '>' :: rest := by simp
    rw [count]
    by_cases again : '>' ∈ rest
    · have positive := List.count_pos_iff.mpr again
      have several : 1 < rest.count '>' + 1 := by omega
      exact ⟨iff_of_true (.inl several) (.inl several), fun accepted => absurd (.inl several) accepted⟩
    · have single : rest.count '>' = 0 := List.count_eq_zero_of_not_mem again
      by_cases bare : front = []
      · subst bare
        have second : pieceWords ([] ++ '>' :: rest) 1 = [] := pieceWords_bare again
        have refused : 1 < rest.count '>' + 1 ∨ '>' ∈ [] ++ '>' :: rest ∧
            ((pieceWords ([] ++ '>' :: rest) 1).length ≠ 1 ∨
              (pieceWords ([] ++ '>' :: rest) 0).length = 0) :=
          .inr ⟨inside, .inl (by rw [second]; decide)⟩
        refine ⟨iff_of_true refused (.inr ⟨by rw [single], ?_⟩), fun accepted => absurd refused accepted⟩
        exact fun some_ => some_.1 rfl
      · obtain ⟨zero, one⟩ := pieceWords_marked bare first again
        rw [zero, one, single]
        refine ⟨?_, fun _ => ⟨rfl, fun _ => rfl⟩⟩
        simp only [Nat.zero_add, Nat.lt_irrefl, false_or, inside, true_and, List.length_eq_zero_iff]
        tauto

/-- What is run of a line that is accepted. -/
def executed (input : Input) : List Event :=
  let argv := words (beforeMark input.line)
  .execv (.text (argv.headD [])) (argv.map .text) (target input.line) ::
    if input.execs then [] else [.notFound (.text (argv.headD []))]

/-- The child process of a line whose first word is not bound. -/
theorem Represents.executed {s : Shell} {sentinel : Addr} {cells : List (Addr × Entry)} {input : Input}
    (represents : Represents s sentinel cells) {first : Text}
    (named : (words input.line).head? = some first) (unbound : ∀ cell ∈ cells, cell.2.name ≠ first)
    (accepted : ¬ Refused input.line) :
    s.child input (words input.line) (pieceWords input.line 1) (pieceWords input.line 0) =
      some (executed input) := by
  obtain ⟨before, behind⟩ := (refused_iff input.line).2 accepted
  have word : (words input.line).headD [] = first := by
    rw [List.headD_eq_head?_getD, named, Option.getD_some]
  have absent : (cells.find? fun cell => cell.2.name = first) = none := by
    simpa using unbound
  simp only [Shell.child, represents.first, Option.bind_eq_bind, Option.bind_some,
    represents.checkAlias, word, absent, Option.map_none, List.contains_iff_mem]
  unfold Mysh.executed target
  by_cases inside : '>' ∈ input.line
  · obtain ⟨_, parts⟩ := not_or.mp accepted
    have single : (pieceWords input.line 1).length = 1 := by
      by_contra other
      exact parts ⟨inside, .inl other⟩
    obtain ⟨file, shape⟩ := List.length_eq_one_iff.mp single
    have behind' := behind inside
    rw [shape] at behind'
    rw [if_pos inside, if_pos inside, shape, before, ← behind']
    rfl
  · have whole : beforeMark input.line = input.line := by
      rcases mark_cases input.line with ⟨_, same⟩ | ⟨split, _⟩
      · exact same
      · refine absurd ?_ inside
        rw [split]
        simp
    rw [if_neg inside, if_neg inside, whole]
    simp only [word]

/-- In every session of admissible lines, a line of at most 99 words that is not `exit` and
does not begin with an alias command or a bound alias is reported and runs nothing if it is
misformatted. Any other line runs one command: the words in front of the mark, with the
output to the word behind it. -/
theorem redirection_grammar {head tail : Addr × Node} (apart : head.1 ≠ tail.1) {inputs : List Input}
    (admissible : Runs.Meets batchStep Admissible (opened head tail) inputs) {session : Session}
    (completed : Runs.run batchStep (opened head tail) inputs = some session)
    (running : session.running = true) {input : Input} (goesOn : input.line ≠ exitLine)
    (few : (words input.line).length < MAX_LINE_CMDS) {first : Text}
    (named : (words input.line).head? = some first) (notAlias : first ≠ aliasWord)
    (notUnalias : first ≠ unaliasWord)
    (unbound : ∀ entry ∈ (inputs.foldl History.read ⟨[], true⟩).entries, entry.name ≠ first) :
    ∃ events,
      batchStep session input =
        some { session with output := session.output ++ [.echo input.line] ++ events } ∧
      (events = [.error INVALID_REDIRECT] ↔ Misformatted input.line) ∧
      (¬ Misformatted input.line →
        events = if input.forks = true then executed input else [.forkFailed]) := by
  obtain ⟨_, sentinel, cells, represents, same⟩ := run_records apart admissible completed
  have absent : ∀ cell ∈ cells, cell.2.name ≠ first := by
    intro cell member
    apply unbound
    rw [← same]
    exact List.mem_map_of_mem member
  have accepts : (redirect input.line []).accepted = true ↔ ¬ Misformatted input.line := by
    rw [(redirect_searched few []).accepted, (refused_iff input.line).1]
  rw [batchStep_launch running goesOn few named notAlias notUnalias, launch_eq few []]
  by_cases refused : Misformatted input.line
  · have stops : ¬ (redirect input.line []).accepted = true := fun accepted =>
      accepts.mp accepted refused
    refine ⟨[.error INVALID_REDIRECT], ?_, iff_of_true rfl refused, fun accepted => absurd refused accepted⟩
    rw [if_neg stops, Option.map_some]
  · have child := represents.executed named absent (fun kept => refused ((refused_iff input.line).1.mp kept))
    refine ⟨if input.forks = true then executed input else [.forkFailed], ?_, ?_, fun _ => rfl⟩
    · rw [if_pos (accepts.mpr refused), child]
      split <;> rfl
    · refine iff_of_false ?_ refused
      unfold executed
      split <;> simp

/-- `echo` with its output to a file, without a blank around the mark. -/
theorem redirection_grammar_echo :
    ∃ events,
      batchStep (opened (0, zeroed) (1, zeroed)) (cleanLineAt 2 "/bin/echo a>b\n") =
        some { opened (0, zeroed) (1, zeroed) with
          output := [] ++ [.echo "/bin/echo a>b\n".toList] ++ events } ∧
      events = [.execv (.text "/bin/echo".toList) [.text "/bin/echo".toList, .text ['a']] (some ['b'])] := by
  obtain ⟨events, stepped, _, runs⟩ := @redirection_grammar (0, zeroed) (1, zeroed) (by decide) []
    trivial _ rfl rfl (cleanLineAt 2 "/bin/echo a>b\n") (by decide +kernel) (by decide +kernel)
    "/bin/echo".toList (by decide +kernel) (by decide +kernel) (by decide +kernel) (by decide)
  refine ⟨events, stepped, ?_⟩
  rw [runs (by decide +kernel)]
  decide +kernel

end Cs537.Mysh
