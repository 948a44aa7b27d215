import Cs537.Mysh.Loops

/-!
# The loops that split a line

`strtok` keeps the text behind its last token and goes on there when it is called with
null. The three loops of the shell that split a text call it in this way, and write what
it returns into an array until it returns null. The command loops name the words of a
text without this state; the results say that the loops find exactly these words, and
which elements of the arrays they touch.
-/

namespace Cs537.Mysh

/-- A call of `strtok` with a string, or with null for the text that was kept: the token,
and the text that is kept. -/
def strtokCall (delimiter : Char → Bool) (source : Option Text) (kept : Text) : Option Text × Text :=
  let text := (source.getD kept).dropWhile delimiter
  if text = [] then (none, [])
  else (some (text.takeWhile fun c => !delimiter c), (text.dropWhile fun c => !delimiter c).tail)

/-- What a loop leaves: the elements of its array from the first one on, the text that is
kept, and the indices at which the array was written or read. -/
structure Split where
  entries : List (Option Text)
  kept : Text
  accesses : List Nat
deriving DecidableEq

/-- The number of words that a loop has counted. -/
def Split.count (split : Split) : Nat := split.entries.length - 1

/-- `while (i <= 100 && array[i] != NULL) array[++i] = strtok(NULL, delimiter)`, when
`array[i]` has just been assigned. -/
def splitFrom (delimiter : Char → Bool) (i : Nat) (entry : Option Text) (kept : Text) : Split :=
  if i ≤ 100 then
    match entry with
    | none => ⟨[none], kept, [i, i]⟩
    | some word =>
      let next := strtokCall delimiter none kept
      let later := splitFrom delimiter (i + 1) next.1 next.2
      ⟨some word :: later.entries, later.kept, i :: i :: later.accesses⟩
  else ⟨[entry], kept, [i]⟩
termination_by 101 - i

/-- The loop behind `array[0] = strtok(source, delimiter)`. -/
def splitLoop (delimiter : Char → Bool) (source : Option Text) (kept : Text) : Split :=
  let first := strtokCall delimiter source kept
  splitFrom delimiter 0 first.1 first.2

/-! ## Tokens -/

section Tokens

variable {delimiter : Char → Bool}

/-- A word that has begun goes on to the next delimiter. -/
theorem wordsFrom_word {current : Text} (begun : current ≠ []) (text : Text) :
    wordsFrom delimiter current text =
      (current.reverse ++ text.takeWhile fun c => !delimiter c) ::
        strtok delimiter (text.dropWhile fun c => !delimiter c).tail := by
  induction text generalizing current with
  | nil => simp [wordsFrom, begun, strtok]
  | cons c rest inductionHypothesis =>
    by_cases ends : delimiter c = true
    · simp [wordsFrom, begun, ends, strtok]
    · rw [wordsFrom, if_neg ends, inductionHypothesis (List.cons_ne_nil c current)]
      simp [ends]

/-- Delimiters in front do not matter. -/
theorem strtok_dropWhile (text : Text) :
    strtok delimiter (text.dropWhile delimiter) = strtok delimiter text := by
  induction text with
  | nil => rfl
  | cons c rest inductionHypothesis =>
    by_cases ends : delimiter c = true
    · rw [List.dropWhile_cons_of_pos ends, inductionHypothesis]
      simp [strtok, wordsFrom, ends]
    · rw [List.dropWhile_cons_of_neg ends]

/-- A call returns the first word and keeps what has the others, or there is none. -/
theorem strtokCall_cases (delimiter : Char → Bool) (source : Option Text) (kept : Text) :
    (strtokCall delimiter source kept = (none, []) ∧ strtok delimiter (source.getD kept) = []) ∨
      ∃ word rest, strtokCall delimiter source kept = (some word, rest) ∧
        strtok delimiter (source.getD kept) = word :: strtok delimiter rest := by
  unfold strtokCall
  rw [← strtok_dropWhile (source.getD kept)]
  rcases shape : (source.getD kept).dropWhile delimiter with _ | ⟨c, rest⟩
  · exact .inl ⟨rfl, rfl⟩
  · have begins : ¬ delimiter c = true := by
      have front := List.head_dropWhile_not delimiter (l := source.getD kept) (by simp [shape])
      simp only [shape, List.head_cons] at front
      simp [front]
    refine .inr ⟨_, _, if_neg (List.cons_ne_nil c rest), ?_⟩
    have word : wordsFrom delimiter [c] rest = _ := wordsFrom_word (List.cons_ne_nil c []) rest
    rw [strtok, wordsFrom, if_neg begins, word]
    simp [begins]

/-- Behind the last word nothing is kept. -/
theorem strtokCall_null {source : Option Text} {kept : Text}
    (null : (strtokCall delimiter source kept).1 = none) :
    (strtokCall delimiter source kept).2 = [] := by
  rcases strtokCall_cases delimiter source kept with ⟨same, _⟩ | ⟨word, rest, same, _⟩
  · rw [same]
  · rw [same] at null
    cases null

end Tokens

/-! ## The loops -/

section Loops

variable {delimiter : Char → Bool}

/-- What the loop still finds, with the element just assigned. -/
def pending (delimiter : Char → Bool) (entry : Option Text) (kept : Text) : List Text :=
  entry.elim [] fun word => word :: strtok delimiter kept

/-- The words that `strtok` returns call after call. -/
theorem pending_call (delimiter : Char → Bool) (source : Option Text) (kept : Text) :
    pending delimiter (strtokCall delimiter source kept).1 (strtokCall delimiter source kept).2 =
      strtok delimiter (source.getD kept) := by
  rcases strtokCall_cases delimiter source kept with
    ⟨call, words⟩ | ⟨word, rest, call, words⟩ <;> rw [call, words] <;> rfl

/-- With room for all words, the array holds them and a null behind the last one, and
is touched nowhere else. -/
theorem splitFrom_words {i : Nat} {entry : Option Text} {kept : Text}
    (done : entry = none → kept = [])
    (room : i + (pending delimiter entry kept).length ≤ 100) :
    (splitFrom delimiter i entry kept).entries =
        (pending delimiter entry kept).map some ++ [none] ∧
      (splitFrom delimiter i entry kept).kept = [] ∧
      ∀ j ∈ (splitFrom delimiter i entry kept).accesses,
        j ≤ i + (pending delimiter entry kept).length := by
  induction remaining : pending delimiter entry kept generalizing i entry kept with
  | nil =>
    cases entry with
    | some word => simp [pending] at remaining
    | none =>
      have inside : i ≤ 100 := Nat.le_trans (Nat.le_add_right _ _) room
      rw [splitFrom, if_pos inside]
      simp [done rfl]
  | cons word rest inductionHypothesis =>
    cases entry with
    | none => simp [pending] at remaining
    | some first =>
      rw [remaining, List.length_cons] at room
      have inside : i ≤ 100 := Nat.le_trans (Nat.le_add_right _ _) room
      obtain ⟨rfl, later⟩ : first = word ∧ strtok delimiter kept = rest := by
        simpa [pending] using remaining
      have call := pending_call delimiter none kept
      rw [Option.getD_none, later] at call
      obtain ⟨entries, empty, touched⟩ := @inductionHypothesis (i + 1) _ _ strtokCall_null
        (by rw [call]; omega) call
      rw [splitFrom, if_pos inside]
      refine ⟨?_, empty, ?_⟩
      · simp [entries]
      · simp only [List.mem_cons, List.length_cons]
        rintro j (rfl | rfl | access)
        · omega
        · omega
        · have bound := touched j access
          omega

/-- Without room for them the loop reaches the index behind the array. -/
theorem splitFrom_reaches {i : Nat} {entry : Option Text} {kept : Text} (inside : i ≤ 100)
    (many : 100 ≤ i + (pending delimiter entry kept).length) :
    100 ∈ (splitFrom delimiter i entry kept).accesses := by
  induction remaining : pending delimiter entry kept generalizing i entry kept with
  | nil =>
    rw [remaining] at many
    have last : i = 100 := Nat.le_antisymm inside many
    cases entry with
    | some word => simp [pending] at remaining
    | none =>
      rw [splitFrom, if_pos inside]
      simp [last]
  | cons word rest inductionHypothesis =>
    cases entry with
    | none => simp [pending] at remaining
    | some first =>
      rw [splitFrom, if_pos inside]
      by_cases last : i = 100
      · simp [last]
      · obtain ⟨_, later⟩ : first = word ∧ strtok delimiter kept = rest := by
          simpa [pending] using remaining
        have call := pending_call delimiter none kept
        rw [Option.getD_none, later] at call
        rw [remaining, List.length_cons] at many
        have reached := @inductionHypothesis (i + 1) _ _ (by omega) (by rw [call]; omega) call
        exact List.mem_cons_of_mem _ (List.mem_cons_of_mem _ reached)

/-- A vector as `execv` takes it: the words, then a null. -/
def vector (words : List Text) : List (Option Text) := words.map some ++ [none]

section Whole

variable {source : Option Text} {kept : Text}

/-- A loop with room for the words of its text. -/
theorem splitLoop_words (few : (strtok delimiter (source.getD kept)).length < MAX_LINE_CMDS) :
    (splitLoop delimiter source kept).entries = vector (strtok delimiter (source.getD kept)) ∧
      (splitLoop delimiter source kept).kept = [] ∧
      ∀ j ∈ (splitLoop delimiter source kept).accesses, j < MAX_LINE_CMDS := by
  have call := pending_call delimiter source kept
  have limit : MAX_LINE_CMDS = 100 := rfl
  obtain ⟨entries, empty, touched⟩ := @splitFrom_words delimiter 0 _ _ strtokCall_null
    (by rw [call]; omega)
  rw [call] at entries touched
  refine ⟨entries, empty, fun j access => ?_⟩
  have bound := touched j access
  omega

end Whole

end Loops

end Cs537.Mysh
