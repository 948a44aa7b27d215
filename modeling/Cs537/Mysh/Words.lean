import Mathlib

/-!
# Words of a line

A text is a C string, without the terminating zero. `strtok` called again and again
with the same delimiters yields the maximal runs of other characters, in order. The
lemmas bound the room that the words of a line need: the arrays of the shell have a
fixed length, and so has the buffer in which an alias is printed.
-/

namespace Cs537.Mysh

abbrev Text := List Char

/-- The words of a text, after a word that has begun (in reverse). -/
def wordsFrom (delimiter : Char → Bool) (current : Text) : Text → List Text
  | [] => if current = [] then [] else [current.reverse]
  | c :: rest =>
    if delimiter c then
      if current = [] then wordsFrom delimiter [] rest
      else current.reverse :: wordsFrom delimiter [] rest
    else wordsFrom delimiter (c :: current) rest

/-- What repeated calls of `strtok` return until they return null. -/
def strtok (delimiter : Char → Bool) (text : Text) : List Text := wordsFrom delimiter [] text

/-- The delimiters between words. -/
def blank (c : Char) : Bool := c = ' ' ∨ c = '\t' ∨ c = '\n'

/-- The words of a line. -/
def words (line : Text) : List Text := strtok blank line

/-- The words with single spaces between them, as the printing loops build them. -/
def unwords : List Text → Text
  | [] => []
  | [word] => word
  | word :: rest => word ++ ' ' :: unwords rest

/-! ## Lengths -/

variable {delimiter : Char → Bool}

/-- Each word takes its length and one delimiter. -/
theorem wordsFrom_room (current text : Text) :
    ((wordsFrom delimiter current text).map fun word => word.length + 1).sum ≤
      current.length + text.length + 1 := by
  induction text generalizing current with
  | nil =>
    unfold wordsFrom
    split <;> simp
  | cons c rest inductionHypothesis =>
    unfold wordsFrom
    split
    · have later := inductionHypothesis []
      simp only [List.length_nil, Nat.zero_add] at later
      split
      · simp only [List.length_cons]
        omega
      · simp only [List.map_cons, List.sum_cons, List.length_reverse, List.length_cons]
        omega
    · have later := inductionHypothesis (c :: current)
      simp only [List.length_cons] at later ⊢
      omega

/-- Single spaces need no more room. -/
theorem unwords_room (list : List Text) :
    (unwords list).length ≤ (list.map fun word => word.length + 1).sum := by
  induction list with
  | nil => simp [unwords]
  | cons word rest inductionHypothesis =>
    cases rest with
    | nil => simp [unwords]
    | cons second others =>
      simp only [unwords, List.length_append, List.length_cons, List.map_cons,
        List.sum_cons] at inductionHypothesis ⊢
      omega

/-- The words of a line behind its second word fit into a buffer of the line's size. -/
theorem unwords_short {line first second : Text} {rest : List Text} {size : Nat}
    (split : words line = first :: second :: rest) (short : line.length < size) :
    (unwords rest).length < size := by
  have room := @wordsFrom_room blank [] line
  have same : wordsFrom blank [] line = first :: second :: rest := split
  have joined := unwords_room rest
  rw [same] at room
  simp only [List.map_cons, List.sum_cons, List.length_nil, Nat.zero_add] at room
  omega

/-! ## Numbers of words -/

/-- A word that has begun adds at most to the number of words, and it does not matter
how it begins. -/
theorem wordsFrom_begun (current text : Text) :
    (wordsFrom delimiter [] text).length ≤ (wordsFrom delimiter current text).length ∧
      ∀ other, current ≠ [] → other ≠ [] →
        (wordsFrom delimiter current text).length = (wordsFrom delimiter other text).length := by
  induction text generalizing current with
  | nil =>
    refine ⟨by simp [wordsFrom], ?_⟩
    intro other begun begun'
    simp [wordsFrom, begun, begun']
  | cons c rest inductionHypothesis =>
    constructor
    · simp only [wordsFrom, if_true]
      split
      · split
        · exact Nat.le_refl _
        · exact Nat.le_succ _
      · by_cases begun : current = []
        · rw [begun]
        · exact Nat.le_of_eq ((inductionHypothesis [c]).2 (c :: current) (by simp) (by simp))
    · intro other begun begun'
      simp only [wordsFrom, begun, begun', if_false]
      split
      · rfl
      · exact (inductionHypothesis (c :: current)).2 (c :: other) (by simp) (by simp)

/-- More text at the end does not take words away. -/
theorem wordsFrom_append (current text more : Text) :
    (wordsFrom delimiter current text).length ≤
      (wordsFrom delimiter current (text ++ more)).length := by
  induction text generalizing current with
  | nil =>
    by_cases begun : current = []
    · simp [wordsFrom, begun]
    · simp only [wordsFrom, begun, if_false, List.nil_append, List.length_singleton]
      induction more generalizing current with
      | nil => simp [wordsFrom, begun]
      | cons c rest inductionHypothesis =>
        simp only [wordsFrom, begun, if_false]
        split
        · simp
        · exact inductionHypothesis (c :: current) (by simp)
  | cons c rest inductionHypothesis =>
    simp only [List.cons_append, wordsFrom]
    split
    · split
      · exact inductionHypothesis []
      · simpa using inductionHypothesis []
    · exact inductionHypothesis (c :: current)

/-- More text at the beginning does not take words away. -/
theorem strtok_suffix (before text : Text) :
    (strtok delimiter text).length ≤ (strtok delimiter (before ++ text)).length := by
  induction before with
  | nil => exact Nat.le_refl _
  | cons c rest inductionHypothesis =>
    refine Nat.le_trans inductionHypothesis ?_
    simp only [strtok, List.cons_append, wordsFrom]
    split
    · exact Nat.le_refl _
    · exact (wordsFrom_begun [c] (rest ++ text)).1

/-- A part of a line has no more words than the line. -/
theorem strtok_within {part line : Text} (inside : part <:+: line) :
    (strtok delimiter part).length ≤ (strtok delimiter line).length := by
  obtain ⟨before, after, rfl⟩ := inside
  exact Nat.le_trans (strtok_suffix before part) (wordsFrom_append [] (before ++ part) after)

/-- A word is a part of its line. -/
theorem wordsFrom_within (current text : Text) :
    ∀ word ∈ wordsFrom delimiter current text, word <:+: current.reverse ++ text := by
  induction text generalizing current with
  | nil =>
    intro word member
    unfold wordsFrom at member
    split at member
    · cases member
    · rw [List.mem_singleton.mp member, List.append_nil]
  | cons c rest inductionHypothesis =>
    intro word member
    unfold wordsFrom at member
    split at member
    · have later : ∀ word ∈ wordsFrom delimiter [] rest, word <:+: current.reverse ++ c :: rest := by
        intro word inner
        refine (inductionHypothesis [] word inner).trans ?_
        exact ⟨current.reverse ++ [c], [], by simp⟩
      split at member
      · exact later word member
      · rcases List.mem_cons.mp member with rfl | inner
        · exact (List.prefix_append _ _).isInfix
        · exact later word inner
    · simpa using inductionHypothesis (c :: current) word member

theorem strtok_part {line word : Text} (member : word ∈ strtok delimiter line) : word <:+: line := by
  simpa using wordsFrom_within [] line word member

end Cs537.Mysh
