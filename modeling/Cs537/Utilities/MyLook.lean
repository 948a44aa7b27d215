import Cs537.Utilities.MyRev

/-!
# my-look of p1

The program writes what it finds in a buffer of 128 characters if that begins with a
given text, in upper or lower case. The specification selects lines. Of a longer line
`fgets` hands over blocks of 127 characters, and each of them is selected by itself.
-/

namespace Cs537.Utilities.MyLook

open Chunks

def BUF_SIZE : Nat := 128

/-- `strncasecmp` in the C locale: at most `n` characters are compared, and none behind the
end of the first string. -/
def strncasecmp : Text → Text → Nat → Int
  | _, _, 0 => 0
  | s, t, n + 1 =>
    let difference : Int := (s.headD NUL).toLower.toNat - (t.headD NUL).toLower.toNat
    if difference ≠ 0 then difference
    else if s.headD NUL = NUL then 0
    else strncasecmp s.tail t.tail n

/-- A pass of the loop of `main`: the assertion, and what is written. -/
def pass (wanted buf : Text) : Option Text :=
  let str := string buf
  let len := wanted.length
  if 0 < len then some (if strncasecmp wanted str len = 0 then str else []) else none

/-- The loop of `main`: what is written for an input. -/
def main (wanted input : Text) : Option Text :=
  ((fgets BUF_SIZE input).mapM (pass wanted)).map List.flatten

/-- The beginning of a line equals a text but for the case of letters. -/
def Begins (wanted line : Text) : Prop :=
  (line.take wanted.length).map Char.toLower = wanted.map Char.toLower

instance (wanted line : Text) : Decidable (Begins wanted line) :=
  inferInstanceAs (Decidable (_ = _))

/-- The lines that begin so, one after the other. -/
def selectedLines (wanted input : Text) : Text :=
  ((lines '\n' input).filter fun line => Begins wanted line).flatten

/-! ## The comparison -/

/-- No other character becomes a zero. -/
theorem toLower_NUL {c : Char} (same : c.toLower = NUL.toLower) : c = NUL := by
  have low : NUL.toLower = NUL := by decide
  rw [low] at same
  unfold Char.toLower at same
  split at same
  · rename_i upper
    have value := congrArg UInt32.toNat (congrArg Char.val same)
    have bound := UInt32.le_iff_toNat_le.mp upper.2
    simp [NUL] at value bound
    omega
  · exact same

theorem difference_zero {a b : Char} : ((a.toNat : Int) - b.toNat = 0) ↔ a = b := by
  rw [← Char.toNat_inj]
  omega

theorem begins_cons {a b : Char} {wanted line : Text} :
    Begins (a :: wanted) (b :: line) ↔ a.toLower = b.toLower ∧ Begins wanted line := by
  simp [Begins, eq_comm]

/-- The comparison finds no difference if and only if the text begins so. -/
theorem strncasecmp_iff {wanted text : Text} (clean : NUL ∉ wanted) :
    strncasecmp wanted text wanted.length = 0 ↔ Begins wanted text := by
  induction wanted generalizing text with
  | nil => simp [strncasecmp, Begins]
  | cons a wanted inductionHypothesis =>
    obtain ⟨letter, clean⟩ := not_or.mp (fun inside => clean (List.mem_cons.mpr inside))
    have different : a ≠ NUL := Ne.symm letter
    cases text with
    | nil =>
      have unequal : ¬ ((a.toLower.toNat : Int) - NUL.toLower.toNat = 0) := fun same =>
        different (toLower_NUL (difference_zero.mp same))
      simp [strncasecmp, Begins, unequal]
    | cons b rest =>
      rw [begins_cons]
      by_cases same : a.toLower = b.toLower
      · have equal := difference_zero.mpr same
        simp only [List.length_cons, strncasecmp, List.headD_cons, equal, ne_eq, not_true_eq_false,
          if_false, different, List.tail_cons]
        rw [inductionHypothesis clean]
        exact ⟨fun begins => ⟨same, begins⟩, And.right⟩
      · have unequal : ¬ ((a.toLower.toNat : Int) - b.toLower.toNat = 0) := fun equal =>
          same (difference_zero.mp equal)
        simp [strncasecmp, unequal, same]

/-! ## The selection -/

theorem fgets_roomy : 0 < BUF_SIZE - 1 := by decide

/-- What is written are the buffers that begin so. -/
theorem main_some {wanted input : Text} (some_ : wanted ≠ []) (clean : NUL ∉ wanted)
    (zeroless : NUL ∉ input) :
    main wanted input =
      some ((fgets BUF_SIZE input).filter fun buf => Begins wanted buf).flatten := by
  have passes : ∀ buf ∈ fgets BUF_SIZE input,
      pass wanted buf = some (if Begins wanted buf then buf else []) := by
    intro buf member
    obtain ⟨_, whole⟩ := fgets_strings fgets_roomy zeroless buf member
    rw [pass, whole, if_pos (List.length_pos_iff.mpr some_)]
    simp only [strncasecmp_iff clean]
  rw [main, mapM_some passes, Option.map_some, ← List.flatMap_def]
  congr 1
  induction fgets BUF_SIZE input with
  | nil => rfl
  | cons buf rest inductionHypothesis =>
    by_cases begins : Begins wanted buf
    · simp [begins, inductionHypothesis]
    · simp [begins, inductionHypothesis]

/-- Two selections that agree in what they select agree at every place, if one of them
goes by what is there. -/
theorem selections_agree {ι β : Type*} {places : List ι} {content : ι → β} {seen : β → Bool}
    {meant : ι → Bool}
    (same : (places.filter fun i => seen (content i)).map content =
      (places.filter meant).map content) :
    ∀ i ∈ places, seen (content i) = meant i := by
  have seen_of_meant : ∀ i ∈ places, meant i = true → seen (content i) = true := by
    intro i inside selected
    have member : content i ∈ (places.filter meant).map content :=
      List.mem_map_of_mem (List.mem_filter.mpr ⟨inside, selected⟩)
    rw [← same] at member
    obtain ⟨other, found, equal⟩ := List.mem_map.mp member
    rw [← equal]
    exact (List.mem_filter.mp found).2
  have less : (places.filter meant).Sublist (places.filter fun i => seen (content i)) := by
    have nested : places.filter meant = (places.filter fun i => seen (content i)).filter meant := by
      rw [List.filter_filter]
      refine List.filter_congr fun i inside => ?_
      cases selected : meant i with
      | false => rfl
      | true => rw [seen_of_meant i inside selected, Bool.and_self]
    rw [nested]
    exact List.filter_sublist
  have equal : places.filter meant = places.filter fun i => seen (content i) := by
    apply less.eq_of_length
    have lengths := congrArg List.length same
    rw [List.length_map, List.length_map] at lengths
    exact lengths.symm
  intro i inside
  apply Bool.eq_iff_iff.mpr
  constructor
  · intro found
    have member : i ∈ places.filter meant := by
      rw [equal]
      exact List.mem_filter.mpr ⟨inside, found⟩
    exact (List.mem_filter.mp member).2
  · exact seen_of_meant i inside

/-- The buffers of an input, each with the line that it is a part of. -/
def places (input : Text) : List (Text × Text) :=
  (lines '\n' input).flatMap fun line => (fgets BUF_SIZE line).map fun buf => (buf, line)

theorem places_buffers (input : Text) : (places input).map Prod.fst = fgets BUF_SIZE input := by
  have parts : fgets BUF_SIZE input = (lines '\n' input).flatMap (fgets BUF_SIZE) :=
    chunks_lines fgets_roomy input
  rw [parts, places, List.map_flatMap]
  refine List.flatMap_congr fun line _ => ?_
  rw [List.map_map]
  exact List.map_id _

theorem mem_places {input : Text} {place : Text × Text} :
    place ∈ places input ↔ place.2 ∈ lines '\n' input ∧ place.1 ∈ fgets BUF_SIZE place.2 := by
  obtain ⟨buf, line⟩ := place
  simp [places]

/-- The parts of the selected lines spell these lines. -/
theorem selectedLines_places (wanted input : Text) :
    selectedLines wanted input =
      (((places input).filter fun place => Begins wanted place.2).map Prod.fst).flatten := by
  unfold selectedLines places
  induction lines '\n' input with
  | nil => rfl
  | cons line rest inductionHypothesis =>
    have spelled : (fgets BUF_SIZE line).flatten = line := chunks_flatten fgets_roomy line
    have parts : ((fgets BUF_SIZE line).map fun buf => (buf, line)).map Prod.fst =
        fgets BUF_SIZE line := by
      rw [List.map_map]
      exact List.map_id _
    rw [List.flatMap_cons, List.filter_append, List.map_append, List.flatten_append,
      ← inductionHypothesis]
    by_cases begins : Begins wanted line
    · have all : (((fgets BUF_SIZE line).map fun buf => (buf, line)).filter fun place =>
          Begins wanted place.2) = (fgets BUF_SIZE line).map fun buf => (buf, line) := by
        apply List.filter_eq_self.mpr
        intro place member
        obtain ⟨buf, _, rfl⟩ := List.mem_map.mp member
        exact decide_eq_true begins
      rw [all, parts, spelled, List.filter_cons, if_pos (decide_eq_true begins), List.flatten_cons]
    · have none : (((fgets BUF_SIZE line).map fun buf => (buf, line)).filter fun place =>
          Begins wanted place.2) = [] := by
        apply List.filter_eq_nil_iff.mpr
        intro place member
        obtain ⟨buf, _, rfl⟩ := List.mem_map.mp member
        simpa using begins
      rw [none, List.filter_cons, if_neg (by simpa using begins)]
      rfl

/-- The lines that begin with a text are written, whole and in order and nothing else, if and
only if every block of a line of 128 characters or more begins with the text exactly if the
line does. -/
theorem main_selects_iff {wanted input : Text} (some_ : wanted ≠ []) (clean : NUL ∉ wanted)
    (zeroless : NUL ∉ input) :
    main wanted input = some (selectedLines wanted input) ↔
      ∀ line ∈ lines '\n' input, BUF_SIZE ≤ line.length →
        ∀ buf ∈ fgets BUF_SIZE line, (Begins wanted buf ↔ Begins wanted line) := by
  have written : (fgets BUF_SIZE input).filter (fun buf => Begins wanted buf) =
      ((places input).filter fun place => Begins wanted place.1).map Prod.fst := by
    rw [← places_buffers, List.filter_map]
    rfl
  have selected : ∀ keeps : Text × Text → Bool,
      (((places input).filter keeps).map Prod.fst).Sublist (fgets BUF_SIZE input) := by
    intro keeps
    rw [← places_buffers]
    exact List.filter_sublist.map Prod.fst
  rw [main_some some_ clean zeroless, selectedLines_places, Option.some.injEq, written]
  constructor
  · intro same line member _ buf part
    have buffers := congrArg (fgets BUF_SIZE) same
    unfold fgets at buffers
    rw [chunks_selected fgets_roomy (selected _), chunks_selected fgets_roomy (selected _)] at buffers
    have agrees := @selections_agree _ _ (places input) Prod.fst
      (fun buf => Begins wanted buf) (fun place => Begins wanted place.2) buffers (buf, line)
      (mem_places.mpr ⟨member, part⟩)
    simpa using agrees
  · intro agrees
    congr 2
    refine List.filter_congr fun place inside => ?_
    obtain ⟨member, part⟩ := mem_places.mp inside
    apply decide_eq_decide.mpr
    by_cases long : BUF_SIZE ≤ place.2.length
    · exact agrees place.2 member long place.1 part
    · -- a short line is read at once
      obtain ⟨taken, inner⟩ := (lines_framed input).1 place.2 member
      have piece : Piece '\n' (BUF_SIZE - 1) place.2 :=
        ⟨taken, Nat.le_pred_of_lt (Nat.not_le.mp long), inner⟩
      rw [fgets, chunks_short piece, List.mem_singleton] at part
      rw [part]

/-- Three lines, two of which begin with the text in some case. -/
theorem main_selects_iff_short :
    main "ab".toList "abc\nxab\nAB".toList = some (selectedLines "ab".toList "abc\nxab\nAB".toList) :=
  (main_selects_iff (by decide) (by decide) (by decide)).mpr (by decide +kernel)

/-- A line with the text behind its first 127 characters: the rest of it is written. -/
theorem main_selects_rest :
    main ['b'] (List.replicate 127 'a' ++ ['b', '\n']) = some ['b', '\n'] ∧
      main ['b'] (List.replicate 127 'a' ++ ['b', '\n']) ≠
        some (selectedLines ['b'] (List.replicate 127 'a' ++ ['b', '\n'])) := by
  decide +kernel

end Cs537.Utilities.MyLook
