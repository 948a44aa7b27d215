import Cs537.Library.Chunks

/-!
# my-rev of p1

The program reads its input into a buffer of 100 characters and reverses what it finds
there, in place, with a newline left at the end. The specification reverses lines.
`fgets` hands over a longer line in blocks of 99 characters, and each of them is
reversed where it stands.
-/

namespace Cs537.Utilities

open Chunks

abbrev Text := List Char

namespace MyRev

def BUF_SIZE : Nat := 100

/-- The loop of `reverse_string`. The indices may pass each other, and the second one
may stand in front of the string. -/
def swapFrom (str : Text) (start last : Int) : Text :=
  if start < last then
    let tmp := str.getD start.toNat NUL
    let str := str.set start.toNat (str.getD last.toNat NUL)
    swapFrom (str.set last.toNat tmp) (start + 1) (last - 1)
  else str
termination_by (last - start).toNat
decreasing_by omega

/-- `reverse_string`: a newline at the end is left there. -/
def reverseString (str : Text) (len : Nat) : Text :=
  if str[len - 1]? = some '\n' then swapFrom str 0 (len - 2) else swapFrom str 0 (len - 1)

/-- A pass of the loop of `main`, with the assertion that the string is not empty. -/
def pass (buf : Text) : Option Text :=
  let str := string buf
  if 0 < str.length then some (reverseString str str.length) else none

/-- The loop of `main`: what is written for an input. -/
def main (input : Text) : Option Text := ((fgets BUF_SIZE input).mapM pass).map List.flatten

/-! ## The specification -/

/-- A line in front of its newline. -/
def body (line : Text) : Text := line.takeWhile (· ≠ '\n')

/-- The newline of a line. -/
def ending (line : Text) : Text := line.dropWhile (· ≠ '\n')

/-- A line reversed. -/
def reversed (line : Text) : Text := (body line).reverse ++ ending line

/-- The lines reversed, one after the other. -/
def reversedLines (input : Text) : Text := (lines '\n' input).flatMap reversed

/-! ## A string in the buffer -/

/-- The loop reverses what stands between the two indices and leaves the rest alone. -/
theorem swapFrom_between (front middle back : Text) :
    swapFrom (front ++ middle ++ back) front.length (front.length + middle.length - 1) =
      front ++ middle.reverse ++ back := by
  induction middle using List.bidirectionalRec generalizing front back with
  | nil =>
    rw [swapFrom, if_neg (by simp)]
    rfl
  | singleton c =>
    rw [swapFrom, if_neg (by simp)]
    rfl
  | cons_append first inner last inductionHypothesis =>
    have later := inductionHypothesis (front ++ [last]) (first :: back)
    have apart : (front.length : Int) < front.length + (first :: (inner ++ [last])).length - 1 := by
      simp only [List.length_cons, List.length_append, List.length_nil]
      omega
    have index : ((front.length : Int) + (first :: (inner ++ [last])).length - 1).toNat =
        front.length + (inner.length + 1) := by
      simp only [List.length_cons, List.length_append, List.length_nil]
      omega
    rw [swapFrom, if_pos apart]
    simp only [index, Int.toNat_natCast]
    have swapped : ((front ++ (first :: (inner ++ [last])) ++ back).set front.length
          ((front ++ (first :: (inner ++ [last])) ++ back).getD (front.length + (inner.length + 1)) NUL)).set
          (front.length + (inner.length + 1))
          ((front ++ (first :: (inner ++ [last])) ++ back).getD front.length NUL) =
        front ++ [last] ++ inner ++ first :: back := by
      simp [List.getD_eq_getElem?_getD, List.set_append_right]
    rw [swapped]
    have start : (front.length : Int) + 1 = (front ++ [last]).length := by simp
    have finish : (front.length : Int) + (first :: (inner ++ [last])).length - 1 - 1 =
        (front ++ [last]).length + inner.length - 1 := by
      simp only [List.length_cons, List.length_append, List.length_nil]
      omega
    rw [start, finish, later]
    simp

/-- What can follow the characters of a line. -/
def IsEnding (text : Text) : Prop := text = [] ∨ text = ['\n']

/-- A text with a newline at most at its end. -/
theorem line_cases {line : Text} (inner : '\n' ∉ line.dropLast) :
    ∃ front rest, line = front ++ rest ∧ '\n' ∉ front ∧ IsEnding rest := by
  induction line using List.reverseRecOn with
  | nil => exact ⟨[], [], rfl, by simp, .inl rfl⟩
  | append_singleton front c _ =>
    rw [List.dropLast_concat] at inner
    by_cases ends : c = '\n'
    · exact ⟨front, ['\n'], by rw [ends], inner, .inr rfl⟩
    · refine ⟨front ++ [c], [], by rw [List.append_nil], ?_, .inl rfl⟩
      simpa using ⟨inner, Ne.symm ends⟩

section Line

variable {front rest : Text} (unbroken : '\n' ∉ front) (ends : IsEnding rest)

include unbroken ends

theorem body_append : body (front ++ rest) = front := by
  have all : ∀ c ∈ front, decide (c ≠ '\n') = true := by
    intro c inside
    simpa using fun same : c = '\n' => unbroken (same ▸ inside)
  unfold body
  rw [List.takeWhile_append_of_pos all]
  rcases ends with rfl | rfl <;> simp

theorem ending_append : ending (front ++ rest) = rest := by
  have whole : body (front ++ rest) ++ ending (front ++ rest) = front ++ rest :=
    List.takeWhile_append_dropWhile
  rw [body_append unbroken ends] at whole
  exact List.append_cancel_left whole

/-- A string with a newline at most at its end is reversed in front of it. -/
theorem reverseString_append :
    reverseString (front ++ rest) (front ++ rest).length = front.reverse ++ rest := by
  rcases ends with rfl | rfl
  · have middle := swapFrom_between [] front []
    simp only [List.nil_append, List.append_nil, List.length_nil, Int.natCast_zero, Int.zero_add]
      at middle ⊢
    have last : front[front.length - 1]? ≠ some '\n' := fun found =>
      unbroken (List.mem_of_getElem? found)
    rw [reverseString, if_neg last, middle]
  · have middle := swapFrom_between [] front ['\n']
    simp only [List.nil_append, List.length_nil, Int.natCast_zero, Int.zero_add] at middle
    have last : (front ++ ['\n'])[(front ++ ['\n']).length - 1]? = some '\n' := by simp
    have index : (((front ++ ['\n']).length : Nat) : Int) - 2 = front.length - 1 := by
      simp only [List.length_append, List.length_singleton]
      omega
    rw [reverseString, if_pos last, index, middle]

end Line

theorem fgets_roomy : 0 < BUF_SIZE - 1 := by decide

/-- A text that fits into the buffer is one block. -/
theorem block_short {front : Text} (unbroken : '\n' ∉ front) (short : front.length < BUF_SIZE) :
    (fgets BUF_SIZE front).flatMap List.reverse = front.reverse := by
  by_cases empty : front = []
  · subst empty
    rfl
  · have piece : Piece '\n' (BUF_SIZE - 1) front :=
      ⟨empty, Nat.le_pred_of_lt short, fun inside => unbroken (List.mem_of_mem_dropLast inside)⟩
    rw [fgets, chunks_short piece, List.flatMap_singleton]

/-- What is written for a line: its blocks, each reversed, and the newline. -/
theorem line_written {front rest : Text} (unbroken : '\n' ∉ front) (ends : IsEnding rest) :
    (fgets BUF_SIZE (front ++ rest)).flatMap (fun buf => reverseString buf buf.length) =
      (fgets BUF_SIZE front).flatMap List.reverse ++ rest := by
  induction total : front.length using Nat.strong_induction_on generalizing front with
  | _ size inductionHypothesis =>
    by_cases short : (front ++ rest).length < BUF_SIZE
    · have within : front.length < BUF_SIZE := by
        rw [List.length_append] at short
        omega
      rw [block_short unbroken within]
      by_cases empty : front ++ rest = []
      · obtain ⟨rfl, rfl⟩ := List.append_eq_nil_iff.mp empty
        rfl
      · have inner : '\n' ∉ (front ++ rest).dropLast := by
          rcases ends with rfl | rfl
          · rw [List.append_nil]
            exact fun inside => unbroken (List.mem_of_mem_dropLast inside)
          · rw [List.dropLast_concat]
            exact unbroken
        have piece : Piece '\n' (BUF_SIZE - 1) (front ++ rest) :=
          ⟨empty, Nat.le_pred_of_lt short, inner⟩
        rw [fgets, chunks_short piece, List.flatMap_singleton, reverseString_append unbroken ends]
    · have filled : (front.take (BUF_SIZE - 1)).length = BUF_SIZE - 1 := by
        have room : BUF_SIZE - 1 ≤ front.length := by
          rcases ends with rfl | rfl
          · simp only [List.append_nil] at short
            omega
          · simp only [List.length_append, List.length_singleton] at short
            omega
        exact List.length_take_of_le room
      have first : '\n' ∉ front.take (BUF_SIZE - 1) := fun inside =>
        unbroken (List.mem_of_mem_take inside)
      have later : '\n' ∉ front.drop (BUF_SIZE - 1) := fun inside =>
        unbroken (List.mem_of_mem_drop inside)
      have full : Full '\n' (BUF_SIZE - 1) (front.take (BUF_SIZE - 1)) := by
        constructor
        · constructor
          · rw [← List.length_pos_iff, filled]
            exact fgets_roomy
          · exact Nat.le_of_eq filled
          · exact fun inside => first (List.mem_of_mem_dropLast inside)
        · exact .inl filled
      have shorter : (front.drop (BUF_SIZE - 1)).length < size := by
        have roomy := fgets_roomy
        rw [List.length_take] at filled
        rw [List.length_drop]
        omega
      have alone := reverseString_append first (.inl rfl)
      rw [List.append_nil, List.append_nil] at alone
      calc (fgets BUF_SIZE (front ++ rest)).flatMap (fun buf => reverseString buf buf.length)
          = (fgets BUF_SIZE (front.take (BUF_SIZE - 1) ++ (front.drop (BUF_SIZE - 1) ++ rest))).flatMap
              (fun buf => reverseString buf buf.length) := by
            rw [← List.append_assoc, List.take_append_drop]
        _ = (front.take (BUF_SIZE - 1)).reverse ++
              (fgets BUF_SIZE (front.drop (BUF_SIZE - 1) ++ rest)).flatMap
                (fun buf => reverseString buf buf.length) := by
            rw [fgets, chunks_full fgets_roomy full, List.flatMap_cons, alone]
            rfl
        _ = (front.take (BUF_SIZE - 1)).reverse ++
              ((fgets BUF_SIZE (front.drop (BUF_SIZE - 1))).flatMap List.reverse ++ rest) := by
            rw [inductionHypothesis _ shorter later rfl]
        _ = (fgets BUF_SIZE (front.take (BUF_SIZE - 1) ++ front.drop (BUF_SIZE - 1))).flatMap
              List.reverse ++ rest := by
            rw [fgets, fgets, chunks_full fgets_roomy full, List.flatMap_cons, List.append_assoc]
        _ = (fgets BUF_SIZE front).flatMap List.reverse ++ rest := by
            rw [List.take_append_drop]

/-- Blocks that are each reversed spell the reversed text if and only if the blocks spell
the text in the opposite order too. -/
theorem blocks_iff (front : Text) :
    (fgets BUF_SIZE front).flatMap List.reverse = front.reverse ↔
      (fgets BUF_SIZE front).reverse.flatten = front := by
  rw [← List.reverse_inj, List.reverse_reverse, List.reverse_flatMap]
  have twice : (List.reverse ∘ List.reverse : Text → Text) = id := by
    funext text
    exact List.reverse_reverse text
  rw [twice, List.flatMap_id]

/-! ## Whole inputs -/

/-- Without a zero in the input the assertion holds at every pass. -/
theorem main_some {input : Text} (clean : NUL ∉ input) :
    main input = some ((fgets BUF_SIZE input).flatMap fun buf => reverseString buf buf.length) := by
  have passes : ∀ buf ∈ fgets BUF_SIZE input, pass buf = some (reverseString buf buf.length) := by
    intro buf member
    obtain ⟨taken, whole⟩ := fgets_strings fgets_roomy clean buf member
    rw [pass, whole, if_pos (List.length_pos_iff.mpr taken)]
  rw [main, mapM_some passes]
  rfl

/-- The program reverses the lines of an input if and only if each of them, cut into blocks
of 99 characters in front of its newline, is spelled by the blocks in the opposite order
too; a line of at most 99 characters is one block. -/
theorem main_reverses_iff {input : Text} (clean : NUL ∉ input) :
    main input = some (reversedLines input) ↔
      ∀ line ∈ lines '\n' input, (fgets BUF_SIZE (body line)).reverse.flatten = body line := by
  have written : ∀ line ∈ lines '\n' input,
      (fgets BUF_SIZE line).flatMap (fun buf => reverseString buf buf.length) =
        (fgets BUF_SIZE (body line)).flatMap List.reverse ++ ending line := by
    intro line member
    obtain ⟨front, rest, rfl, unbroken, ends⟩ := line_cases ((lines_framed input).1 line member).2
    rw [line_written unbroken ends, body_append unbroken ends, ending_append unbroken ends]
  have output : main input = some ((lines '\n' input).flatMap fun line =>
      (fgets BUF_SIZE (body line)).flatMap List.reverse ++ ending line) := by
    rw [main_some clean, ← List.flatMap_congr written, fgets, chunks_lines fgets_roomy,
      List.flatMap_assoc]
    rfl
  have lengths : ((lines '\n' input).map fun line =>
        (fgets BUF_SIZE (body line)).flatMap List.reverse ++ ending line).map List.length =
      ((lines '\n' input).map reversed).map List.length := by
    rw [List.map_map, List.map_map]
    refine List.map_congr_left fun line _ => ?_
    have spelled : (fgets BUF_SIZE (body line)).flatten = body line := chunks_flatten fgets_roomy _
    have size : ((fgets BUF_SIZE (body line)).flatMap List.reverse).length = (body line).length := by
      conv_rhs => rw [← spelled]
      rw [List.flatMap_def, List.length_flatten, List.length_flatten, List.map_map]
      congr 1
      refine List.map_congr_left fun block _ => ?_
      exact List.length_reverse
    simp [reversed, size]
  rw [output, Option.some.injEq, reversedLines, List.flatMap_def, List.flatMap_def]
  constructor
  · intro same line member
    have each := List.map_inj_left.mp (List.eq_iff_flatten_eq.mpr ⟨same, lengths⟩) line member
    exact (blocks_iff _).mp (List.append_cancel_right each)
  · intro blocks
    congr 1
    refine List.map_congr_left fun line member => ?_
    rw [(blocks_iff _).mpr (blocks line member), reversed]

/-- Three lines, one of them of 99 characters and one empty. -/
theorem main_reverses_iff_short :
    main (List.replicate 99 'a' ++ "\n\nbc".toList) =
      some (reversedLines (List.replicate 99 'a' ++ "\n\nbc".toList)) :=
  (main_reverses_iff (by decide)).mpr (by decide +kernel)

/-- A line of 100 characters is reversed but for its last character. -/
theorem main_splits : NUL ∉ List.replicate 99 'a' ++ ['b'] ∧
    main (List.replicate 99 'a' ++ ['b']) = some (List.replicate 99 'a' ++ ['b']) ∧
    main (List.replicate 99 'a' ++ ['b']) ≠ some (reversedLines (List.replicate 99 'a' ++ ['b'])) := by
  decide +kernel

end MyRev

end Cs537.Utilities
