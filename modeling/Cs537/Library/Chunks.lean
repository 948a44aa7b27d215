import Mathlib

/-!
# Reading a text through a buffer

A read takes at most as many items as there is room for, and none behind a mark. A
text read to its end falls into chunks; with unlimited room it falls into lines. The
chunks of a text are those of its lines, one line after the other, and a list of
chunks is determined by the text that it spells.
-/

namespace Cs537.Chunks

variable {α : Type*} {mark : α} {room : Nat}

/-- What can be read at once: something, with no mark before its end. -/
structure Piece (mark : α) (room : Nat) (chunk : List α) : Prop where
  taken : chunk ≠ []
  fits : chunk.length ≤ room
  inner : mark ∉ chunk.dropLast

/-- What a read takes wherever it stands: the room is used up, or a mark is reached. -/
structure Full (mark : α) (room : Nat) (chunk : List α) : Prop extends Piece mark room chunk where
  complete : chunk.length = room ∨ chunk.getLast? = some mark

theorem Piece.tail {c second : α} {rest : List α} (piece : Piece mark (room + 1) (c :: second :: rest)) :
    c ≠ mark ∧ Piece mark room (second :: rest) := by
  have inner := piece.inner
  simp only [List.dropLast_cons_cons, List.mem_cons, not_or] at inner
  have fits := piece.fits
  simp only [List.length_cons] at fits
  exact ⟨Ne.symm inner.1, by simp, by simp only [List.length_cons]; omega, inner.2⟩

variable [DecidableEq α]

/-- One read, and what it leaves. -/
def read (mark : α) : Nat → List α → List α × List α
  | 0, text => ([], text)
  | _ + 1, [] => ([], [])
  | room + 1, c :: rest =>
    if c = mark then ([c], rest)
    else (c :: (read mark room rest).1, (read mark room rest).2)

/-- Reads until one of them takes nothing. -/
def readAll (mark : α) (room : Nat) : Nat → List α → List (List α)
  | 0, _ => []
  | fuel + 1, text =>
    if (read mark room text).1 = [] then []
    else (read mark room text).1 :: readAll mark room fuel (read mark room text).2

/-- What repeated reads take until the end of the text. -/
def chunks (mark : α) (room : Nat) (text : List α) : List (List α) :=
  readAll mark room text.length text

/-- The lines of a text, each with the mark that ends it. -/
def lines (mark : α) : List α → List (List α)
  | [] => []
  | c :: rest =>
    if c = mark then [c] :: lines mark rest
    else
      match lines mark rest with
      | [] => [[c]]
      | line :: more => (c :: line) :: more

/-! ## One read -/

@[simp] theorem read_nil : read mark room [] = ([], []) := by
  cases room <;> rfl

/-- Nothing is lost, and nothing is moved. -/
theorem read_append (room : Nat) (text : List α) :
    (read mark room text).1 ++ (read mark room text).2 = text := by
  induction room generalizing text with
  | zero => rfl
  | succ room inductionHypothesis =>
    cases text with
    | nil => rfl
    | cons c rest =>
      by_cases ends : c = mark
      · simp [read, ends]
      · simp [read, ends, inductionHypothesis rest]

/-- With some room, a read takes nothing only at the end of the text. -/
theorem read_ne_nil (roomy : 0 < room) {text : List α} (more : text ≠ []) :
    (read mark room text).1 ≠ [] := by
  obtain ⟨size, rfl⟩ := Nat.exists_eq_succ_of_ne_zero (Nat.ne_of_gt roomy)
  cases text with
  | nil => exact absurd rfl more
  | cons c rest =>
    by_cases ends : c = mark
    · simp [read, ends]
    · simp [read, ends]

/-- A read takes a full chunk off the front. -/
theorem read_full {chunk : List α} (full : Full mark room chunk) (rest : List α) :
    read mark room (chunk ++ rest) = (chunk, rest) := by
  induction chunk generalizing room with
  | nil => exact absurd rfl full.taken
  | cons c others inductionHypothesis =>
    have fits := full.fits
    simp only [List.length_cons] at fits
    obtain ⟨size, rfl⟩ := Nat.exists_eq_succ_of_ne_zero (Nat.ne_of_gt (Nat.lt_of_lt_of_le
      (Nat.succ_pos others.length) fits))
    cases others with
    | nil =>
      rcases full.complete with filled | ends
      · obtain rfl : size = 0 := by simpa using filled.symm
        by_cases ends : c = mark
        · simp [read, ends]
        · simp [read, ends]
      · obtain rfl : c = mark := by simpa using ends
        simp [read]
    | cons second others =>
      obtain ⟨different, piece⟩ := full.toPiece.tail
      have complete : (second :: others).length = size ∨ (second :: others).getLast? = some mark := by
        refine full.complete.imp ?_ ?_
        · intro filled
          simpa using filled
        · intro ends
          simpa using ends
      have later := inductionHypothesis ⟨piece, complete⟩
      simp only [List.cons_append, read, if_neg different] at later ⊢
      rw [later]

/-- A read takes a piece at the end of the text. -/
theorem read_piece {chunk : List α} (piece : Piece mark room chunk) :
    read mark room chunk = (chunk, []) := by
  induction chunk generalizing room with
  | nil => exact absurd rfl piece.taken
  | cons c others inductionHypothesis =>
    have fits := piece.fits
    simp only [List.length_cons] at fits
    obtain ⟨size, rfl⟩ := Nat.exists_eq_succ_of_ne_zero (Nat.ne_of_gt (Nat.lt_of_lt_of_le
      (Nat.succ_pos others.length) fits))
    cases others with
    | nil =>
      by_cases ends : c = mark
      · simp [read, ends]
      · simp [read, ends]
    | cons second others =>
      obtain ⟨different, tail⟩ := piece.tail
      have later := inductionHypothesis tail
      simp only [read, if_neg different] at later ⊢
      rw [later]

/-- What a read takes is a piece, and full unless the text ends with it. -/
theorem read_cases (roomy : 0 < room) {text : List α} (more : text ≠ []) :
    Piece mark room (read mark room text).1 ∧
      ((read mark room text).2 ≠ [] → Full mark room (read mark room text).1) := by
  induction room generalizing text with
  | zero => exact absurd roomy (Nat.lt_irrefl 0)
  | succ room inductionHypothesis =>
    cases text with
    | nil => exact absurd rfl more
    | cons c rest =>
      by_cases ends : c = mark
      · have piece : Piece mark (room + 1) [c] := ⟨by simp, by simp, by simp⟩
        simp only [read, if_pos ends]
        exact ⟨piece, fun _ => ⟨piece, .inr (by simp [ends])⟩⟩
      · simp only [read, if_neg ends]
        by_cases last : room = 0 ∨ rest = []
        · have alone : (read mark room rest).1 = [] := by
            rcases last with rfl | rfl
            · rfl
            · simp
          rw [alone]
          have piece : Piece mark (room + 1) [c] := ⟨by simp, by simp, by simp⟩
          refine ⟨piece, fun goesOn => ⟨piece, ?_⟩⟩
          rcases last with rfl | rfl
          · exact .inl rfl
          · simp at goesOn
        · obtain ⟨some, filled⟩ := not_or.mp last
          have roomy : 0 < room := Nat.pos_of_ne_zero some
          obtain ⟨piece, full⟩ := inductionHypothesis roomy filled
          obtain ⟨second, others, shape⟩ := List.exists_cons_of_ne_nil piece.taken
          have longer : Piece mark (room + 1) (c :: (read mark room rest).1) := by
            constructor
            · simp
            · simpa using piece.fits
            · have inner := piece.inner
              rw [shape] at inner ⊢
              rw [List.dropLast_cons_cons, List.mem_cons, not_or]
              exact ⟨Ne.symm ends, inner⟩
          refine ⟨longer, fun goesOn => ⟨longer, ?_⟩⟩
          refine (full goesOn).complete.imp ?_ ?_
          · intro used
            simp [used]
          · intro marked
            rw [shape] at marked ⊢
            simpa using marked

/-! ## All reads -/

section Chunks

variable (roomy : 0 < room)

include roomy

theorem read_shorter {text : List α} (more : text ≠ []) :
    (read mark room text).2.length < text.length := by
  have whole : (read mark room text).1.length + (read mark room text).2.length = text.length := by
    rw [← List.length_append, read_append]
  have taken : 0 < (read mark room text).1.length := List.length_pos_iff.mpr (read_ne_nil roomy more)
  omega

/-- As many reads as the text has items are enough, and more change nothing. -/
theorem readAll_fuel {fuel other : Nat} {text : List α} (enough : text.length ≤ fuel)
    (enough' : text.length ≤ other) : readAll mark room fuel text = readAll mark room other text := by
  induction fuel generalizing other text with
  | zero =>
    rw [List.length_eq_zero_iff.mp (Nat.le_zero.mp enough)]
    cases other <;> simp [readAll]
  | succ fuel inductionHypothesis =>
    by_cases empty : text = []
    · subst empty
      cases other <;> simp [readAll]
    · have shorter : (read mark room text).2.length < text.length := read_shorter roomy empty
      obtain ⟨other, rfl⟩ := Nat.exists_eq_succ_of_ne_zero (show other ≠ 0 by omega)
      unfold readAll
      rw [@inductionHypothesis other _ (by omega) (by omega)]

theorem chunks_cons {text : List α} (more : text ≠ []) :
    chunks mark room text = (read mark room text).1 :: chunks mark room (read mark room text).2 := by
  have shorter : (read mark room text).2.length < text.length := read_shorter roomy more
  obtain ⟨size, length⟩ := Nat.exists_eq_succ_of_ne_zero (show text.length ≠ 0 by omega)
  have later : readAll mark room size (read mark room text).2 =
      chunks mark room (read mark room text).2 :=
    readAll_fuel roomy (by omega) (Nat.le_refl _)
  unfold chunks at later ⊢
  rw [length, readAll, if_neg (read_ne_nil roomy more), later]

/-- A property of every text follows one read at a time. -/
theorem chunks_induction (mark : α) {motive : List α → Prop} (nil : motive [])
    (step : ∀ text, text ≠ [] → motive (read mark room text).2 → motive text) (text : List α) :
    motive text := by
  induction size : text.length using Nat.strong_induction_on generalizing text with
  | _ size inductionHypothesis =>
    by_cases empty : text = []
    · exact empty ▸ nil
    · refine step text empty (inductionHypothesis _ ?_ _ rfl)
      exact size ▸ read_shorter roomy empty

/-- The chunks spell the text. -/
theorem chunks_flatten (text : List α) : (chunks mark room text).flatten = text := by
  induction text using chunks_induction roomy mark with
  | nil => rfl
  | step text more inductionHypothesis =>
    rw [chunks_cons roomy more, List.flatten_cons, inductionHypothesis, read_append]

/-- Every chunk is a piece, and all but the last one are full. -/
theorem chunks_framed (text : List α) :
    (∀ chunk ∈ chunks mark room text, Piece mark room chunk) ∧
      (chunks mark room text).Pairwise fun chunk _ => Full mark room chunk := by
  induction text using chunks_induction roomy mark with
  | nil => exact ⟨by simp [chunks, readAll], by simp [chunks, readAll]⟩
  | step text more inductionHypothesis =>
    obtain ⟨piece, full⟩ : _ ∧ (_ → Full mark room _) := read_cases roomy more
    rw [chunks_cons roomy more]
    refine ⟨List.forall_mem_cons.mpr ⟨piece, inductionHypothesis.1⟩,
      List.pairwise_cons.mpr ⟨?_, inductionHypothesis.2⟩⟩
    intro later inside
    apply full
    rintro ended
    rw [ended] at inside
    simp [chunks, readAll] at inside

/-- A full chunk in front of a text stays a chunk. -/
theorem chunks_full {chunk : List α} (full : Full mark room chunk) (rest : List α) :
    chunks mark room (chunk ++ rest) = chunk :: chunks mark room rest := by
  have more : chunk ++ rest ≠ [] := by simp [full.taken]
  rw [chunks_cons roomy more, read_full full rest]

/-- Pieces of which all but the last one are full are the chunks of what they spell. -/
theorem chunks_spelled {list : List (List α)} (pieces : ∀ chunk ∈ list, Piece mark room chunk)
    (full : list.Pairwise fun chunk _ => Full mark room chunk) :
    chunks mark room list.flatten = list := by
  induction list with
  | nil => rfl
  | cons chunk rest inductionHypothesis =>
    obtain ⟨piece, later⟩ := List.forall_mem_cons.mp pieces
    obtain ⟨filled, full⟩ := List.pairwise_cons.mp full
    cases rest with
    | nil =>
      rw [List.flatten_cons, List.flatten_nil, List.append_nil, chunks_cons roomy piece.taken,
        read_piece piece]
      rfl
    | cons second others =>
      rw [List.flatten_cons, chunks_full roomy (filled second List.mem_cons_self),
        inductionHypothesis later full]

/-- A selection of the chunks of a text is determined by what it spells. -/
theorem chunks_selected {text : List α} {list : List (List α)}
    (selected : list.Sublist (chunks mark room text)) : chunks mark room list.flatten = list := by
  obtain ⟨pieces, full⟩ : _ ∧ (chunks mark room text).Pairwise _ := chunks_framed roomy text
  exact chunks_spelled roomy (fun chunk member => pieces chunk (selected.subset member))
    (full.sublist selected)

/-- No chunk reaches over a mark. -/
theorem chunks_append {text : List α} (ends : text.getLast? = some mark) (rest : List α) :
    chunks mark room (text ++ rest) = chunks mark room text ++ chunks mark room rest := by
  induction text using chunks_induction roomy mark with
  | nil => simp at ends
  | step text more inductionHypothesis =>
    obtain ⟨piece, full⟩ : _ ∧ (_ → Full mark room _) := read_cases roomy more
    have whole : (read mark room text).1 ++ (read mark room text).2 = text := read_append room text
    rw [chunks_cons roomy more]
    by_cases last : (read mark room text).2 = []
    · rw [last, List.append_nil] at whole
      have filled : Full mark room text := ⟨whole ▸ piece, .inr ends⟩
      rw [chunks_full roomy filled, last, whole]
      simp [chunks, readAll]
    · have marked : (read mark room text).2.getLast? = some mark := by
        rw [← whole, List.getLast?_append_of_ne_nil _ last] at ends
        exact ends
      calc chunks mark room (text ++ rest)
          = chunks mark room ((read mark room text).1 ++ ((read mark room text).2 ++ rest)) := by
            rw [← List.append_assoc, whole]
        _ = (read mark room text).1 :: chunks mark room ((read mark room text).2 ++ rest) :=
            chunks_full roomy (full last) _
        _ = _ := by
            rw [inductionHypothesis marked, List.cons_append]

end Chunks

/-! ## Lines -/

/-- The lines spell the text. -/
theorem lines_flatten (text : List α) : (lines mark text).flatten = text := by
  induction text with
  | nil => rfl
  | cons c rest inductionHypothesis =>
    unfold lines
    split
    · rw [List.flatten_cons, inductionHypothesis, List.singleton_append]
    · split
      · rename_i none
        rw [none] at inductionHypothesis
        simpa using inductionHypothesis
      · rename_i line more shape
        rw [shape] at inductionHypothesis
        simpa using inductionHypothesis

/-- A line has a mark only at its end, and only the last one may have none. -/
theorem lines_framed (text : List α) :
    (∀ line ∈ lines mark text, line ≠ [] ∧ mark ∉ line.dropLast) ∧
      (lines mark text).Pairwise fun line _ => line.getLast? = some mark := by
  induction text with
  | nil => exact ⟨by simp [lines], by simp [lines]⟩
  | cons c rest inductionHypothesis =>
    obtain ⟨inner, ends⟩ := inductionHypothesis
    unfold lines
    split
    · rename_i same
      refine ⟨List.forall_mem_cons.mpr ⟨by simp, inner⟩, List.pairwise_cons.mpr ⟨?_, ends⟩⟩
      intro _ _
      simp [same]
    · rename_i different
      split
      · exact ⟨by simp, by simp⟩
      · rename_i line more shape
        rw [shape] at inner ends
        obtain ⟨⟨some, unmarked⟩, others⟩ := List.forall_mem_cons.mp inner
        obtain ⟨marked, later⟩ := List.pairwise_cons.mp ends
        obtain ⟨second, following, rfl⟩ := List.exists_cons_of_ne_nil some
        constructor
        · refine List.forall_mem_cons.mpr ⟨⟨by simp, ?_⟩, others⟩
          rw [List.dropLast_cons_cons, List.mem_cons, not_or]
          exact ⟨Ne.symm different, unmarked⟩
        · refine List.pairwise_cons.mpr ⟨?_, later⟩
          intro other inside
          rw [List.getLast?_cons_cons]
          exact marked other inside

/-- Reading goes on line by line. -/
theorem chunks_lines (roomy : 0 < room) (text : List α) :
    chunks mark room text = (lines mark text).flatMap (chunks mark room) := by
  have each : ∀ list : List (List α), (list.Pairwise fun line _ => line.getLast? = some mark) →
      chunks mark room list.flatten = list.flatMap (chunks mark room) := by
    intro list ends
    induction list with
    | nil => rfl
    | cons line rest inductionHypothesis =>
      obtain ⟨marked, later⟩ := List.pairwise_cons.mp ends
      rw [List.flatten_cons, List.flatMap_cons, ← inductionHypothesis later]
      cases rest with
      | nil => simp [chunks, readAll]
      | cons second others => exact chunks_append roomy (marked second List.mem_cons_self) _
  have spelled := each _ (lines_framed text).2
  rwa [lines_flatten] at spelled

/-- What fits is read at once. -/
theorem chunks_short {line : List α} (piece : Piece mark room line) :
    chunks mark room line = [line] := by
  have roomy : 0 < room := Nat.lt_of_lt_of_le (List.length_pos_iff.mpr piece.taken) piece.fits
  rw [chunks_cons roomy piece.taken, read_piece piece]
  rfl

omit [DecidableEq α] in
/-- A line that goes on behind the room has no mark within. -/
theorem take_unmarked {line : List α} (inner : mark ∉ line.dropLast) (long : room < line.length) :
    mark ∉ line.take room := by
  have front : line.take room = line.dropLast.take room := by
    rw [List.dropLast_eq_take, List.take_take, Nat.min_eq_left (by omega)]
  rw [front]
  exact fun inside => inner (List.mem_of_mem_take inside)

/-- A line that goes on behind the room is read in parts. -/
theorem chunks_long (roomy : 0 < room) {line : List α} (inner : mark ∉ line.dropLast)
    (long : room < line.length) :
    chunks mark room line = line.take room :: chunks mark room (line.drop room) := by
  have length : (line.take room).length = room := List.length_take_of_le (Nat.le_of_lt long)
  have unmarked := take_unmarked inner long
  have full : Full mark room (line.take room) := by
    constructor
    · constructor
      · rw [← List.length_pos_iff, length]
        exact roomy
      · exact Nat.le_of_eq length
      · exact fun inside => unmarked (List.mem_of_mem_dropLast inside)
    · exact .inl length
  conv_lhs => rw [← List.take_append_drop room line]
  rw [chunks_full roomy full]

/-! ## C strings -/

/-- The character that ends a string. -/
def NUL : Char := Char.ofNat 0

/-- The string in a buffer. -/
def string (buf : List Char) : List Char := buf.takeWhile (· ≠ NUL)

theorem string_eq_iff {buf : List Char} : string buf = buf ↔ NUL ∉ buf := by
  unfold string
  rw [List.takeWhile_eq_self_iff]
  constructor
  · intro all inside
    simpa using all NUL inside
  · intro absent c inside
    have different : c ≠ NUL := fun same => absent (same ▸ inside)
    simpa using different

/-- What `fgets` leaves in a buffer of this size, call after call, until it returns null. -/
def fgets (size : Nat) (input : List Char) : List (List Char) := chunks '\n' (size - 1) input

/-- Without a zero in the input, every buffer holds a string that is not empty. -/
theorem fgets_strings {size : Nat} (roomy : 0 < size - 1) {input : List Char} (clean : NUL ∉ input) :
    ∀ buf ∈ fgets size input, buf ≠ [] ∧ string buf = buf := by
  intro buf member
  refine ⟨((chunks_framed roomy input).1 buf member).taken, string_eq_iff.mpr fun inside => clean ?_⟩
  have spelled : (fgets size input).flatten = input := chunks_flatten roomy input
  rw [← spelled]
  exact List.mem_flatten.mpr ⟨buf, member, inside⟩

/-- A loop that goes through every buffer. -/
theorem mapM_some {β γ : Type*} {list : List β} {pass : β → Option γ} {result : β → γ}
    (passes : ∀ x ∈ list, pass x = some (result x)) : list.mapM pass = some (list.map result) := by
  induction list with
  | nil => rfl
  | cons x rest inductionHypothesis =>
    obtain ⟨here, later⟩ := List.forall_mem_cons.mp passes
    rw [List.mapM_cons, here, inductionHypothesis later]
    rfl

end Cs537.Chunks
