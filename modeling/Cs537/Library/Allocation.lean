import Mathlib.Data.Finset.Card
import Mathlib.Logic.Function.Basic

/-!
# Cells, their marks and their holders

Cells are handed out to slots one at a time, and each cell has a mark that says whether
it is taken. Some cells are reserved for good. The bookkeeping is exact if the marked
cells are the reserved ones and those that a slot holds, and no cell is held twice. It
stays exact when an empty slot claims a cell without a mark, and when a slot releases
the cell that it holds.
-/

namespace Cs537.Allocation

universe u v
variable {ι : Type u} {κ : Type v}

/-- The bookkeeping of the given cells is exact. -/
structure Exact (cells reserved : κ → Prop) (held : ι → Option κ) (marked : κ → Prop) : Prop where
  sole : ∀ i j b, held i = some b → held j = some b → i = j
  inside : ∀ i b, held i = some b → cells b
  apart : ∀ i b, held i = some b → ¬ reserved b
  marks : ∀ b, cells b → (marked b ↔ reserved b ∨ ∃ i, held i = some b)

variable {cells reserved : κ → Prop} {held held' : ι → Option κ} {marked marked' : κ → Prop}

/-- Nobody holds a cell without a mark, and it is not reserved. -/
theorem Exact.unmarked (books : Exact cells reserved held marked) {b : κ} (inside : cells b)
    (unmarked : ¬ marked b) : ¬ reserved b ∧ ∀ i, held i ≠ some b := by
  rw [books.marks b inside, not_or, not_exists] at unmarked
  exact unmarked

/-- A held cell is marked. -/
theorem Exact.marked_of_held (books : Exact cells reserved held marked) {i : ι} {b : κ}
    (holds : held i = some b) : marked b :=
  (books.marks b (books.inside i b holds)).mpr (.inr ⟨i, holds⟩)

/-- The same slots and the same marks. -/
theorem Exact.congr (books : Exact cells reserved held marked) (same : ∀ i, held' i = held i)
    (marks : ∀ b, cells b → (marked' b ↔ marked b)) : Exact cells reserved held' marked' := by
  obtain rfl : held' = held := funext same
  exact ⟨books.sole, books.inside, books.apart,
    fun b inside => (marks b inside).trans (books.marks b inside)⟩

/-- An empty slot claims a cell without a mark. -/
theorem Exact.claim (books : Exact cells reserved held marked) {i : ι} {b : κ}
    (empty : held i = none) (inside : cells b) (unmarked : ¬ marked b) (holds : held' i = some b)
    (same : ∀ j, j ≠ i → held' j = held j)
    (marks : ∀ c, cells c → (marked' c ↔ marked c ∨ c = b)) :
    Exact cells reserved held' marked' := by
  obtain ⟨notReserved, nobody⟩ := books.unmarked inside unmarked
  have before : ∀ j c, held' j = some c → (j = i ∧ c = b) ∨ held j = some c := by
    intro j c now
    by_cases here : j = i
    · subst here
      exact .inl ⟨rfl, Option.some.inj (now.symm.trans holds)⟩
    · exact .inr (same j here ▸ now)
  constructor
  · intro j k c first second
    obtain ⟨rfl, rfl⟩ | old := before j c first
    · obtain ⟨rfl, _⟩ | other := before k c second
      · rfl
      · exact absurd other (nobody k)
    · obtain ⟨rfl, rfl⟩ | other := before k c second
      · exact absurd old (nobody j)
      · exact books.sole j k c old other
  · intro j c now
    obtain ⟨_, rfl⟩ | old := before j c now
    · exact inside
    · exact books.inside j c old
  · intro j c now
    obtain ⟨_, rfl⟩ | old := before j c now
    · exact notReserved
    · exact books.apart j c old
  · intro c cell
    rw [marks c cell, books.marks c cell]
    constructor
    · rintro ((kept | ⟨j, old⟩) | rfl)
      · exact .inl kept
      · have apart : j ≠ i := fun equal => by simp [equal, empty] at old
        exact .inr ⟨j, (same j apart).trans old⟩
      · exact .inr ⟨i, holds⟩
    · rintro (kept | ⟨j, now⟩)
      · exact .inl (.inl kept)
      · obtain ⟨_, rfl⟩ | old := before j c now
        · exact .inr rfl
        · exact .inl (.inr ⟨j, old⟩)

/-- A slot releases the cell that it holds. -/
theorem Exact.release (books : Exact cells reserved held marked) {i : ι} {b : κ}
    (holds : held i = some b) (empty : held' i = none) (same : ∀ j, j ≠ i → held' j = held j)
    (marks : ∀ c, cells c → (marked' c ↔ marked c ∧ c ≠ b)) :
    Exact cells reserved held' marked' := by
  have before : ∀ j c, held' j = some c → j ≠ i ∧ held j = some c := by
    intro j c now
    have apart : j ≠ i := fun equal => by simp [equal, empty] at now
    exact ⟨apart, same j apart ▸ now⟩
  constructor
  · exact fun j k c first second => books.sole j k c (before j c first).2 (before k c second).2
  · exact fun j c now => books.inside j c (before j c now).2
  · exact fun j c now => books.apart j c (before j c now).2
  · intro c cell
    rw [marks c cell, books.marks c cell]
    constructor
    · rintro ⟨kept | ⟨j, old⟩, other⟩
      · exact .inl kept
      · have apart : j ≠ i := by
          rintro rfl
          exact other (Option.some.inj (old.symm.trans holds))
        exact .inr ⟨j, (same j apart).trans old⟩
    · rintro (kept | ⟨j, now⟩)
      · exact ⟨.inl kept, fun equal => books.apart i b holds (equal ▸ kept)⟩
      · obtain ⟨apart, old⟩ := before j c now
        exact ⟨.inr ⟨j, old⟩, fun equal => apart (books.sole j i b (equal ▸ old) holds)⟩

/-- As many cells are marked as are reserved and held together. -/
theorem Exact.count {all : Finset κ} (books : Exact (· ∈ all) reserved held marked)
    [DecidablePred reserved] [DecidablePred marked] {slots : Finset ι}
    (complete : ∀ i b, held i = some b → i ∈ slots) :
    (all.filter marked).card =
      (all.filter reserved).card + (slots.filter fun i => (held i).isSome).card := by
  have kept : (all.filter marked).filter reserved = all.filter reserved := by
    ext b
    simp only [Finset.mem_filter]
    exact ⟨fun ⟨⟨inside, _⟩, here⟩ => ⟨inside, here⟩,
      fun ⟨inside, here⟩ => ⟨⟨inside, (books.marks b inside).mpr (.inl here)⟩, here⟩⟩
  have given : (slots.filter fun i => (held i).isSome).card =
      ((all.filter marked).filter fun b => ¬ reserved b).card := by
    refine Finset.card_bij (fun i holds => (held i).get (Finset.mem_filter.mp holds).2) ?_ ?_ ?_
    · intro i holds
      have here := Option.eq_some_of_isSome (Finset.mem_filter.mp holds).2
      simp only [Finset.mem_filter]
      exact ⟨⟨books.inside i _ here, books.marked_of_held here⟩, books.apart i _ here⟩
    · intro i one j other same
      have here := Option.eq_some_of_isSome (Finset.mem_filter.mp one).2
      have there := Option.eq_some_of_isSome (Finset.mem_filter.mp other).2
      exact books.sole i j _ (here.trans (congrArg some same)) there
    · intro b taken
      simp only [Finset.mem_filter] at taken
      obtain ⟨⟨inside, mark⟩, free⟩ := taken
      obtain ⟨i, here⟩ := ((books.marks b inside).mp mark).resolve_left free
      refine ⟨i, Finset.mem_filter.mpr ⟨complete i b here, by simp [here]⟩, ?_⟩
      simp [here]
  rw [given, ← kept]
  exact (Finset.card_filter_add_card_filter_not reserved).symm

end Cs537.Allocation
