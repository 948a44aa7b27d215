import Mathlib.Algebra.BigOperators.Fin
import Mathlib.Algebra.BigOperators.Finprod
import Mathlib.Algebra.BigOperators.Group.List.Basic
import Mathlib.Algebra.BigOperators.Ring.Finset

/-!
# How often a key occurs in a family of optional keys

A finite family of slots, each empty or holding a key. The number of slots that
hold a key changes by one when a slot is assigned; a key that occurs at most once
is held by at most one slot. The sum of such numbers over a list of families
changes with one of them.
-/

namespace Cs537.Occurrences

variable {ι κ : Type*} [DecidableEq κ]

/-- One for the given key and zero for every other. -/
def one (key other : κ) : Nat := if key = other then 1 else 0

@[simp] theorem one_self (key : κ) : one key key = 1 := if_pos rfl

/-- What a slot contributes to a key. -/
def holds (slot : Option κ) (key : κ) : Nat := if slot = some key then 1 else 0

@[simp] theorem holds_none (key : κ) : holds none key = 0 := by simp [holds]

@[simp] theorem holds_some (kept key : κ) : holds (some kept) key = one kept key := by
  simp [holds, one]

/-- The number of slots that hold a key. -/
noncomputable def occurrences (slots : ι → Option κ) (key : κ) : Nat := finsum fun i => holds (slots i) key

/-- A key that no slot holds. -/
theorem occurrences_absent {slots : ι → Option κ} {key : κ} (absent : ∀ i, slots i ≠ some key) :
    occurrences slots key = 0 := by
  have nothing : ∀ i, holds (slots i) key = 0 := fun i => if_neg (absent i)
  unfold occurrences
  simp only [nothing, finsum_zero]

/-- A family without keys. -/
theorem occurrences_empty {slots : ι → Option κ} (empty : ∀ i, slots i = none) (key : κ) :
    occurrences slots key = 0 :=
  occurrences_absent fun i => by simp [empty i]

/-- The slots of a finite row are counted one after the other. -/
theorem occurrences_row {n : Nat} (slots : Fin n → Option κ) (key : κ) :
    occurrences slots key = ((List.finRange n).map fun i => holds (slots i) key).sum := by
  rw [occurrences, finsum_eq_sum_of_fintype, Fin.sum_univ_def]

variable [Finite ι] [DecidableEq ι]

/-- Assigning a slot exchanges its contribution. -/
theorem occurrences_update (slots : ι → Option κ) (i : ι) (slot : Option κ) (key : κ) :
    occurrences (Function.update slots i slot) key + holds (slots i) key =
      occurrences slots key + holds slot key := by
  obtain ⟨_⟩ := nonempty_fintype ι
  simp only [occurrences, finsum_eq_sum_of_fintype]
  have before := Finset.add_sum_erase Finset.univ (fun j => holds (slots j) key) (Finset.mem_univ i)
  have after := Finset.add_sum_erase Finset.univ
    (fun j => holds (Function.update slots i slot j) key) (Finset.mem_univ i)
  have others : ∑ j ∈ Finset.univ.erase i, holds (Function.update slots i slot j) key =
      ∑ j ∈ Finset.univ.erase i, holds (slots j) key := by
    apply Finset.sum_congr rfl
    intro j member
    rw [Function.update_of_ne (Finset.ne_of_mem_erase member)]
  simp only [Function.update_self] at after
  omega

/-- A key in a slot occurs. -/
theorem occurrences_pos {slots : ι → Option κ} {i : ι} {key : κ} (kept : slots i = some key) :
    1 ≤ occurrences slots key := by
  have cleared := occurrences_update slots i none key
  rw [kept, holds_some, holds_none, one_self] at cleared
  omega

/-- A key that occurs at most once is held by at most one slot. -/
theorem occurrences_unique {slots : ι → Option κ} {i j : ι} {key : κ}
    (once : occurrences slots key ≤ 1) (first : slots i = some key) (second : slots j = some key) :
    i = j := by
  by_contra different
  have cleared := occurrences_update slots i none key
  have left : 1 ≤ occurrences (Function.update slots i none) key := by
    apply occurrences_pos (i := j)
    rw [Function.update_of_ne (Ne.symm different), second]
  rw [first, holds_some, holds_none, one_self] at cleared
  omega

/-- A key that is held by at most one slot occurs at most once. -/
theorem occurrences_le_one {slots : ι → Option κ} {key : κ}
    (unique : ∀ i j, slots i = some key → slots j = some key → i = j) : occurrences slots key ≤ 1 := by
  by_cases absent : ∀ i, slots i ≠ some key
  · rw [occurrences_absent absent]
    exact Nat.zero_le 1
  · obtain ⟨i, held⟩ : ∃ i, slots i = some key := by simpa using absent
    have cleared := occurrences_update slots i none key
    have empty : occurrences (Function.update slots i none) key = 0 := by
      refine occurrences_absent fun j kept => ?_
      by_cases same : j = i
      · simp [same] at kept
      · rw [Function.update_of_ne same] at kept
        exact same (unique j i kept held)
    rw [held, holds_some, holds_none, one_self, empty] at cleared
    omega

/-- Replacing one element of a list exchanges its contribution to a sum. -/
theorem sum_map_set {α : Type*} (weight : α → Nat) {items : List α} {i : Nat} {old : α}
    (present : items[i]? = some old) (new : α) :
    ((items.set i new).map weight).sum + weight old = (items.map weight).sum + weight new := by
  induction items generalizing i with
  | nil => simp at present
  | cons first rest inductionHypothesis =>
    cases i with
    | zero =>
      obtain rfl : first = old := by simpa using present
      simp only [List.set_cons_zero, List.map_cons, List.sum_cons]
      omega
    | succ i =>
      have later := inductionHypothesis (i := i) (by simpa using present)
      simp only [List.set_cons_succ, List.map_cons, List.sum_cons]
      omega

/-- Removing one element of a list removes its contribution. -/
theorem sum_map_eraseIdx {α : Type*} (weight : α → Nat) {items : List α} {i : Nat} {old : α}
    (present : items[i]? = some old) :
    ((items.eraseIdx i).map weight).sum + weight old = (items.map weight).sum := by
  induction items generalizing i with
  | nil => simp at present
  | cons first rest inductionHypothesis =>
    cases i with
    | zero =>
      obtain rfl : first = old := by simpa using present
      simp only [List.eraseIdx_cons_zero, List.map_cons, List.sum_cons]
      omega
    | succ i =>
      have later := inductionHypothesis (i := i) (by simpa using present)
      simp only [List.eraseIdx_cons_succ, List.map_cons, List.sum_cons]
      omega

/-- An element contributes to the sum of its list. -/
theorem le_sum_map {α : Type*} (weight : α → Nat) {items : List α} {i : Nat} {item : α}
    (present : items[i]? = some item) : weight item ≤ (items.map weight).sum := by
  induction items generalizing i with
  | nil => simp at present
  | cons first rest inductionHypothesis =>
    cases i with
    | zero =>
      obtain rfl : first = item := by simpa using present
      simp
    | succ i =>
      have later := inductionHypothesis (i := i) (by simpa using present)
      simp only [List.map_cons, List.sum_cons]
      omega

/-- Two elements at different places both contribute. -/
theorem add_le_sum_map {α : Type*} (weight : α → Nat) {items : List α} {i j : Nat} {first second : α}
    (one : items[i]? = some first) (two : items[j]? = some second) (different : i ≠ j) :
    weight first + weight second ≤ (items.map weight).sum := by
  induction items generalizing i j with
  | nil => simp at one
  | cons head rest inductionHypothesis =>
    simp only [List.map_cons, List.sum_cons]
    cases i with
    | zero =>
      obtain rfl : head = first := by simpa using one
      cases j with
      | zero => exact absurd rfl different
      | succ j =>
        have later : weight second ≤ (rest.map weight).sum :=
          le_sum_map weight (i := j) (by simpa using two)
        omega
    | succ i =>
      cases j with
      | zero =>
        obtain rfl : head = second := by simpa using two
        have later : weight first ≤ (rest.map weight).sum :=
          le_sum_map weight (i := i) (by simpa using one)
        omega
      | succ j =>
        have later := inductionHypothesis (i := i) (j := j) (by simpa using one) (by simpa using two)
          (fun same => different (by rw [same]))
        omega

end Cs537.Occurrences
