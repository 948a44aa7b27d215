import Mathlib.Algebra.Group.Fin.Basic
import Mathlib.Data.List.FinRange
import Mathlib.Data.List.Rotate

/-!
# Ring buffers read from a moving hand

A ring of `n + 1` slots is read from the slot after the hand around to the hand
itself. Moving the hand rotates what is read, writing under the hand replaces its
last element, and closing the gap of a removed element while the hand steps back
puts a free slot in front.
-/

namespace Cs537.Ring

variable {α : Type*} {n : Nat}

/-- The slots in the order of the clock, from the one after the hand to the hand. -/
def read (hand : Fin (n + 1)) (ring : Fin (n + 1) → α) : List α :=
  List.ofFn fun k => ring (hand + 1 + k)

@[simp] theorem length_read (hand : Fin (n + 1)) (ring : Fin (n + 1) → α) :
    (read hand ring).length = n + 1 := List.length_ofFn

theorem getElem_read (hand : Fin (n + 1)) (ring : Fin (n + 1) → α) (k : Nat)
    (bound : k < (read hand ring).length) :
    (read hand ring)[k] = ring (hand + 1 + ⟨k, length_read hand ring ▸ bound⟩) := by
  simp only [read, List.getElem_ofFn]

/-- Every slot is read. -/
theorem mem_read {hand : Fin (n + 1)} {ring : Fin (n + 1) → α} {x : α} :
    x ∈ read hand ring ↔ ∃ slot, ring slot = x := by
  unfold read
  rw [List.mem_ofFn]
  constructor
  · rintro ⟨k, found⟩
    exact ⟨_, found⟩
  · rintro ⟨slot, found⟩
    refine ⟨slot - (hand + 1), ?_⟩
    rw [add_sub_cancel]
    exact found

/-- The hand moves on: what it passes comes last. -/
theorem read_advance (hand k : Fin (n + 1)) (ring : Fin (n + 1) → α) :
    read (hand + 1 + k) ring = (read hand ring).rotate (k.val + 1) := by
  apply List.ext_getElem
  · simp
  · intro i bound bound'
    rw [List.getElem_rotate, getElem_read, getElem_read]
    congr 1
    have place : (⟨(i + (k.val + 1)) % (read hand ring).length, by
        rw [length_read]
        exact Nat.mod_lt _ (Nat.succ_pos n)⟩ : Fin (n + 1)) =
        k + 1 + ⟨i, length_read _ ring ▸ bound⟩ := by
      apply Fin.ext
      simp only [length_read, Fin.val_add, Fin.val_one']
      simp only [Nat.add_mod_mod, Nat.mod_add_mod]
      congr 1
      omega
    rw [place, ← add_assoc, ← add_assoc]

/-- The slot under the hand is read last. -/
theorem read_write (hand : Fin (n + 1)) (ring : Fin (n + 1) → α) (x : α) :
    read hand (Function.update ring hand x) = (read hand ring).dropLast ++ [x] := by
  apply List.ext_getElem
  · simp
  · intro i bound bound'
    rw [getElem_read, Function.update_apply]
    have small : i < n + 1 := by simpa using bound
    have under : hand + 1 + ⟨i, small⟩ = hand ↔ i = n := by
      rw [add_assoc, add_eq_left, Fin.ext_iff]
      simp only [Fin.val_add, Fin.val_one', Nat.mod_add_mod, Fin.val_zero]
      constructor
      · intro wrapped
        have full := Nat.le_of_dvd (by omega) (Nat.dvd_of_mod_eq_zero wrapped)
        omega
      · rintro rfl
        rw [Nat.add_comm, Nat.mod_self]
    split
    · rename_i here
      have last := under.mp here
      rw [List.getElem_append_right (by simp [last])]
      simp [last]
    · rename_i away
      have inner : i < n := lt_of_le_of_ne (Nat.le_of_lt_succ small) fun last => away (under.mpr last)
      rw [List.getElem_append_left (by simpa using inner), List.getElem_dropLast, getElem_read]

/-- An element is taken out, those behind it move up, and the hand steps back to leave
the free slot in front. -/
theorem read_remove {hand : Fin (n + 1)} {ring ring' : Fin (n + 1) → α} {free : α} {k : Nat}
    (bound : k < n + 1) (under : ring' hand = free)
    (before : ∀ i (small : i < n), i < k → ring' (hand + 1 + ⟨i, Nat.lt_succ_of_lt small⟩) =
      ring (hand + 1 + ⟨i, Nat.lt_succ_of_lt small⟩))
    (behind : ∀ i (small : i < n), k ≤ i → ring' (hand + 1 + ⟨i, Nat.lt_succ_of_lt small⟩) =
      ring (hand + 1 + ⟨i + 1, Nat.succ_lt_succ small⟩)) :
    read (hand - 1) ring' = free :: (read hand ring).eraseIdx k := by
  apply List.ext_getElem
  · rw [List.length_cons, List.length_eraseIdx_of_lt (by simpa using bound)]
    simp
  · intro i inside inside'
    rw [getElem_read, List.getElem_cons]
    have small : i < n + 1 := by simpa using inside
    split
    · rename_i first
      subst first
      rw [← under]
      congr 1
      rw [sub_add_cancel]
      exact add_zero hand
    · rename_i later
      have place : hand - 1 + 1 + ⟨i, small⟩ = hand + 1 + ⟨i - 1, by omega⟩ := by
        rw [sub_add_cancel, add_assoc]
        congr 1
        apply Fin.ext
        simp only [Fin.val_add, Fin.val_one', Nat.mod_add_mod]
        rw [Nat.mod_eq_of_lt (by omega)]
        omega
      rw [place, List.getElem_eraseIdx]
      split
      · rename_i early
        rw [getElem_read]
        exact before (i - 1) (by omega) early
      · rename_i late
        rw [getElem_read]
        exact behind (i - 1) (by omega) (Nat.le_of_not_lt late)

end Cs537.Ring
