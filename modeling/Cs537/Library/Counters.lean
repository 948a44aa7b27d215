import Mathlib.Data.List.Basic
import Mathlib.Data.Fin.Basic
import Mathlib.Data.Nat.ModEq
import Mathlib.Logic.Function.Basic

/-!
# Buffers with free-running counters

A buffer of fixed capacity counts the elements that were put in and taken out
with two machine words that are never reset. The place of an element is its
number modulo the capacity, and the counters are compared only for equality. This
is a queue as long as the capacity divides the range of the words: wrapping does
not move the places.
-/

namespace Cs537.Counters

universe u
variable {α : Type u} {width capacity : Nat}

/-- The places and the two counters. -/
structure Buffer (α : Type u) (width capacity : Nat) where
  data : Fin capacity → α
  taken : BitVec width
  stored : BitVec width

namespace Buffer

variable [NeZero capacity]

/-- The place of the element with a number. -/
def place (capacity : Nat) [NeZero capacity] (number : BitVec width) : Fin capacity :=
  Fin.ofNat capacity number.toNat

def isEmpty (b : Buffer α width capacity) : Bool := b.taken = b.stored

def isFull (b : Buffer α width capacity) : Bool := b.stored = b.taken + BitVec.ofNat width capacity

def put (b : Buffer α width capacity) (x : α) : Buffer α width capacity :=
  { b with data := Function.update b.data (place capacity b.stored) x, stored := b.stored + 1 }

def first (b : Buffer α width capacity) : α := b.data (place capacity b.taken)

def drop (b : Buffer α width capacity) : Buffer α width capacity := { b with taken := b.taken + 1 }

def count (b : Buffer α width capacity) : Nat := (b.stored - b.taken).toNat

/-- The elements in the buffer, in the order in which they were put in. -/
def contents (b : Buffer α width capacity) : List α :=
  (List.range b.count).map fun i => b.data (place capacity (b.taken + BitVec.ofNat width i))

/-- A word counts without moving the places when it wraps. -/
class Divides (width capacity : Nat) : Prop where
  smaller : capacity < 2 ^ width
  divides : capacity ∣ 2 ^ width

@[simp] theorem length_contents (b : Buffer α width capacity) : b.contents.length = b.count := by
  rw [contents, List.length_map, List.length_range]

theorem isEmpty_iff (b : Buffer α width capacity) : b.isEmpty = true ↔ b.contents = [] := by
  rw [← List.length_eq_zero_iff, length_contents, isEmpty, decide_eq_true_eq, count]
  constructor
  · intro same
    rw [same, BitVec.sub_self]
    rfl
  · intro none
    have zero : b.stored - b.taken = 0 := BitVec.eq_of_toNat_eq (by rw [none]; rfl)
    have back : b.stored - b.taken + b.taken = 0 + b.taken := by rw [zero]
    rw [BitVec.sub_add_cancel] at back
    rw [back, BitVec.ofNat_eq_ofNat, BitVec.zero_add]

variable [divides : Divides width capacity]

omit [NeZero capacity] in
theorem toNat_capacity : (BitVec.ofNat width capacity).toNat = capacity := by
  rw [BitVec.toNat_ofNat, Nat.mod_eq_of_lt divides.smaller]

theorem isFull_iff (b : Buffer α width capacity) : b.isFull = true ↔ b.contents.length = capacity := by
  rw [length_contents, isFull, decide_eq_true_eq, count]
  constructor
  · intro full
    rw [full, BitVec.add_comm, BitVec.add_sub_cancel, toNat_capacity]
  · intro full
    have difference : b.stored - b.taken = BitVec.ofNat width capacity :=
      BitVec.eq_of_toNat_eq (by rw [full, toNat_capacity])
    rw [← difference, BitVec.add_comm, BitVec.sub_add_cancel]

theorem place_add (number : BitVec width) (i : Nat) :
    place capacity (number + BitVec.ofNat width i) = Fin.ofNat capacity (number.toNat + i) := by
  apply Fin.ext
  change (number + BitVec.ofNat width i).toNat % capacity = (number.toNat + i) % capacity
  rw [BitVec.toNat_add, BitVec.toNat_ofNat, Nat.add_mod_mod,
    Nat.mod_mod_of_dvd _ divides.divides]

omit [NeZero capacity] divides in
theorem stored_eq (b : Buffer α width capacity) : b.stored = b.taken + BitVec.ofNat width b.count := by
  have same : BitVec.ofNat width b.count = b.stored - b.taken := BitVec.eq_of_toNat_eq (by
    rw [BitVec.toNat_ofNat, count, Nat.mod_eq_of_lt (BitVec.isLt _)])
  rw [same, BitVec.add_comm, BitVec.sub_add_cancel]

/-- The elements are behind each other from the first one on. -/
theorem contents_eq (b : Buffer α width capacity) :
    b.contents = (List.range b.count).map fun i =>
      b.data (Fin.ofNat capacity (b.taken.toNat + i)) := by
  rw [contents]
  exact List.map_congr_left fun i _ => by rw [place_add]

/-- An element that finds room comes last. -/
theorem contents_put {b : Buffer α width capacity} (room : b.contents.length < capacity) (x : α) :
    (b.put x).contents = b.contents ++ [x] := by
  rw [length_contents] at room
  have small : b.count + 1 < 2 ^ width := by
    have := divides.smaller
    omega
  have more : (b.put x).count = b.count + 1 := by
    have one : (1 : BitVec width) = BitVec.ofNat width 1 := rfl
    change (b.stored + 1 - b.taken).toNat = _
    rw [stored_eq b, BitVec.add_assoc, BitVec.add_comm, BitVec.add_sub_cancel, one, ← BitVec.ofNat_add,
      BitVec.toNat_ofNat, Nat.mod_eq_of_lt small]
  have last : place capacity b.stored = Fin.ofNat capacity (b.taken.toNat + b.count) := by
    rw [stored_eq b, place_add]
  rw [contents_eq, more, List.range_succ, List.map_append, List.map_singleton, contents_eq b]
  congr 1
  · apply List.map_congr_left
    intro i member
    have below : i < b.count := List.mem_range.mp member
    change Function.update b.data (place capacity b.stored) x _ = _
    rw [last]
    apply Function.update_of_ne
    intro same
    have equal : (b.taken.toNat + i) % capacity = (b.taken.toNat + b.count) % capacity :=
      congrArg Fin.val same
    have apart : Nat.ModEq capacity i b.count := Nat.ModEq.add_left_cancel' b.taken.toNat equal
    have exact := apart.eq_of_lt_of_lt (by omega) room
    omega
  · change [Function.update b.data (place capacity b.stored) x (Fin.ofNat capacity (b.taken.toNat + b.count))] = [x]
    rw [last, Function.update_self]

/-- What is taken out is the first element. -/
theorem contents_drop {b : Buffer α width capacity} (some : b.contents ≠ []) :
    b.contents = b.first :: b.drop.contents := by
  have positive : 0 < b.count := by
    rw [← length_contents]
    exact List.length_pos_iff.mpr some
  obtain ⟨rest, more⟩ : ∃ rest, b.count = rest + 1 := ⟨b.count - 1, by omega⟩
  have small : rest + 1 < 2 ^ width := more ▸ BitVec.isLt _
  have fewer : b.drop.count = rest := by
    change (b.stored - (b.taken + 1)).toNat = rest
    have one : (1 : BitVec width) = BitVec.ofNat width 1 := rfl
    rw [stored_eq b, more, BitVec.ofNat_add, ← one, BitVec.add_comm _ 1, ← BitVec.add_assoc, BitVec.add_comm _ (BitVec.ofNat width rest),
      BitVec.add_sub_cancel, BitVec.toNat_ofNat, Nat.mod_eq_of_lt (by omega)]
  rw [contents_eq b, more, List.range_succ_eq_map, List.map_cons, List.map_map, contents, fewer]
  congr 1
  apply List.map_congr_left
  intro i _
  change b.data _ = b.data (place capacity (b.taken + 1 + BitVec.ofNat width i))
  have next : b.taken + 1 + BitVec.ofNat width i = b.taken + BitVec.ofNat width (i + 1) := by
    rw [BitVec.add_assoc, BitVec.add_comm 1, BitVec.ofNat_add]
    rfl
  rw [next, place_add]

end Buffer

end Cs537.Counters
