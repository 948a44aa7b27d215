import Cs537.Filesystem.Inodes
import Mathlib.Data.Finset.Card

/-!
# The free map

A bit for each block of the disk. `balloc` takes the first block whose bit is clear, sets
the bit and clears the block; `bfree` clears the bit of a block, which has to be set. The
regions of the disk follow each other, so that neither touches an inode or the content of
another data block.
-/

namespace Cs537.Filesystem.Fs

open Programs

section Regions

variable {sb : Superblock}

theorem bmapstart_lt_nmeta : sb.bmapstart < sb.nmeta :=
  Nat.lt_of_le_of_lt (Nat.le_add_right _ _) sb.bmapEnds

theorem nmeta_le_size : sb.nmeta ≤ sb.size := Nat.sub_le _ _

theorem nmeta_pos : 0 < sb.nmeta := Nat.zero_lt_of_lt (@bmapstart_lt_nmeta sb)

theorem size_small : sb.size < 2 ^ 32 := sb.addressed.trans (by decide)

/-- The blocks of the free map are before the data. -/
theorem BBLOCK_lt {b : Nat} (inside : b < sb.size) : sb.BBLOCK b < sb.nmeta := by
  have := sb.bmapEnds
  have := Nat.div_le_div_right (c := BPB) inside.le
  simp only [Superblock.BBLOCK, Superblock.nmeta]
  omega

theorem bmapstart_le_BBLOCK (b : Nat) : sb.bmapstart ≤ sb.BBLOCK b := Nat.le_add_left _ _

/-- The blocks of the inodes are before the free map. -/
theorem IBLOCK_lt {inum : Nat} (inside : inum < sb.ninodes) : sb.IBLOCK inum < sb.bmapstart := by
  have := sb.inodesEnd
  have := Nat.div_le_div_right (c := IPB) inside.le
  simp only [Superblock.IBLOCK]
  omega

end Regions

/-! ## The free map -/

/-- The mark of a block in the free map. -/
def marked (sb : Superblock) (disk : Nat → Block) (b : Nat) : Bool := (disk (sb.BBLOCK b)).bit (b % BPB)

/-- How many blocks are free. -/
def available (sb : Superblock) (disk : Nat → Block) : Nat :=
  ((Finset.range sb.size).filter fun b => marked sb disk b = false).card

section Marks

variable {sb : Superblock} {disk disk' : Nat → Block} {fs fs' : Fs}

theorem marked_congr {b : Nat} (same : disk' (sb.BBLOCK b) = disk (sb.BBLOCK b)) :
    marked sb disk' b = marked sb disk b := by
  rw [marked, same, marked]

theorem available_congr (same : ∀ b, b < sb.size → marked sb disk' b = marked sb disk b) :
    available sb disk' = available sb disk := by
  unfold available
  congr 1
  exact Finset.filter_congr fun b member => by rw [same b (Finset.mem_range.mp member)]

/-- A write to a data block leaves the free map alone. -/
theorem marked_log {b c : Nat} {data : Block} (outside : sb.nmeta ≤ b) (inside : c < sb.size) :
    marked sb (fs.log b data).disk c = marked sb fs.disk c :=
  marked_congr (Function.update_of_ne ((BBLOCK_lt inside).trans_le outside).ne _ _)

/-- Two blocks with one place in the free map. -/
theorem same_bit {b c : Nat} (block : sb.BBLOCK b = sb.BBLOCK c) : b % BPB = c % BPB ↔ b = c := by
  have quotient : b / BPB = c / BPB := Nat.add_right_cancel block
  constructor
  · intro bit
    rw [← Nat.div_add_mod b BPB, quotient, bit, Nat.div_add_mod]
  · exact fun same => by rw [same]

theorem marked_setBit (b c : Nat) :
    marked sb (Function.update disk (sb.BBLOCK b) ((disk (sb.BBLOCK b)).setBit (b % BPB))) c =
      (marked sb disk c || decide (c = b)) := by
  by_cases block : sb.BBLOCK c = sb.BBLOCK b
  · have inside : b % BPB < BSIZE * 8 := Nat.mod_lt b (by decide)
    rw [marked, marked, block, Function.update_self, Block.bit_setBit _ inside,
      decide_eq_decide.mpr (same_bit block)]
  · have other : c ≠ b := fun same => block (by rw [same])
    rw [marked, Function.update_of_ne block, marked]
    simp [other]

theorem marked_clearBit (b c : Nat) :
    marked sb (Function.update disk (sb.BBLOCK b) ((disk (sb.BBLOCK b)).clearBit (b % BPB))) c =
      (marked sb disk c && decide (c ≠ b)) := by
  by_cases block : sb.BBLOCK c = sb.BBLOCK b
  · have inside : b % BPB < BSIZE * 8 := Nat.mod_lt b (by decide)
    rw [marked, marked, block, Function.update_self, Block.bit_clearBit _ inside,
      decide_eq_decide.mpr (same_bit block).not]
  · have other : c ≠ b := fun same => block (by rw [same])
    rw [marked, Function.update_of_ne block, marked]
    simp [other]

/-- A round of balloc looks at the blocks of one bitmap block. -/
theorem round_block {b bi : Nat} (start : b % BPB = 0) (inside : bi < BPB) :
    sb.BBLOCK (b + bi) = sb.BBLOCK b := by
  simp only [Superblock.BBLOCK, BPB, BSIZE] at start inside ⊢
  omega

theorem round_bit {b bi : Nat} (start : b % BPB = 0) (inside : bi < BPB) : (b + bi) % BPB = bi := by
  simp only [BPB, BSIZE] at start inside ⊢
  omega

/-- The block that a round of balloc finds is free and on the disk. -/
theorem freeBit_some {b bi : Nat} (start : b % BPB = 0)
    (found : freeBit sb (disk (sb.BBLOCK b)) b = some bi) :
    bi < BPB ∧ b + bi < sb.size ∧ marked sb disk (b + bi) = false := by
  unfold freeBit at found
  have inside := List.mem_range.mp (List.mem_of_find?_eq_some found)
  have free := List.find?_some found
  simp only [Bool.and_eq_true, decide_eq_true_eq, Bool.not_eq_true'] at free
  refine ⟨inside, free.1, ?_⟩
  rw [marked, round_block start inside, round_bit start inside]
  exact free.2

/-- A round that finds nothing has looked at marked blocks only. -/
theorem freeBit_none {b bi : Nat} (start : b % BPB = 0)
    (absent : freeBit sb (disk (sb.BBLOCK b)) b = none) (small : bi < BPB)
    (inside : b + bi < sb.size) : marked sb disk (b + bi) = true := by
  unfold freeBit at absent
  have full := List.find?_eq_none.mp absent bi (List.mem_range.mpr small)
  rw [marked, round_block start small, round_bit start small]
  simpa [inside] using full

end Marks

/-! ## balloc and bfree -/

/-- A block was taken: it was free, its content is zero, and its mark is set. -/
structure Claims (sb : Superblock) (fs fs' : Fs) (b : Nat) : Prop where
  inside : b < sb.size
  unmarked : marked sb fs.disk b = false
  result : fs' =
    (fs.log (sb.BBLOCK b) ((fs.disk (sb.BBLOCK b)).setBit (b % BPB))).log b fun _ => 0

section Primitives

variable {sb : Superblock} {fs fs' : Fs}

/-- balloc takes a free block, and stops only if there is none. -/
theorem balloc_ensures (fs : Fs) :
    Ensures (balloc sb) fs (fun b after => Claims sb fs after b)
      (fun reason => reason = .outOfBlocks ∧ available sb fs.disk = 0) := by
  unfold balloc
  rw [ensures_bind]
  apply @ensures_search _ _ _ _ _ _ _ _ fun round =>
    (freeBit sb (fs.disk (sb.BBLOCK (BPB * round))) (BPB * round)).isSome
  · intro round full
    rw [Option.isSome_eq_false_iff, Option.isNone_iff_eq_none] at full
    rw [run_bind_ok (bread_run fs _), full]
    rfl
  · intro round first
    have looked := List.find?_some first
    have start : BPB * round % BPB = 0 := Nat.mul_mod_right _ _
    generalize BPB * round = b at looked start ⊢
    obtain ⟨bi, found⟩ := Option.isSome_iff_exists.mp looked
    obtain ⟨small, inside, unmarked⟩ := freeBit_some start found
    simp only [ensures_bind, ensures_bread, found, ensures_log_write, bzero, ensures_pure]
    refine ⟨⟨_, rfl⟩, inside, unmarked, ?_⟩
    rw [round_block start small, round_bit start small]
  · intro none
    refine ⟨rfl, Finset.card_eq_zero.mpr (Finset.filter_eq_empty_iff.mpr fun b member => ?_)⟩
    have inside := Finset.mem_range.mp member
    rw [Bool.not_eq_false]
    have round : b / BPB < (sb.size + BPB - 1) / BPB := by
      simp only [BPB, BSIZE] at inside ⊢
      omega
    have full := List.find?_eq_none.mp none (b / BPB) (List.mem_range.mpr round)
    rw [Bool.not_eq_true, Option.isSome_eq_false_iff, Option.isNone_iff_eq_none] at full
    have start : BPB * (b / BPB) % BPB = 0 := Nat.mul_mod_right _ _
    have place : BPB * (b / BPB) + b % BPB = b := Nat.div_add_mod b BPB
    have small : b % BPB < BPB := Nat.mod_lt b (by decide)
    generalize BPB * (b / BPB) = first at full start place
    generalize b % BPB = bi at place small
    subst place
    exact freeBit_none start full small inside

namespace Claims

variable {b : Nat}

theorem disk_eq (claims : Claims sb fs fs' b) (c : Nat) :
    fs'.disk c = if c = b then fun _ => 0
      else if c = sb.BBLOCK b then (fs.disk (sb.BBLOCK b)).setBit (b % BPB) else fs.disk c := by
  rw [claims.result]
  simp only [log, Function.update_apply]

/-- The content of the block is zero. -/
theorem zero (claims : Claims sb fs fs' b) : fs'.disk b = fun _ => 0 := by
  rw [claims.disk_eq, if_pos rfl]

/-- Its mark is set, and no other. -/
theorem marks (claims : Claims sb fs fs' b) (data : sb.nmeta ≤ b) {c : Nat} (inside : c < sb.size) :
    marked sb fs'.disk c = (marked sb fs.disk c || decide (c = b)) := by
  have other : sb.BBLOCK c ≠ b := ((BBLOCK_lt inside).trans_le data).ne
  rw [← marked_setBit, claims.result]
  exact marked_congr (Function.update_of_ne other _ _)

/-- One free block less. -/
theorem available (claims : Claims sb fs fs' b) (data : sb.nmeta ≤ b) :
    available sb fs'.disk + 1 = available sb fs.disk := by
  have rest : (Finset.range sb.size).filter (fun c => marked sb fs'.disk c = false) =
      ((Finset.range sb.size).filter fun c => marked sb fs.disk c = false).erase b := by
    ext c
    simp only [Finset.mem_erase, Finset.mem_filter, Finset.mem_range]
    refine ⟨fun ⟨inside, free⟩ => ?_, fun ⟨other, inside, free⟩ => ⟨inside, ?_⟩⟩
    · rw [claims.marks data inside] at free
      simpa [inside, and_comm] using free
    · simp [claims.marks data inside, free, other]
  have member : b ∈ (Finset.range sb.size).filter fun c => marked sb fs.disk c = false :=
    Finset.mem_filter.mpr ⟨Finset.mem_range.mpr claims.inside, claims.unmarked⟩
  unfold Fs.available
  rw [rest, Finset.card_erase_add_one member]

/-- The other data blocks are left alone. -/
theorem data (claims : Claims sb fs fs' b) {c : Nat} (data : sb.nmeta ≤ c) (other : c ≠ b) :
    fs'.disk c = fs.disk c := by
  have map : c ≠ sb.BBLOCK b := ((BBLOCK_lt claims.inside).trans_le data).ne'
  rw [claims.disk_eq, if_neg other, if_neg map]

/-- So are the inodes. -/
theorem inodes (claims : Claims sb fs fs' b) (data : sb.nmeta ≤ b) {c : Nat}
    (before : c < sb.bmapstart) : fs'.disk c = fs.disk c := by
  have map : c ≠ sb.BBLOCK b := (before.trans_le (bmapstart_le_BBLOCK b)).ne
  have other : c ≠ b := ((before.trans bmapstart_lt_nmeta).trans_le data).ne
  rw [claims.disk_eq, if_neg other, if_neg map]

end Claims

/-- A block was given back: its mark is cleared. -/
structure Frees (sb : Superblock) (fs fs' : Fs) (b : Nat) : Prop where
  result : fs' = fs.log (sb.BBLOCK b) ((fs.disk (sb.BBLOCK b)).clearBit (b % BPB))

/-- bfree clears the mark of a marked block. -/
theorem bfree_ensures (fs : Fs) {b : Nat} {stop : FsPanic → Prop}
    (used : marked sb fs.disk b = true) :
    Ensures (bfree sb b) fs (fun _ after => Frees sb fs after b) stop := by
  simp only [bfree, ensures_bind, ensures_bread, ensures_ite, ensures_log_write, ensures_throw]
  rw [if_pos (by exact used)]
  exact ⟨rfl⟩

namespace Frees

variable {b : Nat}

theorem marks (frees : Frees sb fs fs' b) (c : Nat) :
    marked sb fs'.disk c = (marked sb fs.disk c && decide (c ≠ b)) := by
  rw [← marked_clearBit, frees.result]
  rfl

/-- The data blocks are left alone. -/
theorem data (frees : Frees sb fs fs' b) (inside : b < sb.size) {c : Nat} (data : sb.nmeta ≤ c) :
    fs'.disk c = fs.disk c := by
  have map : c ≠ sb.BBLOCK b := ((BBLOCK_lt inside).trans_le data).ne'
  rw [frees.result]
  exact Function.update_of_ne map _ _

/-- So are the inodes. -/
theorem inodes (frees : Frees sb fs fs' b) {c : Nat} (before : c < sb.bmapstart) :
    fs'.disk c = fs.disk c := by
  have map : c ≠ sb.BBLOCK b := (before.trans_le (bmapstart_le_BBLOCK b)).ne
  rw [frees.result]
  exact Function.update_of_ne map _ _

end Frees

end Primitives

end Cs537.Filesystem.Fs
