import Cs537.Filesystem.Files
import Mathlib.Algebra.BigOperators.Group.Finset.Piecewise
import Mathlib.Algebra.BigOperators.Group.Finset.Sigma

/-!
# How much fits on a volume

No block is lost: the free blocks and those that the files need, with their indirect blocks,
are all the data blocks together. So whether a write finds its blocks depends on the lengths
of the files alone, not on the calls that led to them.
-/

namespace Cs537.Filesystem.Fs

/-- How many blocks the files need together. -/
def needs (ninodes : Nat) (files : Nat → File) : Nat :=
  ∑ inum ∈ Finset.range ninodes, blocks (files inum).bytes.length

section Counting

variable {sb : Superblock} {table : Nat → Inode} {disk : Nat → Block} {inum length : Nat}

/-- The references of a file that has what it needs are the first ones. -/
theorem Filled.references (filled : Filled table disk inum length) :
    ((Finset.range (MAXFILE + 1)).filter fun k => (held table disk (inum, k)).isSome) =
      Finset.range (blocks length) := by
  ext k
  rw [Finset.mem_filter, Finset.mem_range, Finset.mem_range, Option.isSome_iff_ne_none]
  have fits := filled.fits
  by_cases indirect : k = NDIRECT
  · subst indirect
    have present : held table disk (inum, NDIRECT) ≠ none ↔ NDIRECT * BSIZE < length := by
      rw [← filled.indirect, ne_eq, held_none_iff, Inode.entry_direct (Nat.lt_succ_self NDIRECT)]
    rw [present]
    unfold blocks
    split_ifs <;> simp only [MAXFILE, NDIRECT, NINDIRECT, BSIZE] at * <;> omega
  · obtain ⟨bn, rfl⟩ : ∃ bn, k = place bn := by
      refine ⟨if k < NDIRECT then k else k - 1, ?_⟩
      unfold place
      split_ifs <;> omega
    have inside : place bn < MAXFILE + 1 ↔ bn < MAXFILE := by
      unfold place
      split_ifs <;> simp only [MAXFILE, NDIRECT, NINDIRECT, BSIZE] at * <;> omega
    have reached : bn * BSIZE < length ↔ place bn < blocks length := by
      unfold blocks place
      split_ifs <;> simp only [MAXFILE, NDIRECT, NINDIRECT, BSIZE] at * <;> omega
    rw [inside, ← reached]
    constructor
    · intro both
      exact (filled.mapped bn both.1).mp both.2
    · intro begun
      have small : bn < MAXFILE := by
        simp only [MAXFILE, NDIRECT, NINDIRECT, BSIZE] at *
        omega
      exact ⟨small, (filled.mapped bn small).mpr begun⟩

/-- Only inodes of the table have references, and only at their places. -/
theorem held_inside {slot : Nat × Nat} {b : Nat} (refers : held (dinode sb disk) disk slot = some b) :
    slot ∈ Finset.range sb.ninodes ×ˢ Finset.range (MAXFILE + 1) := by
  obtain ⟨entry, positive⟩ := held_some_iff.mp refers
  rw [Finset.mem_product, Finset.mem_range, Finset.mem_range]
  constructor
  · by_contra outside
    rw [dinode, if_neg outside, Inode.entry] at entry
    refine positive (entry.symm.trans ?_)
    split_ifs <;> simp [Inode.addr, Inode.blank] at *
  · by_contra outside
    have beyond : NDIRECT < slot.2 := by
      simp only [MAXFILE, NDIRECT, NINDIRECT, BSIZE] at *
      omega
    rw [Inode.entry_indirect beyond, Block.word, dif_neg] at entry
    · refine positive (entry.symm.trans ?_)
      split_ifs <;> rfl
    · simp only [MAXFILE, NDIRECT, NINDIRECT, BSIZE] at *
      omega

/-- The free blocks and those of the files are all the data blocks. -/
theorem Sound.conserved (sound : Sound sb disk) :
    available sb disk + needs sb.ninodes (files sb disk) = sb.nblocks := by
  have books : Allocation.Exact (· ∈ Finset.range sb.size) (· < sb.nmeta) (held (dinode sb disk) disk)
      (marked sb disk · = true) := by
    have volume := sound.volume
    unfold Volume at volume
    simpa only [Finset.mem_range] using volume
  have count := books.count fun _ _ => held_inside
  have before : (Finset.range sb.size).filter (· < sb.nmeta) = Finset.range sb.nmeta := by
    ext b
    have := @nmeta_le_size sb
    simp only [Finset.mem_filter, Finset.mem_range]
    omega
  have given : ((Finset.range sb.ninodes ×ˢ Finset.range (MAXFILE + 1)).filter fun slot =>
      (held (dinode sb disk) disk slot).isSome).card = needs sb.ninodes (files sb disk) := by
    rw [Finset.card_filter, Finset.sum_product]
    refine Finset.sum_congr rfl fun inum _ => ?_
    rw [← Finset.card_filter, (sound.filled inum).references, Finset.card_range, files_length]
  have total : available sb disk + ((Finset.range sb.size).filter (marked sb disk · = true)).card =
      sb.size := by
    unfold available
    simp only [← Bool.not_eq_true]
    rw [Nat.add_comm, Finset.card_filter_add_card_filter_not, Finset.card_range]
  rw [before, Finset.card_range, given] at count
  have positive := @nmeta_pos sb
  simp only [Superblock.nmeta] at count positive
  omega

/-- One file changes. -/
theorem needs_update {ninodes : Nat} (files : Nat → File) (inside : inum < ninodes) (f : File) :
    needs ninodes (Function.update files inum f) + blocks (files inum).bytes.length =
      needs ninodes files + blocks f.bytes.length := by
  have member := Finset.mem_range.mpr inside
  unfold needs
  rw [← Finset.add_sum_erase _ _ member, ← Finset.add_sum_erase _ _ member, Function.update_self]
  have rest : ∀ p ∈ (Finset.range ninodes).erase inum, blocks (Function.update files inum f p).bytes.length =
      blocks (files p).bytes.length := by
    intro p other
    rw [Function.update_of_ne (Finset.ne_of_mem_erase other)]
  rw [Finset.sum_congr rfl rest]
  omega

/-- What is on the volume fits. -/
theorem Sound.fits (sound : Sound sb disk) : needs sb.ninodes (files sb disk) ≤ sb.nblocks :=
  Nat.le.intro ((Nat.add_comm _ _).trans sound.conserved)

end Counting

end Cs537.Filesystem.Fs
