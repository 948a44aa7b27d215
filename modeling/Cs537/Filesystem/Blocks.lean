import Cs537.Filesystem.Log

/-!
# What the file system keeps in a block

A block of words is also a row of bytes, a row of bits of the free map, or a row of
inodes. The lowest byte of a word comes first. Each way to write a part of a block has
a law for what is read back from that part and from every other part.
-/

namespace Cs537.Filesystem

abbrev Byte := BitVec 8

def NDIRECT : Nat := 12
def NINDIRECT : Nat := BSIZE / 4
def MAXFILE : Nat := NDIRECT + NINDIRECT

/-! ## Bytes -/

/-- Byte `k` of a word. -/
def byteOf (word : BitVec 32) (k : Nat) : Byte := word.extractLsb' (8 * k) 8

/-- The word with another byte `k`. -/
def putByte (word : BitVec 32) (k : Nat) (x : Byte) : BitVec 32 :=
  (word &&& ~~~((BitVec.allOnes 8).setWidth 32 <<< (8 * k))) ||| (x.setWidth 32 <<< (8 * k))

theorem getLsbD_putByte (word : BitVec 32) {k i : Nat} (x : Byte) (inside : i < 32) :
    (putByte word k x).getLsbD i =
      if 8 * k ≤ i ∧ i < 8 * k + 8 then x.getLsbD (i - 8 * k) else word.getLsbD i := by
  simp only [putByte, BitVec.getLsbD_or, BitVec.getLsbD_and, BitVec.getLsbD_not,
    BitVec.getLsbD_shiftLeft, BitVec.getLsbD_setWidth, BitVec.getLsbD_allOnes, inside, decide_true,
    Bool.true_and]
  by_cases below : i < 8 * k
  · rw [if_neg (by omega)]
    simp [below]
  · by_cases above : i < 8 * k + 8
    · have low : i - 8 * k < 8 := by omega
      have all : i - 8 * k < 32 := by omega
      rw [if_pos (by omega)]
      simp [below, low, all]
    · have high : ¬ i - 8 * k < 8 := by omega
      have none : x.getLsbD (i - 8 * k) = false := BitVec.getLsbD_of_ge x _ (by omega)
      rw [if_neg (by omega)]
      simp [below, high, none]

theorem byteOf_putByte (word : BitVec 32) {k l : Nat} (x : Byte) (inside : l < 4) :
    byteOf (putByte word k x) l = if l = k then x else byteOf word l := by
  apply BitVec.eq_of_getLsbD_eq
  intro i small
  have within : 8 * l + i < 32 := by omega
  simp only [byteOf, BitVec.getLsbD_extractLsb', small, decide_true, Bool.true_and,
    getLsbD_putByte word x within]
  by_cases same : l = k
  · subst same
    rw [if_pos (by omega), if_pos rfl, Nat.add_sub_cancel_left]
  · rw [if_neg (by omega), if_neg same]
    simp only [BitVec.getLsbD_extractLsb', small, decide_true, Bool.true_and]

namespace Block

def byte (block : Block) (i : Nat) : Byte := byteOf (block.word (i / 4)) (i % 4)

def setByte (block : Block) (i : Nat) (x : Byte) : Block :=
  block.setWord (i / 4) (putByte (block.word (i / 4)) (i % 4) x)

theorem byte_setByte (block : Block) {i j : Nat} (x : Byte) (inside : i < BSIZE) :
    (block.setByte i x).byte j = if j = i then x else block.byte j := by
  simp only [BSIZE] at inside
  have word : i / 4 < BSIZE / 4 := by simp only [BSIZE]; omega
  unfold byte setByte
  by_cases sameWord : j / 4 = i / 4
  · rw [sameWord, word_setWord_self word, byteOf_putByte _ _ (Nat.mod_lt j (by decide))]
    by_cases same : j = i
    · rw [if_pos (by rw [same]), if_pos same]
    · rw [if_neg (by omega), if_neg same]
  · rw [word_setWord_other sameWord, if_neg fun same => sameWord (by rw [same])]

/-- `memmove` out of a buffer. -/
def bytes (block : Block) (start m : Nat) : List Byte :=
  (List.range m).map fun i => block.byte (start + i)

/-- `memmove` into a buffer. -/
def copy (block : Block) : Nat → List Byte → Block
  | _, [] => block
  | i, x :: rest => (block.setByte i x).copy (i + 1) rest

/-- The copied bytes stand where they were copied to, and the others are left alone. -/
theorem byte_copy (block : Block) {start : Nat} (src : List Byte) {i : Nat}
    (inside : start + src.length ≤ BSIZE) :
    (block.copy start src).byte i =
      if start ≤ i then (src[i - start]?).getD (block.byte i) else block.byte i := by
  induction src generalizing block start with
  | nil => simp [copy]
  | cons x rest inductionHypothesis =>
    rw [List.length_cons] at inside
    rw [copy, inductionHypothesis (block.setByte start x) (by omega),
      byte_setByte block x (by omega)]
    by_cases same : i = start
    · subst same
      simp
    · by_cases later : start + 1 ≤ i
      · obtain ⟨k, index⟩ : ∃ k, i - start = k + 1 := ⟨i - start - 1, by omega⟩
        have previous : i - (start + 1) = k := by omega
        rw [if_pos later, if_neg same, if_pos (by omega), index, previous, List.getElem?_cons_succ]
      · rw [if_neg later, if_neg same, if_neg (by omega)]

/-! ## Bits of the free map -/

/-- `1 << (bi % 8)`. -/
def mask (bi : Nat) : Byte := 1#8 <<< (bi % 8)

/-- `bp->data[bi/8] & m`. -/
def bit (block : Block) (bi : Nat) : Bool := block.byte (bi / 8) &&& mask bi != 0

/-- `bp->data[bi/8] |= m`. -/
def setBit (block : Block) (bi : Nat) : Block := block.setByte (bi / 8) (block.byte (bi / 8) ||| mask bi)

/-- `bp->data[bi/8] &= ~m`. -/
def clearBit (block : Block) (bi : Nat) : Block :=
  block.setByte (bi / 8) (block.byte (bi / 8) &&& ~~~mask bi)

end Block

theorem getLsbD_mask (bi i : Nat) : (Block.mask bi).getLsbD i = decide (i = bi % 8) := by
  have small : bi % 8 < 8 := Nat.mod_lt bi (by decide)
  rw [Block.mask, ← BitVec.twoPow_eq, BitVec.getLsbD_twoPow]
  simp only [small, decide_true, Bool.true_and, eq_comm]

theorem and_mask_ne (x : Byte) (bi : Nat) : (x &&& Block.mask bi != 0) = x.getLsbD (bi % 8) := by
  have small : bi % 8 < 8 := Nat.mod_lt bi (by decide)
  cases set : x.getLsbD (bi % 8) with
  | true =>
    rw [bne_iff_ne]
    intro zero
    have low := congrArg (BitVec.getLsbD · (bi % 8)) zero
    simp [getLsbD_mask, set] at low
  | false =>
    rw [bne_eq_false_iff_eq]
    apply BitVec.eq_of_getLsbD_eq
    intro i _
    rw [BitVec.getLsbD_and, getLsbD_mask]
    by_cases same : i = bi % 8
    · rw [same, set]
      simp
    · simp [same]

namespace Block

theorem bit_eq (block : Block) (bi : Nat) : block.bit bi = (block.byte (bi / 8)).getLsbD (bi % 8) :=
  and_mask_ne _ bi

/-- Two bits of one byte. -/
theorem bit_of_byte {block block' : Block} {bi : Nat} {x : Byte}
    (bytes : ∀ j, block'.byte j = if j = bi / 8 then x else block.byte j) (bj : Nat) :
    block'.bit bj = if bj / 8 = bi / 8 then x.getLsbD (bj % 8) else block.bit bj := by
  rw [bit_eq, bytes, bit_eq]
  split_ifs <;> rfl

theorem bit_setBit (block : Block) {bi : Nat} (inside : bi < BSIZE * 8) (bj : Nat) :
    (block.setBit bi).bit bj = (block.bit bj || decide (bj = bi)) := by
  have small : bi / 8 < BSIZE := by omega
  rw [setBit, bit_of_byte (fun j => byte_setByte block _ small) bj]
  split_ifs with sameByte
  · rw [BitVec.getLsbD_or, getLsbD_mask, bit_eq, sameByte]
    congr 1
    rw [decide_eq_decide]
    omega
  · have other : bj ≠ bi := fun same => sameByte (by rw [same])
    simp [other]

theorem bit_clearBit (block : Block) {bi : Nat} (inside : bi < BSIZE * 8) (bj : Nat) :
    (block.clearBit bi).bit bj = (block.bit bj && decide (bj ≠ bi)) := by
  have small : bi / 8 < BSIZE := by omega
  rw [clearBit, bit_of_byte (fun j => byte_setByte block _ small) bj]
  split_ifs with sameByte
  · have low : bj % 8 < 8 := Nat.mod_lt bj (by decide)
    rw [BitVec.getLsbD_and, BitVec.getLsbD_not, getLsbD_mask, bit_eq, sameByte]
    congr 1
    simp only [low, decide_true, Bool.true_and]
    rw [← decide_not, decide_eq_decide]
    omega
  · have other : bj ≠ bi := fun same => sameByte (by rw [same])
    simp [other]

end Block

/-! ## Inodes -/

/-- The fields of an inode that are kept on the disk. -/
@[ext] structure Inode where
  type : BitVec 16
  major : BitVec 16
  minor : BitVec 16
  nlink : BitVec 16
  size : BitVec 32
  addrs : Fin (NDIRECT + 1) → BitVec 32

/-- `memset(dip, 0, sizeof(*dip))`. -/
def Inode.blank : Inode := ⟨0, 0, 0, 0, 0, fun _ => 0⟩

namespace Inode

/-- The block number in `addrs[i]`. -/
def addr (ip : Inode) (i : Nat) : Nat :=
  if inside : i < NDIRECT + 1 then (ip.addrs ⟨i, inside⟩).toNat else 0

def setAddr (ip : Inode) (i addr : Nat) : Inode :=
  { ip with addrs := fun j => if j.val = i then BitVec.ofNat 32 addr else ip.addrs j }

/-- The words of struct dinode. -/
def word (ip : Inode) (i : Nat) : BitVec 32 :=
  match i with
  | 0 => ip.major ++ ip.type
  | 1 => ip.nlink ++ ip.minor
  | 2 => ip.size
  | i + 3 => if inside : i < NDIRECT + 1 then ip.addrs ⟨i, inside⟩ else 0

end Inode

/-- Words of struct dinode. -/
def DINODE : Nat := 16

def IPB : Nat := BSIZE / 4 / DINODE

/-- `(struct dinode*)bp->data + k`. -/
def Block.inode (block : Block) (k : Nat) : Inode where
  type := (block.word (DINODE * k)).extractLsb' 0 16
  major := (block.word (DINODE * k)).extractLsb' 16 16
  minor := (block.word (DINODE * k + 1)).extractLsb' 0 16
  nlink := (block.word (DINODE * k + 1)).extractLsb' 16 16
  size := block.word (DINODE * k + 2)
  addrs i := block.word (DINODE * k + 3 + i)

/-- The fields of an inode are copied to its place in a block. -/
def Block.setInode (block : Block) (k : Nat) (ip : Inode) : Block :=
  fun j => if j.val / DINODE = k then ip.word (j.val % DINODE) else block j

theorem Block.word_setInode (block : Block) {k i : Nat} (ip : Inode) (inside : i < BSIZE / 4) :
    (block.setInode k ip).word i = if i / DINODE = k then ip.word (i % DINODE) else block.word i := by
  simp only [Block.word, Block.setInode, inside, dif_pos]

theorem Block.inode_setInode (block : Block) {k l : Nat} (ip : Inode) (inside : l < IPB) :
    (block.setInode k ip).inode l = if l = k then ip else block.inode l := by
  have within : ∀ i, i < DINODE → DINODE * l + i < BSIZE / 4 := by
    simp only [IPB, BSIZE, DINODE] at inside ⊢
    omega
  have place : ∀ i, i < DINODE → (DINODE * l + i) / DINODE = l ∧ (DINODE * l + i) % DINODE = i := by
    simp only [DINODE]
    omega
  have word : ∀ i, i < DINODE → (block.setInode k ip).word (DINODE * l + i) =
      if l = k then ip.word i else block.word (DINODE * l + i) := by
    intro i small
    rw [Block.word_setInode block ip (within i small), (place i small).1, (place i small).2]
  have first := word 0 (by decide)
  have second := word 1 (by decide)
  have third := word 2 (by decide)
  have rest : ∀ i : Fin (NDIRECT + 1), (block.setInode k ip).word (DINODE * l + 3 + i) =
      if l = k then ip.addrs i else block.word (DINODE * l + 3 + i) := by
    intro i
    have small : i.val + 3 < DINODE := by
      have := i.isLt
      simp only [NDIRECT, DINODE] at this ⊢
      omega
    have row := word (i.val + 3) small
    rw [← Nat.add_assoc, Nat.add_right_comm] at row
    rw [row, Inode.word, dif_pos i.isLt]
  simp only [Block.inode, Nat.add_zero] at first ⊢
  by_cases same : l = k
  · simp only [same, if_true] at first second third rest ⊢
    simp only [first, second, third, rest, Inode.word]
    ext1
    · exact BitVec.extractLsb'_append_eq_right
    · exact BitVec.extractLsb'_append_eq_left
    · exact BitVec.extractLsb'_append_eq_right
    · exact BitVec.extractLsb'_append_eq_left
    · rfl
    · rfl
  · simp only [same, if_false] at first second third rest ⊢
    simp only [first, second, third, rest]

end Cs537.Filesystem
