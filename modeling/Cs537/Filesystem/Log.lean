import Cs537.Library.Journal
import Mathlib.Algebra.Group.Nat.Defs
import Mathlib.Data.List.Range
import Mathlib.Tactic.Common

/-!
# The log of the file system

The log is a redo log of whole blocks: a header block with the numbers of the
logged blocks, followed by their contents. The calls of the file system change
blocks in the buffer cache and announce each change with `log_write`; the last
call to end copies the announced blocks to the log, writes the header, copies
them home and clears the header.

A machine keeps the disk and the cache apart. The cache is what `bread` returns:
a buffer that `log_write` has marked dirty is not evicted, and a buffer that is
not dirty has the content of its block on the disk. Every disk write is kept in
the order in which it was issued, so that a power cut during a routine is a first
part of what the routine issued. The routines are the same in all copies of the
kernel.
-/

namespace Cs537.Filesystem

open Cs537.Journal

def BSIZE : Nat := 512
def MAXOPBLOCKS : Nat := 10
def LOGSIZE : Nat := MAXOPBLOCKS * 3

/-- The content of a block, as the words that the header is laid out in. -/
abbrev Block := Fin (BSIZE / 4) → BitVec 32

def Block.word (block : Block) (i : Nat) : BitVec 32 :=
  if inside : i < BSIZE / 4 then block ⟨i, inside⟩ else 0

def Block.setWord (block : Block) (i : Nat) (word : BitVec 32) : Block :=
  fun j => if j.val = i then word else block j

theorem Block.word_setWord_self {block : Block} {i : Nat} {word : BitVec 32}
    (inside : i < BSIZE / 4) : (block.setWord i word).word i = word := by
  simp only [Block.word, inside, dif_pos, Block.setWord, if_pos]

theorem Block.word_setWord_other {block : Block} {i j : Nat} {word : BitVec 32} (other : j ≠ i) :
    (block.setWord i word).word j = block.word j := by
  simp only [Block.word, Block.setWord, other, if_false]

/-- What the superblock says of the log: its first block and its number of blocks, on a disk
that the block numbers of the header can address. -/
structure Layout where
  logstart : Nat
  nlog : Nat
  size : Nat
  inside : logstart + nlog ≤ size
  header : 0 < nlog
  addressed : size < 2 ^ 31

/-- A block that the file system keeps its own data in. -/
def Layout.IsHome (layout : Layout) (blockno : Nat) : Prop :=
  blockno < layout.size ∧ (blockno < layout.logstart ∨ layout.logstart + layout.nlog ≤ blockno)

instance (layout : Layout) (blockno : Nat) : Decidable (layout.IsHome blockno) :=
  inferInstanceAs (Decidable (_ ∧ _))

abbrev Layout.Home (layout : Layout) := { blockno : Nat // layout.IsHome blockno }

/-- The layout that mkfs writes: `nlog` is LOGSIZE, the header included. -/
def mkfs : Layout :=
  ⟨2, LOGSIZE, 1000, by decide, by decide, by decide⟩

/-- The state of the kernel that the log works on, and the disk. -/
structure Machine where
  disk : Nat → Block
  cache : Nat → Block
  issued : List (Nat × Block)
  block : List Nat
  outstanding : Int
  committing : Bool

namespace Machine

/-- `log.lh.n`; of the array `log.lh.block` only the entries in use are kept. -/
def n (m : Machine) : Nat := m.block.length

def bread (m : Machine) (blockno : Nat) : Block := m.cache blockno

def bwrite (m : Machine) (blockno : Nat) (data : Block) : Machine :=
  { m with
    disk := Function.update m.disk blockno data
    cache := Function.update m.cache blockno data
    issued := m.issued ++ [(blockno, data)] }

/-- `log.lh.n = 0`. -/
def forget (m : Machine) : Machine := { m with block := [] }

end Machine

/-- The messages of the panics of the log. -/
inductive Panic where
  | tooBig
  | outsideTrans
  | committing
  deriving Repr, DecidableEq

def Panic.message : Panic → String
  | tooBig => "too big a transaction"
  | outsideTrans => "log_write outside of trans"
  | committing => "log.committing"

section Routines

variable (layout : Layout)

def install_trans (m : Machine) : Machine :=
  (List.range m.n).foldl (fun now tail =>
    let lbuf := now.bread (layout.logstart + tail + 1)
    now.bwrite (m.block.getD tail 0) lbuf) m

/-- The header block holds `n` in its first word and the block numbers behind it. -/
def header (buf : Block) : List Nat :=
  (List.range (buf.word 0).toInt.toNat).map fun i => (buf.word (i + 1)).toNat

def read_head (m : Machine) : Machine :=
  { m with block := header (m.bread layout.logstart) }

/-- What write_head makes of the header block: words behind the last entry keep their value. -/
def headed (block : List Nat) (buf : Block) : Block :=
  (List.range block.length).foldl (fun hb i => hb.setWord (i + 1) (BitVec.ofNat 32 (block.getD i 0)))
    (buf.setWord 0 (BitVec.ofNat 32 block.length))

def write_head (m : Machine) : Machine :=
  m.bwrite layout.logstart (headed m.block (m.bread layout.logstart))

def recover_from_log (m : Machine) : Machine :=
  let m := read_head layout m
  let m := install_trans layout m
  write_head layout m.forget

def write_log (m : Machine) : Machine :=
  (List.range m.n).foldl (fun now tail =>
    now.bwrite (layout.logstart + tail + 1) (now.bread (m.block.getD tail 0))) m

def commit (m : Machine) : Machine :=
  if 0 < m.n then
    let m := write_log layout m
    let m := write_head layout m
    let m := install_trans layout m
    write_head layout m.forget
  else m

/-- One pass of the loop of begin_op; none means that the caller sleeps on the log. -/
def begin_op (m : Machine) : Option Machine :=
  if m.committing then none
  else if (LOGSIZE : Int) < m.n + (m.outstanding + 1) * MAXOPBLOCKS then none
  else some { m with outstanding := m.outstanding + 1 }

/-- end_op up to the release of the lock, and whether the caller has to commit. When it has not,
it wakes the processes that sleep on the log. -/
def end_op (m : Machine) : Except Panic (Machine × Bool) :=
  let m := { m with outstanding := m.outstanding - 1 }
  if m.committing then .error .committing
  else if m.outstanding = 0 then .ok ({ m with committing := true }, true)
  else .ok (m, false)

/-- The rest of end_op for the caller that commits, before it wakes the sleepers. -/
def end_commit (m : Machine) : Machine :=
  { commit layout m with committing := false }

def log_write (m : Machine) (blockno : Nat) : Except Panic Machine :=
  if LOGSIZE ≤ m.n ∨ (layout.nlog : Int) - 1 ≤ m.n then .error .tooBig
  else if m.outstanding < 1 then .error .outsideTrans
  -- a block that is in the log already keeps its entry
  else if blockno ∈ m.block then .ok m
  else .ok { m with block := m.block ++ [blockno] }

/-- A caller reads a block, changes its data under the lock of the buffer, and announces it. -/
def edit (m : Machine) (blockno : Nat) (change : Block → Block) : Except Panic Machine :=
  log_write layout { m with cache := Function.update m.cache blockno (change (m.bread blockno)) }
    blockno

/-- The kernel after power on: nothing is cached, and the log in memory is zero. -/
def boot (disk : Nat → Block) : Machine := ⟨disk, disk, [], [], 0, false⟩

end Routines

/-! ## What the routines write -/

/-- The machine after it has issued the writes. -/
def Machine.issue (m : Machine) (writes : List (Nat × Block)) : Machine :=
  { m with
    disk := carryOut m.disk writes
    cache := carryOut m.cache writes
    issued := m.issued ++ writes }

@[simp] theorem Machine.issue_block (m : Machine) (writes : List (Nat × Block)) :
    (m.issue writes).block = m.block := rfl

@[simp] theorem Machine.issue_n (m : Machine) (writes : List (Nat × Block)) :
    (m.issue writes).n = m.n := rfl

theorem Machine.issue_issue (m : Machine) (first second : List (Nat × Block)) :
    (m.issue first).issue second = m.issue (first ++ second) := by
  simp only [Machine.issue, carryOut_append, List.append_assoc]

theorem Machine.issue_nil (m : Machine) : m.issue [] = m := by
  simp only [Machine.issue, carryOut_nil, List.append_nil]

theorem Machine.bwrite_eq (m : Machine) (blockno : Nat) (data : Block) :
    m.bwrite blockno data = m.issue [(blockno, data)] := rfl

/-- A copying loop, if no turn reads what an earlier one has written. -/
theorem copies_eq {start : Machine} {source target : Nat → Nat} {count : Nat}
    (apart : ∀ i < count, ∀ j < count, source i ≠ target j) :
    (List.range count).foldl (fun m tail => m.bwrite (target tail) (m.bread (source tail))) start =
      start.issue ((List.range count).map fun tail => (target tail, start.cache (source tail))) := by
  induction count with
  | zero => exact start.issue_nil.symm
  | succ count inductionHypothesis =>
    have earlier := inductionHypothesis fun i small j less => apart i (by omega) j (by omega)
    have unread : (start.issue ((List.range count).map fun tail =>
        (target tail, start.cache (source tail)))).bread (source count) = start.cache (source count) := by
      apply carryOut_absent
      intro present
      simp only [List.map_map, List.mem_map, List.mem_range, Function.comp] at present
      obtain ⟨j, small, same⟩ := present
      exact apart count (by omega) j (by omega) same.symm
    rw [List.range_succ, List.foldl_append, List.map_append, earlier, List.foldl_cons, List.foldl_nil,
      unread, Machine.bwrite_eq, Machine.issue_issue]
    rfl

end Cs537.Filesystem
