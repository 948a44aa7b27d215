import Cs537.Library.Programs
import Cs537.Filesystem.Blocks

/-!
# Blocks and inodes of the file system

The functions of the file system that hand out blocks and inodes, map the blocks of a
file, and read and write its content. They run inside a call of the file system and see
the disk as `bread` and `log_write` show it; the numbers given to `log_write` are kept in
their order. A function stops only at a panic.

An inode is passed as its fields. The functions are the same in all copies of the kernel.
-/

namespace Cs537.Filesystem

open Programs

def BPB : Nat := BSIZE * 8

/-- The superblock: the regions of the disk follow each other, boot block, superblock, log, inodes,
free map and data, as mkfs lays them out. -/
structure Superblock extends Layout where
  nblocks : Nat
  ninodes : Nat
  inodestart : Nat
  bmapstart : Nat
  logEnds : logstart + nlog ≤ inodestart
  inodesEnd : inodestart + ninodes / IPB < bmapstart
  bmapEnds : bmapstart + size / BPB < size - nblocks

namespace Superblock

variable (sb : Superblock)

/-- The number of the first data block. -/
def nmeta : Nat := sb.size - sb.nblocks

def IBLOCK (i : Nat) : Nat := i / IPB + sb.inodestart

def BBLOCK (b : Nat) : Nat := b / BPB + sb.bmapstart

end Superblock

/-- The superblock that mkfs writes. -/
def mkfsSuperblock : Superblock where
  toLayout := mkfs
  nblocks := 941
  ninodes := 200
  inodestart := 32
  bmapstart := 58
  logEnds := by decide
  inodesEnd := by decide
  bmapEnds := by decide

/-- The panics of these functions. -/
inductive FsPanic where
  | outOfBlocks
  | freeingFree
  | outOfRange
  | noInodes
  | noType
  | shortFilewrite
  | lookupNotDir
  | lookupRead
  | linkRead
  | dirlink
  | emptyRead
  | cacheFull
  deriving Repr, DecidableEq

def FsPanic.message : FsPanic → String
  | outOfBlocks => "balloc: out of blocks"
  | freeingFree => "freeing free block"
  | outOfRange => "bmap: out of range"
  | noInodes => "ialloc: no inodes"
  | noType => "ilock: no type"
  | shortFilewrite => "short filewrite"
  | lookupNotDir => "dirlookup not DIR"
  | lookupRead => "dirlookup read"
  | linkRead => "dirlink read"
  | dirlink => "dirlink"
  | emptyRead => "isdirempty: readi"
  | cacheFull => "iget: no inodes"

/-- The blocks as the calls see them, and the numbers given to log_write. -/
structure Fs where
  disk : Nat → Block
  logged : List Nat

abbrev Call := Program Fs FsPanic

namespace Fs

def bread (blockno : Nat) : Call Block := do return (← get).disk blockno

def log (fs : Fs) (blockno : Nat) (data : Block) : Fs :=
  ⟨Function.update fs.disk blockno data, fs.logged ++ [blockno]⟩

@[simp] theorem log_self (fs : Fs) (blockno : Nat) (data : Block) :
    (fs.log blockno data).disk blockno = data := Function.update_self _ _ _

theorem log_other (fs : Fs) {blockno other : Nat} (data : Block) (apart : other ≠ blockno) :
    (fs.log blockno data).disk other = fs.disk other := Function.update_of_ne apart _ _

@[simp] theorem log_logged (fs : Fs) (blockno : Nat) (data : Block) :
    (fs.log blockno data).logged = fs.logged ++ [blockno] := rfl

/-- A buffer is changed and given to log_write. -/
def log_write (blockno : Nat) (data : Block) : Call Unit := modify (·.log blockno data)

@[simp] theorem ensures_bread {fs : Fs} {post : Block → Fs → Prop} {stop : FsPanic → Prop}
    (blockno : Nat) : Ensures (bread blockno) fs post stop ↔ post (fs.disk blockno) fs := Iff.rfl

@[simp] theorem ensures_log_write {fs : Fs} {post : Unit → Fs → Prop} {stop : FsPanic → Prop}
    (blockno : Nat) (data : Block) :
    Ensures (log_write blockno data) fs post stop ↔ post () (fs.log blockno data) := Iff.rfl

theorem bread_run (fs : Fs) (blockno : Nat) : (bread blockno).run fs = .ok (fs.disk blockno, fs) := rfl

section Functions

variable (sb : Superblock)

def bzero (bno : Nat) : Call Unit := log_write bno fun _ => 0

/-- The inner loop of balloc: the first free block among those of one bitmap block. The
definition is irreducible so that the elaborator does not unfold the loop. -/
@[irreducible] def freeBit (bp : Block) (b : Nat) : Option Nat :=
  (List.range BPB).find? fun bi => decide (b + bi < sb.size) && !bp.bit bi

def balloc : Call Nat := do
  let found ← scan (fun (_ : Unit) round => do
    let b := BPB * round
    let bp ← bread (sb.BBLOCK b)
    match freeBit sb bp b with
    | none => return .inl ()
    | some bi =>
      log_write (sb.BBLOCK b) (bp.setBit bi)
      bzero (b + bi)
      return .inr (b + bi)) () (List.range ((sb.size + BPB - 1) / BPB))
  match found with
  | .inl _ => throw .outOfBlocks
  | .inr b => return b

def bfree (b : Nat) : Call Unit := do
  let bp ← bread (sb.BBLOCK b)
  if bp.bit (b % BPB) then log_write (sb.BBLOCK b) (bp.clearBit (b % BPB)) else throw .freeingFree

def T_DEV : BitVec 16 := 3

def ialloc (type : BitVec 16) : Call Nat := do
  let found ← scan (fun (_ : Unit) inum => do
    let bp ← bread (sb.IBLOCK inum)
    if (bp.inode (inum % IPB)).type = 0 then
      log_write (sb.IBLOCK inum) (bp.setInode (inum % IPB) { Inode.blank with type := type })
      return .inr inum
    else return .inl ()) () (List.range' 1 (sb.ninodes - 1))
  match found with
  | .inl _ => throw .noInodes
  | .inr inum => return inum

def iupdate (inum : Nat) (ip : Inode) : Call Unit := do
  let bp ← bread (sb.IBLOCK inum)
  log_write (sb.IBLOCK inum) (bp.setInode (inum % IPB) ip)

/-- ilock of an inode that is not in memory. -/
def ilock (inum : Nat) : Call Inode := do
  let bp ← bread (sb.IBLOCK inum)
  if (bp.inode (inum % IPB)).type = 0 then throw .noType else return bp.inode (inum % IPB)

/-- The indirect block in bmap, allocated if necessary. -/
def indirectBlock (ip : Inode) : Call (Nat × Inode) := do
  if ip.addr NDIRECT = 0 then
    let addr ← balloc sb
    return (addr, ip.setAddr NDIRECT addr)
  else return (ip.addr NDIRECT, ip)

/-- The block of a file and the inode, which may have a new address. -/
def bmap (ip : Inode) (bn : Nat) : Call (Nat × Inode) := do
  if bn < NDIRECT then
    if ip.addr bn = 0 then
      let addr ← balloc sb
      return (addr, ip.setAddr bn addr)
    else return (ip.addr bn, ip)
  else if bn - NDIRECT < NINDIRECT then
    let (addr, ip) ← indirectBlock sb ip
    let bp ← bread addr
    if bp.word (bn - NDIRECT) = 0 then
      let addr' ← balloc sb
      log_write addr (bp.setWord (bn - NDIRECT) (BitVec.ofNat 32 addr'))
      return (addr', ip)
    else return ((bp.word (bn - NDIRECT)).toNat, ip)
  else throw .outOfRange

/-- The loop of itrunc over the addresses. -/
def freeDirect : Inode → List Nat → Call Inode
  | ip, [] => return ip
  | ip, i :: rest => do
    if ip.addr i ≠ 0 then
      bfree sb (ip.addr i)
      freeDirect (ip.setAddr i 0) rest
    else freeDirect ip rest

/-- The loop of itrunc over the entries of the indirect block. -/
def freeIndirect (a : Block) : List Nat → Call Unit
  | [] => return
  | j :: rest => do
    if a.word j ≠ 0 then
      bfree sb (a.word j).toNat
      freeIndirect a rest
    else freeIndirect a rest

/-- The part of itrunc for the indirect block and its entries. -/
def truncIndirect (ip : Inode) : Call Inode := do
  if ip.addr NDIRECT ≠ 0 then
    let a ← bread (ip.addr NDIRECT)
    freeIndirect sb a (List.range NINDIRECT)
    bfree sb (ip.addr NDIRECT)
    return ip.setAddr NDIRECT 0
  else return ip

def itrunc (inum : Nat) (ip : Inode) : Call Inode := do
  let ip ← freeDirect sb ip (List.range NDIRECT)
  let ip ← truncIndirect sb ip
  let ip := { ip with size := 0 }
  iupdate sb inum ip
  return ip

/-- What readi and writei return: -1, the result of the device, or their own. -/
inductive Reply (α : Type) where
  | refused
  | device
  | done (result : α)
  deriving Repr, DecidableEq

def Reply.map {α β : Type} (change : α → β) : Reply α → Reply β
  | .refused => .refused
  | .device => .device
  | .done result => .done (change result)

/-- The loop of readi, which makes progress in each round. -/
def readLoop : Nat → Inode → Nat → Nat → Call (List Byte × Inode)
  | 0, ip, _, _ => return ([], ip)
  | fuel + 1, ip, off, left => do
    if left = 0 then return ([], ip)
    else
      let (addr, ip) ← bmap sb ip (off / BSIZE)
      let bp ← bread addr
      let m := min left (BSIZE - off % BSIZE)
      let (rest, ip) ← readLoop fuel ip (off + m) (left - m)
      return (bp.bytes (off % BSIZE) m ++ rest, ip)

def readi (ip : Inode) (off n : Nat) : Call (Reply (List Byte) × Inode) := do
  if ip.type = T_DEV then return (.device, ip)
  else if ip.size.toNat < off ∨ (off + n) % 2 ^ 32 < off then return (.refused, ip)
  else
    let n := if ip.size.toNat < off + n then ip.size.toNat - off else n
    let (dst, ip) ← readLoop sb n ip off n
    return (.done dst, ip)

/-- The loop of writei, which makes progress in each round. -/
def writeLoop : Nat → Inode → Nat → List Byte → Call Inode
  | 0, ip, _, _ => return ip
  | fuel + 1, ip, off, src => do
    if src.length = 0 then return ip
    else
      let (addr, ip) ← bmap sb ip (off / BSIZE)
      let bp ← bread addr
      let m := min src.length (BSIZE - off % BSIZE)
      log_write addr (bp.copy (off % BSIZE) (src.take m))
      writeLoop fuel ip (off + m) (src.drop m)

def writei (inum : Nat) (ip : Inode) (off : Nat) (src : List Byte) : Call (Reply Nat × Inode) := do
  if ip.type = T_DEV then return (.device, ip)
  else if ip.size.toNat < off ∨ (off + src.length) % 2 ^ 32 < off then return (.refused, ip)
  else if MAXFILE * BSIZE < off + src.length then return (.refused, ip)
  else
    let ip ← writeLoop sb src.length ip off src
    if 0 < src.length ∧ ip.size.toNat < off + src.length then
      let ip := { ip with size := BitVec.ofNat 32 (off + src.length) }
      iupdate sb inum ip
      return (.done src.length, ip)
    else return (.done src.length, ip)

end Functions

end Fs

end Cs537.Filesystem
