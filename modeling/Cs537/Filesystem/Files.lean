import Cs537.Filesystem.Contents
import Mathlib.Data.List.Find

/-!
# Files as strings of bytes

To its callers the file system is a table of files: a type, two device numbers, a count of
links and a string of bytes. The functions on inodes implement it. A write replaces the
bytes from its offset on and appends what goes beyond the end, a read returns the bytes
that are there, and no call changes another file. The volume stays sound: no block belongs
to two files, no block is lost, and a file has exactly the blocks that its length needs.
-/

namespace Cs537.Filesystem

open Programs

/-- What the callers see of an inode. -/
structure File where
  type : BitVec 16
  major : BitVec 16
  minor : BitVec 16
  nlink : BitVec 16
  bytes : List Byte
  deriving DecidableEq

namespace File

/-- A write at most at the end of the file replaces the bytes that are there. -/
def write (f : File) (off : Nat) (src : List Byte) : Fs.Reply Nat × File :=
  if f.type = Fs.T_DEV then (.device, f)
  else if f.bytes.length < off ∨ MAXFILE * BSIZE < off + src.length then (.refused, f)
  else (.done src.length,
    { f with bytes := f.bytes.take off ++ src ++ f.bytes.drop (off + src.length) })

/-- A read returns the bytes up to the end of the file. -/
def read (f : File) (off n : Nat) : Fs.Reply (List Byte) :=
  if f.type = Fs.T_DEV then .device
  else if f.bytes.length < off ∨ 2 ^ 32 ≤ off + n then .refused
  else .done ((f.bytes.drop off).take n)

end File

namespace Fs

/-- The file of an inode. -/
def file (disk : Nat → Block) (ip : Inode) : File :=
  ⟨ip.type, ip.major, ip.minor, ip.nlink, (List.range ip.size.toNat).map (byteAt disk ip)⟩

/-- The table of files on the disk. -/
def files (sb : Superblock) (disk : Nat → Block) (inum : Nat) : File := file disk (dinode sb disk inum)

/-- The volume is sound, every file has the blocks that its size needs, and an inode that is free
refers to none. -/
structure Sound (sb : Superblock) (disk : Nat → Block) : Prop where
  volume : Volume sb (dinode sb disk) disk
  filled : ∀ inum, Filled (dinode sb disk) disk inum (dinode sb disk inum).size.toNat
  free : ∀ inum, (dinode sb disk inum).type = 0 → (dinode sb disk inum).addrs = fun _ => 0

section Changes

variable {sb : Superblock} {disk disk' : Nat → Block} {fs : Fs} {inum off n : Nat} {ip : Inode}
  {src : List Byte}

theorem MAXFILE_small : MAXFILE * BSIZE < 2 ^ 32 := by decide

/-- A file keeps its bytes if its references and the blocks that it refers to stay. -/
theorem byteAt_congr {table table' : Nat → Inode} {p length : Nat} (filled : Filled table disk p length)
    (references : ∀ k, held table' disk' (p, k) = held table disk (p, k))
    (kept : ∀ k c, held table disk (p, k) = some c → disk' c = disk c) {i : Nat} (small : i < length) :
    byteAt disk' (table' p) i = byteAt disk (table p) i := by
  have inside : i / BSIZE < MAXFILE := by
    have := filled.fits
    simp only [BSIZE, MAXFILE, NDIRECT, NINDIRECT] at *
    omega
  have begun : i / BSIZE * BSIZE < length := (Nat.div_mul_le_self i BSIZE).trans_lt small
  obtain ⟨c, here⟩ := Option.ne_none_iff_exists'.mp ((filled.mapped _ inside).mpr begun)
  rw [byteAt_mapped ((references _).trans here), byteAt_mapped here, kept _ c here]

theorem file_congr {p : Nat} (sound : Sound sb disk) (same : dinode sb disk' p = dinode sb disk p)
    (references : ∀ k, held (dinode sb disk') disk' (p, k) = held (dinode sb disk) disk (p, k))
    (kept : ∀ k c, held (dinode sb disk) disk (p, k) = some c → disk' c = disk c) :
    files sb disk' p = files sb disk p := by
  have bytes : ∀ i ∈ List.range (dinode sb disk p).size.toNat,
      byteAt disk' (dinode sb disk' p) i = byteAt disk (dinode sb disk p) i :=
    fun i member => byteAt_congr (sound.filled p) references kept (List.mem_range.mp member)
  rw [same] at bytes
  simp only [files, file, same, List.map_congr_left bytes]

/-- The blocks of a file are mapped up to its length if its references stay. -/
theorem Filled.congr {table table' : Nat → Inode} {length : Nat} (filled : Filled table disk inum length)
    (references : ∀ k, held table' disk' (inum, k) = held table disk (inum, k)) :
    Filled table' disk' inum length := by
  have indirect : (table' inum).addr NDIRECT = (table inum).addr NDIRECT := by
    have same := references NDIRECT
    simp only [held, Inode.entry_direct (Nat.lt_succ_self NDIRECT)] at same
    split_ifs at same with zero one
    · rw [zero, one]
    · exact Option.some.inj same
  exact ⟨filled.fits, fun bn inside => by rw [references, filled.mapped bn inside],
    by rw [indirect, filled.indirect]⟩

/-- A file whose addresses are zero is empty. -/
theorem Filled.empty {table : Nat → Inode} {length : Nat} (filled : Filled table disk inum length)
    (addrs : (table inum).addrs = fun _ => 0) : length = 0 := by
  have absent : held table disk (inum, place 0) = none := by
    have direct : place 0 < NDIRECT + 1 := by decide
    rw [held_none_iff, Inode.entry_direct direct]
    simp only [Inode.addr, addrs]
    rfl
  have first := (filled.mapped 0 (by decide)).not.mp (not_not.mpr absent)
  omega

/-- A call changed one inode: the volume is sound again, and the other files are as before. -/
theorem Sound.change (sound : Sound sb disk)
    (table : dinode sb disk' = Function.update (dinode sb disk) inum ip)
    (volume : Volume sb (dinode sb disk') disk')
    (filled : Filled (dinode sb disk') disk' inum ip.size.toNat)
    (free : ip.type = 0 → ip.addrs = fun _ => 0)
    (references : ∀ slot, slot.1 ≠ inum → held (dinode sb disk') disk' slot = held (dinode sb disk) disk slot)
    (kept : ∀ slot c, slot.1 ≠ inum → held (dinode sb disk) disk slot = some c → disk' c = disk c) :
    Sound sb disk' ∧ files sb disk' = Function.update (files sb disk) inum (file disk' ip) := by
  have here : dinode sb disk' inum = ip := by rw [table, Function.update_self]
  have there : ∀ p, p ≠ inum → dinode sb disk' p = dinode sb disk p :=
    fun p other => by rw [table, Function.update_of_ne other]
  constructor
  · refine ⟨volume, fun p => ?_, fun p => ?_⟩
    · by_cases same : p = inum
      · rw [same, here]
        exact filled
      · rw [there p same]
        exact (sound.filled p).congr fun k => references (p, k) same
    · by_cases same : p = inum
      · rw [same, here]
        exact free
      · rw [there p same]
        exact sound.free p
  · funext p
    by_cases same : p = inum
    · rw [same, Function.update_self, files, here]
    · rw [Function.update_of_ne same]
      exact file_congr sound (there p same) (fun k => references (p, k) same)
        fun k c refers => kept (p, k) c same refers

/-- An inode is written back with the same addresses and the same size. -/
theorem Sound.iupdate (sound : Sound sb fs.disk) (inside : inum < sb.ninodes)
    (addrs : ip.addrs = (dinode sb fs.disk inum).addrs) (size : ip.size = (dinode sb fs.disk inum).size)
    (free : ip.type = 0 → ip.addrs = fun _ => 0) (after : Fs)
    (written : after = fs.log (sb.IBLOCK inum) ((fs.disk (sb.IBLOCK inum)).setInode (inum % IPB) ip)) :
    Sound sb after.disk ∧ files sb after.disk = Function.update (files sb fs.disk) inum
      { type := ip.type, major := ip.major, minor := ip.minor, nlink := ip.nlink
        bytes := (files sb fs.disk inum).bytes } := by
  have before : sb.IBLOCK inum < sb.nmeta := (IBLOCK_lt inside).trans bmapstart_lt_nmeta
  have table : dinode sb after.disk = Function.update (dinode sb fs.disk) inum ip :=
    written ▸ dinode_iupdate inside fs
  have kept : ∀ slot c, held (dinode sb fs.disk) fs.disk slot = some c → after.disk c = fs.disk c := by
    intro slot c refers
    have := sound.volume.data refers
    rw [written]
    exact log_other _ _ (by omega)
  have references : ∀ slot, held (dinode sb after.disk) after.disk slot =
      held (dinode sb fs.disk) fs.disk slot := by
    intro slot
    rw [table]
    by_cases same : slot.1 = inum
    · have entry := Inode.entry_congr (k := slot.2) addrs fun present =>
        kept (inum, NDIRECT) _ (held_addr (by decide) present)
      simp only [held, same, Function.update_self, entry]
    · exact held_congr (Function.update_of_ne same _ _) fun c refers => kept _ c refers
  have whole : Volume sb (Function.update (dinode sb fs.disk) inum ip) fs.disk := by
    have before := sound.volume
    rw [← Function.update_eq_self inum (dinode sb fs.disk)] at before
    exact before.fields addrs
  have volume : Volume sb (dinode sb after.disk) after.disk := written ▸ whole.iupdate inside
  have filled : Filled (dinode sb after.disk) after.disk inum ip.size.toNat :=
    size ▸ (sound.filled inum).congr fun k => references (inum, k)
  have changed := sound.change table volume filled free (fun slot _ => references slot)
    fun slot c _ => kept slot c
  refine ⟨changed.1, changed.2.trans ?_⟩
  have bytes : ∀ i ∈ List.range (dinode sb fs.disk inum).size.toNat,
      byteAt after.disk (dinode sb after.disk inum) i = byteAt fs.disk (dinode sb fs.disk inum) i :=
    fun i member => byteAt_congr (sound.filled inum) (fun k => references (inum, k))
      (fun k c => kept (inum, k) c) (List.mem_range.mp member)
  rw [table, Function.update_self] at bytes
  simp only [file, files, size, List.map_congr_left bytes]

/-- The bytes of a row after some of them were replaced. -/
theorem map_range_splice {α : Type} {f g : Nat → α} {src : List α} {default : α} {off length : Nat}
    (start : off ≤ length) (each : ∀ i, i < max length (off + src.length) →
      g i = if off ≤ i ∧ i < off + src.length then src.getD (i - off) default else f i) :
    (List.range (max length (off + src.length))).map g =
      ((List.range length).map f).take off ++ src ++ ((List.range length).map f).drop (off + src.length) := by
  have front : (((List.range length).map f).take off).length = off := by simpa using start
  apply List.ext_getElem
  · simp only [List.length_append, front, List.length_drop, List.length_map, List.length_range]
    omega
  · intro i here there
    have small : i < max length (off + src.length) := by simpa using here
    rw [List.getElem_map, List.getElem_range, each i small]
    by_cases early : i < off
    · rw [if_neg (by omega), List.getElem_append_left (by simp [front]; omega),
        List.getElem_append_left (by rw [front]; exact early), List.getElem_take, List.getElem_map,
        List.getElem_range]
    · by_cases middle : i < off + src.length
      · have within : i - off < src.length := by omega
        rw [if_pos ⟨by omega, middle⟩, List.getElem_append_left (by simp [front]; omega),
          List.getElem_append_right (by rw [front]; omega), List.getD_eq_getElem _ _ within]
        simp only [front]
      · rw [if_neg (by omega), List.getElem_append_right (by simp [front]; omega)]
        simp only [List.length_append, front, List.getElem_drop, List.getElem_map, List.getElem_range]
        congr 1
        omega

end Changes

section Calls

variable {sb : Superblock} {fs fs' : Fs} {inum off n : Nat} {ip ip' : Inode} {src : List Byte}

/-- The end of writei: the inode on the disk is the one that the loop left, with its new size. -/
theorem Wrote.finish {disk : Nat → Block} (sound : Sound sb fs.disk)
    (typed : (dinode sb fs.disk inum).type ≠ 0)
    (start : off ≤ (dinode sb fs.disk inum).size.toNat)
    (wrote : Wrote sb (dinode sb fs.disk) inum (dinode sb fs.disk inum).size.toNat off src fs fs' ip)
    (fields : ip' = { dinode sb fs.disk inum with addrs := ip.addrs, size := ip'.size })
    (size : ip'.size.toNat = max (dinode sb fs.disk inum).size.toNat (off + src.length))
    (table : dinode sb disk = Function.update (dinode sb fs.disk) inum ip')
    (volume : Volume sb (dinode sb disk) disk) (data : ∀ c, sb.nmeta ≤ c → disk c = fs'.disk c) :
    Sound sb disk ∧ files sb disk = Function.update (files sb fs.disk) inum
      { files sb fs.disk inum with
        bytes := (files sb fs.disk inum).bytes.take off ++ src ++
          (files sb fs.disk inum).bytes.drop (off + src.length) } := by
  have kept : ∀ slot c, held (Function.update (dinode sb fs.disk) inum ip) fs'.disk slot = some c →
      disk c = fs'.disk c := fun slot c refers => data c (wrote.volume.data refers)
  have references : ∀ slot, held (dinode sb disk) disk slot =
      held (Function.update (dinode sb fs.disk) inum ip) fs'.disk slot := by
    intro slot
    rw [table]
    by_cases same : slot.1 = inum
    · have addrs : ip'.addrs = ip.addrs := by rw [fields]
      have entry := Inode.entry_congr (k := slot.2) addrs fun present =>
        kept (inum, NDIRECT) (ip.addr NDIRECT) (by
          have address := @held_addr (Function.update (dinode sb fs.disk) inum ip) fs'.disk inum
            NDIRECT (Nat.lt_succ_self NDIRECT)
          rw [Function.update_self] at address
          exact address present)
      simp only [held, same, Function.update_self, entry]
    · exact held_congr (by rw [Function.update_of_ne same, Function.update_of_ne same])
        fun c refers => kept _ c refers
  have filled : Filled (dinode sb disk) disk inum ip'.size.toNat :=
    size ▸ wrote.filled.congr fun k => references (inum, k)
  have alive : ip'.type ≠ 0 := by
    rw [fields]
    exact typed
  have changed := sound.change table volume filled (fun zero => absurd zero alive)
    (fun slot other => (references slot).trans (wrote.references slot other))
    fun slot c other refers => (kept slot c ((wrote.references slot other).trans refers)).trans
      (wrote.others slot c other refers)
  refine ⟨changed.1, changed.2.trans ?_⟩
  have bytes : ∀ i, i < max (dinode sb fs.disk inum).size.toNat (off + src.length) →
      byteAt disk ip' i = if off ≤ i ∧ i < off + src.length then src.getD (i - off) 0
        else byteAt fs.disk (dinode sb fs.disk inum) i := by
    intro i small
    have moved := byteAt_congr wrote.filled (fun k => references (inum, k))
      (fun k c => kept (inum, k) c) small
    rw [table, Function.update_self, Function.update_self] at moved
    rw [moved, wrote.bytes i small]
  have spliced := map_range_splice start bytes
  rw [← size] at spliced
  have shape : file disk ip' = { files sb fs.disk inum with
      bytes := (List.range ip'.size.toNat).map (byteAt disk ip') } := by
    simp only [file, files]
    rw [fields]
  rw [shape, spliced]
  rfl

theorem files_length (sb : Superblock) (disk : Nat → Block) (inum : Nat) :
    (files sb disk inum).bytes.length = (dinode sb disk inum).size.toNat := by
  simp [files, file]

/-- writei writes to the file and leaves the inode as it is on the disk. It stops only when there are
not enough free blocks for the file to grow. -/
theorem writei_ensures (sound : Sound sb fs.disk) (inside : inum < sb.ninodes)
    (typed : (dinode sb fs.disk inum).type ≠ 0) (small : off < 2 ^ 32) (short : src.length < 2 ^ 32) :
    Ensures (writei sb inum (dinode sb fs.disk inum) off src) fs
      (fun result after => Sound sb after.disk ∧
        result = (((files sb fs.disk inum).write off src).1, dinode sb after.disk inum) ∧
        files sb after.disk = Function.update (files sb fs.disk) inum
          ((files sb fs.disk inum).write off src).2)
      (fun reason => reason = .outOfBlocks ∧ ((files sb fs.disk inum).write off src).1 = .done src.length ∧
        available sb fs.disk + blocks (files sb fs.disk inum).bytes.length < blocks (off + src.length)) := by
  have type : (files sb fs.disk inum).type = (dinode sb fs.disk inum).type := rfl
  have length := files_length sb fs.disk inum
  have maximum := MAXFILE_small
  unfold writei File.write
  rw [type, length]
  by_cases device : (dinode sb fs.disk inum).type = T_DEV
  · rw [if_pos device, if_pos device, ensures_pure, Function.update_eq_self]
    exact ⟨sound, rfl, rfl⟩
  rw [if_neg device, if_neg device]
  by_cases late : (dinode sb fs.disk inum).size.toNat < off ∨ (off + src.length) % 2 ^ 32 < off
  · have refused : (dinode sb fs.disk inum).size.toNat < off ∨ MAXFILE * BSIZE < off + src.length := by
      omega
    rw [if_pos late, if_pos refused, ensures_pure, Function.update_eq_self]
    exact ⟨sound, rfl, rfl⟩
  rw [if_neg late]
  by_cases long : MAXFILE * BSIZE < off + src.length
  · rw [if_pos long, if_pos (.inr long), ensures_pure, Function.update_eq_self]
    exact ⟨sound, rfl, rfl⟩
  have accepted : ¬ ((dinode sb fs.disk inum).size.toNat < off ∨ MAXFILE * BSIZE < off + src.length) := by
    omega
  have start : off ≤ (dinode sb fs.disk inum).size.toNat := by omega
  rw [if_neg long, if_neg accepted, ensures_bind]
  refine (writeLoop_ensures src.length sound.volume (sound.filled inum) start le_rfl
    (by omega)).mono (fun ip mid wrote => ?_) fun _ stopped => ⟨stopped.1, rfl, stopped.2⟩
  have size : ip.size = (dinode sb fs.disk inum).size := by rw [wrote.fields]
  have same : dinode sb mid.disk = dinode sb fs.disk := dinode_congr wrote.inodes
  rw [size, ensures_ite]
  split_ifs with grows
  · simp only [iupdate, ensures_bind, ensures_bread, ensures_log_write, ensures_pure]
    have volume := wrote.volume
    rw [← same] at volume
    have addrs : ({ ip with size := BitVec.ofNat 32 (off + src.length) } : Inode).addrs = ip.addrs := rfl
    have written := (volume.fields addrs).iupdate inside
    have fields : ({ ip with size := BitVec.ofNat 32 (off + src.length) } : Inode) =
        { dinode sb fs.disk inum with
          addrs := ip.addrs, size := BitVec.ofNat 32 (off + src.length) } := by
      conv_lhs => rw [wrote.fields]
    have final : (BitVec.ofNat 32 (off + src.length)).toNat =
        max (dinode sb fs.disk inum).size.toNat (off + src.length) := by
      rw [BitVec.toNat_ofNat, Nat.mod_eq_of_lt (by omega)]
      omega
    have before : sb.IBLOCK inum < sb.nmeta := (IBLOCK_lt inside).trans bmapstart_lt_nmeta
    have finished := wrote.finish sound typed start fields final
      (by rw [dinode_iupdate inside, same]) written fun c data => log_other _ _ (by omega)
    refine ⟨finished.1, ?_, finished.2⟩
    rw [dinode_iupdate inside, Function.update_self]
  · rw [ensures_pure]
    have inplace : off + src.length ≤ (dinode sb fs.disk inum).size.toNat := by omega
    have kept := wrote.inplace inplace
    have volume := wrote.volume
    rw [kept, Function.update_eq_self, ← same] at volume
    have fields : dinode sb fs.disk inum =
        { dinode sb fs.disk inum with addrs := ip.addrs, size := (dinode sb fs.disk inum).size } := by
      rw [kept]
    have finished := wrote.finish sound typed start fields (by omega)
      (by rw [same, Function.update_eq_self]) volume fun _ _ => rfl
    refine ⟨finished.1, ?_, finished.2⟩
    rw [same, kept]

/-- readi reads from the file, changes nothing and does not stop. -/
theorem readi_run (sound : Sound sb fs.disk) (short : n < 2 ^ 32) :
    (readi sb (dinode sb fs.disk inum) off n).run fs =
      .ok (((files sb fs.disk inum).read off n, dinode sb fs.disk inum), fs) := by
  have type : (files sb fs.disk inum).type = (dinode sb fs.disk inum).type := rfl
  have length := files_length sb fs.disk inum
  have maximum := MAXFILE_small
  have fits := (sound.filled inum).fits
  unfold readi File.read
  rw [type, length]
  by_cases device : (dinode sb fs.disk inum).type = T_DEV
  · rw [if_pos device, if_pos device]
    rfl
  rw [if_neg device, if_neg device]
  by_cases late : (dinode sb fs.disk inum).size.toNat < off ∨ (off + n) % 2 ^ 32 < off
  · have refused : (dinode sb fs.disk inum).size.toNat < off ∨ 2 ^ 32 ≤ off + n := by omega
    rw [if_pos late, if_pos refused]
    rfl
  · have accepted : ¬ ((dinode sb fs.disk inum).size.toNat < off ∨ 2 ^ 32 ≤ off + n) := by omega
    rw [if_neg late, if_neg accepted]
    generalize count : (if (dinode sb fs.disk inum).size.toNat < off + n then
      (dinode sb fs.disk inum).size.toNat - off else n) = m
    have within : off + m ≤ (dinode sb fs.disk inum).size.toNat := by
      rw [← count]
      split_ifs <;> omega
    rw [run_bind_ok (readLoop_run m m (sound.filled inum) le_rfl within)]
    have bytes : ((files sb fs.disk inum).bytes.drop off).take n =
        (List.range m).map fun i => byteAt fs.disk (dinode sb fs.disk inum) (off + i) := by
      apply List.ext_getElem
      · rw [List.length_take, List.length_drop, length, List.length_map, List.length_range, ← count]
        split_ifs <;> omega
      · intro i _ _
        simp only [files, file, List.getElem_take, List.getElem_drop, List.getElem_map,
          List.getElem_range]
    rw [bytes]
    rfl

/-! ## The other calls on inodes -/

/-- ilock reads the inode from the disk, and stops if it is free. -/
theorem ilock_run (inside : inum < sb.ninodes) (fs : Fs) :
    (ilock sb inum).run fs = if (dinode sb fs.disk inum).type = 0 then .error .noType
      else .ok (dinode sb fs.disk inum, fs) := by
  have same : (fs.disk (sb.IBLOCK inum)).inode (inum % IPB) = dinode sb fs.disk inum := by
    rw [dinode, if_pos inside]
  rw [ilock, run_bind_ok (bread_run fs _), same]
  split_ifs <;> rfl

/-- The first free inode after the first. -/
def freeInode (ninodes : Nat) (files : Nat → File) : Option Nat :=
  (List.range' 1 (ninodes - 1)).find? fun inum => (files inum).type = 0

/-- ialloc takes the first free inode, which becomes an empty file without links. -/
theorem ialloc_ensures (sound : Sound sb fs.disk) (type : BitVec 16) :
    Ensures (ialloc sb type) fs
      (fun inum after => freeInode sb.ninodes (files sb fs.disk) = some inum ∧ inum < sb.ninodes ∧
        Sound sb after.disk ∧
        files sb after.disk = Function.update (files sb fs.disk) inum ⟨type, 0, 0, 0, []⟩)
      (fun reason => reason = .noInodes ∧ freeInode sb.ninodes (files sb fs.disk) = none) := by
  have within : ∀ p ∈ List.range' 1 (sb.ninodes - 1), p < sb.ninodes := by
    intro p member
    rw [List.mem_range'_1] at member
    omega
  have same : freeInode sb.ninodes (files sb fs.disk) = (List.range' 1 (sb.ninodes - 1)).find? fun p =>
      decide (((fs.disk (sb.IBLOCK p)).inode (p % IPB)).type = 0) := by
    refine List.find?_congr fun p member => ?_
    simp only [files, file, dinode, if_pos (within p member)]
  unfold ialloc
  rw [ensures_bind]
  apply @ensures_search _ _ _ _ _ _ _ _ fun p =>
    decide (((fs.disk (sb.IBLOCK p)).inode (p % IPB)).type = 0)
  · intro p used
    rw [decide_eq_false_iff_not] at used
    rw [run_bind_ok (bread_run fs _), if_neg used]
    rfl
  · intro p first
    have inside := within p (List.mem_of_find?_eq_some first)
    have free : ((fs.disk (sb.IBLOCK p)).inode (p % IPB)).type = 0 := by
      simpa using List.find?_some first
    simp only [ensures_bind, ensures_bread, if_pos free, ensures_log_write, ensures_pure]
    refine ⟨⟨p, rfl⟩, same.trans first, inside, ?_⟩
    have idle : (dinode sb fs.disk p).type = 0 := by
      rw [dinode, if_pos inside]
      exact free
    have addrs := sound.free p idle
    have size : (dinode sb fs.disk p).size = 0 :=
      BitVec.eq_of_toNat_eq ((sound.filled p).empty addrs)
    have written := @Sound.iupdate sb fs p { Inode.blank with type := type } sound inside addrs.symm
      size.symm (fun _ => rfl) _ rfl
    have bytes : (files sb fs.disk p).bytes = [] := by
      simp only [files, file, size]
      rfl
    rw [bytes] at written
    exact written
  · intro none
    exact ⟨rfl, same.trans none⟩

end Calls

end Fs

end Cs537.Filesystem
