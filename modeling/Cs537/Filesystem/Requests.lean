import Cs537.Filesystem.Capacity
import Mathlib.Order.Interval.Finset.Nat

/-!
# Open files and the calls on them

An open file has an offset, which reads and writes move. `filewrite` gives `writei` one
piece after the other, each small enough for the log, and stops at the first piece that
would make the file too long; the pieces before it stay written. Whatever calls are made
in whatever order, their results are those of a table of strings of bytes, which refuses
only what does not fit on the disk.
-/

namespace Cs537.Filesystem.Fs

open Programs

/-- An open file of an inode. -/
structure OpenFile where
  inum : Nat
  off : Nat
  readable : Bool
  writable : Bool
  deriving DecidableEq

/-- The longest piece that filewrite gives to writei. -/
def CHUNK : Nat := (MAXOPBLOCKS - 1 - 1 - 2) / 2 * 512

section Functions

variable (sb : Superblock)

def fileread (f : OpenFile) (n : Nat) : Call (Reply (List Byte) × OpenFile) := do
  if f.readable = false then return (.refused, f)
  else
    let ip ← ilock sb f.inum
    let (r, _) ← readi sb ip f.off n
    match r with
    | .done dst => return (.done dst, { f with off := f.off + dst.length })
    | .refused => return (.refused, f)
    | .device => return (.device, f)

/-- The loop of filewrite, whose pieces are not empty. -/
def writeChunks : Nat → OpenFile → List Byte → Call (Reply Unit × OpenFile)
  | 0, f, _ => return (.done (), f)
  | fuel + 1, f, src => do
    if src.length = 0 then return (.done (), f)
    else
      let ip ← ilock sb f.inum
      let (r, _) ← writei sb f.inum ip f.off (src.take CHUNK)
      match r with
      | .done r =>
        if r = (src.take CHUNK).length then
          writeChunks fuel { f with off := f.off + r } (src.drop CHUNK)
        else throw .shortFilewrite
      | .refused => return (.refused, f)
      | .device => return (.device, f)

/-- filewrite returns the number of bytes or -1. -/
def filewrite (f : OpenFile) (src : List Byte) : Call (Reply Nat × OpenFile) := do
  if f.writable = false then return (.refused, f)
  else
    let (r, f) ← writeChunks sb src.length f src
    return (r.map fun _ => src.length, f)

/-- The part of iput that frees an inode. -/
def erase (inum : Nat) (ip : Inode) : Call Unit := do
  let ip ← itrunc sb inum ip
  iupdate sb inum { ip with type := 0 }

/-- iput for an inode without other references: without links it is freed. -/
def discard (inum : Nat) : Call Unit := do
  let ip ← ilock sb inum
  if ip.nlink = 0 then erase sb inum ip else return

end Functions

/-- What is asked of the file system: the inode part of create, of link and of unlink, the last
iput of an inode, and the calls on open files. -/
inductive Request where
  | create (type major minor : BitVec 16)
  | link (inum : Nat)
  | unlink (inum : Nat)
  | discard (inum : Nat)
  | openFile (fd inum : Nat) (readable writable : Bool)
  | read (fd n : Nat)
  | write (fd : Nat) (src : List Byte)

inductive Response where
  | none
  | created (inum : Nat)
  | read (reply : Reply (List Byte))
  | wrote (reply : Reply Nat)
  deriving DecidableEq

/-- The inode numbers of a request are in the table, the count of a read is a word, and that of a
write is not negative. -/
def Request.Valid (sb : Superblock) : Request → Prop
  | .create _ _ _ => True
  | .link inum | .unlink inum | .discard inum => inum < sb.ninodes
  | .openFile _ inum _ _ => inum < sb.ninodes
  | .read _ n => n < 2 ^ 32
  | .write _ src => src.length < 2 ^ 31

def serve (sb : Superblock) (opened : Nat → OpenFile) : Request → Call (Response × (Nat → OpenFile))
  | .create type major minor => do
    let inum ← ialloc sb type
    let ip ← ilock sb inum
    iupdate sb inum { ip with major := major, minor := minor, nlink := 1 }
    return (.created inum, opened)
  | .link inum => do
    let ip ← ilock sb inum
    iupdate sb inum { ip with nlink := ip.nlink + 1 }
    return (.none, opened)
  | .unlink inum => do
    let ip ← ilock sb inum
    iupdate sb inum { ip with nlink := ip.nlink - 1 }
    return (.none, opened)
  | .discard inum => do
    discard sb inum
    return (.none, opened)
  | .openFile fd inum readable writable =>
    return (.none, Function.update opened fd ⟨inum, 0, readable, writable⟩)
  | .read fd n => do
    let (reply, f) ← fileread sb (opened fd) n
    return (.read reply, Function.update opened fd f)
  | .write fd src => do
    let (reply, f) ← filewrite sb (opened fd) src
    return (.wrote reply, Function.update opened fd f)

/-- The requests in their order. -/
def serveAll (sb : Superblock) : (Nat → OpenFile) → List Request →
    Call (List Response × (Nat → OpenFile))
  | opened, [] => return ([], opened)
  | opened, request :: rest => do
    let (response, opened) ← serve sb opened request
    let (responses, opened) ← serveAll sb opened rest
    return (response :: responses, opened)

/-! ## The table of files -/

/-- How many bytes filewrite writes: all of them if they fit, else its pieces that do. -/
def accepted (off length : Nat) : Nat :=
  if off + length ≤ MAXFILE * BSIZE then length else CHUNK * ((MAXFILE * BSIZE - off) / CHUNK)

end Cs537.Filesystem.Fs

namespace Cs537.Filesystem.File

/-- The bytes from an offset on are replaced. -/
def splice (f : File) (off : Nat) (src : List Byte) : File :=
  { f with bytes := f.bytes.take off ++ src ++ f.bytes.drop (off + src.length) }

/-- Whether filewrite writes everything, what it makes of the file, and the new offset. -/
def stream (f : File) (off : Nat) (src : List Byte) : Fs.Reply Unit × File × Nat :=
  if src = [] then (.done (), f, off)
  else if f.type = Fs.T_DEV then (.device, f, off)
  else if f.bytes.length < off then (.refused, f, off)
  else (if Fs.accepted off src.length = src.length then .done () else .refused,
    f.splice off (src.take (Fs.accepted off src.length)), off + Fs.accepted off src.length)

end Cs537.Filesystem.File

namespace Cs537.Filesystem.Fs

open Programs

/-- The files and the open ones. -/
structure Store where
  files : Nat → File
  opened : Nat → OpenFile

/-- Another file in the place of an inode. -/
def Store.put (store : Store) (inum : Nat) (f : File) : Store :=
  { store with files := Function.update store.files inum f }

/-- An open file is moved. -/
def Store.seek (store : Store) (fd off : Nat) : Store :=
  { store with opened := Function.update store.opened fd { store.opened fd with off := off } }

/-- What a request does to a table of files on a disk with so many data blocks. -/
def respond (ninodes nblocks : Nat) (store : Store) : Request → Except FsPanic (Response × Store)
  | .create type major minor =>
    match freeInode ninodes store.files with
    | none => .error .noInodes
    | some inum =>
      if type = 0 then .error .noType
      else .ok (.created inum, store.put inum ⟨type, major, minor, 1, []⟩)
  | .link inum =>
    if (store.files inum).type = 0 then .error .noType
    else .ok (.none, store.put inum { store.files inum with nlink := (store.files inum).nlink + 1 })
  | .unlink inum =>
    if (store.files inum).type = 0 then .error .noType
    else .ok (.none, store.put inum { store.files inum with nlink := (store.files inum).nlink - 1 })
  | .discard inum =>
    if (store.files inum).type = 0 then .error .noType
    else if (store.files inum).nlink = 0 then
      .ok (.none, store.put inum { store.files inum with type := 0, bytes := [] })
    else .ok (.none, store)
  | .openFile fd inum readable writable =>
    .ok (.none, { store with
      opened := Function.update store.opened fd ⟨inum, 0, readable, writable⟩ })
  | .read fd n =>
    if (store.opened fd).readable = false then .ok (.read .refused, store)
    else if (store.files (store.opened fd).inum).type = 0 then .error .noType
    else
      let reply := (store.files (store.opened fd).inum).read (store.opened fd).off n
      match reply with
      | .done dst => .ok (.read reply, store.seek fd ((store.opened fd).off + dst.length))
      | .refused | .device => .ok (.read reply, store)
  | .write fd src =>
    if (store.opened fd).writable = false then .ok (.wrote .refused, store)
    else if src ≠ [] ∧ (store.files (store.opened fd).inum).type = 0 then .error .noType
    else
      let (reply, f, off) := (store.files (store.opened fd).inum).stream (store.opened fd).off src
      let store := (store.put (store.opened fd).inum f).seek fd off
      if nblocks < needs ninodes store.files then .error .outOfBlocks
      else .ok (.wrote (reply.map fun _ => src.length), store)

/-- The requests in their order. -/
def respondAll (ninodes nblocks : Nat) : Store → List Request → Except FsPanic (List Response × Store)
  | store, [] => .ok ([], store)
  | store, request :: rest => do
    let (response, store) ← respond ninodes nblocks store request
    let (responses, store) ← respondAll ninodes nblocks store rest
    return (response :: responses, store)

/-! ## The pieces of a write -/

section Pieces

variable {off length : Nat} {f : File}

/-- The first piece does not fit. -/
theorem accepted_none (inside : off ≤ MAXFILE * BSIZE) (long : MAXFILE * BSIZE < off + min length CHUNK) :
    accepted off length = 0 := by
  have none : (MAXFILE * BSIZE - off) / CHUNK = 0 := Nat.div_eq_of_lt (by omega)
  rw [accepted, if_neg (by omega), none, Nat.mul_zero]

/-- The first piece fits. -/
theorem accepted_step (fits : off + min length CHUNK ≤ MAXFILE * BSIZE) :
    accepted off length =
      min length CHUNK + accepted (off + min length CHUNK) (length - min length CHUNK) := by
  have positive : 0 < CHUNK := by decide
  unfold accepted
  by_cases all : off + length ≤ MAXFILE * BSIZE
  · rw [if_pos all, if_pos (by omega)]
    omega
  · have whole : min length CHUNK = CHUNK := by omega
    have rest : MAXFILE * BSIZE - off = MAXFILE * BSIZE - (off + CHUNK) + CHUNK := by omega
    rw [if_neg all, if_neg (by omega), whole, rest, Nat.add_div_right _ positive]
    rw [Nat.mul_succ, Nat.add_comm]

theorem accepted_le (inside : off ≤ MAXFILE * BSIZE) : accepted off length ≤ length ∧
    off + accepted off length ≤ MAXFILE * BSIZE := by
  unfold accepted
  split_ifs with all
  · omega
  · have := Nat.mul_div_le (MAXFILE * BSIZE - off) CHUNK
    omega

theorem splice_nil : f.splice off [] = f := by
  simp [File.splice]

/-- Two pieces, one behind the other. -/
theorem splice_append {first rest : List Byte} (start : off ≤ f.bytes.length) :
    (f.splice off first).splice (off + first.length) rest = f.splice off (first ++ rest) := by
  have front : (f.bytes.take off).length = off := List.length_take_of_le start
  have taken : (f.bytes.take off ++ first).length = off + first.length := by
    rw [List.length_append, front]
  have kept : (f.bytes.take off ++ first ++ f.bytes.drop (off + first.length)).take
      (off + first.length) = f.bytes.take off ++ first := by
    rw [← taken, List.take_left]
  have left : (f.bytes.take off ++ first ++ f.bytes.drop (off + first.length)).drop
      (off + first.length + rest.length) = f.bytes.drop (off + (first ++ rest).length) := by
    rw [← List.drop_drop, List.drop_left' taken, List.drop_drop, List.length_append, Nat.add_assoc]
  simp only [File.splice, kept, left]
  simp only [List.append_assoc]

/-- The offset stays where a file can have it. -/
theorem stream_within {src : List Byte} (inside : off ≤ MAXFILE * BSIZE) :
    (f.stream off src).2.2 ≤ MAXFILE * BSIZE := by
  unfold File.stream
  split_ifs
  · exact inside
  · exact inside
  · exact inside
  · exact (accepted_le inside).2
  · exact (accepted_le inside).2

/-- What was read lies inside the file. -/
theorem read_reach {n : Nat} {dst : List Byte} (done : f.read off n = .done dst) :
    off + dst.length ≤ f.bytes.length := by
  unfold File.read at done
  split_ifs at done with _ refused
  obtain rfl := Reply.done.inj done
  rw [List.length_take, List.length_drop]
  omega

end Pieces

section Service

variable {sb : Superblock} {fs : Fs} {inum n : Nat} {f : OpenFile} {src : List Byte}

/-- ilock in front of another program. -/
theorem ensures_ilock (inside : inum < sb.ninodes) {post : Inode → Fs → Prop} {stop : FsPanic → Prop} :
    Ensures (ilock sb inum) fs post stop ↔
      if (files sb fs.disk inum).type = 0 then stop .noType else post (dinode sb fs.disk inum) fs := by
  have type : (files sb fs.disk inum).type = (dinode sb fs.disk inum).type := rfl
  unfold Ensures
  rw [ilock_run inside, type]
  split_ifs <;> rfl

/-- The first piece, and the rest behind it. -/
theorem stream_pieces {f : File} {off : Nat} (present : src ≠ []) (start : off ≤ f.bytes.length)
    (file : f.type ≠ T_DEV) (fits : off + (src.take CHUNK).length ≤ MAXFILE * BSIZE) :
    f.stream off src = (f.splice off (src.take CHUNK)).stream (off + (src.take CHUNK).length)
      (src.drop CHUNK) := by
  have piece : (src.take CHUNK).length = min src.length CHUNK := by
    rw [List.length_take, Nat.min_comm]
  have left : (src.drop CHUNK).length = src.length - min src.length CHUNK := by
    rw [List.length_drop]
    omega
  have step := @accepted_step off src.length (by omega)
  rw [← left, ← piece] at step
  have reach : off + (src.take CHUNK).length ≤ (f.splice off (src.take CHUNK)).bytes.length := by
    simp only [File.splice, List.length_append, List.length_take, List.length_drop]
    omega
  unfold File.stream
  rw [if_neg present, if_neg file, if_neg (Nat.not_lt.mpr start), step]
  by_cases whole : src.drop CHUNK = []
  · have single : src.take CHUNK = src :=
      List.take_of_length_le (List.drop_eq_nil_iff.mp whole)
    have more : accepted (off + src.length) 0 = 0 := by
      rw [single] at fits
      rw [accepted, Nat.add_zero, if_pos fits]
    rw [if_pos whole, whole, single, List.length_nil, more, Nat.add_zero, if_pos rfl, List.take_length]
  · have again : ¬ (f.splice off (src.take CHUNK)).type = T_DEV := file
    rw [if_neg whole, if_neg again, if_neg (Nat.not_lt.mpr reach)]
    have count : (src.take CHUNK).length + (src.drop CHUNK).length = src.length := by
      rw [← List.length_append, List.take_append_drop]
    generalize accepted (off + (src.take CHUNK).length) (src.drop CHUNK).length = rest
    have taken : (src.take CHUNK ++ src.drop CHUNK).take ((src.take CHUNK).length + rest) =
        src.take CHUNK ++ (src.drop CHUNK).take rest := List.take_length_add_append _
    rw [List.take_append_drop] at taken
    rw [splice_append start, taken, Nat.add_assoc]
    congr 1
    by_cases all : rest = (src.drop CHUNK).length
    · rw [if_pos (by rw [all, count]), if_pos all]
    · rw [if_neg (by omega), if_neg all]

/-- A write does not shorten the file. -/
theorem stream_grows {f : File} {off : Nat} :
    f.bytes.length ≤ (f.stream off src).2.1.bytes.length := by
  unfold File.stream
  split_ifs <;> simp only [le_refl, File.splice, List.length_append, List.length_take, List.length_drop]
  all_goals omega

/-- If there are not enough blocks for the first piece, there are not enough for what all the
pieces make of the file. -/
theorem stream_needs (sound : Sound sb fs.disk) (inside : inum < sb.ninodes) {off : Nat}
    (present : src ≠ [])
    (done : ((files sb fs.disk inum).write off (src.take CHUNK)).1 = .done (src.take CHUNK).length)
    (full : available sb fs.disk + blocks (files sb fs.disk inum).bytes.length <
      blocks (off + (src.take CHUNK).length)) :
    sb.nblocks < needs sb.ninodes (Function.update (files sb fs.disk) inum
      ((files sb fs.disk inum).stream off src).2.1) := by
  have conserved := sound.conserved
  have changed := needs_update (files sb fs.disk) inside ((files sb fs.disk inum).stream off src).2.1
  generalize files sb fs.disk inum = content at *
  unfold File.write at done
  split_ifs at done with device refused
  rw [stream_pieces present (by omega) device (by omega)] at changed ⊢
  have reach : off + (src.take CHUNK).length ≤ (content.splice off (src.take CHUNK)).bytes.length := by
    simp only [File.splice, List.length_append, List.length_take, List.length_drop] at *
    omega
  have more := blocks_mono (reach.trans (@stream_grows (src.drop CHUNK) _ (off + (src.take CHUNK).length)))
  omega

/-- The loop of filewrite. The number of bytes is enough fuel, since no piece is empty. -/
theorem writeChunks_ensures (fuel : Nat) (sound : Sound sb fs.disk) (inside : f.inum < sb.ninodes)
    (within : f.off ≤ MAXFILE * BSIZE) (short : src.length < 2 ^ 32) (enough : src.length ≤ fuel) :
    Ensures (writeChunks sb fuel f src) fs
      (fun result after => Sound sb after.disk ∧
        ¬ (src ≠ [] ∧ (files sb fs.disk f.inum).type = 0) ∧
        result.1 = ((files sb fs.disk f.inum).stream f.off src).1 ∧
        files sb after.disk = Function.update (files sb fs.disk) f.inum
          ((files sb fs.disk f.inum).stream f.off src).2.1 ∧
        result.2 = { f with off := ((files sb fs.disk f.inum).stream f.off src).2.2 })
      (fun reason => reason = .outOfBlocks ∧
          ¬ (src ≠ [] ∧ (files sb fs.disk f.inum).type = 0) ∧
          sb.nblocks < needs sb.ninodes (Function.update (files sb fs.disk) f.inum
            ((files sb fs.disk f.inum).stream f.off src).2.1) ∨
        reason = .noType ∧ src ≠ [] ∧ (files sb fs.disk f.inum).type = 0) := by
  induction fuel generalizing fs f src with
  | zero =>
    obtain rfl := List.eq_nil_of_length_eq_zero (Nat.le_zero.mp enough)
    refine ⟨sound, by simp, rfl, ?_, rfl⟩
    exact (Function.update_eq_self _ _).symm
  | succ fuel inductionHypothesis =>
    rw [writeChunks, ensures_ite]
    split_ifs with empty
    · obtain rfl := List.eq_nil_of_length_eq_zero empty
      refine ⟨sound, by simp, rfl, ?_, rfl⟩
      exact (Function.update_eq_self _ _).symm
    · have present : src ≠ [] := fun none => empty (by rw [none]; rfl)
      rw [ensures_bind, ensures_ilock inside]
      split_ifs with idle
      · exact .inr ⟨rfl, present, idle⟩
      · have piece : (src.take CHUNK).length ≤ src.length := List.length_take_le' _ _
        rw [ensures_bind]
        refine (writei_ensures sound inside idle (within.trans_lt MAXFILE_small) (by omega)).mono
          (fun result after wrote => ?_) fun _ stopped => .inl ⟨stopped.1, by tauto, ?_⟩
        swap
        · obtain ⟨-, done, full⟩ := stopped
          exact stream_needs sound inside present done full
        obtain ⟨sound', rfl, files'⟩ := wrote
        generalize before : files sb fs.disk f.inum = content at files' idle ⊢
        by_cases device : content.type = T_DEV
        · simp only [File.write, if_pos device] at files' ⊢
          rw [File.stream, if_neg present, if_pos device]
          exact ⟨sound', by tauto, rfl, files', rfl⟩
        by_cases refused : content.bytes.length < f.off ∨ MAXFILE * BSIZE < f.off + (src.take CHUNK).length
        · simp only [File.write, if_neg device, if_pos refused] at files' ⊢
          rw [File.stream, if_neg present, if_neg device]
          by_cases late : content.bytes.length < f.off
          · rw [if_pos late]
            exact ⟨sound', by tauto, rfl, files', rfl⟩
          · have nothing : accepted f.off src.length = 0 := accepted_none within (by
              rw [List.length_take] at refused
              omega)
            rw [if_neg late, nothing, if_neg (Ne.symm empty), List.take_zero, splice_nil]
            exact ⟨sound', by tauto, rfl, files', rfl⟩
        · simp only [File.write, if_neg device, if_neg refused] at files' ⊢
          have fits : f.off + (src.take CHUNK).length ≤ MAXFILE * BSIZE := by omega
          rw [if_true, stream_pieces present (by omega) device fits]
          have here : files sb after.disk f.inum = content.splice f.off (src.take CHUNK) := by
            rw [files', Function.update_self]
            rfl
          have left : (src.drop CHUNK).length ≤ src.length - 1 := by
            have positive : 0 < CHUNK := by decide
            rw [List.length_drop]
            omega
          have rest := @inductionHypothesis after
            { f with off := f.off + (src.take CHUNK).length } (src.drop CHUNK) sound' inside
            fits (by omega) (by omega)
          rw [here] at rest
          refine rest.mono (fun result last written => ?_) fun reason stopped => ?_
          · obtain ⟨sound'', -, reply, files'', opened⟩ := written
            refine ⟨sound'', by tauto, reply, ?_, opened⟩
            rw [files'', files', Function.update_idem]
          · rw [files', Function.update_idem] at stopped
            exact stopped.imp (fun ⟨full, _, more⟩ => ⟨full, by tauto, more⟩)
              fun ⟨_, _, typeless⟩ => absurd typeless idle

/-- An inode without addresses and bytes is put in its place. -/
theorem Sound.clear {disk' : Nat → Block} {ip : Inode} (sound : Sound sb fs.disk)
    (none : ip.addrs = fun _ => 0) (size : ip.size = 0)
    (table : dinode sb disk' = Function.update (dinode sb fs.disk) inum ip)
    (volume : Volume sb (dinode sb disk') disk') (kept : ∀ c, sb.nmeta ≤ c → disk' c = fs.disk c) :
    Sound sb disk' ∧ files sb disk' = Function.update (files sb fs.disk) inum
      ⟨ip.type, ip.major, ip.minor, ip.nlink, []⟩ := by
  have absent : ∀ k, ip.addr k = 0 := fun k => by simp [Inode.addr, none]
  have filled : Filled (dinode sb disk') disk' inum ip.size.toNat := by
    rw [size]
    refine ⟨Nat.zero_le _, fun bn _ => ?_, ?_⟩
    · have zero : held (dinode sb disk') disk' (inum, place bn) = Option.none := by
        rw [held_none_iff, table, Function.update_self, Inode.entry, absent, absent, if_pos rfl, ite_self]
      simp [zero]
    · rw [table, Function.update_self, absent]
      simp
  have changed := sound.change table volume filled (fun _ => none)
    (fun slot other => held_congr (by rw [table, Function.update_of_ne other]) fun c refers =>
      kept c (sound.volume.data refers))
    fun slot c _ refers => kept c (sound.volume.data refers)
  refine ⟨changed.1, changed.2.trans ?_⟩
  simp only [file, size]
  rfl

/-- A freed inode has no type and no bytes. -/
theorem erase_ensures (sound : Sound sb fs.disk) (inside : inum < sb.ninodes) :
    Ensures (erase sb inum (dinode sb fs.disk inum)) fs
      (fun _ after => Sound sb after.disk ∧ files sb after.disk =
        Function.update (files sb fs.disk) inum { files sb fs.disk inum with type := 0, bytes := [] })
      (fun _ => False) := by
  rw [erase, ensures_bind]
  refine (itrunc_ensures inside sound.volume).mono (fun ip mid done => ?_) fun _ stopped => stopped
  obtain ⟨fields, volume, table, kept⟩ := done
  obtain ⟨sound', files'⟩ := sound.clear (by rw [fields]) (by rw [fields]) table volume kept
  simp only [iupdate, ensures_bind, ensures_bread, ensures_log_write]
  have here : dinode sb mid.disk inum = ip := by rw [table, Function.update_self]
  have written := @Sound.iupdate sb mid inum { ip with type := 0 } sound' inside (by rw [here])
    (by rw [here]) (fun _ => by rw [fields]) _ rfl
  refine ⟨written.1, written.2.trans ?_⟩
  rw [files', Function.update_idem, Function.update_self, fields]
  rfl

/-- The last iput of an inode: without links it is freed. -/
theorem discard_ensures (sound : Sound sb fs.disk) (inside : inum < sb.ninodes) :
    Ensures (discard sb inum) fs
      (fun _ after => Sound sb after.disk ∧ (files sb fs.disk inum).type ≠ 0 ∧
        files sb after.disk = if (files sb fs.disk inum).nlink = 0 then
            Function.update (files sb fs.disk) inum { files sb fs.disk inum with type := 0, bytes := [] }
          else files sb fs.disk)
      (fun reason => reason = .noType ∧ (files sb fs.disk inum).type = 0) := by
  have links : (files sb fs.disk inum).nlink = (dinode sb fs.disk inum).nlink := rfl
  rw [discard, ensures_bind, ensures_ilock inside, links]
  split_ifs with idle linked
  · exact ⟨rfl, idle⟩
  · exact (erase_ensures sound inside).mono (fun _ _ done => ⟨done.1, idle, done.2⟩) fun _ stopped =>
      stopped.elim
  · exact ⟨sound, idle, rfl⟩

/-- fileread changes nothing on the disk. -/
theorem fileread_run (sound : Sound sb fs.disk) (inside : f.inum < sb.ninodes) (short : n < 2 ^ 32) :
    (fileread sb f n).run fs =
      if f.readable = false then .ok ((.refused, f), fs)
      else if (files sb fs.disk f.inum).type = 0 then .error .noType
      else match (files sb fs.disk f.inum).read f.off n with
        | .done dst => .ok ((.done dst, { f with off := f.off + dst.length }), fs)
        | .refused => .ok ((.refused, f), fs)
        | .device => .ok ((.device, f), fs) := by
  have type : (files sb fs.disk f.inum).type = (dinode sb fs.disk f.inum).type := rfl
  unfold fileread
  split_ifs with locked idle
  · rfl
  · rw [run_bind_error (by rw [ilock_run inside, ← type, if_pos idle])]
  · rw [run_bind_ok (by rw [ilock_run inside, ← type, if_neg idle]), run_bind_ok (readi_run sound short)]
    cases (files sb fs.disk f.inum).read f.off n <;> rfl

/-- An inode is locked and written back with the same type, addresses and size. -/
theorem relabel_ensures (sound : Sound sb fs.disk) (inside : inum < sb.ninodes) {change : Inode → Inode}
    (type : ∀ ip, (change ip).type = ip.type) (addrs : ∀ ip, (change ip).addrs = ip.addrs)
    (size : ∀ ip, (change ip).size = ip.size) :
    Ensures (ilock sb inum >>= fun ip => iupdate sb inum (change ip)) fs
      (fun _ after => Sound sb after.disk ∧ (files sb fs.disk inum).type ≠ 0 ∧
        files sb after.disk = Function.update (files sb fs.disk) inum
          { files sb fs.disk inum with
            major := (change (dinode sb fs.disk inum)).major
            minor := (change (dinode sb fs.disk inum)).minor
            nlink := (change (dinode sb fs.disk inum)).nlink })
      (fun reason => reason = .noType ∧ (files sb fs.disk inum).type = 0) := by
  rw [ensures_bind, ensures_ilock inside]
  split_ifs with idle
  · exact ⟨rfl, idle⟩
  · simp only [iupdate, ensures_bind, ensures_bread, ensures_log_write]
    have written := @Sound.iupdate sb fs inum (change (dinode sb fs.disk inum)) sound inside
      (addrs _) (size _) (fun free => absurd ((type _).symm.trans free) idle) _ rfl
    refine ⟨written.1, idle, written.2.trans ?_⟩
    rw [type]
    rfl

/-- The open files refer to inodes of the table, at offsets that a file can have. -/
def Openings (sb : Superblock) (opened : Nat → OpenFile) : Prop :=
  ∀ fd, (opened fd).inum < sb.ninodes ∧ (opened fd).off ≤ MAXFILE * BSIZE

theorem Openings.update {opened : Nat → OpenFile} {fd : Nat} (openings : Openings sb opened)
    (inside : f.inum < sb.ninodes) (within : f.off ≤ MAXFILE * BSIZE) :
    Openings sb (Function.update opened fd f) := by
  intro other
  by_cases same : other = fd
  · rw [same, Function.update_self]
    exact ⟨inside, within⟩
  · rw [Function.update_of_ne same]
    exact openings other

/-- A call answers like the table of files, and leaves a sound volume with the table's files. It
stops where the table stops. -/
theorem serve_ensures {opened : Nat → OpenFile} {request : Request} (sound : Sound sb fs.disk)
    (openings : Openings sb opened) (valid : request.Valid sb) :
    Ensures (serve sb opened request) fs
      (fun result after => Sound sb after.disk ∧ Openings sb result.2 ∧
        respond sb.ninodes sb.nblocks ⟨files sb fs.disk, opened⟩ request =
          .ok (result.1, ⟨files sb after.disk, result.2⟩))
      (fun reason => reason ∈ [FsPanic.outOfBlocks, .noInodes, .noType] ∧
        respond sb.ninodes sb.nblocks ⟨files sb fs.disk, opened⟩ request = .error reason) := by
  cases request with
  | create type major minor =>
    rw [serve, ensures_bind]
    refine (ialloc_ensures sound type).mono (fun inum mid taken => ?_) fun reason stopped => ?_
    · obtain ⟨free, inside, sound', files'⟩ := taken
      have typed : (files sb mid.disk inum).type = type := by rw [files', Function.update_self]
      rw [← bind_assoc, ensures_bind]
      refine (@relabel_ensures sb mid inum sound' inside
        (fun ip => { ip with major := major, minor := minor, nlink := 1 })
        (fun _ => rfl) (fun _ => rfl) fun _ => rfl).mono
        (fun _ after done => ?_) fun reason stopped => ?_
      · obtain ⟨sound'', idle, files''⟩ := done
        rw [typed] at idle
        rw [files', Function.update_idem, Function.update_self] at files''
        refine ⟨sound'', openings, ?_⟩
        simp only [respond, free, if_neg idle, files'', Store.put]
      · obtain ⟨rfl, idle⟩ := stopped
        rw [typed] at idle
        exact ⟨by simp, by simp only [respond, free, if_pos idle]⟩
    · obtain ⟨rfl, none⟩ := stopped
      exact ⟨by simp, by simp only [respond, none]⟩
  | link inum =>
    rw [serve, ← bind_assoc, ensures_bind]
    refine (@relabel_ensures sb fs inum sound valid (fun ip => { ip with nlink := ip.nlink + 1 })
      (fun _ => rfl) (fun _ => rfl) fun _ => rfl).mono
      (fun _ after done => ?_) fun reason stopped => ?_
    · obtain ⟨sound', typed, files'⟩ := done
      refine ⟨sound', openings, ?_⟩
      simp only [respond, if_neg typed, files']
      rfl
    · obtain ⟨rfl, idle⟩ := stopped
      exact ⟨by simp, by simp only [respond, if_pos idle]⟩
  | unlink inum =>
    rw [serve, ← bind_assoc, ensures_bind]
    refine (@relabel_ensures sb fs inum sound valid (fun ip => { ip with nlink := ip.nlink - 1 })
      (fun _ => rfl) (fun _ => rfl) fun _ => rfl).mono
      (fun _ after done => ?_) fun reason stopped => ?_
    · obtain ⟨sound', typed, files'⟩ := done
      refine ⟨sound', openings, ?_⟩
      simp only [respond, if_neg typed, files']
      rfl
    · obtain ⟨rfl, idle⟩ := stopped
      exact ⟨by simp, by simp only [respond, if_pos idle]⟩
  | discard inum =>
    rw [serve, ensures_bind]
    refine (discard_ensures sound valid).mono (fun _ after done => ?_) fun reason stopped => ?_
    · obtain ⟨sound', typed, files'⟩ := done
      refine ⟨sound', openings, ?_⟩
      simp only [respond, if_neg typed, files']
      split_ifs <;> rfl
    · obtain ⟨rfl, idle⟩ := stopped
      exact ⟨by simp, by simp only [respond, if_pos idle]⟩
  | openFile fd inum readable writable =>
    refine ⟨sound, openings.update valid (Nat.zero_le _), rfl⟩
  | read fd n =>
    have inside := (openings fd).1
    have length := files_length sb fs.disk (opened fd).inum
    have fits := (sound.filled (opened fd).inum).fits
    rw [serve, ensures_bind]
    unfold Ensures
    rw [fileread_run sound inside valid]
    simp only [respond]
    split_ifs with locked idle
    · exact ⟨sound, openings.update inside (openings fd).2, by rw [Function.update_eq_self]⟩
    · exact ⟨by simp, rfl⟩
    · generalize answer : (files sb fs.disk (opened fd).inum).read (opened fd).off n = reply
      cases reply with
      | refused => exact ⟨sound, openings.update inside (openings fd).2, by rw [Function.update_eq_self]⟩
      | device => exact ⟨sound, openings.update inside (openings fd).2, by rw [Function.update_eq_self]⟩
      | done dst =>
        have reach := read_reach answer
        exact ⟨sound, openings.update inside (by change (opened fd).off + dst.length ≤ _; omega), rfl⟩
  | write fd src =>
    have inside := (openings fd).1
    rw [serve, filewrite]
    by_cases locked : (opened fd).writable = false
    · rw [if_pos locked]
      refine ⟨sound, openings.update inside (openings fd).2, ?_⟩
      simp only [respond, if_pos locked, Function.update_eq_self]
    · have short : src.length < 2 ^ 32 := lt_trans valid (by decide)
      rw [if_neg locked, ensures_bind, ensures_bind]
      refine (writeChunks_ensures src.length sound inside (openings fd).2 short le_rfl).mono
        (fun result after done => ?_) fun reason stopped => ?_
      · obtain ⟨sound', typed, reply, files', opened'⟩ := done
        refine ⟨sound', openings.update (by rw [opened']; exact inside) ?_, ?_⟩
        · rw [opened']
          exact stream_within (openings fd).2
        · have fits := sound'.fits
          rw [files'] at fits
          simp only [respond, if_neg locked, if_neg typed]
          refine (if_neg (Nat.not_lt.mpr fits)).trans ?_
          rw [files', reply, opened']
          rfl
      · rcases stopped with ⟨rfl, typed, full⟩ | ⟨rfl, present, idle⟩
        · refine ⟨by simp, ?_⟩
          simp only [respond, if_neg locked, if_neg typed]
          exact if_pos full
        · refine ⟨by simp, ?_⟩
          simp only [respond, if_neg locked]
          rw [if_pos ⟨present, idle⟩]

/-- The requests one after the other. The induction is on the requests that are left. -/
theorem serveAll_ensures {opened : Nat → OpenFile} {requests : List Request} (sound : Sound sb fs.disk)
    (openings : Openings sb opened) (valid : ∀ request ∈ requests, request.Valid sb) :
    Ensures (serveAll sb opened requests) fs
      (fun result after => Sound sb after.disk ∧ Openings sb result.2 ∧
        respondAll sb.ninodes sb.nblocks ⟨files sb fs.disk, opened⟩ requests =
          .ok (result.1, ⟨files sb after.disk, result.2⟩))
      (fun reason => reason ∈ [FsPanic.outOfBlocks, .noInodes, .noType] ∧
        respondAll sb.ninodes sb.nblocks ⟨files sb fs.disk, opened⟩ requests = .error reason) := by
  induction requests generalizing fs opened with
  | nil => exact ⟨sound, openings, rfl⟩
  | cons request rest inductionHypothesis =>
    rw [serveAll, ensures_bind]
    refine (serve_ensures sound openings (valid _ List.mem_cons_self)).mono
      (fun result after done => ?_) fun reason stopped => ⟨stopped.1, ?_⟩
    · obtain ⟨sound', openings', answer⟩ := done
      obtain ⟨response, opened'⟩ := result
      rw [ensures_bind]
      refine (inductionHypothesis sound' openings' fun request member =>
        valid request (List.mem_cons_of_mem _ member)).mono (fun others last answers => ?_)
        fun reason stopped => ⟨stopped.1, ?_⟩
      · refine ⟨answers.1, answers.2.1, ?_⟩
        rw [respondAll, answer]
        change respondAll _ _ _ rest >>= _ = _
        rw [answers.2.2]
        rfl
      · rw [respondAll, answer]
        change respondAll _ _ _ rest >>= _ = _
        rw [stopped.2]
        rfl
    · rw [respondAll, stopped.2]
      rfl

/-- Any requests in any order: the calls answer like the table of files, and the volume stays sound. -/
theorem requests_refine {opened : Nat → OpenFile} {requests : List Request} (sound : Sound sb fs.disk)
    (openings : Openings sb opened) (valid : ∀ request ∈ requests, request.Valid sb) :
    Ensures (serveAll sb opened requests) fs
      (fun result after => Sound sb after.disk ∧
        respondAll sb.ninodes sb.nblocks ⟨files sb fs.disk, opened⟩ requests =
          .ok (result.1, ⟨files sb after.disk, result.2⟩))
      (fun reason => reason ∈ [FsPanic.outOfBlocks, .noInodes, .noType] ∧
        respondAll sb.ninodes sb.nblocks ⟨files sb fs.disk, opened⟩ requests = .error reason) :=
  (serveAll_ensures sound openings valid).mono (fun _ _ done => ⟨done.1, done.2.2⟩) fun _ stopped => stopped

end Service

/-! ## An empty volume -/

/-- The free map with the first blocks marked, as balloc of mkfs writes it. -/
def firstMarked (used : Nat) : Block := (List.range used).foldl Block.setBit fun _ => 0

/-- A volume without files. -/
def formatted (sb : Superblock) (blockno : Nat) : Block :=
  if blockno = sb.bmapstart then firstMarked sb.nmeta else fun _ => 0

theorem bit_firstMarked {used : Nat} (small : used ≤ BPB) (bi : Nat) :
    (firstMarked used).bit bi = decide (bi < used) := by
  induction used with
  | zero =>
    have zero : (firstMarked 0).byte (bi / 8) = 0 := by
      simp [firstMarked, Block.byte, Block.word, byteOf]
    simp [Block.bit, zero]
  | succ used inductionHypothesis =>
    have step : firstMarked (used + 1) = (firstMarked used).setBit used := by
      rw [firstMarked, List.range_succ, List.foldl_append]
      rfl
    rw [step, Block.bit_setBit _ small, inductionHypothesis (Nat.le_of_succ_le small), ← Bool.decide_or]
    exact decide_eq_decide.mpr (by omega)

/-- If one block holds the free map, the volume is sound. -/
theorem formatted_sound {sb : Superblock} (one : sb.size ≤ BPB) : Sound sb (formatted sb) := by
  have inodes : dinode sb (formatted sb) = fun _ => .blank := by
    funext inum
    unfold dinode
    split_ifs with inside
    · rw [formatted, if_neg (IBLOCK_lt inside).ne]
      simp [Block.inode, Block.word, Inode.blank]
    · rfl
  have absent : ∀ slot, held (dinode sb (formatted sb)) (formatted sb) slot = none := by
    intro slot
    have zero : ∀ i, Inode.blank.addr i = 0 := by simp [Inode.addr, Inode.blank]
    rw [held_none_iff, inodes, Inode.entry, zero, zero, if_pos rfl, ite_self]
  refine ⟨⟨?_, ?_, ?_, ?_⟩, fun inum => ?_, fun inum _ => by rw [inodes]; rfl⟩
  · exact fun i _ b refers => by simp [absent] at refers
  · exact fun i b refers => by simp [absent] at refers
  · exact fun i b refers => by simp [absent] at refers
  · intro b inside
    have within : b < BPB := Nat.lt_of_lt_of_le inside one
    have map : sb.BBLOCK b = sb.bmapstart := by
      rw [Superblock.BBLOCK, Nat.div_eq_of_lt within, Nat.zero_add]
    have small : sb.nmeta ≤ BPB := (@nmeta_le_size sb).trans one
    rw [marked, map, formatted, if_pos rfl, Nat.mod_eq_of_lt within, bit_firstMarked small]
    simp [absent]
  · have size : (dinode sb (formatted sb) inum).size.toNat = 0 := by
      rw [inodes]
      rfl
    rw [size]
    refine ⟨Nat.zero_le _, fun bn _ => by simp [absent], ?_⟩
    rw [inodes]
    simp [Inode.addr, Inode.blank]

/-- A file is made, written, read, unlinked and freed, and its inode is used again. -/
def session : List Request :=
  [.create 2 0 0, .openFile 3 1 true true, .write 3 [104, 105, 33], .openFile 4 1 true false,
    .read 4 10, .unlink 1, .discard 1, .create 2 0 0]

theorem requests_refine_session :
    Ensures (serveAll mkfsSuperblock (fun _ => ⟨0, 0, false, false⟩) session)
      ⟨formatted mkfsSuperblock, []⟩
      (fun result after => Sound mkfsSuperblock after.disk ∧
        result.1 = [.created 1, .none, .wrote (.done 3), .none, .read (.done [104, 105, 33]), .none, .none,
          .created 1])
      (fun _ => False) := by
  have answers : (respondAll 200 941 ⟨files mkfsSuperblock (formatted mkfsSuperblock),
      fun _ => ⟨0, 0, false, false⟩⟩ session).toOption.map (·.1) = some [.created 1, .none,
        .wrote (.done 3), .none, .read (.done [104, 105, 33]), .none, .none, .created 1] := by
    decide +kernel
  refine (requests_refine (formatted_sound (by decide)) ?_ ?_).mono ?_ ?_
  · exact fun _ => ⟨by decide, Nat.zero_le _⟩
  · simp [session, Request.Valid, mkfsSuperblock]
  · rintro result after ⟨sound, computed⟩
    refine ⟨sound, ?_⟩
    rw [show respondAll 200 941 _ session = _ from computed] at answers
    exact Option.some.inj answers
  · rintro reason ⟨-, computed⟩
    rw [show respondAll 200 941 _ session = _ from computed] at answers
    cases answers

/-! ## The share of a call in the log -/

section Share

variable {sb : Superblock} {fs fs' : Fs} {table : Nat → Inode} {ip : Inode} {inum length off : Nat}
  {src : List Byte}

/-- If one block holds the free map, a piece changes that block, the indirect block and at most four
blocks of the file. -/
theorem Wrote.few (wrote : Wrote sb table inum length off src fs fs' ip) (one : sb.size ≤ BPB)
    (piece : src.length ≤ CHUNK) :
    ∃ writes, fs'.logged = fs.logged ++ writes ∧ writes.toFinset.card ≤ 6 := by
  obtain ⟨writes, shape, each⟩ := wrote.logged
  refine ⟨writes, shape, ?_⟩
  generalize held (Function.update table inum ip) fs'.disk = refers at each
  have covered : writes.toFinset ⊆ insert sb.bmapstart (insert ((refers (inum, NDIRECT)).getD 0)
      ((Finset.Ico (off / BSIZE) (off / BSIZE + 4)).image fun bn => (refers (inum, place bn)).getD 0)) := by
    intro c member
    simp only [Finset.mem_insert, Finset.mem_image]
    obtain ⟨b, small, rfl⟩ | indirect | ⟨bn, first, last, data⟩ := each c (List.mem_toFinset.mp member)
    · left
      rw [Superblock.BBLOCK, Nat.div_eq_of_lt (by omega), Nat.zero_add]
    · exact .inr (.inl (by rw [indirect]; rfl))
    · have near : bn < off / BSIZE + 4 := by
        have short : src.length ≤ 3 * 512 := piece
        simp only [BSIZE] at last ⊢
        omega
      right
      right
      exact ⟨bn, Finset.mem_Ico.mpr ⟨first, near⟩, by rw [data, Option.getD_some]⟩
  have data := (Finset.card_image_le (s := Finset.Ico (off / BSIZE) (off / BSIZE + 4))
    (f := fun bn => (refers (inum, place bn)).getD 0)).trans_eq (Nat.card_Ico _ _)
  have indirect := (Finset.card_insert_le ((refers (inum, NDIRECT)).getD 0)
    ((Finset.Ico (off / BSIZE) (off / BSIZE + 4)).image fun bn => (refers (inum, place bn)).getD 0))
  have map := (Finset.card_le_card covered).trans (Finset.card_insert_le _ _)
  omega

/-- A piece of filewrite changes at most seven blocks, the inode included: it leaves three of its share
of the log. -/
theorem writei_modest (sound : Sound sb fs.disk) (one : sb.size ≤ BPB) (piece : src.length ≤ CHUNK) :
    Ensures (writei sb inum (dinode sb fs.disk inum) off src) fs
      (fun _ after => ∃ writes, after.logged = fs.logged ++ writes ∧ writes.toFinset.card + 3 ≤ MAXOPBLOCKS)
      (fun reason => reason = .outOfBlocks) := by
  have nothing : ∃ writes, fs.logged = fs.logged ++ writes ∧ writes.toFinset.card + 3 ≤ MAXOPBLOCKS :=
    ⟨[], (List.append_nil _).symm, by decide⟩
  rw [writei]
  split_ifs with device late long
  · exact nothing
  · exact nothing
  · exact nothing
  · have start : off ≤ (dinode sb fs.disk inum).size.toNat := by omega
    rw [ensures_bind]
    refine (writeLoop_ensures src.length sound.volume (sound.filled inum) start le_rfl
      (by omega)).mono (fun ip mid wrote => ?_) fun _ stopped => stopped.1
    obtain ⟨writes, shape, few⟩ := wrote.few one piece
    rw [ensures_ite]
    split_ifs
    · simp only [iupdate, ensures_bind, ensures_bread, ensures_log_write, ensures_pure, log_logged]
      refine ⟨writes ++ [sb.IBLOCK inum], by rw [shape, List.append_assoc], ?_⟩
      have last := List.toFinset_card_le [sb.IBLOCK inum]
      rw [List.toFinset_append]
      exact Nat.add_le_add_right ((Finset.card_union_le _ _).trans (Nat.add_le_add few last)) 3
    · exact ⟨writes, shape, (Nat.add_le_add_right few 3).trans (by decide)⟩

theorem writei_modest_formatted :
    Ensures (writei mkfsSuperblock 1 (dinode mkfsSuperblock (formatted mkfsSuperblock) 1) 0 [104])
      ⟨formatted mkfsSuperblock, []⟩ (fun _ after => after.logged.toFinset.card + 3 ≤ MAXOPBLOCKS)
      (fun reason => reason = .outOfBlocks) := by
  refine (@writei_modest mkfsSuperblock ⟨formatted mkfsSuperblock, []⟩ 1 0 [104]
    (formatted_sound (by decide)) (by decide) (by decide)).mono (fun _ after done => ?_)
    fun _ stopped => stopped
  obtain ⟨writes, shape, few⟩ := done
  rw [shape, List.nil_append]
  exact few

end Share

end Cs537.Filesystem.Fs
