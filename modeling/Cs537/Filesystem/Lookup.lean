import Cs537.Filesystem.Directories

/-!
# Inodes in use and the entries of directories

An inode that is in use has a number of references. `iget` and `idup` add one and `iput`
drops one; the last reference to an inode without links frees it. The fields of an inode
in memory are those on the disk, since every change is written back before the inode is
unlocked; `valid` says whether they have been read. One call runs at a time: the locks of
inodes are left out.

`dirlookup`, `dirlink` and `isdirempty` go through the entries of a directory. On a sound
volume they do what the entries of its file say.
-/

namespace Cs537.Filesystem

open Programs

/-- The disk as the calls see it, the inodes in use, and how many places the inode cache has left. -/
structure Kernel where
  fs : Fs
  ref : Nat → Nat
  valid : Nat → Bool
  free : Nat

/-- What a system call does to the kernel. -/
abbrev Op := Program Kernel FsPanic

namespace Kernel

open Fs

/-- A function that works on the disk. -/
def onFs {α : Type} (call : Call α) : Op α := fun k => do
  let (result, fs) ← call.run k.fs
  return (result, { k with fs := fs })

theorem ensures_onFs {α : Type} {call : Call α} {k : Kernel} {post : α → Kernel → Prop}
    {stop : FsPanic → Prop} : Ensures (onFs call) k post stop ↔
      Ensures call k.fs (fun result fs => post result { k with fs := fs }) stop := by
  have runs : (onFs call).run k = call.run k.fs >>= fun made =>
      .ok (made.1, { k with fs := made.2 }) := rfl
  unfold Ensures
  rw [runs]
  cases call.run k.fs <;> rfl

section Functions

variable (sb : Superblock)

/-- A new reference. An inode that was not in use takes a new place in memory. -/
def hold (k : Kernel) (inum : Nat) : Kernel where
  fs := k.fs
  ref := Function.update k.ref inum (k.ref inum + 1)
  valid := if k.ref inum = 0 then Function.update k.valid inum false else k.valid
  free := if k.ref inum = 0 then k.free - 1 else k.free

def iget (inum : Nat) : Op Unit := do
  let k ← get
  if k.ref inum = 0 ∧ k.free = 0 then throw .cacheFull else set (k.hold inum)

def idup (inum : Nat) : Op Unit := modify fun k =>
  { k with ref := Function.update k.ref inum (k.ref inum + 1) }

def ilock (inum : Nat) : Op Inode := do
  let k ← get
  if k.valid inum = true then return dinode sb k.fs.disk inum
  else
    let ip ← onFs (Fs.ilock sb inum)
    modify fun k => { k with valid := Function.update k.valid inum true }
    return ip

/-- The end of iput. -/
def drop (inum : Nat) : Op Unit := modify fun k =>
  { k with
    ref := Function.update k.ref inum (k.ref inum - 1)
    free := if k.ref inum = 1 then k.free + 1 else k.free }

def iput (inum : Nat) : Op Unit := do
  let k ← get
  let ip := dinode sb k.fs.disk inum
  if k.valid inum = true ∧ ip.nlink = 0 ∧ k.ref inum = 1 then
    onFs (erase sb inum ip)
    modify fun k => { k with valid := Function.update k.valid inum false }
    drop inum
  else drop inum

/-- The loop over the entries of a directory from an offset on, up to the first one that is looked
for. -/
def scandir (reason : FsPanic) (hit : Dirent → Bool) (dp : Inode) (start : Nat) :
    Call (Option (Dirent × Nat) × Inode) := do
  let found ← scan (fun dp k => do
    let (r, dp) ← readi sb dp (DIRENT * k) DIRENT
    match r with
    | .done bytes =>
      if bytes.length ≠ DIRENT then throw reason
      else if hit (.ofBytes bytes) then return .inr (Dirent.ofBytes bytes, DIRENT * k, dp)
      else return .inl dp
    | .refused | .device => throw reason) dp
    (List.range' start ((dp.size.toNat + DIRENT - 1) / DIRENT - start))
  match found with
  | .inl dp => return (none, dp)
  | .inr (de, off, dp) => return (some (de, off), dp)

/-- The inode number and the offset of the entry, whose inode is then in use. -/
def dirlookup (dp : Inode) (name : List Byte) : Op (Option (Nat × Nat) × Inode) := do
  if dp.type ≠ T_DIR then throw .lookupNotDir
  else
    let (found, dp) ← onFs (scandir sb .lookupRead (fun de => de.inum ≠ 0 ∧ namecmp name de.name = 0) dp 0)
    match found with
    | none => return (none, dp)
    | some (de, off) =>
      iget de.inum.toNat
      return (some (de.inum.toNat, off), dp)

/-- Whether the entry was written. -/
def dirlink (dpnum : Nat) (dp : Inode) (name : List Byte) (inum : Nat) : Op (Bool × Inode) := do
  let (found, dp) ← dirlookup sb dp name
  match found with
  | some (ip, _) =>
    iput sb ip
    return (false, dp)
  | none =>
    let (empty, dp) ← onFs (scandir sb .linkRead (fun de => de.inum = 0) dp 0)
    let off := match empty with
      | some (_, off) => off
      | none => DIRENT * ((dp.size.toNat + DIRENT - 1) / DIRENT)
    let de : Dirent := ⟨BitVec.ofNat 16 inum, strncpy DIRSIZ name⟩
    let (r, dp) ← onFs (writei sb dpnum dp off de.bytes)
    if r = .done DIRENT then return (true, dp) else throw .dirlink

def isdirempty (dp : Inode) : Op (Bool × Inode) := do
  let (found, dp) ← onFs (scandir sb .emptyRead (fun de => de.inum ≠ 0) dp 2)
  return (found.isNone, dp)

end Functions

/-! ## Entries of a file -/

section Entries

variable {sb : Superblock} {fs : Fs} {k : Kernel} {inum start : Nat} {hit : Dirent → Bool} {f : File}

/-- The rounds of the loops are the entries of the file. -/
theorem rounds_entries {disk : Nat → Block} (whole : DIRENT ∣ (files sb disk inum).bytes.length) :
    ((dinode sb disk inum).size.toNat + DIRENT - 1) / DIRENT = (files sb disk inum).entries := by
  rw [File.entries, ← files_length]
  obtain ⟨m, whole⟩ := whole
  simp only [whole, DIRENT]
  omega

/-- The loop over the entries finds the first entry of the file that is looked for. -/
theorem scandir_ensures (sound : Fs.Sound sb fs.disk) (reason : FsPanic)
    (file : (files sb fs.disk inum).type ≠ T_DEV) (whole : DIRENT ∣ (files sb fs.disk inum).bytes.length) :
    Ensures (scandir sb reason hit (dinode sb fs.disk inum) start) fs
      (fun result after => after = fs ∧ result = (((files sb fs.disk inum).findEntry start hit).map
        fun j => ((files sb fs.disk inum).entry j, DIRENT * j), dinode sb fs.disk inum))
      (fun _ => False) := by
  have length := files_length sb fs.disk inum
  -- Entry `j` of the file, as a read of 16 bytes shows it.
  have reads : ∀ j, j < (files sb fs.disk inum).entries →
      (readi sb (dinode sb fs.disk inum) (DIRENT * j) DIRENT).run fs =
        .ok ((.done (((files sb fs.disk inum).bytes.drop (DIRENT * j)).take DIRENT),
          dinode sb fs.disk inum), fs) ∧
      (((files sb fs.disk inum).bytes.drop (DIRENT * j)).take DIRENT).length = DIRENT := by
    intro j small
    have fits := (sound.filled inum).fits
    have inside : DIRENT * j + DIRENT ≤ (files sb fs.disk inum).bytes.length := by
      obtain ⟨m, whole⟩ := whole
      rw [File.entries] at small
      simp only [whole, DIRENT] at *
      omega
    have answer := @readi_run sb fs inum (DIRENT * j) DIRENT sound (by decide)
    have maximum := MAXFILE_small
    rw [File.read, if_neg file, if_neg (by omega)] at answer
    refine ⟨answer, ?_⟩
    rw [List.length_take, List.length_drop]
    omega
  have within : ∀ j ∈ List.range' start ((files sb fs.disk inum).entries - start),
      j < (files sb fs.disk inum).entries := by
    intro j member
    rw [List.mem_range'_1] at member
    omega
  rw [scandir, ensures_bind, rounds_entries whole]
  apply @ensures_search_within _ _ _ _ _ _ _ _ fun j => hit ((files sb fs.disk inum).entry j)
  · intro j member other
    obtain ⟨answer, size⟩ := reads j (within j member)
    rw [run_bind_ok answer]
    simp only [size, ne_eq, not_true, if_false]
    rw [if_neg (by rw [← File.entry, other]; exact Bool.false_ne_true)]
    rfl
  · intro j first
    obtain ⟨answer, size⟩ := reads j (within j (List.mem_of_find?_eq_some first))
    have here := List.find?_some first
    unfold Ensures
    rw [run_bind_ok answer]
    simp only [size, ne_eq, not_true, if_false]
    rw [if_pos (by rw [← File.entry]; exact here)]
    refine ⟨⟨_, rfl⟩, rfl, ?_⟩
    rw [File.findEntry, first]
    rfl
  · intro none
    refine ⟨rfl, ?_⟩
    rw [File.findEntry, none]
    rfl

end Entries

/-! ## The functions on inodes in use -/

section Functions

variable {sb : Superblock} {k : Kernel} {inum : Nat} {name : List Byte}

/-- The same disk and the same references; what was read of an inode in use is not forgotten. -/
structure Keeps (k k' : Kernel) : Prop where
  fs : k'.fs = k.fs
  ref : k'.ref = k.ref
  valid : ∀ i, k.ref i ≠ 0 → k.valid i = true → k'.valid i = true

theorem Keeps.refl (k : Kernel) : Keeps k k := ⟨rfl, rfl, fun _ _ read => read⟩

theorem Keeps.trans {k' k'' : Kernel} (first : Keeps k k') (second : Keeps k' k'') : Keeps k k'' :=
  ⟨second.fs.trans first.fs, second.ref.trans first.ref,
    fun i used read => second.valid i (first.ref ▸ used) (first.valid i used read)⟩

/-- ilock of an inode that is not free. -/
theorem ilock_ensures (inside : inum < sb.ninodes) (typed : (files sb k.fs.disk inum).type ≠ 0) :
    Ensures (ilock sb inum) k
      (fun ip k' => ip = dinode sb k.fs.disk inum ∧ Keeps k k' ∧ k'.valid inum = true)
      (fun _ => False) := by
  rw [ilock, ensures_bind, ensures_get]
  split_ifs with read
  · exact ⟨rfl, .refl k, read⟩
  · rw [ensures_bind, ensures_onFs, ensures_ilock inside, if_neg typed, ensures_bind, ensures_modify]
    refine ⟨rfl, ⟨rfl, rfl, fun i _ read => ?_⟩, Function.update_self _ _ _⟩
    change Function.update k.valid inum true i = true
    by_cases same : i = inum
    · rw [same, Function.update_self]
    · rw [Function.update_of_ne same]
      exact read

/-- One reference less. The last one to an inode without links frees it. -/
theorem iput_ensures (sound : Fs.Sound sb k.fs.disk) (inside : inum < sb.ninodes) :
    Ensures (iput sb inum) k
      (fun _ k' => Fs.Sound sb k'.fs.disk ∧ k'.ref = Function.update k.ref inum (k.ref inum - 1) ∧
        if k.valid inum = true ∧ (files sb k.fs.disk inum).nlink = 0 ∧ k.ref inum = 1 then
          files sb k'.fs.disk = Function.update (files sb k.fs.disk) inum
            { files sb k.fs.disk inum with type := 0, bytes := [] } ∧
          k'.valid = Function.update k.valid inum false
        else k'.fs = k.fs ∧ k'.valid = k.valid)
      (fun _ => False) := by
  have links : (files sb k.fs.disk inum).nlink = (dinode sb k.fs.disk inum).nlink := rfl
  rw [iput, ensures_bind, ensures_get, links]
  split_ifs with last
  · rw [if_pos last, ensures_bind, ensures_onFs]
    refine (erase_ensures sound inside).mono (fun _ after done => ?_) fun _ stopped => stopped
    rw [ensures_bind, ensures_modify, drop, ensures_modify]
    exact ⟨done.1, rfl, done.2, rfl⟩
  · rw [if_neg last, drop, ensures_modify]
    exact ⟨sound, rfl, rfl, rfl⟩

/-- An inode in use once more than the given references say is given back, and stays: it has links, or
is still in use. -/
theorem iput_ref_ensures {ref : Nat → Nat} (sound : Fs.Sound sb k.fs.disk) (inside : inum < sb.ninodes)
    (used : ∀ i, k.ref i = ref i + [inum].count i)
    (stays : (files sb k.fs.disk inum).nlink ≠ 0 ∨ ref inum ≠ 0) :
    Ensures (iput sb inum) k (fun _ k' => k'.fs = k.fs ∧ k'.ref = ref ∧ k'.valid = k.valid)
      (fun _ => False) := by
  have one : k.ref inum = ref inum + 1 := by simpa using used inum
  have shared : ¬ (k.valid inum = true ∧ (files sb k.fs.disk inum).nlink = 0 ∧ k.ref inum = 1) := by
    rintro ⟨-, unlinked, last⟩
    have used := stays.resolve_left fun linked => linked unlinked
    omega
  refine (iput_ensures sound inside).mono (fun _ after done => ?_) fun _ stopped => stopped
  obtain ⟨-, ref', rest⟩ := done
  rw [if_neg shared] at rest
  refine ⟨rest.1, ?_, rest.2⟩
  rw [ref']
  funext i
  by_cases same : i = inum
  · rw [same, Function.update_self, one, Nat.add_sub_cancel]
  · rw [Function.update_of_ne same, used]
    simp [Ne.symm same]

@[simp] theorem hold_fs (k : Kernel) (inum : Nat) : (k.hold inum).fs = k.fs := rfl

theorem hold_ref (k : Kernel) (inum : Nat) :
    (k.hold inum).ref = Function.update k.ref inum (k.ref inum + 1) := rfl

theorem hold_valid (k : Kernel) (inum : Nat) : (k.hold inum).valid =
    if k.ref inum = 0 then Function.update k.valid inum false else k.valid := rfl

/-- iget takes the inode into use, unless the cache is full. -/
theorem iget_ensures : Ensures (iget inum) k (fun _ k' => k' = k.hold inum)
    (fun reason => reason = .cacheFull) := by
  rw [iget, ensures_bind, ensures_get]
  split_ifs
  · rw [ensures_throw]
  · rw [ensures_set]

/-- dirlookup finds the first entry with the name, and uses its inode. -/
theorem dirlookup_ensures (sound : Fs.Sound sb k.fs.disk) (dir : (files sb k.fs.disk inum).type = T_DIR)
    (whole : DIRENT ∣ (files sb k.fs.disk inum).bytes.length) :
    Ensures (dirlookup sb (dinode sb k.fs.disk inum) name) k
      (fun result k' => match (files sb k.fs.disk inum).lookup name with
        | none => result = (none, dinode sb k.fs.disk inum) ∧ k' = k
        | some j => result = (some (((files sb k.fs.disk inum).entry j).inum.toNat, DIRENT * j),
            dinode sb k.fs.disk inum) ∧ k' = k.hold ((files sb k.fs.disk inum).entry j).inum.toNat)
      (fun reason => reason = .cacheFull) := by
  have type : (files sb k.fs.disk inum).type = (dinode sb k.fs.disk inum).type := rfl
  have file : (files sb k.fs.disk inum).type ≠ T_DEV := by
    rw [dir]
    decide
  rw [dirlookup, ← type, dir, if_neg (by simp), ensures_bind, ensures_onFs]
  refine (scandir_ensures sound .lookupRead file whole).mono (fun result fs done => ?_)
    fun _ stopped => stopped.elim
  obtain ⟨rfl, rfl⟩ := done
  rw [File.lookup]
  cases (files sb k.fs.disk inum).findEntry 0 fun de => de.inum ≠ 0 ∧ namecmp name de.name = 0 with
  | none => exact ⟨rfl, rfl⟩
  | some j =>
    rw [Option.map_some, ensures_bind]
    refine iget_ensures.mono (fun _ k' held => ?_) fun _ stopped => stopped
    exact ⟨rfl, held⟩

/-- A directory is empty if only its first two entries are in use. -/
theorem isdirempty_ensures (sound : Fs.Sound sb k.fs.disk) (dir : (files sb k.fs.disk inum).type = T_DIR)
    (whole : DIRENT ∣ (files sb k.fs.disk inum).bytes.length) :
    Ensures (isdirempty sb (dinode sb k.fs.disk inum)) k
      (fun result k' => k' = k ∧ result.2 = dinode sb k.fs.disk inum ∧
        (result.1 = true ↔ ∀ j, 2 ≤ j → j < (files sb k.fs.disk inum).entries →
          ((files sb k.fs.disk inum).entry j).inum = 0))
      (fun _ => False) := by
  have file : (files sb k.fs.disk inum).type ≠ T_DEV := by
    rw [dir]
    decide
  rw [isdirempty, ensures_bind, ensures_onFs]
  refine (scandir_ensures sound .emptyRead file whole).mono (fun result fs done => ?_)
    fun _ stopped => stopped
  obtain ⟨rfl, rfl⟩ := done
  refine ⟨rfl, rfl, ?_⟩
  rw [Option.isNone_map, Option.isNone_iff_eq_none, File.findEntry_none]
  simp

/-- A call started in a kernel uses these inodes now, besides those that were in use before. -/
structure Using (k k' : Kernel) (held : List Nat) : Prop where
  fs : k'.fs = k.fs
  ref : ∀ i, k'.ref i = k.ref i + held.count i
  valid : ∀ i, k.ref i ≠ 0 → k.valid i = true → k'.valid i = true

namespace Using

variable {k' k'' : Kernel} {held : List Nat}

theorem refl (k : Kernel) : Using k k [] := ⟨rfl, fun _ => rfl, fun _ _ read => read⟩

theorem keeps (uses : Using k k' held) (keeps : Keeps k' k'') : Using k k'' held := by
  refine ⟨keeps.fs.trans uses.fs, fun i => by rw [keeps.ref, uses.ref], fun i used read => ?_⟩
  refine keeps.valid i ?_ (uses.valid i used read)
  rw [uses.ref]
  omega

/-- One more inode. -/
theorem hold (uses : Using k k' held) (inum : Nat) : Using k (k'.hold inum) (inum :: held) := by
  refine ⟨uses.fs, fun i => ?_, fun i used read => ?_⟩
  · rw [hold_ref, List.count_cons]
    by_cases same : i = inum
    · simp only [same, Function.update_self, uses.ref, beq_self_eq_true, if_true]
      omega
    · have other : (inum == i) = false := beq_eq_false_iff_ne.mpr (Ne.symm same)
      simp only [Function.update_of_ne same, uses.ref, other, Bool.false_eq_true, if_false]
      omega
  · rw [hold_valid]
    have before := uses.ref i
    split_ifs with unused
    · have other : i ≠ inum := by
        rintro rfl
        omega
      rw [Function.update_of_ne other]
      exact uses.valid i used read
    · exact uses.valid i used read

/-- One of them less, which is not freed: it has links or was in use before. -/
theorem iput (sound : Fs.Sound sb k.fs.disk) (uses : Using k k' held) (member : inum ∈ held)
    (inside : inum < sb.ninodes) (stays : (files sb k.fs.disk inum).nlink ≠ 0 ∨ k.ref inum ≠ 0) :
    Ensures (iput sb inum) k' (fun _ k'' => Using k k'' (held.erase inum)) (fun _ => False) := by
  have positive := List.count_pos_iff.mpr member
  refine (@iput_ref_ensures sb k' inum (fun i => k.ref i + (held.erase inum).count i) (uses.fs ▸ sound) inside
    (fun i => ?_) ?_).mono (fun _ after done => ?_) fun _ stopped => stopped
  · rw [uses.ref, List.count_erase, List.count_singleton]
    by_cases same : inum = i
    · subst same
      simp only [beq_self_eq_true, if_true]
      omega
    · simp [same]
  · rw [uses.fs]
    exact stays.imp_right (by omega)
  · obtain ⟨fs, ref, valid⟩ := done
    exact ⟨fs.trans uses.fs, fun i => congrFun ref i, fun i used read => by
      rw [valid]; exact uses.valid i used read⟩

end Using

end Functions

end Kernel

end Cs537.Filesystem
