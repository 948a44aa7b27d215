import Cs537.Filesystem.Paths

/-!
# Links

`sys_link` gives a file another name. It counts the link first and enters the name then; if
that is refused, the count goes back. Seen from outside it does both or changes nothing, and
all references that it takes are given back.
-/

namespace Cs537.Filesystem.Kernel

open Programs Fs

section Functions

variable (sb : Superblock)

/-- The part of sys_link behind the label bad. -/
def retract (inum : Nat) : Op Int := do
  let ip ← ilock sb inum
  onFs (iupdate sb inum { ip with nlink := ip.nlink - 1 })
  iput sb inum
  return -1

/-- The part between ilock and iunlockput of the directory: whether the name was entered. -/
def attach (dpnum inum : Nat) (name : List Byte) : Op Bool := do
  let dp ← ilock sb dpnum
  let (entered, _) ← dirlink sb dpnum dp name inum
  iput sb dpnum
  return entered

/-- The part of sys_link after the link is counted. -/
def enter (cwd inum : Nat) (new : List Byte) : Op Int := do
  let parent ← namex sb cwd new true
  match parent with
  | none => retract sb inum
  | some (dpnum, name) =>
    let entered ← attach sb dpnum inum name
    if entered = true then
      iput sb inum
      return 0
    else retract sb inum

end Functions

/-- A file with one link more. -/
def counted (files : Nat → File) (inum : Nat) : Nat → File :=
  Function.update files inum { files inum with nlink := (files inum).nlink + 1 }

/-- The files with a new entry of a directory. -/
def entered (files : Nat → File) (dp inum : Nat) (name : List Byte) : Nat → File :=
  Function.update files dp
    ((files dp).setEntry (files dp).vacant ⟨BitVec.ofNat 16 inum, strncpy DIRSIZ name⟩)

/-- The directory that takes the name, if it can. -/
def place (files : Nat → File) (cwd : Nat) (new : List Byte) : Option Nat :=
  (destination files true (start cwd new) (elements new)).filter fun dp =>
    ((files dp).lookup ((elements new).getLastD [])).isNone

/-- The files after a link, if it is possible. -/
def linked (files : Nat → File) (cwd : Nat) (old new : List Byte) : Option (Nat → File) :=
  ((destination files false (start cwd old) (elements old)).filter fun inum =>
    (files inum).type ≠ T_DIR).bind fun inum =>
      (place files cwd new).map fun dp => entered (counted files inum) dp inum ((elements new).getLastD [])

/-! ## Tables that stay connected -/

section Tables

variable {ninodes inum ip dp : Nat} {files files' : Nat → File} {ref ref' : Nat → Nat}

theorem counted_self (files : Nat → File) (inum : Nat) :
    counted files inum inum = { files inum with nlink := (files inum).nlink + 1 } := Function.update_self _ _ _

theorem counted_other {i : Nat} (other : i ≠ inum) : counted files inum i = files i :=
  Function.update_of_ne other _ _

/-- One link more of a file that is not a directory. -/
theorem Connected.count (connected : Connected ninodes files ref) (present : Present ninodes files ref inum)
    (plain : (files inum).type ≠ T_DIR) (others : ∀ i ≠ inum, ref' i = ref i)
    (room : (files inum).nlink + 1 ≠ 0) :
    Connected ninodes (counted files inum) ref' ∧
      ∀ i, Present ninodes files ref i → Present ninodes (counted files inum) ref' i := by
  have here := counted_self files inum
  have there := fun i other => @counted_other inum files i other
  generalize counted files inum = files' at *
  have forth : ∀ i, Present ninodes files ref i → Present ninodes files' ref' i := by
    intro i old
    by_cases same : i = inum
    · subst same
      exact ⟨old.inside, by rw [here]; exact old.typed, by rw [here]; exact .inl room⟩
    · exact ⟨old.inside, by rw [there i same]; exact old.typed, by
        rw [there i same, others i same]; exact old.stays⟩
  have back : ∀ i, Present ninodes files' ref' i → (files' i).type = T_DIR →
      Present ninodes files ref i ∧ files' i = files i := by
    intro i new dir
    have other : i ≠ inum := by
      rintro rfl
      rw [here] at dir
      exact plain dir
    obtain ⟨inside, typed, stays⟩ := new
    rw [there i other] at typed stays
    rw [others i other] at stays
    exact ⟨⟨inside, typed, stays⟩, there i other⟩
  refine ⟨⟨fun d new dir => ?_, fun d name next new dir found => ?_⟩, forth⟩
  · obtain ⟨old, same⟩ := back d new dir
    rw [same] at dir ⊢
    exact connected.directory d old dir
  · obtain ⟨old, same⟩ := back d new dir
    rw [same] at dir found
    exact forth next (connected.leads d name next old dir found)

/-- A new name in a directory, for an inode that is there. -/
theorem Connected.enter (connected : Connected ninodes files ref) {name : List Byte}
    (place : Present ninodes files ref dp) (dir : (files dp).type = T_DIR)
    (absent : (files dp).lookup name = none) (target : Present ninodes files ref inum) (used : inum ≠ 0)
    (word : inum < 2 ^ 16) :
    Connected ninodes (entered files dp inum name) ref := by
  have number : (BitVec.ofNat 16 inum).toNat = inum := by
    rw [BitVec.toNat_ofNat, Nat.mod_eq_of_lt word]
  have nonzero : BitVec.ofNat 16 inum ≠ 0 := by
    intro zero
    rw [zero] at number
    exact used number.symm
  have directory := connected.directory dp place dir
  have table := File.table_setEntry absent directory.whole nonzero
  have taken : ((files dp).setEntry (files dp).vacant
      ⟨BitVec.ofNat 16 inum, strncpy DIRSIZ name⟩).IsDirectory ninodes :=
    directory.setEntry strncpy_length (number.symm ▸ target.inside)
  unfold entered
  generalize made : (files dp).setEntry (files dp).vacant ⟨BitVec.ofNat 16 inum, strncpy DIRSIZ name⟩ = f at *
  have fields : f.type = (files dp).type ∧ f.nlink = (files dp).nlink := made ▸ ⟨rfl, rfl⟩
  generalize after : Function.update files dp f = files'
  have here : files' dp = f := by rw [← after, Function.update_self]
  have there : ∀ i ≠ dp, files' i = files i := fun i other => by rw [← after, Function.update_of_ne other]
  have type : ∀ i, (files' i).type = (files i).type := by
    intro i
    by_cases same : i = dp
    · rw [same, here, fields.1]
    · rw [there i same]
  have nlink : ∀ i, (files' i).nlink = (files i).nlink := by
    intro i
    by_cases same : i = dp
    · rw [same, here, fields.2]
    · rw [there i same]
  have present : ∀ i, Present ninodes files' ref i ↔ Present ninodes files ref i := by
    intro i
    constructor
    · rintro ⟨inside, typed, stays⟩
      exact ⟨inside, type i ▸ typed, nlink i ▸ stays⟩
    · rintro ⟨inside, typed, stays⟩
      exact ⟨inside, (type i).symm ▸ typed, (nlink i).symm ▸ stays⟩
  refine ⟨fun d new dir => ?_, fun d other next new dir found => ?_⟩
  · by_cases same : d = dp
    · rw [same, here]
      exact taken
    · rw [type] at dir
      rw [there d same]
      exact connected.directory d ((present d).mp new) dir
  · rw [type] at dir
    refine (present next).mpr ?_
    by_cases same : d = dp
    · subst same
      rw [here, table] at found
      split_ifs at found
      · rw [number] at found
        exact Option.some.inj found ▸ target
      · exact connected.leads d other next place dir found
    · rw [there d same] at found
      exact connected.leads d other next ((present d).mp new) dir found

end Tables

/-! ## The call -/

section Calls

variable {sb : Superblock} {k : Kernel} {inum cwd : Nat} {F : Nat → File} {ref : Nat → Nat}
  {old new : List Byte}

end Calls

end Cs537.Filesystem.Kernel
