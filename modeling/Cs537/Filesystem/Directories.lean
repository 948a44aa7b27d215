import Cs537.Filesystem.Requests

/-!
# Directories

A directory is a file of entries of 16 bytes: an inode number, which is zero in an empty
entry, and a name of at most 14 bytes. A name is compared and stored up to its first zero
and up to its length, so that two strings are the same name if they agree so far.

The functions on directories read the entries one after the other. On a sound volume they
find what stands in the file, and an entry that they write is the only one that changes.
-/

namespace Cs537.Filesystem

def T_DIR : BitVec 16 := 1

def ROOTINO : Nat := 1

def DIRSIZ : Nat := 14

/-- The size of an entry. -/
def DIRENT : Nat := 16

/-! ## Names -/

def strncmp : Nat → List Byte → List Byte → Int
  | 0, _, _ => 0
  | n + 1, p, q =>
    if p.headD 0 ≠ 0 ∧ p.headD 0 = q.headD 0 then strncmp n p.tail q.tail
    else (p.headD 0).toNat - (q.headD 0).toNat

def strncpy : Nat → List Byte → List Byte
  | 0, _ => []
  | n + 1, t => if t.headD 0 = 0 then List.replicate (n + 1) 0 else t.headD 0 :: strncpy n t.tail

def namecmp (s t : List Byte) : Int := strncmp DIRSIZ s t

/-- What counts of a string of at most so many bytes. -/
def upTo : Nat → List Byte → List Byte
  | 0, _ => []
  | n + 1, s => if s.headD 0 = 0 then [] else s.headD 0 :: upTo n s.tail

/-- The name that a string stands for. -/
def nameOf (s : List Byte) : List Byte := upTo DIRSIZ s

section Names

variable {n : Nat} {s t : List Byte}

theorem strncmp_iff : strncmp n s t = 0 ↔ upTo n s = upTo n t := by
  induction n generalizing s t with
  | zero => simp [strncmp, upTo]
  | succ n inductionHypothesis =>
    rw [strncmp, upTo, upTo]
    by_cases same : s.headD 0 = t.headD 0
    · by_cases ends : t.headD 0 = 0
      · rw [same, if_neg (fun both => both.1 ends), if_pos ends]
        rw [if_pos ends]
        exact iff_of_true (Int.sub_self _) rfl
      · rw [same, if_pos ⟨ends, rfl⟩, if_neg ends, if_neg ends, inductionHypothesis, List.cons_inj_right]
    · have different : ((s.headD 0).toNat : Int) - (t.headD 0).toNat ≠ 0 := by
        intro equal
        exact same (BitVec.eq_of_toNat_eq (by omega))
      rw [if_neg (fun both => same both.2)]
      refine iff_of_false different ?_
      split_ifs with first second
      · exact absurd (first.trans second.symm) same
      · simp
      · simp
      · exact fun equal => same (List.cons.inj equal).1

theorem namecmp_iff : namecmp s t = 0 ↔ nameOf s = nameOf t := strncmp_iff

theorem strncpy_length : (strncpy n t).length = n := by
  induction n generalizing t with
  | zero => rfl
  | succ n inductionHypothesis =>
    rw [strncpy]
    split_ifs
    · exact List.length_replicate
    · rw [List.length_cons, inductionHypothesis]

theorem upTo_strncpy : upTo n (strncpy n t) = upTo n t := by
  induction n generalizing t with
  | zero => rfl
  | succ n inductionHypothesis =>
    rw [strncpy, upTo, upTo]
    by_cases ends : t.headD 0 = 0
    · rw [if_pos ends, if_pos ends]
      exact if_pos rfl
    · rw [if_neg ends, if_neg ends]
      simp only [List.headD_cons, List.tail_cons, inductionHypothesis]
      rw [if_neg ends]

end Names

/-! ## Entries -/

structure Dirent where
  inum : BitVec 16
  name : List Byte
  deriving DecidableEq

namespace Dirent

/-- The entry in the bytes of one. -/
def ofBytes (bytes : List Byte) : Dirent := ⟨bytes.getD 1 0 ++ bytes.getD 0 0, bytes.drop 2⟩

def bytes (de : Dirent) : List Byte := de.inum.extractLsb' 0 8 :: de.inum.extractLsb' 8 8 :: de.name

theorem ofBytes_bytes (de : Dirent) : ofBytes de.bytes = de := by
  have whole : de.inum.extractLsb' 8 8 ++ de.inum.extractLsb' 0 8 = de.inum := by
    apply BitVec.eq_of_getLsbD_eq
    intro i small
    rw [BitVec.getLsbD_append]
    by_cases low : i < 8
    · simp [low]
    · have high : i - 8 < 8 := by omega
      have place : 8 + (i - 8) = i := by omega
      simp [low, high, place]
  exact congrArg (Dirent.mk · de.name) whole

end Dirent

namespace File

/-- Entry `k` of a directory. -/
def entry (f : File) (k : Nat) : Dirent := .ofBytes ((f.bytes.drop (DIRENT * k)).take DIRENT)

/-- How many entries there are. -/
def entries (f : File) : Nat := f.bytes.length / DIRENT

/-- The first entry with a property from a place on. -/
def findEntry (f : File) (start : Nat) (hit : Dirent → Bool) : Option Nat :=
  (List.range' start (f.entries - start)).find? fun k => hit (f.entry k)

/-- The first entry in use with a name. -/
def lookup (f : File) (name : List Byte) : Option Nat :=
  f.findEntry 0 fun de => de.inum ≠ 0 ∧ namecmp name de.name = 0

/-- The inode number that a directory gives for a name. -/
def table (f : File) (name : List Byte) : Option Nat :=
  (f.lookup name).map fun k => (f.entry k).inum.toNat

/-- The first empty entry, or the one behind the last. -/
def vacant (f : File) : Nat := (f.findEntry 0 fun de => de.inum = 0).getD f.entries

/-- Another entry in its place. -/
def setEntry (f : File) (k : Nat) (de : Dirent) : File := f.splice (DIRENT * k) de.bytes

/-- A directory has whole entries, and those in use have the numbers of inodes. -/
structure IsDirectory (ninodes : Nat) (f : File) : Prop where
  type : f.type = T_DIR
  whole : DIRENT ∣ f.bytes.length
  inside : ∀ k < f.entries, (f.entry k).inum ≠ 0 → (f.entry k).inum.toNat < ninodes

section Entries

variable {f : File} {k : Nat} {de : Dirent}

theorem findEntry_some {start : Nat} {hit : Dirent → Bool} (found : f.findEntry start hit = some k) :
    start ≤ k ∧ k < f.entries ∧ hit (f.entry k) = true := by
  rw [findEntry] at found
  have member := List.mem_range'_1.mp (List.mem_of_find?_eq_some found)
  have here : hit (f.entry k) = true := by simpa using List.find?_some found
  exact ⟨member.1, by omega, here⟩

theorem findEntry_none {start : Nat} {hit : Dirent → Bool} :
    f.findEntry start hit = none ↔ ∀ k, start ≤ k → k < f.entries → hit (f.entry k) = false := by
  rw [findEntry, List.find?_eq_none]
  constructor
  · intro all k after inside
    simpa using all k (List.mem_range'_1.mpr ⟨after, by omega⟩)
  · intro all k member
    rw [List.mem_range'_1] at member
    simpa using all k member.1 (by omega)

theorem lookup_eq_some {name : List Byte} : f.lookup name = some k ↔
    k < f.entries ∧ ((f.entry k).inum ≠ 0 ∧ nameOf name = nameOf (f.entry k).name) ∧
      ∀ j < k, ¬ ((f.entry j).inum ≠ 0 ∧ nameOf name = nameOf (f.entry j).name) := by
  simp only [lookup, findEntry, List.find?_range'_eq_some, namecmp_iff, decide_eq_true_iff,
    Bool.not_eq_true', decide_eq_false_iff_not, List.mem_range'_1]
  constructor
  · rintro ⟨here, inside, first⟩
    exact ⟨by omega, here, fun j before => first j (Nat.zero_le _) before⟩
  · rintro ⟨inside, here, first⟩
    exact ⟨here, by omega, fun j _ before => first j before⟩

theorem lookup_some {name : List Byte} (found : f.lookup name = some k) :
    k < f.entries ∧ (f.entry k).inum ≠ 0 ∧ nameOf name = nameOf (f.entry k).name := by
  obtain ⟨-, inside, here⟩ := findEntry_some found
  rw [decide_eq_true_iff, namecmp_iff] at here
  exact ⟨inside, here⟩

theorem lookup_none {name : List Byte} : f.lookup name = none ↔
    ∀ k, k < f.entries → (f.entry k).inum ≠ 0 → nameOf name ≠ nameOf (f.entry k).name := by
  rw [lookup, findEntry_none]
  simp only [Nat.zero_le, forall_const, decide_eq_false_iff_not, namecmp_iff, not_and]

theorem table_some {name : List Byte} {inum : Nat} (found : f.table name = some inum) :
    ∃ k < f.entries, (f.entry k).inum ≠ 0 ∧ (f.entry k).inum.toNat = inum := by
  obtain ⟨k, place, same⟩ := Option.map_eq_some_iff.mp found
  exact ⟨k, (lookup_some place).1, (lookup_some place).2.1, same⟩

theorem vacant_le : f.vacant ≤ f.entries := by
  unfold vacant
  cases found : f.findEntry 0 fun de => de.inum = 0 with
  | none => exact le_rfl
  | some k => exact (findEntry_some found).2.1.le

theorem vacant_empty (inside : f.vacant < f.entries) : (f.entry f.vacant).inum = 0 := by
  unfold vacant at *
  cases found : f.findEntry 0 fun de => de.inum = 0 with
  | none =>
    rw [found] at inside
    exact absurd inside (lt_irrefl _)
  | some k => simpa using (findEntry_some found).2.2

theorem length_splice {off : Nat} {src : List Byte} (start : off ≤ f.bytes.length) :
    (f.splice off src).bytes.length = max f.bytes.length (off + src.length) := by
  simp only [splice, List.length_append, List.length_take, List.length_drop]
  omega

theorem getElem?_splice {off : Nat} {src : List Byte} (start : off ≤ f.bytes.length) (i : Nat) :
    (f.splice off src).bytes[i]? =
      if off ≤ i ∧ i < off + src.length then src[i - off]? else f.bytes[i]? := by
  have front : (f.bytes.take off).length = off := List.length_take_of_le start
  simp only [splice]
  by_cases early : i < off
  · rw [if_neg (by omega), List.append_assoc, List.getElem?_append_left (by omega),
      List.getElem?_take_of_lt early]
  · rw [List.append_assoc, List.getElem?_append_right (by omega), front]
    by_cases middle : i < off + src.length
    · rw [if_pos ⟨by omega, middle⟩, List.getElem?_append_left (by omega)]
    · rw [if_neg (by omega), List.getElem?_append_right (by omega), List.getElem?_drop]
      congr 1
      omega

theorem bytes_length (name : de.name.length = DIRSIZ) : de.bytes.length = DIRENT := by
  simp [Dirent.bytes, name, DIRSIZ, DIRENT]

theorem setEntry_length (inside : k ≤ f.entries) (whole : DIRENT ∣ f.bytes.length)
    (name : de.name.length = DIRSIZ) :
    (f.setEntry k de).bytes.length = DIRENT * max f.entries (k + 1) := by
  have start := Nat.mul_le_of_le_div _ _ _ inside
  have length := Nat.mul_div_cancel' whole
  rw [setEntry, length_splice (by rw [Nat.mul_comm]; exact start), bytes_length name,
    ← Nat.mul_max_mul_left, entries, length]
  rfl

/-- The entries after one of them is set, which may be a new one at the end. -/
theorem entry_setEntry (inside : k ≤ f.entries) (name : de.name.length = DIRSIZ) (j : Nat) :
    (f.setEntry k de).entry j = if j = k then de else f.entry j := by
  have start : DIRENT * k ≤ f.bytes.length := by
    rw [Nat.mul_comm]
    exact Nat.mul_le_of_le_div _ _ _ inside
  have size := bytes_length name
  have bytes : ((f.setEntry k de).bytes.drop (DIRENT * j)).take DIRENT =
      if j = k then de.bytes else (f.bytes.drop (DIRENT * j)).take DIRENT := by
    apply List.ext_getElem?
    intro i
    by_cases inside : i < DIRENT
    · rw [List.getElem?_take_of_lt inside, List.getElem?_drop, setEntry, getElem?_splice start, size]
      by_cases same : j = k
      · have within : DIRENT * k ≤ DIRENT * j + i ∧ DIRENT * j + i < DIRENT * k + DIRENT := by
          rw [same]
          omega
        rw [if_pos within, if_pos same, same, Nat.add_sub_cancel_left]
      · have outside : ¬ (DIRENT * k ≤ DIRENT * j + i ∧ DIRENT * j + i < DIRENT * k + DIRENT) := by
          simp only [DIRENT] at *
          omega
        rw [if_neg outside, if_neg same, List.getElem?_take_of_lt inside, List.getElem?_drop]
    · rw [List.getElem?_eq_none (by rw [List.length_take]; omega), List.getElem?_eq_none]
      split_ifs
      · omega
      · rw [List.length_take]
        omega
  rw [entry, bytes]
  split_ifs with same
  · exact de.ofBytes_bytes
  · rfl

/-- The vacant place takes an entry. -/
theorem IsDirectory.setEntry {ninodes : Nat} (directory : IsDirectory ninodes f)
    (name : de.name.length = DIRSIZ) (inside : de.inum.toNat < ninodes) :
    IsDirectory ninodes (f.setEntry f.vacant de) := by
  have length := setEntry_length vacant_le directory.whole name
  refine ⟨directory.type, Dvd.intro _ length.symm, fun j small used => ?_⟩
  rw [entry_setEntry vacant_le name] at used ⊢
  split_ifs at used ⊢ with here
  · exact inside
  · refine directory.inside j ?_ used
    rw [File.entries, length, Nat.mul_div_cancel_left _ (by decide)] at small
    have bound := f.vacant_le
    omega

/-- A new name in the vacant place is the only change to the table. -/
theorem table_setEntry {name : List Byte} {inum : BitVec 16} (absent : f.lookup name = none)
    (whole : DIRENT ∣ f.bytes.length) (used : inum ≠ 0) (other : List Byte) :
    (f.setEntry f.vacant ⟨inum, strncpy DIRSIZ name⟩).table other =
      if nameOf other = nameOf name then some inum.toNat else f.table other := by
  have size : (strncpy DIRSIZ name).length = DIRSIZ := strncpy_length
  have stored : nameOf (strncpy DIRSIZ name) = nameOf name := upTo_strncpy
  generalize made : f.setEntry f.vacant ⟨inum, strncpy DIRSIZ name⟩ = g
  have entry : ∀ j, g.entry j = if j = f.vacant then ⟨inum, strncpy DIRSIZ name⟩ else f.entry j :=
    fun j => made ▸ entry_setEntry vacant_le size j
  have entries : g.entries = max f.entries (f.vacant + 1) := by
    rw [File.entries, ← made, setEntry_length vacant_le whole size]
    exact Nat.mul_div_cancel_left _ (by decide)
  have bound := f.vacant_le
  have before := lookup_none.mp absent
  unfold table
  split_ifs with same
  · have found : g.lookup other = some f.vacant := by
      refine lookup_eq_some.mpr ⟨by omega, ?_, fun j early => ?_⟩
      · rw [entry, if_pos rfl, stored]
        exact ⟨used, same⟩
      · rw [entry, if_neg early.ne, same]
        exact fun both => before j (by omega) both.1 both.2
    rw [found, Option.map_some, entry, if_pos rfl]
  · cases known : f.lookup other with
    | none =>
      have missing : g.lookup other = none := by
        refine lookup_none.mpr fun j inside taken => ?_
        rw [entry] at taken ⊢
        split_ifs at taken ⊢ with here
        · rw [stored]
          exact same
        · exact lookup_none.mp known j (by omega) taken
      rw [missing]
      rfl
    | some k =>
      obtain ⟨inside, here, first⟩ := lookup_eq_some.mp known
      have apart : k ≠ f.vacant := by
        rintro rfl
        exact here.1 (vacant_empty inside)
      have found : g.lookup other = some k := by
        refine lookup_eq_some.mpr ⟨by omega, ?_, fun j early => ?_⟩
        · rw [entry, if_neg apart]
          exact here
        · rw [entry]
          split_ifs with place
          · rw [stored]
            exact fun both => same both.2
          · exact first j early
      rw [found, Option.map_some, Option.map_some, entry, if_neg apart]

end Entries

end File

/-! ## A volume with a directory -/

namespace Fs

open Programs

/-- The bytes of a root directory that holds itself and a file. -/
def rootBytes : List Byte :=
  Dirent.bytes ⟨1, strncpy DIRSIZ [46]⟩ ++ Dirent.bytes ⟨2, strncpy DIRSIZ [97]⟩

def root : File := ⟨T_DIR, 0, 0, 1, rootBytes⟩

theorem root_directory : root.IsDirectory 200 := by
  refine ⟨rfl, by decide, ?_⟩
  decide

/-- A directory and a file are made, and the entries of the directory are written. -/
def planting : List Request :=
  [.create T_DIR 0 0, .create 2 0 0, .openFile 0 1 true true, .write 0 rootBytes]

theorem planted : Ensures (serveAll mkfsSuperblock (fun _ => ⟨0, 0, false, false⟩) planting)
    ⟨formatted mkfsSuperblock, []⟩
    (fun _ after => Sound mkfsSuperblock after.disk ∧
      files mkfsSuperblock after.disk 1 = root ∧
      files mkfsSuperblock after.disk 2 = ⟨2, 0, 0, 1, []⟩ ∧
      ∀ d < 200, (files mkfsSuperblock after.disk d).type ≠ 0 → d = 1 ∨ d = 2)
    (fun _ => False) := by
  have answers : (respondAll 200 941 ⟨files mkfsSuperblock (formatted mkfsSuperblock),
      fun _ => ⟨0, 0, false, false⟩⟩ planting).toOption.map (fun made => (made.2.files 1, made.2.files 2,
        (List.range 200).filter fun d => (made.2.files d).type ≠ 0)) =
      some (root, ⟨2, 0, 0, 1, []⟩, [1, 2]) := by
    decide +kernel
  refine (serveAll_ensures (formatted_sound (by decide)) ?_ ?_).mono ?_ ?_
  · exact fun _ => ⟨by decide, Nat.zero_le _⟩
  · simp [planting, rootBytes, Request.Valid, mkfsSuperblock, Dirent.bytes, strncpy_length, DIRSIZ]
  · rintro result after ⟨sound, -, computed⟩
    rw [show respondAll 200 941 _ planting = _ from computed] at answers
    obtain ⟨root, child, alone⟩ := Prod.mk.inj (Option.some.inj answers) |>.imp_right Prod.mk.inj
    refine ⟨sound, root, child, fun d small used => ?_⟩
    have member : d ∈ (List.range 200).filter fun d => (files mkfsSuperblock after.disk d).type ≠ 0 :=
      List.mem_filter.mpr ⟨List.mem_range.mpr small, decide_eq_true used⟩
    rw [show (List.range 200).filter _ = [1, 2] from alone] at member
    simpa using member
  · rintro reason ⟨-, computed⟩
    rw [show respondAll 200 941 _ planting = _ from computed] at answers
    cases answers

end Fs

end Cs537.Filesystem
