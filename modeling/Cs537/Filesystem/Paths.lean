import Cs537.Filesystem.Lookup
import Mathlib.Data.List.DropRight

/-!
# Path names

A path name is a row of names with slashes between them, in which more than one slash
counts as one. `skipelem` takes the first name off a path, and `namex` looks one name after
the other up, from the root or the working directory on.

On a volume whose directories lead to inodes that are there, `namex` ends where the tables
of the directories lead, with one reference to the inode that it returns and no other
changed.
-/

namespace Cs537.Filesystem

open Programs

def SLASH : Byte := 47

/-- The rest of the path and the first name. -/
def skipelem (path : List Byte) : Option (List Byte × List Byte) :=
  let path := path.dropWhile (· = SLASH)
  if path = [] then none
  else some ((path.dropWhile (· ≠ SLASH)).dropWhile (· = SLASH), (path.takeWhile (· ≠ SLASH)).take DIRSIZ)

/-- The names of a path. -/
def elements (path : List Byte) : List (List Byte) :=
  ((path.splitOn SLASH).filter (· ≠ [])).map (·.take DIRSIZ)

section Names

variable {path word rest name : List Byte}

theorem elements_slash (path : List Byte) : elements (SLASH :: path) = elements path := by
  have split : ([] ++ SLASH :: path).splitOn SLASH = [] :: path.splitOn SLASH :=
    List.splitOn_append_cons_of_forall_mem_beq_eq_false (by simp) SLASH (by simp) path
  rw [List.nil_append] at split
  simp [elements, split]

/-- Slashes in front do not count. -/
theorem elements_slashes (path : List Byte) : elements (path.dropWhile (· = SLASH)) = elements path := by
  induction path with
  | nil => rfl
  | cons c path inductionHypothesis =>
    by_cases slash : c = SLASH
    · rw [List.dropWhile_cons_of_pos (by simpa using slash), inductionHypothesis, slash, elements_slash]
    · rw [List.dropWhile_cons_of_neg (by simpa using slash)]

/-- A name that ends at a slash, or at the end of the path. -/
theorem elements_word (plain : SLASH ∉ word) (long : word ≠ []) (ends : ∀ c ∈ rest.head?, c = SLASH) :
    elements (word ++ rest) = word.take DIRSIZ :: elements rest := by
  have other : ∀ c ∈ word, (c == SLASH) = false :=
    fun c member => beq_eq_false_iff_ne.mpr fun same => plain (same ▸ member)
  cases rest with
  | nil =>
    have split : word.splitOn SLASH = [word] := by
      rw [List.splitOn_eq_splitOnP]
      exact List.splitOnP_eq_singleton other
    simp [elements, split, long]
  | cons c rest =>
    obtain rfl := ends c rfl
    have split : (word ++ SLASH :: rest).splitOn SLASH = word :: rest.splitOn SLASH :=
      List.splitOn_append_cons_of_forall_mem_beq_eq_false other SLASH (by simp) rest
    rw [elements_slash]
    simp [elements, split, long]

theorem skipelem_none : skipelem path = none ↔ path.dropWhile (· = SLASH) = [] := by
  simp [skipelem]

/-- skipelem takes the first name off, and the slashes behind it. -/
theorem skipelem_some (taken : skipelem path = some (rest, name)) :
    elements path = name :: elements rest ∧ rest.length < path.length ∧
      rest.dropWhile (· = SLASH) = rest := by
  simp only [skipelem] at taken
  split_ifs at taken with empty
  obtain ⟨rfl, rfl⟩ := Prod.mk.inj (Option.some.inj taken)
  generalize begun : path.dropWhile (· = SLASH) = p at *
  have front : ∀ c ∈ p.head?, c ≠ SLASH := by
    intro c first
    have := List.head?_dropWhile_not (· = SLASH) path
    rw [begun, Option.mem_def.mp first] at this
    simpa using this
  have ends : ∀ c ∈ (p.dropWhile (· ≠ SLASH)).head?, c = SLASH := by
    intro c first
    have := List.head?_dropWhile_not (· ≠ SLASH) p
    rw [Option.mem_def.mp first] at this
    simpa using this
  have plain : SLASH ∉ p.takeWhile (· ≠ SLASH) := fun member => by simpa using List.mem_takeWhile_imp member
  have long : p.takeWhile (· ≠ SLASH) ≠ [] := by
    cases p with
    | nil => exact absurd rfl empty
    | cons c p => simp [front c rfl]
  have whole : p.takeWhile (· ≠ SLASH) ++ p.dropWhile (· ≠ SLASH) = p := List.takeWhile_append_dropWhile
  have shorter : p.length ≤ path.length := begun ▸ (List.dropWhile_suffix _).length_le
  refine ⟨?_, ?_, List.dropWhile_idempotent _ _⟩
  · rw [← elements_slashes path, begun, elements_slashes, ← elements_word plain long ends, whole]
  · have behind := (List.dropWhile_suffix (· = SLASH) (l := p.dropWhile (· ≠ SLASH))).length_le
    have total := congrArg List.length whole
    have some := List.length_pos_iff.mpr long
    rw [List.length_append] at total
    omega

/-- A path without a slash in front has no names only if it is empty. -/
theorem elements_nil (begun : path.dropWhile (· = SLASH) = path) (none : elements path = []) : path = [] := by
  cases taken : skipelem path with
  | none => exact begun.symm.trans (skipelem_none.mp taken)
  | some made =>
    rw [(skipelem_some taken).1] at none
    cases none

end Names

/-! ## The walk -/

namespace Kernel

open Fs

section Functions

variable (sb : Superblock)

/-- The loop of namex from an inode in use on. -/
def walk (nameiparent : Bool) : Nat → Nat → List Byte → List Byte → Op (Option (Nat × List Byte))
  | 0, _, _, _ => return none
  | fuel + 1, ip, path, name =>
    match skipelem path with
    | none =>
      if nameiparent = true then do
        iput sb ip
        return none
      else return some (ip, name)
    | some (path, name) => do
      let dp ← ilock sb ip
      if dp.type ≠ T_DIR then
        iput sb ip
        return none
      else if nameiparent = true ∧ path = [] then return some (ip, name)
      else
        let (next, _) ← dirlookup sb dp name
        iput sb ip
        match next with
        | none => return none
        | some (next, _) => walk nameiparent fuel next path name

/-- Where the walk starts. -/
def start (cwd : Nat) (path : List Byte) : Nat := if path.head? = some SLASH then ROOTINO else cwd

/-- The inode of a path, or of its parent, and the last name. -/
def namex (cwd : Nat) (path : List Byte) (nameiparent : Bool) : Op (Option (Nat × List Byte)) := do
  if path.head? = some SLASH then
    iget ROOTINO
    walk sb nameiparent (path.length + 1) ROOTINO path []
  else
    idup cwd
    walk sb nameiparent (path.length + 1) cwd path []

end Functions

/-! ## Where a path leads -/

/-- The inode that the tables of the directories give for a row of names. -/
def follow (files : Nat → File) : Nat → List (List Byte) → Option Nat
  | ip, [] => some ip
  | ip, name :: names =>
    if (files ip).type = T_DIR then ((files ip).table name).bind fun next => follow files next names
    else none

/-- The inode that a path stands for, or the directory of its last name. -/
def destination (files : Nat → File) (nameiparent : Bool) (ip : Nat) (names : List (List Byte)) :
    Option Nat :=
  if nameiparent = false then follow files ip names
  else if names = [] then none
  else (follow files ip names.dropLast).filter fun ip => (files ip).type = T_DIR

theorem destination_cons (files : Nat → File) (nameiparent : Bool) (ip : Nat) (name : List Byte)
    (names : List (List Byte)) : destination files nameiparent ip (name :: names) =
      if (files ip).type ≠ T_DIR then none
      else if nameiparent = true ∧ names = [] then some ip
      else ((files ip).table name).bind fun next => destination files nameiparent next names := by
  unfold destination
  cases nameiparent with
  | false => simp [follow]
  | true =>
    cases names with
    | nil =>
      simp only [Bool.true_eq_false, if_false, reduceCtorEq, List.dropLast_singleton, follow]
      by_cases dir : (files ip).type = T_DIR <;> simp [dir]
    | cons second names =>
      simp only [Bool.true_eq_false, if_false, reduceCtorEq, List.dropLast_cons_cons, follow, and_false]
      by_cases dir : (files ip).type = T_DIR
      · simp only [dir, if_true, ne_eq, not_true, if_false]
        cases (files ip).table name <;> rfl
      · simp [dir]

section Volumes

variable {sb : Superblock} {k k' : Kernel} {ip cwd : Nat} {path name : List Byte} {nameiparent : Bool}

/-- An inode that is there and stays: it has links, or it is in use. -/
structure Present (ninodes : Nat) (files : Nat → File) (ref : Nat → Nat) (i : Nat) : Prop where
  inside : i < ninodes
  typed : (files i).type ≠ 0
  stays : (files i).nlink ≠ 0 ∨ ref i ≠ 0

/-- The directories that are there lead to inodes that are there. -/
structure Connected (ninodes : Nat) (files : Nat → File) (ref : Nat → Nat) : Prop where
  directory : ∀ d, Present ninodes files ref d → (files d).type = T_DIR → (files d).IsDirectory ninodes
  leads : ∀ d name next, Present ninodes files ref d → (files d).type = T_DIR →
    (files d).table name = some next → Present ninodes files ref next

/-- A round that ends without an inode gives its reference back. -/
theorem refuse_ensures (sound : Fs.Sound sb k.fs.disk) (uses : Using k k' [ip])
    (present : Present sb.ninodes (files sb k.fs.disk) k.ref ip) :
    Ensures (do iput sb ip; return none) k'
      (fun result last => result = (none : Option (Nat × List Byte)) ∧ Using k last [])
      (fun _ => False) := by
  rw [ensures_bind]
  refine (uses.iput sound List.mem_cons_self present.inside present.stays).mono
    (fun _ last put => ⟨rfl, ?_⟩) fun _ stopped => stopped
  rw [List.erase_cons_head] at put
  exact put

/-- A look into a directory finds what its table has, and uses it once more. -/
theorem look_ensures (sound : Fs.Sound sb k.fs.disk) (uses : Using k k' [ip])
    (dir : (files sb k.fs.disk ip).type = T_DIR)
    (whole : DIRENT ∣ (files sb k.fs.disk ip).bytes.length) :
    Ensures (dirlookup sb (dinode sb k.fs.disk ip) name) k'
      (fun result after => result.1.map Prod.fst = (files sb k.fs.disk ip).table name ∧
        Using k after (((files sb k.fs.disk ip).table name).toList ++ [ip]))
      (fun reason => reason = .cacheFull) := by
  rw [← uses.fs] at dir whole
  have looked := @dirlookup_ensures sb k' ip name (uses.fs ▸ sound) dir whole
  rw [uses.fs] at looked
  refine looked.mono (fun result after found => ?_) fun _ stopped => stopped
  rw [File.table]
  cases known : (files sb k.fs.disk ip).lookup name with
  | none =>
    rw [known] at found
    obtain ⟨rfl, rfl⟩ := found
    exact ⟨rfl, uses⟩
  | some j =>
    rw [known] at found
    obtain ⟨rfl, rfl⟩ := found
    exact ⟨rfl, uses.hold _⟩

/-- The walk ends where the names lead. Only the inode that it returns is used once more. The
induction is on the fuel, and each name makes the path shorter. -/
theorem walk_ensures (sound : Fs.Sound sb k.fs.disk)
    (connected : Connected sb.ninodes (files sb k.fs.disk) k.ref) (fuel : Nat) (uses : Using k k' [ip])
    (present : Present sb.ninodes (files sb k.fs.disk) k.ref ip) (enough : path.length < fuel) :
    Ensures (walk sb nameiparent fuel ip path name) k'
      (fun result k'' => result = (destination (files sb k.fs.disk) nameiparent ip (elements path)).map
          (·, (elements path).getLastD name) ∧
        Using k k'' (destination (files sb k.fs.disk) nameiparent ip (elements path)).toList)
      (fun reason => reason = .cacheFull) := by
  induction fuel generalizing k' ip path name with
  | zero => omega
  | succ fuel inductionHypothesis =>
    rw [walk]
    cases taken : skipelem path with
    | none =>
      have ended : elements path = [] := by
        rw [← elements_slashes, skipelem_none.mp taken]
        rfl
      rw [ended]
      cases nameiparent with
      | false => exact ⟨rfl, uses⟩
      | true => exact (refuse_ensures sound uses present).mono (fun _ _ put => put) fun _ stopped => stopped.elim
    | some made =>
      obtain ⟨rest, name'⟩ := made
      obtain ⟨split, shorter, begun⟩ := skipelem_some taken
      have ended : elements rest = [] ↔ rest = [] := ⟨elements_nil begun, fun empty => empty ▸ rfl⟩
      simp only [split, destination_cons, List.getLastD_cons, ended]
      rw [ensures_bind]
      have typed : (files sb k'.fs.disk ip).type ≠ 0 := by
        rw [uses.fs]
        exact present.typed
      refine (ilock_ensures present.inside typed).mono (fun dp locked done => ?_) fun _ stopped => stopped.elim
      obtain ⟨rfl, keeps, -⟩ := done
      have uses := uses.keeps keeps
      have same : k'.fs = k.fs := keeps.fs.symm.trans uses.fs
      rw [same]
      change Ensures (if (files sb k.fs.disk ip).type ≠ T_DIR then _ else _) locked _ _
      split_ifs with other parent
      · exact (refuse_ensures sound uses present).mono (fun _ _ put => put) fun _ stopped => stopped.elim
      · exact ⟨by rw [parent.2]; rfl, uses⟩
      · have dir : (files sb k.fs.disk ip).type = T_DIR := not_not.mp other
        rw [ensures_bind]
        refine (look_ensures sound uses dir (connected.directory ip present dir).whole).mono
          (fun result after found => ?_) fun _ stopped => stopped
        obtain ⟨next, off⟩ := result
        obtain ⟨found, uses⟩ := found
        rw [ensures_bind]
        refine (uses.iput sound (List.mem_append_right _ List.mem_cons_self) present.inside present.stays).mono
          (fun _ last put => ?_) fun _ stopped => stopped.elim
        cases next with
        | none =>
          rw [← found] at put ⊢
          simp only [Option.map_none, Option.toList_none, List.nil_append, List.erase_cons_head] at put
          exact ⟨rfl, put⟩
        | some pair =>
          obtain ⟨next, entry⟩ := pair
          have there : (files sb k.fs.disk ip).table name' = some next := found.symm
          rw [there] at put ⊢
          have one : [next, ip].erase ip = [next] := by
            by_cases equal : next = ip <;> simp [equal]
          change Using k last ([next, ip].erase ip) at put
          rw [one] at put
          exact inductionHypothesis put (connected.leads ip name' next present dir there) (by omega)

/-- namex in terms of the references that it takes. -/
theorem namex_ensures (sound : Fs.Sound sb k.fs.disk)
    (connected : Connected sb.ninodes (files sb k.fs.disk) k.ref)
    (root : Present sb.ninodes (files sb k.fs.disk) k.ref ROOTINO)
    (current : Present sb.ninodes (files sb k.fs.disk) k.ref cwd) :
    Ensures (namex sb cwd path nameiparent) k
      (fun result k' => result =
          (destination (files sb k.fs.disk) nameiparent (start cwd path) (elements path)).map
            (·, (elements path).getLastD []) ∧
        Using k k' (destination (files sb k.fs.disk) nameiparent (start cwd path) (elements path)).toList)
      (fun reason => reason = .cacheFull) := by
  rw [namex, start]
  split_ifs
  · rw [ensures_bind]
    refine iget_ensures.mono (fun _ k' held => ?_) fun _ stopped => stopped
    exact walk_ensures sound connected _ (held ▸ (Using.refl k).hold ROOTINO) root (Nat.lt_succ_self _)
  · rw [ensures_bind, idup, ensures_modify]
    refine walk_ensures sound connected _ ⟨rfl, fun i => ?_, fun _ _ read => read⟩ current
      (Nat.lt_succ_self _)
    by_cases same : i = cwd
    · simp [same]
    · simp [same, Ne.symm same]

/-- namex ends where the names of the path lead, and the inode that it returns is used once more. It
stops only if the inode cache is full. -/
theorem namex_follows (sound : Fs.Sound sb k.fs.disk)
    (connected : Connected sb.ninodes (files sb k.fs.disk) k.ref)
    (root : Present sb.ninodes (files sb k.fs.disk) k.ref ROOTINO)
    (current : Present sb.ninodes (files sb k.fs.disk) k.ref cwd) :
    Ensures (namex sb cwd path nameiparent) k
      (fun result k' => k'.fs = k.fs ∧
        result = (destination (files sb k.fs.disk) nameiparent (start cwd path) (elements path)).map
          (·, (elements path).getLastD []) ∧
        ∀ i, k'.ref i = if result.map Prod.fst = some i then k.ref i + 1 else k.ref i)
      (fun reason => reason = .cacheFull) := by
  refine (namex_ensures sound connected root current).mono (fun result last done => ?_)
    fun _ stopped => stopped
  obtain ⟨rfl, uses⟩ := done
  refine ⟨uses.fs, rfl, fun i => ?_⟩
  rw [uses.ref]
  cases destination (files sb k.fs.disk) nameiparent (start cwd path) (elements path) with
  | none => rfl
  | some ip => by_cases same : ip = i <;> simp [same]

end Volumes

/-- The volume with a directory leads to its root and to its file. -/
theorem planted_connected {files : Nat → File} {ref : Nat → Nat} (first : files 1 = root)
    (second : files 2 = ⟨2, 0, 0, 1, []⟩) (alone : ∀ d < 200, (files d).type ≠ 0 → d = 1 ∨ d = 2) :
    Connected 200 files ref ∧ Present 200 files ref 1 := by
  have only : ∀ d, Present 200 files ref d → (files d).type = T_DIR → d = 1 := by
    intro d present dir
    refine (alone d present.inside present.typed).resolve_right ?_
    rintro rfl
    rw [second] at dir
    exact absurd dir (by decide)
  have one : Present 200 files ref 1 := by
    refine ⟨by decide, ?_, .inl ?_⟩ <;> rw [first] <;> decide
  have two : Present 200 files ref 2 := by
    refine ⟨by decide, ?_, .inl ?_⟩ <;> rw [second] <;> decide
  refine ⟨⟨fun d present dir => ?_, fun d name next present dir found => ?_⟩, one⟩
  · obtain rfl := only d present dir
    exact first ▸ root_directory
  · obtain rfl := only d present dir
    rw [first] at found
    obtain ⟨j, inside, -, rfl⟩ := File.table_some found
    have numbers : ∀ j < root.entries, (root.entry j).inum.toNat = 1 ∨ (root.entry j).inum.toNat = 2 := by
      decide
    obtain number | number := numbers j inside <;> rw [number] <;> assumption

theorem namex_follows_planted :
    Ensures (serveAll mkfsSuperblock (fun _ => ⟨0, 0, false, false⟩) planting) ⟨formatted mkfsSuperblock, []⟩
      (fun _ after => Ensures (namex mkfsSuperblock 1 [47, 46, 47, 47, 97] false)
        ⟨after, fun _ => 0, fun _ => false, 50⟩
        (fun result k' => result = some (2, [97]) ∧ k'.ref 2 = 1 ∧ k'.ref 1 = 0)
        (fun reason => reason = .cacheFull))
      (fun _ => False) := by
  refine planted.mono (fun _ after done => ?_) fun _ stopped => stopped
  obtain ⟨sound, first, second, alone⟩ := done
  obtain ⟨connected, present⟩ := @planted_connected _ (fun _ => 0) first second alone
  refine (@namex_follows mkfsSuperblock ⟨after, fun _ => 0, fun _ => false, 50⟩ 1 [47, 46, 47, 47, 97] false
    sound connected present present).mono (fun result k' walked => ?_) fun _ stopped => stopped
  obtain ⟨-, answer, ref⟩ := walked
  have names : elements [47, 46, 47, 47, 97] = [[46], [97]] := by decide
  have self : root.table [46] = some 1 := by decide
  have child : root.table [97] = some 2 := by decide
  have type : root.type = T_DIR := rfl
  have leads : destination (files mkfsSuperblock after.disk) false ROOTINO [[46], [97]] = some 2 := by
    simp only [destination, follow, ROOTINO, first, type, self, child, if_true, Option.bind_some]
  have led : result = some (2, [97]) := by
    rw [answer, names, start, if_pos (by decide), leads]
    rfl
  rw [ref, ref, led]
  exact ⟨rfl, rfl, rfl⟩

end Kernel

end Cs537.Filesystem
