import Cs537.Library.Allocation
import Cs537.Filesystem.FreeMap

/-!
# Which blocks belong to which files

An inode refers to blocks by its addresses and by the entries of its indirect block. On a
sound volume no block has two references, every referenced block is a data block, and the
free map marks the blocks before the data and the referenced ones. The inode that a call
works on may be ahead of the disk, so the table of inodes is given apart from the disk.

`bmap` adds a reference to each block that it takes, and the volume stays sound.
-/

namespace Cs537.Filesystem.Inode

/-- The block numbers that an inode refers to: its addresses, then the entries of its indirect
block. Zero stands for none. -/
def entry (disk : Nat → Block) (ip : Inode) (k : Nat) : Nat :=
  if k < NDIRECT + 1 then ip.addr k
  else if ip.addr NDIRECT = 0 then 0
  else ((disk (ip.addr NDIRECT)).word (k - (NDIRECT + 1))).toNat

section Entries

variable {disk disk' : Nat → Block} {ip : Inode} {i k b : Nat}

theorem addr_setAddr (small : b < 2 ^ 32) (inside : i < NDIRECT + 1) :
    (ip.setAddr i b).addr k = if k = i then b else ip.addr k := by
  by_cases within : k < NDIRECT + 1
  · simp only [addr, setAddr, within, dif_pos]
    by_cases same : k = i
    · simp only [same, if_true, BitVec.toNat_ofNat, Nat.mod_eq_of_lt small]
    · simp only [same, if_false]
  · have other : k ≠ i := fun same => within (same ▸ inside)
    simp only [addr, within, dif_neg, not_false_iff, other, if_false]

theorem entry_direct (inside : k < NDIRECT + 1) : ip.entry disk k = ip.addr k := if_pos inside

theorem entry_indirect (outside : NDIRECT < k) :
    ip.entry disk k = if ip.addr NDIRECT = 0 then 0
      else ((disk (ip.addr NDIRECT)).word (k - (NDIRECT + 1))).toNat :=
  if_neg (by omega)

/-- The entries depend on the addresses and on the indirect block. -/
theorem entry_congr {ip' : Inode} (addrs : ip'.addrs = ip.addrs)
    (same : ip.addr NDIRECT ≠ 0 → disk' (ip.addr NDIRECT) = disk (ip.addr NDIRECT)) :
    ip'.entry disk' k = ip.entry disk k := by
  have each : ∀ i, ip'.addr i = ip.addr i := fun i => by simp only [addr, addrs]
  simp only [entry, each]
  split_ifs with direct none
  · rfl
  · rfl
  · rw [same none]

end Entries

end Cs537.Filesystem.Inode

namespace Cs537.Filesystem.Fs

open Allocation Programs

/-- The block that an inode of the table refers to. -/
def held (table : Nat → Inode) (disk : Nat → Block) (slot : Nat × Nat) : Option Nat :=
  if (table slot.1).entry disk slot.2 = 0 then none else some ((table slot.1).entry disk slot.2)

/-- The volume is sound. -/
def Volume (sb : Superblock) (table : Nat → Inode) (disk : Nat → Block) : Prop :=
  Exact (· < sb.size) (· < sb.nmeta) (held table disk) (marked sb disk · = true)

section Volumes

variable {sb : Superblock} {table table' : Nat → Inode} {disk disk' : Nat → Block} {fs fs' : Fs}
  {inum i k b : Nat} {slot : Nat × Nat}

theorem held_some_iff : held table disk slot = some b ↔ (table slot.1).entry disk slot.2 = b ∧ b ≠ 0 := by
  unfold held
  split_ifs with zero
  · simp only [false_iff, not_and, not_not, zero]
    exact Eq.symm
  · rw [Option.some.injEq]
    exact ⟨fun same => ⟨same, same ▸ zero⟩, And.left⟩

theorem held_none_iff : held table disk slot = none ↔ (table slot.1).entry disk slot.2 = 0 := by
  simp only [held, ite_eq_left_iff, reduceCtorEq, imp_false, not_not]

/-- An address that is not zero is a reference. -/
theorem held_addr (inside : i < NDIRECT + 1) (present : (table inum).addr i ≠ 0) :
    held table disk (inum, i) = some ((table inum).addr i) :=
  held_some_iff.mpr ⟨Inode.entry_direct inside, present⟩

theorem Volume.data (volume : Volume sb table disk) (refers : held table disk slot = some b) :
    sb.nmeta ≤ b := by
  have := volume.apart slot b refers
  simpa using this

/-- A free block is a data block that nobody refers to. -/
theorem Claims.fresh (claims : Claims sb fs fs' b) (volume : Volume sb table fs.disk) :
    sb.nmeta ≤ b ∧ ∀ slot, held table fs.disk slot ≠ some b := by
  obtain ⟨data, nobody⟩ := volume.unmarked claims.inside (by simp [claims.unmarked])
  exact ⟨by simpa using data, nobody⟩

/-- What the table refers to is left alone when a block is taken. -/
theorem Claims.kept (claims : Claims sb fs fs' b) (volume : Volume sb table fs.disk) {c : Nat}
    (refers : held table fs.disk slot = some c) : fs'.disk c = fs.disk c :=
  claims.data (volume.data refers) fun same => (claims.fresh volume).2 slot (same ▸ refers)

/-- Another inode keeps its references if its indirect block keeps its content. -/
theorem held_congr (same : table' slot.1 = table slot.1)
    (kept : ∀ c, held table disk (slot.1, NDIRECT) = some c → disk' c = disk c) :
    held table' disk' slot = held table disk slot := by
  have entry : (table' slot.1).entry disk' slot.2 = (table slot.1).entry disk slot.2 := by
    rw [same]
    exact Inode.entry_congr rfl fun present => kept _ (held_addr (by decide) present)
  simp only [held, entry]

/-- The references after an address was given a new block. The entries of a new indirect block are
zero, as they were without it. -/
theorem held_setAddr (volume : Volume sb table fs.disk) (claims : Claims sb fs fs' b)
    (inside : i < NDIRECT + 1) (empty : (table inum).addr i = 0) (slot : Nat × Nat) :
    held (Function.update table inum ((table inum).setAddr i b)) fs'.disk slot =
      if slot = (inum, i) then some b else held table fs.disk slot := by
  obtain ⟨p, k⟩ := slot
  have small : b < 2 ^ 32 := claims.inside.trans size_small
  have positive : b ≠ 0 := fun zero => by
    have := (claims.fresh volume).1
    have := @nmeta_pos sb
    omega
  by_cases other : p = inum
  · subst other
    have addr : ∀ k, ((table p).setAddr i b).addr k = if k = i then b else (table p).addr k :=
      fun k => Inode.addr_setAddr small inside
    have entry : ((table p).setAddr i b).entry fs'.disk k =
        if k = i then b else (table p).entry fs.disk k := by
      by_cases direct : k < NDIRECT + 1
      · rw [Inode.entry_direct direct, addr, Inode.entry_direct direct]
      · have apart : k ≠ i := fun same => direct (same ▸ inside)
        have outside : NDIRECT < k := by omega
        rw [Inode.entry_indirect outside, Inode.entry_indirect outside, addr, if_neg apart]
        by_cases here : NDIRECT = i
        · subst here
          rw [if_pos rfl, if_neg positive, if_pos empty, claims.zero]
          simp [Block.word]
        · rw [if_neg here]
          by_cases absent : (table p).addr NDIRECT = 0
          · rw [if_pos absent, if_pos absent]
          · rw [if_neg absent, if_neg absent, claims.kept volume (held_addr (by decide) absent)]
    simp only [held, Function.update_self, entry, Prod.mk.injEq, true_and]
    by_cases same : k = i
    · simp [same, positive]
    · simp [same]
  · have different : (p, k) ≠ (inum, i) := fun same => other (Prod.mk.inj same).1
    rw [if_neg different]
    exact held_congr (Function.update_of_ne other _ _) fun c refers => claims.kept volume refers

/-- The references after an entry of an indirect block was given a new block. -/
theorem held_setWord (volume : Volume sb table fs.disk) (claims : Claims sb fs fs' b)
    (outside : NDIRECT < k) (inside : k - (NDIRECT + 1) < NINDIRECT)
    (present : (table inum).addr NDIRECT ≠ 0)
    (slot : Nat × Nat) :
    held table (fs'.log ((table inum).addr NDIRECT)
        ((fs.disk ((table inum).addr NDIRECT)).setWord (k - (NDIRECT + 1)) (BitVec.ofNat 32 b))).disk slot =
      if slot = (inum, k) then some b else held table fs.disk slot := by
  obtain ⟨p, l⟩ := slot
  have small : b < 2 ^ 32 := claims.inside.trans size_small
  have positive : b ≠ 0 := fun zero => by
    have := (claims.fresh volume).1
    have := @nmeta_pos sb
    omega
  have word : (BitVec.ofNat 32 b).toNat = b := by rw [BitVec.toNat_ofNat, Nat.mod_eq_of_lt small]
  by_cases other : p = inum
  · subst other
    have entry : (table p).entry (fs'.log ((table p).addr NDIRECT)
        ((fs.disk ((table p).addr NDIRECT)).setWord (k - (NDIRECT + 1)) (BitVec.ofNat 32 b))).disk l =
          if l = k then b else (table p).entry fs.disk l := by
      by_cases direct : l < NDIRECT + 1
      · rw [Inode.entry_direct direct, Inode.entry_direct direct, if_neg (by omega)]
      · have beyond : NDIRECT < l := by omega
        rw [Inode.entry_indirect beyond, Inode.entry_indirect beyond, if_neg present, if_neg present]
        simp only [log, Function.update_self]
        by_cases same : l = k
        · rw [same, Block.word_setWord_self inside, word, if_pos rfl]
        · rw [Block.word_setWord_other (by omega), if_neg same]
    simp only [held, entry, Prod.mk.injEq, true_and]
    by_cases same : l = k
    · simp [same, positive]
    · simp [same]
  · have different : (p, l) ≠ (inum, k) := fun same => other (Prod.mk.inj same).1
    rw [if_neg different]
    refine held_congr rfl fun c refers => ?_
    have apart : c ≠ (table inum).addr NDIRECT := by
      rintro rfl
      exact other (Prod.mk.inj (volume.sole _ _ _ refers (held_addr (by decide) present))).1
    rw [log_other _ _ apart]
    exact claims.kept volume refers

theorem Volume.setAddr (volume : Volume sb table fs.disk) (claims : Claims sb fs fs' b)
    (inside : i < NDIRECT + 1) (empty : (table inum).addr i = 0) :
    Volume sb (Function.update table inum ((table inum).setAddr i b)) fs'.disk := by
  have after := held_setAddr volume claims inside empty
  refine volume.claim (i := (inum, i)) ?_ claims.inside (by simp [claims.unmarked]) ?_ ?_ ?_
  · rw [held_none_iff, Inode.entry_direct inside]
    exact empty
  · rw [after, if_pos rfl]
  · exact fun slot other => by rw [after, if_neg other]
  · intro c within
    simp only [claims.marks (claims.fresh volume).1 within, Bool.or_eq_true, decide_eq_true_eq]

theorem Volume.setWord (volume : Volume sb table fs.disk) (claims : Claims sb fs fs' b)
    (outside : NDIRECT < k) (inside : k - (NDIRECT + 1) < NINDIRECT)
    (present : (table inum).addr NDIRECT ≠ 0)
    (empty : ((fs.disk ((table inum).addr NDIRECT)).word (k - (NDIRECT + 1))).toNat = 0) :
    Volume sb table (fs'.log ((table inum).addr NDIRECT)
      ((fs.disk ((table inum).addr NDIRECT)).setWord (k - (NDIRECT + 1)) (BitVec.ofNat 32 b))).disk := by
  have after := held_setWord volume claims outside inside present
  have data := volume.data (held_addr (by decide) present)
  refine volume.claim (i := (inum, k)) ?_ claims.inside (by simp [claims.unmarked]) ?_ ?_ ?_
  · rw [held_none_iff, Inode.entry_indirect outside, if_neg present]
    exact empty
  · rw [after, if_pos rfl]
  · exact fun slot other => by rw [after, if_neg other]
  · intro c within
    rw [marked_log data within, claims.marks (claims.fresh volume).1 within, Bool.or_eq_true,
      decide_eq_true_eq]

end Volumes

/-! ## bmap -/

/-- The place of a block of a file among the references of its inode. -/
def place (bn : Nat) : Nat := if bn < NDIRECT then bn else bn + 1

/-- How many blocks bmap takes: one if the block of the file is not there, and one if an indirect
block is needed and not there. -/
def cost (table : Nat → Inode) (disk : Nat → Block) (inum bn : Nat) : Nat :=
  (if held table disk (inum, place bn) = none then 1 else 0) +
    if NDIRECT ≤ bn ∧ (table inum).addr NDIRECT = 0 then 1 else 0

/-- What bmap did: the block of the file is at the address, a new one is zero, and the references
and contents of all other blocks of files are as before. -/
structure Mapped (sb : Superblock) (table : Nat → Inode) (inum bn : Nat) (fs fs' : Fs) (addr : Nat)
    (ip : Inode) : Prop where
  volume : Volume sb (Function.update table inum ip) fs'.disk
  here : held (Function.update table inum ip) fs'.disk (inum, place bn) = some addr
  others : ∀ slot, slot ≠ (inum, place bn) → slot ≠ (inum, NDIRECT) →
    held (Function.update table inum ip) fs'.disk slot = held table fs.disk slot
  indirect : ip.addr NDIRECT ≠ 0 ↔ (table inum).addr NDIRECT ≠ 0 ∨ NDIRECT ≤ bn
  address : (table inum).addr NDIRECT ≠ 0 → ip.addr NDIRECT = (table inum).addr NDIRECT
  fields : ip = { table inum with addrs := ip.addrs }
  kept : held table fs.disk (inum, place bn) ≠ none → ip = table inum ∧ fs' = fs
  zeroed : held table fs.disk (inum, place bn) = none → fs'.disk addr = fun _ => 0
  data : ∀ slot c, slot ≠ (inum, NDIRECT) → held table fs.disk slot = some c →
    fs'.disk c = fs.disk c
  inodes : ∀ c, c < sb.bmapstart → fs'.disk c = fs.disk c
  taken : available sb fs'.disk + cost table fs.disk inum bn = available sb fs.disk
  logged : ∃ writes, fs'.logged = fs.logged ++ writes ∧
    ∀ c ∈ writes, (∃ b, b < sb.size ∧ c = sb.BBLOCK b) ∨ c = addr ∨
      c = ip.addr NDIRECT ∧ ip.addr NDIRECT ≠ 0

section Mapping

variable {sb : Superblock} {table : Nat → Inode} {fs fs' : Fs} {inum bn b : Nat}

theorem cost_indirect {disk : Nat → Block} (outside : NDIRECT ≤ bn) : cost table disk inum bn =
    (if held table disk (inum, place bn) = none then 1 else 0) +
      if (table inum).addr NDIRECT = 0 then 1 else 0 := by
  simp only [cost, outside, true_and]

/-- The block is there. -/
theorem Mapped.present (volume : Volume sb table fs.disk) {addr : Nat}
    (here : held table fs.disk (inum, place bn) = some addr)
    (indirect : NDIRECT ≤ bn → (table inum).addr NDIRECT ≠ 0) :
    Mapped sb table inum bn fs fs addr (table inum) := by
  have same : Function.update table inum (table inum) = table := Function.update_eq_self inum table
  constructor
  · rwa [same]
  · rwa [same]
  · exact fun _ _ _ => by rw [same]
  · exact ⟨.inl, fun either => either.elim id indirect⟩
  · exact fun _ => rfl
  · rfl
  · exact fun _ => ⟨rfl, rfl⟩
  · exact fun absent => by simp [absent] at here
  · exact fun _ _ _ _ => rfl
  · exact fun _ _ => rfl
  · rw [cost, if_neg (by simp [here]), if_neg fun ⟨outside, absent⟩ => indirect outside absent]
    rfl
  · exact ⟨[], by simp, by simp⟩

/-- A direct block is new. -/
theorem Mapped.direct (volume : Volume sb table fs.disk) (claims : Claims sb fs fs' b)
    (inside : bn < NDIRECT) (empty : (table inum).addr bn = 0) :
    Mapped sb table inum bn fs fs' b ((table inum).setAddr bn b) := by
  have within : bn < NDIRECT + 1 := Nat.lt_succ_of_lt inside
  have after := held_setAddr volume claims within empty
  have here : place bn = bn := if_pos inside
  have other : ((table inum).setAddr bn b).addr NDIRECT = (table inum).addr NDIRECT := by
    rw [Inode.addr_setAddr (claims.inside.trans size_small) within, if_neg inside.ne']
  constructor
  · exact volume.setAddr claims within empty
  · rw [after, here, if_pos rfl]
  · exact fun slot different _ => by rw [after, if_neg (here ▸ different)]
  · rw [other, or_iff_left (by omega)]
  · exact fun _ => other
  · rfl
  · intro present
    rw [here, ne_eq, held_none_iff, Inode.entry_direct within] at present
    exact absurd empty present
  · exact fun _ => claims.zero
  · exact fun slot c _ refers => claims.kept volume refers
  · exact fun c before => claims.inodes (claims.fresh volume).1 before
  · have absent : held table fs.disk (inum, place bn) = none := by
      rw [here, held_none_iff, Inode.entry_direct within]
      exact empty
    rw [cost, if_pos absent, if_neg fun ⟨outside, _⟩ => by omega]
    exact claims.available (claims.fresh volume).1
  · refine ⟨[sb.BBLOCK b, b], ?_, ?_⟩
    · rw [claims.result, log, log, List.append_assoc, List.singleton_append]
    · intro c member
      rcases List.mem_pair.mp member with rfl | rfl
      · exact .inl ⟨b, claims.inside, rfl⟩
      · exact .inr (.inl rfl)

/-- The inode has an indirect block now, and its entries are as before. -/
structure Staged (sb : Superblock) (table : Nat → Inode) (inum : Nat) (fs fs' : Fs) (addr : Nat)
    (ip : Inode) : Prop where
  volume : Volume sb (Function.update table inum ip) fs'.disk
  address : ip.addr NDIRECT = addr
  present : addr ≠ 0
  others : ∀ slot, slot ≠ (inum, NDIRECT) →
    held (Function.update table inum ip) fs'.disk slot = held table fs.disk slot
  fields : ip = { table inum with addrs := ip.addrs }
  kept : (table inum).addr NDIRECT ≠ 0 → ip = table inum ∧ fs' = fs
  data : ∀ slot c, held table fs.disk slot = some c → fs'.disk c = fs.disk c
  inodes : ∀ c, c < sb.bmapstart → fs'.disk c = fs.disk c
  taken : available sb fs'.disk + (if (table inum).addr NDIRECT = 0 then 1 else 0) = available sb fs.disk
  logged : ∃ writes, fs'.logged = fs.logged ++ writes ∧
    ∀ c ∈ writes, (∃ b, b < sb.size ∧ c = sb.BBLOCK b) ∨ c = addr

/-- The first half of bmap for a block that is not direct. -/
theorem staged_ensures (volume : Volume sb table fs.disk) :
    Ensures (indirectBlock sb (table inum)) fs
      (fun result after => Staged sb table inum fs after result.1 result.2)
      (fun reason => reason = .outOfBlocks ∧ available sb fs.disk = 0 ∧
        (table inum).addr NDIRECT = 0) := by
  rw [indirectBlock, ensures_ite]
  split_ifs with empty
  · rw [ensures_bind]
    refine (balloc_ensures fs).mono (fun b after claims => ?_)
      fun _ stopped => ⟨stopped.1, stopped.2, empty⟩
    rw [ensures_pure]
    have after := held_setAddr volume claims (by decide) empty
    constructor
    · exact volume.setAddr claims (by decide) empty
    · rw [Inode.addr_setAddr (claims.inside.trans size_small) (by decide), if_pos rfl]
    · have := @nmeta_pos sb
      have := (claims.fresh volume).1
      change b ≠ 0
      omega
    · exact fun slot different => by rw [after, if_neg different]
    · rfl
    · exact fun present => absurd empty present
    · exact fun slot c refers => claims.kept volume refers
    · exact fun c before => claims.inodes (claims.fresh volume).1 before
    · rw [if_pos empty]
      exact claims.available (claims.fresh volume).1
    · refine ⟨[sb.BBLOCK b, b], ?_, ?_⟩
      · rw [claims.result, log, log, List.append_assoc, List.singleton_append]
      · intro c member
        rcases List.mem_pair.mp member with rfl | rfl
        · exact .inl ⟨b, claims.inside, rfl⟩
        · exact .inr rfl
  · rw [ensures_pure]
    have same : Function.update table inum (table inum) = table := Function.update_eq_self inum table
    constructor
    · rwa [same]
    · rfl
    · exact empty
    · exact fun _ _ => by rw [same]
    · rfl
    · exact fun _ => ⟨rfl, rfl⟩
    · exact fun _ _ _ => rfl
    · exact fun _ _ => rfl
    · rw [if_neg empty, Nat.add_zero]
    · exact ⟨[], by simp, by simp⟩

/-- An entry of the indirect block is new. -/
theorem Mapped.indirectly (volume : Volume sb table fs.disk) (claims : Claims sb fs fs' b)
    (outside : NDIRECT ≤ bn) (inside : bn - NDIRECT < NINDIRECT)
    (present : (table inum).addr NDIRECT ≠ 0)
    (empty : ((fs.disk ((table inum).addr NDIRECT)).word (bn - NDIRECT)).toNat = 0) :
    Mapped sb table inum bn fs (fs'.log ((table inum).addr NDIRECT)
      ((fs.disk ((table inum).addr NDIRECT)).setWord (bn - NDIRECT) (BitVec.ofNat 32 b))) b
      (table inum) := by
  have same : Function.update table inum (table inum) = table := Function.update_eq_self inum table
  have here : place bn = bn + 1 := if_neg (by omega)
  have index : bn - NDIRECT = bn + 1 - (NDIRECT + 1) := by omega
  have beyond : NDIRECT < bn + 1 := by omega
  have indirect := @held_addr table fs.disk inum NDIRECT (by decide) present
  have data := volume.data indirect
  rw [index] at inside empty ⊢
  have after := held_setWord volume claims beyond inside present
  constructor
  · rw [same]
    exact volume.setWord claims beyond inside present empty
  · rw [same, after, here, if_pos rfl]
  · exact fun slot different _ => by rw [same, after, if_neg (here ▸ different)]
  · exact ⟨.inl, fun _ => present⟩
  · exact fun _ => rfl
  · rfl
  · intro kept
    rw [here, ne_eq, held_none_iff, Inode.entry_indirect beyond, if_neg present] at kept
    exact absurd empty kept
  · intro _
    have apart : b ≠ (table inum).addr NDIRECT :=
      fun equal => (claims.fresh volume).2 _ (equal ▸ indirect)
    rw [log_other _ _ apart]
    exact claims.zero
  · intro slot c other refers
    have apart : c ≠ (table inum).addr NDIRECT := by
      rintro rfl
      exact other (volume.sole _ _ _ refers indirect)
    rw [log_other _ _ apart]
    exact claims.kept volume refers
  · intro c before
    have apart : c ≠ (table inum).addr NDIRECT := ((before.trans bmapstart_lt_nmeta).trans_le data).ne
    rw [log_other _ _ apart]
    exact claims.inodes (claims.fresh volume).1 before
  · have absent : held table fs.disk (inum, place bn) = none := by
      rw [here, held_none_iff, Inode.entry_indirect beyond, if_neg present]
      exact empty
    rw [cost, if_pos absent, if_neg fun ⟨_, zero⟩ => present zero,
      available_congr fun c inside => marked_log data inside]
    exact claims.available (claims.fresh volume).1
  · refine ⟨[sb.BBLOCK b, b, (table inum).addr NDIRECT], ?_, ?_⟩
    · rw [claims.result]
      simp [log]
    · intro c member
      simp only [List.mem_cons, List.not_mem_nil, or_false] at member
      rcases member with rfl | rfl | rfl
      · exact .inl ⟨b, claims.inside, rfl⟩
      · exact .inr (.inl rfl)
      · exact .inr (.inr ⟨rfl, present⟩)

/-- The second half of bmap after the first. -/
theorem Mapped.after {mid : Fs} {addr addr' : Nat} {ip : Inode}
    (staged : Staged sb table inum fs mid addr ip) (outside : NDIRECT ≤ bn)
    (mapped : Mapped sb (Function.update table inum ip) inum bn mid fs' addr' ip) :
    Mapped sb table inum bn fs fs' addr' ip := by
  have place_ne : (inum, place bn) ≠ (inum, NDIRECT) := by
    intro equal
    have := (Prod.mk.inj equal).2
    rw [place, if_neg (by omega)] at this
    omega
  have same := staged.others (inum, place bn) place_ne
  have volume := mapped.volume
  have here := mapped.here
  have others := mapped.others
  rw [Function.update_idem] at volume here others
  constructor
  · exact volume
  · exact here
  · exact fun slot different apart => (others slot different apart).trans (staged.others slot apart)
  · exact iff_of_true (staged.address ▸ staged.present) (.inr outside)
  · exact fun present => by rw [(staged.kept present).1]
  · exact staged.fields
  · intro present
    have indirect : (table inum).addr NDIRECT ≠ 0 := by
      intro absent
      rw [ne_eq, held_none_iff, Inode.entry_indirect (by rw [place, if_neg] <;> omega)] at present
      exact present (if_pos absent)
    obtain ⟨rfl, rfl⟩ := staged.kept indirect
    exact ⟨rfl, (mapped.kept (same ▸ present)).2⟩
  · exact fun absent => mapped.zeroed (same.trans absent)
  · intro slot c other refers
    rw [mapped.data slot c other ((staged.others slot other).trans refers)]
    exact staged.data slot c refers
  · exact fun c before => (mapped.inodes c before).trans (staged.inodes c before)
  · have present : ip.addr NDIRECT ≠ 0 := staged.address ▸ staged.present
    have first := staged.taken
    have second := mapped.taken
    rw [cost_indirect outside, same, Function.update_self, if_neg present] at second
    rw [cost_indirect outside]
    omega
  · obtain ⟨first, front, each⟩ := staged.logged
    obtain ⟨second, back, rest⟩ := mapped.logged
    refine ⟨first ++ second, by rw [back, front, List.append_assoc], fun c member => ?_⟩
    rcases List.mem_append.mp member with early | late
    · exact (each c early).imp_right fun equal =>
        .inr ⟨equal.trans staged.address.symm, staged.address ▸ staged.present⟩
    · exact rest c late

/-- bmap finds the block of a file or takes a new one for it, and stops only when there are not
enough free blocks. -/
theorem bmap_ensures (volume : Volume sb table fs.disk) (inside : bn < MAXFILE) :
    Ensures (bmap sb (table inum) bn) fs
      (fun result after => Mapped sb table inum bn fs after result.1 result.2)
      (fun reason => reason = .outOfBlocks ∧ available sb fs.disk < cost table fs.disk inum bn) := by
  unfold bmap
  by_cases direct : bn < NDIRECT
  · have within : bn < NDIRECT + 1 := Nat.lt_succ_of_lt direct
    have here : place bn = bn := if_pos direct
    rw [if_pos direct, ensures_ite]
    split_ifs with empty
    · rw [ensures_bind]
      refine (balloc_ensures fs).mono (fun b after claims => .direct volume claims direct empty)
        fun _ stopped => ⟨stopped.1, ?_⟩
      have absent : held table fs.disk (inum, place bn) = none := by
        rw [here, held_none_iff, Inode.entry_direct within]
        exact empty
      rw [cost, if_pos absent]
      omega
    · refine .present volume ?_ fun outside => by omega
      rw [here]
      exact held_addr within empty
  · have beyond : NDIRECT < bn + 1 := by omega
    have here : place bn = bn + 1 := if_neg direct
    have index : bn + 1 - (NDIRECT + 1) = bn - NDIRECT := by omega
    have small : bn - NDIRECT < NINDIRECT := by
      simp only [MAXFILE] at inside
      omega
    rw [if_neg direct, if_pos small, ensures_bind]
    have outside : NDIRECT ≤ bn := Nat.le_of_not_lt direct
    refine (staged_ensures volume).mono (fun result after staged => ?_) fun _ stopped =>
      ⟨stopped.1, by rw [cost_indirect outside, if_pos stopped.2.2]; omega⟩
    obtain ⟨addr, ip⟩ := result
    have mapped : ∀ addr' fs', Mapped sb (Function.update table inum ip) inum bn after fs' addr'
        (Function.update table inum ip inum) → Mapped sb table inum bn fs fs' addr' ip := by
      intro addr' fs' mapped
      rw [Function.update_self] at mapped
      exact mapped.after staged (by omega)
    have address : (Function.update table inum ip inum).addr NDIRECT = addr := by
      rw [Function.update_self]
      exact staged.address
    simp only [ensures_bind, ensures_bread, ensures_ite, ensures_pure, ensures_log_write]
    split_ifs with empty
    · refine (balloc_ensures after).mono (fun b last claims => mapped _ _ ?_)
        fun _ stopped => ⟨stopped.1, ?_⟩
      · rw [← address]
        refine .indirectly staged.volume claims (by omega) small ?_ ?_
        · rw [address]
          exact staged.present
        · rw [address, empty]
          rfl
      · have absent : held table fs.disk (inum, place bn) = none := by
          rw [← staged.others _ fun equal => by
            have := (Prod.mk.inj equal).2
            omega, held_none_iff, here, Inode.entry_indirect beyond, address, if_neg staged.present,
            index, empty]
          rfl
        have taken := staged.taken
        rw [cost_indirect outside, if_pos absent]
        omega
    · refine mapped _ _ (.present staged.volume ?_ fun _ => address.symm ▸ staged.present)
      rw [held_some_iff, here, Inode.entry_indirect beyond, address, if_neg staged.present, index]
      exact ⟨rfl, fun zero => empty (BitVec.eq_of_toNat_eq zero)⟩

end Mapping

end Cs537.Filesystem.Fs
