import Cs537.Filesystem.References

/-!
# Truncating a file

`itrunc` gives back the blocks of a file, those of the indirect block before the indirect
block itself, and writes the inode back. Each block is marked when it is given back, so
the panic of `bfree` does not happen.
-/

namespace Cs537.Filesystem.Fs

open Allocation Programs

/-! ## itrunc -/

/-- Only the free map was written. -/
structure MapOnly (sb : Superblock) (fs fs' : Fs) : Prop where
  data : ∀ c, sb.nmeta ≤ c → fs'.disk c = fs.disk c
  inodes : ∀ c, c < sb.bmapstart → fs'.disk c = fs.disk c

section Truncation

variable {sb : Superblock} {table : Nat → Inode} {fs fs' fs'' : Fs} {inum i b : Nat}

theorem MapOnly.refl (fs : Fs) : MapOnly sb fs fs := ⟨fun _ _ => rfl, fun _ _ => rfl⟩

theorem MapOnly.trans (first : MapOnly sb fs fs') (second : MapOnly sb fs' fs'') :
    MapOnly sb fs fs'' :=
  ⟨fun c data => (second.data c data).trans (first.data c data),
    fun c before => (second.inodes c before).trans (first.inodes c before)⟩

theorem Frees.mapOnly (frees : Frees sb fs fs' b) (inside : b < sb.size) : MapOnly sb fs fs' :=
  ⟨fun _ data => frees.data inside data, fun _ before => frees.inodes before⟩

/-- A reference is dropped and its block is given back. -/
theorem Frees.release {held held' : Nat × Nat → Option Nat} {slot : Nat × Nat}
    (frees : Frees sb fs fs' b)
    (books : Exact (· < sb.size) (· < sb.nmeta) held (marked sb fs.disk · = true))
    (refers : held slot = some b)
    (after : ∀ other, held' other = if other = slot then none else held other) :
    Exact (· < sb.size) (· < sb.nmeta) held' (marked sb fs'.disk · = true) := by
  refine books.release refers ?_ ?_ ?_
  · rw [after, if_pos rfl]
  · exact fun other apart => by rw [after, if_neg apart]
  · intro c _
    rw [frees.marks, Bool.and_eq_true, decide_eq_true_eq]

/-- The references after a direct address was cleared. -/
theorem held_clear (volume : Volume sb table fs.disk) (mapOnly : MapOnly sb fs fs')
    (inside : i < NDIRECT) (slot : Nat × Nat) :
    held (Function.update table inum ((table inum).setAddr i 0)) fs'.disk slot =
      if slot = (inum, i) then none else held table fs.disk slot := by
  obtain ⟨p, k⟩ := slot
  have indirect : ∀ c, held table fs.disk (p, NDIRECT) = some c → fs'.disk c = fs.disk c :=
    fun c refers => mapOnly.data c (volume.data refers)
  by_cases other : p = inum
  · subst other
    have addr : ∀ k, ((table p).setAddr i 0).addr k = if k = i then 0 else (table p).addr k :=
      fun k => Inode.addr_setAddr (by decide) (by omega)
    by_cases same : k = i
    · subst same
      rw [if_pos rfl, held_none_iff, Function.update_self, Inode.entry_direct (by omega), addr, if_pos rfl]
    · have entry : ((table p).setAddr i 0).entry fs'.disk k = (table p).entry fs.disk k := by
        have last : ((table p).setAddr i 0).addr NDIRECT = (table p).addr NDIRECT := by
          rw [addr, if_neg (by omega)]
        unfold Inode.entry
        rw [addr, if_neg same, last]
        by_cases absent : (table p).addr NDIRECT = 0
        · rw [if_pos absent, if_pos absent]
        · rw [indirect _ (held_addr (by decide) absent)]
      rw [if_neg fun equal => same (Prod.mk.inj equal).2]
      simp only [held, Function.update_self, entry]
  · rw [if_neg fun equal => other (Prod.mk.inj equal).1]
    exact held_congr (Function.update_of_ne other _ _) indirect

/-- The loop over the addresses gives back the blocks of the visited ones. -/
theorem freeDirect_ensures (items : List Nat) (direct : ∀ i ∈ items, i < NDIRECT)
    (volume : Volume sb table fs.disk) :
    Ensures (freeDirect sb (table inum) items) fs
      (fun ip after => Volume sb (Function.update table inum ip) after.disk ∧
        (∀ k, ip.addr k = if k ∈ items then 0 else (table inum).addr k) ∧
        ip = { table inum with addrs := ip.addrs } ∧ MapOnly sb fs after)
      (fun _ => False) := by
  induction items generalizing table fs with
  | nil =>
    rw [freeDirect, ensures_pure, Function.update_eq_self]
    exact ⟨volume, fun k => by simp, rfl, .refl fs⟩
  | cons i rest inductionHypothesis =>
    have here : i < NDIRECT := direct i List.mem_cons_self
    have later : ∀ j ∈ rest, j < NDIRECT := fun j member => direct j (List.mem_cons_of_mem _ member)
    rw [freeDirect, ensures_ite]
    split_ifs with present
    · have refers := @held_addr table fs.disk inum i (Nat.lt_succ_of_lt here) present
      rw [ensures_bind]
      refine (bfree_ensures fs (volume.marked_of_held refers)).mono (fun _ mid frees => ?_)
        fun _ stopped => stopped
      have mapOnly := frees.mapOnly (volume.inside _ _ refers)
      have cleared : Volume sb (Function.update table inum ((table inum).setAddr i 0)) mid.disk :=
        frees.release volume refers (held_clear volume mapOnly here)
      have addr : ∀ k, ((table inum).setAddr i 0).addr k = if k = i then 0 else (table inum).addr k :=
        fun k => Inode.addr_setAddr (by decide) (Nat.lt_succ_of_lt here)
      have rest := inductionHypothesis later cleared
      rw [Function.update_self] at rest
      refine rest.mono (fun ip after done => ?_) fun _ stopped => stopped
      obtain ⟨sound, addrs, fields, others⟩ := done
      rw [Function.update_idem] at sound
      refine ⟨sound, fun k => ?_, fields, mapOnly.trans others⟩
      rw [addrs k, addr k]
      by_cases same : k = i <;> simp [same]
    · refine (inductionHypothesis later volume).mono (fun ip after done => ?_) fun _ stopped => stopped
      obtain ⟨sound, addrs, fields, others⟩ := done
      refine ⟨sound, fun k => ?_, fields, others⟩
      rw [addrs k]
      by_cases same : k = i
      · subst same
        simp [not_not.mp present]
      · simp [same]

/-- The references that remain when those at some places of an inode are gone. -/
def without (held : Nat × Nat → Option Nat) (inum : Nat) (places : List Nat) (slot : Nat × Nat) :
    Option Nat :=
  if slot.1 = inum ∧ slot.2 ∈ places then none else held slot

/-- The loop over the entries of an indirect block gives back the blocks of the visited ones. The
entries stay in the block, so the references are counted apart from it. -/
theorem freeIndirect_ensures (a : Block) (items : List Nat) (distinct : items.Nodup)
    {held : Nat × Nat → Option Nat}
    (books : Exact (· < sb.size) (· < sb.nmeta) held (marked sb fs.disk · = true))
    (entries : ∀ j ∈ items, held (inum, j + (NDIRECT + 1)) =
      if (a.word j).toNat = 0 then none else some (a.word j).toNat) :
    Ensures (freeIndirect sb a items) fs
      (fun _ after => Exact (· < sb.size) (· < sb.nmeta)
          (without held inum (items.map (· + (NDIRECT + 1)))) (marked sb after.disk · = true) ∧
        MapOnly sb fs after)
      (fun _ => False) := by
  induction items generalizing held fs with
  | nil =>
    rw [freeIndirect, ensures_pure]
    exact ⟨books.congr (fun slot => by simp [without]) fun _ _ => Iff.rfl, .refl fs⟩
  | cons j rest inductionHypothesis =>
    obtain ⟨absent, restDistinct⟩ := List.nodup_cons.mp distinct
    have entry := entries j List.mem_cons_self
    have shrink : ∀ slot, without held inum ((j :: rest).map (· + (NDIRECT + 1))) slot =
        without (without held inum [j + (NDIRECT + 1)]) inum (rest.map (· + (NDIRECT + 1))) slot := by
      intro slot
      simp only [without, List.map_cons, List.mem_cons, List.not_mem_nil, or_false]
      grind
    have kept : ∀ k ∈ rest, without held inum [j + (NDIRECT + 1)] (inum, k + (NDIRECT + 1)) =
        if (a.word k).toNat = 0 then none else some (a.word k).toNat := by
      intro k member
      have apart : k ≠ j := fun same => absent (same ▸ member)
      rw [without, if_neg (by simpa using apart), entries k (List.mem_cons_of_mem _ member)]
    rw [freeIndirect, ensures_ite]
    split_ifs with present
    · have used : (a.word j).toNat ≠ 0 := fun zero => present (BitVec.eq_of_toNat_eq zero)
      have each : ∀ other, without held inum [j + (NDIRECT + 1)] other =
          if other = (inum, j + (NDIRECT + 1)) then none else held other := by
        intro other
        simp only [without, List.mem_singleton, Prod.ext_iff]
      rw [if_neg used] at entry
      rw [ensures_bind]
      refine (bfree_ensures fs (books.marked_of_held entry)).mono (fun _ mid frees => ?_)
        fun _ stopped => stopped
      have mapOnly := frees.mapOnly (books.inside _ _ entry)
      have released := frees.release books entry each
      refine (inductionHypothesis restDistinct released kept).mono (fun _ after done => ?_)
        fun _ stopped => stopped
      exact ⟨done.1.congr shrink fun _ _ => Iff.rfl, mapOnly.trans done.2⟩
    · have zero : (a.word j).toNat = 0 := by
        rw [not_not.mp present]
        rfl
      rw [if_pos zero] at entry
      have same : ∀ slot, without held inum [j + (NDIRECT + 1)] slot = held slot := by
        intro slot
        simp only [without, List.mem_singleton]
        split_ifs with here
        · rw [← entry, ← here.1, ← here.2]
        · rfl
      refine (inductionHypothesis restDistinct (books.congr same fun _ _ => Iff.rfl) kept).mono
        (fun _ after done => ?_) fun _ stopped => stopped
      exact ⟨done.1.congr shrink fun _ _ => Iff.rfl, done.2⟩

/-- The references after the indirect block and its entries were given back. -/
theorem held_clearIndirect (volume : Volume sb table fs.disk) (mapOnly : MapOnly sb fs fs')
    (present : (table inum).addr NDIRECT ≠ 0) (slot : Nat × Nat) :
    held (Function.update table inum ((table inum).setAddr NDIRECT 0)) fs'.disk slot =
      if slot = (inum, NDIRECT) then none
      else without (held table fs.disk) inum ((List.range NINDIRECT).map (· + (NDIRECT + 1))) slot := by
  obtain ⟨p, k⟩ := slot
  have indirect : ∀ c, held table fs.disk (p, NDIRECT) = some c → fs'.disk c = fs.disk c :=
    fun c refers => mapOnly.data c (volume.data refers)
  by_cases other : p = inum
  · subst other
    have addr : ∀ k, ((table p).setAddr NDIRECT 0).addr k =
        if k = NDIRECT then 0 else (table p).addr k :=
      fun k => Inode.addr_setAddr (by decide) (by decide)
    by_cases direct : k < NDIRECT + 1
    · have inside : k ∉ (List.range NINDIRECT).map (· + (NDIRECT + 1)) := by
        rw [List.mem_map]
        rintro ⟨j, _, rfl⟩
        omega
      have entry : ((table p).setAddr NDIRECT 0).entry fs'.disk k =
          if k = NDIRECT then 0 else (table p).entry fs.disk k := by
        rw [Inode.entry_direct direct, addr, Inode.entry_direct direct]
      simp only [held, Function.update_self, entry, without, inside, and_false, if_false,
        Prod.mk.injEq, true_and]
      split_ifs <;> simp_all
    · have gone : ((table p).setAddr NDIRECT 0).entry fs'.disk k = 0 := by
        rw [Inode.entry_indirect (by omega), addr, if_pos rfl, if_pos rfl]
      have apart : (p, k) ≠ (p, NDIRECT) := fun equal => by
        rw [(Prod.mk.inj equal).2] at direct
        exact direct (by decide)
      rw [if_neg apart, held_none_iff.mpr (by rw [Function.update_self]; exact gone), without]
      split_ifs with listed
      · rfl
      · symm
        have beyond : ¬ k - (NDIRECT + 1) < NINDIRECT := by
          intro small
          refine listed ⟨rfl, List.mem_map.mpr ⟨k - (NDIRECT + 1), List.mem_range.mpr small, ?_⟩⟩
          omega
        rw [held_none_iff, Inode.entry_indirect (by omega), if_neg present, Block.word,
          dif_neg (by exact beyond)]
        rfl
  · have apart : (p, k) ≠ (inum, NDIRECT) := fun equal => other (Prod.mk.inj equal).1
    rw [if_neg apart, without, if_neg fun both => other both.1]
    exact held_congr (Function.update_of_ne other _ _) indirect

/-- The second half of itrunc gives back the indirect block and the blocks of its entries. -/
theorem truncIndirect_ensures (volume : Volume sb table fs.disk) :
    Ensures (truncIndirect sb (table inum)) fs
      (fun ip after => Volume sb (Function.update table inum ip) after.disk ∧
        (∀ k, ip.addr k = if k = NDIRECT then 0 else (table inum).addr k) ∧
        ip = { table inum with addrs := ip.addrs } ∧ MapOnly sb fs after)
      (fun _ => False) := by
  have addr : ∀ k, ((table inum).setAddr NDIRECT 0).addr k =
      if k = NDIRECT then 0 else (table inum).addr k :=
    fun k => Inode.addr_setAddr (by decide) (by decide)
  rw [truncIndirect, ensures_ite]
  split_ifs with present
  · have refers := @held_addr table fs.disk inum NDIRECT (by decide) present
    have entries : ∀ j ∈ List.range NINDIRECT, held table fs.disk (inum, j + (NDIRECT + 1)) =
        if ((fs.disk ((table inum).addr NDIRECT)).word j).toNat = 0 then none
        else some ((fs.disk ((table inum).addr NDIRECT)).word j).toNat := by
      intro j _
      rw [held, Inode.entry_indirect (by omega), if_neg present, Nat.add_sub_cancel]
    simp only [ensures_bind, ensures_bread]
    refine (freeIndirect_ensures _ _ List.nodup_range volume entries).mono (fun _ mid freed => ?_)
      fun _ stopped => stopped
    obtain ⟨books, mapOnly⟩ := freed
    have still : without (held table fs.disk) inum
        ((List.range NINDIRECT).map (· + (NDIRECT + 1))) (inum, NDIRECT) =
          some ((table inum).addr NDIRECT) := by
      rw [without, if_neg, refers]
      rintro ⟨_, listed⟩
      obtain ⟨j, _, equal⟩ := List.mem_map.mp listed
      omega
    refine (bfree_ensures mid (books.marked_of_held still)).mono (fun _ after frees => ?_)
      fun _ stopped => stopped
    have all := mapOnly.trans (frees.mapOnly (books.inside _ _ still))
    exact ⟨frees.release books still (held_clearIndirect volume all present), addr, rfl, all⟩
  · rw [ensures_pure, Function.update_eq_self]
    refine ⟨volume, fun k => ?_, rfl, .refl fs⟩
    split_ifs with same
    · rw [same, not_not.mp present]
    · rfl

end Truncation

/-! ## The table on the disk -/

/-- An inode on the disk. -/
def dinode (sb : Superblock) (disk : Nat → Block) (inum : Nat) : Inode :=
  if inum < sb.ninodes then (disk (sb.IBLOCK inum)).inode (inum % IPB) else .blank

section Table

variable {sb : Superblock} {table : Nat → Inode} {disk disk' : Nat → Block} {fs fs' : Fs} {inum : Nat}
  {ip : Inode}

/-- Inodes are read from the blocks before the free map. -/
theorem dinode_congr (same : ∀ c, c < sb.bmapstart → disk' c = disk c) :
    dinode sb disk' = dinode sb disk := by
  funext p
  unfold dinode
  split_ifs with inside
  · rw [same _ (IBLOCK_lt inside)]
  · rfl

/-- Two inodes with one place in their block. -/
theorem same_inode {p q : Nat} (block : sb.IBLOCK p = sb.IBLOCK q) : p % IPB = q % IPB ↔ p = q := by
  have quotient : p / IPB = q / IPB := Nat.add_right_cancel block
  constructor
  · intro place
    rw [← Nat.div_add_mod p IPB, quotient, place, Nat.div_add_mod]
  · exact fun same => by rw [same]

/-- iupdate writes the inode to the table on the disk and nothing else. -/
theorem dinode_iupdate (inside : inum < sb.ninodes) (fs : Fs) :
    dinode sb (fs.log (sb.IBLOCK inum)
        ((fs.disk (sb.IBLOCK inum)).setInode (inum % IPB) ip)).disk =
      Function.update (dinode sb fs.disk) inum ip := by
  funext p
  by_cases block : sb.IBLOCK p = sb.IBLOCK inum
  · by_cases within : p < sb.ninodes
    · rw [dinode, if_pos within, block, log_self, Block.inode_setInode _ _ (Nat.mod_lt p (by decide))]
      simp only [same_inode block, Function.update_apply]
      split_ifs
      · rfl
      · rw [dinode, if_pos within, block]
    · have other : p ≠ inum := fun same => within (same ▸ inside)
      rw [Function.update_of_ne other, dinode, dinode, if_neg within, if_neg within]
  · have other : p ≠ inum := fun same => block (by rw [same])
    rw [Function.update_of_ne other, dinode, dinode, log_other _ _ block]

/-- After iupdate the table on the disk is the one that the call worked with. -/
theorem Volume.iupdate (inside : inum < sb.ninodes)
    (volume : Volume sb (Function.update (dinode sb fs.disk) inum ip) fs.disk) :
    Volume sb (dinode sb (fs.log (sb.IBLOCK inum)
        ((fs.disk (sb.IBLOCK inum)).setInode (inum % IPB) ip)).disk)
      (fs.log (sb.IBLOCK inum) ((fs.disk (sb.IBLOCK inum)).setInode (inum % IPB) ip)).disk := by
  rw [dinode_iupdate inside]
  have before : sb.IBLOCK inum < sb.bmapstart := IBLOCK_lt inside
  refine volume.congr (fun slot => ?_) fun c within => ?_
  · refine held_congr rfl fun c refers => log_other _ _ ?_
    have := volume.data refers
    have := @bmapstart_lt_nmeta sb
    omega
  · have apart : sb.BBLOCK c ≠ sb.IBLOCK inum := by
      have := @bmapstart_le_BBLOCK sb c
      omega
    rw [marked_congr (log_other _ _ apart)]

/-- The references depend on the addresses only. -/
theorem Volume.fields {ip' : Inode} (addrs : ip'.addrs = ip.addrs)
    (volume : Volume sb (Function.update table inum ip) disk) :
    Volume sb (Function.update table inum ip') disk := by
  refine volume.congr (fun slot => ?_) fun _ _ => Iff.rfl
  by_cases same : slot.1 = inum
  · simp only [held, same, Function.update_self, Inode.entry_congr addrs fun _ => rfl]
  · exact held_congr (by rw [Function.update_of_ne same, Function.update_of_ne same]) fun _ _ => rfl

theorem Inode.addrs_zero (absent : ∀ k, k < NDIRECT + 1 → ip.addr k = 0) : ip.addrs = fun _ => 0 := by
  funext k
  have zero := absent k k.isLt
  rw [Inode.addr, dif_pos k.isLt] at zero
  exact BitVec.eq_of_toNat_eq zero

/-- itrunc gives back every block of the inode and leaves the others alone. It never stops. -/
theorem itrunc_ensures (inside : inum < sb.ninodes) (volume : Volume sb (dinode sb fs.disk) fs.disk) :
    Ensures (itrunc sb inum (dinode sb fs.disk inum)) fs
      (fun ip after => ip = { dinode sb fs.disk inum with size := 0, addrs := fun _ => 0 } ∧
        Volume sb (dinode sb after.disk) after.disk ∧
        dinode sb after.disk = Function.update (dinode sb fs.disk) inum ip ∧
        ∀ c, sb.nmeta ≤ c → after.disk c = fs.disk c)
      (fun _ => False) := by
  have direct : ∀ i ∈ List.range NDIRECT, i < NDIRECT := fun i => List.mem_range.mp
  rw [itrunc, ensures_bind]
  refine (freeDirect_ensures _ direct volume).mono (fun first mid done => ?_) fun _ stopped => stopped
  obtain ⟨sound, addrs, fields, mapOnly⟩ := done
  rw [ensures_bind]
  have second := @truncIndirect_ensures sb _ _ inum sound
  rw [Function.update_self] at second
  refine second.mono (fun ip last done => ?_) fun _ stopped => stopped
  obtain ⟨sound', addrs', fields', mapOnly'⟩ := done
  rw [Function.update_idem] at sound'
  have all := mapOnly.trans mapOnly'
  have none : ip.addrs = fun _ => 0 := by
    refine Inode.addrs_zero fun k small => ?_
    rw [addrs' k, addrs k]
    by_cases last : k = NDIRECT
    · rw [if_pos last]
    · rw [if_neg last, if_pos (List.mem_range.mpr (by omega))]
  have result : { ip with size := 0 } =
      ({ dinode sb fs.disk inum with size := 0, addrs := fun _ => 0 } : Inode) := by
    rw [fields', fields, none]
  simp only [iupdate, ensures_bind, ensures_bread, ensures_log_write, ensures_pure]
  rw [← dinode_congr all.inodes] at sound'
  have same : ({ ip with size := 0 } : Inode).addrs = ip.addrs := rfl
  have cut := sound'.fields same
  refine ⟨result, cut.iupdate inside, ?_, fun c data => ?_⟩
  · rw [dinode_iupdate inside, dinode_congr all.inodes]
  · have := IBLOCK_lt inside
    have := @bmapstart_lt_nmeta sb
    rw [log_other _ _ (by omega)]
    exact all.data c data

end Table

end Cs537.Filesystem.Fs
