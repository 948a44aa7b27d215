import Cs537.Filesystem.Truncation
import Mathlib.Data.List.GetD
import Mathlib.Order.MinMax

/-!
# What a file contains

The blocks of a file are mapped up to its size and not beyond it, so that a read takes no
block and a write that stays inside the file takes none either. A write at most at the
end of the file changes the bytes that it is given and no others, in this file and in
every other one.
-/

namespace Cs537.Filesystem.Fs

open Allocation Programs

/-- A byte of a file. -/
def byteAt (disk : Nat → Block) (ip : Inode) (i : Nat) : Byte :=
  (disk (ip.entry disk (place (i / BSIZE)))).byte (i % BSIZE)

/-- The blocks of the file are mapped up to the length and not beyond it. -/
structure Filled (table : Nat → Inode) (disk : Nat → Block) (inum length : Nat) : Prop where
  fits : length ≤ MAXFILE * BSIZE
  mapped : ∀ bn, bn < MAXFILE → (held table disk (inum, place bn) ≠ none ↔ bn * BSIZE < length)
  indirect : (table inum).addr NDIRECT ≠ 0 ↔ NDIRECT * BSIZE < length

/-- How many blocks a file of the length needs, with its indirect block. -/
def blocks (length : Nat) : Nat :=
  (length + BSIZE - 1) / BSIZE + if NDIRECT * BSIZE < length then 1 else 0

section Blocks

variable {sb : Superblock} {table : Nat → Inode} {disk : Nat → Block} {fs fs' mid : Fs}
  {inum bn addr off length : Nat} {ip : Inode} {src : List Byte}

theorem place_ne (bn : Nat) : place bn ≠ NDIRECT := by
  unfold place
  split_ifs <;> omega

theorem place_inj {bn bn' : Nat} (same : place bn = place bn') : bn = bn' := by
  unfold place at same
  split_ifs at same <;> omega

/-- A mapped block is found as it is. -/
theorem bmap_present (inside : bn < MAXFILE) (here : held table fs.disk (inum, place bn) = some addr) :
    (bmap sb (table inum) bn).run fs = .ok ((addr, table inum), fs) := by
  obtain ⟨entry, positive⟩ := held_some_iff.mp here
  unfold bmap
  by_cases direct : bn < NDIRECT
  · rw [place, if_pos direct, Inode.entry_direct (Nat.lt_succ_of_lt direct)] at entry
    rw [if_pos direct, if_neg (by rw [entry]; exact positive), entry]
    rfl
  · have small : bn - NDIRECT < NINDIRECT := by
      simp only [MAXFILE] at inside
      omega
    have index : bn + 1 - (NDIRECT + 1) = bn - NDIRECT := by omega
    rw [place, if_neg direct, Inode.entry_indirect (by omega), index] at entry
    have present : (table inum).addr NDIRECT ≠ 0 := fun absent => positive (by rw [← entry, if_pos absent])
    rw [if_neg present] at entry
    have first : (indirectBlock sb (table inum)).run fs =
        .ok (((table inum).addr NDIRECT, table inum), fs) := by
      rw [indirectBlock, if_neg present]
      rfl
    have word : (fs.disk ((table inum).addr NDIRECT)).word (bn - NDIRECT) ≠ 0 := by
      intro zero
      rw [zero] at entry
      exact positive entry.symm
    rw [if_neg direct, if_pos small, run_bind_ok first]
    rw [run_bind_ok (bread_run fs _), if_neg word, entry]
    rfl

/-- A write to a block of a file changes no reference. -/
theorem held_write (volume : Volume sb table disk) {k : Nat} (other : k ≠ NDIRECT)
    (here : held table disk (inum, k) = some addr) (data : Block) (slot : Nat × Nat) :
    held table (Function.update disk addr data) slot = held table disk slot := by
  refine held_congr rfl fun c refers => Function.update_of_ne ?_ _ _
  rintro rfl
  exact other (Prod.mk.inj (volume.sole _ _ _ refers here)).2.symm

theorem Volume.write (volume : Volume sb table disk) {k : Nat} (other : k ≠ NDIRECT)
    (here : held table disk (inum, k) = some addr) (data : Block) :
    Volume sb table (Function.update disk addr data) := by
  refine volume.congr (held_write volume other here data) fun c inside => ?_
  have apart : sb.BBLOCK c ≠ addr := ((BBLOCK_lt inside).trans_le (volume.data here)).ne
  rw [marked_congr (Function.update_of_ne apart _ _)]

/-- A byte in a mapped block. -/
theorem byteAt_mapped {i : Nat} (here : held table disk (inum, place (i / BSIZE)) = some addr) :
    byteAt disk (table inum) i = (disk addr).byte (i % BSIZE) := by
  rw [byteAt, (held_some_iff.mp here).1]

theorem blocks_mono {length length' : Nat} (le : length ≤ length') : blocks length ≤ blocks length' := by
  unfold blocks
  have := Nat.div_le_div_right (c := BSIZE) (Nat.sub_le_sub_right (Nat.add_le_add_right le BSIZE) 1)
  split_ifs <;> omega

/-- What bmap takes for a piece at most at the end of the file is what the file then needs more. -/
theorem Filled.cost {m : Nat} (filled : Filled table disk inum length) (start : off ≤ length)
    (some : 0 < m) (piece : off % BSIZE + m ≤ BSIZE) (inside : off / BSIZE < MAXFILE) :
    blocks (max length (off + m)) = blocks length + cost table disk inum (off / BSIZE) := by
  have mapped := filled.mapped _ inside
  have indirect := filled.indirect
  have absent : held table disk (inum, place (off / BSIZE)) = none ↔ length ≤ off / BSIZE * BSIZE := by
    rw [← not_lt, ← mapped, not_not]
  have missing : (table inum).addr NDIRECT = 0 ↔ length ≤ NDIRECT * BSIZE := by
    rw [← not_lt, ← indirect, not_not]
  simp only [Fs.cost, absent, missing, blocks]
  clear mapped indirect absent missing
  split_ifs <;> simp only [NDIRECT, BSIZE] at * <;> omega

end Blocks

/-! ## Writing -/

/-- What a write did: it stands in the file, whose blocks are mapped up to its end, and nothing
else has changed. -/
structure Wrote (sb : Superblock) (table : Nat → Inode) (inum length off : Nat) (src : List Byte)
    (fs fs' : Fs) (ip : Inode) : Prop where
  volume : Volume sb (Function.update table inum ip) fs'.disk
  filled : Filled (Function.update table inum ip) fs'.disk inum (max length (off + src.length))
  fields : ip = { table inum with addrs := ip.addrs }
  bytes : ∀ i, i < max length (off + src.length) → byteAt fs'.disk ip i =
    if off ≤ i ∧ i < off + src.length then src.getD (i - off) 0 else byteAt fs.disk (table inum) i
  references : ∀ slot, slot.1 ≠ inum →
    held (Function.update table inum ip) fs'.disk slot = held table fs.disk slot
  others : ∀ slot c, slot.1 ≠ inum → held table fs.disk slot = some c → fs'.disk c = fs.disk c
  inodes : ∀ c, c < sb.bmapstart → fs'.disk c = fs.disk c
  grows : ∀ k c, held table fs.disk (inum, k) = some c →
    held (Function.update table inum ip) fs'.disk (inum, k) = some c
  inplace : off + src.length ≤ length → ip = table inum
  taken : available sb fs'.disk + blocks (max length (off + src.length)) =
    available sb fs.disk + blocks length
  logged : ∃ writes, fs'.logged = fs.logged ++ writes ∧
    ∀ c ∈ writes, (∃ b, b < sb.size ∧ c = sb.BBLOCK b) ∨
      held (Function.update table inum ip) fs'.disk (inum, NDIRECT) = some c ∨
      ∃ bn, off / BSIZE ≤ bn ∧ bn * BSIZE < off + src.length ∧
        held (Function.update table inum ip) fs'.disk (inum, place bn) = some c

section Writing

variable {sb : Superblock} {table : Nat → Inode} {fs fs' mid : Fs} {inum addr off length : Nat}
  {ip : Inode} {src : List Byte}

/-- bmap keeps the references of the inode. -/
theorem Mapped.grows {bn k c : Nat} (mapped : Mapped sb table inum bn fs fs' addr ip)
    (refers : held table fs.disk (inum, k) = some c) :
    held (Function.update table inum ip) fs'.disk (inum, k) = some c := by
  by_cases block : k = place bn
  · subst block
    obtain ⟨rfl, rfl⟩ := mapped.kept (by simp [refers])
    rwa [Function.update_eq_self]
  · by_cases indirect : k = NDIRECT
    · subst indirect
      obtain ⟨entry, positive⟩ := held_some_iff.mp refers
      rw [Inode.entry_direct (Nat.lt_succ_self NDIRECT)] at entry
      rw [held_some_iff, Function.update_self, Inode.entry_direct (Nat.lt_succ_self NDIRECT),
        mapped.address (by rw [entry]; exact positive)]
      exact ⟨entry, positive⟩
    · rw [mapped.others _ (fun equal => block (Prod.mk.inj equal).2)
        fun equal => indirect (Prod.mk.inj equal).2]
      exact refers

/-- A piece inside one block is written. A block that was not mapped is new, and the piece starts
at its first byte, which is the end of the file. -/
theorem Mapped.wrote (filled : Filled table fs.disk inum length) (start : off ≤ length)
    (some : 0 < src.length) (piece : off % BSIZE + src.length ≤ BSIZE)
    (fits : off + src.length ≤ MAXFILE * BSIZE)
    (mapped : Mapped sb table inum (off / BSIZE) fs mid addr ip) :
    Wrote sb table inum length off src fs
      (mid.log addr ((mid.disk addr).copy (off % BSIZE) src)) ip := by
  have same := held_write mapped.volume (place_ne _) mapped.here
    ((mid.disk addr).copy (off % BSIZE) src)
  have split : BSIZE * (off / BSIZE) + off % BSIZE = off := Nat.div_add_mod off BSIZE
  have old : ∀ bn, bn ≠ off / BSIZE → held (Function.update table inum ip) mid.disk (inum, place bn) =
      held table fs.disk (inum, place bn) := by
    intro bn other
    exact mapped.others _ (fun equal => other (place_inj (Prod.mk.inj equal).2))
      fun equal => place_ne bn (Prod.mk.inj equal).2
  have data := mapped.volume.data mapped.here
  have full : Filled (Function.update table inum ip)
      (mid.log addr ((mid.disk addr).copy (off % BSIZE) src)).disk inum
      (max length (off + src.length)) := by
    constructor
    · exact max_le filled.fits fits
    · intro bn inside
      change held (Function.update table inum ip) (Function.update mid.disk addr _) _ ≠ none ↔ _
      rw [same]
      by_cases here : bn = off / BSIZE
      · subst here
        rw [mapped.here]
        refine iff_of_true (by simp) (lt_max_of_lt_right ?_)
        rw [Nat.mul_comm]
        omega
      · rw [old bn here, filled.mapped bn inside, lt_max_iff]
        refine ⟨.inl, fun either => either.elim id fun reached => ?_⟩
        simp only [BSIZE] at *
        omega
    · rw [Function.update_self, mapped.indirect, filled.indirect, lt_max_iff]
      refine or_congr_right ?_
      simp only [BSIZE] at *
      omega
  have inside : ∀ i, i < max length (off + src.length) → i / BSIZE < MAXFILE := by
    intro i small
    have := small.trans_le full.fits
    simp only [BSIZE, MAXFILE, NDIRECT, NINDIRECT] at *
    omega
  constructor
  · exact mapped.volume.write (place_ne _) mapped.here _
  · exact full
  · exact mapped.fields
  · intro i small
    have begun : i / BSIZE * BSIZE < max length (off + src.length) :=
      (Nat.div_mul_le_self i BSIZE).trans_lt small
    obtain ⟨c, now⟩ := Option.ne_none_iff_exists'.mp ((full.mapped _ (inside i small)).mpr begun)
    have read := byteAt_mapped now
    rw [Function.update_self] at read
    rw [read]
    have before := (same _).symm.trans now
    by_cases here : i / BSIZE = off / BSIZE
    · rw [here, mapped.here] at before
      obtain rfl := Option.some.inj before
      rw [log_self, Block.byte_copy _ _ piece]
      by_cases written : off ≤ i ∧ i < off + src.length
      · have index : i % BSIZE - off % BSIZE = i - off := by
          simp only [BSIZE] at *
          omega
        have after : off % BSIZE ≤ i % BSIZE := by
          simp only [BSIZE] at *
          omega
        have within : i - off < src.length := by omega
        rw [if_pos written, if_pos after, index, List.getD_eq_getElem?_getD,
          List.getElem?_eq_getElem within]
        rfl
      · have outside : (if off % BSIZE ≤ i % BSIZE then
            (src[i % BSIZE - off % BSIZE]?).getD ((mid.disk addr).byte (i % BSIZE))
            else (mid.disk addr).byte (i % BSIZE)) = (mid.disk addr).byte (i % BSIZE) := by
          split_ifs with after
          · rw [List.getElem?_eq_none, Option.getD_none]
            simp only [BSIZE] at *
            omega
          · rfl
        have present : held table fs.disk (inum, place (off / BSIZE)) ≠ none := by
          rw [filled.mapped _ (here ▸ inside i small), Nat.mul_comm]
          simp only [BSIZE] at *
          omega
        obtain ⟨rfl, rfl⟩ := mapped.kept present
        have refers := mapped.here
        rw [Function.update_eq_self, ← here] at refers
        rw [if_neg written, outside, byteAt_mapped refers]
    · have earlier := (old _ here).symm.trans before
      have apart : c ≠ addr := by
        rintro rfl
        exact here (place_inj (Prod.mk.inj (mapped.volume.sole _ _ _ before mapped.here)).2)
      have elsewhere : ¬ (off ≤ i ∧ i < off + src.length) := by
        simp only [BSIZE] at *
        omega
      rw [if_neg elsewhere, byteAt_mapped earlier, log_other _ _ apart,
        mapped.data _ c (fun equal => place_ne _ (Prod.mk.inj equal).2) earlier]
  · intro slot other
    change held (Function.update table inum ip) (Function.update mid.disk addr _) _ = _
    rw [same]
    exact mapped.others slot (fun equal => other (congrArg Prod.fst equal))
      fun equal => other (congrArg Prod.fst equal)
  · intro slot c other refers
    have now : held (Function.update table inum ip) mid.disk slot = Option.some c := by
      rw [mapped.others slot (fun equal => other (congrArg Prod.fst equal))
        fun equal => other (congrArg Prod.fst equal), refers]
    have apart : c ≠ addr := by
      rintro rfl
      exact other (congrArg Prod.fst (mapped.volume.sole _ _ _ now mapped.here))
    rw [log_other _ _ apart]
    exact mapped.data slot c (fun equal => other (congrArg Prod.fst equal)) refers
  · intro c before
    have := @bmapstart_lt_nmeta sb
    rw [log_other _ _ (by omega)]
    exact mapped.inodes c before
  · intro k c refers
    change held (Function.update table inum ip) (Function.update mid.disk addr _) _ = _
    rw [same]
    exact mapped.grows refers
  · intro inside
    have present : held table fs.disk (inum, place (off / BSIZE)) ≠ none := by
      rw [filled.mapped]
      · rw [Nat.mul_comm]
        omega
      · simp only [BSIZE, MAXFILE, NDIRECT, NINDIRECT] at *
        omega
    exact (mapped.kept present).1
  · have within : off / BSIZE < MAXFILE := by
      simp only [BSIZE, MAXFILE, NDIRECT, NINDIRECT] at *
      omega
    rw [available_congr fun c inside => marked_log data inside, filled.cost start some piece within,
      ← mapped.taken]
    omega
  · obtain ⟨writes, shape, each⟩ := mapped.logged
    refine ⟨writes ++ [addr], ?_, fun c member => ?_⟩
    · rw [log_logged, shape, List.append_assoc]
    · have here : held (Function.update table inum ip)
          (mid.log addr ((mid.disk addr).copy (off % BSIZE) src)).disk
          (inum, place (off / BSIZE)) = Option.some addr := (same _).trans mapped.here
      have touched : off / BSIZE * BSIZE < off + src.length := by
        rw [Nat.mul_comm]
        omega
      rcases List.mem_append.mp member with early | late
      · rcases each c early with bitmap | rfl | ⟨rfl, present⟩
        · exact .inl bitmap
        · exact .inr (.inr ⟨_, le_rfl, touched, here⟩)
        · refine .inr (.inl ((same _).trans ?_))
          have address := @held_addr (Function.update table inum ip) mid.disk inum NDIRECT (by decide)
          rw [Function.update_self] at address
          exact address present
      · rw [List.mem_singleton.mp late]
        exact .inr (.inr ⟨_, le_rfl, touched, here⟩)

/-- Nothing is written. -/
theorem Wrote.nil (volume : Volume sb table fs.disk) (filled : Filled table fs.disk inum length)
    (start : off ≤ length) : Wrote sb table inum length off [] fs fs (table inum) := by
  have same : Function.update table inum (table inum) = table := Function.update_eq_self inum table
  have total : max length (off + ([] : List Byte).length) = length := max_eq_left (by simpa using start)
  constructor
  · rwa [same]
  · rwa [same, total]
  · rfl
  · intro i _
    rw [if_neg (by simp only [List.length_nil]; omega)]
  · exact fun _ _ => by rw [same]
  · exact fun _ _ _ _ => rfl
  · exact fun _ _ => rfl
  · exact fun _ _ refers => by rwa [same]
  · exact fun _ => rfl
  · rw [total]
  · exact ⟨[], by simp, by simp⟩

/-- One write after another. -/
theorem Wrote.append {rest : List Byte} {ip' : Inode}
    (first : Wrote sb table inum length off src fs mid ip)
    (second : Wrote sb (Function.update table inum ip) inum (max length (off + src.length))
      (off + src.length) rest mid fs' ip') :
    Wrote sb table inum length off (src ++ rest) fs fs' ip' := by
  have total : max (max length (off + src.length)) (off + src.length + rest.length) =
      max length (off + (src ++ rest).length) := by
    rw [List.length_append]
    omega
  have volume := second.volume
  have filled := second.filled
  have fields := second.fields
  have references := second.references
  have others := second.others
  have grows := second.grows
  rw [Function.update_idem] at volume filled references grows
  rw [total] at filled
  rw [Function.update_self] at fields
  constructor
  · exact volume
  · exact filled
  · rw [fields, first.fields]
  · intro i small
    rw [second.bytes i (total ▸ small), Function.update_self]
    by_cases late : off + src.length ≤ i ∧ i < off + src.length + rest.length
    · have within : off ≤ i ∧ i < off + (src ++ rest).length := by
        rw [List.length_append]
        omega
      rw [if_pos late, if_pos within, List.getD_append_right _ _ _ _ (by omega)]
      congr 1
      omega
    · rw [List.length_append] at small ⊢
      rw [if_neg late, first.bytes i (by omega)]
      by_cases early : off ≤ i ∧ i < off + src.length
      · rw [if_pos early, if_pos (by omega), List.getD_append _ _ _ _ (by omega)]
      · rw [if_neg early, if_neg (by omega)]
  · exact fun slot other => (references slot other).trans (first.references slot other)
  · intro slot c other refers
    rw [others slot c other ((first.references slot other).trans refers)]
    exact first.others slot c other refers
  · exact fun c before => (second.inodes c before).trans (first.inodes c before)
  · exact fun k c refers => grows k c (first.grows k c refers)
  · intro inside
    rw [List.length_append] at inside
    have same := first.inplace (by omega)
    rw [second.inplace (by omega), Function.update_self, same]
  · rw [← total, second.taken, first.taken]
  · obtain ⟨front, shape, each⟩ := first.logged
    obtain ⟨back, shape', each'⟩ := second.logged
    rw [Function.update_idem] at each'
    refine ⟨front ++ back, by rw [shape', shape, List.append_assoc], fun c member => ?_⟩
    rw [List.length_append]
    rcases List.mem_append.mp member with early | late
    · rcases each c early with bitmap | indirect | ⟨bn, after, reached, refers⟩
      · exact .inl bitmap
      · exact .inr (.inl (grows _ c indirect))
      · exact .inr (.inr ⟨bn, after, by omega, grows _ c refers⟩)
    · rcases each' c late with bitmap | indirect | ⟨bn, after, reached, refers⟩
      · exact .inl bitmap
      · exact .inr (.inl indirect)
      · refine .inr (.inr ⟨bn, ?_, by omega, refers⟩)
        exact (Nat.div_le_div_right (Nat.le_add_right off src.length)).trans after

/-- The loop of writei. The number of bytes is enough fuel, since each round writes at least one of
them. It stops only when there are not enough free blocks for the part behind the end of the file. -/
theorem writeLoop_ensures (fuel : Nat) (volume : Volume sb table fs.disk)
    (filled : Filled table fs.disk inum length) (start : off ≤ length) (enough : src.length ≤ fuel)
    (fits : off + src.length ≤ MAXFILE * BSIZE) :
    Ensures (writeLoop sb fuel (table inum) off src) fs
      (fun ip after => Wrote sb table inum length off src fs after ip)
      (fun reason => reason = .outOfBlocks ∧
        available sb fs.disk + blocks length < blocks (off + src.length)) := by
  induction fuel generalizing table fs length off src with
  | zero =>
    obtain rfl := List.eq_nil_of_length_eq_zero (Nat.le_zero.mp enough)
    exact .nil volume filled start
  | succ fuel inductionHypothesis =>
    rw [writeLoop, ensures_ite]
    split_ifs with empty
    · obtain rfl := List.eq_nil_of_length_eq_zero empty
      exact .nil volume filled start
    · have inside : off / BSIZE < MAXFILE := by
        simp only [BSIZE, MAXFILE, NDIRECT, NINDIRECT] at *
        omega
      rw [ensures_bind]
      refine (bmap_ensures volume inside).mono
        (fun result mid mapped => ?_) fun reason stopped => ⟨stopped.1, ?_⟩
      · obtain ⟨addr, ip⟩ := result
        simp only [ensures_bind, ensures_bread, ensures_log_write]
        generalize size : min src.length (BSIZE - off % BSIZE) = m
        have some : 0 < m ∧ m ≤ src.length ∧ off % BSIZE + m ≤ BSIZE := by
          simp only [BSIZE] at *
          omega
        have count : (src.take m).length = m := List.length_take_of_le some.2.1
        have left : (src.drop m).length = src.length - m := List.length_drop
        have something : 0 < (src.take m).length := by omega
        have piece : off % BSIZE + (src.take m).length ≤ BSIZE := by omega
        have short : off + (src.take m).length ≤ MAXFILE * BSIZE := by omega
        have wrote := mapped.wrote filled start something piece short
        have enough' : (src.drop m).length ≤ fuel := by omega
        have fits' : off + (src.take m).length + (src.drop m).length ≤ MAXFILE * BSIZE := by omega
        have next := @inductionHypothesis (Function.update table inum ip) _ _ _ (src.drop m)
          wrote.volume wrote.filled (le_max_right _ _) enough' fits'
        have moved : off + m = off + (src.take m).length := by rw [count]
        rw [Function.update_self] at next
        rw [moved]
        have taken := wrote.taken
        have end_eq : off + (src.take m).length + (src.drop m).length = off + src.length := by omega
        rw [end_eq] at next
        refine next.mono (fun ip' last rest => ?_) fun reason stopped => ⟨stopped.1, by omega⟩
        have both := wrote.append rest
        rwa [List.take_append_drop] at both
      · have piece : off % BSIZE + 1 ≤ BSIZE := by
          simp only [BSIZE]
          omega
        have needed := filled.cost start Nat.one_pos piece inside
        have more : 0 < Fs.cost table fs.disk inum (off / BSIZE) := Nat.zero_lt_of_lt stopped.2
        have beyond : ¬ off + 1 ≤ length := by
          intro within
          rw [max_eq_left within] at needed
          omega
        have := @blocks_mono (max length (off + 1)) (off + src.length) (by omega)
        omega

end Writing

/-! ## Reading -/

section Reading

variable {sb : Superblock} {table : Nat → Inode} {fs : Fs} {inum off length : Nat}

theorem Block.bytes_length (block : Block) (start m : Nat) : (block.bytes start m).length = m := by
  simp [Block.bytes]

/-- The loop of readi reads the bytes of the file, takes no block and does not stop. -/
theorem readLoop_run (fuel left : Nat) (filled : Filled table fs.disk inum length)
    (enough : left ≤ fuel) (within : off + left ≤ length) :
    (readLoop sb fuel (table inum) off left).run fs =
      .ok (((List.range left).map fun i => byteAt fs.disk (table inum) (off + i), table inum), fs) := by
  induction fuel generalizing off left with
  | zero =>
    obtain rfl := Nat.le_zero.mp enough
    rfl
  | succ fuel inductionHypothesis =>
    rw [readLoop]
    by_cases empty : left = 0
    · subst empty
      rfl
    · have inside : off / BSIZE < MAXFILE := by
        have := filled.fits
        simp only [BSIZE, MAXFILE, NDIRECT, NINDIRECT] at *
        omega
      have begun : off / BSIZE * BSIZE < length :=
        (Nat.div_mul_le_self off BSIZE).trans_lt (by omega)
      obtain ⟨addr, here⟩ := Option.ne_none_iff_exists'.mp ((filled.mapped _ inside).mpr begun)
      rw [if_neg empty, run_bind_ok (bmap_present inside here)]
      generalize size : min left (BSIZE - off % BSIZE) = m
      have piece : 0 < m ∧ m ≤ left ∧ off % BSIZE + m ≤ BSIZE := by
        simp only [BSIZE] at *
        omega
      have rest := @inductionHypothesis (off + m) (left - m) (by omega) (by omega)
      simp only [run_bind_ok (bread_run fs addr)]
      rw [run_bind_ok rest]
      have pieces : List.range left = List.range m ++ (List.range (left - m)).map (m + ·) := by
        rw [← List.range_add, Nat.add_sub_cancel' piece.2.1]
      have same : (fs.disk addr).bytes (off % BSIZE) m =
          (List.range m).map fun i => byteAt fs.disk (table inum) (off + i) := by
        refine List.map_congr_left fun i member => ?_
        have small := List.mem_range.mp member
        have block : (off + i) / BSIZE = off / BSIZE := by
          simp only [BSIZE] at *
          omega
        have index : (off + i) % BSIZE = off % BSIZE + i := by
          simp only [BSIZE] at *
          omega
        rw [byteAt_mapped (block ▸ here), index]
      rw [pieces, List.map_append, List.map_map, same]
      simp only [Function.comp_def, Nat.add_assoc]
      rfl

end Reading

end Cs537.Filesystem.Fs
