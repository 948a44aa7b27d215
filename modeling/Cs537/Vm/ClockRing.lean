import Cs537.Library.Runs
import Cs537.Vm.Clock

/-!
# The order of the clock

Read from the slot after the hand around to the hand, the queue lists its pages in the
order in which the hand will reach them. Once the first page is in, the empty slots come
first: an insertion takes the one right after the hand, and a deletion closes its gap
and steps the hand back, so that one more slot is empty in front.
-/

namespace Cs537.Vm

open Runs

/-- The pages of the queue in the order of the clock. -/
def entries (hand : Fin 8) (queue : Fin 8 → Nat) : List Nat := (Ring.read hand queue).filter (· ≠ NOPAGE)

theorem mem_entries {hand : Fin 8} {queue : Fin 8 → Nat} {address : Nat} :
    address ∈ entries hand queue ↔ Listed queue address ∧ address ≠ NOPAGE := by
  unfold entries Listed
  rw [List.mem_filter, Ring.mem_read]
  simp

/-- The pages in different slots are different exactly if no page is listed twice. -/
theorem nodup_entries {hand : Fin 8} {queue : Fin 8 → Nat} :
    (entries hand queue).Nodup ↔
      ∀ slot other, queue slot ≠ NOPAGE → queue slot = queue other → slot = other := by
  unfold entries List.Nodup Ring.read
  rw [List.pairwise_filter, List.pairwise_ofFn]
  constructor
  · intro apart slot other filled same
    have places : ∀ slot : Fin 8, hand + 1 + (slot - (hand + 1)) = slot := fun slot => add_sub_cancel ..
    have filled' : queue other ≠ NOPAGE := same ▸ filled
    obtain before | equal | behind := lt_trichotomy (slot - (hand + 1)) (other - (hand + 1))
    · have different := apart before
      simp only [places] at different
      exact absurd same (different (by simpa using filled) (by simpa using filled'))
    · exact sub_left_injective equal
    · have different := apart behind
      simp only [places] at different
      exact absurd same.symm (different (by simpa using filled') (by simpa using filled))
  · intro distinct i j before filled filled' same
    have equal := distinct _ _ (by simpa using filled) same
    exact absurd (add_right_injective _ equal) before.ne

namespace P6

/-! ## Deletion -/

/-- The search finds the address in the queue, if it is there. -/
theorem findPage_some {p : Proc} {va : Nat} {found : Fin 8} (search : findPage p va = some found) :
    p.clockqueue found = va := by
  have member := List.mem_of_getLast? search
  obtain ⟨i, -, kept⟩ := List.mem_filterMap.mp member
  have holds := (Option.filter_eq_some_iff.mp kept).2
  simpa using holds

theorem findPage_none {p : Proc} {va : Nat} {hand : Fin 8} (moved : p.clockhand = some hand)
    (search : findPage p va = none) : ¬ Listed p.clockqueue va := by
  rintro ⟨slot, rfl⟩
  have empty := List.getLast?_eq_none_iff.mp search
  have position : (slot - hand).val ∈ List.range 8 := List.mem_range.mpr (slot - hand).isLt
  have looked : slot ∈ (List.range 8).filterMap fun i =>
      (searchSlot p.clockhand i).filter fun other => p.clockqueue other = p.clockqueue slot := by
    refine List.mem_filterMap.mpr ⟨_, position, ?_⟩
    rw [moved]
    have same : ∀ hand slot : Fin 8, hand + (slot - hand) = slot := by decide
    simp [searchSlot, same]
  rw [empty] at looked
  cases looked

/-- Deleting an address that is not in the queue changes nothing. -/
theorem wsetdelete_absent {p : Proc} {va : Nat} (absent : ¬ Listed p.clockqueue va) :
    wsetdelete p va = .ok (false, p) := by
  have search : findPage p va = none := by
    by_contra found
    obtain ⟨slot, found⟩ := Option.ne_none_iff_exists'.mp found
    exact absent ⟨slot, findPage_some found⟩
  unfold wsetdelete
  rw [search]

/-- Where each slot is filled from does not depend on what the queue holds. -/
theorem shiftLeft_eq {α : Type} (tail : Fin 8) (fuel : Nat) (i : Fin 8) (source : Fin 8 → Fin 8)
    (queue : Fin 8 → α) :
    shiftLeft tail fuel i (fun slot => queue (source slot)) =
      fun slot => queue (shiftLeft tail fuel i source slot) := by
  induction fuel generalizing i source with
  | zero => rfl
  | succ fuel inductionHypothesis =>
    unfold shiftLeft
    split
    · rfl
    · rw [← inductionHypothesis]
      congr 1
      funext slot
      simp only [Function.update_apply]
      split <;> rfl

/-- In the order of the clock, the slots before the deleted one stay and the others are
filled from the next one. -/
theorem shiftLeft_source (tail k : Fin 8) (i : Nat) (small : i < 7) :
    shiftLeft tail 8 (tail + 1 + k) (fun slot => slot) (tail + 1 + ⟨i, Nat.lt_succ_of_lt small⟩) =
      if i < k.val then tail + 1 + ⟨i, Nat.lt_succ_of_lt small⟩
      else tail + 1 + ⟨i + 1, Nat.succ_lt_succ small⟩ := by
  have all : ∀ tail k : Fin 8, ∀ i : Fin 7,
      shiftLeft tail 8 (tail + 1 + k) (fun slot => slot) (tail + 1 + ⟨i.val, Nat.lt_succ_of_lt i.isLt⟩) =
        if i.val < k.val then tail + 1 + ⟨i.val, Nat.lt_succ_of_lt i.isLt⟩
        else tail + 1 + ⟨i.val + 1, Nat.succ_lt_succ i.isLt⟩ := by
    decide +kernel
  exact all tail k ⟨i, small⟩

/-- The queue after the deletion of a page. -/
theorem wsetdelete_listed {p : Proc} {va : Nat} {hand : Fin 8} (moved : p.clockhand = some hand)
    (present : Listed p.clockqueue va) (proper : va ≠ NOPAGE)
    (distinct : ∀ slot other, p.clockqueue slot ≠ NOPAGE → p.clockqueue slot = p.clockqueue other →
      slot = other) :
    ∃ queue, wsetdelete p va = .ok (true, { p with clockqueue := queue, clockhand := some (hand - 1) }) ∧
      Ring.read (hand - 1) queue = NOPAGE :: (Ring.read hand p.clockqueue).erase va := by
  obtain ⟨found, search⟩ : ∃ found, findPage p va = some found := by
    by_contra none
    refine findPage_none moved ?_ present
    exact Option.eq_none_iff_forall_ne_some.mpr fun found search => none ⟨found, search⟩
  have here : p.clockqueue found = va := findPage_some search
  have place : hand + 1 + (found - (hand + 1)) = found := add_sub_cancel ..
  refine ⟨Function.update (shiftLeft hand 8 found p.clockqueue) hand NOPAGE, ?_, ?_⟩
  · unfold wsetdelete
    rw [search, moved]
  · have source : ∀ i (small : i < 7),
        Function.update (shiftLeft hand 8 found p.clockqueue) hand NOPAGE
            (hand + 1 + ⟨i, Nat.lt_succ_of_lt small⟩) =
          p.clockqueue (if i < (found - (hand + 1)).val then hand + 1 + ⟨i, Nat.lt_succ_of_lt small⟩
            else hand + 1 + ⟨i + 1, Nat.succ_lt_succ small⟩) := by
      intro i small
      have away : ∀ hand : Fin 8, ∀ i : Fin 7, hand + 1 + ⟨i.val, Nat.lt_succ_of_lt i.isLt⟩ ≠ hand := by
        decide
      rw [Function.update_of_ne (away hand ⟨i, small⟩), ← shiftLeft_source hand _ i small, place]
      exact congrFun (shiftLeft_eq hand 8 found (fun slot => slot) p.clockqueue) _
    rw [Ring.read_remove (found - (hand + 1)).isLt (Function.update_self ..)
      (fun i small before => by rw [source i small, if_pos before])
      (fun i small behind => by rw [source i small, if_neg (Nat.not_lt.mpr behind)])]
    congr 1
    refine (List.erase_eq_eraseIdx_of_idxOf ?_).symm
    have member : va ∈ Ring.read hand p.clockqueue := Ring.mem_read.mpr present
    have first := List.getElem_idxOf (List.idxOf_lt_length_of_mem member)
    rw [Ring.getElem_read] at first
    have same := distinct _ found (by rw [first]; exact proper) (first.trans here.symm)
    exact congrArg Fin.val (eq_sub_of_add_eq' same)

/-- A deletion keeps the order of the other pages. -/
theorem entries_delete {hand : Fin 8} {queue queue' : Fin 8 → Nat} {va : Nat}
    (read : Ring.read (hand - 1) queue' = NOPAGE :: (Ring.read hand queue).erase va) :
    entries (hand - 1) queue' = (entries hand queue).erase va := by
  unfold entries
  rw [read, List.filter_cons_of_neg (by simp), List.erase_filter]

/-! ## Insertion -/

/-- The queue and the hand after an insertion: the page is under the hand, unless the
page that was there could not be encrypted. -/
theorem wsetinsert_returns {p : Proc} (queued : Queued p) (va : Nat) (km : Kmem) :
    ∃ succeeded p' km', wsetinsert va p km = .ok (succeeded, p', km') ∧ p'.clockhand = some (target p) ∧
      (succeeded = true ∧ p'.clockqueue = Function.update p.clockqueue (target p) va ∨
        succeeded = false ∧ p'.clockqueue = p.clockqueue ∧ p.clockqueue (target p) ≠ NOPAGE) := by
  have stopped := wsetinsertFrom_eq queued va km (Nat.lt_succ_of_le (passes_le p))
  have queue : (afterPassing p (passes p)).clockqueue = p.clockqueue := rfl
  unfold wsetinsert
  rw [stopped]
  unfold replace
  simp only [queue]
  split
  · exact ⟨true, _, _, rfl, rfl, .inl ⟨rfl, rfl⟩⟩
  · rename_i filled
    have table : (afterPassing p (passes p)).pgdir.tables (vpn (p.clockqueue (target p))).pdx ≠ none :=
      queued.table _ filled
    by_cases opened : (afterPassing p (passes p)).pgdir.opens (vpn (p.clockqueue (target p)))
    · rw [mencrypt_open table opened]
      split
      · exact ⟨true, _, _, rfl, rfl, .inl ⟨rfl, rfl⟩⟩
      · exact ⟨true, _, _, rfl, rfl, .inl ⟨rfl, rfl⟩⟩
    · rw [mencrypt_closed table opened]
      exact ⟨false, _, _, rfl, rfl, .inr ⟨rfl, rfl, filled⟩⟩

/-- If the next slot is empty, the page goes there and no page is encrypted. -/
theorem wsetinsert_empty {p : Proc} (va : Nat) (km : Kmem)
    (empty : p.clockqueue (nextHand p.clockhand) = NOPAGE) :
    wsetinsert va p km = .ok (true, { p with
      clockqueue := Function.update p.clockqueue (nextHand p.clockhand) va
      clockhand := some (nextHand p.clockhand) }, km) := by
  unfold wsetinsert wsetinsertFrom
  simp only [empty, if_true]

/-! ## Runs of insertions and deletions -/

/-- The calls on a queue. `touch` is the processor, which sets the accessed flag of a
page at any time. -/
inductive QueueCall where
  | insert (va : Nat)
  | delete (va : Nat)
  | touch (v : Vpn)

/-- Perform a call. -/
def QueueCall.step (s : Proc × Kmem) : QueueCall → Option (Proc × Kmem)
  | .insert va => (wsetinsert va s.1 s.2).toOption.map Prod.snd
  | .delete va => (wsetdelete s.1 va).toOption.map fun result => (result.2, s.2)
  | .touch v => some ({ s.1 with pgdir := s.1.pgdir.set v { s.1.pgdir.pte v with a := true } }, s.2)

/-- Mapped pages that are not in the queue are inserted; any page may be deleted. -/
def QueueCall.Allowed (s : Proc × Kmem) : QueueCall → Prop
  | .insert va => (vpn va).addr = va ∧ (s.1.pgdir.pte (vpn va)).mapped = true ∧ ¬ Listed s.1.clockqueue va
  | .delete va => (vpn va).addr = va
  | .touch v => (s.1.pgdir.pte v).mapped = true

instance (s : Proc × Kmem) (call : QueueCall) : Decidable (call.Allowed s) :=
  match call with
  | .insert _ => inferInstanceAs (Decidable (_ ∧ _ ∧ ¬ _))
  | .delete _ | .touch _ => inferInstanceAs (Decidable (_ = _))

/-- The empty slots come right after the hand. -/
def FreeFirst (hand : Fin 8) (queue : Fin 8 → Nat) : Prop :=
  ∃ free, Ring.read hand queue = List.replicate free NOPAGE ++ entries hand queue

/-- A queue in use: the hand has moved, the empty slots come right after it, and the
pages are different and mapped. -/
structure InOrder (p : Proc) : Prop where
  tidy : Tidy p.pgdir
  queued : Queued p
  mapped : ∀ slot, p.clockqueue slot ≠ NOPAGE → (p.pgdir.pte (vpn (p.clockqueue slot))).mapped = true
  free : ∃ hand, p.clockhand = some hand ∧ FreeFirst hand p.clockqueue

/-- A full queue stays full when its slots are written. -/
theorem FreeFirst.full {hand : Fin 8} {queue : Fin 8 → Nat} (full : ¬ Listed queue NOPAGE) :
    FreeFirst hand queue := by
  refine ⟨0, ?_⟩
  unfold entries
  rw [List.replicate_zero, List.nil_append, List.filter_eq_self.mpr]
  intro address member
  have listed : Listed queue address := Ring.mem_read.mp member
  simp only [ne_eq, decide_not, Bool.not_eq_true', decide_eq_false_iff_not]
  rintro rfl
  exact full listed

/-- If a slot is empty, the next one is. -/
theorem FreeFirst.next {hand : Fin 8} {queue : Fin 8 → Nat} (free : FreeFirst hand queue)
    (space : Listed queue NOPAGE) : queue (hand + 1) = NOPAGE := by
  obtain ⟨count, read⟩ := free
  have member : NOPAGE ∈ Ring.read hand queue := Ring.mem_read.mpr space
  have outside : NOPAGE ∉ entries hand queue := fun inside => (mem_entries.mp inside).2 rfl
  cases count with
  | zero =>
    rw [read] at member
    exact absurd (by simpa using member) outside
  | succ count =>
    have first : (Ring.read hand queue)[0]? = some NOPAGE := by
      rw [read]
      rfl
    rw [List.getElem?_eq_getElem (by simp), Ring.getElem_read] at first
    have zero : hand + 1 + (⟨0, by decide⟩ : Fin 8) = hand + 1 := add_zero _
    rw [zero] at first
    exact Option.some.inj first

/-- An insertion into the next slot takes an empty slot from the front and puts the page
last. -/
theorem FreeFirst.insert {hand : Fin 8} {queue : Fin 8 → Nat} {va : Nat} (free : FreeFirst hand queue)
    (space : Listed queue NOPAGE) (proper : va ≠ NOPAGE) :
    FreeFirst (hand + 1) (Function.update queue (hand + 1) va) := by
  obtain ⟨count, read⟩ := free
  cases count with
  | zero =>
    have member : NOPAGE ∈ Ring.read hand queue := Ring.mem_read.mpr space
    rw [read] at member
    exact absurd rfl (mem_entries.mp (by simpa using member)).2
  | succ count =>
    have moved : Ring.read (hand + 1) (Function.update queue (hand + 1) va) =
        List.replicate count NOPAGE ++ (entries hand queue ++ [va]) := by
      have advance := Ring.read_advance hand 0 queue
      rw [add_zero] at advance
      rw [Ring.read_write, advance, read]
      simp [List.replicate_succ]
    refine ⟨count, ?_⟩
    unfold entries
    rw [moved]
    have kept : ((entries hand queue) ++ [va]).filter (· ≠ NOPAGE) = entries hand queue ++ [va] := by
      rw [List.filter_append, List.filter_cons_of_pos (by simpa using proper), List.filter_nil]
      unfold entries
      rw [List.filter_filter]
      simp
    rw [List.filter_append, kept]
    congr 1
    simp

/-- A deletion leaves one more empty slot in front. -/
theorem FreeFirst.delete {hand : Fin 8} {queue queue' : Fin 8 → Nat} {va : Nat}
    (free : FreeFirst hand queue) (proper : va ≠ NOPAGE)
    (read : Ring.read (hand - 1) queue' = NOPAGE :: (Ring.read hand queue).erase va) :
    FreeFirst (hand - 1) queue' := by
  obtain ⟨count, before⟩ := free
  refine ⟨count + 1, ?_⟩
  have outside : va ∉ List.replicate count NOPAGE := fun member => proper (List.eq_of_mem_replicate member)
  rw [entries_delete read, read, before, List.erase_append_right _ outside]
  rfl

variable {p p' : Proc} {km km' : Kmem} {va : Nat}

/-- Pages leave the queue, or it does not change. -/
theorem InOrder.keep (inOrder : InOrder p) (retouched : Retouches p.pgdir km p'.pgdir km')
    (fewer : ∀ slot, p'.clockqueue slot ≠ NOPAGE → Listed p.clockqueue (p'.clockqueue slot))
    (distinct : ∀ slot other, p'.clockqueue slot ≠ NOPAGE → p'.clockqueue slot = p'.clockqueue other →
      slot = other)
    (free : ∃ hand, p'.clockhand = some hand ∧ FreeFirst hand p'.clockqueue) : InOrder p' := by
  refine ⟨retouched.tidy inOrder.tidy, ⟨distinct, fun slot filled => ?_, fun slot filled => ?_⟩,
    fun slot filled => ?_, free⟩
  · obtain ⟨old, same⟩ := fewer slot filled
    rw [← same] at filled ⊢
    exact inOrder.queued.page old filled
  · obtain ⟨old, same⟩ := fewer slot filled
    rw [← same] at filled ⊢
    rw [retouched.tables]
    exact inOrder.queued.table old filled
  · obtain ⟨old, same⟩ := fewer slot filled
    rw [← same] at filled ⊢
    rw [retouched.mapped]
    exact inOrder.mapped old filled

/-- A new page takes a slot. -/
theorem InOrder.put {slot : Fin 8} (inOrder : InOrder p) (retouched : Retouches p.pgdir km p'.pgdir km')
    (page : (vpn va).addr = va) (mapped : (p.pgdir.pte (vpn va)).mapped = true)
    (fresh : ¬ Listed p.clockqueue va) (queue : p'.clockqueue = Function.update p.clockqueue slot va)
    (free : ∃ hand, p'.clockhand = some hand ∧ FreeFirst hand p'.clockqueue) : InOrder p' := by
  have place : ∀ other, p'.clockqueue other = if other = slot then va else p.clockqueue other := by
    intro other
    rw [queue, Function.update_apply]
  refine ⟨retouched.tidy inOrder.tidy, ⟨?_, fun other filled => ?_, fun other filled => ?_⟩,
    fun other filled => ?_, free⟩
  · rw [queue]
    exact distinct_update inOrder.queued.distinct fresh
  · rw [place] at filled ⊢
    split
    · exact page
    · rename_i different
      exact inOrder.queued.page other (by rwa [if_neg different] at filled)
  · rw [place] at filled ⊢
    rw [retouched.tables]
    split
    · exact inOrder.tidy.table mapped
    · rename_i different
      exact inOrder.queued.table other (by rwa [if_neg different] at filled)
  · rw [place] at filled ⊢
    rw [retouched.mapped]
    split
    · exact mapped
    · rename_i different
      exact inOrder.mapped other (by rwa [if_neg different] at filled)

/-- An insertion returns and keeps the order. -/
theorem InOrder.insert (inOrder : InOrder p) (page : (vpn va).addr = va)
    (mapped : (p.pgdir.pte (vpn va)).mapped = true) (fresh : ¬ Listed p.clockqueue va) (km : Kmem) :
    ∃ succeeded p' km', wsetinsert va p km = .ok (succeeded, p', km') ∧ InOrder p' := by
  obtain ⟨hand, moved, free⟩ := inOrder.free
  have proper : va ≠ NOPAGE := page ▸ addr_ne_NOPAGE _
  by_cases space : Listed p.clockqueue NOPAGE
  · have next : nextHand p.clockhand = hand + 1 := by
      rw [moved]
      rfl
    have done := wsetinsert_empty va km (next.symm ▸ free.next space)
    rw [next] at done
    exact ⟨_, _, _, done, inOrder.put (Retouches.refl p.pgdir km) page mapped fresh rfl
      ⟨_, rfl, free.insert space proper⟩⟩
  · obtain ⟨succeeded, p', km', done, hand', placed⟩ := wsetinsert_returns inOrder.queued va km
    have retouched := (wsetinsertFrom_recrypts inOrder.tidy done).1.toRetouches
    refine ⟨succeeded, p', km', done, ?_⟩
    obtain ⟨-, queue⟩ | ⟨-, queue, -⟩ := placed
    · refine inOrder.put retouched page mapped fresh queue ⟨_, hand', FreeFirst.full ?_⟩
      rintro ⟨slot, empty⟩
      rw [queue, Function.update_apply] at empty
      split at empty
      · exact proper empty
      · exact space ⟨slot, empty⟩
    · refine inOrder.keep retouched (fun slot _ => ⟨slot, by rw [queue]⟩) ?_ ⟨_, hand', ?_⟩
      · rw [queue]
        exact inOrder.queued.distinct
      · rw [queue]
        exact FreeFirst.full space

/-- A deletion returns and keeps the order. -/
theorem InOrder.delete (inOrder : InOrder p) (page : (vpn va).addr = va) (km : Kmem) :
    ∃ deleted p', wsetdelete p va = .ok (deleted, p') ∧ InOrder p' := by
  obtain ⟨hand, moved, free⟩ := inOrder.free
  have proper : va ≠ NOPAGE := page ▸ addr_ne_NOPAGE _
  by_cases present : Listed p.clockqueue va
  · obtain ⟨queue, done, read⟩ := wsetdelete_listed moved present proper inOrder.queued.distinct
    refine ⟨true, _, done, inOrder.keep (Retouches.refl p.pgdir km) (fun slot filled => ?_) ?_
      ⟨_, rfl, free.delete proper read⟩⟩
    · have member : queue slot ∈ entries (hand - 1) queue := mem_entries.mpr ⟨⟨slot, rfl⟩, filled⟩
      rw [entries_delete read] at member
      exact (mem_entries.mp (List.mem_of_mem_erase member)).1
    · refine (@nodup_entries (hand - 1) queue).mp ?_
      rw [entries_delete read]
      exact (nodup_entries.mpr inOrder.queued.distinct).erase va
  · exact ⟨false, p, wsetdelete_absent present, inOrder⟩

/-- Every allowed call returns and keeps the order. -/
theorem QueueCall.step_inOrder {s : Proc × Kmem} {call : QueueCall} (inOrder : InOrder s.1)
    (allowed : call.Allowed s) : ∃ t, call.step s = some t ∧ InOrder t.1 := by
  cases call with
  | insert va =>
    obtain ⟨page, mapped, fresh⟩ := allowed
    obtain ⟨succeeded, p', km', done, kept⟩ := inOrder.insert page mapped fresh s.2
    exact ⟨(p', km'), by simp [step, done, Except.toOption], kept⟩
  | delete va =>
    obtain ⟨deleted, p', done, kept⟩ := inOrder.delete allowed s.2
    exact ⟨(p', s.2), by simp [step, done, Except.toOption], kept⟩
  | touch v =>
    have filled : s.1.pgdir.pte v ≠ {} := by
      intro empty
      rw [Allowed, empty] at allowed
      cases allowed
    have marked := Recrypts.mark s.1.pgdir s.2 v true fun _ => filled
    exact ⟨_, rfl, inOrder.keep marked.toRetouches (fun slot _ => ⟨slot, rfl⟩) inOrder.queued.distinct
      inOrder.free⟩

/-- The first insertion into a cleared queue acts as if the hand were at the last slot. -/
theorem first_inOrder (tidy : Tidy p.pgdir) (page : (vpn va).addr = va)
    (mapped : (p.pgdir.pte (vpn va)).mapped = true) (km : Kmem) :
    ∃ p', wsetinsert va (clearwset p) km = .ok (true, p', km) ∧ InOrder p' := by
  have proper : va ≠ NOPAGE := page ▸ addr_ne_NOPAGE _
  have free : FreeFirst 7 fun _ => NOPAGE := ⟨8, by decide⟩
  have blank : InOrder { clearwset p with clockhand := some 7 } :=
    ⟨tidy, ⟨fun _ _ filled => absurd rfl filled, fun _ filled => absurd rfl filled,
      fun _ filled => absurd rfl filled⟩, fun _ filled => absurd rfl filled, 7, rfl, free⟩
  have fresh : ¬ Listed (fun _ : Fin 8 => NOPAGE) va := fun ⟨_, same⟩ => proper same.symm
  exact ⟨_, wsetinsert_empty va km rfl, blank.put (Retouches.refl p.pgdir km) page mapped fresh rfl
    ⟨0, rfl, free.insert ⟨0, rfl⟩ proper⟩⟩

/-- From a cleared queue, after an insertion and any further calls: the empty slots come
right after the hand, so that an insertion into a queue with an empty slot encrypts no
page, and a deletion removes exactly its page and keeps the order of the others. -/
theorem queue_in_order {calls : List QueueCall} (tidy : Tidy p.pgdir)
    (allowed : Meets QueueCall.step (fun s call => call.Allowed s) (clearwset p, km) (.insert va :: calls)) :
    ∃ q km' hand, run QueueCall.step (clearwset p, km) (.insert va :: calls) = some (q, km') ∧
      q.clockhand = some hand ∧
      (∃ free, Ring.read hand q.clockqueue = List.replicate free NOPAGE ++ entries hand q.clockqueue) ∧
      (entries hand q.clockqueue).Nodup ∧
      (∀ a, Listed q.clockqueue NOPAGE → wsetinsert a q km' = .ok (true, { q with
        clockqueue := Function.update q.clockqueue (hand + 1) a, clockhand := some (hand + 1) }, km')) ∧
      ∀ a, (vpn a).addr = a →
        (Listed q.clockqueue a → ∃ queue,
          wsetdelete q a = .ok (true, { q with clockqueue := queue, clockhand := some (hand - 1) }) ∧
            entries (hand - 1) queue = (entries hand q.clockqueue).erase a) ∧
        (¬ Listed q.clockqueue a → wsetdelete q a = .ok (false, q)) := by
  obtain ⟨⟨page, mapped, -⟩, remaining⟩ := allowed
  obtain ⟨p', done, inOrder⟩ := first_inOrder tidy page mapped km
  have moved : QueueCall.step (clearwset p, km) (.insert va) = some (p', km) := by
    simp [QueueCall.step, done, Except.toOption]
  obtain ⟨⟨q, km'⟩, completed, ordered⟩ := @run_progress _ _ QueueCall.step _ (fun s => InOrder s.1)
    (fun s call allowed inOrder => QueueCall.step_inOrder inOrder allowed) (p', km) calls inOrder
    (remaining _ moved)
  obtain ⟨hand, hand', free⟩ := ordered.free
  refine ⟨q, km', hand, by rw [run, moved]; exact completed, hand', free,
    nodup_entries.mpr ordered.queued.distinct, fun a space => ?_, fun a proper => ⟨fun present => ?_, fun absent => ?_⟩⟩
  · have next : nextHand q.clockhand = hand + 1 := by
      rw [hand']
      rfl
    have inserted := wsetinsert_empty a km' (next.symm ▸ free.next space)
    rwa [next] at inserted
  · obtain ⟨queue, deleted, read⟩ := wsetdelete_listed hand' present (proper ▸ addr_ne_NOPAGE _)
      ordered.queued.distinct
    exact ⟨queue, deleted, entries_delete read⟩
  · exact wsetdelete_absent absent

/-- Three pages go in, the second is deleted and the first is accessed. -/
theorem queue_in_order_crowded :
    ∃ q km' hand, run QueueCall.step (clearwset crowded, quiet)
        [.insert 0, .insert 0x1000, .insert 0x2000, .delete 0x1000, .touch 0] = some (q, km') ∧
      q.clockhand = some hand ∧ (entries hand q.clockqueue).Nodup := by
  obtain ⟨q, km', hand, completed, moved, -, distinct, -⟩ :=
    @queue_in_order crowded quiet 0 [.insert 0x1000, .insert 0x2000, .delete 0x1000, .touch 0]
      crowded_decent.tidy (by decide +kernel)
  exact ⟨q, km', hand, completed, moved, distinct⟩

end P6

end Cs537.Vm
