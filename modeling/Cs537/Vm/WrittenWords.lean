import Cs537.Vm.CountedReport
import Cs537.Vm.RawDump

/-!
# The words that a report has written

A report that stops has stored to its last word or has not; all the words before are written. A store
to pages that are mapped and writable succeeds with two retries, in p6 of a coherent process: a word may
lie in two pages, and the page fault at the second one does not evict the first, which is the latest in
the queue.
-/

namespace Cs537.Vm

open Programs Reporting

namespace Reporting

/-- The words that a report has written when it stops: not the last one, if it stops at this store. -/
def leftBehind {α : Type} (stopped : Halt × Desk α) : List Nat :=
  if stopped.1 = .spin ∨ ∃ last ∈ stopped.2.stores.getLast?, faultAt stopped.2.proc.pgdir last ≠ none then
    stopped.2.stores.dropLast
  else stopped.2.stores

/-- The words that a report has written when it is over. -/
def written {α β : Type} : Except (Halt × Desk α) (β × Desk α) → List Nat
  | .ok (_, d) => d.stores
  | .error stopped => leftBehind stopped

end Reporting

/-! ## Words that are written -/

theorem Keeps.ready {pd pd' : PgDir} {km km' : Kmem} {lo hi : Nat} (keeps : Keeps pd km pd' km')
    (ready : Ready pd lo hi) : Ready pd' lo hi := by
  intro v touches
  rw [keeps.mapped, keeps.w]
  exact ready v touches

/-- What a version asks of a process for a store to a mapped and writable page to succeed. -/
def Steady : Version → Proc → Prop
  | .p5, p => Decent p
  | .p6, p => Coherent p

namespace Reporting

variable {α : Type} {ver : Version} {d : Desk α} {retries address other : Nat}

/-- A word is written, and so is the last word that was stored to. -/
structure Landed (address : Nat) (d : Desk α) : Prop where
  member : address ∈ d.stores
  last : ∀ last ∈ d.stores.getLast?, faultAt d.proc.pgdir last = none

/-- The word stays when the report stops other than at a store. -/
theorem Landed.left {reason : Halt} (landed : Landed address d) (ended : reason ≠ .spin) :
    address ∈ leftBehind (reason, d) := by
  have stored : ¬ (reason = .spin ∨ ∃ last ∈ d.stores.getLast?, faultAt d.proc.pgdir last ≠ none) := by
    rintro (spins | ⟨last, member, faults⟩)
    · exact ended spins
    · exact faults (landed.last last member)
  rw [leftBehind, if_neg stored]
  exact landed.member

/-- So do the words before the last. -/
theorem left_of_dropLast {stopped : Halt × Desk α} (member : address ∈ stopped.2.stores.dropLast) :
    address ∈ leftBehind stopped := by
  rw [leftBehind]
  split
  · exact member
  · exact List.mem_of_mem_dropLast member

/-- An attempt that succeeds leaves a word that can be stored to. -/
theorem attempt_free : Ensures (attempt ver address) d
    (fun succeeded after => after.stores = d.stores ∧ (succeeded = true → faultAt after.proc.pgdir address = none))
    (fun stopped => stopped.2.stores = d.stores) := by
  unfold attempt
  simp only [ensures_bind, ensures_get]
  split
  · rename_i free
    simp only [ensures_set, ensures_bind, ensures_pure, true_and]
    obtain ⟨first, last⟩ := faultAt_none free
    intro _
    unfold faultAt
    rw [writable_mark, writable_mark, writable_mark, writable_mark, first, last]
    rfl
  · split
    · simp
    · simp
    · simp only [ensures_set, ensures_bind, ensures_pure, true_and]
      exact fun impossible => absurd impossible Bool.false_ne_true

theorem persist_free : Ensures (persist ver address retries) d
    (fun _ after => after.stores = d.stores ∧ faultAt after.proc.pgdir address = none)
    (fun stopped => stopped.2.stores = d.stores) := by
  induction retries generalizing d with
  | zero =>
    rw [persist, ensures_bind]
    refine attempt_free.mono (fun succeeded after changed => ?_) fun _ same => same
    cases succeeded
    · exact changed.1
    · exact ⟨changed.1, changed.2 rfl⟩
  | succ retries inductionHypothesis =>
    rw [persist, ensures_bind]
    refine attempt_free.mono (fun succeeded after changed => ?_) fun _ same => same
    cases succeeded
    · rw [← changed.1]
      exact inductionHypothesis
    · exact ⟨changed.1, changed.2 rfl⟩

/-- A store that succeeds writes its word. -/
theorem store_free : Ensures (store ver retries address) d
    (fun _ after => after.stores = d.stores ++ [address] ∧ Landed address after)
    (fun stopped => stopped.2.stores = d.stores ++ [address]) := by
  unfold store
  rw [ensures_bind, ensures_modify]
  refine persist_free.mono (fun _ after changed => ⟨changed.1, ?_, fun last member => ?_⟩) fun _ same => same
  · rw [changed.1]
    exact List.mem_append_right _ (List.mem_singleton_self _)
  · rw [changed.1, List.getLast?_append] at member
    obtain rfl : address = last := by simpa using member
    exact changed.2

/-- A word that is written stays when more is stored to. -/
theorem Landed.store (landed : Landed address d) : Ensures (store ver retries other) d
    (fun _ after => Landed address after) (fun stopped => address ∈ leftBehind stopped) := by
  refine store_free.mono (fun _ after changed => ⟨?_, changed.2.last⟩) fun stopped same => ?_
  · rw [changed.1]
    exact List.mem_append_left _ landed.member
  · refine left_of_dropLast ?_
    rw [same, List.dropLast_concat]
    exact landed.member

theorem Landed.readPte {v : Vpn} (landed : Landed address d) : Ensures (readPte v) d
    (fun _ after => Landed address after) (fun stopped => address ∈ leftBehind stopped) := by
  unfold Reporting.readPte
  simp only [ensures_bind, ensures_get]
  split
  · exact landed.left (by decide)
  · exact landed

/-- It stays while a description is finished. -/
theorem Landed.describeRest {entry : Nat} {v : Vpn} {make : Frame → Pte → α} (landed : Landed address d) :
    Ensures (do
      let ppage := (← Reporting.readPte v).ppn
      Reporting.store ver retries (word (entry + 4))
      let pte ← Reporting.readPte v
      complete (make ppage pte)) d
      (fun _ after => Landed address after) (fun stopped => address ∈ leftBehind stopped) := by
  rw [ensures_bind]
  refine landed.readPte.mono (fun _ second landed => ?_) fun _ left => left
  rw [ensures_bind]
  refine landed.store.mono (fun _ third landed => ?_) fun _ left => left
  rw [ensures_bind]
  exact landed.readPte.mono (fun _ last landed => ⟨landed.member, landed.last⟩) fun _ left => left

theorem Landed.describeAs {entry : Nat} {v : Vpn} {make : Frame → Pte → α} (landed : Landed address d) :
    Ensures (describeAs ver retries entry v make) d
      (fun _ after => Landed address after) (fun stopped => address ∈ leftBehind stopped) := by
  unfold Reporting.describeAs
  rw [ensures_bind]
  exact landed.store.mono (fun _ _ landed => landed.describeRest) fun _ left => left

end Reporting

/-! ## Stores that succeed -/

namespace P6

section Stores

variable {α : Type} {d : Desk α} {p : Proc} {v : Vpn} {va retries address : Nat}

/-- The page was the last one to be inserted: the hand is at it, and it counts as accessed. -/
def Latest (p : Proc) (v : Vpn) : Prop :=
  ∃ slot, p.clockhand = some slot ∧ p.clockqueue slot = v.addr ∧ (p.pgdir.pte v).a = true

/-- The clock passes every other slot before it comes back to the last one. -/
theorem Latest.spared (coherent : Coherent p) (latest : Latest p v) : p.clockqueue (target p) ≠ v.addr := by
  obtain ⟨slot, hand, queue, accessed⟩ := latest
  intro same
  have filled : p.clockqueue (target p) ≠ NOPAGE := same ▸ addr_ne_NOPAGE v
  have here : target p = slot := coherent.distinct _ _ filled (same.trans queue.symm)
  have round : passes p = 7 := by
    have position := congrArg Fin.val here
    have most := passes_le p
    unfold target slotAt at position
    rw [hand, nextHand] at position
    simp only [Fin.val_add, Fin.ofNat, Fin.val_one] at position
    omega
  have stopped := stops_target (p := p) (by omega)
  rw [here] at stopped
  unfold stops at stopped
  rw [queue, vpn_of_addr, accessed] at stopped
  simp [addr_ne_NOPAGE] at stopped

/-- A page fault at an encrypted page makes it present and the latest, and leaves the latest one before it
present. -/
theorem fault_latest (km : Kmem) (coherent : Coherent p) (low : va < KERNBASE) (opened : p.pgdir.opens (vpn va))
    (sealed : (p.pgdir.pte (vpn va)).e = true) :
    ∃ q next, mdecrypt p va km = .ok (true, q, next) ∧ Coherent q ∧ Latest q (vpn va) ∧
      (q.pgdir.pte (vpn va)).p = true ∧
      ∀ v, v ≠ vpn va → Latest p v → (q.pgdir.pte v).p = (p.pgdir.pte v).p := by
  obtain ⟨-, q, next, decrypted, replaced, -⟩ := mdecrypt_replaces coherent.settled low opened sealed km
  refine ⟨q, next, decrypted, mdecrypt_coherent coherent opened sealed decrypted,
    ⟨target p, replaced.hand, ?_, ?_⟩, ?_, fun v other latest => ?_⟩
  · rw [replaced.queue, Function.update_self]
  · rw [replaced.page]
  · rw [replaced.page]
  · have spared := (latest.spared coherent).symm
    by_cases passed : Passed p (passes p) v
    · rw [replaced.passed v spared passed]
    · rw [replaced.others v other spared passed]

/-- A fault is at a page of the word that cannot be stored to. -/
theorem faultAt_some {pd : PgDir} (small : address + 4 ≤ 2 ^ 32) (faults : faultAt pd address = some va) :
    (vpn va = vpn address ∨ vpn va = vpn (address + 3)) ∧ ¬ writable pd (vpn va) = true ∧ va < 2 ^ 32 := by
  unfold faultAt at faults
  split at faults
  · rename_i refused
    obtain rfl := Option.some.inj faults
    exact ⟨.inl rfl, by simpa using refused, by omega⟩
  · split at faults
    · rename_i refused
      obtain rfl := Option.some.inj faults
      have page : vpn (PGROUNDDOWN (word (address + 3))) = vpn (address + 3) := by
        rw [vpn_PGROUNDDOWN, vpn_word]
      have below : PGROUNDDOWN (word (address + 3)) < 2 ^ 32 := by
        unfold PGROUNDDOWN word PGSIZE
        omega
      exact ⟨.inr page, by rw [page]; simpa using refused, below⟩
    · cases faults

/-- An attempt at mapped and writable pages succeeds, or makes one of them present. -/
theorem attempt_steady (coherent : Coherent d.proc) (small : address + 4 ≤ 2 ^ 32)
    (ready : Ready d.proc.pgdir address (address + 4)) :
    Ensures (attempt .p6 address) d
      (fun succeeded after => Coherent after.proc ∧ Ready after.proc.pgdir address (address + 4) ∧
        (succeeded = false → ∃ v, (v = vpn address ∨ v = vpn (address + 3)) ∧ (d.proc.pgdir.pte v).p = false ∧
          (after.proc.pgdir.pte v).p = true ∧ Latest after.proc v ∧
          ∀ w, w ≠ v → Latest d.proc w → (after.proc.pgdir.pte w).p = (d.proc.pgdir.pte w).p))
      (fun _ => False) := by
  unfold attempt
  simp only [ensures_bind, ensures_get]
  cases faults : faultAt d.proc.pgdir address with
  | none =>
    simp only [ensures_set, ensures_bind, ensures_pure]
    obtain ⟨first, last⟩ := faultAt_none faults
    have filled : ∀ (pd : PgDir) (w : Vpn), writable pd w = true → pd.pte w ≠ {} := by
      intro pd w stored empty
      have present := (writable_flags stored).1
      rw [empty] at present
      cases present
    have once : Coherent { d.proc with pgdir := d.proc.pgdir.mark (vpn address) } :=
      coherent.touch d.km (filled _ _ first)
    have marked : Keeps d.proc.pgdir d.km (d.proc.pgdir.mark (vpn address)) d.km := mark_keeps first
    rw [← writable_mark _ (vpn address)] at last
    have twice : Coherent { d.proc with pgdir := (d.proc.pgdir.mark (vpn address)).mark (vpn (address + 3)) } :=
      once.touch d.km (filled _ _ last)
    have keeps := marked.trans (mark_keeps last)
    exact ⟨twice, keeps.ready ready, fun impossible => absurd impossible.symm Bool.false_ne_true⟩
  | some va =>
    obtain ⟨own, refused, bounded⟩ := faultAt_some small faults
    obtain ⟨mapped, w⟩ := ready (vpn va) ((Touches.word small).mpr own)
    obtain ⟨absent, sealed, opened⟩ := sealed_of_refused coherent.decent mapped w refused
    have low : va < KERNBASE := by
      have user := coherent.decent.tidy.low opened.2
      unfold Vpn.user at user
      rw [vpn_val bounded] at user
      unfold KERNBASE
      unfold PGSIZE at user
      omega
    obtain ⟨q, next, decrypted, coherent', latest, present, kept⟩ :=
      fault_latest d.km coherent low opened sealed
    have handled : Version.p6.handleFault d.proc va d.km = .ok (true, q, next) := decrypted
    have keeps := handleFault_keeps coherent.decent.tidy handled
    simp only [Version.handleFault, decrypted, ensures_set, ensures_bind, ensures_pure]
    exact ⟨coherent', keeps.ready ready, fun _ => ⟨vpn va, own, absent, present, latest, kept⟩⟩

/-- When the pages of a word are present, the store succeeds. -/
theorem persist_both (coherent : Coherent d.proc) (small : address + 4 ≤ 2 ^ 32)
    (ready : Ready d.proc.pgdir address (address + 4)) (first : (d.proc.pgdir.pte (vpn address)).p = true)
    (last : (d.proc.pgdir.pte (vpn (address + 3))).p = true) :
    Ensures (persist .p6 address retries) d (fun _ after => Coherent after.proc) (fun _ => False) := by
  have tried := attempt_steady coherent small ready
  have present : ∀ v, v = vpn address ∨ v = vpn (address + 3) → (d.proc.pgdir.pte v).p = true := by
    rintro v (rfl | rfl)
    · exact first
    · exact last
  cases retries with
  | zero =>
    rw [persist, ensures_bind]
    refine tried.mono (fun succeeded after changed => ?_) fun _ impossible => impossible
    obtain ⟨coherent', -, failed⟩ := changed
    cases succeeded
    · obtain ⟨v, own, absent, -⟩ := failed rfl
      exact absurd ((present v own).symm.trans absent) (by decide)
    · exact coherent'
  | succ retries =>
    rw [persist, ensures_bind]
    refine tried.mono (fun succeeded after changed => ?_) fun _ impossible => impossible
    obtain ⟨coherent', -, failed⟩ := changed
    cases succeeded
    · obtain ⟨v, own, absent, -⟩ := failed rfl
      exact absurd ((present v own).symm.trans absent) (by decide)
    · exact coherent'

/-- When one of them is present and the latest, one retry is enough: the fault at the other one leaves it. -/
theorem persist_latest (retries : Nat) (coherent : Coherent d.proc) (small : address + 4 ≤ 2 ^ 32)
    (ready : Ready d.proc.pgdir address (address + 4)) (own : v = vpn address ∨ v = vpn (address + 3))
    (present : (d.proc.pgdir.pte v).p = true) (latest : Latest d.proc v) :
    Ensures (persist .p6 address (retries + 1)) d (fun _ after => Coherent after.proc) (fun _ => False) := by
  rw [persist, ensures_bind]
  refine (attempt_steady coherent small ready).mono (fun succeeded after changed => ?_)
    fun _ impossible => impossible
  obtain ⟨coherent', ready', failed⟩ := changed
  cases succeeded
  · obtain ⟨w, other, absent, now, -, kept⟩ := failed rfl
    have different : v ≠ w := by
      rintro rfl
      exact absurd (present.symm.trans absent) (by decide)
    have still := (kept v different latest).trans present
    rcases own with rfl | rfl
    · rcases other with rfl | rfl
      · exact absurd rfl different
      · exact persist_both coherent' small ready' still now
    · rcases other with rfl | rfl
      · exact persist_both coherent' small ready' now still
      · exact absurd rfl different
  · exact coherent'

/-- Two retries are always enough. -/
theorem persist_steady (retries : Nat) (coherent : Coherent d.proc) (small : address + 4 ≤ 2 ^ 32)
    (ready : Ready d.proc.pgdir address (address + 4)) :
    Ensures (persist .p6 address (retries + 2)) d (fun _ after => Coherent after.proc) (fun _ => False) := by
  rw [persist, ensures_bind]
  refine (attempt_steady coherent small ready).mono (fun succeeded after changed => ?_)
    fun _ impossible => impossible
  obtain ⟨coherent', ready', failed⟩ := changed
  cases succeeded
  · obtain ⟨v, own, -, present, latest, -⟩ := failed rfl
    exact persist_latest retries coherent' small ready' own present latest
  · exact coherent'

end Stores

end P6

namespace Reporting

variable {α : Type} {ver : Version} {d : Desk α} {retries address t i entries : Nat} {p : Proc} {km : Kmem}

/-- A store to mapped and writable pages succeeds, in either version. -/
theorem store_steady (steady : Steady ver d.proc) (small : address + 4 ≤ 2 ^ 32) (patient : 2 ≤ retries)
    (ready : Ready d.proc.pgdir address (address + 4)) :
    Ensures (store ver retries address) d (fun _ after => Steady ver after.proc) (fun _ => False) := by
  cases ver with
  | p5 =>
    have decent : Decent d.proc := steady
    obtain ⟨km, stored⟩ := @P5.store_ready α d retries address decent small patient ready
    unfold Ensures
    rw [stored]
    exact decent.touched fun v touches => (ready v touches).1
  | p6 =>
    obtain ⟨more, rfl⟩ := Nat.exists_eq_add_of_le' patient
    unfold store
    rw [ensures_bind, ensures_modify]
    exact P6.persist_steady more steady small ready

/-- A store to mapped and writable pages writes its word. -/
theorem store_lands (tidy : Tidy p.pgdir) (backed : Backed p km d) (steady : Steady ver d.proc)
    (small : address + 4 ≤ 2 ^ 32) (patient : 2 ≤ retries) (ready : Ready p.pgdir address (address + 4)) :
    Ensures (store ver retries address) d
      (fun _ after => Steady ver after.proc ∧ Landed address after ∧ Backed p km after) (fun _ => False) := by
  have succeeds := store_steady steady small patient (backed.keeps.ready ready)
  refine (succeeds.and ((@store_free α ver d retries address).and
    (@store_backed α ver d retries address km p tidy backed))).mono (fun _ after done => ?_) fun _ never => never.1
  exact ⟨done.1, done.2.1.2, done.2.2.1⟩

/-- While the pages of the buffer are mapped and writable up to the end of word `t`, a description comes to
this word, or completes an entry before it. -/
theorem describeAs_lands {v : Vpn} {make : Frame → Pte → α} (tidy : Tidy p.pgdir) (backed : Backed p km d)
    (steady : Steady ver d.proc) (patient : 2 ≤ retries) (small : entries + 4 * (t + 1) ≤ 2 ^ 32)
    (ready : Ready p.pgdir entries (entries + 4 * (t + 1))) (early : 2 * i ≤ t)
    (table : 2 * i + 1 ≤ t → p.pgdir.tables v.pdx ≠ none) :
    Ensures (describeAs ver retries (word (entries + i * ENTRY)) v make) d
      (fun _ after => Landed (entries + 4 * t) after ∨ 2 * (i + 1) ≤ t ∧ Steady ver after.proc)
      (fun stopped => entries + 4 * t ∈ leftBehind stopped) := by
  have first : word (entries + i * ENTRY) = entries + 4 * (2 * i) := by
    rw [word_small (by unfold ENTRY; omega)]
    unfold ENTRY
    omega
  unfold describeAs
  rw [ensures_bind, first]
  refine (store_lands tidy backed steady (by omega) patient (ready.mono (by omega) (by omega))).mono
    (fun _ d₁ stored => ?_) fun _ impossible => impossible.elim
  obtain ⟨steady₁, landed, backed₁⟩ := stored
  obtain rfl | further := Nat.eq_or_lt_of_le early
  · exact landed.describeRest.mono (fun _ _ landed => .inl landed) fun _ left => left
  · have second : word (entries + 4 * (2 * i) + 4) = entries + 4 * (2 * i + 1) := word_small (by omega)
    rw [ensures_bind]
    refine (readPte_backed backed₁).mono (fun x d₂ read => ?_) fun _ missing => absurd missing.2 (table further)
    obtain ⟨rfl, -⟩ := read
    rw [ensures_bind, second]
    refine (store_lands tidy backed₁ steady₁ (by omega) patient (ready.mono (by omega) (by omega))).mono
      (fun _ d₃ stored => ?_) fun _ impossible => impossible.elim
    obtain ⟨steady₃, landed', backed₃⟩ := stored
    rw [ensures_bind]
    refine (readPte_backed backed₃).mono (fun x d₄ read => ?_) fun _ missing => absurd missing.2 (table further)
    obtain ⟨rfl, -⟩ := read
    obtain rfl | later := Nat.eq_or_lt_of_le further
    · exact .inl ⟨landed'.member, landed'.last⟩
    · exact .inr ⟨later, steady₃⟩

end Reporting

end Cs537.Vm
