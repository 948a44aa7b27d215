import Cs537.Vm.PageReport

/-!
# The words that a report stores to

The fault handlers change neither which pages are mapped nor which are writable. A word that the
kernel has stored to therefore lies in pages that were mapped and writable before the report began,
whatever was encrypted, decrypted or evicted in between.
-/

namespace Cs537.Vm

open Programs

/-- The pages of a range are mapped and writable. -/
def Ready (pd : PgDir) (lo hi : Nat) : Prop :=
  ∀ v, Touches lo hi v → (pd.pte v).mapped = true ∧ (pd.pte v).w = true

section Ready

variable {pd : PgDir} {lo mid hi lo' hi' : Nat}

theorem Ready.mono (ready : Ready pd lo hi) (above : lo ≤ lo') (below : hi' ≤ hi) : Ready pd lo' hi' := by
  intro v touches
  unfold Touches at touches
  exact ready v (by unfold Touches; omega)

/-- They are so after other stores too. -/
theorem Ready.touched (ready : Ready pd lo hi) : Ready (pd.touched lo' hi') lo hi := by
  intro v touches
  obtain ⟨mapped, writable⟩ := ready v touches
  exact ⟨(touched_mapped fun _ => mapped).trans mapped, touched_w.trans writable⟩

theorem ready_empty : Ready pd lo lo := fun _ touches => absurd touches.1 (lt_irrefl lo)

/-- One range after the other. -/
theorem Ready.append (ready : Ready pd lo mid) (ready' : Ready pd mid hi) (first : lo ≤ mid)
    (second : mid ≤ hi) : Ready pd lo hi := by
  intro v touches
  obtain before | after := (Touches.split first second).mp touches
  · exact ready v before
  · exact ready' v after

end Ready

/-! ## What the fault handlers leave -/

section Handlers

variable {p p' : Proc} {pd pd' : PgDir} {va left i : Nat} {len : Int} {km km' : Kmem} {done : Bool}

/-- An assignment to an entry that keeps the writable bit. -/
theorem set_w {v : Vpn} {x : Pte} (kept : x.w = (pd.pte v).w) (w : Vpn) :
    ((pd.set v x).pte w).w = (pd.pte w).w := by
  rw [PgDir.set_pte]
  split
  · rename_i here
    rw [here, kept]
  · rfl

theorem P5.decrypt_w (result : P5.decrypt p va km = .ok (done, p', km')) (v : Vpn) :
    (p'.pgdir.pte v).w = (p.pgdir.pte v).w := by
  unfold P5.decrypt at result
  split at result
  · cases result
  · rename_i x walked
    obtain rfl := (PgDir.walk_some.mp walked).2
    split at result
    · obtain ⟨frame, found, continued⟩ := bind_ok.mp result
      cases frame with
      | none => cases continued
      | some f =>
        obtain ⟨-, rfl, -⟩ : true = done ∧ _ = p' ∧ km.complement f = km' := by
          simpa [pure, Except.pure] using continued
        exact set_w (x := { p.pgdir.pte (vpn va) with p := true, e := false }) rfl v
    · obtain ⟨-, rfl, -⟩ : false = done ∧ p = p' ∧ km = km' := by simpa using result
      rfl

namespace P6

theorem encryptPages_w (result : encryptPages left i pd km = .ok (pd', km')) (v : Vpn) :
    (pd'.pte v).w = (pd.pte v).w := by
  induction left generalizing i pd km with
  | zero =>
    obtain ⟨rfl, -⟩ : pd = pd' ∧ km = km' := by simpa [encryptPages] using result
    rfl
  | succ left inductionHypothesis =>
    unfold encryptPages at result
    split at result
    · cases result
    · rename_i x walked
      obtain rfl := (PgDir.walk_some.mp walked).2
      split at result
      · exact inductionHypothesis result
      · exact (inductionHypothesis result).trans
          (set_w (x := { pd.pte (vpn i) with p := false, e := true, a := false }) rfl v)

theorem mencrypt_w (result : mencrypt pd va len km = .ok (done, pd', km')) (v : Vpn) :
    (pd'.pte v).w = (pd.pte v).w := by
  obtain ⟨passed, -, result⟩ := bind_ok.mp result
  cases passed with
  | true =>
    obtain ⟨⟨cleared, rest⟩, looped, result⟩ := bind_ok.mp result
    obtain ⟨-, rfl, -⟩ : true = done ∧ cleared = pd' ∧ rest = km' := by
      simpa [pure, Except.pure] using result
    exact encryptPages_w looped v
  | false =>
    obtain ⟨-, rfl, -⟩ : false = done ∧ pd = pd' ∧ km = km' := by
      simpa [pure, Except.pure] using result
    rfl

theorem wsetinsertFrom_w {fuel : Nat} (result : wsetinsertFrom va fuel p km = .ok (done, p', km')) (v : Vpn) :
    (p'.pgdir.pte v).w = (p.pgdir.pte v).w := by
  induction fuel generalizing p km with
  | zero => cases result
  | succ fuel inductionHypothesis =>
    unfold wsetinsertFrom at result
    simp only at result
    split at result
    · obtain ⟨-, rfl, -⟩ : true = done ∧ _ = p' ∧ km = km' := by simpa using result
      rfl
    · split at result
      · cases result
      · rename_i x walked
        obtain rfl := (PgDir.walk_some.mp walked).2
        split at result
        · obtain ⟨⟨encrypted, pd, rest⟩, evicted, result⟩ := bind_ok.mp result
          have kept := mencrypt_w evicted v
          simp only [pure, Except.pure] at result
          split at result
          · obtain ⟨-, rfl, -⟩ : true = done ∧ _ = p' ∧ rest = km' := by simpa using result
            exact kept
          · obtain ⟨-, rfl, -⟩ : false = done ∧ _ = p' ∧ rest = km' := by simpa using result
            exact kept
        · exact (inductionHypothesis result).trans
            (set_w (x := { p.pgdir.pte (vpn (p.clockqueue (nextHand p.clockhand))) with a := false }) rfl v)

theorem mdecrypt_w (result : mdecrypt p va km = .ok (done, p', km')) (v : Vpn) :
    (p'.pgdir.pte v).w = (p.pgdir.pte v).w := by
  obtain ⟨-, rfl, -⟩ | ⟨-, -, -, inserted⟩ := mdecrypt_cases result
  · rfl
  · exact (wsetinsertFrom_w inserted v).trans
      (set_w (x := { p.pgdir.pte (vpn va) with e := false, p := true, a := true }) rfl v)

end P6

end Handlers

/-- What a store leaves of a page table: flags of its entries may change, but not whether a page is
mapped or writable. -/
structure Keeps (pd : PgDir) (km : Kmem) (pd' : PgDir) (km' : Kmem) : Prop extends
    Retouches pd km pd' km' where
  w : ∀ v, (pd'.pte v).w = (pd.pte v).w

theorem Keeps.trans {pd pd' pd'' : PgDir} {km km' km'' : Kmem} (first : Keeps pd km pd' km')
    (second : Keeps pd' km' pd'' km'') : Keeps pd km pd'' km'' :=
  ⟨first.toRetouches.trans second.toRetouches, fun v => (second.w v).trans (first.w v)⟩

namespace Reporting

variable {α : Type} {ver : Version} {d : Desk α} {retries address : Nat} {pd : PgDir} {km : Kmem}

theorem handleFault_keeps {p p' : Proc} {va : Nat} {km' : Kmem} {handled : Bool} (tidy : Tidy p.pgdir)
    (result : ver.handleFault p va km = .ok (handled, p', km')) : Keeps p.pgdir km p'.pgdir km' := by
  refine ⟨(handleFault_retouches tidy result).1, fun v => ?_⟩
  cases ver with
  | p5 => exact P5.decrypt_w result v
  | p6 => exact P6.mdecrypt_w result v

theorem mark_keeps {v : Vpn} (stored : writable pd v = true) : Keeps pd km (pd.mark v) km :=
  ⟨mark_retouches km stored, set_w rfl⟩

/-- A word can be stored to only in pages that were mapped and writable from the start. -/
theorem ready_of_free {pd' : PgDir} {km' : Kmem} (keeps : Keeps pd km pd' km') (small : address + 4 ≤ 2 ^ 32)
    (free : faultAt pd' address = none) : Ready pd address (address + 4) := by
  obtain ⟨first, last⟩ := faultAt_none free
  have page : ∀ v, writable pd' v = true → (pd.pte v).mapped = true ∧ (pd.pte v).w = true := by
    intro v stored
    obtain ⟨present, writes⟩ := writable_flags stored
    rw [← keeps.mapped v, ← keeps.w v, Pte.mapped, present]
    exact ⟨rfl, writes⟩
  intro v touches
  rcases (Touches.word small).mp touches with rfl | rfl
  · exact page _ first
  · exact page _ last

/-- The state of a report that began with a process: the words stored to lie in pages that were
mapped and writable. -/
structure Backed (p : Proc) (km : Kmem) (d : Desk α) : Prop where
  keeps : Keeps p.pgdir km d.proc.pgdir d.km
  size : d.proc.sz = p.sz
  ready : ∀ a ∈ d.stores, a + 4 ≤ 2 ^ 32 → Ready p.pgdir a (a + 4)

/-- The state of a report that has stopped: the last word may be one that could not be stored to. -/
structure Halted (p : Proc) (km : Kmem) (d : Desk α) : Prop where
  keeps : Keeps p.pgdir km d.proc.pgdir d.km
  ready : ∀ a ∈ d.stores.dropLast, a + 4 ≤ 2 ^ 32 → Ready p.pgdir a (a + 4)

theorem Backed.halted {p : Proc} (backed : Backed p km d) : Halted p km d :=
  ⟨backed.keeps, fun a member => backed.ready a (List.mem_of_mem_dropLast member)⟩

theorem attempt_keeps (tidy : Tidy d.proc.pgdir) :
    Ensures (attempt ver address) d
      (fun succeeded after => Keeps d.proc.pgdir d.km after.proc.pgdir after.km ∧ after.stores = d.stores ∧
        (succeeded = true → faultAt d.proc.pgdir address = none))
      (fun stopped => stopped.2 = d) := by
  unfold attempt
  simp only [ensures_bind, ensures_get]
  split
  · rename_i free
    simp only [ensures_set, ensures_bind, ensures_pure, true_and]
    obtain ⟨first, last⟩ := faultAt_none free
    rw [← writable_mark _ (vpn address)] at last
    exact ⟨(mark_keeps first).trans (mark_keeps last), fun _ => free⟩
  · split
    · simp
    · simp
    · rename_i p km handled
      simp only [ensures_set, ensures_bind, ensures_pure, true_and]
      exact ⟨handleFault_keeps tidy handled, fun impossible => absurd impossible Bool.false_ne_true⟩

/-- Attempts end with a word in pages that were mapped and writable, or not at all. -/
theorem persist_keeps (tidy : Tidy pd) (keeps : Keeps pd km d.proc.pgdir d.km) :
    Ensures (persist ver address retries) d
      (fun _ after => Keeps pd km after.proc.pgdir after.km ∧ after.stores = d.stores ∧
        (address + 4 ≤ 2 ^ 32 → Ready pd address (address + 4)))
      (fun stopped => Keeps pd km stopped.2.proc.pgdir stopped.2.km ∧ stopped.2.stores = d.stores) := by
  induction retries generalizing d with
  | zero =>
    rw [persist, ensures_bind]
    refine (attempt_keeps (keeps.tidy tidy)).mono (fun succeeded after changed => ?_) fun stopped same => ?_
    · obtain ⟨more, stores, free⟩ := changed
      cases succeeded
      · exact ⟨keeps.trans more, stores⟩
      · exact ⟨keeps.trans more, stores, fun small => ready_of_free keeps small (free rfl)⟩
    · rw [same]
      exact ⟨keeps, rfl⟩
  | succ retries inductionHypothesis =>
    rw [persist, ensures_bind]
    refine (attempt_keeps (keeps.tidy tidy)).mono (fun succeeded after changed => ?_) fun stopped same => ?_
    · obtain ⟨more, stores, free⟩ := changed
      cases succeeded
      · rw [← stores]
        exact inductionHypothesis (keeps.trans more)
      · exact ⟨keeps.trans more, stores, fun small => ready_of_free keeps small (free rfl)⟩
    · rw [same]
      exact ⟨keeps, rfl⟩

section Words

variable {p : Proc} {v : Vpn} {entries i : Nat}

/-- A store adds a word that was ready, or stops. -/
theorem store_backed (tidy : Tidy p.pgdir) (backed : Backed p km d) :
    Ensures (store ver retries address) d
      (fun _ after => Backed p km after ∧ after.stores = d.stores ++ [address] ∧ after.entries = d.entries)
      (fun stopped => Halted p km stopped.2 ∧ stopped.2.stores = d.stores ++ [address]) := by
  have persisted := @persist_keeps α ver { d with stores := d.stores ++ [address] } retries address p.pgdir km
    tidy backed.keeps
  have stored := @store_ensures α ver d retries address (backed.keeps.tidy tidy)
  unfold store at stored ⊢
  rw [ensures_bind, ensures_modify] at stored ⊢
  refine (stored.and persisted).mono (fun _ after changed => ?_) fun stopped changed => ?_
  · obtain ⟨stored, keeps, -, ready⟩ := changed
    refine ⟨⟨keeps, stored.size.trans backed.size, fun a member => ?_⟩, stored.stores, stored.entries⟩
    rw [stored.stores] at member
    obtain old | new := List.mem_append.mp member
    · exact backed.ready a old
    · exact List.mem_singleton.mp new ▸ ready
  · obtain ⟨stored, keeps, -⟩ := changed
    refine ⟨⟨keeps, fun a member => ?_⟩, stored.stores⟩
    rw [stored.stores, List.dropLast_concat] at member
    exact backed.ready a member

/-- Reading an entry needs its page-table page and changes nothing. -/
theorem readPte_backed (backed : Backed p km d) :
    Ensures (readPte v) d (fun _ after => after = d ∧ p.pgdir.tables v.pdx ≠ none)
      (fun stopped => stopped.2 = d ∧ p.pgdir.tables v.pdx = none) := by
  rw [← backed.keeps.tables]
  by_cases missing : d.proc.pgdir.tables v.pdx = none
  · unfold Ensures
    rw [readPte_missing missing]
    exact ⟨rfl, missing⟩
  · unfold Ensures
    rw [readPte_run missing]
    exact ⟨rfl, missing⟩

/-- The first words of an array. -/
def cells (entries count : Nat) : List Nat := (List.range count).map fun j => word (entries + 4 * j)

theorem cells_succ (entries count : Nat) :
    cells entries (count + 1) = cells entries count ++ [word (entries + 4 * count)] := by
  unfold cells
  rw [List.range_succ, List.map_append, List.map_singleton]

/-- The words of the array that is stored to lie in pages that were mapped and writable. -/
theorem Ready.of_cells {pd : PgDir} {count : Nat} (small : entries + 4 * count ≤ 2 ^ 32)
    (ready : ∀ a ∈ cells entries count, a + 4 ≤ 2 ^ 32 → Ready pd a (a + 4)) :
    Ready pd entries (entries + 4 * count) := by
  induction count with
  | zero => exact ready_empty
  | succ count inductionHypothesis =>
    rw [cells_succ] at ready
    have last := ready _ (List.mem_append_right _ (List.mem_singleton_self _))
    rw [word_small (by omega)] at last
    have before := inductionHypothesis (by omega) fun a member => ready a (List.mem_append_left _ member)
    exact before.append (last (by omega)) (by omega) (by omega)

/-- The assignments that describe a page, whatever the entries are made of. -/
def describeAs (ver : Version) (retries entry : Nat) (v : Vpn) (make : Frame → Pte → α) : Reporting α Unit := do
  store ver retries entry
  let ppage := (← readPte v).ppn
  store ver retries (word (entry + 4))
  let pte ← readPte v
  complete (make ppage pte)

/-- The entries up to an index are complete, and no other words are stored to. -/
structure Described (p : Proc) (km : Kmem) (entries i : Nat) (d : Desk α) : Prop extends Backed p km d where
  stores : d.stores = cells entries (2 * i)
  length : d.entries.length = i

/-- A report begins with no entry. -/
theorem described_start (p : Proc) (km : Kmem) (entries : Nat) :
    Described p km entries 0 (⟨p, km, [], []⟩ : Desk α) :=
  ⟨⟨⟨Retouches.refl _ _, fun _ => rfl⟩, rfl, fun _ member => absurd member List.not_mem_nil⟩, rfl, rfl⟩

/-- A description completes an entry, or stops at one of its words. It gets to the second word only with
a page-table page for the page. -/
theorem describeAs_described {make : Frame → Pte → α} (tidy : Tidy p.pgdir)
    (described : Described p km entries i d) :
    Ensures (describeAs ver retries (word (entries + i * ENTRY)) v make) d
      (fun _ after => Described p km entries (i + 1) after ∧ p.pgdir.tables v.pdx ≠ none)
      (fun stopped => Halted p km stopped.2 ∧ (stopped.2.stores = cells entries (2 * i + 1) ∨
        stopped.2.stores = cells entries (2 * i + 2) ∧ p.pgdir.tables v.pdx ≠ none)) := by
  have first : d.stores ++ [word (entries + i * ENTRY)] = cells entries (2 * i + 1) := by
    rw [cells_succ, described.stores]
    congr 4
    unfold ENTRY
    omega
  have second : cells entries (2 * i + 1) ++ [word (word (entries + i * ENTRY) + 4)] = cells entries (2 * i + 2) := by
    rw [cells_succ entries (2 * i + 1)]
    congr 2
    unfold word ENTRY
    omega
  unfold describeAs
  rw [ensures_bind]
  refine (store_backed tidy described.toBacked).mono (fun _ d₁ done => ?_) fun stopped halted => ?_
  · obtain ⟨backed, stores, filled⟩ := done
    rw [ensures_bind]
    refine (readPte_backed backed).mono (fun x d₂ read => ?_) fun stopped missing => ?_
    · obtain ⟨rfl, table⟩ := read
      rw [ensures_bind]
      refine (store_backed tidy backed).mono (fun _ d₃ done => ?_) fun stopped halted => ?_
      · obtain ⟨backed', stores', filled'⟩ := done
        rw [ensures_bind]
        refine (readPte_backed backed').mono (fun x d₄ read => ?_) fun stopped missing => absurd missing.2 table
        obtain ⟨rfl, -⟩ := read
        refine ⟨⟨⟨backed'.keeps, backed'.size, backed'.ready⟩, ?_, ?_⟩, table⟩
        · exact stores'.trans (by rw [stores, first, second]; rfl)
        · simp only [List.length_append, filled', filled, described.length, List.length_singleton]
      · exact ⟨halted.1, .inr ⟨by rw [halted.2, stores, first, second], table⟩⟩
    · obtain ⟨same, -⟩ := missing
      rw [same]
      exact ⟨backed.halted, .inl (stores.trans first)⟩
  · exact ⟨halted.1, .inl (halted.2.trans first)⟩

end Words

end Reporting

end Cs537.Vm
