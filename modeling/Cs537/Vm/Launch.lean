import Cs537.Vm.Growth
import Cs537.Vm.Recryption
import Cs537.Vm.Process

/-!
# The memory of a process after `exec`

While `exec` builds the new page table, the pages below the size are present and in
clear and there are no others; all their frames come from the free list, so that
loading the program and the arguments overwrites no frame of anybody else. When
anything fails, all these frames go back. p6 finally encrypts every page that is
open to users.
-/

namespace Cs537.Vm

open Occurrences Ledger

/-- A page table under construction, since the state `start` of the allocator. -/
structure Building (start : Kmem) (sz : Nat) (pd : PgDir) (km : Kmem) : Prop where
  tidy : Tidy pd
  takes : Takes (fun _ => 0) start.store pd.refs km.store
  bounded : sz ≤ KERNBASE
  inside : ∀ v : Vpn, v.addr < sz → (pd.pte v).p = true ∧ (pd.pte v).e = false
  outside : ∀ v : Vpn, v.user → sz ≤ v.addr → pd.pte v = {}

/-- A page table that was given up: its frames are still to be given back. -/
def Abandoned (start : Kmem) (pd : PgDir) (km : Kmem) : Prop :=
  Tidy pd ∧ Exchanges (fun _ => 0) start.store pd.refs km.store

/-- After `freevm` of an abandoned page table every frame is back in its place. -/
theorem Abandoned.freevm {start km km' : Kmem} {pd : PgDir} (abandoned : Abandoned start pd km)
    (freed : freevm pd km = .ok km') : Exchanges (fun _ => 0) start.store (fun _ => 0) km'.store :=
  abandoned.2.gives (freevm_gives abandoned.1 freed)

/-- A stage of `exec` goes on with a size, or jumps to `bad`. -/
def Built (start : Kmem) (made : Option Nat) (pd : PgDir) (km : Kmem) : Prop :=
  match made with
  | none => Abandoned start pd km
  | some sz => Building start sz pd km

namespace Building

variable {ver : Version} {start km km' : Kmem} {sz : Nat} {pd pd' : PgDir}

theorem abandoned (building : Building start sz pd km) : Abandoned start pd km :=
  ⟨building.tidy, building.takes.exchanges⟩

/-- Pages below the size are user pages and mapped. -/
theorem mapped (building : Building start sz pd km) {v : Vpn} (below : v.addr < sz) :
    v.user ∧ (pd.pte v).mapped = true := by
  refine ⟨(Vpn.user_iff v).mpr (below.trans_le building.bounded), ?_⟩
  unfold Pte.mapped
  rw [(building.inside v below).1, Bool.true_or]

/-- A page of the new page table may be written. -/
theorem write (building : Building start sz pd km) {v : Vpn} (low : v.user)
    (mapped : (pd.pte v).mapped = true) (page : Page) :
    Building start sz pd (km.write (pd.pte v).ppn page) := by
  refine { building with takes := ?_ }
  exact building.takes.write (refs_pos low mapped) fun g different => km.write_mem_other page different

/-- Only the pages that begin below the size count. -/
theorem resize {sz' : Nat} (building : Building start sz pd km) (bounded : sz' ≤ KERNBASE)
    (same : ∀ v : Vpn, v.addr < sz' ↔ v.addr < sz) : Building start sz' pd km := by
  refine { building with bounded := bounded, inside := fun v below => ?_, outside := fun v low above => ?_ }
  · exact building.inside v ((same v).mp below)
  · refine building.outside v low ?_
    have iff := same v
    omega

/-- `allocuvm` extends the pages in clear, or fails. -/
theorem allocuvm {newsz size : Nat} (building : Building start sz pd km)
    (result : allocuvm ver pd sz newsz km = .ok (size, pd', km')) :
    Building start size pd' km' ∧ newsz ≤ size ∧ (size = newsz ∨ size = sz) ∨
      size = 0 ∧ Abandoned start pd' km' := by
  cases allocuvm_cases building.tidy result with
  | tooLarge => exact .inr ⟨rfl, building.abandoned⟩
  | smaller small below => exact .inl ⟨building, below.le, .inr rfl⟩
  | done small above fills =>
    refine .inl ⟨⟨fills.tidy, building.takes.trans fills.takes, small.le, fun v below => ?_, ?_⟩, le_rfl,
      .inl rfl⟩
    · by_cases new : sz ≤ v.addr
      · obtain ⟨-, f, entry, -⟩ := fills.inside v new below
        rw [entry]
        cases ver <;> exact ⟨rfl, rfl⟩
      · rw [fills.outside v (by omega)]
        exact building.inside v (by omega)
    · intro v low beyond
      rw [fills.outside v (by omega)]
      exact building.outside v low (by omega)
  | undone small above tidy exchanged _ =>
    exact .inr ⟨rfl, tidy, building.takes.exchange exchanged⟩

/-- The loop of `loaduvm` writes to pages below the size. -/
theorem loaduvmFrom {seg : Segment} {fuel i : Nat} {loaded : Bool} (building : Building start sz pd km)
    (aligned : PGSIZE ∣ seg.vaddr) (alignedOffset : PGSIZE ∣ i) (fits : seg.vaddr + seg.filesz ≤ sz)
    (result : loaduvmFrom pd seg fuel i km = .ok (loaded, km')) : Building start sz pd km' := by
  induction fuel generalizing i km with
  | zero =>
    obtain ⟨-, rfl⟩ : true = loaded ∧ km = km' := by simpa [Vm.loaduvmFrom] using result
    exact building
  | succ fuel inductionHypothesis =>
    unfold Vm.loaduvmFrom at result
    split at result
    · rename_i inside
      split at result
      · cases result
      · rename_i x walked
        obtain rfl := (PgDir.walk_some.mp walked).2
        simp only at result
        split at result
        · obtain ⟨-, rfl⟩ : false = loaded ∧ km = km' := by simpa using result
          exact building
        · have bounded := building.bounded
          have small : seg.vaddr + i < 2 ^ 32 := by
            unfold KERNBASE at bounded
            omega
          have page : (vpn (word (seg.vaddr + i))).addr = seg.vaddr + i := by
            rw [word_small small]
            exact vpn_addr small ((Nat.dvd_add_right aligned).mpr alignedOffset)
          obtain ⟨low, mapped⟩ := building.mapped (v := vpn (word (seg.vaddr + i))) (by omega)
          exact inductionHypothesis (building.write low mapped _)
            ((Nat.dvd_add_right alignedOffset).mpr (dvd_refl _)) result
    · obtain ⟨-, rfl⟩ : true = loaded ∧ km = km' := by simpa using result
      exact building

/-- `loaduvm` of a segment below the size. -/
theorem loaduvm {seg : Segment} {loaded : Bool} (building : Building start sz pd km)
    (fits : seg.vaddr + seg.filesz ≤ sz) (result : loaduvm pd seg km = .ok (loaded, km')) :
    Building start sz pd km' := by
  unfold Vm.loaduvm at result
  split at result
  · cases result
  · rename_i aligned
    exact building.loaduvmFrom (Nat.dvd_of_mod_eq_zero (by simpa using aligned)) (dvd_zero _) fits result

/-- The loop of `exec` over the program headers. -/
theorem loadSegments {segments : List (Option Segment)} {made : Option Nat}
    (building : Building start sz pd km)
    (result : loadSegments ver segments sz pd km = .ok (made, pd', km')) :
    Built start made pd' km' := by
  induction segments generalizing sz pd km with
  | nil =>
    obtain ⟨rfl, rfl, rfl⟩ : some sz = made ∧ pd = pd' ∧ km = km' := by
      simpa [Vm.loadSegments] using result
    exact building
  | cons segment rest inductionHypothesis =>
    cases segment with
    | none =>
      obtain ⟨rfl, rfl, rfl⟩ : none = made ∧ pd = pd' ∧ km = km' := by
        simpa [Vm.loadSegments] using result
      exact building.abandoned
    | some seg =>
      unfold Vm.loadSegments at result
      split at result
      · exact inductionHypothesis building result
      · split at result
        · obtain ⟨rfl, rfl, rfl⟩ : none = made ∧ pd = pd' ∧ km = km' := by simpa using result
          exact building.abandoned
        · rename_i covered
          split at result
          · obtain ⟨rfl, rfl, rfl⟩ : none = made ∧ pd = pd' ∧ km = km' := by simpa using result
            exact building.abandoned
          · rename_i unwrapped
            obtain ⟨⟨size, grown, between⟩, called, continued⟩ := bind_ok.mp result
            simp only [pure, Except.pure] at continued
            split at continued
            · obtain ⟨rfl, rfl, rfl⟩ : none = made ∧ grown = pd' ∧ between = km' := by
                simpa using continued
              obtain ⟨built, -⟩ | ⟨-, abandoned⟩ := building.allocuvm called
              · exact built.abandoned
              · exact abandoned
            · rename_i nonzero
              obtain ⟨built, above, -⟩ | ⟨zero, -⟩ := building.allocuvm called
              · split at continued
                · obtain ⟨rfl, rfl, rfl⟩ : none = made ∧ grown = pd' ∧ between = km' := by
                    simpa using continued
                  exact built.abandoned
                · obtain ⟨⟨loaded, later⟩, read, continued⟩ := bind_ok.mp continued
                  have fits : seg.vaddr + seg.filesz ≤ size := by
                    have vaddrWord := seg.vaddrWord
                    have memszWord := seg.memszWord
                    unfold word at unwrapped above
                    omega
                  have built' := built.loaduvm fits read
                  simp only at continued
                  split at continued
                  · exact inductionHypothesis built' continued
                  · obtain ⟨rfl, rfl, rfl⟩ : none = made ∧ grown = pd' ∧ later = km' := by
                      simpa using continued
                    exact built'.abandoned
              · exact absurd zero nonzero

/-- `copyout` writes to pages that are open to users. -/
theorem copyout {fuel va : Nat} {bytes : List (BitVec 8)} {copied : Bool}
    (building : Building start sz pd km)
    (result : copyout ver pd fuel va bytes km = .ok (copied, km')) : Building start sz pd km' := by
  induction fuel generalizing va bytes km with
  | zero =>
    obtain ⟨-, rfl⟩ : true = copied ∧ km = km' := by simpa [Vm.copyout] using result
    exact building
  | succ fuel inductionHypothesis =>
    unfold Vm.copyout at result
    split at result
    · obtain ⟨-, rfl⟩ : true = copied ∧ km = km' := by simpa using result
      exact building
    · obtain ⟨frame, found, continued⟩ := bind_ok.mp result
      cases frame with
      | none =>
        obtain ⟨-, rfl⟩ : false = copied ∧ km = km' := by simpa [pure, Except.pure] using continued
        exact building
      | some f =>
        obtain ⟨⟨mapped, opened⟩, rfl⟩ := uva2ka_some found
        exact inductionHypothesis (building.write (building.tidy.low opened) mapped _) continued

/-- The loop of `exec` over the arguments. -/
theorem pushArgs {argv : List (List (BitVec 8))} {sp : Nat} {pushed : List Nat}
    {made : Option (Nat × List Nat)} (building : Building start sz pd km)
    (result : pushArgs ver pd argv sp pushed km = .ok (made, km')) : Building start sz pd km' := by
  induction argv generalizing sp pushed km with
  | nil =>
    obtain ⟨-, rfl⟩ : some (sp, pushed) = made ∧ km = km' := by simpa [Vm.pushArgs] using result
    exact building
  | cons arg rest inductionHypothesis =>
    unfold Vm.pushArgs at result
    split at result
    · obtain ⟨-, rfl⟩ : none = made ∧ km = km' := by simpa using result
      exact building
    · obtain ⟨⟨copied, between⟩, called, continued⟩ := bind_ok.mp result
      have built := building.copyout called
      simp only [pure, Except.pure] at continued
      split at continued
      · exact inductionHypothesis built continued
      · obtain ⟨-, rfl⟩ : none = made ∧ between = km' := by simpa using continued
        exact built

/-- `clearpteu` of a page below the size. -/
theorem clearpteu {uva : Nat} (building : Building start sz pd km) (below : (vpn uva).addr < sz)
    (result : clearpteu pd uva = .ok pd') : Building start sz pd' km := by
  unfold Vm.clearpteu at result
  split at result
  · cases result
  · rename_i x walked
    obtain ⟨table, rfl⟩ := PgDir.walk_some.mp walked
    obtain rfl := Except.ok.inj result
    obtain ⟨low, mapped⟩ := building.mapped below
    have entry : ({ pd.pte (vpn uva) with u := false } : Pte).mapped = true := mapped
    refine ⟨building.tidy.set table (fun _ _ => entry) (fun high => absurd low high), ?_,
      building.bounded, fun v below' => ?_, fun v low' above => ?_⟩
    · refine building.takes.recount fun g => ?_
      have exchanged := pd.refs_set { pd.pte (vpn uva) with u := false } low g
      have held : pd.owned (vpn uva) = some (pd.pte (vpn uva)).ppn := by simp [PgDir.owned, low, mapped]
      rw [held, if_pos entry, holds_some] at exchanged
      simp only at exchanged
      omega
    · rw [PgDir.set_pte]
      split
      · rename_i same
        exact building.inside (vpn uva) below
      · exact building.inside v below'
    · have different : v ≠ vpn uva := by
        rintro rfl
        omega
      rw [PgDir.set_pte, if_neg different]
      exact building.outside v low' above

/-- The stack of `exec`. -/
theorem buildStack {argv : List (List (BitVec 8))} {made : Option Nat} (building : Building start sz pd km)
    (result : buildStack ver argv sz pd km = .ok (made, pd', km')) : Built start made pd' km' := by
  obtain ⟨⟨size, grown, between⟩, called, continued⟩ := bind_ok.mp result
  have bounded := building.bounded
  have rounded := le_PGROUNDUP bounded
  have aligned := PGROUNDUP_aligned sz
  have roundedBound : PGROUNDUP sz ≤ KERNBASE := by
    clear result called continued
    unfold PGSIZE KERNBASE at *
    omega
  have next : word (PGROUNDUP sz + 2 * PGSIZE) = PGROUNDUP sz + 2 * PGSIZE := word_small (by
    clear result called continued
    unfold PGSIZE KERNBASE at *
    omega)
  rw [next] at called
  have whole := building.resize roundedBound (addr_lt_iff aligned rounded.1 rounded.2)
  simp only [pure, Except.pure] at continued
  split at continued
  · obtain ⟨rfl, rfl, rfl⟩ : none = made ∧ grown = pd' ∧ between = km' := by simpa using continued
    obtain ⟨built, -⟩ | ⟨-, abandoned⟩ := whole.allocuvm called
    · exact built.abandoned
    · exact abandoned
  · rename_i nonzero
    obtain ⟨built, above, which⟩ | ⟨zero, -⟩ := whole.allocuvm called
    · obtain ⟨guarded, cleared, continued⟩ := bind_ok.mp continued
      have same : size = PGROUNDUP sz + 2 * PGSIZE := by
        unfold PGSIZE at *
        omega
      have below : (vpn (size - 2 * PGSIZE)).addr < size := by
        rw [vpn_addr]
        · unfold PGSIZE at *
          omega
        · have sizeBound := built.bounded
          unfold KERNBASE at sizeBound
          omega
        · rw [same, Nat.add_sub_cancel]
          exact aligned
      have guard := built.clearpteu below cleared
      obtain ⟨⟨pushed, later⟩, calls, continued⟩ := bind_ok.mp continued
      have filled := guard.pushArgs calls
      cases pushed with
      | none =>
        obtain ⟨rfl, rfl, rfl⟩ : none = made ∧ guarded = pd' ∧ later = km' := by simpa using continued
        exact filled.abandoned
      | some arguments =>
        obtain ⟨⟨copied, last⟩, copying, continued⟩ := bind_ok.mp continued
        have finished := filled.copyout copying
        simp only at continued
        split at continued
        · obtain ⟨rfl, rfl, rfl⟩ : some size = made ∧ guarded = pd' ∧ last = km' := by
            simpa using continued
          exact finished
        · obtain ⟨rfl, rfl, rfl⟩ : none = made ∧ guarded = pd' ∧ last = km' := by
            simpa using continued
          exact finished.abandoned
    · exact absurd zero nonzero

end Building

/-! ## Committing to the new image -/

/-- The new page table, in which p6 has encrypted every page that is open to users. -/
structure Launched (start : Kmem) (sz : Nat) (pd : PgDir) (km : Kmem) : Prop where
  tidy : Tidy pd
  takes : Takes (fun _ => 0) start.store pd.refs km.store
  bounded : sz ≤ KERNBASE
  inside : ∀ v : Vpn, v.addr < sz → (pd.pte v).e = (pd.pte v).u ∧ (pd.pte v).p = !(pd.pte v).u
  outside : ∀ v : Vpn, v.user → sz ≤ v.addr → pd.pte v = {}

/-- The encrypting loop of `exec`, after the pages up to `i`. -/
structure Sealing (start : Kmem) (sz i : Nat) (pd : PgDir) (km : Kmem) : Prop where
  tidy : Tidy pd
  takes : Takes (fun _ => 0) start.store pd.refs km.store
  bounded : sz ≤ KERNBASE
  done : ∀ v : Vpn, v.addr < sz → v.addr < i → (pd.pte v).e = (pd.pte v).u ∧ (pd.pte v).p = !(pd.pte v).u
  left : ∀ v : Vpn, v.addr < sz → i ≤ v.addr → (pd.pte v).p = true ∧ (pd.pte v).e = false
  outside : ∀ v : Vpn, v.user → sz ≤ v.addr → pd.pte v = {}

/-- All pages are done. -/
theorem Sealing.launched {start km : Kmem} {sz i : Nat} {pd : PgDir} (sealing : Sealing start sz i pd km)
    (passed : sz ≤ i) : Launched start sz pd km :=
  ⟨sealing.tidy, sealing.takes, sealing.bounded,
    fun v below => sealing.done v below (below.trans_le passed), sealing.outside⟩

/-- The entry of the next page is as it should be, and its bytes may have changed. -/
theorem Sealing.next {start km : Kmem} {sz i : Nat} {pd : PgDir} {x : Pte} {memory : Frame → Page}
    (sealing : Sealing start sz i pd km) (aligned : PGSIZE ∣ i) (inside : i < sz)
    (ppn : x.ppn = (pd.pte (vpn i)).ppn) (mapped : x.mapped = true) (encrypted : x.e = x.u)
    (present : x.p = !x.u)
    (others : ∀ g, g ≠ (pd.pte (vpn i)).ppn → memory g = km.mem g) :
    Sealing start sz (i + PGSIZE) (pd.set (vpn i) x) { km with mem := memory } := by
  have bounded := sealing.bounded
  have page : (vpn i).addr = i := vpn_addr (by unfold KERNBASE at bounded; omega) aligned
  have low : (vpn i).user := vpn_user (by omega)
  have clear := sealing.left (vpn i) (by omega) page.ge
  have before : (pd.pte (vpn i)).mapped = true := by
    unfold Pte.mapped
    rw [clear.1, Bool.true_or]
  have held : pd.owned (vpn i) = some (pd.pte (vpn i)).ppn := by simp [PgDir.owned, low, before]
  have refs : (pd.set (vpn i) x).refs = pd.refs := by
    funext g
    have exchanged := pd.refs_set x low g
    rw [held, if_pos mapped, ppn] at exchanged
    omega
  have later : ∀ v : Vpn, v ≠ vpn i → i ≤ v.addr ∨ v.addr < i + PGSIZE → (i + PGSIZE ≤ v.addr ∨ v.addr < i) := by
    intro v different _
    have apart : v.addr ≠ i := fun same => different (addr_inj (same.trans page.symm))
    clear page held refs
    unfold Vpn.addr PGSIZE at *
    omega
  refine ⟨sealing.tidy.set (sealing.tidy.table before) (fun _ _ => mapped) (fun high => absurd low high),
    ?_, bounded, fun v below early => ?_, fun v below late => ?_, fun v low' above => ?_⟩
  · rw [refs]
    exact sealing.takes.write (refs_pos low before) others
  · rw [PgDir.set_pte]
    split
    · exact ⟨encrypted, present⟩
    · rename_i different
      have passed := later v different (.inr early)
      exact sealing.done v below (by omega)
  · have different : v ≠ vpn i := by
      rintro rfl
      unfold PGSIZE at late
      omega
    rw [PgDir.set_pte, if_neg different]
    exact sealing.left v below (by omega)
  · have different : v ≠ vpn i := by
      rintro rfl
      omega
    rw [PgDir.set_pte, if_neg different]
    exact sealing.outside v low' above

/-- The next page is mapped and in clear. -/
theorem Sealing.here {start km : Kmem} {sz i : Nat} {pd : PgDir} (sealing : Sealing start sz i pd km)
    (aligned : PGSIZE ∣ i) (inside : i < sz) :
    (pd.pte (vpn i)).mapped = true ∧ (pd.pte (vpn i)).p = true ∧ (pd.pte (vpn i)).e = false := by
  have bounded := sealing.bounded
  have page : (vpn i).addr = i := vpn_addr (by unfold KERNBASE at bounded; omega) aligned
  have clear := sealing.left (vpn i) (by omega) page.ge
  refine ⟨?_, clear⟩
  unfold Pte.mapped
  rw [clear.1, Bool.true_or]

/-- A page open to users is encrypted. -/
theorem Sealing.opened {start km : Kmem} {sz i : Nat} {pd : PgDir} (sealing : Sealing start sz i pd km)
    (aligned : PGSIZE ∣ i) (inside : i < sz) (opened : (pd.pte (vpn i)).u = true) :
    Sealing start sz (i + PGSIZE) (pd.set (vpn i) (P6.sealed (pd.pte (vpn i))))
      (km.complement (pd.pte (vpn i)).ppn) :=
  sealing.next aligned inside rfl rfl opened.symm (by simp [P6.sealed, opened])
    fun g different => km.write_mem_other _ different

/-- A page closed to users is left as it is. -/
theorem Sealing.closed {start km : Kmem} {sz i : Nat} {pd : PgDir} (sealing : Sealing start sz i pd km)
    (aligned : PGSIZE ∣ i) (inside : i < sz) (shut : (pd.pte (vpn i)).u = false) :
    Sealing start sz (i + PGSIZE) pd km := by
  obtain ⟨mapped, present, bare⟩ := sealing.here aligned inside
  have unchanged : pd.set (vpn i) (pd.pte (vpn i)) = pd := by
    unfold PgDir.set
    rw [Function.update_eq_self]
  have next := @Sealing.next start km sz i pd (pd.pte (vpn i)) km.mem sealing aligned inside rfl mapped
    (by rw [bare, shut]) (by rw [present, shut]; rfl) fun _ _ => rfl
  rwa [unchanged] at next

namespace P6

/-- The encrypting loop never fails, since the pages below the size are mapped. -/
theorem encryptImage_launched {start : Kmem} {sz fuel i : Nat} {pd pd' : PgDir} {km km' : Kmem}
    {encrypted : Bool} (aligned : PGSIZE ∣ i) (enough : sz ≤ i + fuel * PGSIZE)
    (sealing : Sealing start sz i pd km)
    (result : encryptImage sz fuel i pd km = .ok (encrypted, pd', km')) :
    encrypted = true ∧ Launched start sz pd' km' := by
  induction fuel generalizing i pd km with
  | zero =>
    obtain ⟨rfl, rfl, rfl⟩ : true = encrypted ∧ pd = pd' ∧ km = km' := by
      simpa [encryptImage] using result
    exact ⟨rfl, sealing.launched (by omega)⟩
  | succ fuel inductionHypothesis =>
    unfold encryptImage at result
    split at result
    · rename_i inside
      obtain ⟨before, -, bare⟩ := sealing.here aligned inside
      have alignedNext : PGSIZE ∣ i + PGSIZE := (Nat.dvd_add_right aligned).mpr (dvd_refl _)
      have enoughNext : sz ≤ i + PGSIZE + fuel * PGSIZE := by
        rw [Nat.succ_mul] at enough
        omega
      split at result
      · cases result
      · rename_i x walked
        obtain ⟨table, rfl⟩ := PgDir.walk_some.mp walked
        split at result
        · rename_i opened
          rw [mencrypt_open table ⟨before, opened⟩, bare] at result
          exact inductionHypothesis alignedNext enoughNext (sealing.opened aligned inside opened) result
        · rename_i shut
          exact inductionHypothesis alignedNext enoughNext (sealing.closed aligned inside (by simpa using shut)) result
    · obtain ⟨rfl, rfl, rfl⟩ : true = encrypted ∧ pd = pd' ∧ km = km' := by simpa using result
      exact ⟨rfl, sealing.launched (by omega)⟩

end P6

/-! ## The whole of `exec` -/

/-- What `exec` does up to its commitment: it fails and every frame is back in its
place, or it commits to a page table under construction. -/
theorem execWith_cases {ver : Version}
    {commit : Proc → Nat → PgDir → Kmem → Result (Bool × Proc × Kmem)} {p p' : Proc} {image : Image}
    {argv : List (List (BitVec 8))} {km km' : Kmem} {succeeded : Bool}
    (result : execWith ver commit p image argv km = .ok (succeeded, p', km')) :
    (succeeded = false ∧ p' = p ∧ Exchanges (fun _ => 0) km.store (fun _ => 0) km'.store) ∨
      ∃ sz pd middle, Building km sz pd middle ∧ commit p sz pd middle = .ok (succeeded, p', km') := by
  unfold execWith at result
  split at result
  · obtain ⟨rfl, rfl, rfl⟩ : false = succeeded ∧ p = p' ∧ km = km' := by simpa using result
    exact .inl ⟨rfl, rfl, (Takes.refl _ _).exchanges⟩
  · obtain ⟨⟨made, first⟩, prepared, result⟩ := bind_ok.mp result
    obtain ⟨rfl, exchanged⟩ | ⟨blank, rfl, tidy, taken, empty⟩ := setupkvm_cases prepared
    · obtain ⟨rfl, rfl, rfl⟩ : false = succeeded ∧ p = p' ∧ first = km' := by
        simpa [pure, Except.pure] using result
      exact .inl ⟨rfl, rfl, exchanged⟩
    · have building : Building km 0 blank first :=
        ⟨tidy, taken, Nat.zero_le _, fun v below => absurd below (Nat.not_lt_zero _),
          fun v low _ => empty v low⟩
      obtain ⟨⟨size, loaded, second⟩, loading, result⟩ := bind_ok.mp result
      have built := building.loadSegments loading
      cases size with
      | none =>
        obtain ⟨last, freed, result⟩ := bind_ok.mp result
        obtain ⟨rfl, rfl, rfl⟩ : false = succeeded ∧ p = p' ∧ last = km' := by
          simpa [pure, Except.pure] using result
        exact .inl ⟨rfl, rfl, Abandoned.freevm built freed⟩
      | some size =>
        obtain ⟨⟨total, stacked, third⟩, stacking, result⟩ := bind_ok.mp result
        have complete := Building.buildStack built stacking
        cases total with
        | none =>
          obtain ⟨last, freed, result⟩ := bind_ok.mp result
          obtain ⟨rfl, rfl, rfl⟩ : false = succeeded ∧ p = p' ∧ last = km' := by
            simpa [pure, Except.pure] using result
          exact .inl ⟨rfl, rfl, Abandoned.freevm complete freed⟩
        | some total => exact .inr ⟨total, stacked, third, complete, result⟩

/-- `exec` of p6: the process is as before, or has a new image whose user pages are
encrypted, with an empty working set, and the old image is freed. -/
theorem P6.exec_cases {p p' : Proc} {image : Image} {argv : List (List (BitVec 8))} {km km' : Kmem}
    {succeeded : Bool} (tidy : Tidy p.pgdir) (result : P6.exec p image argv km = .ok (succeeded, p', km')) :
    (succeeded = false ∧ p' = p ∧ Exchanges (fun _ => 0) km.store (fun _ => 0) km'.store) ∨
      (succeeded = true ∧ ∃ middle, Launched km p'.sz p'.pgdir middle ∧
        Gives p.pgdir.refs middle.store (fun _ => 0) km'.store ∧
        p' = clearwset { p with pgdir := p'.pgdir, sz := p'.sz }) := by
  obtain failed | ⟨sz, pd, middle, building, committed⟩ := execWith_cases result
  · exact .inl failed
  · obtain ⟨⟨encrypted, image', last⟩, looped, committed⟩ := bind_ok.mp committed
    have enough : sz ≤ 0 + (sz / PGSIZE + 1) * PGSIZE := by
      unfold PGSIZE
      omega
    obtain ⟨rfl, launched⟩ := encryptImage_launched (dvd_zero _) enough
      ⟨building.tidy, building.takes, building.bounded, fun v _ early => absurd early (Nat.not_lt_zero _),
        fun v below _ => building.inside v below, building.outside⟩ looped
    obtain ⟨final, freed, committed⟩ := bind_ok.mp committed
    obtain ⟨rfl, rfl, rfl⟩ : true = succeeded ∧ _ = p' ∧ final = km' := by
      simpa [pure, Except.pure] using committed
    exact .inr ⟨rfl, last, launched, freevm_gives tidy freed, rfl⟩

/-- `exec` of p5: the new image is in clear. -/
theorem P5.exec_cases {p p' : Proc} {image : Image} {argv : List (List (BitVec 8))} {km km' : Kmem}
    {succeeded : Bool} (tidy : Tidy p.pgdir) (result : P5.exec p image argv km = .ok (succeeded, p', km')) :
    (succeeded = false ∧ p' = p ∧ Exchanges (fun _ => 0) km.store (fun _ => 0) km'.store) ∨
      (succeeded = true ∧ ∃ middle, Building km p'.sz p'.pgdir middle ∧
        Gives p.pgdir.refs middle.store (fun _ => 0) km'.store ∧
        p' = { p with pgdir := p'.pgdir, sz := p'.sz }) := by
  obtain failed | ⟨sz, pd, middle, building, committed⟩ := execWith_cases result
  · exact .inl failed
  · obtain ⟨final, freed, committed⟩ := bind_ok.mp committed
    obtain ⟨rfl, rfl, rfl⟩ : true = succeeded ∧ _ = p' ∧ final = km' := by
      simpa [pure, Except.pure] using committed
    exact .inr ⟨rfl, middle, building, freevm_gives tidy freed, rfl⟩

end Cs537.Vm
