import Cs537.Library.Runs
import Cs537.Vm.Launch
import Cs537.Vm.System

/-!
# Encryption is not visible to programs

The kernels follow the reference semantics without encryption. The invariant says
that every frame has one place, among the free list, the kernel stacks and the page
tables of all processes, and that each mapped page is either present or encrypted.
A call of one process leaves the frames of every other process alone, and changes its
own pages as the reference does.
-/

namespace Cs537.Vm

open Occurrences Ledger Runs

/-! ## One process -/

/-- A process whose memory is in order: its pages lie below the kernel, each mapped
page is either present or encrypted, and only pages open to users are encrypted. -/
structure Decent (p : Proc) : Prop where
  tidy : Tidy p.pgdir
  bounded : p.sz ≤ KERNBASE
  exclusive : ∀ v, (p.pgdir.pte v).mapped = true → (p.pgdir.pte v).p ≠ (p.pgdir.pte v).e
  guarded : ∀ v, (p.pgdir.pte v).e = true → (p.pgdir.pte v).u = true

/-- What a call of a process can do: the process stays in order, frames move between
it and the free list, and the frames of others keep their bytes. -/
structure Moves (p : Proc) (km : Kmem) (p' : Proc) (km' : Kmem) : Prop where
  decent : Decent p'
  kstack : p'.kstack = p.kstack
  balanced : Balances p.pgdir.refs km.store p'.pgdir.refs km'.store
  others : ∀ f, km.freelist.count f + p.pgdir.refs f = 0 → km'.mem f = km.mem f

section Calls

variable {p p' p'' : Proc} {km km' km'' : Kmem} {m : Memory}

theorem Moves.refl (decent : Decent p) : Moves p km p km :=
  ⟨decent, rfl, (Takes.refl _ _).exchanges.toBalances, fun _ _ => rfl⟩

theorem Moves.trans (first : Moves p km p' km') (second : Moves p' km' p'' km'') : Moves p km p'' km'' := by
  refine ⟨second.decent, second.kstack.trans first.kstack, ?_, fun f absent => ?_⟩
  · refine ⟨fun f => (second.balanced.places f).trans (first.balanced.places f), fun single => ?_,
      second.balanced.accepts.trans first.balanced.accepts⟩
    exact (second.balanced.doubled (first.balanced.single single)).trans (first.balanced.doubled single)
  · have later : km'.freelist.count f + p'.pgdir.refs f = 0 := (first.balanced.places f).trans absent
    exact (second.others f later).trans (first.others f absent)

/-- An exchange of frames with the free list touches no frame of others. -/
theorem Moves.exchange (decent : Decent p') (kstack : p'.kstack = p.kstack)
    (exchanged : Exchanges p.pgdir.refs km.store p'.pgdir.refs km'.store) : Moves p km p' km' := by
  refine ⟨decent, kstack, exchanged.toBalances, fun f absent => ?_⟩
  have later : km'.freelist.count f + p'.pgdir.refs f = 0 := (exchanged.places f).trans absent
  exact exchanged.memory f (by simp only [Kmem.store]; omega) (by simp only [Kmem.store]; omega)

/-- Removing pages keeps a process in order. -/
theorem Decent.clear {pd : PgDir} {lo hi : Nat} (decent : Decent p) (tidy : Tidy pd)
    (entries : pd.pte = (p.pgdir.clear lo hi).pte) : Decent { p with pgdir := pd } := by
  have cases : ∀ v, pd.pte v = {} ∨ pd.pte v = p.pgdir.pte v := by
    intro v
    rw [entries, PgDir.clear_pte]
    split
    · exact .inl rfl
    · exact .inr rfl
  refine ⟨tidy, decent.bounded, fun v mapped => ?_, fun v encrypted => ?_⟩
  · obtain empty | same := cases v
    · simp only [empty] at mapped
      cases mapped
    · simp only [same] at mapped ⊢
      exact decent.exclusive v mapped
  · obtain empty | same := cases v
    · simp only [empty] at encrypted
      cases encrypted
    · simp only [same] at encrypted ⊢
      exact decent.guarded v encrypted

/-- Encrypting and decrypting keep a process in order. -/
theorem Decent.recrypt (decent : Decent p) (retouched : Retouches p.pgdir km p'.pgdir km')
    (size : p'.sz = p.sz) : Decent p' := by
  refine ⟨retouched.tidy decent.tidy, size ▸ decent.bounded, fun v mapped => ?_, fun v encrypted => ?_⟩
  · rw [retouched.mapped] at mapped
    exact retouched.exclusive v (decent.exclusive v mapped)
  · by_contra shut
    have closed : (p'.pgdir.pte v).u = false := by simpa using shut
    have before := decent.guarded v (retouched.closed v closed encrypted)
    rw [← retouched.user v, closed] at before
    cases before

theorem Moves.recrypt (decent : Decent p) (recrypted : Recrypts p.pgdir km p'.pgdir km')
    (size : p'.sz = p.sz) (kstack : p'.kstack = p.kstack) : Moves p km p' km' :=
  ⟨decent.recrypt recrypted.toRetouches size, kstack, recrypted.balances,
    fun f absent => recrypted.others f (Nat.eq_zero_of_add_eq_zero_left absent)⟩

end Calls

/-! ## What a process shows -/

section Shows

variable {pd pd' : PgDir} {km km' : Kmem} {m : Memory}

/-- The page tables of a sound system refer to each frame once, and to no free frame. -/
theorem single_refs (single : Single pd.refs km.store) : ∀ f, pd.refs f ≤ 1 :=
  fun f => (Nat.le_add_left _ _).trans (single f)

/-- The frame of a mapped page is not free. -/
theorem mapped_not_free (single : Single pd.refs km.store) {v : Vpn} (low : v.user)
    (mapped : (pd.pte v).mapped = true) : km.freelist.count (pd.pte v).ppn = 0 := by
  have held := refs_pos low mapped
  have bound := single (pd.pte v).ppn
  simp only [Kmem.store] at bound
  omega

/-- Equal entries over equal bytes have equal contents. -/
theorem content_congr {v : Vpn} (entry : pd'.pte v = pd.pte v)
    (bytes : km'.mem (pd.pte v).ppn = km.mem (pd.pte v).ppn) : pd'.content km' v = pd.content km v := by
  unfold PgDir.content
  rw [entry, bytes]

/-- Encryption and decryption are not visible. -/
theorem PgDir.Shows.recrypt (shows : pd.Shows km m) (single : Single pd.refs km.store)
    (recrypted : Recrypts pd km pd' km') : pd'.Shows km' m := by
  intro v low mapped
  rw [recrypted.mapped] at mapped
  rw [recrypted.contents (single_refs single) v low mapped]
  exact shows v low mapped

/-- Pages in a range are removed. -/
theorem PgDir.Shows.clear {lo hi : Nat} (shows : pd.Shows km m) (single : Single pd.refs km.store)
    (exchanged : Exchanges pd.refs km.store pd'.refs km'.store)
    (entries : pd'.pte = (pd.clear lo hi).pte) : pd'.Shows km' (m.drop lo hi) := by
  intro v low mapped
  have free := mapped_not_free (exchanged.single single) low mapped
  have entry : pd'.pte v = if lo ≤ v.addr ∧ v.addr < hi then {} else pd.pte v := by
    rw [entries, PgDir.clear_pte]
  unfold Memory.drop
  split at entry
  · rw [entry] at mapped
    cases mapped
  · rename_i outer
    rw [entry] at mapped free
    rw [if_neg outer, shows v low mapped, content_congr entry]
    exact exchanged.memory _ (mapped_not_free single low mapped) free

/-- New pages in a range. -/
theorem PgDir.Shows.fill {ver : Version} {lo hi : Nat} (shows : pd.Shows km m)
    (single : Single pd.refs km.store)
    (fills : Fills ver (fun _ => userPage) (fun _ _ => 0) (∀ g, km.freelist.count g ≤ 1) lo hi
      pd km pd' km') : pd'.Shows km' (m.fill lo hi) := by
  intro v low mapped
  unfold Memory.fill
  split
  · rename_i inner
    obtain ⟨-, f, entry, -, content⟩ := fills.inside v inner.1 inner.2
    have bytes := content fun g => (Nat.le_add_right _ _).trans (single g)
    have clear : (ver.entry f userPage).e = false := by cases ver <;> rfl
    unfold PgDir.content
    rw [entry, clear, Version.entry_ppn, bytes]
    rfl
  · rename_i outer
    have entry := fills.outside v outer
    rw [entry] at mapped
    rw [shows v low mapped, content_congr entry]
    exact fills.takes.memory _ (mapped_not_free single low mapped)

end Shows

/-! ## `sbrk` -/

/-- What `sbrk` does to the memory of a process. -/
inductive Resized (n : Int) (m : Memory) : Memory → Prop where
  | kept : Resized n m m
  | filled {lo hi : Nat} (growing : 0 < n) (length : hi ≤ lo + n.natAbs) : Resized n m (m.fill lo hi)
  | removed {lo hi : Nat} (length : hi ≤ lo + n.natAbs) : Resized n m (m.drop lo hi)

section Sbrk

variable {ver : Version} {p : Proc} {pd : PgDir} {km km' : Kmem} {m : Memory} {n : Int} {size : Nat}

/-- The new size is at most `n` bytes above the old one. -/
theorem grown_le (sz : Nat) {n : Int} (growing : 0 < n) : grown sz n ≤ sz + n.natAbs := by
  unfold grown
  omega

/-- The old size is at most `-n` bytes above the new one. -/
theorem le_grown {sz : Nat} {n : Int} (bounded : sz ≤ KERNBASE) (shrinking : n < 0) :
    sz ≤ grown sz n + n.natAbs := by
  unfold grown
  unfold KERNBASE at bounded
  omega

/-- `growproc` upwards, up to the encryption of the new pages. -/
theorem allocuvm_moves (decent : Decent p) (single : Single p.pgdir.refs km.store)
    (shows : p.pgdir.Shows km m) (growing : 0 < n)
    (result : allocuvm ver p.pgdir p.sz (grown p.sz n) km = .ok (size, pd, km')) :
    size ≤ KERNBASE ∧ Moves p km { p with pgdir := pd } km' ∧ ∃ m', Resized n m m' ∧ pd.Shows km' m' := by
  cases allocuvm_cases decent.tidy result with
  | tooLarge => exact ⟨Nat.zero_le _, Moves.refl decent, m, .kept, shows⟩
  | smaller => exact ⟨decent.bounded, Moves.refl decent, m, .kept, shows⟩
  | done small above fills =>
    refine ⟨small.le, Moves.exchange ⟨fills.tidy, decent.bounded, fun v mapped => ?_, fun v encrypted => ?_⟩
      rfl fills.takes.exchanges, _, .filled growing (grown_le p.sz growing), shows.fill single fills⟩
    all_goals
      by_cases inner : p.sz ≤ v.addr ∧ v.addr < grown p.sz n
    · obtain ⟨-, f, entry, -⟩ := fills.inside v inner.1 inner.2
      simp only [entry]
      cases ver <;> simp [Version.entry, userPage]
    · simp only [fills.outside v inner] at mapped ⊢
      exact decent.exclusive v mapped
    · obtain ⟨-, f, entry, -⟩ := fills.inside v inner.1 inner.2
      simp only [entry]
      cases ver <;> rfl
    · simp only [fills.outside v inner] at encrypted ⊢
      exact decent.guarded v encrypted
  | undone small above tidy exchanged entries =>
    exact ⟨Nat.zero_le _, Moves.exchange (decent.clear tidy entries) rfl exchanged, _,
      .removed (grown_le p.sz growing), shows.clear single exchanged entries⟩

/-- `growproc` downwards, up to the removal of pages from the working set. -/
theorem deallocuvm_moves (decent : Decent p) (single : Single p.pgdir.refs km.store)
    (shows : p.pgdir.Shows km m) (shrinking : n < 0)
    (result : deallocuvm p.pgdir p.sz (grown p.sz n) km = .ok (size, pd, km')) :
    size ≤ KERNBASE ∧ Moves p km { p with pgdir := pd } km' ∧ ∃ m', Resized n m m' ∧ pd.Shows km' m' := by
  obtain ⟨rfl, rfl, given⟩ := deallocuvm_gives decent.tidy decent.bounded result
  refine ⟨(min_le_left _ _).trans decent.bounded, ?_, _, .removed (le_grown decent.bounded shrinking),
    shows.clear single given.exchanges rfl⟩
  exact Moves.exchange (decent.clear (decent.tidy.clear _ _) rfl) rfl given.exchanges

/-- The size and the working set of a process are not part of its memory. -/
theorem Moves.resize {p' p'' : Proc} (moves : Moves p km p' km') (pgdir : p''.pgdir = p'.pgdir)
    (kstack : p''.kstack = p'.kstack) (bounded : p''.sz ≤ KERNBASE) : Moves p km p'' km' := by
  obtain ⟨tidy, -, exclusive, guarded⟩ := moves.decent
  rw [← pgdir] at tidy exclusive guarded
  refine ⟨⟨tidy, bounded, exclusive, guarded⟩, kstack.trans moves.kstack, ?_, moves.others⟩
  rw [pgdir]
  exact moves.balanced

/-- `growproc` of p5. -/
theorem P5.growproc_moves {p' : Proc} {succeeded : Bool} (decent : Decent p)
    (single : Single p.pgdir.refs km.store) (shows : p.pgdir.Shows km m)
    (result : P5.growproc p n km = .ok (succeeded, p', km')) :
    Moves p km p' km' ∧ ∃ m', Resized n m m' ∧ p'.pgdir.Shows km' m' := by
  unfold P5.growproc at result
  split at result
  · rename_i growing
    obtain ⟨⟨size, pd, rest⟩, called, result⟩ := bind_ok.mp result
    obtain ⟨bounded, moves, after⟩ := allocuvm_moves decent single shows growing called
    simp only [pure, Except.pure] at result
    split at result
    · obtain ⟨rfl, rfl, rfl⟩ : false = succeeded ∧ _ = p' ∧ rest = km' := by simpa using result
      exact ⟨moves, after⟩
    · obtain ⟨rfl, rfl, rfl⟩ : true = succeeded ∧ _ = p' ∧ rest = km' := by simpa using result
      exact ⟨moves.resize rfl rfl bounded, after⟩
  · split at result
    · rename_i shrinking
      obtain ⟨⟨size, pd, rest⟩, called, result⟩ := bind_ok.mp result
      obtain ⟨bounded, moves, after⟩ := deallocuvm_moves decent single shows shrinking called
      simp only [pure, Except.pure] at result
      split at result
      · obtain ⟨rfl, rfl, rfl⟩ : false = succeeded ∧ _ = p' ∧ rest = km' := by simpa using result
        exact ⟨moves, after⟩
      · obtain ⟨rfl, rfl, rfl⟩ : true = succeeded ∧ _ = p' ∧ rest = km' := by simpa using result
        exact ⟨moves.resize rfl rfl bounded, after⟩
    · obtain ⟨rfl, rfl, rfl⟩ : true = succeeded ∧ p = p' ∧ km = km' := by simpa using result
      exact ⟨Moves.refl decent, m, .kept, shows⟩

/-- Removing pages from the working set leaves the memory alone. -/
theorem P6.deletePages_pgdir {sz left i : Nat} {p p' : Proc} {deleted : Bool}
    (result : P6.deletePages sz left i p = .ok (deleted, p')) :
    p'.pgdir = p.pgdir ∧ p'.kstack = p.kstack ∧ p'.sz = p.sz := by
  induction left generalizing i p with
  | zero =>
    obtain ⟨-, rfl⟩ : true = deleted ∧ p = p' := by simpa [P6.deletePages] using result
    exact ⟨rfl, rfl, rfl⟩
  | succ left inductionHypothesis =>
    obtain ⟨⟨found, rest⟩, removed, result⟩ := bind_ok.mp result
    have same : rest.pgdir = p.pgdir ∧ rest.kstack = p.kstack ∧ rest.sz = p.sz := by
      unfold P6.wsetdelete at removed
      split at removed
      · obtain ⟨-, rfl⟩ : false = found ∧ p = rest := by simpa using removed
        exact ⟨rfl, rfl, rfl⟩
      · cases removed
      · obtain ⟨-, rfl⟩ : true = found ∧ _ = rest := by simpa using removed
        exact ⟨rfl, rfl, rfl⟩
    simp only [pure, Except.pure] at result
    split at result
    · obtain ⟨pgdir, kstack, size⟩ := inductionHypothesis result
      exact ⟨pgdir.trans same.1, kstack.trans same.2.1, size.trans same.2.2⟩
    · obtain ⟨-, rfl⟩ : false = deleted ∧ rest = p' := by simpa using result
      exact same

/-- `growproc` of p6. -/
theorem P6.growproc_moves {p' : Proc} {succeeded : Bool} (decent : Decent p)
    (single : Single p.pgdir.refs km.store) (shows : p.pgdir.Shows km m)
    (result : P6.growproc p n km = .ok (succeeded, p', km')) :
    Moves p km p' km' ∧ ∃ m', Resized n m m' ∧ p'.pgdir.Shows km' m' := by
  unfold P6.growproc at result
  split at result
  · rename_i growing
    obtain ⟨⟨size, pd, rest⟩, called, result⟩ := bind_ok.mp result
    obtain ⟨bounded, moves, after⟩ := allocuvm_moves decent single shows growing called
    simp only [pure, Except.pure] at result
    split at result
    · obtain ⟨rfl, rfl, rfl⟩ : false = succeeded ∧ _ = p' ∧ rest = km' := by simpa using result
      exact ⟨moves, after⟩
    · obtain ⟨⟨encrypted, coded, last⟩, encrypting, result⟩ := bind_ok.mp result
      have recrypted := P6.mencrypt_recrypts moves.decent.tidy encrypting
      have both : Moves p km { p with pgdir := coded } last :=
        moves.trans (Moves.recrypt moves.decent recrypted rfl rfl)
      obtain ⟨m', resized, visible⟩ := after
      have visible' := visible.recrypt (moves.balanced.single single) recrypted
      simp only at result
      split at result
      · obtain ⟨rfl, rfl, rfl⟩ : true = succeeded ∧ _ = p' ∧ last = km' := by simpa using result
        exact ⟨both.resize rfl rfl bounded, m', resized, visible'⟩
      · obtain ⟨rfl, rfl, rfl⟩ : false = succeeded ∧ _ = p' ∧ last = km' := by simpa using result
        exact ⟨both, m', resized, visible'⟩
  · split at result
    · rename_i shrinking
      obtain ⟨⟨size, pd, rest⟩, called, result⟩ := bind_ok.mp result
      obtain ⟨bounded, moves, after⟩ := deallocuvm_moves decent single shows shrinking called
      simp only [pure, Except.pure] at result
      split at result
      · obtain ⟨rfl, rfl, rfl⟩ : false = succeeded ∧ _ = p' ∧ rest = km' := by simpa using result
        exact ⟨moves, after⟩
      · obtain ⟨⟨deleted, left⟩, deleting, result⟩ := bind_ok.mp result
        obtain ⟨pgdir, kstack, size'⟩ := P6.deletePages_pgdir deleting
        have visible : ∃ m', Resized n m m' ∧ left.pgdir.Shows rest m' := pgdir ▸ after
        simp only at result
        split at result
        · obtain ⟨rfl, rfl, rfl⟩ : true = succeeded ∧ _ = p' ∧ rest = km' := by simpa using result
          exact ⟨moves.resize pgdir kstack bounded, visible⟩
        · obtain ⟨rfl, rfl, rfl⟩ : false = succeeded ∧ _ = p' ∧ rest = km' := by simpa using result
          exact ⟨moves.resize pgdir kstack (size' ▸ decent.bounded), visible⟩
    · obtain ⟨rfl, rfl, rfl⟩ : true = succeeded ∧ p = p' ∧ km = km' := by simpa using result
      exact ⟨Moves.refl decent, m, .kept, shows⟩

end Sbrk

/-! ## Accesses -/

section Access

variable {ver : Version} {p p' : Proc} {km km' : Kmem} {m : Memory} {va : Nat}

/-- The processor accesses present pages that are open to users. -/
theorem translate_some {pd : PgDir} {f : Frame} (found : translate pd va = some f) :
    (pd.pte (vpn va)).p = true ∧ (pd.pte (vpn va)).u = true ∧ f = (pd.pte (vpn va)).ppn := by
  obtain ⟨x, walked, found⟩ := Option.bind_eq_some_iff.mp found
  obtain rfl := (PgDir.walk_some.mp walked).2
  split at found
  · rename_i both
    rw [Bool.and_eq_true] at both
    exact ⟨both.1, both.2, (Option.some.inj found).symm⟩
  · cases found

/-- A completed access leaves some bytes in its page, which was in clear. -/
theorem access_moves {f : Frame} (decent : Decent p) (single : Single p.pgdir.refs km.store)
    (shows : p.pgdir.Shows km m) (found : translate p.pgdir va = some f) (page : Page) :
    let pd := p.pgdir.set (vpn va) { p.pgdir.pte (vpn va) with a := true }
    m (vpn va) = some (km.mem f) ∧ Moves p km { p with pgdir := pd } (km.write f page) ∧
      pd.Shows (km.write f page) (Function.update m (vpn va) (some page)) := by
  intro pd
  obtain ⟨present, opened, rfl⟩ := translate_some found
  have low := decent.tidy.low opened
  have mapped : (p.pgdir.pte (vpn va)).mapped = true := by
    unfold Pte.mapped
    rw [present, Bool.true_or]
  have clear : (p.pgdir.pte (vpn va)).e = false := by
    have opposite := decent.exclusive (vpn va) mapped
    rw [present] at opposite
    simpa using opposite.symm
  have marked := Recrypts.mark p.pgdir km (vpn va) true fun _ empty => by
    rw [empty] at mapped
    cases mapped
  have entry : pd.pte (vpn va) = { p.pgdir.pte (vpn va) with a := true } := p.pgdir.set_pte_self _ _
  obtain ⟨places, doubled, accepts⟩ := marked.balances
  refine ⟨?_, ⟨decent.recrypt marked.toRetouches rfl, rfl, ⟨places, doubled, accepts⟩,
    fun f absent => ?_⟩, ?_⟩
  · rw [shows (vpn va) low mapped]
    unfold PgDir.content
    rw [clear]
    rfl
  · have different : f ≠ (p.pgdir.pte (vpn va)).ppn := by
      rintro rfl
      have held := refs_pos low mapped
      omega
    exact km.write_mem_other page different
  · intro v low' mapped'
    by_cases here : v = vpn va
    · subst here
      rw [Function.update_self]
      unfold PgDir.content
      rw [entry]
      simp only [clear, Kmem.write_mem_self]
      rfl
    · have same : pd.pte v = p.pgdir.pte v := by
        simp only [pd, PgDir.set_pte]
        rw [if_neg here]
      rw [same] at mapped'
      have different : (p.pgdir.pte v).ppn ≠ (p.pgdir.pte (vpn va)).ppn :=
        fun equal => here (refs_unique (single_refs single) low' mapped' low mapped equal)
      rw [Function.update_of_ne here, shows v low' mapped',
        content_congr same (km.write_mem_other page different)]

/-- The processor does not access a user page that is encrypted. -/
theorem translate_none {pd : PgDir} (tidy : Tidy pd) (opened : pd.opens (vpn va))
    (missing : translate pd va = none) : (pd.pte (vpn va)).e = true := by
  have walked : pd.walk (vpn va) = some (pd.pte (vpn va)) :=
    PgDir.walk_some.mpr ⟨tidy.table opened.1, rfl⟩
  have absent : (pd.pte (vpn va)).p = false := by
    simpa [translate, walked, opened.2] using missing
  have mapped := opened.1
  unfold Pte.mapped at mapped
  rwa [absent, Bool.false_or] at mapped

/-- The fault handler does not change what the process shows. -/
theorem handleFault_moves {handled : Bool} (decent : Decent p) (single : Single p.pgdir.refs km.store)
    (shows : p.pgdir.Shows km m) (opened : p.pgdir.opens (vpn va))
    (missing : translate p.pgdir va = none)
    (result : ver.handleFault p va km = .ok (handled, p', km')) :
    Moves p km p' km' ∧ p'.pgdir.Shows km' m := by
  cases ver with
  | p5 =>
    obtain ⟨recrypted, same⟩ := P5.decrypt_recrypts decent.tidy result
    exact ⟨Moves.recrypt decent recrypted (by rw [same]) (by rw [same]), shows.recrypt single recrypted⟩
  | p6 =>
    obtain ⟨recrypted, size, kstack⟩ := P6.mdecrypt_recrypts decent.tidy opened
      (translate_none decent.tidy opened missing) result
    exact ⟨Moves.recrypt decent recrypted size kstack, shows.recrypt single recrypted⟩

end Access

/-! ## `fork` -/

/-- The frames that belong to a process. -/
noncomputable def Proc.held (p : Proc) (f : Frame) : Nat := p.pgdir.refs f + one p.kstack f

section Fork

variable {ver : Version} {p child : Proc} {km km' : Kmem} {m : Memory}

/-- The kernel's own pages are present. -/
theorem Tidy.kernel_exclusive {pd : PgDir} (tidy : Tidy pd) {v : Vpn} (high : ¬ v.user)
    (mapped : (pd.pte v).mapped = true) : (pd.pte v).p ≠ (pd.pte v).e := by
  have clear := (tidy.kernel v high).2
  unfold Pte.mapped at mapped
  rw [clear, Bool.or_false] at mapped
  rw [clear, mapped]
  decide

/-- A copied entry keeps its flags when it is either present or encrypted. -/
theorem Version.entry_flags (ver : Version) (f : Frame) {x : Pte} (opposite : x.p ≠ x.e) :
    (ver.entry f x.toFlags).p = x.p ∧ (ver.entry f x.toFlags).e = x.e ∧
      (ver.entry f x.toFlags).u = x.u := by
  cases ver <;> cases encrypted : x.e <;> cases present : x.p <;>
    simp_all [Version.entry]

/-- The child of a process has its memory. -/
theorem Copied.decent {d : PgDir} {kstack : Frame} (decent : Decent p)
    (copied : Copied ver p.pgdir p.sz km d km') : Decent { p with pgdir := d, kstack := kstack } := by
  refine ⟨copied.tidy, decent.bounded, fun v mapped => ?_, fun v encrypted => ?_⟩
  all_goals
    by_cases low : v.user
    rotate_left
  · exact copied.tidy.kernel_exclusive low mapped
  · by_cases below : v.addr < p.sz
    · obtain ⟨before, f, entry, -⟩ := copied.inside v below
      have opposite := decent.exclusive v before
      obtain ⟨present, encrypted, -⟩ := ver.entry_flags f opposite
      simp only [entry, present, encrypted]
      exact opposite
    · simp only [copied.outside v low (by omega)] at mapped
      cases mapped
  · simp only [(copied.tidy.kernel v low).2] at encrypted
    cases encrypted
  · by_cases below : v.addr < p.sz
    · obtain ⟨before, f, entry, -⟩ := copied.inside v below
      obtain ⟨-, same, opened⟩ := ver.entry_flags f (decent.exclusive v before)
      simp only [entry, same, opened] at encrypted ⊢
      exact decent.guarded v encrypted
    · simp only [copied.outside v low (by omega)] at encrypted
      cases encrypted

theorem Copied.shows {d : PgDir} (decent : Decent p) (shows : p.pgdir.Shows km m)
    (readable : Readable p.pgdir km) (copied : Copied ver p.pgdir p.sz km d km') : d.Shows km' m := by
  intro v low mapped
  by_cases below : v.addr < p.sz
  · obtain ⟨before, f, entry, content⟩ := copied.inside v below
    obtain ⟨-, same, -⟩ := ver.entry_flags f (decent.exclusive v before)
    rw [shows v low before]
    unfold PgDir.content
    rw [entry, Version.entry_ppn, same, content readable]
  · simp only [copied.outside v low (by omega)] at mapped
    cases mapped

/-- `fork` makes a child that shows the same memory, or leaves every frame where it was. -/
theorem fork_cases {made : Option Proc} (decent : Decent p) (single : Single p.pgdir.refs km.store)
    (shows : p.pgdir.Shows km m) (result : fork ver p km = .ok (made, km')) :
    (made = none ∧ Exchanges (fun _ => 0) km.store (fun _ => 0) km'.store) ∨
      ∃ child, made = some child ∧ Decent child ∧ child.pgdir.Shows km' m ∧
        Takes (fun _ => 0) km.store child.held km'.store := by
  unfold fork at result
  split at result
  · rename_i rest refused
    obtain ⟨rfl, rfl⟩ : none = made ∧ rest = km' := by simpa using result
    exact .inl ⟨rfl, Kmem.kalloc_none refused ▸ (Takes.refl _ _).exchanges⟩
  · rename_i kstack rest granted
    have taken : Takes (fun _ => 0) km.store (one kstack) rest.store :=
      (Kmem.kalloc_takes granted (fun _ => 0) fun _ _ => rfl).recount fun g => by omega
    obtain ⟨⟨d, middle⟩, copying, result⟩ := bind_ok.mp result
    obtain ⟨rfl, exchanged⟩ | ⟨copy, rfl, copied⟩ := copyuvm_cases decent.bounded copying
    · obtain ⟨last, freed, result⟩ := bind_ok.mp result
      obtain ⟨rfl, rfl⟩ : none = made ∧ last = km' := by simpa [pure, Except.pure] using result
      have framed : Exchanges (one kstack) rest.store (one kstack) middle.store :=
        exchanged.recount (fun _ => Nat.zero_le _) fun _ => rfl
      have given : Gives (one kstack) middle.store (fun _ => 0) last.store :=
        (Kmem.kfree_gives freed fun _ => 0).recount (fun g => by omega) fun g => by omega
      exact .inl ⟨rfl, taken.exchange (framed.gives given)⟩
    · obtain ⟨rfl, rfl⟩ : some { p with pgdir := copy, kstack := kstack } = made ∧ middle = km' := by
        simpa [pure, Except.pure] using result
      have bytes : ∀ v : Vpn, v.user → (p.pgdir.pte v).mapped = true →
          rest.mem (p.pgdir.pte v).ppn = km.mem (p.pgdir.pte v).ppn :=
        fun v low mapped => taken.memory _ (mapped_not_free single low mapped)
      have readable : Readable p.pgdir rest := by
        refine ⟨fun g => (taken.shrinks g).trans ((Nat.le_add_right _ _).trans (single g)), ?_⟩
        intro v low mapped
        have free := mapped_not_free single low mapped
        have shrunk := taken.shrinks (p.pgdir.pte v).ppn
        simp only [Kmem.store] at shrunk
        omega
      have visible : p.pgdir.Shows rest m := by
        intro v low mapped
        rw [shows v low mapped, content_congr rfl (bytes v low mapped)]
      refine .inr ⟨_, rfl, copied.decent decent, copied.shows decent visible readable, ?_⟩
      refine taken.trans (copied.takes.recount fun g => ?_)
      simp only [Proc.held]
      omega

end Fork

end Cs537.Vm
