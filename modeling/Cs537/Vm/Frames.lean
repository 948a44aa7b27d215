import Cs537.Library.Runs
import Cs537.Vm.Growth
import Cs537.Vm.Recryption

/-!
# Every frame has one place

A machine with any number of page tables, and the calls that the kernels make on
them. A call names the page table by its position; `mencrypt` and the decryption of
a page take besides it the process that they run for, of which any size, queue and
hand are allowed. A call that panics, or that uses a missing entry, has no result.

The callers of `deallocuvm` and `copyuvm` pass sizes of processes, which are below
the kernel; this is the only promise that a run needs.
-/

namespace Cs537.Vm

open Occurrences Ledger Runs

/-- The allocator and the page tables that are in use. -/
structure Machine where
  km : Kmem
  spaces : List PgDir

/-- A call of a page-table function. -/
inductive Call where
  | setupkvm
  | allocuvm (i oldsz newsz : Nat)
  | deallocuvm (i oldsz newsz : Nat)
  | copyuvm (i sz : Nat)
  | mencrypt (i sz va : Nat) (len : Int)
  | decrypt (i sz va : Nat) (queue : Fin 8 → Nat) (hand : Option (Fin 8))
  | freevm (i : Nat)

/-- `mencrypt` of either kernel, on a page table of a process of some size. -/
def encryptSpace (ver : Version) (pd : PgDir) (sz va : Nat) (len : Int) (km : Kmem) :
    Result (PgDir × Kmem) := do
  match ver with
  | .p5 =>
    let (_, p, km) ← P5.mencrypt ⟨pd, sz, 0, fun _ => NOPAGE, none⟩ va len km
    return (p.pgdir, km)
  | .p6 =>
    let (_, pd, km) ← P6.mencrypt pd va len km
    return (pd, km)

/-- The decryption of either kernel, for a process with some working set. -/
def decryptSpace (ver : Version) (pd : PgDir) (sz va : Nat) (queue : Fin 8 → Nat)
    (hand : Option (Fin 8)) (km : Kmem) : Result (PgDir × Kmem) := do
  match ver with
  | .p5 =>
    let (_, p, km) ← P5.decrypt ⟨pd, sz, 0, queue, hand⟩ va km
    return (p.pgdir, km)
  | .p6 =>
    let (_, p, km) ← P6.mdecrypt ⟨pd, sz, 0, queue, hand⟩ va km
    return (p.pgdir, km)

namespace Machine

/-- Put a new page table, if there is one, behind the others. -/
def add (m : Machine) : Option PgDir × Kmem → Machine
  | (none, km) => { m with km := km }
  | (some pd, km) => ⟨km, m.spaces ++ [pd]⟩

/-- Perform a call. -/
def step (ver : Version) (m : Machine) : Call → Option Machine
  | .setupkvm => (setupkvm ver m.km).toOption.map m.add
  | .allocuvm i oldsz newsz => do
    let pd ← m.spaces[i]?
    let (_, pd, km) ← (allocuvm ver pd oldsz newsz m.km).toOption
    return ⟨km, m.spaces.set i pd⟩
  | .deallocuvm i oldsz newsz => do
    let pd ← m.spaces[i]?
    let (_, pd, km) ← (deallocuvm pd oldsz newsz m.km).toOption
    return ⟨km, m.spaces.set i pd⟩
  | .copyuvm i sz => do
    let pd ← m.spaces[i]?
    (copyuvm ver pd sz m.km).toOption.map m.add
  | .mencrypt i sz va len => do
    let pd ← m.spaces[i]?
    let (pd, km) ← (encryptSpace ver pd sz va len m.km).toOption
    return ⟨km, m.spaces.set i pd⟩
  | .decrypt i sz va queue hand => do
    let pd ← m.spaces[i]?
    let (pd, km) ← (decryptSpace ver pd sz va queue hand m.km).toOption
    return ⟨km, m.spaces.set i pd⟩
  | .freevm i => do
    let pd ← m.spaces[i]?
    let km ← (freevm pd m.km).toOption
    return ⟨km, m.spaces.eraseIdx i⟩

/-- The sizes that callers pass are below the kernel. -/
def Promised (_ : Machine) : Call → Prop
  | .deallocuvm _ oldsz _ => oldsz ≤ KERNBASE
  | .copyuvm _ sz => sz ≤ KERNBASE
  | _ => True

/-- How often a frame is referred to by the page tables. -/
noncomputable def refs (m : Machine) (f : Frame) : Nat := (m.spaces.map fun pd => pd.refs f).sum

/-- In how many places a frame is. -/
noncomputable def places (m : Machine) (f : Frame) : Nat := m.km.freelist.count f + m.refs f

/-- What a call can do to the page tables: change one, add one, remove one, or none
of these; the frames move accordingly. -/
inductive Changed (m : Machine) : Machine → Prop where
  | none {km : Kmem} (balanced : Balances (fun _ => 0) m.km.store (fun _ => 0) km.store) :
      Changed m { m with km := km }
  | one {i : Nat} {pd pd' : PgDir} {km : Kmem} (present : m.spaces[i]? = some pd) (tidy : Tidy pd')
      (balanced : Balances pd.refs m.km.store pd'.refs km.store) : Changed m ⟨km, m.spaces.set i pd'⟩
  | added {pd : PgDir} {km : Kmem} (tidy : Tidy pd)
      (balanced : Balances (fun _ => 0) m.km.store pd.refs km.store) : Changed m ⟨km, m.spaces ++ [pd]⟩
  | removed {i : Nat} {pd : PgDir} {km : Kmem} (present : m.spaces[i]? = some pd)
      (balanced : Balances pd.refs m.km.store (fun _ => 0) km.store) :
      Changed m ⟨km, m.spaces.eraseIdx i⟩

end Machine

/-- `mencrypt` moves no frame. -/
theorem encryptSpace_retouches {ver : Version} {pd pd' : PgDir} {sz va : Nat} {len : Int}
    {km km' : Kmem} (tidy : Tidy pd) (result : encryptSpace ver pd sz va len km = .ok (pd', km')) :
    Retouches pd km pd' km' := by
  cases ver with
  | p5 =>
    obtain ⟨⟨encrypted, p, rest⟩, called, result⟩ := bind_ok.mp result
    obtain ⟨rfl, rfl⟩ : p.pgdir = pd' ∧ rest = km' := by simpa [pure, Except.pure] using result
    have recrypted := (P5.mencrypt_recrypts (p := ⟨pd, sz, 0, fun _ => NOPAGE, none⟩) tidy called).1
    exact recrypted.toRetouches
  | p6 =>
    obtain ⟨⟨encrypted, changed, rest⟩, called, result⟩ := bind_ok.mp result
    obtain ⟨rfl, rfl⟩ : changed = pd' ∧ rest = km' := by simpa [pure, Except.pure] using result
    exact (P6.mencrypt_recrypts tidy called).toRetouches

/-- The decryption of a page, whichever page it is, moves no frame. -/
theorem decryptSpace_retouches {ver : Version} {pd pd' : PgDir} {sz va : Nat} {queue : Fin 8 → Nat}
    {hand : Option (Fin 8)} {km km' : Kmem} (tidy : Tidy pd)
    (result : decryptSpace ver pd sz va queue hand km = .ok (pd', km')) : Retouches pd km pd' km' := by
  cases ver with
  | p5 =>
    obtain ⟨⟨decrypted, p, rest⟩, called, result⟩ := bind_ok.mp result
    obtain ⟨rfl, rfl⟩ : p.pgdir = pd' ∧ rest = km' := by simpa [pure, Except.pure] using result
    have recrypted := (P5.decrypt_recrypts (p := ⟨pd, sz, 0, queue, hand⟩) tidy called).1
    exact recrypted.toRetouches
  | p6 =>
    obtain ⟨⟨decrypted, p, rest⟩, called, result⟩ := bind_ok.mp result
    obtain ⟨rfl, rfl⟩ : p.pgdir = pd' ∧ rest = km' := by simpa [pure, Except.pure] using result
    exact P6.mdecrypt_retouches (p := ⟨pd, sz, 0, queue, hand⟩) tidy called

/-- `allocuvm` as a transaction, whatever it returns. -/
theorem Allocated.balances {ver : Version} {pd pd' : PgDir} {oldsz newsz size : Nat} {km km' : Kmem}
    (tidy : Tidy pd) (allocated : Allocated ver pd oldsz newsz km size pd' km') :
    Tidy pd' ∧ Balances pd.refs km.store pd'.refs km'.store := by
  cases allocated with
  | tooLarge => exact ⟨tidy, (Takes.refl _ _).exchanges.toBalances⟩
  | smaller => exact ⟨tidy, (Takes.refl _ _).exchanges.toBalances⟩
  | done _ _ fills => exact ⟨fills.tidy, fills.takes.exchanges.toBalances⟩
  | undone _ _ tidy' exchanged _ => exact ⟨tidy', exchanged.toBalances⟩

namespace Machine

/-- The cases of a call. -/
theorem step_changed {ver : Version} {m m' : Machine} {call : Call} (tidy : ∀ pd ∈ m.spaces, Tidy pd)
    (promised : m.Promised call) (moved : m.step ver call = some m') : m.Changed m' := by
  cases call with
  | setupkvm =>
    obtain ⟨⟨made, km⟩, called, rfl⟩ := Option.map_eq_some_iff.mp moved
    obtain ⟨rfl, exchanged⟩ | ⟨pd, rfl, tidy', taken, -⟩ := setupkvm_cases (toOption_some called)
    · exact .none exchanged.toBalances
    · exact .added tidy' taken.exchanges.toBalances
  | allocuvm i oldsz newsz =>
    obtain ⟨pd, present, moved⟩ := Option.bind_eq_some_iff.mp moved
    obtain ⟨⟨size, pd', km⟩, called, moved⟩ := Option.bind_eq_some_iff.mp moved
    obtain rfl := Option.some.inj moved
    have member := List.mem_of_getElem? present
    obtain ⟨tidy', balanced⟩ :=
      (allocuvm_cases (tidy pd member) (toOption_some called)).balances (tidy pd member)
    exact .one present tidy' balanced
  | deallocuvm i oldsz newsz =>
    obtain ⟨pd, present, moved⟩ := Option.bind_eq_some_iff.mp moved
    obtain ⟨⟨size, pd', km⟩, called, moved⟩ := Option.bind_eq_some_iff.mp moved
    obtain rfl := Option.some.inj moved
    have member := List.mem_of_getElem? present
    obtain ⟨-, rfl, given⟩ := deallocuvm_gives (tidy pd member) promised (toOption_some called)
    exact .one present ((tidy pd member).clear _ _) given.exchanges.toBalances
  | copyuvm i sz =>
    obtain ⟨pd, present, moved⟩ := Option.bind_eq_some_iff.mp moved
    obtain ⟨⟨made, km⟩, called, rfl⟩ := Option.map_eq_some_iff.mp moved
    obtain ⟨rfl, exchanged⟩ | ⟨d, rfl, copied⟩ := copyuvm_cases promised (toOption_some called)
    · exact .none exchanged.toBalances
    · exact .added copied.tidy copied.takes.exchanges.toBalances
  | mencrypt i sz va len =>
    obtain ⟨pd, present, moved⟩ := Option.bind_eq_some_iff.mp moved
    obtain ⟨⟨pd', km⟩, called, moved⟩ := Option.bind_eq_some_iff.mp moved
    obtain rfl := Option.some.inj moved
    have member := List.mem_of_getElem? present
    have retouched := encryptSpace_retouches (tidy pd member) (toOption_some called)
    exact .one present (retouched.tidy (tidy pd member)) retouched.balances
  | decrypt i sz va queue hand =>
    obtain ⟨pd, present, moved⟩ := Option.bind_eq_some_iff.mp moved
    obtain ⟨⟨pd', km⟩, called, moved⟩ := Option.bind_eq_some_iff.mp moved
    obtain rfl := Option.some.inj moved
    have member := List.mem_of_getElem? present
    have retouched := decryptSpace_retouches (tidy pd member) (toOption_some called)
    exact .one present (retouched.tidy (tidy pd member)) retouched.balances
  | freevm i =>
    obtain ⟨pd, present, moved⟩ := Option.bind_eq_some_iff.mp moved
    obtain ⟨km, called, moved⟩ := Option.bind_eq_some_iff.mp moved
    obtain rfl := Option.some.inj moved
    have member := List.mem_of_getElem? present
    exact .removed present (freevm_gives (tidy pd member) (toOption_some called)).exchanges.toBalances

/-- All page tables together make one transaction of a call. -/
theorem Changed.balances {m m' : Machine} (changed : m.Changed m') :
    Balances m.refs m.km.store m'.refs m'.km.store := by
  cases changed with
  | none balanced =>
    refine balanced.recount (fun f => Nat.zero_le _) (fun f => ?_)
    simp only [refs]
  | one present _ balanced =>
    refine balanced.recount (fun f => ?_) (fun f => ?_)
    · exact le_sum_map (fun pd : PgDir => pd.refs f) present
    · exact sum_map_set (fun pd : PgDir => pd.refs f) present _
  | added _ balanced =>
    refine balanced.recount (fun f => Nat.zero_le _) (fun f => ?_)
    simp [refs]
  | removed present balanced =>
    refine balanced.recount (fun f => ?_) (fun f => ?_)
    · exact le_sum_map (fun pd : PgDir => pd.refs f) present
    · exact sum_map_eraseIdx (fun pd : PgDir => pd.refs f) present

theorem Changed.tidy {m m' : Machine} (changed : m.Changed m') (tidy : ∀ pd ∈ m.spaces, Tidy pd) :
    ∀ pd ∈ m'.spaces, Tidy pd := by
  intro pd member
  cases changed with
  | none => exact tidy pd member
  | one _ tidy' _ =>
    obtain old | rfl := List.mem_or_eq_of_mem_set member
    · exact tidy pd old
    · exact tidy'
  | added tidy' _ =>
    obtain old | rfl := List.mem_append.mp member |>.imp_right List.mem_singleton.mp
    · exact tidy pd old
    · exact tidy'
  | removed => exact tidy pd (List.mem_of_mem_eraseIdx member)

/-- The invariant: page tables are tidy, each frame keeps its number of places, no
frame was freed twice, and the frames that `kfree` takes are fixed. -/
structure Conserved (start m : Machine) : Prop where
  tidy : ∀ pd ∈ m.spaces, Tidy pd
  places : ∀ f, m.places f = start.places f
  doubled : m.km.doubled = start.km.doubled
  accepts : m.km.accepts = start.km.accepts

/-- A call keeps the invariant. -/
theorem Conserved.step {ver : Version} {start m m' : Machine} {call : Call}
    (single : ∀ f, start.places f ≤ 1) (conserved : Conserved start m) (promised : m.Promised call)
    (moved : m.step ver call = some m') : Conserved start m' := by
  have changed := step_changed conserved.tidy promised moved
  have balanced := changed.balances
  refine ⟨changed.tidy conserved.tidy, fun f => ?_, ?_, balanced.accepts.trans conserved.accepts⟩
  · exact (balanced.places f).trans (conserved.places f)
  · have once : Single m.refs m.km.store := by
      intro f
      exact (conserved.places f).trans_le (single f)
    exact (balanced.doubled once).trans conserved.doubled

/-- From boot, when every frame is free, each frame is in one place after any calls:
on the free list, or referred to once by one page table. None is freed twice,
`freevm` returns and puts every frame of its page table on the free list, and a
failed `copyuvm` leaves the same frames there. -/
theorem frame_in_one_place {ver : Version} {km : Kmem} {calls : List Call} {m : Machine}
    (distinct : km.freelist.Nodup) (proper : ∀ f ∈ km.freelist, km.accepts f = true)
    (fresh : km.doubled = false) (promised : Meets (step ver) Promised ⟨km, []⟩ calls)
    (completed : run (step ver) ⟨km, []⟩ calls = some m) :
    (∀ f, m.km.freelist.count f + (m.spaces.map fun pd => pd.refs f).sum =
      if f ∈ km.freelist then 1 else 0) ∧
    m.km.doubled = false ∧
    (∀ pd ∈ m.spaces, ∃ km', freevm pd m.km = .ok km' ∧
      ∀ f, km'.freelist.count f = m.km.freelist.count f + pd.refs f) ∧
    (∀ pd ∈ m.spaces, ∀ sz ≤ KERNBASE, ∀ km', copyuvm ver pd sz m.km = .ok (none, km') →
      km'.freelist.Perm m.km.freelist) := by
  have start : ∀ f, (⟨km, []⟩ : Machine).places f = if f ∈ km.freelist then 1 else 0 := by
    intro f
    simp [places, refs, distinct.count]
  have single : ∀ f, (⟨km, []⟩ : Machine).places f ≤ 1 := by
    intro f
    rw [start]
    split <;> omega
  have conserved : Conserved ⟨km, []⟩ m := by
    refine run_invariant (fun m call m' promised conserved moved => ?_) ?_ promised completed
    · exact conserved.step single promised moved
    · exact ⟨fun pd member => absurd member List.not_mem_nil, fun _ => rfl, rfl, rfl⟩
  refine ⟨fun f => (conserved.places f).trans (start f), conserved.doubled.trans fresh, ?_, ?_⟩
  · intro pd member
    have accepted : ∀ f, 1 ≤ pd.refs f → m.km.accepts f = true := by
      intro f held
      rw [conserved.accepts]
      apply proper
      by_contra absent
      have nowhere := (conserved.places f).trans (start f)
      rw [if_neg absent] at nowhere
      obtain ⟨i, present⟩ := List.mem_iff_getElem?.mp member
      have counted := le_sum_map (fun pd : PgDir => pd.refs f) present
      simp only [places, refs] at nowhere
      omega
    obtain ⟨km', returned⟩ := freevm_returns accepted
    refine ⟨km', returned, fun f => ?_⟩
    exact (freevm_gives (conserved.tidy pd member) returned).places f
  · intro pd member sz bounded km' failed
    obtain ⟨-, exchanged⟩ | ⟨d, impossible, -⟩ := copyuvm_cases bounded failed
    · rw [List.perm_iff_count]
      exact exchanged.places
    · cases impossible

/-- A machine at boot with one free frame, which is the root of the new page table
until the first page-table page cannot be allocated. -/
def scarce : Kmem where
  freelist := [1024]
  mem := fun _ _ => 0
  refusals := []
  layout := .small
  doubled := false

theorem frame_in_one_place_scarce :
    (final (step .p6) ⟨scarce, []⟩ [.setupkvm]).km.freelist.count 1024 +
      ((final (step .p6) ⟨scarce, []⟩ [.setupkvm]).spaces.map fun pd => pd.refs 1024).sum = 1 :=
  (@frame_in_one_place .p6 scarce [.setupkvm] _ (by decide) (by decide) rfl
    ⟨trivial, fun _ _ => trivial⟩ (run_final (by decide +kernel))).1 1024

end Machine

end Cs537.Vm
