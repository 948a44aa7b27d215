import Cs537.Vm.RangeEncryption

/-!
# The fault handler of p5

At a page fault `trap` calls `decrypt` with the address that the processor reports, whatever
it is. Where there is a page-table page for the address the call is harmless: it decrypts the
page if it is encrypted and refuses otherwise. Where there is none the kernel reads an entry
through a null pointer, before it decides anything.
-/

namespace Cs537.Vm

open Occurrences Ledger Runs

namespace P5

/-- The case of `trap` for a page fault: the process goes on after a successful `decrypt`. Else
it is marked as killed if it was in user space, and `exit` follows; the kernel itself panics. -/
def pageFault (user : Bool) (p : Proc) (uva : Nat) (km : Kmem) : Result (Bool × Proc × Kmem) := do
  let (decrypted, p, km) ← decrypt p uva km
  if decrypted then return (false, p, km)
  else if user then return (true, p, km)
  else .error (.panic "trap")

/-- A page is decrypted: its entry becomes present, its frame is complemented, and all else stays,
the frames of the other pages among it. -/
structure Decrypts (p : Proc) (v : Vpn) (km : Kmem) (p' : Proc) (km' : Kmem) : Prop where
  entry : p' = { p with pgdir := p.pgdir.set v { p.pgdir.pte v with p := true, e := false } }
  memory : km' = km.complement (p.pgdir.pte v).ppn
  others : ∀ w : Vpn, w.user → (p.pgdir.pte w).mapped = true → w ≠ v →
    km'.mem (p.pgdir.pte w).ppn = km.mem (p.pgdir.pte w).ppn

/-- What the handler is to do with a fault in user space: `decrypt` returns; it succeeds exactly on
encrypted pages, which it decrypts; else nothing changes and the process is killed. -/
def HandlesFault (p : Proc) (uva : Nat) (km : Kmem) : Prop :=
  ∃ decrypted p' km', decrypt p uva km = .ok (decrypted, p', km') ∧
    (decrypted = true ↔
      p.pgdir.tables (vpn uva).pdx ≠ none ∧ (p.pgdir.pte (vpn uva)).e = true) ∧
    (decrypted = true → Decrypts p (vpn uva) km p' km') ∧
    (decrypted = false → p' = p ∧ km' = km) ∧
    pageFault true p uva km = .ok (!decrypted, p', km')

variable {p p' : Proc} {uva : Nat} {km km' : Kmem}

/-- Without a page-table page there is no entry to read. -/
theorem decrypt_missing (missing : p.pgdir.tables (vpn uva).pdx = none) :
    decrypt p uva km = .error .nullEntry := by
  rw [decrypt, PgDir.walk_none.mpr missing]

/-- A page that is not encrypted is left alone. -/
theorem decrypt_clear (km : Kmem) (table : p.pgdir.tables (vpn uva).pdx ≠ none)
    (clear : (p.pgdir.pte (vpn uva)).e = false) : decrypt p uva km = .ok (false, p, km) := by
  rw [decrypt, PgDir.walk_some.mpr ⟨table, rfl⟩]
  simp only [clear, Bool.false_eq_true, if_false]

/-- An encrypted page is open and not present, so that it has a frame to complement. -/
theorem decrypt_sealed (km : Kmem) (decent : Decent p) (table : p.pgdir.tables (vpn uva).pdx ≠ none)
    (sealed : (p.pgdir.pte (vpn uva)).e = true) :
    decrypt p uva km = .ok (true,
      { p with pgdir := p.pgdir.set (vpn uva) { p.pgdir.pte (vpn uva) with p := true, e := false } },
      km.complement (p.pgdir.pte (vpn uva)).ppn) := by
  have walked : p.pgdir.walk (vpn uva) = some (p.pgdir.pte (vpn uva)) := PgDir.walk_some.mpr ⟨table, rfl⟩
  have mapped : (p.pgdir.pte (vpn uva)).mapped = true := by simp [Pte.mapped, sealed]
  have user := decent.guarded (vpn uva) sealed
  have absent : (p.pgdir.pte (vpn uva)).p = false := by
    have different := decent.exclusive (vpn uva) mapped
    rw [sealed] at different
    exact eq_false_of_ne_true different
  have found : uva2ka .p5 p.pgdir (PGROUNDDOWN uva) = .ok (some (p.pgdir.pte (vpn uva)).ppn) := by
    rw [uva2ka, vpn_PGROUNDDOWN, walked]
    simp [mapped, user, absent]
  rw [decrypt, walked]
  simp only [sealed, if_true, found]
  rfl

/-- The frames of the other pages stay as they were. -/
theorem Decrypts.of_set {v : Vpn} (single : Single p.pgdir.refs km.store) (low : v.user)
    (mapped : (p.pgdir.pte v).mapped = true) :
    Decrypts p v km { p with pgdir := p.pgdir.set v { p.pgdir.pte v with p := true, e := false } }
      (km.complement (p.pgdir.pte v).ppn) := by
  refine ⟨rfl, rfl, fun w low' mapped' different => ?_⟩
  refine km.write_mem_other _ fun same => different ?_
  exact refs_unique (single_refs single) low' mapped' low mapped same

/-- The handler does what it is to do exactly where there is a page-table page. -/
theorem handlesFault_iff (decent : Decent p) (single : Single p.pgdir.refs km.store) :
    HandlesFault p uva km ↔ p.pgdir.tables (vpn uva).pdx ≠ none := by
  constructor
  · rintro ⟨decrypted, p', km', returned, -⟩ missing
    rw [decrypt_missing missing] at returned
    cases returned
  · intro table
    cases sealed : (p.pgdir.pte (vpn uva)).e with
    | false =>
      have returned := decrypt_clear km table sealed
      refine ⟨false, p, km, returned, ?_, ?_, fun _ => ⟨rfl, rfl⟩, ?_⟩
      · rw [sealed]
        simp
      · exact fun decrypted => absurd decrypted Bool.false_ne_true
      · rw [pageFault, returned]
        rfl
    | true =>
      have returned := decrypt_sealed km decent table sealed
      have mapped : (p.pgdir.pte (vpn uva)).mapped = true := by simp [Pte.mapped, sealed]
      have low := decent.tidy.low (decent.guarded (vpn uva) sealed)
      refine ⟨true, _, _, returned, iff_of_true rfl ⟨table, sealed⟩, fun _ => ?_, ?_, ?_⟩
      · exact Decrypts.of_set single low mapped
      · exact fun failed => absurd failed.symm Bool.false_ne_true
      · rw [pageFault, returned]
        rfl

/-- In every state of every run from a sound system, the handler does what it is to do with a
fault of a process if and only if there is a page-table page for the address. -/
theorem handlesFault_iff_table {s₀ s : System} {labels : List (Action × Answer)} (sound : s₀.Sound)
    (trace : Trace (System.Step .p5) s₀ labels s) (member : p ∈ s.procs) (uva : Nat) :
    HandlesFault p uva s.km ↔ p.pgdir.tables (vpn uva).pdx ≠ none := by
  obtain ⟨r, -, sound', -⟩ := System.trace_follows sound.follows trace
  obtain ⟨i, present⟩ := List.getElem?_of_mem member
  exact handlesFault_iff (sound'.member present) (sound'.alone present)

/-- The encrypted page of a process is decrypted, and for an access elsewhere in its first four
megabytes the process is killed. -/
theorem handlesFault_iff_table_onePage :
    ∃ p ∈ System.onePage.procs, HandlesFault p 5 System.onePage.km ∧
      HandlesFault p 0x3FF000 System.onePage.km := by
  have member : (⟨System.sealedPage, 4096, 4, fun _ => NOPAGE, none⟩ : Proc) ∈ System.onePage.procs :=
    List.mem_singleton.mpr rfl
  refine ⟨_, member, ?_, ?_⟩
  · exact (handlesFault_iff_table System.onePage_sound (.nil _) member 5).mpr (by decide)
  · exact (handlesFault_iff_table System.onePage_sound (.nil _) member 0x3FF000).mpr (by decide)

/-- A process of one page that touches an address behind its first four megabytes makes the kernel
read an entry of a page-table page that does not exist. -/
theorem fault_without_table :
    System.onePage.Sound ∧ ∀ p ∈ System.onePage.procs,
      decrypt p 0x400000 System.onePage.km = .error .nullEntry ∧
        ¬ HandlesFault p 0x400000 System.onePage.km := by
  refine ⟨System.onePage_sound, fun p member => ?_⟩
  obtain rfl := List.mem_singleton.mp member
  have missing : System.sealedPage.tables (vpn 0x400000).pdx = none := by decide
  refine ⟨decrypt_missing missing, ?_⟩
  rintro ⟨decrypted, p', km', returned, -⟩
  rw [decrypt_missing missing] at returned
  cases returned

end P5

end Cs537.Vm
