import Cs537.Library.Ledger
import Cs537.Vm.PageTable

/-!
# The frames that a page table holds

A page table holds its root, its page-table pages and the frames of its user pages,
whether they are present or encrypted. The kernel's own mappings hold nothing: the
frames behind them are those of every other page.

The allocator is a store in the sense of the ledger: `kalloc` takes a frame from
the free list and `kfree` gives one back.
-/

namespace Cs537.Vm

open Occurrences Ledger

/-- A sequence of kernel calls returns when each of them does. -/
theorem bind_ok {α β : Type} {first : Result α} {next : α → Result β} {result : β} :
    (first >>= next) = .ok result ↔ ∃ value, first = .ok value ∧ next value = .ok result := by
  cases first with
  | error halt => simp [bind, Except.bind]
  | ok value => simp [bind, Except.bind]

/-- A call with a result has returned it. -/
theorem toOption_some {α : Type} {result : Result α} {value : α} (returned : result.toOption = some value) :
    result = .ok value := by
  cases result with
  | error halt => cases returned
  | ok other =>
    obtain rfl : other = value := by simpa [Except.toOption] using returned
    rfl

/-! ## The allocator -/

namespace Kmem

/-- The free list, the contents of the frames, the record of double frees and the
frames that `kfree` takes. -/
def store (km : Kmem) : Store Frame Page := ⟨km.freelist, km.mem, km.doubled, km.accepts⟩

/-- A failed `kalloc` changes nothing but the answers to come. -/
theorem kalloc_none {km km' : Kmem} (refused : km.kalloc = (none, km')) : km'.store = km.store := by
  unfold kalloc at refused
  split at refused <;> simp only [Prod.mk.injEq, reduceCtorEq, false_and, true_and] at refused
  all_goals rw [← refused]; rfl

/-- A successful `kalloc` returns the first free frame. -/
theorem kalloc_some {km km' : Kmem} {f : Frame} (granted : km.kalloc = (some f, km')) :
    km.freelist = f :: km'.freelist ∧ km'.mem = km.mem ∧ km'.doubled = km.doubled ∧
      km'.accepts = km.accepts := by
  unfold kalloc at granted
  split at granted <;>
    simp only [Prod.mk.injEq, Option.some.injEq, reduceCtorEq, false_and] at granted
  rename_i first rest free _
  obtain ⟨rfl, rfl⟩ := granted
  exact ⟨free, rfl, rfl, rfl⟩

/-- The frame of `kalloc` is taken, and may be filled at once. -/
theorem kalloc_takes {km km' : Kmem} {f : Frame} (granted : km.kalloc = (some f, km'))
    (held : Frame → Nat) {memory : Frame → Page} (others : ∀ g, g ≠ f → memory g = km'.mem g) :
    Takes held km.store (fun g => held g + one f g)
      ⟨km'.freelist, memory, km'.doubled, km'.accepts⟩ := by
  obtain ⟨free, mem, doubled, accepts⟩ := kalloc_some granted
  rw [mem] at others
  rw [doubled, accepts]
  exact Takes.first (s := km.store) free held others

/-- `kfree` gives the frame back. -/
theorem kfree_gives {km km' : Kmem} {f : Frame} (freed : km.kfree f = .ok km')
    (held : Frame → Nat) : Gives (fun g => held g + one f g) km.store held km'.store := by
  unfold kfree at freed
  split at freed
  · cases freed
  · obtain rfl := Except.ok.inj freed
    apply Gives.first
    intro other different
    exact Function.update_of_ne different _ _

@[simp] theorem write_mem_self (km : Kmem) (f : Frame) (page : Page) :
    (km.write f page).mem f = page := Function.update_self ..

theorem write_mem_other (km : Kmem) {f g : Frame} (page : Page) (different : g ≠ f) :
    (km.write f page).mem g = km.mem g := Function.update_of_ne different ..

end Kmem

/-! ## Pages and addresses -/

/-- The first address of a page. -/
def Vpn.addr (v : Vpn) : Nat := v.val * PGSIZE

theorem Vpn.user_iff (v : Vpn) : v.user ↔ v.addr < KERNBASE := by
  unfold Vpn.user Vpn.addr PGSIZE KERNBASE
  omega

theorem vpn_val {address : Nat} (small : address < 2 ^ 32) : (vpn address).val = address / PGSIZE := by
  unfold vpn
  simp only [Fin.ofNat, PGSIZE]
  omega

theorem vpn_user {address : Nat} (small : address < KERNBASE) : (vpn address).user := by
  unfold Vpn.user
  rw [vpn_val (small.trans (by decide))]
  unfold PGSIZE
  unfold KERNBASE at small
  omega

/-- The page of an aligned address begins at that address. -/
theorem vpn_addr {address : Nat} (small : address < 2 ^ 32) (aligned : PGSIZE ∣ address) :
    (vpn address).addr = address := by
  unfold Vpn.addr
  rw [vpn_val small, Nat.div_mul_cancel aligned]

theorem addr_inj {v w : Vpn} (same : v.addr = w.addr) : v = w := by
  apply Fin.ext
  unfold Vpn.addr PGSIZE at same
  omega

@[simp] theorem vpn_of_addr (v : Vpn) : vpn v.addr = v := by
  apply Fin.ext
  rw [vpn_val (by unfold Vpn.addr PGSIZE; omega)]
  unfold Vpn.addr PGSIZE
  omega

theorem word_small {value : Nat} (small : value < 2 ^ 32) : word value = value :=
  Nat.mod_eq_of_lt small

/-! ## Holdings of a page table -/

namespace PgDir

/-- The frame that a user page holds. -/
def owned (pd : PgDir) (v : Vpn) : Option Frame :=
  if v.user ∧ (pd.pte v).mapped = true then some (pd.pte v).ppn else none

/-- How often a page table refers to a frame: as its root, as a page-table page or
as a user page. -/
noncomputable def refs (pd : PgDir) (f : Frame) : Nat :=
  one pd.root f + occurrences pd.tables f + occurrences pd.owned f

@[simp] theorem set_root (pd : PgDir) (v : Vpn) (x : Pte) : (pd.set v x).root = pd.root := rfl

@[simp] theorem set_tables (pd : PgDir) (v : Vpn) (x : Pte) : (pd.set v x).tables = pd.tables := rfl

theorem set_pte (pd : PgDir) (v w : Vpn) (x : Pte) :
    (pd.set v x).pte w = if w = v then x else pd.pte w := Function.update_apply ..

@[simp] theorem set_pte_self (pd : PgDir) (v : Vpn) (x : Pte) : (pd.set v x).pte v = x := by
  simp [set_pte]

theorem walk_none {pd : PgDir} {v : Vpn} : pd.walk v = none ↔ pd.tables v.pdx = none := by
  simp [walk]

theorem walk_some {pd : PgDir} {v : Vpn} {x : Pte} :
    pd.walk v = some x ↔ pd.tables v.pdx ≠ none ∧ pd.pte v = x := by
  simp only [walk, Option.map_eq_some_iff, exists_and_right, Option.ne_none_iff_exists']

/-- The frame of a user page after an assignment. -/
theorem owned_set (pd : PgDir) {v : Vpn} (x : Pte) (low : v.user) :
    (pd.set v x).owned = Function.update pd.owned v (if x.mapped then some x.ppn else none) := by
  funext w
  by_cases same : w = v
  · subst same
    simp [owned, low]
  · simp [owned, set_pte, same]

/-- Assigning an entry of the kernel's half moves no frame. -/
theorem refs_set_kernel (pd : PgDir) {v : Vpn} (x : Pte) (high : ¬ v.user) :
    (pd.set v x).refs = pd.refs := by
  have same : (pd.set v x).owned = pd.owned := by
    funext w
    by_cases equal : w = v
    · subst equal
      simp [owned, high]
    · simp [owned, set_pte, equal]
  unfold refs
  rw [same, set_root, set_tables]

/-- Assigning an entry of the user's half exchanges the frame of that page. -/
theorem refs_set (pd : PgDir) {v : Vpn} (x : Pte) (low : v.user) (f : Frame) :
    (pd.set v x).refs f + holds (pd.owned v) f =
      pd.refs f + holds (if x.mapped then some x.ppn else none) f := by
  have exchanged := occurrences_update pd.owned v (if x.mapped then some x.ppn else none) f
  rw [← owned_set pd x low] at exchanged
  unfold refs
  rw [set_root, set_tables]
  omega

end PgDir

/-- What the kernel keeps true of a page table: entries without a page-table page
are empty, an entry of a user page that is not empty maps a page, and the kernel's
own pages are neither encrypted nor open to users. -/
structure Tidy (pd : PgDir) : Prop where
  rooted : ∀ v, pd.tables v.pdx = none → pd.pte v = {}
  clean : ∀ v, v.user → pd.pte v ≠ {} → (pd.pte v).mapped = true
  kernel : ∀ v, ¬ v.user → (pd.pte v).u = false ∧ (pd.pte v).e = false

namespace Tidy

variable {pd : PgDir}

/-- A mapped page has a page-table page. -/
theorem table {v : Vpn} (tidy : Tidy pd) (mapped : (pd.pte v).mapped = true) :
    pd.tables v.pdx ≠ none := by
  intro missing
  rw [tidy.rooted v missing] at mapped
  cases mapped

/-- A user page that is not mapped has an empty entry. -/
theorem empty {v : Vpn} (tidy : Tidy pd) (low : v.user) (unmapped : ¬ (pd.pte v).mapped = true) :
    pd.pte v = {} := by
  by_contra filled
  exact unmapped (tidy.clean v low filled)

/-- Pages open to users are below the kernel. -/
theorem low {v : Vpn} (tidy : Tidy pd) (opened : (pd.pte v).u = true) : v.user := by
  by_contra high
  rw [(tidy.kernel v high).1] at opened
  cases opened

/-- An entry may be assigned where there is a page-table page. -/
theorem set {v : Vpn} {x : Pte} (tidy : Tidy pd) (table : pd.tables v.pdx ≠ none)
    (user : v.user → x ≠ {} → x.mapped = true) (kernel : ¬ v.user → x.u = false ∧ x.e = false) :
    Tidy (pd.set v x) := by
  refine ⟨fun w missing => ?_, fun w low => ?_, fun w high => ?_⟩
  all_goals rw [PgDir.set_pte]
  all_goals split
  · rename_i same
    exact absurd (same ▸ missing) table
  · exact tidy.rooted w missing
  · rename_i same
    exact user (same ▸ low)
  · exact tidy.clean w low
  · rename_i same
    exact kernel (same ▸ high)
  · exact tidy.kernel w high

/-- A new page-table page leaves every entry as it was. -/
theorem addTable_pte (tidy : Tidy pd) {i : Fin 1024} (missing : pd.tables i = none) (f : Frame) :
    (pd.addTable i f).pte = pd.pte := by
  funext v
  simp only [PgDir.addTable]
  split
  · rename_i same
    exact (tidy.rooted v (same ▸ missing)).symm
  · rfl

theorem addTable (tidy : Tidy pd) {i : Fin 1024} (missing : pd.tables i = none) (f : Frame) :
    Tidy (pd.addTable i f) := by
  have entries := tidy.addTable_pte missing f
  refine ⟨fun v none => ?_, fun v => ?_, fun v => ?_⟩
  · rw [entries]
    apply tidy.rooted
    by_cases same : v.pdx = i
    · rw [same, missing]
    · simpa [PgDir.addTable, same] using none
  · rw [entries]
    exact tidy.clean v
  · rw [entries]
    exact tidy.kernel v

/-- A new page-table page is the only frame that is added. -/
theorem refs_addTable (tidy : Tidy pd) {i : Fin 1024} (missing : pd.tables i = none) (f g : Frame) :
    (pd.addTable i f).refs g = pd.refs g + one f g := by
  have owned : (pd.addTable i f).owned = pd.owned := by
    funext v
    unfold PgDir.owned
    rw [tidy.addTable_pte missing]
  have tables := occurrences_update pd.tables i (some f) g
  rw [missing, holds_none, holds_some] at tables
  unfold PgDir.refs
  rw [owned]
  simp only [PgDir.addTable]
  omega

/-- Mapping a page whose entry is empty adds its frame. -/
theorem refs_map {v : Vpn} {x : Pte} (low : v.user) (empty : pd.pte v = {})
    (mapped : x.mapped = true) (f : Frame) : (pd.set v x).refs f = pd.refs f + one x.ppn f := by
  have exchanged := pd.refs_set x low f
  have nothing : pd.owned v = none := by simp [PgDir.owned, empty, Pte.mapped]
  rw [nothing, if_pos mapped, holds_none, holds_some] at exchanged
  omega

/-- Clearing the entry of a mapped page removes its frame. -/
theorem refs_unmap {v : Vpn} (low : v.user) (mapped : (pd.pte v).mapped = true) (f : Frame) :
    (pd.set v {}).refs f + one (pd.pte v).ppn f = pd.refs f := by
  have exchanged := pd.refs_set {} low f
  have something : pd.owned v = some (pd.pte v).ppn := by simp [PgDir.owned, low, mapped]
  have cleared : (if ({} : Pte).mapped = true then some ({} : Pte).ppn else none) = none := rfl
  rw [something, cleared, holds_none, holds_some] at exchanged
  omega

end Tidy

/-- A mapped user page refers to its frame. -/
theorem refs_pos {pd : PgDir} {v : Vpn} (low : v.user) (mapped : (pd.pte v).mapped = true) :
    1 ≤ pd.refs (pd.pte v).ppn := by
  have kept : pd.owned v = some (pd.pte v).ppn := by simp [PgDir.owned, low, mapped]
  have occurs : 1 ≤ occurrences pd.owned (pd.pte v).ppn := occurrences_pos kept
  unfold PgDir.refs
  exact occurs.trans (Nat.le_add_left _ _)

/-- A frame with one reference belongs to one page. -/
theorem refs_unique {pd : PgDir} {v w : Vpn} (single : ∀ f, pd.refs f ≤ 1) (low : v.user)
    (mapped : (pd.pte v).mapped = true) (low' : w.user) (mapped' : (pd.pte w).mapped = true)
    (same : (pd.pte v).ppn = (pd.pte w).ppn) : v = w := by
  have kept : pd.owned v = some (pd.pte v).ppn := by simp [PgDir.owned, low, mapped]
  have kept' : pd.owned w = some (pd.pte v).ppn := by simp [PgDir.owned, low', mapped', same]
  refine occurrences_unique ?_ kept kept'
  have bound := single (pd.pte v).ppn
  unfold PgDir.refs at bound
  exact (Nat.le_add_left _ _).trans bound

end Cs537.Vm
