import Cs537.Vm.Refinement

/-!
# Encrypting a range of pages in p5

`mencrypt` first checks every page of the range and then encrypts those that are not
encrypted yet, so a range of open pages is encrypted as a whole and a range with a closed
page is left alone. The check walks the page table without asking whether there is a
page-table page. As long as there is one for each page up to the first that is not open, the
call is all or nothing; where there is none, the kernel reads an entry through a null
pointer. The test of the length only ever refuses ranges that are not open as a whole, if one
page of the process is not open, as the page below the stack is.
-/

namespace Cs537.Vm

open Occurrences Ledger Runs

namespace P5

/-- The pages of a range, in the order of the loops. -/
def page (va i : Nat) : Vpn := vpn (PGROUNDDOWN va + i * PGSIZE)

/-- Every page of the range is mapped and open to users. -/
def OpenRange (pd : PgDir) (va : Nat) (len : Int) : Prop := ∀ i < len.toNat, pd.opens (page va i)

/-- There is a page-table page for each page of the range up to the first that is not open. -/
def Supported (pd : PgDir) (va : Nat) (len : Int) : Prop :=
  ∀ i < len.toNat, (∀ j < i, pd.opens (page va j)) → pd.tables (page va i).pdx ≠ none

/-- The pages of a set that are not encrypted are complemented once and become encrypted; all
else stays. -/
structure Encrypts (range : Vpn → Prop) (pd : PgDir) (km : Kmem) (pd' : PgDir) (km' : Kmem) : Prop where
  root : pd'.root = pd.root
  tables : pd'.tables = pd.tables
  allocator : km' = { km with mem := km'.mem }
  turned : ∀ v, range v → (pd.pte v).e = false → pd'.pte v = { pd.pte v with e := true, p := false }
  kept : ∀ v, (range v → (pd.pte v).e = true) → pd'.pte v = pd.pte v
  complemented : ∀ v, range v → (pd.pte v).e = false →
    km'.mem (pd.pte v).ppn = (km.mem (pd.pte v).ppn).flip
  untouched : ∀ f, (∀ v, range v → (pd.pte v).e = false → (pd.pte v).ppn ≠ f) → km'.mem f = km.mem f

/-- What a call of `mencrypt` is to do: it returns; it succeeds exactly on a range of open pages,
which it encrypts as a whole, so that the same call again changes nothing; else it changes
nothing. -/
def AllOrNothing (p : Proc) (va : Nat) (len : Int) (km : Kmem) : Prop :=
  ∃ succeeded p' km', mencrypt p va len km = .ok (succeeded, p', km') ∧
    (succeeded = true ↔ 0 ≤ len ∧ OpenRange p.pgdir va len) ∧
    (succeeded = true → p' = { p with pgdir := p'.pgdir } ∧
      Encrypts (fun v => ∃ i < len.toNat, page va i = v) p.pgdir km p'.pgdir km' ∧
      mencrypt p' va len km' = .ok (true, p', km')) ∧
    (succeeded = false → p' = p ∧ km' = km)

/-! ## The checking loop -/

section Check

variable {pd : PgDir} {va : Nat}

/-- Mapped pages are present or encrypted, not both. -/
def Exclusive (pd : PgDir) : Prop := ∀ v, (pd.pte v).mapped = true → (pd.pte v).p ≠ (pd.pte v).e

/-- `uva2ka` answers for every open page. -/
theorem uva2ka_page {i : Nat} (exclusive : Exclusive pd) (table : pd.tables (page va i).pdx ≠ none) :
    uva2ka .p5 pd (word (PGROUNDDOWN va + i * PGSIZE)) =
      .ok (if pd.opens (page va i) then some (pd.pte (page va i)).ppn else none) := by
  have walked : pd.walk (vpn (word (PGROUNDDOWN va + i * PGSIZE))) = some (pd.pte (page va i)) := by
    rw [vpn_word]
    exact PgDir.walk_some.mpr ⟨table, rfl⟩
  rw [uva2ka, walked]
  by_cases opened : pd.opens (page va i)
  · obtain ⟨mapped, user⟩ := id opened
    have once : ¬ ((pd.pte (page va i)).p = true ∧ (pd.pte (page va i)).e = true) := by
      rintro ⟨present, encrypted⟩
      exact exclusive (page va i) mapped (present.trans encrypted.symm)
    simp [opened, mapped, user, once]
  · have shut : (!(pd.pte (page va i)).mapped || !(pd.pte (page va i)).u) = true := by
      rw [PgDir.opens, not_and_or] at opened
      simpa using opened
    simp [opened, shut]

/-- Without a page-table page there is no entry to read. -/
theorem uva2ka_missing {i : Nat} (missing : pd.tables (page va i).pdx = none) :
    uva2ka .p5 pd (word (PGROUNDDOWN va + i * PGSIZE)) = .error .nullEntry := by
  have walked : pd.walk (vpn (word (PGROUNDDOWN va + i * PGSIZE))) = none := by
    rw [vpn_word]
    exact PgDir.walk_none.mpr missing
  rw [uva2ka, walked]

/-- A range of open pages passes the check. -/
theorem checkPages_open (tidy : Tidy pd) (exclusive : Exclusive pd) {left i : Nat}
    (opened : ∀ j, i ≤ j → j < i + left → pd.opens (page va j)) :
    checkPages pd (PGROUNDDOWN va) left i = .ok true := by
  induction left generalizing i with
  | zero => rfl
  | succ left inductionHypothesis =>
    have first := opened i (Nat.le_refl i) (by omega)
    rw [checkPages, uva2ka_page exclusive (tidy.table first.1), if_pos first]
    exact inductionHypothesis fun j after before => opened j (by omega) (by omega)

/-- The check stops at the first page that is not open: it refuses the range, or finds no
page-table page. -/
theorem checkPages_closed (tidy : Tidy pd) (exclusive : Exclusive pd) {left i m : Nat}
    (opened : ∀ j, i ≤ j → j < m → pd.opens (page va j)) (closed : ¬ pd.opens (page va m))
    (inside : i ≤ m) (below : m < i + left) :
    checkPages pd (PGROUNDDOWN va) left i =
      if pd.tables (page va m).pdx = none then .error .nullEntry else .ok false := by
  induction left generalizing i with
  | zero => omega
  | succ left inductionHypothesis =>
    by_cases reached : i = m
    · subst reached
      rw [checkPages]
      split
      · rename_i missing
        rw [uva2ka_missing missing]
        rfl
      · rename_i table
        rw [uva2ka_page exclusive table, if_neg closed]
        rfl
    · have first := opened i (Nat.le_refl i) (by omega)
      rw [checkPages, uva2ka_page exclusive (tidy.table first.1), if_pos first]
      exact inductionHypothesis (fun j after before => opened j (by omega) before) (by omega) (by omega)

end Check

/-! ## The encrypting loop -/

section Encrypt

variable {pd pd' : PgDir} {km km' : Kmem} {va : Nat}

/-- No two open pages share a frame. -/
def Separate (pd : PgDir) : Prop :=
  ∀ v w, pd.opens v → pd.opens w → (pd.pte v).ppn = (pd.pte w).ppn → v = w

/-- Nothing is encrypted in an empty range. -/
theorem Encrypts.none (pd : PgDir) (km : Kmem) {range : Vpn → Prop} (empty : ∀ v, ¬ range v) :
    Encrypts range pd km pd km :=
  ⟨rfl, rfl, rfl, fun v inside => absurd inside (empty v), fun _ _ => rfl,
    fun v inside => absurd inside (empty v), fun _ _ => rfl⟩

/-- The page table after one page was encrypted. -/
def turn (pd : PgDir) (v : Vpn) : PgDir := pd.set v { pd.pte v with e := true, p := false }

theorem turn_pte (pd : PgDir) (v w : Vpn) :
    (turn pd v).pte w = if w = v then { pd.pte v with e := true, p := false } else pd.pte w :=
  PgDir.set_pte ..

theorem turn_ppn (pd : PgDir) (v w : Vpn) : ((turn pd v).pte w).ppn = (pd.pte w).ppn := by
  rw [turn_pte]
  split
  · rename_i same
    rw [same]
  · rfl

/-- Encrypting a page neither opens nor closes one. -/
theorem turn_opens {v w : Vpn} (opened : pd.opens v) : (turn pd v).opens w ↔ pd.opens w := by
  unfold PgDir.opens
  rw [turn_pte]
  split
  · rename_i same
    subst same
    simpa [Pte.mapped, opened.2] using opened.1
  · rfl

/-- A page that is not encrypted yet is encrypted, and the rest of the range after it. -/
theorem Encrypts.cons {range rest : Vpn → Prop} {v : Vpn} (separate : Separate pd) (opened : pd.opens v)
    (all : ∀ w, rest w → pd.opens w) (clear : (pd.pte v).e = false)
    (first : ∀ w, range w ↔ w = v ∨ rest w)
    (later : Encrypts rest (turn pd v) (km.complement (pd.pte v).ppn) pd' km') :
    Encrypts range pd km pd' km' := by
  have other : ∀ w, w ≠ v → (turn pd v).pte w = pd.pte w := fun w different => by
    rw [turn_pte, if_neg different]
  have itself : (turn pd v).pte v = { pd.pte v with e := true, p := false } := by
    rw [turn_pte, if_pos rfl]
  have apart : ∀ w, rest w → w ≠ v → (pd.pte w).ppn ≠ (pd.pte v).ppn := fun w inside different same =>
    different (separate w v (all w inside) opened same)
  have elsewhere : ∀ f, f ≠ (pd.pte v).ppn → (km.complement (pd.pte v).ppn).mem f = km.mem f :=
    fun f different => km.write_mem_other _ different
  refine ⟨later.root, later.tables, later.allocator, ?_, ?_, ?_, ?_⟩
  · intro w inside open'
    by_cases same : w = v
    · subst same
      rw [later.kept w (fun _ => by rw [itself]), itself]
    · have remains := ((first w).mp inside).resolve_left same
      rw [later.turned w remains (by rwa [other w same]), other w same]
  · intro w encrypted
    have different : w ≠ v := by
      rintro rfl
      rw [encrypted ((first w).mpr (.inl rfl))] at clear
      cases clear
    rw [later.kept w (fun remains => ?_), other w different]
    rw [other w different]
    exact encrypted ((first w).mpr (.inr remains))
  · intro w inside open'
    by_cases same : w = v
    · subst same
      rw [later.untouched]
      · exact km.write_mem_self _ _
      · intro u remains unsealed
        have different : u ≠ w := by
          rintro rfl
          rw [itself] at unsealed
          cases unsealed
        rw [turn_ppn]
        exact apart u remains different
    · have remains := ((first w).mp inside).resolve_left same
      have done := later.complemented w remains (by rwa [other w same])
      rwa [turn_ppn, elsewhere _ (apart w remains same)] at done
  · intro f absent
    have different : f ≠ (pd.pte v).ppn := fun same => absent v ((first v).mpr (.inl rfl)) clear same.symm
    rw [later.untouched, elsewhere f different]
    intro u remains unsealed
    have others : u ≠ v := by
      rintro rfl
      rw [itself] at unsealed
      cases unsealed
    rw [other u others] at unsealed ⊢
    exact absent u ((first u).mpr (.inr remains)) unsealed

/-- A page that is encrypted already is passed over. -/
theorem Encrypts.skip {range rest : Vpn → Prop} {v : Vpn} (sealed : (pd.pte v).e = true)
    (first : ∀ w, range w ↔ w = v ∨ rest w) (later : Encrypts rest pd km pd' km') :
    Encrypts range pd km pd' km' := by
  have inner : ∀ w, range w → (pd.pte w).e = false → rest w := by
    intro w inside clear
    rcases (first w).mp inside with rfl | remains
    · rw [sealed] at clear
      cases clear
    · exact remains
  refine ⟨later.root, later.tables, later.allocator, ?_, ?_, ?_, ?_⟩
  · exact fun w inside clear => later.turned w (inner w inside clear) clear
  · exact fun w encrypted => later.kept w fun remains => encrypted ((first w).mpr (.inr remains))
  · exact fun w inside clear => later.complemented w (inner w inside clear) clear
  · exact fun f absent => later.untouched f fun w remains => absent w ((first w).mpr (.inr remains))

/-- The encrypting loop on a range of open pages. -/
theorem encryptPages_encrypts {left i : Nat} (km : Kmem) (tidy : Tidy pd) (exclusive : Exclusive pd)
    (separate : Separate pd) (opened : ∀ j, i ≤ j → j < i + left → pd.opens (page va j)) :
    ∃ pd' km', encryptPages (PGROUNDDOWN va) left i pd km = .ok (pd', km') ∧
      Encrypts (fun v => ∃ j, i ≤ j ∧ j < i + left ∧ page va j = v) pd km pd' km' := by
  induction left generalizing i pd km with
  | zero =>
    refine ⟨pd, km, rfl, .none pd km ?_⟩
    rintro v ⟨j, after, before, _⟩
    omega
  | succ left inductionHypothesis =>
    have now := opened i (Nat.le_refl i) (by omega)
    have table := tidy.table now.1
    have walked : pd.walk (page va i) = some (pd.pte (page va i)) := PgDir.walk_some.mpr ⟨table, rfl⟩
    have first : ∀ w, (∃ j, i ≤ j ∧ j < i + (left + 1) ∧ page va j = w) ↔
        w = page va i ∨ ∃ j, i + 1 ≤ j ∧ j < i + 1 + left ∧ page va j = w := by
      intro w
      constructor
      · rintro ⟨j, after, before, rfl⟩
        by_cases same : j = i
        · exact .inl (by rw [same])
        · exact .inr ⟨j, by omega, by omega, rfl⟩
      · rintro (rfl | ⟨j, after, before, rfl⟩)
        · exact ⟨i, Nat.le_refl i, by omega, rfl⟩
        · exact ⟨j, by omega, by omega, rfl⟩
    have later : ∀ j, i + 1 ≤ j → j < i + 1 + left → pd.opens (page va j) :=
      fun j after before => opened j (by omega) (by omega)
    rw [encryptPages]
    simp only [vpn_word]
    rw [show vpn (PGROUNDDOWN va + i * PGSIZE) = page va i from rfl, walked]
    cases encrypted : (pd.pte (page va i)).e with
    | true =>
      obtain ⟨pd', km', looped, done⟩ := inductionHypothesis km tidy exclusive separate later
      refine ⟨pd', km', ?_, done.skip encrypted first⟩
      simpa only [encrypted, if_true] using looped
    | false =>
      have kept : Exclusive (turn pd (page va i)) := by
        intro w mapped
        by_cases same : w = page va i
        · rw [turn_pte, if_pos same]
          exact Bool.false_ne_true
        · rw [turn_pte, if_neg same] at mapped ⊢
          exact exclusive w mapped
      have tidy' : Tidy (turn pd (page va i)) :=
        tidy.set table (fun _ _ => by simp [Pte.mapped])
          (fun high => absurd (tidy.low now.2) high)
      have separate' : Separate (turn pd (page va i)) := by
        intro u w open' open'' same
        rw [turn_opens now] at open' open''
        rw [turn_ppn, turn_ppn] at same
        exact separate u w open' open'' same
      obtain ⟨pd', km', looped, done⟩ := inductionHypothesis
        (km.complement (pd.pte (page va i)).ppn) tidy' kept separate'
        fun j after before => (turn_opens now).mpr (later j after before)
      refine ⟨pd', km', ?_, Encrypts.cons separate now ?_ encrypted first done⟩
      · rw [uva2ka_page exclusive table, if_pos now]
        simp only [encrypted, Bool.false_eq_true, if_false]
        exact looped
      · rintro w ⟨j, after, before, rfl⟩
        exact later j after before

end Encrypt

/-! ## The whole call -/

section Call

variable {p : Proc} {km : Kmem} {va : Nat} {len : Int}

/-- On a range of encrypted pages the encrypting loop does nothing. -/
theorem encryptPages_sealed {pd : PgDir} {left i : Nat} (tidy : Tidy pd)
    (sealed : ∀ j, i ≤ j → j < i + left → (pd.pte (page va j)).e = true) :
    encryptPages (PGROUNDDOWN va) left i pd km = .ok (pd, km) := by
  induction left generalizing i with
  | zero => rfl
  | succ left inductionHypothesis =>
    have first := sealed i (Nat.le_refl i) (by omega)
    have mapped : (pd.pte (page va i)).mapped = true := by simp [Pte.mapped, first]
    have walked : pd.walk (vpn (PGROUNDDOWN va + i * PGSIZE)) = some (pd.pte (page va i)) :=
      PgDir.walk_some.mpr ⟨tidy.table mapped, rfl⟩
    rw [encryptPages]
    simp only [vpn_word, walked, first, if_true]
    exact inductionHypothesis fun j after before => sealed j (by omega) (by omega)

/-- A length that passes the test on a range of open pages. -/
theorem mencrypt_open (decent : Decent p) (single : Single p.pgdir.refs km.store) (sign : 0 ≤ len)
    (short : word (len.toNat * PGSIZE) ≤ p.sz) (opened : OpenRange p.pgdir va len) :
    ∃ pd' km', mencrypt p va len km = .ok (true, { p with pgdir := pd' }, km') ∧
      Encrypts (fun v => ∃ i < len.toNat, page va i = v) p.pgdir km pd' km' := by
  have all : ∀ j, 0 ≤ j → j < 0 + len.toNat → p.pgdir.opens (page va j) :=
    fun j _ below => opened j (by omega)
  have separate : Separate p.pgdir := fun v w open' open'' same =>
    refs_unique (single_refs single) (decent.tidy.low open'.2) open'.1 (decent.tidy.low open''.2) open''.1 same
  obtain ⟨pd', km', looped, done⟩ := encryptPages_encrypts km decent.tidy decent.exclusive separate all
  refine ⟨pd', km', ?_, ?_⟩
  · unfold mencrypt
    simp only [if_neg (show ¬ (len < 0 ∨ word (len.toNat * PGSIZE) > p.sz) by omega),
      checkPages_open decent.tidy decent.exclusive all]
    change (encryptPages (PGROUNDDOWN va) len.toNat 0 p.pgdir km >>= _) = _
    rw [looped]
    rfl
  · simpa only [Nat.zero_le, true_and, Nat.zero_add, exists_and_left] using done

/-- A length that passes the test on a range with a page that is not open. -/
theorem mencrypt_closed {m : Nat} (km : Kmem) (decent : Decent p) (sign : 0 ≤ len)
    (short : word (len.toNat * PGSIZE) ≤ p.sz) (inside : m < len.toNat)
    (opened : ∀ j < m, p.pgdir.opens (page va j)) (closed : ¬ p.pgdir.opens (page va m)) :
    mencrypt p va len km =
      if p.pgdir.tables (page va m).pdx = none then .error .nullEntry else .ok (false, p, km) := by
  unfold mencrypt
  simp only [if_neg (show ¬ (len < 0 ∨ word (len.toNat * PGSIZE) > p.sz) by omega)]
  rw [checkPages_closed decent.tidy decent.exclusive (fun j _ below => opened j below) closed (Nat.zero_le m)
    (by omega)]
  split <;> rfl

/-- After a range was encrypted the same call changes nothing. -/
theorem mencrypt_again {pd' : PgDir} {km' : Kmem} (decent : Decent p) (sign : 0 ≤ len)
    (short : word (len.toNat * PGSIZE) ≤ p.sz) (opened : OpenRange p.pgdir va len)
    (called : mencrypt p va len km = .ok (true, { p with pgdir := pd' }, km'))
    (done : Encrypts (fun v => ∃ i < len.toNat, page va i = v) p.pgdir km pd' km') :
    mencrypt { p with pgdir := pd' } va len km' = .ok (true, { p with pgdir := pd' }, km') := by
  have retouched := (mencrypt_recrypts decent.tidy called).1.toRetouches
  obtain ⟨tidy, -, exclusive, -⟩ := decent.recrypt retouched rfl
  have sealed : ∀ j, 0 ≤ j → j < 0 + len.toNat → (pd'.pte (page va j)).e = true := by
    intro j _ below
    cases before : (p.pgdir.pte (page va j)).e with
    | true => rw [done.kept _ fun _ => before, before]
    | false => rw [done.turned _ ⟨j, by omega, rfl⟩ before]
  have all : ∀ j, 0 ≤ j → j < 0 + len.toNat → pd'.opens (page va j) :=
    fun j _ below => retouched.opens.mpr (opened j (by omega))
  unfold mencrypt
  simp only [if_neg (show ¬ (len < 0 ∨ word (len.toNat * PGSIZE) > p.sz) by omega),
    checkPages_open tidy exclusive all]
  change (encryptPages (PGROUNDDOWN va) len.toNat 0 pd' km' >>= _) = _
  rw [encryptPages_sealed tidy sealed]
  rfl

end Call

/-! ## The length of an open range -/

section Length

variable {p : Proc} {va : Nat} {len : Int}

/-- Nothing is mapped from the size of a process on. -/
def Contained (p : Proc) : Prop := ∀ v : Vpn, v.user → p.sz ≤ v.addr → p.pgdir.pte v = {}

/-- Open pages lie below the size. -/
theorem Contained.opens (contained : Contained p) (tidy : Tidy p.pgdir) {v : Vpn} (opened : p.pgdir.opens v) :
    v.addr < p.sz := by
  by_contra above
  have mapped := opened.1
  rw [contained v (tidy.low opened.2) (by omega)] at mapped
  cases mapped

theorem page_succ (va i : Nat) : (page va (i + 1)).val = ((page va i).val + 1) % 1048576 := by
  unfold page vpn PGROUNDDOWN PGSIZE
  simp only [Fin.ofNat]
  omega

/-- The pages of an open range follow each other. -/
theorem OpenRange.page_val (decent : Decent p) (contained : Contained p)
    (opened : OpenRange p.pgdir va len) {i : Nat} (inside : i < len.toNat) :
    (page va i).val = (page va 0).val + i := by
  induction i with
  | zero => rfl
  | succ i inductionHypothesis =>
    have before := inductionHypothesis (by omega)
    have low := contained.opens decent.tidy (opened i (by omega))
    have bounded := decent.bounded
    unfold Vpn.addr PGSIZE at low
    unfold KERNBASE at bounded
    rw [page_succ, before]
    omega

/-- An open range passes the test of its length when the process has a closed page. -/
theorem OpenRange.short {v : Vpn} (decent : Decent p) (contained : Contained p) (below : v.addr < p.sz)
    (shut : (p.pgdir.pte v).u = false) (opened : OpenRange p.pgdir va len) :
    word (len.toNat * PGSIZE) ≤ p.sz := by
  by_cases empty : len.toNat = 0
  · rw [empty, Nat.zero_mul]
    exact Nat.zero_le _
  · have last := contained.opens decent.tidy (opened (len.toNat - 1) (by omega))
    have position := OpenRange.page_val decent contained opened (i := len.toNat - 1) (by omega)
    have outside : ¬ ((page va 0).val ≤ v.val ∧ v.val < (page va 0).val + len.toNat) := by
      rintro ⟨above, under⟩
      have number := OpenRange.page_val decent contained opened (i := v.val - (page va 0).val) (by omega)
      have same : page va (v.val - (page va 0).val) = v := Fin.ext (by omega)
      have open' := (opened (v.val - (page va 0).val) (by omega)).2
      rw [same, shut] at open'
      cases open'
    have fits : len.toNat * PGSIZE ≤ p.sz := by
      unfold Vpn.addr PGSIZE at *
      omega
    exact (Nat.mod_le _ _).trans fits

/-- In a process with a closed page, a call is all or nothing exactly when there is a page-table
page wherever its check reaches. -/
theorem allOrNothing_iff {km : Kmem} {v : Vpn} (decent : Decent p) (contained : Contained p)
    (single : Single p.pgdir.refs km.store) (below : v.addr < p.sz) (shut : (p.pgdir.pte v).u = false) :
    AllOrNothing p va len km ↔
      len < 0 ∨ p.sz < word (len.toNat * PGSIZE) ∨ Supported p.pgdir va len := by
  by_cases refused : len < 0 ∨ p.sz < word (len.toNat * PGSIZE)
  · have failed : ¬ (0 ≤ len ∧ OpenRange p.pgdir va len) := by
      rintro ⟨sign, opened⟩
      have short := opened.short decent contained below shut
      omega
    have called : mencrypt p va len km = .ok (false, p, km) := if_pos refused
    refine iff_of_true ⟨false, p, km, called, ?_, ?_, fun _ => ⟨rfl, rfl⟩⟩ (or_assoc.mp (.inl refused))
    · exact iff_of_false Bool.false_ne_true failed
    · exact fun succeeded => absurd succeeded Bool.false_ne_true
  · obtain ⟨sign, short⟩ := not_or.mp refused
    rw [← or_assoc, or_iff_right refused]
    rw [not_lt] at sign short
    by_cases opened : OpenRange p.pgdir va len
    · obtain ⟨pd', km', called, done⟩ := mencrypt_open decent single sign short opened
      refine iff_of_true ⟨true, _, km', called, iff_of_true rfl ⟨sign, opened⟩, fun _ => ?_, ?_⟩ ?_
      · exact ⟨rfl, done, mencrypt_again decent sign short opened called done⟩
      · exact fun failed => absurd failed.symm Bool.false_ne_true
      · exact fun i inside _ => decent.tidy.table (opened i inside).1
    · obtain ⟨m, ⟨inside, closed⟩, first⟩ : ∃ m, (m < len.toNat ∧ ¬ p.pgdir.opens (page va m)) ∧
          ∀ j < m, p.pgdir.opens (page va j) := by
        have some : ∃ m, m < len.toNat ∧ ¬ p.pgdir.opens (page va m) := by
          by_contra none
          exact opened fun i inside => by_contra fun closed => none ⟨i, inside, closed⟩
        refine ⟨Nat.find some, Nat.find_spec some, fun j before => ?_⟩
        by_contra closed
        exact Nat.find_min some before ⟨before.trans (Nat.find_spec some).1, closed⟩
      have called := mencrypt_closed km decent sign short inside first closed
      by_cases missing : p.pgdir.tables (page va m).pdx = none
      · refine iff_of_false ?_ fun supported => supported m inside first missing
        rintro ⟨succeeded, p', km', returned, -⟩
        rw [called, if_pos missing] at returned
        cases returned
      · rw [if_neg missing] at called
        refine iff_of_true ⟨false, p, km, called, ?_, ?_, fun _ => ⟨rfl, rfl⟩⟩ ?_
        · exact iff_of_false Bool.false_ne_true fun all => opened all.2
        · exact fun succeeded => absurd succeeded Bool.false_ne_true
        · intro i before all
          rcases Nat.lt_trichotomy i m with less | rfl | more
          · exact decent.tidy.table (first i less).1
          · exact missing
          · exact absurd (all m more) closed

end Length

/-! ## Runs -/

section Runs

variable {p p' : Proc} {km km' : Kmem}

/-- A change of flags keeps a process below its size. -/
theorem Contained.retouch (contained : Contained p) (retouched : Retouches p.pgdir km p'.pgdir km')
    (size : p'.sz = p.sz) : Contained p' :=
  fun v low above => retouched.empty v (contained v low (size ▸ above))

/-- An access, or the fault that it raises, keeps a process below its size. -/
theorem access_contained {s t : System} {i va : Nat} {complete : Page → Answer × Page} {answer : Answer}
    (sound : s.Sound) (contained : ∀ p ∈ s.procs, Contained p)
    (moved : s.access .p5 i va complete = some (answer, t)) : ∀ p ∈ t.procs, Contained p := by
  obtain ⟨p, present, moved⟩ := Option.bind_eq_some_iff.mp moved
  have before := contained p (List.mem_of_getElem? present)
  intro q member
  split at moved
  · rename_i f found
    obtain ⟨-, rfl⟩ : _ = answer ∧ _ = t := by simpa using moved
    rcases List.mem_or_eq_of_mem_set member with old | rfl
    · exact contained q old
    · intro v low above
      obtain ⟨x, walked, present⟩ := Option.bind_eq_some_iff.mp found
      obtain ⟨-, rfl⟩ := PgDir.walk_some.mp walked
      have filled : (p.pgdir.pte (vpn va)).p = true := by
        by_contra absent
        simp [absent] at present
      have different : v ≠ vpn va := by
        rintro rfl
        rw [before _ low above] at filled
        cases filled
      rw [PgDir.set_pte, if_neg different]
      exact before v low above
  · obtain ⟨⟨handled, p', km'⟩, called, moved⟩ := Option.bind_eq_some_iff.mp moved
    obtain ⟨-, rfl⟩ : _ = answer ∧ s.put i p' km' = t := by simpa using moved
    rcases List.mem_or_eq_of_mem_set member with old | rfl
    · exact contained q old
    · obtain ⟨recrypted, same⟩ := decrypt_recrypts (sound.member present).tidy (toOption_some called)
      exact before.retouch recrypted.toRetouches (by rw [same])

/-- `growproc` keeps a process below its size. -/
theorem growproc_contained {n : Int} {succeeded : Bool} (decent : Decent p) (contained : Contained p)
    (result : growproc p n km = .ok (succeeded, p', km')) : Contained p' := by
  unfold growproc at result
  split at result
  · obtain ⟨⟨size, pd, rest⟩, called, result⟩ := bind_ok.mp result
    have blank : ∀ v : Vpn, v.user → p.sz ≤ v.addr → size ≤ v.addr ∨ size = 0 → pd.pte v = {} := by
      intro v low above beyond
      cases allocuvm_cases decent.tidy called with
      | tooLarge => exact contained v low above
      | smaller => exact contained v low above
      | done small ordered fills =>
        by_cases inside : v.addr < grown p.sz n
        · omega
        · rw [fills.outside v (by omega)]
          exact contained v low above
      | undone small ordered tidy exchanged entries =>
        rw [entries, PgDir.clear_pte]
        split
        · rfl
        · exact contained v low above
    have larger : size = 0 ∨ p.sz ≤ size := by
      cases allocuvm_cases decent.tidy called with
      | tooLarge => exact .inl rfl
      | smaller => exact .inr le_rfl
      | done small ordered fills => exact .inr ordered
      | undone => exact .inl rfl
    simp only [pure, Except.pure] at result
    split at result
    · rename_i zero
      obtain ⟨-, rfl, -⟩ : false = succeeded ∧ _ = p' ∧ rest = km' := by simpa using result
      exact fun v low above => blank v low above (.inr zero)
    · obtain ⟨-, rfl, -⟩ : true = succeeded ∧ _ = p' ∧ rest = km' := by simpa using result
      intro v low above
      simp only at above
      exact blank v low (by omega) (.inl above)
  · split at result
    · obtain ⟨⟨size, pd, rest⟩, called, result⟩ := bind_ok.mp result
      obtain ⟨rfl, rfl, -⟩ := deallocuvm_gives decent.tidy decent.bounded called
      have blank : ∀ v : Vpn, v.user → min p.sz (grown p.sz n) ≤ v.addr →
          (p.pgdir.clear (grown p.sz n) p.sz).pte v = {} := by
        intro v low above
        rw [PgDir.clear_pte]
        split
        · rfl
        · exact contained v low (by omega)
      simp only [pure, Except.pure] at result
      split at result
      · obtain ⟨-, rfl, -⟩ : false = succeeded ∧ _ = p' ∧ rest = km' := by simpa using result
        exact fun v low above => blank v low ((min_le_left _ _).trans above)
      · obtain ⟨-, rfl, -⟩ : true = succeeded ∧ _ = p' ∧ rest = km' := by simpa using result
        exact blank
    · obtain ⟨-, rfl, -⟩ : true = succeeded ∧ p = p' ∧ km = km' := by simpa using result
      exact contained

/-- The child of a process lies below its size. -/
theorem fork_contained {child : Proc} (decent : Decent p)
    (result : fork .p5 p km = .ok (some child, km')) : Contained child := by
  unfold fork at result
  split at result
  · simp at result
  · obtain ⟨⟨d, middle⟩, copying, result⟩ := bind_ok.mp result
    obtain ⟨rfl, -⟩ | ⟨copy, rfl, copied⟩ := copyuvm_cases decent.bounded copying
    · obtain ⟨last, -, result⟩ := bind_ok.mp result
      simp [pure, Except.pure] at result
    · obtain ⟨rfl, -⟩ : _ = child ∧ middle = km' := by simpa [pure, Except.pure] using result
      exact copied.outside

/-- Every step keeps all processes below their sizes. -/
theorem step_contained {s t : System} {label : Action × Answer} (sound : s.Sound)
    (contained : ∀ p ∈ s.procs, Contained p) (moved : System.Step .p5 s label t) :
    ∀ p ∈ t.procs, Contained p := by
  obtain ⟨action, answer⟩ := label
  obtain ⟨-, moved⟩ := moved
  cases action with
  | load i va =>
    simp only [System.step] at moved
    exact access_contained sound contained moved
  | store i va byte =>
    simp only [System.step] at moved
    exact access_contained sound contained moved
  | mencrypt i va len =>
    obtain ⟨p, present, moved⟩ := Option.bind_eq_some_iff.mp moved
    obtain ⟨⟨encrypted, p', km'⟩, called, moved⟩ := Option.bind_eq_some_iff.mp moved
    obtain ⟨-, rfl⟩ : _ = answer ∧ s.put i p' km' = t := by simpa using moved
    obtain ⟨recrypted, same⟩ := mencrypt_recrypts (sound.member present).tidy (toOption_some called)
    intro q member
    rcases List.mem_or_eq_of_mem_set member with old | rfl
    · exact contained q old
    · exact (contained p (List.mem_of_getElem? present)).retouch recrypted.toRetouches (by rw [same])
  | sbrk i n =>
    obtain ⟨p, present, moved⟩ := Option.bind_eq_some_iff.mp moved
    obtain ⟨⟨succeeded, p', km'⟩, called, moved⟩ := Option.bind_eq_some_iff.mp moved
    obtain ⟨-, rfl⟩ : _ = answer ∧ s.put i p' km' = t := by simpa using moved
    intro q member
    rcases List.mem_or_eq_of_mem_set member with old | rfl
    · exact contained q old
    · exact growproc_contained (sound.member present) (contained p (List.mem_of_getElem? present))
        (toOption_some called)
  | fork i =>
    obtain ⟨p, present, moved⟩ := Option.bind_eq_some_iff.mp moved
    obtain ⟨⟨made, km'⟩, called, moved⟩ := Option.bind_eq_some_iff.mp moved
    intro q member
    cases made with
    | none =>
      obtain ⟨-, rfl⟩ : Answer.failed = answer ∧ (⟨km', s.procs⟩ : System) = t := by simpa using moved
      exact contained q member
    | some child =>
      obtain ⟨-, rfl⟩ : Answer.done = answer ∧ (⟨km', s.procs ++ [child]⟩ : System) = t := by
        simpa using moved
      rcases List.mem_append.mp member with old | new
      · exact contained q old
      · obtain rfl := List.mem_singleton.mp new
        exact fork_contained (sound.member present) (toOption_some called)

/-- The state of a run from a sound system. -/
theorem trace_contained {s₀ s : System} {labels : List (Action × Answer)} (sound : s₀.Sound)
    (contained : ∀ p ∈ s₀.procs, Contained p) (trace : Trace (System.Step .p5) s₀ labels s) :
    s.Sound ∧ ∀ p ∈ s.procs, Contained p := by
  have kept : ∀ (state : System) (label : Action × Answer) (next : System),
      (state.Sound ∧ ∀ p ∈ state.procs, Contained p) → System.Step .p5 state label next →
      next.Sound ∧ ∀ p ∈ next.procs, Contained p := by
    intro state label next held moved
    obtain ⟨-, -, after, -⟩ := System.step_follows held.1.follows moved
    exact ⟨after, step_contained held.1 held.2 moved⟩
  have last := Trace.invariant kept ⟨sound, contained⟩ trace
  exact last

end Runs

/-! ## The result -/

/-- A successful `exec` leaves a sound system with the process below its size. In every run from
such a system, `mencrypt` in a process that still has a closed page is all or nothing if and only
if the length is refused, or there is a page-table page for each page of the range up to the
first that is not open. -/
theorem mencrypt_iff_supported {s₀ : System} (sound : s₀.Sound) (contained : ∀ p ∈ s₀.procs, Contained p) :
    (∀ i p p' image argv km', s₀.procs[i]? = some p → exec p image argv s₀.km = .ok (true, p', km') →
      (s₀.put i p' km').Sound ∧ Contained p') ∧
    ∀ labels s, Trace (System.Step .p5) s₀ labels s →
      ∀ p ∈ s.procs, (∃ v : Vpn, v.addr < p.sz ∧ (p.pgdir.pte v).u = false) → ∀ va len,
        (AllOrNothing p va len s.km ↔
          len < 0 ∨ p.sz < word (len.toNat * PGSIZE) ∨ Supported p.pgdir va len) := by
  refine ⟨fun i p p' image argv km' present called => ⟨?_, ?_⟩, fun labels s trace p member closed va len => ?_⟩
  · exact System.exec_sound .p5 sound present called
  · obtain ⟨failed, -⟩ | ⟨-, middle, building, -, -⟩ := exec_cases (sound.member present).tidy called
    · cases failed
    · exact building.outside
  · obtain ⟨sound', contained'⟩ := trace_contained sound contained trace
    obtain ⟨i, present⟩ := List.getElem?_of_mem member
    obtain ⟨v, below, shut⟩ := closed
    exact allOrNothing_iff (sound'.member present) (contained' p member) (sound'.alone present) below shut

/-- A page table whose first four megabytes are mapped, the page before the last closed to
users. -/
def fullTable : PgDir where
  root := 1
  tables i := if i = 0 then some 2 else none
  pte v := if v.val < 1024 then { p := true, w := true, u := decide (v.val ≠ 1022), ppn := 3 + v.val } else {}

theorem fullTable_pte (v : Vpn) : fullTable.pte v =
    if v.val < 1024 then { p := true, w := true, u := decide (v.val ≠ 1022), ppn := 3 + v.val } else {} := rfl

/-- A process whose stack ends at four megabytes. -/
def fullProc : Proc := ⟨fullTable, 0x400000, 2000, fun _ => NOPAGE, none⟩

/-- The process on a machine without free frames. -/
def fullSystem : System := ⟨System.onePage.km, [fullProc]⟩

theorem fullTable_refs (f : Nat) : fullTable.refs f + one 2000 f ≤ 1 := by
  have tables : ∀ i, fullTable.tables i = some f → i = 0 ∧ f = 2 := by
    intro i found
    simp only [fullTable, Option.ite_none_right_eq_some, Option.some.injEq] at found
    exact ⟨found.1, found.2.symm⟩
  have owned : ∀ v, fullTable.owned v = some f → f = 3 + v.val ∧ v.val < 1024 := by
    intro v found
    rw [PgDir.owned, fullTable_pte, Option.ite_none_right_eq_some] at found
    obtain ⟨⟨low, mapped⟩, same⟩ := found
    split at mapped
    · rename_i below
      rw [if_pos below] at same
      exact ⟨(Option.some.inj same).symm, below⟩
    · cases mapped
  have fewTables : occurrences fullTable.tables f ≤ 1 :=
    occurrences_le_one fun i j first second => (tables i first).1.trans (tables j second).1.symm
  have fewPages : occurrences fullTable.owned f ≤ 1 := occurrences_le_one fun v w first second =>
    Fin.ext (by rcases owned v first with ⟨one, -⟩; rcases owned w second with ⟨two, -⟩; omega)
  have noTable : f ≠ 2 → occurrences fullTable.tables f = 0 :=
    fun other => occurrences_absent fun i found => other (tables i found).2
  have noPage : ¬ (3 ≤ f ∧ f < 1027) → occurrences fullTable.owned f = 0 := fun other =>
    occurrences_absent fun v found => other (by rcases owned v found with ⟨same, below⟩; omega)
  unfold PgDir.refs one
  have root : fullTable.root = 1 := rfl
  grind

theorem fullProc_decent : Decent fullProc := by
  have entry : ∀ v, fullProc.pgdir.pte v = fullTable.pte v := fun _ => rfl
  refine ⟨⟨fun v missing => ?_, fun v low filled => ?_, fun v high => ?_⟩, by decide, fun v mapped => ?_,
    fun v encrypted => ?_⟩
  all_goals simp only [entry, fullTable_pte] at *
  · have outside : ¬ v.val < 1024 := by
      intro below
      have first : v.pdx = 0 := Fin.ext (by simp only [Vpn.pdx, Fin.val_zero]; omega)
      rw [first] at missing
      cases missing
    rw [if_neg outside]
  · split at filled
    · rename_i below
      rw [if_pos below]
      rfl
    · exact absurd rfl filled
  · have outside : ¬ v.val < 1024 := by
      unfold Vpn.user at high
      omega
    rw [if_neg outside]
    exact ⟨rfl, rfl⟩
  · split at mapped
    · rename_i below
      rw [if_pos below]
      exact Bool.noConfusion
    · cases mapped
  · split at encrypted
    · cases encrypted
    · cases encrypted

theorem fullSystem_sound : fullSystem.Sound := by
  refine ⟨fun f => ?_, fun p member => ?_⟩
  · have bound := fullTable_refs f
    simpa [fullSystem, fullProc, System.onePage, System.held, Proc.held, Kmem.store] using bound
  · obtain rfl := List.mem_singleton.mp member
    exact fullProc_decent

theorem fullSystem_contained : ∀ p ∈ fullSystem.procs, Contained p := by
  intro p member
  obtain rfl := List.mem_singleton.mp member
  intro v low above
  have outside : ¬ v.val < 1024 := by
    simp only [fullProc, Vpn.addr, PGSIZE] at above
    omega
  exact if_neg outside

/-- The stack page of the process is encrypted as a whole. -/
theorem mencrypt_iff_supported_stack : AllOrNothing fullProc 0x3FF000 1 fullSystem.km := by
  refine ((mencrypt_iff_supported fullSystem_sound fullSystem_contained).2 [] fullSystem (.nil _) fullProc
    (by simp [fullSystem]) ⟨1022, by decide, by decide⟩ 0x3FF000 1).mpr (.inr (.inr fun i inside _ => ?_))
  obtain rfl : i = 0 := by
    simp only [Int.toNat_one] at inside
    omega
  decide

/-- The process that asks for one page more than its stack page makes the kernel read an entry
of a page-table page that does not exist. -/
theorem mencrypt_past_stack :
    fullSystem.Sound ∧ (∀ p ∈ fullSystem.procs, Contained p) ∧ fullProc ∈ fullSystem.procs ∧
      (∀ v : Vpn, v.addr < fullProc.sz → (fullProc.pgdir.pte v).mapped = true) ∧
      (fullProc.pgdir.pte 1022).u = false ∧ 0x3FF000 < fullProc.sz ∧
      mencrypt fullProc 0x3FF000 2 fullSystem.km = .error .nullEntry ∧
      ¬ AllOrNothing fullProc 0x3FF000 2 fullSystem.km := by
  have halted : mencrypt fullProc 0x3FF000 2 fullSystem.km = .error .nullEntry := by
    refine (mencrypt_closed (m := 1) _ fullProc_decent (by decide) (by decide) (by decide) ?_ ?_).trans ?_
    · intro j before
      obtain rfl : j = 0 := by omega
      decide
    · decide
    · exact if_pos (by decide)
  refine ⟨fullSystem_sound, fullSystem_contained, List.mem_singleton.mpr rfl, fun v below => ?_, by decide,
    by decide, halted, ?_⟩
  · have inside : v.val < 1024 := by
      simp only [fullProc, Vpn.addr, PGSIZE] at below
      omega
    change (fullTable.pte v).mapped = true
    rw [fullTable_pte, if_pos inside]
    rfl
  · rintro ⟨succeeded, p', km', returned, -⟩
    rw [halted] at returned
    cases returned

end P5

end Cs537.Vm
