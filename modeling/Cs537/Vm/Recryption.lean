import Cs537.Vm.Encryption
import Cs537.Vm.Holdings

/-!
# What encryption and decryption leave as it was

Encrypting, decrypting and the clock hand change flags of entries and the bytes of
frames, never which frames a page table holds. Two relations say so. The first is
about the entries alone and holds for every call; the second adds the contents of
the pages, read through the encryption: the bytes of a page are complemented
exactly when its entry changes between clear and encrypted.
-/

namespace Cs537.Vm

open Occurrences Ledger

@[simp] theorem Page.flip_flip (page : Page) : page.flip.flip = page := by
  funext offset
  simp [Page.flip]

/-- The bytes of a page as its owner sees them. -/
def PgDir.content (pd : PgDir) (km : Kmem) (v : Vpn) : Page :=
  if (pd.pte v).e then (km.mem (pd.pte v).ppn).flip else km.mem (pd.pte v).ppn

/-- The entries keep their frames: only flags of mapped pages change, a page that is
closed to users is not encrypted, and present and encrypted stay opposites. -/
structure Retouches (pd : PgDir) (km : Kmem) (pd' : PgDir) (km' : Kmem) : Prop where
  root : pd'.root = pd.root
  tables : pd'.tables = pd.tables
  free : km'.freelist = km.freelist
  doubled : km'.doubled = km.doubled
  layout : km'.layout = km.layout
  ppn : ∀ v, (pd'.pte v).ppn = (pd.pte v).ppn
  user : ∀ v, (pd'.pte v).u = (pd.pte v).u
  mapped : ∀ v, (pd'.pte v).mapped = (pd.pte v).mapped
  empty : ∀ v, pd.pte v = {} → pd'.pte v = {}
  closed : ∀ v, (pd'.pte v).u = false → (pd'.pte v).e = true → (pd.pte v).e = true
  exclusive : ∀ v, (pd.pte v).p ≠ (pd.pte v).e → (pd'.pte v).p ≠ (pd'.pte v).e

/-- The contents of the pages stay too, as far as their frames are distinct. -/
structure Recrypts (pd : PgDir) (km : Kmem) (pd' : PgDir) (km' : Kmem) : Prop
    extends Retouches pd km pd' km' where
  contents : (∀ f, pd.refs f ≤ 1) → ∀ v : Vpn, v.user → (pd.pte v).mapped = true →
    pd'.content km' v = pd.content km v
  others : ∀ f, pd.refs f = 0 → km'.mem f = km.mem f

section

variable {pd pd' pd'' : PgDir} {km km' km'' : Kmem}

namespace Retouches

theorem refl (pd : PgDir) (km : Kmem) : Retouches pd km pd km :=
  ⟨rfl, rfl, rfl, rfl, rfl, fun _ => rfl, fun _ => rfl, fun _ => rfl, fun _ => id, fun _ _ => id,
    fun _ => id⟩

theorem trans (first : Retouches pd km pd' km') (second : Retouches pd' km' pd'' km'') :
    Retouches pd km pd'' km'' where
  root := second.root.trans first.root
  tables := second.tables.trans first.tables
  free := second.free.trans first.free
  doubled := second.doubled.trans first.doubled
  layout := second.layout.trans first.layout
  ppn v := (second.ppn v).trans (first.ppn v)
  user v := (second.user v).trans (first.user v)
  mapped v := (second.mapped v).trans (first.mapped v)
  empty v none := second.empty v (first.empty v none)
  closed v shut encrypted :=
    first.closed v ((second.user v).symm.trans shut) (second.closed v shut encrypted)
  exclusive v opposite := second.exclusive v (first.exclusive v opposite)

/-- The frames that the page table holds. -/
theorem refs (retouched : Retouches pd km pd' km') : pd'.refs = pd.refs := by
  have owned : pd'.owned = pd.owned := by
    funext v
    unfold PgDir.owned
    rw [retouched.mapped, retouched.ppn]
  unfold PgDir.refs
  rw [retouched.root, retouched.tables, owned]

/-- No frame moves. -/
theorem balances (retouched : Retouches pd km pd' km') :
    Balances pd.refs km.store pd'.refs km'.store := by
  refine ⟨fun f => ?_, fun _ => retouched.doubled, ?_⟩
  · rw [retouched.refs]
    simp only [Kmem.store, retouched.free]
  · funext f
    simp only [Kmem.store, Kmem.accepts, retouched.layout]

theorem tidy (retouched : Retouches pd km pd' km') (tidy : Tidy pd) : Tidy pd' := by
  refine ⟨fun v missing => ?_, fun v low filled => ?_, fun v high => ?_⟩
  · exact retouched.empty v (tidy.rooted v (retouched.tables ▸ missing))
  · rw [retouched.mapped]
    exact tidy.clean v low fun none => filled (retouched.empty v none)
  · obtain ⟨shut, clear⟩ := tidy.kernel v high
    have shut' : (pd'.pte v).u = false := (retouched.user v).trans shut
    refine ⟨shut', ?_⟩
    by_contra encrypted
    rw [retouched.closed v shut' (by simpa using encrypted)] at clear
    cases clear

/-- One entry is rewritten. -/
theorem entry {v : Vpn} {x : Pte} (ppn : x.ppn = (pd.pte v).ppn) (user : x.u = (pd.pte v).u)
    (mapped : x.mapped = (pd.pte v).mapped) (empty : pd.pte v = {} → x = {})
    (closed : x.u = false → x.e = true → (pd.pte v).e = true)
    (exclusive : (pd.pte v).p ≠ (pd.pte v).e → x.p ≠ x.e) (free : km'.freelist = km.freelist)
    (doubled : km'.doubled = km.doubled) (layout : km'.layout = km.layout) :
    Retouches pd km (pd.set v x) km' := by
  refine ⟨rfl, rfl, free, doubled, layout, ?_, ?_, ?_, ?_, ?_, ?_⟩
  all_goals
    intro w
    rw [PgDir.set_pte]
    split
  all_goals first
    | exact id
    | exact fun _ => id
    | rfl
    | (rename_i same; subst same; assumption)

end Retouches

namespace Recrypts

theorem refl (pd : PgDir) (km : Kmem) : Recrypts pd km pd km :=
  ⟨Retouches.refl pd km, fun _ _ _ _ => rfl, fun _ _ => rfl⟩

theorem trans (first : Recrypts pd km pd' km') (second : Recrypts pd' km' pd'' km'') :
    Recrypts pd km pd'' km'' := by
  refine ⟨first.toRetouches.trans second.toRetouches, fun single v low mapped => ?_, fun f absent => ?_⟩
  · have single' : ∀ f, pd'.refs f ≤ 1 := by
      rw [first.refs]
      exact single
    have mapped' : (pd'.pte v).mapped = true := (first.mapped v).trans mapped
    exact (second.contents single' v low mapped').trans (first.contents single v low mapped)
  · have absent' : pd'.refs f = 0 := by rw [first.refs, absent]
    exact (second.others f absent').trans (first.others f absent)

/-- Setting or clearing the accessed flag of a page. -/
theorem mark (pd : PgDir) (km : Kmem) (v : Vpn) (a : Bool) (filled : a = true → pd.pte v ≠ {}) :
    Recrypts pd km (pd.set v { pd.pte v with a := a }) km := by
  refine ⟨Retouches.entry rfl rfl rfl (fun empty => ?_) (fun _ => id) id rfl rfl rfl,
    fun _ w _ _ => ?_, fun _ _ => rfl⟩
  · cases a with
    | false => rw [empty]
    | true => exact absurd empty (filled rfl)
  · unfold PgDir.content
    rw [PgDir.set_pte]
    split
    · rename_i same
      rw [same]
    · rfl

/-- A page changes between clear and encrypted, and its bytes with it. -/
theorem flip (km : Kmem) {v : Vpn} {x : Pte} (low : v.user) (mapped : (pd.pte v).mapped = true)
    (opened : (pd.pte v).u = true) (ppn : x.ppn = (pd.pte v).ppn) (user : x.u = (pd.pte v).u)
    (opposite : x.e = !(pd.pte v).e) (exclusive : x.p = !x.e) :
    Recrypts pd km (pd.set v x) (km.complement (pd.pte v).ppn) := by
  have present : x.mapped = true := by
    unfold Pte.mapped
    rw [exclusive]
    cases x.e <;> rfl
  refine ⟨Retouches.entry ppn user ?_ ?_ ?_ ?_ rfl rfl rfl, fun single w low' mapped' => ?_, fun f absent => ?_⟩
  · rw [present, mapped]
  · intro empty
    rw [empty] at mapped
    cases mapped
  · intro shut
    rw [user, opened] at shut
    cases shut
  · intro _
    rw [exclusive]
    cases x.e <;> simp
  · unfold PgDir.content
    rw [PgDir.set_pte]
    by_cases same : w = v
    · subst same
      rw [if_pos rfl, ppn, opposite]
      simp only [Kmem.complement, Kmem.write_mem_self]
      cases (pd.pte w).e <;> simp
    · rw [if_neg same]
      have different : (pd.pte w).ppn ≠ (pd.pte v).ppn :=
        fun equal => same (refs_unique single low' mapped' low mapped equal)
      rw [Kmem.complement, km.write_mem_other _ different]
  · have different : f ≠ (pd.pte v).ppn := by
      rintro rfl
      have held := refs_pos low mapped
      omega
    exact km.write_mem_other _ different

end Recrypts

end

/-! ## Checked pages -/

/-- A page that a user may have encrypted: mapped and open to users. -/
def PgDir.opens (pd : PgDir) (v : Vpn) : Prop := (pd.pte v).mapped = true ∧ (pd.pte v).u = true

instance (pd : PgDir) (v : Vpn) : Decidable (pd.opens v) := inferInstanceAs (Decidable (_ ∧ _))

theorem Retouches.opens {pd pd' : PgDir} {km km' : Kmem} (retouched : Retouches pd km pd' km') {v : Vpn} :
    pd'.opens v ↔ pd.opens v := by
  unfold PgDir.opens
  rw [retouched.mapped, retouched.user]

/-- `uva2ka` answers for open pages only. -/
theorem uva2ka_some {ver : Version} {pd : PgDir} {uva : Nat} {f : Frame}
    (found : uva2ka ver pd uva = .ok (some f)) : pd.opens (vpn uva) ∧ f = (pd.pte (vpn uva)).ppn := by
  unfold uva2ka at found
  split at found
  · cases found
  · rename_i x walked
    obtain rfl := (PgDir.walk_some.mp walked).2
    split at found
    · simp at found
    · rename_i opened
      split at found
      · simp at found
      · simp only [Bool.or_eq_true, Bool.not_eq_true', not_or, Bool.not_eq_false] at opened
        exact ⟨opened, by simpa using found.symm⟩

/-- `uva2ka` of p6 answers for every open page. -/
theorem uva2ka_p6 {pd : PgDir} {uva : Nat} (table : pd.tables (vpn uva).pdx ≠ none) :
    uva2ka .p6 pd uva =
      .ok (if (pd.pte (vpn uva)).mapped && (pd.pte (vpn uva)).u then some (pd.pte (vpn uva)).ppn
        else none) := by
  have walked : pd.walk (vpn uva) = some (pd.pte (vpn uva)) := PgDir.walk_some.mpr ⟨table, rfl⟩
  cases mapped : (pd.pte (vpn uva)).mapped <;> cases opened : (pd.pte (vpn uva)).u <;>
    simp [uva2ka, walked, mapped, opened]

/-- The page of an address does not depend on how often the address wraps. -/
@[simp] theorem vpn_word (address : Nat) : vpn (word address) = vpn address := by
  apply Fin.ext
  unfold vpn word PGSIZE
  simp only [Fin.ofNat]
  omega

/-- An address and its rounding have the same page. -/
@[simp] theorem vpn_PGROUNDDOWN (address : Nat) : vpn (PGROUNDDOWN address) = vpn address := by
  unfold vpn PGROUNDDOWN
  rw [Nat.mul_div_cancel _ (by decide)]

/-- The pages that a running address passes. -/
theorem vpn_slide (slider j : Nat) :
    vpn (word (slider + PGSIZE) + j * PGSIZE) = vpn (slider + (j + 1) * PGSIZE) := by
  have same : word (word (slider + PGSIZE) + j * PGSIZE) = word (slider + (j + 1) * PGSIZE) := by
    unfold word PGSIZE
    omega
  rw [← vpn_word, same, vpn_word]

/-! ## p5 -/

namespace P5

/-- The encrypting loop of `mencrypt` on open pages. -/
theorem encryptPages_recrypts {addr left i : Nat} {pd pd' : PgDir} {km km' : Kmem} (tidy : Tidy pd)
    (result : encryptPages addr left i pd km = .ok (pd', km')) : Recrypts pd km pd' km' := by
  induction left generalizing i pd km with
  | zero =>
    obtain ⟨rfl, rfl⟩ : pd = pd' ∧ km = km' := by simpa [encryptPages] using result
    exact Recrypts.refl _ _
  | succ left inductionHypothesis =>
    unfold encryptPages at result
    simp only [vpn_word] at result
    split at result
    · cases result
    · rename_i x walked
      obtain rfl := (PgDir.walk_some.mp walked).2
      split at result
      · exact inductionHypothesis tidy result
      · rename_i clear
        obtain ⟨frame, found, continued⟩ := bind_ok.mp result
        cases frame with
        | none => cases continued
        | some f =>
          obtain ⟨⟨mapped, opened⟩, rfl⟩ := uva2ka_some found
          rw [vpn_word] at *
          have step := Recrypts.flip km
            (x := { pd.pte (vpn (addr + i * PGSIZE)) with e := true, p := false })
            (tidy.low opened) mapped opened rfl rfl (by simpa using clear) rfl
          exact step.trans (inductionHypothesis (step.tidy tidy) continued)

/-- `mencrypt` of p5. -/
theorem mencrypt_recrypts {p p' : Proc} {va : Nat} {len : Int} {km km' : Kmem} {encrypted : Bool}
    (tidy : Tidy p.pgdir) (result : mencrypt p va len km = .ok (encrypted, p', km')) :
    Recrypts p.pgdir km p'.pgdir km' ∧ p' = { p with pgdir := p'.pgdir } := by
  unfold mencrypt at result
  split at result
  · obtain ⟨rfl, rfl, rfl⟩ : false = encrypted ∧ p = p' ∧ km = km' := by simpa using result
    exact ⟨Recrypts.refl _ _, rfl⟩
  · obtain ⟨passed, checked, result⟩ := bind_ok.mp result
    split at result
    · obtain ⟨⟨pd, rest⟩, looped, result⟩ := bind_ok.mp result
      obtain ⟨rfl, rfl, rfl⟩ : true = encrypted ∧ { p with pgdir := pd } = p' ∧ rest = km' := by
        simpa [pure, Except.pure] using result
      exact ⟨encryptPages_recrypts tidy looped, rfl⟩
    · obtain ⟨rfl, rfl, rfl⟩ : false = encrypted ∧ p = p' ∧ km = km' := by
        simpa [pure, Except.pure] using result
      exact ⟨Recrypts.refl _ _, rfl⟩

/-- `decrypt` of p5. -/
theorem decrypt_recrypts {p p' : Proc} {uva : Nat} {km km' : Kmem} {decrypted : Bool}
    (tidy : Tidy p.pgdir) (result : decrypt p uva km = .ok (decrypted, p', km')) :
    Recrypts p.pgdir km p'.pgdir km' ∧ p' = { p with pgdir := p'.pgdir } := by
  unfold decrypt at result
  split at result
  · cases result
  · rename_i x walked
    obtain rfl := (PgDir.walk_some.mp walked).2
    split at result
    · rename_i encrypted
      obtain ⟨frame, found, continued⟩ := bind_ok.mp result
      cases frame with
      | none => cases continued
      | some f =>
        obtain ⟨rfl, rfl, rfl⟩ : true = decrypted ∧ _ = p' ∧ km.complement f = km' := by
          simpa [pure, Except.pure] using continued
        obtain ⟨⟨mapped, opened⟩, rfl⟩ := uva2ka_some found
        rw [vpn_PGROUNDDOWN] at *
        exact ⟨Recrypts.flip km (tidy.low opened) mapped opened rfl rfl (by simp [encrypted]) rfl, rfl⟩
    · obtain ⟨rfl, rfl, rfl⟩ : false = decrypted ∧ p = p' ∧ km = km' := by simpa using result
      exact ⟨Recrypts.refl _ _, rfl⟩

end P5

/-! ## p6 -/

namespace P6

/-- The checking loop of `mencrypt` passes open pages only. -/
theorem checkPages_opens {pd : PgDir} {left slider : Nat} (passed : checkPages pd left slider = .ok true)
    {j : Nat} (below : j < left) : pd.opens (vpn (slider + j * PGSIZE)) := by
  induction left generalizing slider j with
  | zero => omega
  | succ left inductionHypothesis =>
    obtain ⟨frame, found, result⟩ := bind_ok.mp passed
    cases frame with
    | none => simp [pure, Except.pure] at result
    | some f =>
      cases j with
      | zero =>
        rw [Nat.zero_mul, Nat.add_zero]
        exact (uva2ka_some found).1
      | succ j =>
        rw [← vpn_slide]
        exact inductionHypothesis result (by omega)

/-- The encrypting loop of `mencrypt` on open pages. -/
theorem encryptPages_recrypts {left slider : Nat} {pd pd' : PgDir} {km km' : Kmem} (tidy : Tidy pd)
    (opened : ∀ j, j < left → pd.opens (vpn (slider + j * PGSIZE)))
    (result : encryptPages left slider pd km = .ok (pd', km')) : Recrypts pd km pd' km' := by
  induction left generalizing slider pd km with
  | zero =>
    obtain ⟨rfl, rfl⟩ : pd = pd' ∧ km = km' := by simpa [encryptPages] using result
    exact Recrypts.refl _ _
  | succ left inductionHypothesis =>
    have later : ∀ j, j < left → pd.opens (vpn (word (slider + PGSIZE) + j * PGSIZE)) := by
      intro j below
      rw [vpn_slide]
      exact opened (j + 1) (by omega)
    unfold encryptPages at result
    split at result
    · cases result
    · rename_i x walked
      obtain rfl := (PgDir.walk_some.mp walked).2
      split at result
      · exact inductionHypothesis tidy later result
      · rename_i clear
        obtain ⟨mapped, open'⟩ := opened 0 (by omega)
        rw [Nat.zero_mul, Nat.add_zero] at mapped open'
        have step := Recrypts.flip km
          (x := { pd.pte (vpn slider) with p := false, e := true, a := false })
          (tidy.low open') mapped open' rfl rfl (by simpa using clear) rfl
        exact step.trans (inductionHypothesis (step.tidy tidy)
          (fun j below => step.opens.mpr (later j below)) result)

/-- `mencrypt` of p6. -/
theorem mencrypt_recrypts {pd pd' : PgDir} {va : Nat} {len : Int} {km km' : Kmem} {encrypted : Bool}
    (tidy : Tidy pd) (result : mencrypt pd va len km = .ok (encrypted, pd', km')) :
    Recrypts pd km pd' km' := by
  obtain ⟨passed, checked, result⟩ := bind_ok.mp result
  cases passed with
  | true =>
    obtain ⟨⟨cleared, rest⟩, looped, result⟩ := bind_ok.mp result
    obtain ⟨rfl, rfl, rfl⟩ : true = encrypted ∧ cleared = pd' ∧ rest = km' := by
      simpa [pure, Except.pure] using result
    exact encryptPages_recrypts tidy (fun j below => checkPages_opens checked below) looped
  | false =>
    obtain ⟨rfl, rfl, rfl⟩ : false = encrypted ∧ pd = pd' ∧ km = km' := by
      simpa [pure, Except.pure] using result
    exact Recrypts.refl _ _

/-- The entry of an encrypted page. -/
def sealed (x : Pte) : Pte := { x with p := false, e := true, a := false }

/-- `mencrypt` of one page that is closed to users or not mapped. -/
theorem mencrypt_closed {pd : PgDir} {va : Nat} {km : Kmem} (table : pd.tables (vpn va).pdx ≠ none)
    (closed : ¬ pd.opens (vpn va)) : mencrypt pd va 1 km = .ok (false, pd, km) := by
  have refused : ((pd.pte (vpn va)).mapped && (pd.pte (vpn va)).u) = false := by
    simpa [PgDir.opens] using closed
  have answer : uva2ka .p6 pd (PGROUNDDOWN va) = .ok none := by
    rw [uva2ka_p6 (by rwa [vpn_PGROUNDDOWN]), vpn_PGROUNDDOWN, refused]
    rfl
  simp [mencrypt, checkPages, answer, bind, Except.bind, pure, Except.pure]

/-- `mencrypt` of one open page: nothing is left to do when it is encrypted. -/
theorem mencrypt_open {pd : PgDir} {va : Nat} {km : Kmem} (table : pd.tables (vpn va).pdx ≠ none)
    (opened : pd.opens (vpn va)) :
    mencrypt pd va 1 km =
      if (pd.pte (vpn va)).e then .ok (true, pd, km)
      else .ok (true, pd.set (vpn va) (sealed (pd.pte (vpn va))),
        km.complement (pd.pte (vpn va)).ppn) := by
  have answer : uva2ka .p6 pd (PGROUNDDOWN va) = .ok (some (pd.pte (vpn va)).ppn) := by
    rw [uva2ka_p6 (by rwa [vpn_PGROUNDDOWN]), vpn_PGROUNDDOWN, opened.1, opened.2]
    rfl
  have walked : pd.walk (vpn va) = some (pd.pte (vpn va)) := PgDir.walk_some.mpr ⟨table, rfl⟩
  cases encrypted : (pd.pte (vpn va)).e <;>
    simp [mencrypt, checkPages, encryptPages, answer, walked, encrypted, sealed, bind, Except.bind, pure,
      Except.pure]

/-- The loop of `wsetinsert`. -/
theorem wsetinsertFrom_recrypts {va fuel : Nat} {p p' : Proc} {km km' : Kmem} {inserted : Bool}
    (tidy : Tidy p.pgdir) (result : wsetinsertFrom va fuel p km = .ok (inserted, p', km')) :
    Recrypts p.pgdir km p'.pgdir km' ∧ p'.sz = p.sz ∧ p'.kstack = p.kstack := by
  induction fuel generalizing p km with
  | zero => cases result
  | succ fuel inductionHypothesis =>
    unfold wsetinsertFrom at result
    simp only at result
    split at result
    · obtain ⟨rfl, rfl, rfl⟩ : true = inserted ∧ _ = p' ∧ km = km' := by simpa using result
      exact ⟨Recrypts.refl _ _, rfl, rfl⟩
    · split at result
      · cases result
      · rename_i x walked
        obtain rfl := (PgDir.walk_some.mp walked).2
        split at result
        · obtain ⟨⟨encrypted, pd, rest⟩, evicted, result⟩ := bind_ok.mp result
          have step := mencrypt_recrypts tidy evicted
          simp only [pure, Except.pure] at result
          split at result
          · obtain ⟨rfl, rfl, rfl⟩ : true = inserted ∧ _ = p' ∧ rest = km' := by simpa using result
            exact ⟨step, rfl, rfl⟩
          · obtain ⟨rfl, rfl, rfl⟩ : false = inserted ∧ _ = p' ∧ rest = km' := by simpa using result
            exact ⟨step, rfl, rfl⟩
        · have step := Recrypts.mark p.pgdir km (vpn (p.clockqueue (nextHand p.clockhand))) false
            (fun impossible => by cases impossible)
          obtain ⟨later, size, stack⟩ := inductionHypothesis (step.tidy tidy) result
          exact ⟨step.trans later, size, stack⟩

/-- `mdecrypt` fails without a change, or turns the entry and the bytes of a page
and inserts it into the queue. -/
theorem mdecrypt_cases {p p' : Proc} {va : Nat} {km km' : Kmem} {decrypted : Bool}
    (result : mdecrypt p va km = .ok (decrypted, p', km')) :
    (decrypted = false ∧ p' = p ∧ km' = km) ∨
      (va < KERNBASE ∧ p.pgdir.tables (vpn va).pdx ≠ none ∧ p.pgdir.pte (vpn va) ≠ {} ∧
        wsetinsert (PGROUNDDOWN va)
          { p with pgdir :=
              p.pgdir.set (vpn va) { p.pgdir.pte (vpn va) with e := false, p := true, a := true } }
          (km.complement (p.pgdir.pte (vpn va)).ppn) = .ok (decrypted, p', km')) := by
  unfold mdecrypt at result
  split at result
  · obtain ⟨rfl, rfl, rfl⟩ : false = decrypted ∧ p = p' ∧ km = km' := by simpa using result
    exact .inl ⟨rfl, rfl, rfl⟩
  · rename_i small
    split at result
    · obtain ⟨rfl, rfl, rfl⟩ : false = decrypted ∧ p = p' ∧ km = km' := by simpa using result
      exact .inl ⟨rfl, rfl, rfl⟩
    · rename_i x walked
      obtain ⟨table, rfl⟩ := PgDir.walk_some.mp walked
      split at result
      · obtain ⟨rfl, rfl, rfl⟩ : false = decrypted ∧ p = p' ∧ km = km' := by simpa using result
        exact .inl ⟨rfl, rfl, rfl⟩
      · rename_i filled
        exact .inr ⟨by omega, table, filled, result⟩

/-- `mdecrypt`, of any page: the entries keep their frames. -/
theorem mdecrypt_retouches {p p' : Proc} {va : Nat} {km km' : Kmem} {decrypted : Bool}
    (tidy : Tidy p.pgdir) (result : mdecrypt p va km = .ok (decrypted, p', km')) :
    Retouches p.pgdir km p'.pgdir km' := by
  obtain ⟨rfl, rfl, rfl⟩ | ⟨small, -, filled, inserted⟩ := mdecrypt_cases result
  · exact Retouches.refl _ _
  · have mapped := tidy.clean (vpn va) (vpn_user small) filled
    have step : Retouches p.pgdir km
        (p.pgdir.set (vpn va) { p.pgdir.pte (vpn va) with e := false, p := true, a := true })
        (km.complement (p.pgdir.pte (vpn va)).ppn) :=
      Retouches.entry rfl rfl (by rw [mapped]; rfl) (fun empty => absurd empty filled)
        (fun _ encrypted => by cases encrypted) (fun _ => by simp) rfl rfl rfl
    obtain ⟨later, -, -⟩ := wsetinsertFrom_recrypts (step.tidy tidy) inserted
    exact step.trans later.toRetouches

/-- `mdecrypt` of an encrypted page that is open to users. -/
theorem mdecrypt_recrypts {p p' : Proc} {va : Nat} {km km' : Kmem} {decrypted : Bool}
    (tidy : Tidy p.pgdir) (opened : p.pgdir.opens (vpn va)) (encrypted : (p.pgdir.pte (vpn va)).e = true)
    (result : mdecrypt p va km = .ok (decrypted, p', km')) :
    Recrypts p.pgdir km p'.pgdir km' ∧ p'.sz = p.sz ∧ p'.kstack = p.kstack := by
  obtain ⟨rfl, rfl, rfl⟩ | ⟨-, -, -, inserted⟩ := mdecrypt_cases result
  · exact ⟨Recrypts.refl _ _, rfl, rfl⟩
  · have step := Recrypts.flip km
      (x := { p.pgdir.pte (vpn va) with e := false, p := true, a := true })
      (tidy.low opened.2) opened.1 opened.2 rfl rfl (by simp [encrypted]) rfl
    obtain ⟨later, size, stack⟩ := wsetinsertFrom_recrypts (step.tidy tidy) inserted
    exact ⟨step.trans later, size, stack⟩

end P6

end Cs537.Vm
