import Cs537.Vm.Transparency

/-!
# Both kernels follow the reference

The invariant of a whole system, that a call of one process keeps it, and the
simulation of the reference semantics by the kernels. `exec` establishes what the
invariant asks of a process, so that the results hold from any successful `exec` on.
-/

namespace Cs537.Vm

open Occurrences Ledger Runs

namespace System

/-- The frames that belong to the processes. -/
noncomputable def held (s : System) (f : Frame) : Nat := (s.procs.map fun p => p.held f).sum

/-- Every frame has one place at most, and every process is in order. -/
structure Sound (s : System) : Prop where
  single : Single s.held s.km.store
  decent : ∀ p ∈ s.procs, Decent p

/-- The memories of the processes. -/
def memories (s : System) : List Memory := s.procs.map fun p => p.pgdir.memory s.km

variable {ver : Version} {s t : System} {i : Nat} {p p' : Proc} {km' : Kmem} {r : List Memory}
  {m m' : Memory}

/-- The frames of one process have one place at most. -/
theorem Sound.alone (sound : s.Sound) (present : s.procs[i]? = some p) :
    Single p.pgdir.refs s.km.store := by
  intro f
  have part := le_sum_map (fun p : Proc => p.held f) present
  have bound := sound.single f
  simp only [held, Proc.held] at part bound
  omega

theorem Sound.member (sound : s.Sound) (present : s.procs[i]? = some p) : Decent p :=
  sound.decent p (List.mem_of_getElem? present)

/-- A process that takes part in no call shows what it showed. -/
theorem Sound.bystander {j : Nat} {q : Proc} (sound : s.Sound) (present : s.procs[i]? = some p)
    (moves : Moves p s.km p' km') (other : s.procs[j]? = some q) (different : i ≠ j)
    (shows : q.pgdir.Shows s.km m) : q.pgdir.Shows km' m := by
  intro v low mapped
  rw [shows v low mapped]
  congr 1
  refine (content_congr rfl (moves.others _ ?_)).symm
  have mine := refs_pos low mapped
  have both := add_le_sum_map (fun p : Proc => p.held (q.pgdir.pte v).ppn) present other different
  have bound := sound.single (q.pgdir.pte v).ppn
  simp only [held, Proc.held, Kmem.store] at both bound
  omega

/-- A call of one process keeps the invariant. -/
theorem Sound.put (sound : s.Sound) (present : s.procs[i]? = some p) (moves : Moves p s.km p' km') :
    (s.put i p' km').Sound := by
  refine ⟨fun f => ?_, fun q member => ?_⟩
  · have exchanged := sum_map_set (fun p : Proc => p.held f) present p'
    have place := moves.balanced.places f
    have bound := sound.single f
    simp only [held, Proc.held, System.put, moves.kstack, Kmem.store] at exchanged bound place ⊢
    omega
  · obtain old | rfl := List.mem_or_eq_of_mem_set member
    · exact sound.decent q old
    · exact moves.decent

/-- A new process keeps the invariant. -/
theorem Sound.add (sound : s.Sound) (decent : Decent p')
    (taken : Takes (fun _ => 0) s.km.store p'.held km'.store) : (⟨km', s.procs ++ [p']⟩ : System).Sound := by
  refine ⟨fun f => ?_, fun q member => ?_⟩
  · have place := taken.places f
    have bound := sound.single f
    simp only [held, List.map_append, List.sum_append, List.map_cons, List.map_nil, List.sum_cons,
      List.sum_nil] at bound ⊢
    omega
  · obtain old | new := List.mem_append.mp member
    · exact sound.decent q old
    · exact List.mem_singleton.mp new ▸ decent

/-- A change of the free list alone keeps the invariant. -/
theorem Sound.exchange (sound : s.Sound)
    (exchanged : Exchanges (fun _ => 0) s.km.store (fun _ => 0) km'.store) :
    (⟨km', s.procs⟩ : System).Sound := by
  refine ⟨fun f => ?_, sound.decent⟩
  have place := exchanged.places f
  have bound := sound.single f
  simp only [held] at bound ⊢
  omega

/-- Processes show what they showed when no frame of theirs is free. -/
theorem Sound.keep (sound : s.Sound) (sound' : (⟨km', s.procs⟩ : System).Sound)
    (memory : ∀ f, s.km.freelist.count f = 0 → km'.freelist.count f = 0 → km'.mem f = s.km.mem f)
    (present : s.procs[i]? = some p) (shows : p.pgdir.Shows s.km m) : p.pgdir.Shows km' m := by
  intro v low mapped
  rw [shows v low mapped]
  congr 1
  refine (content_congr rfl (memory _ ?_ ?_)).symm
  · exact mapped_not_free (sound.alone present) low mapped
  · exact mapped_not_free (Sound.alone (s := ⟨km', s.procs⟩) sound' present) low mapped

/-- The kernel's state and the reference's state belong together. -/
def Follows (s : System) (r : List Memory) : Prop := s.Sound ∧ s.Agrees r

/-- Each process has a reference memory, which it shows. -/
theorem Follows.get (follows : s.Follows r) (present : s.procs[i]? = some p) :
    ∃ m, r[i]? = some m ∧ p.pgdir.Shows s.km m := by
  obtain ⟨-, length, shows⟩ := follows
  obtain ⟨inside, -⟩ := List.getElem?_eq_some_iff.mp present
  have found : r[i]? = some r[i] := List.getElem?_eq_getElem (by omega)
  exact ⟨_, found, shows i p _ present found⟩

/-- A call of one process, and the step of its reference memory. -/
theorem Follows.put (follows : s.Follows r) (present : s.procs[i]? = some p)
    (moves : Moves p s.km p' km') (shows : p'.pgdir.Shows km' m') :
    (s.put i p' km').Follows (r.set i m') := by
  obtain ⟨sound, length, others⟩ := follows
  refine ⟨sound.put present moves, ?_, fun j q n found kept => ?_⟩
  · simp only [System.put, List.length_set, length]
  · by_cases same : i = j
    · subst same
      obtain ⟨inside, -⟩ := List.getElem?_eq_some_iff.mp present
      obtain rfl : p' = q := by simpa [System.put, inside] using found
      obtain rfl : m' = n := by simpa [← length, inside] using kept
      exact shows
    · rw [System.put, List.getElem?_set_ne same] at found
      rw [List.getElem?_set_ne same] at kept
      exact sound.bystander present moves found same (others j q n found kept)

/-- Assigning an element to itself. -/
theorem set_same {α : Type} {items : List α} {item : α} (present : items[i]? = some item) :
    items.set i item = items := by
  obtain ⟨inside, rfl⟩ := List.getElem?_eq_some_iff.mp present
  exact List.set_getElem_self inside

/-- A call that the process cannot see. -/
theorem Follows.hidden (follows : s.Follows r) (present : s.procs[i]? = some p) (kept : r[i]? = some m)
    (moves : Moves p s.km p' km') (shows : p'.pgdir.Shows km' m) : (s.put i p' km').Follows r := by
  have after := follows.put present moves shows
  rwa [set_same kept] at after

/-- One attempt to access an address: it completes on the bytes of the reference, or
faults and changes nothing that the process can see. -/
theorem access_follows {va : Nat} {complete : Page → Answer × Page} {answer : Answer}
    (follows : s.Follows r) (permitted : ∀ p, s.procs[i]? = some p → p.pgdir.opens (vpn va))
    (moved : s.access ver i va complete = some (answer, t)) :
    (∃ m page, r[i]? = some m ∧ m (vpn va) = some page ∧ answer = (complete page).1 ∧
      t.Follows (r.set i (Function.update m (vpn va) (some (complete page).2)))) ∨
    (answer = .fault ∧ t.Follows r) := by
  obtain ⟨p, present, moved⟩ := Option.bind_eq_some_iff.mp moved
  obtain ⟨m, kept, shows⟩ := follows.get present
  have decent := follows.1.member present
  have single := follows.1.alone present
  split at moved
  · rename_i f found
    obtain ⟨rfl, rfl⟩ : (complete (s.km.mem f)).1 = answer ∧ _ = t := by simpa using moved
    obtain ⟨mapped, moves, after⟩ :=
      access_moves decent single shows found (complete (s.km.mem f)).2
    exact .inl ⟨m, s.km.mem f, kept, mapped, rfl, follows.put present moves after⟩
  · rename_i missing
    obtain ⟨⟨handled, p', km'⟩, called, moved⟩ := Option.bind_eq_some_iff.mp moved
    obtain ⟨rfl, rfl⟩ : Answer.fault = answer ∧ s.put i p' km' = t := by simpa using moved
    obtain ⟨moves, after⟩ := handleFault_moves decent single shows (permitted p present) missing
      (toOption_some called)
    exact .inr ⟨rfl, follows.hidden present kept moves after⟩

/-- `sbrk` follows the reference. -/
theorem sbrk_follows {n : Int} {answer : Answer} (follows : s.Follows r)
    (moved : s.step ver (.sbrk i n) = some (answer, t)) :
    ∃ r', Reference.Step r (.sbrk i n, answer) r' ∧ t.Follows r' := by
  obtain ⟨p, present, moved⟩ := Option.bind_eq_some_iff.mp moved
  obtain ⟨⟨succeeded, p', km'⟩, called, moved⟩ := Option.bind_eq_some_iff.mp moved
  obtain ⟨-, rfl⟩ : _ = answer ∧ s.put i p' km' = t := by simpa using moved
  obtain ⟨m, kept, shows⟩ := follows.get present
  have decent := follows.1.member present
  have single := follows.1.alone present
  obtain ⟨moves, m', resized, after⟩ :
      Moves p s.km p' km' ∧ ∃ m', Resized n m m' ∧ p'.pgdir.Shows km' m' := by
    cases ver with
    | p5 => exact P5.growproc_moves decent single shows (toOption_some called)
    | p6 => exact P6.growproc_moves decent single shows (toOption_some called)
  cases resized with
  | kept => exact ⟨r, .sbrkKept, follows.hidden present kept moves after⟩
  | filled growing length => exact ⟨_, .sbrkFilled kept growing length, follows.put present moves after⟩
  | removed length => exact ⟨_, .sbrkRemoved kept length, follows.put present moves after⟩

/-- `fork` follows the reference. -/
theorem fork_follows {answer : Answer} (follows : s.Follows r)
    (moved : s.step ver (.fork i) = some (answer, t)) :
    ∃ r', Reference.Step r (.fork i, answer) r' ∧ t.Follows r' := by
  obtain ⟨p, present, moved⟩ := Option.bind_eq_some_iff.mp moved
  obtain ⟨⟨made, km'⟩, called, moved⟩ := Option.bind_eq_some_iff.mp moved
  obtain ⟨m, kept, shows⟩ := follows.get present
  obtain ⟨sound, length, agrees⟩ := follows
  obtain ⟨rfl, exchanged⟩ | ⟨child, rfl, decent, visible, taken⟩ :=
    fork_cases (sound.member present) (sound.alone present) shows (toOption_some called)
  · obtain ⟨rfl, rfl⟩ : Answer.failed = answer ∧ (⟨km', s.procs⟩ : System) = t := by simpa using moved
    have sound' := sound.exchange exchanged
    exact ⟨r, .forkFailed, sound', length, fun j q n found here =>
      sound.keep sound' exchanged.memory found (agrees j q n found here)⟩
  · obtain ⟨rfl, rfl⟩ : Answer.done = answer ∧ (⟨km', s.procs ++ [child]⟩ : System) = t := by
      simpa using moved
    refine ⟨r ++ [m], .fork kept, sound.add decent taken, by simp [length], fun j q n found here => ?_⟩
    by_cases old : j < s.procs.length
    · rw [List.getElem?_append_left old] at found
      rw [List.getElem?_append_left (length ▸ old)] at here
      have before := agrees j q n found here
      intro v low mapped
      rw [before v low mapped]
      congr 1
      exact (content_congr rfl (taken.memory _
        (mapped_not_free (sound.alone found) low mapped))).symm
    · have last : j = s.procs.length := by
        obtain ⟨inside, -⟩ := List.getElem?_eq_some_iff.mp found
        simp only [List.length_append, List.length_singleton] at inside
        omega
      subst last
      obtain rfl : child = q := by simpa using found
      obtain rfl : m = n := by simpa [length] using here
      exact visible

/-- Every step of a kernel is a step of the reference with the same label. -/
theorem step_follows {label : Action × Answer} (follows : s.Follows r) (moved : Step ver s label t) :
    ∃ r', Reference.Step r label r' ∧ t.Follows r' := by
  obtain ⟨action, answer⟩ := label
  obtain ⟨permitted, moved⟩ := moved
  cases action with
  | load i va =>
    simp only [step] at moved
    obtain ⟨m, page, kept, mapped, rfl, after⟩ | ⟨rfl, after⟩ := access_follows follows permitted moved
    · rw [← mapped, Function.update_eq_self, set_same kept] at after
      exact ⟨r, .load kept mapped, after⟩
    · exact ⟨r, .loadFault, after⟩
  | store i va byte =>
    simp only [step] at moved
    obtain ⟨m, page, kept, mapped, rfl, after⟩ | ⟨rfl, after⟩ := access_follows follows permitted moved
    · exact ⟨_, .store kept mapped, after⟩
    · exact ⟨r, .storeFault, after⟩
  | mencrypt i va len =>
    cases ver with
    | p5 =>
      obtain ⟨p, present, moved⟩ := Option.bind_eq_some_iff.mp moved
      obtain ⟨⟨encrypted, p', km'⟩, called, moved⟩ := Option.bind_eq_some_iff.mp moved
      obtain ⟨-, rfl⟩ : _ = answer ∧ s.put i p' km' = t := by simpa using moved
      obtain ⟨m, kept, shows⟩ := follows.get present
      have decent := follows.1.member present
      obtain ⟨recrypted, same⟩ := P5.mencrypt_recrypts decent.tidy (toOption_some called)
      have moves := Moves.recrypt decent recrypted (by rw [same]) (by rw [same])
      exact ⟨r, .mencrypt, follows.hidden present kept moves
        (shows.recrypt (follows.1.alone present) recrypted)⟩
    | p6 => cases moved
  | sbrk i n => exact sbrk_follows follows moved
  | fork i => exact fork_follows follows moved

/-- At the start each process has its own memory. -/
theorem Sound.follows (sound : s.Sound) : s.Follows s.memories := by
  refine ⟨sound, by simp [memories], fun i p m present found => ?_⟩
  obtain rfl : p.pgdir.memory s.km = m := by simpa [memories, present] using found
  intro v low mapped
  exact if_pos ⟨low, mapped⟩

/-! ## After `exec` -/

/-- A page table whose frames were taken for an image, after the old image was freed. -/
theorem exec_single {p p' : Proc} {km middle km' : Kmem} (kstack : p'.kstack = p.kstack)
    (taken : Takes (fun _ => 0) km.store p'.pgdir.refs middle.store)
    (given : Gives p.pgdir.refs middle.store (fun _ => 0) km'.store) :
    Exchanges p.held km.store p'.held km'.store := by
  have first : Takes p.held km.store (fun f => p.held f + p'.pgdir.refs f) middle.store :=
    taken.recount fun f => by omega
  refine first.exchange (given.recount (fun f => ?_) (fun f => ?_)).exchanges
  · simp only [Proc.held]
    omega
  · simp only [Proc.held, kstack]
    omega

/-- A successful `exec` of either kernel keeps the invariant: the new image of the
process is in order, and every frame has one place. -/
theorem exec_sound (ver : Version) {image : Image} {argv : List (List (BitVec 8))} {succeeded : Bool}
    (sound : s.Sound) (present : s.procs[i]? = some p)
    (result : ver.exec p image argv s.km = .ok (succeeded, p', km')) : (s.put i p' km').Sound := by
  have decent := sound.member present
  have summary : Exchanges p.held s.km.store p'.held km'.store ∧ Decent p' := by
    cases ver with
    | p5 =>
      obtain ⟨-, rfl, exchanged⟩ | ⟨-, middle, building, given, same⟩ :=
        P5.exec_cases decent.tidy result
      · exact ⟨exchanged.recount (fun _ => Nat.zero_le _) fun _ => rfl, decent⟩
      · refine ⟨exec_single (by rw [same]) building.takes given, building.tidy, building.bounded,
          fun v mapped => ?_, fun v encrypted => ?_⟩
        all_goals
          by_cases low : v.user
          rotate_left
        · exact building.tidy.kernel_exclusive low mapped
        · by_cases below : v.addr < p'.sz
          · rw [(building.inside v below).1, (building.inside v below).2]
            decide
          · rw [building.outside v low (by omega)] at mapped
            cases mapped
        · rw [(building.tidy.kernel v low).2] at encrypted
          cases encrypted
        · by_cases below : v.addr < p'.sz
          · rw [(building.inside v below).2] at encrypted
            cases encrypted
          · rw [building.outside v low (by omega)] at encrypted
            cases encrypted
    | p6 =>
      obtain ⟨-, rfl, exchanged⟩ | ⟨-, middle, launched, given, same⟩ :=
        P6.exec_cases decent.tidy result
      · exact ⟨exchanged.recount (fun _ => Nat.zero_le _) fun _ => rfl, decent⟩
      · refine ⟨exec_single (by rw [same]; rfl) launched.takes given, launched.tidy, launched.bounded,
          fun v mapped => ?_, fun v encrypted => ?_⟩
        all_goals
          by_cases low : v.user
          rotate_left
        · exact launched.tidy.kernel_exclusive low mapped
        · by_cases below : v.addr < p'.sz
          · rw [(launched.inside v below).1, (launched.inside v below).2]
            cases (p'.pgdir.pte v).u <;> decide
          · rw [launched.outside v low (by omega)] at mapped
            cases mapped
        · rw [(launched.tidy.kernel v low).2] at encrypted
          cases encrypted
        · by_cases below : v.addr < p'.sz
          · rwa [(launched.inside v below).1] at encrypted
          · rw [launched.outside v low (by omega)] at encrypted
            cases encrypted
  refine ⟨fun f => ?_, fun q member => ?_⟩
  · have exchanged := sum_map_set (fun p : Proc => p.held f) present p'
    have place := summary.1.places f
    have bound := sound.single f
    simp only [held, System.put, Kmem.store] at exchanged bound place ⊢
    omega
  · obtain old | rfl := List.mem_or_eq_of_mem_set member
    · exact sound.decent q old
    · exact summary.2

/-- What was performed is a trace. -/
theorem perform_trace {actions : List Action} {labels : List (Action × Answer)}
    (performed : s.perform ver actions = some (labels, t)) : Trace (Step ver) s labels t := by
  induction actions generalizing s labels with
  | nil =>
    obtain ⟨rfl, rfl⟩ : [] = labels ∧ s = t := by simpa [perform] using performed
    exact .nil s
  | cons action rest inductionHypothesis =>
    unfold perform at performed
    split at performed
    · rename_i permitted
      obtain ⟨⟨answer, next⟩, moved, performed⟩ := Option.bind_eq_some_iff.mp performed
      obtain ⟨⟨later, last⟩, remaining, performed⟩ := Option.bind_eq_some_iff.mp performed
      obtain ⟨rfl, rfl⟩ : (action, answer) :: later = labels ∧ last = t := by simpa using performed
      exact .cons ⟨permitted, moved⟩ (inductionHypothesis remaining)
    · cases performed

/-! ## The results -/

/-- Every trace of a kernel is a trace of the reference. -/
theorem trace_follows {labels : List (Action × Answer)} (follows : s.Follows r)
    (trace : Trace (Step ver) s labels t) : ∃ r', Trace Reference.Step r labels r' ∧ t.Follows r' := by
  refine Trace.simulate ?_ follows trace
  intro state other label next related moved
  exact step_follows related moved

/-- A page table whose first page is encrypted. -/
def sealedPage : PgDir :=
  (PgDir.addTable ⟨1, fun _ => none, fun _ => {}⟩ 0 2).set 0 { w := true, u := true, e := true, ppn := 3 }

theorem sealedPage_refs (f : Frame) : sealedPage.refs f = one 1 f + one 2 f + one 3 f := by
  have low : Vpn.user 0 := by decide
  unfold sealedPage
  rw [Tidy.refs_map low rfl rfl, (tidy_blank 1).refs_addTable rfl, refs_blank]

theorem sealedPage_decent (queue : Fin 8 → Nat) (hand : Option (Fin 8)) :
    Decent ⟨sealedPage, 4096, 4, queue, hand⟩ := by
  have low : Vpn.user 0 := by decide
  have blank : Tidy (PgDir.addTable ⟨1, fun _ => none, fun _ => {}⟩ 0 2) := (tidy_blank 1).addTable rfl 2
  have entry : ∀ v, sealedPage.pte v =
      if v = 0 then { w := true, u := true, e := true, ppn := 3 } else {} := by
    intro v
    rw [sealedPage, PgDir.set_pte, (tidy_blank 1).addTable_pte rfl]
  refine ⟨blank.set (by simp [PgDir.addTable, Vpn.pdx]) (fun _ _ => rfl) (fun high => absurd low high),
    (by decide : 4096 ≤ KERNBASE), fun v mapped => ?_, fun v encrypted => ?_⟩
  all_goals
    by_cases first : v = 0
    all_goals simp only [entry, first, if_true, if_false] at *
  · decide
  · cases mapped
  · cases encrypted

/-- A process of one page, which is encrypted, on a machine without free frames. -/
def onePage : System where
  km := {
    freelist := []
    mem := fun _ _ => 0
    refusals := []
    layout := .small
    doubled := false }
  procs := [⟨sealedPage, 4096, 4, fun _ => NOPAGE, none⟩]

theorem onePage_sound : onePage.Sound := by
  refine ⟨fun f => ?_, fun p member => ?_⟩
  · simp only [onePage, held, Proc.held, sealedPage_refs, List.map_cons, List.map_nil, List.sum_cons,
      List.sum_nil, Kmem.store, List.count_nil, one]
    grind
  · obtain rfl := List.mem_singleton.mp member
    exact sealedPage_decent _ _

end System

end Cs537.Vm
