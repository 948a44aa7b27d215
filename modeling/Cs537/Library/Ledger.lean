import Mathlib.Logic.Function.Basic
import Cs537.Library.Occurrences

/-!
# Keys that are either free or held

A store has a list of free keys and a value for each key. A transaction moves keys
between the free list and its holdings, which count how often each key is held.
Every key keeps its total: what the free list loses, the holdings gain. A
transaction that first takes keys and then gives keys back changes no value of a
key that is free neither before nor after it, so that keys held by others are safe.

The flag of a store records whether a key was ever given back while it was free.
It cannot be raised while every key has one place at most. Which keys the store
accepts is fixed.
-/

namespace Cs537.Ledger

open Occurrences

variable {κ β : Type*} [DecidableEq κ]

/-- The free keys, the value of each key, whether a free key was given back, and the
keys that may be given back. -/
structure Store (κ β : Type*) where
  free : List κ
  memory : κ → β
  doubled : Bool
  accepts : κ → Bool

/-- A transaction that only takes keys. -/
structure Takes (held : κ → Nat) (s : Store κ β) (held' : κ → Nat) (s' : Store κ β) : Prop where
  places : ∀ key, s'.free.count key + held' key = s.free.count key + held key
  shrinks : ∀ key, s'.free.count key ≤ s.free.count key
  memory : ∀ key, s.free.count key = 0 → s'.memory key = s.memory key
  doubled : s'.doubled = s.doubled
  accepts : s'.accepts = s.accepts

/-- Each key has one place at most. -/
def Single (held : κ → Nat) (s : Store κ β) : Prop := ∀ key, s.free.count key + held key ≤ 1

/-- A transaction that only gives keys back. -/
structure Gives (held : κ → Nat) (s : Store κ β) (held' : κ → Nat) (s' : Store κ β) : Prop where
  places : ∀ key, s'.free.count key + held' key = s.free.count key + held key
  grows : ∀ key, s.free.count key ≤ s'.free.count key
  memory : ∀ key, s'.free.count key = 0 → s'.memory key = s.memory key
  doubled : Single held s → s'.doubled = s.doubled
  accepts : s'.accepts = s.accepts

/-- A transaction that loses no key and gives none back twice. -/
structure Balances (held : κ → Nat) (s : Store κ β) (held' : κ → Nat) (s' : Store κ β) : Prop where
  places : ∀ key, s'.free.count key + held' key = s.free.count key + held key
  doubled : Single held s → s'.doubled = s.doubled
  accepts : s'.accepts = s.accepts

/-- A transaction that takes keys and then gives keys back. -/
structure Exchanges (held : κ → Nat) (s : Store κ β) (held' : κ → Nat) (s' : Store κ β) : Prop
    extends Balances held s held' s' where
  memory : ∀ key, s.free.count key = 0 → s'.free.count key = 0 → s'.memory key = s.memory key

variable {held held' held'' other : κ → Nat} {s s' s'' : Store κ β}

/-! ## Taking -/

theorem Takes.refl (held : κ → Nat) (s : Store κ β) : Takes held s held s :=
  ⟨fun _ => rfl, fun _ => le_rfl, fun _ _ => rfl, rfl, rfl⟩

/-- The first free key is taken, and its value may be overwritten. -/
theorem Takes.first {key : κ} {rest : List κ} (free : s.free = key :: rest) (held : κ → Nat)
    {memory : κ → β} (others : ∀ other, other ≠ key → memory other = s.memory other) :
    Takes held s (fun other => held other + one key other) ⟨rest, memory, s.doubled, s.accepts⟩ := by
  refine ⟨fun other => ?_, fun other => ?_, fun other absent => ?_, rfl, rfl⟩
  · simp only [free, List.count_cons, one, beq_iff_eq]
    omega
  · simp only [free, List.count_cons]
    omega
  · apply others
    rintro rfl
    simp [free] at absent

theorem Takes.trans (first : Takes held s held' s') (second : Takes held' s' held'' s'') :
    Takes held s held'' s'' := by
  refine ⟨fun key => ?_, fun key => ?_, fun key absent => ?_, second.doubled.trans first.doubled,
    second.accepts.trans first.accepts⟩
  · exact (second.places key).trans (first.places key)
  · exact (second.shrinks key).trans (first.shrinks key)
  · have gone : s'.free.count key = 0 := Nat.le_zero.mp (absent ▸ first.shrinks key)
    exact (second.memory key gone).trans (first.memory key absent)

/-- Holdings that take no part may be added. -/
theorem Takes.frame (taken : Takes held s held' s') (other : κ → Nat) :
    Takes (fun key => held key + other key) s (fun key => held' key + other key) s' := by
  refine ⟨fun key => ?_, taken.shrinks, taken.memory, taken.doubled, taken.accepts⟩
  have place := taken.places key
  omega

/-- The same transaction with its holdings counted in another way. -/
theorem Takes.recount {count count' : κ → Nat} (taken : Takes held s held' s')
    (balance : ∀ key, count' key + held key = count key + held' key) : Takes count s count' s' := by
  refine ⟨fun key => ?_, taken.shrinks, taken.memory, taken.doubled, taken.accepts⟩
  have place := taken.places key
  have same := balance key
  omega

/-- A free key that occurs once is not free after it was taken. -/
theorem Takes.single (taken : Takes held s held' s') (unique : Single held s) : Single held' s' := by
  intro key
  have place := taken.places key
  have bound := unique key
  omega

/-- What was taken may be overwritten. -/
theorem Takes.write {key : κ} {memory : κ → β} (taken : Takes (fun _ => 0) s held' s')
    (mine : 1 ≤ held' key) (others : ∀ other, other ≠ key → memory other = s'.memory other) :
    Takes (fun _ => 0) s held' ⟨s'.free, memory, s'.doubled, s'.accepts⟩ := by
  refine ⟨taken.places, taken.shrinks, fun other absent => ?_, taken.doubled, taken.accepts⟩
  have different : other ≠ key := by
    rintro rfl
    have place := taken.places other
    omega
  exact (others other different).trans (taken.memory other absent)

/-! ## Giving -/

theorem Gives.refl (held : κ → Nat) (s : Store κ β) : Gives held s held s :=
  ⟨fun _ => rfl, fun _ => le_rfl, fun _ _ => rfl, fun _ => rfl, rfl⟩

/-- A held key is put on the free list. -/
theorem Gives.first (key : κ) (held : κ → Nat) (s : Store κ β) {memory : κ → β}
    (others : ∀ other, other ≠ key → memory other = s.memory other) :
    Gives (fun other => held other + one key other) s held
      ⟨key :: s.free, memory, s.doubled || s.free.contains key, s.accepts⟩ := by
  refine ⟨fun other => ?_, fun other => ?_, fun other absent => ?_, fun unique => ?_, rfl⟩
  · simp only [List.count_cons, one, beq_iff_eq]
    omega
  · simp only [List.count_cons]
    omega
  · apply others
    rintro rfl
    simp at absent
  · have place := unique key
    simp only [one_self] at place
    have absent : s.free.count key = 0 := by omega
    simp [List.count_eq_zero.mp absent]

theorem Gives.single (given : Gives held s held' s') (unique : Single held s) : Single held' s' :=
  fun key => (given.places key).trans_le (unique key)

theorem Gives.trans (first : Gives held s held' s') (second : Gives held' s' held'' s'') :
    Gives held s held'' s'' := by
  refine ⟨fun key => ?_, fun key => ?_, fun key absent => ?_, fun unique => ?_,
    second.accepts.trans first.accepts⟩
  · exact (second.places key).trans (first.places key)
  · exact (first.grows key).trans (second.grows key)
  · have before : s'.free.count key = 0 := Nat.le_zero.mp (absent ▸ second.grows key)
    exact (second.memory key absent).trans (first.memory key before)
  · exact (second.doubled (first.single unique)).trans (first.doubled unique)

/-- The same transaction among more holdings, counted in another way. -/
theorem Gives.recount {count count' : κ → Nat} (given : Gives held s held' s')
    (more : ∀ key, held key ≤ count key)
    (balance : ∀ key, count' key + held key = count key + held' key) : Gives count s count' s' := by
  refine ⟨fun key => ?_, given.grows, given.memory, fun unique => given.doubled fun key => ?_,
    given.accepts⟩
  · have place := given.places key
    have same := balance key
    omega
  · have bound := unique key
    have rest := more key
    omega

/-! ## Both -/

theorem Takes.exchanges (taken : Takes held s held' s') : Exchanges held s held' s' :=
  ⟨⟨taken.places, fun _ => taken.doubled, taken.accepts⟩, fun key absent _ => taken.memory key absent⟩

theorem Gives.exchanges (given : Gives held s held' s') : Exchanges held s held' s' :=
  ⟨⟨given.places, given.doubled, given.accepts⟩, fun key _ absent => given.memory key absent⟩

theorem Balances.single (balanced : Balances held s held' s') (unique : Single held s) :
    Single held' s' :=
  fun key => (balanced.places key).trans_le (unique key)

/-- The same transaction among more holdings, counted in another way. -/
theorem Balances.recount {count count' : κ → Nat} (balanced : Balances held s held' s')
    (more : ∀ key, held key ≤ count key)
    (balance : ∀ key, count' key + held key = count key + held' key) :
    Balances count s count' s' := by
  refine ⟨fun key => ?_, fun unique => balanced.doubled fun key => ?_, balanced.accepts⟩
  · have place := balanced.places key
    have same := balance key
    omega
  · have bound := unique key
    have rest := more key
    omega

/-- Keys may be taken before an exchange. -/
theorem Takes.exchange (first : Takes held s held' s') (second : Exchanges held' s' held'' s'') :
    Exchanges held s held'' s'' := by
  refine ⟨⟨fun key => ?_, fun unique => ?_, second.accepts.trans first.accepts⟩,
    fun key absent later => ?_⟩
  · exact (second.places key).trans (first.places key)
  · exact (second.doubled (first.single unique)).trans first.doubled
  · have gone : s'.free.count key = 0 := Nat.le_zero.mp (absent ▸ first.shrinks key)
    exact (second.memory key gone later).trans (first.memory key absent)

/-- Keys may be given back after an exchange. -/
theorem Exchanges.gives (first : Exchanges held s held' s') (second : Gives held' s' held'' s'') :
    Exchanges held s held'' s'' := by
  refine ⟨⟨fun key => ?_, fun unique => ?_, second.accepts.trans first.accepts⟩,
    fun key absent later => ?_⟩
  · exact (second.places key).trans (first.places key)
  · exact (second.doubled (first.single unique)).trans (first.doubled unique)
  · have before : s'.free.count key = 0 := Nat.le_zero.mp (later ▸ second.grows key)
    exact (second.memory key later).trans (first.memory key absent before)

/-- The same exchange among more holdings, counted in another way. -/
theorem Exchanges.recount {count count' : κ → Nat} (exchanged : Exchanges held s held' s')
    (more : ∀ key, held key ≤ count key)
    (balance : ∀ key, count' key + held key = count key + held' key) :
    Exchanges count s count' s' :=
  ⟨exchanged.toBalances.recount more balance, exchanged.memory⟩

end Cs537.Ledger
