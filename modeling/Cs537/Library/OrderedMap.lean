import Mathlib.Data.List.Nodup

/-!
# Ordered maps as lists of entries

The entries of an ordered map have distinct keys and keep the order of their first
definition. A definition changes the entry with its key in place, or appends a new
one. The entries are of any type with a key; what a projection of the entries sees
of an update is the same update of the projected map.
-/

namespace Cs537.OrderedMap

universe u v w
variable {ε : Type u} {κ : Type v} {δ : Type w} [DecidableEq κ] {key : ε → κ}

/-- Change the entry with this key in place, or append a new one. -/
def upsert (key : ε → κ) (name : κ) (change : ε → ε) (fresh : ε) : List ε → List ε
  | [] => [fresh]
  | entry :: rest =>
    if key entry = name then change entry :: rest
    else entry :: upsert key name change fresh rest

/-- Remove the entry with this key. -/
def erase (key : ε → κ) (name : κ) (entries : List ε) : List ε :=
  entries.filter fun entry => key entry ≠ name

/-- The entry with this key. -/
def find (key : ε → κ) (name : κ) (entries : List ε) : Option ε :=
  entries.find? fun entry => key entry = name

/-- A key that is not bound is appended. -/
theorem upsert_absent {name : κ} {change : ε → ε} {fresh : ε} {entries : List ε}
    (absent : ∀ entry ∈ entries, key entry ≠ name) :
    upsert key name change fresh entries = entries ++ [fresh] := by
  induction entries with
  | nil => rfl
  | cons entry rest inductionHypothesis =>
    have later : ∀ other ∈ rest, key other ≠ name :=
      fun other member => absent other (List.mem_cons_of_mem entry member)
    rw [upsert, if_neg (absent entry List.mem_cons_self), inductionHypothesis later, List.cons_append]

/-- A key that is bound is changed in its place. -/
theorem upsert_present {name : κ} {change : ε → ε} {fresh entry : ε} {front rest : List ε}
    (absent : ∀ other ∈ front, key other ≠ name) (bound : key entry = name) :
    upsert key name change fresh (front ++ entry :: rest) = front ++ change entry :: rest := by
  induction front with
  | nil => rw [List.nil_append, upsert, if_pos bound, List.nil_append]
  | cons other more inductionHypothesis =>
    have later : ∀ other ∈ more, key other ≠ name :=
      fun x member => absent x (List.mem_cons_of_mem other member)
    rw [List.cons_append, upsert, if_neg (absent other List.mem_cons_self),
      inductionHypothesis later, List.cons_append]

/-- The entries after a definition: old ones, the changed one or the new one. -/
theorem upsert_cases {name : κ} {change : ε → ε} {fresh entry : ε} {entries : List ε}
    (member : entry ∈ upsert key name change fresh entries) :
    entry ∈ entries ∨ (∃ old ∈ entries, key old = name ∧ entry = change old) ∨ entry = fresh := by
  induction entries with
  | nil => exact .inr (.inr (List.mem_singleton.mp member))
  | cons first rest inductionHypothesis =>
    unfold upsert at member
    split at member
    · rename_i bound
      rcases List.mem_cons.mp member with same | later
      · exact .inr (.inl ⟨first, List.mem_cons_self, bound, same⟩)
      · exact .inl (List.mem_cons_of_mem first later)
    · rcases List.mem_cons.mp member with same | later
      · exact .inl (same ▸ List.mem_cons_self)
      · rcases inductionHypothesis later with old | ⟨old, inside, changed⟩ | new
        · exact .inl (List.mem_cons_of_mem first old)
        · exact .inr (.inl ⟨old, List.mem_cons_of_mem first inside, changed⟩)
        · exact .inr (.inr new)

/-- Removing a bound key from entries with distinct keys removes one entry. -/
theorem erase_present {name : κ} {entry : ε} {front rest : List ε} (bound : key entry = name)
    (distinct : ((front ++ entry :: rest).map key).Nodup) :
    erase key name (front ++ entry :: rest) = front ++ rest := by
  rw [List.map_append, List.map_cons] at distinct
  have apart := List.nodup_middle.mp distinct
  rw [List.nodup_cons, ← List.map_append, List.mem_map] at apart
  have others : ∀ other ∈ front ++ rest, key other ≠ name := by
    intro other member same
    exact apart.1 ⟨other, member, same.trans bound.symm⟩
  unfold erase
  rw [List.filter_append, List.filter_cons_of_neg (by simp [bound]), ← List.filter_append]
  exact List.filter_eq_self.mpr fun other member => by simpa using others other member

/-- Removing a key that is not bound changes nothing. -/
theorem erase_absent {name : κ} {entries : List ε} (absent : ∀ entry ∈ entries, key entry ≠ name) :
    erase key name entries = entries :=
  List.filter_eq_self.mpr fun entry member => by simpa using absent entry member

section Projection

variable {seen : ε → δ} {other : δ → κ}

/-- A projection that keeps the keys sees the same definition. -/
theorem upsert_map {name : κ} {change : ε → ε} {change' : δ → δ} {fresh : ε}
    (keys : ∀ entry, other (seen entry) = key entry)
    (changes : ∀ entry, key entry = name → seen (change entry) = change' (seen entry))
    (entries : List ε) :
    (upsert key name change fresh entries).map seen =
      upsert other name change' (seen fresh) (entries.map seen) := by
  induction entries with
  | nil => rfl
  | cons entry rest inductionHypothesis =>
    simp only [upsert, List.map_cons, keys]
    split
    · rename_i same
      rw [List.map_cons, changes entry same]
    · rw [List.map_cons, inductionHypothesis]

/-- A projection that keeps the keys sees the same removal. -/
theorem erase_map {name : κ} (keys : ∀ entry, other (seen entry) = key entry) (entries : List ε) :
    (erase key name entries).map seen = erase other name (entries.map seen) := by
  unfold erase
  rw [List.filter_map]
  simp only [Function.comp_def, keys]

end Projection

end Cs537.OrderedMap
