import Mathlib.Logic.Function.Basic
import Mathlib.Data.List.Basic

/-!
# Stores, writes and redo logs

A store maps keys to values. A list of writes is carried out in order, and an
interruption leaves a store in which only a first part of the list has been
carried out. What makes repeating a list of writes harmless is that every key
that a first part has touched is written again.

A redo log keeps in the store itself a list of writes that are still to be
carried out. The rules below are what it is for: a repair may be interrupted
anywhere and started again, and a list of writes that goes through the log takes
effect as a whole or not at all.

Edits are writes that depend on the value they replace. They describe the
changes of a store when only some of them survive.
-/

namespace Cs537.Journal

universe u v w
variable {κ : Type u} {ν : Type v} [DecidableEq κ]

/-- The store after the writes, in order. -/
def carryOut (store : κ → ν) : List (κ × ν) → κ → ν
  | [] => store
  | write :: rest => carryOut (Function.update store write.1 write.2) rest

@[simp] theorem carryOut_nil (store : κ → ν) : carryOut store [] = store := rfl

@[simp] theorem carryOut_cons (store : κ → ν) (write : κ × ν) (rest : List (κ × ν)) :
    carryOut store (write :: rest) = carryOut (Function.update store write.1 write.2) rest := rfl

theorem carryOut_append (store : κ → ν) (first second : List (κ × ν)) :
    carryOut store (first ++ second) = carryOut (carryOut store first) second := by
  induction first generalizing store with
  | nil => rfl
  | cons write rest inductionHypothesis => exact inductionHypothesis _

/-- A key that no write names keeps its value. -/
theorem carryOut_absent {store : κ → ν} {writes : List (κ × ν)} {key : κ}
    (absent : key ∉ writes.map Prod.fst) : carryOut store writes key = store key := by
  induction writes generalizing store with
  | nil => rfl
  | cons write rest inductionHypothesis =>
    rw [List.map_cons, List.mem_cons, not_or] at absent
    rw [carryOut_cons, inductionHypothesis absent.2, Function.update_of_ne absent.1]

/-- The value of a key depends on the store before the writes only where no write names it. -/
theorem carryOut_congr {one two : κ → ν} {writes : List (κ × ν)} {key : κ}
    (agree : key ∉ writes.map Prod.fst → one key = two key) :
    carryOut one writes key = carryOut two writes key := by
  induction writes generalizing one two with
  | nil => exact agree List.not_mem_nil
  | cons write rest inductionHypothesis =>
    refine inductionHypothesis fun absent => ?_
    by_cases same : key = write.1
    · rw [same, Function.update_self, Function.update_self]
    · rw [Function.update_of_ne same, Function.update_of_ne same]
      apply agree
      rw [List.map_cons, List.mem_cons, not_or]
      exact ⟨same, absent⟩

/-- Writing a first part before the whole list makes no difference. -/
theorem carryOut_again {store : κ → ν} {part whole : List (κ × ν)} (first : part <+: whole) :
    carryOut (carryOut store part) whole = carryOut store whole := by
  funext key
  apply carryOut_congr
  intro absent
  apply carryOut_absent
  exact fun present => absent ((first.map Prod.fst).subset present)

/-- The value that a write gives to a key that is written once. -/
theorem carryOut_once {store : κ → ν} {writes : List (κ × ν)} {key : κ} {value : ν}
    (listed : (key, value) ∈ writes) (once : (writes.map Prod.fst).Nodup) :
    carryOut store writes key = value := by
  induction writes generalizing store with
  | nil => exact absurd listed List.not_mem_nil
  | cons write rest inductionHypothesis =>
    rw [List.map_cons, List.nodup_cons] at once
    rcases List.mem_cons.mp listed with here | later
    · subst here
      rw [carryOut_cons, carryOut_absent once.1, Function.update_self]
    · exact inductionHypothesis later once.2

/-- Writing to each listed key the value that a store has there copies that store on the list. -/
theorem carryOut_copies {store other : κ → ν} {keys : List κ} {key : κ} (listed : key ∈ keys) :
    carryOut store (keys.map fun k => (k, other k)) key = other key := by
  induction keys generalizing store with
  | nil => exact absurd listed List.not_mem_nil
  | cons first rest inductionHypothesis =>
    rw [List.map_cons, carryOut_cons]
    by_cases later : key ∈ rest
    · exact inductionHypothesis later
    · obtain rfl : key = first := (List.mem_cons.mp listed).resolve_right later
      rw [carryOut_absent (by simpa using later), Function.update_self]

/-- What a first part of two lists in a row consists of. -/
theorem prefix_append_cases {β : Type*} {part first second : List β}
    (begun : part <+: first ++ second) :
    part <+: first ∨ ∃ rest, rest <+: second ∧ part = first ++ rest := by
  rcases List.prefix_or_prefix_of_prefix begun (List.prefix_append first second) with short | long
  · exact .inl short
  · obtain ⟨rest, rfl⟩ := long
    exact .inr ⟨rest, (List.prefix_append_right_inj first).mp begun, rfl⟩

/-! ## Redo logs

The plan of a store is what its log asks to have written, and nothing when the log is clear. -/

section Redo

variable {plan : (κ → ν) → List (κ × ν)} {clear : (κ → ν) → κ × ν} {sound : (κ → ν) → Prop}
  {counts : κ → Prop}

/-- The values that the keys have once the log has been carried out. -/
def meaning (plan : (κ → ν) → List (κ × ν)) (store : κ → ν) : κ → ν := carryOut store (plan store)

/-- Carrying out a part of the plan leaves the log as it is, one write outside the keys that
count clears it. -/
structure Redo (plan : (κ → ν) → List (κ × ν)) (clear : (κ → ν) → κ × ν)
    (sound : (κ → ν) → Prop) (counts : κ → Prop) : Prop where
  steady : ∀ {store : κ → ν} {part : List (κ × ν)}, sound store → part <+: plan store →
    sound (carryOut store part) ∧ plan (carryOut store part) = plan store
  cleared : ∀ {store : κ → ν}, sound store →
    sound (carryOut store [clear store]) ∧ plan (carryOut store [clear store]) = []
  uncounted : ∀ store, ¬ counts (clear store).1

/-- All that a repair of the store writes: the plan, and then the log is cleared. -/
def repair (plan : (κ → ν) → List (κ × ν)) (clear : (κ → ν) → κ × ν) (store : κ → ν) :
    List (κ × ν) :=
  plan store ++ [clear (carryOut store (plan store))]

/-- A complete repair leaves a clear log and the meaning that the store had. -/
theorem Redo.repaired (redo : Redo plan clear sound counts) {store : κ → ν} (start : sound store) :
    sound (carryOut store (repair plan clear store)) ∧
    plan (carryOut store (repair plan clear store)) = [] ∧
    ∀ key, counts key → carryOut store (repair plan clear store) key = meaning plan store key := by
  have installed := redo.steady start (List.prefix_refl _)
  obtain ⟨held, empty⟩ := redo.cleared installed.1
  rw [repair, carryOut_append]
  refine ⟨held, empty, fun key counted => ?_⟩
  apply carryOut_absent
  rw [List.map_singleton, List.mem_singleton]
  rintro rfl
  exact redo.uncounted _ counted

/-- A repair that is interrupted anywhere does not change the meaning of the store. -/
theorem Redo.interrupted (redo : Redo plan clear sound counts) {store : κ → ν}
    {part : List (κ × ν)} (start : sound store) (begun : part <+: repair plan clear store) :
    sound (carryOut store part) ∧
    ∀ key, counts key → meaning plan (carryOut store part) key = meaning plan store key := by
  rcases List.prefix_concat_iff.mp begun with whole | early
  · obtain ⟨held, empty, same⟩ := redo.repaired start
    have all : part = repair plan clear store := whole
    rw [all]
    refine ⟨held, fun key counted => ?_⟩
    rw [meaning, empty]
    exact same key counted
  · obtain ⟨held, same⟩ := redo.steady start early
    refine ⟨held, fun key _ => ?_⟩
    rw [meaning, same, carryOut_again early, meaning]

/-- Logging a list of writes: the log is filled without effect, one write makes it count, the
writes are carried out, and the log is cleared. Interrupted anywhere, all of the writes are
in the meaning of the store, or none. -/
theorem Redo.logged (redo : Redo plan clear sound counts) {store : κ → ν}
    {filling install part : List (κ × ν)} {flip : κ × ν}
    (quiet : ∀ first, first <+: filling →
      sound (carryOut store first) ∧ plan (carryOut store first) = [])
    (apart : ∀ write ∈ filling ++ [flip], ¬ counts write.1)
    (flipped : sound (carryOut store (filling ++ [flip])))
    (planned : plan (carryOut store (filling ++ [flip])) = install)
    (begun : part <+: (filling ++ [flip]) ++
      repair plan clear (carryOut store (filling ++ [flip]))) :
    sound (carryOut store part) ∧
    ∀ key, counts key → meaning plan (carryOut store part) key =
      if part.length ≤ filling.length then store key else carryOut store install key := by
  have spared : ∀ {writes : List (κ × ν)} {key : κ}, counts key → writes ⊆ filling ++ [flip] →
      key ∉ writes.map Prod.fst := by
    rintro writes key counted listed present
    obtain ⟨write, member, rfl⟩ := List.mem_map.mp present
    exact apart write (listed member) counted
  rcases prefix_append_cases begun with early | ⟨rest, late, rfl⟩
  · rcases List.prefix_concat_iff.mp early with rfl | filled
    · refine ⟨flipped, fun key counted => ?_⟩
      rw [if_neg (by simp), meaning, planned]
      exact carryOut_congr fun _ => carryOut_absent (spared counted (List.Subset.refl _))
    · obtain ⟨held, empty⟩ := quiet part filled
      refine ⟨held, fun key counted => ?_⟩
      rw [if_pos filled.length_le, meaning, empty]
      exact carryOut_absent (spared counted
        (List.Subset.trans filled.subset (List.subset_append_left _ _)))
  · rw [carryOut_append]
    obtain ⟨held, same⟩ := redo.interrupted flipped late
    refine ⟨held, fun key counted => ?_⟩
    have longer : ¬ (filling ++ [flip] ++ rest).length ≤ filling.length := by
      rw [List.length_append, List.length_append, List.length_singleton]
      omega
    rw [same key counted, if_neg longer, meaning, planned]
    exact carryOut_congr fun _ => carryOut_absent (spared counted (List.Subset.refl _))

end Redo

section Edits

variable {ι : Type w}

/-- A change of the value of one key, made on behalf of an owner. -/
structure Edit (ι : Type w) (κ : Type u) (ν : Type v) where
  owner : ι
  key : κ
  change : ν → ν

/-- The store after the edits, in order. -/
def replay (store : κ → ν) : List (Edit ι κ ν) → κ → ν
  | [] => store
  | edit :: rest =>
      replay (Function.update store edit.key (edit.change (store edit.key))) rest

theorem replay_append (store : κ → ν) (first second : List (Edit ι κ ν)) :
    replay store (first ++ second) = replay (replay store first) second := by
  induction first generalizing store with
  | nil => rfl
  | cons edit rest inductionHypothesis => exact inductionHypothesis _

end Edits

end Cs537.Journal
