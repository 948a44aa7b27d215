import Mathlib.Logic.Function.Basic

/-!
# Forests with a living root

Members of a population have at most one parent each, and some of them are alive.
A member is under the root if its parents lead to the root through living members
only. The rules below are the ways in which such a population changes while
everybody in it stays under the root: a living member gets a child, a living
member dies and its children pass to the root, and a dead member leaves.
-/

namespace Cs537.Forest

universe u
variable {ι : Type u}

/-- The parents of a member lead to the root, and all of them are alive. -/
inductive Under (parent : ι → Option ι) (alive : ι → Prop) (root : ι) : ι → Prop where
  | root : Under parent alive root root
  | child {p q : ι} (of : parent p = some q) (live : alive q) (above : Under parent alive root q) :
      Under parent alive root p

/-- Everybody in the population is under the living root, and nobody else has a parent. -/
structure Rooted (parent : ι → Option ι) (alive used : ι → Prop) (root : ι) : Prop where
  top : parent root = none
  live : alive root
  member : ∀ p, alive p → used p
  under : ∀ p, used p → Under parent alive root p
  unrelated : ∀ p, ¬ used p → parent p = none

variable {parent parent' : ι → Option ι} {alive alive' used used' : ι → Prop} {root : ι}

/-- Nobody under a root without parent is its own parent. -/
theorem Under.apart {p : ι} (under : Under parent alive root p) (top : parent root = none) :
    parent p ≠ some p := by
  induction under with
  | root => simp [top]
  | child of _ _ inductionHypothesis =>
    intro self
    obtain rfl := Option.some.inj (of.symm.trans self)
    exact inductionHypothesis of

/-- Nothing changes. -/
theorem Rooted.congr (rooted : Rooted parent alive used root) (same : ∀ p, parent' p = parent p)
    (living : ∀ p, alive' p ↔ alive p) (members : ∀ p, used' p ↔ used p) :
    Rooted parent' alive' used' root := by
  obtain rfl : parent' = parent := funext same
  obtain rfl : alive' = alive := funext fun p => propext (living p)
  obtain rfl : used' = used := funext fun p => propext (members p)
  exact rooted

/-- A living member gets a child that is new to the population. -/
theorem Rooted.graft (rooted : Rooted parent alive used root) {p q : ι}
    (new : ¬ used p) (live : alive q)
    (born : parent' p = some q) (same : ∀ other, other ≠ p → parent' other = parent other)
    (living : ∀ other, alive' other ↔ alive other ∨ other = p)
    (members : ∀ other, used' other ↔ used other ∨ other = p) : Rooted parent' alive' used' root := by
  have kept : ∀ other, Under parent alive root other → other ≠ p → Under parent' alive' root other := by
    intro other under
    induction under with
    | root => exact fun _ => .root
    | @child r above of lives _ inductionHypothesis =>
      intro apart
      have other : above ≠ p := fun equal => new (rooted.member p (equal ▸ lives))
      exact .child ((same r apart).trans of) ((living above).mpr (.inl lives)) (inductionHypothesis other)
  have old : root ≠ p := fun equal => new (equal ▸ rooted.member root rooted.live)
  refine ⟨(same root old).trans rooted.top, (living root).mpr (.inl rooted.live), fun other live => (members other).mpr ?_,
    fun other member => ?_, fun other stranger => ?_⟩
  · exact ((living other).mp live).imp (rooted.member other) id
  · by_cases here : other = p
    · subst here
      refine .child born ((living q).mpr (.inl live)) (kept q (rooted.under q (rooted.member q live)) ?_)
      rintro rfl
      exact new (rooted.member q live)
    · exact kept other (rooted.under other (((members other).mp member).resolve_right here)) here
  · rw [members, not_or] at stranger
    rw [same other stranger.2]
    exact rooted.unrelated other stranger.1

/-- A living member other than the root dies, and its children pass to the root. -/
theorem Rooted.bequeath (rooted : Rooted parent alive used root) {q : ι} (other : q ≠ root)
    (heirs : ∀ p, parent p = some q → parent' p = some root)
    (same : ∀ p, parent p ≠ some q → parent' p = parent p)
    (living : ∀ p, alive' p ↔ alive p ∧ p ≠ q) (members : ∀ p, used' p ↔ used p) :
    Rooted parent' alive' used' root := by
  have live : alive' root := (living root).mpr ⟨rooted.live, fun equal => other equal.symm⟩
  have kept : ∀ p, Under parent alive root p → Under parent' alive' root p := by
    intro p under
    induction under with
    | root => exact .root
    | @child p r of lives _ inductionHypothesis =>
      by_cases dead : r = q
      · exact .child (heirs p (of.trans (congrArg some dead))) live .root
      · have apart : parent p ≠ some q := fun equal => dead (Option.some.inj (of.symm.trans equal))
        exact .child ((same p apart).trans of) ((living r).mpr ⟨lives, dead⟩) inductionHypothesis
  have top : parent' root = none := (same root (by simp [rooted.top])).trans rooted.top
  refine ⟨top, live, fun p lives => (members p).mpr (rooted.member p ((living p).mp lives).1),
    fun p member => kept p (rooted.under p ((members p).mp member)), fun p stranger => ?_⟩
  have none := rooted.unrelated p fun member => stranger ((members p).mpr member)
  rw [same p (by simp [none]), none]

/-- A dead member leaves. -/
theorem Rooted.prune (rooted : Rooted parent alive used root) {q : ι} (dead : ¬ alive q)
    (gone : parent' q = none) (same : ∀ p, p ≠ q → parent' p = parent p)
    (living : ∀ p, alive' p ↔ alive p) (members : ∀ p, used' p ↔ used p ∧ p ≠ q) :
    Rooted parent' alive' used' root := by
  have kept : ∀ p, Under parent alive root p → p ≠ q → Under parent' alive' root p := by
    intro p under
    induction under with
    | root => exact fun _ => .root
    | child of live _ inductionHypothesis =>
      intro apart
      exact .child ((same _ apart).trans of) ((living _).mpr live)
        (inductionHypothesis fun equal => dead (equal ▸ live))
  have top : parent' root = none :=
    (same root fun equal => dead (equal ▸ rooted.live)).trans rooted.top
  refine ⟨top, (living root).mpr rooted.live, fun p lives => (members p).mpr ?_,
    fun p member => ?_, fun p stranger => ?_⟩
  · have live := (living p).mp lives
    exact ⟨rooted.member p live, fun equal => dead (equal ▸ live)⟩
  · obtain ⟨used, apart⟩ := (members p).mp member
    exact kept p (rooted.under p used) apart
  · by_cases here : p = q
    · rw [here, gone]
    · rw [same p here]
      exact rooted.unrelated p fun used => stranger ((members p).mpr ⟨used, here⟩)

end Cs537.Forest
