import Mathlib.Data.List.Chain
import Mathlib.Data.List.Nodup

/-!
# Doubly linked lists in memory

A link is null, points to a node, or is anything else that memory may hold. A list
of distinct nodes is linked when neighbours point to each other and the last node
has a null link. The links of other nodes, and the link of the first node backwards,
are unconstrained.

The lemmas describe a list before and after the three updates of a list that is only
appended to at its end: a new last node, the removal of the last node, and the removal
of a node that has a successor. An update is given by the links afterwards, and by
what it has left alone.
-/

namespace Cs537.DoublyLinked

universe u
variable {ι : Type u}

/-- What a pointer field holds. -/
inductive Link (ι : Type u) where
  | null
  | node (address : ι)
  | wild
deriving DecidableEq

/-- The nodes are linked in this order, in both directions. -/
structure Linked (next prev : ι → Link ι) (nodes : List ι) : Prop where
  adjacent : nodes.IsChain fun a b => next a = .node b ∧ prev b = .node a
  ends : ∀ a, nodes.getLast? = some a → next a = .null
  distinct : nodes.Nodup

variable {next prev next' prev' : ι → Link ι} {nodes front rest : List ι} {a b last : ι}

/-- The link of a node that has a successor. -/
theorem Linked.next_eq (linked : Linked next prev (front ++ a :: b :: rest)) :
    next a = .node b ∧ prev b = .node a := by
  have adjacent := linked.adjacent
  rw [List.isChain_append_cons_cons] at adjacent
  exact adjacent.2.1

/-- A part of a list at its end is a list. -/
theorem Linked.drop (linked : Linked next prev (front ++ a :: rest)) :
    Linked next prev (a :: rest) where
  adjacent := linked.adjacent.right_of_append
  ends last same := by
    refine linked.ends last ?_
    rw [List.getLast?_append, same, Option.some_or]
  distinct := linked.distinct.of_append_right

/-- Links that agree on the nodes give the same list. -/
theorem Linked.congr (linked : Linked next prev nodes) (onward : ∀ a ∈ nodes, next' a = next a)
    (backward : ∀ a ∈ nodes, prev' a = prev a) : Linked next' prev' nodes where
  adjacent := by
    refine linked.adjacent.imp_of_mem_imp ?_
    intro a b first second both
    rw [onward a first, backward b second]
    exact both
  ends a same := by
    rw [onward a (List.mem_of_getLast? same)]
    exact linked.ends a same
  distinct := linked.distinct

/-- The neighbours within a list that keep their links stay neighbours. -/
theorem adjacent_congr (adjacent : nodes.IsChain fun a b => next a = .node b ∧ prev b = .node a)
    (onward : ∀ a ∈ nodes.dropLast, next' a = next a) (backward : ∀ a ∈ nodes.tail, prev' a = prev a) :
    nodes.IsChain fun a b => next' a = .node b ∧ prev' b = .node a := by
  induction nodes with
  | nil => exact .nil
  | cons a rest inductionHypothesis =>
    cases rest with
    | nil => exact .singleton a
    | cons b others =>
      rw [List.isChain_cons_cons] at adjacent ⊢
      obtain ⟨⟨here, back⟩, later⟩ := adjacent
      refine ⟨⟨?_, ?_⟩, inductionHypothesis later ?_ ?_⟩
      · rw [onward a (by simp), here]
      · rw [backward b (by simp), back]
      · intro c member
        exact onward c (by simp [member])
      · intro c member
        exact backward c (by simp [List.mem_of_mem_tail member])

/-- A new node behind the last one. -/
theorem Linked.push (linked : Linked next prev (front ++ [last])) (fresh : a ∉ front ++ [last])
    (onward : ∀ x ∈ front, next' x = next x) (backward : ∀ x ∈ front ++ [last], prev' x = prev x)
    (link : next' last = .node a) (back : prev' a = .node last) (null : next' a = .null) :
    Linked next' prev' (front ++ [last] ++ [a]) where
  adjacent := by
    rw [List.append_assoc, List.singleton_append, List.isChain_append_cons_cons]
    refine ⟨adjacent_congr linked.adjacent ?_ ?_, ⟨link, back⟩, .singleton a⟩
    · simpa using onward
    · intro x member
      exact backward x (List.mem_of_mem_tail member)
  ends x same := by
    obtain rfl : a = x := by simpa using same
    exact null
  distinct := by
    rw [List.nodup_append]
    refine ⟨linked.distinct, List.nodup_singleton a, ?_⟩
    intro x member y only same
    exact fresh (List.mem_singleton.mp only ▸ same ▸ member)

/-- The last node is taken away. -/
theorem Linked.dropLast (linked : Linked next prev (front ++ [last] ++ [a]))
    (onward : ∀ x ∈ front, next' x = next x) (backward : ∀ x ∈ front ++ [last], prev' x = prev x)
    (null : next' last = .null) : Linked next' prev' (front ++ [last]) where
  adjacent := by
    refine adjacent_congr linked.adjacent.left_of_append ?_ ?_
    · simpa using onward
    · intro x member
      exact backward x (List.mem_of_mem_tail member)
  ends x same := by
    obtain rfl : last = x := by simpa using same
    exact null
  distinct := linked.distinct.of_append_left

/-- A node between two others is taken away. -/
theorem Linked.remove {x : ι} (linked : Linked next prev (front ++ x :: a :: b :: rest))
    (onward : ∀ y ∈ front ++ b :: rest, next' y = next y)
    (backward : ∀ y ∈ front ++ x :: rest, prev' y = prev y)
    (link : next' x = .node b) (back : prev' b = .node x) :
    Linked next' prev' (front ++ x :: b :: rest) where
  adjacent := by
    have adjacent := linked.adjacent
    rw [List.isChain_append_cons_cons, List.isChain_cons_cons] at adjacent
    obtain ⟨before, _, _, after⟩ := adjacent
    rw [List.isChain_append_cons_cons]
    refine ⟨adjacent_congr before ?_ ?_, ⟨link, back⟩, adjacent_congr after ?_ ?_⟩
    · intro y member
      exact onward y (by simp_all)
    · intro y member
      refine backward y ?_
      rcases List.mem_append.mp (List.mem_of_mem_tail member) with left | here
      · exact List.mem_append_left _ left
      · exact List.mem_append_right front (by simp [List.mem_singleton.mp here])
    · intro y member
      exact onward y (List.mem_append_right front (List.dropLast_subset _ member))
    · intro y member
      exact backward y (by simp_all)
  ends y same := by
    have last : (b :: rest).getLast? = some y := by
      rw [List.getLast?_append_cons, List.getLast?_cons_cons] at same
      exact same
    have old : next y = .null := by
      refine linked.ends y ?_
      rw [List.getLast?_append_cons, List.getLast?_cons_cons, List.getLast?_cons_cons]
      exact last
    rw [onward y (List.mem_append_right front (List.mem_of_getLast? last)), old]
  distinct := by
    refine linked.distinct.sublist ?_
    exact (List.Sublist.refl front).append (((List.Sublist.refl (b :: rest)).cons a).cons_cons x)

end Cs537.DoublyLinked
