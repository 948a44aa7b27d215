import Mathlib.Data.List.Nodup
import Mathlib.Logic.Function.Basic

/-!
# A singly linked queue with a head and a tail pointer

Nodes are elements of an arbitrary type and carry one outgoing link each; the
queue is a pair of pointers into these links. Links of nodes outside the queue
are unconstrained: a removed node keeps its stale link. A queue represents a
list of distinct nodes when following the links from the head visits exactly
that list, ends, and the tail points to the last visited node.
-/

namespace Cs537.LinkedQueue

universe u
variable {ι : Type u}

/-- The two end pointers and the link of each node. -/
structure Links (ι : Type u) where
  head : Option ι
  tail : Option ι
  next : ι → Option ι

/-- Following the links from a start pointer visits exactly these nodes and then
reaches the null pointer. -/
def Chain (next : ι → Option ι) : Option ι → List ι → Prop
  | start, [] => start = none
  | start, node :: rest => start = some node ∧ Chain next (next node) rest

/-- Follow at most a given number of links. -/
def follow (next : ι → Option ι) : Nat → Option ι → List ι
  | 0, _ => []
  | _ + 1, none => []
  | fuel + 1, some node => node :: follow next fuel (next node)

/-- A chain is recovered by following enough links. -/
theorem follow_chain {next : ι → Option ι} {nodes : List ι} {start : Option ι} {fuel : Nat}
    (chain : Chain next start nodes) (enough : nodes.length ≤ fuel) :
    follow next fuel start = nodes := by
  induction nodes generalizing start fuel with
  | nil =>
    have null : start = none := chain
    cases fuel <;> simp [follow, null]
  | cons node rest inductionHypothesis =>
    obtain ⟨rfl, later⟩ := chain
    cases fuel with
    | zero => simp at enough
    | succ fuel =>
      have room : rest.length ≤ fuel := Nat.le_of_succ_le_succ enough
      simp only [follow, inductionHypothesis later room]

/-- Links that agree on the visited nodes give the same chain. -/
theorem Chain.congr {next other : ι → Option ι} {nodes : List ι} {start : Option ι}
    (chain : Chain next start nodes) (agree : ∀ node ∈ nodes, other node = next node) :
    Chain other start nodes := by
  induction nodes generalizing start with
  | nil => exact chain
  | cons node rest inductionHypothesis =>
    obtain ⟨same, later⟩ := chain
    refine ⟨same, ?_⟩
    rw [agree node List.mem_cons_self]
    exact inductionHypothesis later fun visited member => agree visited (List.mem_cons_of_mem _ member)

/-- The last visited node has a null link. -/
theorem Chain.last_next {next : ι → Option ι} {nodes : List ι} {start : Option ι} {last : ι}
    (chain : Chain next start nodes) (ends : nodes.getLast? = some last) : next last = none := by
  induction nodes generalizing start with
  | nil => cases ends
  | cons node rest inductionHypothesis =>
    obtain ⟨_, later⟩ := chain
    cases rest with
    | nil =>
      obtain rfl : node = last := by simpa using ends
      exact later
    | cons second others =>
      rw [List.getLast?_cons_cons] at ends
      exact inductionHypothesis later ends

/-- The pointers and links represent a list of distinct nodes. -/
structure Represents (links : Links ι) (nodes : List ι) : Prop where
  chain : Chain links.next links.head nodes
  last : links.tail = nodes.getLast?
  distinct : nodes.Nodup

variable [DecidableEq ι]

/-- Link a node behind the tail. An empty queue gets the node as both ends. -/
def Links.push (links : Links ι) (node : ι) : Links ι :=
  match links.head with
  | none => ⟨some node, some node, Function.update links.next node none⟩
  | some first =>
    let linked := match links.tail with
      | none => links.next
      | some last => Function.update links.next last (some node)
    ⟨some first, some node, Function.update linked node none⟩

/-- Empty the queue by clearing both pointers; links are left as they are. -/
def Links.clear (links : Links ι) : Links ι := { links with head := none, tail := none }

/-- Advance the head along its link, leaving the tail alone. -/
def Links.advance (links : Links ι) : Links ι := { links with head := links.head.bind links.next }

omit [DecidableEq ι] in
/-- The head pointer of a represented queue is its first node. -/
theorem Represents.head_eq {links : Links ι} {nodes : List ι}
    (represents : Represents links nodes) : links.head = nodes.head? := by
  cases nodes with
  | nil => exact represents.chain
  | cons node rest => exact represents.chain.1

omit [DecidableEq ι] in
/-- A cleared queue represents the empty list. -/
theorem clear_represents (links : Links ι) : Represents links.clear [] :=
  ⟨rfl, rfl, List.nodup_nil⟩

omit [DecidableEq ι] in
/-- Advancing the head of a queue with at least two nodes removes the first. -/
theorem advance_represents {links : Links ι} {first second : ι} {rest : List ι}
    (represents : Represents links (first :: second :: rest)) :
    Represents links.advance (second :: rest) := by
  obtain ⟨⟨start, later⟩, last, distinct⟩ := represents
  refine ⟨?_, ?_, (List.nodup_cons.mp distinct).2⟩
  · simpa only [Links.advance, start, Option.bind_some] using later
  · simpa only [Links.advance, List.getLast?_cons_cons] using last

/-- Relinking the last node to a fresh one extends the chain by that node. -/
theorem chain_snoc {next : ι → Option ι} {nodes : List ι} {start : Option ι} {last node : ι}
    (chain : Chain next start nodes) (ends : nodes.getLast? = some last)
    (distinct : nodes.Nodup) (fresh : node ∉ nodes) :
    Chain (Function.update (Function.update next last (some node)) node none) start
      (nodes ++ [node]) := by
  induction nodes generalizing start with
  | nil => simp at ends
  | cons first rest inductionHypothesis =>
    obtain ⟨same, later⟩ := chain
    have firstFresh : first ≠ node := fun equal => fresh (equal ▸ List.mem_cons_self)
    have restFresh : node ∉ rest := fun member => fresh (List.mem_cons_of_mem _ member)
    refine ⟨same, ?_⟩
    cases rest with
    | nil =>
      have isLast : first = last := by simpa using ends
      subst isLast
      simp [Chain, Function.update_of_ne firstFresh]
    | cons second others =>
      have restEnds : (second :: others).getLast? = some last := by simpa using ends
      have notLast : first ≠ last := by
        intro equal
        exact (List.nodup_cons.mp distinct).1 (equal ▸ List.mem_of_getLast? restEnds)
      rw [Function.update_of_ne firstFresh, Function.update_of_ne notLast]
      exact inductionHypothesis later restEnds (List.nodup_cons.mp distinct).2 restFresh

/-- Pushing a node that is not queued appends it. -/
theorem push_represents {links : Links ι} {nodes : List ι} {node : ι}
    (represents : Represents links nodes) (fresh : node ∉ nodes) :
    Represents (links.push node) (nodes ++ [node]) := by
  obtain ⟨chain, last, distinct⟩ := represents
  have appended : (nodes ++ [node]).Nodup := by
    rw [List.nodup_append]
    refine ⟨distinct, List.nodup_singleton node, ?_⟩
    intro left member right only
    have same : right = node := List.mem_singleton.mp only
    exact fun equal => fresh (same ▸ equal ▸ member)
  cases nodes with
  | nil =>
    have null : links.head = none := chain
    refine ⟨?_, ?_, appended⟩
    · simp [Links.push, null, Chain]
    · simp [Links.push, null]
  | cons first rest =>
    have start : links.head = some first := chain.1
    obtain ⟨final, ends⟩ : ∃ final, (first :: rest).getLast? = some final :=
      ⟨_, List.getLast?_eq_some_getLast (List.cons_ne_nil first rest)⟩
    have pointed : links.tail = some final := last.trans ends
    refine ⟨?_, ?_, appended⟩
    · have extended := chain_snoc chain ends distinct fresh
      rw [start] at extended
      simpa only [Links.push, start, pointed] using extended
    · simp only [Links.push, start]
      exact List.getLast?_concat.symm

end Cs537.LinkedQueue
