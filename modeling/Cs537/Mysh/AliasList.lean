import Cs537.Library.OrderedMap
import Cs537.Mysh.Loops

/-!
# The alias list in memory

What a node stores is described by an entry: the name, the words of its present
definition, its earlier definitions, newest first, and what `malloc` left in its
array. `Represents` says that memory holds a list of such entries behind the two
sentinels. Each operation of `batch_mode` on the list gets one lemma with the entries
after it.
-/

namespace Cs537.Mysh

open DoublyLinked OrderedMap

/-- An alias with the history of its node. -/
structure Entry where
  name : Text
  words : List Text
  earlier : List (List Text)
  contents : Nat → Pointer

/-- A node holds an entry. An element of its array is null if it was null when the node
was allocated and no definition since has reached it. -/
structure Stores (node : Node) (entry : Entry) : Prop where
  name : node.name = .text entry.name
  num : node.num = entry.words.length
  bound : entry.words.length < MAX_LINE_CMDS
  path : ∀ i word, entry.words[i]? = some word → node.path i = .text word
  short : (unwords entry.words).length < MAX_CMD_LINE_SIZE
  nulls : ∀ i, node.path i = .null ↔
    entry.contents i = .null ∧ ∀ definition ∈ entry.words :: entry.earlier, definition.length ≤ i

/-- The links of an address that is not allocated are wild. -/
def Shell.next (s : Shell) (a : Addr) : Link Addr := (s.heap a).elim .wild Node.next

def Shell.prev (s : Shell) (a : Addr) : Link Addr := (s.heap a).elim .wild Node.prev

/-- The list holds these entries at these addresses, behind the sentinels. -/
structure Represents (s : Shell) (sentinel : Addr) (cells : List (Addr × Entry)) : Prop where
  linked : Linked s.next s.prev (s.head :: sentinel :: cells.map Prod.fst)
  tail : (sentinel :: cells.map Prod.fst).getLast?.map Link.node = some s.tail
  stored : ∀ cell ∈ cells, ∃ node, s.heap cell.1 = some node ∧ Stores node cell.2
  distinct : (cells.map fun cell => cell.2.name).Nodup
  live : cells.length ≤ s.live

/-! ## Memory -/

/-- Memory with one node assigned. -/
def Shell.write (s : Shell) (a : Addr) (node : Node) : Shell :=
  { s with heap := Function.update s.heap a (some node) }

section Memory

variable {s : Shell} {a b : Addr} {node old : Node} {change : Node → Node}

@[simp] theorem write_heap : (s.write a node).heap b = if b = a then some node else s.heap b := by
  simp only [Shell.write, Function.update_apply]

@[simp] theorem write_next : (s.write a node).next b = if b = a then node.next else s.next b := by
  simp only [Shell.next, write_heap]
  split <;> rfl

@[simp] theorem write_prev : (s.write a node).prev b = if b = a then node.prev else s.prev b := by
  simp only [Shell.prev, write_heap]
  split <;> rfl

@[simp] theorem write_tail : (s.write a node).tail = s.tail := rfl

@[simp] theorem write_live : (s.write a node).live = s.live := rfl

/-- A write through the address of a node. -/
theorem store_node (found : s.heap a = some old) : s.store (.node a) change = some (s.write a (change old)) := by
  simp only [Shell.store, found, Option.map_some, Shell.write]

/-- The links of an allocated node. -/
theorem next_node (found : s.heap a = some node) : s.next a = node.next := by
  simp only [Shell.next, found, Option.elim_some]

theorem prev_node (found : s.heap a = some node) : s.prev a = node.prev := by
  simp only [Shell.prev, found, Option.elim_some]

/-- An address with a link is allocated. -/
theorem allocated_of_next (tame : s.next a ≠ .wild) : ∃ node, s.heap a = some node := by
  unfold Shell.next at tame
  cases found : s.heap a with
  | none => simp [found] at tame
  | some node => exact ⟨node, rfl⟩

end Memory

/-! ## Walking the list -/

/-- The link to the first of some cells. -/
def linkTo : List (Addr × Entry) → Link Addr
  | [] => .null
  | cell :: _ => .node cell.1

theorem linkTo_cons (cell : Addr × Entry) (rest : List (Addr × Entry)) :
    linkTo (cell :: rest) = .node cell.1 := rfl

/-- The cells are stored, and each links to the next. -/
def Trail (heap : Addr → Option Node) : List (Addr × Entry) → Prop
  | [] => True
  | cell :: rest => (∃ node, heap cell.1 = some node ∧ Stores node cell.2 ∧ node.next = linkTo rest) ∧
      Trail heap rest

section Walk

variable {s : Shell} {sentinel : Addr} {cells : List (Addr × Entry)}

/-- The link of a node is that to the cells behind it. -/
theorem Linked.next_linkTo {next prev : Addr → Link Addr} {front : List Addr} {a : Addr}
    {rest : List (Addr × Entry)} (linked : Linked next prev (front ++ a :: rest.map Prod.fst)) :
    next a = linkTo rest := by
  cases rest with
  | nil => exact linked.ends a (by simp)
  | cons cell others => exact linked.next_eq.1

theorem trail_of_linked {front : List Addr}
    (linked : Linked s.next s.prev (front ++ cells.map Prod.fst))
    (stored : ∀ cell ∈ cells, ∃ node, s.heap cell.1 = some node ∧ Stores node cell.2) :
    Trail s.heap cells := by
  induction cells generalizing front with
  | nil => trivial
  | cons cell rest inductionHypothesis =>
    obtain ⟨node, found, stores⟩ := stored cell List.mem_cons_self
    have link : s.next cell.1 = linkTo rest := Linked.next_linkTo linked
    have onward : node.next = linkTo rest := by simpa only [Shell.next, found, Option.elim_some] using link
    refine ⟨⟨node, found, stores, onward⟩, ?_⟩
    refine @inductionHypothesis (front ++ [cell.1]) ?_ ?_
    · simpa using linked
    · exact fun other member => stored other (List.mem_cons_of_mem cell member)

theorem Represents.trail (represents : Represents s sentinel cells) : Trail s.heap cells :=
  @trail_of_linked s cells [s.head, sentinel] represents.linked represents.stored

/-- The loop of `checkAlias` finds the first cell with the name. -/
theorem searchFrom_eq {heap : Addr → Option Node} {fuel : Nat} (name : Text)
    (trail : Trail heap cells) (enough : cells.length ≤ fuel) :
    searchFrom heap name fuel (linkTo cells) =
      some ((cells.find? fun cell => cell.2.name = name).map Prod.fst) := by
  induction cells generalizing fuel with
  | nil => cases fuel <;> rfl
  | cons cell rest inductionHypothesis =>
    obtain ⟨⟨node, found, stores, onward⟩, later⟩ := trail
    cases fuel with
    | zero => simp at enough
    | succ fuel =>
      have room : rest.length ≤ fuel := Nat.le_of_succ_le_succ enough
      rw [linkTo_cons]
      simp only [searchFrom, found, stores.name, Pointer.text?, Option.bind_eq_bind,
        Option.bind_some, onward]
      by_cases same : cell.2.name = name
      · simp [same]
      · simp [same, inductionHypothesis later room]

/-- Reading the elements of an array one by one. -/
theorem mapM_range' {read : Nat → Option Text} {list : List Text} (from_ : Nat)
    (each : ∀ i word, list[i]? = some word → read (from_ + i) = some word) :
    (List.range' from_ list.length).mapM read = some list := by
  induction list generalizing from_ with
  | nil => rfl
  | cons word rest inductionHypothesis =>
    have here : read from_ = some word := each 0 word rfl
    have later : (List.range' (from_ + 1) rest.length).mapM read = some rest := by
      apply inductionHypothesis
      intro i other found
      have moved := each (i + 1) other (by simpa using found)
      rwa [Nat.add_assoc, Nat.add_comm 1 i]
    rw [List.length_cons, List.range'_succ, List.mapM_cons, here, later]
    rfl

/-- The words of a node are printed in order. -/
theorem Stores.print {node : Node} {entry : Entry} (stores : Stores node entry) :
    node.print = some (.print (entry.name ++ ' ' :: unwords entry.words ++ ['\n'])) := by
  have small : node.num ≤ MAX_LINE_CMDS := by
    rw [stores.num]
    exact Int.ofNat_le.mpr (Nat.le_of_lt stores.bound)
  have count : node.num.toNat = entry.words.length := by
    rw [stores.num]
    rfl
  have read : (List.range node.num.toNat).mapM (fun i => (node.path i).text?) = some entry.words := by
    rw [count, List.range_eq_range']
    refine mapM_range' 0 ?_
    intro i word found
    rw [Nat.zero_add, stores.path i word found]
    rfl
  simp only [Node.print, stores.name, Pointer.text?, Option.bind_eq_bind, Option.bind_some,
    Node.pathText, if_pos small] at read ⊢
  rw [read]
  simp only [Option.bind_some, if_pos stores.short]

/-- The loop of `printList` prints the entries in order. -/
theorem printFrom_eq {heap : Addr → Option Node} {fuel : Nat} (trail : Trail heap cells)
    (enough : cells.length ≤ fuel) :
    printFrom heap fuel (linkTo cells) =
      some (cells.map fun cell =>
        .print (cell.2.name ++ ' ' :: unwords cell.2.words ++ ['\n'])) := by
  induction cells generalizing fuel with
  | nil => cases fuel <;> rfl
  | cons cell rest inductionHypothesis =>
    obtain ⟨⟨node, found, stores, onward⟩, later⟩ := trail
    cases fuel with
    | zero => simp at enough
    | succ fuel =>
      have room : rest.length ≤ fuel := Nat.le_of_succ_le_succ enough
      rw [linkTo_cons]
      simp only [printFrom, found, stores.print, Option.bind_eq_bind, Option.bind_some, onward,
        inductionHypothesis later room, List.map_cons]

theorem Represents.first (represents : Represents s sentinel cells) :
    s.first = some (.node sentinel) := by
  have link := (@Linked.next_eq _ _ _ [] _ _ _ represents.linked).1
  obtain ⟨node, found⟩ := allocated_of_next (by rw [link]; simp)
  simpa only [Shell.first, Shell.load, Shell.next, found, Option.elim_some, Option.map_some,
    Option.some.injEq] using link

/-- The sentinel links to the first cell. -/
theorem Represents.behind (represents : Represents s sentinel cells) :
    ∃ node, s.heap sentinel = some node ∧ node.next = linkTo cells := by
  have link : s.next sentinel = linkTo cells :=
    @Linked.next_linkTo _ _ [s.head] _ _ represents.linked
  obtain ⟨node, found⟩ := allocated_of_next (s := s) (a := sentinel) (by rw [link]; cases cells <;> simp [linkTo])
  exact ⟨node, found, by simpa only [Shell.next, found, Option.elim_some] using link⟩

/-- `checkAlias` finds the entry with the name. -/
theorem Represents.checkAlias (represents : Represents s sentinel cells) (name : Text) :
    s.checkAlias (.node sentinel) name =
      some ((cells.find? fun cell => cell.2.name = name).map Prod.fst) := by
  obtain ⟨node, found, onward⟩ := represents.behind
  simp only [Shell.checkAlias, Shell.load, found, Option.bind_eq_bind, Option.bind_some, onward]
  exact searchFrom_eq name represents.trail represents.live

/-- `printList` prints the entries in order. -/
theorem Represents.printList (represents : Represents s sentinel cells) :
    s.printList (.node sentinel) =
      some (cells.map fun cell =>
        .print (cell.2.name ++ ' ' :: unwords cell.2.words ++ ['\n'])) := by
  obtain ⟨node, found, onward⟩ := represents.behind
  have tame : (Link.node sentinel : Link Addr) ≠ .null := by simp
  simp only [Shell.printList, if_neg tame, Shell.load, found, Option.bind_eq_bind, Option.bind_some,
    onward]
  exact printFrom_eq represents.trail represents.live

end Walk

/-! ## Changing the list -/

section Change

variable {s : Shell} {sentinel a : Addr} {cells front rest : List (Addr × Entry)} {entry : Entry}

/-- Every node of the list is allocated. -/
theorem Represents.allocated (represents : Represents s sentinel cells) {x : Addr}
    (member : x ∈ s.head :: sentinel :: cells.map Prod.fst) : ∃ node, s.heap x = some node := by
  obtain ⟨before, after, split⟩ := List.append_of_mem member
  have linked := represents.linked
  rw [split] at linked
  refine allocated_of_next ?_
  cases after with
  | nil =>
    rw [linked.ends x (by simp)]
    simp
  | cons y others =>
    rw [linked.next_eq.1]
    simp

/-- The cells at other addresses are still stored. -/
theorem stored_congr {t : Shell}
    (stored : ∀ cell ∈ cells, ∃ node, s.heap cell.1 = some node ∧ Stores node cell.2)
    (kept : ∀ cell ∈ cells, ∀ node, s.heap cell.1 = some node →
      ∃ other, t.heap cell.1 = some other ∧ other.name = node.name ∧ other.path = node.path ∧
        other.num = node.num) :
    ∀ cell ∈ cells, ∃ node, t.heap cell.1 = some node ∧ Stores node cell.2 := by
  intro cell member
  obtain ⟨node, found, stores⟩ := stored cell member
  obtain ⟨other, there, name, path, num⟩ := kept cell member node found
  refine ⟨other, there, name.trans stores.name, num.trans stores.num, stores.bound, ?_, stores.short, ?_⟩
  · rw [path]
    exact stores.path
  · rw [path]
    exact stores.nulls

/-- A new definition overwrites the first elements of the array. -/
theorem Stores.redefine {node : Node} (stores : Stores node entry) {path : List Text}
    (bound : path.length < MAX_LINE_CMDS) (short : (unwords path).length < MAX_CMD_LINE_SIZE) :
    Stores { addNodePath node path with num := path.length }
      { entry with words := path, earlier := entry.words :: entry.earlier } where
  name := stores.name
  num := rfl
  bound := bound
  path i word found := by
    have here : path[i]? = some word := found
    simp only [addNodePath, here, Option.elim_some]
  short := short
  nulls i := by
    have old := stores.nulls i
    simp only [addNodePath, List.forall_mem_cons] at old ⊢
    by_cases inside : i < path.length
    · rw [List.getElem?_eq_getElem inside]
      simp only [Option.elim_some, reduceCtorEq, false_iff]
      omega
    · rw [List.getElem?_eq_none (by omega)]
      simp only [Option.elim_none, old]
      constructor
      · rintro ⟨null, words, earlier⟩
        exact ⟨null, by omega, words, earlier⟩
      · rintro ⟨null, _, words, earlier⟩
        exact ⟨null, words, earlier⟩

/-- The array of a new node keeps what `malloc` left behind the words. -/
theorem Stores.define {node : Node} {name : Text} {path : List Text} {last : Addr}
    (bound : path.length < MAX_LINE_CMDS) (short : (unwords path).length < MAX_CMD_LINE_SIZE) :
    Stores { addNodePath node path with
      name := .text name, num := path.length, next := .null, prev := .node last }
      ⟨name, path, [], node.path⟩ where
  name := rfl
  num := rfl
  bound := bound
  path i word found := by
    have here : path[i]? = some word := found
    simp only [addNodePath, here, Option.elim_some]
  short := short
  nulls i := by
    simp only [addNodePath, List.forall_mem_cons, List.not_mem_nil, false_implies, implies_true,
      and_true]
    by_cases inside : i < path.length
    · rw [List.getElem?_eq_getElem inside]
      simp only [Option.elim_some, reduceCtorEq, false_iff]
      omega
    · rw [List.getElem?_eq_none (by omega)]
      simp only [Option.elim_none]
      exact ⟨fun null => ⟨null, by omega⟩, And.left⟩

/-- The addresses of the cells differ. -/
theorem Represents.apart (represents : Represents s sentinel (front ++ (a, entry) :: rest)) :
    a ≠ s.head ∧ a ≠ sentinel ∧ ∀ cell ∈ front ++ rest, cell.1 ≠ a := by
  have distinct := represents.linked.distinct
  simp only [List.map_append, List.map_cons, List.nodup_cons, List.mem_cons, List.mem_append,
    not_or] at distinct
  obtain ⟨⟨_, _, notHead, _⟩, ⟨_, notSentinel, _⟩, middle⟩ := distinct
  have others := (List.nodup_cons.mp (List.nodup_middle.mp middle)).1
  refine ⟨Ne.symm notHead, Ne.symm notSentinel, ?_⟩
  intro cell member same
  rw [← List.map_append, List.mem_map] at others
  exact others ⟨cell, member, same⟩

/-- A bound alias is redefined in place. -/
theorem Represents.redefine (represents : Represents s sentinel (front ++ (a, entry) :: rest))
    {path : List Text} (bound : path.length < MAX_LINE_CMDS)
    (short : (unwords path).length < MAX_CMD_LINE_SIZE) :
    ∃ t, s.store (.node a) (fun x => { addNodePath x path with num := path.length }) = some t ∧
      t.head = s.head ∧
      Represents t sentinel (front ++
        (a, { entry with words := path, earlier := entry.words :: entry.earlier }) :: rest) := by
  obtain ⟨node, found, stores⟩ := represents.stored (a, entry) (by simp)
  obtain ⟨_, _, others⟩ := represents.apart
  refine ⟨_, store_node found, rfl, ?_, ?_, ?_, ?_, ?_⟩
  · have linked := represents.linked
    simp only [List.map_append, List.map_cons] at linked ⊢
    refine linked.congr ?_ ?_
    · intro x _
      rw [write_next]
      split
      · rename_i same
        rw [same, next_node found]
        rfl
      · rfl
    · intro x _
      rw [write_prev]
      split
      · rename_i same
        rw [same, prev_node found]
        rfl
      · rfl
  · simpa only [List.map_append, List.map_cons, write_tail] using represents.tail
  · intro cell member
    rcases List.mem_append.mp member with left | right
    · obtain ⟨other, there, holds⟩ := represents.stored cell (by simp [left])
      exact ⟨other, by rw [write_heap, if_neg (others cell (by simp [left])), there], holds⟩
    · rcases List.mem_cons.mp right with rfl | right
      · exact ⟨_, by rw [write_heap, if_pos rfl], stores.redefine bound short⟩
      · obtain ⟨other, there, holds⟩ := represents.stored cell (by simp [right])
        exact ⟨other, by rw [write_heap, if_neg (others cell (by simp [right])), there], holds⟩
  · simpa only [List.map_append, List.map_cons] using represents.distinct
  · simpa using represents.live

/-- The tail points to the last node. -/
theorem Represents.last (represents : Represents s sentinel cells) :
    ∃ before last, s.head :: sentinel :: cells.map Prod.fst = before ++ [last] ∧
      s.tail = .node last := by
  obtain ⟨last, ends, same⟩ := Option.map_eq_some_iff.mp represents.tail
  obtain ⟨before, split⟩ := List.getLast?_eq_some_iff.mp ends
  exact ⟨s.head :: before, last, by rw [split, List.cons_append], same.symm⟩

/-- A new node is linked behind the tail. -/
theorem batchNew_eq {cell : Addr × Node} {last : Addr} {node : Node} (name : Text) (path : List Text)
    (fresh : s.heap cell.1 = none) (tail : s.tail = .node last) (found : s.heap last = some node) :
    batchNew s cell name path = some
      { (s.write cell.1 { addNodePath cell.2 path with
          name := .text name, num := path.length, next := .null, prev := .node last }).write last
            { node with next := .node cell.1 } with
        live := s.live + 1, tail := .node cell.1 } := by
  have different : last ≠ cell.1 := by
    intro same
    rw [same, fresh] at found
    cases found
  simp only [batchNew, Shell.store, Shell.malloc, Function.update_self, Option.map_some,
    Option.bind_eq_bind, Option.bind_some, Function.update_idem, tail,
    Function.update_of_ne different, found]
  rfl

/-- An unbound alias is appended. -/
theorem Represents.push (represents : Represents s sentinel cells) {cell : Addr × Node}
    (fresh : s.heap cell.1 = none) {name : Text} (unbound : ∀ other ∈ cells, other.2.name ≠ name)
    {path : List Text} (bound : path.length < MAX_LINE_CMDS)
    (short : (unwords path).length < MAX_CMD_LINE_SIZE) :
    ∃ t, batchNew s cell name path = some t ∧ t.head = s.head ∧
      Represents t sentinel (cells ++ [(cell.1, ⟨name, path, [], cell.2.path⟩)]) := by
  obtain ⟨before, last, split, tail⟩ := represents.last
  have member : last ∈ s.head :: sentinel :: cells.map Prod.fst := by simp [split]
  obtain ⟨node, found⟩ := represents.allocated member
  have absent : cell.1 ∉ s.head :: sentinel :: cells.map Prod.fst := by
    intro inside
    obtain ⟨other, there⟩ := represents.allocated inside
    rw [fresh] at there
    cases there
  have different : last ≠ cell.1 := fun same => absent (same ▸ member)
  have apart : ∀ x ∈ before, x ≠ last := by
    have distinct := represents.linked.distinct
    rw [split, List.nodup_append] at distinct
    exact fun x inside => distinct.2.2 x inside last (by simp)
  refine ⟨_, batchNew_eq name path fresh tail found, rfl, ?_⟩
  generalize shape : (s.write cell.1 { addNodePath cell.2 path with
      name := .text name, num := path.length, next := .null, prev := .node last }).write last
        { node with next := .node cell.1 } = u
  have next : ∀ x, u.next x =
      if x = last then .node cell.1 else if x = cell.1 then .null else s.next x := by
    intro x
    rw [← shape, write_next, write_next]
  have prev : ∀ x, u.prev x = if x = cell.1 then .node last else s.prev x := by
    intro x
    rw [← shape, write_prev, write_prev]
    by_cases same : x = last
    · rw [if_pos same, same, if_neg different, prev_node found]
    · rw [if_neg same]
  have heap : ∀ x, u.heap x = if x = last then some { node with next := .node cell.1 }
      else if x = cell.1 then some { addNodePath cell.2 path with
        name := .text name, num := path.length, next := .null, prev := .node last }
      else s.heap x := by
    intro x
    rw [← shape, write_heap, write_heap]
  have head : u.head = s.head := by rw [← shape]; rfl
  refine ⟨?_, ?_, ?_, ?_, ?_⟩
  · have linked := represents.linked
    rw [split] at linked absent
    have pushed : Linked u.next u.prev (before ++ [last] ++ [cell.1]) := by
      refine linked.push absent ?_ ?_ ?_ ?_ ?_
      · intro x inside
        rw [next, if_neg (apart x inside), if_neg]
        exact fun same => absent (by simp [← same, inside])
      · intro x inside
        rw [prev, if_neg]
        exact fun same => absent (same ▸ inside)
      · rw [next, if_pos rfl]
      · rw [prev, if_pos rfl]
      · rw [next, if_neg different.symm, if_pos rfl]
    have listed : s.head :: sentinel ::
        (cells ++ [(cell.1, (⟨name, path, [], cell.2.path⟩ : Entry))]).map Prod.fst =
          before ++ [last] ++ [cell.1] := by
      rw [← split]
      simp
    change Linked u.next u.prev (u.head :: _)
    rw [head, listed]
    exact pushed
  · rw [List.map_append, List.map_singleton, ← List.cons_append, List.getLast?_concat, Option.map_some]
  · intro other inside
    rcases List.mem_append.mp inside with old | new
    · refine stored_congr represents.stored ?_ other old
      intro kept _ node' there
      have far : kept.1 ≠ cell.1 := by
        intro same
        rw [same, fresh] at there
        cases there
      change ∃ other, u.heap kept.1 = some other ∧ _
      rw [heap, if_neg far]
      by_cases same : kept.1 = last
      · rw [same, found] at there
        obtain rfl := Option.some.inj there
        exact ⟨_, if_pos same, rfl, rfl, rfl⟩
      · exact ⟨node', by rw [if_neg same, there], rfl, rfl, rfl⟩
    · obtain rfl := List.mem_singleton.mp new
      change ∃ other, u.heap cell.1 = some other ∧ _
      rw [heap, if_neg different.symm, if_pos rfl]
      exact ⟨_, rfl, Stores.define bound short⟩
  · rw [List.map_append, List.map_singleton, List.nodup_append]
    refine ⟨represents.distinct, List.nodup_singleton _, ?_⟩
    intro one member two only same
    obtain ⟨other, inside, rfl⟩ := List.mem_map.mp member
    exact unbound other inside (same.trans (List.mem_singleton.mp only))
  · simpa using represents.live

/-- The predecessor of a cell. -/
theorem Represents.before (represents : Represents s sentinel (front ++ (a, entry) :: rest)) :
    ∃ before x, s.head :: sentinel :: front.map Prod.fst = before ++ [x] ∧ s.prev a = .node x ∧
      Linked s.next s.prev (before ++ x :: a :: rest.map Prod.fst) := by
  have nonempty : (s.head :: sentinel :: front.map Prod.fst) ≠ [] := by simp
  have split := List.dropLast_append_getLast nonempty
  have linked := represents.linked
  have shape : s.head :: sentinel :: (front ++ (a, entry) :: rest).map Prod.fst =
      (s.head :: sentinel :: front.map Prod.fst) ++ a :: rest.map Prod.fst := by simp
  rw [shape, ← split, List.append_assoc, List.singleton_append] at linked
  exact ⟨_, _, split.symm, linked.next_eq.2, linked⟩

/-- The entries but one have distinct names. -/
theorem Represents.distinct_without (represents : Represents s sentinel (front ++ (a, entry) :: rest)) :
    ((front ++ rest).map fun cell => cell.2.name).Nodup := by
  refine represents.distinct.sublist (List.Sublist.map _ ?_)
  exact (List.Sublist.refl front).append (List.sublist_cons_self _ rest)

@[simp] theorem free_heap {b : Addr} : (s.free a).heap b = if b = a then none else s.heap b := by
  simp only [Shell.free, Function.update_apply]

theorem free_next {b : Addr} (different : b ≠ a) : (s.free a).next b = s.next b := by
  simp only [Shell.next, free_heap, if_neg different]

theorem free_prev {b : Addr} (different : b ≠ a) : (s.free a).prev b = s.prev b := by
  simp only [Shell.prev, free_heap, if_neg different]

/-- The last alias is removed at the tail. -/
theorem Represents.pop (represents : Represents s sentinel (front ++ [(a, entry)])) :
    ∃ t, s.delete a = some t ∧ t.head = s.head ∧ Represents t sentinel front := by
  obtain ⟨node, found, _⟩ := represents.stored (a, entry) (by simp)
  obtain ⟨before, x, split, back, linked⟩ := represents.before
  obtain ⟨notHead, notSentinel, others⟩ := represents.apart
  have tail : s.tail = .node a := by
    have ends := represents.tail
    rw [List.map_append, List.map_singleton, ← List.cons_append, List.getLast?_concat] at ends
    exact (Option.some.inj ends).symm
  have null : node.next = .null := by
    rw [← next_node found]
    exact linked.ends a (by simp)
  have prev : node.prev = .node x := (prev_node found).symm.trans back
  have member : x ∈ s.head :: sentinel :: (front ++ [(a, entry)]).map Prod.fst := by
    have inside : x ∈ s.head :: sentinel :: front.map Prod.fst := by simp [split]
    simp only [List.map_append, List.mem_cons, List.mem_append] at inside ⊢
    grind
  obtain ⟨lastNode, there⟩ := represents.allocated member
  have apart : x ≠ a := by
    have distinct := linked.distinct
    rw [List.nodup_append, List.nodup_cons] at distinct
    exact fun same => distinct.2.1.1 (by simp [same])
  refine ⟨({ s with tail := .node x }.write x { lastNode with next := .null }).free a, ?_, rfl, ?_⟩
  · simp only [Shell.delete, Shell.load, found, Option.bind_eq_bind, Option.bind_some, null, if_true,
      tail, prev, Shell.store, there, Option.map_some]
    rfl
  have far : ∀ y ∈ before ++ [x], y ≠ a := by
    intro y inside same
    have distinct := linked.distinct
    rw [show before ++ x :: a :: List.map Prod.fst [] = before ++ [x] ++ [a] by simp,
      List.nodup_append] at distinct
    exact distinct.2.2 y inside a (by simp) same
  have apartBefore : ∀ y ∈ before, y ≠ x := by
    have distinct := linked.distinct
    rw [List.nodup_append] at distinct
    exact fun y inside => distinct.2.2 y inside x (by simp)
  refine ⟨?_, ?_, ?_, ?_, ?_⟩
  · change Linked _ _ (s.head :: _)
    rw [split]
    refine Linked.dropLast (a := a) (by simpa using linked) ?_ ?_ ?_
    · intro y inside
      rw [free_next (far y (by simp [inside])), write_next, if_neg (apartBefore y inside)]
      rfl
    · intro y inside
      rw [free_prev (far y inside), write_prev]
      split
      · rename_i same
        rw [same, prev_node there]
      · rfl
    · rw [free_next apart, write_next, if_pos rfl]
  · have ends : (s.head :: sentinel :: front.map Prod.fst).getLast? = some x := by
      rw [split, List.getLast?_concat]
    rw [List.getLast?_cons_cons] at ends
    rw [ends]
    rfl
  · refine stored_congr (fun cell inside => represents.stored cell (by simp [inside])) ?_
    intro kept inside node' present
    rw [free_heap, if_neg (others kept (by simp [inside])), write_heap]
    split
    · rename_i same
      rw [same, there] at present
      obtain rfl := Option.some.inj present
      exact ⟨_, rfl, rfl, rfl, rfl⟩
    · exact ⟨node', present, rfl, rfl, rfl⟩
  · simpa using represents.distinct_without
  · have live := represents.live
    rw [List.length_append, List.length_singleton] at live
    exact Nat.le_sub_of_add_le live

/-- An alias with a successor is removed by joining its neighbours. -/
theorem Represents.remove {b : Addr} {second : Entry}
    (represents : Represents s sentinel (front ++ (a, entry) :: (b, second) :: rest)) :
    ∃ t, s.delete a = some t ∧ t.head = s.head ∧
      Represents t sentinel (front ++ (b, second) :: rest) := by
  obtain ⟨node, found, _⟩ := represents.stored (a, entry) (by simp)
  obtain ⟨nextNode, after, _⟩ := represents.stored (b, second) (by simp)
  obtain ⟨before, x, split, back, linked⟩ := represents.before
  obtain ⟨notHead, notSentinel, others⟩ := represents.apart
  have onward : node.next = .node b := by
    have shifted : Linked s.next s.prev ((before ++ [x]) ++ a :: b :: rest.map Prod.fst) := by
      simpa using linked
    rw [← next_node found]
    exact shifted.next_eq.1
  have prev : node.prev = .node x := (prev_node found).symm.trans back
  have member : x ∈ s.head :: sentinel :: (front ++ (a, entry) :: (b, second) :: rest).map Prod.fst := by
    have inside : x ∈ s.head :: sentinel :: front.map Prod.fst := by simp [split]
    simp only [List.map_append, List.mem_cons, List.mem_append] at inside ⊢
    grind
  obtain ⟨lastNode, there⟩ := represents.allocated member
  have distinct := linked.distinct
  rw [List.map_cons, List.nodup_append, List.nodup_cons, List.nodup_cons, List.nodup_cons] at distinct
  obtain ⟨_, ⟨xAbsent, aAbsent, bAbsent, _⟩, beforeApart⟩ := distinct
  have xa : x ≠ a := fun same => xAbsent (by simp [same])
  have xb : x ≠ b := fun same => xAbsent (by simp [same])
  have ab : a ≠ b := fun same => aAbsent (by simp [same])
  refine ⟨((s.write x { lastNode with next := .node b }).write b
    { nextNode with prev := .node x }).free a, ?_, rfl, ?_⟩
  · have joined : (s.write x { lastNode with next := .node b }).heap a = some node := by
      rw [write_heap, if_neg xa.symm, found]
    have behind : (s.write x { lastNode with next := .node b }).heap b = some nextNode := by
      rw [write_heap, if_neg xb.symm, after]
    have more : (Link.node b : Link Addr) ≠ .null := by simp
    simp only [Shell.delete, Shell.load, found, Option.bind_eq_bind, Option.bind_some, onward,
      if_neg more, prev, store_node there, joined, store_node behind]
  refine ⟨?_, ?_, ?_, ?_, ?_⟩
  · change Linked _ _ (s.head :: _)
    rw [List.map_append, List.map_cons, ← List.cons_append, ← List.cons_append, split,
      List.append_assoc, List.singleton_append]
    refine Linked.remove (a := a) linked ?_ ?_ ?_ ?_
    · intro y inside
      have ya : y ≠ a := by
        rcases List.mem_append.mp inside with left | right
        · exact beforeApart y left a (by simp)
        · exact fun same => aAbsent (same ▸ right)
      have yx : y ≠ x := by
        rcases List.mem_append.mp inside with left | right
        · exact beforeApart y left x (by simp)
        · exact fun same => xAbsent (List.mem_cons_of_mem a (same ▸ right))
      rw [free_next ya, write_next]
      split
      · rename_i same
        rw [same, next_node after]
      · rw [write_next, if_neg yx]
    · intro y inside
      have ya : y ≠ a := by
        rcases List.mem_append.mp inside with left | right
        · exact beforeApart y left a (by simp)
        · rcases List.mem_cons.mp right with rfl | right
          · exact xa
          · exact fun same => aAbsent (List.mem_cons_of_mem b (same ▸ right))
      have yb : y ≠ b := by
        rcases List.mem_append.mp inside with left | right
        · exact beforeApart y left b (by simp)
        · rcases List.mem_cons.mp right with rfl | right
          · exact xb
          · exact fun same => bAbsent (same ▸ right)
      rw [free_prev ya, write_prev, if_neg yb, write_prev]
      split
      · rename_i same
        rw [same, prev_node there]
      · rfl
    · rw [free_next xa, write_next, if_neg xb, write_next, if_pos rfl]
    · rw [free_prev ab.symm, write_prev, if_pos rfl]
  · have ends := represents.tail
    rw [List.map_append, List.map_cons, List.map_cons, ← List.cons_append,
      List.getLast?_append_cons, List.getLast?_cons_cons] at ends
    change _ = some s.tail
    rw [List.map_append, List.map_cons, ← List.cons_append, List.getLast?_append_cons]
    exact ends
  · refine stored_congr (fun cell inside => represents.stored cell (by
      rcases List.mem_append.mp inside with left | right
      · exact List.mem_append_left _ left
      · exact List.mem_append_right _ (List.mem_cons_of_mem _ right))) ?_
    intro kept inside node' present
    rw [free_heap, if_neg (others kept inside), write_heap]
    split
    · rename_i same
      rw [same, after] at present
      obtain rfl := Option.some.inj present
      exact ⟨_, rfl, rfl, rfl, rfl⟩
    · rw [write_heap]
      split
      · rename_i same
        rw [same, there] at present
        obtain rfl := Option.some.inj present
        exact ⟨_, rfl, rfl, rfl, rfl⟩
      · exact ⟨node', present, rfl, rfl, rfl⟩
  · exact represents.distinct_without
  · have live := represents.live
    simp only [List.length_append, List.length_cons] at live ⊢
    change _ ≤ s.live - 1
    omega

/-- `unalias` removes the entry, wherever it stands. -/
theorem Represents.delete (represents : Represents s sentinel (front ++ (a, entry) :: rest)) :
    ∃ t, s.delete a = some t ∧ t.head = s.head ∧ Represents t sentinel (front ++ rest) := by
  cases rest with
  | nil =>
    obtain ⟨t, deleted, head, after⟩ := represents.pop
    exact ⟨t, deleted, head, by simpa using after⟩
  | cons cell others => exact represents.remove

end Change

/-- Both loops start with an empty list. -/
theorem start_represents {head tail : Addr × Node} (apart : head.1 ≠ tail.1) :
    Represents (start head tail) tail.1 [] := by
  have front : (start head tail).heap head.1 =
      some { head.2 with next := .node tail.1, prev := .null } := by
    simp [start, apart]
  have back : (start head tail).heap tail.1 =
      some { tail.2 with next := .null, prev := .node head.1 } := by
    simp [start]
  refine ⟨⟨?_, ?_, ?_⟩, rfl, by simp, by simp, by simp⟩
  · rw [List.map_nil, List.isChain_pair]
    exact ⟨next_node front, prev_node back⟩
  · intro a same
    obtain rfl : tail.1 = a := by simpa using same
    exact next_node back
  · simpa [start] using apart

end Cs537.Mysh
