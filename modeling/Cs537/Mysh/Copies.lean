import Cs537.Mysh.AliasTable

/-!
# The two copies of the command loop

`interactive_mode` and `batch_mode` differ in one assignment: only the latter clears
the link of a new node. They do the same for the same lines and the same answers of
the environment as long as every new node happens to have a null link; otherwise the
list of `interactive_mode` goes on behind its last node.
-/

namespace Cs537.Mysh

open DoublyLinked OrderedMap

/-- What the two loops have to agree on: everything but the prompt and the echo. -/
def Event.shared : Event → Bool
  | .prompt => false
  | .echo _ => false
  | _ => true

/-- The two sessions have the same list, and the same outputs, errors and executions. -/
structure Agrees (batch interactive : Session) : Prop where
  shell : interactive.shell = batch.shell
  running : interactive.running = batch.running
  output : interactive.output.filter Event.shared = batch.output.filter Event.shared

/-- The line needs a new node: it defines a name that is not bound. -/
def Appends (s : Shell) (line : Text) : Prop :=
  match words line with
  | first :: name :: _ :: _ =>
    first = aliasWord ∧ ¬ reserved name ∧
      (s.first.bind fun head => s.checkAlias head name) = some none
  | _ => False

instance (s : Shell) (line : Text) : Decidable (Appends s line) := by
  unfold Appends
  split <;> infer_instance

/-- The block for a new node has a null in the field `next`. -/
def Cleared (session : Session) (input : Input) : Prop :=
  Appends session.shell input.line → input.cell.2.next = .null

instance (session : Session) (input : Input) : Decidable (Cleared session input) :=
  inferInstanceAs (Decidable (_ → _))

/-- A new node is the same in both copies if its link is null already. -/
theorem interactiveNew_eq {s : Shell} {cell : Addr × Node} {name : Text} {path : List Text}
    (cleared : cell.2.next = .null) :
    interactiveNew s cell name path = batchNew s cell name path := by
  simp only [interactiveNew, batchNew, Shell.store, Shell.malloc, Function.update_self,
    Option.map_some, Option.bind_eq_bind, Option.bind_some, Function.update_idem]
  rw [show ({ cell.2 with name := .text name } : Node) = { cell.2 with name := .text name, next := .null } by
    rw [← cleared]]

/-- The block of `alias` does the same in both copies if the new node, if any, has a null
link. -/
theorem interactiveAlias_eq {s : Shell} {input : Input}
    (named : (words input.line).head? = some aliasWord)
    (cleared : Appends s input.line → input.cell.2.next = .null) :
    interactiveAlias s input (words input.line) = batchAlias s input (words input.line) := by
  unfold Appends at cleared
  rcases shape : words input.line with _ | ⟨first, _ | ⟨name, _ | ⟨word, more⟩⟩⟩
  · rfl
  · rfl
  · rfl
  · rw [shape] at named cleared
    obtain rfl : first = aliasWord := by simpa using named
    unfold interactiveAlias batchAlias
    dsimp only
    split
    · rfl
    · rename_i allowed
      cases head : s.first with
      | none => rfl
      | some link =>
        cases found : s.checkAlias link name with
        | none => simp only [Option.bind_eq_bind, Option.bind_some, found, Option.bind_none]
        | some answer =>
          cases answer with
          | some old => simp only [Option.bind_eq_bind, Option.bind_some, found]
          | none =>
            have null := cleared ⟨rfl, allowed, by rw [head, Option.bind_some, found]⟩
            simp only [Option.bind_eq_bind, Option.bind_some, found, interactiveNew_eq null]

/-- A line is executed in the same way by both copies. -/
theorem interactiveLine_eq {s : Shell} {input : Input}
    (cleared : Appends s input.line → input.cell.2.next = .null) :
    interactiveLine s input = batchLine s input := by
  unfold interactiveLine batchLine
  dsimp only
  split_ifs with many none named
  · rfl
  · rfl
  · exact interactiveAlias_eq named cleared
  · rfl
  · rfl

/-- A step of `batch_mode` is followed by the same step of `interactive_mode`. -/
theorem Agrees.step {batch interactive next : Session} {input : Input}
    (agrees : Agrees batch interactive) (cleared : Cleared batch input)
    (moved : batchStep batch input = some next) :
    ∃ next', interactiveStep interactive input = some next' ∧ Agrees next next' := by
  have output := agrees.output
  unfold batchStep at moved
  unfold interactiveStep
  rw [agrees.running, agrees.shell, interactiveLine_eq cleared]
  by_cases goesOn : batch.running = true
  · rw [if_pos goesOn] at moved ⊢
    dsimp only at moved ⊢
    by_cases leaves : input.line = exitLine
    · rw [if_pos leaves] at moved ⊢
      obtain rfl := Option.some.inj moved
      refine ⟨_, rfl, rfl, rfl, ?_⟩
      simpa [Event.shared] using output
    · rw [if_neg leaves] at moved ⊢
      obtain ⟨⟨shell, events⟩, executed, rfl⟩ := Option.map_eq_some_iff.mp moved
      rw [executed]
      refine ⟨_, rfl, rfl, rfl, ?_⟩
      simpa [Event.shared] using output
  · rw [if_neg goesOn] at moved ⊢
    obtain rfl := Option.some.inj moved
    exact ⟨interactive, rfl, agrees⟩

/-- On the same lines and the same answers of the environment both loops complete, with
the same list and the same outputs, errors and executions, if every new node has a null
link. -/
theorem copies_agree {head tail : Addr × Node} (apart : head.1 ≠ tail.1) {inputs : List Input}
    (admissible : Runs.Meets batchStep Admissible (opened head tail) inputs)
    (cleared : Runs.Meets batchStep Cleared (opened head tail) inputs) :
    ∃ batch interactive, Runs.run batchStep (opened head tail) inputs = some batch ∧
      Runs.run interactiveStep (opened head tail) inputs = some interactive ∧
      Agrees batch interactive := by
  have start : Agrees (opened head tail) (opened head tail) ∧
      ∃ table, Refines (opened head tail) table :=
    ⟨⟨rfl, rfl, rfl⟩, ⟨[], true, []⟩, rfl, rfl, tail.1, [], start_represents apart, rfl⟩
  have simulates : ∀ (batch interactive : Session) input,
      (Admissible batch input ∧ Cleared batch input) →
      (Agrees batch interactive ∧ ∃ table, Refines batch table) →
      ∃ next next', batchStep batch input = some next ∧ interactiveStep interactive input = some next' ∧
        (Agrees next next' ∧ ∃ table, Refines next table) := by
    intro batch interactive input guard ⟨agrees, table, refines⟩
    obtain ⟨next, moved, kept⟩ := refines.step guard.1
    obtain ⟨next', moved', same⟩ := agrees.step guard.2 moved
    exact ⟨next, next', moved, moved', same, _, kept⟩
  obtain ⟨batch, interactive, completed, completed', agrees, _⟩ :=
    Runs.run_lockstep simulates start (admissible.and cleared)
  exact ⟨batch, interactive, completed, completed', agrees⟩

/-- A block with a null link and junk in every other field. -/
def unlinked : Node := { junk with next := .null }

/-- Two definitions and a listing, with a block of this kind for each node. -/
def listing (node : Node) : List Input :=
  [⟨"alias a b\n".toList, (2, node), true, true⟩, ⟨"alias c d\n".toList, (3, node), true, true⟩,
    ⟨"alias\n".toList, (4, node), true, true⟩]

/-- Both copies list the two aliases. -/
theorem copies_agree_unlinked :
    ∃ batch interactive,
      Runs.run batchStep (opened (0, junk) (1, junk)) (listing unlinked) = some batch ∧
      Runs.run interactiveStep (opened (0, junk) (1, junk)) (listing unlinked) = some interactive ∧
      Agrees batch interactive :=
  @copies_agree (0, junk) (1, junk) (by decide) (listing unlinked) (by decide +kernel)
    (by decide +kernel)

/-- Behind the first alias `interactive_mode` follows what `malloc` left in the node. -/
theorem copies_differ :
    ¬ ∀ (head tail : Addr × Node) (inputs : List Input), head.1 ≠ tail.1 →
      Runs.Meets batchStep Admissible (opened head tail) inputs →
      ∃ batch interactive, Runs.run batchStep (opened head tail) inputs = some batch ∧
        Runs.run interactiveStep (opened head tail) inputs = some interactive ∧
        Agrees batch interactive := by
  intro claimed
  obtain ⟨_, interactive, _, completed, _⟩ :=
    claimed (0, junk) (1, junk) (listing junk) (by decide) (by decide +kernel)
  have undefined_ : (Runs.run interactiveStep (opened (0, junk) (1, junk)) (listing junk)).isSome = false := by
    decide +kernel
  rw [completed] at undefined_
  cases undefined_

end Cs537.Mysh
