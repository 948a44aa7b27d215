import Cs537.Library.DoublyLinked
import Cs537.Library.Runs
import Cs537.Mysh.Words

/-!
# The shell of p3

Memory is the part of the heap that holds alias nodes. A pointer field of a fresh
node holds whatever `malloc` left there. Reading or writing through a pointer that is
not that of an allocated node, printing a pointer that is not a string, writing past
an array and a list that never ends have no result.

The two command loops of the source are two copies of the same text, and are two
functions here. Blocks that are the same word for word in both copies are stated
once: the printing of aliases, `unalias`, and everything from the search for a
redirection to the child process. An input is a line as `fgets` returns it, together
with what the environment answers: the block that `malloc` returns if the line needs
a node, and whether `fork` and `execv` succeed. Calls of `malloc` and `strdup` are
taken to succeed. The strings on the heap are not modelled: those that nodes refer to
are never freed.
-/

namespace Cs537.Mysh

open DoublyLinked

def MAX_CMD_LINE_SIZE : Nat := 512

def MAX_LINE_CMDS : Nat := 100

def INVALID_REDIRECT : String := "Redirection misformatted.\n"

def UNALIAS_PARTS_ERR : String := "unalias: Incorrect number of arguments.\n"

def ALIAS_DANGER_ERR : String := "alias: Too dangerous to alias that.\n"

/-- The line that ends the loop. -/
def exitLine : Text := ['e', 'x', 'i', 't', '\n']

def aliasWord : Text := ['a', 'l', 'i', 'a', 's']

def unaliasWord : Text := ['u', 'n', 'a', 'l', 'i', 'a', 's']

def exitWord : Text := ['e', 'x', 'i', 't']

/-- The address of an alias node. -/
abbrev Addr := Nat

/-- What a field of type `char *` holds. -/
inductive Pointer where
  | null
  | text (content : Text)
  | wild
deriving DecidableEq

namespace Pointer

/-- The string behind a pointer. -/
def text? : Pointer → Option Text
  | .text content => some content
  | _ => none

end Pointer

/-- `Alias_Node`, with its field `alias` as `name`. The array `path` has the indices below `MAX_LINE_CMDS`. -/
structure Node where
  name : Pointer
  path : Nat → Pointer
  num : Int
  next : Link Addr
  prev : Link Addr

/-- What the shell writes, and the programs that it starts: the path, the argument
vector and the file of a redirection. -/
inductive Event where
  | prompt
  | echo (line : Text)
  | print (line : Text)
  | error (message : String)
  | execv (path : Pointer) (argv : List Pointer) (output : Option Text)
  | notFound (path : Pointer)
  | forkFailed
deriving DecidableEq

/-- The alias nodes in memory, with their number, and the two pointers of a command loop. -/
structure Shell where
  heap : Addr → Option Node
  live : Nat
  head : Addr
  tail : Link Addr

/-- A line, and the answers of the environment while it is executed. -/
structure Input where
  line : Text
  cell : Addr × Node
  forks : Bool
  execs : Bool

/-! ## Memory -/

namespace Shell

def load (s : Shell) : Link Addr → Option Node
  | .node a => s.heap a
  | _ => none

def store (s : Shell) (link : Link Addr) (change : Node → Node) : Option Shell :=
  match link with
  | .node a =>
    (s.heap a).map fun node => { s with heap := Function.update s.heap a (some (change node)) }
  | _ => none

def malloc (s : Shell) (cell : Addr × Node) : Shell :=
  { s with heap := Function.update s.heap cell.1 (some cell.2), live := s.live + 1 }

def free (s : Shell) (a : Addr) : Shell :=
  { s with heap := Function.update s.heap a none, live := s.live - 1 }

end Shell

/-! ## The functions on the list -/

/-- `addNodePath`: the first entries of the array are assigned. -/
def addNodePath (node : Node) (path : List Text) : Node :=
  { node with path := fun i => (path[i]?).elim (node.path i) .text }

/-- The words of a node as they are printed, in a buffer of the size of a line. -/
def Node.pathText (node : Node) : Option Text :=
  if node.num ≤ MAX_LINE_CMDS then do
    let list ← (List.range node.num.toNat).mapM fun i => (node.path i).text?
    if (unwords list).length < MAX_CMD_LINE_SIZE then some (unwords list) else none
  else none

/-- The line that is printed for a node. -/
def Node.print (node : Node) : Option Event := do
  let name ← node.name.text?
  let path ← node.pathText
  some (.print (name ++ ' ' :: path ++ ['\n']))

/-- The entries of `path` up to the first null. -/
def Node.vector (node : Node) : List Pointer :=
  ((List.range MAX_LINE_CMDS).map node.path).takeWhile (· ≠ .null)

/-- The loop of `checkAlias`. A list of more nodes than there are in memory is circular. -/
def searchFrom (heap : Addr → Option Node) (wanted : Text) : Nat → Link Addr → Option (Option Addr)
  | _, .null => some none
  | fuel + 1, .node temp => do
    let node ← heap temp
    let name ← node.name.text?
    if name = wanted then some (some temp) else searchFrom heap wanted fuel node.next
  | _, _ => none

/-- The loop of `printList`. -/
def printFrom (heap : Addr → Option Node) : Nat → Link Addr → Option (List Event)
  | _, .null => some []
  | fuel + 1, .node temp => do
    let node ← heap temp
    let event ← node.print
    let later ← printFrom heap fuel node.next
    some (event :: later)
  | _, _ => none

namespace Shell

/-- `checkAlias`: the node with this name behind the given one, or null. -/
def checkAlias (s : Shell) (head : Link Addr) (name : Text) : Option (Option Addr) := do
  let node ← s.load head
  searchFrom s.heap name s.live node.next

/-- `printList` -/
def printList (s : Shell) (head : Link Addr) : Option (List Event) :=
  if head = .null then some []
  else do
    let node ← s.load head
    printFrom s.heap s.live node.next

/-- `head->next` -/
def first (s : Shell) : Option (Link Addr) := (s.load (.node s.head)).map Node.next

/-- Print a single alias. -/
def printAlias (s : Shell) (name : Text) : Option (List Event) := do
  match ← s.checkAlias (← s.first) name with
  | none => some []
  | some print => do
    let node ← s.load (.node print)
    let event ← node.print
    some [event]

/-- Delete a node: the last one is removed at the tail, another one by joining its
neighbours. -/
def delete (s : Shell) (del : Addr) : Option Shell := do
  let node ← s.load (.node del)
  if node.next = .null then do
    let last ← s.load s.tail
    let s := { s with tail := last.prev }
    let s ← s.store s.tail fun x => { x with next := .null }
    some (s.free del)
  else do
    let s ← s.store node.prev fun x => { x with next := node.next }
    let node ← s.load (.node del)
    let s ← s.store node.next fun x => { x with prev := node.prev }
    some (s.free del)

/-- The block of `unalias`. -/
def unalias (s : Shell) : List Text → Option (Shell × List Event)
  | [_, name] => do
    match ← s.checkAlias (← s.first) name with
    | none => some (s, [])
    | some del => do
      let s ← s.delete del
      some (s, [])
  | _ => some (s, [.error UNALIAS_PARTS_ERR])

/-- What the child process does: an alias is executed without a redirection. -/
def child (s : Shell) (input : Input) (args output redirected : List Text) : Option (List Event) := do
  let run (path : Pointer) (argv : List Pointer) (file : Option Text) : List Event :=
    .execv path argv file :: if input.execs then [] else [.notFound path]
  match ← s.checkAlias (← s.first) (args.headD []) with
  | some found => do
    let node ← s.load (.node found)
    some (run (node.path 0) node.vector none)
  | none =>
    if input.line.contains '>' then
      some (run (.text (redirected.headD [])) (redirected.map .text) (some (output.headD [])))
    else some (run (.text (args.headD [])) (args.map .text) none)

/-- The search for a redirection, `fork` and the child process. The text before the mark
and the text behind it are the first two pieces of the line. -/
def launch (s : Shell) (input : Input) (args : List Text) : Option (List Event) :=
  let pieces := strtok (· = '>') input.line
  let output := (pieces[1]?).elim [] words
  let redirected := (pieces[0]?).elim [] words
  if 1 < input.line.count '>' then some [.error INVALID_REDIRECT]
  else if MAX_LINE_CMDS ≤ output.length then none
  else if output.length ≠ 1 ∧ input.line.contains '>' then some [.error INVALID_REDIRECT]
  else if MAX_LINE_CMDS ≤ redirected.length then none
  else if redirected.length = 0 ∧ input.line.contains '>' then some [.error INVALID_REDIRECT]
  else if input.forks then s.child input args output redirected
  else some [.forkFailed]

end Shell

/-! ## batch_mode -/

/-- Both sentinels are allocated, and the list is empty. -/
def start (head tail : Addr × Node) : Shell :=
  { heap := Function.update (Function.update (fun _ => none) head.1
      (some { head.2 with next := .node tail.1, prev := .null })) tail.1
      (some { tail.2 with next := .null, prev := .node head.1 })
    live := 2
    head := head.1
    tail := .node tail.1 }

/-- A new node behind the tail, in `batch_mode`. -/
def batchNew (s : Shell) (cell : Addr × Node) (name : Text) (path : List Text) : Option Shell := do
  let new_node := cell.1
  let s := s.malloc cell
  let s ← s.store (.node new_node) fun x => { x with name := .text name }
  let s ← s.store (.node new_node) fun x => { x with next := .null }
  let s ← s.store (.node new_node) fun x => addNodePath x path
  let s ← s.store (.node new_node) fun x => { x with prev := s.tail }
  let s ← s.store (.node new_node) fun x => { x with num := path.length }
  let s ← s.store s.tail fun x => { x with next := .node new_node }
  some { s with tail := .node new_node }

/-- The block of `alias` in `batch_mode`. -/
def batchAlias (s : Shell) (input : Input) : List Text → Option (Shell × List Event)
  | [_] => do
    let events ← s.printList (← s.first)
    some (s, events)
  | [_, name] => do
    let events ← s.printAlias name
    some (s, events)
  | _ :: name :: path =>
    if name = aliasWord ∨ name = unaliasWord ∨ name = exitWord then
      some (s, [.error ALIAS_DANGER_ERR])
    else do
      match ← s.checkAlias (← s.first) name with
      | some old => do
        let s ← s.store (.node old) fun x => { addNodePath x path with num := path.length }
        some (s, [])
      | none => do
        let s ← batchNew s input.cell name path
        some (s, [])
  | [] => none

/-- The body of the loop of `batch_mode`, behind the test for `exit`. -/
def batchLine (s : Shell) (input : Input) : Option (Shell × List Event) :=
  let args := words input.line
  if MAX_LINE_CMDS ≤ args.length then none
  else if args = [] then some (s, [])
  else if args.head? = some aliasWord then batchAlias s input args
  else if args.head? = some unaliasWord then s.unalias args
  else (s.launch input args).map fun events => (s, events)

/-! ## interactive_mode -/

/-- A new node behind the tail, in `interactive_mode`: its own link is not assigned. -/
def interactiveNew (s : Shell) (cell : Addr × Node) (name : Text) (path : List Text) :
    Option Shell := do
  let new_node := cell.1
  let s := s.malloc cell
  let s ← s.store (.node new_node) fun x => { x with name := .text name }
  let s ← s.store (.node new_node) fun x => addNodePath x path
  let s ← s.store (.node new_node) fun x => { x with prev := s.tail }
  let s ← s.store (.node new_node) fun x => { x with num := path.length }
  let s ← s.store s.tail fun x => { x with next := .node new_node }
  some { s with tail := .node new_node }

/-- The block of `alias` in `interactive_mode`. -/
def interactiveAlias (s : Shell) (input : Input) : List Text → Option (Shell × List Event)
  | [_] => do
    let events ← s.printList (← s.first)
    some (s, events)
  | [_, name] => do
    let events ← s.printAlias name
    some (s, events)
  | _ :: name :: path =>
    if name = aliasWord ∨ name = unaliasWord ∨ name = exitWord then
      some (s, [.error ALIAS_DANGER_ERR])
    else do
      match ← s.checkAlias (← s.first) name with
      | some old => do
        let s ← s.store (.node old) fun x => { addNodePath x path with num := path.length }
        some (s, [])
      | none => do
        let s ← interactiveNew s input.cell name path
        some (s, [])
  | [] => none

/-- The body of the loop of `interactive_mode`, behind the test for `exit`. -/
def interactiveLine (s : Shell) (input : Input) : Option (Shell × List Event) :=
  let args := words input.line
  if MAX_LINE_CMDS ≤ args.length then none
  else if args = [] then some (s, [])
  else if args.head? = some aliasWord then interactiveAlias s input args
  else if args.head? = some unaliasWord then s.unalias args
  else (s.launch input args).map fun events => (s, events)

/-! ## The loops -/

/-- A command loop with what it has done so far; lines behind `exit` are not read. -/
structure Session where
  shell : Shell
  running : Bool
  output : List Event

/-- The start of either loop. -/
def opened (head tail : Addr × Node) : Session := ⟨start head tail, true, []⟩

/-- One iteration of the loop of `batch_mode`: the line is written out first. -/
def batchStep (session : Session) (input : Input) : Option Session :=
  if session.running then
    let output := session.output ++ [.echo input.line]
    if input.line = exitLine then some { session with running := false, output := output }
    else (batchLine session.shell input).map fun (shell, events) =>
      { session with shell := shell, output := output ++ events }
  else some session

/-- One iteration of the loop of `interactive_mode`: the prompt is written before the
line is read. -/
def interactiveStep (session : Session) (input : Input) : Option Session :=
  if session.running then
    let output := session.output ++ [.prompt]
    if input.line = exitLine then some { session with running := false, output := output }
    else (interactiveLine session.shell input).map fun (shell, events) =>
      { session with shell := shell, output := output ++ events }
  else some session

end Cs537.Mysh
