import Cs537.Mysh.AliasList

/-!
# The alias list refines an ordered map

The specification reads lines. It keeps an ordered map from names to lists of words,
and the lines that `alias` prints. `batch_mode` refines it: every line of at most 99
words has a result, and the list in memory represents the map afterwards. `malloc` is
asked only to return a block that is not in use.
-/

namespace Cs537.Mysh

open DoublyLinked OrderedMap

/-- The names that cannot be aliased. -/
def reserved (name : Text) : Prop := name = aliasWord ∨ name = unaliasWord ∨ name = exitWord

instance (name : Text) : Decidable (reserved name) := inferInstanceAs (Decidable (_ ∨ _))

/-- The map after a line. -/
def revise (bindings : List (Text × List Text)) (line : Text) : List (Text × List Text) :=
  match words line with
  | [first, name] => if first = unaliasWord then erase Prod.fst name bindings else bindings
  | first :: name :: word :: more =>
    if first = aliasWord ∧ ¬ reserved name then
      upsert Prod.fst name (fun _ => (name, word :: more)) (name, word :: more) bindings
    else bindings
  | _ => bindings

/-- The line that is printed for a binding. -/
def printLine (binding : Text × List Text) : Text := binding.1 ++ ' ' :: unwords binding.2 ++ ['\n']

/-- What a line prints of the map. -/
def shown (bindings : List (Text × List Text)) (line : Text) : List Text :=
  match words line with
  | [first] => if first = aliasWord then bindings.map printLine else []
  | [first, name] =>
    if first = aliasWord then (find Prod.fst name bindings).toList.map printLine else []
  | _ => []

/-- The specification of the alias commands. -/
structure Table where
  bindings : List (Text × List Text)
  running : Bool
  printed : List Text
deriving DecidableEq

/-- The effect of a line. -/
def Table.read (table : Table) (line : Text) : Table :=
  if table.running then
    if line = exitLine then { table with running := false }
    else { table with
      bindings := revise table.bindings line
      printed := table.printed ++ shown table.bindings line }
  else table

/-- The lines that were printed for aliases. -/
def printed (events : List Event) : List Text :=
  events.filterMap fun event => match event with
    | .print line => some line
    | _ => none

/-- The lines that the loop can execute: at most 99 words, as long as `fgets` reads, and
with a block from `malloc` that is not in use. -/
def Admissible (session : Session) (input : Input) : Prop :=
  (words input.line).length < MAX_LINE_CMDS ∧ input.line.length < MAX_CMD_LINE_SIZE ∧
    session.shell.heap input.cell.1 = none

instance (session : Session) (input : Input) : Decidable (Admissible session input) :=
  inferInstanceAs (Decidable (_ ∧ _ ∧ _))

/-! ## The history of the nodes -/

/-- The entries of a session with the history of each, and whether it still reads lines. -/
structure History where
  entries : List Entry
  running : Bool

/-- The entries after a line, with the history of each. -/
def History.revise (entries : List Entry) (input : Input) : List Entry :=
  match words input.line with
  | [first, name] => if first = unaliasWord then erase Entry.name name entries else entries
  | first :: name :: word :: more =>
    if first = aliasWord ∧ ¬ reserved name then
      upsert Entry.name name
        (fun entry => { entry with words := word :: more, earlier := entry.words :: entry.earlier })
        ⟨name, word :: more, [], input.cell.2.path⟩ entries
    else entries
  | _ => entries

/-- The effect of a line on the history. -/
def History.read (history : History) (input : Input) : History :=
  if history.running then
    if input.line = exitLine then { history with running := false }
    else { history with entries := History.revise history.entries input }
  else history

/-- The binding of an entry. -/
def Entry.binding (entry : Entry) : Text × List Text := (entry.name, entry.words)

/-- Without the history, this is the ordered map. -/
theorem revise_binding (entries : List Entry) (input : Input) :
    (History.revise entries input).map Entry.binding =
      revise (entries.map Entry.binding) input.line := by
  have keys : ∀ entry : Entry, Prod.fst (Entry.binding entry) = Entry.name entry := fun _ => rfl
  unfold History.revise revise
  split
  · split
    · exact erase_map keys entries
    · rfl
  · split
    · refine upsert_map keys ?_ entries
      intro entry same
      simp [Entry.binding, same]
    · rfl
  · rfl

/-! ## One line -/

section Line

variable {s : Shell} {sentinel : Addr} {cells : List (Addr × Entry)} {input : Input}

/-- A search by name, with the cells around the one that is found. -/
theorem find_cases (cells : List (Addr × Entry)) (name : Text) :
    ((cells.find? fun cell => cell.2.name = name) = none ∧ ∀ cell ∈ cells, cell.2.name ≠ name) ∨
      ∃ front cell rest, (cells.find? fun cell => cell.2.name = name) = some cell ∧
        cells = front ++ cell :: rest ∧ cell.2.name = name ∧
        ∀ other ∈ front, other.2.name ≠ name := by
  cases found : cells.find? fun cell => cell.2.name = name with
  | none => exact .inl ⟨rfl, by simpa using found⟩
  | some cell =>
    obtain ⟨same, front, rest, split, before⟩ := List.find?_eq_some_iff_append.mp found
    exact .inr ⟨front, cell, rest, rfl, split, by simpa using same, by simpa using before⟩

/-- What a line leaves: a list with these entries, and these printed lines. -/
def Leaves (s : Shell) (sentinel : Addr) (entries : List Entry) (lines : List Text)
    (result : Option (Shell × List Event)) : Prop :=
  ∃ t events cells, result = some (t, events) ∧ t.head = s.head ∧ Represents t sentinel cells ∧
    cells.map Prod.snd = entries ∧ printed events = lines

/-- `alias name w1 .. wk` with a name that is not reserved. -/
theorem Represents.defines (represents : Represents s sentinel cells)
    (fresh : s.heap input.cell.1 = none) {first name word : Text} {more : List Text}
    (split : words input.line = first :: name :: word :: more)
    (few : (words input.line).length < MAX_LINE_CMDS)
    (short : input.line.length < MAX_CMD_LINE_SIZE) (allowed : ¬ reserved name) :
    Leaves s sentinel
      (upsert Entry.name name
        (fun entry => { entry with words := word :: more, earlier := entry.words :: entry.earlier })
        ⟨name, word :: more, [], input.cell.2.path⟩ (cells.map Prod.snd)) []
      (batchAlias s input (first :: name :: word :: more)) := by
  have bound : (word :: more).length < MAX_LINE_CMDS := by
    rw [split] at few
    simp only [List.length_cons] at few ⊢
    omega
  have fits : (unwords (word :: more)).length < MAX_CMD_LINE_SIZE := unwords_short split short
  have allowed' : ¬ (name = aliasWord ∨ name = unaliasWord ∨ name = exitWord) := allowed
  simp only [batchAlias, if_neg allowed', represents.first, Option.bind_eq_bind, Option.bind_some,
    represents.checkAlias]
  rcases find_cases cells name with ⟨missing, absent⟩ | ⟨front, ⟨a, entry⟩, rest, found, rfl, same, before⟩
  · obtain ⟨t, stored, head, after⟩ := represents.push fresh absent bound fits
    refine ⟨t, [], _, ?_, head, after, ?_, rfl⟩
    · simp only [missing, Option.map_none, stored, Option.bind_some]
    · rw [upsert_absent]
      · simp
      · intro entry member
        obtain ⟨cell, inside, rfl⟩ := List.mem_map.mp member
        exact absent cell inside
  · obtain ⟨t, stored, head, after⟩ := represents.redefine bound fits
    refine ⟨t, [], _, ?_, head, after, ?_, rfl⟩
    · simp only [found, Option.map_some, stored, Option.bind_some]
    · rw [List.map_append, List.map_cons, List.map_append, List.map_cons, upsert_present]
      · intro other member
        obtain ⟨cell, inside, rfl⟩ := List.mem_map.mp member
        exact before cell inside
      · exact same

/-- `unalias name` -/
theorem Represents.unaliases (represents : Represents s sentinel cells) (first name : Text) :
    Leaves s sentinel (erase Entry.name name (cells.map Prod.snd)) [] (s.unalias [first, name]) := by
  simp only [Shell.unalias, represents.first, Option.bind_eq_bind, Option.bind_some,
    represents.checkAlias]
  rcases find_cases cells name with ⟨missing, absent⟩ | ⟨front, ⟨a, entry⟩, rest, found, rfl, same, before⟩
  · refine ⟨s, [], cells, by simp only [missing, Option.map_none], rfl, represents, ?_, rfl⟩
    rw [erase_absent]
    intro entry member
    obtain ⟨cell, inside, rfl⟩ := List.mem_map.mp member
    exact absent cell inside
  · obtain ⟨t, deleted, head, after⟩ := represents.delete
    refine ⟨t, [], _, by simp only [found, Option.map_some, deleted, Option.bind_some], head, after, ?_, rfl⟩
    have distinct : ((front.map Prod.snd ++ entry :: rest.map Prod.snd).map Entry.name).Nodup := by
      simpa [Function.comp_def] using represents.distinct
    rw [List.map_append, List.map_append, List.map_cons, erase_present same distinct]

/-- The printed lines of events that print. -/
theorem printed_print {ι : Type*} (list : List ι) (line : ι → Text) :
    printed (list.map fun item => .print (line item)) = list.map line := by
  unfold printed
  rw [List.filterMap_map]
  exact List.filterMap_eq_map_iff_forall_eq_some.mpr fun _ _ => rfl

/-- `alias` prints the map. -/
theorem Represents.prints (represents : Represents s sentinel cells) (first : Text) :
    Leaves s sentinel (cells.map Prod.snd) ((cells.map fun cell => cell.2.binding).map printLine)
      (batchAlias s input [first]) := by
  refine ⟨s, cells.map fun cell => .print (printLine cell.2.binding), cells, ?_, rfl, represents, rfl, ?_⟩
  · simp only [batchAlias, represents.first, Option.bind_eq_bind, Option.bind_some,
      represents.printList]
    rfl
  · rw [printed_print, List.map_map]
    rfl

/-- `alias name` prints the binding of the name. -/
theorem Represents.printsOne (represents : Represents s sentinel cells) (first name : Text) :
    Leaves s sentinel (cells.map Prod.snd)
      ((find Prod.fst name (cells.map fun cell => cell.2.binding)).toList.map printLine)
      (batchAlias s input [first, name]) := by
  have searched : find Prod.fst name (cells.map fun cell => cell.2.binding) =
      (cells.find? fun cell => cell.2.name = name).map fun cell => cell.2.binding := by
    unfold find
    rw [List.find?_map]
    rfl
  rw [searched]
  rcases find_cases cells name with ⟨missing, absent⟩ | ⟨front, ⟨a, entry⟩, rest, found, rfl, same, before⟩
  · refine ⟨s, [], cells, ?_, rfl, represents, rfl, by rw [missing]; rfl⟩
    simp only [batchAlias, Shell.printAlias, represents.first, Option.bind_eq_bind, Option.bind_some,
      represents.checkAlias, missing, Option.map_none]
  · obtain ⟨node, there, stores⟩ := represents.stored (a, entry) (by simp)
    refine ⟨s, [.print (printLine entry.binding)], _, ?_, rfl, represents, rfl, by rw [found]; rfl⟩
    simp only [batchAlias, Shell.printAlias, represents.first, Option.bind_eq_bind, Option.bind_some,
      represents.checkAlias, found, Option.map_some, Shell.load, there, stores.print]
    rfl

/-- The child process prints no alias. -/
theorem Represents.child (represents : Represents s sentinel cells) (args output redirected : List Text) :
    ∃ events, s.child input args output redirected = some events ∧ printed events = [] := by
  have silent : ∀ path argv file, printed (.execv path argv file ::
      if input.execs then [] else [.notFound path]) = [] := by
    intro path argv file
    cases input.execs <;> rfl
  simp only [Shell.child, represents.first, Option.bind_eq_bind, Option.bind_some,
    represents.checkAlias]
  rcases find_cases cells (args.headD []) with ⟨missing, _⟩ | ⟨front, ⟨a, entry⟩, rest, found, rfl, _, _⟩
  · rw [missing]
    simp only [Option.map_none]
    split
    · exact ⟨_, rfl, silent _ _ _⟩
    · exact ⟨_, rfl, silent _ _ _⟩
  · obtain ⟨node, there, _⟩ := represents.stored (a, entry) (by simp)
    rw [found]
    simp only [Option.map_some, Shell.load, there, Option.bind_some]
    exact ⟨_, rfl, silent _ _ _⟩

/-- The words of a piece of the line are not more than those of the line. -/
theorem pieces_few {line : Text} {delimiter : Char → Bool} (few : (words line).length < MAX_LINE_CMDS)
    (i : Nat) : (((strtok delimiter line)[i]?).elim [] words).length < MAX_LINE_CMDS := by
  cases found : (strtok delimiter line)[i]? with
  | none => decide
  | some piece =>
    have part : piece <:+: line := strtok_part (List.mem_of_getElem? found)
    exact Nat.lt_of_le_of_lt (strtok_within part) few

/-- A command line is refused, which takes a mark; or no process can be made; or the child runs. -/
theorem launch_cases (s : Shell) (args : List Text) (few : (words input.line).length < MAX_LINE_CMDS) :
    ('>' ∈ input.line ∧ s.launch input args = some [.error INVALID_REDIRECT]) ∨
      (input.forks = false ∧ s.launch input args = some [.forkFailed]) ∨
      s.launch input args = s.child input args (((strtok (· = '>') input.line)[1]?).elim [] words)
        (((strtok (· = '>') input.line)[0]?).elim [] words) := by
  have output : ¬ MAX_LINE_CMDS ≤ (((strtok (· = '>') input.line)[1]?).elim [] words).length :=
    Nat.not_le.mpr (pieces_few few 1)
  have redirected : ¬ MAX_LINE_CMDS ≤ (((strtok (· = '>') input.line)[0]?).elim [] words).length :=
    Nat.not_le.mpr (pieces_few few 0)
  simp only [Shell.launch, if_neg output, if_neg redirected]
  split_ifs with many loose bare forks
  · exact .inl ⟨List.count_pos_iff.mp (Nat.lt_of_succ_lt many), rfl⟩
  · exact .inl ⟨by simpa using loose.2, rfl⟩
  · exact .inl ⟨by simpa using bare.2, rfl⟩
  · exact .inr (.inr rfl)
  · exact .inr (.inl ⟨eq_false_of_ne_true forks, rfl⟩)

/-- A command leaves the list alone and prints no alias. -/
theorem Represents.launches (represents : Represents s sentinel cells) (args : List Text)
    (few : (words input.line).length < MAX_LINE_CMDS) :
    ∃ events, s.launch input args = some events ∧ printed events = [] := by
  obtain ⟨-, launched⟩ | ⟨-, launched⟩ | launched := launch_cases s args few
  · exact ⟨_, launched, rfl⟩
  · exact ⟨_, launched, rfl⟩
  · rw [launched]
    exact represents.child args _ _

/-- Every line has a result, and leaves the entries and the printed lines that it should. -/
theorem Represents.line (represents : Represents s sentinel cells)
    (few : (words input.line).length < MAX_LINE_CMDS)
    (short : input.line.length < MAX_CMD_LINE_SIZE) (fresh : s.heap input.cell.1 = none) :
    Leaves s sentinel (History.revise (cells.map Prod.snd) input)
      (shown (cells.map fun cell => cell.2.binding) input.line) (batchLine s input) := by
  have room : ¬ MAX_LINE_CMDS ≤ (words input.line).length := Nat.not_le.mpr few
  have different : unaliasWord ≠ aliasWord := by decide
  -- a line that changes and prints nothing
  have idle : ∀ events, printed events = [] →
      Leaves s sentinel (cells.map Prod.snd) [] (some (s, events)) :=
    fun events silent => ⟨s, events, cells, rfl, rfl, represents, rfl, silent⟩
  have command : Leaves s sentinel (cells.map Prod.snd) []
      ((s.launch input (words input.line)).map fun events => (s, events)) := by
    obtain ⟨events, launched, silent⟩ := represents.launches (words input.line) few
    rw [launched]
    exact idle events silent
  simp only [batchLine, if_neg room]
  unfold History.revise shown
  rcases shape : words input.line with _ | ⟨first, _ | ⟨name, _ | ⟨word, more⟩⟩⟩
  · simpa using idle [] rfl
  · rw [shape] at command
    by_cases alias_ : first = aliasWord
    · simpa [alias_] using represents.prints first
    · by_cases unalias_ : first = unaliasWord
      · simpa [unalias_, different, Shell.unalias] using idle [.error UNALIAS_PARTS_ERR] rfl
      · simpa [alias_, unalias_] using command
  · rw [shape] at command
    by_cases alias_ : first = aliasWord
    · simpa [alias_, different.symm] using represents.printsOne first name
    · by_cases unalias_ : first = unaliasWord
      · simpa [unalias_, different] using represents.unaliases first name
      · simpa [alias_, unalias_] using command
  · rw [shape] at command
    by_cases alias_ : first = aliasWord
    · by_cases taboo : reserved name
      · have refused : batchAlias s input (aliasWord :: name :: word :: more) =
            some (s, [.error ALIAS_DANGER_ERR]) := if_pos taboo
        simpa [alias_, taboo, refused] using idle [.error ALIAS_DANGER_ERR] rfl
      · simpa [alias_, taboo] using represents.defines fresh shape few short taboo
    · by_cases unalias_ : first = unaliasWord
      · simpa [unalias_, different, Shell.unalias] using idle [.error UNALIAS_PARTS_ERR] rfl
      · simpa [alias_, unalias_] using command

end Line

/-! ## Whole sessions -/

/-- The list represents the map, and the same lines were printed. -/
def Refines (session : Session) (table : Table) : Prop :=
  session.running = table.running ∧ printed session.output = table.printed ∧
    ∃ sentinel cells, Represents session.shell sentinel cells ∧
      (cells.map fun cell => cell.2.binding) = table.bindings

/-- The list holds the entries of the history. -/
def Records (session : Session) (history : History) : Prop :=
  session.running = history.running ∧
    ∃ sentinel cells, Represents session.shell sentinel cells ∧
      cells.map Prod.snd = history.entries

/-- An iteration of the loop that executes a line. -/
theorem batchStep_line {session : Session} {input : Input} {sentinel : Addr}
    {cells : List (Addr × Entry)} (running : session.running = true)
    (represents : Represents session.shell sentinel cells) (admissible : Admissible session input)
    (goesOn : input.line ≠ exitLine) :
    ∃ next after, batchStep session input = some next ∧ next.running = true ∧
      printed next.output = printed session.output ++
        shown (cells.map fun cell => cell.2.binding) input.line ∧
      Represents next.shell sentinel after ∧
      after.map Prod.snd = History.revise (cells.map Prod.snd) input := by
  obtain ⟨few, short, fresh⟩ := admissible
  obtain ⟨t, events, after, executed, _, left, revised, lines⟩ := represents.line few short fresh
  refine ⟨{ session with shell := t, output := session.output ++ [.echo input.line] ++ events }, after,
    ?_, running, ?_, left, revised⟩
  · simp only [batchStep, running, if_true, if_neg goesOn, executed, Option.map_some]
  · simp only [printed, List.filterMap_append, List.filterMap_cons_none, List.filterMap_nil,
      List.append_nil] at lines ⊢
    rw [lines]

/-- The iteration that reads `exit`. -/
theorem batchStep_exit {session : Session} {input : Input} (running : session.running = true)
    (leaves : input.line = exitLine) :
    batchStep session input = some { session with
      running := false, output := session.output ++ [.echo input.line] } := by
  simp only [batchStep, running, if_true, if_pos leaves]

/-- A step of the session follows the specification. -/
theorem Refines.step {session : Session} {table : Table} {input : Input}
    (refines : Refines session table) (admissible : Admissible session input) :
    ∃ next, batchStep session input = some next ∧ Refines next (table.read input.line) := by
  obtain ⟨running, lines, sentinel, cells, represents, same⟩ := refines
  unfold Table.read
  cases ended : session.running with
  | false =>
    rw [ended] at running
    refine ⟨session, by simp [batchStep, ended], ?_⟩
    rw [← running, if_neg (by simp)]
    exact ⟨ended.trans running, lines, sentinel, cells, represents, same⟩
  | true =>
    rw [ended] at running
    rw [← running, if_pos rfl]
    by_cases leaves : input.line = exitLine
    · rw [if_pos leaves]
      refine ⟨_, batchStep_exit ended leaves, rfl, ?_, sentinel, cells, represents, same⟩
      simpa [printed] using lines
    · rw [if_neg leaves]
      obtain ⟨next, after, executed, goesOn, outputs, left, revised⟩ :=
        batchStep_line ended represents admissible leaves
      refine ⟨next, executed, goesOn, ?_, sentinel, after, left, ?_⟩
      · rw [outputs, lines, same]
      · have projected := congrArg (List.map Entry.binding) revised
        rw [revise_binding, List.map_map, List.map_map] at projected
        rw [← same]
        exact projected

/-- A step of the session follows the history. -/
theorem Records.step {session : Session} {history : History} {input : Input}
    (records : Records session history) (admissible : Admissible session input) :
    ∃ next, batchStep session input = some next ∧ Records next (history.read input) := by
  obtain ⟨running, sentinel, cells, represents, same⟩ := records
  unfold History.read
  cases ended : session.running with
  | false =>
    rw [ended] at running
    refine ⟨session, by simp [batchStep, ended], ?_⟩
    rw [← running, if_neg (by simp)]
    exact ⟨ended.trans running, sentinel, cells, represents, same⟩
  | true =>
    rw [ended] at running
    rw [← running, if_pos rfl]
    by_cases leaves : input.line = exitLine
    · rw [if_pos leaves]
      exact ⟨_, batchStep_exit ended leaves, rfl, sentinel, cells, represents, same⟩
    · rw [if_neg leaves]
      obtain ⟨next, after, executed, goesOn, _, left, revised⟩ :=
        batchStep_line ended represents admissible leaves
      exact ⟨next, executed, goesOn, sentinel, after, left, by rw [revised, same]⟩

/-- In every session of admissible lines, each line has a result, the list represents the
map that the lines define, and exactly the asked bindings were printed. -/
theorem aliases_refine_map {head tail : Addr × Node} (apart : head.1 ≠ tail.1)
    {inputs : List Input} (admissible : Runs.Meets batchStep Admissible (opened head tail) inputs) :
    ∃ session, Runs.run batchStep (opened head tail) inputs = some session ∧
      Refines session ((inputs.map Input.line).foldl Table.read ⟨[], true, []⟩) := by
  have start : Refines (opened head tail) ⟨[], true, []⟩ :=
    ⟨rfl, rfl, tail.1, [], start_represents apart, rfl⟩
  rw [List.foldl_map]
  exact Runs.run_refines (fun _ _ _ guard refines => refines.step guard) start admissible

/-- After every session of admissible lines, the list holds the entries of its history. -/
theorem run_records {head tail : Addr × Node} (apart : head.1 ≠ tail.1) {inputs : List Input}
    (admissible : Runs.Meets batchStep Admissible (opened head tail) inputs) {session : Session}
    (completed : Runs.run batchStep (opened head tail) inputs = some session) :
    Records session (inputs.foldl History.read ⟨[], true⟩) := by
  have start : Records (opened head tail) ⟨[], true⟩ := ⟨rfl, tail.1, [], start_represents apart, rfl⟩
  have simulates : ∀ session history input, Admissible session input → Records session history →
      ∃ next, batchStep session input = some next ∧ Records next (history.read input) :=
    fun _ _ _ guard records => records.step guard
  obtain ⟨last, reached, records⟩ := Runs.run_refines simulates start admissible
  obtain rfl : last = session := Option.some.inj (reached.symm.trans completed)
  exact records

/-- A line that is neither `exit` nor an alias command goes to the search for a redirection. -/
theorem batchStep_launch {session : Session} {input : Input} (running : session.running = true)
    (goesOn : input.line ≠ exitLine) (few : (words input.line).length < MAX_LINE_CMDS) {first : Text}
    (named : (words input.line).head? = some first) (notAlias : first ≠ aliasWord)
    (notUnalias : first ≠ unaliasWord) :
    batchStep session input = (session.shell.launch input (words input.line)).map fun events =>
      { session with output := session.output ++ [.echo input.line] ++ events } := by
  have room : ¬ MAX_LINE_CMDS ≤ (words input.line).length := Nat.not_le.mpr few
  have some_words : words input.line ≠ [] := by
    intro empty
    rw [empty] at named
    cases named
  have notAlias' : ¬ (words input.line).head? = some aliasWord := by
    rw [named]
    exact fun equal => notAlias (Option.some.inj equal)
  have notUnalias' : ¬ (words input.line).head? = some unaliasWord := by
    rw [named]
    exact fun equal => notUnalias (Option.some.inj equal)
  simp only [batchStep, running, if_true, if_neg goesOn, batchLine, if_neg room, if_neg some_words,
    if_neg notAlias', if_neg notUnalias', Option.map_map]
  rfl

/-- A block of memory full of wild pointers. -/
def junk : Node := ⟨.wild, fun _ => .wild, -1, .wild, .wild⟩

/-- A line, with a block of junk at an address for the node that it may need. -/
def lineAt (a : Addr) (line : String) : Input := ⟨line.toList, (a, junk), true, true⟩

/-- Two definitions, a redefinition, a deletion, and the list that is left. -/
def rename : List Input :=
  [lineAt 2 "alias a /bin/ls -l\n", lineAt 3 "alias b /bin/cat\n", lineAt 4 "alias b /bin/rm x\n",
    lineAt 4 "unalias a\n", lineAt 4 "alias\n"]

theorem aliases_refine_map_rename :
    ∃ session, Runs.run batchStep (opened (0, junk) (1, junk)) rename = some session ∧
      Refines session ⟨[(['b'], ["/bin/rm".toList, ['x']])], true, ["b /bin/rm x\n".toList]⟩ := by
  obtain ⟨session, completed, refines⟩ :=
    @aliases_refine_map (0, junk) (1, junk) (by decide) rename (by decide +kernel)
  have table : (rename.map Input.line).foldl Table.read ⟨[], true, []⟩ =
      ⟨[(['b'], ["/bin/rm".toList, ['x']])], true, ["b /bin/rm x\n".toList]⟩ := by
    decide +kernel
  exact ⟨session, completed, table ▸ refines⟩

end Cs537.Mysh
