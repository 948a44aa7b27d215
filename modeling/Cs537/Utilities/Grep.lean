import Cs537.Utilities.MyRev

/-!
# grep of the user programs

The matcher knows the operators `^`, `.`, `*` and `$`. It decides the language of the
pattern: a text matches if and only if a part of it is in the language, the part standing
where the anchors say.

The loop around it reads a file through a buffer of 1024 characters. It writes the lines
that match, provided that every line fits into the buffer: a buffer without the end of a
line is dropped.
-/

namespace Cs537.Utilities.Grep

open Chunks

/-! ## The matcher -/

/-- The loop of matchstar, given what it looks for behind the repeated character. -/
def matchstar (rest : Text → Bool) (c : Char) : Text → Bool
  | [] => rest []
  | x :: text => rest (x :: text) || ((x == c || c == '.') && matchstar rest c text)

def matchhere : Text → Text → Bool
  | [], _ => true
  | c :: '*' :: re, text => matchstar (matchhere re) c text
  | ['$'], text => text.isEmpty
  | _ :: _, [] => false
  | c :: re, x :: text => (c == '.' || c == x) && matchhere re text

/-- The loop of match, which also looks at the empty string. -/
def matchfrom (re : Text) : Text → Bool
  | [] => matchhere re []
  | x :: text => matchhere re (x :: text) || matchfrom re text

/-- The function match. -/
def regmatch (re text : Text) : Bool :=
  if re.head? = some '^' then matchhere re.tail text else matchfrom re text

/-! ## Patterns and their languages -/

/-- A character of a pattern, or a repeated one. -/
inductive Item where
  | one (c : Char)
  | star (c : Char)
  deriving DecidableEq

/-- The items of a pattern, and whether it ends at the end of the text. -/
def parse : Text → List Item × Bool
  | [] => ([], false)
  | c :: '*' :: re => (.star c :: (parse re).1, (parse re).2)
  | ['$'] => ([], true)
  | c :: re => (.one c :: (parse re).1, (parse re).2)

/-- A character of a pattern stands for itself, and a dot for every character. -/
def Stands (c x : Char) : Prop := c = '.' ∨ c = x

def letter (c : Char) : Language Char := {text | ∃ x, Stands c x ∧ text = [x]}

def Item.language : Item → Language Char
  | .one c => letter c
  | .star c => KStar.kstar (letter c)

/-- The language of the items, one after the other. -/
def language (items : List Item) : Language Char := (items.map Item.language).prod

/-- A part of the text is in the language, at its beginning or its end if that is asked for. -/
def Finds (start : Bool) (pattern : List Item × Bool) (text : Text) : Prop :=
  ∃ before part after, text = before ++ part ++ after ∧ part ∈ language pattern.1 ∧
    (start = true → before = []) ∧ (pattern.2 = true → after = [])

section Matching

variable {c : Char} {re text : Text}

theorem language_cons (item : Item) (items : List Item) :
    language (item :: items) = item.language * language items := by
  rw [language, List.map_cons, List.prod_cons, language]

/-- A repeated character: every character of the text is one that it stands for. -/
theorem mem_star : text ∈ Item.language (.star c) ↔ ∀ x ∈ text, Stands c x := by
  rw [Item.language, Language.mem_kstar]
  constructor
  · rintro ⟨pieces, rfl, each⟩ x member
    obtain ⟨piece, inside, here⟩ := List.mem_flatten.mp member
    obtain ⟨y, stands, rfl⟩ := each piece inside
    rw [List.mem_singleton.mp here]
    exact stands
  · intro all
    refine ⟨text.map fun x => [x], by simp [← List.flatMap_def], fun piece member => ?_⟩
    obtain ⟨x, inside, rfl⟩ := List.mem_map.mp member
    exact ⟨x, all x inside, rfl⟩

theorem matchstar_iff {rest : Text → Bool} : matchstar rest c text = true ↔
    ∃ front behind, text = front ++ behind ∧ (∀ x ∈ front, Stands c x) ∧ rest behind = true := by
  induction text with
  | nil =>
    constructor
    · exact fun found => ⟨[], [], rfl, by simp, found⟩
    · rintro ⟨front, behind, split, -, found⟩
      obtain ⟨rfl, rfl⟩ := List.append_eq_nil_iff.mp split.symm
      exact found
  | cons x text inductionHypothesis =>
    rw [matchstar, Bool.or_eq_true, Bool.and_eq_true, inductionHypothesis]
    have stands : (x == c || c == '.') = true ↔ Stands c x := by
      simp only [Bool.or_eq_true, beq_iff_eq, Stands]
      tauto
    rw [stands]
    constructor
    · rintro (found | ⟨first, front, behind, rfl, all, found⟩)
      · exact ⟨[], x :: text, rfl, by simp, found⟩
      · exact ⟨x :: front, behind, rfl, List.forall_mem_cons.mpr ⟨first, all⟩, found⟩
    · rintro ⟨front, behind, split, all, found⟩
      cases front with
      | nil => exact .inl (split ▸ found)
      | cons y front =>
        obtain ⟨rfl, rfl⟩ := List.cons.inj split
        exact .inr ⟨all _ List.mem_cons_self, front, behind, rfl,
          fun z member => all z (List.mem_cons_of_mem _ member), found⟩

/-- The pattern at the beginning of the text. The induction is on the items of the pattern. -/
theorem matchhere_iff : matchhere re text = true ↔
    ∃ part after, text = part ++ after ∧ part ∈ language (parse re).1 ∧
      ((parse re).2 = true → after = []) := by
  induction re using parse.induct generalizing text with
  | case1 =>
    refine iff_of_true (by rw [matchhere]) ⟨[], text, rfl, ?_, by simp [parse]⟩
    exact Language.nil_mem_one
  | case2 c re inductionHypothesis =>
    rw [matchhere, matchstar_iff, parse, language_cons]
    constructor
    · rintro ⟨front, behind, rfl, all, found⟩
      obtain ⟨part, after, rfl, inside, ends⟩ := inductionHypothesis.mp found
      exact ⟨front ++ part, after, by simp, Language.append_mem_mul (mem_star.mpr all) inside, ends⟩
    · rintro ⟨part, after, rfl, inside, ends⟩
      obtain ⟨front, first, part, second, rfl⟩ := Language.mem_mul.mp inside
      exact ⟨front, part ++ after, by simp, mem_star.mp first,
        inductionHypothesis.mpr ⟨part, after, rfl, second, ends⟩⟩
  | case3 =>
    rw [matchhere, List.isEmpty_iff, parse]
    constructor
    · rintro rfl
      exact ⟨[], [], rfl, Language.nil_mem_one, fun _ => rfl⟩
    · rintro ⟨part, after, rfl, inside, ends⟩
      obtain rfl := (Language.mem_one part).mp inside
      exact ends rfl
  | case4 c re plain last inductionHypothesis =>
    rw [parse.eq_4 c re plain last, language_cons]
    cases text with
    | nil =>
      rw [matchhere.eq_4 c re plain last]
      refine iff_of_false Bool.false_ne_true ?_
      rintro ⟨part, after, split, inside, -⟩
      obtain ⟨front, ⟨x, -, rfl⟩, part, -, rfl⟩ := Language.mem_mul.mp inside
      cases split
    | cons x text =>
      have stands : (c == '.' || c == x) = true ↔ Stands c x := by
        simp only [Bool.or_eq_true, beq_iff_eq, Stands]
      rw [matchhere.eq_5 c re x text plain last, Bool.and_eq_true, stands, inductionHypothesis]
      constructor
      · rintro ⟨first, part, after, rfl, inside, ends⟩
        have one : [x] ∈ Item.language (.one c) := ⟨x, first, rfl⟩
        exact ⟨x :: part, after, rfl, Language.append_mem_mul one inside, ends⟩
      · rintro ⟨part, after, split, inside, ends⟩
        obtain ⟨front, ⟨y, first, rfl⟩, part, second, rfl⟩ := Language.mem_mul.mp inside
        obtain ⟨rfl, rfl⟩ := List.cons.inj split
        exact ⟨first, part, after, rfl, second, ends⟩

theorem matchfrom_iff : matchfrom re text = true ↔ Finds false (parse re) text := by
  have anywhere : matchfrom re text = true ↔
      ∃ before behind, text = before ++ behind ∧ matchhere re behind = true := by
    induction text with
    | nil =>
      constructor
      · exact fun found => ⟨[], [], rfl, found⟩
      · rintro ⟨before, behind, split, found⟩
        obtain ⟨rfl, rfl⟩ := List.append_eq_nil_iff.mp split.symm
        exact found
    | cons x text inductionHypothesis =>
      rw [matchfrom, Bool.or_eq_true, inductionHypothesis]
      constructor
      · rintro (found | ⟨before, behind, rfl, found⟩)
        · exact ⟨[], x :: text, rfl, found⟩
        · exact ⟨x :: before, behind, rfl, found⟩
      · rintro ⟨before, behind, split, found⟩
        cases before with
        | nil => exact .inl (split ▸ found)
        | cons y before =>
          obtain ⟨rfl, rfl⟩ := List.cons.inj split
          exact .inr ⟨before, behind, rfl, found⟩
  rw [anywhere]
  constructor
  · rintro ⟨before, behind, rfl, found⟩
    obtain ⟨part, after, rfl, inside, ends⟩ := matchhere_iff.mp found
    exact ⟨before, part, after, (List.append_assoc _ _ _).symm, inside, by simp, ends⟩
  · rintro ⟨before, part, after, rfl, inside, -, ends⟩
    exact ⟨before, part ++ after, List.append_assoc _ _ _, matchhere_iff.mpr ⟨part, after, rfl, inside, ends⟩⟩

/-- The leading anchor of a pattern, and the rest of it. -/
def anchor (re : Text) : Bool × Text := if re.head? = some '^' then (true, re.tail) else (false, re)

/-- The matcher decides the language of the pattern. -/
theorem regmatch_iff (re text : Text) :
    regmatch re text = true ↔ Finds (anchor re).1 (parse (anchor re).2) text := by
  unfold regmatch anchor
  by_cases anchored : re.head? = some '^'
  · rw [if_pos anchored, if_pos anchored, matchhere_iff]
    constructor
    · rintro ⟨part, after, rfl, inside, ends⟩
      exact ⟨[], part, after, rfl, inside, fun _ => rfl, ends⟩
    · rintro ⟨before, part, after, rfl, inside, start, ends⟩
      obtain rfl := start rfl
      exact ⟨part, after, rfl, inside, ends⟩
  · rw [if_neg anchored, if_neg anchored]
    exact matchfrom_iff

end Matching

/-! ## The lines of a file -/

/-- `strchr` in a buffer: the string before the character and what is behind it. -/
def strchr (buf : Text) (c : Char) : Option (Text × Text) :=
  if c ∈ string buf then some (buf.takeWhile (· ≠ c), (buf.dropWhile (· ≠ c)).tail) else none

/-- The inner loop of grep: what is written, and what is left in the buffer. -/
def pass (pattern : Text) : Nat → Text → Text × Text
  | 0, p => ([], p)
  | fuel + 1, p =>
    match strchr p '\n' with
    | none => ([], p)
    | some (line, rest) =>
      let (written, left) := pass pattern fuel rest
      ((if regmatch pattern line then line ++ ['\n'] else []) ++ written, left)

def BUF : Nat := 1024

/-- The loop of grep over a file: `kept` is in the buffer, and a read takes what there is room for. -/
def loop (pattern : Text) : Nat → Text → Text → Text
  | 0, _, _ => []
  | fuel + 1, kept, input =>
    let chunk := input.take (BUF - kept.length - 1)
    if chunk.length = 0 then []
    else
      let buf := kept ++ chunk
      let (written, left) := pass pattern buf.length buf
      let kept := if left.length = buf.length then [] else left
      written ++ loop pattern fuel kept (input.drop chunk.length)

def grep (pattern input : Text) : Text := loop pattern (input.length + 1) [] input

/-- The lines that end and that match. -/
def selected (pattern : Text) (list : List Text) : Text :=
  (list.filter fun line => line.getLast? = some '\n' ∧ regmatch pattern line.dropLast).flatten

section Lines

variable {pattern line kept input more : Text}

/-- A line that ends is the first of the lines. -/
theorem lines_ended (plain : '\n' ∉ line) (more : Text) :
    lines '\n' (line ++ '\n' :: more) = (line ++ ['\n']) :: lines '\n' more := by
  induction line with
  | nil => simp [lines]
  | cons c line inductionHypothesis =>
    rw [List.mem_cons, not_or] at plain
    rw [List.cons_append, lines, if_neg (Ne.symm plain.1), inductionHypothesis plain.2]
    rfl

theorem selected_append (first second : List Text) :
    selected pattern (first ++ second) = selected pattern first ++ selected pattern second := by
  simp only [selected, List.filter_append, List.flatten_append]

/-- The line that has begun goes on. -/
theorem lines_begun (plain : '\n' ∉ kept) (some : more ≠ []) :
    ∃ first rest, lines '\n' (kept ++ more) = first :: rest ∧ kept.length < first.length := by
  induction kept with
  | nil =>
    rw [List.nil_append]
    cases shape : lines '\n' more with
    | nil =>
      have spelled : (lines '\n' more).flatten = more := lines_flatten more
      rw [shape] at spelled
      exact absurd spelled.symm some
    | cons first rest =>
      have taken := (lines_framed more).1 first (shape ▸ List.mem_cons_self)
      exact ⟨first, rest, rfl, List.length_pos_iff.mpr taken.1⟩
  | cons c kept inductionHypothesis =>
    rw [List.mem_cons, not_or] at plain
    obtain ⟨first, rest, shape, longer⟩ := inductionHypothesis plain.2
    refine ⟨c :: first, rest, ?_, Nat.succ_lt_succ longer⟩
    rw [List.cons_append, lines, if_neg (Ne.symm plain.1), shape]

/-- What does not end is one line. -/
theorem lines_open (plain : '\n' ∉ line) : selected pattern (lines '\n' line) = [] := by
  have none : ∀ text ∈ lines '\n' line, text.getLast? ≠ some '\n' := by
    intro text member ends
    have spelled : (lines '\n' line).flatten = line := lines_flatten line
    refine plain ?_
    rw [← spelled]
    exact List.mem_flatten.mpr ⟨text, member, List.mem_of_getLast? ends⟩
  rw [selected, List.filter_eq_nil_iff.mpr fun text member => by simp [none text member]]
  rfl

/-- The first newline of a string. -/
theorem strchr_newline {rest : Text} (plain : '\n' ∉ line) (clean : NUL ∉ line ++ '\n' :: rest) :
    strchr (line ++ '\n' :: rest) '\n' = some (line, rest) := by
  have before : ∀ c ∈ line, decide (c ≠ '\n') = true :=
    fun c member => decide_eq_true fun same => plain (same ▸ member)
  rw [strchr, string_eq_iff.mpr clean, if_pos (by simp), List.takeWhile_append_of_pos before,
    List.dropWhile_append_of_pos before]
  simp

/-- The inner loop selects among the lines that end in the buffer, and leaves the one that does not. -/
theorem pass_lines (fuel : Nat) {p : Text} (clean : NUL ∉ p) (enough : p.length ≤ fuel) :
    ∃ ended left, pass pattern fuel p = (selected pattern ended, left) ∧
      (∀ more, lines '\n' (p ++ more) = ended ++ lines '\n' (left ++ more)) ∧ '\n' ∉ left ∧
      ∃ front, p = front ++ left ∧ (front = [] → ended = []) := by
  induction fuel generalizing p with
  | zero =>
    obtain rfl := List.eq_nil_of_length_eq_zero (Nat.le_zero.mp enough)
    exact ⟨[], [], rfl, fun _ => rfl, by simp, [], rfl, fun _ => rfl⟩
  | succ fuel inductionHypothesis =>
    by_cases ends : '\n' ∈ p
    · obtain ⟨line, rest, rfl, plain⟩ := List.eq_append_cons_of_mem ends
      rw [pass, strchr_newline plain clean]
      have short : rest.length ≤ fuel := by
        simp only [List.length_append, List.length_cons] at enough
        omega
      have clean' : NUL ∉ rest := by simp_all
      obtain ⟨ended, left, passed, split, open', front, rfl, -⟩ := inductionHypothesis clean' short
      refine ⟨(line ++ ['\n']) :: ended, left, ?_, fun more => ?_, open', line ++ '\n' :: front, by simp,
        by simp⟩
      · simp only [passed, selected, List.filter_cons]
        split_ifs <;> simp_all
      · rw [List.append_assoc, List.cons_append, lines_ended plain, split more, List.cons_append]
    · rw [pass, strchr, string_eq_iff.mpr clean, if_neg ends]
      exact ⟨[], p, rfl, fun _ => rfl, ends, [], rfl, fun _ => rfl⟩

/-- The loop goes on with the line that has begun. Each read takes something, so that the length of
the input is enough fuel. -/
theorem loop_lines (fuel : Nat) (clean : NUL ∉ kept ++ input) (plain : '\n' ∉ kept)
    (short : ∀ line ∈ lines '\n' (kept ++ input), line.length < BUF) (enough : input.length < fuel) :
    loop pattern fuel kept input = selected pattern (lines '\n' (kept ++ input)) := by
  induction fuel generalizing kept input with
  | zero => omega
  | succ fuel inductionHypothesis =>
    -- A line that has begun and goes on fits in the buffer.
    have fits : ∀ begun rest, '\n' ∉ begun → rest ≠ [] → kept ++ input = begun ++ rest →
        begun.length + 1 < BUF := by
      intro begun rest plain some split
      obtain ⟨first, others, shape, longer⟩ := lines_begun plain some
      have := short first (by rw [split, shape]; exact List.mem_cons_self)
      omega
    rw [loop]
    split_ifs with empty
    · have done : input = [] := by
        by_contra some
        have := fits kept input plain some rfl
        have := List.length_pos_iff.mpr some
        rw [List.length_take] at empty
        omega
      rw [done, List.append_nil, lines_open plain]
    · generalize chunked : input.take (BUF - kept.length - 1) = chunk at *
      have whole : chunk ++ input.drop chunk.length = input :=
        (List.prefix_iff_eq_append.mp (chunked ▸ List.take_prefix _ _)).symm ▸ rfl
      have size : chunk.length = min (BUF - kept.length - 1) input.length := by
        rw [← chunked, List.length_take]
      generalize input.drop chunk.length = rest at whole
      subst whole
      rw [← List.append_assoc] at clean short fits ⊢
      rw [List.length_append] at enough size
      obtain ⟨ended, left, passed, split, open', front, shape, none⟩ :=
        @pass_lines pattern (kept ++ chunk).length (kept ++ chunk)
          (fun inside => clean (List.mem_append_left _ inside)) le_rfl
      simp only [passed]
      rw [split, selected_append]
      congr 1
      have total : (kept ++ chunk).length = front.length + left.length := by
        rw [shape, List.length_append]
      split_ifs with same
      · -- No line ends in the buffer, and so none ends in the rest.
        have nothing : front = [] := List.eq_nil_of_length_eq_zero (by omega)
        rw [nothing, List.nil_append] at shape
        have done : rest = [] := by
          by_contra some
          have room := fits (kept ++ chunk) rest (shape ▸ open') some rfl
          have more := List.length_pos_iff.mpr some
          rw [List.length_append] at room
          omega
        rw [done, List.append_nil, lines_open open']
        cases fuel <;> simp [loop]
      · refine inductionHypothesis ?_ open' (fun line member => ?_) (by omega)
        · intro inside
          refine clean ?_
          rw [shape, List.append_assoc]
          exact List.mem_append_right _ inside
        · refine short line ?_
          rw [split]
          exact List.mem_append_right _ member

/-- If all lines fit in the buffer, grep writes the ones that match. -/
theorem grep_selects (clean : NUL ∉ input) (short : ∀ line ∈ lines '\n' input, line.length < BUF) :
    grep pattern input = selected pattern (lines '\n' input) :=
  loop_lines _ clean (by simp) short (Nat.lt_succ_self _)

theorem grep_selects_greeting :
    grep "^h.*o$".toList "hello\nworld\nhalo\noh".toList = "hello\nhalo\n".toList :=
  (grep_selects (by decide +kernel) (by decide +kernel)).trans (by decide +kernel)

end Lines

end Cs537.Utilities.Grep
