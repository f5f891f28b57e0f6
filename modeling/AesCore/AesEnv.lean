import AesCore.Scanf

/-!
# The configuration of the test

Class `aes_env`. Its function `configure` reads pairs of a name and a number until the
end of the file and stops the simulation at a name it does not know. Each round of its
loop asks whether the end has been seen, not whether there is another pair: after the
line break that ends the last line the loop runs once more, finds nothing, and assigns
the last pair a second time. A name without a number gets the number before it.

In a file of lines, the last assignment to each parameter counts, however the lines are
spaced.
-/

namespace AesCore.AesEnv

open Scanf

/-- The fields of `aes_env`, and the seed last given to the random generator, if one was
given. What the generator does with it is not part of the model. -/
structure Env where
  maxTransactions : BitVec 32
  warmup : BitVec 32
  warmupRst : BitVec 32
  verbose : Bool
  resetDensity : BitVec 32
  ldDensity : BitVec 32
  singleKey : BitVec 32
  singleText : BitVec 32
  seed : Option (BitVec 32)
  deriving DecidableEq

/-- A new object. All fields are zero, and no seed has been given. -/
def Env.new : Env := ⟨0#32, 0#32, 0#32, false, 0#32, 0#32, 0#32, 0#32, none⟩

/-- What `configure` does with a pair of a name and a number. A name it does not know ends
the simulation. -/
def assign (env : Env) (param : String) (value : BitVec 32) : Option Env :=
  if param = "RANDOM_SEED" then some { env with seed := some value }
  else if param = "RESET_DENSITY" then some { env with resetDensity := value }
  else if param = "LD_DENSITY" then some { env with ldDensity := value }
  else if param = "VERBOSE" then some { env with verbose := value.getLsbD 0 }
  else if param = "WARMUP" then some { env with warmup := value }
  else if param = "MAX_TRAN" then some { env with maxTransactions := value }
  else if param = "WARMUP_RST" then some { env with warmupRst := value }
  else if param = "SINGLE_KEY" then some { env with singleKey := value }
  else if param = "SINGLE_TEXT" then some { env with singleText := value }
  else none

/-- The variables of the loop: what is left of the file, and the pair that was read last. -/
structure Reading where
  input : Input
  param : String
  value : BitVec 32

/-- The call of `$fscanf`. A field that is not found leaves its variable alone, so at the
end of the file the pair before it is still there. -/
def scan (r : Reading) : Reading :=
  match r.input.word with
  | (none, input) => { r with input }
  | (some word, input) =>
    match input.integer with
    | (none, input) => ⟨input, String.ofList word, r.value⟩
    | (some value, input) => ⟨input, String.ofList word, BitVec.ofInt 32 value⟩

/-- Each call reads on: it consumes a character of a word or sees the end. So the loop ends
on every file. -/
theorem left_scan {r : Reading} (more : r.input.ended = false) :
    (scan r).input.left < r.input.left := by
  have word := left_word more
  rw [scan]
  split
  · rename_i found
    rwa [found] at word
  · rename_i found
    rw [found] at word
    have integer := left_integer ‹Input›
    split
    · rename_i number
      rw [number] at integer
      exact Nat.lt_of_le_of_lt integer word
    · rename_i number
      rw [number] at integer
      exact Nat.lt_of_le_of_lt integer word

/-- The loop of `configure`. It looks for the end before it reads, so it reads once more
after the last pair and assigns that pair again. -/
def readLoop (r : Reading) (env : Env) : Except String Env :=
  if r.input.ended = false then
    match assign env (scan r).param (scan r).value with
    | none => .error (scan r).param
    | some env => readLoop (scan r) env
  else .ok env
termination_by r.input.left
decreasing_by exact left_scan ‹_›

/-- Function `configure` of a new object. The error is the name that is not known, at which
the program exits. -/
def configure (file : List Char) : Except String Env :=
  readLoop ⟨⟨file, false⟩, "", 0#32⟩ Env.new

/-- One round of the loop: read a pair, assign it, and go on if its name is known. -/
theorem read_loop_more {r : Reading} (more : r.input.ended = false) (env : Env) :
    readLoop r env = match assign env (scan r).param (scan r).value with
      | none => .error (scan r).param
      | some env => readLoop (scan r) env := by
  rw [readLoop, if_pos more]

/-- Once the end has been seen the loop is over, and the object is what the assignments have
made it. -/
theorem read_loop_ended {r : Reading} (ended : r.input.ended = true) (env : Env) :
    readLoop r env = .ok env := by
  rw [readLoop, if_neg (by simp [ended])]

/-- A pair that has been assigned can be assigned again, and nothing changes. So it does no
harm that the loop assigns the last pair twice. -/
theorem assign_assign {env assigned : Env} {param : String} {value : BitVec 32}
    (known : assign env param value = some assigned) :
    assign assigned param value = some assigned := by
  grind [assign]

/-- A line of the file: a name, white space, a number, and more white space. The white space
may hold ends of lines, so these are lines of pairs and not of characters. -/
structure Line where
  name : String
  gap : List Char
  value : Int
  tail : List Char

/-- The characters of a line, its number in decimal digits. -/
def Line.text (line : Line) : List Char :=
  line.name.toList ++ (line.gap ++ (decimal line.value ++ line.tail))

/-- The fields of a line are apart and its name is a word. Without white space after the
number the next name would run into it. -/
structure Line.Formed (line : Line) : Prop where
  named : line.name.toList ≠ []
  inked : ∀ c ∈ line.name.toList, isSpace c = false
  apart : line.gap ≠ []
  gap : ∀ c ∈ line.gap, isSpace c = true
  ends : line.tail ≠ []
  tail : ∀ c ∈ line.tail, isSpace c = true

/-- What a line asks for: an assignment, or the end of the simulation with its name as the
error. -/
def Line.apply (env : Env) (line : Line) : Except String Env :=
  match assign env line.name (BitVec.ofInt 32 line.value) with
  | none => .error line.name
  | some env => .ok env

/-- The characters of a file of lines, one after the other. -/
def fileText (lines : List Line) : List Char := lines.flatMap Line.text

/-- Where only white space is left, the call finds nothing and sees the end. The variables
keep the pair before. -/
theorem scan_gap {gap : List Char} (spaces : ∀ c ∈ gap, isSpace c = true) (param : String)
    (value : BitVec 32) :
    (scan ⟨⟨gap, false⟩, param, value⟩).param = param ∧
      (scan ⟨⟨gap, false⟩, param, value⟩).value = value ∧
      (scan ⟨⟨gap, false⟩, param, value⟩).input.ended = true := by
  have skipped : (gap ++ []).dropWhile isSpace = [] := List.dropWhile_append_of_pos spaces
  rw [List.append_nil] at skipped
  have word : (Input.mk gap false).word = (none, ⟨[], true⟩) := by
    simp [Input.word, Input.skip, Input.span, skipped]
  rw [scan]
  simp [word]

/-- The call reads a line, with the white space that the call before it has left. The white
space after the number is left to the next call. -/
theorem scan_line {gap : List Char} (spaces : ∀ c ∈ gap, isSpace c = true) {line : Line}
    (formed : line.Formed) (rest : List Char) (param : String) (value : BitVec 32) :
    scan ⟨⟨gap ++ (line.text ++ rest), false⟩, param, value⟩ =
      ⟨⟨line.tail ++ rest, false⟩, line.name, BitVec.ofInt 32 line.value⟩ := by
  obtain ⟨space, gaps, gapped⟩ := List.exists_cons_of_ne_nil formed.apart
  obtain ⟨blank, tails, tailed⟩ := List.exists_cons_of_ne_nil formed.ends
  have gapSpace : isSpace space = true := formed.gap space (gapped ▸ List.mem_cons_self)
  have tailSpace : isSpace blank = true := formed.tail blank (tailed ▸ List.mem_cons_self)
  have word := read_word spaces formed.named formed.inked gapSpace
    (gaps ++ (decimal line.value ++ blank :: (tails ++ rest))) false
  have integer := read_integer formed.gap line.value tailSpace (tails ++ rest) false
  have layout : gap ++ (line.text ++ rest) = gap ++ (line.name.toList ++ space ::
      (gaps ++ (decimal line.value ++ blank :: (tails ++ rest)))) := by
    simp [Line.text, gapped, tailed]
  rw [gapped, List.cons_append] at integer
  rw [scan, layout, tailed]
  simp only [word, integer, String.ofList_toList, List.cons_append]

/-- The loop over a file of lines, from a pair that has been assigned. The induction is over
the lines, and the pair that is assigned twice is the one of the last line. -/
theorem read_loop_lines {lines : List Line} (formed : ∀ line ∈ lines, line.Formed)
    {gap : List Char} (spaces : ∀ c ∈ gap, isSpace c = true) {env : Env} {param : String}
    {value : BitVec 32} (assigned : assign env param value = some env) :
    readLoop ⟨⟨gap ++ fileText lines, false⟩, param, value⟩ env = lines.foldlM Line.apply env := by
  induction lines generalizing gap env param value with
  | nil =>
    have blank : ∀ c ∈ gap ++ fileText [], isSpace c = true := by simpa [fileText]
    obtain ⟨same, held, ended⟩ := scan_gap blank param value
    rw [read_loop_more rfl, same, held, assigned]
    exact read_loop_ended ended env
  | cons line lines inductionHypothesis =>
    have first := formed line List.mem_cons_self
    have others := fun line member => formed line (List.mem_cons_of_mem _ member)
    have read := scan_line spaces first (fileText lines) param value
    rw [fileText, List.flatMap_cons, ← fileText, read_loop_more rfl, read, List.foldlM_cons,
      Line.apply]
    cases known : assign env line.name (BitVec.ofInt 32 line.value) with
    | none => rfl
    | some next => exact inductionHypothesis others first.tail (assign_assign known)

/-- `configure` on a file of lines. The lines are applied in their order, up to the first name
that is not known, which ends the simulation. -/
theorem configure_lines {lines : List Line} (nonempty : lines ≠ [])
    (formed : ∀ line ∈ lines, line.Formed) :
    configure (fileText lines) = lines.foldlM Line.apply Env.new := by
  obtain ⟨line, others, rfl⟩ := List.exists_cons_of_ne_nil nonempty
  have first := formed line List.mem_cons_self
  have none : ∀ c ∈ ([] : List Char), isSpace c = true := fun c impossible =>
    absurd impossible List.not_mem_nil
  have read := scan_line none first (fileText others) "" 0#32
  have rest := fun line member => formed line (List.mem_cons_of_mem _ member)
  rw [configure, fileText, List.flatMap_cons, ← fileText, read_loop_more rfl]
  rw [List.nil_append] at read
  rw [read, List.foldlM_cons, Line.apply]
  cases known : assign Env.new line.name (BitVec.ofInt 32 line.value) with
  | none => rfl
  | some next => exact read_loop_lines rest first.tail (assign_assign known)

/-- The names that `configure` knows, in the order in which it compares them. -/
def parameters : List String :=
  ["RANDOM_SEED", "RESET_DENSITY", "LD_DENSITY", "VERBOSE", "WARMUP", "MAX_TRAN", "WARMUP_RST",
    "SINGLE_KEY", "SINGLE_TEXT"]

/-- The number in the last line with a name, as the 32 bits of an `int`. A name without a
line has none. -/
def lastValue (name : String) (lines : List Line) : Option (BitVec 32) :=
  (lines.reverse.find? fun line => line.name == name).map fun line => BitVec.ofInt 32 line.value

/-- The object with the last numbers of a file in place of its own. A field whose name has
no line keeps what it holds. -/
def Env.updated (env : Env) (lines : List Line) : Env where
  maxTransactions := (lastValue "MAX_TRAN" lines).getD env.maxTransactions
  warmup := (lastValue "WARMUP" lines).getD env.warmup
  warmupRst := (lastValue "WARMUP_RST" lines).getD env.warmupRst
  verbose := ((lastValue "VERBOSE" lines).map fun value => value.getLsbD 0).getD env.verbose
  resetDensity := (lastValue "RESET_DENSITY" lines).getD env.resetDensity
  ldDensity := (lastValue "LD_DENSITY" lines).getD env.ldDensity
  singleKey := (lastValue "SINGLE_KEY" lines).getD env.singleKey
  singleText := (lastValue "SINGLE_TEXT" lines).getD env.singleText
  seed := (lastValue "RANDOM_SEED" lines).or env.seed

/-- A name is known exactly where it is assigned, so the list of names is complete and holds
nothing else. -/
theorem assign_none_iff (env : Env) (param : String) (value : BitVec 32) :
    assign env param value = none ↔ param ∉ parameters := by
  rw [assign]
  repeat' split
  all_goals simp_all [parameters]

/-- The first line gives the last number where no other line does. Numbers of later lines
win. -/
theorem last_value_cons (name : String) (line : Line) (lines : List Line) :
    lastValue name (line :: lines) = (lastValue name lines).or
      (if line.name = name then some (BitVec.ofInt 32 line.value) else none) := by
  rw [lastValue, lastValue, List.reverse_cons, List.find?_append]
  cases lines.reverse.find? fun line => line.name == name with
  | some found => rfl
  | none => by_cases same : line.name = name <;> simp [same]

/-- One line after another updates the object: assigning the first and updating with the
rest is the update with all of them. -/
theorem updated_cons {env assigned : Env} {line : Line}
    (known : assign env line.name (BitVec.ofInt 32 line.value) = some assigned)
    (lines : List Line) : assigned.updated lines = env.updated (line :: lines) := by
  simp only [Env.updated, last_value_cons]
  grind [assign]

/-- Lines of known names update the object with their last numbers; the first unknown name
is an error, and what was assigned before it is lost with the simulation. -/
theorem apply_lines (lines : List Line) (env : Env) :
    lines.foldlM Line.apply env =
      match lines.find? fun line => line.name ∉ parameters with
      | some line => .error line.name
      | none => .ok (env.updated lines) := by
  induction lines generalizing env with
  | nil => rfl
  | cons line lines inductionHypothesis =>
    rw [List.foldlM_cons, Line.apply]
    cases known : assign env line.name (BitVec.ofInt 32 line.value) with
    | none =>
      have unknown : line.name ∉ parameters := (assign_none_iff _ _ _).mp known
      rw [List.find?_cons_of_pos (by simpa using unknown)]
      rfl
    | some assigned =>
      have member : line.name ∈ parameters := by
        apply Decidable.byContradiction
        intro unknown
        rw [(assign_none_iff _ _ _).mpr unknown] at known
        exact Option.some_ne_none assigned known.symm
      rw [List.find?_cons_of_neg (by simpa using member), ← updated_cons known]
      exact inductionHypothesis assigned

/-- `configure`, exactly. On a file of lines, however they are spaced, it is stopped by the first
name it does not know, and if it knows them all it leaves in each field the number of the
last line with the field's name, or what a new object holds. -/
theorem configure_exact {lines : List Line} (nonempty : lines ≠ [])
    (formed : ∀ line ∈ lines, line.Formed) :
    configure (fileText lines) =
      match lines.find? fun line => line.name ∉ parameters with
      | some line => .error line.name
      | none => .ok (Env.new.updated lines) := by
  rw [configure_lines nonempty formed, apply_lines]

/-- A line with one blank, and nothing after its number but the end of the line. -/
def Line.plain (name : String) (value : Int) : Line := ⟨name, [' '], value, ['\n']⟩

/-- Such a line is formed as its name is a word, that is, not empty and without white
space. -/
theorem plain_formed {name : String}
    (word : name.toList ≠ [] ∧ ∀ c ∈ name.toList, isSpace c = false) (value : Int) :
    (Line.plain name value).Formed :=
  ⟨word.1, word.2, List.cons_ne_nil _ _, by simp [Line.plain, isSpace], List.cons_ne_nil _ _,
    by simp [Line.plain, isSpace]⟩

/-- The lines of `src/bench/configure.txt`, whose first name is misspelt: it has an `M`
where `RANDOM_SEED` has an `N`. -/
def shippedLines : List Line :=
  [.plain "RAMDOM_SEED" 7, .plain "RESET_DENSITY" 100, .plain "LD_DENSITY" 60, .plain "VERBOSE" 1,
    .plain "WARMUP" 10, .plain "MAX_TRAN" 1000]

/-- They are formed as lines are, so the law of `configure` applies to this file. -/
theorem shipped_formed : ∀ line ∈ shippedLines, line.Formed := by
  intro line member
  simp only [shippedLines, List.mem_cons, List.not_mem_nil, or_false] at member
  rcases member with rfl | rfl | rfl | rfl | rfl | rfl <;>
    exact plain_formed (by simp [isSpace]) _

/-- The first name of `src/bench/configure.txt` is not known: a test that reads this file
ends before its first cycle, and reports the misspelt name. -/
theorem configure_exact_shipped : configure (fileText shippedLines) = .error "RAMDOM_SEED" :=
  (configure_exact (List.cons_ne_nil _ _) shipped_formed).trans rfl

end AesCore.AesEnv
