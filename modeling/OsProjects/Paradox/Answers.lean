import OsProjects.Machine.Tokens
import OsProjects.Paradox.Simulation

namespace OsProjects
namespace Paradox

open Machine

/-!
# The answers of `paradox`

With `-i` the program reads numbers until `feof`, and with `-o` it writes one line less
than it has made rounds.  `feof` is set by a read that meets the end of the file.  So the
last round reads no number if white space follows the last one, and it uses what `N` had
before.  Otherwise the last round is the one for the last number.
-/

abbrev Text := List Char

/-! ## Reading numbers -/

def isspace (c : Char) : Bool :=
  c == ' ' || c == '\t' || c == '\n' || c == '\x0b' || c == '\x0c' || c == '\r'

/-- The sign in front of a number. -/
def sign : Text -> Bool × Text
  | [] => (false, [])
  | c :: body =>
      if c = '-' then (true, body)
      else if c = '+' then (false, body)
      else (false, c :: body)

def value (negative : Bool) (digits : Text) : Int :=
  let magnitude := digits.foldl (fun n c => 10 * n + (c.toNat - '0'.toNat)) 0
  if negative then -(magnitude : Int) else magnitude

/-- An open file: what has not been read, and what `feof` returns. -/
structure Stream where
  rest : Text
  eof : Bool

/-- `fscanf` with the format `%d`. -/
def fscanf (stream : Stream) : Option Int × Stream :=
  let (negative, body) := sign (stream.rest.dropWhile isspace)
  let digits := body.takeWhile Char.isDigit
  let rest := body.dropWhile Char.isDigit
  (if digits = [] then none else some (value negative digits), ⟨rest, rest.isEmpty⟩)

/-! ## The program -/

/-- The arrays.  `M` holds probabilities; the model keeps `num_pt`, which is divided by
1000 for them. -/
structure Memory where
  N : Nat -> Int
  M : Nat -> Nat

inductive Exit where
  | tooMany
  | done (output : List Text)
deriving DecidableEq

section Program

variable (rand : Nat -> Nat) (decimals : Nat -> Text) (b : Nat -> Nat)

/-- The loop of `-i`.  It leaves the arrays in round 1001, so no more rounds are counted. -/
def readLoop : (todo line : Nat) -> Stream -> Memory -> Option (Nat × Memory)
  | 0, _, _, _ => none
  | todo + 1, line, stream, memory =>
      if stream.eof then some (line, memory)
      else if line < entries then
        let (number, stream) := fscanf stream
        let N := match number with
          | some number => Function.update memory.N line number
          | none => memory.N
        (simulate rand (N line) b).bind fun num_pt =>
          readLoop todo (line + 1) stream { N, M := Function.update memory.M line num_pt }
      else none

/-- The loop of `-o`.  `decimals` is what `fprintf` writes for `num_pt / 1000.0`. -/
def writeLoop (M : Nat -> Nat) : (todo i : Nat) -> Option (List Text)
  | 0, _ => some []
  | todo + 1, i =>
      if i < entries then (writeLoop M todo (i + 1)).map fun lines => decimals (M i) :: lines
      else none

/-- The program with `-i` and then `-o`, for an input file with this text. -/
def paradox (text : Text) (memory : Memory) : Option Exit :=
  (readLoop rand b (entries + 1) 0 ⟨text, false⟩ memory).bind fun (line, memory) =>
    if line > 1000 then some .tooMany
    else (writeLoop decimals memory.M (line - 1) 0).map .done

end Program

/-! ## Texts of numbers -/

/-- The number that a word stands for. -/
def numeral (word : Text) : Option Int :=
  let (negative, body) := sign word
  if body ≠ [] ∧ body.all Char.isDigit then some (value negative body) else none

/-- The words of a text stand for these numbers. -/
def Holds (text : Text) (numbers : List Nat) : Prop :=
  List.Forall₂ (fun word (n : Nat) => numeral word = some (n : Int)) (tokens isspace text) numbers

/-- White space follows the last number. -/
def EndsBlank (text : Text) : Prop :=
  Exists fun c => text.getLast? = some c ∧ isspace c = true

theorem endsBlank_append {front back : Text} (nonempty : back ≠ []) :
    EndsBlank (front ++ back) ↔ EndsBlank back := by
  rw [EndsBlank, List.getLast?_append_of_ne_nil front nonempty]
  exact Iff.rfl

theorem not_endsBlank_word {word : Text} (solid : Solid isspace word) : ¬ EndsBlank word := by
  rintro ⟨c, last, isBlank⟩
  rw [solid.solid c (List.mem_of_getLast? last)] at isBlank
  exact absurd isBlank Bool.false_ne_true

theorem endsBlank_of_blanks {text : Text} (nonempty : text ≠ [])
    (blanks : forall c, c ∈ text -> isspace c = true) : EndsBlank text :=
  ⟨text.getLast nonempty, List.getLast?_eq_some_getLast nonempty,
    blanks _ (List.getLast_mem nonempty)⟩

theorem isDigit_of_isspace {c : Char} (isBlank : isspace c = true) : c.isDigit = false := by
  simp only [isspace, Bool.or_eq_true, beq_iff_eq] at isBlank
  rcases isBlank with ((((rfl | rfl) | rfl) | rfl) | rfl) | rfl <;> decide

theorem sign_append {word : Text} (back : Text) (nonempty : word ≠ []) :
    sign (word ++ back) = ((sign word).1, (sign word).2 ++ back) := by
  cases word with
  | nil => exact absurd rfl nonempty
  | cons c word =>
      rw [List.cons_append, sign, sign]
      split_ifs
      · rfl
      · rfl
      · rfl

/-- A number behind white space is read up to the end of its word. -/
theorem fscanf_word {front word back : Text} {number : Int} {eof : Bool}
    (blanks : forall c, c ∈ front -> isspace c = true) (solid : Solid isspace word)
    (stops : forall c, back.head? = some c -> isspace c = true)
    (reads : numeral word = some number) :
    fscanf ⟨front ++ word ++ back, eof⟩ = (some number, ⟨back, back.isEmpty⟩) := by
  have skipped : (front ++ word ++ back).dropWhile isspace = word ++ back := by
    rw [List.append_assoc]
    refine Tokens.dropWhile_append_head blanks (fun c isHead => ?_)
    rw [List.head?_append_of_ne_nil word solid.nonempty] at isHead
    exact solid.solid c (List.mem_of_head? isHead)
  have reads : (if (sign word).2 ≠ [] ∧ (sign word).2.all Char.isDigit then
      some (value (sign word).1 (sign word).2) else none) = some number := reads
  by_cases digits : (sign word).2 ≠ [] ∧ (sign word).2.all Char.isDigit = true
  · have all : forall c, c ∈ (sign word).2 -> c.isDigit = true := List.all_eq_true.mp digits.2
    have ends : forall c, back.head? = some c -> c.isDigit = false := fun c isHead =>
      isDigit_of_isspace (stops c isHead)
    rw [if_pos digits] at reads
    simp only [fscanf, skipped, sign_append back solid.nonempty,
      Tokens.takeWhile_append_head all ends, Tokens.dropWhile_append_head all ends,
      if_neg digits.1, reads]
  · rw [if_neg digits] at reads
    cases reads

theorem fscanf_blank {text : Text} {eof : Bool} (blanks : forall c, c ∈ text -> isspace c = true) :
    fscanf ⟨text, eof⟩ = (none, ⟨[], true⟩) := by
  simp only [fscanf, List.dropWhile_eq_nil_iff.mpr blanks]
  rfl

/-! ## The rounds -/

section Rounds

variable {rand : Nat -> Nat} {decimals : Nat -> Text} {b : Nat -> Nat}

theorem readLoop_eof {todo line : Nat} {rest : Text} {memory : Memory} :
    readLoop rand b (todo + 1) line ⟨rest, true⟩ memory = some (line, memory) := rfl

theorem readLoop_full {todo : Nat} {rest : Text} {memory : Memory} :
    readLoop rand b (todo + 1) entries ⟨rest, false⟩ memory = none := by
  simp only [readLoop, Bool.false_eq_true, if_false, Nat.lt_irrefl]

/-- A round that reads a number. -/
theorem readLoop_number {todo line n : Nat} {text : Text} {stream : Stream} {memory : Memory}
    (within : line < entries) (small : n ≤ entries)
    (reads : fscanf ⟨text, false⟩ = (some (n : Int), stream)) :
    readLoop rand b (todo + 1) line ⟨text, false⟩ memory =
      readLoop rand b todo (line + 1) stream
        { N := Function.update memory.N line n,
          M := Function.update memory.M line (estimate rand n) } := by
  have fits : (n : Int) ≤ entries := Int.ofNat_le.mpr small
  simp only [readLoop, Bool.false_eq_true, if_false, if_pos within, reads, Function.update_self,
    simulate_eq, if_pos fits, Option.bind_some, Int.toNat_natCast]

/-- The round that meets the end of the file uses what `N` holds. -/
theorem readLoop_nothing {todo line : Nat} {text : Text} {memory : Memory}
    (within : line < entries) (reads : fscanf ⟨text, false⟩ = (none, ⟨[], true⟩)) :
    readLoop rand b (todo + 2) line ⟨text, false⟩ memory =
      if memory.N line ≤ entries then
        some (line + 1, { memory with
          M := Function.update memory.M line (estimate rand (memory.N line).toNat) })
      else none := by
  simp only [readLoop, Bool.false_eq_true, if_false, if_pos within, reads, simulate_eq]
  split_ifs
  · rfl
  · rfl

/-- A text with a number in front. -/
theorem Holds.first {text : Text} {n : Nat} {numbers : List Nat}
    (holds : Holds text (n :: numbers)) :
    Exists fun back =>
      fscanf ⟨text, false⟩ = (some (n : Int), ⟨back, back.isEmpty⟩) ∧ Holds back numbers ∧
      (back = [] -> ¬ EndsBlank text) ∧ (back ≠ [] -> (EndsBlank text ↔ EndsBlank back)) := by
  rcases Tokens.first_word isspace text with
    blanks | ⟨front, word, back, split, blanks, solid, stops⟩
  · rw [Holds, Tokens.tokens_eq_nil blanks] at holds
    cases holds
  · rw [Holds, split, Tokens.tokens_word blanks solid stops] at holds
    rcases List.forall₂_cons.mp holds with ⟨reads, rest⟩
    refine ⟨back, ?_, rest, fun empty => ?_, fun more => ?_⟩
    · rw [split]
      exact fscanf_word blanks solid stops reads
    · rw [split, empty, List.append_nil, endsBlank_append solid.nonempty]
      exact not_endsBlank_word solid
    · rw [split]
      exact endsBlank_append more

theorem Holds.blank {text : Text} (holds : Holds text []) :
    forall c, c ∈ text -> isspace c = true := by
  rcases Tokens.first_word isspace text with
    blanks | ⟨front, word, back, split, blanks, solid, stops⟩
  · exact blanks
  · rw [Holds, split, Tokens.tokens_word blanks solid stops] at holds
    cases holds

/-- The estimates of the numbers stand in `M` from `line` on. -/
def Answered (rand : Nat -> Nat) (numbers : List Nat) (line : Nat) (M : Nat -> Nat) : Prop :=
  (List.range' line numbers.length).map M = numbers.map (estimate rand)

theorem answered_nil (line : Nat) (M : Nat -> Nat) : Answered rand [] line M := by
  rw [Answered, List.length_nil, List.range'_zero, List.map_nil, List.map_nil]

theorem answered_cons {n line : Nat} {numbers : List Nat} {M : Nat -> Nat}
    (first : M line = estimate rand n) (rest : Answered rand numbers (line + 1) M) :
    Answered rand (n :: numbers) line M := by
  rw [Answered, List.length_cons, List.range'_succ, List.map_cons, List.map_cons, first]
  exact congrArg _ rest

/-- If white space follows the last number there is one more round. -/
theorem readLoop_endsBlank (numbers : List Nat) :
    forall (todo line : Nat) (text : Text) (memory : Memory), Holds text numbers ->
      (forall n, n ∈ numbers -> n ≤ entries) -> EndsBlank text -> line + todo = entries ->
      if line + numbers.length < entries ∧ memory.N (line + numbers.length) ≤ entries then
        Exists fun after => readLoop rand b (todo + 1) line ⟨text, false⟩ memory =
            some (line + numbers.length + 1, after) ∧ Answered rand numbers line after.M ∧
          forall i, i < line -> after.M i = memory.M i
      else readLoop rand b (todo + 1) line ⟨text, false⟩ memory = none := by
  induction numbers with
  | nil =>
      intro todo line text memory holds _ _ full
      have reads := @fscanf_blank text false holds.blank
      rw [List.length_nil, Nat.add_zero]
      by_cases within : line < entries
      · rcases Nat.exists_eq_add_of_lt within with ⟨left, size⟩
        have more : todo = left + 1 := by omega
        rw [more, readLoop_nothing within reads]
        by_cases small : memory.N line ≤ entries
        · rw [if_pos ⟨within, small⟩, if_pos small]
          exact ⟨_, rfl, answered_nil line _, fun i below =>
            Function.update_of_ne (Nat.ne_of_lt below) _ _⟩
        · rw [if_neg (fun both => small both.2), if_neg small]
      · have atEnd : line = entries := by omega
        rw [if_neg (fun both => within both.1), atEnd]
        exact readLoop_full
  | cons n numbers ih =>
      intro todo line text memory holds small ends full
      rcases holds.first with ⟨back, reads, rest, last, goes⟩
      have more : back ≠ [] := fun empty => last empty ends
      rw [List.isEmpty_eq_false_iff.mpr more] at reads
      rw [List.length_cons]
      by_cases within : line < entries
      · rcases Nat.exists_eq_add_of_lt within with ⟨left, size⟩
        have again : todo = left + 1 := by omega
        have step := ih left (line + 1) back
          { N := Function.update memory.N line n
            M := Function.update memory.M line (estimate rand n) }
          rest (fun m inNumbers => small m (List.mem_cons_of_mem n inNumbers)) ((goes more).mp ends)
          (by omega)
        have cell : Function.update memory.N line (n : Int) (line + (numbers.length + 1)) =
            memory.N (line + (numbers.length + 1)) := Function.update_of_ne (by omega) _ _
        have size : line + 1 + numbers.length = line + (numbers.length + 1) := by omega
        rw [again, readLoop_number within (small n List.mem_cons_self) reads]
        rw [size] at step
        simp only [cell] at step
        by_cases fits : line + (numbers.length + 1) < entries ∧
            memory.N (line + (numbers.length + 1)) ≤ entries
        · rw [if_pos fits] at step
          rw [if_pos fits]
          rcases step with ⟨after, runs, answered, kept⟩
          refine ⟨after, runs, answered_cons ?_ answered, fun i below => ?_⟩
          · rw [kept line (Nat.lt_succ_self line), Function.update_self]
          · rw [kept i (Nat.lt_succ_of_lt below), Function.update_of_ne (Nat.ne_of_lt below)]
        · rw [if_neg fits] at step
          rw [if_neg fits]
          exact step
      · have atEnd : line = entries := by omega
        rw [if_neg (fun both => absurd both.1 (by omega)), atEnd]
        exact readLoop_full

/-- Without white space the round of the last number is the last one. -/
theorem readLoop_not_endsBlank (numbers : List Nat) :
    forall (n todo line : Nat) (text : Text) (memory : Memory), Holds text (n :: numbers) ->
      (forall m, m ∈ n :: numbers -> m ≤ entries) -> ¬ EndsBlank text ->
      line + numbers.length < entries -> line + todo = entries ->
      Exists fun after => readLoop rand b (todo + 1) line ⟨text, false⟩ memory =
        some (line + numbers.length + 1, after) := by
  induction numbers with
  | nil =>
      intro n todo line text memory holds small ends within full
      rcases holds.first with ⟨back, reads, rest, _, goes⟩
      have empty : back = [] := by
        by_contra more
        exact ends ((goes more).mpr (endsBlank_of_blanks more rest.blank))
      have isEmpty : back.isEmpty = true := List.isEmpty_iff.mpr empty
      have here : line < entries := within
      rcases Nat.exists_eq_add_of_lt here with ⟨left, size⟩
      rw [isEmpty] at reads
      have again : todo = left + 1 := by omega
      rw [again, List.length_nil, Nat.add_zero,
        readLoop_number here (small n List.mem_cons_self) reads, readLoop_eof]
      exact ⟨_, rfl⟩
  | cons m numbers ih =>
      intro n todo line text memory holds small ends within full
      rcases holds.first with ⟨back, reads, rest, _, goes⟩
      have more : back ≠ [] := by
        rintro rfl
        cases rest
      rw [List.isEmpty_eq_false_iff.mpr more] at reads
      rw [List.length_cons] at within
      rcases Nat.exists_eq_add_of_lt within with ⟨left, size⟩
      have again : todo = todo - 1 + 1 := by omega
      rw [again, readLoop_number (by omega) (small n List.mem_cons_self) reads, List.length_cons]
      have step := ih m (todo - 1) (line + 1) back
        { N := Function.update memory.N line n
          M := Function.update memory.M line (estimate rand n) }
        rest (fun other inNumbers => small other (List.mem_cons_of_mem n inNumbers))
        (fun blank => ends ((goes more).mpr blank)) (by omega) (by omega)
      rcases step with ⟨after, runs⟩
      refine ⟨after, ?_⟩
      rw [runs, Nat.add_assoc line 1, Nat.add_comm 1]

/-! ## The lines -/

theorem writeLoop_within {M : Nat -> Nat} (todo : Nat) :
    forall i, i + todo ≤ entries ->
      writeLoop decimals M todo i = some (((List.range' i todo).map M).map decimals) := by
  induction todo with
  | zero => exact fun _ _ => rfl
  | succ todo ih =>
      intro i within
      rw [writeLoop, if_pos (by omega), ih (i + 1) (by omega), Option.map_some, List.range'_succ]
      rfl

theorem paradox_of_rounds {rounds : Nat} {text : Text} {memory after : Memory}
    (runs : readLoop rand b (entries + 1) 0 ⟨text, false⟩ memory = some (rounds + 1, after))
    (within : rounds < entries) :
    paradox rand decimals b text memory =
      some (.done (((List.range' 0 rounds).map after.M).map decimals)) := by
  have few : ¬ rounds + 1 > 1000 := Nat.not_lt.mpr within
  rw [paradox, runs, Option.bind_some]
  simp only [if_neg few, Nat.add_sub_cancel]
  rw [writeLoop_within rounds 0 (by omega), Option.map_some]

theorem answered_lines {numbers : List Nat} {M : Nat -> Nat}
    (answered : Answered rand numbers 0 M) :
    ((List.range' 0 numbers.length).map M).map decimals =
      numbers.map fun n => decimals (estimate rand n) := by
  rw [answered, List.map_map]
  rfl

/-- Without white space behind the last number a line is missing. -/
theorem not_answers_of_not_endsBlank {text : Text} {numbers : List Nat} {memory : Memory}
    (holds : Holds text numbers) (nonempty : numbers ≠ []) (few : numbers.length ≤ entries)
    (small : forall n, n ∈ numbers -> n ≤ 1000) (ends : ¬ EndsBlank text) :
    paradox rand decimals b text memory ≠
      some (.done (numbers.map fun n => decimals (estimate rand n))) := by
  cases numbers with
  | nil => exact absurd rfl nonempty
  | cons n numbers =>
      have within : numbers.length < entries := few
      rcases @readLoop_not_endsBlank rand b numbers n entries 0 text memory holds small ends
        (by omega) (Nat.zero_add _) with ⟨after, runs⟩
      rw [Nat.zero_add] at runs
      intro answers
      rw [paradox_of_rounds runs within] at answers
      have lines := Exit.done.inj (Option.some.inj answers)
      have lengths := congrArg List.length lines
      simp only [List.length_map, List.length_range', List.length_cons] at lengths
      omega

/-- The program writes the estimates of all numbers exactly when white space follows the
last one, the arrays have an entry more, and what `N` holds there is small enough. -/
theorem paradox_answers_iff {text : Text} {numbers : List Nat} {memory : Memory}
    (holds : Holds text numbers) (nonempty : numbers ≠ []) (few : numbers.length ≤ entries)
    (small : forall n, n ∈ numbers -> n ≤ 1000) :
    paradox rand decimals b text memory =
        some (.done (numbers.map fun n => decimals (estimate rand n))) ↔
      EndsBlank text ∧ numbers.length < entries ∧ memory.N numbers.length ≤ 1000 := by
  by_cases ends : EndsBlank text
  · have rounds := @readLoop_endsBlank rand b numbers entries 0 text memory holds small ends
      (Nat.zero_add _)
    rw [Nat.zero_add] at rounds
    by_cases fits : numbers.length < entries ∧ memory.N numbers.length ≤ entries
    · rw [if_pos fits] at rounds
      rcases rounds with ⟨after, runs, answered, _⟩
      refine iff_of_true ?_ ⟨ends, fits.1, fits.2⟩
      rw [paradox_of_rounds runs fits.1, answered_lines answered]
    · rw [if_neg fits] at rounds
      refine iff_of_false (fun answers => ?_) (fun all => fits all.2)
      rw [paradox, rounds] at answers
      cases answers
  · exact iff_of_false (not_answers_of_not_endsBlank holds nonempty few small ends)
      (fun all => ends all.1)

end Rounds

/-- Arrays of zeros. -/
def zeros : Memory where
  N := fun _ => 0
  M := fun _ => 0

/-- What is written for no shared birthday. -/
def zeroLine : Text := ['0', '.', '0', '0', '\n']

theorem holds_one_zero : Holds ['1', ' ', '0'] [1, 0] := by
  have words : tokens isspace ['1', ' ', '0'] = [['1'], ['0']] := by decide
  rw [Holds, words]
  exact List.Forall₂.cons rfl (List.Forall₂.cons rfl List.Forall₂.nil)

theorem holds_one_zero_newline : Holds ['1', ' ', '0', '\n'] [1, 0] := by
  have words : tokens isspace ['1', ' ', '0', '\n'] = [['1'], ['0']] := by decide
  rw [Holds, words]
  exact List.Forall₂.cons rfl (List.Forall₂.cons rfl List.Forall₂.nil)

theorem paradox_answers_iff_newline :
    paradox id (fun _ => zeroLine) (fun _ => 0) ['1', ' ', '0', '\n'] zeros =
      some (.done [zeroLine, zeroLine]) :=
  (paradox_answers_iff holds_one_zero_newline (by decide) (by decide) (by decide)).mpr
    ⟨⟨'\n', rfl, rfl⟩, by decide, by decide⟩

/-- For two numbers and no newline behind them one line is written. -/
theorem last_number_unanswered :
    Holds ['1', ' ', '0'] [1, 0] ∧
      paradox id (fun _ => zeroLine) (fun _ => 0) ['1', ' ', '0'] zeros ≠
        some (.done ([1, 0].map fun n => (fun _ => zeroLine) (estimate id n))) := by
  refine ⟨holds_one_zero, not_answers_of_not_endsBlank holds_one_zero (by decide) (by decide)
    (by decide) ?_⟩
  rintro ⟨c, last, isBlank⟩
  cases last
  exact absurd isBlank (by decide)

end Paradox
end OsProjects
