import OsProjects.Shell.Reading

namespace OsProjects
namespace Shell

open Machine

/-!
# Commands as they are typed

A command is a list of words, alone or with a file for its output or with a second
command behind a bar.  The shell ends the vector of a plain or redirected command with
a null pointer.  It does not end `cmd1`, and it stores one pointer in `cmd2`, so what a
pipe runs depends on the cells behind.
-/

/-- What may follow the words of a command. -/
inductive Tail where
  | nothing
  | truncate (file : Text)
  | append (file : Text)
  | pipe (second : List Text)

structure Command where
  first : List Text
  tail : Tail

def Tail.tokens : Tail -> List Text
  | .nothing => []
  | .truncate file => [or_sign, file]
  | .append file => [ar_sign, file]
  | .pipe second => piped_sign :: second

/-- A line that `fgets` can deliver, with a command of the kind that the shell forks for. -/
structure Typed (line : Text) (command : Command) : Prop where
  delivered : line.length < MAX_ARGV
  tokens : words line = command.first ++ command.tail.tokens
  nonempty : command.first ≠ []
  foreign : forall name, command.first.head? = some name -> ¬ IsBuiltin name
  plain : forall word, word ∈ command.first -> '>' ∉ word ∧ '|' ∉ word
  operand : forall second, command.tail = .pipe second -> second ≠ []

/-- The file and the vector are those of a command with these words. -/
structure Exec.Runs (exec : Exec) (strings : List Text) : Prop where
  file : some exec.file = strings.head?
  vector : NullTerminated exec.argv 0 strings

def Child.Runs : Child -> Command -> Prop
  | .plain exec, ⟨first, .nothing⟩ => exec.Runs first
  | .redirected name disposition exec, ⟨first, .truncate file⟩ =>
      name = file ∧ disposition = .O_TRUNC ∧ exec.Runs first
  | .redirected name disposition exec, ⟨first, .append file⟩ =>
      name = file ∧ disposition = .O_APPEND ∧ exec.Runs first
  | .pipe left right, ⟨first, .pipe second⟩ => left.Runs first ∧ right.Runs second
  | _, _ => False

namespace State

/-- The shell forks, and the child runs the command. -/
def RunsAsTyped (state : State) (line : Text) (command : Command) : Prop :=
  Exists fun parsed => Exists fun child =>
    (state.fgets line).parse = some parsed ∧ parsed.action = some .fork ∧
      parsed.child (state.fgets line).flags = some child ∧ child.Runs command

/-! ## Vectors -/

theorem execvp_runs {input : Text} {cells : Nat -> Option Pointer} {exec : Exec}
    {strings : List Text} (given : execvp input cells = some exec) :
    exec.Runs strings ↔ NullTerminated (fun i => (cells i).map (Pointer.text input)) 0 strings := by
  rcases execvp_eq_some.mp given with ⟨file, argv⟩
  refine ⟨fun runs => argv ▸ runs.vector, fun vector => ⟨?_, argv ▸ vector⟩⟩
  rw [← file, List.head?_eq_getElem?]
  exact vector 0 (Nat.zero_le _)

/-- A vector with a first word can be run. -/
theorem execvp_given {input : Text} {cells : Nat -> Option Pointer} {strings : List Text}
    (nonempty : strings ≠ [])
    (vector : NullTerminated (fun i => (cells i).map (Pointer.text input)) 0 strings) :
    Exists fun exec => execvp input cells = some exec ∧ exec.Runs strings := by
  cases strings with
  | nil => exact absurd rfl nonempty
  | cons word strings =>
      have first : (cells 0).map (Pointer.text input) = some word := vector 0 (Nat.zero_le _)
      have given : execvp input cells =
          some { file := word, argv := fun i => (cells i).map (Pointer.text input) } :=
        execvp_eq_some.mpr ⟨first, rfl⟩
      exact ⟨_, given, (execvp_runs given).mpr vector⟩

theorem nullTerminated_null {cells : Nat -> Option Text} {strings : List Text}
    (vector : NullTerminated cells 0 strings) : cells strings.length = none := by
  have ends := vector strings.length (Nat.le_refl _)
  rwa [Nat.zero_add, List.getElem?_eq_none (Nat.le_refl _)] at ends

/-! ## One line -/

section Line

variable {state parsed : State} {line : Text} {command : Command}

theorem action_fork (typed : Typed line command) (parse : state.Parsed line parsed) :
    parsed.action = some .fork := by
  have name := parse.vector 0 (Nat.zero_le _)
  rcases words' : command.first with _ | ⟨first, rest⟩
  · exact absurd words' typed.nonempty
  · have foreign := typed.foreign first (by rw [words', List.head?_cons])
    rw [typed.tokens, words'] at name
    have here : parsed.token 0 = some first := name
    unfold IsBuiltin at foreign
    push Not at foreign
    rw [action, here, Option.map_some, if_neg foreign.1, if_neg foreign.2.1, if_neg foreign.2.2]

theorem runsAsTyped_of_parse (typed : Typed line command)
    (same : (state.fgets line).parse = some parsed) (parse : state.Parsed line parsed) :
    state.RunsAsTyped line command ↔ Exists fun child =>
      parsed.child (state.fgets line).flags = some child ∧ child.Runs command := by
  constructor
  · rintro ⟨other, child, parse', _, forked, runs⟩
    rw [same] at parse'
    cases parse'
    exact ⟨child, forked, runs⟩
  · rintro ⟨child, forked, runs⟩
    exact ⟨parsed, child, same, action_fork typed parse, forked, runs⟩

theorem typed_infix_iff {sign : Text} (typed : Typed line command)
    (absent : forall word, word ∈ command.first -> ¬ sign <:+: word) :
    (Exists fun word => word ∈ words line ∧ sign <:+: word) ↔
      Exists fun word => word ∈ command.tail.tokens ∧ sign <:+: word := by
  rw [typed.tokens]
  constructor
  · rintro ⟨word, inTokens, found⟩
    rcases List.mem_append.mp inTokens with inFirst | inTail
    · exact absurd found (absent word inFirst)
    · exact ⟨word, inTail, found⟩
  · rintro ⟨word, inTail, found⟩
    exact ⟨word, List.mem_append_right _ inTail, found⟩

theorem idxOf_sign {first rest : List Text} {sign : Text} (absent : sign ∉ first) :
    (first ++ sign :: rest).idxOf sign = first.length := by
  rw [List.idxOf_append_of_notMem absent, List.idxOf_cons_self, Nat.add_zero]

/-- The operand of a redirection is moved behind the null pointer that ends the vector. -/
theorem redirect_runs {first : List Text} {sign file : Text} (disposition : Disposition)
    (vector : NullTerminated parsed.token 0 (first ++ [sign, file]))
    (short : (first ++ [sign, file]).length < MAX_ARGV) (nonempty : first ≠ [])
    (absent : sign ∉ first) :
    Exists fun exec => parsed.redirect sign disposition = some (.redirected file disposition exec) ∧
      exec.Runs first := by
  have size : (first ++ [sign, file]).length = first.length + 2 := List.length_append
  have positive := List.length_pos_of_ne_nil nonempty
  have operand : parsed.token (first.length + 1) = some file := by
    have here := vector (first.length + 1) (by omega)
    rw [List.getElem?_append_right (by omega), Nat.add_sub_cancel_left, Nat.zero_add] at here
    exact here
  have ends : parsed.token (first.length + 2) = none := size ▸ nullTerminated_null vector
  rcases Option.map_eq_some_iff.mp operand with ⟨pointer, cell, text⟩
  have moved : NullTerminated (fun j => (moveOperand parsed.argv first.length j).map
      (Pointer.text parsed.input)) 0 first := by
    intro j within
    simp only [Nat.zero_add]
    rw [moveOperand_apply, if_neg (by omega), if_neg (by omega)]
    by_cases last : j = first.length
    · subst last
      rw [if_pos rfl, List.getElem?_eq_none (Nat.le_refl _)]
      exact ends
    · have here := vector j (by omega)
      rw [Nat.zero_add, List.getElem?_append_left (by omega)] at here
      rw [if_neg last]
      exact here
  rcases execvp_given nonempty moved with ⟨exec, given, runs⟩
  refine ⟨exec, ?_, runs⟩
  rw [redirect_found disposition vector short (List.mem_append_right _ List.mem_cons_self),
    idxOf_sign absent, cell, Option.bind_some, given, Option.map_some, text]

/-! ## When the command is run -/

/-- When the child runs the command.  For a pipe, the cell of `cmd1` behind the first
command is null, and the cells of `cmd2` after the first hold the rest of the second. -/
def Ends (state : State) (line : Text) (command : Command) : Prop :=
  match command.tail with
  | .nothing => True
  | .truncate file => ¬ ar_sign <:+: file ∧ (piped_sign <:+: file -> file = piped_sign)
  | .append file => piped_sign <:+: file -> file = piped_sign
  | .pipe second =>
      (forall word, word ∈ second -> ¬ or_sign <:+: word) ∧
        state.cmd1 command.first.length = none ∧
        forall j, j < second.length ->
          (state.cmd2 (j + 1)).map (Pointer.text (state.cutInput line)) = second[j + 1]?

theorem or_of_ar {word : Text} (found : ar_sign <:+: word) : or_sign <:+: word :=
  List.IsInfix.trans ⟨[], ['>'], rfl⟩ found

theorem absent_of_plain {word : Text} (plain : '>' ∉ word ∧ '|' ∉ word) :
    ¬ or_sign <:+: word ∧ ¬ ar_sign <:+: word ∧ ¬ piped_sign <:+: word := by
  have noOr : ¬ or_sign <:+: word := fun found =>
    plain.1 ((List.singleton_infix_iff '>' word).mp found)
  exact ⟨noOr, fun found => noOr (or_of_ar found), fun found =>
    plain.2 ((List.singleton_infix_iff '|' word).mp found)⟩

theorem typed_or_iff (typed : Typed line command) :
    (state.fgets line).flags.or = true ↔
      Exists fun word => word ∈ command.tail.tokens ∧ or_sign <:+: word :=
  (State.or_iff state line).trans
    (typed_infix_iff typed fun word inFirst => (absent_of_plain (typed.plain word inFirst)).1)

theorem typed_ar_iff (typed : Typed line command) :
    (state.fgets line).flags.ar = true ↔
      Exists fun word => word ∈ command.tail.tokens ∧ ar_sign <:+: word :=
  (State.ar_iff state line).trans
    (typed_infix_iff typed fun word inFirst => (absent_of_plain (typed.plain word inFirst)).2.1)

theorem typed_piped_iff (typed : Typed line command) :
    piped_sign <:+: cString line ↔
      Exists fun word => word ∈ command.tail.tokens ∧ piped_sign <:+: word :=
  (piped_infix_iff line).trans
    (typed_infix_iff typed fun word inFirst => (absent_of_plain (typed.plain word inFirst)).2.2)

theorem sign_absent {sign : Text} (typed : Typed line command)
    (isSign : sign = or_sign ∨ sign = ar_sign ∨ sign = piped_sign) : sign ∉ command.first := by
  intro inFirst
  have absent := absent_of_plain (typed.plain sign inFirst)
  rcases isSign with rfl | rfl | rfl
  · exact absent.1 (List.infix_refl _)
  · exact absent.2.1 (List.infix_refl _)
  · exact absent.2.2 (List.infix_refl _)

theorem flag_eq_false {flag : Bool} {found : Prop} (same : flag = true ↔ found) (absent : ¬ found) :
    flag = false :=
  Bool.eq_false_iff.mpr fun isSet => absent (same.mp isSet)

theorem runs_nothing {first : List Text} (typed : Typed line ⟨first, .nothing⟩) :
    state.RunsAsTyped line ⟨first, .nothing⟩ := by
  have noTokens : forall sign : Text, ¬ Exists fun word =>
      word ∈ (Tail.nothing).tokens ∧ sign <:+: word :=
    fun sign ⟨word, inNil, _⟩ => absurd inNil List.not_mem_nil
  rcases state.parse_plain typed.delivered
    (fun piped => noTokens _ ((typed_piped_iff typed).mp piped)) with ⟨parsed, same, parse⟩
  have orFlag := flag_eq_false (@typed_or_iff state line _ typed) (noTokens _)
  have arFlag := flag_eq_false (@typed_ar_iff state line _ typed) (noTokens _)
  have pipedFlag := flag_eq_false ((State.piped_iff state line).trans
    ((piped_infix_iff line).symm.trans (typed_piped_iff typed))) (noTokens _)
  have vector := parse.vector
  rw [typed.tokens, Tail.tokens, List.append_nil] at vector
  rcases execvp_given typed.nonempty vector with ⟨exec, given, runs⟩
  refine (runsAsTyped_of_parse typed same parse).mpr ⟨.plain exec, ?_, runs⟩
  simp only [child, orFlag, arFlag, pipedFlag, Bool.not_false, Bool.and_self, if_true, given,
    Option.map_some]

/-- With a sign for the output the shell parses the line unless a bar is part of the file. -/
theorem parse_redirected (state : State) {first : List Text} {sign file : Text} {tail : Tail}
    (typed : Typed line ⟨first, tail⟩) (isTail : tail.tokens = [sign, file])
    (noBar : ¬ piped_sign <:+: sign) (alone : piped_sign <:+: file -> file = piped_sign) :
    Exists fun parsed => (state.fgets line).parse = some parsed ∧ state.Parsed line parsed := by
  by_cases piped : piped_sign <:+: cString line
  · refine state.parse_piped typed.delivered piped ?_
    rcases (typed_piped_iff typed).mp piped with ⟨word, inTail, found⟩
    rw [isTail] at inTail
    rw [typed.tokens, isTail]
    rcases List.mem_pair.mp inTail with rfl | rfl
    · exact absurd found noBar
    · rw [alone found]
      exact List.mem_append_right _ (List.mem_cons_of_mem _ List.mem_cons_self)
  · exact state.parse_plain typed.delivered piped

/-- A bar inside the file of a redirection stops the shell. -/
theorem stuck_redirected {first : List Text} {sign file : Text} {tail : Tail}
    (typed : Typed line ⟨first, tail⟩) (isTail : tail.tokens = [sign, file])
    (other : sign ≠ piped_sign) (found : piped_sign <:+: file) (longer : file ≠ piped_sign) :
    (state.fgets line).parse = none := by
  refine state.parse_stuck typed.delivered ((typed_piped_iff typed).mpr
    ⟨file, isTail ▸ List.mem_cons_of_mem sign List.mem_cons_self, found⟩) (fun bar => ?_)
  rw [typed.tokens, isTail] at bar
  rcases List.mem_append.mp bar with inFirst | inTail
  · exact sign_absent typed (Or.inr (Or.inr rfl)) inFirst
  · rcases List.mem_pair.mp inTail with same | same
    · exact other same.symm
    · exact longer same.symm

theorem not_runs_of_stuck (stuck : (state.fgets line).parse = none) :
    ¬ state.RunsAsTyped line command := by
  rintro ⟨parsed, child, same, _⟩
  rw [stuck] at same
  cases same

/-! ## The branches of the child -/

theorem child_or {flags : Flags} (isOr : flags.or = true) (noAr : flags.ar = false) :
    parsed.child flags = parsed.redirect or_sign .O_TRUNC := by
  simp only [child, isOr, noAr, Bool.not_true, Bool.false_and, Bool.false_eq_true, if_false,
    Bool.not_false, Bool.and_self, if_true]

theorem child_ar {flags : Flags} (isAr : flags.ar = true) :
    parsed.child flags = parsed.redirect ar_sign .O_APPEND := by
  simp only [child, isAr, Bool.not_true, Bool.and_false, Bool.false_and, Bool.false_eq_true,
    if_false, if_true]

theorem child_piped {flags : Flags} (noOr : flags.or = false) (noAr : flags.ar = false)
    (isPiped : flags.piped = true) :
    parsed.child flags = (execvp parsed.input parsed.cmd1).bind fun first =>
      (execvp parsed.input parsed.cmd2).map fun second => .pipe first second := by
  simp only [child, noOr, noAr, isPiped, Bool.not_true, Bool.and_false, Bool.false_and,
    Bool.false_eq_true, if_false, if_true]

theorem redirect_kind {sign : Text} {disposition : Disposition} {outcome : Child}
    (ends : parsed.redirect sign disposition = some outcome) :
    outcome = .returns ∨ Exists fun file => Exists fun exec =>
      outcome = .redirected file disposition exec := by
  unfold redirect at ends
  split at ends
  · cases ends
  · exact Or.inl (Option.some.inj ends).symm
  · rcases Option.bind_eq_some_iff.mp ends with ⟨file, _, rest⟩
    rcases Option.map_eq_some_iff.mp rest with ⟨exec, _, same⟩
    exact Or.inr ⟨_, exec, same.symm⟩

theorem runs_truncate_iff {first : List Text} {file : Text}
    (typed : Typed line ⟨first, .truncate file⟩) :
    state.RunsAsTyped line ⟨first, .truncate file⟩ ↔ state.Ends line ⟨first, .truncate file⟩ := by
  have isTail : (Tail.truncate file).tokens = [or_sign, file] := rfl
  have isOr : (state.fgets line).flags.or = true :=
    (typed_or_iff typed).mpr ⟨or_sign, List.mem_cons_self, List.infix_refl _⟩
  constructor
  · intro runs
    have alone : piped_sign <:+: file -> file = piped_sign := by
      intro found
      by_contra longer
      exact not_runs_of_stuck (stuck_redirected typed isTail (by decide) found longer) runs
    refine ⟨fun found => ?_, alone⟩
    have isAr : (state.fgets line).flags.ar = true :=
      (typed_ar_iff typed).mpr ⟨file, List.mem_cons_of_mem _ List.mem_cons_self, found⟩
    rcases runs with ⟨parsed, outcome, _, _, forked, runs⟩
    rw [child_ar isAr] at forked
    rcases redirect_kind forked with rfl | ⟨name, exec, rfl⟩
    · exact runs
    · exact absurd runs.2.1 (by decide)
  · rintro ⟨noAr, alone⟩
    rcases state.parse_redirected typed isTail (by decide) alone with ⟨parsed, same, parse⟩
    have arFlag := flag_eq_false (@typed_ar_iff state line _ typed) (by
      rintro ⟨word, inTail, found⟩
      rcases List.mem_pair.mp inTail with rfl | rfl
      · exact absurd found (by decide)
      · exact noAr found)
    have vector := parse.vector
    have short := words_short typed.delivered
    rw [typed.tokens] at vector short
    rcases redirect_runs .O_TRUNC vector short typed.nonempty (sign_absent typed (Or.inl rfl)) with
      ⟨exec, forked, runs⟩
    refine (runsAsTyped_of_parse typed same parse).mpr
      ⟨.redirected file .O_TRUNC exec, ?_, rfl, rfl, runs⟩
    rw [child_or isOr arFlag]
    exact forked

theorem runs_append_iff {first : List Text} {file : Text}
    (typed : Typed line ⟨first, .append file⟩) :
    state.RunsAsTyped line ⟨first, .append file⟩ ↔ state.Ends line ⟨first, .append file⟩ := by
  have isTail : (Tail.append file).tokens = [ar_sign, file] := rfl
  have isAr : (state.fgets line).flags.ar = true :=
    (typed_ar_iff typed).mpr ⟨ar_sign, List.mem_cons_self, List.infix_refl _⟩
  constructor
  · intro runs found
    by_contra longer
    exact not_runs_of_stuck (stuck_redirected typed isTail (by decide) found longer) runs
  · intro alone
    rcases state.parse_redirected typed isTail (by decide) alone with ⟨parsed, same, parse⟩
    have vector := parse.vector
    have short := words_short typed.delivered
    rw [typed.tokens] at vector short
    rcases redirect_runs .O_APPEND vector short typed.nonempty
      (sign_absent typed (Or.inr (Or.inl rfl))) with ⟨exec, forked, runs⟩
    refine (runsAsTyped_of_parse typed same parse).mpr
      ⟨.redirected file .O_APPEND exec, ?_, rfl, rfl, runs⟩
    rw [child_ar isAr]
    exact forked

/-! ## Pipes -/

theorem copied_pipe {first second : List Text} (typed : Typed line ⟨first, .pipe second⟩) :
    copied line = first.length := by
  have piped := (typed_piped_iff typed).mpr ⟨piped_sign, List.mem_cons_self, List.infix_refl _⟩
  rw [copied, if_pos piped, typed.tokens]
  exact idxOf_sign (sign_absent typed (Or.inr (Or.inr rfl)))

/-- The first vector ends if the cell behind it is null. -/
theorem cmd1_vector_iff {first second : List Text} (typed : Typed line ⟨first, .pipe second⟩)
    (parse : state.Parsed line parsed) :
    NullTerminated (fun j => (parsed.cmd1 j).map (Pointer.text parsed.input)) 0 first ↔
      state.cmd1 first.length = none := by
  have vector := parse.vector
  rw [typed.tokens] at vector
  have last : parsed.cmd1 first.length = state.cmd1 first.length := by
    rw [parse.cmd1, copied_pipe typed, if_neg (Nat.lt_irrefl _)]
  constructor
  · intro holds
    have ends := nullTerminated_null holds
    rw [last] at ends
    exact Option.map_eq_none_iff.mp ends
  · intro null j within
    simp only [Nat.zero_add]
    rcases Nat.lt_or_eq_of_le within with below | rfl
    · have here := vector j
          (Nat.le_trans within (by rw [List.length_append]; exact Nat.le_add_right _ _))
      rw [Nat.zero_add, List.getElem?_append_left below] at here
      rw [parse.cmd1, copied_pipe typed, if_pos below]
      exact here
    · rw [last, null, List.getElem?_eq_none (Nat.le_refl _)]
      rfl

/-- Of the second vector the shell stores the first pointer. -/
theorem cmd2_vector_iff {first second : List Text} (typed : Typed line ⟨first, .pipe second⟩)
    (parse : state.Parsed line parsed) :
    NullTerminated (fun j => (parsed.cmd2 j).map (Pointer.text parsed.input)) 0 second ↔
      forall j, j < second.length ->
        (state.cmd2 (j + 1)).map (Pointer.text (state.cutInput line)) = second[j + 1]? := by
  have tokens : words line = first ++ piped_sign :: second := typed.tokens
  have vector := parse.vector
  rw [tokens] at vector
  have piped := (typed_piped_iff typed).mpr ⟨piped_sign, List.mem_cons_self, List.infix_refl _⟩
  have stored : parsed.cmd2 0 = parsed.argv (first.length + 1) := by
    rw [parse.cmd2, copied_pipe typed, if_pos ⟨piped, rfl⟩]
  have old : forall j, parsed.cmd2 (j + 1) = state.cmd2 (j + 1) := fun j => by
    rw [parse.cmd2, if_neg (fun both => Nat.succ_ne_zero j both.2)]
  have operand : parsed.token (first.length + 1) = second[0]? := by
    have here := vector (first.length + 1) (by
      rw [List.length_append]
      exact Nat.add_le_add_left (Nat.succ_le_succ (Nat.zero_le _)) _)
    rw [Nat.zero_add, List.getElem?_append_right (Nat.le_add_right _ 1),
      Nat.add_sub_cancel_left] at here
    exact here
  constructor
  · intro holds j below
    have here := holds (j + 1) below
    simp only [Nat.zero_add] at here
    rwa [old, parse.input] at here
  · intro rest j within
    simp only [Nat.zero_add]
    cases j with
    | zero =>
        rw [stored]
        exact operand
    | succ j =>
        rw [old, parse.input]
        exact rest j within

theorem runs_pipe_iff {first second : List Text} (typed : Typed line ⟨first, .pipe second⟩) :
    state.RunsAsTyped line ⟨first, .pipe second⟩ ↔ state.Ends line ⟨first, .pipe second⟩ := by
  have piped := (typed_piped_iff typed).mpr ⟨piped_sign, List.mem_cons_self, List.infix_refl _⟩
  have isPiped : (state.fgets line).flags.piped = true :=
    (State.piped_iff state line).mpr ((piped_infix_iff line).mp piped)
  have bar : piped_sign ∈ words line := by
    rw [typed.tokens]
    exact List.mem_append_right _ List.mem_cons_self
  rcases state.parse_piped typed.delivered piped bar with ⟨parsed, same, parse⟩
  rw [runsAsTyped_of_parse typed same parse]
  constructor
  · rintro ⟨outcome, forked, runs⟩
    have redirected : forall {sign : Text} {disposition : Disposition},
        parsed.redirect sign disposition = some outcome -> False := by
      intro sign disposition ends
      rcases redirect_kind ends with rfl | ⟨file, exec, rfl⟩
      · exact runs
      · exact runs
    have noAr : (state.fgets line).flags.ar = false := by
      refine Bool.eq_false_iff.mpr (fun isAr => ?_)
      rw [child_ar isAr] at forked
      exact redirected forked
    have noOr : (state.fgets line).flags.or = false := by
      refine Bool.eq_false_iff.mpr (fun isOr => ?_)
      rw [child_or isOr noAr] at forked
      exact redirected forked
    rw [child_piped noOr noAr isPiped] at forked
    rcases Option.bind_eq_some_iff.mp forked with ⟨left, given, rest⟩
    rcases Option.map_eq_some_iff.mp rest with ⟨right, given', rfl⟩
    refine ⟨fun word inSecond found => ?_, (cmd1_vector_iff typed parse).mp
      ((execvp_runs given).mp runs.1), (cmd2_vector_iff typed parse).mp
      ((execvp_runs given').mp runs.2)⟩
    have isOr := (@typed_or_iff state line _ typed).mpr
      ⟨word, List.mem_cons_of_mem _ inSecond, found⟩
    rw [noOr] at isOr
    exact absurd isOr Bool.false_ne_true
  · rintro ⟨noSign, null, rest⟩
    have noOr := flag_eq_false (@typed_or_iff state line _ typed) (by
      rintro ⟨word, inTail, found⟩
      rcases List.mem_cons.mp inTail with rfl | inSecond
      · exact absurd found (by decide)
      · exact noSign word inSecond found)
    have noAr := flag_eq_false (@typed_ar_iff state line _ typed) (by
      rintro ⟨word, inTail, found⟩
      rcases List.mem_cons.mp inTail with rfl | inSecond
      · exact absurd found (by decide)
      · exact noSign word inSecond (or_of_ar found))
    rcases execvp_given typed.nonempty ((cmd1_vector_iff typed parse).mpr null) with
      ⟨left, given, runs⟩
    rcases execvp_given (typed.operand second rfl) ((cmd2_vector_iff typed parse).mpr rest) with
      ⟨right, given', runs'⟩
    refine ⟨.pipe left right, ?_, runs, runs'⟩
    rw [child_piped noOr noAr isPiped, given, given']
    rfl

theorem runs_iff_ends (typed : Typed line command) :
    state.RunsAsTyped line command ↔ state.Ends line command := by
  rcases command with ⟨first, tail⟩
  cases tail with
  | nothing => exact ⟨fun _ => trivial, fun _ => runs_nothing typed⟩
  | truncate file => exact runs_truncate_iff typed
  | append file => exact runs_append_iff typed
  | pipe second => exact runs_pipe_iff typed

end Line

/-! ## Over a history -/

/-- What a line leaves in `cmd1` and `cmd2`. -/
theorem turn_cells {state next : State} {line : Text} (delivered : line.length < MAX_ARGV)
    (step : state.turn line = some next) :
    (forall j, next.cmd1 j = none ↔ state.cmd1 j = none ∧ copied line ≤ j) ∧
      forall j, next.cmd2 (j + 1) = state.cmd2 (j + 1) := by
  simp only [turn, fgets_line] at step
  by_cases isEmpty : cString line = ['\n']
  · have nothing : copied line = 0 := by
      rw [copied, isEmpty, if_neg (by decide)]
    rw [if_pos isEmpty] at step
    cases step
    exact ⟨fun j => ⟨fun null => ⟨null, by omega⟩, fun both => both.1⟩, fun j => rfl⟩
  · rw [if_neg isEmpty] at step
    rcases Option.bind_eq_some_iff.mp step with ⟨parsed, same, rest⟩
    rcases Option.bind_eq_some_iff.mp rest with ⟨action, _, kept⟩
    have isNext : next = parsed := by
      by_cases exits : action = .exit
      · rw [if_pos exits] at kept
        cases kept
      · rw [if_neg exits] at kept
        exact (Option.some.inj kept).symm
    subst isNext
    have parse : state.Parsed line next := by
      by_cases piped : piped_sign <:+: cString line
      · by_cases bar : piped_sign ∈ words line
        · rcases state.parse_piped delivered piped bar with ⟨parsed, same', parse⟩
          rw [same] at same'
          exact Option.some.inj same' ▸ parse
        · rw [state.parse_stuck delivered piped bar] at same
          cases same
      · rcases state.parse_plain delivered piped with ⟨parsed, same', parse⟩
        rw [same] at same'
        exact Option.some.inj same' ▸ parse
    refine ⟨fun j => ?_, fun j => ?_⟩
    · rw [parse.cmd1]
      by_cases below : j < copied line
      · have within : copied line ≤ (words line).length := by
          unfold copied
          split
          · exact List.idxOf_le_length
          · exact Nat.zero_le _
        have here := parse.vector j (by omega)
        rw [if_pos below]
        rw [Nat.zero_add, List.getElem?_eq_getElem (by omega)] at here
        refine ⟨fun null => ?_, fun both => by omega⟩
        rw [token, null] at here
        cases here
      · rw [if_neg below]
        exact ⟨fun null => ⟨null, by omega⟩, fun both => both.1⟩
    · rw [parse.cmd2, if_neg (fun both => Nat.succ_ne_zero j both.2)]

theorem run_cells {state : State} {history : List Text} :
    forall {start : State}, (forall line, line ∈ history -> line.length < MAX_ARGV) ->
      start.run history = some state ->
      (forall j, state.cmd1 j = none ↔
        start.cmd1 j = none ∧ forall line, line ∈ history -> copied line ≤ j) ∧
        forall j, state.cmd2 (j + 1) = start.cmd2 (j + 1) := by
  induction history with
  | nil =>
      intro start _ reached
      cases reached
      exact ⟨fun j => ⟨fun null => ⟨null, fun _ inNil => absurd inNil List.not_mem_nil⟩,
        fun both => both.1⟩, fun j => rfl⟩
  | cons line history ih =>
      intro start delivered reached
      rcases Option.bind_eq_some_iff.mp reached with ⟨next, step, rest⟩
      have one := turn_cells (delivered line List.mem_cons_self) step
      have more :=
        ih (fun other inHistory => delivered other (List.mem_cons_of_mem line inHistory)) rest
      refine ⟨fun j => ?_, fun j => (more.2 j).trans (one.2 j)⟩
      rw [more.1, one.1, List.forall_mem_cons, and_assoc]

/-- When a line that is read after a history is run as it is typed. -/
def EndsAfter (start : State) (history : List Text) (state : State) (line : Text)
    (command : Command) : Prop :=
  match command.tail with
  | .nothing => True
  | .truncate file => ¬ ar_sign <:+: file ∧ (piped_sign <:+: file -> file = piped_sign)
  | .append file => piped_sign <:+: file -> file = piped_sign
  | .pipe second =>
      (forall word, word ∈ second -> ¬ or_sign <:+: word) ∧
        (start.cmd1 command.first.length = none ∧
          forall earlier, earlier ∈ history -> copied earlier ≤ command.first.length) ∧
        forall j, j < second.length ->
          (start.cmd2 (j + 1)).map (Pointer.text (state.cutInput line)) = second[j + 1]?

/-- A command is run as it is typed unless it is a pipe whose vectors do not end, or the
name of a file or a word behind the bar contains a sign. -/
theorem runs_as_typed_iff {start state : State} {history : List Text} {line : Text}
    {command : Command} (delivered : forall earlier, earlier ∈ history -> earlier.length < MAX_ARGV)
    (reached : start.run history = some state) (typed : Typed line command) :
    state.RunsAsTyped line command ↔ start.EndsAfter history state line command := by
  rcases run_cells delivered reached with ⟨cmd1, cmd2⟩
  rw [runs_iff_ends typed]
  rcases command with ⟨first, tail⟩
  cases tail with
  | nothing => exact Iff.rfl
  | truncate file => exact Iff.rfl
  | append file => exact Iff.rfl
  | pipe second => simp only [Ends, EndsAfter, cmd1, cmd2]

theorem typed_redirection :
    Typed ['l', 's', ' ', '-', 'l', ' ', '>', ' ', 'f', '\n']
      ⟨[['l', 's'], ['-', 'l']], .truncate ['f']⟩ where
  delivered := by decide
  tokens := by decide
  nonempty := by decide
  foreign := fun name isName => by
    cases isName
    decide
  plain := by decide
  operand := fun second isPipe => by cases isPipe

theorem runs_as_typed_iff_redirection :
    let line := ['l', 's', ' ', '-', 'l', ' ', '>', ' ', 'f', '\n']
    let command : Command := ⟨[['l', 's'], ['-', 'l']], .truncate ['f']⟩
    let state := fresh.fgets ['\n']
    state.RunsAsTyped line command :=
  (@runs_as_typed_iff fresh _ [['\n']] _ _ (by decide) rfl typed_redirection).mpr
    ⟨by decide, by decide⟩

theorem typed_pipe :
    Typed ['a', ' ', '|', ' ', 'b', ' ', 'c', '\n'] ⟨[['a']], .pipe [['b'], ['c']]⟩ where
  delivered := by decide
  tokens := by decide
  nonempty := by decide
  foreign := fun name isName => by
    cases isName
    decide
  plain := by decide
  operand := fun second isPipe => by
    cases isPipe
    decide

/-- The second command of the first pipe loses its argument. -/
theorem second_command_cut :
    Typed ['a', ' ', '|', ' ', 'b', ' ', 'c', '\n'] ⟨[['a']], .pipe [['b'], ['c']]⟩ ∧
      ¬ fresh.RunsAsTyped ['a', ' ', '|', ' ', 'b', ' ', 'c', '\n']
        ⟨[['a']], .pipe [['b'], ['c']]⟩ := by
  refine ⟨typed_pipe, fun runs => ?_⟩
  have cell := ((runs_pipe_iff typed_pipe).mp runs).2.2 0 (by decide)
  exact absurd cell (by decide)

end State

end Shell
end OsProjects
