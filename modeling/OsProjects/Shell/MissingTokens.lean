import OsProjects.Shell.Reading

namespace OsProjects
namespace Shell

open Machine

/-!
# Lines that lack a token

Whether a line has a sign is asked of its text, and where the sign is, of its tokens.  A
line without tokens, a sign that is part of a word and a sign without an operand all lead
to a null pointer.
-/

/-- The sign that the child looks for. -/
def Flags.sign (flags : Flags) : Option Text :=
  if flags.or && !flags.ar then some or_sign
  else if flags.ar then some ar_sign
  else none

/-- A loop over `argv` finds the sign before the tokens end. -/
def State.LoopEnds (parsed : State) (count : Nat) (sign : Text) : Prop :=
  Exists fun i => i < count ∧ search sign parsed.token MAX_ARGV 0 = .found i

/-- Neither the shell nor its child passes a null pointer for a token, and the loops stop
inside the list of tokens. -/
def State.UsesTokens (state : State) (line : Text) : Prop :=
  (state.fgets line).line = ['\n'] ∨
    Exists fun parsed => Exists fun action =>
      (state.fgets line).parse = some parsed ∧
        ((state.fgets line).flags.piped = true ->
          parsed.LoopEnds (words line).length piped_sign) ∧
        parsed.action = some action ∧
        (action = .fork ->
          (Exists fun child => parsed.child (state.fgets line).flags = some child) ∧
            forall sign, (state.fgets line).flags.sign = some sign ->
              parsed.LoopEnds (words line).length sign)

/-- The first sign has a token behind it, and if it is the first token, two. -/
def HasOperand (strings : List Text) (sign : Text) : Prop :=
  strings.idxOf sign + 1 < strings.length ∧ (strings.idxOf sign = 0 -> 2 < strings.length)

/-- The lines that lack nothing.  A line that starts with a bar runs what `cmd1` has. -/
def State.Complete (state : State) (line : Text) : Prop :=
  cString line = ['\n'] ∨
    Exists fun name => (words line).head? = some name ∧
      (piped_sign <:+: cString line -> piped_sign ∈ words line) ∧
      (IsBuiltin name ∨
        if ar_sign <:+: cString line then HasOperand (words line) ar_sign
        else if or_sign <:+: cString line then HasOperand (words line) or_sign
        else piped_sign <:+: cString line ->
          (words line).idxOf piped_sign + 1 < (words line).length ∧
            ((words line).idxOf piped_sign = 0 -> state.cmd1 0 ≠ none))

section Cells

variable {strings : List Text} {parsed : State} {sign : Text}

/-- The cells up to the null pointer tell how many tokens there are. -/
theorem argv_ne_none_iff (vector : NullTerminated parsed.token 0 strings) {j : Nat}
    (within : j ≤ strings.length) : parsed.argv j ≠ none ↔ j < strings.length := by
  have here := vector j within
  rw [Nat.zero_add, State.token] at here
  have isNone : parsed.argv j = none ↔ strings[j]? = none := by
    rw [← here, Option.map_eq_none_iff]
  rw [ne_eq, isNone, List.getElem?_eq_none_iff, Nat.not_le]

theorem HasOperand.mem (has : HasOperand strings sign) : sign ∈ strings :=
  List.idxOf_lt_length_iff.mp (Nat.lt_of_succ_lt has.1)

theorem execvp_isSome_iff {input : Text} {cells : Nat -> Option Pointer} :
    (Exists fun exec => execvp input cells = some exec) ↔ cells 0 ≠ none := by
  rw [← Option.isSome_iff_exists, execvp, Option.isSome_map, Option.isSome_iff_ne_none]

theorem loopEnds_of_mem (vector : NullTerminated parsed.token 0 strings)
    (short : strings.length < MAX_ARGV) (found : sign ∈ strings) :
    parsed.LoopEnds strings.length sign := by
  refine ⟨strings.idxOf sign, List.idxOf_lt_length_iff.mpr found, ?_⟩
  rw [search_eq sign strings MAX_ARGV 0 vector short, if_pos found, Nat.zero_add]

theorem bind_map_some_iff {α β γ : Type} {first : Option α} {second : Option β} {f : α -> β -> γ} :
    (Exists fun c => (first.bind fun a => second.map (f a)) = some c) ↔
      first ≠ none ∧ second ≠ none := by
  cases first with
  | none => simp only [Option.bind_none, reduceCtorEq, exists_false, ne_eq, not_true_eq_false,
      false_and]
  | some a =>
      cases second with
      | none => simp only [Option.bind_some, Option.map_none, reduceCtorEq, exists_false, ne_eq,
          not_true_eq_false, and_false]
      | some b => simp only [Option.bind_some, Option.map_some, Option.some.injEq, exists_eq',
          ne_eq, reduceCtorEq, not_false_eq_true, and_self]

/-- A redirection has a file and a command exactly when the sign has its operands. -/
theorem redirect_some_iff (disposition : Disposition)
    (vector : NullTerminated parsed.token 0 strings) (short : strings.length < MAX_ARGV) :
    (Exists fun child => parsed.redirect sign disposition = some child) ↔
      HasOperand strings sign := by
  by_cases found : sign ∈ strings
  · have below := List.idxOf_lt_length_iff.mpr found
    rw [State.redirect_found disposition vector short found, bind_map_some_iff,
      argv_ne_none_iff vector below, Option.ne_none_iff_exists', execvp_isSome_iff,
      State.moveOperand_apply, if_neg (Nat.succ_ne_zero _).symm, if_neg (by omega)]
    refine and_congr_right fun behind => ?_
    by_cases first : 0 = strings.idxOf sign
    · rw [if_pos first, ← first, argv_ne_none_iff vector (by omega)]
      exact ⟨fun third _ => third, fun third => third rfl⟩
    · rw [if_neg first, argv_ne_none_iff vector (Nat.zero_le _)]
      exact ⟨fun _ isFirst => absurd isFirst.symm first, fun _ => by omega⟩
  · rw [State.redirect_stuck disposition vector short found]
    refine ⟨fun ends => ?_, fun has => absurd has.mem found⟩
    rcases ends with ⟨child, same⟩
    cases same

end Cells

namespace State

section Line

variable {state parsed : State} {line : Text}

/-- A pipe has two commands exactly when the first bar has a token on each side, where
the one before it may be left from an earlier line. -/
theorem pipe_some_iff (parse : state.Parsed line parsed) (piped : piped_sign <:+: cString line)
    (bar : piped_sign ∈ words line) :
    (Exists fun child => ((execvp parsed.input parsed.cmd1).bind fun first =>
      (execvp parsed.input parsed.cmd2).map fun second => Child.pipe first second) = some child) ↔
      (words line).idxOf piped_sign + 1 < (words line).length ∧
        ((words line).idxOf piped_sign = 0 -> state.cmd1 0 ≠ none) := by
  have below := List.idxOf_lt_length_iff.mpr bar
  have count : copied line = (words line).idxOf piped_sign := if_pos piped
  have operand : parsed.cmd2 0 = parsed.argv ((words line).idxOf piped_sign + 1) := by
    rw [parse.cmd2, if_pos ⟨piped, rfl⟩, count]
  have behind : parsed.argv ((words line).idxOf piped_sign + 1) ≠ none ↔
      (words line).idxOf piped_sign + 1 < (words line).length :=
    argv_ne_none_iff parse.vector below
  rw [bind_map_some_iff, Option.ne_none_iff_exists', Option.ne_none_iff_exists',
    execvp_isSome_iff, execvp_isSome_iff, operand, behind, parse.cmd1, count, and_comm]
  refine and_congr_right fun _ => ?_
  by_cases first : 0 < (words line).idxOf piped_sign
  · rw [if_pos first, argv_ne_none_iff parse.vector (Nat.zero_le _)]
    exact ⟨fun _ isFirst => absurd isFirst (Nat.ne_of_gt first), fun _ => by omega⟩
  · rw [if_neg first]
    exact ⟨fun cell _ => cell, fun cell => cell (by omega)⟩

theorem flags_eq (state : State) (line : Text) :
    (state.fgets line).flags =
      ⟨decide (or_sign <:+: cString line), decide (ar_sign <:+: cString line),
        decide (piped_sign <:+: cString line)⟩ := by
  rw [flags, fgets_line]

/-- The child of a parsed line. -/
theorem child_some_iff (parse : state.Parsed line parsed) (delivered : line.length < MAX_ARGV)
    (bar : piped_sign <:+: cString line -> piped_sign ∈ words line) {name : Text}
    (isFirst : (words line).head? = some name) :
    (Exists fun child => parsed.child (state.fgets line).flags = some child) ↔
      if ar_sign <:+: cString line then HasOperand (words line) ar_sign
      else if or_sign <:+: cString line then HasOperand (words line) or_sign
      else piped_sign <:+: cString line ->
        (words line).idxOf piped_sign + 1 < (words line).length ∧
          ((words line).idxOf piped_sign = 0 -> state.cmd1 0 ≠ none) := by
  have short := words_short delivered
  rw [flags_eq]
  by_cases ar : ar_sign <:+: cString line
  · simp only [child, ar, decide_true, Bool.not_true, Bool.and_false, Bool.false_and,
      Bool.false_eq_true, if_false, if_true]
    exact redirect_some_iff .O_APPEND parse.vector short
  · by_cases or : or_sign <:+: cString line
    · simp only [child, ar, or, decide_true, decide_false, Bool.not_true, Bool.not_false,
        Bool.false_and, Bool.and_self, Bool.false_eq_true, if_false, if_true]
      exact redirect_some_iff .O_TRUNC parse.vector short
    · by_cases piped : piped_sign <:+: cString line
      · simp only [child, ar, or, piped, decide_true, decide_false, Bool.not_true, Bool.not_false,
          Bool.and_false, Bool.and_self, Bool.false_and, Bool.false_eq_true, if_false, if_true,
          forall_true_left]
        exact pipe_some_iff parse piped (bar piped)
      · simp only [child, ar, or, piped, decide_false, Bool.not_false, Bool.and_self, if_true,
          if_false, false_implies, iff_true]
        have some : parsed.argv 0 ≠ none := by
          rw [argv_ne_none_iff parse.vector (Nat.zero_le _)]
          refine List.length_pos_of_ne_nil (fun empty => ?_)
          rw [empty] at isFirst
          cases isFirst
        rcases (@execvp_isSome_iff parsed.input parsed.argv).mpr some with ⟨exec, given⟩
        exact ⟨.plain exec, by rw [given, Option.map_some]⟩

end Line

theorem action_eq {state parsed : State} {line : Text} (parse : state.Parsed line parsed) :
    parsed.action = (words line).head?.map fun name =>
      if name = exit_name then
        if (parsed.argv 1).isSome then .error else .exit
      else if name = cd_name then .cd (parsed.token 1)
      else if name = pwd_name then .pwd
      else .fork := by
  have first : parsed.token 0 = (words line).head? := by
    rw [List.head?_eq_getElem?]
    exact parse.vector 0 (Nat.zero_le _)
  rw [action, first]

/-- The shell acts on a line if it has a token, and forks unless that is a name of its own. -/
theorem action_some {state parsed : State} {line name : Text} (parse : state.Parsed line parsed)
    (isFirst : (words line).head? = some name) :
    Exists fun action => parsed.action = some action ∧ (action = .fork ↔ ¬ IsBuiltin name) := by
  refine ⟨_, by rw [action_eq parse, isFirst, Option.map_some], ?_⟩
  unfold IsBuiltin
  split_ifs with isExit more isCd isPwd
  · exact iff_of_false (by decide) (fun other => other (Or.inl isExit))
  · exact iff_of_false (by decide) (fun other => other (Or.inl isExit))
  · exact iff_of_false not_false (fun other => other (Or.inr (Or.inl isCd)))
  · exact iff_of_false (by decide) (fun other => other (Or.inr (Or.inr isPwd)))
  · exact iff_of_true rfl (by
      rintro (same | same | same)
      · exact isExit same
      · exact isCd same
      · exact isPwd same)

/-- The loop of the child ends inside the tokens once it has the operand. -/
theorem sign_loopEnds {state parsed : State} {line : Text} (parse : state.Parsed line parsed)
    (delivered : line.length < MAX_ARGV)
    (operands : if ar_sign <:+: cString line then HasOperand (words line) ar_sign
      else if or_sign <:+: cString line then HasOperand (words line) or_sign
      else piped_sign <:+: cString line ->
        (words line).idxOf piped_sign + 1 < (words line).length ∧
          ((words line).idxOf piped_sign = 0 -> state.cmd1 0 ≠ none)) :
    forall sign, (state.fgets line).flags.sign = some sign ->
      parsed.LoopEnds (words line).length sign := by
  intro sign looks
  rw [flags_eq] at looks
  have ends : forall {sign : Text}, HasOperand (words line) sign ->
      parsed.LoopEnds (words line).length sign := fun has =>
    loopEnds_of_mem parse.vector (words_short delivered) has.mem
  by_cases ar : ar_sign <:+: cString line
  · rw [if_pos ar] at operands
    simp only [Flags.sign, ar, decide_true, Bool.not_true, Bool.and_false, Bool.false_eq_true,
      if_false, if_true] at looks
    exact Option.some.inj looks ▸ ends operands
  · by_cases or : or_sign <:+: cString line
    · rw [if_neg ar, if_pos or] at operands
      simp only [Flags.sign, ar, or, decide_true, decide_false, Bool.not_false, Bool.and_self,
        if_true] at looks
      exact Option.some.inj looks ▸ ends operands
    · simp only [Flags.sign, ar, or, decide_false, Bool.false_and, Bool.false_eq_true, if_false,
        reduceCtorEq] at looks

/-- A parsed line lacks nothing exactly when the shell handles it itself or the child has
its operands. -/
theorem usesTokens_iff_of_parsed {state parsed : State} {line : Text}
    (delivered : line.length < MAX_ARGV) (full : cString line ≠ ['\n'])
    (same : (state.fgets line).parse = some parsed) (parse : state.Parsed line parsed)
    (bar : piped_sign <:+: cString line -> piped_sign ∈ words line) :
    state.UsesTokens line ↔ state.Complete line := by
  have noSkip : (state.fgets line).line ≠ ['\n'] := by rwa [fgets_line]
  rw [UsesTokens, Complete, or_iff_right noSkip, or_iff_right full]
  constructor
  · rintro ⟨other, action, same', _, acts, forks⟩
    rw [same] at same'
    cases same'
    cases isFirst : (words line).head? with
    | none =>
        rw [action_eq parse, isFirst] at acts
        cases acts
    | some name =>
        refine ⟨name, rfl, bar, ?_⟩
        by_cases builtin : IsBuiltin name
        · exact Or.inl builtin
        · rcases action_some parse isFirst with ⟨action', acts', forkIff⟩
          rw [acts] at acts'
          cases acts'
          exact Or.inr ((child_some_iff parse delivered bar isFirst).mp
            (forks (forkIff.mpr builtin)).1)
  · rintro ⟨name, isFirst, _, handled⟩
    rcases action_some parse isFirst with ⟨action, acts, forkIff⟩
    refine ⟨parsed, action, same, fun piped => ?_, acts, fun isFork => ?_⟩
    · rw [piped_iff, ← piped_infix_iff] at piped
      exact loopEnds_of_mem parse.vector (words_short delivered) (bar piped)
    · have operands := handled.resolve_left (forkIff.mp isFork)
      exact ⟨(child_some_iff parse delivered bar isFirst).mpr operands,
        sign_loopEnds parse delivered operands⟩

/-- The shell never uses a missing token exactly on the lines that lack nothing. -/
theorem uses_tokens_iff_complete (state : State) {line : Text}
    (delivered : line.length < MAX_ARGV) : state.UsesTokens line ↔ state.Complete line := by
  by_cases empty : cString line = ['\n']
  · exact iff_of_true (Or.inl ((state.fgets_line line).trans empty)) (Or.inl empty)
  · by_cases piped : piped_sign <:+: cString line
    · by_cases bar : piped_sign ∈ words line
      · rcases state.parse_piped delivered piped bar with ⟨parsed, same, parse⟩
        exact usesTokens_iff_of_parsed delivered empty same parse (fun _ => bar)
      · have stuck := state.parse_stuck delivered piped bar
        refine iff_of_false ?_ ?_
        · rintro (skip | ⟨parsed, action, same, _⟩)
          · exact empty ((state.fgets_line line).symm.trans skip)
          · rw [stuck] at same
            cases same
        · rintro (skip | ⟨name, _, found, _⟩)
          · exact empty skip
          · exact bar (found piped)
    · rcases state.parse_plain delivered piped with ⟨parsed, same, parse⟩
      exact usesTokens_iff_of_parsed delivered empty same parse
        (fun found => absurd found piped)

theorem uses_tokens_iff_complete_blank :
    ¬ fresh.UsesTokens [' ', '\n'] ∧ fresh.UsesTokens ['l', 's', ' ', '>', ' ', 'f', '\n'] := by
  have blank : words [' ', '\n'] = [] := by decide
  have redirected : words ['l', 's', ' ', '>', ' ', 'f', '\n'] = [['l', 's'], ['>'], ['f']] := by
    decide
  refine ⟨fun uses => ?_, (uses_tokens_iff_complete fresh (by decide)).mpr ?_⟩
  · rcases (uses_tokens_iff_complete fresh (by decide)).mp uses with empty | ⟨name, first, _⟩
    · exact absurd empty (by decide)
    · rw [blank] at first
      cases first
  · refine Or.inr ⟨['l', 's'], by rw [redirected]; rfl, fun bar => absurd bar (by decide), ?_⟩
    rw [redirected, if_neg (by decide), if_pos (by decide)]
    exact Or.inr ⟨by decide, by decide⟩

/-- A sign that is part of a word is seen in the text and not found among the tokens. -/
theorem glued_sign_uses_null : ¬ fresh.UsesTokens ['l', 's', '>', 'f', '\n'] := by
  have delivered : ['l', 's', '>', 'f', '\n'].length < MAX_ARGV := by decide
  have noBar : ¬ piped_sign <:+: cString ['l', 's', '>', 'f', '\n'] := by decide
  rcases fresh.parse_plain delivered noBar with ⟨parsed, same, parse⟩
  rw [usesTokens_iff_of_parsed delivered (by decide) same parse (fun found => absurd found noBar)]
  rintro (skip | ⟨name, isFirst, _, builtin | operand⟩)
  · exact absurd skip (by decide)
  · cases isFirst
    exact absurd builtin (by decide)
  · rw [if_neg (by decide), if_pos (by decide)] at operand
    exact absurd operand.1 (by decide)

end State

end Shell
end OsProjects
