import OsProjects.UserPrograms.ShellParser
import Mathlib.Data.List.DropRight

namespace OsProjects
namespace UserPrograms
namespace Sh

/-!
# Every line is read to an end

Each function of the parser goes on from a later place of the line, so the bounds are never
reached.  The words of the commands lie in the line, apart from each other and from the
symbols, so the null characters of `nulterminate` end each of them where it should end.
-/

/-- What is a word for `gettoken`. -/
structure IsText (w : Text) : Prop where
  some : w ≠ []
  word : forall c, c ∈ w -> isWord c = true

/-- A word of a C string. -/
structure Plain (w : Text) : Prop where
  isText : IsText w
  noNul : forall c, c ∈ w -> c ≠ nul

/-- The pointers of a word in the line. -/
structure Points (line : Text) (token : Token) : Prop where
  inside : token.q <:+ line
  word : Exists fun w => IsText w ∧ token.q = w ++ token.eq
  ends : forall c, token.eq.head? = some c -> isWord c = false

/-- What `parseredirs` opens a file for. -/
def Opens (mode fd : Nat) : Prop :=
  (mode = O_RDONLY ∧ fd = 0) ∨ (mode = O_WRONLY ||| O_CREATE ∧ fd = 1)

/-- The commands that `runcmd` can do: few enough words, and redirections of the two kinds. -/
def WellFormed {Word : Type} (valid : Word -> Prop) : Cmd Word -> Prop
  | .exec argv => argv.length < MAXARGS ∧ forall word, word ∈ argv -> valid word
  | .redir cmd file mode fd => WellFormed valid cmd ∧ valid file ∧ Opens mode fd
  | .pipe left right => WellFormed valid left ∧ WellFormed valid right
  | .list left right => WellFormed valid left ∧ WellFormed valid right
  | .back cmd => WellFormed valid cmd

/-! ## Tokens -/

section Tokens

variable {line s rest : Text} {c : Char} {toks : Text}

theorem forall_of_all {p : Char -> Prop} [DecidablePred p] {w : Text}
    (all : w.all (fun c => decide (p c)) = true) : forall c, c ∈ w -> p c :=
  fun c inside => of_decide_eq_true (List.all_eq_true.mp all c inside)

theorem skip_suffix (s : Text) : skip s <:+ s := List.dropWhile_suffix isBlank

theorem skip_skip (s : Text) : skip (skip s) = skip s := List.dropWhile_idempotent isBlank s

theorem skip_cons_of_blank (blank : isBlank c = true) (s : Text) : skip (c :: s) = skip s :=
  List.dropWhile_cons_of_pos blank

theorem skip_cons_of_not_blank (notBlank : isBlank c = false) (s : Text) : skip (c :: s) = c :: s :=
  List.dropWhile_cons_of_neg (by rw [notBlank]; exact Bool.false_ne_true)

theorem not_blank_of_skip (starts : skip s = c :: rest) : isBlank c = false := by
  have first := List.head?_dropWhile_not isBlank s
  rw [show s.dropWhile isBlank = c :: rest from starts] at first
  exact Bool.eq_false_iff.mpr (by simpa using first)

theorem peek_of_skip (starts : skip s = c :: rest) :
    peek toks s = (c != nul && toks.contains c, c :: rest) := by
  rw [peek, starts]

theorem peek_nil (done : skip s = []) : peek toks s = (false, []) := by
  rw [peek, done]

theorem peek_snd (toks s : Text) : (peek toks s).2 = skip s := by
  cases starts : skip s with
  | nil => rw [peek_nil starts]
  | cons c rest => rw [peek_of_skip starts]

theorem peek_skip (toks s : Text) : peek toks (skip s) = peek toks s := by
  rw [peek, peek, skip_skip]

theorem starts_of_peek (found : (peek toks s).1 = true) : Exists fun c => Exists fun rest =>
    skip s = c :: rest ∧ c ≠ nul ∧ c ∈ toks := by
  cases starts : skip s with
  | nil =>
      rw [peek_nil starts] at found
      exact absurd found Bool.false_ne_true
  | cons c rest =>
      rw [peek_of_skip starts, Bool.and_eq_true, bne_iff_ne, List.contains_iff_mem] at found
      exact ⟨c, rest, rfl, found.1, found.2⟩

/-- A character that `gettoken` takes by itself. -/
def single : Text := ['|', '(', ')', ';', '&', '<']

theorem mem_single : c ∈ single ↔ c = '|' ∨ c = '(' ∨ c = ')' ∨ c = ';' ∨ c = '&' ∨ c = '<' := by
  simp only [single, List.mem_cons, List.not_mem_nil, or_false]

theorem ne_nul_of_single (symbol : c ∈ single) : c ≠ nul := by
  rintro rfl
  exact absurd symbol (by decide)

/-- What begins where `gettoken` has skipped to. -/
theorem kind_of_skip (starts : skip s = c :: rest) : c ∈ single ∨ c = '>' ∨ isWord c = true := by
  have notBlank : whitespace.contains c = false := not_blank_of_skip starts
  by_cases symbol : c ∈ symbols
  · simp only [symbols, List.mem_cons, List.not_mem_nil, or_false] at symbol
    rw [mem_single]
    tauto
  · refine Or.inr (Or.inr ?_)
    rw [isWord, notBlank, List.contains_eq_mem, decide_eq_false symbol]
    rfl

theorem gettoken_single (starts : skip s = c :: rest) (symbol : c ∈ single) :
    gettoken s = (c, ⟨c :: rest, rest⟩, skip rest) := by
  rw [gettoken, starts]
  dsimp only
  rw [if_neg (ne_nul_of_single symbol), if_pos (mem_single.mp symbol)]

theorem gettoken_greater (starts : skip s = '>' :: rest)
    (next : forall d, rest.head? = some d -> d ≠ '>') :
    gettoken s = ('>', ⟨'>' :: rest, rest⟩, skip rest) := by
  rw [gettoken, starts]
  dsimp only
  rw [if_neg (by decide), if_neg (by decide), if_pos rfl]
  cases rest with
  | nil => rfl
  | cons d more =>
      dsimp only
      rw [if_neg (next d rfl)]

theorem gettoken_append (starts : skip s = '>' :: '>' :: rest) :
    gettoken s = ('+', ⟨'>' :: '>' :: rest, rest⟩, skip rest) := by
  rw [gettoken, starts]
  rfl

theorem not_single_of_word (word : isWord c = true) : c ∉ single ∧ c ≠ '>' := by
  rw [isWord, Bool.and_eq_true, Bool.not_eq_true', Bool.not_eq_true'] at word
  have notSymbol : c ∉ symbols := by
    intro symbol
    rw [List.contains_iff_mem.mpr symbol] at word
    exact Bool.noConfusion word.2
  refine ⟨fun symbol => notSymbol ?_, ?_⟩
  · rw [mem_single] at symbol
    simp only [symbols, List.mem_cons, List.not_mem_nil, or_false]
    tauto
  · rintro rfl
    exact notSymbol (by decide)

theorem gettoken_word (starts : skip s = c :: rest) (notEnd : c ≠ nul) (word : isWord c = true) :
    gettoken s = ('a', ⟨c :: rest, rest.dropWhile isWord⟩, skip (rest.dropWhile isWord)) := by
  rw [gettoken, starts]
  dsimp only
  rw [if_neg notEnd, if_neg (fun symbol => (not_single_of_word word).1 (mem_single.mpr symbol)),
    if_neg (not_single_of_word word).2, List.dropWhile_cons_of_pos word]

theorem gettoken_angle (starts : skip s = '>' :: rest) :
    (gettoken s).1 ≠ 'a' ∧ (gettoken s).2.2 <:+ rest := by
  by_cases append : Exists fun more => rest = '>' :: more
  · rcases append with ⟨more, rfl⟩
    rw [gettoken_append starts]
    exact ⟨(by decide : '+' ≠ 'a'), (skip_suffix more).trans (List.suffix_cons '>' more)⟩
  · rw [gettoken_greater starts]
    · exact ⟨(by decide : '>' ≠ 'a'), skip_suffix rest⟩
    · rintro d first rfl
      cases rest with
      | nil => exact Option.some_ne_none _ first.symm
      | cons e more => exact append ⟨more, by rw [Option.some.inj first]⟩

theorem gettoken_nul (starts : skip s = nul :: rest) :
    gettoken s = (nul, ⟨nul :: rest, nul :: rest⟩, skip (nul :: rest)) := by
  rw [gettoken, starts]
  rfl

theorem gettoken_nil (done : skip s = []) : gettoken s = (nul, ⟨[], []⟩, []) := by
  rw [gettoken, done]

/-- Where `gettoken` goes on after a character that is not the end. -/
theorem gettoken_rest (starts : skip s = c :: rest) (notEnd : c ≠ nul) :
    (gettoken s).2.2 <:+ rest := by
  rcases kind_of_skip starts with symbol | rfl | word
  · rw [gettoken_single starts symbol]
    exact skip_suffix rest
  · exact (gettoken_angle starts).2
  · rw [gettoken_word starts notEnd word]
    exact (skip_suffix _).trans (List.dropWhile_suffix isWord)

theorem gettoken_suffix (s : Text) : (gettoken s).2.2 <:+ s := by
  cases starts : skip s with
  | nil =>
      rw [gettoken_nil starts]
      exact List.nil_suffix
  | cons c rest =>
      have whole : c :: rest <:+ s := starts ▸ skip_suffix s
      by_cases atEnd : c = nul
      · rw [atEnd] at starts whole
        rw [gettoken_nul starts]
        exact (skip_suffix _).trans whole
      · exact (gettoken_rest starts atEnd).trans ((List.suffix_cons c rest).trans whole)

/-- A token that `gettoken` takes for a word is one. -/
theorem gettoken_points (within : s <:+ line) (kind : (gettoken s).1 = 'a') :
    Points line (gettoken s).2.1 := by
  cases starts : skip s with
  | nil =>
      rw [gettoken_nil starts] at kind
      exact absurd kind (by decide : nul ≠ 'a')
  | cons c rest =>
      by_cases notEnd : c = nul
      · rw [notEnd] at starts
        rw [gettoken_nul starts] at kind
        exact absurd kind (by decide : nul ≠ 'a')
      rcases kind_of_skip starts with symbol | rfl | word
      · rw [gettoken_single starts symbol] at kind
        have same : c = 'a' := kind
        rw [same] at symbol
        exact absurd symbol (by decide)
      · exact absurd kind (gettoken_angle starts).1
      · rw [gettoken_word starts notEnd word]
        refine ⟨?_, ⟨c :: rest.takeWhile isWord, ⟨List.cons_ne_nil _ _, fun d inside => ?_⟩, ?_⟩,
          fun d first => ?_⟩
        · show c :: rest <:+ line
          rw [← starts]
          exact (skip_suffix s).trans within
        · rcases List.mem_cons.mp inside with rfl | inside
          · exact word
          · exact List.mem_takeWhile_imp inside
        · show c :: rest = (c :: rest.takeWhile isWord) ++ rest.dropWhile isWord
          rw [List.cons_append, List.takeWhile_append_dropWhile]
        · have ends := List.head?_dropWhile_not isWord rest
          rw [show (rest.dropWhile isWord).head? = some d from first] at ends
          exact Bool.eq_false_iff.mpr (by simpa using ends)

end Tokens

/-! ## Sound results -/

/-- The call comes to an end before its bound; a result keeps a property, and the parser goes on
from a later place. -/
def Ends (s : Text) (property : Cmd Token -> Prop) : Except Stop (Cmd Token × Text) -> Prop
  | .error stop => stop ≠ .rounds
  | .ok (cmd, rest) => property cmd ∧ rest <:+ s

section Loops

variable {line s after : Text} {property : Cmd Token -> Prop}
  {result : Except Stop (Cmd Token × Text)} {cmd : Cmd Token}

theorem Ends.later (ends : Ends after property result) (within : after <:+ s) :
    Ends s property result := by
  cases result with
  | error stop => exact ends
  | ok value => exact ⟨ends.1, ends.2.trans within⟩

/-- What is behind a symbol that `peek` saw. -/
theorem shorter {toks : Text} (found : (peek toks s).1 = true) :
    (gettoken (peek toks s).2).2.2 <:+ s ∧ (gettoken (peek toks s).2).2.2.length < s.length := by
  rcases starts_of_peek found with ⟨c, rest, starts, notEnd, _⟩
  have again : skip (peek toks s).2 = c :: rest := by
    rw [peek_snd, skip_skip, starts]
  have goes := gettoken_rest again notEnd
  have whole : c :: rest <:+ s := starts ▸ skip_suffix s
  have length := goes.length_le
  have bound := whole.length_le
  rw [List.length_cons] at bound
  exact ⟨goes.trans ((List.suffix_cons c rest).trans whole), by omega⟩

/-- `parseredirs` keeps what redirections of the two kinds keep. -/
theorem parseredirsLoop_ends
    (keeps : forall cmd file mode fd, property cmd -> Points line file -> Opens mode fd ->
      property (.redir cmd file mode fd))
    {rounds : Nat} (within : s <:+ line) (holds : property cmd) (enough : s.length < rounds) :
    Ends s property (parseredirsLoop rounds cmd s) := by
  induction rounds generalizing s cmd with
  | zero => exact absurd enough (Nat.not_lt_zero _)
  | succ rounds ih =>
      rw [parseredirsLoop]
      split
      next found =>
        have first := shorter found
        generalize gettoken (peek ['<', '>'] s).2 = token at first ⊢
        dsimp only
        split
        next => exact fun same => Stop.noConfusion same
        next word =>
          have word := not_not.mp word
          have points := gettoken_points (first.1.trans within) word
          have notEnd := gettoken_suffix token.2.2
          have goes := notEnd.trans first.1
          have length := notEnd.length_le
          have next := fun mode fd (opens : Opens mode fd) =>
            Ends.later (ih (goes.trans within) (keeps cmd _ mode fd holds points opens)
              (by omega)) goes
          split
          · exact next _ _ (Or.inl ⟨rfl, rfl⟩)
          · split
            · exact next _ _ (Or.inr ⟨rfl, rfl⟩)
            · split
              · exact next _ _ (Or.inr ⟨rfl, rfl⟩)
              · exact Ends.later (ih (goes.trans within) holds (by omega)) goes
      next =>
        refine ⟨holds, ?_⟩
        rw [peek_snd]
        exact skip_suffix s

theorem parseredirs_ends
    (keeps : forall cmd file mode fd, property cmd -> Points line file -> Opens mode fd ->
      property (.redir cmd file mode fd))
    (within : s <:+ line) (holds : property cmd) : Ends s property (parseredirs cmd s) :=
  parseredirsLoop_ends keeps within holds (Nat.lt_succ_self _)

/-- An `EXEC` command with its redirections, and how many words it has. -/
def Simple (argc : Nat) : Cmd Token -> Prop
  | .exec argv => argv.length = argc
  | .redir cmd _ _ _ => Simple argc cmd
  | _ => False

/-- A command of a line in the making. -/
def Making (line : Text) (argc : Nat) (cmd : Cmd Token) : Prop :=
  WellFormed (Points line) cmd ∧ Simple argc cmd

theorem Making.redir {argc : Nat} (cmd : Cmd Token) (file : Token) (mode fd : Nat)
    (making : Making line argc cmd) (points : Points line file) (opens : Opens mode fd) :
    Making line argc (.redir cmd file mode fd) :=
  ⟨⟨making.1, points, opens⟩, making.2⟩

theorem Making.addArg {argc : Nat} {token : Token} (making : Making line argc cmd)
    (points : Points line token) (few : argc + 1 < MAXARGS) :
    Making line (argc + 1) (cmd.addArg token) := by
  induction cmd with
  | exec argv =>
      have argc : argv.length = argc := making.2
      have length : (argv ++ [token]).length = argv.length + 1 := by
        rw [List.length_append, List.length_singleton]
      refine ⟨⟨?_, fun word inside => ?_⟩, ?_⟩
      · rw [length, argc]
        exact few
      · rcases List.mem_append.mp inside with old | new
        · exact making.1.2 word old
        · rw [List.mem_singleton.mp new]
          exact points
      · show (argv ++ [token]).length = _
        rw [length, argc]
  | redir cmd file mode fd ih =>
      have inner := ih ⟨making.1.1, making.2⟩
      exact ⟨⟨inner.1, making.1.2.1, making.1.2.2⟩, inner.2⟩
  | pipe left right => exact making.2.elim
  | list left right => exact making.2.elim
  | back cmd => exact making.2.elim

theorem shorter_of_word (word : (gettoken s).1 = 'a') : (gettoken s).2.2.length < s.length := by
  cases starts : skip s with
  | nil =>
      rw [gettoken_nil starts] at word
      exact absurd word (by decide : nul ≠ 'a')
  | cons c rest =>
      by_cases atEnd : c = nul
      · rw [atEnd] at starts
        rw [gettoken_nul starts] at word
        exact absurd word (by decide : nul ≠ 'a')
      · have goes := (gettoken_rest starts atEnd).length_le
        have whole := (skip_suffix s).length_le
        rw [starts, List.length_cons] at whole
        omega

theorem parseexecLoop_ends {rounds argc : Nat} (within : s <:+ line) (making : Making line argc cmd)
    (enough : s.length < rounds) :
    Ends s (WellFormed (Points line)) (parseexecLoop rounds argc cmd s) := by
  induction rounds generalizing s argc cmd with
  | zero => exact absurd enough (Nat.not_lt_zero _)
  | succ rounds ih =>
      rw [parseexecLoop]
      have skipped : (peek ['|', ')', '&', ';'] s).2 <:+ s := by
        rw [peek_snd]
        exact skip_suffix s
      generalize (peek ['|', ')', '&', ';'] s).2 = start at skipped ⊢
      split
      next => exact ⟨making.1, skipped⟩
      next =>
        dsimp only
        have goes := (gettoken_suffix start).trans skipped
        split
        next => exact ⟨making.1, goes⟩
        next =>
        split
        next => exact fun same => Stop.noConfusion same
        next word =>
        split
        next => exact fun same => Stop.noConfusion same
        next few =>
          have word := not_not.mp word
          have points := gettoken_points (skipped.trans within) word
          have less := shorter_of_word word
          have added := making.addArg points (Nat.lt_of_not_le few)
          have redirs := parseredirs_ends Making.redir (goes.trans within) added
          have bound := skipped.length_le
          cases result : parseredirs (cmd.addArg (gettoken start).2.1) (gettoken start).2.2 with
          | error stop =>
              rw [result] at redirs
              exact redirs
          | ok value =>
              rw [result] at redirs
              have length := redirs.2.length_le
              exact Ends.later (ih ((redirs.2.trans goes).trans within) redirs.1 (by omega))
                (redirs.2.trans goes)

theorem parselineLoop_ends {rounds : Nat} (holds : WellFormed (Points line) cmd)
    (enough : s.length < rounds) :
    Ends s (WellFormed (Points line)) (parselineLoop rounds cmd s) := by
  induction rounds generalizing s cmd with
  | zero => exact absurd enough (Nat.not_lt_zero _)
  | succ rounds ih =>
      rw [parselineLoop]
      split
      next found =>
        have first := shorter found
        exact Ends.later (ih holds (by omega)) first.1
      next =>
        refine ⟨holds, ?_⟩
        rw [peek_snd]
        exact skip_suffix s

end Loops

section Calls

variable {line s : Text} {depth : Nat}

/-- What the four functions do with a part of the line, at a depth that is enough for it. -/
structure Sound (line s : Text) (depth : Nat) : Prop where
  asLine : 4 * s.length + 4 ≤ depth -> Ends s (WellFormed (Points line)) (parseline depth s)
  asPipe : 4 * s.length + 3 ≤ depth -> Ends s (WellFormed (Points line)) (parsepipe depth s)
  asExec : 4 * s.length + 2 ≤ depth -> Ends s (WellFormed (Points line)) (parseexec depth s)
  asBlock : 4 * s.length + 1 ≤ depth ->
    (peek ['('] s).1 = true -> Ends s (WellFormed (Points line)) (parseblock depth s)

theorem parseexec_sound (within : s <:+ line)
    (block : (peek ['('] s).1 = true -> Ends s (WellFormed (Points line)) (parseblock depth
      (peek ['('] s).2)) : Ends s (WellFormed (Points line)) (parseexec (depth + 1) s) := by
  rw [parseexec]
  split
  next found => exact block found
  next =>
    have skipped : (peek ['('] s).2 <:+ s := by
      rw [peek_snd]
      exact skip_suffix s
    have empty : Making line 0 (.exec []) :=
      ⟨⟨by decide, fun _ inside => absurd inside List.not_mem_nil⟩, rfl⟩
    have redirs := parseredirs_ends Making.redir (skipped.trans within) empty
    cases result : parseredirs (.exec []) (peek ['('] s).2 with
    | error stop =>
        rw [result] at redirs
        exact redirs
    | ok value =>
        rw [result] at redirs
        exact Ends.later (parseexecLoop_ends ((redirs.2.trans skipped).trans within) redirs.1
          (Nat.lt_succ_self _)) (redirs.2.trans skipped)

theorem parsers_sound (line : Text) (depth : Nat) : forall s, s <:+ line -> Sound line s depth := by
  induction depth with
  | zero =>
      exact fun s _ => ⟨fun few => by omega, fun few => by omega, fun few => by omega,
        fun few => by omega⟩
  | succ depth ih =>
      intro s within
      refine ⟨fun enough => ?_, fun enough => ?_, fun enough => ?_, fun enough found => ?_⟩
      · rw [parseline]
        have first := (ih s within).asPipe (by omega)
        cases result : parsepipe depth s with
        | error stop =>
            rw [result] at first
            exact first
        | ok value =>
            rw [result] at first
            have second := parselineLoop_ends first.1 (Nat.lt_succ_self value.2.length)
            dsimp only
            cases backs : parselineLoop (value.2.length + 1) value.1 value.2 with
            | error stop =>
                rw [backs] at second
                exact second
            | ok value' =>
                rw [backs] at second
                have reached := second.2.trans first.2
                have bound := reached.length_le
                dsimp only
                split
                next more =>
                  have step := shorter more
                  have goes := step.1.trans reached
                  have third := (ih _ (goes.trans within)).asLine (by omega)
                  cases rest : parseline depth (gettoken (peek [';'] value'.2).2).2.2 with
                  | error stop =>
                      rw [rest] at third
                      exact third
                  | ok right =>
                      rw [rest] at third
                      exact ⟨⟨second.1, third.1⟩, third.2.trans goes⟩
                next =>
                  refine ⟨second.1, ?_⟩
                  rw [peek_snd]
                  exact (skip_suffix _).trans reached
      · rw [parsepipe]
        have first := (ih s within).asExec (by omega)
        cases result : parseexec depth s with
        | error stop =>
            rw [result] at first
            exact first
        | ok value =>
            rw [result] at first
            have bound := first.2.length_le
            dsimp only
            split
            next more =>
              have step := shorter more
              have goes := step.1.trans first.2
              have second := (ih _ (goes.trans within)).asPipe (by omega)
              cases rest : parsepipe depth (gettoken (peek ['|'] value.2).2).2.2 with
              | error stop =>
                  rw [rest] at second
                  exact second
              | ok right =>
                  rw [rest] at second
                  exact ⟨⟨first.1, second.1⟩, second.2.trans goes⟩
            next =>
              refine ⟨first.1, ?_⟩
              rw [peek_snd]
              exact (skip_suffix _).trans first.2
      · refine parseexec_sound within (fun found => ?_)
        have skipped : (peek ['('] s).2 <:+ s := by
          rw [peek_snd]
          exact skip_suffix s
        have bound := skipped.length_le
        refine Ends.later ((ih _ (skipped.trans within)).asBlock (by omega) ?_) skipped
        rw [peek_snd, peek_skip]
        exact found
      · rw [parseblock, if_neg (by rw [found]; exact Bool.true_eq_false.mp)]
        have step := shorter found
        have first := (ih _ (step.1.trans within)).asLine (by omega)
        cases result : parseline depth (gettoken (peek ['('] s).2).2.2 with
        | error stop =>
            rw [result] at first
            exact first
        | ok value =>
            rw [result] at first
            dsimp only
            split
            next => exact fun same => Stop.noConfusion same
            next closes =>
              have last := shorter (eq_true_of_ne_false closes)
              have goes := last.1.trans (first.2.trans step.1)
              exact Ends.later (parseredirs_ends (fun cmd file mode fd sound points opens =>
                ⟨sound, points, opens⟩) (goes.trans within) first.1) goes

/-- The parser comes to an end with every line, and its pointers are to words of the line. -/
theorem parse_sound (line : Text) :
    parse line ≠ .error .rounds ∧
    forall cmd, parse line = .ok cmd -> WellFormed (Points line) cmd := by
  have whole := (parsers_sound line (depthFor line) line List.suffix_rfl).asLine (Nat.le_refl _)
  rw [parse]
  cases result : parseline (depthFor line) line with
  | error stop =>
      rw [result] at whole
      dsimp only
      exact ⟨fun same => whole (Except.error.inj same), fun _ same => by cases same⟩
  | ok value =>
      rw [result] at whole
      dsimp only
      split
      next =>
          exact ⟨fun same => Stop.noConfusion (Except.error.inj same), fun _ same => by cases same⟩
      next => exact ⟨fun same => (by cases same), fun _ same => Except.ok.inj same ▸ whole.1⟩

end Calls

/-! ## The strings in memory -/

/-- The word of a token. -/
def Token.word (token : Token) : Text := token.q.take (token.q.length - token.eq.length)

/-- All words of a command. -/
def Cmd.words {Word : Type} : Cmd Word -> List Word
  | .exec argv => argv
  | .redir cmd file _ _ => cmd.words ++ [file]
  | .pipe left right => left.words ++ right.words
  | .list left right => left.words ++ right.words
  | .back cmd => cmd.words

theorem WellFormed.words {Word : Type} {valid : Word -> Prop} {cmd : Cmd Word}
    (formed : WellFormed valid cmd) : forall word, word ∈ cmd.words -> valid word := by
  induction cmd with
  | exec argv => exact formed.2
  | redir cmd file mode fd ih =>
      intro word inside
      rcases List.mem_append.mp inside with old | new
      · exact ih formed.1 word old
      · rw [List.mem_singleton.mp new]
        exact formed.2.1
  | pipe left right ihLeft ihRight =>
      exact fun word inside => (List.mem_append.mp inside).elim (ihLeft formed.1 word)
        (ihRight formed.2 word)
  | list left right ihLeft ihRight =>
      exact fun word inside => (List.mem_append.mp inside).elim (ihLeft formed.1 word)
        (ihRight formed.2 word)
  | back cmd ih => exact ih formed

theorem WellFormed.map {α β : Type} {valid : α -> Prop} {other : β -> Prop} {f : α -> β}
    (keeps : forall word, valid word -> other (f word)) {cmd : Cmd α}
    (formed : WellFormed valid cmd) : WellFormed other (cmd.map f) := by
  induction cmd with
  | exec argv =>
      refine ⟨?_, fun word inside => ?_⟩
      · rw [List.length_map]
        exact formed.1
      · rcases List.mem_map.mp inside with ⟨before, old, rfl⟩
        exact keeps before (formed.2 before old)
  | redir cmd file mode fd ih => exact ⟨ih formed.1, keeps file formed.2.1, formed.2.2⟩
  | pipe left right ihLeft ihRight => exact ⟨ihLeft formed.1, ihRight formed.2⟩
  | list left right ihLeft ihRight => exact ⟨ihLeft formed.1, ihRight formed.2⟩
  | back cmd ih => exact ih formed

theorem Cmd.map_congr {α β : Type} {f g : α -> β} {cmd : Cmd α}
    (same : forall word, word ∈ cmd.words -> f word = g word) : cmd.map f = cmd.map g := by
  induction cmd with
  | exec argv => exact congrArg Cmd.exec (List.map_congr_left same)
  | redir cmd file mode fd ih =>
      rw [map, map, ih (fun word inside => same word (List.mem_append_left _ inside)),
        same file (List.mem_append_right _ List.mem_cons_self)]
  | pipe left right ihLeft ihRight =>
      rw [map, map, ihLeft (fun word inside => same word (List.mem_append_left _ inside)),
        ihRight (fun word inside => same word (List.mem_append_right _ inside))]
  | list left right ihLeft ihRight =>
      rw [map, map, ihLeft (fun word inside => same word (List.mem_append_left _ inside)),
        ihRight (fun word inside => same word (List.mem_append_right _ inside))]
  | back cmd ih => rw [map, map, ih same]

/-- The writes of `nulterminate`, one after the other. -/
def writes (line : Text) (memory : Text) (tokens : List Token) : Text :=
  tokens.foldl (fun memory token => memory.set (offset line token.eq) nul) memory

theorem nulterminate_eq (line : Text) (cmd : Cmd Token) (memory : Text) :
    nulterminate line cmd memory = writes line memory cmd.words := by
  induction cmd generalizing memory with
  | exec argv => rfl
  | redir cmd file mode fd ih =>
      rw [nulterminate, Cmd.words, writes, List.foldl_append, ih]
      rfl
  | pipe left right ihLeft ihRight =>
      rw [nulterminate, Cmd.words, writes, List.foldl_append, ihLeft, ihRight]
      rfl
  | list left right ihLeft ihRight =>
      rw [nulterminate, Cmd.words, writes, List.foldl_append, ihLeft, ihRight]
      rfl
  | back cmd ih => rw [nulterminate, Cmd.words, ih]

section Memory

variable {line memory : Text} {tokens : List Token} {token : Token} {i : Nat}

theorem getElem?_writes_of_apart
    (apart : forall token, token ∈ tokens -> offset line token.eq ≠ i) :
    (writes line memory tokens)[i]? = memory[i]? := by
  induction tokens generalizing memory with
  | nil => rfl
  | cons first tokens ih =>
      refine (ih (fun other inside => apart other (List.mem_cons_of_mem _ inside))).trans ?_
      exact List.getElem?_set_ne (apart first List.mem_cons_self)

theorem getElem?_set_nul (before : memory[i]? = some nul ∨ offset line token.eq = i)
    (within : i < memory.length) : (memory.set (offset line token.eq) nul)[i]? = some nul := by
  by_cases here : offset line token.eq = i
  · rw [here, List.getElem?_set_self within]
  · rw [List.getElem?_set_ne here]
    exact before.resolve_right here

theorem getElem?_writes_of_end (within : i < memory.length)
    (ends : memory[i]? = some nul ∨ Exists fun token => token ∈ tokens ∧ offset line token.eq = i) :
    (writes line memory tokens)[i]? = some nul := by
  induction tokens generalizing memory with
  | nil =>
      rcases ends with done | ⟨_, inside, _⟩
      · exact done
      · exact absurd inside List.not_mem_nil
  | cons first tokens ih =>
      have still : i < (memory.set (offset line first.eq) nul).length := by
        rw [List.length_set]
        exact within
      rcases ends with done | ⟨token, inside, here⟩
      · exact ih still (Or.inl (getElem?_set_nul (Or.inl done) within))
      · rcases List.mem_cons.mp inside with rfl | later
        · exact ih still (Or.inl (getElem?_set_nul (Or.inr here) within))
        · exact ih still (Or.inr ⟨token, later, here⟩)

theorem offset_of_append {before rest : Text} : offset (before ++ rest) rest = before.length := by
  rw [offset, List.length_append, Nat.add_sub_cancel]

/-- The string at a token of the line is its word, after all writes. -/
theorem stringAt_writes (noNul : forall c, c ∈ line -> c ≠ nul)
    (points : forall token, token ∈ tokens -> Points line token) (inside : token ∈ tokens) :
    stringAt line (writes line (line ++ [nul]) tokens) token.q = token.word := by
  rcases points token inside with ⟨⟨before, whole⟩, ⟨w, isText, word⟩, _⟩
  have place : offset line token.q = before.length := whole ▸ offset_of_append
  have placeEnd : offset line token.eq = before.length + w.length := by
    rw [← whole, word, ← List.append_assoc, offset_of_append, List.length_append]
  have isWord : token.word = w := by
    rw [Token.word, word, List.length_append, Nat.add_sub_cancel, List.take_left]
  have isLine : forall j, j < w.length -> (line)[before.length + j]? = w[j]? := by
    intro j within
    rw [← whole, word, List.getElem?_append_right (Nat.le_add_right _ _), Nat.add_sub_cancel_left,
      List.getElem?_append_left within]
  have length : line.length = before.length + (w.length + token.eq.length) := by
    rw [← whole, word, List.length_append, List.length_append]
  have letters : forall j, j < w.length ->
      ((writes line (line ++ [nul]) tokens).drop before.length)[j]? = w[j]? := by
    intro j within
    rw [List.getElem?_drop, getElem?_writes_of_apart, List.getElem?_append_left (by omega),
      isLine j within]
    -- a write there would end some word in front of a letter
    intro other known there
    rcases points other known with ⟨⟨otherBefore, otherWhole⟩, ⟨v, _, otherWord⟩, ends⟩
    rw [otherWord, ← List.append_assoc] at otherWhole
    have start : (otherBefore ++ v).length = before.length + j := by
      rw [← there, ← otherWhole, offset_of_append]
    have letter := isLine j within
    rw [← otherWhole, ← start, List.getElem?_append_right (Nat.le_refl _), Nat.sub_self,
      List.getElem?_eq_getElem within, ← List.head?_eq_getElem?] at letter
    exact absurd (isText.word _ (List.getElem_mem within))
      (by rw [ends _ letter]; exact Bool.false_ne_true)
  have ended : ((writes line (line ++ [nul]) tokens).drop before.length)[w.length]? = some nul := by
    rw [List.getElem?_drop]
    refine getElem?_writes_of_end ?_ (Or.inr ⟨token, inside, placeEnd⟩)
    rw [List.length_append, length, List.length_singleton]
    omega
  rw [stringAt, place, isWord]
  generalize (writes line (line ++ [nul]) tokens).drop before.length = memory at letters ended
  have split : memory = w ++ nul :: memory.drop (w.length + 1) := by
    refine List.ext_getElem? (fun j => ?_)
    rcases Nat.lt_trichotomy j w.length with less | same | more
    · rw [List.getElem?_append_left less, letters j less]
    · rw [same, List.getElem?_append_right (Nat.le_refl _), Nat.sub_self, ended]
      rfl
    · rcases Nat.exists_eq_add_of_lt more with ⟨k, rfl⟩
      rw [List.getElem?_append_right (by omega), show w.length + k + 1 - w.length = k + 1 by omega,
        List.getElem?_cons_succ, List.getElem?_drop,
        show w.length + 1 + k = w.length + k + 1 by omega]
  have real : forall c, c ∈ w -> (c != nul) = true := by
    intro c known
    refine bne_iff_ne.mpr (noNul c ?_)
    rw [← whole, word]
    exact List.mem_append_right _ (List.mem_append_left _ known)
  rw [split, List.takeWhile_append_of_pos real, List.takeWhile_cons_of_neg (by decide),
    List.append_nil]

end Memory

section Strings

variable {line : Text}

/-- Behind the pointers `runcmd` finds the words that stand in the line. -/
theorem parsecmd_of_parse (noNul : forall c, c ∈ line -> c ≠ nul) {cmd : Cmd Token}
    (parsed : parse line = .ok cmd) : parsecmd line = .ok (cmd.map Token.word) := by
  rw [parsecmd, parsed]
  refine congrArg Except.ok (Cmd.map_congr (fun token inside => ?_))
  rw [nulterminate_eq]
  exact stringAt_writes noNul ((parse_sound line).2 cmd parsed).words inside

theorem plain_of_points (noNul : forall c, c ∈ line -> c ≠ nul) {token : Token}
    (points : Points line token) : Plain token.word := by
  rcases points.word with ⟨w, isText, word⟩
  rw [Token.word, word, List.length_append, Nat.add_sub_cancel, List.take_left]
  refine ⟨isText, fun c known => noNul c (points.inside.mem ?_)⟩
  rw [word]
  exact List.mem_append_left _ known

theorem wellFormed_of_parsecmd (noNul : forall c, c ∈ line -> c ≠ nul) {cmd : Cmd Text}
    (accepted : parsecmd line = .ok cmd) : WellFormed Plain cmd := by
  cases parsed : parse line with
  | error stop =>
      rw [parsecmd, parsed] at accepted
      cases accepted
  | ok pointers =>
      rw [parsecmd_of_parse noNul parsed] at accepted
      rw [← Except.ok.inj accepted]
      exact ((parse_sound line).2 pointers parsed).map
        (fun token points => plain_of_points noNul points)

/-- The parser comes to an end with every line that is a C string.  The words that `runcmd` then
finds behind the pointers are the ones that stand in the line, none of them empty and none with
a blank or a symbol, and the commands are well formed. -/
theorem parsecmd_sound (noNul : forall c, c ∈ line -> c ≠ nul) :
    parsecmd line ≠ .error .rounds ∧
    (forall cmd, parse line = .ok cmd -> parsecmd line = .ok (cmd.map Token.word)) ∧
    forall cmd, parsecmd line = .ok cmd -> WellFormed Plain cmd := by
  refine ⟨?_, fun cmd parsed => parsecmd_of_parse noNul parsed,
    fun cmd accepted => wellFormed_of_parsecmd noNul accepted⟩
  have ends := (parse_sound line).1
  rw [parsecmd]
  cases parsed : parse line with
  | error stop =>
      rw [parsed] at ends
      exact fun same => ends (by rw [Except.error.inj same])
  | ok cmd => exact fun same => by cases same

end Strings

theorem parsecmd_sound_pipe : parsecmd ['a', ' ', '|', 'b', '>', 'c'] ≠ .error .rounds ∧
    forall cmd, parsecmd ['a', ' ', '|', 'b', '>', 'c'] = .ok cmd -> WellFormed Plain cmd :=
  have sound := @parsecmd_sound ['a', ' ', '|', 'b', '>', 'c'] (forall_of_all rfl)
  ⟨sound.1, sound.2.2⟩

end Sh
end UserPrograms
end OsProjects
