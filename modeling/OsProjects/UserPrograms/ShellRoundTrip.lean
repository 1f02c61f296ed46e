import OsProjects.UserPrograms.ShellLines

namespace OsProjects
namespace UserPrograms
namespace Sh

/-!
# Commands, written and read

Every well-formed command can be written as a line, with parentheses where the operator inside
binds less than the one outside.  The parser reads it back from there, so it reaches every
well-formed command, and what it accepts can be written and read again.
-/

/-- How much an operator binds. -/
def Cmd.level {Word : Type} : Cmd Word -> Nat
  | .list _ _ => 0
  | .back _ => 1
  | .pipe _ _ => 2
  | _ => 3

def enclose (inner : Bool) (s : Text) : Text := if inner then ' ' :: '(' :: s ++ [' ', ')'] else s

/-- A redirection to or from a file. -/
def redirection (file : Text) (fd : Nat) : Text :=
  ' ' :: (if fd = 0 then '<' else '>') :: ' ' :: file

/-- A command as a line. -/
def Cmd.text : Cmd Text -> Text
  | .exec argv => argv.flatMap (fun word => ' ' :: word)
  | .redir cmd file _ fd => enclose (decide (cmd.level < 3)) cmd.text ++ redirection file fd
  | .pipe left right =>
      enclose (decide (left.level < 3)) left.text ++ ' ' :: '|' :: enclose
        (decide (right.level < 2)) right.text
  | .list left right => enclose (decide (left.level < 1)) left.text ++ ' ' :: ';' :: right.text
  | .back cmd => enclose (decide (cmd.level < 1)) cmd.text ++ [' ', '&']

/-- A command as a part of a line, where only some operators may stand without parentheses. -/
def Cmd.textAt (level : Nat) (cmd : Cmd Text) : Text :=
  enclose (decide (cmd.level < level)) cmd.text

/-- What may come behind a part of a line. -/
structure Follows (toks tail : Text) : Prop where
  apart : forall c, tail.head? = some c -> isBlank c = true
  starts : forall c rest, skip tail = c :: rest -> c ∈ toks

section Reading

variable {s tail toks w : Text} {c : Char} {cmd : Cmd Token} {depth : Nat}

theorem Follows.nil : Follows toks [] :=
  ⟨fun _ first => absurd first.symm (Option.some_ne_none _),
    fun _ _ starts => absurd starts.symm (List.cons_ne_nil _ _)⟩

theorem Follows.cons (symbol : c ∈ toks) (notBlank : isBlank c = false) (rest : Text) :
    Follows toks (' ' :: c :: rest) := by
  refine ⟨fun d first => ?_, fun d more starts => ?_⟩
  · rw [← Option.some.inj first]
    rfl
  · rw [skip_cons_of_blank rfl, skip_cons_of_not_blank notBlank] at starts
    rw [← (List.cons.inj starts).1]
    exact symbol

theorem Follows.mono {more : Text} (follows : Follows toks tail)
    (subset : forall c, c ∈ toks -> c ∈ more) : Follows more tail :=
  ⟨follows.apart, fun c rest starts => subset c (follows.starts c rest starts)⟩

theorem peek_absent (absent : forall c rest, skip s = c :: rest -> c ∉ toks) :
    peek toks s = (false, skip s) := by
  cases starts : skip s with
  | nil => exact peek_nil starts
  | cons c rest =>
      have notThere : toks.contains c = false := by
        rw [List.contains_eq_mem]
        exact decide_eq_false (absent c rest starts)
      rw [peek_of_skip starts, notThere, Bool.and_false]

theorem peek_present {rest : Text} (starts : skip s = c :: rest) (present : c ∈ toks)
    (notEnd : c ≠ nul) : peek toks s = (true, c :: rest) := by
  rw [peek_of_skip starts, bne_iff_ne.mpr notEnd, List.contains_iff_mem.mpr present]
  rfl

theorem not_blank_of_word (word : isWord c = true) : isBlank c = false := by
  rw [isWord, Bool.and_eq_true, Bool.not_eq_true'] at word
  exact word.1

/-- A written word, and what `gettoken` makes of it. -/
theorem gettoken_written (plain : Plain w)
    (apart : forall c, tail.head? = some c -> isBlank c = true)
    (starts : skip s = skip (' ' :: w ++ tail)) :
    Exists fun token => gettoken s = ('a', token, skip tail) ∧ token.word = w := by
  rcases List.exists_cons_of_ne_nil plain.isText.some with ⟨c, rest, rfl⟩
  have word := plain.isText.word c List.mem_cons_self
  have here : skip s = c :: (rest ++ tail) := by
    rw [starts, List.cons_append, skip_cons_of_blank rfl, List.cons_append,
      skip_cons_of_not_blank (not_blank_of_word word)]
  have ends : (rest ++ tail).dropWhile isWord = tail := by
    rw [List.dropWhile_append_of_pos
      (fun d inside => plain.isText.word d (List.mem_cons_of_mem c inside))]
    cases tail with
    | nil => rfl
    | cons d more =>
        refine List.dropWhile_cons_of_neg ?_
        have blank : whitespace.contains d = true := apart d rfl
        rw [isWord, blank]
        exact Bool.false_ne_true
  rw [gettoken_word here (plain.noNul c List.mem_cons_self) word, ends]
  refine ⟨⟨c :: rest ++ tail, tail⟩, rfl, ?_⟩
  rw [Token.word, List.length_append, Nat.add_sub_cancel, List.take_left]

/-! ## Redirections -/

/-- A file to open, with the mode and the descriptor. -/
abbrev Redir : Type := Text × Nat × Nat

def wrap {Word : Type} (cmd : Cmd Word) (redirs : List (Word × Nat × Nat)) : Cmd Word :=
  redirs.foldl (fun cmd redir => .redir cmd redir.1 redir.2.1 redir.2.2) cmd

def redirsText (redirs : List Redir) : Text :=
  redirs.flatMap (fun redir => redirection redir.1 redir.2.2)

/-- The files of redirections that the parser makes. -/
def Openable (redirs : List Redir) : Prop :=
  forall redir, redir ∈ redirs -> Plain redir.1 ∧ Opens redir.2.1 redir.2.2

theorem peek_of_follows (follows : Follows toks tail) {more : Text}
    (apart : forall c, c ∈ toks -> c ∉ more) (starts : skip s = skip tail) :
    peek more s = (false, skip tail) := by
  rw [← starts]
  exact peek_absent (fun c rest here => apart c (follows.starts c rest (starts ▸ here)))

theorem skip_redirection (file : Text) (fd : Nat) (rest : Text) :
    skip (redirection file fd ++ rest) =
      (if fd = 0 then '<' else '>') :: (' ' :: file ++ rest) := by
  rw [redirection, List.cons_append, skip_cons_of_blank rfl]
  exact skip_cons_of_not_blank (by split <;> rfl) _

/-- One redirection, up to the end of the name of its file. -/
theorem parseredirsLoop_redirection {file : Text} {mode fd : Nat} (plain : Plain file)
    (opens : Opens mode fd) (apart : forall c, tail.head? = some c -> isBlank c = true)
    (starts : skip s = skip (redirection file fd ++ tail)) {rounds : Nat} :
    Exists fun token =>
      parseredirsLoop (rounds + 1) cmd s =
        parseredirsLoop rounds (.redir cmd token mode fd) (skip tail) ∧
      token.word = file := by
  rcases opens with ⟨rfl, rfl⟩ | ⟨rfl, rfl⟩
  · have here : skip s = '<' :: (' ' :: file ++ tail) := starts
    have again : skip ('<' :: (' ' :: file ++ tail)) = '<' :: (' ' :: file ++ tail) :=
      skip_cons_of_not_blank rfl _
    rcases gettoken_written plain apart (skip_skip (' ' :: file ++ tail)) with ⟨token, word, same⟩
    refine ⟨token, ?_, same⟩
    rw [parseredirsLoop, peek_present here (by decide) (by decide), if_pos rfl]
    dsimp only
    rw [gettoken_single again (by decide)]
    dsimp only
    rw [word]
    rfl
  · have here : skip s = '>' :: (' ' :: file ++ tail) := starts
    have again : skip ('>' :: (' ' :: file ++ tail)) = '>' :: (' ' :: file ++ tail) :=
      skip_cons_of_not_blank rfl _
    rcases gettoken_written plain apart (skip_skip (' ' :: file ++ tail)) with ⟨token, word, same⟩
    refine ⟨token, ?_, same⟩
    rw [parseredirsLoop, peek_present here (by decide) (by decide), if_pos rfl]
    dsimp only
    rw [gettoken_greater again (fun d first => by rw [← Option.some.inj first]; decide)]
    dsimp only
    rw [word]
    rfl

theorem redirsText_apart {redirs : List Redir} (follows : Follows toks tail) :
    forall c, (redirsText redirs ++ tail).head? = some c -> isBlank c = true := by
  cases redirs with
  | nil => exact follows.apart
  | cons redir redirs =>
      intro c first
      rw [← Option.some.inj first]
      rfl

/-- Redirections are read up to what follows them. -/
theorem parseredirsLoop_written {redirs : List Redir} (openable : Openable redirs)
    (follows : Follows toks tail) (apart : forall c, c ∈ toks -> c ∉ ['<', '>'])
    (starts : skip s = skip (redirsText redirs ++ tail)) {rounds : Nat}
    (enough : s.length < rounds) :
    Exists fun cmd' =>
      parseredirsLoop rounds cmd s = .ok (cmd', skip tail) ∧
      cmd'.map Token.word = wrap (cmd.map Token.word) redirs := by
  induction redirs generalizing s cmd rounds with
  | nil =>
      rcases Nat.exists_eq_add_of_lt enough with ⟨left, rfl⟩
      refine ⟨cmd, ?_, rfl⟩
      rw [parseredirsLoop, peek_of_follows follows apart starts]
      rfl
  | cons redir redirs ih =>
      rcases Nat.exists_eq_add_of_lt enough with ⟨left, rfl⟩
      rcases redir with ⟨file, mode, fd⟩
      have first := openable _ List.mem_cons_self
      have starts : skip s = skip (redirection file fd ++ (redirsText redirs ++ tail)) := by
        rw [starts, ← List.append_assoc]
        rfl
      have length : (skip (redirsText redirs ++ tail)).length < s.length := by
        have within := (skip_suffix s).length_le
        have rest := (skip_suffix (redirsText redirs ++ tail)).length_le
        rw [starts, skip_redirection, List.length_cons, List.length_append] at within
        omega
      rcases @parseredirsLoop_redirection _ _ cmd _ _ _ first.1 first.2
        (redirsText_apart follows) starts (s.length + left) with ⟨token, step, word⟩
      rcases @ih _ (.redir cmd token mode fd)
        (fun other inside => openable other (List.mem_cons_of_mem _ inside)) (skip_skip _)
        (s.length + left) (by omega) with ⟨cmd', result, same⟩
      refine ⟨cmd', step.trans result, ?_⟩
      rw [same, Cmd.map, word]
      rfl

theorem parseredirs_written {redirs : List Redir} (openable : Openable redirs)
    (follows : Follows toks tail) (apart : forall c, c ∈ toks -> c ∉ ['<', '>'])
    (starts : skip s = skip (redirsText redirs ++ tail)) :
    Exists fun cmd' =>
      parseredirs cmd s = .ok (cmd', skip tail) ∧
      cmd'.map Token.word = wrap (cmd.map Token.word) redirs :=
  parseredirsLoop_written openable follows apart starts (Nat.lt_succ_self _)

/-! ## Words -/

/-- What may follow a command without an operator. -/
def afterExec : Text := ['|', ')', '&', ';']

theorem parseexecLoop_stop (follows : Follows afterExec tail) (starts : skip s = skip tail)
    {rounds argc : Nat} : parseexecLoop (rounds + 1) argc cmd s = .ok (cmd, skip tail) := by
  rw [parseexecLoop]
  cases here : skip tail with
  | nil =>
      rw [peek_nil (starts.trans here)]
      rfl
  | cons c rest =>
      have symbol := follows.starts c rest here
      have notEnd : c ≠ nul := by
        rintro rfl
        exact absurd symbol (by decide)
      have seen : peek ['|', ')', '&', ';'] s = (true, c :: rest) :=
        peek_present (starts.trans here) symbol notEnd
      rw [seen]
      rfl

def wordsText (words : List Text) : Text := words.flatMap (fun word => ' ' :: word)

theorem map_addArg {token : Token} {toks : List Text} (simple : cmd.map Token.word = .exec toks) :
    (cmd.addArg token).map Token.word = .exec (toks ++ [token.word]) := by
  cases cmd with
  | exec argv =>
      rw [Cmd.addArg, Cmd.map, List.map_append]
      rw [Cmd.map] at simple
      rw [Cmd.exec.inj simple]
      rfl
  | redir => cases simple
  | pipe => cases simple
  | list => cases simple
  | back => cases simple

theorem peek_word {more : Text} (plain : Plain w) (apart : forall c, c ∈ more -> isWord c = false)
    (starts : skip s = skip (' ' :: w ++ tail)) : peek more s = (false, skip s) := by
  refine peek_absent (fun c rest here known => ?_)
  rcases List.exists_cons_of_ne_nil plain.isText.some with ⟨d, others, rfl⟩
  have word := plain.isText.word d List.mem_cons_self
  rw [starts, List.cons_append, skip_cons_of_blank rfl, List.cons_append,
    skip_cons_of_not_blank (not_blank_of_word word)] at here
  rw [(List.cons.inj here).1, apart c known] at word
  exact Bool.false_ne_true word

/-- What comes behind a word is a blank or the end. -/
theorem wordsText_apart {words : List Text} {redirs : List Redir} (follows : Follows toks tail) :
    forall c, (wordsText words ++ (redirsText redirs ++ tail)).head? = some c ->
      isBlank c = true := by
  cases words with
  | nil => exact redirsText_apart follows
  | cons word words =>
      intro c first
      rw [← Option.some.inj first]
      rfl

theorem wordsText_cons (word : Text) (words : List Text) (rest : Text) :
    wordsText (word :: words) ++ rest = ' ' :: word ++ (wordsText words ++ rest) := by
  rw [wordsText, List.flatMap_cons, List.append_assoc]
  rfl

/-- Words are read one by one, and the redirections behind the last one. -/
theorem parseexecLoop_written {words : List Text} {redirs : List Redir} {before : List Text}
    (some : words ≠ []) (plain : forall word, word ∈ words -> Plain word)
    (openable : Openable redirs) (follows : Follows afterExec tail)
    (simple : cmd.map Token.word = .exec before)
    (starts : skip s = skip (wordsText words ++ (redirsText redirs ++ tail))) {rounds argc : Nat}
    (few : argc + words.length < MAXARGS) (enough : s.length < rounds) :
    Exists fun cmd' =>
      parseexecLoop rounds argc cmd s = .ok (cmd', skip tail) ∧
      cmd'.map Token.word = wrap (.exec (before ++ words)) redirs := by
  induction words generalizing s cmd rounds argc before with
  | nil => exact absurd rfl some
  | cons word words ih =>
      rw [List.length_cons] at few
      rcases Nat.exists_eq_succ_of_ne_zero (by omega : rounds ≠ 0) with ⟨left, rfl⟩
      have first := plain word List.mem_cons_self
      rw [wordsText_cons] at starts
      have seen : peek ['|', ')', '&', ';'] s = (false, skip s) :=
        peek_word first (forall_of_all rfl) starts
      rcases gettoken_written first (wordsText_apart follows) ((skip_skip s).trans starts) with
        ⟨token, isToken, same⟩
      have shorter : (skip (wordsText words ++ (redirsText redirs ++ tail))).length < s.length := by
        have less := @shorter_of_word (skip s) (by rw [isToken])
        rw [isToken] at less
        exact Nat.lt_of_lt_of_le less (skip_suffix s).length_le
      have simple := @map_addArg _ token _ simple
      rw [same] at simple
      rw [parseexecLoop, seen, if_neg Bool.false_ne_true]
      dsimp only
      rw [isToken]
      dsimp only
      rw [if_neg (by decide), if_neg (by decide), if_neg (by omega)]
      cases words with
      | nil =>
          rcases @parseredirs_written _ _ _ (cmd.addArg token) _ openable follows
            (forall_of_all rfl) (skip_skip (redirsText redirs ++ tail)) with ⟨ret, result, same⟩
          refine ⟨ret, ?_, same.trans (by rw [simple])⟩
          rcases Nat.exists_eq_succ_of_ne_zero (by omega : left ≠ 0) with ⟨left, rfl⟩
          rw [show wordsText [] ++ (redirsText redirs ++ tail) = redirsText redirs ++ tail from rfl,
            result]
          exact parseexecLoop_stop follows (skip_skip tail)
      | cons next words =>
          rcases @ih _ _ _ (List.cons_ne_nil _ _)
            (fun other inside => plain other (List.mem_cons_of_mem _ inside)) simple
            (skip_skip _) left (argc + 1) (by omega) (by omega) with ⟨cmd', result, same⟩
          refine ⟨cmd', ?_, same.trans (by rw [List.append_assoc]; rfl)⟩
          have seen : forall more : Text, (forall c, c ∈ more -> isWord c = false) ->
              peek more (skip (wordsText (next :: words) ++ (redirsText redirs ++ tail)))
                = (false, skip (wordsText (next :: words) ++ (redirsText redirs ++ tail))) := by
            intro more apart
            rw [peek_word (plain next (List.mem_cons_of_mem _ List.mem_cons_self)) apart
              ((skip_skip _).trans (by rw [wordsText_cons])), skip_skip]
          rw [parseredirs, parseredirsLoop, seen ['<', '>'] (forall_of_all rfl)]
          exact result

/-- A simple command, with its words and the redirections around it. -/
theorem parseexec_words {words : List Text} {redirs : List Redir} (few : words.length < MAXARGS)
    (plain : forall word, word ∈ words -> Plain word) (openable : Openable redirs)
    (follows : Follows afterExec tail)
    (starts : skip s = skip (wordsText words ++ (redirsText redirs ++ tail))) :
    Exists fun cmd =>
      parseexec (depth + 1) s = .ok (cmd, skip tail) ∧
      cmd.map Token.word = wrap (.exec words) redirs := by
  cases words with
  | nil =>
      rcases @parseredirs_written _ _ _ (.exec []) _ openable follows (forall_of_all rfl)
        ((skip_skip s).trans starts) with ⟨ret, result, same⟩
      refine ⟨ret, ?_, same⟩
      have unopened : peek ['('] s = (false, skip s) := by
        refine peek_absent (fun c rest here known => ?_)
        rw [List.mem_singleton.mp known, starts] at here
        cases redirs with
        | nil => exact absurd (follows.starts _ _ here) (by decide)
        | cons redir redirs =>
            rw [show wordsText [] ++ (redirsText (redir :: redirs) ++ tail) =
              redirection redir.1 redir.2.2 ++ redirsText redirs ++ tail from rfl,
              List.append_assoc, skip_redirection] at here
            have symbol := (List.cons.inj here).1
            split at symbol
            · exact absurd symbol (by decide)
            · exact absurd symbol (by decide)
      rw [parseexec, unopened]
      dsimp only
      rw [if_neg Bool.false_ne_true, result]
      exact parseexecLoop_stop follows (skip_skip tail)
  | cons word words =>
      have unopened : peek ['('] s = (false, skip s) :=
        peek_word (plain word List.mem_cons_self) (forall_of_all rfl)
          (starts.trans (by rw [wordsText_cons]))
      have unredirected : peek ['<', '>'] (skip s) = (false, skip s) := by
        rw [peek_word (plain word List.mem_cons_self) (forall_of_all rfl)
          ((skip_skip s).trans (starts.trans (by rw [wordsText_cons]))), skip_skip]
      rw [parseexec, unopened]
      dsimp only
      rw [if_neg Bool.false_ne_true, parseredirs, parseredirsLoop, unredirected]
      rcases @parseexecLoop_written _ _ (.exec []) _ _ []
        (List.cons_ne_nil _ _) plain openable follows rfl ((skip_skip s).trans starts)
        ((skip s).length + 1) 0 (by omega) (Nat.lt_succ_self _) with ⟨cmd, result, same⟩
      exact ⟨cmd, result, same⟩

end Reading

/-! ## Whole commands -/

def afterPipe : Text := [')', '&', ';']

/-- `parseexec` reads the written command, with redirections behind it. -/
def AtExec (c : Cmd Text) : Prop :=
  forall ⦃s tail : Text⦄ ⦃redirs : List Redir⦄ ⦃depth : Nat⦄, Openable redirs ->
    Follows afterExec tail -> skip s = skip (c.textAt 3 ++ (redirsText redirs ++ tail)) ->
    4 * (c.textAt 3).length + 2 ≤ depth ->
    Exists fun cmd => parseexec depth s = .ok (cmd, skip tail) ∧ cmd.map Token.word = wrap c redirs

/-- `parsepipe` reads the written command. -/
def AtPipe (c : Cmd Text) : Prop :=
  forall ⦃s tail : Text⦄ ⦃depth : Nat⦄, Follows afterPipe tail ->
    skip s = skip (c.textAt 2 ++ tail) -> 4 * (c.textAt 2).length + 3 ≤ depth ->
    Exists fun cmd => parsepipe depth s = .ok (cmd, skip tail) ∧ cmd.map Token.word = c

/-- `parsepipe` and the loop of `parseline` read the written command. -/
def AtAmp (c : Cmd Text) : Prop :=
  forall ⦃s tail : Text⦄ ⦃depth : Nat⦄, Follows afterPipe tail ->
    skip s = skip (c.textAt 1 ++ tail) -> 4 * (c.textAt 1).length + 3 ≤ depth ->
    Exists fun cmd => Exists fun rest => parsepipe depth s = .ok (cmd, rest) ∧ forall rounds,
    rest.length < rounds -> Exists fun cmd' => Exists fun left =>
        parselineLoop rounds cmd rest = parselineLoop left cmd' (skip tail) ∧
          cmd'.map Token.word = c ∧ (skip tail).length < left

/-- `parseline` reads the written command. -/
def AtLine (c : Cmd Text) : Prop :=
  forall ⦃s tail : Text⦄ ⦃depth : Nat⦄, Follows [')'] tail ->
    skip s = skip (c.textAt 0 ++ tail) -> 4 * (c.textAt 0).length + 4 ≤ depth ->
    Exists fun cmd => parseline depth s = .ok (cmd, skip tail) ∧ cmd.map Token.word = c

/-- What the parser makes of a written command, wherever it stands in a line. -/
structure Reads (c : Cmd Text) : Prop where
  asExec : AtExec c
  asPipe : AtPipe c
  asAmp : AtAmp c
  asLine : AtLine c

section Commands

variable {s tail : Text} {c : Cmd Text} {level depth : Nat}

theorem textAt_of_le (le : level ≤ c.level) : c.textAt level = c.text := by
  rw [Cmd.textAt, enclose, decide_eq_false (Nat.not_lt.mpr le), if_neg Bool.false_ne_true]

theorem textAt_of_lt (lt : c.level < level) :
    c.textAt level = ' ' :: '(' :: c.text ++ [' ', ')'] := by
  rw [Cmd.textAt, enclose, decide_eq_true lt, if_pos rfl]

/-- Where no operator of a level stands outside, the next level writes the same. -/
theorem textAt_succ (other : c.level ≠ level) : c.textAt (level + 1) = c.textAt level := by
  by_cases lt : c.level < level
  · rw [textAt_of_lt lt, textAt_of_lt (Nat.lt_succ_of_lt lt)]
  · rw [textAt_of_le (Nat.not_lt.mp lt), textAt_of_le (by omega)]

/-- A symbol in front of which a blank was written. -/
theorem skip_symbol {c : Char} (symbol : c ∈ single) (rest : Text) :
    skip (' ' :: c :: rest) = c :: rest := by
  rw [skip_cons_of_blank rfl]
  refine skip_cons_of_not_blank ?_ rest
  rw [mem_single] at symbol
  rcases symbol with rfl | rfl | rfl | rfl | rfl | rfl <;> rfl

theorem take_symbol {c : Char} (symbol : c ∈ single) (rest : Text) :
    (gettoken (c :: rest)).2.2 = skip rest := by
  have starts : skip (c :: rest) = c :: rest := by
    rw [← skip_symbol symbol rest, skip_skip]
  rw [gettoken_single starts symbol]

/-- The symbol is there, and the parser goes on behind it. -/
theorem peek_symbol {c : Char} (symbol : c ∈ single) {rest : Text}
    (starts : skip s = skip (' ' :: c :: rest)) {toks : Text} (present : c ∈ toks) :
    peek toks s = (true, c :: rest) :=
  peek_present (starts.trans (skip_symbol symbol rest)) present (ne_nul_of_single symbol)

/-- In parentheses any command can stand where `parseexec` reads. -/
theorem AtLine.enclosed (line : AtLine c) (low : c.level < 3) : AtExec c := by
  intro s tail redirs depth openable follows starts deep
  rw [textAt_of_lt low] at starts deep
  have length : (' ' :: '(' :: c.text ++ [' ', ')']).length = c.text.length + 4 := by
    simp only [List.cons_append, List.length_cons, List.length_append, List.length_nil]
  rw [length] at deep
  rcases Nat.exists_eq_add_of_le (by omega : 2 ≤ depth) with ⟨depth, rfl⟩
  rw [Nat.add_comm 2 depth] at deep ⊢
  have starts : skip s = skip
      (' ' :: '(' :: (c.text ++ ' ' :: ')' :: (redirsText redirs ++ tail))) := by
    rw [starts, List.append_assoc]
    rfl
  have inner : c.textAt 0 = c.text := textAt_of_le (Nat.zero_le _)
  rcases @line (skip (c.text ++ ' ' :: ')' :: (redirsText redirs ++ tail))) (' ' :: ')' ::
    (redirsText redirs ++ tail)) depth (Follows.cons (by decide) rfl _) (by rw [skip_skip, inner])
    (by rw [inner]; omega) with ⟨cmd, result, same⟩
  rcases @parseredirs_written _ _ _ cmd _ openable follows (forall_of_all rfl)
    (skip_skip (redirsText redirs ++ tail)) with ⟨cmd', outer, whole⟩
  refine ⟨cmd', ?_, whole.trans (by rw [same])⟩
  have opened : peek ['('] s = (true, '(' :: (c.text ++ ' ' :: ')' ::
      (redirsText redirs ++ tail))) := peek_symbol (by decide) starts (by decide)
  have again : peek ['('] ('(' :: (c.text ++ ' ' :: ')' :: (redirsText redirs ++ tail)))
      = (true, '(' :: (c.text ++ ' ' :: ')' :: (redirsText redirs ++ tail))) :=
    peek_symbol (by decide) (skip_cons_of_blank rfl _).symm (by decide)
  have closed : peek [')'] (skip (' ' :: ')' :: (redirsText redirs ++ tail))) = (true, ')' ::
      (redirsText redirs ++ tail)) :=
    peek_symbol (by decide) (skip_skip _) (by decide)
  rw [parseexec, opened, if_pos rfl, parseblock, again]
  dsimp only
  rw [if_neg Bool.true_eq_false.mp, take_symbol (by decide), result]
  dsimp only
  rw [closed]
  dsimp only
  rw [if_neg Bool.true_eq_false.mp, take_symbol (by decide)]
  exact outer

/-- Without a `|` outside, `parsepipe` reads what `parseexec` reads. -/
theorem AtExec.single (exec : AtExec c) (other : c.level ≠ 2) : AtPipe c := by
  intro s tail depth follows starts deep
  rw [← textAt_succ other] at starts deep
  rcases Nat.exists_eq_add_of_le (by omega : 1 ≤ depth) with ⟨depth, rfl⟩
  rw [Nat.add_comm 1 depth] at deep ⊢
  rcases @exec s tail [] depth (fun _ inside => absurd inside List.not_mem_nil)
    (follows.mono (forall_of_all rfl)) starts (Nat.le_of_succ_le_succ deep) with ⟨cmd, result, same⟩
  refine ⟨cmd, ?_, same⟩
  have ends : peek ['|'] (skip tail) = (false, skip tail) :=
    peek_of_follows follows (forall_of_all rfl) (skip_skip tail)
  rw [parsepipe, result]
  dsimp only
  rw [ends]
  rfl

/-- Without an `&` outside, the loop of `parseline` finds none. -/
theorem AtPipe.single (pipe : AtPipe c) (other : c.level ≠ 1) : AtAmp c := by
  intro s tail depth follows starts deep
  rw [← textAt_succ other] at starts deep
  rcases pipe follows starts deep with ⟨cmd, result, same⟩
  exact ⟨cmd, skip tail, result, fun rounds enough => ⟨cmd, rounds, rfl, same, enough⟩⟩

/-- `parseline` up to a `;` or the end of the line. -/
theorem AtAmp.parseline_eq (amp : AtAmp c) (follows : Follows [')', ';'] tail)
    (starts : skip s = skip (c.textAt 1 ++ tail)) (deep : 4 * (c.textAt 1).length + 3 ≤ depth) :
    Exists fun cmd => cmd.map Token.word = c ∧
      parseline (depth + 1) s = if (peek [';'] (skip tail)).1 then
        match parseline depth (gettoken (peek [';'] (skip tail)).2).2.2 with
        | .error stop => .error stop
        | .ok (right, s) => .ok (.list cmd right, s)
      else .ok (cmd, (peek [';'] (skip tail)).2) := by
  rcases amp (follows.mono (forall_of_all rfl)) starts deep with ⟨cmd, rest, result, loop⟩
  rcases loop (rest.length + 1) (Nat.lt_succ_self _) with ⟨cmd', left, loops, same, enough⟩
  refine ⟨cmd', same, ?_⟩
  rcases Nat.exists_eq_succ_of_ne_zero (by omega : left ≠ 0) with ⟨left, rfl⟩
  have ends : peek ['&'] (skip tail) = (false, skip tail) :=
    peek_of_follows follows (forall_of_all rfl) (skip_skip tail)
  have loops : parselineLoop (rest.length + 1) cmd rest = .ok (cmd', skip tail) := by
    rw [loops, parselineLoop, ends]
    rfl
  rw [parseline, result]
  dsimp only
  generalize parselineLoop (rest.length + 1) cmd rest = outcome at loops
  subst loops
  rfl

/-- Without a `;` outside, `parseline` reads no second command. -/
theorem AtAmp.single (amp : AtAmp c) (other : c.level ≠ 0) : AtLine c := by
  intro s tail depth follows starts deep
  rw [← textAt_succ other] at starts deep
  rcases Nat.exists_eq_add_of_le (by omega : 1 ≤ depth) with ⟨depth, rfl⟩
  rw [Nat.add_comm 1 depth] at deep ⊢
  rcases amp.parseline_eq (follows.mono (forall_of_all rfl)) starts
    (Nat.le_of_succ_le_succ deep) with ⟨cmd, same, result⟩
  have ends : peek [';'] (skip tail) = (false, skip tail) :=
    peek_of_follows follows (forall_of_all rfl) (skip_skip tail)
  refine ⟨cmd, ?_, same⟩
  rw [result, ends]
  rfl

/-! ### The operators -/

theorem atPipe_pipe {left right : Cmd Text} (exec : AtExec left) (pipe : AtPipe right) :
    AtPipe (.pipe left right) := by
  intro s tail depth follows starts deep
  have text : (Cmd.pipe left right).textAt 2 = left.textAt 3 ++ ' ' :: '|' :: right.textAt 2 :=
    textAt_of_le (Nat.le_refl 2)
  rw [text] at starts deep
  rw [List.length_append, List.length_cons, List.length_cons] at deep
  rw [List.append_assoc] at starts
  rcases Nat.exists_eq_add_of_le (by omega : 1 ≤ depth) with ⟨depth, rfl⟩
  rw [Nat.add_comm 1 depth] at deep ⊢
  rcases @exec s (' ' :: '|' :: (right.textAt 2 ++ tail)) [] depth
    (fun _ inside => absurd inside List.not_mem_nil) (Follows.cons (by decide) rfl _) starts
    (by omega) with ⟨cmd, first, same⟩
  rcases @pipe (skip (right.textAt 2 ++ tail)) tail depth follows (skip_skip _) (by omega) with
    ⟨cmd', second, same'⟩
  refine ⟨.pipe cmd cmd', ?_, ?_⟩
  · have more : peek ['|'] (skip (' ' :: '|' :: (right.textAt 2 ++ tail))) =
        (true, '|' :: (right.textAt 2 ++ tail)) :=
      peek_symbol (by decide) (skip_skip _) (by decide)
    rw [parsepipe, first]
    dsimp only
    rw [more, if_pos rfl, take_symbol (by decide), second]
  · rw [Cmd.map, same, same']
    rfl

theorem atAmp_back {inner : Cmd Text} (amp : AtAmp inner) : AtAmp (.back inner) := by
  intro s tail depth follows starts deep
  have text : (Cmd.back inner).textAt 1 = inner.textAt 1 ++ [' ', '&'] :=
    textAt_of_le (Nat.le_refl 1)
  rw [text] at starts deep
  rw [List.length_append] at deep
  rw [List.append_assoc] at starts
  rcases @amp s (' ' :: '&' :: tail) depth (Follows.cons (by decide) rfl _) starts (by omega) with
    ⟨cmd, rest, result, loop⟩
  refine ⟨cmd, rest, result, fun rounds enough => ?_⟩
  rcases loop rounds enough with ⟨cmd', left, loops, same, more⟩
  rw [skip_symbol (by decide), List.length_cons] at more
  rw [skip_symbol (by decide)] at loops
  rcases Nat.exists_eq_succ_of_ne_zero (by omega : left ≠ 0) with ⟨left, rfl⟩
  have found : peek ['&'] ('&' :: tail) = (true, '&' :: tail) :=
    peek_symbol (by decide) (skip_cons_of_blank rfl _).symm (by decide)
  refine ⟨.back cmd', left, ?_, ?_, ?_⟩
  · rw [loops, parselineLoop, found, if_pos rfl, take_symbol (by decide)]
  · rw [Cmd.map, same]
  · have shorter := (skip_suffix tail).length_le
    omega

theorem atLine_list {left right : Cmd Text} (amp : AtAmp left) (line : AtLine right) :
    AtLine (.list left right) := by
  intro s tail depth follows starts deep
  have text : (Cmd.list left right).textAt 0 = left.textAt 1 ++ ' ' :: ';' :: right.textAt 0 := by
    rw [textAt_of_le (Nat.zero_le _), textAt_of_le (Nat.zero_le right.level)]
    rfl
  rw [text] at starts deep
  rw [List.length_append, List.length_cons, List.length_cons] at deep
  rw [List.append_assoc] at starts
  rcases Nat.exists_eq_add_of_le (by omega : 1 ≤ depth) with ⟨depth, rfl⟩
  rw [Nat.add_comm 1 depth] at deep ⊢
  rcases @AtAmp.parseline_eq s (' ' :: ';' :: (right.textAt 0 ++ tail)) left depth amp
    (Follows.cons (by decide) rfl _) starts (by omega) with ⟨cmd, same, first⟩
  rcases @line (skip (right.textAt 0 ++ tail)) tail depth follows (skip_skip _) (by omega) with
    ⟨cmd', second, same'⟩
  refine ⟨.list cmd cmd', ?_, ?_⟩
  · have more : peek [';'] (skip (' ' :: ';' :: (right.textAt 0 ++ tail))) =
        (true, ';' :: (right.textAt 0 ++ tail)) :=
      peek_symbol (by decide) (skip_skip _) (by decide)
    rw [first, more, if_pos rfl, take_symbol (by decide), second]
  · rw [Cmd.map, same, same']

theorem atExec_redir {inner : Cmd Text} {file : Text} {mode fd : Nat} (plain : Plain file)
    (opens : Opens mode fd) (exec : AtExec inner) : AtExec (.redir inner file mode fd) := by
  intro s tail redirs depth openable follows starts deep
  have text : (Cmd.redir inner file mode fd).textAt 3 = inner.textAt 3 ++ redirection file fd :=
    textAt_of_le (Nat.le_refl 3)
  rw [text] at starts deep
  rw [List.length_append] at deep
  refine @exec s tail ((file, mode, fd) :: redirs) depth (fun redir inside => ?_) follows
    ?_ (by omega)
  · rcases List.mem_cons.mp inside with rfl | inside
    · exact ⟨plain, opens⟩
    · exact openable redir inside
  · rw [starts, List.append_assoc, ← List.append_assoc (redirection file fd)]
    rfl

theorem atExec_exec {argv : List Text} (few : argv.length < MAXARGS)
    (plain : forall word, word ∈ argv -> Plain word) : AtExec (.exec argv) := by
  intro s tail redirs depth openable follows starts deep
  have text : (Cmd.exec argv).textAt 3 = wordsText argv := textAt_of_le (Nat.le_refl 3)
  rw [text] at starts deep
  rcases Nat.exists_eq_add_of_le (by omega : 1 ≤ depth) with ⟨depth, rfl⟩
  rw [Nat.add_comm 1 depth]
  exact parseexec_words few plain openable follows starts

/-- The parser reads every well-formed command as it was written. -/
theorem reads (formed : WellFormed Plain c) : Reads c := by
  induction c with
  | exec argv =>
      have exec := atExec_exec formed.1 formed.2
      have pipe := exec.single (by decide : 3 ≠ 2)
      have amp := pipe.single (by decide : 3 ≠ 1)
      exact ⟨exec, pipe, amp, amp.single (by decide : 3 ≠ 0)⟩
  | redir inner file mode fd ih =>
      have exec := atExec_redir formed.2.1 formed.2.2 (ih formed.1).asExec
      have pipe := exec.single (by decide : 3 ≠ 2)
      have amp := pipe.single (by decide : 3 ≠ 1)
      exact ⟨exec, pipe, amp, amp.single (by decide : 3 ≠ 0)⟩
  | pipe left right ihLeft ihRight =>
      have pipe := atPipe_pipe (ihLeft formed.1).asExec (ihRight formed.2).asPipe
      have amp := pipe.single (by decide : 2 ≠ 1)
      have line := amp.single (by decide : 2 ≠ 0)
      exact ⟨line.enclosed (by decide : 2 < 3), pipe, amp, line⟩
  | back inner ih =>
      have amp := atAmp_back (ih formed).asAmp
      have line := amp.single (by decide : 1 ≠ 0)
      have exec := line.enclosed (by decide : 1 < 3)
      exact ⟨exec, exec.single (by decide : 1 ≠ 2), amp, line⟩
  | list left right ihLeft ihRight =>
      have line := atLine_list (ihLeft formed.1).asAmp (ihRight formed.2).asLine
      have exec := line.enclosed (by decide : 0 < 3)
      have pipe := exec.single (by decide : 0 ≠ 2)
      exact ⟨exec, pipe, pipe.single (by decide : 0 ≠ 1), line⟩

/-! ## There and back -/

theorem text_noNul (formed : WellFormed Plain c) : forall d, d ∈ c.text -> d ≠ nul := by
  have enclosed : forall (inner : Bool) {s : Text}, (forall d, d ∈ s -> d ≠ nul) -> forall d,
      d ∈ enclose inner s -> d ≠ nul := by
    intro inner s noNul d inside
    cases inner with
    | false => exact noNul d inside
    | true =>
        simp only [enclose, if_true, List.mem_cons, List.mem_append, List.not_mem_nil,
          or_false] at inside
        rcases inside with (rfl | rfl | inside) | rfl | rfl
        · decide
        · decide
        · exact noNul d inside
        · decide
        · decide
  induction c with
  | exec argv =>
      intro d inside
      rcases List.mem_flatMap.mp inside with ⟨word, known, inside⟩
      rcases List.mem_cons.mp inside with rfl | inside
      · decide
      · exact (formed.2 word known).noNul d inside
  | redir inner file mode fd ih =>
      intro d inside
      rcases List.mem_append.mp inside with inside | inside
      · exact enclosed _ (ih formed.1) d inside
      · simp only [redirection, List.mem_cons] at inside
        rcases inside with rfl | rfl | rfl | inside
        · decide
        · split <;> decide
        · decide
        · exact formed.2.1.noNul d inside
  | pipe left right ihLeft ihRight =>
      intro d inside
      rcases List.mem_append.mp inside with inside | inside
      · exact enclosed _ (ihLeft formed.1) d inside
      · rcases List.mem_cons.mp inside with rfl | inside
        · decide
        · rcases List.mem_cons.mp inside with rfl | inside
          · decide
          · exact enclosed _ (ihRight formed.2) d inside
  | list left right ihLeft ihRight =>
      intro d inside
      rcases List.mem_append.mp inside with inside | inside
      · exact enclosed _ (ihLeft formed.1) d inside
      · rcases List.mem_cons.mp inside with rfl | inside
        · decide
        · rcases List.mem_cons.mp inside with rfl | inside
          · decide
          · exact ihRight formed.2 d inside
  | back inner ih =>
      intro d inside
      rcases List.mem_append.mp inside with inside | inside
      · exact enclosed _ (ih formed) d inside
      · rcases List.mem_cons.mp inside with rfl | inside
        · decide
        · rw [List.mem_singleton.mp inside]
          decide

/-- The parser reads back every well-formed command from the line that it is written as. -/
theorem parsecmd_text (formed : WellFormed Plain c) : parsecmd c.text = .ok c := by
  have whole : c.textAt 0 = c.text := textAt_of_le (Nat.zero_le _)
  rcases @(reads formed).asLine c.text [] (depthFor c.text) Follows.nil
    (by rw [whole, List.append_nil]) (by rw [whole]; exact Nat.le_refl _) with ⟨cmd, result, same⟩
  have parsed : parse c.text = .ok cmd := by
    rw [parse, result]
    rfl
  rw [parsecmd_of_parse (text_noNul formed) parsed, same]

end Commands

/-- The parser accepts exactly the well-formed commands, each one from the line that it
is written as. -/
theorem parsecmd_round_trip (c : Cmd Text) :
    ((Exists fun line => (forall d, d ∈ line -> d ≠ nul) ∧ parsecmd line = .ok c) ↔
      WellFormed Plain c) ∧
    (WellFormed Plain c -> parsecmd c.text = .ok c) := by
  refine ⟨⟨?_, fun formed => ⟨c.text, text_noNul formed, parsecmd_text formed⟩⟩, parsecmd_text⟩
  rintro ⟨line, noNul, accepted⟩
  exact wellFormed_of_parsecmd noNul accepted

example : parsecmd ['(', 'a', ';', 'b', '<', 'c', ')', '&'] =
    .ok (.back (.list (.exec [['a']]) (.redir (.exec [['b']]) ['c'] O_RDONLY 0))) := by
  decide

end Sh
end UserPrograms
end OsProjects
