import OsProjects.Machine.Tokens
import Mathlib.Logic.Function.Basic

namespace OsProjects
namespace Shell

open Machine

/-!
# The shell `mysh`

The shell reads a line into `input`, cuts it into tokens there, and keeps pointers to
the tokens in `argv`.  For a line with a bar it copies the pointers before the bar to
`cmd1`, and it stores the first one behind the bar in `cmd2`.  The arrays live as long
as the shell, so each cell holds what an earlier line or, before that, the stack has
left there.

`none` is a call with a null pointer for a token.
-/

abbrev Text := List Char

def MAX_ARGV : Nat := 1024

/-- What ends a string in memory. -/
def nul : Char := '\x00'

/-- The characters of `token`, at which `strtok` cuts. -/
def isDelimiter (c : Char) : Bool :=
  c == ' ' || c == '\t' || c == '\n'

def or_sign : Text := ['>']
def ar_sign : Text := ['>', '>']
def piped_sign : Text := ['|']

/-- A pointer into `input`, or to a text elsewhere that the shell does not change. -/
inductive Pointer where
  | input (offset : Nat)
  | elsewhere (text : Text)
deriving DecidableEq

/-- The string that starts at an offset. -/
def stringAt (input : Text) (offset : Nat) : Text :=
  (input.drop offset).takeWhile (fun c => c != nul)

/-- The string that a pointer stands for, with the present contents of `input`. -/
def Pointer.text (input : Text) : Pointer -> Text
  | .input offset => stringAt input offset
  | .elsewhere text => text

/-- The variables that keep their values from line to line. -/
structure State where
  input : Text
  argv : Nat -> Option Pointer
  cmd1 : Nat -> Option Pointer
  cmd2 : Nat -> Option Pointer

/-- The variables that each line sets anew. -/
structure Flags where
  or : Bool
  ar : Bool
  piped : Bool
deriving DecidableEq

/-! ## Reading a line -/

/-- `strtok` goes on at `next`.  It returns the start of the token that it has found,
`input` with the token ended by a null character, and where to go on. -/
def strtok (input : Text) (next : Nat) : Option Nat × Text × Nat :=
  let start := next + ((input.drop next).takeWhile isDelimiter).length
  let stop := start + ((input.drop start).takeWhile (fun c => c != nul && !isDelimiter c)).length
  if stop = start then (none, input, start)
  else if input[stop]? = some nul then (some start, input, stop)
  else (some start, input.set stop nul, stop + 1)

namespace State

/-- `fgets` stores the line and a null character and keeps what is behind them. -/
def fgets (state : State) (line : Text) : State :=
  { state with input := line ++ nul :: state.input.drop (line.length + 1) }

/-- The line as the string functions see it. -/
def line (state : State) : Text := stringAt state.input 0

def flags (state : State) : Flags where
  or := or_sign <:+: state.line
  ar := ar_sign <:+: state.line
  piped := piped_sign <:+: state.line

/-- The loop that fills `argv`. -/
def readTokens : (todo argc next : Nat) -> State -> State
  | 0, _, _, state => state
  | todo + 1, argc, next, state =>
      match strtok state.input next with
      | (none, input, _) =>
          { state with input, argv := Function.update state.argv argc none }
      | (some start, input, next) =>
          readTokens todo (argc + 1) next
            { state with input, argv := Function.update state.argv argc (some (.input start)) }

/-- The string that a cell of `argv` points to. -/
def token (state : State) (i : Nat) : Option Text :=
  (state.argv i).map (Pointer.text state.input)

/-- The loop that fills `cmd1`. -/
def copyUntilBar : (todo i a : Nat) -> State -> Option (State × Nat)
  | 0, _, a, state => some (state, a)
  | todo + 1, i, a, state =>
      match state.token i with
      | none => none
      | some word =>
          if word ≠ piped_sign then
            copyUntilBar todo (i + 1) (a + 1)
              { state with cmd1 := Function.update state.cmd1 i (state.argv i) }
          else some (state, a)

/-- What the shell does with a line before it compares the first token. -/
def parse (state : State) : Option State :=
  let parsed := readTokens MAX_ARGV 0 0 state
  if state.flags.piped then
    (copyUntilBar MAX_ARGV 0 0 parsed).map fun (copied, a) =>
      { copied with cmd2 := Function.update copied.cmd2 0 (copied.argv (a + 1)) }
  else some parsed

end State

/-! ## The commands of the shell -/

def exit_name : Text := ['e', 'x', 'i', 't']
def cd_name : Text := ['c', 'd']
def pwd_name : Text := ['p', 'w', 'd']

def IsBuiltin (word : Text) : Prop :=
  word = exit_name ∨ word = cd_name ∨ word = pwd_name

instance (word : Text) : Decidable (IsBuiltin word) :=
  inferInstanceAs (Decidable (_ ∨ _ ∨ _))

/-- What the shell does itself, or that it forks. -/
inductive Action where
  | exit
  | error
  | cd (directory : Option Text)
  | pwd
  | fork
deriving DecidableEq

def State.action (state : State) : Option Action :=
  (state.token 0).map fun name =>
    if name = exit_name then
      if (state.argv 1).isSome then .error else .exit
    else if name = cd_name then .cd (state.token 1)
    else if name = pwd_name then .pwd
    else .fork

/-! ## The child -/

/-- What `execvp` is given: the file, and the vector with its null pointers. -/
structure Exec where
  file : Text
  argv : Nat -> Option Text

/-- The third flag of `open`, besides `O_CREAT` and `O_WRONLY`. -/
inductive Disposition where
  | O_TRUNC
  | O_APPEND
deriving DecidableEq

inductive Child where
  | plain (exec : Exec)
  | redirected (file : Text) (disposition : Disposition) (exec : Exec)
  | pipe (first second : Exec)
  | returns

def execvp (input : Text) (cells : Nat -> Option Pointer) : Option Exec :=
  (cells 0).map fun file =>
    { file := file.text input, argv := fun i => (cells i).map (Pointer.text input) }

/-- How a loop that looks for a sign ends. -/
inductive Search where
  | null
  | found (i : Nat)
  | exhausted
deriving DecidableEq

def search (sign : Text) (cells : Nat -> Option Text) : (todo i : Nat) -> Search
  | 0, _ => .exhausted
  | todo + 1, i =>
      match cells i with
      | none => .null
      | some word => if word = sign then .found i else search sign cells todo (i + 1)

namespace State

/-- The three assignments before the file is opened. -/
def moveOperand (argv : Nat -> Option Pointer) (i : Nat) : Nat -> Option Pointer :=
  let argv := Function.update argv i (argv (i + 2))
  let argv := Function.update argv (i + 2) (argv (i + 1))
  Function.update argv (i + 1) none

/-- The branches for `>` and `>>`.  Neither returns once it has found the sign. -/
def redirect (state : State) (sign : Text) (disposition : Disposition) : Option Child :=
  match search sign state.token MAX_ARGV 0 with
  | .null => none
  | .exhausted => some .returns
  | .found i =>
      let argv := moveOperand state.argv i
      (argv (i + 2)).bind fun file =>
        (execvp state.input argv).map fun exec =>
          .redirected (file.text state.input) disposition exec

def child (state : State) (flags : Flags) : Option Child :=
  if !flags.or && !flags.ar && !flags.piped then (execvp state.input state.argv).map .plain
  else if flags.or && !flags.ar then state.redirect or_sign .O_TRUNC
  else if flags.ar then state.redirect ar_sign .O_APPEND
  else if flags.piped then
    (execvp state.input state.cmd1).bind fun first =>
      (execvp state.input state.cmd2).map fun second => .pipe first second
  else some .returns

/-! ## Lines one after another -/

/-- A shell that has read nothing, on a stack of null pointers. -/
def fresh : State where
  input := []
  argv := fun _ => none
  cmd1 := fun _ => none
  cmd2 := fun _ => none

/-- The state for the next line, if the shell comes to it. -/
def turn (state : State) (line : Text) : Option State :=
  let read := state.fgets line
  if read.line = ['\n'] then some read
  else
    read.parse.bind fun parsed =>
      parsed.action.bind fun action => if action = .exit then none else some parsed

def run (state : State) : List Text -> Option State
  | [] => some state
  | line :: lines => (state.turn line).bind fun next => next.run lines

end State
end Shell
end OsProjects
