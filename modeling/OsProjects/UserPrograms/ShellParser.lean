import Mathlib.Data.List.Basic

namespace OsProjects
namespace UserPrograms
namespace Sh

/-!
# The parser of `sh`

The parser goes through a line once and keeps pointers to the words.  A pointer into the line
is the rest of the line that begins there, so `es` is the empty rest, where a null character
stands.  When the whole line has been read, `nulterminate` puts a null character behind every
word.

The four functions that call each other get a bound on the depth, and the loops one on their
rounds; `rounds` is what happens at the bound.
-/

abbrev Text := List Char

def nul : Char := '\x00'

def whitespace : Text := [' ', '\t', '\r', '\n', '\x0b']

def symbols : Text := ['<', '|', '>', '&', ';', '(', ')']

def MAXARGS : Nat := 10
def O_RDONLY : Nat := 0
def O_WRONLY : Nat := 1
def O_CREATE : Nat := 0x200

/-- What `gettoken` skips. -/
def isBlank (c : Char) : Bool := whitespace.contains c

/-- What `gettoken` takes for a part of a word. -/
def isWord (c : Char) : Bool := !whitespace.contains c && !symbols.contains c

/-- The pointers to the beginning and behind the end of a token. -/
structure Token where
  q : Text
  eq : Text
  deriving DecidableEq

/-- `struct cmd`, over what stands for a word. -/
inductive Cmd (Word : Type)
  | exec (argv : List Word)
  | redir (cmd : Cmd Word) (file : Word) (mode fd : Nat)
  | pipe (left right : Cmd Word)
  | list (left right : Cmd Word)
  | back (cmd : Cmd Word)
  deriving DecidableEq

/-- `panic`, and what `parsecmd` says of a line that goes on. -/
inductive Stop
  | panic (message : String)
  | leftovers (rest : Text)
  | rounds
  deriving DecidableEq

def skip (s : Text) : Text := s.dropWhile isBlank

/-- `gettoken`: the kind of the token, its pointers and where to go on. -/
def gettoken (s : Text) : Char × Token × Text :=
  let q := skip s
  match q with
  | [] => (nul, ⟨q, q⟩, q)
  | c :: s =>
      if c = nul then (nul, ⟨q, q⟩, skip q)
      else if c = '|' ∨ c = '(' ∨ c = ')' ∨ c = ';' ∨ c = '&' ∨ c = '<' then (c, ⟨q, s⟩, skip s)
      else if c = '>' then
        match s with
        | [] => ('>', ⟨q, s⟩, skip s)
        | d :: t => if d = '>' then ('+', ⟨q, t⟩, skip t) else ('>', ⟨q, s⟩, skip s)
      else ('a', ⟨q, q.dropWhile isWord⟩, skip (q.dropWhile isWord))

/-- `peek`, which also skips. -/
def peek (toks : Text) (s : Text) : Bool × Text :=
  let s := skip s
  match s with
  | [] => (false, s)
  | c :: _ => (c != nul && toks.contains c, s)

/-- The loop of `parseredirs`. -/
def parseredirsLoop : Nat -> Cmd Token -> Text -> Except Stop (Cmd Token × Text)
  | 0, _, _ => .error .rounds
  | rounds + 1, cmd, s =>
      if (peek ['<', '>'] s).1 then
        let first := gettoken (peek ['<', '>'] s).2
        let second := gettoken first.2.2
        if second.1 ≠ 'a' then .error (.panic "missing file for redirection")
        else if first.1 = '<' then
          parseredirsLoop rounds (.redir cmd second.2.1 O_RDONLY 0) second.2.2
        else if first.1 = '>' then
          parseredirsLoop rounds (.redir cmd second.2.1 (O_WRONLY ||| O_CREATE) 1) second.2.2
        else if first.1 = '+' then
          parseredirsLoop rounds (.redir cmd second.2.1 (O_WRONLY ||| O_CREATE) 1) second.2.2
        else parseredirsLoop rounds cmd second.2.2
      else .ok (cmd, (peek ['<', '>'] s).2)

def parseredirs (cmd : Cmd Token) (s : Text) : Except Stop (Cmd Token × Text) :=
  parseredirsLoop (s.length + 1) cmd s

/-- `cmd->argv[argc] = q` for the `EXEC` command inside of its redirections. -/
def Cmd.addArg {Word : Type} (word : Word) : Cmd Word -> Cmd Word
  | .exec argv => .exec (argv ++ [word])
  | .redir cmd file mode fd => .redir (cmd.addArg word) file mode fd
  | other => other

/-- The loop of `parseexec`. -/
def parseexecLoop : Nat -> Nat -> Cmd Token -> Text -> Except Stop (Cmd Token × Text)
  | 0, _, _, _ => .error .rounds
  | rounds + 1, argc, ret, s =>
      if (peek ['|', ')', '&', ';'] s).1 then .ok (ret, (peek ['|', ')', '&', ';'] s).2)
      else
        let token := gettoken (peek ['|', ')', '&', ';'] s).2
        if token.1 = nul then .ok (ret, token.2.2)
        else if token.1 ≠ 'a' then .error (.panic "syntax")
        else if argc + 1 ≥ MAXARGS then .error (.panic "too many args")
        else
          match parseredirs (ret.addArg token.2.1) token.2.2 with
          | .error stop => .error stop
          | .ok (ret, s) => parseexecLoop rounds (argc + 1) ret s

/-- The loop of `parseline`. -/
def parselineLoop : Nat -> Cmd Token -> Text -> Except Stop (Cmd Token × Text)
  | 0, _, _ => .error .rounds
  | rounds + 1, cmd, s =>
      if (peek ['&'] s).1 then parselineLoop rounds (.back cmd) (gettoken (peek ['&'] s).2).2.2
      else .ok (cmd, (peek ['&'] s).2)

mutual

def parseline : Nat -> Text -> Except Stop (Cmd Token × Text)
  | 0, _ => .error .rounds
  | depth + 1, s =>
      match parsepipe depth s with
      | .error stop => .error stop
      | .ok (cmd, s) =>
          match parselineLoop (s.length + 1) cmd s with
          | .error stop => .error stop
          | .ok (cmd, s) =>
              if (peek [';'] s).1 then
                match parseline depth (gettoken (peek [';'] s).2).2.2 with
                | .error stop => .error stop
                | .ok (right, s) => .ok (.list cmd right, s)
              else .ok (cmd, (peek [';'] s).2)

def parsepipe : Nat -> Text -> Except Stop (Cmd Token × Text)
  | 0, _ => .error .rounds
  | depth + 1, s =>
      match parseexec depth s with
      | .error stop => .error stop
      | .ok (cmd, s) =>
          if (peek ['|'] s).1 then
            match parsepipe depth (gettoken (peek ['|'] s).2).2.2 with
            | .error stop => .error stop
            | .ok (right, s) => .ok (.pipe cmd right, s)
          else .ok (cmd, (peek ['|'] s).2)

def parseexec : Nat -> Text -> Except Stop (Cmd Token × Text)
  | 0, _ => .error .rounds
  | depth + 1, s =>
      if (peek ['('] s).1 then parseblock depth (peek ['('] s).2
      else
        match parseredirs (.exec []) (peek ['('] s).2 with
        | .error stop => .error stop
        | .ok (ret, s) => parseexecLoop (s.length + 1) 0 ret s

def parseblock : Nat -> Text -> Except Stop (Cmd Token × Text)
  | 0, _ => .error .rounds
  | depth + 1, s =>
      if (peek ['('] s).1 = false then .error (.panic "parseblock")
      else
        match parseline depth (gettoken (peek ['('] s).2).2.2 with
        | .error stop => .error stop
        | .ok (cmd, s) =>
            if (peek [')'] s).1 = false then .error (.panic "syntax - missing )")
            else parseredirs cmd (gettoken (peek [')'] s).2).2.2

end

/-- A bound on the depth of the calls. -/
def depthFor (s : Text) : Nat := 4 * s.length + 4

/-- `parsecmd`, before `nulterminate`. -/
def parse (line : Text) : Except Stop (Cmd Token) :=
  match parseline (depthFor line) line with
  | .error stop => .error stop
  | .ok (cmd, s) =>
      if (peek [] s).2 ≠ [] then .error (.leftovers (peek [] s).2)
      else .ok cmd

/-- The line in memory, and where a pointer into it points. -/
def offset (line rest : Text) : Nat := line.length - rest.length

/-- The writes of `nulterminate`. -/
def nulterminate (line : Text) : Cmd Token -> Text -> Text
  | .exec argv, memory =>
      argv.foldl (fun memory token => memory.set (offset line token.eq) nul) memory
  | .redir cmd file _ _, memory => (nulterminate line cmd memory).set (offset line file.eq) nul
  | .pipe left right, memory => nulterminate line right (nulterminate line left memory)
  | .list left right, memory => nulterminate line right (nulterminate line left memory)
  | .back cmd, memory => nulterminate line cmd memory

/-- The string at a pointer. -/
def stringAt (line memory rest : Text) : Text :=
  (memory.drop (offset line rest)).takeWhile (fun c => c != nul)

def Cmd.map {α β : Type} (f : α -> β) : Cmd α -> Cmd β
  | .exec argv => .exec (argv.map f)
  | .redir cmd file mode fd => .redir (cmd.map f) (f file) mode fd
  | .pipe left right => .pipe (left.map f) (right.map f)
  | .list left right => .list (left.map f) (right.map f)
  | .back cmd => .back (cmd.map f)

/-- `parsecmd`: the commands with the strings that `runcmd` finds at their pointers. -/
def parsecmd (line : Text) : Except Stop (Cmd Text) :=
  match parse line with
  | .error stop => .error stop
  | .ok cmd =>
      .ok (cmd.map (fun token => stringAt line (nulterminate line cmd (line ++ [nul])) token.q))

end Sh
end UserPrograms
end OsProjects
