import OsProjects.Machine.Transition
import OsProjects.WebServer.Queue

namespace OsProjects
namespace WebServer

/-!
# The threads of the web server

One main thread accepts connections and reads their request lines; any number
of workers take entries from the queue and answer them.  A step is a region
that the mutex makes atomic, or the code between two such regions that touches
shared memory once.  The condition variables are re-checked after every wait,
so a wait is a step that is not enabled.

`fileinfo_buffer` has `buffer_sz + 2` lines, which the main thread uses in
turn.  An entry carries a pointer to its line, not a copy, and the worker reads
through that pointer only when `requestHandle` parses the request.
-/

/-- Where the main thread stands in its loop. -/
inductive MainAt
  | accept
  | readline (connfd : Int)
  | produce (connfd file_sz filename_sz : Int)
  | advance
  deriving DecidableEq

/-- Where a worker stands in its loop: waiting in `consumer`, holding an entry
that `requestHandle` has not parsed yet, or about to close the connection. -/
inductive WorkerAt
  | consume
  | handle (fd : Int) (buff_ptr : Nat)
  | close (fd : Int)
  deriving DecidableEq

structure State where
  server : Server
  fileinfo_buffer : Nat -> String
  i : Nat
  main : MainAt
  worker : Nat -> WorkerAt
  /-- The descriptors that are open in the process. -/
  opened : Int -> Bool
  /-- The line that was last read from each descriptor; no code reads it. -/
  received : Int -> String

/-- A step, with the choices of its environment: the descriptor that `accept`
returns, the line the client sent, and what `getfileinfo` finds for it. -/
inductive Event
  | accept (connfd : Int)
  | readline (line : String) (file_sz filename_sz : Int)
  | produce
  | advance
  | consume (w : Nat)
  | parse (w : Nat)
  | close (w : Nat)

/-- `filebuffer_size` in `main`. -/
def filebuffer_size (server : Server) : Nat := server.buffer_sz + 2

/-- The main thread's steps.  `accept` returns a descriptor that is not open. -/
def mainNext (state : State) : Event -> Option State
  | .accept connfd =>
      if state.main = .accept ∧ state.opened connfd = false then
        some { state with
          main := .readline connfd
          opened := Function.update state.opened connfd true }
      else none
  | .readline line file_sz filename_sz =>
      match state.main with
      | .readline connfd => some { state with
          main := .produce connfd file_sz filename_sz
          fileinfo_buffer := Function.update state.fileinfo_buffer state.i line
          received := Function.update state.received connfd line }
      | _ => none
  | .produce =>
      match state.main with
      | .produce connfd file_sz filename_sz =>
          if state.server.buff_count = state.server.buffer_sz then none
          else some { state with
            main := .advance
            server := state.server.put connfd state.i file_sz filename_sz }
      | _ => none
  | .advance =>
      if state.main = .advance then
        some { state with main := .accept, i := (state.i + 1) % filebuffer_size state.server }
      else none
  | _ => none

/-- The steps of worker `w`. -/
def workerNext (thread_num : Nat) (state : State) (w : Nat) : Event -> Option State
  | .consume _ =>
      if w < thread_num ∧ state.worker w = .consume ∧ state.server.buff_count ≠ 0 then
        some { state with
          server := state.server.get.2
          worker := Function.update state.worker w
            (.handle state.server.get.1.1 state.server.get.1.2) }
      else none
  | .parse _ =>
      match state.worker w with
      | .handle fd _ => some { state with worker := Function.update state.worker w (.close fd) }
      | _ => none
  | .close _ =>
      match state.worker w with
      | .close fd => some { state with
          worker := Function.update state.worker w .consume
          opened := Function.update state.opened fd false }
      | _ => none
  | _ => none

def next (thread_num : Nat) (state : State) (event : Event) : Option State :=
  match event with
  | .consume w | .parse w | .close w => workerNext thread_num state w event
  | _ => mainNext state event

/-- The state in which `main` enters its loop: the queue is empty, every worker
has been created, and nothing is said about memory that is not initialised. -/
structure Started (buffer_sz : Nat) (state : State) : Prop where
  size : state.server.buffer_sz = buffer_sz
  count : state.server.buff_count = 0
  empty : forall j, j < buffer_sz -> state.server.valid j = 0
  first : state.i = 0
  accepting : state.main = .accept
  waiting : forall w, state.worker w = .consume

/-- The states of the server with the given numbers of slots and workers, over
every interleaving. -/
def Running (buffer_sz thread_num : Nat) : State -> Prop :=
  Machine.Reachable (next thread_num) (Started buffer_sz) Machine.anyStep

/-- The entry that a worker holds points to the line of its own client. -/
def HoldsOwnLine (state : State) (w : Nat) : Prop :=
  match state.worker w with
  | .handle fd buff_ptr => state.fileinfo_buffer buff_ptr = state.received fd
  | _ => True

/-- Whenever a worker parses the line for a descriptor, the buffer it points to
still holds the line that was read from that descriptor. -/
def ParsesOwnLines (buffer_sz thread_num : Nat) : Prop :=
  forall state after w, Running buffer_sz thread_num state ->
    next thread_num state (.parse w) = some after -> HoldsOwnLine state w

end WebServer
end OsProjects
