import OsProjects.WebServer.Threads

namespace OsProjects
namespace WebServer

/-!
# When a recycled line buffer is still in use

The main thread overwrites the lines of `fileinfo_buffer` in arrival order.
An entry needs its line until a worker has parsed it, and entries leave the
queue in the order of their file sizes, not in arrival order.

With one slot and one worker at most three lines are in use, and they are the
three most recent ones: the line being read, the queued one and the one that is
handled.  This is what `buffer_sz + 2` lines suffice for.  A second worker, or
a second slot, lets one entry wait while any number of later requests pass it,
and then the main thread comes round to its line.
-/

open Server

namespace MainAt

/-- The connection the main thread is working on. -/
def descriptor : MainAt -> Option Int
  | .readline connfd => some connfd
  | .produce connfd _ _ => some connfd
  | _ => none

end MainAt

namespace WorkerAt

/-- The connection a worker is answering. -/
def descriptor : WorkerAt -> Option Int
  | .consume => none
  | .handle fd _ => some fd
  | .close fd => some fd

end WorkerAt

/-! ## One slot and one worker -/

/-- The connection in the only slot. -/
def queued (server : Server) : Option Int :=
  if server.valid 0 = 1 then some (server.buffer 0) else none

/-- The line that was put last.  Between `put` and the increment it is `i`
itself; otherwise `i` has moved one ahead. -/
def lastLine (state : State) : Nat :=
  if state.main = .advance then state.i else (state.i + 2) % 3

/-- The line that the worker must be holding: the last one, or the one before
it when the last one is still queued. -/
def heldLine (state : State) : Nat :=
  if state.server.valid 0 = 1 then (lastLine state + 2) % 3 else lastLine state

structure OneEach (state : State) : Prop where
  size : state.server.buffer_sz = 1
  index : state.i < 3
  count : (state.server.buff_count = 1 ∧ state.server.valid 0 = 1) ∨
    (state.server.buff_count = 0 ∧ state.server.valid 0 = 0)
  idle : forall w, 0 < w -> state.worker w = .consume
  queuedLine : forall fd, queued state.server = some fd ->
    state.server.fileinfo 0 = lastLine state ∧
      state.fileinfo_buffer (lastLine state) = state.received fd
  handledLine : forall fd ptr, state.worker 0 = .handle fd ptr ->
    ptr = heldLine state ∧ state.fileinfo_buffer ptr = state.received fd
  readLine : forall fd file_sz filename_sz, state.main = .produce fd file_sz filename_sz ->
    state.fileinfo_buffer state.i = state.received fd
  mainOpen : forall fd, state.main.descriptor = some fd -> state.opened fd = true
  queueOpen : forall fd, queued state.server = some fd -> state.opened fd = true
  workerOpen : forall fd, (state.worker 0).descriptor = some fd -> state.opened fd = true
  mainQueue : forall fd, state.main.descriptor = some fd -> queued state.server ≠ some fd
  mainWorker : forall fd, state.main.descriptor = some fd -> (state.worker 0).descriptor ≠ some fd
  queueWorker : forall fd, queued state.server = some fd -> (state.worker 0).descriptor ≠ some fd

theorem OneEach.of_started {state : State} (started : Started 1 state) : OneEach state := by
  have empty : state.server.valid 0 = 0 := started.empty 0 Nat.one_pos
  have nothingQueued : queued state.server = none := by
    unfold queued
    rw [if_neg (by rw [empty]; decide)]
  refine ⟨started.size, by rw [started.first]; decide, Or.inr ⟨started.count, empty⟩,
    fun w _ => started.waiting w, ?_, ?_, ?_, ?_, ?_, ?_, ?_, ?_, ?_⟩
  all_goals simp [nothingQueued, started.waiting, started.accepting, MainAt.descriptor,
    WorkerAt.descriptor]

/-- Accepting a connection adds an open descriptor that nothing else uses. -/
theorem OneEach.accept {state after : State} {connfd : Int} (inv : OneEach state)
    (stepped : mainNext state (.accept connfd) = some after) : OneEach after := by
  simp only [mainNext] at stepped
  split at stepped
  · rename_i enabled
    rcases enabled with ⟨accepting, closed⟩
    have sameLast : lastLine { state with
        main := .readline connfd
        opened := Function.update state.opened connfd true } = lastLine state := by
      simp [lastLine, accepting]
    cases stepped
    have fresh : forall fd, state.opened fd = true -> fd ≠ connfd := by
      intro fd isOpen same
      rw [same, closed] at isOpen
      cases isOpen
    have stillOpen : forall fd, state.opened fd = true ->
        Function.update state.opened connfd true fd = true := by
      intro fd isOpen
      rw [Function.update_of_ne (fresh fd isOpen)]
      exact isOpen
    refine ⟨inv.size, inv.index, inv.count, inv.idle, ?_, ?_, ?_, ?_, ?_, ?_, ?_, ?_,
      inv.queueWorker⟩
    · intro fd isQueued
      rw [sameLast]
      exact inv.queuedLine fd isQueued
    · intro fd ptr handled
      have old := inv.handledLine fd ptr handled
      exact ⟨by simpa only [heldLine, sameLast] using old.1, old.2⟩
    · intro fd file_sz filename_sz impossible
      cases impossible
    · intro fd current
      cases current
      exact Function.update_self connfd true state.opened
    · exact fun fd isQueued => stillOpen fd (inv.queueOpen fd isQueued)
    · exact fun fd handled => stillOpen fd (inv.workerOpen fd handled)
    · intro fd current isQueued
      cases current
      exact fresh connfd (inv.queueOpen connfd isQueued) rfl
    · intro fd current handled
      cases current
      exact fresh connfd (inv.workerOpen connfd handled) rfl
  · cases stepped

/-- Three consecutive lines of a ring of three are different. -/
theorem ring_distinct (i : Nat) :
    (i + 2) % 3 ≠ i ∧ ((i + 2) % 3 + 2) % 3 ≠ i := by
  omega

/-- Reading a line overwrites the oldest of the three, which is not in use. -/
theorem OneEach.readline {state after : State} {line : String} {file_sz filename_sz : Int}
    (inv : OneEach state)
    (stepped : mainNext state (.readline line file_sz filename_sz) = some after) :
    OneEach after := by
  simp only [mainNext] at stepped
  split at stepped
  · rename_i connfd reading
    have last : lastLine state = (state.i + 2) % 3 := by simp [lastLine, reading]
    have current : state.main.descriptor = some connfd := by rw [reading]; rfl
    have ring := ring_distinct state.i
    cases stepped
    have sameLast : forall buffers received, lastLine { state with
        main := .produce connfd file_sz filename_sz
        fileinfo_buffer := buffers
        received := received } = lastLine state := by
      intro buffers received
      simp [lastLine, reading]
    refine ⟨inv.size, inv.index, inv.count, inv.idle, ?_, ?_, ?_, ?_, inv.queueOpen,
      inv.workerOpen, ?_, ?_, inv.queueWorker⟩
    · intro fd isQueued
      rw [sameLast]
      have other : fd ≠ connfd := by
        intro same
        exact inv.mainQueue connfd current (same ▸ isQueued)
      have old := inv.queuedLine fd isQueued
      refine ⟨old.1, ?_⟩
      show Function.update state.fileinfo_buffer state.i line (lastLine state) =
        Function.update state.received connfd line fd
      rw [Function.update_of_ne (by rw [last]; exact ring.1), Function.update_of_ne other]
      exact old.2
    · intro fd ptr handled
      have old := inv.handledLine fd ptr handled
      have other : fd ≠ connfd := by
        intro same
        apply inv.mainWorker connfd current
        show (state.worker 0).descriptor = some connfd
        rw [show state.worker 0 = .handle fd ptr from handled, same]
        rfl
      have elsewhere : ptr ≠ state.i := by
        rw [old.1, heldLine, last]
        split
        · exact ring.2
        · exact ring.1
      refine ⟨by simpa only [heldLine, sameLast] using old.1, ?_⟩
      show Function.update state.fileinfo_buffer state.i line ptr =
        Function.update state.received connfd line fd
      rw [Function.update_of_ne elsewhere, Function.update_of_ne other]
      exact old.2
    · intro fd size nameSize producing
      cases producing
      show Function.update state.fileinfo_buffer state.i line state.i =
        Function.update state.received connfd line connfd
      rw [Function.update_self, Function.update_self]
    · intro fd now
      cases now
      exact inv.mainOpen connfd current
    · intro fd now
      cases now
      exact inv.mainQueue connfd current
    · intro fd now
      cases now
      exact inv.mainWorker connfd current
  · cases stepped

/-- Filling the only slot of an empty queue. -/
theorem queued_filled (server : Server) (value : Int) (buff : Nat) (file_sz filename_sz : Int) :
    queued (server.filled 0 value buff file_sz filename_sz) = some value := by
  simp [queued, filled]

/-- The main thread puts its line only into an empty slot, so the line that was
last before is the one a worker may still be holding. -/
theorem OneEach.produce {state after : State} (inv : OneEach state)
    (stepped : mainNext state .produce = some after) : OneEach after := by
  simp only [mainNext] at stepped
  split at stepped
  · rename_i connfd file_sz filename_sz producing
    split at stepped
    · cases stepped
    · rename_i notFull
      have current : state.main.descriptor = some connfd := by rw [producing]; rfl
      have empty : state.server.buff_count = 0 ∧ state.server.valid 0 = 0 := by
        rcases inv.count with full | empty
        · rw [inv.size] at notFull
          exact False.elim (notFull full.1)
        · exact empty
      have filledSlot : state.server.put connfd state.i file_sz filename_sz =
          state.server.filled 0 connfd state.i file_sz filename_sz :=
        state.server.put_of_first_free connfd state.i file_sz filename_sz empty.2
          (by rw [inv.size]; decide) (fun j below => absurd below (Nat.not_lt_zero j))
      rw [filledSlot] at stepped
      cases stepped
      have last : lastLine state = (state.i + 2) % 3 := by simp [lastLine, producing]
      have held : heldLine state = (state.i + 2) % 3 := by simp [heldLine, empty.2, last]
      refine ⟨inv.size, inv.index, Or.inl ⟨?_, ?_⟩, inv.idle, ?_, ?_, ?_, ?_, ?_,
        inv.workerOpen, ?_, ?_, ?_⟩
      · show state.server.buff_count + 1 = 1
        rw [empty.1]
        rfl
      · show Function.update state.server.valid 0 1 0 = 1
        exact Function.update_self 0 1 state.server.valid
      · intro fd isQueued
        rw [queued_filled] at isQueued
        cases isQueued
        refine ⟨?_, ?_⟩
        · show Function.update state.server.fileinfo 0 state.i 0 = _
          rw [Function.update_self, lastLine, if_pos rfl]
        · rw [lastLine, if_pos rfl]
          exact inv.readLine connfd file_sz filename_sz producing
      · intro fd ptr handled
        have old := inv.handledLine fd ptr handled
        refine ⟨?_, old.2⟩
        rw [old.1, held]
        simp [heldLine, lastLine, filled]
      · intro fd size nameSize impossible
        cases impossible
      · intro fd impossible
        cases impossible
      · intro fd isQueued
        rw [queued_filled] at isQueued
        cases isQueued
        exact inv.mainOpen connfd current
      · intro fd impossible
        cases impossible
      · intro fd impossible
        cases impossible
      · intro fd isQueued
        rw [queued_filled] at isQueued
        cases isQueued
        exact inv.mainWorker connfd current
  · cases stepped

/-- Advancing the index renames the last line, and nothing else changes. -/
theorem OneEach.advance {state after : State} (inv : OneEach state)
    (stepped : mainNext state .advance = some after) : OneEach after := by
  simp only [mainNext] at stepped
  split at stepped
  · rename_i advancing
    cases stepped
    have bound := inv.index
    have last : lastLine state = state.i := by simp [lastLine, advancing]
    have ring : filebuffer_size state.server = 3 := by rw [filebuffer_size, inv.size]
    have sameLast : lastLine { state with
        main := .accept, i := (state.i + 1) % filebuffer_size state.server } = lastLine state := by
      rw [last, ring]
      simp only [lastLine, if_neg (show MainAt.accept ≠ MainAt.advance by decide)]
      omega
    refine ⟨inv.size, ?_, inv.count, inv.idle, ?_, ?_, ?_, ?_, inv.queueOpen, inv.workerOpen,
      ?_, ?_, inv.queueWorker⟩
    · show (state.i + 1) % filebuffer_size state.server < 3
      rw [ring]
      exact Nat.mod_lt _ (by decide)
    · intro fd isQueued
      rw [sameLast]
      exact inv.queuedLine fd isQueued
    · intro fd ptr handled
      have old := inv.handledLine fd ptr handled
      exact ⟨by simpa only [heldLine, sameLast] using old.1, old.2⟩
    all_goals
      intros
      simp_all [MainAt.descriptor]
  · cases stepped

/-- The worker takes the queued entry together with its line, which becomes the
line that it holds. -/
theorem OneEach.consume {state after : State} {w : Nat} (inv : OneEach state)
    (stepped : workerNext 1 state w (.consume w) = some after) : OneEach after := by
  simp only [workerNext] at stepped
  split at stepped
  · rename_i enabled
    rcases enabled with ⟨isWorker, waiting, notEmpty⟩
    have only : w = 0 := by omega
    subst w
    have full : state.server.buff_count = 1 ∧ state.server.valid 0 = 1 := by
      rcases inv.count with full | empty
      · exact full
      · exact False.elim (notEmpty empty.1)
    have slot : state.server.chosen = 0 :=
      state.server.chosen_of_single (by rw [inv.size]; decide) full.2 (by
        intro j below different
        rw [inv.size] at below
        omega)
    have isQueued : queued state.server = some (state.server.buffer 0) := by
      rw [queued, if_pos full.2]
    have entry := inv.queuedLine _ isQueued
    have emptied : queued { state.server with
        valid := Function.update state.server.valid 0 0
        buff_count := state.server.buff_count - 1 } = none := by
      simp [queued]
    cases stepped
    simp only [Server.get, slot]
    refine ⟨inv.size, inv.index, Or.inr ⟨?_, ?_⟩, ?_, ?_, ?_, inv.readLine, inv.mainOpen, ?_,
      ?_, ?_, ?_, ?_⟩
    · show state.server.buff_count - 1 = 0
      rw [full.1]
      rfl
    · exact Function.update_self 0 0 state.server.valid
    · intro other positive
      show Function.update state.worker 0 _ other = WorkerAt.consume
      rw [Function.update_of_ne (by omega)]
      exact inv.idle other positive
    · intro fd now
      rw [emptied] at now
      cases now
    · intro fd ptr handled
      simp only [Function.update_self] at handled
      cases handled
      refine ⟨?_, ?_⟩
      · simp only [heldLine, Function.update_self]
        exact entry.1
      · rw [entry.1]
        exact entry.2
    · intro fd now
      rw [emptied] at now
      cases now
    · intro fd handled
      simp only [Function.update_self] at handled
      cases handled
      exact inv.queueOpen _ isQueued
    · intro fd current now
      rw [emptied] at now
      cases now
    · intro fd current handled
      simp only [Function.update_self] at handled
      cases handled
      exact inv.mainQueue _ current isQueued
    · intro fd now
      rw [emptied] at now
      cases now
  · cases stepped

/-- Parsing keeps the connection, and closing it gives the descriptor back. -/
theorem OneEach.parse {state after : State} {w : Nat} (inv : OneEach state)
    (stepped : workerNext 1 state w (.parse w) = some after) : OneEach after := by
  simp only [workerNext] at stepped
  split at stepped
  · rename_i fd ptr handled
    have only : w = 0 := by
      by_contra other
      rw [inv.idle w (Nat.pos_of_ne_zero other)] at handled
      cases handled
    subst w
    cases stepped
    have sameDescriptor : (WorkerAt.close fd).descriptor = (state.worker 0).descriptor := by
      rw [handled]
      rfl
    refine ⟨inv.size, inv.index, inv.count, ?_, inv.queuedLine, ?_, inv.readLine, inv.mainOpen,
      inv.queueOpen, ?_, inv.mainQueue, ?_, ?_⟩
    · intro other positive
      show Function.update state.worker 0 _ other = WorkerAt.consume
      rw [Function.update_of_ne (by omega)]
      exact inv.idle other positive
    · intro other otherPtr now
      simp only [Function.update_self] at now
      cases now
    · simpa only [Function.update_self, sameDescriptor] using inv.workerOpen
    · simpa only [Function.update_self, sameDescriptor] using inv.mainWorker
    · simpa only [Function.update_self, sameDescriptor] using inv.queueWorker
  · cases stepped

theorem OneEach.close {state after : State} {w : Nat} (inv : OneEach state)
    (stepped : workerNext 1 state w (.close w) = some after) : OneEach after := by
  simp only [workerNext] at stepped
  split at stepped
  · rename_i fd closing
    have only : w = 0 := by
      by_contra other
      rw [inv.idle w (Nat.pos_of_ne_zero other)] at closing
      cases closing
    subst w
    have mine : (state.worker 0).descriptor = some fd := by rw [closing]; rfl
    cases stepped
    have stillOpen : forall other, other ≠ fd -> state.opened other = true ->
        Function.update state.opened fd false other = true := by
      intro other different isOpen
      rw [Function.update_of_ne different]
      exact isOpen
    refine ⟨inv.size, inv.index, inv.count, ?_, inv.queuedLine, ?_, inv.readLine, ?_, ?_, ?_,
      inv.mainQueue, ?_, ?_⟩
    · intro other positive
      show Function.update state.worker 0 _ other = WorkerAt.consume
      rw [Function.update_of_ne (by omega)]
      exact inv.idle other positive
    · intro other otherPtr now
      simp only [Function.update_self] at now
      cases now
    · intro other current
      exact stillOpen other (fun same => inv.mainWorker other current (same ▸ mine))
        (inv.mainOpen other current)
    · intro other now
      exact stillOpen other (fun same => inv.queueWorker other now (same ▸ mine))
        (inv.queueOpen other now)
    all_goals
      intros
      simp_all [WorkerAt.descriptor]
  · cases stepped

theorem OneEach.next {state after : State} {event : Event} (inv : OneEach state)
    (stepped : WebServer.next 1 state event = some after) : OneEach after := by
  cases event with
  | accept connfd => exact inv.accept stepped
  | readline line file_sz filename_sz => exact inv.readline stepped
  | produce => exact inv.produce stepped
  | advance => exact inv.advance stepped
  | consume w => exact inv.consume stepped
  | parse w => exact inv.parse stepped
  | close w => exact inv.close stepped

/-- With one slot and one worker, every interleaving serves each client its own
request. -/
theorem parsesOwnLines_one_each : ParsesOwnLines 1 1 := by
  intro state after w running stepped
  have inv : OneEach state := running.invariant
    (fun _ started => OneEach.of_started started)
    (fun _ _ _ before _ moved => before.next moved)
  unfold HoldsOwnLine
  split
  · rename_i fd ptr handled
    have only : w = 0 := by
      by_contra other
      rw [inv.idle w (Nat.pos_of_ne_zero other)] at handled
      cases handled
    subst w
    exact (inv.handledLine fd ptr handled).2
  · trivial

/-! ## A second worker, or a second slot -/

/-- More workers allow every step that fewer workers allow. -/
theorem next_more_workers {few many : Nat} (le : few ≤ many) {state after : State} {event : Event}
    (stepped : next few state event = some after) : next many state event = some after := by
  cases event with
  | consume w =>
      simp only [next, workerNext] at stepped ⊢
      split at stepped
      · rename_i enabled
        rw [if_pos ⟨Nat.lt_of_lt_of_le enabled.1 le, enabled.2⟩]
        exact stepped
      · cases stepped
  | accept connfd => exact stepped
  | readline line file_sz filename_sz => exact stepped
  | produce => exact stepped
  | advance => exact stepped
  | parse w => exact stepped
  | close w => exact stepped

theorem Running.more_workers {buffer_sz few many : Nat} (le : few ≤ many) {state : State}
    (running : Running buffer_sz few state) : Running buffer_sz many state := by
  induction running with
  | start started => exact .start started
  | step _ _ stepped ih => exact .step ih trivial (next_more_workers le stepped)

/-- A server that has just started, with its uninitialised memory cleared. -/
def fresh (buffer_sz : Nat) : State where
  server :=
    { buff_count := 0, buffer_sz := buffer_sz, buffer := fun _ => 0, valid := fun _ => 0
      fileinfo := fun _ => 0, size_file := fun _ => 0, size_filename := fun _ => 0 }
  fileinfo_buffer := fun _ => ""
  i := 0
  main := .accept
  worker := fun _ => .consume
  opened := fun _ => false
  received := fun _ => ""

theorem fresh_started (buffer_sz : Nat) : Started buffer_sz (fresh buffer_sz) :=
  ⟨rfl, rfl, fun _ _ => rfl, rfl, rfl, fun _ => rfl⟩

/-- One whole request on descriptor 1: read, put, taken and answered by worker `w`. -/
def request (w : Nat) : List Event :=
  [.accept 1, .readline "GET /b" 0 6, .produce, .advance, .consume w, .parse w, .close w]

/-- A worker that stops between `get` and `requestHandle` loses its line when
the second worker has answered two more clients. -/
theorem not_parsesOwnLines_two_workers : ¬ ParsesOwnLines 1 2 := by
  intro parses
  have overtaken : Exists fun state =>
      Machine.run (next 2) (fresh 1)
        ([.accept 0, .readline "GET /a" 0 6, .produce, .advance, .consume 0] ++ request 1 ++
          request 1 ++ [.accept 1, .readline "GET /b" 0 6]) = some state ∧
      state.worker 0 = .handle 0 0 ∧ state.fileinfo_buffer 0 = "GET /b" ∧
      state.received 0 = "GET /a" :=
    ⟨_, rfl, rfl, rfl, rfl⟩
  rcases overtaken with ⟨state, ran, holding, line, received⟩
  have running : Running 1 2 state := (Machine.Reachable.start (fresh_started 1)).run ran
  have stepped : next 2 state (.parse 0) =
      some { state with worker := Function.update state.worker 0 (.close 0) } := by
    simp only [next, workerNext, holding]
  have own := parses state _ 0 running stepped
  simp only [HoldsOwnLine, holding, line, received] at own
  exact absurd own (by decide)

/-- A large file in the first slot loses to a small one in the second. -/
theorem chosen_second (server : Server) (two : 2 ≤ server.buffer_sz)
    (firstValid : server.valid 0 = 1) (secondValid : server.valid 1 = 1)
    (large : server.size_file 0 = 1) (small : server.size_file 1 = 0)
    (rest : forall j, 2 ≤ j -> j < server.buffer_sz -> server.valid j ≠ 1) :
    server.chosen = 1 := by
  obtain ⟨more, size⟩ : Exists fun more => server.buffer_sz = more + 2 :=
    ⟨server.buffer_sz - 2, by omega⟩
  have skipped := server.getFrom_skip more 2 0 1
    (fun j lower upper => rest j lower (by omega))
  unfold chosen
  rw [size]
  simp only [getFrom, firstValid, secondValid, large, small, if_true]
  exact skipped

/-- An entry with a large file waits in the first slot of an otherwise idle
server, and the main thread is about to use line `line`. -/
structure Waiting (buffer_sz line : Nat) (state : State) : Prop where
  size : state.server.buffer_sz = buffer_sz
  count : state.server.buff_count = 1
  firstValid : state.server.valid 0 = 1
  descriptor : state.server.buffer 0 = 0
  pointer : state.server.fileinfo 0 = 0
  large : state.server.size_file 0 = 1
  rest : forall j, 0 < j -> state.server.valid j = 0
  index : state.i = line
  accepting : state.main = .accept
  idle : state.worker 0 = .consume
  closed : state.opened 1 = false
  own : state.fileinfo_buffer 0 = "GET /a"
  received : state.received 0 = "GET /a"

/-- The queue while a second, smaller request is in it. -/
def Waiting.crowded (state : State) : Server :=
  state.server.filled 1 1 state.i 0 6

/-- The state after a smaller request has overtaken the waiting one. -/
def Waiting.overtaken (state : State) : State :=
  { state with
    server := (Waiting.crowded state).get.2
    fileinfo_buffer := Function.update state.fileinfo_buffer state.i "GET /b"
    i := (state.i + 1) % filebuffer_size state.server
    worker := Function.update (Function.update (Function.update state.worker 0
      (.handle 1 state.i)) 0 (.close 1)) 0 .consume
    opened := Function.update (Function.update state.opened 1 true) 1 false
    received := Function.update state.received 1 "GET /b" }

theorem Waiting.crowded_chosen {buffer_sz line : Nat} {state : State}
    (waiting : Waiting buffer_sz line state) (two : 2 ≤ buffer_sz) :
    (Waiting.crowded state).chosen = 1 := by
  have others : forall j, 2 ≤ j -> (Waiting.crowded state).valid j = 0 := by
    intro j lower
    show Function.update state.server.valid 1 1 j = 0
    rw [Function.update_of_ne (by omega)]
    exact waiting.rest j (by omega)
  refine chosen_second (Waiting.crowded state) ?_ ?_ ?_ ?_ ?_ ?_
  · exact waiting.size ▸ two
  · simp [Waiting.crowded, filled, waiting.firstValid]
  · simp [Waiting.crowded, filled]
  · simp [Waiting.crowded, filled, waiting.large]
  · simp [Waiting.crowded, filled]
  · intro j lower _
    rw [others j lower]
    decide

/-- The whole request runs from a waiting state. -/
theorem Waiting.request_runs {buffer_sz line : Nat} {state : State}
    (waiting : Waiting buffer_sz line state) (two : 2 ≤ buffer_sz) :
    Machine.run (next 1) state (request 0) = some (Waiting.overtaken state) := by
  have room : ¬ state.server.buff_count = (state.server.buffer_sz : Int) := by
    rw [waiting.count, waiting.size]
    omega
  have filledSecond : state.server.put 1 state.i 0 6 = Waiting.crowded state :=
    state.server.put_of_first_free 1 state.i 0 6 (waiting.rest 1 Nat.one_pos)
      (by rw [waiting.size]; omega) (by
        intro j below
        have zero : j = 0 := by omega
        rw [zero, waiting.firstValid]
        decide)
  have two_queued : (Waiting.crowded state).buff_count ≠ 0 := by
    simp [Waiting.crowded, filled, waiting.count]
  have taken : (Waiting.crowded state).get.1 = (1, state.i) := by
    simp only [Server.get, waiting.crowded_chosen two]
    simp [Waiting.crowded, filled]
  have sameSize : filebuffer_size (Waiting.crowded state) = filebuffer_size state.server := rfl
  simp only [request, Machine.run, next, mainNext, workerNext, waiting.accepting, waiting.closed,
    waiting.idle, and_self, if_true, Option.bind_some, room, if_false, filledSecond,
    two_queued, ne_eq, not_false_eq_true, Nat.one_pos, taken, Function.update_self,
    Waiting.overtaken, sameSize]

/-- The request that overtook leaves the waiting entry as it was. -/
theorem Waiting.overtake {buffer_sz line : Nat} {state : State}
    (waiting : Waiting buffer_sz line state) (two : 2 ≤ buffer_sz) (notFirst : 0 < line) :
    Waiting buffer_sz ((line + 1) % (buffer_sz + 2)) (Waiting.overtaken state) := by
  have slot := waiting.crowded_chosen two
  refine ⟨waiting.size, ?_, ?_, ?_, ?_, ?_, ?_, ?_, waiting.accepting, ?_, ?_, ?_, ?_⟩
  · simp [Waiting.overtaken, Server.get, Waiting.crowded, filled, waiting.count]
  · simp only [Waiting.overtaken, Server.get, slot]
    simp [Waiting.crowded, filled, waiting.firstValid]
  · simp [Waiting.overtaken, Server.get, Waiting.crowded, filled, waiting.descriptor]
  · simp [Waiting.overtaken, Server.get, Waiting.crowded, filled, waiting.pointer]
  · simp [Waiting.overtaken, Server.get, Waiting.crowded, filled, waiting.large]
  · intro j positive
    by_cases second : j = 1
    · subst j
      simp [Waiting.overtaken, Server.get, slot]
    · simp only [Waiting.overtaken, Server.get, slot]
      simp [Waiting.crowded, filled, second, waiting.rest j positive]
  · simp [Waiting.overtaken, filebuffer_size, waiting.index, waiting.size]
  · simp [Waiting.overtaken]
  · simp [Waiting.overtaken]
  · have elsewhere : 0 ≠ state.i := by rw [waiting.index]; omega
    simp [Waiting.overtaken, elsewhere, waiting.own]
  · simp [Waiting.overtaken, waiting.received]

/-- Any number of requests can overtake, as long as the main thread has not
come round to the line of the waiting entry. -/
theorem Waiting.overtake_many {buffer_sz : Nat} (two : 2 ≤ buffer_sz) (rounds : Nat)
    (within : rounds ≤ buffer_sz) :
    Exists fun state => Running buffer_sz 1 state ∧ Waiting buffer_sz (rounds + 1) state := by
  induction rounds with
  | zero =>
      have filledFirst : (fresh buffer_sz).server.put 0 0 1 6 =
          (fresh buffer_sz).server.filled 0 0 0 1 6 :=
        put_of_first_free _ 0 0 1 6 rfl (show 0 < buffer_sz by omega)
          (fun j below => absurd below (Nat.not_lt_zero j))
      have ran : Machine.run (next 1) (fresh buffer_sz)
          [.accept 0, .readline "GET /a" 1 6, .produce, .advance] = some
          { fresh buffer_sz with
            server := (fresh buffer_sz).server.filled 0 0 0 1 6
            fileinfo_buffer := Function.update (fresh buffer_sz).fileinfo_buffer 0 "GET /a"
            i := 1
            opened := Function.update (fresh buffer_sz).opened 0 true
            received := Function.update (fresh buffer_sz).received 0 "GET /a" } := by
        have room : ¬ (0 : Int) = (buffer_sz : Int) := by omega
        have wrap : (0 + 1) % (buffer_sz + 2) = 1 := Nat.mod_eq_of_lt (by omega)
        simp only [Machine.run, next, mainNext, fresh, and_self, if_true, Option.bind_some,
          room, if_false] at filledFirst ⊢
        simp only [filledFirst, filebuffer_size, filled, wrap]
      refine ⟨_, (Machine.Reachable.start (fresh_started buffer_sz)).run ran, ?_⟩
      refine ⟨rfl, rfl, rfl, rfl, rfl, rfl, ?_, rfl, rfl, rfl, rfl, rfl, rfl⟩
      intro j positive
      show Function.update (fresh buffer_sz).server.valid 0 1 j = 0
      rw [Function.update_of_ne (by omega)]
      rfl
  | succ rounds ih =>
      rcases ih (by omega) with ⟨state, running, waiting⟩
      have wrap : (rounds + 1 + 1) % (buffer_sz + 2) = rounds + 1 + 1 :=
        Nat.mod_eq_of_lt (by omega)
      exact ⟨_, running.run (waiting.request_runs two),
        wrap ▸ waiting.overtake two (Nat.succ_pos rounds)⟩

/-- With a second slot, requests for small files overtake one for a large file
until its line is overwritten, and the only worker then parses the wrong one. -/
theorem not_parsesOwnLines_two_slots {buffer_sz : Nat} (two : 2 ≤ buffer_sz) :
    ¬ ParsesOwnLines buffer_sz 1 := by
  intro parses
  rcases Waiting.overtake_many two buffer_sz (Nat.le_refl buffer_sz) with ⟨before, ran, almost⟩
  have waiting : Waiting buffer_sz 0 (Waiting.overtaken before) := by
    have round := almost.overtake two (Nat.succ_pos buffer_sz)
    rwa [show (buffer_sz + 1 + 1) % (buffer_sz + 2) = 0 from Nat.mod_self _] at round
  have running : Running buffer_sz 1 (Waiting.overtaken before) := ran.run (almost.request_runs two)
  generalize Waiting.overtaken before = state at waiting running
  have slot : state.server.chosen = 0 :=
    state.server.chosen_of_single (by rw [waiting.size]; omega) waiting.firstValid (by
      intro j _ different
      rw [waiting.rest j (Nat.pos_of_ne_zero different)]
      decide)
  have notEmpty : state.server.buff_count ≠ 0 := by rw [waiting.count]; decide
  have overwritten : Machine.run (next 1) state
      [.accept 1, .readline "GET /b" 0 6, .consume 0] = some
      { state with
        server := state.server.get.2
        fileinfo_buffer := Function.update state.fileinfo_buffer 0 "GET /b"
        main := .produce 1 0 6
        worker := Function.update state.worker 0 (.handle 0 0)
        opened := Function.update state.opened 1 true
        received := Function.update state.received 1 "GET /b" } := by
    have taken : state.server.get.1 = (0, 0) := by
      simp [Server.get, slot, waiting.descriptor, waiting.pointer]
    simp only [Machine.run, next, mainNext, workerNext, waiting.accepting, waiting.closed,
      waiting.index, waiting.idle, and_self, if_true, Option.bind_some, notEmpty, ne_eq,
      not_false_eq_true, Nat.one_pos, taken]
  have own := parses _ _ 0 (running.run overwritten) (by
    simp only [next, workerNext, Function.update_self]
    rfl)
  simp [HoldsOwnLine, waiting.received] at own

/-- The lines suffice for one slot and one worker and for no larger server: with
`buffer_sz` slots and `thread_num` workers, every client is answered with its own
request in every interleaving exactly when both numbers are one. -/
theorem parsesOwnLines_iff (buffer_sz thread_num : Nat) (slots : 1 ≤ buffer_sz)
    (workers : 1 ≤ thread_num) :
    ParsesOwnLines buffer_sz thread_num ↔ buffer_sz = 1 ∧ thread_num = 1 := by
  constructor
  · intro parses
    have fewer : forall few, few ≤ thread_num -> ParsesOwnLines buffer_sz few := by
      intro few le state after w running stepped
      exact parses state after w (Running.more_workers le running) (next_more_workers le stepped)
    have oneSlot : buffer_sz = 1 := by
      by_contra other
      exact not_parsesOwnLines_two_slots (by omega) (fewer 1 workers)
    refine ⟨oneSlot, ?_⟩
    by_contra other
    exact not_parsesOwnLines_two_workers (oneSlot ▸ fewer 2 (by omega))
  · rintro ⟨rfl, rfl⟩
    exact parsesOwnLines_one_each

theorem parsesOwnLines_iff_three_slots : ParsesOwnLines 1 1 ∧ ¬ ParsesOwnLines 3 2 :=
  ⟨(parsesOwnLines_iff 1 1 (by decide) (by decide)).mpr ⟨rfl, rfl⟩, fun own =>
    absurd ((parsesOwnLines_iff 3 2 (by decide) (by decide)).mp own).1 (by decide)⟩

/-- Two slots and one worker already serve a client another client's file. -/
theorem two_slots_serve_wrong_line : ¬ ParsesOwnLines 2 1 :=
  not_parsesOwnLines_two_slots (Nat.le_refl 2)

end WebServer
end OsProjects
