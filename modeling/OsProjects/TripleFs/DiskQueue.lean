import OsProjects.TripleFs.SharedCache

namespace OsProjects
namespace TripleFs
namespace SharedCache

open Machine

/-!
# The queue of the disk driver

`iderw` appends a buffer to the queue and `ideintr` takes the first one out, whoever runs in
between.  So a request is served once, after those that were made before it, and it takes
as many interrupts as there are requests in front of it, and one more.  Whoever sleeps waits
for the disk, which is at work, or for a buffer that another call or process has.
-/

/-- The interrupts of a step. -/
def ticks : Event -> Nat
  | .interrupt _ => 1
  | _ => 0

theorem ticks_cases (event : Event) : ticks event = 0 ∨ ticks event = 1 := by
  cases event with
  | interrupt _ => exact Or.inr rfl
  | _ => exact Or.inl rfl

/-- The interrupts of a run. -/
def interrupts (events : List Event) : Nat := (events.map ticks).sum

section Steps

variable {s after : State} {event : Event} {who : Nat} {b : Slot} {reads : Bool}

/-- What an operation does to the queue: it appends some requests. -/
structure Asks (s after : State) (more : List Slot) : Prop where
  requests : after.requests = s.requests ++ more
  served : after.served = s.served
  idequeue : after.idequeue = s.idequeue ++ more

theorem Asks.nothing {s after : State} (requests : after.requests = s.requests)
    (served : after.served = s.served) (idequeue : after.idequeue = s.idequeue) : Asks s after [] :=
  ⟨requests.trans (List.append_nil _).symm, served, idequeue.trans (List.append_nil _).symm⟩

theorem asks_bget {dev sector : Nat} : Asks s (s.bget who dev sector) [] := by
  rw [State.bget]
  split
  · split <;> exact .nothing rfl rfl rfl
  · split <;> exact .nothing rfl rfl rfl

theorem asks_await : Asks s (s.await who b reads) [] := by
  rw [State.await]
  split
  · split <;> exact .nothing rfl rfl rfl
  · exact .nothing rfl rfl rfl

theorem asks_iderw : Exists fun more => Asks s (s.iderw who b reads) more := by
  rw [State.iderw]
  split
  next => exact ⟨[], .nothing rfl rfl rfl⟩
  next =>
  split
  next => exact ⟨[], .nothing rfl rfl rfl⟩
  next =>
  split
  next => exact ⟨[], .nothing rfl rfl rfl⟩
  next =>
    have waits : Asks (s.append b) ((s.append b).await who b reads) [] := asks_await
    refine ⟨[b], ?_, ?_, ?_⟩
    · rw [waits.requests, State.append_eq, List.append_nil]
    · rw [waits.served, State.append_eq]
    · rw [waits.idequeue, State.append_eq, List.append_nil]

theorem asks_check : Exists fun more => Asks s (s.check who b) more := by
  rw [State.check]
  split
  · exact asks_iderw
  · exact ⟨[], .nothing rfl rfl rfl⟩

theorem asks_bwrite : Exists fun more => Asks s (s.bwrite who b) more := by
  rw [State.bwrite]
  split
  · exact ⟨[], .nothing rfl rfl rfl⟩
  · rcases @asks_iderw (s.store b { s.buf b with dirty := true }) who b false with ⟨more, asks⟩
    exact ⟨more, asks.requests, asks.served, asks.idequeue⟩

theorem asks_brelse : Asks s (s.brelse b) [] := by
  rw [State.brelse]
  split <;> exact .nothing rfl rfl rfl

/-- What a step does to the queue. -/
structure Turns (s after : State) (ticks : Nat) (more : List Slot) : Prop where
  requests : after.requests = s.requests ++ more
  served : after.served = s.served ++ s.idequeue.take ticks
  idequeue : after.idequeue = s.idequeue.drop ticks ++ more

theorem Asks.turns {more : List Slot} (asks : Asks s after more) : Turns s after 0 more :=
  ⟨asks.requests, asks.served.trans (List.append_nil _).symm, asks.idequeue⟩

theorem turns_interrupt (failed : Bool) : Turns s ((s.finish failed).ideintr failed) 1 [] := by
  rw [State.ideintr]
  split
  next queue =>
    have queue : s.idequeue = [] := queue
    refine ⟨(List.append_nil _).symm, ?_, ?_⟩
    · rw [queue]
      exact (List.append_nil _).symm
    · rw [queue]
      exact queue
  next b rest queue =>
    have queue : s.idequeue = b :: rest := queue
    rw [State.serve.eq_def]
    refine ⟨?_, ?_, ?_⟩
    · rw [List.append_nil]
      cases rest <;> rfl
    · rw [queue]
      cases rest <;> rfl
    · rw [queue, List.append_nil]
      cases rest <;> rfl

theorem next_turns (stepped : next s event = some after) :
    Exists fun more => Turns s after (ticks event) more := by
  rcases moves stepped with ⟨_, moves⟩
  cases moves with
  | bread _ => exact ⟨[], asks_bget.turns⟩
  | again _ => exact ⟨[], asks_bget.turns⟩
  | check _ => exact asks_check.imp (fun _ asks => asks.turns)
  | await _ => exact ⟨[], asks_await.turns⟩
  | patch _ _ => exact ⟨[], Asks.turns (.nothing rfl rfl rfl)⟩
  | bwrite _ _ => exact asks_bwrite.imp (fun _ asks => asks.turns)
  | brelse _ _ => exact ⟨[], asks_brelse.turns⟩
  | kill => exact ⟨[], Asks.turns (.nothing rfl rfl rfl)⟩
  | interrupt => exact ⟨[], turns_interrupt _⟩

theorem run_served {events : List Event} (ran : run next s events = some after) :
    s.served <+: after.served := by
  induction events generalizing s with
  | nil => exact Option.some.inj ran ▸ List.prefix_rfl
  | cons event events ih =>
      rcases run_cons_eq_some.mp ran with ⟨middle, stepped, rest⟩
      rcases next_turns stepped with ⟨more, turns⟩
      exact List.IsPrefix.trans ⟨_, turns.served.symm⟩ (ih rest)

end Steps

/-- From any state on, a request with fewer requests in front of it than interrupts come is
served, next after those, whatever the processes do. -/
theorem request_served_in_turn {s after : State} {front rest : List Slot} {b : Slot}
    {events : List Event} (queue : s.idequeue = front ++ b :: rest)
    (ran : run next s events = some after) (enough : front.length < interrupts events) :
    s.served ++ front ++ [b] <+: after.served := by
  induction events generalizing s front rest with
  | nil => exact absurd enough (Nat.not_lt_zero _)
  | cons event events ih =>
      rcases run_cons_eq_some.mp ran with ⟨middle, stepped, later⟩
      rcases next_turns stepped with ⟨more, turns⟩
      rw [interrupts, List.map_cons, List.sum_cons] at enough
      have served := turns.served
      have idequeue := turns.idequeue
      rw [queue] at served idequeue
      rcases ticks_cases event with none | one
      · rw [none] at served idequeue enough
        rw [List.take_zero, List.append_nil] at served
        rw [List.drop_zero, List.append_assoc, List.cons_append] at idequeue
        rw [← served]
        exact ih idequeue later (Nat.lt_of_lt_of_eq enough (Nat.zero_add _))
      rw [one] at served idequeue enough
      cases front with
      | nil =>
          rw [List.append_nil]
          exact List.IsPrefix.trans (served ▸ List.prefix_rfl) (run_served later)
      | cons first front =>
          rw [List.cons_append, List.drop_one, List.tail_cons, List.append_assoc,
            List.cons_append] at idequeue
          rw [List.length_cons, Nat.add_comm] at enough
          have remaining := ih idequeue later (Nat.lt_of_add_lt_add_left enough)
          rw [served, List.append_assoc, List.append_assoc] at remaining
          rw [List.append_assoc]
          exact remaining

/-- Two requests, and the interrupts for them. -/
theorem request_served_in_turn_second :
    Exists fun s => Exists fun after =>
      run next booted [.bread 0 1 5, .resume 0, .bread 1 1 6, .resume 1] = some s ∧
      run next s [.interrupt false, .interrupt false] = some after ∧
      s.served ++ [⟨0, by decide⟩] ++ [⟨1, by decide⟩] <+: after.served :=
  ⟨_, _, rfl, rfl, @request_served_in_turn _ _ [⟨0, by decide⟩] [] ⟨1, by decide⟩
    [.interrupt false, .interrupt false] rfl rfl (by decide)⟩

/-- In every run, the queue has the buffers whose calls of `iderw` are not done, each once, and
the controller works on the first one; what was asked for before is served.  A process that
sleeps waits for the disk, which is busy, or for the one buffer of its sector, which somebody
holds. -/
theorem sleepers_have_cause {s : State} (reached : Reachable next Boot Addressable s)
    (running : s.panicked = none) :
    s.requests = s.served ++ s.idequeue ∧ s.idequeue.Nodup ∧
    s.controller.command = s.idequeue.head?.map (fun b => (s.buf b).command) ∧
    (forall b,
      b ∈ s.idequeue ↔
        Exists fun who => Exists fun reads => Exists fun asleep =>
          s.standing who = .syncing b reads asleep ∧ ¬ (s.buf b).Synced) ∧
    (forall who b reads, s.standing who = .syncing b reads true ->
      b ∈ s.idequeue ∧ s.controller.command ≠ none) ∧
    forall who dev sector b, s.standing who = .getting dev sector (some b) ->
      (s.buf b).caches dev sector = true ∧ Exists fun other => s.holder b = some other := by
  have orderly := Orderly.reached (fun _ _ => id) reached running
  have queued : forall who b reads asleep, s.standing who = .syncing b reads asleep ->
      ¬ (s.buf b).Synced ∨ asleep = true -> b ∈ s.idequeue := by
    intro who b reads asleep syncs cause
    have fits := orderly.fits who
    rw [syncs] at fits
    by_contra outside
    have rest := fits.2
    rw [if_neg outside] at rest
    rcases cause with unsynced | sleeps
    · exact unsynced rest.2
    · exact Bool.false_ne_true (rest.1.symm.trans sleeps)
  refine ⟨orderly.inOrder, orderly.queuedOnce, orderly.working,
    fun b => ⟨fun inside => ?_, fun ⟨who, reads, asleep, syncs, unsynced⟩ =>
    queued who b reads asleep syncs (Or.inl unsynced)⟩, fun who b reads syncs => ?_,
      fun who dev sector b waits => ?_⟩
  · rcases orderly.queued b inside with ⟨who, reads, asleep, syncs⟩
    have fits := orderly.fits who
    rw [syncs] at fits
    have rest := fits.2
    rw [if_pos inside] at rest
    exact ⟨who, reads, asleep, syncs, rest.1⟩
  · have inside := queued who b reads true syncs (Or.inr rfl)
    refine ⟨inside, ?_⟩
    rw [orderly.working]
    cases queue : s.idequeue with
    | nil =>
        rw [queue] at inside
        exact absurd inside List.not_mem_nil
    | cons first rest => exact Option.some_ne_none _
  · have fits := orderly.fits who
    rw [waits] at fits
    have busy := fits.2 b rfl
    rw [orderly.held, Option.isSome_iff_exists] at busy
    exact ⟨busy.2, busy.1⟩

theorem sleepers_have_cause_meeting :
    Exists fun s =>
      run next booted meeting = some s ∧ s.panicked = none ∧
      forall who b reads, s.standing who = .syncing b reads true ->
        b ∈ s.idequeue ∧ s.controller.command ≠ none :=
  ⟨_, rfl, rfl, (sleepers_have_cause (@Reachable.run_allowed _ _ next Boot Addressable booted _
    (.start booted_boot) meeting rfl meeting_addressable) rfl).2.2.2.2.1⟩

end SharedCache
end TripleFs
end OsProjects
