import OsProjects.Scheduler.Accounts

namespace OsProjects
namespace Scheduler

/-!
# Who sits in a slot

For the question who occupies a slot, the states in which a process waits to
run are all alike: whether it sleeps or is runnable is the business of the
wake-up code.  A seat is what is left: whether the slot is unused, waiting,
running or a zombie, together with its pid and its mark that it was killed.

Each step changes at most one seat, except that `kill` never moves anybody.
-/

/-- The states of a slot, up to waking and sleeping. -/
inductive Phase
  | unused | waiting | running | zombie
  deriving DecidableEq

def ProcState.phase : ProcState -> Phase
  | .unused => .unused
  | .embryo | .sleeping | .runnable => .waiting
  | .running => .running
  | .zombie => .zombie

structure Seat where
  phase : Phase
  pid : Int
  killed : Bool
  deriving DecidableEq

def Proc.seat (p : Proc) : Seat := ⟨p.state.phase, p.pid, p.killed⟩

theorem phase_eq_unused {state : ProcState} : state.phase = .unused ↔ state = .unused := by
  cases state <;> simp [ProcState.phase]

theorem phase_eq_running {state : ProcState} : state.phase = .running ↔ state = .running := by
  cases state <;> simp [ProcState.phase]

namespace Kernel

variable {k after : Kernel} {c i : Slot}

def seats (k : Kernel) (i : Slot) : Seat := (k.proc i).seat

theorem seats_congr (same : after.proc = k.proc) : after.seats = k.seats := by
  funext i
  rw [seats, same, seats]

theorem seats_set (change : Proc -> Proc) :
    (k.set i change).seats = Function.update k.seats i (change (k.proc i)).seat := by
  funext j
  by_cases here : j = i
  · rw [here, seats, proc_set_self, Function.update_self]
  · rw [seats, proc_set_of_ne change here, Function.update_of_ne here, seats]

theorem seats_set_same {change : Proc -> Proc}
    (keeps : (change (k.proc i)).seat = (k.proc i).seat) : (k.set i change).seats = k.seats := by
  rw [seats_set, keeps]
  exact Function.update_eq_self i k.seats

theorem seats_wakeup1 (chan : Option Nat) : (k.wakeup1 chan).seats = k.seats := by
  funext j
  simp only [seats, wakeup1]
  split
  · rename_i asleep
    simp only [Proc.seat, asleep.1, ProcState.phase]
  · rfl

theorem seats_adopt (k : Kernel) : (k.adopt c i).seats = k.seats := by
  have moved := @seats_set_same k i (fun p => { p with parent := some k.initproc }) rfl
  unfold adopt
  dsimp only
  split
  · split
    · exact (seats_wakeup1 _).trans moved
    · exact moved
  · rfl

theorem seats_sched : (k.sched c).seats = k.seats := by
  unfold sched
  cases k.resume c with
  | none => rfl
  | some d => exact @seats_set_same k c (charged (cost d (k.proc c))) rfl

theorem resume_sched : (k.sched c).resume = Function.update k.resume c none := by
  unfold sched
  cases started : k.resume c with
  | none =>
      dsimp only
      rw [← started, Function.update_eq_self]
  | some d => rfl

theorem seats_yield : (k.yield c).seats =
    Function.update k.seats c { k.seats c with phase := .waiting } := by
  rw [yield, seats_sched, seats_set]
  rfl

theorem seats_sleep (chan : Nat) : (k.sleep c chan).seats =
    Function.update k.seats c { k.seats c with phase := .waiting } := by
  rw [sleep, seats_sched, seats_set]
  rfl

theorem resume_yield : (k.yield c).resume = Function.update k.resume c none := resume_sched

theorem resume_sleep (chan : Nat) : (k.sleep c chan).resume = Function.update k.resume c none :=
  resume_sched

theorem seats_exit (ended : k.exit c = some after) :
    after.seats = Function.update k.seats c { k.seats c with phase := .zombie } := by
  unfold exit at ended
  split at ended
  · exact nomatch ended
  · rw [← Option.some.inj ended, seats_sched, seats_set]
    have passed : (slots.foldl (adopt c)
        (k.wakeup1 ((k.proc c).parent.map (fun parent => parent.val)))).seats = k.seats := by
      rw [foldl_adopt seats (fun k _ => seats_adopt k), seats_wakeup1]
    rw [passed, ← passed]
    rfl

theorem resume_exit (ended : k.exit c = some after) :
    after.resume = Function.update k.resume c none := by
  unfold exit at ended
  split at ended
  · exact nomatch ended
  · rw [← Option.some.inj ended, resume_sched]
    simp only [set]
    rw [foldl_adopt resume (fun k _ => resume_adopt k)]
    rfl

/-- What one scan of `wait` does: it empties the slot of a zombie child, returns
with nothing changed, or sleeps. -/
theorem wait_cases (k : Kernel) (c : Slot) :
    (Exists fun i => (k.seats i).phase = .zombie ∧ ¬ k.Sleeps c ∧
      (k.wait c).2.seats = Function.update k.seats i ⟨.unused, 0, false⟩ ∧
      (k.wait c).2.resume = k.resume) ∨
    (¬ k.Sleeps c ∧ (k.wait c).2 = k) ∨
    (k.Sleeps c ∧ (k.wait c).2 = k.sleep c c.val) := by
  unfold Sleeps wait
  cases found : slots.find? (fun i => (k.proc i).parent = some c ∧ (k.proc i).state = .zombie) with
  | some i =>
      left
      have zombie : (k.proc i).parent = some c ∧ (k.proc i).state = .zombie := by
        simpa using List.find?_some found
      dsimp only
      refine ⟨i, ?_, nofun, seats_set _, rfl⟩
      rw [seats, Proc.seat, zombie.2]
      rfl
  | none =>
      right
      dsimp only
      split
      · exact .inl ⟨nofun, rfl⟩
      · exact .inr ⟨rfl, rfl⟩

/-- The winner of a round was runnable. -/
theorem draw_runnable {seen : Survey} {rand : Int} {visited : List Slot} {numofrp ticket : Int}
    {won : Slot × Dispatch} (drawn : k.draw seen rand visited numofrp ticket = some won) :
    (k.proc won.1).state = .runnable := by
  induction visited generalizing numofrp ticket with
  | nil => exact nomatch drawn
  | cons i rest ih =>
      unfold draw at drawn
      dsimp only at drawn
      split at drawn
      · exact ih drawn
      · rename_i runnable
        have here := not_not.mp runnable
        split at drawn
        · split at drawn
          · rw [← Option.some.inj drawn]
            exact here
          · exact ih drawn
        · split at drawn
          · rw [← Option.some.inj drawn]
            exact here
          · exact ih drawn

theorem winner_waiting {won : Slot × Dispatch} (drawn : k.winner = some won) :
    (k.seats won.1).phase = .waiting := by
  rw [seats, Proc.seat, draw_runnable drawn]
  rfl

theorem seats_scheduler_of_winner {won : Slot × Dispatch} (drawn : k.winner = some won) :
    k.scheduler.seats = Function.update k.seats won.1 { k.seats won.1 with phase := .running } := by
  have table := @proc_scheduler k
  rw [drawn] at table
  refine (seats_congr table).trans (seats_set _)

theorem resume_scheduler_of_winner {won : Slot × Dispatch} (drawn : k.winner = some won) :
    k.scheduler.resume = Function.update k.resume won.1 (some won.2) := by
  simp only [scheduler, drawn]

theorem seats_scheduler_of_none (drawn : k.winner = none) : k.scheduler.seats = k.seats := by
  have table := @proc_scheduler k
  rw [drawn] at table
  exact seats_congr table

theorem resume_scheduler_of_none (drawn : k.winner = none) : k.scheduler.resume = k.resume := by
  simp only [scheduler, drawn]

theorem firstUnused_phase (free : k.firstUnused = some i) : (k.seats i).phase = .unused := by
  have unused : (k.proc i).state = .unused := by
    simpa using List.find?_some free
  rw [seats, Proc.seat, unused]
  rfl

theorem seats_fork_of_free (free : k.firstUnused = some i) : (k.fork c true true).2.seats =
    Function.update k.seats i ⟨.waiting, k.nextpid, (k.seats i).killed⟩ := by
  rw [fork_of_free free]
  exact @seats_set k i
    (fun p => { p with state := .runnable, pid := k.nextpid, parent := some c })

theorem seats_fork_of_failed (free : k.firstUnused = some i) {kstack pgdir : Bool}
    (failed : (kstack && pgdir) = false) : (k.fork c kstack pgdir).2.seats =
      Function.update k.seats i ⟨.unused, k.nextpid, (k.seats i).killed⟩ := by
  rw [fork_of_failed free failed]
  exact @seats_set k i (fun p => { p with state := .unused, pid := k.nextpid })

theorem resume_fork (kstack pgdir : Bool) : (k.fork c kstack pgdir).2.resume = k.resume := by
  cases free : k.firstUnused with
  | none => rw [fork_of_full free]
  | some np =>
      cases outcome : kstack && pgdir with
      | false => rw [fork_of_failed free outcome]; rfl
      | true =>
          rcases Bool.and_eq_true_iff.mp outcome with ⟨rfl, rfl⟩
          rw [fork_of_free free]
          rfl

/-- What `kill` does: it marks the first slot with the pid, whoever sits there. -/
theorem kill_cases (k : Kernel) (pid : Int) :
    (Exists fun i => (k.seats i).pid = pid ∧ (k.kill pid).1 = 0 ∧
      (k.kill pid).2.seats = Function.update k.seats i { k.seats i with killed := true }) ∨
    ((forall i, (k.seats i).pid ≠ pid) ∧ (k.kill pid).1 = -1 ∧ (k.kill pid).2 = k) := by
  unfold kill
  cases found : slots.find? (fun i => (k.proc i).pid = pid) with
  | some i =>
      left
      have named : (k.proc i).pid = pid := by simpa using List.find?_some found
      refine ⟨i, named, rfl, ?_⟩
      dsimp only
      rw [seats_set]
      congr 1
      simp only [seats, Proc.seat]
      split
      · rename_i asleep
        rw [asleep]
        rfl
      · rfl
  | none =>
      right
      refine ⟨fun i named => ?_, rfl, rfl⟩
      have skipped := List.find?_eq_none.mp found i (List.mem_finRange i)
      exact skipped (decide_eq_true named)

theorem resume_kill (pid : Int) : (k.kill pid).2.resume = k.resume := by
  unfold kill
  split <;> rfl

theorem seats_sysReserve (arg : Option Int) : (k.sysReserve c arg).2.seats = k.seats := by
  cases arg with
  | none => rfl
  | some n =>
      unfold sysReserve
      dsimp only
      split
      · rfl
      · split
        · rfl
        · exact @seats_set_same { k with totalpercent := int32 (n + k.totalpercent) } c
            (fun p => { p with spotbid := 0, rpercent := n }) rfl

theorem resume_sysReserve (arg : Option Int) : (k.sysReserve c arg).2.resume = k.resume := by
  cases arg with
  | none => rfl
  | some n =>
      unfold sysReserve
      dsimp only
      split
      · rfl
      · split <;> rfl

theorem seats_sysSpot (arg : Option Int) : (k.sysSpot c arg).2.seats = k.seats := by
  cases arg with
  | none => rfl
  | some n => exact @seats_set_same k c (fun p => { p with rpercent := 0, spotbid := n }) rfl

theorem resume_sysSpot (arg : Option Int) : (k.sysSpot c arg).2.resume = k.resume := by
  cases arg <;> rfl

end Kernel
end Scheduler
end OsProjects
