import OsProjects.Scheduler.History

namespace OsProjects
namespace Scheduler

open Machine Kernel

/-!
# Whom a kill hits

`kill` looks for a pid in all slots, used or not.  A slot that is unused still
has a pid: 0 when the machine has just started or after a `wait`, and the pid of
the process that was never born when a `fork` has run out of memory.  A `kill`
of such a pid succeeds and marks the empty slot, and since `allocproc` does not
clear the mark, the next process to move in there is killed at birth.
-/

/-- The mark of a kill is on nobody who has not been named. -/
structure Marked (seat : Seat) (record : Record) : Prop where
  empty : seat.phase = .unused -> seat.killed = false
  unnamed : record.named = false -> seat.killed = false

namespace Marked

variable {seat : Seat} {record : Record}

/-- Moving on in the life of a process leaves the mark as it is. -/
theorem advance (marked : Marked seat record) (phase : Phase) (used : phase ≠ .unused)
    {after : Record} (named : after.named = record.named) :
    Marked { seat with phase := phase } after :=
  ⟨fun unused => absurd unused used, fun free => marked.unnamed (named ▸ free)⟩

theorem moveIn (marked : Marked seat record) (unused : seat.phase = .unused) (pid : Int)
    (tenants : Nat) : Marked ⟨.waiting, pid, seat.killed⟩
      { record with tenants := tenants, named := false } :=
  ⟨nofun, fun _ => marked.empty unused⟩

theorem tryIn (marked : Marked seat record) (unused : seat.phase = .unused) (pid : Int) :
    Marked ⟨.unused, pid, seat.killed⟩ record :=
  ⟨fun _ => marked.empty unused, fun _ => marked.empty unused⟩

theorem moveOut (record : Record) : Marked ⟨.unused, 0, false⟩ record :=
  ⟨fun _ => rfl, fun _ => rfl⟩

end Marked

/-- A `kill` in this step does not name the pid of an unused slot. -/
def NamesNoEmptySlot (k : Kernel) (event : Event) : Prop :=
  forall c pid, event = .kill c pid -> forall i, (k.proc i).pid = pid -> (k.proc i).state ≠ .unused

instance (k : Kernel) (event : Event) : Decidable (NamesNoEmptySlot k event) :=
  match event with
  | .kill _ pid =>
      decidable_of_iff (forall i, (k.proc i).pid = pid -> (k.proc i).state ≠ .unused)
        ⟨fun live _ _ same => by cases same; exact live, fun live => live _ pid rfl⟩
  | .round | .yield _ | .sleep _ _ | .wakeup _ | .fork _ _ _ | .exit _ | .wait _
  | .reserve _ _ | .spot _ _ =>
      isTrue (fun _ _ same => nomatch same)

theorem marked_step {r after : Run} {event : Event}
    (marked : forall i, Marked (r.kernel.seats i) (r.history i))
    (polite : NamesNoEmptySlot r.kernel event) (stepped : runStep r event = some after) (j : Slot) :
    Marked (after.kernel.seats j) (after.history j) := by
  have before := marked j
  cases change_of_runStep stepped with
  | nothing seats resume accounts history =>
      rw [seats, history]
      exact before
  | dispatch i d waiting seats resume accounts history =>
      rw [seats, history]
      by_cases here : j = i
      · subst j
        simp only [Function.update_self]
        exact before.advance .running nofun rfl
      · simp only [Function.update_of_ne here]
        exact before
  | giveUp i phase running left seats resume accounts history =>
      rw [seats, history]
      have named : (bill r.kernel r.history i j).named = (r.history j).named := by
        cases started : r.kernel.resume i with
        | none => simp only [bill, started]
        | some d =>
            simp only [bill, started]
            by_cases here : j = i
            · rw [here, Function.update_self]
            · rw [Function.update_of_ne here]
      by_cases here : j = i
      · subst j
        rw [Function.update_self]
        refine before.advance phase ?_ named
        rcases left with waiting | zombie
        · rw [waiting]
          exact nofun
        · rw [zombie]
          exact nofun
      · rw [Function.update_of_ne here]
        exact ⟨before.empty, fun free => before.unnamed (named ▸ free)⟩
  | moveIn i unused seats resume accounts history =>
      rw [seats, history]
      by_cases here : j = i
      · subst j
        simp only [Function.update_self]
        exact before.moveIn unused _ _
      · simp only [Function.update_of_ne here]
        exact before
  | tryIn i unused seats resume accounts history =>
      rw [seats, history]
      by_cases here : j = i
      · subst j
        rw [Function.update_self]
        exact before.tryIn unused _
      · rw [Function.update_of_ne here]
        exact before
  | moveOut i zombie seats resume accounts history =>
      rw [seats, history]
      by_cases here : j = i
      · subst j
        rw [Function.update_self]
        exact Marked.moveOut _
      · rw [Function.update_of_ne here]
        exact before
  | mark i c pid kills its seats resume accounts history =>
      rw [seats, history]
      dsimp only
      by_cases here : j = i
      · subst j
        rw [Function.update_self, if_pos its]
        refine ⟨fun unused => ?_, nofun⟩
        exact absurd (phase_eq_unused.mp unused) (polite c pid kills _ its)
      · rw [Function.update_of_ne here]
        split
        · exact ⟨before.empty, nofun⟩
        · exact before
  | book i rpercent spotbid running bid seats resume accounts history =>
      rw [seats, history]
      exact before

theorem marked_of_booted {r : Run} (booted : RunBooted r) (i : Slot) :
    Marked (r.kernel.seats i) (r.history i) := by
  have unmarked : (r.kernel.seats i).killed = false := by
    by_cases first : i = firstSlot
    · rw [first, seats, booted.1.first]
      rfl
    · rw [seats, booted.1.others i first]
      rfl
  exact ⟨fun _ => unmarked, fun _ => unmarked⟩

/-- `kill` of a pid returns 0 exactly when a process that is not unused has it. -/
def HitsLive (k : Kernel) (pid : Int) : Prop :=
  (k.kill pid).1 = 0 ↔ Exists fun i => (k.proc i).state ≠ .unused ∧ (k.proc i).pid = pid

/-- A process that no `kill` has named since it was created is not marked. -/
def UnnamedUnmarked (r : Run) : Prop :=
  forall i, (r.kernel.proc i).state ≠ .unused -> (r.history i).named = false ->
    (r.kernel.proc i).killed = false

/-- In every run in which no `kill` names the pid of an unused slot, every such
`kill` succeeds exactly on live processes, and nobody is marked whom no `kill`
has named. -/
theorem kill_hits_live {r : Run} (recorded : Recorded NamesNoEmptySlot r) :
    (forall c pid, NamesNoEmptySlot r.kernel (.kill c pid) -> HitsLive r.kernel pid) ∧
      UnnamedUnmarked r := by
  have marked : forall i, Marked (r.kernel.seats i) (r.history i) :=
    recorded.invariant (fun _ booted => marked_of_booted booted)
      (fun _ _ _ marked polite stepped => marked_step marked polite stepped)
  refine ⟨fun c pid polite => ⟨fun hit => ?_, fun live => ?_⟩,
    fun i _ unnamed => (marked i).unnamed unnamed⟩
  · rcases kill_cases r.kernel pid with ⟨i, its, _, _⟩ | ⟨_, missed, _⟩
    · exact ⟨i, polite c pid rfl i its, its⟩
    · rw [missed] at hit
      exact nomatch hit
  · rcases kill_cases r.kernel pid with ⟨_, _, hit, _⟩ | ⟨nobody, _, _⟩
    · exact hit
    · rcases live with ⟨i, _, its⟩
      exact absurd its (nobody i)

/-- `init` has two children and has killed the first. -/
def firstKilled : List Event :=
  [.round, .round, .fork firstSlot true true, .fork firstSlot true true, .kill firstSlot 2]

/-- A `kill` of the second child hits it, and so far only the first is marked. -/
theorem kill_hits_live_second_child : Exists fun r => run runStep bootRun firstKilled = some r ∧
    HitsLive r.kernel 3 ∧ (r.kernel.kill 3).1 = 0 ∧ UnnamedUnmarked r ∧
    (r.kernel.proc ⟨1, by decide⟩).killed = true := by
  have before : (run (guardedStep runStep (fun r event => NamesNoEmptySlot r.kernel event))
      bootRun firstKilled).map (fun r => (decide (NamesNoEmptySlot r.kernel (.kill firstSlot 3)),
      (r.kernel.kill 3).1, (r.kernel.proc ⟨1, by decide⟩).killed)) = some (true, 0, true) := by
    decide +kernel
  rcases Option.map_eq_some_iff.mp before with ⟨r, ran, values⟩
  rcases Prod.mk.inj values with ⟨polite, rest⟩
  rcases Prod.mk.inj rest with ⟨hit, killed⟩
  have recorded : Recorded NamesNoEmptySlot r := (Reachable.start bootRun_booted).run_guarded ran
  exact ⟨r, run_of_guarded ran, (kill_hits_live recorded).1 firstSlot 3 (of_decide_eq_true polite),
    hit, (kill_hits_live recorded).2, killed⟩

/-- `init` kills the pid 0 and then forks. -/
def killZero : List Event :=
  [.round, .round, .kill firstSlot 0, .fork firstSlot true true]

/-- `kill(0)` succeeds although nobody has the pid 0, and the child that is
created next is marked although no `kill` has named it. -/
theorem kill_hits_empty_slot :
    ¬ forall r, Recorded anyEvent r -> (forall pid, HitsLive r.kernel pid) ∧ UnnamedUnmarked r := by
  intro always
  have before : (run runStep bootRun killZero).map (fun r =>
      let child := r.kernel.proc ⟨1, by decide⟩
      (child.state, (r.history ⟨1, by decide⟩).named, child.killed)) =
      some (.runnable, false, true) := by decide +kernel
  cases ran : run runStep bootRun killZero with
  | none =>
      rw [ran] at before
      exact nomatch before
  | some r =>
      rw [ran] at before
      rcases Prod.mk.inj (Option.some.inj before) with ⟨runnable, rest⟩
      rcases Prod.mk.inj rest with ⟨unnamed, killed⟩
      have recorded : Recorded anyEvent r :=
        (Reachable.start bootRun_booted).run_allowed ran (fun _ _ _ => trivial)
      have unmarked := (always r recorded).2 ⟨1, by decide⟩ (by rw [runnable]; exact nofun) unnamed
      rw [unmarked] at killed
      exact nomatch killed

end Scheduler
end OsProjects
