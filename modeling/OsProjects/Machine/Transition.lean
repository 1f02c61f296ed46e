import Mathlib.Logic.Basic
import Mathlib.Data.List.Basic

namespace OsProjects
namespace Machine

universe u v

/-!
# Guarded transition systems

A transition system is an executable partial step function: `next state event`
is `none` when the event is not enabled.  Every run is a finite list of events,
so an interleaving of several threads is a choice of the next event.

A guard restricts which steps a run may take.  The unrestricted runs are those
with the guard that is always true, and a result that only holds when certain
steps avoid a defect is a statement about the runs of a narrower guard.
-/

variable {State : Type u} {Event : Type v}

/-- The state after a list of events, if every one of them is enabled in turn. -/
def run (next : State -> Event -> Option State) : State -> List Event -> Option State
  | state, [] => some state
  | state, event :: events => (next state event).bind (fun after => run next after events)

/-- The states that a guarded run from a starting state can reach. -/
inductive Reachable (next : State -> Event -> Option State) (start : State -> Prop)
    (guard : State -> Event -> Prop) : State -> Prop
  | start {state : State} : start state -> Reachable next start guard state
  | step {before after : State} {event : Event} :
      Reachable next start guard before -> guard before event ->
      next before event = some after -> Reachable next start guard after

/-- The guard that allows every enabled step. -/
def anyStep (_state : State) (_event : Event) : Prop := True

variable {next : State -> Event -> Option State} {start : State -> Prop}
  {guard : State -> Event -> Prop}

@[simp] theorem run_nil (state : State) : run next state [] = some state := rfl

theorem run_cons_eq_some {state after : State} {event : Event} {events : List Event} :
    run next state (event :: events) = some after ↔
      Exists fun middle =>
        next state event = some middle ∧ run next middle events = some after := by
  simp only [run, Option.bind_eq_some_iff]

theorem run_append {state middle after : State} {first second : List Event}
    (head : run next state first = some middle) (tail : run next middle second = some after) :
    run next state (first ++ second) = some after := by
  induction first generalizing state with
  | nil =>
      have same : state = middle := Option.some.inj head
      rw [same]
      exact tail
  | cons event events ih =>
      rcases run_cons_eq_some.mp head with ⟨following, stepped, rest⟩
      exact run_cons_eq_some.mpr ⟨following, stepped, ih rest⟩

/-- Extending a reachable state by events that are allowed in every state. -/
theorem Reachable.run_allowed {state after : State} (reached : Reachable next start guard state)
    {events : List Event} (ran : Machine.run next state events = some after)
    (allowed : forall event, event ∈ events -> forall state, guard state event) :
    Reachable next start guard after := by
  induction events generalizing state with
  | nil => exact Option.some.inj ran ▸ reached
  | cons event events ih =>
      rcases run_cons_eq_some.mp ran with ⟨middle, stepped, rest⟩
      exact ih (reached.step (allowed event List.mem_cons_self state) stepped) rest
        (fun later inside => allowed later (List.mem_cons_of_mem event inside))

/-- Extending a reachable state by an unrestricted run stays reachable. -/
theorem Reachable.run {state after : State} (reached : Reachable next start anyStep state)
    {events : List Event} (ran : Machine.run next state events = some after) :
    Reachable next start anyStep after :=
  reached.run_allowed ran (fun _ _ _ => trivial)

section Checked

variable {checked : State -> Event -> Option State} {state after : State} {events : List Event}

/-- A run of a step function that checks the guard is a run. -/
theorem run_of_checked (sound : forall state event after, checked state event = some after ->
    guard state event ∧ next state event = some after)
    (ran : run checked state events = some after) : run next state events = some after := by
  induction events generalizing state with
  | nil => exact ran
  | cons event events ih =>
      rcases run_cons_eq_some.mp ran with ⟨middle, stepped, rest⟩
      exact run_cons_eq_some.mpr ⟨middle, (sound state event middle stepped).2, ih rest⟩

/-- Extending a reachable state by such a run. -/
theorem Reachable.run_checked (sound : forall state event after,
    checked state event = some after -> guard state event ∧ next state event = some after)
    (reached : Reachable next start guard state)
    (ran : Machine.run checked state events = some after) : Reachable next start guard after := by
  induction events generalizing state with
  | nil => exact Option.some.inj ran ▸ reached
  | cons event events ih =>
      rcases run_cons_eq_some.mp ran with ⟨middle, stepped, rest⟩
      have step := sound state event middle stepped
      exact ih (reached.step step.1 step.2) rest

end Checked

/-- The step function that takes a step only where the guard allows it. -/
def guardedStep (next : State -> Event -> Option State) (guard : State -> Event -> Prop)
    [forall state event, Decidable (guard state event)] (state : State) (event : Event) :
    Option State :=
  if guard state event then next state event else none

section Guarded

variable [forall state event, Decidable (guard state event)] {state after : State}
  {events : List Event}

theorem guardedStep_sound (state : State) (event : Event) (after : State)
    (stepped : guardedStep next guard state event = some after) :
    guard state event ∧ next state event = some after := by
  unfold guardedStep at stepped
  split at stepped
  case isTrue allowed => exact ⟨allowed, stepped⟩
  case isFalse => exact nomatch stepped

theorem run_of_guarded (ran : run (guardedStep next guard) state events = some after) :
    run next state events = some after :=
  run_of_checked guardedStep_sound ran

theorem Reachable.run_guarded (reached : Reachable next start guard state)
    (ran : Machine.run (guardedStep next guard) state events = some after) :
    Reachable next start guard after :=
  reached.run_checked guardedStep_sound ran

end Guarded

/-- The induction rule for safety: what holds at the start and is kept by every
allowed step holds in every reachable state. -/
theorem Reachable.invariant {invariant : State -> Prop}
    (initially : forall state, start state -> invariant state)
    (kept : forall before event after, invariant before -> guard before event ->
      next before event = some after -> invariant after)
    {state : State} (reached : Reachable next start guard state) : invariant state := by
  induction reached with
  | start started => exact initially _ started
  | step _ allowed stepped ih => exact kept _ _ _ ih allowed stepped

end Machine
end OsProjects
