import OsProjects.Machine.Transition
import Mathlib.Data.List.Basic

namespace OsProjects
namespace Shell

open Machine

/-!
# The two commands of a pipe

The child of the shell makes a pipe and forks.  The new process writes the output of the
first command into the pipe.  Its parent calls `wait` before it reads: only when the first
command has exited does it turn into the second one.  Until then nobody takes anything out
of the pipe, which holds `capacity` bytes.

A step is a system call of one of the two, which may write or read any part of what it
could.
-/

/-- Where the process with the second command stands: in `wait`, after `execvp`, and at the end
of its input. -/
inductive Second
  | waits
  | reads
  | ended
  deriving DecidableEq

structure Pipeline where
  /-- What the first command still has to write. -/
  rest : List UInt8
  held : List UInt8
  exited : Bool
  second : Second
  got : List UInt8

inductive PipelineEvent
  | write (count : Nat)
  | exit
  | wait
  | read (count : Nat)
  | endOfFile

namespace Pipeline

def next (capacity : Nat) (s : Pipeline) : PipelineEvent -> Option Pipeline
  | .write count =>
      if s.exited = false ∧ 0 < count ∧ count ≤ s.rest.length ∧
        s.held.length + count ≤ capacity then
        some { s with rest := s.rest.drop count, held := s.held ++ s.rest.take count }
      else none
  | .exit => if s.exited = false ∧ s.rest = [] then some { s with exited := true } else none
  | .wait => if s.second = .waits ∧ s.exited = true then some { s with second := .reads } else none
  | .read count =>
      if s.second = .reads ∧ 0 < count ∧ count ≤ s.held.length then
        some { s with held := s.held.drop count, got := s.got ++ s.held.take count }
      else none
  | .endOfFile =>
      if s.second = .reads ∧ s.held = [] ∧ s.exited = true then
        some { s with second := .ended }
      else none

/-- The first command is about to write, the second one about to `wait`. -/
def begin (output : List UInt8) : Pipeline := ⟨output, [], false, .waits, []⟩

/-- The states that the two come to, in whatever order and portions they run. -/
def Comes (capacity : Nat) (output : List UInt8) : Pipeline -> Prop :=
  Reachable (next capacity) (fun s => s = begin output) anyStep

/-- Neither of the two can go on. -/
def Stuck (capacity : Nat) (s : Pipeline) : Prop := forall event, s.next capacity event = none

structure Flow (capacity : Nat) (output : List UInt8) (s : Pipeline) : Prop where
  whole : s.got ++ (s.held ++ s.rest) = output
  fits : s.held.length ≤ capacity
  written : s.exited = true -> s.rest = []
  started : s.second ≠ .waits -> s.exited = true
  none : s.second = .waits -> s.got = []
  ended : s.second = .ended -> s.held = []
  /-- The first command has only exited when the pipe took its whole output. -/
  taken : s.exited = true -> output.length ≤ capacity

section Runs

variable {capacity : Nat} {output : List UInt8} {s after : Pipeline}

theorem Flow.begin : Flow capacity output (begin output) :=
  ⟨rfl, Nat.zero_le _, fun exited => Bool.noConfusion exited, fun started => absurd rfl started,
    fun _ => rfl, fun _ => rfl, fun exited => Bool.noConfusion exited⟩

theorem Flow.next (flow : Flow capacity output s) {event : PipelineEvent}
    (stepped : s.next capacity event = some after) : Flow capacity output after := by
  cases event with
  | write count =>
      rw [Pipeline.next] at stepped
      split at stepped
      next room =>
        rcases Option.some.inj stepped with rfl
        have running : s.exited ≠ true := by
          rw [room.1]
          exact Bool.false_ne_true
        have waits : s.second = .waits := by_contra fun started => running (flow.started started)
        refine ⟨?_, ?_, fun exited => absurd exited running, flow.started, flow.none,
          fun ended => ?_, fun exited => absurd exited running⟩
        · show s.got ++ ((s.held ++ s.rest.take count) ++ s.rest.drop count) = output
          rw [List.append_assoc, List.take_append_drop]
          exact flow.whole
        · show (s.held ++ s.rest.take count).length ≤ capacity
          rw [List.length_append, List.length_take, Nat.min_eq_left room.2.2.1]
          exact room.2.2.2
        · exact Second.noConfusion (waits.symm.trans ended)
      next => exact absurd stepped.symm (Option.some_ne_none _)
  | exit =>
      rw [Pipeline.next] at stepped
      split at stepped
      next finished =>
        rcases Option.some.inj stepped with rfl
        refine ⟨flow.whole, flow.fits, fun _ => finished.2, fun _ => rfl, flow.none,
          flow.ended, fun _ => ?_⟩
        have waits : s.second = .waits := by_contra fun started =>
          Bool.false_ne_true (finished.1.symm.trans (flow.started started))
        have whole := flow.whole
        rw [flow.none waits, finished.2, List.append_nil, List.nil_append] at whole
        exact whole ▸ flow.fits
      next => exact absurd stepped.symm (Option.some_ne_none _)
  | wait =>
      rw [Pipeline.next] at stepped
      split at stepped
      next reaps =>
        rcases Option.some.inj stepped with rfl
        exact ⟨flow.whole, flow.fits, flow.written, fun _ => reaps.2,
          fun waits => Second.noConfusion waits, fun ended => Second.noConfusion ended, flow.taken⟩
      next => exact absurd stepped.symm (Option.some_ne_none _)
  | read count =>
      rw [Pipeline.next] at stepped
      split at stepped
      next some =>
        rcases Option.some.inj stepped with rfl
        refine ⟨?_, ?_, flow.written, flow.started,
          fun waits => Second.noConfusion (waits.symm.trans some.1),
          fun ended => Second.noConfusion (ended.symm.trans some.1), flow.taken⟩
        · show (s.got ++ s.held.take count) ++ (s.held.drop count ++ s.rest) = output
          rw [List.append_assoc, ← List.append_assoc (s.held.take count), List.take_append_drop]
          exact flow.whole
        · show (s.held.drop count).length ≤ capacity
          rw [List.length_drop]
          exact Nat.le_trans (Nat.sub_le _ _) flow.fits
      next => exact absurd stepped.symm (Option.some_ne_none _)
  | endOfFile =>
      rw [Pipeline.next] at stepped
      split at stepped
      next finished =>
        rcases Option.some.inj stepped with rfl
        exact ⟨flow.whole, flow.fits, flow.written, fun _ => finished.2.2,
          fun waits => Second.noConfusion waits, fun _ => finished.2.1, flow.taken⟩
      next => exact absurd stepped.symm (Option.some_ne_none _)

theorem Flow.comes (comes : Comes capacity output s) : Flow capacity output s :=
  comes.invariant (fun _ same => same ▸ Flow.begin) (fun _ _ _ flow _ stepped => flow.next stepped)

/-- What is left to do; every step does some of it. -/
def work (s : Pipeline) : Nat :=
  2 * s.rest.length + s.held.length + (if s.exited then 0 else 1) +
    (match s.second with | .waits => 2 | .reads => 1 | .ended => 0)

theorem work_next {event : PipelineEvent} (stepped : s.next capacity event = some after) :
    after.work < s.work := by
  cases event with
  | write count =>
      rw [Pipeline.next] at stepped
      split at stepped
      next room =>
        rcases Option.some.inj stepped with rfl
        simp only [work, List.length_append, List.length_take, List.length_drop]
        omega
      next => exact absurd stepped.symm (Option.some_ne_none _)
  | exit =>
      rw [Pipeline.next] at stepped
      split at stepped
      next finished =>
        rcases Option.some.inj stepped with rfl
        simp only [work, finished.1, Bool.false_eq_true, if_false, if_true]
        omega
      next => exact absurd stepped.symm (Option.some_ne_none _)
  | wait =>
      rw [Pipeline.next] at stepped
      split at stepped
      next reaps =>
        rcases Option.some.inj stepped with rfl
        simp only [work, reaps.1]
        omega
      next => exact absurd stepped.symm (Option.some_ne_none _)
  | read count =>
      rw [Pipeline.next] at stepped
      split at stepped
      next some =>
        rcases Option.some.inj stepped with rfl
        simp only [work, List.length_drop]
        omega
      next => exact absurd stepped.symm (Option.some_ne_none _)
  | endOfFile =>
      rw [Pipeline.next] at stepped
      split at stepped
      next finished =>
        rcases Option.some.inj stepped with rfl
        simp only [work, finished.1]
        omega
      next => exact absurd stepped.symm (Option.some_ne_none _)

/-- No run goes on for ever. -/
theorem run_length {events : List PipelineEvent} (ran : run (next capacity) s events = some after) :
    events.length + after.work ≤ s.work := by
  induction events generalizing s with
  | nil =>
      have same := Option.some.inj ran
      exact Nat.le_of_eq (by rw [same, List.length_nil, Nat.zero_add])
  | cons event events ih =>
      rcases run_cons_eq_some.mp ran with ⟨middle, stepped, rest⟩
      have less := work_next stepped
      have later := ih rest
      rw [List.length_cons]
      omega

/-- With the whole output in the pipe, only the end of the second command stops the two. -/
theorem Flow.stuck (flow : Flow capacity output s) (short : output.length ≤ capacity)
    (stuck : Stuck capacity s) : s.second = .ended ∧ s.got = output := by
  cases exited : s.exited with
  | false =>
      have waits : s.second = .waits :=
        by_contra fun started => Bool.false_ne_true (exited.symm.trans (flow.started started))
      have whole := congrArg List.length flow.whole
      rw [flow.none waits, List.nil_append, List.length_append] at whole
      cases rest : s.rest with
      | nil =>
          have blocked := stuck .exit
          rw [Pipeline.next, if_pos ⟨exited, rest⟩] at blocked
          exact absurd blocked (Option.some_ne_none _)
      | cons byte bytes =>
          have blocked := stuck (.write 1)
          rw [rest, List.length_cons] at whole
          have room : s.exited = false ∧ 0 < 1 ∧ 1 ≤ s.rest.length ∧
              s.held.length + 1 ≤ capacity := by
            rw [rest, List.length_cons]
            exact ⟨exited, Nat.one_pos, by omega, by omega⟩
          rw [Pipeline.next, if_pos room] at blocked
          exact absurd blocked (Option.some_ne_none _)
  | true =>
      cases second : s.second with
      | waits =>
          have blocked := stuck .wait
          rw [Pipeline.next, if_pos ⟨second, exited⟩] at blocked
          exact absurd blocked (Option.some_ne_none _)
      | reads =>
          cases held : s.held with
          | nil =>
              have blocked := stuck .endOfFile
              rw [Pipeline.next, if_pos ⟨second, held, exited⟩] at blocked
              exact absurd blocked (Option.some_ne_none _)
          | cons byte bytes =>
              have blocked := stuck (.read 1)
              have some : s.second = .reads ∧ 0 < 1 ∧ 1 ≤ s.held.length := by
                rw [held, List.length_cons]
                exact ⟨second, Nat.one_pos, by omega⟩
              rw [Pipeline.next, if_pos some] at blocked
              exact absurd blocked (Option.some_ne_none _)
      | ended =>
          have whole := flow.whole
          rw [flow.ended second, flow.written exited, List.append_nil, List.append_nil] at whole
          exact ⟨rfl, whole⟩

/-- When the output does not fit, the shell's `wait` for the first command never returns. -/
theorem Flow.waits (flow : Flow capacity output s) (long : capacity < output.length) :
    s.second = .waits :=
  by_contra fun started => Nat.not_lt.mpr (flow.taken (flow.started started)) long

/-- Wherever the two are, they come to a state in which neither goes on. -/
theorem stuck_ahead (comes : Comes capacity output s) :
    Exists fun last => Comes capacity output last ∧ Stuck capacity last := by
  induction left : s.work using Nat.strongRecOn generalizing s with
  | ind left ih =>
      by_cases goes : Exists fun event => s.next capacity event ≠ none
      · rcases goes with ⟨event, goes⟩
        rcases Option.ne_none_iff_exists'.mp goes with ⟨following, stepped⟩
        exact ih following.work (by rw [← left]; exact work_next stepped)
          (comes.step trivial stepped) rfl
      · exact ⟨s, comes, fun event => by_contra fun step => goes ⟨event, step⟩⟩

end Runs

/-- However the two commands of a pipe take turns, they are done after a bounded number of
system calls; and the second one has then read exactly what the first one wrote, in every
order, just when the pipe holds the whole output.  A longer output leaves the first command
in `write` and the other process in `wait`, in every order. -/
theorem pipeline_runs_iff (capacity : Nat) (output : List UInt8) :
    (forall events last, run (next capacity) (begin output) events = some last ->
      events.length ≤ 2 * output.length + 3) ∧
    ((forall last, Comes capacity output last -> Stuck capacity last ->
      last.second = .ended ∧ last.got = output) ↔
      output.length ≤ capacity) ∧
    (capacity < output.length ->
      forall s, Comes capacity output s -> s.second = .waits ∧ s.exited = false) := by
  refine ⟨fun events last ran => ?_, ⟨fun completes => ?_, fun short last comes stuck => ?_⟩,
    fun long s comes => ?_⟩
  · have bound := run_length ran
    have first : (begin output).work = 2 * output.length + 3 := rfl
    omega
  · rcases stuck_ahead (.start rfl : Comes capacity output (begin output)) with ⟨last, comes, stuck⟩
    by_contra long
    have waits := (Flow.comes comes).waits (Nat.not_le.mp long)
    exact Second.noConfusion (waits.symm.trans (completes last comes stuck).1)
  · exact (Flow.comes comes).stuck short stuck
  · have flow := Flow.comes comes
    refine ⟨flow.waits long, Bool.eq_false_iff.mpr fun exited => ?_⟩
    exact Nat.not_lt.mpr (flow.taken exited) long

end Pipeline
end Shell
end OsProjects
