import Mathlib.Logic.Basic

namespace OsProjects
namespace Machine

universe u

/-!
# Programs that may panic

Kernel code reads and writes one machine state, and it either returns a value
or stops the machine.  A program is therefore a function from a state to an
outcome, and `wp` is its weakest precondition: `post` holds of the value and
the state if the program returns, and `escape` holds of the reason if it stops.

The rules below are all that the proofs about modelled code use.  `wp_bind`
and the rules for the primitive programs compute the weakest precondition of
straight-line code; `wp_seq` and `wp_mono` plug in what has been proved about a
called function.
-/

/-- How a program ends. -/
inductive Outcome (Panic State Value : Type u)
  | done (value : Value) (state : State)
  | panic (reason : Panic)

/-- A program over one machine state. -/
def Program (Panic State Value : Type u) : Type u :=
  State -> Outcome Panic State Value

namespace Program

variable {Panic State Value Result : Type u}

instance : Monad (Program Panic State) where
  pure value := fun state => .done value state
  bind program next := fun state =>
    match program state with
    | .done value after => next value after
    | .panic reason => .panic reason

/-- Read a component of the state. -/
def read (view : State -> Value) : Program Panic State Value :=
  fun state => .done (view state) state

/-- Change the state. -/
def modify (change : State -> State) : Program Panic State PUnit :=
  fun state => .done ⟨⟩ (change state)

/-- Stop the machine. -/
def stop (reason : Panic) : Program Panic State Value :=
  fun _ => .panic reason

/-- The weakest precondition of a program. -/
def wp (program : Program Panic State Value) (post : Value -> State -> Prop)
    (escape : Panic -> Prop) (state : State) : Prop :=
  match program state with
  | .done value after => post value after
  | .panic reason => escape reason

variable {program : Program Panic State Value} {next : Value -> Program Panic State Result}
  {post : Value -> State -> Prop} {finally_ : Result -> State -> Prop} {escape : Panic -> Prop}
  {state : State}

@[simp] theorem wp_pure (value : Value) :
    wp (pure value : Program Panic State Value) post escape state ↔ post value state := Iff.rfl

@[simp] theorem wp_read (view : State -> Value) :
    wp (read view) post escape state ↔ post (view state) state := Iff.rfl

@[simp] theorem wp_modify (change : State -> State) {unitPost : PUnit -> State -> Prop} :
    wp (modify change) unitPost escape state ↔ unitPost ⟨⟩ (change state) := Iff.rfl

@[simp] theorem wp_stop (reason : Panic) :
    wp (stop reason) post escape state ↔ escape reason := Iff.rfl

@[simp] theorem wp_bind :
    wp (program >>= next) finally_ escape state ↔
      wp program (fun value after => wp (next value) finally_ escape after) escape state := by
  have unfolded : (program >>= next) state = match program state with
      | .done value after => next value after
      | .panic reason => .panic reason := rfl
  unfold wp
  rw [unfolded]
  cases program state <;> rfl

/-- Weaken what is known about both ends. -/
theorem wp_mono {stronger : Value -> State -> Prop} {narrower : Panic -> Prop}
    (holds : wp program stronger narrower state)
    (returns : forall value after, stronger value after -> post value after)
    (stops : forall reason, narrower reason -> escape reason) :
    wp program post escape state := by
  unfold wp at holds ⊢
  cases ended : program state with
  | done value after =>
      rw [ended] at holds
      exact returns value after holds
  | panic reason =>
      rw [ended] at holds
      exact stops reason holds

/-- Run a specified program and go on from what it guarantees. -/
theorem wp_seq {middle : Value -> State -> Prop}
    (first : wp program middle escape state)
    (rest : forall value after, middle value after -> wp (next value) finally_ escape after) :
    wp (program >>= next) finally_ escape state :=
  wp_bind.mpr (wp_mono first rest (fun _ stopped => stopped))

/-- A program that cannot stop returns. -/
theorem exists_done_of_wp (holds : wp program post (fun _ => False) state) :
    Exists fun value => Exists fun after =>
      program state = .done value after ∧ post value after := by
  unfold wp at holds
  cases ended : program state with
  | done value after =>
      rw [ended] at holds
      exact ⟨value, after, rfl, holds⟩
  | panic reason =>
      rw [ended] at holds
      exact False.elim holds

/-- What a program that has returned guarantees. -/
theorem post_of_done {value : Value} {after : State} (holds : wp program post escape state)
    (ended : program state = .done value after) : post value after := by
  unfold wp at holds
  rw [ended] at holds
  exact holds

/-- Going on after a program that has returned. -/
theorem bind_done {value : Value} {after : State} (ended : program state = .done value after) :
    (program >>= next) state = next value after := by
  have unfolded : (program >>= next) state = match program state with
      | .done value after => next value after
      | .panic reason => .panic reason := rfl
  rw [unfolded, ended]

/-- A program that cannot return stops. -/
theorem panics_of_wp {stopped : Panic}
    (holds : wp program (fun _ _ => False) (fun reason => reason = stopped) state) :
    program state = .panic stopped := by
  unfold wp at holds
  cases ended : program state with
  | done value after =>
      rw [ended] at holds
      exact False.elim holds
  | panic reason =>
      rw [ended] at holds
      exact congrArg Outcome.panic holds

end Program
end Machine
end OsProjects
