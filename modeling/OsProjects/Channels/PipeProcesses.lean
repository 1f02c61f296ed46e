import OsProjects.Channels.Pipe
import OsProjects.Machine.Transition

namespace OsProjects
namespace Channels

open Machine

/-!
# Processes at a pipe

Any number of processes read, write, duplicate, inherit, close and get killed at one pipe.
A step is a region under the pipe's lock or under the lock of the file table; a process
that `sleep`s gives the lock back in the step that puts it to sleep.  A kill may arrive
between the test of `proc->killed` and the `sleep`, which then does not see it.

The two ends are files with a count of references.  An end is named by its `writable`.
-/

/-- Where a process stands in its calls on the pipe. -/
inductive Standing
  | out
  | writing (addr : List UInt8) (n : Int) (i : Nat) (asleep : Bool)
  | reading (n : Int) (asleep : Bool)
  | closing (writable : Bool)
  deriving DecidableEq

/-- The channel that a process sleeps on: `true` for `&p->nwrite`. -/
def Standing.chan : Standing -> Option Bool
  | .writing _ _ _ true => some true
  | .reading _ true => some false
  | _ => none

/-- `wakeup`, for one process. -/
def Standing.wake (chan : Bool) (standing : Standing) : Standing :=
  if standing.chan = some chan then
    match standing with
    | .writing addr n i _ => .writing addr n i false
    | .reading n _ => .reading n false
    | other => other
  else standing

/-- The end that a process needs for its call. -/
def Standing.needs : Standing -> Option Bool
  | .writing _ _ _ _ => some true
  | .reading _ _ => some false
  | _ => none

/-- What a call has written so far. -/
def Standing.part : Standing -> List UInt8
  | .writing addr _ i _ => addr.take i
  | _ => []

/-- A call that has returned `value`; no code reads it. -/
inductive Return
  | wrote (who : Nat) (addr : List UInt8) (n : Int) (i : Nat) (value : Int)
  | read (who : Nat) (n : Int) (bytes : List UInt8) (value : Int)

/-- The bytes that a call took from the pipe. -/
def Return.taken : Return -> List UInt8
  | .wrote _ _ _ _ _ => []
  | .read _ _ bytes _ => bytes

/-- The bytes that a call of the process `who` put into the pipe. -/
def Return.putBy (who : Nat) : Return -> List UInt8
  | .wrote writer addr _ i _ => if writer = who then addr.take i else []
  | .read _ _ _ _ => []

/-- A write reports all of its bytes or fails with fewer, and a read reports its bytes. -/
def Return.Sound : Return -> Prop
  | .wrote _ addr n i value =>
      addr.length = n.toNat ∧ ((value = n ∧ i = addr.length) ∨ (value = -1 ∧ i < addr.length))
  | .read _ n bytes value =>
      (value = bytes.length ∧ bytes.length ≤ n.toNat) ∨ (value = -1 ∧ bytes = [])

/-- A read of at least one byte that reports the end of the file. -/
def Return.EndOfFile : Return -> Prop
  | .wrote _ _ _ _ _ => False
  | .read _ n _ value => 0 < n ∧ value = 0

structure State where
  pipe : Pipe
  /-- The page of the pipe is not free. -/
  allocated : Bool
  ref : Bool -> Nat
  /-- The process of each descriptor that refers to an end. -/
  descriptors : Bool -> List Nat
  killed : Nat -> Bool
  standing : Nat -> Standing
  /-- Every byte written, with its process; no code reads it. -/
  sent : List (Nat × UInt8)
  returned : List Return

/-- A step; `late` is a kill between the test of `killed` and the `sleep`. -/
inductive Event
  | write (who : Nat) (addr : List UInt8) (n : Int) (late : Bool)
  | read (who : Nat) (n : Int) (late : Bool)
  | resume (who : Nat) (late : Bool)
  | dup (who : Nat) (writable : Bool)
  | fork (parent child : Nat)
  | close (who : Nat) (writable : Bool)
  | pipeclose (who : Nat)
  | kill (who : Nat)

namespace State

def wakeup (s : State) (chan : Bool) : State :=
  { s with standing := fun who => (s.standing who).wake chan }

def stand (s : State) (who : Nat) (standing : Standing) : State :=
  { s with standing := Function.update s.standing who standing }

def note (s : State) (result : Return) : State := { s with returned := s.returned ++ [result] }

def arrive (s : State) (who : Nat) (late : Bool) : State :=
  { s with killed := Function.update s.killed who (s.killed who || late) }

/-- A stretch of `pipewrite`.  A call that fails wakes nobody. -/
def writeStep (s : State) (who : Nat) (addr : List UInt8) (n : Int) (i : Nat) (late : Bool) :
    State :=
  let run := Pipe.pipewrite (s.killed who) addr i s.pipe
  let s := { s with
    pipe := run.2.2
    sent := s.sent ++ ((addr.take run.2.1).drop i).map (fun byte => (who, byte)) }
  match run.1 with
  | .returned => ((s.wakeup false).stand who .out).note (.wrote who addr n run.2.1 n)
  | .failed => (s.stand who .out).note (.wrote who addr n run.2.1 (-1))
  | .asleep => ((s.wakeup false).stand who (.writing addr n run.2.1 true)).arrive who late

/-- A stretch of `piperead`. -/
def readStep (s : State) (who : Nat) (n : Int) (late : Bool) : State :=
  let run := Pipe.piperead (s.killed who) n s.pipe
  let s := { s with pipe := run.2.2 }
  match run.1 with
  | .returned => ((s.wakeup true).stand who .out).note (.read who n run.2.1 run.2.1.length)
  | .failed => (s.stand who .out).note (.read who n [] (-1))
  | .asleep => (s.stand who (.reading n true)).arrive who late

/-- `filedup`. -/
def filedup (s : State) (who : Nat) (writable : Bool) : State :=
  { s with
    ref := Function.update s.ref writable (s.ref writable + 1)
    descriptors := Function.update s.descriptors writable (who :: s.descriptors writable) }

/-- `fork`, which duplicates each descriptor of the parent. -/
def fork (s : State) (parent child : Nat) : State :=
  { s with
    ref := fun writable => s.ref writable + (s.descriptors writable).count parent
    descriptors := fun writable =>
      s.descriptors writable ++ List.replicate ((s.descriptors writable).count parent) child
    killed := Function.update s.killed child false }

/-- `fileclose`, up to the release of the lock of the file table. -/
def fileclose (s : State) (who : Nat) (writable : Bool) : State :=
  let closed := { s with
    ref := Function.update s.ref writable (s.ref writable - 1)
    descriptors := Function.update s.descriptors writable ((s.descriptors writable).erase who) }
  if 0 < s.ref writable - 1 then closed else closed.stand who (.closing writable)

/-- `pipeclose`. -/
def pipeclose (s : State) (who : Nat) (writable : Bool) : State :=
  let pipe := s.pipe.pipeclose writable
  ({ s with pipe := pipe, allocated := s.allocated && (pipe.readopen || pipe.writeopen) }.wakeup
    (!writable)).stand who .out

/-- `kill`, which also makes a sleeping process run. -/
def kill (s : State) (who : Nat) : State :=
  { s with killed := Function.update s.killed who true }.stand who
    (((s.standing who).wake true).wake false)

@[simp] theorem stand_self {s : State} {who : Nat} {standing : Standing} :
    (s.stand who standing).standing who = standing := by
  simp only [stand, Function.update_self]

theorem stand_of_ne {s : State} {who other : Nat} {standing : Standing} (different : other ≠ who) :
    (s.stand who standing).standing other = s.standing other := by
  simp only [stand, Function.update_of_ne different]

end State

def next (s : State) : Event -> Option State
  | .write who addr n late =>
      if s.standing who = .out ∧ who ∈ s.descriptors true ∧ addr.length = n.toNat then
        some ((s.stand who (.writing addr n 0 false)).writeStep who addr n 0 late)
      else none
  | .read who n late =>
      if s.standing who = .out ∧ who ∈ s.descriptors false then
        some ((s.stand who (.reading n false)).readStep who n late)
      else none
  | .resume who late =>
      match s.standing who with
      | .writing addr n i false => some (s.writeStep who addr n i late)
      | .reading n false => some (s.readStep who n late)
      | _ => none
  | .dup who writable =>
      if s.standing who = .out ∧ who ∈ s.descriptors writable then
        some (s.filedup who writable)
      else none
  | .fork parent child =>
      if s.standing parent = .out ∧ s.standing child = .out ∧ parent ≠ child ∧
          child ∉ s.descriptors false ∧ child ∉ s.descriptors true then
        some (s.fork parent child)
      else none
  | .close who writable =>
      if s.standing who = .out ∧ who ∈ s.descriptors writable then
        some (s.fileclose who writable)
      else none
  | .pipeclose who =>
      match s.standing who with
      | .closing writable => some (s.pipeclose who writable)
      | _ => none
  | .kill who => some (s.kill who)

/-- `sys_pipe` has given the process `who` a descriptor for each end. -/
structure Created (who : Nat) (s : State) : Prop where
  pipe : Exists fun data => s.pipe = Pipe.pipealloc data
  allocated : s.allocated = true
  ref : forall writable, s.ref writable = 1
  descriptors : forall writable, s.descriptors writable = [who]
  standing : forall other, s.standing other = .out
  sent : s.sent = []
  returned : s.returned = []

/-- Process 0 has made a pipe. -/
def newPipe : State where
  pipe := Pipe.pipealloc (fun _ => 0)
  allocated := true
  ref := fun _ => 1
  descriptors := fun _ => [0]
  killed := fun _ => false
  standing := fun _ => .out
  sent := []
  returned := []

theorem newPipe_created : Created 0 newPipe :=
  ⟨⟨_, rfl⟩, rfl, fun _ => rfl, fun _ => rfl, fun _ => rfl, rfl, rfl⟩

/-- The steps that run no `pipewrite` for a process that has been killed. -/
def SparesKilled (s : State) : Event -> Prop
  | .write who _ _ _ => s.killed who = false
  | .resume who _ => (s.standing who).needs = some true -> s.killed who = false
  | _ => True

/-- What has to be shown of each operation for the steps to keep an invariant; `live` says
that no killed process runs `pipewrite`. -/
structure Kept (invariant : State -> Prop) (live : Bool) : Prop where
  startWrite {s : State} {who : Nat} {addr : List UInt8} {n : Int} : invariant s ->
    s.standing who = .out -> who ∈ s.descriptors true -> addr.length = n.toNat ->
    invariant (s.stand who (.writing addr n 0 false))
  startRead {s : State} {who : Nat} {n : Int} : invariant s -> s.standing who = .out ->
    who ∈ s.descriptors false -> invariant (s.stand who (.reading n false))
  write {s : State} {who : Nat} {addr : List UInt8} {n : Int} {i : Nat} {late : Bool} :
    invariant s -> s.standing who = .writing addr n i false ->
    (live = true -> s.killed who = false) -> invariant (s.writeStep who addr n i late)
  read {s : State} {who : Nat} {n : Int} {late : Bool} : invariant s ->
    s.standing who = .reading n false -> invariant (s.readStep who n late)
  dup {s : State} {who : Nat} {writable : Bool} : invariant s -> s.standing who = .out ->
    who ∈ s.descriptors writable -> invariant (s.filedup who writable)
  fork {s : State} {parent child : Nat} : invariant s -> s.standing parent = .out ->
    s.standing child = .out -> parent ≠ child -> child ∉ s.descriptors false ->
    child ∉ s.descriptors true -> invariant (s.fork parent child)
  close {s : State} {who : Nat} {writable : Bool} : invariant s -> s.standing who = .out ->
    who ∈ s.descriptors writable -> invariant (s.fileclose who writable)
  pipeclose {s : State} {who : Nat} {writable : Bool} : invariant s ->
    s.standing who = .closing writable -> invariant (s.pipeclose who writable)
  kill {s : State} {who : Nat} : invariant s -> invariant (s.kill who)

theorem Kept.next {invariant : State -> Prop} {live : Bool} (kept : Kept invariant live)
    {s after : State} {event : Event} (holds : invariant s)
    (spared : live = true -> SparesKilled s event) (stepped : next s event = some after) :
    invariant after := by
  cases event with
  | write who addr n late =>
      rw [Channels.next] at stepped
      split at stepped
      next allowed =>
        rcases Option.some.inj stepped with rfl
        exact kept.write (kept.startWrite holds allowed.1 allowed.2.1 allowed.2.2)
          State.stand_self spared
      next => exact absurd stepped.symm (Option.some_ne_none _)
  | read who n late =>
      rw [Channels.next] at stepped
      split at stepped
      next allowed =>
        rcases Option.some.inj stepped with rfl
        exact kept.read (kept.startRead holds allowed.1 allowed.2) State.stand_self
      next => exact absurd stepped.symm (Option.some_ne_none _)
  | resume who late =>
      rw [Channels.next] at stepped
      split at stepped
      next here =>
        rcases Option.some.inj stepped with rfl
        exact kept.write holds here (fun live => spared live (by rw [here]; rfl))
      next here =>
        rcases Option.some.inj stepped with rfl
        exact kept.read holds here
      next => exact absurd stepped.symm (Option.some_ne_none _)
  | dup who writable =>
      rw [Channels.next] at stepped
      split at stepped
      next allowed =>
        rcases Option.some.inj stepped with rfl
        exact kept.dup holds allowed.1 allowed.2
      next => exact absurd stepped.symm (Option.some_ne_none _)
  | fork parent child =>
      rw [Channels.next] at stepped
      split at stepped
      next allowed =>
        rcases Option.some.inj stepped with rfl
        exact kept.fork holds allowed.1 allowed.2.1 allowed.2.2.1 allowed.2.2.2.1 allowed.2.2.2.2
      next => exact absurd stepped.symm (Option.some_ne_none _)
  | close who writable =>
      rw [Channels.next] at stepped
      split at stepped
      next allowed =>
        rcases Option.some.inj stepped with rfl
        exact kept.close holds allowed.1 allowed.2
      next => exact absurd stepped.symm (Option.some_ne_none _)
  | pipeclose who =>
      rw [Channels.next] at stepped
      split at stepped
      next closing =>
        rcases Option.some.inj stepped with rfl
        exact kept.pipeclose holds closing
      next => exact absurd stepped.symm (Option.some_ne_none _)
  | kill who =>
      rcases Option.some.inj stepped with rfl
      exact kept.kill holds

section Standings

variable {standing : Standing} {chan writable : Bool}

theorem Standing.wake_chan :
    (standing.wake chan).chan = if standing.chan = some chan then none else standing.chan := by
  cases standing with
  | out => rfl
  | closing writable => rfl
  | writing addr n i asleep => cases asleep <;> cases chan <;> rfl
  | reading n asleep => cases asleep <;> cases chan <;> rfl

theorem Standing.wake_needs : (standing.wake chan).needs = standing.needs := by
  cases standing with
  | out => rfl
  | closing writable => rfl
  | writing addr n i asleep => cases asleep <;> cases chan <;> rfl
  | reading n asleep => cases asleep <;> cases chan <;> rfl

theorem Standing.wake_part : (standing.wake chan).part = standing.part := by
  cases standing with
  | out => rfl
  | closing writable => rfl
  | writing addr n i asleep => cases asleep <;> cases chan <;> rfl
  | reading n asleep => cases asleep <;> cases chan <;> rfl

theorem Standing.wake_eq_closing :
    standing.wake chan = .closing writable ↔ standing = .closing writable := by
  cases standing with
  | out => exact Iff.rfl
  | closing writable => exact Iff.rfl
  | writing addr n i asleep =>
      cases asleep <;> cases chan <;> exact iff_of_false Standing.noConfusion Standing.noConfusion
  | reading n asleep =>
      cases asleep <;> cases chan <;> exact iff_of_false Standing.noConfusion Standing.noConfusion

/-- What a step without a close does to a process: it goes on, or its call is over. -/
def Standing.Follows (before after : Standing) : Prop :=
  (after.needs = none ∨ after.needs = before.needs) ∧
    forall writable, after = .closing writable ↔ before = .closing writable

theorem Standing.Follows.refl : standing.Follows standing := ⟨Or.inr rfl, fun _ => Iff.rfl⟩

theorem Standing.Follows.wake : standing.Follows (standing.wake chan) :=
  ⟨Or.inr Standing.wake_needs, fun _ => Standing.wake_eq_closing⟩

/-- A process in a call returns or stays in it. -/
theorem Standing.Follows.call {after : Standing} (needs : standing.needs = some writable)
    (ending : after.needs = none ∧ after = .out ∨ after.needs = some writable) :
    standing.Follows after := by
  refine ⟨ending.imp And.left (fun same => same.trans needs.symm), fun closed => iff_of_false ?_ ?_⟩
  · rintro rfl
    rcases ending with ⟨_, out⟩ | inCall
    · exact Standing.noConfusion out
    · exact Option.some_ne_none _ inCall.symm
  · rintro rfl
    exact Option.some_ne_none _ needs.symm

end Standings

/-- The files of the two ends count their descriptors, an end is open until the process
that closed its last descriptor has got to `pipeclose`, and the page is free when both are
closed. -/
structure Ends (s : State) : Prop where
  counted : forall writable, s.ref writable = (s.descriptors writable).length
  opened : forall writable, 0 < s.ref writable -> s.pipe.isOpen writable = true
  needed : forall who writable, (s.standing who).needs = some writable ->
    who ∈ s.descriptors writable
  closing : forall who writable, s.standing who = .closing writable ->
    s.ref writable = 0 ∧ s.pipe.isOpen writable = true
  alone : forall who other writable, s.standing who = .closing writable ->
    s.standing other = .closing writable -> who = other
  closed : forall writable, s.pipe.isOpen writable = true ->
    0 < s.ref writable ∨ Exists fun who => s.standing who = .closing writable
  allocated : s.allocated = (s.pipe.readopen || s.pipe.writeopen)

namespace Ends

variable {s after : State} {who other : Nat} {writable : Bool}

theorem created (first : Created who s) : Ends s := by
  rcases first.pipe with ⟨data, pipe⟩
  have isOpen : forall writable, s.pipe.isOpen writable = true :=
    fun writable => by rw [pipe]; cases writable <;> rfl
  refine ⟨fun writable => ?_, fun writable _ => isOpen writable, fun other writable needs => ?_,
    fun other writable closing => ?_, fun other another writable closing _ => ?_,
    fun writable _ => Or.inl ?_, ?_⟩
  · rw [first.ref, first.descriptors, List.length_singleton]
  · rw [first.standing] at needs
    exact absurd needs.symm (Option.some_ne_none _)
  · rw [first.standing] at closing
    exact Standing.noConfusion closing
  · rw [first.standing] at closing
    exact Standing.noConfusion closing
  · rw [first.ref]
    exact Nat.one_pos
  · rw [first.allocated, pipe]
    rfl

/-- A process in a call keeps the end that it uses open. -/
theorem open_of_needs (ends : Ends s) (needs : (s.standing who).needs = some writable) :
    s.pipe.isOpen writable = true := by
  refine ends.opened writable ?_
  rw [ends.counted]
  exact List.length_pos_of_mem (ends.needed who writable needs)

/-- A step that leaves the ends alone and lets processes go on or return. -/
theorem calm (ends : Ends s) (ref : after.ref = s.ref)
    (descriptors : after.descriptors = s.descriptors) (allocated : after.allocated = s.allocated)
    (readopen : after.pipe.readopen = s.pipe.readopen)
    (writeopen : after.pipe.writeopen = s.pipe.writeopen)
    (follows : forall who, (s.standing who).Follows (after.standing who)) : Ends after := by
  have isOpen : forall writable, after.pipe.isOpen writable = s.pipe.isOpen writable := by
    intro writable
    cases writable with
    | false => exact readopen
    | true => exact writeopen
  refine ⟨?_, ?_, ?_, ?_, ?_, ?_, ?_⟩
  · rw [ref, descriptors]
    exact ends.counted
  · intro writable positive
    rw [ref] at positive
    rw [isOpen]
    exact ends.opened writable positive
  · intro who writable needs
    rw [descriptors]
    refine ends.needed who writable ?_
    rcases (follows who).1 with none | same
    · rw [none] at needs
      exact absurd needs.symm (Option.some_ne_none _)
    · rw [← same, needs]
  · intro who writable now
    rw [ref, isOpen]
    exact ends.closing who writable (((follows who).2 writable).mp now)
  · intro who other writable first second
    exact ends.alone who other writable (((follows who).2 writable).mp first)
      (((follows other).2 writable).mp second)
  · intro writable now
    rw [isOpen] at now
    rw [ref]
    exact (ends.closed writable now).imp id
      (fun ⟨who, before⟩ => ⟨who, ((follows who).2 writable).mpr before⟩)
  · rw [allocated, readopen, writeopen]
    exact ends.allocated

theorem stand (ends : Ends s) {standing : Standing} (follows : (s.standing who).Follows standing) :
    Ends (s.stand who standing) := by
  refine ends.calm rfl rfl rfl rfl rfl (fun other => ?_)
  by_cases same : other = who
  · rw [same, State.stand_self]
    exact follows
  · rw [State.stand_of_ne same]
    exact Standing.Follows.refl

theorem wakeup (ends : Ends s) (chan : Bool) : Ends (s.wakeup chan) :=
  ends.calm rfl rfl rfl rfl rfl (fun _ => Standing.Follows.wake)

theorem pipe (ends : Ends s) {p : Pipe} (readopen : p.readopen = s.pipe.readopen)
    (writeopen : p.writeopen = s.pipe.writeopen) (sent : List (Nat × UInt8)) :
    Ends { s with pipe := p, sent := sent } :=
  ends.calm rfl rfl rfl readopen writeopen (fun _ => Standing.Follows.refl)

theorem note (ends : Ends s) (result : Return) : Ends (s.note result) :=
  ends.calm rfl rfl rfl rfl rfl (fun _ => Standing.Follows.refl)

theorem arrive (ends : Ends s) (late : Bool) : Ends (s.arrive who late) :=
  ends.calm rfl rfl rfl rfl rfl (fun _ => Standing.Follows.refl)

theorem writeStep (ends : Ends s) {addr : List UInt8} {n : Int} {i : Nat} {asleep late : Bool}
    (here : s.standing who = .writing addr n i asleep) : Ends (s.writeStep who addr n i late) := by
  rcases run : Pipe.pipewrite (s.killed who) addr i s.pipe with ⟨stop, j, q⟩
  have same : q.readopen = s.pipe.readopen ∧ q.writeopen = s.pipe.writeopen := by
    have loop := @Pipe.writeLoop_ends s.pipe (addr.drop i) (s.killed who) i
    rw [Pipe.pipewrite] at run
    rw [run] at loop
    exact loop
  have needs : (s.standing who).needs = some true := by rw [here]; rfl
  have moved := ends.pipe same.1 same.2
      (s.sent ++ ((addr.take j).drop i).map (fun byte => (who, byte)))
  have woken : forall chan, ((s.standing who).wake chan).needs = some true :=
    fun chan => Standing.wake_needs.trans needs
  rw [State.writeStep, run]
  cases stop with
  | returned =>
      exact ((moved.wakeup false).stand
        (Standing.Follows.call (woken false) (Or.inl ⟨rfl, rfl⟩))).note _
  | failed => exact (moved.stand (Standing.Follows.call needs (Or.inl ⟨rfl, rfl⟩))).note _
  | asleep =>
      exact ((moved.wakeup false).stand (Standing.Follows.call (woken false) (Or.inr rfl))).arrive
        late

theorem readStep (ends : Ends s) {n : Int} {asleep late : Bool}
    (here : s.standing who = .reading n asleep) : Ends (s.readStep who n late) := by
  rcases run : Pipe.piperead (s.killed who) n s.pipe with ⟨stop, bytes, q⟩
  have same := @Pipe.piperead_ends s.pipe (s.killed who) n
  rw [run] at same
  have needs : (s.standing who).needs = some false := by rw [here]; rfl
  have moved := ends.pipe same.1 same.2 s.sent
  rw [State.readStep, run]
  cases stop with
  | returned => exact ((moved.wakeup true).stand
      (Standing.Follows.call (Standing.wake_needs.trans needs) (Or.inl ⟨rfl, rfl⟩))).note _
  | failed => exact (moved.stand (Standing.Follows.call needs (Or.inl ⟨rfl, rfl⟩))).note _
  | asleep => exact (moved.stand (Standing.Follows.call needs (Or.inr rfl))).arrive late

theorem kill (ends : Ends s) : Ends (s.kill who) := by
  have both : (s.standing who).Follows (((s.standing who).wake true).wake false) :=
    ⟨Or.inr (Standing.wake_needs.trans Standing.wake_needs),
      fun _ => Standing.wake_eq_closing.trans Standing.wake_eq_closing⟩
  exact Ends.calm (ends.stand both) rfl rfl rfl rfl rfl (fun _ => Standing.Follows.refl)

/-- A process starts a call on an end that it has a descriptor for. -/
theorem enter (ends : Ends s) {standing : Standing} (idle : s.standing who = .out)
    (needs : standing.needs = some writable) (held : who ∈ s.descriptors writable) :
    Ends (s.stand who standing) := by
  have notClosing : forall writable, standing ≠ .closing writable := by
    rintro other rfl
    exact Option.some_ne_none _ needs.symm
  have before : forall other writable, (s.stand who standing).standing other = .closing writable ->
      s.standing other = .closing writable := by
    intro other writable closing
    by_cases same : other = who
    · rw [same, State.stand_self] at closing
      exact absurd closing (notClosing writable)
    · rw [State.stand_of_ne same] at closing
      exact closing
  refine ⟨ends.counted, ends.opened, fun other another needsNow => ?_,
    fun other another closing => ends.closing other another (before other another closing),
    fun one two another first second => ends.alone one two another (before one another first)
    (before two another second), fun another isOpen => (ends.closed another isOpen).imp id
    (fun ⟨closer, closing⟩ => ⟨closer, ?_⟩), ends.allocated⟩
  · by_cases same : other = who
    · rw [same, State.stand_self, needs] at needsNow
      rw [same, ← Option.some.inj needsNow]
      exact held
    · rw [State.stand_of_ne same] at needsNow
      exact ends.needed other another needsNow
  · have different : closer ≠ who := by
      rintro rfl
      rw [idle] at closing
      exact Standing.noConfusion closing
    rw [State.stand_of_ne different]
    exact closing

/-- More descriptors for ends that have some. -/
theorem grow (ends : Ends s) (pipe : after.pipe = s.pipe) (standing : after.standing = s.standing)
    (allocated : after.allocated = s.allocated)
    (counted : forall writable, after.ref writable = (after.descriptors writable).length)
    (kept : forall writable who, who ∈ s.descriptors writable -> who ∈ after.descriptors writable)
    (none : forall writable, s.ref writable = 0 -> after.ref writable = 0) : Ends after := by
  have positive : forall writable, 0 < after.ref writable -> 0 < s.ref writable := by
    intro writable some
    refine Nat.pos_of_ne_zero (fun zero => ?_)
    rw [none writable zero] at some
    exact Nat.lt_irrefl _ some
  refine ⟨counted, ?_, ?_, ?_, ?_, ?_, ?_⟩
  · rw [pipe]
    exact fun writable some => ends.opened writable (positive writable some)
  · rw [standing]
    exact fun who writable needs => kept writable who (ends.needed who writable needs)
  · rw [standing, pipe]
    exact fun who writable closing =>
      ⟨none writable (ends.closing who writable closing).1, (ends.closing who writable closing).2⟩
  · rw [standing]
    exact ends.alone
  · rw [pipe, standing]
    refine fun writable isOpen => (ends.closed writable isOpen).imp (fun some => ?_) id
    rw [ends.counted] at some
    rcases List.exists_mem_of_length_pos some with ⟨who, inside⟩
    rw [counted]
    exact List.length_pos_of_mem (kept writable who inside)
  · rw [allocated, pipe]
    exact ends.allocated

theorem filedup (ends : Ends s) (held : who ∈ s.descriptors writable) :
    Ends (s.filedup who writable) := by
  refine ends.grow rfl rfl rfl (fun other => ?_) (fun other owner inside => ?_)
    (fun other zero => ?_)
  · simp only [State.filedup]
    by_cases same : other = writable
    · rw [same, Function.update_self, Function.update_self, List.length_cons, ends.counted]
    · rw [Function.update_of_ne same, Function.update_of_ne same, ends.counted]
  · simp only [State.filedup]
    by_cases same : other = writable
    · rw [same, Function.update_self]
      rw [same] at inside
      exact List.mem_cons_of_mem _ inside
    · rw [Function.update_of_ne same]
      exact inside
  · simp only [State.filedup]
    by_cases same : other = writable
    · rw [same, ends.counted] at zero
      exact absurd zero (Nat.ne_of_gt (List.length_pos_of_mem held))
    · rw [Function.update_of_ne same]
      exact zero

theorem fork (ends : Ends s) (parent child : Nat) : Ends (s.fork parent child) := by
  refine ends.grow rfl rfl rfl (fun writable => ?_) (fun writable owner inside => ?_)
    (fun writable zero => ?_)
  · show s.ref writable + _ = (s.descriptors writable ++ List.replicate _ child).length
    rw [List.length_append, List.length_replicate, ends.counted]
  · exact List.mem_append_left _ inside
  · have empty : s.descriptors writable = [] :=
      List.length_eq_zero_iff.mp ((ends.counted writable).symm.trans zero)
    show s.ref writable + (s.descriptors writable).count parent = 0
    rw [zero, empty, List.count_nil]

/-- The count and the list of an end lose the descriptor that is closed. -/
def dropped (s : State) (who : Nat) (writable : Bool) : State :=
  { s with
    ref := Function.update s.ref writable (s.ref writable - 1)
    descriptors := Function.update s.descriptors writable ((s.descriptors writable).erase who) }

theorem fileclose_eq : s.fileclose who writable =
    if 0 < s.ref writable - 1 then dropped s who writable
    else (dropped s who writable).stand who (.closing writable) := rfl

theorem dropped_ref : (dropped s who writable).ref writable = s.ref writable - 1 :=
  Function.update_self ..

theorem dropped_ref_of_ne {another : Bool} (different : another ≠ writable) :
    (dropped s who writable).ref another = s.ref another :=
  Function.update_of_ne different ..

theorem dropped_descriptors :
    (dropped s who writable).descriptors writable = (s.descriptors writable).erase who :=
  Function.update_self ..

theorem dropped_descriptors_of_ne {another : Bool} (different : another ≠ writable) :
    (dropped s who writable).descriptors another = s.descriptors another :=
  Function.update_of_ne different ..

theorem dropped_counted (ends : Ends s) (held : who ∈ s.descriptors writable) (another : Bool) :
    (dropped s who writable).ref another =
      ((dropped s who writable).descriptors another).length := by
  by_cases same : another = writable
  · rw [same, dropped_ref, dropped_descriptors, List.length_erase_of_mem held, ends.counted]
  · rw [dropped_ref_of_ne same, dropped_descriptors_of_ne same, ends.counted]

theorem positive (ends : Ends s) (held : who ∈ s.descriptors writable) : 0 < s.ref writable := by
  rw [ends.counted]
  exact List.length_pos_of_mem held

theorem dropped_opened (ends : Ends s) (held : who ∈ s.descriptors writable) (another : Bool)
    (some : 0 < (dropped s who writable).ref another) : s.pipe.isOpen another = true := by
  by_cases same : another = writable
  · rw [same]
    exact ends.opened writable (ends.positive held)
  · rw [dropped_ref_of_ne same] at some
    exact ends.opened another some

/-- The process that closes its descriptor is in no call. -/
theorem dropped_needed (ends : Ends s) (idle : s.standing who = .out) (user : Nat) (another : Bool)
    (needs : (s.standing user).needs = some another) :
    user ∈ (dropped s who writable).descriptors another := by
  have different : user ≠ who := by
    rintro rfl
    rw [idle] at needs
    exact Option.some_ne_none _ needs.symm
  by_cases same : another = writable
  · rw [same, dropped_descriptors]
    rw [same] at needs
    exact (List.mem_erase_of_ne different).mpr (ends.needed user writable needs)
  · rw [dropped_descriptors_of_ne same]
    exact ends.needed user another needs

/-- An end that has a descriptor is not being closed. -/
theorem not_closing (ends : Ends s) (held : who ∈ s.descriptors writable) (closer : Nat)
    (another : Bool) (closes : s.standing closer = .closing another) : another ≠ writable := by
  rintro rfl
  exact Nat.ne_of_gt (ends.positive held) (ends.closing closer another closes).1

theorem dropped_closing (ends : Ends s) (held : who ∈ s.descriptors writable) (closer : Nat)
    (another : Bool) (closes : s.standing closer = .closing another) :
    (dropped s who writable).ref another = 0 ∧ s.pipe.isOpen another = true := by
  rw [dropped_ref_of_ne (ends.not_closing held closer another closes)]
  exact ends.closing closer another closes

theorem dropped_more (ends : Ends s) (idle : s.standing who = .out)
    (held : who ∈ s.descriptors writable) (more : 0 < s.ref writable - 1) :
    Ends (dropped s who writable) := by
  refine ⟨ends.dropped_counted held, ends.dropped_opened held, ends.dropped_needed idle,
    ends.dropped_closing held, ends.alone, fun another isOpen => ?_, ends.allocated⟩
  by_cases same : another = writable
  · rw [same, dropped_ref]
    exact Or.inl more
  · rw [dropped_ref_of_ne same]
    exact ends.closed another isOpen

/-- With the last descriptor the process goes on to close the end, and it is the only one. -/
theorem dropped_last (ends : Ends s) (idle : s.standing who = .out)
    (held : who ∈ s.descriptors writable) (last : s.ref writable - 1 = 0) :
    Ends ((dropped s who writable).stand who (.closing writable)) := by
  have old : forall closer another, closer ≠ who ->
      ((dropped s who writable).stand who (.closing writable)).standing closer =
        .closing another ->
      s.standing closer = .closing another := by
    intro closer another different closes
    rw [State.stand_of_ne different] at closes
    exact closes
  have own : forall another,
      ((dropped s who writable).stand who (.closing writable)).standing who = .closing another ->
      another = writable := by
    intro another closes
    rw [State.stand_self] at closes
    exact (Standing.closing.inj closes).symm
  refine ⟨ends.dropped_counted held, ends.dropped_opened held, fun user another needs => ?_,
    fun closer another closes => ?_, fun one two another first second => ?_,
    fun another isOpen => ?_, ends.allocated⟩
  · by_cases same : user = who
    · rw [same, State.stand_self] at needs
      exact absurd needs.symm (Option.some_ne_none _)
    · rw [State.stand_of_ne same] at needs
      exact ends.dropped_needed idle user another needs
  · by_cases same : closer = who
    · rw [same] at closes
      rw [own another closes]
      exact ⟨(@dropped_ref s who writable).trans last, ends.opened writable (ends.positive held)⟩
    · exact ends.dropped_closing held closer another (old closer another same closes)
  · by_cases left : one = who
    · by_cases right : two = who
      · rw [left, right]
      · rw [left] at first
        exact absurd (own another first)
          (ends.not_closing held two another (old two another right second))
    · by_cases right : two = who
      · rw [right] at second
        exact absurd (own another second)
          (ends.not_closing held one another (old one another left first))
      · exact ends.alone one two another (old one another left first)
          (old two another right second)
  · by_cases same : another = writable
    · rw [same]
      exact Or.inr ⟨who, State.stand_self⟩
    · show 0 < (dropped s who writable).ref another ∨ _
      rw [dropped_ref_of_ne same]
      refine (ends.closed another isOpen).imp id (fun ⟨closer, closes⟩ => ⟨closer, ?_⟩)
      have different : closer ≠ who := by
        rintro rfl
        rw [idle] at closes
        exact Standing.noConfusion closes
      rw [State.stand_of_ne different]
      exact closes

theorem fileclose (ends : Ends s) (idle : s.standing who = .out)
    (held : who ∈ s.descriptors writable) : Ends (s.fileclose who writable) := by
  rw [fileclose_eq]
  split
  next more => exact ends.dropped_more idle held more
  next last => exact ends.dropped_last idle held (Nat.eq_zero_of_not_pos last)

theorem isOpen_pipeclose {p : Pipe} {other : Bool} :
    (p.pipeclose writable).isOpen other = (p.isOpen other && decide (other ≠ writable)) := by
  cases writable <;> cases other <;> simp [Pipe.pipeclose, Pipe.isOpen]

theorem pipeclose (ends : Ends s) (closing : s.standing who = .closing writable) :
    Ends (s.pipeclose who writable) := by
  have zero := (ends.closing who writable closing).1
  have wasOpen := (ends.closing who writable closing).2
  have before : forall other, (s.pipe.pipeclose writable).isOpen other = true ->
      other ≠ writable ∧ s.pipe.isOpen other = true := by
    intro other isOpen
    rw [isOpen_pipeclose, Bool.and_eq_true, decide_eq_true_eq] at isOpen
    exact ⟨isOpen.2, isOpen.1⟩
  have after : forall other, other ≠ writable -> s.pipe.isOpen other = true ->
      (s.pipe.pipeclose writable).isOpen other = true := by
    intro other different isOpen
    rw [isOpen_pipeclose, isOpen, decide_eq_true different]
    rfl
  have positive : forall other, 0 < s.ref other -> other ≠ writable := by
    rintro other some rfl
    exact Nat.ne_of_gt some zero
  have stays : forall closer other, (s.pipeclose who writable).standing closer = .closing other ->
      closer ≠ who ∧ s.standing closer = .closing other := by
    intro closer other closes
    by_cases same : closer = who
    · rw [same, State.pipeclose, State.stand_self] at closes
      exact Standing.noConfusion closes
    · rw [State.pipeclose, State.stand_of_ne same] at closes
      exact ⟨same, Standing.wake_eq_closing.mp closes⟩
  refine ⟨ends.counted, fun other some => after other (positive other some)
    (ends.opened other some), fun user other needs => ?_, fun closer other closes => ?_,
    fun one two other first second => ends.alone one two other (stays one other first).2
    (stays two other second).2, fun other isOpen => ?_, ?_⟩
  · by_cases same : user = who
    · rw [same, State.pipeclose, State.stand_self] at needs
      exact absurd needs.symm (Option.some_ne_none _)
    · rw [State.pipeclose, State.stand_of_ne same] at needs
      exact ends.needed user other (Standing.wake_needs.symm.trans needs)
  · rcases stays closer other closes with ⟨different, old⟩
    refine ⟨(ends.closing closer other old).1, after other ?_ (ends.closing closer other old).2⟩
    rintro rfl
    exact different (ends.alone closer who other old closing)
  · rcases before other isOpen with ⟨different, wasOpen⟩
    refine (ends.closed other wasOpen).imp id (fun ⟨closer, closes⟩ => ⟨closer, ?_⟩)
    have another : closer ≠ who := by
      rintro rfl
      exact different (Standing.closing.inj (closes.symm.trans closing))
    rw [State.pipeclose, State.stand_of_ne another]
    exact Standing.wake_eq_closing.mpr closes
  · show (s.allocated && _) = _
    rw [ends.allocated]
    cases writable with
    | false =>
        have opened : s.pipe.readopen = true := wasOpen
        rw [opened]
        rfl
    | true =>
        have opened : s.pipe.writeopen = true := wasOpen
        rw [opened, Bool.or_true]
        rfl

theorem kept : Kept Ends false where
  startWrite ends idle held _ := ends.enter idle rfl held
  startRead ends idle held := ends.enter idle rfl held
  write ends here _ := ends.writeStep here
  read ends here := ends.readStep here
  dup ends _ held := ends.filedup held
  fork ends _ _ _ _ _ := ends.fork _ _
  close ends idle held := ends.fileclose idle held
  pipeclose ends closing := ends.pipeclose closing
  kill ends := ends.kill

theorem reached {guard : State -> Event -> Prop} (reached : Reachable next (Created who) guard s) :
    Ends s :=
  reached.invariant (fun _ first => created first) (fun _ _ _ ends _ stepped =>
    kept.next ends (fun live => absurd live Bool.false_ne_true) stepped)

end Ends

/-- In every run, an end is open while a process has a descriptor for it or is about to close
it, the count of its file is the number of its descriptors, and whoever is in a call finds
the page of the pipe allocated. -/
theorem pipe_open_iff {who : Nat} {s : State} (reached : Reachable next (Created who) anyStep s) :
    (forall writable, s.ref writable = (s.descriptors writable).length ∧
      (s.pipe.isOpen writable = true ↔
        s.descriptors writable ≠ [] ∨ Exists fun who => s.standing who = .closing writable)) ∧
    forall who, s.standing who ≠ .out -> s.allocated = true := by
  have ends := Ends.reached reached
  have allocated : forall writable, s.pipe.isOpen writable = true -> s.allocated = true := by
    intro writable isOpen
    rw [ends.allocated, Bool.or_eq_true]
    cases writable with
    | false => exact Or.inl isOpen
    | true => exact Or.inr isOpen
  have some : forall writable, 0 < s.ref writable ↔ s.descriptors writable ≠ [] := by
    intro writable
    rw [ends.counted, List.length_pos_iff]
  refine ⟨fun writable => ⟨ends.counted writable,
    fun isOpen => (ends.closed writable isOpen).imp (some writable).mp id, ?_⟩, fun user busy => ?_⟩
  · rintro (held | ⟨closer, closes⟩)
    · exact ends.opened writable ((some writable).mpr held)
    · exact (ends.closing closer writable closes).2
  · cases here : s.standing user with
    | out => exact absurd here busy
    | writing addr n i asleep =>
        exact allocated true (@Ends.open_of_needs s user _ ends (by rw [here]; rfl))
    | reading n asleep =>
        exact allocated false (@Ends.open_of_needs s user _ ends (by rw [here]; rfl))
    | closing writable => exact allocated writable (ends.closing user writable here).2

/-- A process that forked closes its write end. -/
theorem pipe_open_iff_forked :
    Exists fun s =>
      run next newPipe [.fork 0 1, .close 0 true] = some s ∧
      (s.pipe.isOpen true = true ↔
        s.descriptors true ≠ [] ∨ Exists fun who => s.standing who = .closing true) :=
  ⟨_, rfl, ((pipe_open_iff (@Reachable.run _ _ next (Created 0) newPipe _ (.start newPipe_created)
    [.fork 0 1, .close 0 true] rfl)).1 true).2⟩

end Channels
end OsProjects
