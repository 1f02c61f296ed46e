import OsProjects.TripleFs.BufferCache
import OsProjects.Machine.Transition
import Mathlib.Data.List.FinRange

namespace OsProjects
namespace TripleFs

open Machine

/-!
# The buffer cache under many processes

Processes call `bread`, `bwrite` and `brelse` in any order, and the disk raises an interrupt
when it is done with a command.  A step is a region under `bcache.lock` or under `idelock`;
`sleep` gives the lock back in the step that puts a process to sleep, and `kill` makes a
sleeping process run.  Both loops look again after every `sleep`.

The controller works on one command at a time.  What it does with it is taken to happen when
the interrupt comes, which may also report an error.
-/

/-- One of the buffers of `bcache.buf`. -/
abbrev Slot : Type := Fin NBUF

/-- A sector of disk 1 (`true`) or of disk 0. -/
abbrev Address : Type := Bool × Nat

/-- What `idestart` sends to the controller. -/
inductive Command
  | read (address : Address)
  | write (address : Address) (data : Block)

/-- The test by which `bget` recognizes a sector of a device. -/
def Buf.caches (dev sector : Nat) (b : Buf) : Bool := decide (b.dev = dev ∧ b.sector = sector)

/-- The registers take one bit of the device and 28 bits of the sector. -/
def Buf.address (b : Buf) : Address := (decide (b.dev % 2 = 1), b.sector % 2 ^ 28)

def Buf.command (b : Buf) : Command := if b.dirty then .write b.address b.data else .read b.address

/-- The flags for which `iderw` waits. -/
def Buf.Synced (b : Buf) : Prop := b.valid = true ∧ b.dirty = false

instance (b : Buf) : Decidable b.Synced := inferInstanceAs (Decidable (_ ∧ _))

structure Controller where
  disk : Address -> Block
  command : Option Command
  /-- What `insl` gets. -/
  register : Block

/-- The controller carries out its command, unless there is an error. -/
def Controller.finish (c : Controller) (failed : Bool) : Controller :=
  match c.command with
  | none => c
  | some (.read address) =>
      { c with
        command := none
        register := if failed then c.register else c.disk address }
  | some (.write address data) =>
      { c with
        command := none
        disk := if failed then c.disk else Function.update c.disk address data }

theorem Controller.finish_command (c : Controller) (failed : Bool) :
    (c.finish failed).command = none := by
  rw [Controller.finish]
  split
  next none => exact none
  next => rfl
  next => rfl

/-- A completed access to a sector; no code reads it. -/
inductive Access
  | got (address : Address) (data : Block)
  | wrote (address : Address) (data : Block)

/-- The access that the end of a command amounts to. -/
def Command.access : Command -> List Access
  | .read _ => []
  | .write address data => [.wrote address data]

namespace SharedCache

/-- Where a process stands: outside of the cache, in `bget` (perhaps asleep on a buffer), in
`bread` with its buffer, or in `iderw`, which `bread` or `bwrite` called. -/
inductive Standing
  | out
  | getting (dev sector : Nat) (asleep : Option Slot)
  | checking (b : Slot)
  | syncing (b : Slot) (reads : Bool) (asleep : Bool)

/-- The buffer that a process works on in a call. -/
def Standing.uses : Standing -> Option Slot
  | .out => none
  | .getting _ _ _ => none
  | .checking b => some b
  | .syncing b _ _ => some b

def Standing.awake : Standing -> Standing
  | .getting dev sector _ => .getting dev sector none
  | .syncing b reads _ => .syncing b reads false
  | other => other

/-- The channel that a process sleeps on. -/
def Standing.chan : Standing -> Option Slot
  | .getting _ _ asleep => asleep
  | .syncing b _ true => some b
  | _ => none

inductive Panic
  | noBuffers
  | bwrite
  | brelse
  | notBusy
  | nothingToDo
  | noDisk1
  deriving DecidableEq

structure State where
  controller : Controller
  havedisk1 : Bool
  /-- The list of the buffers, the most recently used one first. -/
  order : List Slot
  buf : Slot -> Buf
  idequeue : List Slot
  /-- The process that got the buffer from `bget` and has not given it to `brelse`. -/
  holder : Slot -> Option Nat
  standing : Nat -> Standing
  panicked : Option Panic
  /-- The buffers given to the driver, and those it is done with; no code reads them. -/
  requests : List Slot
  served : List Slot
  log : List Access

/-- A step.  A process changes and releases only buffers that it got from `bread`. -/
inductive Event
  | bread (who dev sector : Nat)
  | resume (who : Nat)
  | patch (who : Nat) (b : Slot) (data : Block)
  | bwrite (who : Nat) (b : Slot)
  | brelse (who : Nat) (b : Slot)
  | kill (who : Nat)
  | interrupt (failed : Bool)

namespace State

def stand (s : State) (who : Nat) (standing : Standing) : State :=
  { s with standing := Function.update s.standing who standing }

def store (s : State) (b : Slot) (new : Buf) : State :=
  { s with buf := Function.update s.buf b new }

def wakeup (s : State) (b : Slot) : State :=
  { s with standing := fun who =>
      if (s.standing who).chan = some b then (s.standing who).awake else s.standing who }

def panic (s : State) (reason : Panic) : State := { s with panicked := some reason }

/-- The process has the buffer, with these fields. -/
def take (s : State) (who : Nat) (b : Slot) (new : Buf) : State :=
  { s.store b new with holder := Function.update s.holder b (some who) }.stand who (.checking b)

/-- `bget`, from the lock or a `sleep` to the next `sleep` or the end. -/
def bget (s : State) (who dev sector : Nat) : State :=
  match s.order.find? (fun b => (s.buf b).caches dev sector) with
  | some b =>
      if (s.buf b).busy then s.stand who (.getting dev sector (some b))
      else s.take who b { s.buf b with busy := true }
  | none =>
      match s.order.reverse.find? (fun b => !(s.buf b).busy) with
      | some b =>
          s.take who b { s.buf b with
            dev := dev
            sector := sector
            busy := true
            valid := false
            dirty := false }
      | none => s.panic .noBuffers

/-- `bread` returns the buffer. -/
def give (s : State) (who : Nat) (b : Slot) : State :=
  { s with log := s.log ++ [Access.got (s.buf b).address (s.buf b).data] }.stand who .out

/-- The loop of `iderw`, up to the next `sleep` or the end. -/
def await (s : State) (who : Nat) (b : Slot) (reads : Bool) : State :=
  if (s.buf b).Synced then
    if reads then s.give who b else s.stand who .out
  else s.stand who (.syncing b reads true)

def idestart (s : State) (b : Slot) : State :=
  { s with controller := { s.controller with command := some (s.buf b).command } }

/-- Append a buffer to the queue, and start the disk if it is the first one. -/
def append (s : State) (b : Slot) : State :=
  let queued := { s with idequeue := s.idequeue ++ [b], requests := s.requests ++ [b] }
  if queued.idequeue.head? = some b then queued.idestart b else queued

theorem append_eq (s : State) (b : Slot) :
    s.append b = { s with
      idequeue := s.idequeue ++ [b]
      requests := s.requests ++ [b]
      controller := { s.controller with
        command := if (s.idequeue ++ [b]).head? = some b then some (s.buf b).command
          else s.controller.command } } := by
  by_cases first : (s.idequeue ++ [b]).head? = some b
  · simp only [append, first, if_true, idestart]
  · simp only [append, first, if_false]

def iderw (s : State) (who : Nat) (b : Slot) (reads : Bool) : State :=
  if (s.buf b).busy = false then s.panic .notBusy
  else if (s.buf b).Synced then s.panic .nothingToDo
  else if (s.buf b).dev ≠ 0 ∧ s.havedisk1 = false then s.panic .noDisk1
  else (s.append b).await who b reads

/-- `bread`, after `bget`. -/
def check (s : State) (who : Nat) (b : Slot) : State :=
  if (s.buf b).valid = false then s.iderw who b true else s.give who b

def bwrite (s : State) (who : Nat) (b : Slot) : State :=
  if (s.buf b).busy = false then s.panic .bwrite
  else (s.store b { s.buf b with dirty := true }).iderw who b false

def brelse (s : State) (b : Slot) : State :=
  if (s.buf b).busy = false then s.panic .brelse
  else
    { s.store b { s.buf b with busy := false } with
      order := b :: s.order.erase b
      holder := Function.update s.holder b none }.wakeup b

/-- `ideintr`, after the test that there is a request. -/
def serve (s : State) (b : Slot) (rest : List Slot) (failed : Bool) : State :=
  let data := if (s.buf b).dirty = false ∧ failed = false then s.controller.register
    else (s.buf b).data
  let done := { s.store b { s.buf b with data := data, valid := true, dirty := false } with
    idequeue := rest
    served := s.served ++ [b] }.wakeup b
  match rest with
  | [] => done
  | first :: _ => done.idestart first

def ideintr (s : State) (failed : Bool) : State :=
  match s.idequeue with
  | [] => s
  | b :: rest => s.serve b rest failed

/-- The end of the command of the controller. -/
def finish (s : State) (failed : Bool) : State :=
  { s with
    controller := s.controller.finish failed
    log := s.log ++ if failed then [] else (s.controller.command.map Command.access).getD [] }

end State

def next (s : State) (event : Event) : Option State :=
  if s.panicked.isSome then none
  else match event with
  | .bread who dev sector =>
      match s.standing who with
      | .out => some (s.bget who dev sector)
      | _ => none
  | .resume who =>
      match s.standing who with
      | .getting dev sector none => some (s.bget who dev sector)
      | .checking b => some (s.check who b)
      | .syncing b reads false => some (s.await who b reads)
      | _ => none
  | .patch who b data =>
      match s.standing who with
      | .out =>
          if s.holder b = some who then some (s.store b { s.buf b with data := data }) else none
      | _ => none
  | .bwrite who b =>
      match s.standing who with
      | .out => if s.holder b = some who then some (s.bwrite who b) else none
      | _ => none
  | .brelse who b =>
      match s.standing who with
      | .out => if s.holder b = some who then some (s.brelse b) else none
      | _ => none
  | .kill who => some (s.stand who (s.standing who).awake)
  | .interrupt failed => some ((s.finish failed).ideintr failed)

/-- What the steps can do. -/
inductive Moves (s : State) : Event -> State -> Prop
  | bread {who dev sector : Nat} : s.standing who = .out ->
      Moves s (.bread who dev sector) (s.bget who dev sector)
  | again {who dev sector : Nat} : s.standing who = .getting dev sector none ->
      Moves s (.resume who) (s.bget who dev sector)
  | check {who : Nat} {b : Slot} : s.standing who = .checking b ->
      Moves s (.resume who) (s.check who b)
  | await {who : Nat} {b : Slot} {reads : Bool} : s.standing who = .syncing b reads false ->
      Moves s (.resume who) (s.await who b reads)
  | patch {who : Nat} {b : Slot} {data : Block} : s.standing who = .out -> s.holder b = some who ->
      Moves s (.patch who b data) (s.store b { s.buf b with data := data })
  | bwrite {who : Nat} {b : Slot} : s.standing who = .out -> s.holder b = some who ->
      Moves s (.bwrite who b) (s.bwrite who b)
  | brelse {who : Nat} {b : Slot} : s.standing who = .out -> s.holder b = some who ->
      Moves s (.brelse who b) (s.brelse b)
  | kill {who : Nat} : Moves s (.kill who) (s.stand who (s.standing who).awake)
  | interrupt {failed : Bool} : Moves s (.interrupt failed) ((s.finish failed).ideintr failed)

theorem moves {s after : State} {event : Event} (stepped : next s event = some after) :
    s.panicked = none ∧ Moves s event after := by
  rw [next.eq_def] at stepped
  split at stepped
  next => exact absurd stepped.symm (Option.some_ne_none _)
  next running =>
  refine ⟨Option.not_isSome_iff_eq_none.mp running, ?_⟩
  cases event with
  | bread who dev sector =>
      dsimp only at stepped
      split at stepped
      next out => exact Option.some.inj stepped ▸ .bread out
      next => exact absurd stepped.symm (Option.some_ne_none _)
  | resume who =>
      dsimp only at stepped
      split at stepped
      next dev sector gets => exact Option.some.inj stepped ▸ .again gets
      next b checks => exact Option.some.inj stepped ▸ .check checks
      next b reads syncs => exact Option.some.inj stepped ▸ .await syncs
      next => exact absurd stepped.symm (Option.some_ne_none _)
  | patch who b data =>
      dsimp only at stepped
      split at stepped
      next out =>
        split at stepped
        next holds => exact Option.some.inj stepped ▸ .patch out holds
        next => exact absurd stepped.symm (Option.some_ne_none _)
      next => exact absurd stepped.symm (Option.some_ne_none _)
  | bwrite who b =>
      dsimp only at stepped
      split at stepped
      next out =>
        split at stepped
        next holds => exact Option.some.inj stepped ▸ .bwrite out holds
        next => exact absurd stepped.symm (Option.some_ne_none _)
      next => exact absurd stepped.symm (Option.some_ne_none _)
  | brelse who b =>
      dsimp only at stepped
      split at stepped
      next out =>
        split at stepped
        next holds => exact Option.some.inj stepped ▸ .brelse out holds
        next => exact absurd stepped.symm (Option.some_ne_none _)
      next => exact absurd stepped.symm (Option.some_ne_none _)
  | kill who => exact Option.some.inj stepped ▸ .kill
  | interrupt failed => exact Option.some.inj stepped ▸ .interrupt

/-- The buffers as `binit` leaves them, and a disk. -/
structure Boot (s : State) : Prop where
  order : s.order = (List.finRange NBUF).reverse
  buf : forall b, s.buf b = ⟨false, false, false, -1, 0, Bytes.fill 0⟩
  idequeue : s.idequeue = []
  command : s.controller.command = none
  holder : forall b, s.holder b = none
  standing : forall who, s.standing who = .out
  panicked : s.panicked = none
  requests : s.requests = []
  served : s.served = []
  log : s.log = []

/-- An empty disk. -/
def booted : State where
  controller := ⟨fun _ => Bytes.fill 0, none, Bytes.fill 0⟩
  havedisk1 := true
  order := (List.finRange NBUF).reverse
  buf := fun _ => ⟨false, false, false, -1, 0, Bytes.fill 0⟩
  idequeue := []
  holder := fun _ => none
  standing := fun _ => .out
  panicked := none
  requests := []
  served := []
  log := []

theorem booted_boot : Boot booted :=
  ⟨rfl, fun _ => rfl, rfl, rfl, fun _ => rfl, fun _ => rfl, rfl, rfl, rfl, rfl⟩

/-- The steps that ask for sectors that a disk can have. -/
def Addressable (_ : State) : Event -> Prop
  | .bread _ dev sector => dev < 2 ∧ sector < 2 ^ 28
  | _ => True

/-- A buffer has left `binit`'s device and is named by a sector of a disk. -/
def Named (b : Buf) : Prop := (b.dev = 0 ∨ b.dev = 1) ∧ b.sector < 2 ^ 28

/-- The registers distinguish the sectors that a disk can have. -/
theorem Named.of_address {a b : Buf} (first : Named a) (second : Named b)
    (same : a.address = b.address) : a.dev = b.dev ∧ a.sector = b.sector := by
  rcases Prod.mk.inj same with ⟨drives, sectors⟩
  rw [Nat.mod_eq_of_lt first.2, Nat.mod_eq_of_lt second.2] at sectors
  refine ⟨?_, sectors⟩
  rcases first.1 with one | one <;> rcases second.1 with two | two
  · exact one.trans two.symm
  · rw [one, two] at drives
    exact absurd drives (by decide)
  · rw [one, two] at drives
    exact absurd drives (by decide)
  · exact one.trans two.symm

/-- What the place of a process says of the buffers and of the queue. -/
def Fits (s : State) (who : Nat) : Standing -> Prop
  | .out => True
  | .getting dev sector asleep => (dev < 2 ∧ sector < 2 ^ 28) ∧
      forall b, asleep = some b -> (s.buf b).busy = true ∧ (s.buf b).caches dev sector = true
  | .checking b => s.holder b = some who ∧ (s.buf b).dirty = false
  | .syncing b reads asleep =>
      s.holder b = some who ∧ (if b ∈ s.idequeue then ¬ (s.buf b).Synced ∧ (s.buf b).dirty = !reads
        else asleep = false ∧ (s.buf b).Synced)

/-- What holds of the buffers, the queue, the controller and the processes between two steps. -/
structure Orderly (s : State) : Prop where
  fits : forall who, Fits s who (s.standing who)
  queued : forall b, b ∈ s.idequeue -> Exists fun who => Exists fun reads => Exists fun asleep =>
    s.standing who = .syncing b reads asleep
  /-- A buffer that no call works on. -/
  resting : forall b, (forall who, (s.standing who).uses ≠ some b) ->
    (s.buf b).dirty = false ∧ (s.holder b ≠ none -> (s.buf b).valid = true)
  listed : forall b, b ∈ s.order
  once : s.order.Nodup
  distinct : forall a b, (s.buf a).dev = (s.buf b).dev -> (s.buf a).sector = (s.buf b).sector ->
    Named (s.buf a) -> a = b
  named : forall b, Named (s.buf b) ∨ (s.buf b).dev = -1 ∧ (s.buf b).valid = false ∧
    s.holder b = none
  held : forall b, (s.buf b).busy = (s.holder b).isSome
  queuedOnce : s.idequeue.Nodup
  working : s.controller.command = s.idequeue.head?.map (fun b => (s.buf b).command)
  inOrder : s.requests = s.served ++ s.idequeue

namespace Orderly

variable {s after : State} {who : Nat} {x : Slot} {dev sector : Nat}

theorem boot (first : Boot s) : Orderly s := by
  refine ⟨fun who => ?_, fun b inside => ?_, fun b _ => ?_, fun b => ?_, ?_,
    fun a b _ _ named => ?_, fun b => Or.inr ?_, fun b => ?_, ?_, ?_, ?_⟩
  · rw [first.standing]
    exact trivial
  · rw [first.idequeue] at inside
    exact absurd inside List.not_mem_nil
  · rw [first.buf, first.holder]
    exact ⟨rfl, fun some => absurd rfl some⟩
  · rw [first.order]
    exact List.mem_reverse.mpr (List.mem_finRange b)
  · rw [first.order]
    exact List.nodup_reverse.mpr (List.nodup_finRange NBUF)
  · rw [Named, first.buf] at named
    exact absurd named.1 (by decide)
  · rw [first.buf, first.holder]
    exact ⟨rfl, rfl, rfl⟩
  · rw [first.buf, first.holder]
    rfl
  · rw [first.idequeue]
    exact List.nodup_nil
  · rw [first.command, first.idequeue]
    rfl
  · rw [first.requests, first.served, first.idequeue]
    rfl

/-- A process in a call on a buffer holds it. -/
theorem holder_of_uses (orderly : Orderly s) (uses : (s.standing who).uses = some x) :
    s.holder x = some who := by
  have fits := orderly.fits who
  cases standing : s.standing who with
  | out =>
      exact absurd ((congrArg Standing.uses standing).symm.trans uses).symm (Option.some_ne_none _)
  | getting dev sector asleep =>
      exact absurd ((congrArg Standing.uses standing).symm.trans uses).symm (Option.some_ne_none _)
  | checking b =>
      rw [standing] at fits uses
      rcases Option.some.inj uses with rfl
      exact fits.1
  | syncing b reads asleep =>
      rw [standing] at fits uses
      rcases Option.some.inj uses with rfl
      exact fits.1

theorem named_of_held (orderly : Orderly s) (holds : s.holder x = some who) : Named (s.buf x) := by
  rcases orderly.named x with named | fresh
  · exact named
  · exact absurd (holds.symm.trans fresh.2.2) (Option.some_ne_none _)

/-- A step that touches one buffer, for the process that holds it or takes it. -/
structure Acts (s after : State) (who : Nat) (x : Slot) : Prop where
  buf : forall b, b ≠ x -> after.buf b = s.buf b
  holder : forall b, b ≠ x -> after.holder b = s.holder b
  idequeue : forall b, b ≠ x -> (b ∈ after.idequeue ↔ b ∈ s.idequeue)
  others : forall other, other ≠ who -> after.standing other = s.standing other
  before : forall b, (s.standing who).uses = some b -> b = x
  free : forall other, s.holder x = some other -> other = who
  waiting : forall other dev sector, other ≠ who -> s.standing other = .getting dev sector
    (some x) -> (after.buf x).busy = true ∧ (after.buf x).caches dev sector = true
  order : after.order.Perm s.order
  place : ((after.buf x).dev = (s.buf x).dev ∧ (after.buf x).sector = (s.buf x).sector) ∨ forall b,
    b ≠ x -> ¬ ((s.buf b).dev = (after.buf x).dev ∧ (s.buf b).sector = (after.buf x).sector)

/-- Such a step leaves what the other processes rely on. -/
theorem Acts.fits (acts : Acts s after who x) (orderly : Orderly s) {other : Nat}
    (different : other ≠ who) : Fits after other (after.standing other) := by
  have fits := orderly.fits other
  have away : forall b, s.holder b = some other -> b ≠ x := by
    rintro b holds rfl
    exact different (acts.free other holds)
  rw [acts.others other different]
  cases standing : s.standing other with
  | out => exact trivial
  | getting dev sector asleep =>
      rw [standing] at fits
      refine ⟨fits.1, fun b sleeps => ?_⟩
      by_cases same : b = x
      · rw [same]
        rw [sleeps, same] at standing
        exact acts.waiting other dev sector different standing
      · rw [acts.buf b same]
        exact fits.2 b sleeps
  | checking b =>
      rw [standing] at fits
      have same := away b fits.1
      rw [Fits, acts.holder b same, acts.buf b same]
      exact fits
  | syncing b reads asleep =>
      rw [standing] at fits
      have same := away b fits.1
      rw [Fits, acts.holder b same, acts.buf b same]
      simp only [acts.idequeue b same]
      exact fits

/-- What remains to be shown of such a step. -/
theorem act (orderly : Orderly s) (who : Nat) (x : Slot) (acts : Acts s after who x)
    (own : Fits after who (after.standing who))
    (queued : x ∈ after.idequeue ->
      Exists fun reads => Exists fun asleep => after.standing who = .syncing x reads asleep)
    (resting : (after.standing who).uses ≠ some x ->
      (after.buf x).dirty = false ∧ (after.holder x ≠ none -> (after.buf x).valid = true))
    (named : Named (after.buf x) ∨
      (after.buf x).dev = -1 ∧ (after.buf x).valid = false ∧ after.holder x = none)
    (held : (after.buf x).busy = (after.holder x).isSome) (queuedOnce : after.idequeue.Nodup)
    (working : after.controller.command = after.idequeue.head?.map (fun b => (after.buf b).command))
    (inOrder : after.requests = after.served ++ after.idequeue) : Orderly after := by
  refine ⟨fun other => ?_, fun b inside => ?_, fun b unused => ?_,
    fun b => acts.order.mem_iff.mpr (orderly.listed b), acts.order.nodup_iff.mpr orderly.once,
    fun a b dev sector named => ?_, fun b => ?_, fun b => ?_, queuedOnce, working, inOrder⟩
  · by_cases same : other = who
    · rw [same]
      exact own
    · exact acts.fits orderly same
  · by_cases same : b = x
    · rw [same] at inside ⊢
      exact ⟨who, queued inside⟩
    · rcases orderly.queued b ((acts.idequeue b same).mp inside) with ⟨other, reads, asleep, syncs⟩
      refine ⟨other, reads, asleep, (acts.others other ?_).trans syncs⟩
      rintro rfl
      exact same (acts.before b (by rw [syncs]; rfl))
  · by_cases same : b = x
    · rw [same] at unused ⊢
      exact resting (unused who)
    · rw [acts.buf b same, acts.holder b same]
      refine orderly.resting b (fun other => ?_)
      by_cases own : other = who
      · rw [own]
        exact fun uses => same (acts.before b uses)
      · rw [← acts.others other own]
        exact unused other
  · by_cases first : a = x
    · by_cases second : b = x
      · rw [first, second]
      · rw [first, acts.buf b second] at dev sector
        rcases acts.place with place | place
        · rw [place.1] at dev
          rw [place.2] at sector
          rw [first, Named, place.1, place.2] at named
          exact first.trans (orderly.distinct x b dev sector named)
        · exact absurd ⟨dev.symm, sector.symm⟩ (place b second)
    · rw [acts.buf a first] at dev sector named
      by_cases second : b = x
      · rw [second] at dev sector ⊢
        rcases acts.place with place | place
        · rw [place.1] at dev
          rw [place.2] at sector
          exact orderly.distinct a x dev sector named
        · exact absurd ⟨dev, sector⟩ (place a first)
      · rw [acts.buf b second] at dev sector
        exact orderly.distinct a b dev sector named
  · by_cases same : b = x
    · rw [same]
      exact named
    · rw [acts.buf b same, acts.holder b same]
      exact orderly.named b
  · by_cases same : b = x
    · rw [same]
      exact held
    · rw [acts.buf b same, acts.holder b same]
      exact orderly.held b

/-! ### Processes that are woken -/

theorem fits_awake {standing : Standing} (fits : Fits s who standing) :
    Fits s who standing.awake := by
  cases standing with
  | out => exact fits
  | getting dev sector asleep =>
      exact ⟨fits.1, fun b sleeps => absurd sleeps.symm (Option.some_ne_none _)⟩
  | checking b => exact fits
  | syncing b reads asleep =>
      refine ⟨fits.1, ?_⟩
      have rest := fits.2
      split at rest
      next inside =>
        rw [if_pos inside]
        exact rest
      next outside =>
        rw [if_neg outside]
        exact ⟨rfl, rest.2⟩

theorem uses_awake {standing : Standing} : standing.awake.uses = standing.uses := by
  cases standing <;> rfl

/-- Waking some of the processes. -/
theorem stir (orderly : Orderly s) {standing : Nat -> Standing}
    (stirs : forall who, standing who = s.standing who ∨ standing who = (s.standing who).awake) :
    Orderly { s with standing := standing } := by
  refine ⟨fun who => ?_, fun b inside => ?_, fun b unused => ?_, orderly.listed, orderly.once,
    orderly.distinct, orderly.named, orderly.held, orderly.queuedOnce, orderly.working,
    orderly.inOrder⟩
  · show Fits s who (standing who)
    rcases stirs who with same | woken
    · rw [same]
      exact orderly.fits who
    · rw [woken]
      exact fits_awake (orderly.fits who)
  · rcases orderly.queued b inside with ⟨who, reads, asleep, syncs⟩
    rcases stirs who with same | woken
    · exact ⟨who, reads, asleep, same.trans syncs⟩
    · rw [syncs] at woken
      exact ⟨who, reads, false, woken⟩
  · refine orderly.resting b (fun who uses => unused who ?_)
    show (standing who).uses = some b
    rcases stirs who with same | woken
    · rw [same]
      exact uses
    · rw [woken, uses_awake]
      exact uses

theorem wakeup (orderly : Orderly s) (b : Slot) : Orderly (s.wakeup b) :=
  orderly.stir (fun who => by
    by_cases sleeps : (s.standing who).chan = some b
    · exact Or.inr (if_pos sleeps)
    · exact Or.inl (if_neg sleeps))

theorem kill (orderly : Orderly s) (who : Nat) : Orderly (s.stand who (s.standing who).awake) :=
  orderly.stir (fun other => by
    by_cases same : other = who
    · rw [same, Function.update_self]
      exact Or.inr rfl
    · rw [Function.update_of_ne same]
      exact Or.inl rfl)

/-- After a `wakeup`, nobody sleeps on the buffer. -/
theorem chan_wakeup (b : Slot) (who : Nat) : ((s.wakeup b).standing who).chan ≠ some b := by
  show (if (s.standing who).chan = some b then (s.standing who).awake
    else s.standing who).chan ≠ some b
  split
  next sleeps =>
    cases standing : s.standing who with
    | out => exact (Option.some_ne_none _).symm
    | getting dev sector asleep => exact (Option.some_ne_none _).symm
    | checking b => exact (Option.some_ne_none _).symm
    | syncing b reads asleep => exact (Option.some_ne_none _).symm
  next awake => exact awake

theorem note (orderly : Orderly s) (log : List Access) : Orderly { s with log := log } :=
  ⟨orderly.fits, orderly.queued, orderly.resting, orderly.listed, orderly.once, orderly.distinct,
    orderly.named, orderly.held, orderly.queuedOnce, orderly.working, orderly.inOrder⟩

/-! ### The queue -/

theorem syncing_of_queued (orderly : Orderly s) (inside : x ∈ s.idequeue)
    (holds : s.holder x = some who) :
    Exists fun reads => Exists fun asleep => s.standing who = .syncing x reads asleep := by
  rcases orderly.queued x inside with ⟨other, reads, asleep, syncs⟩
  have same : s.holder x = some other := orderly.holder_of_uses (by rw [syncs]; rfl)
  rw [holds] at same
  rcases Option.some.inj same with rfl
  exact ⟨reads, asleep, syncs⟩

theorem holder_of_free (orderly : Orderly s) (free : (s.buf x).busy = false) :
    s.holder x = none := by
  rw [← Option.not_isSome_iff_eq_none, ← orderly.held x, free]
  exact Bool.false_ne_true

theorem clean_of_free (orderly : Orderly s) (free : (s.buf x).busy = false) :
    (s.buf x).dirty = false :=
  (orderly.resting x (fun _ uses => Option.some_ne_none _
    ((orderly.holder_of_uses uses).symm.trans (orderly.holder_of_free free)))).1

theorem not_queued (orderly : Orderly s) (free : s.holder x = none) : x ∉ s.idequeue := by
  intro inside
  rcases orderly.queued x inside with ⟨other, reads, asleep, syncs⟩
  have holds : s.holder x = some other := orderly.holder_of_uses (by rw [syncs]; rfl)
  exact Option.some_ne_none _ (holds.symm.trans free)

/-- Nobody works on a buffer whose holder is outside of the cache. -/
theorem unused_of_out (orderly : Orderly s) (holds : s.holder x = some who)
    (out : s.standing who = .out) (other : Nat) : (s.standing other).uses ≠ some x := by
  intro uses
  rcases Option.some.inj (holds.symm.trans (orderly.holder_of_uses uses)) with rfl
  rw [out] at uses
  exact Option.some_ne_none _ uses.symm

theorem not_queued_of_out (orderly : Orderly s) (holds : s.holder x = some who)
    (out : s.standing who = .out) : x ∉ s.idequeue := by
  intro inside
  rcases orderly.syncing_of_queued inside holds with ⟨reads, asleep, syncs⟩
  exact Standing.noConfusion (out.symm.trans syncs)

/-- A command only depends on the buffers in the queue. -/
theorem working_congr (orderly : Orderly s) {buf : Slot -> Buf}
    (same : forall b, b ∈ s.idequeue -> buf b = s.buf b) :
    s.controller.command = s.idequeue.head?.map (fun b => (buf b).command) := by
  rw [orderly.working]
  cases queue : s.idequeue with
  | nil => rfl
  | cons first rest =>
      exact congrArg (fun b : Buf => some b.command)
        (same first (by rw [queue]; exact List.mem_cons_self)).symm

/-! ### `bget` -/

/-- A process that has no buffer goes to sleep or starts again. -/
theorem idle (orderly : Orderly s) {standing : Standing} (before : (s.standing who).uses = none)
    (fits : Fits s who standing) : Orderly (s.stand who standing) := by
  refine ⟨fun other => ?_, fun b inside => ?_, fun b unused => ?_, orderly.listed, orderly.once,
    orderly.distinct, orderly.named, orderly.held, orderly.queuedOnce, orderly.working,
    orderly.inOrder⟩
  · show Fits s other (Function.update s.standing who standing other)
    by_cases same : other = who
    · rw [same, Function.update_self]
      exact fits
    · rw [Function.update_of_ne same]
      exact orderly.fits other
  · rcases orderly.queued b inside with ⟨other, reads, asleep, syncs⟩
    refine ⟨other, reads, asleep, (Function.update_of_ne ?_ _ _).trans syncs⟩
    rintro rfl
    rw [syncs] at before
    exact Option.some_ne_none _ before
  · refine orderly.resting b (fun other uses => ?_)
    by_cases same : other = who
    · rw [same, before] at uses
      exact Option.some_ne_none _ uses.symm
    · refine unused other ?_
      show (Function.update s.standing who standing other).uses = some b
      rw [Function.update_of_ne same]
      exact uses

/-- A process takes a buffer that nobody holds. -/
theorem take (orderly : Orderly s) {new : Buf} (before : (s.standing who).uses = none)
    (free : (s.buf x).busy = false) (busy : new.busy = true) (clean : new.dirty = false)
    (named : Named new)
    (place : (new.dev = (s.buf x).dev ∧ new.sector = (s.buf x).sector) ∨
      forall b, b ≠ x -> ¬ ((s.buf b).dev = new.dev ∧ (s.buf b).sector = new.sector)) :
    Orderly (s.take who x new) := by
  have nobody := orderly.holder_of_free free
  have absent := orderly.not_queued nobody
  have buf : (s.take who x new).buf x = new := Function.update_self ..
  have holder : (s.take who x new).holder x = some who := Function.update_self ..
  have standing : (s.take who x new).standing who = .checking x := Function.update_self ..
  have acts : Acts s (s.take who x new) who x := by
    refine ⟨fun b other => Function.update_of_ne other ..,
      fun b other => Function.update_of_ne other .., fun b _ => Iff.rfl,
      fun other different => Function.update_of_ne different .., fun b uses => ?_,
      fun other holds => ?_, fun other dev sector different waits => ?_, List.Perm.refl _, ?_⟩
    · rw [before] at uses
      exact absurd uses.symm (Option.some_ne_none _)
    · rw [nobody] at holds
      exact absurd holds.symm (Option.some_ne_none _)
    · have fits := orderly.fits other
      rw [waits] at fits
      exact absurd (free.symm.trans (fits.2 x rfl).1) Bool.false_ne_true
    · rw [buf]
      exact place
  refine orderly.act who x acts ?_ (fun inside => absurd inside absent) (fun idle => ?_)
    (Or.inl (by rw [buf]; exact named)) ?_ orderly.queuedOnce ?_ orderly.inOrder
  · rw [standing]
    exact ⟨holder, by rw [buf]; exact clean⟩
  · rw [standing] at idle
    exact absurd rfl idle
  · rw [buf, holder]
    exact busy
  · refine orderly.working_congr (fun b inside => Function.update_of_ne ?_ ..)
    rintro rfl
    exact absent inside

/-! ### `iderw` -/

/-- A call returns with a buffer that agrees with the disk. -/
theorem leave (orderly : Orderly s) (uses : (s.standing who).uses = some x)
    (absent : x ∉ s.idequeue) (synced : (s.buf x).Synced) : Orderly (s.stand who .out) := by
  have holds := orderly.holder_of_uses uses
  have standing : (s.stand who .out).standing who = .out := Function.update_self ..
  have acts : Acts s (s.stand who .out) who x := by
    refine ⟨fun _ _ => rfl, fun _ _ => rfl, fun _ _ => Iff.rfl,
      fun other different => Function.update_of_ne different .., fun b usesToo => Option.some.inj
      (usesToo.symm.trans uses), fun other same => Option.some.inj (same.symm.trans holds),
      fun other dev sector _ waits => ?_, List.Perm.refl _, Or.inl ⟨rfl, rfl⟩⟩
    have fits := orderly.fits other
    rw [waits] at fits
    exact fits.2 x rfl
  refine orderly.act who x acts ?_ (fun inside => absurd inside absent)
    (fun _ => ⟨synced.2, fun _ => synced.1⟩) (orderly.named x)
    (orderly.held x) orderly.queuedOnce orderly.working orderly.inOrder
  rw [standing]
  exact trivial

/-- The holder of a buffer puts it into the queue. -/
theorem request (orderly : Orderly s) {new : Buf} {reads : Bool} (holds : s.holder x = some who)
    (before : forall b, (s.standing who).uses = some b -> b = x) (absent : x ∉ s.idequeue)
    (dev : new.dev = (s.buf x).dev) (sector : new.sector = (s.buf x).sector)
    (busy : new.busy = (s.buf x).busy) (unsynced : ¬ new.Synced) (dirty : new.dirty = !reads) :
    Orderly (((s.store x new).append x).stand who (.syncing x reads true)) := by
  rw [State.append_eq]
  have buf : Function.update s.buf x new x = new := Function.update_self ..
  have queued : x ∈ s.idequeue ++ [x] := List.mem_append_right _ List.mem_cons_self
  refine orderly.act who x ⟨fun b other => Function.update_of_ne other .., fun _ _ => rfl,
    fun b other => ?_, fun other different => Function.update_of_ne different .., before,
    fun other same => Option.some.inj (same.symm.trans holds), fun other _ _ _ waits => ?_,
    List.Perm.refl _, Or.inl ?_⟩ ?_ (fun _ => ⟨reads, true, Function.update_self ..⟩)
    (fun idle => absurd ?_ idle) ?_ ?_ ?_ ?_ ?_
  · show b ∈ s.idequeue ++ [x] ↔ b ∈ s.idequeue
    rw [List.mem_append, List.mem_singleton, or_iff_left other]
  · have fits := orderly.fits other
    rw [waits] at fits
    show (Function.update s.buf x new x).busy = true ∧
      (Function.update s.buf x new x).caches _ _ = true
    rw [buf, busy, Buf.caches, dev, sector]
    exact fits.2 x rfl
  · show (Function.update s.buf x new x).dev = _ ∧ (Function.update s.buf x new x).sector = _
    rw [buf]
    exact ⟨dev, sector⟩
  · show Fits _ who (Function.update s.standing who _ who)
    rw [Function.update_self]
    refine ⟨holds, ?_⟩
    show if x ∈ s.idequeue ++ [x] then _ else _
    rw [if_pos queued]
    show ¬ (Function.update s.buf x new x).Synced ∧ (Function.update s.buf x new x).dirty = _
    rw [buf]
    exact ⟨unsynced, dirty⟩
  · show (Function.update s.standing who _ who).uses = some x
    rw [Function.update_self]
    rfl
  · show Named (Function.update s.buf x new x) ∨ (Function.update s.buf x new x).dev = -1 ∧ _
    rw [buf, Named, dev, sector]
    exact Or.inl (orderly.named_of_held holds)
  · show (Function.update s.buf x new x).busy = _
    rw [buf, busy]
    exact orderly.held x
  · exact List.nodup_append.mpr ⟨orderly.queuedOnce, List.nodup_singleton x,
      fun b inside c last => by
      rcases List.mem_singleton.mp last with rfl
      rintro rfl
      exact absent inside⟩
  · have working := orderly.working
    show (if (s.idequeue ++ [x]).head? = some x then some (Function.update s.buf x new x).command
      else s.controller.command) = (s.idequeue ++ [x]).head?.map
      (fun b => (Function.update s.buf x new b).command)
    cases queue : s.idequeue with
    | nil =>
        rw [List.nil_append, List.head?_cons, if_pos rfl]
        rfl
    | cons first rest =>
        have different : first ≠ x := by
          rintro rfl
          exact absent (by rw [queue]; exact List.mem_cons_self)
        rw [queue] at working
        rw [List.cons_append, List.head?_cons,
          if_neg (fun same => different (Option.some.inj same)), working]
        exact congrArg (fun b : Buf => some b.command) (Function.update_of_ne different ..).symm
  · show s.requests ++ [x] = s.served ++ (s.idequeue ++ [x])
    rw [orderly.inOrder, List.append_assoc]

/-- A process whose request is still in the queue goes to sleep again. -/
theorem doze (orderly : Orderly s) {reads : Bool} (syncs : s.standing who = .syncing x reads false)
    (inside : x ∈ s.idequeue) : Orderly (s.stand who (.syncing x reads true)) := by
  have fits := orderly.fits who
  rw [syncs] at fits
  have uses : (s.standing who).uses = some x := by
    rw [syncs]
    rfl
  have standing : (s.stand who (.syncing x reads true)).standing who = .syncing x reads true :=
    Function.update_self ..
  refine orderly.act who x ⟨fun _ _ => rfl, fun _ _ => rfl, fun _ _ => Iff.rfl,
    fun other different => Function.update_of_ne different .., fun b usesToo => Option.some.inj
    (usesToo.symm.trans uses), fun other same => Option.some.inj (same.symm.trans fits.1),
    fun other _ _ _ waits => ?_, List.Perm.refl _, Or.inl ⟨rfl, rfl⟩⟩ ?_
    (fun _ => ⟨reads, true, standing⟩) (fun idle => absurd (by rw [standing]; rfl) idle)
    (orderly.named x) (orderly.held x) orderly.queuedOnce orderly.working orderly.inOrder
  · have fits := orderly.fits other
    rw [waits] at fits
    exact fits.2 x rfl
  · rw [standing]
    refine ⟨fits.1, ?_⟩
    have rest := fits.2
    rw [if_pos inside] at rest
    show if x ∈ s.idequeue then _ else _
    rw [if_pos inside]
    exact rest

/-! ### `brelse` and the interrupt -/

theorem patch (orderly : Orderly s) (holds : s.holder x = some who) (out : s.standing who = .out)
    (data : Block) : Orderly (s.store x { s.buf x with data := data }) := by
  have absent := orderly.not_queued_of_out holds out
  have buf : Function.update s.buf x { s.buf x with data := data } x =
      { s.buf x with data := data } := Function.update_self ..
  refine orderly.act who x ⟨fun b other => Function.update_of_ne other .., fun _ _ => rfl,
    fun _ _ => Iff.rfl, fun _ _ => rfl, fun b uses => ?_, fun other same => Option.some.inj
    (same.symm.trans holds), fun other _ _ _ waits => ?_, List.Perm.refl _, Or.inl ?_⟩ ?_
    (fun inside => absurd inside absent) (fun _ => ?_) ?_ ?_ orderly.queuedOnce ?_ orderly.inOrder
  · rw [out] at uses
    exact absurd uses.symm (Option.some_ne_none _)
  · have fits := orderly.fits other
    rw [waits] at fits
    show (Function.update s.buf x _ x).busy = true ∧ (Function.update s.buf x _ x).caches _ _ = true
    rw [buf]
    exact fits.2 x rfl
  · show (Function.update s.buf x _ x).dev = _ ∧ (Function.update s.buf x _ x).sector = _
    rw [buf]
    exact ⟨rfl, rfl⟩
  · show Fits _ who (s.standing who)
    rw [out]
    exact trivial
  · show (Function.update s.buf x _ x).dirty = false ∧
      (_ -> (Function.update s.buf x _ x).valid = true)
    rw [buf]
    exact orderly.resting x (orderly.unused_of_out holds out)
  · show Named (Function.update s.buf x _ x) ∨ (Function.update s.buf x _ x).dev = -1 ∧
      (Function.update s.buf x _ x).valid = false ∧ _
    rw [buf]
    exact orderly.named x
  · show (Function.update s.buf x _ x).busy = _
    rw [buf]
    exact orderly.held x
  · refine orderly.working_congr (fun b inside => Function.update_of_ne ?_ ..)
    rintro rfl
    exact absent inside

/-- The buffers whose sleepers have been woken can be given back. -/
theorem release (orderly : Orderly s) (holds : s.holder x = some who) (out : s.standing who = .out)
    (woken : forall other, (s.standing other).chan ≠ some x) :
    Orderly { s.store x { s.buf x with busy := false } with
      order := x :: s.order.erase x
      holder := Function.update s.holder x none } := by
  have absent := orderly.not_queued_of_out holds out
  have rest := orderly.resting x (orderly.unused_of_out holds out)
  have valid := rest.2 (by rw [holds]; exact Option.some_ne_none _)
  have buf : Function.update s.buf x { s.buf x with busy := false } x =
      { s.buf x with busy := false } := Function.update_self ..
  have holder : Function.update s.holder x none x = none := Function.update_self ..
  refine orderly.act who x ⟨fun b other => Function.update_of_ne other .., fun b other =>
    Function.update_of_ne other .., fun _ _ => Iff.rfl, fun _ _ => rfl, fun b uses => ?_,
    fun other same => Option.some.inj (same.symm.trans holds), fun other _ _ _ waits => ?_,
    (List.perm_cons_erase (orderly.listed x)).symm, Or.inl ?_⟩ ?_ (fun inside =>
    absurd inside absent) (fun _ => ?_) (Or.inl ?_) ?_ orderly.queuedOnce ?_ orderly.inOrder
  · rw [out] at uses
    exact absurd uses.symm (Option.some_ne_none _)
  · exact absurd (by rw [waits]; rfl) (woken other)
  · show (Function.update s.buf x _ x).dev = _ ∧ (Function.update s.buf x _ x).sector = _
    rw [buf]
    exact ⟨rfl, rfl⟩
  · show Fits _ who (s.standing who)
    rw [out]
    exact trivial
  · show (Function.update s.buf x _ x).dirty = false ∧
      (_ -> (Function.update s.buf x _ x).valid = true)
    rw [buf]
    exact ⟨rest.1, fun _ => valid⟩
  · show Named (Function.update s.buf x _ x)
    rw [buf]
    exact orderly.named_of_held holds
  · show (Function.update s.buf x _ x).busy = (Function.update s.holder x none x).isSome
    rw [buf, holder]
    rfl
  · refine orderly.working_congr (fun b inside => Function.update_of_ne ?_ ..)
    rintro rfl
    exact absent inside

/-- The first request leaves the queue, when its sleepers have been woken. -/
theorem complete (orderly : Orderly s) {rest : List Slot} (queue : s.idequeue = x :: rest)
    (woken : forall other, (s.standing other).chan ≠ some x) (data : Block)
    {controller : Controller} (command : controller.command = rest.head?.map (fun b =>
      (Function.update s.buf x { s.buf x with data := data, valid := true, dirty := false }
        b).command)) :
    Orderly { s.store x { s.buf x with data := data, valid := true, dirty := false } with
      controller := controller
      idequeue := rest
      served := s.served ++ [x] } := by
  have queuedOnce := orderly.queuedOnce
  rw [queue] at queuedOnce
  have absent := (List.nodup_cons.mp queuedOnce).1
  rcases orderly.queued x (by rw [queue]; exact List.mem_cons_self) with ⟨who, reads, asleep, syncs⟩
  have uses : (s.standing who).uses = some x := by
    rw [syncs]
    rfl
  have holds := orderly.holder_of_uses uses
  have awake : asleep = false := by
    cases asleep with
    | false => rfl
    | true => exact absurd (by rw [syncs]; rfl) (woken who)
  have buf : Function.update s.buf x { s.buf x with data := data, valid := true, dirty := false }
      x = { s.buf x with data := data, valid := true, dirty := false } := Function.update_self ..
  refine orderly.act who x ⟨fun b other => Function.update_of_ne other .., fun _ _ => rfl,
    fun b other => ?_, fun _ _ => rfl, fun b usesToo => ?_, fun other same => Option.some.inj
    (same.symm.trans holds), fun other _ _ _ waits => absurd (by rw [waits]; rfl) (woken other),
    List.Perm.refl _, Or.inl ?_⟩ ?_ (fun inside => absurd inside absent)
    (fun idle => absurd uses idle) ?_ ?_ (List.nodup_cons.mp queuedOnce).2 command ?_
  · rw [queue, List.mem_cons, or_iff_right other]
  · exact Option.some.inj (usesToo.symm.trans uses)
  · show (Function.update s.buf x _ x).dev = _ ∧ (Function.update s.buf x _ x).sector = _
    rw [buf]
    exact ⟨rfl, rfl⟩
  · show Fits _ who (s.standing who)
    rw [syncs]
    refine ⟨holds, ?_⟩
    show if x ∈ rest then _ else _
    rw [if_neg absent]
    show asleep = false ∧ (Function.update s.buf x _ x).Synced
    rw [buf]
    exact ⟨awake, rfl, rfl⟩
  · show Named (Function.update s.buf x _ x) ∨ _
    rw [buf]
    exact Or.inl (orderly.named_of_held holds)
  · show (Function.update s.buf x _ x).busy = _
    rw [buf]
    exact orderly.held x
  · show s.requests = s.served ++ [x] ++ rest
    rw [orderly.inOrder, queue, List.append_assoc]
    rfl

end Orderly

/-- A state between two steps, or one after a `panic` that the caches's users can cause: no
buffer is free, or there is no disk 1. -/
def Sound (s : State) : Prop :=
  match s.panicked with
  | none => Orderly s
  | some reason =>
      (reason = .noBuffers ∧ forall b, (s.buf b).busy = true) ∨
        (reason = .noDisk1 ∧ s.havedisk1 = false)

namespace Sound

variable {s after : State} {who : Nat} {x : Slot} {dev sector : Nat}

theorem of_orderly (orderly : Orderly s) (running : s.panicked = none) : Sound s := by
  rw [Sound, running]
  exact orderly

theorem of_noBuffers (busy : forall b, (s.buf b).busy = true) : Sound (s.panic .noBuffers) :=
  Or.inl ⟨rfl, busy⟩

theorem bget (orderly : Orderly s) (running : s.panicked = none)
    (before : (s.standing who).uses = none) (address : dev < 2 ∧ sector < 2 ^ 28) :
    Sound (s.bget who dev sector) := by
  rw [State.bget]
  split
  next b found =>
    have caches := List.find?_some found
    split
    next busy =>
        exact of_orderly (orderly.idle before
          ⟨address, fun c same => Option.some.inj same ▸ ⟨busy, caches⟩⟩) running
    next free =>
      have place := of_decide_eq_true caches
      have named : Named (s.buf b) := by
        refine ⟨?_, place.2 ▸ address.2⟩
        have dev := place.1
        omega
      have free := Bool.eq_false_iff.mpr free
      exact of_orderly (orderly.take before free rfl (orderly.clean_of_free free) named
        (Or.inl ⟨rfl, rfl⟩)) running
  next absent =>
    have away : forall b, ¬ ((s.buf b).dev = dev ∧ (s.buf b).sector = sector) := by
      intro b here
      exact List.find?_eq_none.mp absent b (orderly.listed b) (decide_eq_true here)
    split
    next b found =>
      have free := List.find?_some found
      rw [Bool.not_eq_true'] at free
      refine of_orderly (orderly.take before free rfl rfl ⟨?_, address.2⟩
        (Or.inr fun c _ => away c)) running
      have few := address.1
      show (dev : Int) = 0 ∨ (dev : Int) = 1
      omega
    next none =>
      refine of_noBuffers fun b => ?_
      have busy := List.find?_eq_none.mp none b (List.mem_reverse.mpr (orderly.listed b))
      rw [Bool.not_eq_true', Bool.not_eq_false] at busy
      exact busy

theorem iderw (orderly : Orderly s) (running : s.panicked = none) {new : Buf} {reads : Bool}
    (holds : s.holder x = some who) (before : forall b, (s.standing who).uses = some b -> b = x)
    (absent : x ∉ s.idequeue) (dev : new.dev = (s.buf x).dev)
    (sector : new.sector = (s.buf x).sector) (busy : new.busy = (s.buf x).busy)
    (unsynced : ¬ new.Synced) (dirty : new.dirty = !reads) :
    Sound ((s.store x new).iderw who x reads) := by
  have buf : (s.store x new).buf x = new := Function.update_self ..
  have taken : new.busy = true := by
    rw [busy, orderly.held, holds]
    rfl
  rw [State.iderw, buf, if_neg (by rw [taken]; exact Bool.true_eq_false.mp), if_neg unsynced]
  split
  next missing => exact Or.inr ⟨rfl, missing.2⟩
  next =>
    have appended : (((s.store x new).append x).buf x) = new := by
      rw [State.append_eq]
      exact buf
    rw [State.await, appended, if_neg unsynced]
    refine of_orderly (orderly.request holds before absent dev sector busy unsynced dirty) ?_
    rw [State.append_eq]
    exact running

theorem check (orderly : Orderly s) (running : s.panicked = none)
    (checks : s.standing who = .checking x) : Sound (s.check who x) := by
  have fits := orderly.fits who
  rw [checks] at fits
  have uses : (s.standing who).uses = some x := by
    rw [checks]
    rfl
  have absent : x ∉ s.idequeue := by
    intro inside
    rcases orderly.syncing_of_queued inside fits.1 with ⟨reads, asleep, syncs⟩
    exact Standing.noConfusion (checks.symm.trans syncs)
  rw [State.check]
  split
  next invalid =>
    have same : s.store x (s.buf x) = s := by
      rw [State.store, Function.update_eq_self]
    rw [← same]
    exact iderw orderly running fits.1 (fun b other => Option.some.inj (other.symm.trans uses))
      absent rfl rfl rfl (fun synced => Bool.false_ne_true (invalid.symm.trans synced.1)) fits.2
  next valid =>
    exact of_orderly ((orderly.leave uses absent ⟨eq_true_of_ne_false valid, fits.2⟩).note _)
      running

theorem await (orderly : Orderly s) (running : s.panicked = none) {reads : Bool}
    (syncs : s.standing who = .syncing x reads false) : Sound (s.await who x reads) := by
  have fits := orderly.fits who
  rw [syncs] at fits
  have uses : (s.standing who).uses = some x := by
    rw [syncs]
    rfl
  rw [State.await]
  rcases fits with ⟨holds, rest⟩
  split at rest
  next inside =>
    rw [if_neg rest.1]
    exact of_orderly (orderly.doze syncs inside) running
  next outside =>
    rw [if_pos rest.2]
    split
    next => exact of_orderly ((orderly.leave uses outside rest.2).note _) running
    next => exact of_orderly (orderly.leave uses outside rest.2) running

theorem bwrite (orderly : Orderly s) (running : s.panicked = none) (holds : s.holder x = some who)
    (out : s.standing who = .out) : Sound (s.bwrite who x) := by
  rw [State.bwrite, if_neg (by rw [orderly.held, holds]; exact Bool.true_eq_false.mp)]
  refine iderw orderly running holds (fun b uses => ?_) (orderly.not_queued_of_out holds out) rfl
    rfl rfl (fun synced => Bool.false_ne_true synced.2.symm) rfl
  rw [out] at uses
  exact absurd uses.symm (Option.some_ne_none _)

theorem brelse (orderly : Orderly s) (running : s.panicked = none) (holds : s.holder x = some who)
    (out : s.standing who = .out) : Sound (s.brelse x) := by
  rw [State.brelse, if_neg (by rw [orderly.held, holds]; exact Bool.true_eq_false.mp)]
  have woken : (s.wakeup x).standing who = .out := by
    show (if (s.standing who).chan = some x then (s.standing who).awake else s.standing who) = _
    rw [out]
    exact if_neg (Option.some_ne_none _).symm
  exact of_orderly (@Orderly.release (s.wakeup x) who x (orderly.wakeup x) holds woken
    (Orderly.chan_wakeup x)) running

theorem interrupt (orderly : Orderly s) (running : s.panicked = none) (failed : Bool) :
    Sound ((s.finish failed).ideintr failed) := by
  have working := orderly.working
  cases queue : s.idequeue with
  | nil =>
      rw [queue] at working
      have still : s.controller.finish failed = s.controller := by
        rw [Controller.finish, working]
        rfl
      have step : (s.finish failed).ideintr failed = s.finish failed := by
        rw [State.ideintr, show (s.finish failed).idequeue = [] from queue]
      rw [step, State.finish, still]
      exact of_orderly (orderly.note _) running
  | cons b rest =>
      have step : (s.finish failed).ideintr failed = (s.finish failed).serve b rest failed := by
        rw [State.ideintr, show (s.finish failed).idequeue = b :: rest from queue]
      rw [step]
      cases rest with
      | nil =>
          exact of_orderly (((orderly.wakeup b).complete queue (Orderly.chan_wakeup b) _
            (Controller.finish_command s.controller failed)).note _) running
      | cons first later =>
          exact of_orderly
            (((orderly.wakeup b).complete queue (Orderly.chan_wakeup b) _ rfl).note _) running

theorem next {event : Event} (orderly : Orderly s) (addressable : Addressable s event)
    (stepped : next s event = some after) : Sound after := by
  rcases moves stepped with ⟨running, moves⟩
  cases moves with
  | bread out => exact bget orderly running (by rw [out]; rfl) addressable
  | @again who _ _ gets =>
      have fits := orderly.fits who
      rw [gets] at fits
      exact bget orderly running (by rw [gets]; rfl) fits.1
  | check checks => exact check orderly running checks
  | await syncs => exact await orderly running syncs
  | patch out holds => exact of_orderly (orderly.patch holds out _) running
  | bwrite out holds => exact bwrite orderly running holds out
  | brelse out holds => exact brelse orderly running holds out
  | kill => exact of_orderly (orderly.kill _) running
  | interrupt => exact interrupt orderly running _

theorem reached {guard : State -> Event -> Prop}
    (addressable : forall s event, guard s event -> Addressable s event)
    (reached : Reachable SharedCache.next Boot guard s) : Sound s :=
  reached.invariant (fun _ first => of_orderly (Orderly.boot first) first.panicked)
    (fun before event _ sound allowed stepped => by
      rw [Sound, (moves stepped).1] at sound
      exact next sound (addressable before event allowed) stepped)

end Sound

theorem Orderly.reached {s : State} {guard : State -> Event -> Prop}
    (addressable : forall s event, guard s event -> Addressable s event)
    (reached : Reachable next Boot guard s) (running : s.panicked = none) : Orderly s := by
  have sound := Sound.reached addressable reached
  rw [Sound, running] at sound
  exact sound

/-- In whatever order processes use the cache, get killed and are interrupted, a sector is in
the hands of at most one process: the busy buffers are the ones that `bget` handed out and
`brelse` did not get back, a process only works on its own, and two of them are never for the
same sector of a disk.  The list has every buffer once.  The kernel only panics when all
buffers are busy or disk 1 is missing, and never on the checks of `bwrite`, `brelse` and
`iderw` on the flags. -/
theorem sector_has_one_holder {s : State} (reached : Reachable next Boot Addressable s) :
    (s.panicked = none ->
      s.order.Perm (List.finRange NBUF) ∧
      (forall b, (s.buf b).busy = true ↔ Exists fun who => s.holder b = some who) ∧
      (forall who b, (s.standing who).uses = some b -> s.holder b = some who) ∧
      forall a b first second, s.holder a = some first -> s.holder b = some second ->
        (s.buf a).address = (s.buf b).address -> a = b ∧ first = second) ∧
    forall reason, s.panicked = some reason ->
      (reason = .noBuffers ∧ forall b, (s.buf b).busy = true) ∨
      (reason = .noDisk1 ∧ s.havedisk1 = false) := by
  refine ⟨fun running => ?_, fun reason panicked => ?_⟩
  · have orderly := Orderly.reached (fun _ _ => id) reached running
    refine ⟨?_, fun b => ?_, fun _ _ => orderly.holder_of_uses,
      fun a b first second one two same => ?_⟩
    · exact (List.perm_ext_iff_of_nodup orderly.once (List.nodup_finRange NBUF)).mpr
        (fun b => iff_of_true (orderly.listed b) (List.mem_finRange b))
    · rw [orderly.held, Option.isSome_iff_exists]
    · have place := (orderly.named_of_held one).of_address (orderly.named_of_held two) same
      rcases orderly.distinct a b place.1 place.2 (orderly.named_of_held one) with rfl
      exact ⟨rfl, Option.some.inj (one.symm.trans two)⟩
  · have sound := Sound.reached (fun _ _ => id) reached
    rw [Sound, panicked] at sound
    exact sound

/-- Two processes ask for the same sector, and the second one sleeps. -/
def meeting : List Event := [.bread 0 1 5, .bread 1 1 5, .resume 0]

theorem meeting_addressable :
    forall event, event ∈ meeting -> forall state, Addressable state event := by
  intro event inside state
  rcases List.mem_cons.mp inside with rfl | inside
  · exact ⟨by decide, by decide⟩
  rcases List.mem_cons.mp inside with rfl | inside
  · exact ⟨by decide, by decide⟩
  rcases List.mem_cons.mp inside with rfl | inside
  · exact trivial
  · exact absurd inside List.not_mem_nil

theorem sector_has_one_holder_meeting :
    Exists fun s =>
      run next booted meeting = some s ∧ s.panicked = none ∧
      forall a b first second, s.holder a = some first -> s.holder b = some second ->
        (s.buf a).address = (s.buf b).address -> a = b ∧ first = second :=
  ⟨_, rfl, rfl, ((sector_has_one_holder (@Reachable.run_allowed _ _ next Boot Addressable booted _
    (.start booted_boot) meeting rfl meeting_addressable)).1 rfl).2.2.2⟩

end SharedCache
end TripleFs
end OsProjects
