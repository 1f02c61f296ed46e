import OsProjects.Machine.Transition
import Mathlib.Logic.Function.Basic
import Mathlib.Data.List.FinRange
import Mathlib.Data.Int.DivMod
import Mathlib.Algebra.Ring.Int.Defs
import Mathlib.Algebra.Ring.Nat

namespace OsProjects
namespace Scheduler

open Machine

/-!
# The process table and its calls

The table has `NPROC` slots.  A slot is taken by `fork`, which calls
`allocproc`, and given back by a `wait` of the parent; the fields that the
reservation scheduler added (`rpercent`, `spotbid`, `charge`, `tcharge`,
`numofused` and `runningtime`) are set by `sys_reserve`, `sys_spot` and the
scheduler only.

Every call is one step, made by a process that is running.  A process runs from
the moment the scheduler dispatches it until it gives the processor up by
`yield`, `sleep` or `exit`; the scheduler then resumes behind its `swtch`, in
the copy of the dispatch code that started the process, and charges it.  Several
processors may be running processes at the same time.

The `int` fields are 32-bit two's complement numbers.
-/

def NPROC : Nat := 64

/-- A position in `ptable.proc`. -/
abbrev Slot : Type := Fin NPROC

/-- The slot that `userinit` takes. -/
def firstSlot : Slot := ⟨0, by decide⟩

/-- The slots in the order in which the loops over the table visit them. -/
def slots : List Slot := List.finRange NPROC

/-- The value that an `int` takes. -/
def int32 (x : Int) : Int := Int.bmod x (2 ^ 32)

theorem int32_of_fits {x : Int} (lower : -(2 ^ 31) ≤ x) (upper : x < 2 ^ 31) : int32 x = x := by
  unfold int32
  rw [Int.bmod_eq_of_le_mul_two] <;> omega

inductive ProcState
  | unused | embryo | sleeping | runnable | running | zombie
  deriving DecidableEq

/-- The two copies of the dispatch code in `scheduler`. -/
inductive Dispatch
  | reserve | spot
  deriving DecidableEq

/-- The part of `struct proc` that the modelled functions read or write.  A
sleep channel is an address: that of a slot is its number, any other object has
a number from `NPROC` on. -/
structure Proc where
  state : ProcState
  rpercent : Int
  spotbid : Int
  charge : Int
  tcharge : Int
  numofused : Int
  runningtime : Int
  pid : Int
  parent : Option Slot
  chan : Option Nat
  killed : Bool
  deriving DecidableEq

/-- The process table, the global counters, the state of `random`, and for each
process that is running the place where the scheduler resumes after it. -/
structure Kernel where
  proc : Slot -> Proc
  initproc : Slot
  nextpid : Int
  totalpercent : Int
  next : Nat
  resume : Slot -> Option Dispatch

namespace Kernel

/-- Change one slot. -/
def set (k : Kernel) (i : Slot) (change : Proc -> Proc) : Kernel :=
  { k with proc := Function.update k.proc i (change (k.proc i)) }

/-! ## Charging and sleeping -/

/-- The charging code behind `swtch`. -/
def charged (amount : Int) (p : Proc) : Proc :=
  let total := int32 (p.charge + amount)
  { p with
    numofused := int32 (p.numofused + 1)
    runningtime := int32 (p.runningtime + 10)
    tcharge := if total > 1000 then int32 (p.tcharge + 1) else p.tcharge
    charge := if total > 1000 then total.tmod 1000 else total }

/-- What a slice costs. -/
def cost (d : Dispatch) (p : Proc) : Int :=
  match d with
  | .reserve => 10
  | .spot => p.spotbid.tdiv 100

/-- `sched`: give the processor back to the scheduler, which resumes behind the
`swtch` that started the process. -/
def sched (k : Kernel) (c : Slot) : Kernel :=
  match k.resume c with
  | some d =>
      { k.set c (charged (cost d (k.proc c))) with resume := Function.update k.resume c none }
  | none => k

def yield (k : Kernel) (c : Slot) : Kernel :=
  (k.set c (fun p => { p with state := .runnable })).sched c

def sleep (k : Kernel) (c : Slot) (chan : Nat) : Kernel :=
  (k.set c (fun p => { p with chan := some chan, state := .sleeping })).sched c

def wakeup1 (k : Kernel) (chan : Option Nat) : Kernel :=
  { k with proc := fun i =>
      if (k.proc i).state = .sleeping ∧ (k.proc i).chan = chan then
        { k.proc i with state := .runnable }
      else k.proc i }

/-! ## Creating and ending processes -/

/-- The slot that `allocproc` takes. -/
def firstUnused (k : Kernel) : Option Slot := slots.find? (fun i => (k.proc i).state = .unused)

/-- `allocproc`; `kstack` says whether `kalloc` finds a page for the stack. -/
def allocproc (k : Kernel) (kstack : Bool) : Option Slot × Kernel :=
  match k.firstUnused with
  | none => (none, k)
  | some i =>
      let taken := { k.set i (fun p => { p with state := .embryo, pid := k.nextpid }) with
        nextpid := int32 (k.nextpid + 1) }
      if kstack then (some i, taken) else (none, taken.set i (fun p => { p with state := .unused }))

/-- `fork`; `pgdir` says whether `copyuvm` finds the memory for the new image. -/
def fork (k : Kernel) (c : Slot) (kstack pgdir : Bool) : Int × Kernel :=
  match k.allocproc kstack with
  | (none, after) => (-1, after)
  | (some np, after) =>
      if pgdir then
        ((after.proc np).pid,
          after.set np (fun p => { p with parent := some c, state := .runnable }))
      else (-1, after.set np (fun p => { p with state := .unused }))

/-- The body of the loop in which `exit` passes its children to `initproc`. -/
def adopt (c : Slot) (k : Kernel) (i : Slot) : Kernel :=
  if (k.proc i).parent = some c then
    let moved := k.set i (fun p => { p with parent := some k.initproc })
    if (moved.proc i).state = .zombie then moved.wakeup1 (some k.initproc.val) else moved
  else k

/-- `exit`, or nothing when `init` exits and the kernel panics. -/
def exit (k : Kernel) (c : Slot) : Option Kernel :=
  if c = k.initproc then none
  else
    let woken := k.wakeup1 ((k.proc c).parent.map (fun parent => parent.val))
    let passed := slots.foldl (adopt c) woken
    some ((passed.set c (fun p => { p with state := .zombie })).sched c)

/-- One scan of the loop in `wait`: it returns the pid of a zombie child, or
`-1`, or it sleeps and will scan again. -/
def wait (k : Kernel) (c : Slot) : Option Int × Kernel :=
  match slots.find? (fun i => (k.proc i).parent = some c ∧ (k.proc i).state = .zombie) with
  | some i =>
      (some (k.proc i).pid, k.set i (fun p =>
        { p with state := .unused, pid := 0, parent := none, killed := false }))
  | none =>
      if (slots.any (fun i => (k.proc i).parent = some c)) = false ∨ (k.proc c).killed = true then
        (some (-1), k)
      else (none, k.sleep c c.val)

def kill (k : Kernel) (pid : Int) : Int × Kernel :=
  match slots.find? (fun i => (k.proc i).pid = pid) with
  | some i =>
      (0, k.set i (fun p => { p with
        killed := true
        state := if p.state = .sleeping then .runnable else p.state }))
  | none => (-1, k)

/-! ## Reservations -/

/-- `sys_reserve`; the argument is missing when `argint` fails. -/
def sysReserve (k : Kernel) (c : Slot) (arg : Option Int) : Int × Kernel :=
  match arg with
  | none => (-1, k)
  | some n =>
      if n < 0 ∨ n > 100 then (-1, k)
      else
        let raised := { k with totalpercent := int32 (n + k.totalpercent) }
        if raised.totalpercent > 200 then (-1, raised)
        else (n, raised.set c (fun p => { p with spotbid := 0, rpercent := n }))

def sysSpot (k : Kernel) (c : Slot) (arg : Option Int) : Int × Kernel :=
  match arg with
  | none => (-1, k)
  | some n => (n, k.set c (fun p => { p with rpercent := 0, spotbid := n }))

/-! ## The lottery -/

/-- `random`, with `next` a 32-bit unsigned number. -/
def random (next : Nat) : Nat × Nat :=
  let after := (next * 11035 + 12345) % 2 ^ 32
  (after / 65536 % 3276, after)

/-- The first loop of `scheduler`: the runnable processes with and without a
reservation, and the highest bid of the latter. -/
structure Survey where
  numofrp : Int
  numofsp : Int
  higherbid : Int
  deriving DecidableEq

def Survey.add (seen : Survey) (p : Proc) : Survey :=
  if p.state ≠ .runnable then seen
  else
    let reserve := if p.rpercent > 0 then { seen with numofrp := seen.numofrp + 1 } else seen
    if p.rpercent = 0 then
      { reserve with
        numofsp := reserve.numofsp + 1
        higherbid := if reserve.higherbid < p.spotbid then p.spotbid else reserve.higherbid }
    else reserve

def survey (k : Kernel) : Survey :=
  slots.foldl (fun seen i => seen.add (k.proc i)) ⟨0, 0, 0⟩

/-- The second loop of `scheduler`: the process that wins, and how.  The tickets
are at most `NPROC * 100`. -/
def draw (k : Kernel) (seen : Survey) (rand : Int) :
    List Slot -> Int -> Int -> Option (Slot × Dispatch)
  | [], _, _ => none
  | i :: rest, numofrp, ticket =>
      let p := k.proc i
      if p.state ≠ .runnable then draw k seen rand rest numofrp ticket
      else if p.rpercent > 0 then
        if ticket + p.rpercent > rand then some (i, .reserve)
        else draw k seen rand rest (numofrp - 1) (ticket + p.rpercent)
      else if numofrp = 0 ∧ seen.numofsp ≠ 0 ∧ ticket < rand ∧ p.spotbid = seen.higherbid then
        some (i, .spot)
      else draw k seen rand rest numofrp ticket

/-- The process that a round with the lottery number `rand` dispatches. -/
def lottery (k : Kernel) (rand : Int) : Option (Slot × Dispatch) :=
  k.draw k.survey rand slots k.survey.numofrp 0

/-- The lottery number of the next round. -/
def ticketDrawn (k : Kernel) : Int := (random k.next).1 % 200

/-- The process that the next round dispatches. -/
def winner (k : Kernel) : Option (Slot × Dispatch) := k.lottery k.ticketDrawn

/-- A round of `scheduler`, up to the `swtch` into the process. -/
def scheduler (k : Kernel) : Kernel :=
  match k.winner with
  | some (i, d) =>
      { k.set i (fun p => { p with state := .running }) with
        next := (random k.next).2
        resume := Function.update k.resume i (some d) }
  | none => { k with next := (random k.next).2 }

end Kernel

/-! ## Runs -/

/-- A step of the machine.  `c` is the process that makes the call. -/
inductive Event
  | round
  | yield (c : Slot)
  | sleep (c : Slot) (chan : Nat)
  | wakeup (chan : Nat)
  | fork (c : Slot) (kstack pgdir : Bool)
  | exit (c : Slot)
  | wait (c : Slot)
  | kill (c : Slot) (pid : Int)
  | reserve (c : Slot) (arg : Option Int)
  | spot (c : Slot) (arg : Option Int)

/-- The process that makes a call. -/
def Event.caller : Event -> Option Slot
  | .round | .wakeup _ => none
  | .yield c | .sleep c _ | .fork c _ _ | .exit c | .wait c | .kill c _ | .reserve c _
  | .spot c _ =>
      some c

/-- Only a process that is running makes a call. -/
def Enabled (k : Kernel) (event : Event) : Prop :=
  forall c, c ∈ event.caller -> (k.proc c).state = .running

instance (k : Kernel) (event : Event) : Decidable (Enabled k event) :=
  inferInstanceAs (Decidable (forall c, c ∈ event.caller -> (k.proc c).state = .running))

/-- The effect of a step, if the machine does not panic. -/
def perform (k : Kernel) : Event -> Option Kernel
  | .round => some k.scheduler
  | .yield c => some (k.yield c)
  | .sleep c chan => some (k.sleep c chan)
  | .wakeup chan => some (k.wakeup1 (some chan))
  | .fork c kstack pgdir => some (k.fork c kstack pgdir).2
  | .exit c => k.exit c
  | .wait c => some (k.wait c).2
  | .kill _ pid => some (k.kill pid).2
  | .reserve c arg => some (k.sysReserve c arg).2
  | .spot c arg => some (k.sysSpot c arg).2

def step (k : Kernel) (event : Event) : Option Kernel :=
  if Enabled k event then perform k event else none

/-- A slot as the loader leaves it. -/
def blankProc : Proc := ⟨.unused, 0, 0, 0, 0, 0, 0, 0, none, none, false⟩

/-- The state after `userinit`: `init` is in the first slot and every other
slot has never been used. -/
structure Booted (k : Kernel) : Prop where
  init : k.initproc = firstSlot
  first : k.proc firstSlot = { blankProc with state := .runnable, pid := 1 }
  others : forall i, i ≠ firstSlot -> k.proc i = blankProc
  pids : k.nextpid = 2
  total : k.totalpercent = 0
  idle : forall i, k.resume i = none

/-- The kernel when it starts to schedule. -/
def bootKernel : Kernel :=
  { proc := fun i =>
      if i = firstSlot then { blankProc with state := .runnable, pid := 1 } else blankProc
    initproc := firstSlot
    nextpid := 2
    totalpercent := 0
    next := 3
    resume := fun _ => none }

theorem bootKernel_booted : Booted bootKernel :=
  ⟨rfl, rfl, fun _ other => if_neg other, rfl, rfl, fun _ => rfl⟩

/-- The states of a machine whose steps all meet `guard`. -/
def Running (guard : Kernel -> Event -> Prop) : Kernel -> Prop := Reachable step Booted guard

end Scheduler
end OsProjects
