import OsProjects.Scheduler.Seats
import Mathlib.Tactic.Linarith

namespace OsProjects
namespace Scheduler

open Machine Kernel

/-!
# Runs with a history

The table does not say who has used a slot before, nor how often the scheduler
has really dispatched it.  A run therefore keeps a record beside the kernel, one
for each slot: how many processes have lived there, how often the slot was
dispatched and what its slices cost since it was first used, and whether the
present process has been named in a `kill`.  The kernel never reads it.
-/

structure Record where
  tenants : Nat
  dispatched : Nat
  charged : Int
  named : Bool
  deriving DecidableEq

structure Run where
  kernel : Kernel
  history : Slot -> Record

/-- Enter the cost of the slice that ends in slot `c`. -/
def bill (k : Kernel) (history : Slot -> Record) (c : Slot) : Slot -> Record :=
  match k.resume c with
  | some d => Function.update history c
      { history c with charged := (history c).charged + cost d (k.proc c) }
  | none => history

/-- The records after a step from the kernel `k`. -/
def enter (k : Kernel) (history : Slot -> Record) : Event -> Slot -> Record
  | .round =>
      match k.winner with
      | some won => Function.update history won.1
          { history won.1 with dispatched := (history won.1).dispatched + 1 }
      | none => history
  | .yield c | .sleep c _ | .exit c => bill k history c
  | .wait c => if (k.wait c).1 = none then bill k history c else history
  | .fork _ kstack pgdir =>
      match k.firstUnused with
      | some i =>
          if kstack && pgdir then Function.update history i
            { history i with tenants := (history i).tenants + 1, named := false }
          else history
      | none => history
  | .kill _ pid => fun i =>
      if (k.proc i).pid = pid then { history i with named := true } else history i
  | .wakeup _ | .reserve _ _ | .spot _ _ => history

def runStep (r : Run) (event : Event) : Option Run :=
  (step r.kernel event).map (fun after => ⟨after, enter r.kernel r.history event⟩)

/-- The records when `init` is the only process there has been. -/
def firstHistory (i : Slot) : Record := ⟨if i = firstSlot then 1 else 0, 0, 0, false⟩

def RunBooted (r : Run) : Prop := Booted r.kernel ∧ r.history = firstHistory

/-- The runs whose steps all meet `guard`. -/
def Recorded (guard : Kernel -> Event -> Prop) : Run -> Prop :=
  Reachable runStep RunBooted (fun r event => guard r.kernel event)

/-- The guard that allows every step of the kernel. -/
def anyEvent (_k : Kernel) (_event : Event) : Prop := True

def bootRun : Run := ⟨bootKernel, firstHistory⟩

theorem bootRun_booted : RunBooted bootRun := ⟨bootKernel_booted, rfl⟩

/-! ## What one step does -/

/-- Everything that a step can do to the seats, the places where the scheduler
resumes, the accounts and the records.  At most one slot `i` is concerned,
except that `kill` enters a name wherever the pid stands. -/
inductive Change (r : Run) (event : Event) (after : Run) : Prop
  | nothing (seats : after.kernel.seats = r.kernel.seats)
      (resume : after.kernel.resume = r.kernel.resume)
      (accounts : after.kernel.accounts = r.kernel.accounts)
      (history : after.history = r.history)
  | dispatch (i : Slot) (d : Dispatch) (waiting : (r.kernel.seats i).phase = .waiting)
      (seats : after.kernel.seats =
        Function.update r.kernel.seats i { r.kernel.seats i with phase := .running })
      (resume : after.kernel.resume = Function.update r.kernel.resume i (some d))
      (accounts : after.kernel.accounts = r.kernel.accounts)
      (history : after.history = Function.update r.history i
        { r.history i with dispatched := (r.history i).dispatched + 1 })
  | giveUp (i : Slot) (phase : Phase) (running : (r.kernel.seats i).phase = .running)
      (left : phase = .waiting ∨ phase = .zombie)
      (seats : after.kernel.seats =
        Function.update r.kernel.seats i { r.kernel.seats i with phase := phase })
      (resume : after.kernel.resume = Function.update r.kernel.resume i none)
      (accounts : after.kernel.accounts = r.kernel.settled i)
      (history : after.history = bill r.kernel r.history i)
  | moveIn (i : Slot) (unused : (r.kernel.seats i).phase = .unused)
      (seats : after.kernel.seats = Function.update r.kernel.seats i
        ⟨.waiting, r.kernel.nextpid, (r.kernel.seats i).killed⟩)
      (resume : after.kernel.resume = r.kernel.resume)
      (accounts : after.kernel.accounts = r.kernel.accounts)
      (history : after.history = Function.update r.history i
        { r.history i with tenants := (r.history i).tenants + 1, named := false })
  | tryIn (i : Slot) (unused : (r.kernel.seats i).phase = .unused)
      (seats : after.kernel.seats = Function.update r.kernel.seats i
        ⟨.unused, r.kernel.nextpid, (r.kernel.seats i).killed⟩)
      (resume : after.kernel.resume = r.kernel.resume)
      (accounts : after.kernel.accounts = r.kernel.accounts)
      (history : after.history = r.history)
  | moveOut (i : Slot) (zombie : (r.kernel.seats i).phase = .zombie)
      (seats : after.kernel.seats = Function.update r.kernel.seats i ⟨.unused, 0, false⟩)
      (resume : after.kernel.resume = r.kernel.resume)
      (accounts : after.kernel.accounts = r.kernel.accounts)
      (history : after.history = r.history)
  | mark (i c : Slot) (pid : Int) (kills : event = .kill c pid) (its : (r.kernel.seats i).pid = pid)
      (seats : after.kernel.seats =
        Function.update r.kernel.seats i { r.kernel.seats i with killed := true })
      (resume : after.kernel.resume = r.kernel.resume)
      (accounts : after.kernel.accounts = r.kernel.accounts)
      (history : after.history = fun j =>
        if (r.kernel.seats j).pid = pid then { r.history j with named := true } else r.history j)
  | book (i : Slot) (rpercent spotbid : Int) (running : (r.kernel.seats i).phase = .running)
      (bid : spotbid = 0 ∨ event = .spot i (some spotbid))
      (seats : after.kernel.seats = r.kernel.seats)
      (resume : after.kernel.resume = r.kernel.resume)
      (accounts : after.kernel.accounts = Function.update r.kernel.accounts i
        { r.kernel.accounts i with rpercent := rpercent, spotbid := spotbid })
      (history : after.history = r.history)

theorem accounts_set_eq (k : Kernel) (i : Slot) (change : Proc -> Proc) :
    (k.set i change).accounts = Function.update k.accounts i (change (k.proc i)).account := by
  funext j
  by_cases here : j = i
  · rw [here, accounts, proc_set_self, Function.update_self]
  · rw [accounts, proc_set_of_ne change here, Function.update_of_ne here, accounts]

theorem accounts_sysSpot (k : Kernel) (c : Slot) (n : Int) : (k.sysSpot c (some n)).2.accounts =
    Function.update k.accounts c { k.accounts c with rpercent := 0, spotbid := n } :=
  accounts_set_eq k c (fun p => { p with rpercent := 0, spotbid := n })

theorem accounts_sysReserve (k : Kernel) (c : Slot) (n : Int) :
    (k.sysReserve c (some n)).2.accounts = k.accounts ∨
      (k.sysReserve c (some n)).2.accounts =
        Function.update k.accounts c { k.accounts c with rpercent := n, spotbid := 0 } := by
  unfold sysReserve
  dsimp only
  split
  · exact .inl rfl
  · split
    · exact .inl (accounts_congr rfl)
    · exact .inr (accounts_set_eq { k with totalpercent := int32 (n + k.totalpercent) } c
        (fun p => { p with spotbid := 0, rpercent := n }))

theorem change_of_runStep {r after : Run} {event : Event} (stepped : runStep r event = some after) :
    Change r event after := by
  rcases Option.map_eq_some_iff.mp stepped with ⟨k, done, rfl⟩
  unfold step at done
  split at done
  case isFalse => exact nomatch done
  case isTrue enabled =>
    have runs : forall c, event.caller = some c -> (r.kernel.seats c).phase = .running := by
      intro c calls
      rw [seats, Proc.seat, enabled c calls]
      rfl
    cases event with
    | round =>
        cases Option.some.inj done
        cases drawn : r.kernel.winner with
        | none =>
            refine .nothing (seats_scheduler_of_none drawn) (resume_scheduler_of_none drawn)
              accounts_scheduler ?_
            simp only [enter, drawn]
        | some won =>
            refine .dispatch won.1 won.2 (winner_waiting drawn) (seats_scheduler_of_winner drawn)
              (resume_scheduler_of_winner drawn) accounts_scheduler ?_
            simp only [enter, drawn]
    | yield c =>
        cases Option.some.inj done
        exact .giveUp c .waiting (runs c rfl) (.inl rfl) seats_yield resume_yield accounts_yield rfl
    | sleep c chan =>
        cases Option.some.inj done
        exact .giveUp c .waiting (runs c rfl) (.inl rfl) (seats_sleep chan) (resume_sleep chan)
          (accounts_sleep chan) rfl
    | wakeup chan =>
        cases Option.some.inj done
        exact .nothing (seats_wakeup1 _) rfl (accounts_wakeup1 _) rfl
    | exit c =>
        exact .giveUp c .zombie (runs c rfl) (.inr rfl) (seats_exit done) (resume_exit done)
          (accounts_exit done) rfl
    | wait c =>
        cases Option.some.inj done
        rcases wait_cases r.kernel c with
          ⟨i, zombie, awake, seats, resume⟩ | ⟨awake, same⟩ | ⟨asleep, same⟩
        · refine .moveOut i zombie seats resume ?_ (if_neg awake)
          rcases @accounts_wait r.kernel c with accounts | ⟨asleep, _⟩
          · exact accounts
          · exact absurd asleep awake
        · exact .nothing (congrArg Kernel.seats same) (congrArg Kernel.resume same)
            (congrArg Kernel.accounts same) (if_neg awake)
        · exact .giveUp c .waiting (runs c rfl) (.inl rfl)
            ((congrArg Kernel.seats same).trans (seats_sleep _))
            ((congrArg Kernel.resume same).trans (resume_sleep _))
            ((congrArg Kernel.accounts same).trans (accounts_sleep _)) (if_pos asleep)
    | fork c kstack pgdir =>
        cases Option.some.inj done
        cases free : r.kernel.firstUnused with
        | none =>
            refine .nothing ?_ (resume_fork kstack pgdir) (accounts_fork kstack pgdir) ?_
            · rw [fork_of_full free]
            · simp only [enter, free]
        | some i =>
            cases outcome : kstack && pgdir with
            | false =>
                refine .tryIn i (firstUnused_phase free) (seats_fork_of_failed free outcome)
                  (resume_fork kstack pgdir) (accounts_fork kstack pgdir) ?_
                simp only [enter, free, outcome, Bool.false_eq_true, if_false]
            | true =>
                rcases Bool.and_eq_true_iff.mp outcome with ⟨rfl, rfl⟩
                refine .moveIn i (firstUnused_phase free) (seats_fork_of_free free)
                  (resume_fork true true) (accounts_fork true true) ?_
                simp only [enter, free, outcome, if_true]
    | kill c pid =>
        cases Option.some.inj done
        rcases kill_cases r.kernel pid with ⟨i, its, _, seats⟩ | ⟨nobody, _, same⟩
        · exact .mark i c pid rfl its seats (resume_kill pid) (accounts_kill pid) rfl
        · refine .nothing (congrArg Kernel.seats same) (resume_kill pid) (accounts_kill pid) ?_
          funext j
          exact if_neg (nobody j)
    | reserve c arg =>
        cases Option.some.inj done
        cases arg with
        | none => exact .nothing rfl rfl rfl rfl
        | some n =>
            rcases accounts_sysReserve r.kernel c n with same | booked
            · exact .nothing (seats_sysReserve _) (resume_sysReserve _) same rfl
            · exact .book c n 0 (runs c rfl) (.inl rfl) (seats_sysReserve _) (resume_sysReserve _)
                booked rfl
    | spot c arg =>
        cases Option.some.inj done
        cases arg with
        | none => exact .nothing rfl rfl rfl rfl
        | some n =>
            exact .book c 0 n (runs c rfl) (.inr rfl) (seats_sysSpot _) (resume_sysSpot _)
              (accounts_sysSpot r.kernel c n) rfl

end Scheduler
end OsProjects
