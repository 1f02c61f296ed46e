import OsProjects.Scheduler.ProcessTable

namespace OsProjects
namespace Scheduler

/-!
# What a step does to the accounts

The fields that the reservation scheduler added to a process form its account.
Creating, waking, reaping and killing processes leave every account alone, also
that of the slot which changes hands.  An account changes at three places only:
when its process gives the processor up, when it reserves, and when it bids.
-/

/-- The fields that the reservation scheduler added to `struct proc`. -/
structure Account where
  rpercent : Int
  spotbid : Int
  charge : Int
  tcharge : Int
  numofused : Int
  runningtime : Int
  deriving DecidableEq

def Proc.account (p : Proc) : Account :=
  ⟨p.rpercent, p.spotbid, p.charge, p.tcharge, p.numofused, p.runningtime⟩

/-- The account of a process that has reserved nothing, bid nothing and never run. -/
def Account.zero : Account := ⟨0, 0, 0, 0, 0, 0⟩

/-- The charging code, on the account alone. -/
def Account.charged (a : Account) (d : Dispatch) : Account :=
  let total := int32 (a.charge + match d with | .reserve => 10 | .spot => a.spotbid.tdiv 100)
  { a with
    numofused := int32 (a.numofused + 1)
    runningtime := int32 (a.runningtime + 10)
    tcharge := if total > 1000 then int32 (a.tcharge + 1) else a.tcharge
    charge := if total > 1000 then total.tmod 1000 else total }

namespace Kernel

variable {k after : Kernel} {c i : Slot}

/-- The accounts of all slots. -/
def accounts (k : Kernel) (i : Slot) : Account := (k.proc i).account

theorem accounts_congr (same : after.proc = k.proc) : after.accounts = k.accounts := by
  funext i
  rw [accounts, same, accounts]

theorem proc_set_self (change : Proc -> Proc) : (k.set i change).proc i = change (k.proc i) :=
  Function.update_self i _ k.proc

theorem proc_set_of_ne (change : Proc -> Proc) {j : Slot} (different : j ≠ i) :
    (k.set i change).proc j = k.proc j :=
  Function.update_of_ne different _ k.proc

theorem accounts_set {change : Proc -> Proc} (keeps : forall p, (change p).account = p.account) :
    (k.set i change).accounts = k.accounts := by
  funext j
  by_cases here : j = i
  · rw [here, accounts, proc_set_self, keeps, accounts]
  · rw [accounts, proc_set_of_ne change here, accounts]

theorem accounts_wakeup1 (chan : Option Nat) : (k.wakeup1 chan).accounts = k.accounts := by
  funext j
  simp only [accounts, wakeup1]
  split <;> rfl

/-- `fork` on a full table. -/
theorem fork_of_full (full : k.firstUnused = none) (kstack pgdir : Bool) :
    k.fork c kstack pgdir = (-1, k) := by
  simp only [fork, allocproc, full]

/-- A `fork` that gets its memory. -/
theorem fork_of_free (free : k.firstUnused = some i) :
    k.fork c true true = (k.nextpid,
      { k.set i (fun p => { p with state := .runnable, pid := k.nextpid, parent := some c }) with
        nextpid := int32 (k.nextpid + 1) }) := by
  simp only [fork, allocproc, free, set, if_true, Function.update_self, Function.update_idem]

/-- A `fork` that runs out of memory keeps the pid in the slot it gives back. -/
theorem fork_of_failed (free : k.firstUnused = some i) {kstack pgdir : Bool}
    (failed : (kstack && pgdir) = false) :
    k.fork c kstack pgdir = (-1,
      { k.set i (fun p => { p with state := .unused, pid := k.nextpid }) with
        nextpid := int32 (k.nextpid + 1) }) := by
  cases kstack with
  | false =>
      simp only [fork, allocproc, free, set, Bool.false_eq_true, if_false, Function.update_self,
        Function.update_idem]
  | true =>
      cases pgdir with
      | false =>
          simp only [fork, allocproc, free, set, Bool.false_eq_true, if_false, if_true,
            Function.update_self, Function.update_idem]
      | true => exact nomatch failed

theorem accounts_fork (kstack pgdir : Bool) : (k.fork c kstack pgdir).2.accounts = k.accounts := by
  cases free : k.firstUnused with
  | none => rw [fork_of_full free]
  | some np =>
      cases outcome : kstack && pgdir with
      | false =>
          rw [fork_of_failed free outcome]
          exact @accounts_set k np (fun p => { p with state := .unused, pid := k.nextpid })
            (fun _ => rfl)
      | true =>
          rcases Bool.and_eq_true_iff.mp outcome with ⟨rfl, rfl⟩
          rw [fork_of_free free]
          exact @accounts_set k np
            (fun p => { p with state := .runnable, pid := k.nextpid, parent := some c })
            (fun _ => rfl)

theorem accounts_kill (pid : Int) : (k.kill pid).2.accounts = k.accounts := by
  unfold kill
  split
  · dsimp only
    apply accounts_set
    intro p
    rfl
  · rfl

theorem accounts_adopt (k : Kernel) : (k.adopt c i).accounts = k.accounts := by
  have moved := @accounts_set k i (fun p => { p with parent := some k.initproc }) (fun _ => rfl)
  unfold adopt
  dsimp only
  split
  · split
    · exact (accounts_wakeup1 _).trans moved
    · exact moved
  · rfl

/-- What the body of the loop in `exit` keeps, the loop keeps. -/
theorem foldl_adopt {View : Type} (view : Kernel -> View)
    (keeps : forall k i, view (adopt c k i) = view k) (visited : List Slot) (k : Kernel) :
    view (visited.foldl (adopt c) k) = view k := by
  induction visited generalizing k with
  | nil => rfl
  | cons i rest ih => exact (ih (adopt c k i)).trans (keeps k i)

/-- The accounts after the process in slot `c` has given the processor up. -/
def settled (k : Kernel) (c : Slot) : Slot -> Account :=
  match k.resume c with
  | some d => Function.update k.accounts c ((k.accounts c).charged d)
  | none => k.accounts

theorem settled_of_ne {j : Slot} (different : j ≠ c) : k.settled c j = k.accounts j := by
  cases started : k.resume c with
  | none => simp only [settled, started]
  | some d => simp only [settled, started, Function.update_of_ne different]

theorem settled_self {d : Dispatch} (started : k.resume c = some d) :
    k.settled c c = (k.accounts c).charged d := by
  simp only [settled, started, Function.update_self]

theorem accounts_sched : (k.sched c).accounts = k.settled c := by
  unfold sched
  cases started : k.resume c with
  | none => simp only [settled, started]
  | some d =>
      funext j
      by_cases here : j = c
      · subst j
        rw [settled_self started]
        simp only [accounts, proc_set_self]
        cases d <;> rfl
      · rw [settled_of_ne here]
        simp only [accounts, proc_set_of_ne _ here]

theorem settled_congr (accounts : after.accounts = k.accounts)
    (resume : after.resume c = k.resume c) : after.settled c = k.settled c := by
  unfold settled
  rw [resume, accounts]

theorem accounts_yield : (k.yield c).accounts = k.settled c := by
  refine accounts_sched.trans (settled_congr ?_ rfl)
  apply accounts_set
  intro p
  rfl

theorem accounts_sleep (chan : Nat) : (k.sleep c chan).accounts = k.settled c := by
  refine accounts_sched.trans (settled_congr ?_ rfl)
  apply accounts_set
  intro p
  rfl

theorem resume_adopt (k : Kernel) : (k.adopt c i).resume = k.resume := by
  unfold adopt
  dsimp only
  split
  · split <;> rfl
  · rfl

theorem accounts_exit (ended : k.exit c = some after) : after.accounts = k.settled c := by
  unfold exit at ended
  split at ended
  · exact nomatch ended
  · rw [← Option.some.inj ended]
    refine accounts_sched.trans (settled_congr ?_ ?_)
    · rw [accounts_set, foldl_adopt accounts (fun k _ => accounts_adopt k), accounts_wakeup1]
      intro p
      rfl
    · simp only [set, foldl_adopt resume (fun k _ => resume_adopt k), wakeup1]

/-- A `wait` that finds no zombie, has children and is not killed goes to sleep. -/
def Sleeps (k : Kernel) (c : Slot) : Prop := (k.wait c).1 = none

theorem accounts_wait : (k.wait c).2.accounts = k.accounts ∨
    (k.Sleeps c ∧ (k.wait c).2.accounts = k.settled c) := by
  unfold Sleeps wait
  split
  · left
    dsimp only
    apply accounts_set
    intro p
    rfl
  · split
    · exact .inl rfl
    · exact .inr ⟨rfl, accounts_sleep _⟩

/-- The table after a round. -/
theorem proc_scheduler : k.scheduler.proc = match k.winner with
    | some won => (k.set won.1 (fun p => { p with state := .running })).proc
    | none => k.proc := by
  unfold scheduler
  cases k.winner <;> rfl

theorem accounts_scheduler : k.scheduler.accounts = k.accounts := by
  have table := @proc_scheduler k
  cases won : k.winner with
  | none =>
      rw [won] at table
      exact accounts_congr table
  | some pair =>
      rw [won] at table
      refine (accounts_congr table).trans (accounts_set ?_)
      intro p
      rfl

end Kernel

/-! ## All steps at once -/

/-- The slices that a step ends: the process gives the processor up. -/
def EndsSlice (k : Kernel) (c : Slot) : Event -> Prop
  | .yield caller | .sleep caller _ | .exit caller => caller = c
  | .wait caller => caller = c ∧ k.Sleeps c
  | _ => False

/-- The accounts after a step: all as before, or one of them settled, reserved or bid. -/
theorem accounts_perform {k after : Kernel} {event : Event} (done : perform k event = some after) :
    (after.accounts = k.accounts ∧ (forall c, ¬ EndsSlice k c event)) ∨
    (Exists fun c => EndsSlice k c event ∧ after.accounts = k.settled c) ∨
    (Exists fun c => Exists fun n => event = .reserve c (some n) ∧
      after = (k.sysReserve c (some n)).2) ∨
    (Exists fun c => Exists fun n => event = .spot c (some n) ∧
      after = (k.sysSpot c (some n)).2) := by
  cases event with
  | round => exact .inl ⟨Option.some.inj done ▸ Kernel.accounts_scheduler, fun _ => nofun⟩
  | yield c => exact .inr (.inl ⟨c, rfl, Option.some.inj done ▸ Kernel.accounts_yield⟩)
  | sleep c chan => exact .inr (.inl ⟨c, rfl, Option.some.inj done ▸ Kernel.accounts_sleep chan⟩)
  | wakeup chan => exact .inl ⟨Option.some.inj done ▸ Kernel.accounts_wakeup1 _, fun _ => nofun⟩
  | fork c kstack pgdir =>
      exact .inl ⟨Option.some.inj done ▸ Kernel.accounts_fork kstack pgdir, fun _ => nofun⟩
  | exit c => exact .inr (.inl ⟨c, rfl, Kernel.accounts_exit done⟩)
  | wait c =>
      cases Option.some.inj done
      by_cases sleeps : k.Sleeps c
      · right
        left
        refine ⟨c, ⟨rfl, sleeps⟩, ?_⟩
        unfold Kernel.Sleeps at sleeps
        unfold Kernel.wait at sleeps ⊢
        split at sleeps
        · exact nomatch sleeps
        · split at sleeps
          · exact nomatch sleeps
          · rename_i childless
            rw [if_neg childless]
            exact Kernel.accounts_sleep _
      · left
        refine ⟨?_, fun other ends => sleeps (ends.1 ▸ ends.2)⟩
        rcases @Kernel.accounts_wait k c with same | ⟨asleep, _⟩
        · exact same
        · exact absurd asleep sleeps
  | kill c pid => exact .inl ⟨Option.some.inj done ▸ Kernel.accounts_kill pid, fun _ => nofun⟩
  | reserve c arg =>
      cases arg with
      | none => exact .inl ⟨by cases Option.some.inj done; rfl, fun _ => nofun⟩
      | some n => exact .inr (.inr (.inl ⟨c, n, rfl, (Option.some.inj done).symm⟩))
  | spot c arg =>
      cases arg with
      | none => exact .inl ⟨by cases Option.some.inj done; rfl, fun _ => nofun⟩
      | some n => exact .inr (.inr (.inr ⟨c, n, rfl, (Option.some.inj done).symm⟩))

end Scheduler
end OsProjects
