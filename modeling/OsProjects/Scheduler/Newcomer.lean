import OsProjects.Scheduler.History

namespace OsProjects
namespace Scheduler

open Machine Kernel

/-!
# What a new process finds in its slot

`allocproc` sets the state and the pid of the slot it takes and nothing else,
and `wait` clears the pid, the parent, the name and the mark of a kill, but not
the fields that the reservation scheduler added.  A process that is created in
a slot which was used before therefore takes over the reservation, the bid and
the bill of the process that lived there.

A slot that is unused after a process has lived in it is never clean, because
that process was dispatched at least once in order to exit, and `numofused`
counts this.
-/

theorem int32_add (a b : Int) : int32 (int32 a + b) = int32 (a + b) := by
  simp only [int32, Int.bmod_add_bmod]

/-- The slices that have ended, given where the scheduler resumes. -/
def finished (resume : Option Dispatch) (record : Record) : Int :=
  match resume with
  | none => record.dispatched
  | some _ => record.dispatched - 1

/-- A slot whose seat, account and record fit together. -/
structure Tended (phase : Phase) (resume : Option Dispatch) (account : Account) (record : Record) :
    Prop where
  fresh : record.tenants = 0 -> phase = .unused ∧ account = Account.zero
  flight : phase = .running ↔ resume ≠ none
  started : resume ≠ none -> 1 ≤ record.dispatched
  used : account.numofused = int32 (finished resume record)
  time : account.runningtime = int32 (10 * finished resume record)
  ran : record.tenants ≠ 0 -> phase = .unused ∨ phase = .zombie -> 1 ≤ record.dispatched

namespace Tended

variable {phase : Phase} {resume : Option Dispatch} {account : Account} {record : Record}

/-- A slot in which a process waits, runs or has died has a tenant. -/
theorem tenanted (tended : Tended phase resume account record) (taken : phase ≠ .unused) :
    record.tenants ≠ 0 :=
  fun none_yet => taken (tended.fresh none_yet).1

theorem idle (tended : Tended phase resume account record) (stopped : phase ≠ .running) :
    resume = none := by
  by_contra started
  exact stopped (tended.flight.mpr started)

theorem dispatch (tended : Tended .waiting resume account record) (d : Dispatch) :
    Tended .running (some d) account { record with dispatched := record.dispatched + 1 } := by
  have tenants := tended.tenanted nofun
  have none_yet := tended.idle nofun
  have used := tended.used
  have time := tended.time
  rw [none_yet] at used time
  refine ⟨fun none_yet => absurd none_yet tenants, ⟨fun _ => nofun, fun _ => rfl⟩,
    fun _ => Nat.le_add_left 1 _, ?_, ?_, fun _ dead => ?_⟩
  · rw [used]
    simp only [finished]
    congr 1
    push_cast
    omega
  · rw [time]
    simp only [finished]
    congr 1
    push_cast
    omega
  · rcases dead with unused | zombie
    · exact nomatch unused
    · exact nomatch zombie

theorem giveUp {d : Dispatch} (tended : Tended .running (some d) account record) {left : Phase}
    (leaves : left = .waiting ∨ left = .zombie) (charged : Int) :
    Tended left none (account.charged d) { record with charged := charged } := by
  have started := tended.started nofun
  have tenants := tended.tenanted nofun
  refine ⟨fun none_yet => absurd none_yet tenants, ⟨fun running => ?_,
    fun some_ => absurd rfl some_⟩, fun some_ => absurd rfl some_, ?_, ?_, fun _ _ => started⟩
  · rw [running] at leaves
    rcases leaves with waiting | zombie
    · exact nomatch waiting
    · exact nomatch zombie
  · have used := tended.used
    show int32 (account.numofused + 1) = _
    rw [used, int32_add]
    simp only [finished]
    congr 1
    omega
  · have time := tended.time
    show int32 (account.runningtime + 10) = _
    rw [time, int32_add]
    simp only [finished]
    congr 1
    omega

theorem moveIn (tended : Tended .unused resume account record) (named : Bool) :
    Tended .waiting resume account
      { record with tenants := record.tenants + 1, named := named } := by
  have none_yet := tended.idle nofun
  refine ⟨fun zero => absurd zero (Nat.succ_ne_zero _), ⟨nofun, fun some_ => absurd none_yet some_⟩,
    tended.started, tended.used, tended.time, fun _ dead => ?_⟩
  rcases dead with unused | zombie
  · exact nomatch unused
  · exact nomatch zombie

theorem moveOut (tended : Tended .zombie resume account record) :
    Tended .unused resume account record := by
  have tenants := tended.tenanted nofun
  have none_yet := tended.idle nofun
  exact ⟨fun zero => absurd zero tenants, ⟨nofun, fun some_ => absurd none_yet some_⟩,
    tended.started, tended.used, tended.time, fun lived _ => tended.ran lived (.inr rfl)⟩

theorem name (tended : Tended phase resume account record) (named : Bool) :
    Tended phase resume account { record with named := named } :=
  ⟨tended.fresh, tended.flight, tended.started, tended.used, tended.time, tended.ran⟩

theorem book (tended : Tended .running resume account record) (rpercent spotbid : Int) :
    Tended .running resume { account with rpercent := rpercent, spotbid := spotbid } record :=
  ⟨fun none_yet => absurd none_yet (tended.tenanted nofun), tended.flight, tended.started,
    tended.used, tended.time, tended.ran⟩

end Tended

/-- The slot `i` of a run is tended. -/
def Run.Tends (r : Run) (i : Slot) : Prop :=
  Tended (r.kernel.seats i).phase (r.kernel.resume i) (r.kernel.accounts i) (r.history i)

theorem bill_of_some {k : Kernel} {history : Slot -> Record} {c : Slot} {d : Dispatch}
    (started : k.resume c = some d) : bill k history c = Function.update history c
      { history c with charged := (history c).charged + cost d (k.proc c) } := by
  simp only [bill, started]

theorem bill_of_ne {k : Kernel} {history : Slot -> Record} {c j : Slot} (different : j ≠ c) :
    bill k history c j = history j := by
  cases started : k.resume c with
  | none => simp only [bill, started]
  | some d => rw [bill_of_some started, Function.update_of_ne different]

theorem Run.Tends.step {r after : Run} {event : Event} (tends : forall i, r.Tends i)
    (stepped : runStep r event = some after) (j : Slot) : after.Tends j := by
  have before := tends j
  unfold Run.Tends at before ⊢
  cases change_of_runStep stepped with
  | nothing seats resume accounts history =>
      rw [seats, resume, accounts, history]
      exact before
  | dispatch i d waiting seats resume accounts history =>
      rw [seats, resume, accounts, history]
      by_cases here : j = i
      · subst j
        rw [waiting] at before
        simp only [Function.update_self]
        exact before.dispatch d
      · simp only [Function.update_of_ne here]
        exact before
  | giveUp i phase running left seats resume accounts history =>
      rw [seats, resume, accounts, history]
      by_cases here : j = i
      · subst j
        rw [running] at before
        cases started : r.kernel.resume i with
        | none => exact absurd started (before.flight.mp rfl)
        | some d =>
            rw [started] at before
            rw [bill_of_some started, settled_self started]
            simp only [Function.update_self]
            exact before.giveUp left _
      · rw [settled_of_ne here]
        rw [bill_of_ne here]
        simp only [Function.update_of_ne here]
        exact before
  | moveIn i unused seats resume accounts history =>
      rw [seats, resume, accounts, history]
      by_cases here : j = i
      · subst j
        rw [unused] at before
        simp only [Function.update_self]
        exact before.moveIn false
      · simp only [Function.update_of_ne here]
        exact before
  | tryIn i unused seats resume accounts history =>
      rw [seats, resume, accounts, history]
      by_cases here : j = i
      · subst j
        rw [unused] at before
        simp only [Function.update_self]
        exact before
      · simp only [Function.update_of_ne here]
        exact before
  | moveOut i zombie seats resume accounts history =>
      rw [seats, resume, accounts, history]
      by_cases here : j = i
      · subst j
        rw [zombie] at before
        simp only [Function.update_self]
        exact before.moveOut
      · simp only [Function.update_of_ne here]
        exact before
  | mark i c pid kills its seats resume accounts history =>
      rw [seats, resume, accounts, history]
      have phase : (Function.update r.kernel.seats i { r.kernel.seats i with killed := true }
          j).phase = (r.kernel.seats j).phase := by
        by_cases here : j = i
        · rw [here, Function.update_self]
        · rw [Function.update_of_ne here]
      rw [phase]
      dsimp only
      split
      · exact before.name true
      · exact before
  | book i rpercent spotbid running bid seats resume accounts history =>
      rw [seats, resume, accounts, history]
      by_cases here : j = i
      · subst j
        rw [running] at before ⊢
        simp only [Function.update_self]
        exact before.book rpercent spotbid
      · simp only [Function.update_of_ne here]
        exact before

theorem Run.Tends.of_booted {r : Run} (booted : RunBooted r) (i : Slot) : r.Tends i := by
  rcases booted with ⟨kernel, history⟩
  unfold Run.Tends
  rw [history, kernel.idle i]
  by_cases first : i = firstSlot
  · rw [first, seats, accounts, kernel.first]
    exact ⟨(by rintro ⟨⟩), ⟨(by rintro ⟨⟩), fun some_ => absurd rfl some_⟩, fun some_ =>
      absurd rfl some_, by decide, by decide, fun _ dead => dead.elim (by rintro ⟨⟩) (by rintro ⟨⟩)⟩
  · rw [seats, accounts, kernel.others i first, firstHistory, if_neg first]
    exact ⟨fun _ => ⟨rfl, rfl⟩, ⟨(by rintro ⟨⟩), fun some_ => absurd rfl some_⟩,
      fun some_ => absurd rfl some_, by decide, by decide, fun lived => absurd rfl lived⟩

theorem Run.Tends.of_recorded {guard : Kernel -> Event -> Prop} {r : Run}
    (recorded : Recorded guard r) : forall i, r.Tends i :=
  recorded.invariant (fun _ booted => Run.Tends.of_booted booted)
    (fun _ _ _ tends _ stepped => Run.Tends.step tends stepped)

/-! ## The account of a new process -/

/-- The account with which the process created by a successful `fork` starts. -/
def newcomer (k : Kernel) (c i : Slot) : Account := ((k.fork c true true).2.proc i).account

theorem int32_eq_zero_iff {x : Int} (nonneg : 0 ≤ x) (fits : x < 2 ^ 32) : int32 x = 0 ↔ x = 0 := by
  unfold int32
  rw [← Int.dvd_iff_bmod_eq_zero]
  constructor
  · intro divides
    exact Int.eq_zero_of_dvd_of_nonneg_of_lt nonneg fits divides
  · intro zero
    rw [zero]
    exact Int.dvd_zero _

/-- In every run, the process created by a successful `fork` starts with an
account of zeros if its slot was never used by a process before, and never if
it was (until `numofused` has gone once around). -/
theorem newcomer_zero_of_fresh {r : Run} (recorded : Recorded anyEvent r) {c i : Slot}
    (free : r.kernel.firstUnused = some i) :
    ((r.history i).tenants = 0 -> newcomer r.kernel c i = Account.zero) ∧
    ((r.history i).tenants ≠ 0 -> (r.history i).dispatched < 2 ^ 32 ->
      newcomer r.kernel c i ≠ Account.zero) := by
  have tended := Run.Tends.of_recorded recorded i
  have same : newcomer r.kernel c i = r.kernel.accounts i :=
    congrFun (accounts_fork true true) i
  have unused := firstUnused_phase free
  rw [same]
  unfold Run.Tends at tended
  rw [unused] at tended
  refine ⟨fun none_yet => (tended.fresh none_yet).2, fun lived fits zero => ?_⟩
  have ran := tended.ran lived (.inl rfl)
  have used := tended.used
  rw [tended.idle nofun, zero] at used
  simp only [finished, Account.zero] at used
  have count := (int32_eq_zero_iff (Int.natCast_nonneg _) (by exact_mod_cast fits)).mp used.symm
  omega

theorem one_lt_NPROC : 1 < NPROC := by decide

/-- `init` has a child that has reserved half a processor. -/
def childReserves : List Event :=
  [.round, .round, .fork firstSlot true true, .wait firstSlot, .round, .round,
    .reserve ⟨1, one_lt_NPROC⟩ (some 50)]

/-- The child exits and is reaped. -/
def childReserved : List Event :=
  childReserves ++ [.exit ⟨1, one_lt_NPROC⟩, .round, .wait firstSlot]

/-- While the child lives, the next one gets a slot that nobody has used and starts
with an account of zeros.  In the slot of the child it does not. -/
theorem newcomer_zero_of_fresh_child :
    (Exists fun r =>
      run runStep bootRun childReserves = some r ∧
      Exists fun i =>
        r.kernel.firstUnused = some i ∧ newcomer r.kernel firstSlot i = Account.zero) ∧
    (Exists fun r =>
      run runStep bootRun childReserved = some r ∧
      Exists fun i =>
        r.kernel.firstUnused = some i ∧ newcomer r.kernel firstSlot i ≠ Account.zero) := by
  have living : (run runStep bootRun childReserves).map (fun r =>
      (r.kernel.firstUnused, (r.history ⟨2, by decide⟩).tenants)) =
        some (some ⟨2, by decide⟩, 0) := by
    decide +kernel
  have reaped : (run runStep bootRun childReserved).map (fun r =>
      (r.kernel.firstUnused, (r.history ⟨1, one_lt_NPROC⟩).tenants,
        (r.history ⟨1, one_lt_NPROC⟩).dispatched)) = some (some ⟨1, one_lt_NPROC⟩, 1, 1) := by
    decide +kernel
  have recorded : forall {events : List Event} {r : Run}, run runStep bootRun events = some r ->
      Recorded anyEvent r := fun ran =>
    (Reachable.start bootRun_booted).run_allowed ran (fun _ _ _ => trivial)
  rcases Option.map_eq_some_iff.mp living with ⟨r, ran, found⟩
  rcases Option.map_eq_some_iff.mp reaped with ⟨after, ranToo, foundToo⟩
  rcases Prod.mk.inj found with ⟨free, fresh⟩
  rcases Prod.mk.inj foundToo with ⟨freeToo, used⟩
  rcases Prod.mk.inj used with ⟨tenants, dispatched⟩
  refine ⟨⟨r, ran, _, free, (newcomer_zero_of_fresh (recorded ran) free).1 fresh⟩,
    ⟨after, ranToo, _, freeToo, (newcomer_zero_of_fresh (recorded ranToo) freeToo).2 ?_ ?_⟩⟩
  · rw [tenants]
    decide
  · rw [dispatched]
    decide

/-- The next child of `init` is created with that reservation. -/
theorem newcomer_inherits :
    ¬ forall r, Recorded anyEvent r -> forall c i, (r.kernel.proc c).state = .running ->
      r.kernel.firstUnused = some i -> newcomer r.kernel c i = Account.zero := by
  intro clean
  have before : (run runStep bootRun childReserved).map (fun r =>
      ((r.kernel.proc firstSlot).state, r.kernel.firstUnused,
        (newcomer r.kernel firstSlot ⟨1, by decide⟩).rpercent)) =
      some (.running, some ⟨1, by decide⟩, 50) := by decide +kernel
  cases ran : run runStep bootRun childReserved with
  | none =>
      rw [ran] at before
      exact nomatch before
  | some r =>
      rw [ran] at before
      rcases Prod.mk.inj (Option.some.inj before) with ⟨running, rest⟩
      rcases Prod.mk.inj rest with ⟨free, percent⟩
      have recorded : Recorded anyEvent r :=
        (Reachable.start bootRun_booted).run_allowed ran (fun _ _ _ => trivial)
      rw [clean r recorded firstSlot _ running free] at percent
      exact nomatch percent

end Scheduler
end OsProjects
