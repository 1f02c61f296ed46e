import OsProjects.Scheduler.Newcomer

namespace OsProjects
namespace Scheduler

open Machine Kernel

/-!
# What `fill_pstat` reports

The scheduler keeps what a process owes in two fields: when `charge` passes 1000
it adds one to `tcharge` and keeps the remainder in `charge`.  `fill_pstat`
reports `charge` alone.  The report is therefore the true total up to 1000 and
never again after that.

The counters are brought up to date when a slice ends, so a process that is
running, for example the one that asks, is reported without its present slice.
-/

/-- `struct pstat`. -/
structure Pstat where
  inuse : Slot -> Int
  pid : Slot -> Int
  chosen : Slot -> Int
  time : Slot -> Int
  charge : Slot -> Int

/-- The values that `fill_pstat` computes. -/
def fillPstat (k : Kernel) : Pstat where
  inuse := fun i => if (k.proc i).state = .running then 1 else 0
  pid := fun i => (k.proc i).pid
  chosen := fun i => (k.proc i).numofused
  time := fun i => (k.proc i).runningtime
  charge := fun i => (k.proc i).charge

/-- The report on a slot gives the number of its dispatches, ten times that, and
what its slices have cost since the slot was first used. -/
def ReportsTotals (r : Run) (i : Slot) : Prop :=
  (fillPstat r.kernel).chosen i = (r.history i).dispatched ∧
    (fillPstat r.kernel).time i = 10 * (r.history i).dispatched ∧
    (fillPstat r.kernel).charge i = (r.history i).charged

/-- Bids are non-negative numbers of type `int`. -/
def NonNegativeBids (_k : Kernel) (event : Event) : Prop :=
  forall c n, event = .spot c (some n) -> 0 ≤ n ∧ n < 2 ^ 31

/-- A slot whose account and record agree up to the first carry. -/
structure Metered (account : Account) (record : Record) : Prop where
  bid : 0 ≤ account.spotbid ∧ account.spotbid < 2 ^ 31
  range : 0 ≤ account.charge ∧ account.charge ≤ 1000
  nonneg : 0 ≤ record.charged
  agree : record.charged ≤ 1000 -> account.charge = record.charged

namespace Metered

variable {account : Account} {record : Record}

/-- What a slice of a metered account costs. -/
def price (account : Account) (d : Dispatch) : Int :=
  match d with
  | .reserve => 10
  | .spot => account.spotbid.tdiv 100

theorem price_bounds (metered : Metered account record) (d : Dispatch) :
    0 ≤ price account d ∧ price account d < 2 ^ 30 := by
  cases d with
  | reserve =>
      simp only [price]
      decide
  | spot =>
      have bid := metered.bid
      simp only [price]
      rw [Int.tdiv_eq_ediv_of_nonneg bid.1]
      omega

theorem charge_charged (account : Account) (d : Dispatch) :
    (account.charged d).charge =
      if int32 (account.charge + price account d) > 1000 then
        (int32 (account.charge + price account d)).tmod 1000
      else int32 (account.charge + price account d) := by
  cases d <;> rfl

theorem charged (metered : Metered account record) (d : Dispatch) :
    Metered (account.charged d) { record with charged := record.charged + price account d } := by
  have price := metered.price_bounds d
  have range := metered.range
  have nonneg := metered.nonneg
  have sum : int32 (account.charge + Metered.price account d) =
      account.charge + Metered.price account d := int32_of_fits (by omega) (by omega)
  have charge := charge_charged account d
  rw [sum] at charge
  by_cases carries : account.charge + Metered.price account d > 1000
  · rw [if_pos carries, Int.tmod_eq_emod_of_nonneg (by omega)] at charge
    refine ⟨metered.bid, ?_, by dsimp only; omega, fun small => ?_⟩
    · rw [charge]
      omega
    · dsimp only at small
      have same := metered.agree (by omega)
      omega
  · rw [if_neg carries] at charge
    refine ⟨metered.bid, ?_, by dsimp only; omega, fun small => ?_⟩
    · rw [charge]
      omega
    · dsimp only at small ⊢
      rw [charge, metered.agree (by omega)]

theorem book (metered : Metered account record) (rpercent spotbid : Int)
    (bid : 0 ≤ spotbid ∧ spotbid < 2 ^ 31) :
    Metered { account with rpercent := rpercent, spotbid := spotbid } record :=
  ⟨bid, metered.range, metered.nonneg, metered.agree⟩

/-- Only the charged total of a record matters. -/
theorem of_charged (metered : Metered account record) {other : Record}
    (same : other.charged = record.charged) : Metered account other :=
  ⟨metered.bid, metered.range, same ▸ metered.nonneg,
    fun small => same ▸ metered.agree (same ▸ small)⟩

end Metered

theorem metered_step {r after : Run} {event : Event}
    (metered : forall i, Metered (r.kernel.accounts i) (r.history i))
    (bids : NonNegativeBids r.kernel event) (stepped : runStep r event = some after) (j : Slot) :
    Metered (after.kernel.accounts j) (after.history j) := by
  have before := metered j
  cases change_of_runStep stepped with
  | nothing seats resume accounts history =>
      rw [accounts, history]
      exact before
  | dispatch i d waiting seats resume accounts history =>
      rw [accounts, history]
      apply before.of_charged
      by_cases here : j = i
      · rw [here, Function.update_self]
      · rw [Function.update_of_ne here]
  | giveUp i phase running left seats resume accounts history =>
      rw [accounts, history]
      by_cases here : j = i
      · subst j
        cases started : r.kernel.resume i with
        | none =>
            simp only [settled, bill, started]
            exact before
        | some d =>
            rw [settled_self started, bill_of_some started, Function.update_self]
            have next := before.charged d
            cases d with
            | reserve => exact next
            | spot => exact next
      · rw [settled_of_ne here, bill_of_ne here]
        exact before
  | moveIn i unused seats resume accounts history =>
      rw [accounts, history]
      apply before.of_charged
      by_cases here : j = i
      · rw [here, Function.update_self]
      · rw [Function.update_of_ne here]
  | tryIn i unused seats resume accounts history =>
      rw [accounts, history]
      exact before
  | moveOut i zombie seats resume accounts history =>
      rw [accounts, history]
      exact before
  | mark i c pid kills its seats resume accounts history =>
      rw [accounts, history]
      apply before.of_charged
      dsimp only
      split <;> rfl
  | book i rpercent spotbid running bid seats resume accounts history =>
      rw [accounts, history]
      by_cases here : j = i
      · subst j
        rw [Function.update_self]
        apply before.book
        rcases bid with zero | spots
        · rw [zero]
          decide
        · exact bids i spotbid spots
      · rw [Function.update_of_ne here]
        exact before

theorem metered_of_booted {r : Run} (booted : RunBooted r) (i : Slot) :
    Metered (r.kernel.accounts i) (r.history i) := by
  have blank : r.kernel.accounts i = Account.zero := by
    by_cases first : i = firstSlot
    · rw [first, accounts, booted.1.first]
      rfl
    · rw [accounts, booted.1.others i first]
      rfl
  rw [blank, booted.2]
  exact ⟨by decide, by decide, Int.le_refl 0, fun _ => rfl⟩

/-- In every run with non-negative bids, as long as the running time fits an
`int`, the report on a slot gives its true totals exactly when the slot is not
in the middle of a slice and its slices have cost at most 1000. -/
theorem reports_totals_iff {r : Run} (recorded : Recorded NonNegativeBids r) (i : Slot)
    (fits : 10 * (r.history i).dispatched < 2 ^ 31) :
    ReportsTotals r i ↔ (r.kernel.proc i).state ≠ .running ∧ (r.history i).charged ≤ 1000 := by
  have all : forall i, Metered (r.kernel.accounts i) (r.history i) :=
    recorded.invariant (fun _ booted => metered_of_booted booted)
      (fun _ _ _ metered bids stepped => metered_step metered bids stepped)
  have metered := all i
  have tended := Run.Tends.of_recorded recorded i
  have used : (r.kernel.proc i).numofused = int32 (finished (r.kernel.resume i) (r.history i)) :=
    tended.used
  have time : (r.kernel.proc i).runningtime =
      int32 (10 * finished (r.kernel.resume i) (r.history i)) := tended.time
  have range : (r.kernel.proc i).charge ≤ 1000 := metered.range.2
  have running : (r.kernel.proc i).state = .running ↔ r.kernel.resume i ≠ none :=
    phase_eq_running.symm.trans tended.flight
  unfold ReportsTotals fillPstat
  dsimp only
  constructor
  · rintro ⟨chosen, _, charge⟩
    refine ⟨fun runs => ?_, by omega⟩
    cases started : r.kernel.resume i with
    | none => exact running.mp runs started
    | some d =>
        have dispatched := tended.started (by rw [started]; exact nofun)
        rw [started] at used
        simp only [finished] at used
        rw [int32_of_fits (by omega) (by omega), chosen] at used
        omega
  · rintro ⟨stopped, small⟩
    have none_yet : r.kernel.resume i = none := by
      by_contra some_
      exact stopped (running.mpr some_)
    rw [none_yet] at used time
    simp only [finished] at used time
    rw [int32_of_fits (by omega) (by omega)] at used time
    exact ⟨used, time, metered.agree small⟩

/-- The bid of a call is a non-negative `int`. -/
def Event.bidFits : Event -> Bool
  | .spot _ (some n) => decide (0 ≤ n ∧ n < 2 ^ 31)
  | _ => true

theorem nonNegativeBids_of_all {events : List Event} (all : events.all Event.bidFits = true) :
    forall event, event ∈ events -> forall k, NonNegativeBids k event := by
  intro event inside k c n spots
  have willing := List.all_eq_true.mp all event inside
  rw [spots] at willing
  exact of_decide_eq_true willing

/-- `init` runs a slice for which it has bid 5000, one in which it reserves instead, and one with
the reservation. -/
def threeSlices : List Event :=
  [.round, .round, .spot firstSlot (some 5000), .yield firstSlot] ++ List.replicate 3 .round ++
    [.reserve firstSlot (some 60), .yield firstSlot] ++ List.replicate 9 .round ++
    [.yield firstSlot]

/-- The report on them is 3 slices, 30 milliseconds and a charge of 50 and 10. -/
theorem reports_totals_iff_threeSlices : Exists fun r => run runStep bootRun threeSlices = some r ∧
    r.history firstSlot = ⟨1, 3, 60, false⟩ ∧ ReportsTotals r firstSlot := by
  have before : (run runStep bootRun threeSlices).map (fun r =>
      ((r.kernel.proc firstSlot).state, r.history firstSlot)) =
        some (.runnable, ⟨1, 3, 60, false⟩) := by
    decide +kernel
  rcases Option.map_eq_some_iff.mp before with ⟨r, ran, same⟩
  rcases Prod.mk.inj same with ⟨state, history⟩
  have recorded : Recorded NonNegativeBids r :=
    (Reachable.start bootRun_booted).run_allowed ran
      (fun event inside r => nonNegativeBids_of_all rfl event inside r.kernel)
  refine ⟨r, ran, history, (reports_totals_iff recorded firstSlot ?_).mpr ⟨?_, ?_⟩⟩
  · rw [history]
    decide
  · rw [state]
    exact nofun
  · rw [history]
    decide

/-- `init` runs one slice for which it has bid 100100. -/
def oneDearSlice : List Event :=
  [.round, .round, .spot firstSlot (some 100100), .yield firstSlot]

/-- The slice costs 1001, and `fill_pstat` reports 1. -/
theorem reports_only_remainder :
    ¬ forall r, Recorded NonNegativeBids r -> forall i,
      10 * (r.history i).dispatched < 2 ^ 31 -> (r.history i).charged < 2 ^ 31 ->
      (r.kernel.proc i).state ≠ .running -> ReportsTotals r i := by
  intro always
  have before : (run runStep bootRun oneDearSlice).map (fun r =>
      ((r.kernel.proc firstSlot).state, r.history firstSlot,
        (fillPstat r.kernel).charge firstSlot)) =
      some (.runnable, ⟨1, 1, 1001, false⟩, 1) := by decide +kernel
  cases ran : run runStep bootRun oneDearSlice with
  | none =>
      rw [ran] at before
      exact nomatch before
  | some r =>
      rw [ran] at before
      rcases Prod.mk.inj (Option.some.inj before) with ⟨state, rest⟩
      rcases Prod.mk.inj rest with ⟨history, charge⟩
      have recorded : Recorded NonNegativeBids r :=
        (Reachable.start bootRun_booted).run_allowed ran
          (fun event inside r => nonNegativeBids_of_all rfl event inside r.kernel)
      have reports := always r recorded firstSlot (by rw [history]; decide)
          (by rw [history]; decide) (by rw [state]; exact nofun)
      have total := reports.2.2
      rw [charge, history] at total
      exact nomatch total

end Scheduler
end OsProjects
