import OsProjects.Scheduler.ProcessTable
import Mathlib.Data.List.Infix

namespace OsProjects
namespace Scheduler

open Kernel

/-!
# The carry of the charge

What a process has to pay is kept in two fields: `charge`, and `tcharge` for the
thousands.  When a slice takes `charge` above 1000, one thousand is carried and the rest
is reduced modulo 1000.  That is exact as long as one slice does not make two thousands
due; what goes beyond is lost for good.
-/

/-- What a slice adds, by the copy of the code that charges it and the bid. -/
def amount (s : Dispatch × Int) : Int :=
  match s.1 with
  | .reserve => 10
  | .spot => s.2.tdiv 100

/-- A slice of a process that bids `s.2` at its end. -/
def slice (p : Proc) (s : Dispatch × Int) : Proc :=
  charged (cost s.1 { p with spotbid := s.2 }) { p with spotbid := s.2 }

/-- A sequence of slices of one process. -/
def slices (p : Proc) (ss : List (Dispatch × Int)) : Proc := ss.foldl slice p

/-- The sum of what the slices add. -/
def added (ss : List (Dispatch × Int)) : Int := (ss.map amount).sum

/-- Both fields together are the amount due. -/
def Due (p : Proc) (due : Int) : Prop :=
  1000 * p.tcharge + p.charge = due ∧ 0 ≤ p.charge ∧ p.charge ≤ 1000

/-- A sequence that can be billed: no bid is negative, and the sum fits. -/
structure Billable (ss : List (Dispatch × Int)) : Prop where
  bids : forall s, s ∈ ss -> 0 ≤ s.2
  fits : added ss < 2 ^ 31

/-- In every slice, what is left of the charge and the amount do not make two thousands. -/
def CarriesOne (p : Proc) (ss : List (Dispatch × Int)) : Prop :=
  forall done s, (done ++ [s]) <+: ss -> (slices p done).charge + amount s < 2000

variable {p : Proc} {ss done : List (Dispatch × Int)} {s : Dispatch × Int}

theorem slices_concat : slices p (done ++ [s]) = slice (slices p done) s := by
  rw [slices, List.foldl_append]
  rfl

theorem added_concat : added (done ++ [s]) = added done + amount s := by
  rw [added, List.map_append, List.sum_append]
  simp only [List.map_cons, List.map_nil, List.sum_cons, List.sum_nil, Int.add_zero, added]

theorem amount_nonneg (bid : 0 ≤ s.2) : 0 ≤ amount s := by
  unfold amount
  split
  · decide
  · exact Int.tdiv_nonneg bid (by decide)

theorem added_nonneg (bids : forall s, s ∈ ss -> 0 ≤ s.2) : 0 ≤ added ss := by
  induction ss with
  | nil => exact Int.le_refl 0
  | cons s ss ih =>
      have first := amount_nonneg (bids s List.mem_cons_self)
      have rest := ih (fun t inside => bids t (List.mem_cons_of_mem s inside))
      have sum : added (s :: ss) = amount s + added ss := List.sum_cons
      omega

/-- A part of the sequence adds no more than all of it. -/
theorem added_le (billable : Billable ss) (part : done <+: ss) : added done ≤ added ss := by
  rcases part with ⟨rest, whole⟩
  have more := @added_nonneg rest
    (fun s inside => billable.bids s (whole ▸ List.mem_append_right done inside))
  rw [← whole, added, added, List.map_append, List.sum_append]
  exact Int.le_add_of_nonneg_right more

/-- What is known of the two fields after any slices. -/
structure Charged (p : Proc) (due : Int) : Prop where
  charge : 0 ≤ p.charge ∧ p.charge ≤ 1000
  carried : 0 ≤ p.tcharge
  most : 1000 * p.tcharge + p.charge ≤ due

/-- A slice takes one thousand at most out of the sum, and loses the other ones. -/
theorem slice_charged {due : Int} (before : Charged p due) (bid : 0 ≤ s.2)
    (fits : due + amount s < 2 ^ 31) :
    Charged (slice p s) (due + amount s) ∧
      1000 * (slice p s).tcharge + (slice p s).charge = 1000 * p.tcharge + p.charge + amount s -
        (if p.charge + amount s > 1000 then 1000 * ((p.charge + amount s) / 1000 - 1) else 0) := by
  rcases before with ⟨⟨lower, upper⟩, carried, most⟩
  have nonneg := amount_nonneg bid
  have isAmount : cost s.1 { p with spotbid := s.2 } = amount s := rfl
  have total : int32 (p.charge + amount s) = p.charge + amount s :=
    int32_of_fits (by omega) (by omega)
  have charge : (slice p s).charge =
      if p.charge + amount s > 1000 then (p.charge + amount s) % 1000 else p.charge + amount s := by
    unfold slice charged
    dsimp only
    rw [isAmount, total, Int.tmod_eq_emod_of_nonneg (by omega)]
  have tcharge : (slice p s).tcharge = if p.charge + amount s > 1000 then p.tcharge + 1
      else p.tcharge := by
    unfold slice charged
    dsimp only
    rw [isAmount, total]
    by_cases carries : p.charge + amount s > 1000
    · rw [if_pos carries, if_pos carries, int32_of_fits (by omega) (by omega)]
    · rw [if_neg carries, if_neg carries]
  by_cases carries : p.charge + amount s > 1000
  · rw [if_pos carries] at charge tcharge ⊢
    exact ⟨⟨by omega, by omega, by omega⟩, by omega⟩
  · rw [if_neg carries] at charge tcharge ⊢
    exact ⟨⟨by omega, by omega, by omega⟩, by omega⟩

theorem slices_charged (billable : Billable ss) (start : p.charge = 0 ∧ p.tcharge = 0) :
    done <+: ss -> Charged (slices p done) (added done) := by
  induction done using List.reverseRecOn with
  | nil =>
      intro _
      have due : added [] = 0 := rfl
      have same : slices p [] = p := rfl
      rw [due, same]
      exact ⟨by omega, by omega, by omega⟩
  | append_singleton done s ih =>
      intro part
      have shorter : done <+: ss := (List.prefix_append done [s]).trans part
      have member : s ∈ ss := part.subset (List.mem_append_right done List.mem_cons_self)
      have most := added_le billable part
      have fits := billable.fits
      rw [added_concat] at most ⊢
      rw [slices_concat]
      exact (slice_charged (ih shorter) (billable.bids s member) (by omega)).1

/-- The two fields always give the amount due exactly when no slice makes two thousands
due at once. -/
theorem due_iff_carriesOne (billable : Billable ss) (start : p.charge = 0 ∧ p.tcharge = 0) :
    (forall done, done <+: ss -> Due (slices p done) (added done)) ↔ CarriesOne p ss := by
  have step : forall done s, (done ++ [s]) <+: ss ->
      1000 * (slices p (done ++ [s])).tcharge + (slices p (done ++ [s])).charge =
        1000 * (slices p done).tcharge + (slices p done).charge + amount s -
        (if (slices p done).charge + amount s > 1000 then
          1000 * (((slices p done).charge + amount s) / 1000 - 1) else 0) := by
    intro done s part
    have shorter : done <+: ss := (List.prefix_append done [s]).trans part
    have member : s ∈ ss := part.subset (List.mem_append_right done List.mem_cons_self)
    have most := added_le billable part
    have fits := billable.fits
    rw [added_concat] at most
    rw [slices_concat]
    exact (slice_charged (slices_charged billable start shorter) (billable.bids s member)
      (by omega)).2
  constructor
  · intro exact_ done s part
    have here := (exact_ done ((List.prefix_append done [s]).trans part)).1
    have next := (exact_ (done ++ [s]) part).1
    have sum := step done s part
    rw [added_concat] at next
    rw [next, here] at sum
    by_contra large
    rw [if_pos (by omega)] at sum
    omega
  · intro carries done
    induction done using List.reverseRecOn with
    | nil =>
        intro part
        have due : added [] = 0 := rfl
        have same : slices p [] = p := rfl
        rw [due, same]
        exact ⟨by omega, by omega, by omega⟩
    | append_singleton done s ih =>
        intro part
        have before := (ih ((List.prefix_append done [s]).trans part)).1
        have range := (slices_charged billable start part).charge
        have sum := step done s part
        have small := carries done s part
        refine ⟨?_, range⟩
        rw [sum, before, added_concat]
        split <;> omega

/-- Bids below 100000 never make two thousands due at once. -/
theorem carriesOne_of_small (billable : Billable ss) (start : p.charge = 0 ∧ p.tcharge = 0)
    (small : forall s, s ∈ ss -> s.2 < 100000) : CarriesOne p ss := by
  intro done s part
  have member : s ∈ ss := part.subset (List.mem_append_right done List.mem_cons_self)
  have range := (slices_charged billable start ((List.prefix_append done [s]).trans part)).charge
  have below : amount s < 1000 := by
    have bid := small s member
    have nonneg := billable.bids s member
    unfold amount
    split
    · decide
    · rw [Int.tdiv_eq_ediv_of_nonneg nonneg]
      omega
  omega

theorem due_iff_carriesOne_twoSlices :
    CarriesOne blankProc [(Dispatch.reserve, 0), (Dispatch.spot, 99999)] ∧
    forall done, done <+: [(Dispatch.reserve, 0), (Dispatch.spot, 99999)] ->
      Due (slices blankProc done) (added done) := by
  have bids : forall s : Dispatch × Int, s ∈ [(Dispatch.reserve, 0), (Dispatch.spot, 99999)] ->
      0 ≤ s.2 ∧ s.2 < 100000 := by decide
  have billable : Billable [(Dispatch.reserve, 0), (Dispatch.spot, 99999)] :=
    ⟨fun s inside => (bids s inside).1, by decide⟩
  have carries := @carriesOne_of_small blankProc _ billable ⟨rfl, rfl⟩
      (fun s inside => (bids s inside).2)
  exact ⟨carries, (due_iff_carriesOne billable ⟨rfl, rfl⟩).mpr carries⟩

/-- A slice at a bid of 200000 costs 2000, of which one thousand is charged. -/
theorem one_slice_loses_thousand :
    ¬ forall (p : Proc) (ss : List (Dispatch × Int)), Billable ss -> p.charge = 0 ∧ p.tcharge = 0 ->
      forall done, done <+: ss -> Due (slices p done) (added done) := by
  intro always
  have billable : Billable [(Dispatch.spot, 200000)] := by
    refine ⟨fun s inside => ?_, by decide⟩
    rw [List.mem_singleton.mp inside]
    decide
  have due := (always blankProc [(Dispatch.spot, 200000)] billable ⟨rfl, rfl⟩ _
      (List.prefix_refl _)).1
  revert due
  decide

end Scheduler
end OsProjects
