import OsProjects.Scheduler.Accounts
import Mathlib.Algebra.BigOperators.Fin
import Mathlib.Algebra.Order.BigOperators.Group.Finset
import Mathlib.Tactic.Linarith

namespace OsProjects
namespace Scheduler

open Machine Kernel

/-!
# Reserving the processors

Two processors can be reserved to 200 per cent.  `sys_reserve` enforces this
with one counter, `totalpercent`, which it raises before it compares it with
200 and which nothing ever lowers: not a rejected call, not a second
reservation by the same process, not `spot`, not `exit`.

The counter therefore bounds the reservations from above, as long as it does
not overflow, and it is an exact account of them only as long as nobody has
asked for more than 200 per cent in all.
-/

variable {k after : Kernel} {c : Slot} {n : Int}

/-- The sum of the reservations in all slots, used or not. -/
def reserved (k : Kernel) : Int := ∑ i, (k.accounts i).rpercent

/-- The sum of the reservations in the slots that are not unused. -/
def booked (k : Kernel) : Int :=
  ∑ i with (k.proc i).state ≠ .unused, (k.proc i).rpercent

/-- The sum of the reservations of the live processes other than the caller. -/
def others (k : Kernel) (c : Slot) : Int :=
  ∑ i with i ≠ c ∧ (k.proc i).state ≠ .unused ∧ (k.proc i).state ≠ .zombie, (k.proc i).rpercent

/-- What the counter guarantees. -/
structure Solvent (k : Kernel) : Prop where
  positive : forall i, 0 ≤ (k.accounts i).rpercent
  covered : reserved k ≤ k.totalpercent
  bounded : reserved k ≤ 200
  fits : k.totalpercent < 2 ^ 31

namespace Solvent

theorem reserved_nonneg (solvent : Solvent k) : 0 ≤ reserved k :=
  Finset.sum_nonneg (fun i _ => solvent.positive i)

theorem booked_le (solvent : Solvent k) : booked k ≤ reserved k :=
  Finset.sum_le_sum_of_subset_of_nonneg (Finset.filter_subset _ _)
    (fun i _ _ => solvent.positive i)

/-- The caller's own reservation is not among the others. -/
theorem others_le (solvent : Solvent k) (c : Slot) : others k c ≤ reserved k :=
  Finset.sum_le_sum_of_subset_of_nonneg (Finset.filter_subset _ _)
    (fun i _ _ => solvent.positive i)

theorem of_booted (booted : Booted k) : Solvent k := by
  have nothing : forall i, (k.accounts i).rpercent = 0 := by
    intro i
    by_cases first : i = firstSlot
    · rw [first, accounts, booted.first]
      rfl
    · rw [accounts, booted.others i first]
      rfl
  have sum : reserved k = 0 := Finset.sum_eq_zero (fun i _ => nothing i)
  refine ⟨fun i => Int.le_of_eq (nothing i).symm, ?_, ?_, ?_⟩
  · rw [sum, booted.total]
  · rw [sum]
    decide
  · rw [booted.total]
    decide

/-- Steps that keep every reservation keep the guarantee. -/
theorem of_same (solvent : Solvent k) (total : after.totalpercent = k.totalpercent)
    (same : forall i, (after.accounts i).rpercent = (k.accounts i).rpercent) : Solvent after := by
  have sum : reserved after = reserved k := Finset.sum_congr rfl (fun i _ => same i)
  refine ⟨fun i => (same i).symm ▸ solvent.positive i, ?_, sum ▸ solvent.bounded,
    total ▸ solvent.fits⟩
  rw [sum, total]
  exact solvent.covered

end Solvent

/-! ## Replacing one reservation -/

/-- One slot gets the reservation `n` and all others keep theirs. -/
def Replaces (k after : Kernel) (c : Slot) (n : Int) : Prop :=
  (after.accounts c).rpercent = n ∧
    forall i, i ≠ c -> (after.accounts i).rpercent = (k.accounts i).rpercent

theorem Replaces.reserved_eq (replaces : Replaces k after c n) :
    reserved after = reserved k - (k.accounts c).rpercent + n := by
  have split : forall k : Kernel, reserved k =
      (k.accounts c).rpercent + ∑ i ∈ Finset.univ.erase c, (k.accounts i).rpercent := by
    intro k
    exact (Finset.add_sum_erase Finset.univ _ (Finset.mem_univ c)).symm
  have rest : ∑ i ∈ Finset.univ.erase c, (after.accounts i).rpercent =
      ∑ i ∈ Finset.univ.erase c, (k.accounts i).rpercent :=
    Finset.sum_congr rfl (fun i inside => replaces.2 i (Finset.ne_of_mem_erase inside))
  rw [split after, split k, rest, replaces.1]
  omega

theorem Replaces.positive (replaces : Replaces k after c n) (solvent : Solvent k) (nonneg : 0 ≤ n)
    (i : Slot) : 0 ≤ (after.accounts i).rpercent := by
  by_cases here : i = c
  · rw [here, replaces.1]
    exact nonneg
  · rw [replaces.2 i here]
    exact solvent.positive i

theorem replaces_set (k : Kernel) (c : Slot) {change : Proc -> Proc}
    (sets : forall p, (change p).rpercent = n) : Replaces k (k.set c change) c n := by
  refine ⟨?_, fun i different => ?_⟩
  · rw [accounts, proc_set_self]
    exact sets (k.proc c)
  · rw [accounts, proc_set_of_ne change different, accounts]

/-! ## What the calls return -/

theorem sysReserve_of_outside (outside : n < 0 ∨ n > 100) :
    k.sysReserve c (some n) = (-1, k) := by
  simp only [sysReserve, if_pos outside]

theorem sysReserve_of_admitted (inside : ¬ (n < 0 ∨ n > 100))
    (admitted : int32 (n + k.totalpercent) ≤ 200) :
    k.sysReserve c (some n) = (n, { k with totalpercent := int32 (n + k.totalpercent) }.set c
      (fun p => { p with spotbid := 0, rpercent := n })) := by
  have below : ¬ int32 (n + k.totalpercent) > 200 := Int.not_lt.mpr admitted
  simp only [sysReserve, if_neg inside, if_neg below]

theorem sysReserve_of_refused (inside : ¬ (n < 0 ∨ n > 100))
    (refused : int32 (n + k.totalpercent) > 200) :
    k.sysReserve c (some n) = (-1, { k with totalpercent := int32 (n + k.totalpercent) }) := by
  simp only [sysReserve, if_neg inside, if_pos refused]

/-- The counter after a step that is not an admissible `reserve`. -/
theorem totalpercent_perform {event : Event} (done : perform k event = some after)
    (other : forall c n, event ≠ .reserve c (some n)) : after.totalpercent = k.totalpercent := by
  have scheds : forall (k : Kernel) (c : Slot), (k.sched c).totalpercent = k.totalpercent := by
    intro k c
    unfold sched
    split <;> rfl
  have adopts : forall (k : Kernel) (c i : Slot), (adopt c k i).totalpercent = k.totalpercent := by
    intro k c i
    unfold adopt
    dsimp only
    split
    · split <;> rfl
    · rfl
  cases event with
  | round =>
      have rounds : k.scheduler.totalpercent = k.totalpercent := by
        unfold scheduler
        cases k.winner <;> simp only [Kernel.set]
      exact Option.some.inj done ▸ rounds
  | yield c => exact Option.some.inj done ▸ scheds _ c
  | sleep c chan => exact Option.some.inj done ▸ scheds _ c
  | wakeup chan => exact Option.some.inj done ▸ rfl
  | fork c kstack pgdir =>
      rw [← Option.some.inj done]
      cases free : k.firstUnused with
      | none => rw [fork_of_full free]
      | some np =>
          cases outcome : kstack && pgdir with
          | false =>
              rw [fork_of_failed free outcome]
              rfl
          | true =>
              rcases Bool.and_eq_true_iff.mp outcome with ⟨rfl, rfl⟩
              rw [fork_of_free free]
              rfl
  | exit c =>
      simp only [perform, exit] at done
      split at done
      · cases done
      · rw [← Option.some.inj done, scheds]
        simp only [Kernel.set]
        rw [foldl_adopt totalpercent (fun k i => adopts k c i)]
        rfl
  | wait c =>
      rw [← Option.some.inj done]
      unfold Kernel.wait
      split
      · rfl
      · split
        · rfl
        · exact scheds _ c
  | kill c pid =>
      rw [← Option.some.inj done]
      unfold Kernel.kill
      split <;> rfl
  | reserve c arg =>
      cases arg with
      | none => exact Option.some.inj done ▸ rfl
      | some n => exact absurd rfl (other c n)
  | spot c arg =>
      rw [← Option.some.inj done]
      cases arg <;> rfl

/-- Charging a process does not change its reservation. -/
theorem rpercent_settled (k : Kernel) (c i : Slot) :
    (k.settled c i).rpercent = (k.accounts i).rpercent := by
  cases started : k.resume c with
  | none => simp only [settled, started]
  | some d =>
      by_cases here : i = c
      · rw [here, settled_self started]
        rfl
      · rw [settled_of_ne here]

/-! ## The counter bounds the reservations -/

/-- The counter does not overflow in this step. -/
def NoOverflow (k : Kernel) (event : Event) : Prop :=
  forall c n, event = .reserve c (some n) -> 0 ≤ n -> n ≤ 100 -> n + k.totalpercent < 2 ^ 31

theorem Solvent.reserve (solvent : Solvent k) (bounded : NoOverflow k (.reserve c (some n))) :
    Solvent (k.sysReserve c (some n)).2 := by
  by_cases outside : n < 0 ∨ n > 100
  · rw [sysReserve_of_outside outside]
    exact solvent
  · have nonneg : 0 ≤ n := by omega
    have fits := bounded c n rfl nonneg (by omega)
    have total := solvent.reserved_nonneg.trans solvent.covered
    have sum : int32 (n + k.totalpercent) = n + k.totalpercent := int32_of_fits (by omega) fits
    by_cases refused : int32 (n + k.totalpercent) > 200
    · rw [sysReserve_of_refused outside refused, sum]
      refine ⟨solvent.positive, ?_, solvent.bounded, fits⟩
      have covered := solvent.covered
      show reserved k ≤ n + k.totalpercent
      omega
    · rw [sysReserve_of_admitted outside (Int.not_lt.mp refused), sum]
      have replaces : Replaces k ({ k with totalpercent := n + k.totalpercent }.set c
          (fun p => { p with spotbid := 0, rpercent := n })) c n :=
        replaces_set { k with totalpercent := n + k.totalpercent } c (fun _ => rfl)
      have covered := solvent.covered
      have own := solvent.positive c
      have after := replaces.reserved_eq
      rw [sum] at refused
      dsimp only
      refine ⟨replaces.positive solvent nonneg, ?_, by omega, fits⟩
      show reserved _ ≤ n + k.totalpercent
      omega

theorem Solvent.spot (solvent : Solvent k) : Solvent (k.sysSpot c (some n)).2 := by
  have replaces : Replaces k (k.sysSpot c (some n)).2 c 0 := replaces_set k c (fun _ => rfl)
  have own := solvent.positive c
  have sum := replaces.reserved_eq
  have covered := solvent.covered
  have bounded := solvent.bounded
  refine ⟨replaces.positive solvent (Int.le_refl 0), ?_, by omega, solvent.fits⟩
  show reserved _ ≤ k.totalpercent
  omega

theorem Solvent.step {event : Event} (solvent : Solvent k) (bounded : NoOverflow k event)
    (stepped : step k event = some after) : Solvent after := by
  unfold Scheduler.step at stepped
  split at stepped
  · have total := totalpercent_perform stepped
    rcases accounts_perform stepped with
      ⟨same, _⟩ | ⟨c, ends, same⟩ | ⟨c, n, rfl, rfl⟩ | ⟨c, n, rfl, rfl⟩
    · by_cases reserving : Exists fun c => Exists fun n => event = .reserve c (some n)
      · rcases reserving with ⟨c, n, rfl⟩
        rw [← Option.some.inj stepped]
        exact solvent.reserve bounded
      · refine solvent.of_same (total fun c n same => reserving ⟨c, n, same⟩) fun i => ?_
        rw [same]
    · refine solvent.of_same (total fun other n reserving => ?_) fun i => ?_
      · rw [reserving] at ends
        exact ends
      · rw [same, rpercent_settled]
    · exact solvent.reserve bounded
    · exact solvent.spot
  · exact nomatch stepped

theorem Solvent.of_running (reached : Running NoOverflow k) : Solvent k :=
  reached.invariant (fun _ booted => Solvent.of_booted booted)
    (fun _ _ _ solvent bounded stepped => solvent.step bounded stepped)

/-- In every run in which the counter does not overflow, the reservations of the
slots that are not unused never exceed 200 per cent. -/
theorem never_over_reserved (reached : Running NoOverflow k) : booked k ≤ 200 :=
  (Solvent.of_running reached).booked_le.trans (Solvent.of_running reached).bounded

/-- `init` after it has been dispatched: the first of the two rounds draws the
number 0 and dispatches nobody. -/
def initRuns : List Event := [.round, .round]

/-- After `init` has reserved a processor, one processor is booked. -/
theorem never_over_reserved_first_reserve :
    Exists fun k => Running NoOverflow k ∧ (k.proc firstSlot).rpercent = 100 ∧ booked k ≤ 200 := by
  have quiet : forall event, event ∈ initRuns -> forall k, NoOverflow k event := by
    intro event inside k c n reserving
    rw [reserving] at inside
    simp [initRuns] at inside
  have before : (run step bootKernel initRuns).bind (fun ready =>
      (step ready (.reserve firstSlot (some 100))).map
        (fun k => (ready.totalpercent, (k.proc firstSlot).rpercent))) = some (0, 100) := by decide
  rcases Option.bind_eq_some_iff.mp before with ⟨ready, ran, rest⟩
  rcases Option.map_eq_some_iff.mp rest with ⟨k, stepped, values⟩
  rcases Prod.mk.inj values with ⟨total, percent⟩
  have started : Running NoOverflow ready :=
    (Reachable.start bootKernel_booted).run_allowed ran quiet
  have reached : Running NoOverflow k := by
    refine started.step ?_ stepped
    intro c n _ _ small
    rw [total]
    omega
  exact ⟨k, reached, percent, never_over_reserved reached⟩

/-! ## Overflow -/

/-- A `reserve` that is refused changes nothing but the counter. -/
theorem run_refused {k : Kernel} {c : Slot} (running : (k.proc c).state = .running) (times : Nat)
    (above : 200 ≤ k.totalpercent) (fits : k.totalpercent + 100 * times < 2 ^ 31) :
    run step k (List.replicate times (.reserve c (some 100))) =
      some { k with totalpercent := k.totalpercent + 100 * times } := by
  induction times generalizing k with
  | zero =>
      simp only [List.replicate_zero, run_nil, Nat.cast_zero, Int.mul_zero, Int.add_zero]
  | succ times ih =>
      have sum : int32 (100 + k.totalpercent) = k.totalpercent + 100 := by
        rw [int32_of_fits (by omega) (by push_cast at fits; omega), Int.add_comm]
      have enabled : Enabled k (.reserve c (some 100)) := by
        intro caller inside
        cases Option.some.inj inside
        exact running
      have stepped : step k (.reserve c (some 100)) =
          some { k with totalpercent := k.totalpercent + 100 } := by
        rw [step, if_pos enabled, perform, sysReserve_of_refused (by omega) (by rw [sum]; omega),
          sum]
      rw [List.replicate_succ, run_cons_eq_some]
      refine ⟨_, stepped, ?_⟩
      have rest := @ih { k with totalpercent := k.totalpercent + 100 } running
          (by dsimp only; omega) (by push_cast at fits; dsimp only; omega)
      rw [rest]
      congr 2
      push_cast
      omega

def secondSlot : Slot := ⟨1, by decide⟩
def thirdSlot : Slot := ⟨2, by decide⟩

/-- `init` reserves twice, forks two children, and all three are running. -/
def threeRun : List Event :=
  initRuns ++ [.reserve firstSlot (some 100), .reserve firstSlot (some 100),
    .fork firstSlot true true, .fork firstSlot true true, .round, .round, .round]

/-- Each of the three reserves a processor. -/
def allReserve : List Event :=
  [.reserve firstSlot (some 100), .reserve secondSlot (some 100), .reserve thirdSlot (some 100)]

/-- After 21474834 refused calls the counter is close to `2 ^ 31`; the next call
overflows it, and it then admits a reservation by everybody. -/
theorem over_reserved_after_overflow :
    ¬ forall k, Running anyStep k -> booked k ≤ 200 := by
  intro always
  have before : (run step bootKernel threeRun).map (fun k =>
      (k.totalpercent, (k.proc firstSlot).state)) = some (200, .running) := by decide +kernel
  have after : (run step bootKernel threeRun).bind (fun k =>
      (run step { k with totalpercent := 2147483600 } allReserve).map booked) = some 300 := by
    decide +kernel
  cases ran : run step bootKernel threeRun with
  | none =>
      rw [ran] at before
      exact nomatch before
  | some k =>
      rw [ran] at before after
      rcases Prod.mk.inj (Option.some.inj before) with ⟨total, running⟩
      have refused := run_refused running 21474834 (by rw [total]) (by rw [total]; decide)
      have counter : k.totalpercent + 100 * (21474834 : Nat) = 2147483600 := by
        rw [total]
        decide
      rw [counter] at refused
      rcases Option.map_eq_some_iff.mp after with ⟨final, finished, total⟩
      have reached := (((Reachable.start bootKernel_booted).run ran).run refused).run finished
      have bound := always final reached
      rw [total] at bound
      exact absurd bound (by decide)

/-! ## When admission is exact -/

/-- `reserve` succeeds exactly when what it asks for is there, and
when it fails it changes nothing. -/
def AdmissionExact (k : Kernel) (c : Slot) (n : Int) : Prop :=
  (((k.sysReserve c (some n)).1 = n ∧ ((k.sysReserve c (some n)).2.proc c).rpercent = n) ↔
    0 ≤ n ∧ n ≤ 100 ∧ n + others k c ≤ 200) ∧
  ((k.sysReserve c (some n)).1 = -1 -> (k.sysReserve c (some n)).2 = k)

/-- Everything that has been asked for so far, together with this call, is at
most 200 per cent. -/
def Affordable (k : Kernel) (event : Event) : Prop :=
  forall c n, event = .reserve c (some n) -> 0 ≤ n -> n ≤ 100 -> n + k.totalpercent ≤ 200

instance (k : Kernel) (event : Event) : Decidable (Affordable k event) :=
  match event with
  | .reserve _ (some n) =>
      decidable_of_iff (0 ≤ n -> n ≤ 100 -> n + k.totalpercent ≤ 200)
        ⟨fun bound _ _ same => by cases same; exact bound, fun bound => bound _ n rfl⟩
  | .reserve _ none | .round | .yield _ | .sleep _ _ | .wakeup _ | .fork _ _ _ | .exit _
  | .wait _ | .kill _ _
  | .spot _ _ => isTrue (fun _ _ same => nomatch same)

theorem Affordable.noOverflow {event : Event} (affordable : Affordable k event) :
    NoOverflow k event := by
  intro c n reserving nonneg small
  have bound := affordable c n reserving nonneg small
  omega

theorem Solvent.of_affordable (reached : Running Affordable k) :
    Solvent k ∧ k.totalpercent ≤ 200 := by
  apply @Reachable.invariant _ _ _ _ _ (fun k => Solvent k ∧ k.totalpercent ≤ 200) _ _ _ reached
  · intro state booted
    refine ⟨Solvent.of_booted booted, ?_⟩
    rw [booted.total]
    decide
  · intro before event after invariant affordable stepped
    refine ⟨invariant.1.step affordable.noOverflow stepped, ?_⟩
    unfold Scheduler.step at stepped
    split at stepped
    · by_cases reserving : Exists fun c => Exists fun n => event = .reserve c (some n)
      · rcases reserving with ⟨c, n, rfl⟩
        rw [← Option.some.inj stepped]
        by_cases outside : n < 0 ∨ n > 100
        · rw [sysReserve_of_outside outside]
          exact invariant.2
        · have bound := affordable c n rfl (by omega) (by omega)
          have low := invariant.1.reserved_nonneg.trans invariant.1.covered
          have sum : int32 (n + before.totalpercent) = n + before.totalpercent :=
            int32_of_fits (by omega) (by omega)
          rw [sysReserve_of_admitted outside (by rw [sum]; exact bound), sum]
          exact bound
      · rw [totalpercent_perform stepped (fun c n same => reserving ⟨c, n, same⟩)]
        exact invariant.2
    · exact nomatch stepped

/-- In every run whose `reserve` calls have never asked for more than 200 per
cent in all, a call decides exactly iff it keeps to that limit as well. -/
theorem admission_exact_iff (reached : Running Affordable k) (c : Slot) (n : Int) :
    AdmissionExact k c n ↔ (0 ≤ n -> n ≤ 100 -> n + k.totalpercent ≤ 200) := by
  rcases Solvent.of_affordable reached with ⟨solvent, total⟩
  have low := solvent.reserved_nonneg.trans solvent.covered
  have rest := (solvent.others_le c).trans solvent.covered
  have own : 0 ≤ (k.proc c).rpercent := solvent.positive c
  by_cases outside : n < 0 ∨ n > 100
  · refine ⟨fun _ nonneg small => by omega, fun _ => ⟨⟨?_, ?_⟩, ?_⟩⟩
    · rw [sysReserve_of_outside outside]
      rintro ⟨returned, kept⟩
      dsimp only at returned kept
      omega
    · rintro ⟨nonneg, small, _⟩
      omega
    · intro _
      rw [sysReserve_of_outside outside]
  · have sum : int32 (n + k.totalpercent) = n + k.totalpercent :=
      int32_of_fits (by omega) (by omega)
    constructor
    · rintro ⟨_, unchanged⟩ nonneg small
      by_contra beyond
      have refused := @sysReserve_of_refused k c n outside (by rw [sum]; omega)
      rw [refused, sum] at unchanged
      have same := congrArg totalpercent (unchanged rfl)
      dsimp only at same
      omega
    · intro affordable
      have bound := affordable (by omega) (by omega)
      have admitted := @sysReserve_of_admitted k c n outside (by rw [sum]; exact bound)
      refine ⟨⟨fun _ => ⟨by omega, by omega, by omega⟩, fun _ => ?_⟩, fun failed => ?_⟩
      · rw [admitted]
        exact ⟨rfl, by rw [proc_set_self]⟩
      · rw [admitted] at failed
        dsimp only at failed
        omega

/-- `init` reserves and forks, and its child reserves as well. -/
def parentAndChild : List Event :=
  initRuns ++ [.reserve firstSlot (some 60), .fork firstSlot true true, .wait firstSlot, .round,
    .round, .reserve secondSlot (some 50)]

/-- The next reservation of the child is decided exactly as long as it is at most 90. -/
theorem admission_exact_iff_child : Exists fun k =>
    run step bootKernel parentAndChild = some k ∧ Running Affordable k ∧
      AdmissionExact k secondSlot 90 ∧ ¬ AdmissionExact k secondSlot 100 := by
  have before : (run (guardedStep step Affordable) bootKernel parentAndChild).map totalpercent =
      some 110 := by
    decide +kernel
  rcases Option.map_eq_some_iff.mp before with ⟨k, ran, total⟩
  have reached : Running Affordable k := (Reachable.start bootKernel_booted).run_guarded ran
  refine ⟨k, run_of_guarded ran, reached, (admission_exact_iff reached _ 90).mpr (fun _ _ => ?_),
    fun exactly => ?_⟩
  · rw [total]
    decide
  · have bound := (admission_exact_iff reached _ 100).mp exactly (by decide) (by decide)
    rw [total] at bound
    exact absurd bound (by decide)

/-- `init` has reserved a processor, and then reserved it again. -/
def twiceReserved : List Event :=
  initRuns ++ [.reserve firstSlot (some 100), .reserve firstSlot (some 100)]

/-- A process that reserves a processor three times is refused the third time,
although nobody else has reserved anything. -/
theorem third_reserve_refused :
    ¬ forall k, Running anyStep k -> forall c n, (k.proc c).state = .running ->
      AdmissionExact k c n := by
  intro always
  have before : (run step bootKernel twiceReserved).map
      (fun k => ((k.proc firstSlot).state, others k firstSlot,
        (k.sysReserve firstSlot (some 100)).1)) = some (.running, 0, -1) := by decide +kernel
  cases ran : run step bootKernel twiceReserved with
  | none =>
      rw [ran] at before
      exact nomatch before
  | some k =>
      rw [ran] at before
      rcases Prod.mk.inj (Option.some.inj before) with ⟨running, rest⟩
      rcases Prod.mk.inj rest with ⟨alone, refused⟩
      have decided := always k ((Reachable.start bootKernel_booted).run ran) firstSlot 100 running
      have succeeds := (decided.1.mpr ⟨by decide, by decide, by rw [alone]; decide⟩).1
      rw [refused] at succeeds
      exact nomatch succeeds

end Scheduler
end OsProjects
