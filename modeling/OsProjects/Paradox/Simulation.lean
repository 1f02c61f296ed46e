import Mathlib.Logic.Function.Basic
import Mathlib.Data.List.Basic

namespace OsProjects
namespace Paradox

/-!
# The estimate of `paradox`

For a number of people the program makes 1000 trials.  In each one it draws a birthday
for every person and notes whether two of them are the same.  `rand` is the first value
of the generator for a seed; the program seeds it anew for every person.

The array `b` has 1000 entries.  `none` is an access behind them.
-/

def trials : Nat := 1000

/-- How many entries each of the arrays `N`, `M` and `b` has. -/
def entries : Nat := 1000

section Birthdays

variable (rand : Nat -> Nat)

def birthday (seed : Nat) : Nat := rand seed % 364 + 1

/-- Two of `n` people have the same birthday in a trial. -/
def Shared (trial n : Nat) : Prop :=
  Exists fun j => j < n ∧ Exists fun i => i < j ∧
    birthday rand (trial + i) = birthday rand (trial + j)

instance (trial n : Nat) : Decidable (Shared rand trial n) :=
  inferInstanceAs (Decidable (Exists fun j => j < n ∧ Exists fun i => i < j ∧ _))

/-- In how many of the trials two of `n` people have the same birthday. -/
def estimate (n : Nat) : Nat :=
  (List.range trials).countP fun trial => Shared rand trial n

/-! ## The loops -/

/-- The loop over `match`. -/
def matchLoop (b : Nat -> Nat) (individual : Nat) : (todo other : Nat) -> Bool -> Bool
  | 0, _, p_trial => p_trial
  | todo + 1, other, p_trial =>
      matchLoop b individual todo (other + 1)
        (p_trial || (b other == b individual && other != individual))

/-- The loop over `individual`. -/
def individualLoop (trial : Nat) :
    (todo individual : Nat) -> (Nat -> Nat) -> Bool -> Option Bool
  | 0, _, _, p_trial => some p_trial
  | todo + 1, individual, b, p_trial =>
      if individual < entries then
        let b := Function.update b individual (birthday rand (trial + individual))
        individualLoop trial todo (individual + 1) b (matchLoop b individual individual 0 p_trial)
      else none

/-- The loop over `trial`.  `b` is what the array holds at the start of a trial. -/
def trialLoop (number : Int) (b : Nat -> Nat) : (todo trial num_pt : Nat) -> Option Nat
  | 0, _, num_pt => some num_pt
  | todo + 1, trial, num_pt =>
      (individualLoop rand trial number.toNat 0 b false).bind fun p_trial =>
        trialLoop number b todo (trial + 1) (if p_trial then num_pt + 1 else num_pt)

def simulate (number : Int) (b : Nat -> Nat) : Option Nat :=
  trialLoop rand number b trials 0 0

/-! ## What they compute -/

theorem shared_succ_iff (trial n : Nat) :
    Shared rand trial (n + 1) ↔ Shared rand trial n ∨
      Exists fun i => i < n ∧ birthday rand (trial + i) = birthday rand (trial + n) := by
  constructor
  · rintro ⟨j, within, i, below, same⟩
    rcases Nat.lt_or_eq_of_le (Nat.le_of_lt_succ within) with earlier | rfl
    · exact Or.inl ⟨j, earlier, i, below, same⟩
    · exact Or.inr ⟨i, below, same⟩
  · rintro (⟨j, within, rest⟩ | ⟨i, below, same⟩)
    · exact ⟨j, Nat.lt_succ_of_lt within, rest⟩
    · exact ⟨n, Nat.lt_succ_self n, i, below, same⟩

theorem matchLoop_iff {b : Nat -> Nat} {individual : Nat} (todo : Nat) :
    forall other p_trial, other + todo = individual ->
      (matchLoop b individual todo other p_trial = true ↔
        p_trial = true ∨ Exists fun i => other ≤ i ∧ i < individual ∧ b i = b individual) := by
  induction todo with
  | zero =>
      intro other p_trial ends
      refine ⟨Or.inl, fun found => found.resolve_right ?_⟩
      rintro ⟨i, lower, upper, _⟩
      omega
  | succ todo ih =>
      intro other p_trial ends
      rw [matchLoop, ih (other + 1) _ (by omega), Bool.or_eq_true, or_assoc]
      refine or_congr_right ?_
      rw [Bool.and_eq_true, beq_iff_eq, bne_iff_ne]
      constructor
      · rintro (⟨same, _⟩ | ⟨i, lower, upper, same⟩)
        · exact ⟨other, Nat.le_refl other, by omega, same⟩
        · exact ⟨i, by omega, upper, same⟩
      · rintro ⟨i, lower, upper, same⟩
        rcases Nat.lt_or_eq_of_le lower with later | rfl
        · exact Or.inr ⟨i, later, upper, same⟩
        · exact Or.inl ⟨same, by omega⟩

/-- The people so far have their birthdays, and the flag tells whether two are the same. -/
structure Drawn (trial individual : Nat) (b : Nat -> Nat) (p_trial : Bool) : Prop where
  birthdays : forall i, i < individual -> b i = birthday rand (trial + i)
  flag : p_trial = true ↔ Shared rand trial individual

theorem drawn_zero (trial : Nat) (b : Nat -> Nat) : Drawn rand trial 0 b false :=
  ⟨fun _ below => absurd below (Nat.not_lt_zero _),
    iff_of_false Bool.false_ne_true (fun ⟨_, below, _⟩ => absurd below (Nat.not_lt_zero _))⟩

theorem Drawn.next {trial individual : Nat} {b : Nat -> Nat} {p_trial : Bool}
    (drawn : Drawn rand trial individual b p_trial) :
    let b' := Function.update b individual (birthday rand (trial + individual))
    Drawn rand trial (individual + 1) b' (matchLoop b' individual individual 0 p_trial) := by
  intro b'
  have here : b' individual = birthday rand (trial + individual) := Function.update_self _ _ _
  have old : forall i, i < individual -> b' i = birthday rand (trial + i) := fun i below =>
    (Function.update_of_ne (Nat.ne_of_lt below) _ _).trans (drawn.birthdays i below)
  refine ⟨fun i within => ?_, ?_⟩
  · rcases Nat.lt_or_eq_of_le (Nat.le_of_lt_succ within) with below | rfl
    · exact old i below
    · exact here
  · rw [matchLoop_iff individual 0 p_trial (Nat.zero_add _), drawn.flag, shared_succ_iff]
    refine or_congr_right (exists_congr fun i => ?_)
    rw [here]
    constructor
    · rintro ⟨_, below, same⟩
      exact ⟨below, by rw [← old i below, same]⟩
    · rintro ⟨below, same⟩
      exact ⟨Nat.zero_le i, below, by rw [old i below, same]⟩

theorem individualLoop_within {trial : Nat} (todo : Nat) :
    forall individual b p_trial, individual + todo ≤ entries ->
      Drawn rand trial individual b p_trial ->
      individualLoop rand trial todo individual b p_trial =
        some (decide (Shared rand trial (individual + todo))) := by
  induction todo with
  | zero =>
      intro individual b p_trial _ drawn
      rw [individualLoop, Nat.add_zero,
        Bool.eq_iff_iff.mpr (drawn.flag.trans decide_eq_true_iff.symm)]
  | succ todo ih =>
      intro individual b p_trial within drawn
      rw [individualLoop, if_pos (by omega)]
      have rest := ih (individual + 1) _ _ (by omega) drawn.next
      rwa [Nat.add_assoc, Nat.add_comm 1 todo] at rest

theorem individualLoop_beyond {trial : Nat} (todo : Nat) :
    forall individual b p_trial, individual ≤ entries -> entries < individual + todo ->
      individualLoop rand trial todo individual b p_trial = none := by
  induction todo with
  | zero =>
      intro individual _ _ below beyond
      omega
  | succ todo ih =>
      intro individual b p_trial below beyond
      unfold individualLoop
      by_cases within : individual < entries
      · rw [if_pos within]
        exact ih (individual + 1) _ _ within (by omega)
      · rw [if_neg within]

theorem trialLoop_within {number : Int} {b : Nat -> Nat} (fits : number ≤ entries) (todo : Nat) :
    forall trial num_pt, trialLoop rand number b todo trial num_pt =
      some (num_pt + (List.range' trial todo).countP fun trial =>
        Shared rand trial number.toNat) := by
  induction todo with
  | zero => exact fun _ _ => rfl
  | succ todo ih =>
      intro trial num_pt
      have loop := individualLoop_within rand number.toNat 0 b false (by omega)
        (drawn_zero rand trial b)
      rw [Nat.zero_add] at loop
      rw [trialLoop, loop, Option.bind_some, ih, List.range'_succ, List.countP_cons]
      by_cases shared : Shared rand trial number.toNat
      · simp only [shared, decide_true, if_true]
        rw [Nat.add_assoc, Nat.add_comm 1]
      · simp only [shared, decide_false, Bool.false_eq_true, if_false, Nat.add_zero]

theorem trialLoop_beyond {number : Int} {b : Nat -> Nat} (beyond : (entries : Int) < number)
    {todo trial num_pt : Nat} (positive : 0 < todo) :
    trialLoop rand number b todo trial num_pt = none := by
  cases todo with
  | zero => exact absurd positive (Nat.lt_irrefl 0)
  | succ todo =>
      have loop : individualLoop rand trial number.toNat 0 b false = none :=
        individualLoop_beyond rand number.toNat 0 b false (Nat.zero_le _) (by omega)
      rw [trialLoop, loop, Option.bind_none]

/-- The simulation stays inside `b` for up to 1000 people. -/
theorem simulate_eq (number : Int) (b : Nat -> Nat) :
    simulate rand number b =
      if number ≤ entries then some (estimate rand number.toNat) else none := by
  by_cases fits : number ≤ entries
  · rw [if_pos fits, simulate, trialLoop_within rand fits, Nat.zero_add, estimate,
      List.range_eq_range']
  · rw [if_neg fits]
    exact trialLoop_beyond rand (by omega) (by decide)

end Birthdays

end Paradox
end OsProjects
