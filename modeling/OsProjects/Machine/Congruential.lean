import Mathlib.Algebra.Ring.Int.Parity
import Mathlib.Logic.Function.Iterate
import Mathlib.Tactic.Ring

namespace OsProjects
namespace Machine

/-!
# Linear congruential generators

A generator multiplies its state and adds a constant, modulo a power of two.  If the
multiplier is one more than a multiple of four and the constant is odd, then `2 ^ k`
steps change the state by an odd multiple of `2 ^ k`.  So the bits of any number can be
reached one after another from the lowest.
-/

/-- One step, before it is reduced. -/
def affine (a c x : Int) : Int := a * x + c

section Affine

variable {a c u w : Int}

/-- The map that `2 ^ k` steps are. -/
theorem affine_iterate_two_pow (multiplier : a = 1 + 4 * u) (constant : c = 2 * w + 1) (k : Nat) :
    Exists fun p => Exists fun q => forall x,
      (affine a c)^[2 ^ k] x = (1 + 2 ^ (k + 2) * p) * x + 2 ^ k * (2 * q + 1) := by
  induction k with
  | zero =>
      refine ⟨u, w, fun x => ?_⟩
      rw [pow_zero, Function.iterate_one, affine, multiplier, constant]
      ring
  | succ k ih =>
      rcases ih with ⟨p, q, half⟩
      refine ⟨p + 2 ^ (k + 1) * p ^ 2, q + 2 ^ k * p * (2 * q + 1), fun x => ?_⟩
      rw [pow_succ, mul_two, Function.iterate_add_apply, half, half]
      ring

/-- Every number is reached modulo every power of two. -/
theorem affine_reaches (multiplier : a = 1 + 4 * u) (constant : c = 2 * w + 1) (k : Nat)
    (x t : Int) : Exists fun n => Exists fun m => (affine a c)^[n] x = t + 2 ^ k * m := by
  induction k with
  | zero =>
      refine ⟨0, x - t, ?_⟩
      rw [Function.iterate_zero_apply]
      ring
  | succ k ih =>
      rcases ih with ⟨n, m, near⟩
      rcases Int.even_or_odd' m with ⟨half, even | odd⟩
      · refine ⟨n, half, ?_⟩
        rw [near, even]
        ring
      · -- The bit is wrong, and `2 ^ k` steps more complement it.
        rcases affine_iterate_two_pow multiplier constant k with ⟨p, q, steps⟩
        refine ⟨2 ^ k + n, half + 1 + q + 2 * p * (t + 2 ^ k * m), ?_⟩
        rw [Function.iterate_add_apply, near, steps, odd]
        ring

end Affine

end Machine
end OsProjects
