import OsProjects.Machine.Congruential
import OsProjects.Scheduler.Lottery

namespace OsProjects
namespace Scheduler

open Machine

/-!
# The numbers of the lottery

The multiplier of `random` is 3 modulo 8, so the generator does not run through all
32-bit numbers.  Two calls together change `next` by an odd multiple of 4, and every
number that agrees with `next` in the lowest two bits comes up in this way.  The lottery
drops the lowest 16 bits.
-/

namespace Kernel

/-- The value of `next` after a number of calls of `random`. -/
def nextAfter (calls next : Nat) : Nat := (fun next => (random next).2)^[calls] next

theorem nextAfter_succ (calls next : Nat) :
    nextAfter (calls + 1) next = (random (nextAfter calls next)).2 :=
  Function.iterate_succ_apply' _ calls next

/-- Without the reductions a call is an affine map. -/
theorem nextAfter_modEq (calls next : Nat) :
    ((nextAfter calls next : Nat) : Int) % 2 ^ 32 = (affine 11035 12345)^[calls] next % 2 ^ 32 := by
  induction calls with
  | zero => rfl
  | succ calls ih =>
      have step : ((nextAfter (calls + 1) next : Nat) : Int) =
          ((nextAfter calls next : Nat) * 11035 + 12345 : Int) % 2 ^ 32 := by
        rw [nextAfter_succ, random]
        push_cast
        rfl
      rw [step, Function.iterate_succ_apply', affine, Int.emod_emod_of_dvd _ (Int.dvd_refl _)]
      omega

/-- Two calls, seen from a number with the same lowest two bits. -/
theorem affine_twice (base : Int) (calls : Nat) (y : Int) :
    (affine 11035 12345)^[2 * calls] (base + 4 * y) =
      base + 4 * (affine (11035 ^ 2) (30442806 * base + 12345 * 2759))^[calls] y := by
  induction calls generalizing y with
  | zero => rfl
  | succ calls ih =>
      have two : affine 11035 12345 (affine 11035 12345 (base + 4 * y)) =
          base + 4 * affine (11035 ^ 2) (30442806 * base + 12345 * 2759) y := by
        unfold affine
        ring
      rw [Nat.mul_succ, Function.iterate_add_apply, Function.iterate_succ_apply,
        Function.iterate_one, two, ih, Function.iterate_succ_apply]

/-- After the first call all numbers with the same lowest two bits come up. -/
theorem nextAfter_reaches (next : Nat) {target : Nat} (small : target < 2 ^ 32)
    (bits : target % 4 = nextAfter 1 next % 4) :
    Exists fun calls => nextAfter (calls + 1) next = target := by
  have multiplier : (11035 : Int) ^ 2 = 1 + 4 * 30442806 := by norm_num
  have constant : 30442806 * (nextAfter 1 next : Int) + 12345 * 2759 =
      2 * (15221403 * (nextAfter 1 next : Int) + 17029927) + 1 := by ring
  rcases affine_reaches multiplier constant 30 0 (((target : Int) - nextAfter 1 next) / 4) with
    ⟨n, m, reached⟩
  have whole : (nextAfter 1 next : Int) + 4 * (((target : Int) - nextAfter 1 next) / 4) =
      target := by
    omega
  refine ⟨2 * n, ?_⟩
  have split : nextAfter (2 * n + 1) next = nextAfter (2 * n) (nextAfter 1 next) :=
    Function.iterate_add_apply _ (2 * n) 1 next
  have twice := affine_twice (nextAfter 1 next) n 0
  rw [mul_zero, add_zero, reached] at twice
  have same := nextAfter_modEq (2 * n) (nextAfter 1 next)
  rw [twice, ← split] at same
  have reduced : nextAfter (2 * n + 1) next < 2 ^ 32 := by
    rw [nextAfter_succ]
    exact Nat.mod_lt _ (by decide)
  omega

theorem random_reaches (next : Nat) {v : Nat} (small : v < 200) :
    Exists fun calls => (random (nextAfter calls next)).1 % 200 = v := by
  have bits : (65536 * v + nextAfter 1 next % 4) % 4 = nextAfter 1 next % 4 := by omega
  rcases nextAfter_reaches next (show 65536 * v + nextAfter 1 next % 4 < 2 ^ 32 by omega) bits with
    ⟨calls, reached⟩
  refine ⟨calls, ?_⟩
  have drawn : (random (nextAfter calls next)).1 = nextAfter (calls + 1) next / 65536 % 3276 := by
    rw [nextAfter_succ]
    rfl
  rw [drawn, reached]
  omega

theorem draw_next (k : Kernel) (next : Nat) (seen : Survey) (rand : Int) (xs : List Slot) :
    forall numofrp ticket, { k with next }.draw seen rand xs numofrp ticket =
      k.draw seen rand xs numofrp ticket := by
  induction xs with
  | nil => exact fun _ _ => rfl
  | cons x xs ih =>
      intro numofrp ticket
      simp only [draw, ih]

/-- The lottery looks at the process table only. -/
theorem starts_next (k : Kernel) (next : Nat) (rand : Int) (i : Slot) :
    { k with next }.Starts rand i ↔ k.Starts rand i := by
  have seen : { k with next }.survey = k.survey := by
    unfold survey
    rfl
  rw [Starts, Starts, lottery, lottery, seen, draw_next]

/-- From every state of the generator every lottery number comes up, and so every process
that wins with some number wins with a later one, whenever it is runnable. -/
theorem every_number_drawn (next : Nat) :
    (forall v, v < 200 -> Exists fun calls => (random (nextAfter calls next)).1 % 200 = v) ∧
    forall (k : Kernel) (i : Slot) (v : Nat), v < 200 -> k.Starts (v : Nat) i ->
      Exists fun calls => { k with next := nextAfter calls next }.Starts
        { k with next := nextAfter calls next }.ticketDrawn i := by
  refine ⟨fun v small => random_reaches next small, fun k i v small starts => ?_⟩
  rcases random_reaches next small with ⟨calls, drawn⟩
  refine ⟨calls, (starts_next k _ _ i).mpr ?_⟩
  have number : { k with next := nextAfter calls next }.ticketDrawn = (v : Int) := by
    rw [ticketDrawn, ← drawn]
    rfl
  rw [number]
  exact starts

theorem every_number_drawn_199 :
    (Exists fun calls => (random (nextAfter calls 3)).1 % 200 = 199) ∧
    Exists fun calls => { twoReservations with next := nextAfter calls 3 }.Starts
      { twoReservations with next := nextAfter calls 3 }.ticketDrawn ⟨1, by decide⟩ :=
  ⟨(every_number_drawn 3).1 199 (by decide),
    (every_number_drawn 3).2 twoReservations ⟨1, by decide⟩ 0 (by decide) (by decide)⟩

end Kernel
end Scheduler
end OsProjects
