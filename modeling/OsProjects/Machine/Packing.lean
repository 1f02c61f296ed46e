import Mathlib.Algebra.BigOperators.Group.Finset.Piecewise
import Mathlib.Data.Finset.Insert

namespace OsProjects
namespace Machine

/-!
# Blocks that do not overlap

A set of addresses with a size for each is packed when no block reaches into the next one.
Only an empty block may stand at the `base`.  Blocks are joined, divided and added without
losing a unit.
-/

structure Packed (size : Nat -> Nat) (blocks : Finset Nat) (base top : Nat) : Prop where
  apart : forall x y, x ∈ blocks -> y ∈ blocks -> x < y -> x + size x ≤ y
  within : forall x, x ∈ blocks -> x + size x ≤ top
  positive : forall x, x ∈ blocks -> x ≠ base -> 0 < size x

namespace Packed

variable {size other : Nat -> Nat} {blocks : Finset Nat} {base top x y count : Nat}

theorem congr (packed : Packed size blocks base top)
    (same : forall x, x ∈ blocks -> other x = size x) : Packed other blocks base top := by
  refine ⟨fun x y first second => ?_, fun x inside => ?_, fun x inside => ?_⟩
  · rw [same x first]
    exact packed.apart x y first second
  · rw [same x inside]
    exact packed.within x inside
  · rw [same x inside]
    exact packed.positive x inside

/-- Addresses in two blocks are different. -/
theorem ne_of_inside (packed : Packed size blocks base top) (first : x ∈ blocks)
    (second : y ∈ blocks) (different : x ≠ y) {i j : Nat} (inFirst : i < size x)
    (inSecond : j < size y) : x + i ≠ y + j := by
  rcases Nat.lt_or_gt_of_ne different with lower | higher
  · have apart := packed.apart x y first second lower
    omega
  · have apart := packed.apart y x second first higher
    omega

/-- A block beyond all others. -/
theorem grow (packed : Packed size blocks base top) {far : Nat} (beyond : top ≤ x)
    (fresh : x ∉ blocks) (some : 0 < count) (reach : x + count ≤ far) :
    Packed (Function.update size x count) (insert x blocks) base far := by
  have old : forall {y}, y ∈ blocks -> Function.update size x count y = size y := by
    intro y inside
    refine Function.update_of_ne ?_ ..
    rintro rfl
    exact fresh inside
  refine ⟨fun a b one two lower => ?_, fun a inside => ?_, fun a inside notBase => ?_⟩
  · rcases Finset.mem_insert.mp one with rfl | known
    · rcases Finset.mem_insert.mp two with rfl | second
      · exact absurd lower (Nat.lt_irrefl _)
      · have limit := packed.within b second
        omega
    · rw [old known]
      rcases Finset.mem_insert.mp two with rfl | second
      · exact Nat.le_trans (packed.within a known) beyond
      · exact packed.apart a b known second lower
  · rcases Finset.mem_insert.mp inside with rfl | inside
    · rw [Function.update_self]
      exact reach
    · rw [old inside]
      have limit := packed.within a inside
      omega
  · rcases Finset.mem_insert.mp inside with rfl | inside
    · rw [Function.update_self]
      exact some
    · rw [old inside]
      exact packed.positive a inside notBase

/-- A block takes in the one that begins where it ends. -/
theorem join (packed : Packed size blocks base top) (first : x ∈ blocks) (second : y ∈ blocks)
    (touch : x + size x = y) (real : x ≠ base) :
    Packed (Function.update size x (size x + size y)) (blocks.erase y) base top := by
  have some := packed.positive x first real
  refine ⟨fun a b one two lower => ?_, fun a inside => ?_, fun a inside notBase => ?_⟩
  · rcases Finset.mem_erase.mp one with ⟨_, one⟩
    rcases Finset.mem_erase.mp two with ⟨other, two⟩
    by_cases same : a = x
    · rw [same, Function.update_self]
      rw [same] at lower
      have near := packed.apart x b first two lower
      have far := packed.apart y b second two (by omega)
      omega
    · rw [Function.update_of_ne same]
      exact packed.apart a b one two lower
  · rcases Finset.mem_erase.mp inside with ⟨_, inside⟩
    by_cases same : a = x
    · rw [same, Function.update_self]
      have limit := packed.within y second
      omega
    · rw [Function.update_of_ne same]
      exact packed.within a inside
  · rcases Finset.mem_erase.mp inside with ⟨_, inside⟩
    by_cases same : a = x
    · rw [same, Function.update_self]
      omega
    · rw [Function.update_of_ne same]
      exact packed.positive a inside notBase

theorem sum_join (first : x ∈ blocks) (second : y ∈ blocks) (different : x ≠ y) :
    ∑ z ∈ blocks.erase y, Function.update size x (size x + size y) z = ∑ z ∈ blocks, size z := by
  have stays : x ∈ blocks.erase y := Finset.mem_erase.mpr ⟨different, first⟩
  rw [Finset.sum_update_of_mem stays, ← Finset.sum_erase_add blocks size second,
    ← Finset.sum_erase_add (blocks.erase y) size stays, Finset.sdiff_singleton_eq_erase]
  omega

/-- The first unit after a block of a shorter size is in no other block. -/
theorem fresh_inside (packed : Packed size blocks base top) (first : x ∈ blocks) (some : 0 < count)
    (fewer : count < size x) : x + count ∉ blocks := by
  intro inside
  have apart := packed.apart x (x + count) first inside (by omega)
  omega

/-- A block is divided in two. -/
theorem divide (packed : Packed size blocks base top) (first : x ∈ blocks) (some : 0 < count)
    (fewer : count < size x) :
    Packed (Function.update (Function.update size x count) (x + count) (size x - count))
      (insert (x + count) blocks) base top := by
  have fresh := packed.fresh_inside first some fewer
  have newSize : Function.update (Function.update size x count) (x + count) (size x - count)
      (x + count) = size x - count :=
    Function.update_self ..
  have oldSize : Function.update (Function.update size x count) (x + count)
      (size x - count) x = count := by
    rw [Function.update_of_ne (by omega), Function.update_self]
  have others : forall y, y ∈ blocks -> y ≠ x ->
      Function.update (Function.update size x count) (x + count) (size x - count) y = size y := by
    intro y inside different
    rw [Function.update_of_ne, Function.update_of_ne different]
    rintro rfl
    exact fresh inside
  refine ⟨fun a b one two lower => ?_, fun a inside => ?_, fun a inside notBase => ?_⟩
  · rcases Finset.mem_insert.mp one with rfl | one
    · rw [newSize]
      rcases Finset.mem_insert.mp two with rfl | two
      · exact absurd lower (Nat.lt_irrefl _)
      · have apart := packed.apart x b first two (by omega)
        omega
    · by_cases same : a = x
      · rw [same] at lower ⊢
        rw [oldSize]
        rcases Finset.mem_insert.mp two with rfl | two
        · exact Nat.le_refl _
        · have apart := packed.apart x b first two lower
          omega
      · rw [others a one same]
        rcases Finset.mem_insert.mp two with rfl | two
        · rcases Nat.lt_or_gt_of_ne same with below | above
          · have apart := packed.apart a x one first below
            omega
          · have apart := packed.apart x a first one above
            omega
        · exact packed.apart a b one two lower
  · rcases Finset.mem_insert.mp inside with rfl | inside
    · rw [newSize]
      have limit := packed.within x first
      omega
    · by_cases same : a = x
      · rw [same, oldSize]
        have limit := packed.within x first
        omega
      · rw [others a inside same]
        exact packed.within a inside
  · rcases Finset.mem_insert.mp inside with rfl | inside
    · rw [newSize]
      omega
    · by_cases same : a = x
      · rw [same, oldSize]
        exact some
      · rw [others a inside same]
        exact packed.positive a inside notBase

theorem sum_divide (packed : Packed size blocks base top) (first : x ∈ blocks) (some : 0 < count)
    (fewer : count < size x) :
    ∑ z ∈ insert (x + count) blocks, Function.update (Function.update size x count) (x + count)
      (size x - count) z = ∑ z ∈ blocks, size z := by
  have fresh := packed.fresh_inside first some fewer
  rw [Finset.sum_insert fresh, Function.update_self, Finset.sum_update_of_notMem fresh,
    Finset.sum_update_of_mem first, ← Finset.sum_erase_add blocks size first,
    Finset.sdiff_singleton_eq_erase]
  omega

end Packed
end Machine
end OsProjects
