import Mathlib.Logic.Function.Basic

namespace OsProjects
namespace Machine

variable {Slot Address : Type}

/-!
# Who owns an address

Many slots store addresses, and a map records which addresses are in use.  The two
agree when every address that is stored is in use, no address is stored twice and
every address in use is stored somewhere.  One address, `null`, is never in use and
marks a slot that stores nothing.

Only two steps change the agreement on purpose: storing a fresh address in an empty
slot, and giving back the address of a slot.
-/

structure Owned (null : Address) (used : Address -> Prop) (slot : Slot -> Address) : Prop where
  absent : ¬ used null
  sound : forall s, slot s ≠ null -> used (slot s)
  once : forall s t, slot s ≠ null -> slot s = slot t -> s = t
  complete : forall a, used a -> Exists fun s => slot s = a

namespace Owned

variable {null : Address} {used : Address -> Prop} {slot : Slot -> Address}
  {s t : Slot} {a : Address}

/-- An address that is not in use is stored nowhere. -/
theorem ne_of_fresh (owned : Owned null used slot) (fresh : ¬ used a) (nonnull : a ≠ null)
    (s : Slot) : slot s ≠ a := by
  intro same
  refine fresh ?_
  rw [← same] at nonnull ⊢
  exact owned.sound s nonnull

variable [DecidableEq Slot]

/-- Store a fresh address in an empty slot. -/
theorem fill (owned : Owned null used slot) (empty : slot s = null) (fresh : ¬ used a)
    (nonnull : a ≠ null) :
    Owned null (fun b => b = a ∨ used b) (Function.update slot s a) := by
  refine ⟨?_, fun t stored => ?_, fun t u stored same => ?_, fun b inUse => ?_⟩
  · rintro (isNull | inUse)
    · exact nonnull isNull.symm
    · exact owned.absent inUse
  · by_cases here : t = s
    · rw [here, Function.update_self]
      exact Or.inl rfl
    · rw [Function.update_of_ne here] at stored ⊢
      exact Or.inr (owned.sound t stored)
  · by_cases here : t = s
    · by_cases there : u = s
      · rw [here, there]
      · rw [here, Function.update_self, Function.update_of_ne there] at same
        exact absurd same.symm (owned.ne_of_fresh fresh nonnull u)
    · rw [Function.update_of_ne here] at stored same
      by_cases there : u = s
      · rw [there, Function.update_self] at same
        exact absurd same (owned.ne_of_fresh fresh nonnull t)
      · rw [Function.update_of_ne there] at same
        exact owned.once t u stored same
  · rcases inUse with new | old
    · exact ⟨s, by rw [Function.update_self, new]⟩
    · rcases owned.complete b old with ⟨t, same⟩
      refine ⟨t, ?_⟩
      rw [Function.update_of_ne ?_, same]
      intro here
      rw [here, empty] at same
      rw [← same] at old
      exact owned.absent old

end Owned
end Machine
end OsProjects
