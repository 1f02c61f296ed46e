import OsProjects.Machine.Ownership

namespace OsProjects
namespace Machine

/-!
# A ledger of blocks

Blocks are numbered from `start` to `ends`, and a bit for each says whether it is in
use.  Slots store the numbers of blocks in use, each number at most once, and a block
that is not in use is blank.  The blocks before `start` are in use for good and in no
slot, and a slot that is empty stores zero.

A ledger changes in three ways: a free block is stored in an empty slot, the block of a
slot is wiped and given back, and a block in use gets other contents.
-/

structure Ledger {Slot Content : Type} (blank : Content) (start ends : Nat) (slot : Slot -> Nat)
    (bits : Nat -> Bool) (content : Nat -> Content) : Prop where
  reserved : forall b, b < start -> bits b = true
  stored : forall s, slot s ≠ 0 -> start ≤ slot s ∧ slot s < ends ∧ bits (slot s) = true
  once : forall s t, slot s ≠ 0 -> slot s = slot t -> s = t
  blank : forall b, start ≤ b -> b < ends -> bits b = false -> content b = blank

/-- Every block in use is in a slot. -/
def Ledger.Complete {Slot : Type} (start ends : Nat) (slot : Slot -> Nat) (bits : Nat -> Bool) :
    Prop :=
  forall b, start ≤ b -> b < ends -> bits b = true -> Exists fun s => slot s = b

namespace Ledger

variable {Slot Content : Type} {blank : Content} {start ends : Nat} {slot table : Slot -> Nat}
  {bits others : Nat -> Bool} {content contents : Nat -> Content} {s : Slot} {a b : Nat}

/-- The slots own the blocks that they store. -/
theorem owned (ledger : Ledger blank start ends slot bits content) :
    Owned 0 (fun b => b ≠ 0 ∧ Exists fun s => slot s = b) slot :=
  ⟨fun inUse => inUse.1 rfl, fun s stored => ⟨stored, s, rfl⟩, ledger.once, fun _ inUse => inUse.2⟩

/-- A block that is free is in no slot. -/
theorem ne_of_free (ledger : Ledger blank start ends slot bits content) (free : bits b = false)
    (stored : slot s ≠ 0) : slot s ≠ b := by
  intro same
  have inUse := (ledger.stored s stored).2.2
  rw [same, free] at inUse
  exact nomatch inUse

theorem congr (ledger : Ledger blank start ends slot bits content)
    (sameSlots : forall s, table s = slot s) (sameBits : forall b, others b = bits b)
    (kept : forall b, start ≤ b -> b < ends -> bits b = false -> contents b = content b) :
    Ledger blank start ends table others contents := by
  have slots : table = slot := funext sameSlots
  have equal : others = bits := funext sameBits
  rw [slots, equal]
  exact ⟨ledger.reserved, ledger.stored, ledger.once,
    fun b lower upper free => (kept b lower upper free).trans (ledger.blank b lower upper free)⟩

/-- Write a block that is in use. -/
theorem write (ledger : Ledger blank start ends slot bits content) (inUse : bits b = true)
    (value : Content) : Ledger blank start ends slot bits (Function.update content b value) := by
  refine ledger.congr (fun _ => rfl) (fun _ => rfl) (fun c _ _ free => Function.update_of_ne ?_ _ _)
  intro same
  rw [same, inUse] at free
  exact nomatch free

variable [DecidableEq Slot]

/-- Store a free block in an empty slot. -/
theorem fill (ledger : Ledger blank start ends slot bits content) (lower : start ≤ a)
    (upper : a < ends) (free : bits a = false) :
    Ledger blank start ends (Function.update slot s a)
      (fun b => decide (b = a) || bits b) content := by
  refine ⟨fun b before => ?_, fun t storedNow => ?_, fun t u storedNow same => ?_,
    fun b lower upper stays => ?_⟩
  · rw [ledger.reserved b before, Bool.or_true]
  · by_cases here : t = s
    · rw [here, Function.update_self]
      exact ⟨lower, upper, by rw [decide_eq_true rfl, Bool.true_or]⟩
    · rw [Function.update_of_ne here] at storedNow ⊢
      rcases ledger.stored t storedNow with ⟨first, second, inUse⟩
      exact ⟨first, second, by rw [inUse, Bool.or_true]⟩
  · by_cases here : t = s
    · by_cases there : u = s
      · rw [here, there]
      · rw [here, Function.update_self] at storedNow
        rw [here, Function.update_self, Function.update_of_ne there] at same
        exact absurd same.symm (ledger.ne_of_free free (by rw [← same]; exact storedNow))
    · rw [Function.update_of_ne here] at storedNow same
      by_cases there : u = s
      · rw [there, Function.update_self] at same
        exact absurd same (ledger.ne_of_free free storedNow)
      · rw [Function.update_of_ne there] at same
        exact ledger.once t u storedNow same
  · exact ledger.blank b lower upper (Bool.or_eq_false_iff.mp stays).2

/-- Wipe the block of a slot and give it back. -/
theorem clear (ledger : Ledger blank start ends slot bits content) (stored : slot s ≠ 0) :
    Ledger blank start ends (Function.update slot s 0) (fun b => !decide (b = slot s) && bits b)
      (Function.update content (slot s) blank) := by
  have own := ledger.stored s stored
  have other : forall t, Function.update slot s 0 t ≠ 0 -> t ≠ s := by
    intro t storedNow here
    rw [here, Function.update_self] at storedNow
    exact storedNow rfl
  refine ⟨fun b before => ?_, fun t storedNow => ?_, fun t u storedNow same => ?_,
    fun b lower upper free => ?_⟩
  · have different : b ≠ slot s := by omega
    rw [decide_eq_false different, ledger.reserved b before]
    rfl
  · have different := other t storedNow
    rw [Function.update_of_ne different] at storedNow ⊢
    rcases ledger.stored t storedNow with ⟨first, second, inUse⟩
    refine ⟨first, second, ?_⟩
    rw [decide_eq_false (fun same => different (ledger.once t s storedNow same)), inUse]
    rfl
  · have different := other t storedNow
    rw [Function.update_of_ne different] at storedNow same
    by_cases there : u = s
    · rw [there, Function.update_self] at same
      exact absurd same storedNow
    · rw [Function.update_of_ne there] at same
      exact ledger.once t u storedNow same
  · by_cases here : b = slot s
    · rw [here, Function.update_self]
    · rw [decide_eq_false here] at free
      rw [Function.update_of_ne here]
      exact ledger.blank b lower upper free

/-- Nothing leaks when a block is given back. -/
theorem Complete.clear (complete : Complete start ends slot bits) :
    Complete start ends (Function.update slot s 0) (fun b => !decide (b = slot s) && bits b) := by
  intro b lower upper inUse
  simp only [Bool.and_eq_true] at inUse
  rcases complete b lower upper inUse.2 with ⟨t, same⟩
  refine ⟨t, ?_⟩
  rw [Function.update_of_ne ?_, same]
  intro here
  rw [here] at same
  rw [decide_eq_true same.symm] at inUse
  exact nomatch inUse.1

end Ledger
end Machine
end OsProjects
