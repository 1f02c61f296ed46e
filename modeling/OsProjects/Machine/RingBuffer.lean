import Mathlib.Data.List.Basic
import Mathlib.Data.Nat.ModEq
import Mathlib.Logic.Function.Basic

namespace OsProjects
namespace Machine

universe u v

/-!
# Ring buffers

A ring has `cap` cells, and indices into it only ever grow: an index stands for the cell
with its remainder.  The items between two indices are a queue, of which the second end may
also be taken back.  Indices of 32 bits wrap, which changes nothing when `cap` divides 2^32.

Where several parties fill or empty a ring, a history names the party of each item.
-/

variable {Item : Type u} {cell : Nat -> Item} {cap r count k : Nat} {item : Item}

/-- The `count` items from the index `r` on. -/
def ringItems (cell : Nat -> Item) (cap r count : Nat) : List Item :=
  (List.range count).map (fun j => cell ((r + j) % cap))

namespace RingItems

@[simp] theorem length : (ringItems cell cap r count).length = count := by
  rw [ringItems, List.length_map, List.length_range]

/-- The item at the second end. -/
theorem succ :
    ringItems cell cap r (count + 1) =
      ringItems cell cap r count ++ [cell ((r + count) % cap)] := by
  rw [ringItems, List.range_succ, List.map_append]
  rfl

/-- The item at the first end. -/
theorem first :
    ringItems cell cap r (count + 1) = cell (r % cap) :: ringItems cell cap (r + 1) count := by
  rw [ringItems, List.range_succ_eq_map, List.map_cons, List.map_map, Nat.add_zero]
  congr 1
  refine List.map_congr_left (fun j _ => ?_)
  show cell ((r + (j + 1)) % cap) = cell ((r + 1 + j) % cap)
  rw [Nat.add_right_comm, Nat.add_assoc]

/-- The cells between the indices are different ones. -/
theorem index_ne {j : Nat} (fits : count < cap) (below : j < count) :
    (r + j) % cap ≠ (r + count) % cap := by
  intro same
  have equal := Nat.ModEq.add_left_cancel' r same
  rw [Nat.ModEq, Nat.mod_eq_of_lt (Nat.lt_trans below fits), Nat.mod_eq_of_lt fits] at equal
  exact absurd equal (Nat.ne_of_lt below)

theorem congr {other : Nat -> Item}
    (same : forall j, j < count -> other ((r + j) % cap) = cell ((r + j) % cap)) :
    ringItems other cap r count = ringItems cell cap r count :=
  List.map_congr_left (fun j inside => same j (List.mem_range.mp inside))

/-- An item is put at the second end. -/
theorem put (room : count < cap) :
    ringItems (Function.update cell ((r + count) % cap) item) cap r (count + 1) =
      ringItems cell cap r count ++ [item] := by
  rw [succ, Function.update_self]
  refine congrArg (· ++ [item]) (congr (fun j below => ?_))
  exact Function.update_of_ne (index_ne room below) _ _

/-- The items up to an index and from it on. -/
theorem append :
    ringItems cell cap r (count + k) =
      ringItems cell cap r count ++ ringItems cell cap (r + count) k := by
  induction k with
  | zero => exact (List.append_nil _).symm
  | succ k ih => rw [← Nat.add_assoc, succ, ih, succ, List.append_assoc, Nat.add_assoc]

/-- An index of 32 bits may stand for one that does not wrap. -/
theorem wrapped (divides : cap ∣ 2 ^ 32) :
    ringItems cell cap (UInt32.ofNat r).toNat count = ringItems cell cap r count := by
  refine List.map_congr_left (fun j _ => ?_)
  show cell (((UInt32.ofNat r).toNat + j) % cap) = cell ((r + j) % cap)
  rw [UInt32.toNat_ofNat', Nat.add_mod, Nat.mod_mod_of_dvd r divides, ← Nat.add_mod]

/-- Indices of 32 bits tell counts up to the size of the ring apart. -/
theorem ofNat_inj {l : Nat} (small : cap < 2 ^ 32) (within : k ≤ cap) (other : l ≤ cap) :
    UInt32.ofNat (r + k) = UInt32.ofNat (r + l) ↔ k = l := by
  constructor
  · intro same
    have equal := congrArg UInt32.toNat same
    rw [UInt32.toNat_ofNat', UInt32.toNat_ofNat'] at equal
    omega
  · intro same
    rw [same]

/-- An index may wrap where the ring does. -/
theorem index_mod (divides : cap ∣ 2 ^ 32) (r : Nat) : (UInt32.ofNat r).toNat % cap = r % cap := by
  rw [UInt32.toNat_ofNat', Nat.mod_mod_of_dvd r divides]

end RingItems

section Shares

variable {Party : Type u} {Entry : Type v} [DecidableEq Party] {who party : Party}
  {history : List (Party × Entry)} {items : List Entry}

/-- The items of one party. -/
def shareOf (who : Party) (history : List (Party × Entry)) : List Entry :=
  (history.filter (fun entry => entry.1 = who)).map Prod.snd

theorem shareOf_append : shareOf who (history ++ items.map (fun item => (party, item))) =
    shareOf who history ++ (if party = who then items else []) := by
  have own : shareOf who (items.map (fun item => (party, item))) = if party = who then items
      else [] := by
    rw [shareOf, List.filter_map, List.map_map]
    by_cases same : party = who
    · have all : items.filter ((fun entry : Party × Entry => decide (entry.1 = who)) ∘ fun item =>
          (party, item)) = items :=
        List.filter_eq_self.mpr (fun _ _ => decide_eq_true same)
      rw [all, if_pos same]
      exact List.map_id items
    · have none : items.filter ((fun entry : Party × Entry => decide (entry.1 = who)) ∘ fun item =>
          (party, item)) = [] :=
        List.filter_eq_nil_iff.mpr (fun _ _ => by simpa using same)
      rw [none, if_neg same]
      rfl
  rw [← own, shareOf, List.filter_append, List.map_append]
  rfl

end Shares

end Machine
end OsProjects
