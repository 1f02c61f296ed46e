import Mathlib.Data.List.Basic

namespace OsProjects
namespace Machine

universe u

/-!
# Supplies

A supply is what can still be read from a source: items, and between them failures, each of
which ends the read that comes to it.  The end of the list is the end of the source, and
later reads find it again.

Programs read a supply in pieces, and the pieces are not those in which it arrives.  What
a read delivers is a function of the supply alone, so two sources with one supply cannot
be told apart by any sequence of reads.
-/

variable {Item : Type u}

/-- `none` is a failure. -/
abbrev Supply (Item : Type u) : Type u := List (Option Item)

namespace Supply

/-- At most `n` items, up to the first that is a `last` one; `none` if there is a failure
before that. -/
def takeUntil (last : Item -> Bool) : Nat -> Supply Item -> Option (List Item) × Supply Item
  | 0, supply => (some [], supply)
  | _ + 1, [] => (some [], [])
  | _ + 1, none :: rest => (none, rest)
  | n + 1, some item :: rest =>
      if last item then (some [item], rest)
      else ((takeUntil last n rest).1.map (item :: ·), (takeUntil last n rest).2)

/-- No item is the last one. -/
def never (_ : Item) : Bool := false

variable {last : Item -> Bool} {n : Nat} {supply rest : Supply Item} {items taken : List Item}
  {item : Item}

@[simp] theorem takeUntil_zero : takeUntil last 0 supply = (some [], supply) := by
  cases supply <;> rfl

@[simp] theorem takeUntil_nil : takeUntil last n ([] : Supply Item) = (some [], []) := by
  cases n <;> rfl

theorem takeUntil_fail : takeUntil last (n + 1) (none :: rest) = (none, rest) := rfl

theorem takeUntil_last (isLast : last item = true) :
    takeUntil last (n + 1) (some item :: rest) = (some [item], rest) :=
  if_pos isLast

theorem takeUntil_item (notLast : last item = false) :
    takeUntil last (n + 1) (some item :: rest) =
      ((takeUntil last n rest).1.map (item :: ·), (takeUntil last n rest).2) := by
  rw [takeUntil, if_neg (by rw [notLast]; exact Bool.false_ne_true)]

/-- Nothing is lost or added: what has been taken and what is left are the supply. -/
theorem takeUntil_conserves : forall {n : Nat} {supply rest : Supply Item} {taken : List Item},
    takeUntil last n supply = (some taken, rest) -> supply = taken.map some ++ rest := by
  intro n
  induction n with
  | zero =>
      intro supply rest taken took
      rw [takeUntil_zero] at took
      rcases Prod.mk.inj took with ⟨none_, same⟩
      rw [← Option.some.inj none_]
      exact same
  | succ n ih =>
      intro supply rest taken took
      cases supply with
      | nil =>
          rcases Prod.mk.inj took with ⟨none_, same⟩
          rw [← Option.some.inj none_]
          exact same
      | cons head tail =>
          cases head with
          | none => exact absurd (Prod.mk.inj took).1.symm (Option.some_ne_none _)
          | some item =>
              rw [takeUntil] at took
              split at took
              · rcases Prod.mk.inj took with ⟨one, same⟩
                rw [← Option.some.inj one, ← same]
                rfl
              · rcases Prod.mk.inj took with ⟨more, same⟩
                rcases Option.map_eq_some_iff.mp more with ⟨others, found, rfl⟩
                have after := ih (Prod.ext found same)
                rw [after]
                rfl

/-- Taking items that arrive together, when there is room for all of them. -/
theorem takeUntil_append (items : List Item) :
    forall {n : Nat}, items.length ≤ n -> (forall item, item ∈ items -> last item = false) ->
      takeUntil last n (items.map some ++ rest) =
        ((takeUntil last (n - items.length) rest).1.map (items ++ ·),
          (takeUntil last (n - items.length) rest).2) := by
  induction items with
  | nil =>
      intro n _ _
      simp
  | cons item items ih =>
      intro n room inner
      cases n with
      | zero => exact absurd room (Nat.not_succ_le_zero _)
      | succ n =>
          have notLast := inner item List.mem_cons_self
          rw [List.map_cons, List.cons_append, takeUntil_item notLast,
            ih (Nat.le_of_succ_le_succ room)
              (fun other member => inner other (List.mem_cons_of_mem _ member)),
            List.length_cons, Nat.add_sub_add_right, Option.map_map]
          rfl

theorem takeUntil_never_append (room : items.length ≤ n) :
    takeUntil never n (items.map some ++ rest) =
      ((takeUntil never (n - items.length) rest).1.map (items ++ ·),
        (takeUntil never (n - items.length) rest).2) :=
  takeUntil_append items room (fun _ _ => rfl)

end Supply

end Machine
end OsProjects
