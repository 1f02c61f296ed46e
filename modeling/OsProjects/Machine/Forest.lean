import Mathlib.Logic.Relation
import Mathlib.Logic.Function.Basic

namespace OsProjects
namespace Machine

universe u

/-!
# Trees by parent pointers

The members of a tree point to their parents.  Only inner members may be pointed to, and a
member that has stopped to be inner stays a leaf until it is removed.  A rank that falls on
the way up says that there are no cycles; it is not unique and no operation has to know it.
-/

variable {Node : Type u}

structure Forest (root : Node) (member inner : Node -> Prop) (parent : Node -> Option Node) :
    Prop where
  top : inner root
  isMember : forall i, inner i -> member i
  ranked : Exists fun rank : Node -> Nat => forall i, member i -> i ≠ root ->
    Exists fun p => parent i = some p ∧ inner p ∧ rank p < rank i

/-- `i` comes from `j` by parent pointers. -/
def Descends (parent : Node -> Option Node) : Node -> Node -> Prop :=
  Relation.ReflTransGen (fun child p => parent child = some p)

namespace Forest

variable {root c i : Node} {member inner member' inner' : Node -> Prop}
  {parent parent' : Node -> Option Node}

theorem up (forest : Forest root member inner parent) (inside : member i) (different : i ≠ root) :
    Exists fun p => parent i = some p ∧ inner p := by
  rcases forest.ranked with ⟨rank, lower⟩
  rcases lower i inside different with ⟨p, points, isInner, _⟩
  exact ⟨p, points, isInner⟩

/-- Every member descends from the root. -/
theorem descends (forest : Forest root member inner parent) (inside : member i) :
    Descends parent i root := by
  rcases forest.ranked with ⟨rank, lower⟩
  induction measured : rank i using Nat.strongRecOn generalizing i with
  | ind n ih =>
      by_cases top : i = root
      · rw [top]
        exact Relation.ReflTransGen.refl
      · rcases lower i inside top with ⟨p, points, isInner, less⟩
        rw [measured] at less
        exact (ih (rank p) less (forest.isMember p isInner) rfl).head points

/-- Nobody is its own parent. -/
theorem ne_parent (forest : Forest root member inner parent) (inside : member i)
    (different : i ≠ root) : parent i ≠ some i := by
  rcases forest.ranked with ⟨rank, lower⟩
  rcases lower i inside different with ⟨p, points, _, less⟩
  rw [points]
  rintro same
  rw [Option.some.inj same] at less
  exact Nat.lt_irrefl _ less

theorem congr (forest : Forest root member inner parent) (members : forall i, member' i ↔ member i)
    (inners : forall i, inner' i ↔ inner i) (parents : forall i, member i -> parent' i = parent i) :
    Forest root member' inner' parent' := by
  rcases forest.ranked with ⟨rank, lower⟩
  refine ⟨(inners root).mpr forest.top, fun i isInner => (members i).mpr
    (forest.isMember i ((inners i).mp isInner)), rank, fun i inside different => ?_⟩
  rcases lower i ((members i).mp inside) different with ⟨p, points, isInner, less⟩
  exact ⟨p, (parents i ((members i).mp inside)).trans points, (inners p).mpr isInner, less⟩

/-- A new leaf, which may become a parent. -/
theorem attach (forest : Forest root member inner parent) (fresh : ¬ member i) (isInner : inner c)
    (members : forall j, member' j ↔ j = i ∨ member j)
    (inners : forall j, inner' j ↔ j = i ∨ inner j) (points : parent' i = some c)
    (others : forall j, member j -> parent' j = parent j) : Forest root member' inner' parent' := by
  classical
  rcases forest.ranked with ⟨rank, lower⟩
  have other : forall j, member j -> j ≠ i := by
    rintro j inside rfl
    exact fresh inside
  refine ⟨(inners root).mpr (Or.inr forest.top),
    fun j innerNow => (members j).mpr (((inners j).mp innerNow).imp id (forest.isMember j)),
    Function.update rank i (rank c + 1), fun j inside different => ?_⟩
  rcases (members j).mp inside with rfl | old
  · refine ⟨c, points, (inners c).mpr (Or.inr isInner), ?_⟩
    rw [Function.update_self, Function.update_of_ne (other c (forest.isMember c isInner))]
    exact Nat.lt_succ_self _
  · rcases lower j old different with ⟨p, up, innerUp, less⟩
    refine ⟨p, (others j old).trans up, (inners p).mpr (Or.inr innerUp), ?_⟩
    rw [Function.update_of_ne (other p (forest.isMember p innerUp)),
      Function.update_of_ne (other j old)]
    exact less

/-- A member hands its children to the root and becomes a leaf. -/
theorem retire [DecidableEq Node] (forest : Forest root member inner parent) (different : c ≠ root)
    (members : forall j, member' j ↔ member j) (inners : forall j, inner' j ↔ inner j ∧ j ≠ c)
    (parents : forall j, member j ->
      parent' j = if parent j = some c then some root else parent j) :
    Forest root member' inner' parent' := by
  rcases forest.ranked with ⟨rank, lower⟩
  refine ⟨(inners root).mpr ⟨forest.top, different.symm⟩, fun j innerNow =>
    (members j).mpr (forest.isMember j ((inners j).mp innerNow).1), fun j => if j = root then 0
    else rank j + 1, fun j inside other => ?_⟩
  rcases lower j ((members j).mp inside) other with ⟨p, up, innerUp, less⟩
  dsimp only
  rw [parents j ((members j).mp inside), up, if_neg other]
  by_cases mine : p = c
  · rw [mine, if_pos rfl]
    refine ⟨root, rfl, (inners root).mpr ⟨forest.top, different.symm⟩, ?_⟩
    rw [if_pos rfl]
    exact Nat.succ_pos _
  · rw [if_neg (fun same => mine (Option.some.inj same))]
    refine ⟨p, rfl, (inners p).mpr ⟨innerUp, mine⟩, ?_⟩
    split
    · exact Nat.succ_pos _
    · exact Nat.succ_lt_succ less

/-- A leaf goes. -/
theorem remove (forest : Forest root member inner parent) (leaf : ¬ inner i)
    (members : forall j, member' j ↔ member j ∧ j ≠ i) (inners : forall j, inner' j ↔ inner j)
    (others : forall j, member j -> j ≠ i -> parent' j = parent j) :
    Forest root member' inner' parent' := by
  rcases forest.ranked with ⟨rank, lower⟩
  refine ⟨(inners root).mpr forest.top, fun j innerNow => (members j).mpr
    ⟨forest.isMember j ((inners j).mp innerNow), ?_⟩, rank, fun j inside different => ?_⟩
  · rintro rfl
    exact leaf ((inners j).mp innerNow)
  · rcases (members j).mp inside with ⟨old, other⟩
    rcases lower j old different with ⟨p, up, innerUp, less⟩
    exact ⟨p, (others j old other).trans up, (inners p).mpr innerUp, less⟩

end Forest

end Machine
end OsProjects
