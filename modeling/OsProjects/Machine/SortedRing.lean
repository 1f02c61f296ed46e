import Mathlib.Data.Finset.Card
import Mathlib.Data.Finset.Max
import Mathlib.Order.Defs.LinearOrder

namespace OsProjects
namespace Machine

universe u

/-!
# Rings of addresses in ascending order

A set of nodes is linked into a ring when each node points to the next higher one and the
highest one back to the lowest.  The link of a node says that there is nothing between it and
the next one, so inserting and removing are statements about one gap.
-/

variable {α : Type u} [LinearOrder α]

/-- The nodes are linked by `ptr` in ascending order, and the last one points to `base`. -/
structure SortedRing (ptr : α -> α) (nodes : Finset α) (base : α) : Prop where
  base_mem : base ∈ nodes
  least : forall x, x ∈ nodes -> base ≤ x
  link : forall x, x ∈ nodes -> (ptr x ∈ nodes ∧ x < ptr x ∧ forall y, y ∈ nodes -> x < y ->
    ptr x ≤ y) ∨ (ptr x = base ∧ forall y, y ∈ nodes -> y ≤ x)

/-- The node after which an address belongs. -/
structure Precedes (nodes : Finset α) (p b : α) : Prop where
  mem : p ∈ nodes
  below : p < b
  gap : forall y, y ∈ nodes -> y ≤ p ∨ b < y

theorem Precedes.unique {nodes : Finset α} {p q b : α} (first : Precedes nodes p b)
    (second : Precedes nodes q b) : p = q :=
  le_antisymm ((second.gap p first.mem).resolve_right (not_lt_of_gt first.below))
    ((first.gap q second.mem).resolve_right (not_lt_of_gt second.below))

/-- How far a node is from the target, when one follows the links. -/
def stepsTo (nodes : Finset α) (target x : α) : Nat :=
  (nodes.filter (fun y => x < y)).card + if x ≤ target then 0 else nodes.card

namespace SortedRing

variable {ptr other : α -> α} {nodes : Finset α} {base x p b : α}

theorem single (self : ptr base = base) : SortedRing ptr {base} base := by
  refine ⟨Finset.mem_singleton_self base, fun x inside => (Finset.mem_singleton.mp inside).ge,
    fun x inside => Or.inr ?_⟩
  rw [Finset.mem_singleton.mp inside]
  exact ⟨self, fun y inside => (Finset.mem_singleton.mp inside).le⟩

theorem congr (ring : SortedRing ptr nodes base) (same : forall x, x ∈ nodes -> other x = ptr x) :
    SortedRing other nodes base := by
  refine ⟨ring.base_mem, ring.least, fun x inside => ?_⟩
  rw [same x inside]
  exact ring.link x inside

theorem closed (ring : SortedRing ptr nodes base) (inside : x ∈ nodes) : ptr x ∈ nodes := by
  rcases ring.link x inside with next | last
  · exact next.1
  · rw [last.1]
    exact ring.base_mem

/-- A link that is not the last one goes up. -/
theorem lt_ptr (ring : SortedRing ptr nodes base) (inside : x ∈ nodes) (up : ptr x ≠ base) :
    x < ptr x := by
  rcases ring.link x inside with next | last
  · exact next.2.1
  · exact absurd last.1 up

/-- The test that finds the node after which an address belongs. -/
theorem precedes_iff (ring : SortedRing ptr nodes base) (inside : p ∈ nodes) (above : base < b) :
    ((p < b ∧ b < ptr p) ∨ (ptr p ≤ p ∧ (p < b ∨ b < ptr p))) ↔ Precedes nodes p b := by
  rcases ring.link p inside with next | last
  · constructor
    · rintro (between | wraps)
      · exact ⟨inside, between.1, fun y there => (le_or_gt y p).imp id
          (fun higher => lt_of_lt_of_le between.2 (next.2.2 y there higher))⟩
      · exact absurd next.2.1 (not_lt_of_ge wraps.1)
    · intro precedes
      exact Or.inl ⟨precedes.below, (precedes.gap _ next.1).resolve_left (not_le_of_gt next.2.1)⟩
  · have low : ¬ b < ptr p := by
      rw [last.1]
      exact not_lt_of_gt above
    constructor
    · rintro (between | wraps)
      · exact absurd between.2 low
      · exact ⟨inside, wraps.2.resolve_right low, fun y there => Or.inl (last.2 y there)⟩
    · intro precedes
      refine Or.inr ⟨?_, Or.inl precedes.below⟩
      rw [last.1]
      exact ring.least p inside

/-- There is a node after which an address belongs. -/
theorem exists_precedes (ring : SortedRing ptr nodes base) (above : base < b) (fresh : b ∉ nodes) :
    Exists fun p => Precedes nodes p b := by
  have some : (nodes.filter (fun y => y < b)).Nonempty :=
    ⟨base, Finset.mem_filter.mpr ⟨ring.base_mem, above⟩⟩
  rcases Finset.mem_filter.mp (Finset.max'_mem _ some) with ⟨inside, below⟩
  refine ⟨_, inside, below, fun y there => ?_⟩
  rcases lt_trichotomy y b with lower | same | higher
  · exact Or.inl (Finset.le_max' _ y (Finset.mem_filter.mpr ⟨there, lower⟩))
  · exact absurd (same ▸ there) fresh
  · exact Or.inr higher

/-- Following a link brings one nearer to the target. -/
theorem stepsTo_ptr (ring : SortedRing ptr nodes base) {target : α} (inside : x ∈ nodes)
    (aim : target ∈ nodes) (different : x ≠ target) :
    stepsTo nodes target (ptr x) < stepsTo nodes target x := by
  have fewer : forall {lower higher : α}, higher ∈ nodes -> lower < higher ->
      (nodes.filter (fun y => higher < y)).card < (nodes.filter (fun y => lower < y)).card := by
    intro lower higher there below
    refine Finset.card_lt_card ⟨fun y some => ?_, fun all => ?_⟩
    · rcases Finset.mem_filter.mp some with ⟨there, above⟩
      exact Finset.mem_filter.mpr ⟨there, lt_trans below above⟩
    · exact lt_irrefl higher (Finset.mem_filter.mp (all (Finset.mem_filter.mpr ⟨there, below⟩))).2
  rcases ring.link x inside with next | last
  · have up := fewer next.1 next.2.1
    rw [stepsTo, stepsTo]
    by_cases before : x ≤ target
    · rw [if_pos before, if_pos (next.2.2 target aim (lt_of_le_of_ne before different))]
      exact Nat.add_lt_add_right up 0
    · rw [if_neg before]
      have beyond : ¬ ptr x ≤ target := fun below => before (le_trans (le_of_lt next.2.1) below)
      rw [if_neg beyond]
      exact Nat.add_lt_add_right up _
  · have beyond : ¬ x ≤ target := fun before => different (le_antisymm before (last.2 target aim))
    rw [stepsTo, stepsTo, last.1, if_pos (ring.least target aim), if_neg beyond]
    have fewer : (nodes.filter (fun y => base < y)).card < nodes.card := by
      refine Finset.card_lt_card ⟨Finset.filter_subset _ _, fun all => ?_⟩
      exact lt_irrefl base (Finset.mem_filter.mp (all ring.base_mem)).2
    omega

/-- Every part of the ring that the links do not leave is the whole ring. -/
theorem mem_of_closed (ring : SortedRing ptr nodes base) {part : Finset α}
    (within : forall x, x ∈ part -> x ∈ nodes) (some : part.Nonempty)
    (closed : forall x, x ∈ part -> ptr x ∈ part) {y : α} (inside : y ∈ nodes) : y ∈ part := by
  have top := Finset.max'_mem part some
  have start : base ∈ part := by
    rcases ring.link _ (within _ top) with next | last
    · exact absurd (Finset.le_max' part _ (closed _ top)) (not_le_of_gt next.2.1)
    · exact last.1 ▸ closed _ top
  by_contra outside
  have missing : (nodes.filter (fun y => y ∉ part)).Nonempty :=
    ⟨y, Finset.mem_filter.mpr ⟨inside, outside⟩⟩
  rcases Finset.mem_filter.mp (Finset.min'_mem _ missing) with ⟨there, first⟩
  generalize least : (nodes.filter (fun y => y ∉ part)).min' missing = z at there first
  have lower : (nodes.filter (fun x => x < z)).Nonempty := by
    refine ⟨base, Finset.mem_filter.mpr ⟨ring.base_mem, lt_of_le_of_ne (ring.least z there) ?_⟩⟩
    rintro rfl
    exact first start
  rcases Finset.mem_filter.mp (Finset.max'_mem _ lower) with ⟨before, below⟩
  generalize greatest : (nodes.filter (fun x => x < z)).max' lower = x at before below
  have known : x ∈ part := by
    by_contra unknown
    have bound := Finset.min'_le (nodes.filter (fun y => y ∉ part)) x
        (Finset.mem_filter.mpr ⟨before, unknown⟩)
    rw [least] at bound
    exact not_lt_of_ge bound below
  rcases ring.link x before with next | last
  · have same : ptr x = z := by
      refine le_antisymm (next.2.2 z there below) (le_of_not_gt fun between => ?_)
      have bound := Finset.le_max' (nodes.filter (fun x => x < z)) (ptr x)
          (Finset.mem_filter.mpr ⟨next.1, between⟩)
      rw [greatest] at bound
      exact not_lt_of_ge bound next.2.1
    exact first (same ▸ closed x known)
  · exact not_lt_of_ge (last.2 z there) below

theorem stepsTo_le (nodes : Finset α) (target x : α) : stepsTo nodes target x ≤ 2 * nodes.card := by
  have part := Finset.card_filter_le nodes (fun y => x < y)
  rw [stepsTo]
  split <;> omega

/-- Link an address in after its predecessor. -/
theorem insert (ring : SortedRing ptr nodes base) (precedes : Precedes nodes p b) :
    SortedRing (Function.update (Function.update ptr b (ptr p)) p b)
      (Insert.insert b nodes) base := by
  have different : b ≠ p := ne_of_gt precedes.below
  refine ⟨Finset.mem_insert_of_mem ring.base_mem, fun x inside => ?_, fun x inside => ?_⟩
  · rcases Finset.mem_insert.mp inside with rfl | inside
    · exact le_trans (ring.least p precedes.mem) (le_of_lt precedes.below)
    · exact ring.least x inside
  · by_cases isPred : x = p
    · rw [isPred, Function.update_self]
      refine Or.inl ⟨Finset.mem_insert_self b nodes, precedes.below, fun y there higher => ?_⟩
      rcases Finset.mem_insert.mp there with rfl | there
      · exact le_rfl
      · exact le_of_lt ((precedes.gap y there).resolve_left (not_le_of_gt higher))
    · rw [Function.update_of_ne isPred]
      by_cases isNew : x = b
      · rw [isNew, Function.update_self]
        rcases ring.link p precedes.mem with next | last
        · refine Or.inl ⟨Finset.mem_insert_of_mem next.1,
            (precedes.gap _ next.1).resolve_left (not_le_of_gt next.2.1), fun y there higher => ?_⟩
          rcases Finset.mem_insert.mp there with rfl | there
          · exact absurd higher (lt_irrefl _)
          · exact next.2.2 y there (lt_trans precedes.below higher)
        · refine Or.inr ⟨last.1, fun y there => ?_⟩
          rcases Finset.mem_insert.mp there with rfl | there
          · exact le_rfl
          · exact le_trans (last.2 y there) (le_of_lt precedes.below)
      · rw [Function.update_of_ne isNew]
        have old := (Finset.mem_insert.mp inside).resolve_left isNew
        rcases ring.link x old with next | last
        · refine Or.inl ⟨Finset.mem_insert_of_mem next.1, next.2.1, fun y there higher => ?_⟩
          rcases Finset.mem_insert.mp there with rfl | there
          · have notAfter : x < p :=
              lt_of_le_of_ne ((precedes.gap x old).resolve_right (not_lt_of_gt higher)) isPred
            exact le_trans (next.2.2 p precedes.mem notAfter) (le_of_lt precedes.below)
          · exact next.2.2 y there higher
        · refine Or.inr ⟨last.1, fun y there => ?_⟩
          rcases Finset.mem_insert.mp there with rfl | there
          · refine le_of_lt ((precedes.gap x old).resolve_left (fun before => isPred ?_))
            exact le_antisymm before (last.2 p precedes.mem)
          · exact last.2 y there

/-- Unlink the successor of a node. -/
theorem remove (ring : SortedRing ptr nodes base) (inside : p ∈ nodes) (up : ptr p ≠ base) :
    SortedRing (Function.update ptr p (ptr (ptr p))) (nodes.erase (ptr p)) base := by
  rcases (ring.link p inside).resolve_right (fun last => up last.1) with ⟨there, above, nearest⟩
  refine ⟨Finset.mem_erase.mpr ⟨up.symm, ring.base_mem⟩,
    fun x inside => ring.least x (Finset.mem_of_mem_erase inside), fun x inside => ?_⟩
  rcases Finset.mem_erase.mp inside with ⟨notGone, inside⟩
  by_cases isPred : x = p
  · rw [isPred, Function.update_self]
    rcases ring.link (ptr p) there with next | last
    · refine Or.inl ⟨Finset.mem_erase.mpr ⟨ne_of_gt next.2.1, next.1⟩, lt_trans above next.2.1,
        fun y stays higher => ?_⟩
      rcases Finset.mem_erase.mp stays with ⟨other, stays⟩
      exact next.2.2 y stays (lt_of_le_of_ne (nearest y stays higher) other.symm)
    · refine Or.inr ⟨last.1, fun y stays => ?_⟩
      rcases Finset.mem_erase.mp stays with ⟨other, stays⟩
      refine le_of_not_gt (fun higher => other ?_)
      exact le_antisymm (last.2 y stays) (nearest y stays higher)
  · rw [Function.update_of_ne isPred]
    rcases ring.link x inside with next | last
    · refine Or.inl ⟨Finset.mem_erase.mpr ⟨fun same => isPred ?_, next.1⟩, next.2.1,
        fun y stays => next.2.2 y (Finset.mem_of_mem_erase stays)⟩
      rcases lt_trichotomy x p with lower | same | higher
      · exact absurd (same ▸ next.2.2 p ‹_› lower) (not_le_of_gt above)
      · exact same
      · exact absurd next.2.1 (not_lt_of_ge (same ▸ nearest x inside higher))
    · exact Or.inr ⟨last.1, fun y stays => last.2 y (Finset.mem_of_mem_erase stays)⟩

end SortedRing
end Machine
end OsProjects
