import OsProjects.Scheduler.ProcessTable
import Mathlib.Data.Nat.Count
import Mathlib.Order.Interval.Finset.Nat

namespace OsProjects
namespace Scheduler

/-!
# The lottery of one round

A round draws a number and walks over the table twice: once to count and to find the
highest bid, and once to find the winner.  A process with a reservation wins an interval
of the numbers that is as long as its reservation; the numbers above all reservations
are left for the processes that bid.
-/

namespace Kernel

/-- A process that takes part in the lottery with a reservation. -/
def Reserves (k : Kernel) (i : Slot) : Prop :=
  (k.proc i).state = .runnable ∧ (k.proc i).rpercent > 0

/-- A process that bids for what the reservations leave. -/
def Bids (k : Kernel) (i : Slot) : Prop := (k.proc i).state = .runnable ∧ (k.proc i).rpercent = 0

instance (k : Kernel) (i : Slot) : Decidable (k.Reserves i) := instDecidableAnd
instance (k : Kernel) (i : Slot) : Decidable (k.Bids i) := instDecidableAnd

/-- The tickets of the runnable processes in a part of the table. -/
def tickets (k : Kernel) : List Slot -> Int
  | [] => 0
  | i :: rest => (if (k.proc i).state = .runnable then (k.proc i).rpercent else 0) + k.tickets rest

/-- The sum of `rpercent` over the runnable processes. -/
def claimed (k : Kernel) : Int := k.tickets slots

/-- A round with the lottery number `rand` dispatches the process `i`. -/
def Starts (k : Kernel) (rand : Int) (i : Slot) : Prop :=
  Exists fun d => k.lottery rand = some (i, d)

instance (k : Kernel) (rand : Int) (i : Slot) : Decidable (k.Starts rand i) :=
  decidable_of_iff ((k.lottery rand).map (fun won => won.1) = some i) (by
    rw [Option.map_eq_some_iff]
    constructor
    · rintro ⟨⟨j, d⟩, won, rfl⟩
      exact ⟨d, won⟩
    · rintro ⟨d, won⟩
      exact ⟨(i, d), won, rfl⟩)

/-- No process has a negative reservation. -/
def Positive (k : Kernel) : Prop := forall i, 0 ≤ (k.proc i).rpercent

/-- Reservations as `sys_reserve` accepts them. -/
def Percents (k : Kernel) : Prop := forall i, 0 ≤ (k.proc i).rpercent ∧ (k.proc i).rpercent ≤ 100

instance (k : Kernel) : Decidable k.Positive :=
  inferInstanceAs (Decidable (forall i, 0 ≤ (k.proc i).rpercent))

instance (k : Kernel) : Decidable k.Percents :=
  inferInstanceAs (Decidable (forall i, 0 ≤ (k.proc i).rpercent ∧ (k.proc i).rpercent ≤ 100))

variable {k : Kernel} {i j : Slot} {rand : Int}

/-- No round dispatches two processes. -/
theorem Starts.unique (first : k.Starts rand i) (second : k.Starts rand j) : i = j := by
  rcases first with ⟨d, won⟩
  rcases second with ⟨e, wonToo⟩
  rw [won] at wonToo
  exact (Prod.mk.inj (Option.some.inj wonToo)).1

/-! ## The survey -/

/-- The number of reservations in a part of the table. -/
def countReserves (k : Kernel) (xs : List Slot) : Int :=
  (xs.countP (fun i => decide (k.Reserves i)) : Nat)

theorem countReserves_cons (xs : List Slot) :
    k.countReserves (i :: xs) = (if k.Reserves i then 1 else 0) + k.countReserves xs := by
  unfold countReserves
  rw [List.countP_cons]
  by_cases reserves : k.Reserves i
  · simp only [reserves, decide_true, if_true]
    omega
  · simp only [reserves, decide_false, Bool.false_eq_true, if_false, Nat.add_zero]
    omega

/-- No reservation is left exactly when the countdown is at zero. -/
theorem countReserves_eq_zero {xs : List Slot} :
    k.countReserves xs = 0 ↔ forall i, i ∈ xs -> ¬ k.Reserves i := by
  unfold countReserves
  rw [Int.natCast_eq_zero, List.countP_eq_zero]
  simp only [decide_eq_true_eq]

/-- What the first loop knows after a part of the table. -/
structure Surveyed (k : Kernel) (seen after : Survey) (xs : List Slot) : Prop where
  reserves : after.numofrp = seen.numofrp + k.countReserves xs
  more : seen.numofsp ≤ after.numofsp
  bidders : forall i, i ∈ xs -> k.Bids i -> seen.numofsp < after.numofsp
  higher : seen.higherbid ≤ after.higherbid
  highest : forall i, i ∈ xs -> k.Bids i -> (k.proc i).spotbid ≤ after.higherbid
  attained : after.higherbid = seen.higherbid ∨
    Exists fun i => i ∈ xs ∧ k.Bids i ∧ (k.proc i).spotbid = after.higherbid

theorem add_surveyed (seen : Survey) (i : Slot) : Surveyed k seen (seen.add (k.proc i)) [i] := by
  have single : k.countReserves [i] = if k.Reserves i then 1 else 0 := by
    rw [countReserves_cons]
    exact Int.add_zero _
  unfold Survey.add
  by_cases runnable : (k.proc i).state = .runnable
  · rw [if_neg (not_not.mpr runnable)]
    by_cases reserve : (k.proc i).rpercent > 0
    · have noBid : ¬ (k.proc i).rpercent = 0 := by omega
      dsimp only
      rw [if_pos reserve, if_neg noBid]
      refine ⟨?_, Int.le_refl _, fun j inside bids => ?_, Int.le_refl _,
        fun j inside bids => ?_, Or.inl rfl⟩
      · rw [single, if_pos ⟨runnable, reserve⟩]
      · rw [List.mem_singleton.mp inside] at bids
        exact absurd bids.2 noBid
      · rw [List.mem_singleton.mp inside] at bids
        exact absurd bids.2 noBid
    · have none_ : k.countReserves [i] = 0 := by
        rw [single, if_neg (fun both => reserve both.2)]
      dsimp only
      rw [if_neg reserve]
      by_cases bid : (k.proc i).rpercent = 0
      · rw [if_pos bid]
        refine ⟨by dsimp only; omega, by dsimp only; omega, fun _ _ _ => by dsimp only; omega,
          ?_, fun j inside _ => ?_, ?_⟩
        · dsimp only
          split <;> omega
        · rw [List.mem_singleton.mp inside]
          dsimp only
          split <;> omega
        · dsimp only
          split
          · exact Or.inr ⟨i, List.mem_singleton_self i, ⟨runnable, bid⟩, rfl⟩
          · exact Or.inl rfl
      · rw [if_neg bid]
        refine ⟨by omega, Int.le_refl _, fun j inside bids => ?_, Int.le_refl _,
          fun j inside bids => ?_, Or.inl rfl⟩
        · rw [List.mem_singleton.mp inside] at bids
          exact absurd bids.2 bid
        · rw [List.mem_singleton.mp inside] at bids
          exact absurd bids.2 bid
  · rw [if_pos runnable]
    refine ⟨?_, Int.le_refl _, fun j inside bids => ?_, Int.le_refl _,
      fun j inside bids => ?_, Or.inl rfl⟩
    · rw [single, if_neg (fun both => runnable both.1), Int.add_zero]
    · rw [List.mem_singleton.mp inside] at bids
      exact absurd bids.1 runnable
    · rw [List.mem_singleton.mp inside] at bids
      exact absurd bids.1 runnable

theorem Surveyed.cons {seen middle after : Survey} {xs : List Slot}
    (first : Surveyed k seen middle [i]) (rest : Surveyed k middle after xs) :
    Surveyed k seen after (i :: xs) := by
  have count : k.countReserves (i :: xs) = k.countReserves [i] + k.countReserves xs := by
    rw [countReserves_cons, countReserves_cons]
    exact congrArg (· + _) (Int.add_zero _).symm
  refine ⟨?_, Int.le_trans first.more rest.more, fun j inside bids => ?_,
    Int.le_trans first.higher rest.higher, fun j inside bids => ?_, ?_⟩
  · rw [rest.reserves, first.reserves, count, Int.add_assoc]
  · rcases List.mem_cons.mp inside with here | there
    · exact Int.lt_of_lt_of_le (first.bidders j (List.mem_singleton.mpr here) bids) rest.more
    · exact Int.lt_of_le_of_lt first.more (rest.bidders j there bids)
  · rcases List.mem_cons.mp inside with here | there
    · exact Int.le_trans (first.highest j (List.mem_singleton.mpr here) bids) rest.higher
    · exact rest.highest j there bids
  · rcases rest.attained with same | ⟨j, inside, found⟩
    · rcases first.attained with unchanged | ⟨j, inside, found⟩
      · exact Or.inl (same.trans unchanged)
      · exact Or.inr ⟨j, List.mem_cons.mpr (Or.inl (List.mem_singleton.mp inside)), found.1,
          found.2.trans same.symm⟩
    · exact Or.inr ⟨j, List.mem_cons_of_mem i inside, found⟩

theorem foldl_surveyed (xs : List Slot) : forall seen : Survey,
    Surveyed k seen (xs.foldl (fun seen i => seen.add (k.proc i)) seen) xs := by
  induction xs with
  | nil =>
      intro seen
      exact ⟨(Int.add_zero _).symm, Int.le_refl _, nofun, Int.le_refl _, nofun, Or.inl rfl⟩
  | cons i xs ih =>
      intro seen
      exact (add_surveyed seen i).cons (ih _)

theorem survey_surveyed : Surveyed k ⟨0, 0, 0⟩ k.survey slots := foldl_surveyed slots _

theorem mem_slots (i : Slot) : i ∈ slots := List.mem_finRange i

/-! ## The draw -/

theorem tickets_nonneg (positive : k.Positive) (xs : List Slot) : 0 ≤ k.tickets xs := by
  induction xs with
  | nil => exact Int.le_refl 0
  | cons i xs ih =>
      have lower := positive i
      rw [tickets]
      split <;> omega

/-- One step of the second loop. -/
theorem draw_cons (seen : Survey) (rest : List Slot) (numofrp ticket : Int) :
    k.draw seen rand (i :: rest) numofrp ticket =
      if k.Reserves i then
        if ticket + (k.proc i).rpercent > rand then some (i, .reserve)
        else k.draw seen rand rest (numofrp - 1) (ticket + (k.proc i).rpercent)
      else if (k.proc i).state = .runnable ∧ numofrp = 0 ∧ seen.numofsp ≠ 0 ∧ ticket < rand ∧
          (k.proc i).spotbid = seen.higherbid then some (i, .spot)
      else k.draw seen rand rest numofrp ticket := by
  rw [draw]
  by_cases runnable : (k.proc i).state = .runnable
  · rw [if_neg (not_not.mpr runnable)]
    by_cases reserve : (k.proc i).rpercent > 0
    · rw [if_pos reserve, if_pos (show k.Reserves i from ⟨runnable, reserve⟩)]
    · rw [if_neg reserve, if_neg (fun both : k.Reserves i => reserve both.2)]
      simp only [runnable, true_and]
  · rw [if_pos runnable, if_neg (fun both : k.Reserves i => runnable both.1),
      if_neg (fun all => runnable all.1)]

theorem tickets_cons (positive : k.Positive) (xs : List Slot) :
    k.tickets (i :: xs) = (if k.Reserves i then (k.proc i).rpercent else 0) + k.tickets xs := by
  have lower := positive i
  rw [tickets]
  congr 1
  by_cases runnable : (k.proc i).state = .runnable
  · rw [if_pos runnable]
    by_cases reserve : (k.proc i).rpercent > 0
    · rw [if_pos (show k.Reserves i from ⟨runnable, reserve⟩)]
    · rw [if_neg (fun both : k.Reserves i => reserve both.2)]
      omega
  · rw [if_neg runnable, if_neg (fun both : k.Reserves i => runnable both.1)]

theorem tickets_eq_zero (positive : k.Positive) {xs : List Slot}
    (noneLeft : forall j, j ∈ xs -> ¬ k.Reserves j) : k.tickets xs = 0 := by
  induction xs with
  | nil => rfl
  | cons x xs ih =>
      rw [tickets_cons positive, if_neg (noneLeft x List.mem_cons_self),
        ih (fun j inside => noneLeft j (List.mem_cons_of_mem x inside))]
      rfl

/-- Above all reservations, the winner is a bidder behind the last of them. -/
theorem draw_above (positive : k.Positive) (seen : Survey) (xs : List Slot) :
    forall {numofrp ticket : Int} {d : Dispatch}, xs.Pairwise (· < ·) ->
      numofrp = k.countReserves xs -> ticket + k.tickets xs ≤ rand ->
      k.draw seen rand xs numofrp ticket = some (i, d) ->
      i ∈ xs ∧ k.Bids i ∧ (k.proc i).spotbid = seen.higherbid ∧ ticket + k.tickets xs < rand ∧
        forall j, j ∈ xs -> k.Reserves j -> j < i := by
  induction xs with
  | nil => exact fun _ _ _ won => nomatch won
  | cons x xs ih =>
      intro numofrp ticket d sorted count above won
      have rest := (List.pairwise_cons.mp sorted).2
      have others := tickets_nonneg positive xs
      rw [draw_cons] at won
      rw [countReserves_cons] at count
      rw [tickets_cons positive] at above ⊢
      by_cases reserve : k.Reserves x
      · rw [if_pos reserve] at count above won ⊢
        rw [if_neg (show ¬ ticket + (k.proc x).rpercent > rand by omega)] at won
        rcases ih rest (by omega) (by omega) won with ⟨inside, bids, highest, below, behind⟩
        refine ⟨List.mem_cons_of_mem x inside, bids, highest, by omega, fun j member reserves => ?_⟩
        rcases List.mem_cons.mp member with here | there
        · rw [here]
          exact (List.pairwise_cons.mp sorted).1 i inside
        · exact behind j there reserves
      · rw [if_neg reserve] at count above won ⊢
        by_cases chosen : (k.proc x).state = .runnable ∧ numofrp = 0 ∧ seen.numofsp ≠ 0 ∧
          ticket < rand ∧ (k.proc x).spotbid = seen.higherbid
        · rw [if_pos chosen] at won
          have isWinner := (Prod.mk.inj (Option.some.inj won)).1
          have noneLeft : forall j, j ∈ xs -> ¬ k.Reserves j := countReserves_eq_zero.mp (by omega)
          have noTickets := tickets_eq_zero positive noneLeft
          have lower := positive x
          rw [← isWinner]
          refine ⟨List.mem_cons_self, ⟨chosen.1, ?_⟩, chosen.2.2.2.2, by omega,
            fun j member reserves => ?_⟩
          · have notReserve : ¬ (k.proc x).rpercent > 0 := fun more => reserve ⟨chosen.1, more⟩
            omega
          · rcases List.mem_cons.mp member with here | there
            · rw [here] at reserves
              exact absurd reserves reserve
            · exact absurd reserves (noneLeft j there)
        · rw [if_neg chosen] at won
          rcases ih rest (by omega) (by omega) won with ⟨inside, bids, highest, below, behind⟩
          refine ⟨List.mem_cons_of_mem x inside, bids, highest, by omega,
            fun j member reserves => ?_⟩
          rcases List.mem_cons.mp member with here | there
          · rw [here] at reserves
            exact absurd reserves reserve
          · exact behind j there reserves

/-- If such a bidder is there, somebody wins. -/
theorem draw_of_bidder (positive : k.Positive) (seen : Survey) (xs : List Slot) :
    forall {numofrp ticket : Int}, xs.Pairwise (· < ·) -> numofrp = k.countReserves xs ->
      i ∈ xs -> k.Bids i -> (k.proc i).spotbid = seen.higherbid -> seen.numofsp ≠ 0 ->
      ticket + k.tickets xs < rand -> (forall j, j ∈ xs -> k.Reserves j -> j < i) ->
      k.draw seen rand xs numofrp ticket ≠ none := by
  induction xs with
  | nil => exact fun _ _ inside => nomatch inside
  | cons x xs ih =>
      intro numofrp ticket sorted count inside bids highest some_ below behind
      have rest := (List.pairwise_cons.mp sorted).2
      have others := tickets_nonneg positive xs
      rw [draw_cons]
      rw [countReserves_cons] at count
      rw [tickets_cons positive] at below
      by_cases reserve : k.Reserves x
      · have later : i ∈ xs := by
          rcases List.mem_cons.mp inside with here | there
          · rw [here] at bids
            exact absurd bids.2 (Int.ne_of_gt reserve.2)
          · exact there
        rw [if_pos reserve] at count below ⊢
        rw [if_neg (show ¬ ticket + (k.proc x).rpercent > rand by omega)]
        exact ih rest (by omega) later bids highest some_ (by omega)
          (fun j member => behind j (List.mem_cons_of_mem x member))
      · rw [if_neg reserve] at count below ⊢
        split
        · exact nofun
        · rename_i passed
          rcases List.mem_cons.mp inside with here | there
          · have none_ : k.countReserves xs = 0 := by
              refine countReserves_eq_zero.mpr (fun j member reserves => ?_)
              have before := behind j (List.mem_cons_of_mem x member) reserves
              have after := (List.pairwise_cons.mp sorted).1 j member
              rw [here] at before
              exact absurd (lt_trans after before) (lt_irrefl x)
            rw [← here] at passed
            exact absurd ⟨bids.1, by omega, some_, by omega, highest⟩ passed
          · exact ih rest (by omega) there bids highest some_ (by omega)
              (fun j member => behind j (List.mem_cons_of_mem x member))

/-! ## Spare numbers -/

/-- The process bids, and no other one that bids offers more. -/
def HighestBidder (k : Kernel) (i : Slot) : Prop :=
  k.Bids i ∧ forall j, k.Bids j -> (k.proc j).spotbid ≤ (k.proc i).spotbid

instance (k : Kernel) (i : Slot) : Decidable (k.HighestBidder i) :=
  inferInstanceAs (Decidable (k.Bids i ∧ forall j, k.Bids j ->
    (k.proc j).spotbid ≤ (k.proc i).spotbid))

theorem slots_sorted : slots.Pairwise (· < ·) := List.pairwise_lt_finRange NPROC

theorem lottery_above (percents : k.Percents) (above : k.claimed ≤ rand)
    (starts : k.Starts rand i) :
    k.HighestBidder i ∧ k.claimed < rand ∧ 0 ≤ (k.proc i).spotbid ∧
    forall j, k.Reserves j -> j < i := by
  rcases starts with ⟨d, won⟩
  have seen := @survey_surveyed k
  have count : k.survey.numofrp = k.countReserves slots := seen.reserves.trans (Int.zero_add _)
  have total : 0 + k.tickets slots ≤ rand := by
    rw [Int.zero_add]
    exact above
  rcases draw_above (fun i => (percents i).1) k.survey slots slots_sorted count total won with
    ⟨_, bids, highest, below, behind⟩
  rw [Int.zero_add] at below
  refine ⟨⟨bids, fun j bidsToo => ?_⟩, below, ?_, fun j => behind j (mem_slots j)⟩
  · rw [highest]
    exact seen.highest j (mem_slots j) bidsToo
  · rw [highest]
    exact seen.higher

/-- With a number that no reservation covers, a round dispatches one of the highest
bidders exactly when the number is above the sum of the reservations and one of them
offers at least zero and is in the table behind all processes with a reservation. -/
theorem starts_highestBidder_iff (k : Kernel) (percents : k.Percents) {rand : Int}
    (above : k.claimed ≤ rand) :
    (Exists fun i => k.Starts rand i ∧ k.HighestBidder i ∧ forall j, k.Starts rand j -> j = i) ↔
      k.claimed < rand ∧ Exists fun i => k.HighestBidder i ∧ 0 ≤ (k.proc i).spotbid ∧
        forall j, k.Reserves j -> j < i := by
  constructor
  · rintro ⟨i, starts, _, _⟩
    rcases lottery_above percents above starts with ⟨highest, below, willing, behind⟩
    exact ⟨below, i, highest, willing, behind⟩
  · rintro ⟨below, i, highest, willing, behind⟩
    have seen := @survey_surveyed k
    have count : k.survey.numofrp = k.countReserves slots := seen.reserves.trans (Int.zero_add _)
    have some_ : k.survey.numofsp ≠ 0 :=
      Int.ne_of_gt (seen.bidders i (mem_slots i) highest.1)
    have maximal : (k.proc i).spotbid = k.survey.higherbid := by
      refine Int.le_antisymm (seen.highest i (mem_slots i) highest.1) ?_
      rcases seen.attained with zero | ⟨j, _, bids, same⟩
      · rw [zero]
        exact willing
      · rw [← same]
        exact highest.2 j bids
    have total : 0 + k.tickets slots < rand := by
      rw [Int.zero_add]
      exact below
    have wins := draw_of_bidder (fun i => (percents i).1) k.survey slots slots_sorted count
        (mem_slots i) highest.1 maximal some_ total (fun j _ => behind j)
    cases won : k.lottery rand with
    | none => exact absurd won wins
    | some pair =>
        have starts : k.Starts rand pair.1 := ⟨pair.2, won⟩
        exact ⟨pair.1, starts, (lottery_above percents above starts).1,
          fun j other => other.unique starts⟩

/-- A table with a reservation of 30, a bid of 40, two bids of 70 and a higher one of a process
that sleeps. -/
def threeBidders : Kernel :=
  { bootKernel with proc := fun i =>
      if i.val = 1 then { blankProc with state := .runnable, rpercent := 30 }
      else if i.val = 2 then { blankProc with state := .runnable, spotbid := 40 }
      else if i.val = 3 then { blankProc with state := .runnable, spotbid := 70 }
      else if i.val = 4 then { blankProc with state := .sleeping, spotbid := 90 }
      else if i.val = 5 then { blankProc with state := .runnable, spotbid := 70 }
      else blankProc }

/-- One of the two wins with the number 31. -/
theorem starts_highestBidder_iff_three : Exists fun i => threeBidders.Starts 31 i ∧
    threeBidders.HighestBidder i ∧ forall j, threeBidders.Starts 31 j -> j = i :=
  (starts_highestBidder_iff threeBidders (by decide +kernel) (by decide +kernel)).mpr
    ⟨by decide +kernel, ⟨3, by decide⟩, by decide +kernel, by decide, by decide +kernel⟩

/-- After boot `init` is alone, and with the number zero the round dispatches nobody. -/
theorem zero_dispatches_nobody :
    ¬ forall (k : Kernel) (rand : Int), k.Percents -> 0 ≤ rand -> rand < 200 -> k.claimed ≤ rand ->
      (Exists fun i => k.Bids i) ->
      Exists fun i => k.Starts rand i ∧ k.HighestBidder i ∧ forall j, k.Starts rand j -> j = i := by
  intro always
  have idle : bootKernel.lottery 0 = none := by decide +kernel
  rcases always bootKernel 0 (by decide +kernel) (by decide) (by decide) (by decide +kernel)
    ⟨firstSlot, by decide⟩ with ⟨i, ⟨d, won⟩, _⟩
  rw [idle] at won
  exact nomatch won

/-! ## The numbers of a reservation -/

/-- A winner comes from the part of the table that is left. -/
theorem draw_mem (seen : Survey) (xs : List Slot) : forall {numofrp ticket : Int}
    {d : Dispatch}, k.draw seen rand xs numofrp ticket = some (i, d) -> i ∈ xs := by
  induction xs with
  | nil => exact fun won => nomatch won
  | cons x xs ih =>
      intro numofrp ticket d won
      rw [draw_cons] at won
      split at won
      · split at won
        · rw [← (Prod.mk.inj (Option.some.inj won)).1]
          exact List.mem_cons_self
        · exact List.mem_cons_of_mem x (ih won)
      · split at won
        · rw [← (Prod.mk.inj (Option.some.inj won)).1]
          exact List.mem_cons_self
        · exact List.mem_cons_of_mem x (ih won)

theorem tickets_append (before after : List Slot) :
    k.tickets (before ++ after) = k.tickets before + k.tickets after := by
  induction before with
  | nil => exact (Int.zero_add _).symm
  | cons x before ih => rw [List.cons_append, tickets, tickets, ih, Int.add_assoc]

/-- The numbers that choose a process with a reservation form an interval behind the
reservations before it in the table. -/
theorem draw_reserves (positive : k.Positive) (reserves : k.Reserves i) (seen : Survey)
    {after : List Slot} (before : List Slot) :
    forall {numofrp ticket : Int}, (before ++ i :: after).Nodup ->
      numofrp = k.countReserves (before ++ i :: after) -> ticket ≤ rand ->
      ((Exists fun d => k.draw seen rand (before ++ i :: after) numofrp ticket = some (i, d)) ↔
        ticket + k.tickets before ≤ rand ∧
        rand < ticket + k.tickets before + (k.proc i).rpercent) := by
  induction before with
  | nil =>
      intro numofrp ticket apart _ started
      have absent := (List.nodup_cons.mp apart).1
      rw [List.nil_append, draw_cons, if_pos reserves, tickets]
      split
      · rename_i wins
        exact iff_of_true ⟨_, rfl⟩ ⟨by omega, by omega⟩
      · rename_i loses
        refine iff_of_false ?_ (fun range => loses (by omega))
        rintro ⟨d, won⟩
        exact absent (draw_mem seen after won)
  | cons x before ih =>
      intro numofrp ticket apart count started
      rcases List.nodup_cons.mp apart with ⟨fresh, rest⟩
      have different : x ≠ i := by
        intro same
        exact fresh (List.mem_append_right before (same ▸ List.mem_cons_self))
      have others := tickets_nonneg positive before
      rw [List.cons_append] at count ⊢
      rw [countReserves_cons] at count
      rw [draw_cons, tickets_cons positive]
      by_cases reserve : k.Reserves x
      · rw [if_pos reserve] at count ⊢
        rw [if_pos reserve]
        by_cases wins : ticket + (k.proc x).rpercent > rand
        · rw [if_pos wins]
          refine iff_of_false ?_ (by omega)
          rintro ⟨d, won⟩
          exact different (Prod.mk.inj (Option.some.inj won)).1
        · rw [if_neg wins, ← Int.add_assoc]
          exact ih rest (by omega) (by omega)
      · rw [if_neg reserve] at count ⊢
        rw [if_neg reserve, Int.zero_add]
        have left : k.countReserves (before ++ i :: after) ≠ 0 := by
          intro none_
          exact countReserves_eq_zero.mp none_ i
            (List.mem_append_right before List.mem_cons_self) reserves
        rw [if_neg (fun all => left (by omega))]
        exact ih rest (by omega) started

/-- The number of lottery numbers that make a round dispatch the process. -/
def wins (k : Kernel) (i : Slot) : Nat :=
  ((Finset.range 200).filter (fun rand => k.Starts (rand : Nat) i)).card

theorem wins_of_reserves (positive : k.Positive) (total : k.claimed ≤ 200)
    (reserves : k.Reserves i) : (k.wins i : Int) = (k.proc i).rpercent := by
  rcases List.append_of_mem (mem_slots i) with ⟨before, after, split⟩
  have seen := @survey_surveyed k
  have count : k.survey.numofrp = k.countReserves slots := seen.reserves.trans (Int.zero_add _)
  have lower := tickets_nonneg positive before
  have rest := tickets_nonneg positive after
  have sum : k.claimed = k.tickets before + ((k.proc i).rpercent + k.tickets after) := by
    unfold claimed
    rw [split, tickets_append, tickets_cons positive, if_pos reserves]
  have apart : (before ++ i :: after).Nodup := split ▸ List.nodup_finRange NPROC
  have interval : (Finset.range 200).filter (fun rand => k.Starts (rand : Nat) i) =
      Finset.Ico (k.tickets before).toNat (k.tickets before + (k.proc i).rpercent).toNat := by
    ext rand
    have chosen := @draw_reserves k i (rand : Nat) positive reserves k.survey after before
      k.survey.numofrp 0 apart (by rw [count, split]) (Int.natCast_nonneg rand)
    rw [← split] at chosen
    rw [Finset.mem_filter, Finset.mem_range, Finset.mem_Ico]
    have same : k.Starts (rand : Nat) i ↔ 0 + k.tickets before ≤ rand ∧
        (rand : Int) < 0 + k.tickets before + (k.proc i).rpercent := chosen
    rw [same]
    omega
  have more := reserves.2
  rw [wins, interval, Nat.card_Ico]
  omega

/-- A process with a reservation wins as many of the 200 lottery numbers as it has
reserved, wherever it is in the table and whatever the others do, and no number makes a
round dispatch two processes. -/
theorem reservations_honoured (k : Kernel) (positive : k.Positive) (total : k.claimed ≤ 200) :
    (forall i, k.Reserves i -> (k.wins i : Int) = (k.proc i).rpercent) ∧
    (forall (other : Kernel) (i j : Slot), other.Positive -> other.claimed ≤ 200 -> k.Reserves i ->
      other.Reserves j -> (other.proc j).rpercent = (k.proc i).rpercent ->
      other.wins j = k.wins i) ∧
    forall rand i j, k.Starts rand i -> k.Starts rand j -> i = j := by
  refine ⟨fun i => wins_of_reserves positive total,
    fun other i j others otherTotal reserves reservesToo same => ?_, fun rand i j => Starts.unique⟩
  have mine := wins_of_reserves positive total reserves
  have its := wins_of_reserves others otherTotal reservesToo
  omega

/-- A table in which the second process has reserved 30 and the third one 170. -/
def twoReservations : Kernel :=
  { bootKernel with proc := fun i =>
      if i.val = 1 then { blankProc with state := .runnable, rpercent := 30 }
      else if i.val = 2 then { blankProc with state := .runnable, rpercent := 170 }
      else bootKernel.proc i }

theorem reservations_honoured_two : (twoReservations.wins ⟨1, by decide⟩ : Int) = 30 ∧
    (twoReservations.wins ⟨2, by decide⟩ : Int) = 170 := by
  have honoured := (reservations_honoured twoReservations (by decide +kernel) (by decide +kernel)).1
  exact ⟨honoured ⟨1, by decide⟩ (by decide +kernel), honoured ⟨2, by decide⟩ (by decide +kernel)⟩

end Kernel
end Scheduler
end OsProjects
