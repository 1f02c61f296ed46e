import Mathlib.Data.List.Range
import OsProjects.AddressSpace.SyscallArguments

namespace OsProjects
namespace AddressSpace

/-!
# Checking the strings that user code passes

`fetchstr` accepts a string by finding its terminating zero, so that a reader who
scans upwards from the address stops inside user memory.  In the code and heap it
looks upwards from the address, but in the stack region it looks downwards, and it
never accepts the last byte of the address space.  The result below says exactly
for which memories the two directions agree.
-/

/-- The first of the given number of steps at which the test succeeds. -/
def firstStep (steps : Nat) (test : Nat -> Bool) : Option Nat := (List.range steps).find? test

theorem firstStep_eq_some_iff {steps k : Nat} {test : Nat -> Bool} :
    firstStep steps test = some k ↔
      k < steps ∧ test k = true ∧ forall j, j < k -> test j = false := by
  unfold firstStep
  rw [List.find?_range_eq_some, List.mem_range]
  simp only [Bool.not_eq_true']
  exact and_left_comm

/-- Fetch the nul-terminated string at `addr`.  The value is the length that the
code returns, and `none` stands for -1. -/
def fetchstr (p : Proc) (memory : Nat -> UInt8) (addr : UInt32) : Option Nat :=
  if addr ≥ p.sz ∧ addr < p.sz2 then none
  else if addr < p.sz ∧ PGSIZE ≤ addr.toNat then
    -- `s` goes up to the end of the heap.
    firstStep (p.sz.toNat - addr.toNat) (fun k => memory (addr.toNat + k) == 0)
  else if addr ≥ p.sz2 ∧ addr.toNat < USERTOP - 1 then
    -- `s` goes down to the start of the stack.
    firstStep (addr.toNat - p.sz2.toNat + 1) (fun k => memory (addr.toNat - k) == 0)
  else none

/-- The zero that ends the string at `addr` is `k` bytes away and below `limit`. -/
structure Terminated (memory : Nat -> UInt8) (addr limit k : Nat) : Prop where
  below : addr + k < limit
  zero : memory (addr + k) = 0
  first : forall j, j < k -> memory (addr + j) ≠ 0

/-- The string at `addr` has the length `k` and lies in one of the two ranges. -/
def Proc.UserString (p : Proc) (memory : Nat -> UInt8) (addr k : Nat) : Prop :=
  (PGSIZE ≤ addr ∧ addr < p.sz.toNat ∧ Terminated memory addr p.sz.toNat k) ∨
    (p.sz2.toNat ≤ addr ∧ addr < USERTOP ∧ Terminated memory addr USERTOP k)

/-- A byte that a reader touches who scans upwards from `addr` up to the first zero. -/
def Scanned (memory : Nat -> UInt8) (addr j : Nat) : Prop :=
  forall i, i < j -> memory (addr + i) ≠ 0

/-- `fetchstr` returns the length of a string in user memory and rejects everything
else, and so nobody reads beyond user memory. -/
structure FetchstrExact (p : Proc) (memory : Nat -> UInt8) (addr : UInt32) : Prop where
  length : forall k, fetchstr p memory addr = some k ↔ p.UserString memory addr.toNat k
  confined : forall k, fetchstr p memory addr = some k ->
    forall j, Scanned memory addr.toNat j -> p.UserByte (addr.toNat + j)

/-- The zeros closest to `addr` below and above it are equally far away. -/
structure Mirrored (p : Proc) (memory : Nat -> UInt8) (addr k : Nat) : Prop where
  lower : p.sz2.toNat + k ≤ addr
  upper : addr + k < USERTOP
  zeros : memory (addr - k) = 0 ∧ memory (addr + k) = 0
  between : forall j, j < k -> memory (addr - j) ≠ 0 ∧ memory (addr + j) ≠ 0

/-- The arguments on which `fetchstr` is right: every address below the stack, an
address in a stack without any zero, one with its closest zeros at the same
distance, and the last byte of the stack if it is not zero. -/
def FetchstrSafe (p : Proc) (memory : Nat -> UInt8) (addr : UInt32) : Prop :=
  p.sz2.toNat ≤ addr.toNat -> addr.toNat < USERTOP ->
    if addr.toNat = USERTOP - 1 then memory addr.toNat ≠ 0
    else (forall a, p.sz2.toNat ≤ a -> a < USERTOP -> memory a ≠ 0) ∨
      Exists fun k => Mirrored p memory addr.toNat k

/-! ## The two scans -/

theorem Terminated.unique {memory : Nat -> UInt8} {addr limit other k j : Nat}
    (one : Terminated memory addr limit k) (two : Terminated memory addr other j) : k = j := by
  rcases Nat.lt_trichotomy k j with less | same | more
  · exact absurd one.zero (two.first k less)
  · exact same
  · exact absurd two.zero (one.first j more)

/-- A string that is followed by its zero is a run of user bytes. -/
theorem Proc.UserString.confined {p : Proc} {memory : Nat -> UInt8} {addr k : Nat}
    (string : p.UserString memory addr k) {j : Nat} (scanned : Scanned memory addr j) :
    p.UserByte (addr + j) := by
  have short : forall limit, Terminated memory addr limit k -> addr + j < limit := by
    intro limit terminated
    have atMost : j ≤ k := Nat.not_lt.mp (fun more => scanned k more terminated.zero)
    have below := terminated.below
    omega
  rcases string with ⟨lower, _, terminated⟩ | ⟨lower, _, terminated⟩
  · exact Or.inl ⟨Nat.le_add_right_of_le lower, short _ terminated⟩
  · exact Or.inr ⟨Nat.le_add_right_of_le lower, short _ terminated⟩

/-- Looking upwards finds the end of the string. -/
theorem firstStep_up_iff {memory : Nat -> UInt8} {addr limit k : Nat} (below : addr < limit) :
    firstStep (limit - addr) (fun i => memory (addr + i) == 0) = some k ↔
      Terminated memory addr limit k := by
  rw [firstStep_eq_some_iff]
  simp only [beq_iff_eq, beq_eq_false_iff_ne]
  constructor
  · rintro ⟨short, zero, first⟩
    exact ⟨by omega, zero, first⟩
  · intro terminated
    have inside := terminated.below
    exact ⟨by omega, terminated.zero, terminated.first⟩

/-- Looking downwards finds the closest zero below. -/
theorem firstStep_down_iff {memory : Nat -> UInt8} {addr start k : Nat} (above : start ≤ addr) :
    firstStep (addr - start + 1) (fun i => memory (addr - i) == 0) = some k ↔
      start + k ≤ addr ∧ memory (addr - k) = 0 ∧ forall j, j < k -> memory (addr - j) ≠ 0 := by
  rw [firstStep_eq_some_iff]
  simp only [beq_iff_eq, beq_eq_false_iff_ne]
  exact and_congr_left' (by omega)

/-- `fetchstr` in the code and heap. -/
theorem fetchstr_heap {p : Proc} {memory : Nat -> UInt8} {addr : UInt32}
    (lower : PGSIZE ≤ addr.toNat) (upper : addr.toNat < p.sz.toNat) (k : Nat) :
    fetchstr p memory addr = some k ↔ Terminated memory addr.toNat p.sz.toNat k := by
  have notGap : ¬ (addr ≥ p.sz ∧ addr < p.sz2) := by
    rintro ⟨above, _⟩
    exact absurd (UInt32.le_iff_toNat_le.mp above) (Nat.not_le.mpr upper)
  unfold fetchstr
  rw [if_neg notGap, if_pos ⟨UInt32.lt_iff_toNat_lt.mpr upper, lower⟩]
  exact firstStep_up_iff upper

/-- `fetchstr` in the stack, except for its last byte. -/
theorem fetchstr_stack {p : Proc} (ordered : p.Ordered) {memory : Nat -> UInt8} {addr : UInt32}
    (lower : p.sz2.toNat ≤ addr.toNat) (upper : addr.toNat < USERTOP - 1) (k : Nat) :
    fetchstr p memory addr = some k ↔ p.sz2.toNat + k ≤ addr.toNat ∧ memory (addr.toNat - k) = 0 ∧
      forall j, j < k -> memory (addr.toNat - j) ≠ 0 := by
  have middle := ordered.middle
  unfold fetchstr
  rw [if_neg (fun gap => absurd (UInt32.lt_iff_toNat_lt.mp gap.2) (Nat.not_lt.mpr lower)),
    if_neg (fun heap => absurd (UInt32.lt_iff_toNat_lt.mp heap.1) (by omega)),
    if_pos ⟨UInt32.le_iff_toNat_le.mpr lower, upper⟩]
  exact firstStep_down_iff lower

/-- Outside of the two ranges, and at the last byte, `fetchstr` fails. -/
theorem fetchstr_outside {p : Proc} {memory : Nat -> UInt8} {addr : UInt32}
    (notHeap : ¬ (PGSIZE ≤ addr.toNat ∧ addr.toNat < p.sz.toNat))
    (notStack : ¬ (p.sz2.toNat ≤ addr.toNat ∧ addr.toNat < USERTOP - 1)) :
    fetchstr p memory addr = none := by
  unfold fetchstr
  by_cases gap : addr ≥ p.sz ∧ addr < p.sz2
  · exact if_pos gap
  · rw [if_neg gap, if_neg (fun heap => notHeap ⟨heap.2, UInt32.lt_iff_toNat_lt.mp heap.1⟩),
      if_neg (fun stack => notStack ⟨UInt32.le_iff_toNat_le.mp stack.1, stack.2⟩)]

/-! ## Where they agree -/

/-- In the stack the lengths agree if there is no zero at all or the closest ones
mirror each other. -/
theorem down_iff_up {p : Proc} {memory : Nat -> UInt8} {addr : Nat} (lower : p.sz2.toNat ≤ addr)
    (upper : addr < USERTOP) :
    (forall k, (p.sz2.toNat + k ≤ addr ∧ memory (addr - k) = 0 ∧
        forall j, j < k -> memory (addr - j) ≠ 0) ↔ Terminated memory addr USERTOP k) ↔
      (forall a, p.sz2.toNat ≤ a -> a < USERTOP -> memory a ≠ 0) ∨
        Exists fun k => Mirrored p memory addr k := by
  constructor
  · intro agree
    by_cases found : Exists fun k => Terminated memory addr USERTOP k
    · rcases found with ⟨k, terminated⟩
      rcases (agree k).mpr terminated with ⟨room, zero, first⟩
      exact Or.inr ⟨k, room, terminated.below, ⟨zero, terminated.zero⟩,
        fun j less => ⟨first j less, terminated.first j less⟩⟩
    · -- Without a zero above there is none below either, for the closest one would be found.
      refine Or.inl (fun a above inside zero => found ?_)
      rcases Nat.lt_or_ge a addr with less | more
      · have some_ : Exists fun k => p.sz2.toNat + k ≤ addr ∧ memory (addr - k) = 0 :=
          ⟨addr - a, by omega, by rw [Nat.sub_sub_self (Nat.le_of_lt less)]; exact zero⟩
        refine ⟨Nat.find some_, (agree _).mp ⟨(Nat.find_spec some_).1, (Nat.find_spec some_).2,
          fun j less isZero => Nat.find_min some_ less ⟨?_, isZero⟩⟩⟩
        have room := (Nat.find_spec some_).1
        omega
      · have some_ : Exists fun k => memory (addr + k) = 0 :=
          ⟨a - addr, by rw [Nat.add_sub_cancel' more]; exact zero⟩
        have closest : Nat.find some_ ≤ a - addr :=
          Nat.find_min' some_ (by rw [Nat.add_sub_cancel' more]; exact zero)
        exact ⟨Nat.find some_, by omega, Nat.find_spec some_, fun _ less => Nat.find_min some_ less⟩
  · rintro (none_ | ⟨m, mirrored⟩) k
    · refine iff_of_false (fun down => ?_) (fun terminated => ?_)
      · exact none_ _ (by omega) (by omega) down.2.1
      · exact none_ _ (by omega) terminated.below terminated.zero
    · have up : Terminated memory addr USERTOP m :=
        ⟨mirrored.upper, mirrored.zeros.2, fun j less => (mirrored.between j less).2⟩
      constructor
      · rintro ⟨_, zero, first⟩
        have same : k = m := by
          rcases Nat.lt_trichotomy k m with less | same | more
          · exact absurd zero (mirrored.between k less).1
          · exact same
          · exact absurd mirrored.zeros.1 (first m more)
        rw [same]
        exact up
      · intro terminated
        rw [terminated.unique up]
        exact ⟨mirrored.lower, mirrored.zeros.1, fun j less => (mirrored.between j less).1⟩

/-- The last byte of the stack is a string exactly if it is zero. -/
theorem last_string_iff {memory : Nat -> UInt8} (k : Nat) :
    Terminated memory (USERTOP - 1) USERTOP k ↔ k = 0 ∧ memory (USERTOP - 1) = 0 := by
  constructor
  · intro terminated
    have below := terminated.below
    have zero : k = 0 := by omega
    refine ⟨zero, ?_⟩
    have ends := terminated.zero
    rw [zero] at ends
    exact ends
  · rintro ⟨rfl, zero⟩
    exact ⟨by decide, zero, fun j less => absurd less (Nat.not_lt_zero j)⟩

/-- On what kinds of addresses `fetchstr` returns the length of the string. -/
theorem fetchstr_length_iff {p : Proc} (ordered : p.Ordered) (memory : Nat -> UInt8)
    (addr : UInt32) :
    (forall k, fetchstr p memory addr = some k ↔ p.UserString memory addr.toNat k) ↔
      FetchstrSafe p memory addr := by
  have middle := ordered.middle
  by_cases stack : p.sz2.toNat ≤ addr.toNat ∧ addr.toNat < USERTOP
  · have strings : forall k, p.UserString memory addr.toNat k ↔
        Terminated memory addr.toNat USERTOP k := by
      intro k
      refine ⟨fun string => ?_, fun terminated => Or.inr ⟨stack.1, stack.2, terminated⟩⟩
      rcases string with ⟨_, below, _⟩ | ⟨_, _, terminated⟩
      · omega
      · exact terminated
    simp only [strings, FetchstrSafe, stack, true_implies]
    by_cases last : addr.toNat = USERTOP - 1
    · have rejected : fetchstr p memory addr = none :=
        fetchstr_outside (fun heap => by omega) (fun inside => by omega)
      simp only [rejected, last, last_string_iff, reduceCtorEq, false_iff, not_and]
      exact ⟨fun never => never 0 rfl, fun nonzero _ _ => nonzero⟩
    · simp only [if_neg last, fetchstr_stack ordered stack.1 (by omega)]
      exact down_iff_up stack.1 stack.2
  · refine iff_of_true (fun k => ?_) (fun lower upper => absurd ⟨lower, upper⟩ stack)
    by_cases heap : PGSIZE ≤ addr.toNat ∧ addr.toNat < p.sz.toNat
    · rw [fetchstr_heap heap.1 heap.2]
      refine ⟨fun terminated => Or.inl ⟨heap.1, heap.2, terminated⟩, fun string => ?_⟩
      rcases string with ⟨_, _, terminated⟩ | ⟨lower, upper, _⟩
      · exact terminated
      · exact absurd ⟨lower, upper⟩ stack
    · rw [fetchstr_outside heap (fun inside => stack ⟨inside.1, by omega⟩)]
      refine iff_of_false nofun (fun string => ?_)
      rcases string with ⟨lower, upper, _⟩ | ⟨lower, upper, _⟩
      · exact heap ⟨lower, upper⟩
      · exact stack ⟨lower, upper⟩

/-- For every process with ordered boundaries, every memory and every address,
`fetchstr` checks a C string exactly when the address is of the kinds on which its
direction does not matter. -/
theorem fetchstr_exact_iff (p : Proc) (ordered : p.Ordered) (memory : Nat -> UInt8)
    (addr : UInt32) : FetchstrExact p memory addr ↔ FetchstrSafe p memory addr := by
  -- Confinement follows from the length, so only the length matters.
  have lengths : FetchstrExact p memory addr ↔
      forall k, fetchstr p memory addr = some k ↔ p.UserString memory addr.toNat k :=
    ⟨FetchstrExact.length, fun exact_ =>
      ⟨exact_, fun k accepted _ scanned => ((exact_ k).mp accepted).confined scanned⟩⟩
  exact lengths.trans (fetchstr_length_iff ordered memory addr)

/-- In the heap lies a string of three characters. -/
def heapString (a : Nat) : UInt8 := if a = 0x1003 then 0 else 1

theorem fetchstr_exact_iff_smallProc : FetchstrExact smallProc heapString 0x1000 ∧
    fetchstr smallProc heapString 0x1000 = some 3 := by
  have exact_ : FetchstrExact smallProc heapString 0x1000 :=
    (fetchstr_exact_iff smallProc smallProc_ordered heapString 0x1000).mpr
      (fun above _ => absurd above (by decide))
  have first : forall j, j < 3 -> heapString (0x1000 + j) ≠ 0 := by decide
  exact ⟨exact_, (exact_.length 3).mpr (Or.inl ⟨by decide, by decide, by decide, rfl, first⟩)⟩

/-- The only zero lies at the bottom of the stack page. -/
def openString (a : Nat) : UInt8 := if a = 0x9F000 then 0 else 1

/-- A string that runs past the end of the address space has the length 4. -/
theorem open_string_accepted :
    smallProc.Ordered ∧ ¬ FetchstrExact smallProc openString 0x9F004 := by
  refine ⟨smallProc_ordered, fun exact_ => ?_⟩
  have accepted : fetchstr smallProc openString 0x9F004 = some 4 := by decide
  rcases (exact_.length 4).mp accepted with ⟨_, below, _⟩ | ⟨_, _, terminated⟩
  · exact absurd below (by decide)
  · exact absurd terminated.zero (by decide)

/-! ## The callers -/

end AddressSpace
end OsProjects
