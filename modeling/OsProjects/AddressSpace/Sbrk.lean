import OsProjects.AddressSpace.PageEntries
import OsProjects.AddressSpace.SyscallArguments

namespace OsProjects
namespace AddressSpace

open Machine

/-!
# Changing the size of a process

`growproc` gets the new size, or 0 for failure, from `allocuvm` and `deallocuvm`.
The two are told apart by the number alone, the sum of the size and a negative
number may wrap around, and nobody asks whether the heap would reach the stack.
The result says for which numbers `growproc` still changes the size by exactly what
was asked for or leaves everything as it was.
-/

/-- The layout on which `growproc` works: the user pages are those of the heap and
the stack, in this order. -/
structure LaidOut (owner : Nat -> Role) (s : Vm) (p : Proc) : Prop where
  space : Space owner s p.pgdir (Regions p.sz.toNat p.sz2.toNat)
  nonempty : 0 < p.sz.toNat
  order : p.sz.toNat ≤ p.sz2.toNat
  aligned : p.sz2.toNat % PGSIZE = 0
  high : p.sz2.toNat ≤ USERTOP

/-- The pages of `range` are unmapped, and exactly the pages behind them have become
free. -/
structure Released (s t : Vm) (d : Nat) (range : Nat -> Prop) : Prop where
  entries : forall w, range w -> pte t d w = 0
  free : forall p, p ∈ t.freelist ↔
    p ∈ s.freelist ∨ Exists fun w => range w ∧ PTE_ADDR (pte s d w) = p

theorem Removed.released {image : Image} {owner after : Nat -> Role} {s t : Vm} {d : Nat}
    {range : Nat -> Prop} (removed : Removed owner s d range after t)
    (present : forall w, range w -> Present (pte s d w)) (heap : Heap image owner s)
    (nextHeap : Heap image after t) : Released s t d range := by
  refine ⟨removed.cleared, fun p => ?_⟩
  rw [nextHeap.free, heap.free]
  constructor
  · intro free
    rcases removed.role p with same | ⟨_, w, inside, _, frame⟩
    · exact Or.inl (same ▸ free)
    · exact Or.inr ⟨w, inside, frame⟩
  · rintro (free | ⟨w, inside, rfl⟩)
    · rcases removed.role p with same | ⟨nowFree, _⟩
      · exact same.trans free
      · exact nowFree
    · exact removed.freed w inside (present w inside)

/-- The size has changed by exactly `n`, and the pages between the two sizes are new
or gone. -/
structure Resized (s t : Vm) (n : Int32) : Prop where
  size : (t.proc.sz.toNat : Int) = s.proc.sz.toNat + n.toInt
  proc : t.proc = s.proc.withSz t.proc.sz
  grown : 0 ≤ n.toInt -> Mapped s t s.proc.pgdir (Between s.proc.sz.toNat t.proc.sz.toNat)
  shrunk : n.toInt ≤ 0 -> Released s t s.proc.pgdir (Between t.proc.sz.toNat s.proc.sz.toNat)
  others : SameEntries s.proc.pgdir (fun w => Between s.proc.sz.toNat t.proc.sz.toNat w ∨
    Between t.proc.sz.toNat s.proc.sz.toNat w) s t

/-- The two ends that a caller of `growproc` may expect. -/
def Settled (s : Vm) (n : Int32) (result : Int) (t : Vm) : Prop :=
  (result = 0 ∧ Resized s t n) ∨
    (result = -1 ∧ t.proc = s.proc ∧ RolledBack s t s.proc.pgdir)

/-- `growproc` does all or nothing. -/
def AllOrNothing (image : Image) (s : Vm) (n : Int32) : Prop :=
  Exists fun result => Exists fun t =>
    growproc image n.toUInt32 s = .done result t ∧ Settled s n result t

/-- The numbers that `growproc` treats correctly: a positive one ends below the
stack or above the limit that is checked, and a negative one leaves something of the
process, unless there is no page to lose. -/
structure SbrkSafe (p : Proc) (n : Int32) : Prop where
  up : 0 < n.toInt -> (USERTOP - 2 * PGSIZE : Nat) < p.sz.toNat + n.toInt ∨
    p.sz.toNat + n.toInt ≤ p.sz2.toNat
  down : n.toInt < 0 -> 0 < p.sz.toNat + n.toInt ∨
    (p.sz.toNat + n.toInt = 0 ∧ p.sz.toNat ≤ PGSIZE)

/-! ## The sign of the argument -/

theorem toInt_pos_iff (n : Int32) :
    0 < n.toInt ↔ 0 < n.toUInt32.toNat ∧ n.toUInt32.toNat < 2 ^ 31 := by
  have signed := toInt_cond n
  have unsigned := n.toUInt32.toNat_lt
  split at signed <;> omega

theorem toInt_neg_iff (n : Int32) : n.toInt < 0 ↔ 2 ^ 31 ≤ n.toUInt32.toNat := by
  have signed := toInt_cond n
  have unsigned := n.toUInt32.toNat_lt
  split at signed <;> omega

/-! ## The pages between two sizes -/

theorem LaidOut.low {owner : Nat -> Role} {s : Vm} {p : Proc} (layout : LaidOut owner s p) :
    p.sz.toNat ≤ USERTOP :=
  Nat.le_trans layout.order layout.high

/-- The heap ends below the first page of the stack. -/
theorem LaidOut.below_stack {owner : Nat -> Role} {s : Vm} {p : Proc} (layout : LaidOut owner s p)
    {sz : Nat} : ceilPage sz ≤ p.sz2.toNat / PGSIZE ↔ sz ≤ p.sz2.toNat := by
  have aligned := layout.aligned
  simp only [ceilPage, PGSIZE] at aligned ⊢
  omega

theorem LaidOut.clear {owner : Nat -> Role} {s : Vm} {p : Proc} (layout : LaidOut owner s p)
    {newsz w : Nat} (fits : newsz ≤ p.sz2.toNat) (inside : Between p.sz.toNat newsz w) :
    ¬ Regions p.sz.toNat p.sz2.toNat w := by
  have top := layout.below_stack.mpr fits
  have lower := inside.1
  have upper := inside.2
  rintro (heap | stack)
  · omega
  · omega

theorem LaidOut.present {owner : Nat -> Role} {s : Vm} {p : Proc} (layout : LaidOut owner s p)
    {newsz w : Nat} (first : 1 ≤ w) (inside : Between newsz p.sz.toNat w) :
    Present (pte s p.pgdir w) :=
  (layout.space.user w (Nat.lt_of_lt_of_le inside.2 (ceilPage_le_userpages layout.low))).mpr
    (Or.inl ⟨first, inside.2⟩)

/-- Nothing is mapped at address 0. -/
theorem LaidOut.zero {owner : Nat -> Role} {s : Vm} {p : Proc} (layout : LaidOut owner s p) :
    pte s p.pgdir 0 = 0 := by
  have nonempty := layout.nonempty
  have order := layout.order
  have aligned := layout.aligned
  refine layout.space.zero 0 (by decide) (fun mapped => ?_)
  simp only [Regions, PGSIZE] at mapped aligned
  omega

/-! ## The ends of `growproc` -/

theorem RolledBack.refl (s : Vm) (d : Nat) : RolledBack s s d :=
  ⟨⟨fun _ => rfl, fun _ _ _ => rfl⟩, fun _ => Iff.rfl⟩

/-- The new size is stored after the pages have been changed. -/
theorem resized_of {s t : Vm} {n : Int32} {sz : Nat} (low : sz ≤ USERTOP)
    (size : (sz : Int) = s.proc.sz.toNat + n.toInt) (proc : t.proc = s.proc)
    (grown : 0 ≤ n.toInt -> Mapped s t s.proc.pgdir (Between s.proc.sz.toNat sz))
    (shrunk : n.toInt ≤ 0 -> Released s t s.proc.pgdir (Between sz s.proc.sz.toNat))
    (others : SameEntries s.proc.pgdir (fun w => Between s.proc.sz.toNat sz w ∨
      Between sz s.proc.sz.toNat w) s t) :
    Resized s { t with proc := t.proc.withSz (UInt32.ofNat sz) } n := by
  have value := toNat_ofNat_of_le low
  generalize UInt32.ofNat sz = stored at value ⊢
  subst value
  rw [proc]
  exact ⟨size, rfl, fun up => ⟨(grown up).frames, (grown up).distinct, (grown up).free⟩,
    fun down => ⟨(shrunk down).entries, (shrunk down).free⟩, others⟩

/-- No pages lie between two equal sizes. -/
theorem between_self (sz w : Nat) : ¬ Between sz sz w :=
  fun inside => absurd (Nat.lt_of_le_of_lt inside.1 inside.2) (Nat.lt_irrefl _)

theorem growproc_zero {image : Image} {owner : Nat -> Role} {s : Vm} (heap : Heap image owner s)
    (layout : LaidOut owner s s.proc) {n : Int32} (zero : n.toInt = 0) :
    Program.wp (growproc image n.toUInt32) (Settled s n) (fun _ => False) s := by
  have notUp := mt (toInt_pos_iff n).mpr (by omega)
  have notDown := mt (toInt_neg_iff n).mpr (by omega)
  have empty := between_self s.proc.sz.toNat
  have added : Added owner s s.proc.pgdir (Between s.proc.sz.toNat s.proc.sz.toNat)
      (fun _ => Bytes.fill 0) owner s := Added.refl owner s _ empty _
  have removed : Removed owner s s.proc.pgdir (Between s.proc.sz.toNat s.proc.sz.toNat) owner s :=
    Removed.refl owner s _ (fun w inside => absurd inside (empty w))
  unfold growproc
  rw [Program.wp_bind, Program.wp_read, if_neg notUp, if_neg notDown]
  exact Or.inl ⟨rfl, resized_of layout.low (by omega) rfl (fun _ => added.mapped heap heap)
    (fun _ => removed.released (fun w inside => absurd inside (empty w)) heap heap)
    ⟨fun _ => rfl, fun _ _ _ => rfl⟩⟩

/-- A positive number within the limit, below the stack. -/
theorem growproc_grows {image : Image} {owner : Nat -> Role} {s : Vm} (heap : Heap image owner s)
    (layout : LaidOut owner s s.proc) {n : Int32} (up : 0 < n.toInt)
    (fits : s.proc.sz.toNat + n.toInt ≤ s.proc.sz2.toNat) :
    Program.wp (growproc image n.toUInt32) (Settled s n) (fun _ => False) s := by
  have positive := (toInt_pos_iff n).mp up
  have signed := toInt_cond n
  rw [if_pos (by omega)] at signed
  have low := layout.low
  have high := layout.high
  have target : sizePlus s.proc.sz n.toUInt32 = s.proc.sz.toNat + n.toUInt32.toNat := by
    simp only [sizePlus, USERTOP] at low ⊢
    omega
  unfold growproc
  rw [Program.wp_bind, Program.wp_read, if_pos positive, target]
  by_cases limit : USERTOP - 2 * PGSIZE < s.proc.sz.toNat + n.toUInt32.toNat
  · rw [if_pos limit]
    exact Or.inr ⟨rfl, rfl, RolledBack.refl s _⟩
  · rw [if_neg limit]
    refine Program.wp_seq (allocuvm_added heap layout.space (by omega) (Nat.le_add_right _ _)
      (fun w inside => layout.clear (by omega) inside)) ?_
    rintro size t (⟨rfl, after, nextHeap, within, _, added⟩ | ⟨rfl, after, nextHeap,
      within, _, removed⟩)
    · unfold setNewSize
      rw [if_neg (by omega)]
      refine Or.inl ⟨rfl, resized_of (by omega) (by omega) within.proc
        (fun _ => added.mapped heap nextHeap) (fun down => by omega) ?_⟩
      exact ⟨added.sameEntries.1, fun w below outside =>
        added.entries w below (fun inside => outside (Or.inl inside))⟩
    · unfold setNewSize
      rw [if_pos rfl]
      have isUser : forall w, Between s.proc.sz.toNat (s.proc.sz.toNat + n.toUInt32.toNat) w ->
          w < USERPAGES := fun w inside =>
        Nat.lt_of_lt_of_le inside.2 (ceilPage_le_userpages (by omega))
      exact Or.inr ⟨rfl, within.proc, removed.rolledBack (fun w inside =>
        layout.space.zero w (isUser w inside) (layout.clear (by omega) inside)) heap nextHeap⟩

/-- A positive number above the limit. -/
theorem growproc_refuses {image : Image} {s : Vm} {n : Int32} (low : s.proc.sz.toNat ≤ USERTOP)
    (up : 0 < n.toInt) (limit : (USERTOP - 2 * PGSIZE : Nat) < s.proc.sz.toNat + n.toInt) :
    Program.wp (growproc image n.toUInt32) (Settled s n) (fun _ => False) s := by
  have positive := (toInt_pos_iff n).mp up
  have signed := toInt_cond n
  rw [if_pos (by omega)] at signed
  have target : sizePlus s.proc.sz n.toUInt32 = s.proc.sz.toNat + n.toUInt32.toNat := by
    simp only [sizePlus, USERTOP] at low ⊢
    omega
  unfold growproc
  rw [Program.wp_bind, Program.wp_read, if_pos positive, target, if_pos (by omega)]
  exact Or.inr ⟨rfl, rfl, RolledBack.refl s _⟩

/-- A positive number that reaches the stack: if memory runs out first, the rollback
removes pages of the stack. -/
theorem growproc_cuts_stack {image : Image} {owner : Nat -> Role} {s : Vm}
    (heap : Heap image owner s) (layout : LaidOut owner s s.proc) {n : Int32} (up : 0 < n.toInt)
    (within : s.proc.sz.toNat + n.toInt ≤ (USERTOP - 2 * PGSIZE : Nat))
    (crosses : (s.proc.sz2.toNat : Int) < s.proc.sz.toNat + n.toInt) :
    Program.wp (growproc image n.toUInt32)
      (fun result t =>
        result = -1 ∧
        pte t s.proc.pgdir (s.proc.sz2.toNat / PGSIZE) ≠
          pte s s.proc.pgdir (s.proc.sz2.toNat / PGSIZE))
      (fun _ => True) s := by
  have positive := (toInt_pos_iff n).mp up
  have signed := toInt_cond n
  rw [if_pos (by omega)] at signed
  have low := layout.low
  have target : sizePlus s.proc.sz n.toUInt32 = s.proc.sz.toNat + n.toUInt32.toNat := by
    simp only [sizePlus, USERTOP] at low ⊢
    omega
  have isUser : s.proc.sz2.toNat / PGSIZE < USERPAGES := by
    simp only [USERTOP, USERPAGES, PGSIZE] at within crosses ⊢
    omega
  have inside : Between s.proc.sz.toNat (s.proc.sz.toNat + n.toUInt32.toNat)
      (s.proc.sz2.toNat / PGSIZE) :=
    ⟨layout.below_stack.mpr layout.order,
      Nat.lt_of_not_le (fun fits => absurd (layout.below_stack.mp fits) (by omega))⟩
  have mapped : Regions s.proc.sz.toNat s.proc.sz2.toNat (s.proc.sz2.toNat / PGSIZE) :=
    Or.inr ⟨Nat.le_refl _, isUser⟩
  unfold growproc
  rw [Program.wp_bind, Program.wp_read, if_pos positive, target, if_neg (by omega), Program.wp_bind]
  refine Program.wp_mono (allocuvm_wp heap layout.space) ?_ (fun _ _ => trivial)
  intro size t allocated
  cases allocated with
  | tooLarge large => exact absurd large (by omega)
  | shrinks smaller => exact absurd smaller (by omega)
  | grown _ _ clear _ _ => exact absurd mapped (clear _ inside)
  | outOfMemory _ _ became _ =>
      rcases became with ⟨after, _, _, space⟩
      unfold setNewSize
      rw [if_pos rfl]
      refine ⟨rfl, fun same => ?_⟩
      have still := (layout.space.user _ isUser).mpr mapped
      rw [← same] at still
      exact ((space.user _ isUser).mp still).2 inside

/-- The sum of the size and a negative number. -/
theorem sizePlus_down {sz : UInt32} {n : Int32} (down : n.toInt < 0) :
    (0 ≤ sz.toNat + n.toInt -> (sizePlus sz n.toUInt32 : Int) = sz.toNat + n.toInt) ∧
      (sz.toNat + n.toInt < 0 -> sz.toNat ≤ sizePlus sz n.toUInt32) := by
  have signed := toInt_cond n
  have unsigned := n.toUInt32.toNat_lt
  have small := sz.toNat_lt
  unfold sizePlus
  split at signed <;> omega

/-- What `growproc` does with a negative number. -/
theorem growproc_down {image : Image} {s : Vm} {n : Int32} (down : n.toInt < 0) :
    growproc image n.toUInt32 s = (do
      let sz <- deallocuvm image s.proc.pgdir s.proc.sz.toNat (sizePlus s.proc.sz n.toUInt32)
      setNewSize sz : VmProgram Int) s := by
  have negative := (toInt_neg_iff n).mp down
  show (if 0 < n.toUInt32.toNat ∧ n.toUInt32.toNat < 2 ^ 31 then _ else _ : VmProgram Int) s = _
  rw [if_neg (by omega), if_pos negative]

/-- A negative number that leaves something of the process. -/
theorem growproc_shrinks {image : Image} {owner : Nat -> Role} {s : Vm} (heap : Heap image owner s)
    (layout : LaidOut owner s s.proc) {n : Int32} (down : n.toInt < 0)
    (remains : 0 < s.proc.sz.toNat + n.toInt) :
    Program.wp (growproc image n.toUInt32) (Settled s n) (fun _ => False) s := by
  have target := (@sizePlus_down s.proc.sz n down).1 (by omega)
  have low := layout.low
  unfold Program.wp
  rw [growproc_down down]
  generalize sizePlus s.proc.sz n.toUInt32 = newsz at target ⊢
  refine Program.wp_seq (deallocuvm_removed heap layout.space low) ?_
  rintro size t ⟨rfl, after, nextHeap, within, _, removed⟩
  rw [Nat.min_eq_right (by omega)]
  unfold setNewSize
  rw [if_neg (by omega)]
  have first : 1 ≤ ceilPage newsz := ceilPage_mono (show 1 ≤ newsz by omega)
  refine Or.inl ⟨rfl, resized_of (by omega) (by omega) within.proc (fun up => by omega)
    (fun _ => ?_) ?_⟩
  · exact removed.released (fun w inside =>
      layout.present (Nat.le_trans first inside.1) inside) heap nextHeap
  · exact ⟨removed.sameEntries.1, fun w below outside =>
      removed.entries w below (fun inside => outside (Or.inr inside))⟩

/-- A negative number that takes away everything unmaps everything and reports
failure. -/
theorem growproc_removes_all {image : Image} {owner : Nat -> Role} {s : Vm}
    (heap : Heap image owner s) (layout : LaidOut owner s s.proc) {n : Int32} (down : n.toInt < 0)
    (nothing : s.proc.sz.toNat + n.toInt = 0) :
    Program.wp (growproc image n.toUInt32)
      (fun result t =>
        result = -1 ∧ t.proc = s.proc ∧
        Exists fun after =>
          Heap image after t ∧ Removed owner s s.proc.pgdir (Between 0 s.proc.sz.toNat) after t)
      (fun _ => False) s := by
  have target : sizePlus s.proc.sz n.toUInt32 = 0 := by
    have sum := (@sizePlus_down s.proc.sz n down).1 (by omega)
    omega
  unfold Program.wp
  rw [growproc_down down, target]
  refine Program.wp_seq (deallocuvm_removed heap layout.space layout.low) ?_
  rintro size t ⟨rfl, after, nextHeap, within, _, removed⟩
  rw [Nat.min_zero]
  unfold setNewSize
  rw [if_pos rfl]
  exact ⟨rfl, within.proc, after, nextHeap, removed⟩

/-- A negative number below minus the size changes nothing and reports success. -/
theorem growproc_wraps {image : Image} {s : Vm} (nonempty : 0 < s.proc.sz.toNat) {n : Int32}
    (down : n.toInt < 0) (wraps : s.proc.sz.toNat + n.toInt < 0) :
    Program.wp (growproc image n.toUInt32)
      (fun result t => result = 0 ∧ t.proc.sz = s.proc.sz) (fun _ => False) s := by
  have grows := (@sizePlus_down s.proc.sz n down).2 wraps
  unfold Program.wp
  rw [growproc_down down, deallocuvm, if_pos grows]
  show Program.wp (setNewSize s.proc.sz.toNat) _ _ s
  unfold setNewSize
  rw [if_neg (by omega)]
  refine ⟨rfl, ?_⟩
  show UInt32.ofNat s.proc.sz.toNat = s.proc.sz
  exact UInt32.ofNat_toNat

/-! ## The condition -/

/-- What the program guarantees whenever it returns contradicts the two good ends. -/
theorem not_allOrNothing {image : Image} {s : Vm} {n : Int32} {post : Int -> Vm -> Prop}
    {escape : Panic -> Prop} (ends : Program.wp (growproc image n.toUInt32) post escape s)
    (wrong : forall result t, post result t -> ¬ Settled s n result t) :
    ¬ AllOrNothing image s n := by
  rintro ⟨result, t, returns, settled⟩
  exact wrong result t (Program.post_of_done ends returns) settled

/-- For every process with this layout and every number, `growproc` does all or
nothing exactly for the safe numbers. -/
theorem growproc_all_or_nothing_iff {image : Image} {owner : Nat -> Role} {s : Vm}
    (heap : Heap image owner s) (layout : LaidOut owner s s.proc) (n : Int32) :
    AllOrNothing image s n ↔ SbrkSafe s.proc n := by
  have nonempty := layout.nonempty
  constructor
  · intro settles
    refine ⟨fun up => ?_, fun down => ?_⟩
    · by_contra unsafe_
      rcases not_or.mp unsafe_ with ⟨limit, crosses⟩
      refine not_allOrNothing (growproc_cuts_stack heap layout up (by omega) (by omega)) ?_ settles
      rintro result t ⟨rfl, changed⟩ (⟨impossible, _⟩ | ⟨_, _, same, _⟩)
      · exact absurd impossible (by decide)
      · have page : s.proc.sz2.toNat / PGSIZE < 2 ^ 20 := by
          have small := s.proc.sz2.toNat_lt
          simp only [PGSIZE]
          omega
        exact changed (same.2 _ page id)
    · by_contra unsafe_
      rcases not_or.mp unsafe_ with ⟨remains, rest⟩
      by_cases nothing : s.proc.sz.toNat + n.toInt = 0
      · refine not_allOrNothing (growproc_removes_all heap layout down nothing) ?_ settles
        rintro result t ⟨rfl, _, after, _, removed⟩ (⟨impossible, _⟩ | ⟨_, _, same, _⟩)
        · exact absurd impossible (by decide)
        · have large : PGSIZE < s.proc.sz.toNat :=
            Nat.lt_of_not_le (fun small => rest ⟨nothing, small⟩)
          have inside : Between 0 s.proc.sz.toNat 1 :=
            ⟨by decide, by simp only [ceilPage, PGSIZE] at large ⊢; omega⟩
          have present := layout.present (Nat.le_refl 1) inside
          rw [← same.2 1 (by decide) id, removed.cleared 1 inside] at present
          exact not_present_zero present
      · refine not_allOrNothing (@growproc_wraps image s nonempty n down (by omega)) ?_ settles
        rintro result t ⟨rfl, size⟩ (⟨_, resized⟩ | ⟨impossible, _⟩)
        · have changed := resized.size
          rw [size] at changed
          omega
        · exact absurd impossible (by decide)
  · intro safe
    refine Program.exists_done_of_wp ?_
    rcases Int.lt_trichotomy n.toInt 0 with down | zero | up
    · rcases safe.down down with remains | ⟨nothing, small⟩
      · exact growproc_shrinks heap layout down remains
      · refine Program.wp_mono (growproc_removes_all heap layout down nothing) ?_ (fun _ => id)
        rintro result t ⟨rfl, proc, after, nextHeap, removed⟩
        refine Or.inr ⟨rfl, proc, removed.rolledBack (fun w inside => ?_) heap nextHeap⟩
        have upper : w < 1 := Nat.lt_of_lt_of_le inside.2 (ceilPage_mono small)
        rw [Nat.lt_one_iff.mp upper]
        exact layout.zero
    · exact growproc_zero heap layout zero
    · rcases safe.up up with limit | fits
      · exact growproc_refuses layout.low up limit
      · exact growproc_grows heap layout up fits

theorem grownStack_laidOut : LaidOut grownStackOwner grownStack grownStack.proc :=
  ⟨grownStack_space, by decide, by decide, by decide, by decide⟩

theorem growproc_all_or_nothing_iff_onePage : AllOrNothing smallKernel grownStack 4096 :=
  (growproc_all_or_nothing_iff grownStack_heap grownStack_laidOut 4096).mpr
    ⟨fun _ => Or.inr (by decide), fun down => absurd down (by decide)⟩

/-- Giving back more than there is succeeds and changes nothing. -/
theorem sbrk_below_zero : LaidOut grownStackOwner grownStack grownStack.proc ∧
    ¬ AllOrNothing smallKernel grownStack (-8192) := by
  refine ⟨grownStack_laidOut, not_allOrNothing (@growproc_wraps smallKernel grownStack
    (by decide) (-8192) (by decide) (by decide)) ?_⟩
  rintro result t ⟨rfl, size⟩ (⟨_, resized⟩ | ⟨impossible, _⟩)
  · have changed := resized.size
    rw [size] at changed
    exact absurd changed (by decide)
  · exact absurd impossible (by decide)

end AddressSpace
end OsProjects
