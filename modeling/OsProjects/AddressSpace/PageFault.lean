import OsProjects.AddressSpace.SoundImage

namespace OsProjects
namespace AddressSpace

open Machine

/-!
# Page faults

A page fault in user mode on a page that is not present is taken for a stack that
needs another page.  The handler looks at the error code and at the two boundaries,
but never at the address that has faulted, so it also extends the stack for a null
pointer, for an address in the middle of the gap and for one in the kernel.

Nothing is assumed about which pages are mapped: earlier calls that failed may have
removed pages of the heap and of the stack.
-/

/-- `trap` with trap number 14.  `user` says that the fault comes from user mode. -/
def trapPageFault (image : Image) (err : UInt32) (user : Bool) : VmProgram Unit :=
  if err = 6 ∨ err = 4 then pageFault image
  else if user = false then Program.stop .trap
  else Program.modify (fun s => { s with proc := s.proc.withKilled })

/-- The fault at the address `a` has been handled: the process is to exit or can use
the page now, and the stack grows only into the page below it. -/
def FaultHandled (image : Image) (s : Vm) (err a : UInt32) : Prop :=
  Exists fun t => trapPageFault image err true s = .done ⟨⟩ t ∧
    (t.proc.killed = true ∨ UserPage t t.proc.pgdir (a.toNat / PGSIZE)) ∧
    (t.proc.sz2 ≠ s.proc.sz2 -> a.toNat / PGSIZE + 1 = s.proc.sz2.toNat / PGSIZE)

/-- There is room between heap and stack. -/
def Proc.Room (p : Proc) : Prop := p.sz.toNat + 2 * PGSIZE < p.sz2.toNat

instance (p : Proc) : Decidable p.Room := inferInstanceAs (Decidable (_ < _))

/-- The addresses on which the handler is right: the page directly below the stack,
and any address if the stack cannot be extended anyway. -/
def FaultSafe (s : Vm) (a : UInt32) : Prop :=
  s.proc.Room -> s.freelist ≠ [] -> a.toNat / PGSIZE + 1 = s.proc.sz2.toNat / PGSIZE

/-! ## The two ends of the handler -/

/-- The test of the handler does not wrap around. -/
theorem Proc.Bounded.room {p : Proc} (bounded : p.Bounded) :
    (p.sz.toNat + 2 * PGSIZE) % 2 ^ 32 < p.sz2.toNat ↔ p.Room := by
  have low := bounded.low
  have noWrap : (p.sz.toNat + 2 * PGSIZE) % 2 ^ 32 = p.sz.toNat + 2 * PGSIZE := by
    simp only [PGSIZE, USERTOP] at low ⊢
    omega
  rw [noWrap]
  exact Iff.rfl

/-- The page below the stack. -/
theorem Proc.Bounded.below {p : Proc} (bounded : p.Bounded) (room : p.Room) :
    sub32 p.sz2.toNat PGSIZE + PGSIZE = p.sz2.toNat ∧
      ceilPage p.sz2.toNat = ceilPage (sub32 p.sz2.toNat PGSIZE) + 1 ∧
      ceilPage (sub32 p.sz2.toNat PGSIZE) + 1 = p.sz2.toNat / PGSIZE := by
  have aligned := bounded.aligned
  have high := bounded.high
  unfold Proc.Room at room
  simp only [sub32, ceilPage, PGSIZE, USERTOP] at room aligned high ⊢
  omega

theorem Proc.withSz2_pgdir (p : Proc) (sz2 : UInt32) : (p.withSz2 sz2).pgdir = p.pgdir := rfl

/-- Without memory `allocuvm` fails before it looks at the page table. -/
theorem allocuvm_empty {image : Image} {owner : Nat -> Role} {s : Vm} {d oldsz newsz : Nat}
    {pages : Nat -> Prop} (heap : Heap image owner s) (space : Space owner s d pages)
    (low : newsz ≤ USERTOP) (single : ceilPage newsz = ceilPage oldsz + 1)
    (grows : oldsz ≤ newsz) (empty : s.freelist = []) :
    Program.wp (allocuvm image d oldsz newsz) (fun result t => result = 0 ∧ t.proc = s.proc)
      (fun _ => False) s := by
  have count : ceilPage newsz - ceilPage oldsz = 0 + 1 := by omega
  unfold allocuvm
  rw [if_neg (Nat.not_lt.mpr low), if_neg (Nat.not_lt.mpr grows),
    PGROUNDUP_eq (Nat.le_trans grows low), pagesBelow_eq, count, allocPages, allocPage]
  simp only [Program.wp_bind]
  refine kalloc_wp (fun _ => ?_) (fun r rest head => ?_)
  · rw [Program.wp_pure, if_neg Bool.false_ne_true]
    refine Program.wp_seq (deallocuvm_wp heap space low) ?_
    rintro _ t ⟨_, ⟨_, _, within, _⟩, _⟩
    exact ⟨rfl, within.proc⟩
  · rw [empty] at head
    cases head

/-- The process is to exit if the stack cannot be extended. -/
theorem pageFault_kills {image : Image} {owner : Nat -> Role} {s : Vm} {pages : Nat -> Prop}
    (heap : Heap image owner s) (space : Space owner s s.proc.pgdir pages)
    (bounded : s.proc.Bounded) (stuck : ¬ s.proc.Room ∨ s.freelist = []) :
    Program.wp (pageFault image) (fun _ t => t.proc = s.proc.withKilled) (fun _ => False) s := by
  unfold pageFault
  rw [Program.wp_bind, Program.wp_read]
  by_cases room : s.proc.Room
  · rcases bounded.below room with ⟨below, single, _⟩
    have empty := stuck.resolve_left (not_not_intro room)
    rw [if_pos (bounded.room.mpr room)]
    refine Program.wp_seq (allocuvm_empty heap space bounded.high single (by omega) empty) ?_
    rintro _ t ⟨rfl, proc⟩
    rw [moveStack, if_neg (not_not_intro rfl), Program.wp_modify]
    exact congrArg Proc.withKilled proc
  · rw [if_neg (mt bounded.room.mp room), moveStack, if_neg (not_not_intro rfl), Program.wp_modify]

/-- Otherwise the stack gets the page below it, or the kernel panics because that
page is mapped. -/
theorem pageFault_extends {image : Image} {owner : Nat -> Role} {s : Vm} {pages : Nat -> Prop}
    (heap : Heap image owner s) (space : Space owner s s.proc.pgdir pages)
    (bounded : s.proc.Bounded) (room : s.proc.Room) (memory : s.freelist ≠ []) :
    Program.wp (pageFault image)
      (fun _ t => t.proc.sz2 ≠ s.proc.sz2 ∧ t.proc.pgdir = s.proc.pgdir ∧
        forall v, v + 1 = s.proc.sz2.toNat / PGSIZE -> UserPage t s.proc.pgdir v)
      (fun _ => Exists fun v => v + 1 = s.proc.sz2.toNat / PGSIZE ∧
        Present (pte s s.proc.pgdir v)) s := by
  rcases bounded.below room with ⟨below, single, last⟩
  have high := bounded.high
  have isUser : forall v, v + 1 = s.proc.sz2.toNat / PGSIZE -> v < USERPAGES := by
    intro v isLast
    simp only [USERPAGES, USERTOP, PGSIZE] at high isLast ⊢
    omega
  unfold pageFault
  rw [Program.wp_bind, Program.wp_read, if_pos (bounded.room.mpr room), Program.wp_bind]
  generalize start : sub32 s.proc.sz2.toNat PGSIZE = lower at below single last ⊢
  refine Program.wp_mono (allocuvm_wp heap space) ?_ ?_
  · intro size t allocated
    cases allocated with
    | tooLarge large => exact absurd large (Nat.not_lt.mpr high)
    | shrinks smaller => exact absurd smaller (by omega)
    | outOfMemory _ _ _ few =>
        exact absurd (List.length_eq_zero_iff.mp (by omega)) memory
    | grown _ _ _ became _ =>
        rcases became with ⟨after, _, within, now⟩
        have size : (UInt32.ofNat lower).toNat = lower := toNat_ofNat_of_le (by omega)
        have positive : s.proc.sz2.toNat ≠ 0 := Nat.ne_of_gt (Nat.zero_lt_of_lt room)
        rw [moveStack, if_pos positive, Program.wp_modify, within.proc, start]
        generalize UInt32.ofNat lower = sz2 at size ⊢
        refine ⟨fun same => ?_, Proc.withSz2_pgdir _ _, fun v isLast => ?_⟩
        · have value := congrArg UInt32.toNat same
          rw [Proc.withSz2_sz2, size] at value
          simp only [PGSIZE] at below
          omega
        · exact (now.of_mem rfl).userPage (isUser v isLast) (Or.inr ⟨by omega, by omega⟩)
  · rintro reason ⟨_, _, w, ⟨atLeast, under⟩, mapped⟩
    have isLast : w + 1 = s.proc.sz2.toNat / PGSIZE := by omega
    exact ⟨w, isLast, (space.user w (isUser w isLast)).mpr mapped⟩

/-- For every process, whatever it has mapped, and every user fault on a page that
is not present, the handler is right exactly when the fault is in the page below the
stack or the stack cannot be extended. -/
theorem fault_handled_iff {image : Image} {owner : Nat -> Role} {s : Vm} {pages : Nat -> Prop}
    (heap : Heap image owner s) (space : Space owner s s.proc.pgdir pages)
    (bounded : s.proc.Bounded) {err : UInt32} (user : err = 6 ∨ err = 4) (a : UInt32)
    (absent : ¬ Present (pte s s.proc.pgdir (a.toNat / PGSIZE))) :
    FaultHandled image s err a ↔ FaultSafe s a := by
  have handler : trapPageFault image err true = pageFault image := if_pos user
  unfold FaultHandled
  rw [handler]
  constructor
  · rintro ⟨t, returns, _, onlyBelow⟩ room memory
    exact onlyBelow
      (Program.post_of_done (pageFault_extends heap space bounded room memory) returns).1
  · intro safe
    by_cases extends_ : s.proc.Room ∧ s.freelist ≠ []
    · have isLast := safe extends_.1 extends_.2
      have extended := pageFault_extends heap space bounded extends_.1 extends_.2
      have noPanic : forall reason : Panic, (Exists fun v => v + 1 = s.proc.sz2.toNat / PGSIZE ∧
          Present (pte s s.proc.pgdir v)) -> False := by
        rintro _ ⟨v, alsoLast, present⟩
        have same : v = a.toNat / PGSIZE := by omega
        exact absent (same ▸ present)
      rcases Program.exists_done_of_wp (Program.wp_mono extended (fun _ _ => id) noPanic) with
        ⟨_, t, returns, _, pgdir, usable⟩
      refine ⟨t, returns, Or.inr ?_, fun _ => isLast⟩
      rw [pgdir]
      exact usable _ isLast
    · have stuck : ¬ s.proc.Room ∨ s.freelist = [] :=
        (Classical.not_and_iff_not_or_not.mp extends_).imp_right not_not.mp
      rcases Program.exists_done_of_wp (pageFault_kills heap space bounded stuck) with
        ⟨_, t, returns, proc⟩
      refine ⟨t, returns, ?_, ?_⟩
      · rw [proc]
        exact Or.inl rfl
      · rw [proc]
        exact fun changed => absurd rfl changed

theorem grownStack_bounded : grownStack.proc.Bounded := by
  constructor <;> decide

theorem fault_handled_iff_belowStack : FaultHandled smallKernel grownStack 6 0x9DFF0 := by
  refine (fault_handled_iff grownStack_heap grownStack_space grownStack_bounded (Or.inl rfl)
    0x9DFF0 (grownStack_absent (by decide))).mpr (fun _ _ => ?_)
  show 0x9DFF0 / PGSIZE + 1 = 0x9E000 / PGSIZE
  decide

/-- A null pointer gets the stack another page. -/
theorem null_pointer_extends_stack :
    ¬ Present (pte grownStack grownStack.proc.pgdir 0) ∧
    ¬ FaultHandled smallKernel grownStack 4 0 := by
  refine ⟨grownStack_absent (by decide), ?_⟩
  rintro ⟨t, returns, _, onlyBelow⟩
  have handler : trapPageFault smallKernel 4 true = pageFault smallKernel := if_pos (Or.inr rfl)
  rw [handler] at returns
  have extended := pageFault_extends grownStack_heap grownStack_space grownStack_bounded
    (by decide +kernel) (List.cons_ne_nil _ _)
  have notBelow : (0 : UInt32).toNat / PGSIZE + 1 ≠ grownStack.proc.sz2.toNat / PGSIZE := by
    show 0 / PGSIZE + 1 ≠ 0x9E000 / PGSIZE
    decide
  exact notBelow (onlyBelow (Program.post_of_done extended returns).1)

end AddressSpace
end OsProjects
