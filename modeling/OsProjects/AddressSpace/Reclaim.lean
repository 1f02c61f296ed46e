import OsProjects.AddressSpace.Balance

namespace OsProjects
namespace AddressSpace

open Machine

/-!
# What a failed call gives back

`fork` and `exec` build a new address space page by page.  Once `setupkvm` has
succeeded, every failure ends in `freevm`, and by counting, `freevm` returns all
that had been taken.  `setupkvm` itself returns without freeing anything when it
runs out of memory, so a failure inside it keeps every page that was left.
-/

/-! ## Loading -/

/-- Writing a page that is some user page keeps the mapping. -/
theorem Steady.store_user {owner : Nat -> Role} {s : Vm} {d e r v : Nat} {pages : Nat -> Prop}
    (space : Space owner s d pages) (role : owner r = .user e v) (contents : Page) :
    Steady d s (s.withPage r contents) := by
  have different : d ≠ r := by
    intro same
    rw [← same, space.dir.self] at role
    cases role
  have entries := (space.dir.kept (t := s.withPage r contents) (fun _ _ => rfl)
    (fun p structural => Vm.withPage_mem_of_ne _ _ (fun same => by
      rw [same, role] at structural
      rcases structural with self | ⟨i, table⟩
      · cases self
      · cases table))).2.2
  have same : forall w, w < USERPAGES -> pte (s.withPage r contents) d w = pte s d w :=
    fun w below => entries w (userpage_table below).2.2
  have users : userPages (s.withPage r contents) d = userPages s d :=
    userPages_congr (fun w below => by rw [same w below])
  refine ⟨Vm.withPage_mem_of_ne _ _ different, by rw [users, Vm.withPage_freelist], ?_⟩
  ext p
  rw [mem_pool, mem_pool, users, Vm.withPage_freelist]
  refine or_congr_right (exists_congr (fun w => and_congr_right (fun member => ?_)))
  rw [same w (mem_userPages.mp member).1]

theorem storeFile_steady {image : Image} {owner : Nat -> Role} {s : Vm} {d v : Nat}
    {pages source : Nat -> Prop} (loading : Loading image owner s d pages source)
    (isUser : v < USERPAGES) (m : Nat) (src : Nat -> UInt8) :
    Program.wp (storeFile (pte s d v) m src) (fun _ t => Steady d s t) (fun _ => True) s := by
  unfold storeFile
  by_cases empty : m = 0
  · rw [if_pos empty, Program.wp_pure]
    exact Steady.refl d s
  · rw [if_neg empty, Program.wp_bind, kernelPage]
    by_cases mapped : pages v
    · have present := (loading.space.user v isUser).mpr mapped
      have role := loading.space.dir.user v isUser present
      rw [if_pos (loading.heap.user_above (by rw [role]; exact Role.noConfusion)), Program.wp_pure,
        Program.wp_modify]
      exact Steady.store_user loading.space role _
    · rw [loading.space.zero v isUser mapped, if_neg (by decide), Program.wp_bind, Program.wp_read]
      by_cases zero : Present (pte s s.proc.pgdir (PTE_ADDR 0))
      · have role := loading.caller.dir.user 0 (by decide) zero
        rw [if_pos zero, Program.wp_pure, Program.wp_modify]
        exact Steady.store_user loading.space role _
      · rw [if_neg zero, Program.wp_stop]
        exact trivial

theorem loadPage_steady {image : Image} {owner : Nat -> Role} {s : Vm} {d a k : Nat}
    {pages source : Nat -> Prop} (loading : Loading image owner s d pages source)
    (isUser : a + k < USERPAGES) (ip : File) (offset sz : Nat) :
    Program.wp (loadPage d (a * PGSIZE) ip offset sz (k * PGSIZE)) (fun _ t => Steady d s t)
      (fun _ => True) s := by
  have address : a * PGSIZE + k * PGSIZE = (a + k) * PGSIZE := (Nat.add_mul a k PGSIZE).symm
  have table : Present (pde s d ((a + k) / 1024)) := by
    rw [(userpage_table isUser).1]
    exact loading.space.table
  unfold loadPage
  rw [address, Program.wp_bind]
  refine walkpgdir_user loading.space isUser false ?_
  rw [Program.wp_bind, Program.wp_read]
  cases delivered : ip.readi ((offset + k * PGSIZE) % 2 ^ 32) (chunkSize sz (k * PGSIZE)) with
  | none => exact Steady.refl d s
  | some m =>
      rw [← pte_of_present table, Program.wp_bind]
      exact storeFile_steady loading isUser m _

theorem loadPages_steady {image : Image} {d a : Nat} {pages source : Nat -> Prop} (ip : File)
    (offset sz count : Nat) :
    forall {owner : Nat -> Role} {s : Vm} {k : Nat}, Loading image owner s d pages source ->
      (count = 0 ∨ a + k + count ≤ USERPAGES) ->
      Program.wp (loadPages d (a * PGSIZE) ip offset sz count (k * PGSIZE))
        (fun _ t => Steady d s t) (fun _ => True) s := by
  induction count with
  | zero =>
      intro owner s k _ _
      rw [loadPages, Program.wp_pure]
      exact Steady.refl d s
  | succ count ih =>
      intro owner s k loading high
      have next : k * PGSIZE + PGSIZE = (k + 1) * PGSIZE := (Nat.succ_mul k PGSIZE).symm
      have isUser : a + k < USERPAGES := by omega
      rw [loadPages, next, Program.wp_bind]
      refine Program.wp_mono (wp_both (loadPage_wp loading isUser ip offset sz)
        (loadPage_steady loading isUser ip offset sz)) ?_ (fun _ _ => trivial)
      rintro ok t ⟨⟨_, during, sameList, space⟩, steady⟩
      cases ok with
      | false => exact steady
      | true =>
          refine Program.wp_mono (ih (loading.step during (loading.heap.congr sameList) space)
            (by omega)) ?_ (fun _ _ => trivial)
          intro _ u rest
          exact steady.trans rest

theorem loaduvm_steady {image : Image} {owner : Nat -> Role} {s : Vm} {d addr sz : Nat}
    {pages source : Nat -> Prop} (loading : Loading image owner s d pages source) (ip : File)
    (offset : Nat) (confined : sz = 0 ∨ addr + sz ≤ USERTOP) :
    Program.wp (loaduvm d addr ip offset sz) (fun _ t => Steady d s t) (fun _ => True) s := by
  unfold loaduvm
  by_cases aligned : addr % PGSIZE = 0
  · have pages := pagesBelow_eq 0 sz
    rw [Nat.zero_mul] at pages
    have count : ceilPage sz = 0 ∨ addr / PGSIZE + 0 + ceilPage sz ≤ USERPAGES := by
      simp only [ceilPage, PGSIZE, USERPAGES, USERTOP] at confined aligned ⊢
      omega
    have loads := loadPages_steady (k := 0) ip offset sz (ceilPage sz) loading count
    rw [Nat.div_mul_cancel (Nat.dvd_of_mod_eq_zero aligned), Nat.zero_mul] at loads
    rw [if_neg (not_not_intro aligned), pages, Nat.sub_zero]
    exact loads
  · rw [if_pos aligned, Program.wp_stop]
    exact trivial

theorem loadSegment_steady {image : Image} {owner : Nat -> Role} {s : Vm} {d sz : Nat}
    {pages source : Nat -> Prop} (loading : Loading image owner s d pages source) (ip : File)
    (ph : ProgHdr) (confined : ph.Confined) :
    Program.wp (loadSegment image d ip ph sz) (fun _ t => Steady d s t) (fun _ => True) s := by
  unfold loadSegment
  by_cases skipped : ph.type ≠ ELF_PROG_LOAD
  · rw [if_pos skipped, Program.wp_pure]
    exact Steady.refl d s
  · by_cases short : ph.memsz < ph.filesz
    · rw [if_neg skipped, if_pos short, Program.wp_pure]
      exact Steady.refl d s
    · rw [if_neg skipped, if_neg short, Program.wp_bind]
      refine Program.wp_mono (wp_both (allocuvm_wp loading.heap loading.space)
        (allocuvm_steady loading.heap loading.space)) ?_ (fun _ _ => trivial)
      rintro size t ⟨allocated, steady, _, _⟩
      have next : Exists fun after => Exists fun now => Loading image after t d now source := by
        cases allocated with
        | tooLarge | shrinks => exact ⟨owner, pages, loading⟩
        | grown _ _ _ became _ | outOfMemory _ _ became _ =>
            rcases became with ⟨after, heap, within, space⟩
            exact ⟨after, _, loading.step (within.during _) heap space⟩
      rcases next with ⟨after, now, nextLoading⟩
      unfold fillSegment
      by_cases failed : size = 0
      · rw [if_pos failed, Program.wp_pure]
        exact steady
      · rw [if_neg failed, Program.wp_bind]
        refine Program.wp_mono (loaduvm_steady nextLoading ip ph.offset
          (confined (not_not.mp skipped))) ?_ (fun _ _ => trivial)
        intro ok u filled
        cases ok <;> exact steady.trans filled

theorem loadSegments_steady {image : Image} {d : Nat} {source : Nat -> Prop} (ip : File)
    (count : Nat) :
    forall {owner : Nat -> Role} {s : Vm} {off sz : Nat},
      Loading image owner s d (ImagePages sz) source -> PGSIZE ≤ sz -> sz ≤ USERTOP ->
      ip.Confined count off ->
      Program.wp (loadSegments image d ip count off sz) (fun _ t => Steady d s t)
        (fun _ => True) s := by
  induction count with
  | zero =>
      intro owner s off sz _ _ _ _
      rw [loadSegments, Program.wp_pure]
      exact Steady.refl d s
  | succ count ih =>
      intro owner s off sz loading start low confined
      rw [loadSegments]
      by_cases unreadable : ip.readi off 32 ≠ some 32
      · rw [if_pos unreadable, Program.wp_pure]
        exact Steady.refl d s
      · rw [if_neg unreadable, Program.wp_bind]
        refine Program.wp_mono (wp_both (loadSegment_wp loading ip (ip.ph off) start low confined.1)
          (loadSegment_steady loading ip (ip.ph off) confined.1)) ?_ (fun _ _ => trivial)
        rintro result t ⟨⟨middle, now, during, next, outcome⟩, steady⟩
        cases result with
        | none => exact steady
        | some last =>
            rcases outcome with ⟨rfl, _, high, rfl, _⟩
            refine Program.wp_mono (ih next (Nat.le_trans start (ProgHdr.le_grow _ sz)) high
              confined.2) ?_ (fun _ _ => trivial)
            intro _ u rest
            exact steady.trans rest

/-! ## Copying the arguments -/

theorem copyoutLoop_steady {image : Image} {d : Nat} {pages : Nat -> Prop} {owner : Nat -> Role}
    (fuel : Nat) :
    forall {s : Vm} {va : Nat} {buf : List UInt8}, Heap image owner s -> Space owner s d pages ->
      va < 2 ^ 32 ->
      Program.wp (copyoutLoop d fuel va buf) (fun _ t => Steady d s t) (fun _ => True) s := by
  induction fuel with
  | zero =>
      intro s va buf _ _ _
      rw [copyoutLoop, Program.wp_pure]
      exact Steady.refl d s
  | succ fuel ih =>
      intro s va buf heap space low
      rw [copyoutLoop]
      by_cases done : buf = []
      · rw [if_pos done, Program.wp_pure]
        exact Steady.refl d s
      · have page : va / PGSIZE < 2 ^ 20 := by simp only [PGSIZE]; omega
        rw [if_neg done, Program.wp_bind]
        refine Program.wp_mono (uva2ka_wp space page) ?_ (fun _ _ => trivial)
        rintro pa t ⟨rfl, ⟨rfl, _⟩ | ⟨_, _, role⟩⟩
        · rw [if_pos rfl, Program.wp_pure]
          exact Steady.refl d t
        · have managed : owner pa ≠ .other := by rw [role]; exact Role.noConfusion
          rw [if_neg (Nat.ne_of_gt (heap.page_pos managed).1), Program.wp_bind, storeBytes_wp]
          refine Program.wp_mono (ih (heap.congr rfl) (space.store_user role _)
            (Nat.mod_lt _ (by decide))) ?_ (fun _ _ => trivial)
          intro _ u rest
          exact (Steady.store_user space role _).trans rest

theorem copyout_steady {image : Image} {owner : Nat -> Role} {s : Vm} {d va : Nat}
    {pages : Nat -> Prop} (heap : Heap image owner s) (space : Space owner s d pages)
    (low : va < 2 ^ 32) (buf : List UInt8) :
    Program.wp (copyout d va buf) (fun _ t => Steady d s t) (fun _ => True) s :=
  copyoutLoop_steady buf.length heap space low

theorem pushArguments_steady {image : Image} {owner : Nat -> Role} {d : Nat} {pages : Nat -> Prop}
    (argv : List Argument) :
    forall {s : Vm} (sp : Nat) (ustack : List Nat), Heap image owner s -> Space owner s d pages ->
      Program.wp (pushArguments d argv sp ustack) (fun _ t => Steady d s t) (fun _ => True) s := by
  induction argv with
  | nil =>
      intro s sp ustack _ _
      rw [pushArguments, Program.wp_pure]
      exact Steady.refl d s
  | cons arg rest ih =>
      intro s sp ustack heap space
      rw [pushArguments]
      by_cases many : MAXARG ≤ ustack.length
      · rw [if_pos many, Program.wp_pure]
        exact Steady.refl d s
      · have low : sub32 sp (arg.bytes.length + 1) / 4 * 4 < 2 ^ 32 :=
          Nat.lt_of_le_of_lt (Nat.div_mul_le_self _ 4) (sub32_lt _ _)
        rw [if_neg many, Program.wp_bind]
        refine Program.wp_mono (wp_both (copyout_wp heap space low (arg.bytes ++ [0]))
          (copyout_steady heap space low (arg.bytes ++ [0]))) ?_ (fun _ _ => trivial)
        rintro ok t ⟨⟨copied, _⟩, steady⟩
        cases ok with
        | false => exact steady
        | true =>
            refine Program.wp_mono (ih _ _ (heap.congr copied.2.1) copied.2.2) ?_
              (fun _ _ => trivial)
            intro _ u more
            exact steady.trans more

theorem copyArguments_steady {image : Image} {owner : Nat -> Role} {s : Vm} {d : Nat}
    {pages : Nat -> Prop} (heap : Heap image owner s) (space : Space owner s d pages)
    (newstack : Nat) (argv : List Argument) :
    Program.wp (copyArguments d newstack argv)
      (fun _ t => Steady d s t ∧ Copied owner s d pages t) (fun _ => True) s := by
  unfold copyArguments
  rw [Program.wp_bind]
  refine Program.wp_mono (wp_both (pushArguments_wp argv newstack [] heap space)
    (pushArguments_steady argv newstack [] heap space)) ?_ (fun _ _ => trivial)
  rintro result t ⟨⟨copied, _⟩, steady⟩
  cases result with
  | none => exact ⟨steady, copied⟩
  | some place =>
      rcases place with ⟨sp, addresses⟩
      have heapNow := heap.congr copied.2.1
      rw [Program.wp_bind]
      refine Program.wp_mono (wp_both (copyout_wp heapNow copied.2.2 (sub32_lt _ _) _)
        (copyout_steady heapNow copied.2.2 (sub32_lt _ _) _)) ?_ (fun _ _ => trivial)
      rintro ok u ⟨⟨restCopied, _⟩, more⟩
      cases ok <;> exact ⟨steady.trans more, copied.trans restCopied⟩

/-! ## Running out of memory in `setupkvm` -/

/-- A table cannot be found or made only when no page is free. -/
theorem walkpgdir_empty (pgdir a : Nat) (s : Vm) :
    Program.wp (walkpgdir pgdir a true) (fun found t => found = none -> t.freelist = [])
      (fun _ => True) s := by
  unfold walkpgdir
  rw [Program.wp_bind, Program.wp_read]
  split
  · exact nofun
  · rw [if_pos rfl, Program.wp_bind]
    refine kalloc_wp (fun empty _ => empty) (fun r rest head => ?_)
    exact nofun

theorem mapPages_empty (pgdir perm count : Nat) :
    forall (a pa : Nat) (s : Vm),
      Program.wp (mapPages pgdir perm count a pa) (fun ok t => ok = false -> t.freelist = [])
        (fun _ => True) s := by
  induction count with
  | zero =>
      intro a pa s
      rw [mapPages, Program.wp_pure]
      rintro ⟨⟩
  | succ count ih =>
      intro a pa s
      rw [mapPages]
      refine Program.wp_seq (walkpgdir_empty pgdir a s) ?_
      intro found t empty
      cases found with
      | none => exact fun _ => empty rfl
      | some place =>
          rcases place with ⟨pgtab, i⟩
          rw [Program.wp_bind, Program.wp_read]
          split
          · exact trivial
          · exact ih _ _ _

theorem mapKernel_empty (pgdir : Nat) (ranges : List (Nat × Nat × Nat)) :
    forall (s : Vm),
      Program.wp (mapKernel pgdir ranges) (fun result t => result = none -> t.freelist = [])
        (fun _ => True) s := by
  induction ranges with
  | nil =>
      intro s
      rw [mapKernel, Program.wp_pure]
      rintro ⟨⟩
  | cons k rest ih =>
      intro s
      rw [mapKernel, mapRange]
      refine Program.wp_seq (mapPages_empty _ _ _ _ _ s) ?_
      intro ok t empty
      cases ok with
      | false => exact fun _ => empty rfl
      | true => exact ih t

/-- A failed `setupkvm` has taken every free page. -/
theorem setupkvm_empty (image : Image) (s : Vm) :
    Program.wp (setupkvm image) (fun result t => result = none -> t.freelist = [])
      (fun _ => True) s := by
  unfold setupkvm
  rw [Program.wp_bind]
  refine kalloc_wp (fun empty _ => empty) (fun r rest head => ?_)
  rw [Program.wp_bind, storePage_wp]
  exact mapKernel_empty r (kmap image) _

/-- The free pages after a failure: all of them are back, unless it was
`setupkvm` that failed. -/
def Restored (s t : Vm) : Prop :=
  if 13 ≤ s.freelist.length then t.freelist.length = s.freelist.length else t.freelist = []

/-- Everything about `setupkvm` that the callers need. -/
theorem setupkvm_counted {image : Image} {owner : Nat -> Role}
    {s : Vm} (heap : Heap image owner s) :
    Program.wp (setupkvm image) (fun result t => Exists fun after => Exists fun d =>
      owner d ≠ .dir d ∧ Within d owner after s t ∧ Heap image after t ∧ match result with
        | none => Restored s t
        | some dir => dir = d ∧ Space after t d (fun _ => False) ∧ 13 ≤ s.freelist.length ∧
            t.freelist.length + weight t d = s.freelist.length ∧ tables t d = kernelTables)
      (fun _ => False) s := by
  refine Program.wp_mono (wp_both (setupkvm_tables heap) (setupkvm_empty image s)) ?_
    (fun _ stopped => stopped)
  rintro result t ⟨⟨after, d, notDir, within, nextHeap, outcome⟩, empty⟩
  refine ⟨after, d, notDir, within, nextHeap, ?_⟩
  cases result with
  | none =>
      have few : s.freelist.length < 13 := outcome
      show Restored s t
      rw [Restored, if_neg (Nat.not_le.mpr few)]
      exact empty rfl
  | some dir =>
      rcases outcome with ⟨isDir, _, space, sum, every⟩
      have noUser : userPages t d = ∅ := by
        apply Finset.eq_empty_of_forall_notMem
        intro v member
        rcases mem_userPages.mp member with ⟨below, present⟩
        exact (space.user v below).mp present
      refine ⟨isDir, space, by omega, ?_, every⟩
      rw [weight, noUser, every, kernelTables_card, Finset.card_empty]
      omega

/-- Giving up an address space that was built from free pages. -/
theorem freevm_restores {image : Image} {owner : Nat -> Role} {s t u : Vm} {d : Nat}
    {pages : Nat -> Prop} (heap : Heap image owner u) (space : Space owner u d pages)
    (enough : 13 ≤ s.freelist.length)
    (counted : t.freelist.length + weight t d = s.freelist.length) (steady : Steady d t u) :
    Program.wp (freevm image d) (fun _ w => Restored s w) (fun _ => False) u := by
  refine Program.wp_mono (freevm_length heap space) ?_ (fun _ stopped => stopped)
  intro _ w returned
  have balance := steady.weight
  rw [Restored, if_pos enough]
  omega

/-! ## Failures of `exec` -/

theorem bad_restores {image : Image} {owner : Nat -> Role} {s t u : Vm} {d : Nat}
    {pages : Nat -> Prop} (heap : Heap image owner u) (space : Space owner u d pages)
    (enough : 13 ≤ s.freelist.length)
    (counted : t.freelist.length + weight t d = s.freelist.length) (steady : Steady d t u) :
    Program.wp (bad image d) (fun result w => result = -1 -> Restored s w) (fun _ => True) u := by
  unfold bad
  refine Program.wp_seq (Program.wp_mono (freevm_restores heap space enough counted steady)
    (fun _ _ => id) (fun _ => False.elim)) ?_
  intro _ w restored _
  exact restored

/-- The specification that every program meets. -/
theorem wp_anything {Value : Type} (program : VmProgram Value) (s : Vm) :
    Program.wp program (fun _ _ => True) (fun _ => True) s := by
  unfold Program.wp
  split <;> exact trivial

theorem commit_returns (image : Image) (path : List UInt8) (pgdir sz entry sp : Nat) (s : Vm) :
    Program.wp (commit image path pgdir sz entry sp) (fun result _ => result = 0) (fun _ => True)
      s := by
  unfold commit
  rw [Program.wp_bind, Program.wp_read, Program.wp_bind, Program.wp_modify]
  exact Program.wp_seq (wp_anything _ _) (fun _ _ _ => rfl)

theorem execStack_restores {image : Image} {middle : Nat -> Role} {s t u : Vm} {d sz entry : Nat}
    {pages source : Nat -> Prop} (path : List UInt8) (argv : List Argument)
    (loading : Loading image middle u d pages source) (enough : 13 ≤ s.freelist.length)
    (counted : t.freelist.length + weight t d = s.freelist.length) (steady : Steady d t u) :
    Program.wp (execStack image path argv d sz entry)
      (fun result w => result = -1 -> Restored s w) (fun _ => True) u := by
  unfold execStack
  rw [Program.wp_bind]
  refine Program.wp_mono (wp_both (allocuvm_wp loading.heap loading.space)
    (allocuvm_steady loading.heap loading.space)) ?_ (fun _ _ => trivial)
  rintro newstack w ⟨allocated, grownSteady, _, _⟩
  have next : Exists fun after => Exists fun now => Heap image after w ∧ Space after w d now := by
    cases allocated with
    | tooLarge | shrinks => exact ⟨middle, pages, loading.heap, loading.space⟩
    | grown _ _ _ became _ | outOfMemory _ _ became _ =>
        rcases became with ⟨after, heap, _, space⟩
        exact ⟨after, _, heap, space⟩
  rcases next with ⟨after, now, heap, space⟩
  have whole := steady.trans grownSteady
  by_cases failed : newstack = 0
  · rw [if_pos failed]
    exact bad_restores heap space enough counted whole
  · rw [if_neg failed, Program.wp_bind, Program.wp_modify, Program.wp_bind]
    have moved : Steady d w { w with
      proc := { w.proc with sz2 := UInt32.ofNat (USERTOP - PGSIZE) } } := ⟨rfl, rfl, rfl⟩
    generalize isX : ({ w with
      proc := { w.proc with sz2 := UInt32.ofNat (USERTOP - PGSIZE) } } : Vm) = x at moved ⊢
    have sameX : x.mem = w.mem ∧ x.freelist = w.freelist := by
      rw [← isX]
      exact ⟨rfl, rfl⟩
    have heapX := heap.congr sameX.2
    refine Program.wp_mono (copyArguments_steady heapX (space.of_mem sameX.1) newstack argv) ?_
      (fun _ _ => trivial)
    rintro result y ⟨copySteady, _, sameList, copySpace⟩
    cases result with
    | none =>
        exact bad_restores (heapX.congr sameList) copySpace enough counted
          ((whole.trans moved).trans copySteady)
    | some sp =>
        refine Program.wp_mono (commit_returns image path d sz entry sp y) ?_ (fun _ _ => trivial)
        intro result z isZero isFailure
        exact absurd (isZero.symm.trans isFailure) (by decide)

theorem execImage_restores {image : Image} {owner : Nat -> Role} {s : Vm} {source : Nat -> Prop}
    (heap : Heap image owner s) (caller : Space owner s s.proc.pgdir source) {ip : File}
    (confined : ip.Confined ip.elf.phnum ip.elf.phoff) (argv : List Argument) (path : List UInt8) :
    Program.wp (execImage image ip path argv) (fun result t => result = -1 -> Restored s t)
      (fun _ => True) s := by
  unfold execImage
  rw [Program.wp_bind]
  refine Program.wp_mono (setupkvm_counted heap) ?_ (fun _ => False.elim)
  rintro result t ⟨middle, d, notDir, within, middleHeap, outcome⟩
  cases result with
  | none => exact fun _ => outcome
  | some dir =>
      rcases outcome with ⟨rfl, space, enough, counted, _⟩
      have different : dir ≠ s.proc.pgdir := by
        intro same
        rw [same] at notDir
        exact notDir caller.dir.self
      have callerKept := caller.framed within.framed (fun _ => Role.Of.untouched different)
      rw [← within.proc] at callerKept different
      have loading : Loading image middle t dir (ImagePages PGSIZE) source := by
        refine ⟨middleHeap, space.congr (fun v _ => ?_), callerKept, different⟩
        refine iff_of_false id (fun inside => ?_)
        exact absurd inside.2 (Nat.not_lt.mpr inside.1)
      rw [Program.wp_bind]
      refine Program.wp_mono (wp_both
        (loadSegments_wp ip _ loading (Nat.le_refl _) (by decide) confined)
        (loadSegments_steady ip _ loading (Nat.le_refl _) (by decide) confined)) ?_
        (fun _ _ => trivial)
      rintro result u ⟨⟨after, now, _, next, _⟩, steady⟩
      cases result with
      | none => exact bad_restores next.heap next.space enough counted steady
      | some size => exact execStack_restores path argv next enough counted steady

theorem exec_restores {image : Image} {owner : Nat -> Role} {s : Vm} {source : Nat -> Prop}
    (heap : Heap image owner s) (caller : Space owner s s.proc.pgdir source)
    {namei : List UInt8 -> Option File} {path : List UInt8} {ip : File}
    (found : namei path = some ip) (confined : ip.Confined ip.elf.phnum ip.elf.phoff)
    (argv : List Argument) :
    Program.wp (exec image namei path argv)
      (fun result t => result = -1 -> if ip.accepted = true then Restored s t else t = s)
      (fun _ => True) s := by
  unfold exec
  rw [found]
  by_cases accepted : ip.accepted = true
  · simp only [if_pos accepted]
    exact execImage_restores heap caller confined argv path
  · simp only [if_neg accepted]
    exact fun _ => rfl

/-! ## Failures of `fork` -/

/-- `copyuvm` for a parent with any pages. -/
theorem copyuvm_restores {image : Image} {owner : Nat -> Role} {s : Vm} {e : Nat}
    (bounded : s.proc.Bounded) (heap : Heap image owner s) :
    Program.wp (copyuvm image e s.proc.sz.toNat)
      (fun result t => Exists fun after => Exists fun d => owner d ≠ .dir d ∧
        Within d owner after s t ∧ Heap image after t ∧
        match result with
        | none => Restored s t
        | some dir => dir = d ∧ Exists fun now => Space after t d now)
      (fun _ => True) s := by
  unfold copyuvm
  rw [Program.wp_bind]
  refine Program.wp_mono (setupkvm_counted heap) ?_ (fun _ => False.elim)
  rintro result t ⟨middle, d, notDir, within, middleHeap, outcome⟩
  cases result with
  | none => exact ⟨middle, d, notDir, within, middleHeap, outcome⟩
  | some dir =>
      rcases outcome with ⟨rfl, space, enough, counted, _⟩
      rw [← within.proc] at bounded ⊢
      refine Program.wp_seq (copyRegions_steady bounded middleHeap space) ?_
      rintro ok u ⟨steady, now, after, copyHeap, copyWithin, copySpace⟩
      have both := within.trans copyWithin
      cases ok with
      | true => exact ⟨after, dir, notDir, both, copyHeap, rfl, now, copySpace⟩
      | false =>
          rw [if_neg Bool.false_ne_true, Program.wp_bind]
          refine Program.wp_mono (wp_both (freevm_wp copyHeap copySpace)
            (freevm_restores copyHeap copySpace enough counted steady)) ?_ (fun _ _ => trivial)
          rintro _ w ⟨⟨last, lastHeap, lastWithin, _⟩, restored⟩
          exact ⟨last, dir, notDir, both.trans lastWithin, lastHeap, restored⟩

/-- With how many free pages a `fork` that fails gives all of them back. -/
def ForkBalanced (free : Nat) : Prop := free ≤ 1 ∨ 14 ≤ free

/-- `fork` for a parent with any pages. -/
theorem fork_restores {image : Image} {owner : Nat -> Role} {s : Vm}
    (bounded : s.proc.Bounded) (heap : Heap image owner s) :
    Program.wp (fork image)
      (fun result t => Exists fun after => Exists fun d => owner d ≠ .dir d ∧ Heap image after t ∧
        Framed (fun r => r = .free ∨ r.Of d) owner after s t ∧ t.proc = s.proc ∧
        match result with
        | none => t.freelist.length = s.freelist.length ↔ ForkBalanced s.freelist.length
        | some (child, kstack) => child.pgdir = d ∧ child.sz = s.proc.sz ∧ child.sz2 = s.proc.sz2 ∧
            (Exists fun now => Space after t d now) ∧ after kstack = .kernel ∧ owner kstack = .free)
      (fun _ => True) s := by
  unfold fork
  rw [Program.wp_bind]
  refine kalloc_wp (fun empty => ?_) (fun kstack rest head => ?_)
  · rw [Program.wp_pure]
    refine ⟨owner, 0, heap.zero_not_dir, heap, Framed.refl _ _ _, rfl, ?_⟩
    refine iff_of_true rfl (Or.inl ?_)
    rw [empty]
    exact Nat.zero_le 1
  · have isFree : owner kstack = .free :=
      (heap.free kstack).mp (by rw [head]; exact List.mem_cons_self)
    have taken := Framed.take isFree .kernel s rest
    have count : s.freelist.length = rest.length + 1 := by rw [head, List.length_cons]
    have takenHeap : Heap image
        (Function.update owner kstack .kernel) { s with freelist := rest } :=
      heap.take head Role.noConfusion _ _
    rw [Program.wp_bind, Program.wp_read]
    refine Program.wp_seq (copyuvm_restores bounded takenHeap) ?_
    rintro result t ⟨middle, d, notDir, within, middleHeap, outcome⟩
    have ownerDir : owner d ≠ .dir d := by
      intro isDir
      refine notDir ?_
      rw [Function.update_of_ne, isDir]
      intro same
      rw [same, isFree] at isDir
      cases isDir
    have isKernel : middle kstack = .kernel := by
      rw [within.framed.role kstack, Function.update_self]
      rw [Function.update_self]
      rintro (impossible | impossible)
      · cases impossible
      · exact impossible
    have framed := (taken.mono (fun r isFree => Or.inl isFree)).trans within.framed
    cases result with
    | none =>
        have managed : middle kstack ≠ .other := by rw [isKernel]; exact Role.noConfusion
        have used : middle kstack ≠ .free := by rw [isKernel]; exact Role.noConfusion
        rw [Program.wp_bind]
        refine kfree_wp middleHeap managed ⟨Function.update middle kstack .free, d, ownerDir,
          middleHeap.give used managed _ _, ⟨fun p untouched => ?_, fun p untouched => ?_⟩,
          within.proc, ?_⟩
        · have different : p ≠ kstack := fun same => untouched (Or.inl (by rw [same]; exact isFree))
          rw [Function.update_of_ne different]
          exact framed.role p untouched
        · have different : p ≠ kstack := fun same => untouched (Or.inl (by rw [same]; exact isFree))
          exact (Vm.withPage_mem_of_ne _ _ different).trans (framed.contents p untouched)
        · have restored : Restored { s with freelist := rest } t := outcome
          unfold Restored at restored
          show (kstack :: t.freelist).length = s.freelist.length ↔ ForkBalanced s.freelist.length
          rw [List.length_cons, count, ForkBalanced]
          by_cases enough : 13 ≤ rest.length
          · rw [if_pos enough] at restored
            exact iff_of_true (by rw [restored]) (Or.inr (by omega))
          · rw [if_neg enough] at restored
            rw [restored, List.length_nil]
            omega
    | some dir =>
        rcases outcome with ⟨rfl, now, space⟩
        exact ⟨middle, dir, ownerDir, middleHeap, framed, within.proc, rfl, rfl, rfl, ⟨now, space⟩,
          isKernel, isFree⟩

end AddressSpace
end OsProjects
