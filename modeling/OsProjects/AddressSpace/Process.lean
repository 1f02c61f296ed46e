import OsProjects.AddressSpace.ExecOutcome

namespace OsProjects
namespace AddressSpace

open Machine

/-!
# Operations on the running process

`growproc` moves the end of the heap, the page fault handler moves the start of
the stack, and `fork` copies both regions.  `Process` is the layout that they are
meant to keep: at least one unmapped page lies between heap and stack.
-/

/-- The process with another end of the heap. -/
def Proc.withSz (p : Proc) (sz : UInt32) : Proc := { p with sz := sz }

@[simp] theorem Proc.withSz_sz (p : Proc) (sz : UInt32) : (p.withSz sz).sz = sz := rfl

@[simp] theorem Proc.withSz_sz2 (p : Proc) (sz : UInt32) : (p.withSz sz).sz2 = p.sz2 := rfl

/-- The process with another start of the stack. -/
def Proc.withSz2 (p : Proc) (sz2 : UInt32) : Proc := { p with sz2 := sz2 }

@[simp] theorem Proc.withSz2_sz (p : Proc) (sz2 : UInt32) : (p.withSz2 sz2).sz = p.sz := rfl

@[simp] theorem Proc.withSz2_sz2 (p : Proc) (sz2 : UInt32) : (p.withSz2 sz2).sz2 = sz2 := rfl

/-- The process that is to exit. -/
def Proc.withKilled (p : Proc) : Proc := { p with killed := true }

/-- Set the size of the running process and return 0. -/
def setSize (sz : Nat) : VmProgram Int := do
  Program.modify (fun s => { s with proc := s.proc.withSz (UInt32.ofNat sz) })
  pure 0

/-- Set the size that `allocuvm` or `deallocuvm` has returned, unless it is 0. -/
def setNewSize (sz : Nat) : VmProgram Int := if sz = 0 then pure (-1) else setSize sz

/-- The sum of an unsigned size and a signed 32-bit number, which is given by its
representation. -/
def sizePlus (sz n : UInt32) : Nat := (sz.toNat + n.toNat) % 2 ^ 32

/-- Grow the memory of the running process by the signed number `n`. -/
def growproc (image : Image) (n : UInt32) : VmProgram Int := do
  let p <- Program.read (fun s => s.proc)
  if 0 < n.toNat ∧ n.toNat < 2 ^ 31 then
    if USERTOP - 2 * PGSIZE < sizePlus p.sz n then pure (-1)
    else do
      let sz <- allocuvm image p.pgdir p.sz.toNat (sizePlus p.sz n)
      setNewSize sz
  else if 2 ^ 31 ≤ n.toNat then do
    let sz <- deallocuvm image p.pgdir p.sz.toNat (sizePlus p.sz n)
    setNewSize sz
  else setSize p.sz.toNat

/-- The end of the page fault handler, with the result of `allocuvm`. -/
def moveStack (sz : Nat) : VmProgram Unit :=
  if sz ≠ 0 then Program.modify (fun s => { s with
    proc := s.proc.withSz2 (UInt32.ofNat (sub32 s.proc.sz2.toNat PGSIZE)) })
  else Program.modify (fun s => { s with proc := s.proc.withKilled })

/-- A page fault in user mode. -/
def pageFault (image : Image) : VmProgram Unit := do
  let p <- Program.read (fun s => s.proc)
  if (p.sz.toNat + 2 * PGSIZE) % 2 ^ 32 < p.sz2.toNat then do
    let sz <- allocuvm image p.pgdir (sub32 p.sz2.toNat PGSIZE) p.sz2.toNat
    moveStack sz
  else moveStack 0

/-- Create a copy of the running process.  The second component is the page of
its kernel stack. -/
def fork (image : Image) : VmProgram (Option (Proc × Nat)) := do
  match <- kalloc with
  | none => pure none
  | some kstack => do
      let p <- Program.read (fun s => s.proc)
      match <- copyuvm image p.pgdir p.sz.toNat with
      | none => do
          kfree image kstack
          pure none
      | some d => pure (some ({ p with pgdir := d, killed := false }, kstack))

/-- The layout of a process that has completed an `exec`. -/
structure Process (owner : Nat -> Role) (s : Vm) (p : Proc) : Prop where
  space : Space owner s p.pgdir (Regions p.sz.toNat p.sz2.toNat)
  nonempty : 0 < p.sz.toNat
  aligned : p.sz2.toNat % PGSIZE = 0
  gap : ceilPage p.sz.toNat + 1 ≤ p.sz2.toNat / PGSIZE
  high : p.sz2.toNat ≤ USERTOP - PGSIZE

theorem Process.framed {touches : Role -> Prop} {owner after : Nat -> Role} {s t : Vm} {p : Proc}
    (process : Process owner s p) (framed : Framed touches owner after s t)
    (untouched : forall r, r.Of p.pgdir -> ¬ touches r) : Process after t p :=
  ⟨process.space.framed framed untouched, process.nonempty, process.aligned, process.gap,
    process.high⟩

theorem Process.stack_pages {owner : Nat -> Role} {s : Vm} {p : Proc}
    (process : Process owner s p) :
    1 ≤ ceilPage p.sz.toNat ∧ p.sz2.toNat / PGSIZE + 1 ≤ USERPAGES ∧ p.sz.toNat ≤ USERTOP := by
  have nonempty := process.nonempty
  have gap := process.gap
  have high := process.high
  simp only [ceilPage, PGSIZE, USERPAGES, USERTOP] at gap high ⊢
  omega

theorem toNat_ofNat_of_le {sz : Nat} (low : sz ≤ USERTOP) : (UInt32.ofNat sz).toNat = sz := by
  rw [UInt32.toNat_ofNat']
  simp only [USERTOP] at low
  omega

theorem setNewSize_wp {sz : Nat} {s : Vm} {post : Int -> Vm -> Prop} {escape : Panic -> Prop}
    (failed : post (-1) s)
    (done : sz ≠ 0 -> post 0 { s with proc := s.proc.withSz (UInt32.ofNat sz) }) :
    Program.wp (setNewSize sz) post escape s := by
  unfold setNewSize
  by_cases zero : sz = 0
  · rw [if_pos zero]
    exact failed
  · rw [if_neg zero]
    exact done zero

/-- What an operation on the running process leaves behind when it returns 0. -/
def Moved (image : Image) (owner : Nat -> Role) (s : Vm) (t : Vm) : Prop :=
  Exists fun after => Heap image after t ∧
    Framed (fun r => r = .free ∨ r.Of s.proc.pgdir) owner after s t ∧
    Process after t t.proc ∧ t.proc.pgdir = s.proc.pgdir

/-- Moving the end of the heap to `sz`, after the pages have been changed. -/
theorem Process.resize {image : Image} {owner : Nat -> Role} {s t : Vm} {sz : Nat}
    (process : Process owner s s.proc) (nonempty : sz ≠ 0)
    (gap : ceilPage sz + 1 ≤ s.proc.sz2.toNat / PGSIZE) (low : sz ≤ USERTOP)
    (became : Became image owner s s.proc.pgdir (Regions sz s.proc.sz2.toNat) t) :
    Moved image owner s { t with proc := t.proc.withSz (UInt32.ofNat sz) } := by
  rcases became with ⟨after, heap, within, space⟩
  have size := toNat_ofNat_of_le low
  refine ⟨after, heap.congr rfl, ⟨within.framed.role, within.framed.contents⟩, ?_, ?_⟩
  · rw [within.proc]
    refine ⟨?_, ?_, process.aligned, ?_, process.high⟩
    · show Space after _ s.proc.pgdir (Regions (UInt32.ofNat sz).toNat s.proc.sz2.toNat)
      rw [size]
      exact space.of_mem rfl
    · show 0 < (UInt32.ofNat sz).toNat
      omega
    · show ceilPage (UInt32.ofNat sz).toNat + 1 ≤ s.proc.sz2.toNat / PGSIZE
      rw [size]
      exact gap
  · show t.proc.pgdir = s.proc.pgdir
    rw [within.proc]

/-! ## The operations keep the layout -/

/-- Growing the heap by whole free pages below the stack. -/
theorem regions_grow {sz newsz sz2 : Nat} (first : 1 ≤ ceilPage sz) (grows : sz ≤ newsz) (v : Nat) :
    Regions sz sz2 v ∨ Between sz newsz v ↔ Regions newsz sz2 v := by
  have order := ceilPage_mono grows
  simp only [Regions, Between]
  omega

theorem regions_shrink {sz newsz sz2 : Nat} (apart : ceilPage sz ≤ sz2 / PGSIZE) (v : Nat) :
    Regions sz sz2 v ∧ ¬ Between newsz sz v ↔ Regions (min sz newsz) sz2 v := by
  rcases Nat.le_total sz newsz with larger | smaller
  · have order := ceilPage_mono larger
    rw [Nat.min_eq_left larger]
    simp only [Regions, Between]
    omega
  · have order := ceilPage_mono smaller
    rw [Nat.min_eq_right smaller]
    simp only [Regions, Between]
    omega

/-- A positive `growproc` that stays below the stack. -/
theorem growproc_up_wp {image : Image} {owner : Nat -> Role} {s : Vm} {n : UInt32}
    (heap : Heap image owner s) (process : Process owner s s.proc)
    (positive : 0 < n.toNat ∧ n.toNat < 2 ^ 31)
    (below : ceilPage (s.proc.sz.toNat + n.toNat) ≤ s.proc.sz2.toNat / PGSIZE) :
    Program.wp (growproc image n)
      (fun result t => (result = 0 ∧
          Became image owner s s.proc.pgdir
            (Regions (s.proc.sz.toNat + n.toNat) s.proc.sz2.toNat) { t with proc := s.proc } ∧
          t.proc = s.proc.withSz (UInt32.ofNat (s.proc.sz.toNat + n.toNat))) ∨
        (result = -1 ∧ (USERTOP - 2 * PGSIZE < s.proc.sz.toNat + n.toNat ∨
          s.freelist.length < ceilPage (s.proc.sz.toNat + n.toNat))))
      (fun _ => False) s := by
  rcases process.stack_pages with ⟨first, last, low⟩
  have small := s.proc.sz.toNat_lt
  have target : sizePlus s.proc.sz n = s.proc.sz.toNat + n.toNat := by
    simp only [sizePlus, USERTOP] at low ⊢
    omega
  unfold growproc
  rw [Program.wp_bind, Program.wp_read, if_pos positive, target]
  by_cases high : USERTOP - 2 * PGSIZE < s.proc.sz.toNat + n.toNat
  · rw [if_pos high, Program.wp_pure]
    exact Or.inr ⟨rfl, Or.inl high⟩
  · rw [if_neg high, Program.wp_bind]
    refine Program.wp_mono (allocuvm_wp heap process.space) ?_ ?_
    · intro sz t allocated
      cases allocated with
      | tooLarge large => exact absurd large (by omega)
      | shrinks smaller => exact absurd smaller (by omega)
      | outOfMemory _ _ _ few =>
          refine setNewSize_wp (Or.inr ⟨rfl, Or.inr ?_⟩) (fun nonzero => absurd rfl nonzero)
          omega
      | grown _ larger _ became _ =>
          rcases became with ⟨after, newHeap, within, space⟩
          unfold setNewSize
          rw [if_neg (by omega)]
          refine Or.inl ⟨rfl, ⟨after, newHeap.congr rfl, ⟨⟨within.framed.role,
            within.framed.contents⟩, rfl⟩, ?_⟩, ?_⟩
          · exact (space.congr (fun v _ => regions_grow first larger v)).of_mem rfl
          · show t.proc.withSz (UInt32.ofNat (s.proc.sz.toNat + n.toNat)) = _
            rw [within.proc]
    · rintro reason ⟨_, _, w, between, mapped⟩
      have lower := between.1
      have upper := between.2
      rcases mapped with heapPage | stackPage
      · omega
      · omega

/-- Every `growproc` that returns 0 keeps the layout, if a positive one leaves a
page between heap and stack. -/
theorem growproc_wp {image : Image} {owner : Nat -> Role} {s : Vm} {n : UInt32}
    (heap : Heap image owner s) (process : Process owner s s.proc)
    (guarded : 0 < n.toNat -> n.toNat < 2 ^ 31 ->
      s.proc.sz.toNat + n.toNat + PGSIZE ≤ s.proc.sz2.toNat) :
    Program.wp (growproc image n) (fun result t => result = 0 -> Moved image owner s t)
      (fun _ => False) s := by
  rcases process.stack_pages with ⟨first, last, low⟩
  have gap := process.gap
  have aligned := process.aligned
  by_cases positive : 0 < n.toNat ∧ n.toNat < 2 ^ 31
  · have room := guarded positive.1 positive.2
    have newGap : ceilPage (s.proc.sz.toNat + n.toNat) + 1 ≤ s.proc.sz2.toNat / PGSIZE := by
      simp only [ceilPage, PGSIZE] at room aligned ⊢
      omega
    have fits : s.proc.sz.toNat + n.toNat ≤ USERTOP := by
      have high := process.high
      omega
    refine Program.wp_mono (growproc_up_wp heap process positive (by omega)) ?_
      (fun _ stopped => stopped)
    rintro result t (⟨_, became, proc⟩ | ⟨rfl, _⟩)
    · intro _
      have resized := process.resize (by omega) newGap fits became
      have same : ({ t with
          proc := s.proc.withSz (UInt32.ofNat (s.proc.sz.toNat + n.toNat)) } : Vm) = t := by
        rw [← proc]
      rw [← same]
      exact resized
    · exact fun impossible => absurd impossible (by decide)
  · unfold growproc
    rw [Program.wp_bind, Program.wp_read, if_neg positive]
    by_cases negative : 2 ^ 31 ≤ n.toNat
    · rw [if_pos negative]
      refine Program.wp_seq (deallocuvm_wp heap process.space low) ?_
      rintro sz t ⟨rfl, became, _⟩
      refine setNewSize_wp (fun impossible => absurd impossible (by decide)) (fun nonzero _ => ?_)
      have smaller : min s.proc.sz.toNat (sizePlus s.proc.sz n) ≤ s.proc.sz.toNat :=
        Nat.min_le_left _ _
      have order := ceilPage_mono smaller
      exact process.resize nonzero (by omega) (Nat.le_trans smaller low)
        (became.congr (fun v _ => regions_shrink (by omega) v))
    · rw [if_neg negative]
      intro _
      exact process.resize (Nat.ne_of_gt process.nonempty) gap low
        ⟨owner, heap, Within.refl _ owner s, process.space⟩

/-- Moving the start of the stack down by one page. -/
theorem regions_down {sz sz2 lower : Nat} (below : lower + PGSIZE = sz2)
    (aligned : sz2 % PGSIZE = 0) (inside : sz2 / PGSIZE ≤ USERPAGES) (v : Nat) :
    Regions sz sz2 v ∨ Between lower sz2 v ↔ Regions sz lower v := by
  have start : ceilPage lower + 1 = sz2 / PGSIZE := by
    simp only [ceilPage, PGSIZE] at below aligned ⊢
    omega
  have last : ceilPage sz2 = sz2 / PGSIZE := by
    simp only [ceilPage, PGSIZE] at aligned ⊢
    omega
  have down : lower / PGSIZE + 1 = sz2 / PGSIZE := by
    simp only [PGSIZE] at below aligned ⊢
    omega
  simp only [Regions, Between]
  omega

/-- The process after its stack could not be extended. -/
theorem Process.kill {image : Image} {owner : Nat -> Role} {s t : Vm}
    (process : Process owner s s.proc)
    (became : Became image owner s s.proc.pgdir (Regions s.proc.sz.toNat s.proc.sz2.toNat) t) :
    Moved image owner s { t with proc := t.proc.withKilled } := by
  rcases became with ⟨after, heap, within, space⟩
  rw [within.proc]
  exact ⟨after, heap.congr rfl, ⟨within.framed.role, within.framed.contents⟩,
    ⟨space.of_mem rfl, process.nonempty, process.aligned, process.gap, process.high⟩, rfl⟩

/-- The process after its stack has been extended by one page. -/
theorem Process.extend {image : Image} {owner : Nat -> Role} {s t : Vm} {lower : Nat}
    (process : Process owner s s.proc) (below : lower + PGSIZE = s.proc.sz2.toNat)
    (room : s.proc.sz.toNat + 2 * PGSIZE < s.proc.sz2.toNat)
    (became : Became image owner s s.proc.pgdir (Regions s.proc.sz.toNat lower) t) :
    Moved image owner s { t with proc := t.proc.withSz2 (UInt32.ofNat lower) } := by
  rcases became with ⟨after, heap, within, space⟩
  have aligned := process.aligned
  have high := process.high
  have size : (UInt32.ofNat lower).toNat = lower := toNat_ofNat_of_le (by omega)
  generalize UInt32.ofNat lower = sz2 at size ⊢
  rw [within.proc]
  refine ⟨after, heap.congr rfl, ⟨within.framed.role, within.framed.contents⟩,
    ⟨?_, process.nonempty, ?_, ?_, ?_⟩, rfl⟩
  · show Space after _ s.proc.pgdir (Regions s.proc.sz.toNat sz2.toNat)
    rw [size]
    exact space.of_mem rfl
  · show sz2.toNat % PGSIZE = 0
    rw [size]
    simp only [PGSIZE] at below aligned ⊢
    omega
  · show ceilPage s.proc.sz.toNat + 1 ≤ sz2.toNat / PGSIZE
    rw [size]
    simp only [ceilPage, PGSIZE] at below room aligned ⊢
    omega
  · show sz2.toNat ≤ USERTOP - PGSIZE
    omega

/-- A page fault keeps the layout, and it extends the stack when there is room
and memory. -/
theorem pageFault_wp {image : Image} {owner : Nat -> Role} {s : Vm}
    (heap : Heap image owner s) (process : Process owner s s.proc) :
    Program.wp (pageFault image)
      (fun _ t => Moved image owner s t ∧ t.proc.sz = s.proc.sz ∧
        (s.proc.sz.toNat + 2 * PGSIZE < s.proc.sz2.toNat -> s.freelist ≠ [] ->
          t.proc.sz2.toNat + PGSIZE = s.proc.sz2.toNat ∧
          s.freelist.length = t.freelist.length + 1))
      (fun _ => False) s := by
  rcases process.stack_pages with ⟨first, last, low⟩
  have aligned := process.aligned
  have high := process.high
  have noWrap : (s.proc.sz.toNat + 2 * PGSIZE) % 2 ^ 32 = s.proc.sz.toNat + 2 * PGSIZE := by
    simp only [PGSIZE, USERTOP] at low ⊢
    omega
  unfold pageFault
  rw [Program.wp_bind, Program.wp_read, noWrap]
  by_cases room : s.proc.sz.toNat + 2 * PGSIZE < s.proc.sz2.toNat
  · have below : sub32 s.proc.sz2.toNat PGSIZE + PGSIZE = s.proc.sz2.toNat := by
      simp only [sub32, PGSIZE, USERTOP] at room high ⊢
      omega
    rw [if_pos room, Program.wp_bind]
    generalize stackStart : sub32 s.proc.sz2.toNat PGSIZE = lower at below ⊢
    have single : ceilPage s.proc.sz2.toNat - ceilPage lower = 1 := by
      simp only [ceilPage, PGSIZE] at below aligned ⊢
      omega
    have free : forall w, Between lower s.proc.sz2.toNat w ->
        ¬ Regions s.proc.sz.toNat s.proc.sz2.toNat w := by
      intro w between mapped
      have atLeast := between.1
      have under := between.2
      simp only [Regions, ceilPage, PGSIZE] at below room aligned mapped atLeast under
      omega
    refine Program.wp_mono (allocuvm_wp heap process.space) ?_
      (fun _ stopped => stopped.2.2.elim (fun w both => free w both.1 both.2))
    intro sz t allocated
    cases allocated with
    | tooLarge large => exact absurd large (Nat.not_lt.mpr (Nat.le_trans high (Nat.sub_le _ _)))
    | shrinks smaller => exact absurd smaller (by omega)
    | outOfMemory _ _ became few =>
        rw [single] at few
        rw [moveStack, if_neg (not_not_intro rfl), Program.wp_modify]
        refine ⟨process.kill (became.congr (fun v _ => ?_)), ?_, fun _ nonempty => ?_⟩
        · exact ⟨And.left, fun mapped => ⟨mapped, fun between => free v between mapped⟩⟩
        · rcases became with ⟨after, newHeap, within, space⟩
          show t.proc.sz = s.proc.sz
          rw [within.proc]
        · exact absurd (List.length_eq_zero_iff.mp (Nat.lt_one_iff.mp few)) nonempty
    | grown _ larger _ became fewer =>
        rw [single] at fewer
        have sameProc : t.proc = s.proc := by
          rcases became with ⟨after, newHeap, within, space⟩
          exact within.proc
        have size : (UInt32.ofNat lower).toNat = lower := toNat_ofNat_of_le (by omega)
        have extended := process.extend below room
          (became.congr (fun v _ => regions_down below aligned (by omega) v))
        have nonzero : s.proc.sz2.toNat ≠ 0 := Nat.ne_of_gt (Nat.zero_lt_of_lt room)
        rw [moveStack, if_pos nonzero, Program.wp_modify, sameProc, stackStart]
        rw [sameProc] at extended
        generalize UInt32.ofNat lower = sz2 at size extended ⊢
        refine ⟨extended, Proc.withSz2_sz _ _, fun _ _ => ⟨?_, fewer⟩⟩
        rw [Proc.withSz2_sz2, size, below]
  · rw [if_neg room, moveStack, if_neg (not_not_intro rfl), Program.wp_modify]
    exact ⟨process.kill ⟨owner, heap, Within.refl _ owner s, process.space⟩, rfl,
      fun roomy => absurd roomy room⟩

theorem Process.apart {owner : Nat -> Role} {s : Vm} {p : Proc} (process : Process owner s p) :
    Apart p.sz.toNat p.sz2.toNat := by
  have gap := process.gap
  have high := process.high
  exact ⟨process.aligned, by omega, by omega⟩

/-- `fork` never panics, and a child has the layout of its parent. -/
theorem fork_wp {image : Image} {owner : Nat -> Role} {s : Vm}
    (heap : Heap image owner s) (process : Process owner s s.proc) :
    Program.wp (fork image)
      (fun result t => Exists fun after => Exists fun d => owner d ≠ .dir d ∧ Heap image after t ∧
        Framed (fun r => r = .free ∨ r.Of d) owner after s t ∧ t.proc = s.proc ∧
        forall child kstack, result = some (child, kstack) -> child.pgdir = d ∧
          Process after t child ∧ after kstack = .kernel ∧ owner kstack = .free)
      (fun _ => False) s := by
  unfold fork
  rw [Program.wp_bind]
  refine kalloc_wp (fun empty => ?_) (fun kstack rest head => ?_)
  · rw [Program.wp_pure]
    exact ⟨owner, 0, heap.zero_not_dir, heap, Framed.refl _ _ _, rfl, nofun⟩
  · have isFree : owner kstack = .free :=
      (heap.free kstack).mp (by rw [head]; exact List.mem_cons_self)
    have taken := Framed.take isFree .kernel s rest
    have parent := process.space.framed taken (fun r mine isFree => by
      rw [isFree] at mine
      exact mine)
    rw [Program.wp_bind, Program.wp_read]
    refine Program.wp_seq (copyuvm_wp process.apart (heap.take head Role.noConfusion _ _) parent) ?_
    rintro result t ⟨middle, d, notDir, within, middleHeap, copied⟩
    have ownerDir : owner d ≠ .dir d := by
      intro isDir
      refine notDir ?_
      rw [Function.update_of_ne, isDir]
      intro same
      rw [same, isFree] at isDir
      cases isDir
    have isKernel : middle kstack = .kernel := by
      rw [within.framed.role kstack, Function.update_self]
      rw [Function.update_self]
      rintro (impossible | impossible)
      · cases impossible
      · exact impossible
    have framed := (taken.mono (fun r isFree => Or.inl isFree)).trans within.framed
    cases result with
    | none =>
        have managed : middle kstack ≠ .other := by rw [isKernel]; exact Role.noConfusion
        have used : middle kstack ≠ .free := by rw [isKernel]; exact Role.noConfusion
        rw [Program.wp_bind]
        refine kfree_wp middleHeap managed ⟨Function.update middle kstack .free, d, ownerDir,
          middleHeap.give used managed _ _, ⟨fun p untouched => ?_, fun p untouched => ?_⟩,
          within.proc, nofun⟩
        · have different : p ≠ kstack := fun same => untouched (Or.inl (by rw [same]; exact isFree))
          rw [Function.update_of_ne different]
          exact framed.role p untouched
        · have different : p ≠ kstack := fun same => untouched (Or.inl (by rw [same]; exact isFree))
          exact (Vm.withPage_mem_of_ne _ _ different).trans (framed.contents p untouched)
    | some dir =>
        rw [Program.wp_pure]
        refine ⟨middle, d, ownerDir, middleHeap, framed, within.proc, fun child page same => ?_⟩
        rcases copied dir rfl with ⟨rfl, space⟩
        have parts := Prod.mk.inj (Option.some.inj same)
        rw [← parts.1, ← parts.2]
        exact ⟨rfl, ⟨space, process.nonempty, process.aligned, process.gap, process.high⟩, isKernel,
          isFree⟩

end AddressSpace
end OsProjects
