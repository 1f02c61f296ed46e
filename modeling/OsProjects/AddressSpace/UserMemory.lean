import OsProjects.AddressSpace.KernelMap

namespace OsProjects
namespace AddressSpace

open Machine

/-!
# The user part of an address space

`allocuvm`, `deallocuvm`, `freevm` and `copyuvm` change which user pages are
mapped.  Each is specified by the set of mapped pages before and after, and by
`Within`: nothing but free pages and the pages of that one address space
changes.
-/

/-- The number of pages that a loop from `a` in steps of a page visits below
`limit`.  Every caller passes a limit of at most `USERTOP`, so the counter of
the loop does not wrap. -/
def pagesBelow (a limit : Nat) : Nat := (limit - a + PGSIZE - 1) / PGSIZE

/-- The body of the loop of `deallocuvm`. -/
def freePage (image : Image) (pgdir a : Nat) : VmProgram Unit := do
  match <- walkpgdir pgdir a false with
  | none => pure ⟨⟩
  | some (pgtab, i) => do
      let pte <- Program.read (fun s => (s.mem pgtab).word i)
      if Present pte then
        if PTE_ADDR pte = 0 then Program.stop .kfree
        else do
          kfree image (PTE_ADDR pte)
          storeWord pgtab i 0
      else pure ⟨⟩

/-- The loop of `deallocuvm`. -/
def freePages (image : Image) (pgdir : Nat) : Nat -> Nat -> VmProgram Unit
  | 0, _ => pure ⟨⟩
  | count + 1, a => do
      freePage image pgdir a
      freePages image pgdir count (a + PGSIZE)

/-- Deallocate user pages to bring the process size from `oldsz` to `newsz`. -/
def deallocuvm (image : Image) (pgdir oldsz newsz : Nat) : VmProgram Nat :=
  if oldsz ≤ newsz then pure oldsz
  else do
    freePages image pgdir (pagesBelow (PGROUNDUP newsz) oldsz) (PGROUNDUP newsz)
    pure newsz

/-- The body of the loop of `allocuvm`; `false` means out of memory. -/
def allocPage (pgdir a : Nat) : VmProgram Bool := do
  match <- kalloc with
  | none => pure false
  | some mem => do
      storePage mem (Bytes.fill 0)
      let _ <- mappages pgdir a PGSIZE mem (PTE_W ||| PTE_U)
      pure true

/-- The loop of `allocuvm`. -/
def allocPages (image : Image) (pgdir oldsz newsz : Nat) : Nat -> Nat -> VmProgram Nat
  | 0, _ => pure newsz
  | count + 1, a => do
      if <- allocPage pgdir a then allocPages image pgdir oldsz newsz count (a + PGSIZE)
      else do
        let _ <- deallocuvm image pgdir newsz oldsz
        pure 0

/-- Allocate pages to grow from `oldsz` to `newsz`.  Zero means failure. -/
def allocuvm (image : Image) (pgdir oldsz newsz : Nat) : VmProgram Nat :=
  if USERTOP < newsz then pure 0
  else if newsz < oldsz then pure oldsz
  else allocPages image pgdir oldsz newsz (pagesBelow (PGROUNDUP oldsz) newsz) (PGROUNDUP oldsz)

/-- Free the table of a directory entry, if there is one. -/
def freeTable (image : Image) (pde : Nat) : VmProgram Unit :=
  if Present pde then kfree image (PTE_ADDR pde) else pure ⟨⟩

/-- The loop of `freevm` over the directory. -/
def freeTables (image : Image) (pgdir : Nat) : Nat -> Nat -> VmProgram Unit
  | 0, _ => pure ⟨⟩
  | count + 1, i => do
      let pde <- Program.read (fun s => (s.mem pgdir).word i)
      freeTable image pde
      freeTables image pgdir count (i + 1)

/-- Free a page table and all the physical memory pages in the user part. -/
def freevm (image : Image) (pgdir : Nat) : VmProgram Unit :=
  if pgdir = 0 then Program.stop .freevmNoPgdir
  else do
    let _ <- deallocuvm image pgdir USERTOP 0
    freeTables image pgdir 1024 0
    kfree image pgdir

/-- The body of both loops of `copyuvm`; `false` is the jump to `bad`. -/
def copyPage (d pgdir i : Nat) : VmProgram Bool := do
  match <- walkpgdir pgdir i false with
  | none => Program.stop .copyuvmMissing
  | some (pgtab, j) => do
      let pte <- Program.read (fun s => (s.mem pgtab).word j)
      if Present pte then do
        match <- kalloc with
        | none => pure false
        | some mem => do
            let contents <- Program.read (fun s => s.mem (PTE_ADDR pte))
            storePage mem contents
            mappages d i PGSIZE mem (PTE_W ||| PTE_U)
      else Program.stop .copyuvmAbsent

/-- A loop of `copyuvm`. -/
def copyPages (d pgdir : Nat) : Nat -> Nat -> VmProgram Bool
  | 0, _ => pure true
  | count + 1, i => do
      if <- copyPage d pgdir i then copyPages d pgdir count (i + PGSIZE)
      else pure false

/-- The two loops of `copyuvm`: first the heap, then the stack of the running
process. -/
def copyRegions (d pgdir sz : Nat) : VmProgram Bool := do
  if <- copyPages d pgdir (pagesBelow PGSIZE sz) PGSIZE then do
    let sz2 <- Program.read (fun s => s.proc.sz2.toNat)
    copyPages d pgdir (pagesBelow sz2 USERTOP) sz2
  else pure false

/-- Copy a page table for a child. -/
def copyuvm (image : Image) (pgdir sz : Nat) : VmProgram (Option Nat) := do
  match <- setupkvm image with
  | none => pure none
  | some d => do
      if <- copyRegions d pgdir sz then pure (some d)
      else do
        freevm image d
        pure none

/-! ## Spaces -/

/-- An address space whose mapped user pages are exactly `pages`.  User code can
reach these and no others. -/
structure Space (owner : Nat -> Role) (s : Vm) (d : Nat) (pages : Nat -> Prop) : Prop where
  dir : Dir owner s d
  table : Present (pde s d 0)
  user : forall v, v < USERPAGES -> (Present (pte s d v) ↔ pages v)
  zero : forall v, v < USERPAGES -> ¬ pages v -> pte s d v = 0
  access : forall v, v < 2 ^ 20 -> (pte s d v &&& PTE_U ≠ 0 ↔ v < USERPAGES ∧ pages v)

theorem userpage_table {v : Nat} (isUser : v < USERPAGES) :
    v / 1024 = 0 ∧ v % 1024 = v ∧ v < 2 ^ 20 := by
  simp only [USERPAGES, USERTOP, PGSIZE] at isUser
  omega

theorem Space.congr {owner : Nat -> Role} {s : Vm} {d : Nat} {pages others : Nat -> Prop}
    (space : Space owner s d pages) (same : forall v, v < USERPAGES -> (pages v ↔ others v)) :
    Space owner s d others :=
  ⟨space.dir, space.table, fun v below => (space.user v below).trans (same v below),
    fun v below absent => space.zero v below (mt (same v below).mp absent),
    fun v below => (space.access v below).trans (and_congr_right (same v))⟩

/-- A space survives every step that keeps the roles of its pages and the
contents of its directory and tables. -/
theorem Space.kept {owner after : Nat -> Role} {s t : Vm} {d : Nat} {pages : Nat -> Prop}
    (space : Space owner s d pages) (role : forall p, (owner p).Of d -> after p = owner p)
    (contents : forall p, owner p = .dir d ∨ (Exists fun i => owner p = .table d i) ->
      t.mem p = s.mem p) : Space after t d pages := by
  rcases space.dir.kept role contents with ⟨dir, entries, same⟩
  refine ⟨dir, ?_, fun v below => ?_, fun v below => ?_, fun v below => ?_⟩
  · rw [entries]
    exact space.table
  · rw [same v (userpage_table below).2.2]
    exact space.user v below
  · rw [same v (userpage_table below).2.2]
    exact space.zero v below
  · rw [same v below]
    exact space.access v below

/-- A space survives every step that does not touch its pages. -/
theorem Space.framed {touches : Role -> Prop} {owner after : Nat -> Role} {s t : Vm} {d : Nat}
    {pages : Nat -> Prop} (space : Space owner s d pages)
    (framed : Framed touches owner after s t) (untouched : forall r, r.Of d -> ¬ touches r) :
    Space after t d pages := by
  refine space.kept (fun p mine => framed.role p (untouched _ mine)) (fun p structural => ?_)
  refine framed.contents p (untouched _ ?_)
  rcases structural with self | ⟨i, table⟩
  · rw [self]
    exact rfl
  · rw [table]
    exact rfl

/-- The place of the entry of a user page. -/
theorem walkpgdir_user {owner : Nat -> Role} {s : Vm} {d v : Nat} {pages : Nat -> Prop}
    (space : Space owner s d pages) (isUser : v < USERPAGES) (create : Bool)
    {post : Option (Nat × Nat) -> Vm -> Prop} {escape : Panic -> Prop}
    (found : post (some (PTE_ADDR (pde s d (v / 1024)), v % 1024)) s) :
    Program.wp (walkpgdir d (v * PGSIZE) create) post escape s := by
  have small := userpage_table isUser
  have index : PDX (v * PGSIZE) = v / 1024 := by simp only [PDX, PGSIZE]; omega
  have offset : PTX (v * PGSIZE) = v % 1024 := by simp only [PTX, PGSIZE]; omega
  have present : Present ((s.mem d).word (v / 1024)) := by
    rw [small.1]
    exact space.table
  unfold walkpgdir
  rw [Program.wp_bind, Program.wp_read, index, offset, if_pos present]
  exact found

/-- Writing the entry of a user page. -/
theorem Space.setEntry {owner : Nat -> Role} {s : Vm} {d v entry : Nat} {pages : Nat -> Prop}
    (space : Space owner s d pages) (isUser : v < USERPAGES) (fits : entry < 2 ^ 32) {now : Prop}
    (present : Present entry ↔ now) (zero : ¬ now -> entry = 0) (access : entry &&& PTE_U ≠ 0 ↔ now)
    (roles : Present entry -> owner (PTE_ADDR entry) = .user d v) :
    Space owner
      (s.withPage (PTE_ADDR (pde s d (v / 1024)))
        ((s.mem (PTE_ADDR (pde s d (v / 1024)))).setWord (v % 1024) entry))
      d (Function.update pages v now) := by
  have small := userpage_table isUser
  have table : Present (pde s d (v / 1024)) := by
    rw [small.1]
    exact space.table
  have set := space.dir.setEntry small.2.2 table fits (fun _ => roles)
  refine ⟨set.1, ?_, fun w below => ?_, fun w below => ?_, fun w below => ?_⟩
  · rw [set.2.1]
    exact space.table
  · rw [set.2.2 w (userpage_table below).2.2]
    by_cases same : w = v
    · rw [if_pos same, same, Function.update_self]
      exact present
    · rw [if_neg same, Function.update_of_ne same]
      exact space.user w below
  · rw [set.2.2 w (userpage_table below).2.2]
    by_cases same : w = v
    · rw [if_pos same, same, Function.update_self]
      exact zero
    · rw [if_neg same, Function.update_of_ne same]
      exact space.zero w below
  · rw [set.2.2 w below]
    by_cases same : w = v
    · rw [if_pos same, same, Function.update_self]
      exact ⟨fun set => ⟨isUser, access.mp set⟩, fun both => access.mpr both.2⟩
    · rw [if_neg same, Function.update_of_ne same]
      exact space.access w below

/-- A present entry of a user page refers to a page of the address space. -/
theorem Space.role_of_present {owner : Nat -> Role} {s : Vm} {d v : Nat} {pages : Nat -> Prop}
    (space : Space owner s d pages) (isUser : v < USERPAGES)
    (present : Present ((s.mem (PTE_ADDR (pde s d (v / 1024)))).word (v % 1024))) :
    owner (PTE_ADDR ((s.mem (PTE_ADDR (pde s d (v / 1024)))).word (v % 1024))) = .user d v ∧
      pages v := by
  have table : Present (pde s d (v / 1024)) := by
    rw [(userpage_table isUser).1]
    exact space.table
  rw [← pte_of_present table] at present ⊢
  exact ⟨space.dir.user v isUser present, (space.user v isUser).mp present⟩

theorem Space.absent {owner : Nat -> Role} {s : Vm} {d v : Nat} {pages : Nat -> Prop}
    (space : Space owner s d pages) (isUser : v < USERPAGES)
    (absent : ¬ Present ((s.mem (PTE_ADDR (pde s d (v / 1024)))).word (v % 1024))) : ¬ pages v := by
  have table : Present (pde s d (v / 1024)) := by
    rw [(userpage_table isUser).1]
    exact space.table
  rw [← pte_of_present table] at absent
  exact fun mapped => absent ((space.user v isUser).mpr mapped)

/-- The page that holds the entries of all user pages. -/
theorem Space.tableRole {owner : Nat -> Role} {s : Vm} {d v : Nat} {pages : Nat -> Prop}
    (space : Space owner s d pages) (isUser : v < USERPAGES) :
    owner (PTE_ADDR (pde s d (v / 1024))) = .table d (v / 1024) := by
  have small := userpage_table isUser
  refine space.dir.table _ (by omega) ?_
  rw [small.1]
  exact space.table

/-! ## Building an address space -/

/-- A new directory is empty. -/
theorem KernelPart.empty {image : Image} {owner : Nat -> Role} {s : Vm} (heap : Heap image owner s)
    {d : Nat} {rest : List Nat} (head : s.freelist = d :: rest) :
    KernelPart image (Function.update owner d (.dir d))
      (Vm.withPage { s with freelist := rest } d (Bytes.fill 0)) d rest.length USERPAGES := by
  have entries : forall i,
      pde (Vm.withPage { s with freelist := rest } d (Bytes.fill 0)) d i = 0 := by
    intro i
    rw [pde, Vm.withPage_mem_self, Bytes.word_fill_zero]
  have absent : forall i, ¬ Present (pde (Vm.withPage { s with freelist := rest } d
      (Bytes.fill 0)) d i) := by
    intro i
    rw [entries]
    exact not_present_zero
  have values : forall v, pte (Vm.withPage { s with freelist := rest } d (Bytes.fill 0)) d v = 0 :=
    fun v => pte_of_absent (absent _)
  have none : tables (Vm.withPage { s with freelist := rest } d (Bytes.fill 0)) d = ∅ := by
    apply Finset.eq_empty_of_forall_notMem
    intro i member
    exact absent i (mem_tables.mp member).2
  refine ⟨⟨heap.take head Role.noConfusion _ _, ⟨Function.update_self _ _ _,
    fun i _ present => absurd present (absent i), fun v _ present => ?_⟩, fun w _ _ => ?_, ?_, ?_⟩,
    fun w _ => ?_, Nat.le_refl _⟩
  · rw [values v] at present
    exact absurd present not_present_zero
  · rw [values w]
    exact not_present_zero
  · rw [none]
    exact Finset.empty_subset _
  · rw [none, Finset.card_empty]
    rfl
  · rw [values w]
    exact ⟨Nat.zero_and PTE_U, fun _ => rfl⟩

/-- A finished kernel part is a space without user pages. -/
theorem KernelPart.space {image : Image} {owner : Nat -> Role} {s : Vm} {d total a : Nat}
    (part : KernelPart image owner s d total a) (table : Present (pde s d 0)) :
    Space owner s d (fun _ => False) := by
  refine ⟨part.building.dir, table, fun v below => ?_,
    fun v below _ => (part.supervisor v (userpage_table below).2.2).2 below, fun v below => ?_⟩
  · rw [(part.supervisor v (userpage_table below).2.2).2 below]
    exact iff_of_false not_present_zero id
  · exact iff_of_false (fun set => set (part.supervisor v below).1) And.right

/-- `setupkvm` takes thirteen pages: the directory and the tables of the kernel
part. -/
theorem setupkvm_tables {image : Image} {owner : Nat -> Role} {s : Vm} (heap : Heap image owner s) :
    Program.wp (setupkvm image)
      (fun result t => Exists fun after => Exists fun d => owner d ≠ .dir d ∧
        Within d owner after s t ∧ Heap image after t ∧
        match result with
        | none => s.freelist.length < 13
        | some dir => dir = d ∧ owner d = .free ∧ Space after t d (fun _ => False) ∧
            s.freelist.length = t.freelist.length + 13 ∧ tables t d = kernelTables)
      (fun _ => False) s := by
  unfold setupkvm
  rw [Program.wp_bind]
  refine kalloc_wp (fun empty => ?_) (fun d rest head => ?_)
  · rw [Program.wp_pure]
    exact ⟨owner, 0, heap.zero_not_dir, Within.refl 0 owner s, heap,
      by rw [empty]; exact Nat.succ_pos 12⟩
  · have isFree : owner d = .free := (heap.free d).mp (by rw [head]; exact List.mem_cons_self)
    have notDir : owner d ≠ .dir d := by rw [isFree]; exact Role.noConfusion
    have count : s.freelist.length = rest.length + 1 := by rw [head, List.length_cons]
    have taken := Within.take (d := d) (s := s) isFree (.dir d) (Bytes.fill 0) rest
    simp only [Program.wp_bind, storePage_wp, kmap, mapKernel]
    rw [mapRange]
    -- The first range makes the table of the user pages present.
    refine Program.wp_seq (mappages_kernel (KernelPart.empty heap head) kmap_first) ?_
    rintro ok t ⟨middle, within, middleHeap, outcome⟩
    cases ok with
    | false =>
        have few : rest.length < 12 := outcome
        exact ⟨middle, d, notDir, taken.trans within, middleHeap, by omega⟩
    | true =>
        rcases outcome with ⟨part, _, first⟩
        refine Program.wp_mono (mapKernel_ascending _ part (kmap_rest image)) ?_
          (fun _ stopped => stopped)
        rintro result u ⟨after, restWithin, restHeap, restOutcome⟩
        have all := (taken.trans within).trans restWithin
        cases result with
        | none =>
            have few : rest.length < 12 := restOutcome
            exact ⟨after, d, notDir, all, restHeap, by omega⟩
        | some dir =>
            rcases restOutcome with ⟨rfl, ⟨b, built⟩, kept⟩
            have table : Present (pde u dir 0) := present_pde_of_pte
              (kept USERPAGES (by decide) (Or.inl (first USERPAGES (Nat.le_refl _) (by decide))))
            have everyTable : tables u dir = kernelTables := by
              refine Finset.Subset.antisymm built.building.kernel (fun i member => ?_)
              have below : i < 1024 := by
                rcases mem_kernelTables.mp member with small | large <;> omega
              by_cases zero : i = 0
              · rw [zero]
                exact mem_tables.mpr ⟨by decide, table⟩
              · have present := present_pde_of_pte (kept (i * 1024) (by omega)
                  (Or.inr (kernelTables_covered image member zero)))
                rw [Nat.mul_div_cancel i (by decide)] at present
                exact mem_tables.mpr ⟨below, present⟩
            have sum := built.building.conserved
            rw [everyTable, kernelTables_card] at sum
            exact ⟨after, dir, notDir, all, restHeap, rfl, isFree, built.space table, by omega,
              everyTable⟩

/-- `setupkvm` needs thirteen pages. -/
theorem setupkvm_wp {image : Image} {owner : Nat -> Role} {s : Vm} (heap : Heap image owner s) :
    Program.wp (setupkvm image)
      (fun result t => Exists fun after => Exists fun d => owner d ≠ .dir d ∧
        Within d owner after s t ∧ Heap image after t ∧
        match result with
        | none => s.freelist.length < 13
        | some dir => dir = d ∧ owner d = .free ∧ Space after t d (fun _ => False) ∧
            s.freelist.length = t.freelist.length + 13)
      (fun _ => False) s := by
  refine Program.wp_mono (setupkvm_tables heap) ?_ (fun _ stopped => stopped)
  rintro result t ⟨after, d, notDir, within, nextHeap, outcome⟩
  refine ⟨after, d, notDir, within, nextHeap, ?_⟩
  cases result with
  | none => exact outcome
  | some dir => exact ⟨outcome.1, outcome.2.1, outcome.2.2.1, outcome.2.2.2.1⟩

/-! ## Unmapping -/

theorem Space.of_mem {owner : Nat -> Role} {s t : Vm} {d : Nat} {pages : Nat -> Prop}
    (space : Space owner s d pages) (same : t.mem = s.mem) : Space owner t d pages :=
  space.kept (fun _ _ => rfl) (fun _ _ => by rw [same])

/-- The contents of a user page do not matter for the mapping. -/
theorem Space.store_user {owner : Nat -> Role} {s : Vm} {d e r v : Nat} {pages : Nat -> Prop}
    (space : Space owner s d pages) (role : owner r = .user e v) (contents : Page) :
    Space owner (s.withPage r contents) d pages := by
  refine space.kept (fun _ _ => rfl)
    (fun p structural => Vm.withPage_mem_of_ne _ _ (fun same => ?_))
  rw [same, role] at structural
  rcases structural with self | ⟨i, table⟩
  · cases self
  · cases table

/-- A user page that is no longer mapped may get any role. -/
theorem Space.release {owner : Nat -> Role} {s : Vm} {d r v : Nat} {pages : Nat -> Prop}
    (space : Space owner s d pages) (role : owner r = .user d v) (gone : ¬ pages v) (next : Role) :
    Space (Function.update owner r next) s d pages := by
  refine ⟨⟨?_, fun i below present => ?_, fun w below present => ?_⟩, space.table, space.user,
    space.zero, space.access⟩
  · rw [Function.update_of_ne, space.dir.self]
    intro same
    rw [← same, space.dir.self] at role
    cases role
  · have table := space.dir.table i below present
    rw [Function.update_of_ne, table]
    intro same
    rw [same, role] at table
    cases table
  · have user := space.dir.user w below present
    rw [Function.update_of_ne, user]
    intro same
    rw [same, role] at user
    rw [(Role.user.inj user).2] at gone
    exact gone ((space.user w below).mp present)

/-- The address space `d` now has the user pages `pages`. -/
def Became (image : Image) (owner : Nat -> Role) (s : Vm) (d : Nat) (pages : Nat -> Prop)
    (t : Vm) : Prop :=
  Exists fun after => Heap image after t ∧ Within d owner after s t ∧ Space after t d pages

theorem Became.congr {image : Image} {owner : Nat -> Role} {s t : Vm} {d : Nat}
    {pages others : Nat -> Prop} (became : Became image owner s d pages t)
    (same : forall v, v < USERPAGES -> (pages v ↔ others v)) : Became image owner s d others t := by
  rcases became with ⟨after, heap, within, space⟩
  exact ⟨after, heap, within, space.congr same⟩

/-- The state after the entry of `v` has been cleared and the page behind it given
back. -/
structure Freed (image : Image) (owner : Nat -> Role) (s : Vm) (d v : Nat) (pages : Nat -> Prop)
    (t : Vm) : Prop where
  heap : Heap image (Function.update owner (PTE_ADDR (pte s d v)) .free) t
  within : Within d owner (Function.update owner (PTE_ADDR (pte s d v)) .free) s t
  space : Space (Function.update owner (PTE_ADDR (pte s d v)) .free) t d
    (Function.update pages v False)
  memory : t.mem = ((s.withPage (PTE_ADDR (pde s d (v / 1024)))
    ((s.mem (PTE_ADDR (pde s d (v / 1024)))).setWord (v % 1024) 0)).withPage (PTE_ADDR (pte s d v))
      (Bytes.fill 1)).mem
  freelist : t.freelist = PTE_ADDR (pte s d v) :: s.freelist

/-- An iteration of `deallocuvm` frees the page behind the entry, if there is one. -/
theorem freePage_freed {image : Image} {owner : Nat -> Role} {s : Vm} {d v : Nat}
    {pages : Nat -> Prop} (heap : Heap image owner s) (space : Space owner s d pages)
    (isUser : v < USERPAGES) :
    Program.wp (freePage image d (v * PGSIZE))
      (fun _ t => if Present (pte s d v) then Freed image owner s d v pages t else t = s)
      (fun _ => False) s := by
  have table : Present (pde s d (v / 1024)) := by
    rw [(userpage_table isUser).1]
    exact space.table
  unfold freePage
  rw [Program.wp_bind]
  refine walkpgdir_user space isUser false ?_
  simp only [Program.wp_bind, Program.wp_read, ← pte_of_present table]
  by_cases present : Present (pte s d v)
  · simp only [if_pos present]
    have role := space.dir.user v isUser present
    have tableRole := space.tableRole isUser
    have cleared : Space owner (s.withPage (PTE_ADDR (pde s d (v / 1024)))
        ((s.mem (PTE_ADDR (pde s d (v / 1024)))).setWord (v % 1024) 0)) d
        (Function.update pages v False) :=
      space.setEntry isUser (by decide) (iff_of_false not_present_zero id) (fun _ => rfl)
        (iff_of_false (fun set => set (Nat.zero_and PTE_U)) id)
        (fun impossible => absurd impossible not_present_zero)
    have freed := (cleared.store_user role (Bytes.fill 1)).release role
      (by rw [Function.update_self]; exact id) .free
    have managed : owner (PTE_ADDR (pte s d v)) ≠ .other := by rw [role]; exact Role.noConfusion
    have used : owner (PTE_ADDR (pte s d v)) ≠ .free := by rw [role]; exact Role.noConfusion
    have different : PTE_ADDR (pde s d (v / 1024)) ≠ PTE_ADDR (pte s d v) := by
      intro same
      rw [same, role] at tableRole
      cases tableRole
    have sameTable : (s.withPage (PTE_ADDR (pte s d v)) (Bytes.fill 1)).mem
        (PTE_ADDR (pde s d (v / 1024))) = s.mem (PTE_ADDR (pde s d (v / 1024))) :=
      Vm.withPage_mem_of_ne _ _ different
    have memory : (Vm.withPage { s with
        mem := (s.withPage (PTE_ADDR (pte s d v)) (Bytes.fill 1)).mem,
        freelist := PTE_ADDR (pte s d v) :: s.freelist } (PTE_ADDR (pde s d (v / 1024)))
        (((s.withPage (PTE_ADDR (pte s d v)) (Bytes.fill 1)).mem
          (PTE_ADDR (pde s d (v / 1024)))).setWord (v % 1024) 0)).mem =
        ((s.withPage (PTE_ADDR (pde s d (v / 1024)))
          ((s.mem (PTE_ADDR (pde s d (v / 1024)))).setWord (v % 1024) 0)).withPage
            (PTE_ADDR (pte s d v)) (Bytes.fill 1)).mem := by
      rw [sameTable]
      exact Function.update_comm different.symm _ _ _
    rw [if_neg (Nat.ne_of_gt (heap.page_pos managed).1), Program.wp_bind]
    refine kfree_wp heap managed ?_
    rw [storeWord_wp]
    refine ⟨heap.give used managed _ _, ⟨⟨fun p untouched => ?_, fun p untouched => ?_⟩, rfl⟩,
      freed.of_mem memory, memory, rfl⟩
    · refine Function.update_of_ne (fun same => untouched (Or.inr ?_)) _ _
      rw [same, role]
      exact rfl
    · have notPage : p ≠ PTE_ADDR (pte s d v) :=
        fun same => untouched (Or.inr (by rw [same, role]; exact rfl))
      have notTable : p ≠ PTE_ADDR (pde s d (v / 1024)) :=
        fun same => untouched (Or.inr (by rw [same, tableRole]; exact rfl))
      rw [memory, Vm.withPage_mem_of_ne _ _ notPage]
      exact Vm.withPage_mem_of_ne _ _ notTable
  · simp only [if_neg present]
    exact rfl

theorem freePage_wp {image : Image} {owner : Nat -> Role} {s : Vm} {d v : Nat} {pages : Nat -> Prop}
    (heap : Heap image owner s) (space : Space owner s d pages) (isUser : v < USERPAGES) :
    Program.wp (freePage image d (v * PGSIZE))
      (fun _ t => Became image owner s d (Function.update pages v False) t ∧
        s.freelist.length ≤ t.freelist.length)
      (fun _ => False) s := by
  refine Program.wp_mono (freePage_freed heap space isUser) ?_ (fun _ => id)
  intro _ t outcome
  by_cases present : Present (pte s d v)
  · rw [if_pos present] at outcome
    refine ⟨⟨_, outcome.heap, outcome.within, outcome.space⟩, ?_⟩
    rw [outcome.freelist]
    exact Nat.le_succ _
  · rw [if_neg present] at outcome
    subst outcome
    refine ⟨⟨owner, heap, Within.refl d owner t, space.congr (fun w _ => ?_)⟩, Nat.le_refl _⟩
    by_cases same : w = v
    · rw [same, Function.update_self]
      exact iff_of_false (fun mapped => present ((space.user v isUser).mpr mapped)) id
    · rw [Function.update_of_ne same]

/-- The loop of `deallocuvm` removes a range of user pages. -/
theorem freePages_wp {image : Image} {d : Nat} (count : Nat) :
    forall {owner : Nat -> Role} {s : Vm} {v : Nat} {pages : Nat -> Prop},
      Heap image owner s -> Space owner s d pages -> v + count ≤ USERPAGES ->
      Program.wp (freePages image d count (v * PGSIZE))
        (fun _ t => Became image owner s d (fun w => pages w ∧ ¬ (v ≤ w ∧ w < v + count)) t ∧
          s.freelist.length ≤ t.freelist.length)
        (fun _ => False) s := by
  induction count with
  | zero =>
      intro owner s v pages heap space _
      rw [freePages, Program.wp_pure]
      refine ⟨⟨owner, heap, Within.refl d owner s, space.congr (fun w _ => ?_)⟩, Nat.le_refl _⟩
      exact ⟨fun mapped => ⟨mapped, by omega⟩, And.left⟩
  | succ count ih =>
      intro owner s v pages heap space high
      have next : v * PGSIZE + PGSIZE = (v + 1) * PGSIZE := (Nat.succ_mul v PGSIZE).symm
      rw [freePages, next]
      refine Program.wp_seq (freePage_wp heap space (by omega)) ?_
      rintro _ t ⟨⟨middle, middleHeap, within, middleSpace⟩, grown⟩
      refine Program.wp_mono (ih middleHeap middleSpace (by omega)) ?_ (fun _ stopped => stopped)
      rintro _ u ⟨⟨after, restHeap, restWithin, restSpace⟩, restGrown⟩
      refine ⟨⟨after, restHeap, within.trans restWithin, restSpace.congr (fun w _ => ?_)⟩,
        Nat.le_trans grown restGrown⟩
      by_cases same : w = v
      · rw [same, Function.update_self]
        exact iff_of_false (fun both => both.1) (fun both => both.2 (by omega))
      · rw [Function.update_of_ne same]
        refine and_congr_right (fun _ => not_congr ?_)
        omega

/-- The first page at or above an address. -/
def ceilPage (sz : Nat) : Nat := (sz + PGSIZE - 1) / PGSIZE

theorem ceilPage_mono {a b : Nat} (le : a ≤ b) : ceilPage a ≤ ceilPage b :=
  Nat.div_le_div_right (by omega)

theorem ceilPage_le_userpages {sz : Nat} (low : sz ≤ USERTOP) : ceilPage sz ≤ USERPAGES :=
  Nat.le_trans (ceilPage_mono low) (by decide)

theorem PGROUNDUP_eq {sz : Nat} (low : sz ≤ USERTOP) : PGROUNDUP sz = ceilPage sz * PGSIZE := by
  simp only [PGROUNDUP, ceilPage, PGSIZE, USERTOP] at low ⊢
  omega

theorem pagesBelow_eq (page limit : Nat) :
    pagesBelow (page * PGSIZE) limit = ceilPage limit - page := by
  simp only [pagesBelow, ceilPage, PGSIZE]
  omega

/-- The user pages between two sizes. -/
def Between (oldsz newsz w : Nat) : Prop := ceilPage oldsz ≤ w ∧ w < ceilPage newsz

theorem deallocuvm_wp {image : Image} {owner : Nat -> Role} {s : Vm} {d oldsz newsz : Nat}
    {pages : Nat -> Prop} (heap : Heap image owner s) (space : Space owner s d pages)
    (low : oldsz ≤ USERTOP) :
    Program.wp (deallocuvm image d oldsz newsz)
      (fun result t => result = min oldsz newsz ∧
        Became image owner s d (fun w => pages w ∧ ¬ Between newsz oldsz w) t ∧
        s.freelist.length ≤ t.freelist.length)
      (fun _ => False) s := by
  unfold deallocuvm
  by_cases grows : oldsz ≤ newsz
  · rw [if_pos grows]
    refine ⟨(Nat.min_eq_left grows).symm, ⟨owner, heap, Within.refl d owner s,
      space.congr (fun w _ => ?_)⟩, Nat.le_refl _⟩
    have order := ceilPage_mono grows
    refine ⟨fun mapped => ⟨mapped, fun between => ?_⟩, And.left⟩
    exact absurd (Nat.lt_of_le_of_lt between.1 between.2) (Nat.not_lt.mpr order)
  · have lower : newsz ≤ oldsz := by omega
    have order := ceilPage_mono lower
    have high := ceilPage_le_userpages low
    rw [if_neg grows, PGROUNDUP_eq (Nat.le_trans lower low), pagesBelow_eq]
    refine Program.wp_seq (freePages_wp _ heap space (by omega)) ?_
    rintro _ t ⟨became, grown⟩
    refine ⟨(Nat.min_eq_right lower).symm, became.congr (fun w _ => ?_), grown⟩
    rw [Nat.add_sub_cancel' order]
    exact Iff.rfl

/-! ## Mapping -/

theorem Space.take {owner : Nat -> Role} {s : Vm} {d r v : Nat} {pages : Nat -> Prop}
    (space : Space owner s d pages) (isFree : owner r = .free) (contents : Page)
    (rest : List Nat) :
    Space (Function.update owner r (.user d v))
      (Vm.withPage { s with freelist := rest } r contents) d pages := by
  have retagged : Space (Function.update owner r (.user d v)) { s with freelist := rest } d pages :=
    Space.of_mem (s := s) ⟨space.dir.retag (.user d v) isFree, space.table, space.user, space.zero,
      space.access⟩ rfl
  exact retagged.store_user (Function.update_self _ _ _) contents

/-- `mappages` on one user page panics exactly when it is mapped already. -/
theorem mappages_user {owner : Nat -> Role} {s : Vm} {d r v : Nat} {pages : Nat -> Prop}
    (space : Space owner s d pages) (isUser : v < USERPAGES) (role : owner r = .user d v)
    (low : r < 2 ^ 20) :
    Program.wp (mappages d (v * PGSIZE) PGSIZE r (PTE_W ||| PTE_U))
      (fun ok t => ok = true ∧ ¬ pages v ∧ Within d owner owner s t ∧ t.freelist = s.freelist ∧
        Space owner t d (Function.update pages v True))
      (fun reason => reason = .remap ∧ pages v) s := by
  have single : mappages d (v * PGSIZE) PGSIZE r (PTE_W ||| PTE_U) =
      mapPages d (PTE_W ||| PTE_U) 1 (v * PGSIZE) r := by
    rw [← mappages_range Nat.one_pos (by have := (userpage_table isUser); omega), Nat.one_mul]
  rw [single, mapPages, Program.wp_bind]
  refine walkpgdir_user space isUser true ?_
  simp only [Program.wp_bind, Program.wp_read]
  by_cases present : Present ((s.mem (PTE_ADDR (pde s d (v / 1024)))).word (v % 1024))
  · rw [if_pos present]
    exact ⟨rfl, (space.role_of_present isUser present).2⟩
  · rw [if_neg present]
    have entry : r * PGSIZE ||| (PTE_W ||| PTE_U) ||| PTE_P = r * PGSIZE ||| 7 := by
      rw [Nat.or_assoc]
      rfl
    have isPresent := present_entry r (show 7 < PGSIZE by decide) (by decide)
    have access : (r * PGSIZE ||| 7) &&& PTE_U ≠ 0 := by
      rw [Nat.and_or_distrib_right]
      exact fun zero => absurd (Nat.or_eq_zero_iff.mp zero).2 (by decide)
    have set := space.setEntry isUser (entry_lt (show 7 < PGSIZE by decide) low)
      (iff_of_true isPresent trivial) (fun absent => absurd trivial absent)
      (iff_of_true access trivial)
      (fun _ => by rw [PTE_ADDR_entry r (by decide)]; exact role)
    rw [Program.wp_bind, storeWord_wp, entry, mapPages]
    exact ⟨rfl, space.absent isUser present,
      Within.store owner s (by rw [space.tableRole isUser]; exact rfl) _, rfl, set⟩

theorem allocPage_wp {image : Image} {owner : Nat -> Role} {s : Vm} {d v : Nat}
    {pages : Nat -> Prop} (heap : Heap image owner s) (space : Space owner s d pages)
    (isUser : v < USERPAGES) :
    Program.wp (allocPage d (v * PGSIZE))
      (fun ok t =>
        if ok then
          ¬ pages v ∧ Became image owner s d (Function.update pages v True) t ∧
          s.freelist.length = t.freelist.length + 1
        else s.freelist = [] ∧ t = s)
      (fun reason => reason = .remap ∧ pages v) s := by
  unfold allocPage
  rw [Program.wp_bind]
  refine kalloc_wp (fun empty => ?_) (fun r rest head => ?_)
  · rw [Program.wp_pure, if_neg Bool.false_ne_true]
    exact ⟨empty, rfl⟩
  have isFree : owner r = .free := (heap.free r).mp (by rw [head]; exact List.mem_cons_self)
  have small := (heap.page_pos (p := r) (by rw [isFree]; decide)).2
  rw [Program.wp_bind, storePage_wp]
  refine Program.wp_seq (mappages_user (space.take isFree (Bytes.fill 0) rest) isUser
    (Function.update_self _ _ _) (by omega)) ?_
  rintro _ t ⟨_, unmapped, within, sameList, mapped⟩
  rw [Program.wp_pure, if_pos rfl]
  refine ⟨unmapped, ⟨_, ?_, (Within.take isFree _ _ rest).trans within, mapped⟩, ?_⟩
  · exact (heap.take head Role.noConfusion _ _).congr sameList
  · rw [sameList, head]
    rfl

/-- How a call of `allocuvm` ends. -/
inductive Allocated (image : Image) (owner : Nat -> Role) (s : Vm) (d : Nat) (pages : Nat -> Prop)
    (oldsz newsz : Nat) : Nat -> Vm -> Prop
  | tooLarge : USERTOP < newsz -> Allocated image owner s d pages oldsz newsz 0 s
  | shrinks : newsz < oldsz -> Allocated image owner s d pages oldsz newsz oldsz s
  | grown {t : Vm} : newsz ≤ USERTOP -> oldsz ≤ newsz ->
      (forall w, Between oldsz newsz w -> ¬ pages w) ->
      Became image owner s d (fun w => pages w ∨ Between oldsz newsz w) t ->
      s.freelist.length = t.freelist.length + (ceilPage newsz - ceilPage oldsz) ->
      Allocated image owner s d pages oldsz newsz newsz t
  | outOfMemory {t : Vm} : newsz ≤ USERTOP -> oldsz ≤ newsz ->
      Became image owner s d (fun w => pages w ∧ ¬ Between oldsz newsz w) t ->
      s.freelist.length < ceilPage newsz - ceilPage oldsz ->
      Allocated image owner s d pages oldsz newsz 0 t

/-- The loop of `allocuvm`, from the page `v` on. -/
theorem allocPages_wp {image : Image} {d oldsz newsz : Nat} (low : newsz ≤ USERTOP) (count : Nat) :
    forall {owner : Nat -> Role} {s : Vm} {v : Nat} {pages : Nat -> Prop}, Heap image owner s ->
      Space owner s d pages -> ceilPage oldsz ≤ v -> v + count = ceilPage newsz ->
      Program.wp (allocPages image d oldsz newsz count (v * PGSIZE))
        (fun result t => (result = newsz ∧ (forall w, v ≤ w -> w < ceilPage newsz -> ¬ pages w) ∧
        Became image owner s d (fun w => pages w ∨ (v ≤ w ∧ w < ceilPage newsz)) t ∧
        s.freelist.length = t.freelist.length + count) ∨ (result = 0 ∧ Became image owner s d
        (fun w => pages w ∧ ¬ Between oldsz newsz w) t ∧ s.freelist.length < count)) (fun reason =>
        reason = .remap ∧ Exists fun w => v ≤ w ∧ w < ceilPage newsz ∧ pages w) s := by
  have high := ceilPage_le_userpages low
  induction count with
  | zero =>
      intro owner s v pages heap space _ last
      rw [allocPages, Program.wp_pure]
      refine Or.inl ⟨rfl, fun w lower upper => by omega, ⟨owner, heap, Within.refl d owner s,
        space.congr (fun w _ => ?_)⟩, rfl⟩
      exact ⟨Or.inl, fun either => either.resolve_right (by omega)⟩
  | succ count ih =>
      intro owner s v pages heap space above last
      have next : v * PGSIZE + PGSIZE = (v + 1) * PGSIZE := (Nat.succ_mul v PGSIZE).symm
      rw [allocPages, next, Program.wp_bind]
      refine Program.wp_mono (allocPage_wp heap space (by omega)) ?_ ?_
      · intro ok t outcome
        cases ok with
        | false =>
            rcases outcome with ⟨empty, rfl⟩
            refine Program.wp_seq (Program.wp_mono (deallocuvm_wp heap space low)
              (fun _ _ => id) (fun _ => False.elim)) ?_
            rintro _ u ⟨_, became, _⟩
            exact Or.inr ⟨rfl, became, by rw [empty]; exact Nat.succ_pos count⟩
        | true =>
            rcases outcome with ⟨unmapped, ⟨middle, middleHeap, within, middleSpace⟩, fewer⟩
            refine Program.wp_mono (ih middleHeap middleSpace (by omega) (by omega)) ?_ ?_
            · rintro result u (⟨isNew, clear, ⟨after, restHeap, restWithin, restSpace⟩, sum⟩ |
                ⟨isZero, ⟨after, restHeap, restWithin, restSpace⟩, few⟩)
              · refine Or.inl ⟨isNew, fun w lower upper mapped => ?_, ⟨after, restHeap,
                  within.trans restWithin, restSpace.congr (fun w _ => ?_)⟩, by omega⟩
                · by_cases same : w = v
                  · exact unmapped (same ▸ mapped)
                  · refine clear w (by omega) upper ?_
                    rw [Function.update_of_ne same]
                    exact mapped
                · by_cases same : w = v
                  · rw [same, Function.update_self]
                    exact iff_of_true (Or.inl trivial) (Or.inr (by omega))
                  · rw [Function.update_of_ne same]
                    refine or_congr_right ?_
                    omega
              · refine Or.inr ⟨isZero, ⟨after, restHeap, within.trans restWithin,
                  restSpace.congr (fun w _ => ?_)⟩, by omega⟩
                by_cases same : w = v
                · have inside : Between oldsz newsz v := ⟨above, by omega⟩
                  rw [same]
                  exact iff_of_false (fun both => both.2 inside) (fun both => both.2 inside)
                · rw [Function.update_of_ne same]
            · rintro reason ⟨isRemap, w, lower, upper, mapped⟩
              refine ⟨isRemap, w, by omega, upper, ?_⟩
              rw [Function.update_of_ne (by omega)] at mapped
              exact mapped
      · rintro reason ⟨isRemap, mapped⟩
        exact ⟨isRemap, v, Nat.le_refl v, by omega, mapped⟩

theorem allocuvm_wp {image : Image} {owner : Nat -> Role} {s : Vm} {d oldsz newsz : Nat}
    {pages : Nat -> Prop} (heap : Heap image owner s) (space : Space owner s d pages) :
    Program.wp (allocuvm image d oldsz newsz) (Allocated image owner s d pages oldsz newsz)
      (fun reason => reason = .remap ∧ newsz ≤ USERTOP ∧
        Exists fun w => Between oldsz newsz w ∧ pages w) s := by
  unfold allocuvm
  by_cases large : USERTOP < newsz
  · rw [if_pos large]
    exact .tooLarge large
  · by_cases shrinks : newsz < oldsz
    · rw [if_neg large, if_pos shrinks]
      exact .shrinks shrinks
    · have low : newsz ≤ USERTOP := by omega
      have grows : oldsz ≤ newsz := by omega
      have order := ceilPage_mono grows
      rw [if_neg large, if_neg shrinks, PGROUNDUP_eq (Nat.le_trans grows low), pagesBelow_eq]
      refine Program.wp_mono (allocPages_wp low _ heap space (Nat.le_refl _) (by omega)) ?_ ?_
      · rintro result t (⟨rfl, clear, became, sum⟩ | ⟨rfl, became, few⟩)
        · exact .grown low grows (fun w between => clear w between.1 between.2) became sum
        · exact .outOfMemory low grows became few
      · rintro reason ⟨isRemap, w, lower, upper, mapped⟩
        exact ⟨isRemap, low, w, ⟨lower, upper⟩, mapped⟩

/-! ## Freeing and copying whole address spaces -/

/-- The tables that the loop of `freevm` still has to free. -/
structure Tables (image : Image) (owner : Nat -> Role) (s : Vm) (d i : Nat) : Prop where
  heap : Heap image owner s
  self : owner d = .dir d
  table : forall j, i ≤ j -> j < 1024 -> Present (pde s d j) ->
    owner (PTE_ADDR (pde s d j)) = .table d j

theorem freeTable_wp {image : Image} {owner : Nat -> Role} {s : Vm} {d i : Nat}
    (remaining : Tables image owner s d i) (below : i < 1024) :
    Program.wp (freeTable image (pde s d i))
      (fun _ t => Exists fun after => Tables image after t d (i + 1) ∧ Within d owner after s t ∧
        s.freelist.length ≤ t.freelist.length)
      (fun _ => False) s := by
  unfold freeTable
  by_cases present : Present (pde s d i)
  · have role := remaining.table i (Nat.le_refl i) below present
    rw [if_pos present]
    generalize PTE_ADDR (pde s d i) = r at role ⊢
    have managed : owner r ≠ .other := by rw [role]; exact Role.noConfusion
    have used : owner r ≠ .free := by rw [role]; exact Role.noConfusion
    have notDir : d ≠ r := by
      intro same
      rw [← same, remaining.self] at role
      cases role
    have sameDir : (s.withPage r (Bytes.fill 1)).mem d = s.mem d := Vm.withPage_mem_of_ne _ _ notDir
    refine kfree_wp remaining.heap managed ⟨Function.update owner r .free, ⟨?_, ?_,
      fun j above high presentJ => ?_⟩, ⟨⟨fun p untouched => ?_, fun p untouched => ?_⟩, rfl⟩,
      Nat.le_succ _⟩
    · exact remaining.heap.give used managed _ _
    · rw [Function.update_of_ne notDir, remaining.self]
    · have entry : pde s d j = pde { s with
          mem := (s.withPage r (Bytes.fill 1)).mem, freelist := r :: s.freelist } d j := by
        rw [pde, pde, sameDir]
      rw [← entry] at presentJ ⊢
      have roleJ := remaining.table j (by omega) high presentJ
      rw [Function.update_of_ne, roleJ]
      intro same
      rw [same, role] at roleJ
      exact absurd (Role.table.inj roleJ).2 (by omega)
    · refine Function.update_of_ne (fun same => untouched (Or.inr ?_)) _ _
      rw [same, role]
      exact rfl
    · refine Vm.withPage_mem_of_ne _ _ (fun same => untouched (Or.inr ?_))
      rw [same, role]
      exact rfl
  · rw [if_neg present, Program.wp_pure]
    exact ⟨owner, ⟨remaining.heap, remaining.self,
      fun j above => remaining.table j (Nat.le_of_succ_le above)⟩, Within.refl d owner s,
      Nat.le_refl _⟩

theorem freeTables_wp {image : Image} {d : Nat} (count : Nat) :
    forall {owner : Nat -> Role} {s : Vm} {i : Nat}, Tables image owner s d i -> i + count ≤ 1024 ->
      Program.wp (freeTables image d count i)
        (fun _ t => Exists fun after => Tables image after t d (i + count) ∧
          Within d owner after s t ∧ s.freelist.length ≤ t.freelist.length)
        (fun _ => False) s := by
  induction count with
  | zero =>
      intro owner s i remaining _
      rw [freeTables, Program.wp_pure]
      exact ⟨owner, remaining, Within.refl d owner s, Nat.le_refl _⟩
  | succ count ih =>
      intro owner s i remaining high
      rw [freeTables, Program.wp_bind, Program.wp_read]
      refine Program.wp_seq (freeTable_wp remaining (by omega)) ?_
      rintro _ t ⟨middle, next, within, grown⟩
      refine Program.wp_mono (ih next (by omega)) ?_ (fun _ stopped => stopped)
      rintro _ u ⟨after, rest, restWithin, restGrown⟩
      rw [show i + 1 + count = i + (count + 1) by omega] at rest
      exact ⟨after, rest, within.trans restWithin, Nat.le_trans grown restGrown⟩

theorem freevm_wp {image : Image} {owner : Nat -> Role} {s : Vm} {d : Nat} {pages : Nat -> Prop}
    (heap : Heap image owner s) (space : Space owner s d pages) :
    Program.wp (freevm image d)
      (fun _ t => Exists fun after => Heap image after t ∧ Within d owner after s t ∧
        s.freelist.length ≤ t.freelist.length)
      (fun _ => False) s := by
  have nonzero : d ≠ 0 := Nat.ne_of_gt
    (heap.page_pos (by rw [space.dir.self]; exact Role.noConfusion)).1
  unfold freevm
  rw [if_neg nonzero]
  refine Program.wp_seq (deallocuvm_wp heap space (Nat.le_refl USERTOP)) ?_
  rintro _ t ⟨_, ⟨middle, middleHeap, within, middleSpace⟩, grown⟩
  have start : Tables image middle t d 0 :=
    ⟨middleHeap, middleSpace.dir.self, fun j _ below => middleSpace.dir.table j below⟩
  refine Program.wp_seq (freeTables_wp 1024 start (Nat.le_refl _)) ?_
  rintro _ u ⟨after, rest, restWithin, restGrown⟩
  have managed : after d ≠ .other := by rw [rest.self]; exact Role.noConfusion
  have used : after d ≠ .free := by rw [rest.self]; exact Role.noConfusion
  refine kfree_wp rest.heap managed ⟨Function.update after d .free, rest.heap.give used managed _ _,
    (within.trans restWithin).trans ⟨⟨fun p untouched => ?_, fun p untouched => ?_⟩, rfl⟩, ?_⟩
  · refine Function.update_of_ne (fun same => untouched (Or.inr ?_)) _ _
    rw [same, rest.self]
    exact rfl
  · refine Vm.withPage_mem_of_ne _ _ (fun same => untouched (Or.inr ?_))
    rw [same, rest.self]
    exact rfl
  · exact Nat.le_succ_of_le (Nat.le_trans grown restGrown)

/-- The pages of one address space are not touched by work on another. -/
theorem Role.Of.untouched {d e : Nat} (different : d ≠ e) {r : Role} (mine : r.Of e) :
    ¬ (r = .free ∨ r.Of d) := by
  rintro (isFree | other)
  · rw [isFree] at mine
    exact mine
  · cases r with
    | free | other | kernel => exact mine
    | dir _ | table _ _ | user _ _ =>
        have first : _ = e := mine
        have second : _ = d := other
        exact different (second.symm.trans first)

theorem copyPage_wp {image : Image} {owner : Nat -> Role} {s : Vm} {d e v : Nat}
    {pages source : Nat -> Prop} (heap : Heap image owner s) (space : Space owner s d pages)
    (parent : Space owner s e source) (isUser : v < USERPAGES) (clear : ¬ pages v)
    (mapped : source v) :
    Program.wp (copyPage d e (v * PGSIZE))
      (fun ok t => if ok then Became image owner s d (Function.update pages v True) t else t = s)
      (fun _ => False) s := by
  unfold copyPage
  rw [Program.wp_bind]
  refine walkpgdir_user parent isUser false ?_
  simp only [Program.wp_bind, Program.wp_read]
  have present : Present ((s.mem (PTE_ADDR (pde s e (v / 1024)))).word (v % 1024)) := by
    by_contra absent
    exact parent.absent isUser absent mapped
  rw [if_pos present, Program.wp_bind]
  refine kalloc_wp (fun _ => ?_) (fun r rest head => ?_)
  · rw [Program.wp_pure, if_neg Bool.false_ne_true]
  · have isFree : owner r = .free := (heap.free r).mp (by rw [head]; exact List.mem_cons_self)
    have small := (heap.page_pos (p := r) (by rw [isFree]; decide)).2
    rw [Program.wp_bind, Program.wp_read, Program.wp_bind, storePage_wp]
    refine Program.wp_mono (mappages_user (space.take isFree _ rest) isUser
      (Function.update_self _ _ _) (by omega)) ?_ (fun _ stopped => clear stopped.2)
    rintro _ t ⟨rfl, _, within, sameList, nowMapped⟩
    rw [if_pos rfl]
    exact ⟨_, (heap.take head Role.noConfusion _ _).congr sameList,
      (Within.take isFree _ _ rest).trans within, nowMapped⟩

/-- A loop of `copyuvm` over mapped pages of the parent. -/
theorem copyPages_wp {image : Image} {d e : Nat} (different : d ≠ e) {source : Nat -> Prop}
    (count : Nat) :
    forall {owner : Nat -> Role} {s : Vm} {v : Nat} {pages : Nat -> Prop},
      Heap image owner s -> Space owner s d pages -> Space owner s e source ->
      v + count ≤ USERPAGES -> (forall w, v ≤ w -> w < v + count -> source w ∧ ¬ pages w) ->
      Program.wp (copyPages d e count (v * PGSIZE))
        (fun ok t => Exists fun now => Became image owner s d now t ∧
          (ok = true -> forall w, now w ↔ pages w ∨ (v ≤ w ∧ w < v + count)))
        (fun _ => False) s := by
  induction count with
  | zero =>
      intro owner s v pages heap space _ _ _
      rw [copyPages, Program.wp_pure]
      refine ⟨pages, ⟨owner, heap, Within.refl d owner s, space⟩, fun _ w => ?_⟩
      exact ⟨Or.inl, fun either => either.resolve_right (by omega)⟩
  | succ count ih =>
      intro owner s v pages heap space parent high range
      have next : v * PGSIZE + PGSIZE = (v + 1) * PGSIZE := (Nat.succ_mul v PGSIZE).symm
      have here := range v (Nat.le_refl v) (by omega)
      rw [copyPages, next]
      refine Program.wp_seq (copyPage_wp heap space parent (by omega) here.2 here.1) ?_
      intro ok t outcome
      cases ok with
      | false =>
          rw [if_neg Bool.false_ne_true] at outcome ⊢
          rw [Program.wp_pure, outcome]
          exact ⟨pages, ⟨owner, heap, Within.refl d owner s, space⟩, fun impossible =>
            absurd impossible Bool.false_ne_true⟩
      | true =>
          rw [if_pos rfl] at outcome ⊢
          rcases outcome with ⟨middle, middleHeap, within, middleSpace⟩
          have parentKept := parent.framed within.framed (fun _ => Role.Of.untouched different)
          refine Program.wp_mono (ih middleHeap middleSpace parentKept (by omega)
            (fun w lower upper => ?_)) ?_ (fun _ stopped => stopped)
          · rw [Function.update_of_ne (by omega)]
            exact range w (by omega) (by omega)
          · rintro ok u ⟨now, ⟨after, restHeap, restWithin, restSpace⟩, exactly⟩
            refine ⟨now, ⟨after, restHeap, within.trans restWithin, restSpace⟩, fun isOk w => ?_⟩
            rw [exactly isOk w]
            by_cases same : w = v
            · rw [same, Function.update_self]
              exact iff_of_true (Or.inl trivial) (Or.inr (by omega))
            · rw [Function.update_of_ne same]
              refine or_congr_right ?_
              omega

/-- The user pages of a process with the boundaries `sz` and `sz2`. -/
def Regions (sz sz2 v : Nat) : Prop :=
  (1 ≤ v ∧ v < ceilPage sz) ∨ (sz2 / PGSIZE ≤ v ∧ v < USERPAGES)

instance (sz sz2 v : Nat) : Decidable (Regions sz sz2 v) := inferInstanceAs (Decidable (_ ∨ _))

/-- Boundaries between which there is room for the stack. -/
structure Apart (sz sz2 : Nat) : Prop where
  aligned : sz2 % PGSIZE = 0
  order : ceilPage sz ≤ sz2 / PGSIZE
  high : sz2 ≤ USERTOP

theorem copyRegions_wp {image : Image} {owner : Nat -> Role} {s : Vm} {d e sz : Nat}
    (different : d ≠ e) (apart : Apart sz s.proc.sz2.toNat) (heap : Heap image owner s)
    (space : Space owner s d (fun _ => False))
    (parent : Space owner s e (Regions sz s.proc.sz2.toNat)) :
    Program.wp (copyRegions d e sz)
      (fun ok t => Exists fun now => Became image owner s d now t ∧
        (ok = true -> forall w, now w ↔ Regions sz s.proc.sz2.toNat w))
      (fun _ => False) s := by
  have high := apart.high
  have order := apart.order
  have aligned := apart.aligned
  have top : s.proc.sz2.toNat / PGSIZE ≤ USERPAGES := Nat.div_le_div_right high
  have positive : 1 ≤ USERPAGES := by decide
  have first : pagesBelow PGSIZE sz = ceilPage sz - 1 := by
    have shifted := pagesBelow_eq 1 sz
    rw [Nat.one_mul] at shifted
    exact shifted
  have second : pagesBelow s.proc.sz2.toNat USERTOP = USERPAGES - s.proc.sz2.toNat / PGSIZE := by
    have shifted := pagesBelow_eq (s.proc.sz2.toNat / PGSIZE) USERTOP
    rw [Nat.div_mul_cancel (Nat.dvd_of_mod_eq_zero aligned)] at shifted
    exact shifted
  unfold copyRegions
  rw [first]
  refine Program.wp_seq (copyPages_wp (v := 1) different _ heap space parent (by omega)
    (fun w lower upper => ⟨Or.inl (by omega), id⟩)) ?_
  rintro ok t ⟨now, ⟨middle, middleHeap, within, middleSpace⟩, exactly⟩
  cases ok with
  | false =>
      rw [if_neg Bool.false_ne_true, Program.wp_pure]
      exact ⟨now, ⟨middle, middleHeap, within, middleSpace⟩, fun impossible =>
        absurd impossible Bool.false_ne_true⟩
  | true =>
      have parentKept := parent.framed within.framed (fun _ => Role.Of.untouched different)
      rw [if_pos rfl, Program.wp_bind, Program.wp_read, within.proc, second]
      have stack := copyPages_wp (v := s.proc.sz2.toNat / PGSIZE) different
        (USERPAGES - s.proc.sz2.toNat / PGSIZE) middleHeap middleSpace parentKept (by omega)
        (fun w lower upper => ⟨Or.inr (by omega), fun mapped => by
          have heapPage := (exactly rfl w).mp mapped
          rw [false_or] at heapPage
          omega⟩)
      rw [Nat.div_mul_cancel (Nat.dvd_of_mod_eq_zero aligned)] at stack
      refine Program.wp_mono stack ?_ (fun _ stopped => stopped)
      rintro ok u ⟨last, ⟨after, restHeap, restWithin, restSpace⟩, restExactly⟩
      refine ⟨last, ⟨after, restHeap, within.trans restWithin, restSpace⟩, fun isOk w => ?_⟩
      rw [restExactly isOk w, exactly rfl w, false_or]
      refine or_congr ?_ ?_ <;> omega

/-- `copyuvm` of a process never panics, and the child has the same pages. -/
theorem copyuvm_wp {image : Image} {owner : Nat -> Role} {s : Vm} {e sz : Nat}
    (apart : Apart sz s.proc.sz2.toNat) (heap : Heap image owner s)
    (parent : Space owner s e (Regions sz s.proc.sz2.toNat)) :
    Program.wp (copyuvm image e sz)
      (fun result t => Exists fun after => Exists fun d => owner d ≠ .dir d ∧
        Within d owner after s t ∧ Heap image after t ∧
        (forall dir, result = some dir -> dir = d ∧
          Space after t d (Regions sz s.proc.sz2.toNat)))
      (fun _ => False) s := by
  unfold copyuvm
  refine Program.wp_seq (setupkvm_wp heap) ?_
  rintro result t ⟨middle, d, notDir, within, middleHeap, outcome⟩
  cases result with
  | none =>
      rw [Program.wp_pure]
      exact ⟨middle, d, notDir, within, middleHeap, fun _ impossible => nomatch impossible⟩
  | some dir =>
      rcases outcome with ⟨rfl, _, space, _⟩
      have different : dir ≠ e := by
        intro same
        rw [same] at notDir
        exact notDir parent.dir.self
      have parentKept := parent.framed within.framed (fun _ => Role.Of.untouched different)
      rw [← within.proc] at apart parentKept ⊢
      refine Program.wp_seq (copyRegions_wp different apart middleHeap space parentKept) ?_
      rintro ok u ⟨now, ⟨after, copyHeap, copyWithin, copySpace⟩, exactly⟩
      cases ok with
      | true =>
          rw [if_pos rfl, Program.wp_pure]
          refine ⟨after, dir, notDir, within.trans copyWithin, copyHeap, fun copied same => ?_⟩
          exact ⟨(Option.some.inj same).symm, copySpace.congr (fun w _ => exactly rfl w)⟩
      | false =>
          rw [if_neg Bool.false_ne_true]
          refine Program.wp_seq (freevm_wp copyHeap copySpace) ?_
          rintro _ v ⟨last, lastHeap, lastWithin, _⟩
          rw [Program.wp_pure]
          exact ⟨last, dir, notDir, (within.trans copyWithin).trans lastWithin, lastHeap,
            fun _ impossible => nomatch impossible⟩

/-! ## A small address space -/

/-- A directory with a single table whose entries are given by the frames of the
mapped pages. -/
theorem Space.of_table {owner : Nat -> Role} {s : Vm} {d table : Nat} {pages : Nat -> Prop}
    {frame : Nat -> Nat} (self : owner d = .dir d) (role : owner table = .table d 0)
    (low : table < 2 ^ 20)
    (directory : s.mem d = (Bytes.fill 0).setWord 0 (table * PGSIZE ||| 7))
    (mapped : forall v, v < USERPAGES -> pages v ->
      (s.mem table).word v = frame v * PGSIZE ||| 7 ∧ owner (frame v) = .user d v)
    (unmapped : forall v, v < 1024 -> ¬ (v < USERPAGES ∧ pages v) -> (s.mem table).word v = 0) :
    Space owner s d pages := by
  have flags : 7 < PGSIZE := by decide
  have entries : forall i, pde s d i = if i = 0 then table * PGSIZE ||| 7 else 0 := by
    intro i
    rw [pde, directory]
    by_cases zero : i = 0
    · rw [if_pos zero, zero]
      exact Bytes.word_setWord_self _ (by decide) (entry_lt flags low)
    · rw [if_neg zero, Bytes.word_setWord_of_ne _ _ zero, Bytes.word_fill_zero]
  have tablePresent : Present (pde s d 0) := by
    rw [entries, if_pos rfl]
    exact present_entry table flags (by decide)
  have inTable : forall v, v < 1024 -> pte s d v = (s.mem table).word v := by
    intro v below
    have first : v / 1024 = 0 := by omega
    rw [pte, first, if_pos tablePresent, entries, if_pos rfl, PTE_ADDR_entry table flags,
      Nat.mod_eq_of_lt below]
  have outside : forall v, ¬ v < 1024 -> pte s d v = 0 := by
    intro v above
    refine pte_of_absent ?_
    rw [entries, if_neg (by omega)]
    exact not_present_zero
  have absent : forall v, ¬ (v < USERPAGES ∧ pages v) -> pte s d v = 0 := by
    intro v missing
    by_cases below : v < 1024
    · rw [inTable v below]
      exact unmapped v below missing
    · exact outside v below
  have present : forall v, v < USERPAGES -> pages v -> pte s d v = frame v * PGSIZE ||| 7 := by
    intro v isUser isMapped
    rw [inTable v (Nat.lt_trans isUser (by decide))]
    exact (mapped v isUser isMapped).1
  have user : forall v, v < USERPAGES -> (Present (pte s d v) ↔ pages v) := by
    intro v isUser
    by_cases isMapped : pages v
    · rw [present v isUser isMapped]
      exact iff_of_true (present_entry _ flags (by decide)) isMapped
    · rw [absent v (fun both => isMapped both.2)]
      exact iff_of_false not_present_zero isMapped
  refine ⟨⟨self, fun i below isPresent => ?_, fun v isUser isPresent => ?_⟩, tablePresent, user,
    fun v _ missing => absent v (fun both => missing both.2), fun v _ => ?_⟩
  · by_cases zero : i = 0
    · rw [zero, entries, if_pos rfl, PTE_ADDR_entry table flags, role]
    · rw [entries, if_neg zero] at isPresent
      exact absurd isPresent not_present_zero
  · have isMapped := (user v isUser).mp isPresent
    rw [present v isUser isMapped, PTE_ADDR_entry _ flags]
    exact (mapped v isUser isMapped).2
  · by_cases both : v < USERPAGES ∧ pages v
    · rw [present v both.1 both.2, Nat.and_or_distrib_right]
      exact iff_of_true (fun zero => absurd (Nat.or_eq_zero_iff.mp zero).2 (by decide)) both
    · rw [absent v both]
      exact iff_of_false (fun set => set (Nat.zero_and PTE_U)) both

end AddressSpace
end OsProjects
