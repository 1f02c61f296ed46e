import OsProjects.AddressSpace.Collision
import OsProjects.AddressSpace.Reclaim

namespace OsProjects
namespace AddressSpace

open Machine

/-!
# Free pages across failed calls

The machine with its process table: every process has an address space and a page
for its kernel stack, and the kernel takes pages for other purposes and returns
them, so that memory can run out at any point of any call.  Calls that fail are
steps as well.  Nothing is assumed about the layout of a process, which earlier
failures may have damaged.

A failed `fork` or `exec` that got through `setupkvm` returns all pages that it
took.  `setupkvm` itself does not, and a failed `sbrk` frees whatever is mapped
between the old and the requested size.
-/

/-! ## Processes with any pages -/

/-- What a step of the running process may do: it changes free pages, the pages
of its own address space and those of a new one, and one of the two is its
address space afterwards. -/
def Effect (image : Image) (owner : Nat -> Role) (s t : Vm) : Prop :=
  Exists fun after => Exists fun d => (owner d ≠ .dir d ∨ d = s.proc.pgdir) ∧ Heap image after t ∧
    Framed (fun r => r = .free ∨ r.Of d ∨ r.Of s.proc.pgdir) owner after s t ∧
    (t.proc.pgdir = s.proc.pgdir ∨ t.proc.pgdir = d) ∧ t.proc.Bounded ∧
    Exists fun now => Space after t t.proc.pgdir now

/-- A step inside the own address space that sets the process to `p`. -/
theorem Became.effect {image : Image} {owner : Nat -> Role} {s t : Vm} {now : Nat -> Prop}
    {p : Proc} (became : Became image owner s s.proc.pgdir now t) (bounded : p.Bounded)
    (sameDir : p.pgdir = s.proc.pgdir) : Effect image owner s { t with proc := p } := by
  rcases became with ⟨after, heap, within, space⟩
  refine ⟨after, s.proc.pgdir, Or.inr rfl, heap.congr rfl, ⟨fun p untouched => ?_,
    fun p untouched => ?_⟩, Or.inl sameDir, bounded, now, ?_⟩
  · exact within.framed.role p (fun touched => untouched (touched.imp_right Or.inl))
  · exact within.framed.contents p (fun touched => untouched (touched.imp_right Or.inl))
  · show Space after _ p.pgdir now
    rw [sameDir]
    exact space.of_mem rfl

theorem Became.refl {image : Image} {owner : Nat -> Role} {s : Vm} {d : Nat} {pages : Nat -> Prop}
    (heap : Heap image owner s) (space : Space owner s d pages) : Became image owner s d pages s :=
  ⟨owner, heap, Within.refl d owner s, space⟩

theorem Became.proc {image : Image} {owner : Nat -> Role} {s t : Vm} {d : Nat} {now : Nat -> Prop}
    (became : Became image owner s d now t) : t.proc = s.proc := by
  rcases became with ⟨after, heap, within, space⟩
  exact within.proc

theorem Proc.Bounded.withSz {p : Proc} (bounded : p.Bounded) {sz : Nat} (low : sz ≤ USERTOP) :
    (p.withSz (UInt32.ofNat sz)).Bounded := by
  refine ⟨?_, bounded.aligned, bounded.high⟩
  rw [Proc.withSz_sz, toNat_ofNat_of_le low]
  exact low

/-- The user pages after `allocuvm`. -/
theorem Allocated.became {image : Image} {owner : Nat -> Role} {s t : Vm} {d oldsz newsz size : Nat}
    {pages : Nat -> Prop} (heap : Heap image owner s) (space : Space owner s d pages)
    (allocated : Allocated image owner s d pages oldsz newsz size t) :
    (Exists fun now => Became image owner s d now t) ∧ (oldsz ≤ USERTOP -> size ≤ USERTOP) := by
  cases allocated with
  | tooLarge => exact ⟨⟨pages, Became.refl heap space⟩, fun _ => Nat.zero_le _⟩
  | shrinks => exact ⟨⟨pages, Became.refl heap space⟩, id⟩
  | grown low _ _ became _ => exact ⟨⟨_, became⟩, fun _ => low⟩
  | outOfMemory _ _ became _ => exact ⟨⟨_, became⟩, fun _ => Nat.zero_le _⟩

theorem setNewSize_effect {image : Image} {owner : Nat -> Role} {s t : Vm} {now : Nat -> Prop}
    {sz : Nat} (became : Became image owner s s.proc.pgdir now t) (bounded : s.proc.Bounded)
    (low : sz ≤ USERTOP) :
    Program.wp (setNewSize sz) (fun _ u => Effect image owner s u) (fun _ => True) t := by
  have same := became.proc
  refine setNewSize_wp ?_ (fun _ => ?_)
  · have effect := became.effect bounded rfl
    rw [← same] at effect
    exact effect
  · refine became.effect ?_ ?_
    · rw [same]
      exact bounded.withSz low
    · show t.proc.pgdir = s.proc.pgdir
      rw [same]

theorem growproc_effect {image : Image} {owner : Nat -> Role} {s : Vm} {pages : Nat -> Prop}
    (heap : Heap image owner s) (space : Space owner s s.proc.pgdir pages)
    (bounded : s.proc.Bounded) (n : UInt32) :
    Program.wp (growproc image n) (fun _ t => Effect image owner s t) (fun _ => True) s := by
  have unchanged := (Became.refl heap space).effect bounded rfl
  unfold growproc
  rw [Program.wp_bind, Program.wp_read]
  split
  · split
    · exact unchanged
    · rw [Program.wp_bind]
      refine Program.wp_mono (allocuvm_wp heap space) ?_ (fun _ _ => trivial)
      intro size t allocated
      rcases allocated.became heap space with ⟨⟨now, became⟩, low⟩
      exact setNewSize_effect became bounded (low bounded.low)
  · split
    · rw [Program.wp_bind]
      refine Program.wp_mono (deallocuvm_wp heap space bounded.low) ?_ (fun _ _ => trivial)
      rintro size t ⟨rfl, became, _⟩
      exact setNewSize_effect became bounded (Nat.le_trans (Nat.min_le_left _ _) bounded.low)
    · exact (Became.refl heap space).effect (bounded.withSz bounded.low) rfl

/-- A process that cannot extend its stack is to exit. -/
theorem moveStack_killed {image : Image} {owner : Nat -> Role} {s t : Vm} {now : Nat -> Prop}
    (became : Became image owner s s.proc.pgdir now t) (bounded : s.proc.Bounded) :
    Program.wp (moveStack 0) (fun _ u => Effect image owner s u) (fun _ => True) t := by
  rw [moveStack, if_neg (not_not_intro rfl), Program.wp_modify, became.proc]
  exact became.effect ⟨bounded.low, bounded.aligned, bounded.high⟩ rfl

/-- The stack starts at `lower` from now on. -/
theorem moveStack_moved {image : Image} {owner : Nat -> Role} {s t : Vm} {now : Nat -> Prop}
    {size lower : Nat} (became : Became image owner s s.proc.pgdir now t) (bounded : s.proc.Bounded)
    (nonzero : size ≠ 0) (stackStart : sub32 s.proc.sz2.toNat PGSIZE = lower)
    (below : lower + PGSIZE = s.proc.sz2.toNat) :
    Program.wp (moveStack size) (fun _ u => Effect image owner s u) (fun _ => True) t := by
  have aligned := bounded.aligned
  have high := bounded.high
  rw [moveStack, if_pos nonzero, Program.wp_modify, became.proc, stackStart]
  have isLower : (UInt32.ofNat lower).toNat = lower := toNat_ofNat_of_le (by omega)
  generalize UInt32.ofNat lower = sz2 at isLower ⊢
  have moved : (s.proc.withSz2 sz2).Bounded := by
    refine ⟨bounded.low, ?_, ?_⟩
    · rw [Proc.withSz2_sz2, isLower]
      simp only [PGSIZE] at below aligned ⊢
      omega
    · rw [Proc.withSz2_sz2, isLower]
      omega
  exact became.effect moved rfl

theorem pageFault_effect {image : Image} {owner : Nat -> Role} {s : Vm} {pages : Nat -> Prop}
    (heap : Heap image owner s) (space : Space owner s s.proc.pgdir pages)
    (bounded : s.proc.Bounded) :
    Program.wp (pageFault image) (fun _ t => Effect image owner s t) (fun _ => True) s := by
  have aligned := bounded.aligned
  have high := bounded.high
  have low := bounded.low
  have noWrap : (s.proc.sz.toNat + 2 * PGSIZE) % 2 ^ 32 = s.proc.sz.toNat + 2 * PGSIZE := by
    simp only [PGSIZE, USERTOP] at low ⊢
    omega
  unfold pageFault
  rw [Program.wp_bind, Program.wp_read, noWrap]
  by_cases room : s.proc.sz.toNat + 2 * PGSIZE < s.proc.sz2.toNat
  · have below : sub32 s.proc.sz2.toNat PGSIZE + PGSIZE = s.proc.sz2.toNat := by
      simp only [sub32, PGSIZE, USERTOP] at room high aligned ⊢
      omega
    rw [if_pos room, Program.wp_bind]
    generalize stackStart : sub32 s.proc.sz2.toNat PGSIZE = lower at below ⊢
    refine Program.wp_mono (allocuvm_wp heap space) ?_ (fun _ _ => trivial)
    intro size t allocated
    rcases allocated.became heap space with ⟨⟨now, became⟩, _⟩
    by_cases failed : size = 0
    · rw [failed]
      exact moveStack_killed became bounded
    · exact moveStack_moved became bounded failed stackStart below
  · rw [if_neg room]
    exact moveStack_killed (Became.refl heap space) bounded

/-- Any `exec` of a file whose segments lie in user memory. -/
theorem exec_effect {image : Image} {owner : Nat -> Role} {s : Vm} {pages : Nat -> Prop}
    (heap : Heap image owner s) (space : Space owner s s.proc.pgdir pages)
    (bounded : s.proc.Bounded) {namei : List UInt8 -> Option File} {path : List UInt8}
    (argv : List Argument)
    (confined : forall ip, namei path = some ip -> ip.Confined ip.elf.phnum ip.elf.phoff) :
    Program.wp (exec image namei path argv) (fun _ t => Effect image owner s t)
      (fun _ => True) s := by
  cases found : namei path with
  | none =>
      unfold exec
      rw [found]
      exact (Became.refl heap space).effect bounded rfl
  | some ip =>
      refine Program.wp_mono (exec_wp heap space found (confined ip found) argv) ?_
        (fun _ _ => trivial)
      intro result t ended
      have failure : forall {after : Nat -> Role} {d : Nat}, owner d ≠ .dir d ->
          Heap image after t -> Beside d s.proc.pgdir owner after s t ->
          t.proc.pgdir = s.proc.pgdir -> t.proc.Bounded -> Effect image owner s t := by
        intro after d notDir nextHeap beside sameDir nextBounded
        have different : d ≠ s.proc.pgdir := by
          intro same
          rw [same] at notDir
          exact notDir space.dir.self
        refine ⟨after, d, Or.inl notDir, nextHeap, ⟨fun p untouched => ?_, fun p untouched => ?_⟩,
          Or.inl sameDir, nextBounded, pages, ?_⟩
        · exact beside.role p (fun touched => untouched (touched.imp_right Or.inl))
        · refine beside.contents p (fun touched => untouched (touched.imp_right Or.inl))
            (fun zero => ?_)
          rw [zero] at untouched
          exact untouched (Or.inr (Or.inr rfl))
        · rw [sameDir]
          exact beside.caller different space
      cases ended with
      | early notDir nextHeap beside proc _ =>
          refine failure notDir nextHeap beside (by rw [proc]) ?_
          rw [proc]
          exact bounded
      | late notDir nextHeap beside proc _ _ =>
          refine failure notDir nextHeap beside (by rw [proc]; rfl) ?_
          rw [proc]
          refine ⟨bounded.low, ?_, ?_⟩
          · show (UInt32.ofNat (USERTOP - PGSIZE)).toNat % PGSIZE = 0
            decide
          · show (UInt32.ofNat (USERTOP - PGSIZE)).toNat ≤ USERTOP
            decide
      | replaced notDir nextHeap framed nextSpace isDir isSz isSz2 _ _ _ low _ =>
          have round : PGROUNDUP ip.last ≤ USERTOP := by
            rw [PGROUNDUP_eq low]
            have pages := ceilPage_le_userpages low
            simp only [PGSIZE, USERPAGES, USERTOP] at pages ⊢
            omega
          refine ⟨_, _, Or.inl notDir, nextHeap, framed, Or.inr isDir, ⟨?_, ?_, ?_⟩,
            Regions ip.last (USERTOP - PGSIZE), ?_⟩
          · rw [isSz, toNat_ofNat_of_le round]
            exact round
          · rw [isSz2]
            decide
          · rw [isSz2]
            decide
          · rw [isDir]
            exact nextSpace

/-! ## The machine with its process table -/

/-- The number of entries of the process table. -/
def NPROC : Nat := 64

/-- An entry of the process table that is in use: the process and the page of its
kernel stack. -/
structure Task where
  proc : Proc
  kstack : Nat

/-- Memory, the process table and the pages that other parts of the kernel have
taken. -/
structure Host where
  mem : Nat -> Page
  freelist : List Nat
  tasks : Nat -> Option Task
  taken : List Nat
  halted : Option Panic

/-- The machine as the process `p` sees it. -/
def Host.vm (s : Host) (p : Proc) : Vm := { mem := s.mem, freelist := s.freelist, proc := p }

/-- The state after the process in the slot `pid` has run. -/
def Host.put (s : Host) (pid : Nat) (task : Task) (v : Vm) : Host :=
  { s with mem := v.mem, freelist := v.freelist,
           tasks := Function.update s.tasks pid (some { task with proc := v.proc }) }

/-- The state after a child has been entered. -/
def Host.add (s : Host) (child : Nat) (task : Task) : Host :=
  { s with tasks := Function.update s.tasks child (some task) }

/-- The first unused slot. -/
def Host.allocproc (s : Host) : Option Nat :=
  (List.range NPROC).find? (fun i => (s.tasks i).isNone)

/-- Continue with what a program returns, or halt.  The first component is the
return value of a system call. -/
def Host.ended {Value : Type} (s : Host) (outcome : Outcome Panic Vm Value)
    (returns : Value -> Vm -> Option Int × Host) : Option Int × Host :=
  match outcome with
  | .done value v => returns value v
  | .panic reason => (none, { s with halted := some reason })

/-- The system calls that allocate memory. -/
inductive Call
  | fork
  | exec (namei : List UInt8 -> Option File) (path : List UInt8) (argv : List Argument)
  | sbrk (n : UInt32)

/-- The return value of a system call and the state after it. -/
def serve (image : Image) (s : Host) (pid : Nat) (task : Task) : Call -> Option Int × Host
  | .fork => match s.allocproc with
      | none => (some (-1), s)
      | some child => s.ended (fork image (s.vm task.proc)) (fun result v =>
          match result with
          | none => (some (-1), s.put pid task v)
          | some (np, kstack) => (some child, (s.put pid task v).add child ⟨np, kstack⟩))
  | .exec namei path argv => s.ended (exec image namei path argv (s.vm task.proc)) (fun result v =>
      (some result, s.put pid task v))
  | .sbrk n => s.ended (growproc image n (s.vm task.proc)) (fun result v =>
      (some (if result < 0 then -1 else task.proc.sz.toNat), s.put pid task v))

/-- What `wait` frees of a child that has exited. -/
def reap (image : Image) (task : Task) : VmProgram Unit := do
  kfree image task.kstack
  freevm image task.proc.pgdir

/-- A step of the machine.  A child that has exited does nothing until its parent
waits for it, so that its exit is not a step of its own. -/
inductive Act
  | call (pid : Nat) (call : Call)
  | pageFault (pid : Nat)
  | store (pid v : Nat) (contents : Page)
  | wait (pid : Nat)
  | kalloc
  | kfree (page : Nat)

/-- One step of the machine. -/
def act (image : Image) (s : Host) (event : Act) : Option Host :=
  if s.halted ≠ none then none
  else match event with
    | .call pid call => (s.tasks pid).map (fun task => (serve image s pid task call).2)
    | .pageFault pid => (s.tasks pid).map (fun task =>
        (s.ended (pageFault image (s.vm task.proc)) (fun _ v => (none, s.put pid task v))).2)
    | .store pid v contents => (s.tasks pid).bind (fun task =>
        if v < USERPAGES ∧ Present (pte (s.vm task.proc) task.proc.pgdir v) then
          some { s with
            mem := Function.update s.mem
              (PTE_ADDR (pte (s.vm task.proc) task.proc.pgdir v)) contents }
        else none)
    | .wait pid => (s.tasks pid).map (fun task =>
        (s.ended (reap image task (s.vm task.proc)) (fun _ v => (none, { s with
          mem := v.mem, freelist := v.freelist, tasks := Function.update s.tasks pid none }))).2)
    | .kalloc => match s.freelist with
        | [] => none
        | r :: rest => some { s with freelist := rest, taken := r :: s.taken }
    | .kfree page =>
        if page ∈ s.taken then some { s with
          mem := Function.update s.mem page (Bytes.fill 1), freelist := page :: s.freelist,
          taken := s.taken.erase page }
        else none

/-- The machine after `userinit`: one process with a single page at address 0,
and the pages that the kernel has taken for itself. -/
def Booted (image : Image) (s : Host) : Prop :=
  Exists fun owner => Exists fun task => s.tasks 0 = some task ∧
    (forall pid, pid ≠ 0 -> s.tasks pid = none) ∧ Heap image owner (s.vm task.proc) ∧
    Space owner (s.vm task.proc) task.proc.pgdir (fun v => v = 0) ∧
    task.proc.sz.toNat = PGSIZE ∧ task.proc.sz2.toNat = 0 ∧ owner task.kstack = .kernel ∧
    task.kstack ∉ s.taken ∧ s.taken.Nodup ∧ (forall page, page ∈ s.taken -> owner page = .kernel) ∧
    s.halted = none

/-- Every file that is executed has its segments in user memory. -/
def FilesConfined (_s : Host) : Act -> Prop
  | .call _ (.exec namei path _) =>
      forall ip, namei path = some ip -> ip.Confined ip.elf.phnum ip.elf.phoff
  | _ => True

/-- The pages that a process can reach: its directory, its tables, its user pages
and its kernel stack. -/
def Task.Reaches (s : Host) (task : Task) (page : Nat) : Prop :=
  page = task.kstack ∨ page = task.proc.pgdir ∨
    (Exists fun i => i < 1024 ∧ Present (pde (s.vm task.proc) task.proc.pgdir i) ∧
      page = PTE_ADDR (pde (s.vm task.proc) task.proc.pgdir i)) ∨
    (Exists fun v => v < USERPAGES ∧ Present (pte (s.vm task.proc) task.proc.pgdir v) ∧
      page = PTE_ADDR (pte (s.vm task.proc) task.proc.pgdir v))

/-- No page is both free and in use by a process. -/
def FreeUnreachable (s : Host) : Prop :=
  forall pid task page, s.tasks pid = some task -> task.Reaches s page -> page ∉ s.freelist

/-! ## Roots

A role belongs to an address space that exists.  Pages that a failed `setupkvm`
has lost have none, and count as kernel pages from then on.
-/

/-- The address space of a role. -/
def Role.root : Role -> Option Nat
  | .dir d => some d
  | .table d _ => some d
  | .user d _ => some d
  | _ => none

theorem Role.of_iff_root {d : Nat} {r : Role} : r.Of d ↔ r.root = some d := by
  cases r with
  | free | other | kernel => exact iff_of_false id nofun
  | dir e | table e _ | user e _ => exact ⟨congrArg some, Option.some.inj⟩

/-- Roles of address spaces that do not exist become kernel pages. -/
def settle (owner : Nat -> Role) (p : Nat) : Role :=
  match (owner p).root with
  | none => owner p
  | some d => if owner d = .dir d then owner p else .kernel

theorem settle_of {owner : Nat -> Role} {p d : Nat} (mine : (owner p).Of d)
    (exists_ : owner d = .dir d) : settle owner p = owner p := by
  unfold settle
  rw [Role.of_iff_root.mp mine]
  exact if_pos exists_

theorem settle_plain {owner : Nat -> Role} {p : Nat} (plain : (owner p).root = none) :
    settle owner p = owner p := by
  unfold settle
  rw [plain]

theorem settle_cases (owner : Nat -> Role) (p : Nat) :
    settle owner p = owner p ∨ (settle owner p = .kernel ∧ (owner p).root ≠ none) := by
  cases root : (owner p).root with
  | none => exact Or.inl (settle_plain root)
  | some d =>
      by_cases exists_ : owner d = .dir d
      · exact Or.inl (settle_of (Role.of_iff_root.mpr root) exists_)
      · refine Or.inr ⟨?_, Option.some_ne_none d⟩
        unfold settle
        rw [root]
        exact if_neg exists_

theorem settle_rooted {owner : Nat -> Role} {p d : Nat} (mine : (settle owner p).Of d) :
    settle owner d = .dir d := by
  rcases settle_cases owner p with same | ⟨isKernel, _⟩
  · rw [same] at mine
    by_cases exists_ : owner d = .dir d
    · rw [settle_of (by rw [exists_]; exact rfl) exists_, exists_]
    · have lost : settle owner p = .kernel := by
        unfold settle
        rw [Role.of_iff_root.mp mine]
        exact if_neg exists_
      rw [← same, lost] at mine
      exact mine.elim
  · rw [isKernel] at mine
    exact mine.elim

theorem Heap.settle {image : Image} {owner : Nat -> Role} {s : Vm} (heap : Heap image owner s) :
    Heap image (settle owner) s := by
  refine ⟨fun p => (heap.free p).trans ?_, heap.nodup, fun p managed => heap.managed p ?_⟩
  · rcases settle_cases owner p with same | ⟨isKernel, rooted⟩
    · rw [same]
    · rw [isKernel]
      exact iff_of_false (fun isFree => rooted (by rw [isFree]; rfl)) Role.noConfusion
  · rcases settle_cases owner p with same | ⟨_, rooted⟩
    · rw [same] at managed
      exact managed
    · exact fun isOther => rooted (by rw [isOther]; rfl)

theorem Space.settle {owner : Nat -> Role} {s : Vm} {d : Nat} {pages : Nat -> Prop}
    (space : Space owner s d pages) : Space (settle owner) s d pages :=
  space.kept (fun _ mine => settle_of mine space.dir.self) (fun _ _ => rfl)

/-! ## The invariant -/

/-- Every process owns its address space and its kernel stack. -/
structure Kept (image : Image) (owner : Nat -> Role) (s : Host) : Prop where
  heap : forall p, Heap image owner (s.vm p)
  space : forall pid task, s.tasks pid = some task ->
    Exists fun pages => Space owner (s.vm task.proc) task.proc.pgdir pages
  bounded : forall pid task, s.tasks pid = some task -> task.proc.Bounded
  distinct : forall i j a b, s.tasks i = some a -> s.tasks j = some b ->
    a.proc.pgdir = b.proc.pgdir -> i = j
  stack : forall pid task, s.tasks pid = some task ->
    owner task.kstack = .kernel ∧ task.kstack ∉ s.taken
  unshared : forall i j a b, s.tasks i = some a -> s.tasks j = some b ->
    a.kstack = b.kstack -> i = j
  taken : forall page, page ∈ s.taken -> owner page = .kernel
  nodup : s.taken.Nodup
  rooted : forall p d, (owner p).Of d -> owner d = .dir d

theorem Kept.freeUnreachable {image : Image} {owner : Nat -> Role} {s : Host}
    (kept : Kept image owner s) : FreeUnreachable s := by
  intro pid task page live reaches isFree
  have role := ((kept.heap task.proc).free page).mp isFree
  rcases kept.space pid task live with ⟨pages, space⟩
  rcases reaches with rfl | rfl | ⟨i, below, present, rfl⟩ | ⟨v, below, present, rfl⟩
  · rw [(kept.stack pid task live).1] at role
    cases role
  · rw [space.dir.self] at role
    cases role
  · rw [space.dir.table i below present] at role
    cases role
  · rw [space.dir.user v below present] at role
    cases role

/-- The entries of a table after one of them has changed. -/
theorem update_cases {Entry : Type} {table : Nat -> Option Entry} {i j : Nat} {new : Option Entry}
    {entry : Entry} (live : Function.update table i new j = some entry) :
    (j = i ∧ new = some entry) ∨ (j ≠ i ∧ table j = some entry) := by
  by_cases here : j = i
  · rw [here, Function.update_self] at live
    exact Or.inl ⟨here, live⟩
  · rw [Function.update_of_ne here] at live
    exact Or.inr ⟨here, live⟩

/-- The directory of a process is neither that of another one nor a new one. -/
theorem Kept.foreign {image : Image} {owner : Nat -> Role} {s : Host} {pid j d : Nat}
    {task other : Task} (kept : Kept image owner s) (live : s.tasks pid = some task)
    (otherLive : s.tasks j = some other) (different : j ≠ pid)
    (new : owner d ≠ .dir d ∨ d = task.proc.pgdir) :
    task.proc.pgdir ≠ other.proc.pgdir ∧ d ≠ other.proc.pgdir := by
  have apart : task.proc.pgdir ≠ other.proc.pgdir := fun same =>
    different (kept.distinct pid j task other live otherLive same).symm
  refine ⟨apart, fun same => ?_⟩
  rcases new with notDir | isOwn
  · rcases kept.space j other otherLive with ⟨pages, space⟩
    rw [same] at notDir
    exact notDir space.dir.self
  · exact apart (isOwn.symm.trans same)

/-- The step of one process keeps the others. -/
theorem Kept.put {image : Image} {owner after : Nat -> Role} {s : Host} {pid d : Nat} {task : Task}
    {v : Vm} {now : Nat -> Prop} (kept : Kept image owner s) (live : s.tasks pid = some task)
    (new : owner d ≠ .dir d ∨ d = task.proc.pgdir) (heap : Heap image after v)
    (framed : Framed (fun r => r = .free ∨ r.Of d ∨ r.Of task.proc.pgdir) owner after
      (s.vm task.proc) v)
    (sameDir : v.proc.pgdir = task.proc.pgdir ∨ v.proc.pgdir = d) (bounded : v.proc.Bounded)
    (space : Space after v v.proc.pgdir now) : Kept image (settle after) (s.put pid task v) := by
  have kernel : forall {page : Nat}, owner page = .kernel -> settle after page = .kernel := by
    intro page isKernel
    have same : after page = .kernel := by
      rw [framed.role page (by rw [isKernel]; rintro (impossible | impossible | impossible)
                               · cases impossible
                               · exact impossible
                               · exact impossible), isKernel]
    rw [settle_plain (by rw [same]; rfl), same]
  have apart : forall {j : Nat} {other : Task}, j ≠ pid -> s.tasks j = some other ->
      other.proc.pgdir ≠ v.proc.pgdir := by
    intro j other different otherLive same
    have both := kept.foreign live otherLive different new
    rcases sameDir with isOwn | isNew
    · exact both.1 (isOwn.symm.trans same.symm)
    · exact both.2 (isNew.symm.trans same.symm)
  refine ⟨fun _ => heap.settle.congr rfl, fun j other otherLive => ?_, fun j other otherLive => ?_,
    fun i j a b liveI liveJ same => ?_, fun j other otherLive => ?_, fun i j a b liveI liveJ same =>
    ?_, fun page member => kernel (kept.taken page member), kept.nodup, fun _ _ => settle_rooted⟩
  · rcases update_cases otherLive with ⟨_, isTask⟩ | ⟨different, old⟩
    · rw [← Option.some.inj isTask]
      exact ⟨now, space.settle.of_mem rfl⟩
    · rcases kept.space j other old with ⟨pages, otherSpace⟩
      have both := kept.foreign live old different new
      have same : Framed (fun r => r = .free ∨ r.Of d ∨ r.Of task.proc.pgdir) owner after
          (s.vm other.proc) v := ⟨framed.role, framed.contents⟩
      refine ⟨pages, (otherSpace.framed same (fun r mine touched => ?_)).settle.of_mem rfl⟩
      rcases touched with isFree | isNew | isOwn
      · exact Role.Of.untouched both.1 mine (Or.inl isFree)
      · exact Role.Of.untouched both.2 mine (Or.inr isNew)
      · exact Role.Of.untouched both.1 mine (Or.inr isOwn)
  · rcases update_cases otherLive with ⟨_, isTask⟩ | ⟨_, old⟩
    · rw [← Option.some.inj isTask]
      exact bounded
    · exact kept.bounded j other old
  · rcases update_cases liveI with ⟨hereI, isTask⟩ | ⟨differentI, oldI⟩
    · rcases update_cases liveJ with ⟨hereJ, _⟩ | ⟨differentJ, oldJ⟩
      · rw [hereI, hereJ]
      · rw [← Option.some.inj isTask] at same
        exact absurd same.symm (apart differentJ oldJ)
    · rcases update_cases liveJ with ⟨_, isTask⟩ | ⟨_, oldJ⟩
      · rw [← Option.some.inj isTask] at same
        exact absurd same (apart differentI oldI)
      · exact kept.distinct i j a b oldI oldJ same
  · rcases update_cases otherLive with ⟨_, isTask⟩ | ⟨_, old⟩
    · rw [← Option.some.inj isTask]
      exact ⟨kernel (kept.stack pid task live).1, (kept.stack pid task live).2⟩
    · exact ⟨kernel (kept.stack j other old).1, (kept.stack j other old).2⟩
  · rcases update_cases liveI with ⟨hereI, isTask⟩ | ⟨_, oldI⟩
    · rw [← Option.some.inj isTask] at same
      rcases update_cases liveJ with ⟨hereJ, _⟩ | ⟨_, oldJ⟩
      · rw [hereI, hereJ]
      · rw [hereI]
        exact kept.unshared pid j task b live oldJ same
    · rcases update_cases liveJ with ⟨hereJ, isTask⟩ | ⟨_, oldJ⟩
      · rw [← Option.some.inj isTask] at same
        rw [hereJ]
        exact kept.unshared i pid a task oldI live same
      · exact kept.unshared i j a b oldI oldJ same

theorem Kept.effect {image : Image} {owner : Nat -> Role} {s : Host} {pid : Nat} {task : Task}
    {v : Vm} (kept : Kept image owner s) (live : s.tasks pid = some task)
    (effect : Effect image owner (s.vm task.proc) v) :
    Exists fun after => Kept image after (s.put pid task v) := by
  rcases effect with ⟨after, d, new, heap, framed, sameDir, bounded, now, space⟩
  exact ⟨_, kept.put live new heap framed sameDir bounded space⟩

/-- A new process. -/
theorem Kept.add {image : Image} {owner : Nat -> Role} {s : Host} {child : Nat} {task : Task}
    {pages : Nat -> Prop} (kept : Kept image owner s)
    (space : Space owner (s.vm task.proc) task.proc.pgdir pages) (bounded : task.proc.Bounded)
    (distinct : forall j other, s.tasks j = some other -> other.proc.pgdir ≠ task.proc.pgdir)
    (isKernel : owner task.kstack = .kernel) (fresh : task.kstack ∉ s.taken)
    (unshared : forall j other, s.tasks j = some other -> other.kstack ≠ task.kstack) :
    Kept image owner (s.add child task) := by
  refine ⟨fun p => (kept.heap p).congr rfl, fun j other otherLive => ?_,
    fun j other otherLive => ?_, fun i j a b liveI liveJ same => ?_, fun j other otherLive => ?_,
    fun i j a b liveI liveJ same => ?_, kept.taken, kept.nodup, kept.rooted⟩
  · rcases update_cases otherLive with ⟨_, isTask⟩ | ⟨_, old⟩
    · rw [← Option.some.inj isTask]
      exact ⟨pages, space.of_mem rfl⟩
    · rcases kept.space j other old with ⟨otherPages, otherSpace⟩
      exact ⟨otherPages, otherSpace.of_mem rfl⟩
  · rcases update_cases otherLive with ⟨_, isTask⟩ | ⟨_, old⟩
    · rw [← Option.some.inj isTask]
      exact bounded
    · exact kept.bounded j other old
  · rcases update_cases liveI with ⟨hereI, isTask⟩ | ⟨_, oldI⟩
    · rcases update_cases liveJ with ⟨hereJ, _⟩ | ⟨_, oldJ⟩
      · rw [hereI, hereJ]
      · rw [← Option.some.inj isTask] at same
        exact absurd same.symm (distinct j b oldJ)
    · rcases update_cases liveJ with ⟨_, isTask⟩ | ⟨_, oldJ⟩
      · rw [← Option.some.inj isTask] at same
        exact absurd same (distinct i a oldI)
      · exact kept.distinct i j a b oldI oldJ same
  · rcases update_cases otherLive with ⟨_, isTask⟩ | ⟨_, old⟩
    · rw [← Option.some.inj isTask]
      exact ⟨isKernel, fresh⟩
    · exact kept.stack j other old
  · rcases update_cases liveI with ⟨hereI, isTask⟩ | ⟨_, oldI⟩
    · rcases update_cases liveJ with ⟨hereJ, _⟩ | ⟨_, oldJ⟩
      · rw [hereI, hereJ]
      · rw [← Option.some.inj isTask] at same
        exact absurd same.symm (unshared j b oldJ)
    · rcases update_cases liveJ with ⟨_, isTask⟩ | ⟨_, oldJ⟩
      · rw [← Option.some.inj isTask] at same
        exact absurd same (unshared i a oldI)
      · exact kept.unshared i j a b oldI oldJ same

theorem Kept.halt {image : Image} {owner : Nat -> Role} {s : Host} (kept : Kept image owner s)
    (reason : Panic) : Kept image owner { s with halted := some reason } :=
  ⟨kept.heap, kept.space, kept.bounded, kept.distinct, kept.stack, kept.unshared, kept.taken,
    kept.nodup, kept.rooted⟩

/-- A step that runs a specified program. -/
theorem Kept.ended {image : Image} {owner : Nat -> Role} {s : Host} {Value : Type} {p : Proc}
    {program : VmProgram Value} {post : Value -> Vm -> Prop} {escape : Panic -> Prop}
    {returns : Value -> Vm -> Option Int × Host} (kept : Kept image owner s)
    (holds : Program.wp program post escape (s.vm p))
    (goesOn : forall value v, post value v ->
      Exists fun after => Kept image after (returns value v).2) :
    Exists fun after => Kept image after (s.ended (program (s.vm p)) returns).2 := by
  unfold Program.wp at holds
  unfold Host.ended
  cases ended : program (s.vm p) with
  | done value v =>
      rw [ended] at holds
      exact goesOn value v holds
  | panic reason => exact ⟨owner, kept.halt reason⟩

/-! ## Steps -/

theorem Kept.fork {image : Image} {owner : Nat -> Role} {s : Host} {pid child : Nat} {task : Task}
    (kept : Kept image owner s) (live : s.tasks pid = some task) :
    Exists fun after => Kept image after (s.ended (AddressSpace.fork image (s.vm task.proc))
      (fun result v => match result with
        | none => (some (-1), s.put pid task v)
        | some (np, kstack) => (some child, (s.put pid task v).add child ⟨np, kstack⟩))).2 := by
  rcases kept.space pid task live with ⟨pages, space⟩
  have bounded := kept.bounded pid task live
  refine kept.ended (fork_restores (s := s.vm task.proc) bounded (kept.heap task.proc)) ?_
  rintro result v ⟨after, d, notDir, heap, framed, proc, outcome⟩
  have different : d ≠ task.proc.pgdir := by
    intro same
    rw [same] at notDir
    exact notDir space.dir.self
  have wider := framed.mono (fun r touched => touched.imp_right
    (Or.inl : r.Of d -> r.Of d ∨ r.Of task.proc.pgdir))
  have own : Space after v v.proc.pgdir pages := by
    rw [proc]
    exact space.framed framed (fun _ => Role.Of.untouched different)
  have put := kept.put live (Or.inl notDir) heap wider (Or.inl (by rw [proc]; rfl))
    (by rw [proc]; exact bounded) own
  cases result with
  | none => exact ⟨_, put⟩
  | some pair =>
      rcases pair with ⟨np, kstack⟩
      rcases outcome with ⟨isDir, isSz, isSz2, ⟨now, childSpace⟩, isKernel, wasFree⟩
      have kernelBefore : forall {page : Nat}, owner page = .kernel -> page ≠ kstack := by
        intro page role same
        rw [same, wasFree] at role
        cases role
      have childPages : Space (settle after) ((s.put pid task v).vm np) np.pgdir now := by
        rw [isDir]
        exact childSpace.settle.of_mem rfl
      refine ⟨_, put.add childPages ?_ (fun j other otherLive same => ?_) ?_ (fun member => ?_)
        (fun j other otherLive => ?_)⟩
      · refine ⟨?_, ?_, ?_⟩
        · show np.sz.toNat ≤ USERTOP
          rw [isSz]
          exact bounded.low
        · show np.sz2.toNat % PGSIZE = 0
          rw [isSz2]
          exact bounded.aligned
        · show np.sz2.toNat ≤ USERTOP
          rw [isSz2]
          exact bounded.high
      · have fromParent : other.proc.pgdir = d := same.trans isDir
        rcases update_cases otherLive with ⟨_, isTask⟩ | ⟨apart, old⟩
        · rw [← Option.some.inj isTask] at fromParent
          have parentDir : v.proc.pgdir = task.proc.pgdir := by rw [proc]; rfl
          exact different (fromParent.symm.trans parentDir)
        · exact (kept.foreign live old apart (Or.inl notDir)).2 fromParent.symm
      · show settle after kstack = .kernel
        rw [settle_plain (by rw [isKernel]; rfl), isKernel]
      · exact kernelBefore (kept.taken kstack member) rfl
      · rcases update_cases otherLive with ⟨_, isTask⟩ | ⟨_, old⟩
        · rw [← Option.some.inj isTask]
          exact kernelBefore (kept.stack pid task live).1
        · exact kernelBefore (kept.stack j other old).1

/-- Every system call keeps the invariant. -/
theorem Kept.serve {image : Image} {owner : Nat -> Role} {s : Host} {pid : Nat} {task : Task}
    {call : Call} (kept : Kept image owner s) (live : s.tasks pid = some task)
    (confined : FilesConfined s (.call pid call)) :
    Exists fun after => Kept image after (serve image s pid task call).2 := by
  rcases kept.space pid task live with ⟨pages, space⟩
  have bounded := kept.bounded pid task live
  cases call with
  | fork =>
      unfold AddressSpace.serve
      cases s.allocproc with
      | none => exact ⟨owner, kept⟩
      | some child => exact kept.fork live
  | exec namei path argv =>
      exact kept.ended (exec_effect (kept.heap task.proc) space bounded argv confined)
        (fun _ v effect => kept.effect live effect)
  | sbrk n =>
      exact kept.ended (growproc_effect (kept.heap task.proc) space bounded n)
        (fun _ v effect => kept.effect live effect)

theorem Kept.store {image : Image} {owner : Nat -> Role} {s : Host} {pid v : Nat} {task : Task}
    (kept : Kept image owner s) (live : s.tasks pid = some task) (isUser : v < USERPAGES)
    (present : Present (pte (s.vm task.proc) task.proc.pgdir v)) (contents : Page) :
    Kept image owner { s with
      mem := Function.update s.mem
        (PTE_ADDR (pte (s.vm task.proc) task.proc.pgdir v)) contents } := by
  rcases kept.space pid task live with ⟨pages, space⟩
  have role := space.dir.user v isUser present
  refine ⟨fun p => (kept.heap p).congr rfl, fun j other otherLive => ?_, kept.bounded,
    kept.distinct, kept.stack, kept.unshared, kept.taken, kept.nodup, kept.rooted⟩
  rcases kept.space j other otherLive with ⟨otherPages, otherSpace⟩
  exact ⟨otherPages, (otherSpace.store_user role contents).of_mem rfl⟩

/-- What `wait` frees, besides the page of the kernel stack. -/
theorem reap_wp {image : Image} {owner : Nat -> Role} {s : Vm} {task : Task} {pages : Nat -> Prop}
    (heap : Heap image owner s) (space : Space owner s task.proc.pgdir pages)
    (isKernel : owner task.kstack = .kernel) :
    Program.wp (reap image task)
      (fun _ t => Exists fun after => Heap image after t ∧
        forall p, p ≠ task.kstack -> ¬ (owner p = .free ∨ (owner p).Of task.proc.pgdir) ->
          after p = owner p ∧ t.mem p = s.mem p)
      (fun _ => False) s := by
  have managed : owner task.kstack ≠ .other := by rw [isKernel]; exact Role.noConfusion
  have used : owner task.kstack ≠ .free := by rw [isKernel]; exact Role.noConfusion
  have notMine : forall {p : Nat}, (owner p).Of task.proc.pgdir -> p ≠ task.kstack := by
    intro p mine same
    rw [same, isKernel] at mine
    exact mine
  unfold reap
  rw [Program.wp_bind]
  refine kfree_wp heap managed ?_
  have freedHeap := heap.give used managed (s.withPage task.kstack (Bytes.fill 1)).mem s.proc
  have freedSpace : Space (Function.update owner task.kstack .free)
      { s with mem := (s.withPage task.kstack (Bytes.fill 1)).mem,
               freelist := task.kstack :: s.freelist } task.proc.pgdir pages := by
    refine space.kept (fun p mine => Function.update_of_ne (notMine mine) _ _)
      (fun p structural => ?_)
    refine Vm.withPage_mem_of_ne _ _ (notMine ?_)
    rcases structural with self | ⟨i, table⟩
    · rw [self]
      exact rfl
    · rw [table]
      exact rfl
  refine Program.wp_mono (freevm_wp freedHeap freedSpace) ?_ (fun _ stopped => stopped)
  rintro _ t ⟨after, lastHeap, within, _⟩
  refine ⟨after, lastHeap, fun p different untouched => ?_⟩
  have still : ¬ (Function.update owner task.kstack .free p = .free ∨
      (Function.update owner task.kstack .free p).Of task.proc.pgdir) := by
    rw [Function.update_of_ne different]
    exact untouched
  refine ⟨?_, ?_⟩
  · rw [within.framed.role p still, Function.update_of_ne different]
  · rw [within.framed.contents p still]
    exact Vm.withPage_mem_of_ne _ _ different

theorem Kept.wait {image : Image} {owner : Nat -> Role} {s : Host} {pid : Nat} {task : Task}
    (kept : Kept image owner s) (live : s.tasks pid = some task) :
    Exists fun after => Kept image after (s.ended (reap image task (s.vm task.proc))
      (fun _ v => (none, { s with
        mem := v.mem, freelist := v.freelist, tasks := Function.update s.tasks pid none }))).2 := by
  rcases kept.space pid task live with ⟨pages, space⟩
  have own := kept.stack pid task live
  refine kept.ended (reap_wp (kept.heap task.proc) space own.1) ?_
  rintro _ v ⟨after, heap, framed⟩
  have kernel : forall {page : Nat}, owner page = .kernel -> page ≠ task.kstack ->
      settle after page = .kernel := by
    intro page isKernel different
    have same : after page = .kernel := by
      rw [(framed page different (by rw [isKernel]; rintro (impossible | impossible)
                                     · cases impossible
                                     · exact impossible)).1, isKernel]
    rw [settle_plain (by rw [same]; rfl), same]
  have remaining : forall {j : Nat} {other : Task},
      Function.update s.tasks pid none j = some other -> j ≠ pid ∧ s.tasks j = some other := by
    intro j other otherLive
    rcases update_cases otherLive with ⟨_, impossible⟩ | still
    · cases impossible
    · exact still
  have apart : forall {j : Nat} {other : Task}, j ≠ pid -> s.tasks j = some other ->
      other.kstack ≠ task.kstack := fun different old same =>
    different (kept.unshared _ pid _ task old live same)
  refine ⟨settle after, fun _ => heap.settle.congr rfl, fun j other otherLive => ?_,
    fun j other otherLive => ?_, fun i j a b liveI liveJ => ?_, fun j other otherLive => ?_,
    fun i j a b liveI liveJ => ?_, fun page member => ?_, kept.nodup, fun _ _ => settle_rooted⟩
  · rcases remaining otherLive with ⟨different, old⟩
    rcases kept.space j other old with ⟨otherPages, otherSpace⟩
    have both := kept.foreign live old different (Or.inr rfl)
    have kernelPage : forall {p : Nat}, (owner p).Of other.proc.pgdir -> p ≠ task.kstack := by
      intro p mine same
      rw [same, own.1] at mine
      exact mine
    refine ⟨otherPages, (otherSpace.kept (fun p mine => ?_) (fun p structural => ?_)).settle.of_mem
      rfl⟩
    · exact (framed p (kernelPage mine) (Role.Of.untouched both.1 mine)).1
    · have mine : (owner p).Of other.proc.pgdir := by
        rcases structural with self | ⟨i, table⟩
        · rw [self]
          exact rfl
        · rw [table]
          exact rfl
      exact (framed p (kernelPage mine) (Role.Of.untouched both.1 mine)).2
  · exact kept.bounded j other (remaining otherLive).2
  · exact kept.distinct i j a b (remaining liveI).2 (remaining liveJ).2
  · rcases remaining otherLive with ⟨different, old⟩
    exact ⟨kernel (kept.stack j other old).1 (apart different old), (kept.stack j other old).2⟩
  · exact kept.unshared i j a b (remaining liveI).2 (remaining liveJ).2
  · refine kernel (kept.taken page member) (fun same => own.2 ?_)
    rw [← same]
    exact member

/-- One page that no address space has changes its role. -/
theorem Kept.retag {image : Image} {owner : Nat -> Role} {s t : Host} {r : Nat} {role : Role}
    (kept : Kept image owner s) (plain : (owner r).root = none) (newPlain : role.root = none)
    (heap : forall p, Heap image (Function.update owner r role) (t.vm p))
    (contents : forall p, p ≠ r -> t.mem p = s.mem p) (tasks : t.tasks = s.tasks)
    (stack : forall pid task, s.tasks pid = some task -> task.kstack ≠ r ∧ task.kstack ∉ t.taken)
    (taken : forall page, page ∈ t.taken ->
      (page = r ∧ role = .kernel) ∨ (page ≠ r ∧ page ∈ s.taken)) (nodup : t.taken.Nodup) :
    Kept image (Function.update owner r role) t := by
  have mine : forall {p d : Nat}, (owner p).Of d -> p ≠ r := by
    intro p d isMine same
    rw [same] at isMine
    rw [Role.of_iff_root.mp isMine] at plain
    cases plain
  refine ⟨heap, fun j other otherLive => ?_, ?_, ?_, fun j other otherLive => ?_, ?_,
    fun page member => ?_, nodup, fun p d isMine => ?_⟩
  · rw [tasks] at otherLive
    rcases kept.space j other otherLive with ⟨pages, space⟩
    refine ⟨pages, space.kept (fun p isMine => Function.update_of_ne (mine isMine) _ _)
      (fun p structural => contents p (mine (d := other.proc.pgdir) ?_))⟩
    rcases structural with self | ⟨i, table⟩
    · rw [self]
      exact rfl
    · rw [table]
      exact rfl
  · rw [tasks]
    exact kept.bounded
  · rw [tasks]
    exact kept.distinct
  · rw [tasks] at otherLive
    have facts := stack j other otherLive
    rw [Function.update_of_ne facts.1]
    exact ⟨(kept.stack j other otherLive).1, facts.2⟩
  · rw [tasks]
    exact kept.unshared
  · rcases taken page member with ⟨rfl, isKernel⟩ | ⟨different, old⟩
    · rw [Function.update_self, isKernel]
    · rw [Function.update_of_ne different]
      exact kept.taken page old
  · by_cases same : p = r
    · rw [same, Function.update_self, Role.of_iff_root, newPlain] at isMine
      cases isMine
    · rw [Function.update_of_ne same] at isMine
      have isDir := kept.rooted p d isMine
      rw [Function.update_of_ne (mine (d := d) (by rw [isDir]; exact rfl)), isDir]

/-- The kernel takes a page for itself. -/
theorem Kept.kalloc {image : Image} {owner : Nat -> Role} {s : Host} {r : Nat} {rest : List Nat}
    (kept : Kept image owner s) (head : s.freelist = r :: rest) :
    Kept image (Function.update owner r .kernel)
      { s with freelist := rest, taken := r :: s.taken } := by
  have isFree : owner r = .free := by
    refine ((kept.heap default).free r).mp ?_
    show r ∈ s.freelist
    rw [head]
    exact List.mem_cons_self
  have used : forall {page : Nat}, owner page = .kernel -> page ≠ r := by
    intro page isKernel same
    rw [same, isFree] at isKernel
    cases isKernel
  refine kept.retag (by rw [isFree]; rfl) rfl (fun p => (kept.heap p).take head
    Role.noConfusion _ _) (fun _ _ => rfl) rfl (fun pid task live => ?_) (fun page member => ?_)
    (List.nodup_cons.mpr ⟨fun member => used (kept.taken r member) rfl, kept.nodup⟩)
  · have facts := kept.stack pid task live
    refine ⟨used facts.1, fun member => ?_⟩
    rcases List.mem_cons.mp member with same | old
    · exact used facts.1 same
    · exact facts.2 old
  · rcases List.mem_cons.mp member with same | old
    · exact Or.inl ⟨same, rfl⟩
    · exact Or.inr ⟨used (kept.taken page old), old⟩

/-- The kernel returns a page that it has taken. -/
theorem Kept.kfree {image : Image} {owner : Nat -> Role} {s : Host} {page : Nat}
    (kept : Kept image owner s) (member : page ∈ s.taken) :
    Kept image (Function.update owner page .free) { s with
      mem := Function.update s.mem page (Bytes.fill 1), freelist := page :: s.freelist,
      taken := s.taken.erase page } := by
  have isKernel := kept.taken page member
  refine kept.retag (by rw [isKernel]; rfl) rfl
    (fun p => (kept.heap p).give (by rw [isKernel]; exact Role.noConfusion)
      (by rw [isKernel]; exact Role.noConfusion) _ _)
    (fun p different => Function.update_of_ne different _ _) rfl (fun pid task live => ?_)
    (fun other still => Or.inr ?_) (kept.nodup.erase page)
  · have facts := kept.stack pid task live
    refine ⟨fun same => facts.2 ?_, fun still => facts.2 (List.mem_of_mem_erase still)⟩
    rw [same]
    exact member
  · exact (kept.nodup.mem_erase_iff.mp still)

theorem Kept.of_booted {image : Image} {s : Host} (booted : Booted image s) :
    Exists fun owner => Kept image owner s := by
  rcases booted with ⟨owner, task, first, others, heap, space, isSz, isSz2, isKernel, fresh, nodup,
    taken, _⟩
  have only : forall {pid : Nat} {other : Task}, s.tasks pid = some other ->
      pid = 0 ∧ other = task := by
    intro pid other live
    by_cases isFirst : pid = 0
    · rw [isFirst, first] at live
      exact ⟨isFirst, (Option.some.inj live).symm⟩
    · rw [others pid isFirst] at live
      cases live
  have settled : forall {page : Nat}, owner page = .kernel -> settle owner page = .kernel := by
    intro page role
    rw [settle_plain (by rw [role]; rfl), role]
  refine ⟨settle owner, fun _ => heap.settle.congr rfl, fun pid other live => ?_,
    fun pid other live => ?_, fun i j a b liveI liveJ _ => ?_, fun pid other live => ?_,
    fun i j a b liveI liveJ _ => ?_, fun page member => settled (taken page member), nodup,
    fun _ _ => settle_rooted⟩
  · rw [(only live).2]
    exact ⟨_, space.settle⟩
  · rw [(only live).2]
    refine ⟨?_, ?_, ?_⟩
    · rw [isSz]
      decide
    · rw [isSz2]
      decide
    · rw [isSz2]
      decide
  · rw [(only liveI).1, (only liveJ).1]
  · rw [(only live).2]
    exact ⟨settled isKernel, fresh⟩
  · rw [(only liveI).1, (only liveJ).1]

/-- Every step keeps the invariant. -/
theorem Kept.act {image : Image} {owner : Nat -> Role} {s t : Host} {event : Act}
    (kept : Kept image owner s) (confined : FilesConfined s event)
    (stepped : act image s event = some t) : Exists fun after => Kept image after t := by
  unfold AddressSpace.act at stepped
  by_cases stopped : s.halted ≠ none
  · rw [if_pos stopped] at stepped
    cases stepped
  · rw [if_neg stopped] at stepped
    cases event with
    | call pid call =>
        rcases Option.map_eq_some_iff.mp stepped with ⟨task, live, rfl⟩
        exact kept.serve live confined
    | pageFault pid =>
        rcases Option.map_eq_some_iff.mp stepped with ⟨task, live, rfl⟩
        rcases kept.space pid task live with ⟨pages, space⟩
        exact kept.ended (pageFault_effect (kept.heap task.proc) space (kept.bounded pid task live))
          (fun _ v effect => kept.effect live effect)
    | store pid v contents =>
        rcases Option.bind_eq_some_iff.mp stepped with ⟨task, live, stored⟩
        by_cases mapped : v < USERPAGES ∧ Present (pte (s.vm task.proc) task.proc.pgdir v)
        · rw [if_pos mapped] at stored
          rw [← Option.some.inj stored]
          exact ⟨owner, kept.store live mapped.1 mapped.2 contents⟩
        · rw [if_neg mapped] at stored
          cases stored
    | wait pid =>
        rcases Option.map_eq_some_iff.mp stepped with ⟨task, live, rfl⟩
        exact kept.wait live
    | kalloc =>
        simp only at stepped
        cases list : s.freelist with
        | nil =>
            rw [list] at stepped
            cases stepped
        | cons r rest =>
            rw [list] at stepped
            rw [← Option.some.inj stepped]
            exact ⟨_, kept.kalloc list⟩
    | kfree page =>
        simp only at stepped
        by_cases member : page ∈ s.taken
        · rw [if_pos member] at stepped
          rw [← Option.some.inj stepped]
          exact ⟨_, kept.kfree member⟩
        · rw [if_neg member] at stepped
          cases stepped

/-! ## Failed calls -/

/-- The calls that ask for memory: an `sbrk` that does not grow allocates
nothing. -/
def Call.Allocates : Call -> Prop
  | .sbrk n => 0 < n.toNat ∧ n.toNat < 2 ^ 31
  | _ => True

/-- When a failed call returns exactly what it took.  A `fork` needs one page for
the kernel stack and an `exec` none before `setupkvm`, which must get all of its
thirteen pages or not a single one.  An `sbrk` must not reach over a mapped page. -/
def Thrifty (s : Host) (task : Task) : Call -> Prop
  | .fork => s.allocproc ≠ none -> ForkBalanced s.freelist.length
  | .exec namei path _ => forall ip, namei path = some ip -> ip.accepted = true ->
      s.freelist.length = 0 ∨ 13 ≤ s.freelist.length
  | .sbrk n => USERTOP - 2 * PGSIZE < task.proc.sz.toNat + n.toNat ∨
      forall v, v < USERPAGES -> Between task.proc.sz.toNat (task.proc.sz.toNat + n.toNat) v ->
        ¬ Present (pte (s.vm task.proc) task.proc.pgdir v)

/-- The same pages are free. -/
def SameFree (s t : List Nat) : Prop := forall p, p ∈ t ↔ p ∈ s

theorem SameFree.length_eq {image : Image} {owner after : Nat -> Role} {s t : Vm}
    (heap : Heap image owner s) (nextHeap : Heap image after t)
    (same : SameFree s.freelist t.freelist) : t.freelist.length = s.freelist.length :=
  ((List.perm_ext_iff_of_nodup nextHeap.nodup heap.nodup).mpr same).length_eq

/-- Work on a new address space that ends with as many free pages as before ends
with the same free pages. -/
theorem sameFree_iff_length {image : Image} {owner after : Nat -> Role} {s t : Vm} {d : Nat}
    (heap : Heap image owner s) (nextHeap : Heap image after t)
    (rooted : forall p d, (owner p).Of d -> owner d = .dir d) (notDir : owner d ≠ .dir d)
    (role : forall p, ¬ (owner p = .free ∨ (owner p).Of d) -> after p = owner p) :
    SameFree s.freelist t.freelist ↔ t.freelist.length = s.freelist.length := by
  refine ⟨SameFree.length_eq heap nextHeap, fun length => ?_⟩
  have included : t.freelist ⊆ s.freelist := by
    intro p member
    have nowFree := (nextHeap.free p).mp member
    refine (heap.free p).mpr ?_
    by_contra used
    rw [role p (fun touched => touched.elim used (fun mine => notDir (rooted p d mine)))] at nowFree
    exact used nowFree
  have perm := (List.subperm_of_subset nextHeap.nodup included).perm_of_length_le
    (Nat.le_of_eq length.symm)
  exact fun p => perm.mem_iff

/-- A `growproc` that runs out of memory. -/
theorem growproc_sameFree {image : Image} {owner : Nat -> Role} {s : Vm} {pages : Nat -> Prop}
    (heap : Heap image owner s) (space : Space owner s s.proc.pgdir pages)
    (bounded : s.proc.Bounded) {n : UInt32} (positive : 0 < n.toNat ∧ n.toNat < 2 ^ 31) :
    Program.wp (growproc image n)
      (fun result t =>
        result < 0 ->
        (SameFree s.freelist t.freelist ↔
          USERTOP - 2 * PGSIZE < s.proc.sz.toNat + n.toNat ∨
          forall v, v < USERPAGES -> Between s.proc.sz.toNat (s.proc.sz.toNat + n.toNat) v ->
            ¬ Present (pte s s.proc.pgdir v)))
      (fun _ => True) s := by
  have low := bounded.low
  have target : sizePlus s.proc.sz n = s.proc.sz.toNat + n.toNat := by
    simp only [sizePlus, USERTOP] at low ⊢
    omega
  unfold growproc
  rw [Program.wp_bind, Program.wp_read, if_pos positive, target]
  by_cases limit : USERTOP - 2 * PGSIZE < s.proc.sz.toNat + n.toNat
  · rw [if_pos limit, Program.wp_pure]
    exact fun _ => iff_of_true (fun _ => Iff.rfl) (Or.inl limit)
  · rw [if_neg limit, Program.wp_bind]
    refine Program.wp_mono (wp_both (allocuvm_wp heap space) (allocuvm_steady heap space)) ?_
      (fun _ _ => trivial)
    rintro size t ⟨allocated, steady, elsewhere, _⟩
    cases allocated with
    | tooLarge large => exact absurd large (by omega)
    | shrinks smaller => exact absurd smaller (by omega)
    | grown _ _ _ _ _ =>
        unfold setNewSize
        rw [if_neg (by omega)]
        exact fun impossible => absurd impossible (by decide)
    | outOfMemory _ _ became _ =>
        rcases became with ⟨after, nextHeap, _, now⟩
        unfold setNewSize
        rw [if_pos rfl, Program.wp_pure]
        intro _
        have fewer : userPages t s.proc.pgdir ⊆ userPages s s.proc.pgdir := by
          intro v member
          rcases mem_userPages.mp member with ⟨below, present⟩
          exact mem_userPages.mpr
            ⟨below, (space.user v below).mpr ((now.user v below).mp present).1⟩
        constructor
        · intro same
          refine Or.inr (fun v below between present => ?_)
          have length := SameFree.length_eq heap nextHeap same
          have balance := steady.balance
          have equal := Finset.eq_of_subset_of_card_le fewer (by omega)
          have still : v ∈ userPages t s.proc.pgdir := by
            rw [equal]
            exact mem_userPages.mpr ⟨below, present⟩
          exact ((now.user v below).mp (mem_userPages.mp still).2).2 between
        · rintro (impossible | clear) p
          · exact absurd impossible limit
          · have frames : forall v, v ∈ userPages s s.proc.pgdir ->
                v ∈ userPages t s.proc.pgdir ∧ pte t s.proc.pgdir v = pte s s.proc.pgdir v := by
              intro v member
              rcases mem_userPages.mp member with ⟨below, present⟩
              have outside := fun between => clear v below between present
              exact ⟨(elsewhere.mem_userPages outside).mpr member, elsewhere v below outside⟩
            have pools : p ∈ pool t s.proc.pgdir ↔ p ∈ pool s s.proc.pgdir := by rw [steady.pool]
            rw [mem_pool, mem_pool] at pools
            constructor
            · intro member
              rcases pools.mp (Or.inl member) with free | ⟨v, mapped, rfl⟩
              · exact free
              · have nowFree := (nextHeap.free _).mp member
                rcases frames v mapped with ⟨nowMapped, sameEntry⟩
                rcases mem_userPages.mp nowMapped with ⟨below, present⟩
                rw [← sameEntry, now.dir.user v below present] at nowFree
                cases nowFree
            · intro member
              rcases pools.mpr (Or.inl member) with free | ⟨v, mapped, rfl⟩
              · exact free
              · have wasFree := (heap.free _).mp member
                have before := fewer mapped
                rcases mem_userPages.mp before with ⟨below, present⟩
                rw [(frames v before).2, space.dir.user v below present] at wasFree
                cases wasFree

/-- A call that returns -1. -/
theorem Host.ended_eq {Value : Type} {s t : Host} {outcome : Outcome Panic Vm Value}
    {returns : Value -> Vm -> Option Int × Host} {result : Int}
    (returned : s.ended outcome returns = (some result, t)) :
    Exists fun value => Exists fun v =>
      outcome = .done value v ∧ returns value v = (some result, t) := by
  unfold Host.ended at returned
  cases outcome with
  | done value v => exact ⟨value, v, rfl, returned⟩
  | panic reason => cases (Prod.mk.inj returned).1

theorem Kept.fork_sameFree {image : Image} {owner : Nat -> Role} {s t : Host} {pid : Nat}
    {task : Task} (kept : Kept image owner s) (live : s.tasks pid = some task)
    (failed : AddressSpace.serve image s pid task .fork = (some (-1), t)) :
    SameFree s.freelist t.freelist ↔ Thrifty s task .fork := by
  unfold AddressSpace.serve at failed
  cases found : s.allocproc with
  | none =>
      rw [found] at failed
      rw [← (Prod.mk.inj failed).2]
      exact iff_of_true (fun _ => Iff.rfl) (fun impossible => absurd found impossible)
  | some child =>
      rw [found] at failed
      rcases Host.ended_eq failed with ⟨result, v, ran, returned⟩
      rcases Program.post_of_done (fork_restores (s := s.vm task.proc) (kept.bounded pid task live)
        (kept.heap task.proc)) ran with ⟨after, d, notDir, heap, framed, _, outcome⟩
      cases result with
      | some pair =>
          have impossible := Option.some.inj (Prod.mk.inj returned).1
          exact absurd impossible (by omega)
      | none =>
          rw [← (Prod.mk.inj returned).2]
          refine (sameFree_iff_length
            (kept.heap task.proc) heap kept.rooted notDir framed.role).trans (outcome.trans ?_)
          refine ⟨fun balanced _ => balanced, fun thrifty => thrifty ?_⟩
          rw [found]
          exact Option.some_ne_none child

theorem Kept.exec_sameFree {image : Image} {owner : Nat -> Role} {s t : Host} {pid : Nat}
    {task : Task} {namei : List UInt8 -> Option File} {path : List UInt8} {argv : List Argument}
    (kept : Kept image owner s) (live : s.tasks pid = some task)
    (confined : forall ip, namei path = some ip -> ip.Confined ip.elf.phnum ip.elf.phoff)
    (failed : AddressSpace.serve image s pid task (.exec namei path argv) = (some (-1), t)) :
    SameFree s.freelist t.freelist ↔ Thrifty s task (.exec namei path argv) := by
  rcases Host.ended_eq failed with ⟨result, v, ran, returned⟩
  have isFailure : result = -1 := Option.some.inj (Prod.mk.inj returned).1
  rw [isFailure] at ran
  rw [← (Prod.mk.inj returned).2]
  rcases kept.space pid task live with ⟨pages, space⟩
  cases found : namei path with
  | none =>
      have same : Outcome.done (-1) (s.vm task.proc) =
          (Outcome.done (-1) v : Outcome Panic Vm Int) := by
        rw [← ran, AddressSpace.exec, found]
        rfl
      have isS := (Outcome.done.inj same).2
      refine iff_of_true (fun p => ?_) (fun ip impossible => ?_)
      · show p ∈ v.freelist ↔ p ∈ s.freelist
        rw [← isS]
        exact Iff.rfl
      · rw [found] at impossible
        cases impossible
  | some ip =>
      have ended := Program.post_of_done (exec_wp (kept.heap task.proc) space found
        (confined ip found) argv) ran
      have restored := Program.post_of_done (exec_restores (kept.heap task.proc) space found
        (confined ip found) argv) ran rfl
      have counted : SameFree s.freelist v.freelist ↔ v.freelist.length = s.freelist.length := by
        cases ended with
        | early notDir heap beside _ _ =>
            exact sameFree_iff_length (kept.heap task.proc) heap kept.rooted notDir beside.role
        | late notDir heap beside _ _ _ =>
            exact sameFree_iff_length (kept.heap task.proc) heap kept.rooted notDir beside.role
      refine counted.trans ?_
      have only : Thrifty s task (.exec namei path argv) ↔
          (ip.accepted = true -> s.freelist.length = 0 ∨ 13 ≤ s.freelist.length) := by
        refine ⟨fun thrifty => thrifty ip found, fun thrifty other same => ?_⟩
        rw [found] at same
        rw [← Option.some.inj same]
        exact thrifty
      rw [only]
      by_cases accepted : ip.accepted = true
      · rw [if_pos accepted] at restored
        unfold Restored at restored
        by_cases enough : 13 ≤ s.freelist.length
        · rw [if_pos (show 13 ≤ (s.vm task.proc).freelist.length from enough)] at restored
          exact iff_of_true restored (fun _ => Or.inr enough)
        · rw [if_neg (show ¬ 13 ≤ (s.vm task.proc).freelist.length from enough)] at restored
          rw [restored, List.length_nil]
          refine ⟨fun empty _ => Or.inl empty.symm, fun thrifty => ?_⟩
          exact ((thrifty accepted).resolve_right enough).symm
      · rw [if_neg accepted] at restored
        rw [restored]
        exact iff_of_true rfl (fun impossible => absurd impossible accepted)

theorem Kept.sbrk_sameFree {image : Image} {owner : Nat -> Role} {s t : Host} {pid : Nat}
    {task : Task} {n : UInt32} (kept : Kept image owner s) (live : s.tasks pid = some task)
    (allocates : (Call.sbrk n).Allocates)
    (failed : AddressSpace.serve image s pid task (.sbrk n) = (some (-1), t)) :
    SameFree s.freelist t.freelist ↔ Thrifty s task (.sbrk n) := by
  rcases Host.ended_eq failed with ⟨result, v, ran, returned⟩
  rcases kept.space pid task live with ⟨pages, space⟩
  have negative : result < 0 := by
    by_contra positive
    have value := Option.some.inj (Prod.mk.inj returned).1
    rw [if_neg positive] at value
    exact absurd value (by omega)
  rw [← (Prod.mk.inj returned).2]
  exact Program.post_of_done (growproc_sameFree (kept.heap task.proc) space
    (kept.bounded pid task live) allocates) ran negative

/-- In every reachable state, a call that fails leaves the free pages as they were
exactly when it is thrifty, and no free page is in use by a process. -/
theorem failed_call_keeps_free_pages_iff {image : Image} {s t : Host} {pid : Nat} {task : Task}
    {call : Call} (reached : Machine.Reachable (act image) (Booted image) FilesConfined s)
    (live : s.tasks pid = some task) (allocates : call.Allocates)
    (confined : FilesConfined s (.call pid call))
    (failed : serve image s pid task call = (some (-1), t)) :
    (SameFree s.freelist t.freelist ↔ Thrifty s task call) ∧ FreeUnreachable s ∧
    FreeUnreachable t := by
  have invariant : Exists fun owner => Kept image owner s :=
    Machine.Reachable.invariant (fun _ => Kept.of_booted) (fun _ _ _ held confined stepped =>
      held.elim (fun _ kept => kept.act confined stepped)) reached
  rcases invariant with ⟨owner, kept⟩
  have served := kept.serve live confined
  rw [failed] at served
  refine ⟨?_, kept.freeUnreachable, served.elim (fun _ => Kept.freeUnreachable)⟩
  cases call with
  | fork => exact kept.fork_sameFree live failed
  | exec namei path argv => exact kept.exec_sameFree live confined failed
  | sbrk n => exact kept.sbrk_sameFree live allocates failed

/-! ## Five free pages -/

/-- The initial process, with the page of its kernel stack. -/
def initTask : Task where
  proc := initcode
  kstack := 515

/-- A machine whose initial process finds only five free pages. -/
def fewPages : Host where
  mem := bootSys.mem
  freelist := List.range' 516 5
  tasks := fun pid => if pid = 0 then some initTask else none
  taken := []
  halted := none

def fewPagesOwner (p : Nat) : Role :=
  if p = 512 then .dir 512
  else if p = 513 then .table 512 0
  else if p = 514 then .user 512 0
  else if p = 515 then .kernel
  else if 516 ≤ p ∧ p < 521 then .free
  else .other

theorem fewPages_heap (p : Proc) : Heap smallKernel fewPagesOwner (fewPages.vm p) := by
  refine ⟨fun r => ?_, List.nodup_range', fun r managed => ?_⟩
  · have listed : r ∈ (fewPages.vm p).freelist ↔ 516 ≤ r ∧ r < 516 + 5 := by
      show r ∈ List.range' 516 5 ↔ _
      rw [List.mem_range'_1]
    rw [listed]
    unfold fewPagesOwner
    split_ifs <;> simp_all
  · show 0x200000 ≤ r * PGSIZE ∧ r * PGSIZE < PHYSTOP
    have bounds : 512 ≤ r ∧ r < 521 := by
      unfold fewPagesOwner at managed
      split_ifs at managed <;> first | omega | exact absurd rfl managed
    simp only [PGSIZE, PHYSTOP]
    omega

theorem fewPages_space (p : Proc) : Space fewPagesOwner (fewPages.vm p) 512 (fun v => v = 0) := by
  refine @Space.of_table fewPagesOwner (fewPages.vm p) 512 513 _ (fun _ => 514) rfl rfl (by decide)
    rfl (fun v _ mapped => ?_) (fun v _ missing => ?_)
  · rw [mapped]
    exact ⟨Bytes.word_setWord_self _ (by decide) (by decide), rfl⟩
  · have nonzero : v ≠ 0 := fun same => missing ⟨by rw [same]; decide, same⟩
    show ((Bytes.fill 0).setWord 0 (514 * PGSIZE ||| 7)).word v = 0
    rw [Bytes.word_setWord_of_ne _ _ nonzero, Bytes.word_fill_zero]

theorem fewPages_booted : Booted smallKernel fewPages :=
  ⟨fewPagesOwner, initTask, rfl, fun _ other => if_neg other, fewPages_heap _, fewPages_space _,
    rfl, rfl, rfl, List.not_mem_nil, List.nodup_nil, fun _ => (nomatch ·), rfl⟩

/-- The `exec` of a program without segments. -/
def execEmpty : Call := .exec (fun _ => some emptyProgram) [] []

theorem execEmpty_confined : FilesConfined fewPages (.call 0 execEmpty) := by
  intro ip same
  rw [← Option.some.inj same]
  exact emptyProgram_confined

theorem serve_exec {image : Image} {s : Host} {pid : Nat} {task : Task}
    {namei : List UInt8 -> Option File} {path : List UInt8} {argv : List Argument} {result : Int}
    {v : Vm} (ran : exec image namei path argv (s.vm task.proc) = .done result v) :
    serve image s pid task (.exec namei path argv) = (some result, s.put pid task v) := by
  rw [serve, ran]
  rfl

theorem execEmpty_fails : Exists fun v =>
    serve smallKernel fewPages 0 initTask execEmpty = (some (-1), fewPages.put 0 initTask v) ∧
      v.freelist = [] := by
  have few : (fewPages.vm initTask.proc).freelist.length = 5 := List.length_range'
  rcases exec_emptyProgram (fewPages_heap initTask.proc) (fewPages_space initTask.proc) [] []
    (Or.inl rfl) with ⟨result, v, ran, ended⟩
  have tooFew : ¬ emptyProgram.Buildable (fewPages.vm initTask.proc).freelist.length := by
    intro buildable
    have needed := buildable.2.2
    rw [few] at needed
    omega
  have isFailure : result = -1 := by
    cases ended with
    | early _ _ _ _ _ => rfl
    | late _ _ _ _ buildable _ => exact absurd buildable tooFew
    | replaced _ _ _ _ _ _ _ _ buildable _ _ _ => exact absurd buildable tooFew
  rw [isFailure] at ran
  refine ⟨v, serve_exec ran, ?_⟩
  have restored := Program.post_of_done (@exec_restores smallKernel fewPagesOwner _ _
    (fewPages_heap initTask.proc) (fewPages_space initTask.proc) _ [] emptyProgram rfl
    emptyProgram_confined []) ran rfl
  rw [if_pos (show emptyProgram.accepted = true by decide)] at restored
  unfold Restored at restored
  rw [few, if_neg (by decide)] at restored
  exact restored

/-- More than the address space has is refused. -/
theorem sbrk_refused : Exists fun t =>
    serve smallKernel fewPages 0 initTask (.sbrk 0xA0000) = (some (-1), t) := by
  have ran : growproc smallKernel 0xA0000 (fewPages.vm initTask.proc) =
      .done (-1) (fewPages.vm initTask.proc) := rfl
  rw [serve, ran]
  exact ⟨_, rfl⟩

/-- A refused `sbrk` keeps the free pages, and the `exec` does not. -/
theorem failed_call_keeps_free_pages_iff_fewPages :
    (Exists fun t =>
      serve smallKernel fewPages 0 initTask (.sbrk 0xA0000) = (some (-1), t) ∧
      SameFree fewPages.freelist t.freelist ∧ FreeUnreachable t) ∧
    Exists fun t =>
      serve smallKernel fewPages 0 initTask execEmpty = (some (-1), t) ∧
      ¬ SameFree fewPages.freelist t.freelist ∧ FreeUnreachable t := by
  constructor
  · rcases sbrk_refused with ⟨t, failed⟩
    have kept := failed_call_keeps_free_pages_iff (.start fewPages_booted) rfl
      (show (Call.sbrk 0xA0000).Allocates from ⟨by decide, by decide⟩) trivial failed
    exact ⟨t, failed, kept.1.mpr (Or.inl (by decide)), kept.2.2⟩
  · rcases execEmpty_fails with ⟨v, failed, _⟩
    have kept := failed_call_keeps_free_pages_iff (.start fewPages_booted) rfl
      (show execEmpty.Allocates from trivial) execEmpty_confined failed
    have free : fewPages.freelist.length = 5 := List.length_range'
    refine ⟨_, failed, fun same => ?_, kept.2.2⟩
    rcases kept.1.mp same emptyProgram rfl (by decide) with none_ | enough
    · exact absurd (free.symm.trans none_) (by decide)
    · rw [free] at enough
      exact absurd enough (by decide)

/-- The failed `exec` has lost all five pages. -/
theorem failed_exec_loses_pages : Booted smallKernel fewPages ∧ Exists fun t =>
    serve smallKernel fewPages 0 initTask execEmpty = (some (-1), t) ∧
      fewPages.freelist.length = 5 ∧ t.freelist = [] ∧ ¬ SameFree fewPages.freelist t.freelist := by
  rcases execEmpty_fails with ⟨v, failed, empty⟩
  refine ⟨fewPages_booted, _, failed, List.length_range', empty, fun same => ?_⟩
  have member : 516 ∈ (fewPages.put 0 initTask v).freelist :=
    (same 516).mpr (List.mem_range'_1.mpr ⟨Nat.le_refl _, by decide⟩)
  rw [show (fewPages.put 0 initTask v).freelist = [] from empty] at member
  exact absurd member List.not_mem_nil

end AddressSpace
end OsProjects
