import OsProjects.AddressSpace.UserMemory

namespace OsProjects
namespace AddressSpace

open Machine

/-!
# Loading a program

`exec` builds a new address space from an ELF file, copies the arguments onto
its stack and then replaces the address space of the caller.  Until the very end
the old page table stays in use, so the kernel reaches physical memory through
it: an address at or above `USERTOP` is the physical address itself, and a lower
one belongs to the user part of the caller.
-/

/-- A regular file: its size and its bytes.  The size is at most `MAXFILE`
blocks. -/
structure File where
  size : Nat
  bytes : Nat -> UInt8
  small : size ≤ 140 * 512

/-- The number of bytes that `readi` delivers; `none` is the return value -1. -/
def File.readi (ip : File) (off n : Nat) : Option Nat :=
  if ip.size < off ∨ 2 ^ 32 ≤ off + n then none else some (min n (ip.size - off))

/-- The bytes of a structure that `readi` fills from the offset `off`. -/
def File.struct (ip : File) (off n : Nat) : Bytes n := fun i => ip.bytes (off + i)

def ELF_MAGIC : Nat := 0x464C457F
def ELF_PROG_LOAD : Nat := 1

/-- `struct elfhdr`. -/
abbrev ElfHdr : Type := Bytes 52

/-- `struct proghdr`. -/
abbrev ProgHdr : Type := Bytes 32

def ElfHdr.magic (elf : ElfHdr) : Nat := elf.number 0 4
def ElfHdr.entry (elf : ElfHdr) : Nat := elf.number 24 4
def ElfHdr.phoff (elf : ElfHdr) : Nat := elf.number 28 4
def ElfHdr.phnum (elf : ElfHdr) : Nat := elf.number 44 2

def ProgHdr.type (ph : ProgHdr) : Nat := ph.number 0 4
def ProgHdr.offset (ph : ProgHdr) : Nat := ph.number 4 4
def ProgHdr.va (ph : ProgHdr) : Nat := ph.number 8 4
def ProgHdr.filesz (ph : ProgHdr) : Nat := ph.number 16 4
def ProgHdr.memsz (ph : ProgHdr) : Nat := ph.number 20 4

/-- The file header and a program header as `readi` delivers them. -/
def File.elf (ip : File) : ElfHdr := ip.struct 0 52
def File.ph (ip : File) (off : Nat) : ProgHdr := ip.struct off 32

/-- The physical page behind a kernel address, given by its page number. -/
def kernelPage (page : Nat) : VmProgram Nat :=
  if USERPAGES ≤ page then pure page
  else do
    let entry <- Program.read (fun s => pte s s.proc.pgdir page)
    if Present entry then pure (PTE_ADDR entry) else Program.stop .trap

/-- Copy `m` bytes of a file to the start of the page that an entry refers to. -/
def storeFile (pte m : Nat) (src : Nat -> UInt8) : VmProgram Unit :=
  if m = 0 then pure ⟨⟩
  else do
    let page <- kernelPage (PTE_ADDR pte)
    Program.modify (fun s => s.withPage page ((s.mem page).splice 0 m src))

/-- The number of bytes that one iteration of `loaduvm` asks for. -/
def chunkSize (sz i : Nat) : Nat := if sz - i < PGSIZE then sz - i else PGSIZE

/-- The body of the loop of `loaduvm`; `false` is the return value -1. -/
def loadPage (pgdir addr : Nat) (ip : File) (offset sz i : Nat) : VmProgram Bool := do
  match <- walkpgdir pgdir (addr + i) false with
  | none => Program.stop .loaduvmMissing
  | some (pgtab, j) => do
      let pte <- Program.read (fun s => (s.mem pgtab).word j)
      match ip.readi ((offset + i) % 2 ^ 32) (chunkSize sz i) with
      | none => pure false
      | some m => do
          storeFile pte m (fun k => ip.bytes ((offset + i) % 2 ^ 32 + k))
          pure (m == chunkSize sz i)

/-- The loop of `loaduvm`. -/
def loadPages (pgdir addr : Nat) (ip : File) (offset sz : Nat) : Nat -> Nat -> VmProgram Bool
  | 0, _ => pure true
  | count + 1, i => do
      if <- loadPage pgdir addr ip offset sz i then
        loadPages pgdir addr ip offset sz count (i + PGSIZE)
      else pure false

/-- Load a program segment into `pgdir`. -/
def loaduvm (pgdir addr : Nat) (ip : File) (offset sz : Nat) : VmProgram Bool :=
  if addr % PGSIZE ≠ 0 then Program.stop .loaduvmUnaligned
  else loadPages pgdir addr ip offset sz (pagesBelow 0 sz) 0

/-- The size that a segment asks for, in 32-bit arithmetic. -/
def ProgHdr.newsz (ph : ProgHdr) (sz : Nat) : Nat := (sz + ph.va + ph.memsz) % 2 ^ 32

/-- Fill the pages of a segment that `allocuvm` has returned the size for; `none`
is the jump to `bad`. -/
def fillSegment (pgdir : Nat) (ip : File) (ph : ProgHdr) (sz : Nat) : VmProgram (Option Nat) :=
  if sz = 0 then pure none
  else do
    if <- loaduvm pgdir ph.va ip ph.offset ph.filesz then pure (some sz)
    else pure none

/-- Load one segment. -/
def loadSegment (image : Image) (pgdir : Nat) (ip : File) (ph : ProgHdr) (sz : Nat) :
    VmProgram (Option Nat) :=
  if ph.type ≠ ELF_PROG_LOAD then pure (some sz)
  else if ph.memsz < ph.filesz then pure none
  else do
    let sz' <- allocuvm image pgdir sz (ph.newsz sz)
    fillSegment pgdir ip ph sz'

/-- The loop over the program headers. -/
def loadSegments (image : Image) (pgdir : Nat) (ip : File) :
    Nat -> Nat -> Nat -> VmProgram (Option Nat)
  | 0, _, sz => pure (some sz)
  | count + 1, off, sz =>
      if ip.readi off 32 ≠ some 32 then pure none
      else do
        match <- loadSegment image pgdir ip (ip.ph off) sz with
        | none => pure none
        | some sz' => loadSegments image pgdir ip count ((off + 32) % 2 ^ 32) sz'

/-- Map a user virtual page to its physical page; zero is the null pointer. -/
def uva2ka (pgdir uva : Nat) : VmProgram Nat := do
  match <- walkpgdir pgdir uva false with
  | none => Program.stop .nullPte
  | some (pgtab, i) => do
      let pte <- Program.read (fun s => (s.mem pgtab).word i)
      if ¬ Present pte then pure 0
      else if pte &&& PTE_U = 0 then pure 0
      else pure (PTE_ADDR pte)

/-- Copy part of `buf` into the page `pa0`. -/
def storeBytes (pa0 at_ n : Nat) (buf : List UInt8) : VmProgram Unit :=
  Program.modify (fun s => s.withPage pa0 ((s.mem pa0).splice at_ n (fun k => buf.getD k 0)))

/-- The loop of `copyout`, with a bound on the number of its iterations. -/
def copyoutLoop (pgdir : Nat) : Nat -> Nat -> List UInt8 -> VmProgram Bool
  | 0, _, _ => pure true
  | fuel + 1, va, buf =>
      if buf = [] then pure true
      else do
        let pa0 <- uva2ka pgdir (PGROUNDDOWN va)
        if pa0 = 0 then pure false
        else do
          let n := min (PGSIZE - va % PGSIZE) buf.length
          storeBytes pa0 (va % PGSIZE) n buf
          copyoutLoop pgdir fuel ((PGROUNDDOWN va + PGSIZE) % 2 ^ 32) (buf.drop n)

/-- Copy `buf` to the user address `va` in `pgdir`.  Every iteration copies at
least one byte. -/
def copyout (pgdir va : Nat) (buf : List UInt8) : VmProgram Bool :=
  copyoutLoop pgdir buf.length va buf

/-- An argument string, without its terminating zero.  `fetchstr` has found the
zero in the memory of the caller, below `USERTOP`. -/
structure Argument where
  bytes : List UInt8
  fits : bytes.length < USERTOP

/-- The loop that copies the arguments onto the stack.  It returns the stack
pointer and the argument addresses; `none` is the jump to `bad`. -/
def pushArguments (pgdir : Nat) : List Argument -> Nat -> List Nat ->
    VmProgram (Option (Nat × List Nat))
  | [], sp, ustack => pure (some (sp, ustack))
  | arg :: rest, sp, ustack =>
      if MAXARG ≤ ustack.length then pure none
      else do
        let sp' := sub32 sp (arg.bytes.length + 1) / 4 * 4
        if <- copyout pgdir sp' (arg.bytes ++ [0]) then
          pushArguments pgdir rest sp' (ustack ++ [sp'])
        else pure none

/-- The bytes of a list of 32-bit words. -/
def wordBytes (words : List Nat) : List UInt8 :=
  words.flatMap (fun word => [Bytes.digit word 0, Bytes.digit word 1, Bytes.digit word 2,
    Bytes.digit word 3])

/-- The words on top of the stack of the new program: a fake return address, the
number of arguments, their address and the null-terminated list itself. -/
def userStack (sp : Nat) (addresses : List Nat) : List Nat :=
  [0xffffffff, addresses.length, sub32 sp ((addresses.length + 1) * 4)] ++ addresses ++ [0]

/-- Everything after the stack page has been allocated and before the caller is
changed for good; `none` is the jump to `bad`, otherwise the new stack pointer. -/
def copyArguments (pgdir newstack : Nat) (argv : List Argument) : VmProgram (Option Nat) := do
  match <- pushArguments pgdir argv newstack [] with
  | none => pure none
  | some (sp, addresses) => do
      let sp' := sub32 sp ((3 + addresses.length + 1) * 4)
      if <- copyout pgdir sp' (wordBytes (userStack sp addresses)) then pure (some sp')
      else pure none

/-- The last component of a path. -/
def lastElement (path : List UInt8) : List UInt8 :=
  (path.reverse.takeWhile (fun c => c ≠ 47)).reverse

/-- The part of the file name that `safestrcpy` keeps. -/
def processName (path : List UInt8) : List UInt8 := (lastElement path).take 15

/-- Commit to the user image. -/
def commit (image : Image) (path : List UInt8) (pgdir sz entry sp : Nat) : VmProgram Int := do
  let oldpgdir <- Program.read (fun s => s.proc.pgdir)
  Program.modify (fun s => { s with proc := { s.proc with
    name := processName path, pgdir := pgdir, sz := UInt32.ofNat sz,
    tf := { eip := UInt32.ofNat entry, esp := UInt32.ofNat sp } } })
  freevm image oldpgdir
  pure 0

/-- The label `bad`, when there is a page table. -/
def bad (image : Image) (pgdir : Nat) : VmProgram Int := do
  freevm image pgdir
  pure (-1)

/-- The part of `exec` after the segments have been loaded. -/
def execStack (image : Image) (path : List UInt8) (argv : List Argument) (pgdir sz entry : Nat) :
    VmProgram Int := do
  let newstack <- allocuvm image pgdir (USERTOP - PGSIZE) USERTOP
  if newstack = 0 then bad image pgdir
  else do
    Program.modify (fun s =>
      { s with proc := { s.proc with sz2 := UInt32.ofNat (USERTOP - PGSIZE) } })
    match <- copyArguments pgdir newstack argv with
    | none => bad image pgdir
    | some sp => commit image path pgdir sz entry sp

/-- The part of `exec` after the header has been accepted. -/
def execImage (image : Image) (ip : File) (path : List UInt8) (argv : List Argument) :
    VmProgram Int := do
  match <- setupkvm image with
  | none => pure (-1)
  | some pgdir => do
      match <- loadSegments image pgdir ip ip.elf.phnum ip.elf.phoff PGSIZE with
      | none => bad image pgdir
      | some sz => execStack image path argv pgdir (PGROUNDUP sz) ip.elf.entry

/-- The header check of `exec`. -/
def File.accepted (ip : File) : Bool := ip.readi 0 52 == some 52 && ip.elf.magic == ELF_MAGIC

/-- Replace the image of the running process.  `namei` finds a file by its path. -/
def exec (image : Image) (namei : List UInt8 -> Option File) (path : List UInt8)
    (argv : List Argument) : VmProgram Int :=
  match namei path with
  | none => pure (-1)
  | some ip => if ip.accepted then execImage image ip path argv else pure (-1)

/-! ## What loading may touch -/

/-- What building the address space `d` keeps while `e` is in use.  It may
overwrite a page that `e` has mapped at address 0, and nothing else of it. -/
structure Beside (d e : Nat) (owner after : Nat -> Role) (s t : Vm) : Prop where
  role : forall p, ¬ (owner p = .free ∨ (owner p).Of d) -> after p = owner p
  contents : forall p, ¬ (owner p = .free ∨ (owner p).Of d) -> owner p ≠ .user e 0 ->
    t.mem p = s.mem p

/-- A step of `exec` that builds the address space `d` while `e` is in use. -/
structure During (d e : Nat) (owner after : Nat -> Role) (s t : Vm) : Prop
    extends Beside d e owner after s t where
  proc : t.proc = s.proc

theorem Within.during {d : Nat} {owner after : Nat -> Role} {s t : Vm}
    (within : Within d owner after s t) (e : Nat) : During d e owner after s t :=
  ⟨⟨within.framed.role, fun p untouched _ => within.framed.contents p untouched⟩, within.proc⟩

theorem Beside.trans {d e : Nat} {owner middle after : Nat -> Role} {s t u : Vm}
    (first : Beside d e owner middle s t) (second : Beside d e middle after t u) :
    Beside d e owner after s u := by
  refine ⟨fun p untouched => ?_, fun p untouched notZero => ?_⟩
  · have same := first.role p untouched
    rw [second.role p (same ▸ untouched), same]
  · have same := first.role p untouched
    rw [second.contents p (same ▸ untouched) (same ▸ notZero), first.contents p untouched notZero]

theorem During.trans {d e : Nat} {owner middle after : Nat -> Role} {s t u : Vm}
    (first : During d e owner middle s t) (second : During d e middle after t u) :
    During d e owner after s u :=
  ⟨first.toBeside.trans second.toBeside, second.proc.trans first.proc⟩

/-- The address space in use survives. -/
theorem Beside.caller {d e : Nat} {owner after : Nat -> Role} {s t : Vm} {pages : Nat -> Prop}
    (during : Beside d e owner after s t) (different : d ≠ e) (space : Space owner s e pages) :
    Space after t e pages := by
  refine space.kept (fun p mine => during.role p (Role.Of.untouched different mine))
    (fun p structural => ?_)
  rcases structural with self | ⟨i, table⟩
  · refine during.contents p (Role.Of.untouched different ?_) (by rw [self]; exact Role.noConfusion)
    rw [self]
    exact rfl
  · refine during.contents p (Role.Of.untouched different ?_)
      (by rw [table]; exact Role.noConfusion)
    rw [table]
    exact rfl

/-- The state of the loader: a new address space `d` beside the one in use. -/
structure Loading (image : Image) (owner : Nat -> Role) (s : Vm) (d : Nat)
    (pages source : Nat -> Prop) : Prop where
  heap : Heap image owner s
  space : Space owner s d pages
  caller : Space owner s s.proc.pgdir source
  different : d ≠ s.proc.pgdir

/-- The next state of the loader. -/
theorem Loading.step {image : Image} {owner after : Nat -> Role} {s t : Vm} {d : Nat}
    {pages others source : Nat -> Prop} (loading : Loading image owner s d pages source)
    (during : During d s.proc.pgdir owner after s t) (heap : Heap image after t)
    (space : Space after t d others) : Loading image after t d others source := by
  have caller := during.caller loading.different loading.caller
  refine ⟨heap, space, ?_, ?_⟩
  · rw [during.proc]
    exact caller
  · rw [during.proc]
    exact loading.different

/-- User pages lie above the kernel text. -/
theorem Heap.user_above {image : Image} {owner : Nat -> Role} {s : Vm} (heap : Heap image owner s)
    {p : Nat} (managed : owner p ≠ .other) : USERPAGES ≤ p := by
  have bounds := heap.managed p managed
  have start := image.end_pos
  simp only [PGSIZE, USERPAGES, USERTOP] at bounds ⊢
  omega

/-- Copying file data to the page of a user entry.  A missing entry is zero, so
the copy goes to address 0. -/
theorem storeFile_wp {image : Image} {owner : Nat -> Role} {s : Vm} {d v : Nat}
    {pages source : Nat -> Prop} (loading : Loading image owner s d pages source)
    (isUser : v < USERPAGES) (m : Nat) (src : Nat -> UInt8) :
    Program.wp (storeFile (pte s d v) m src)
      (fun _ t => During d s.proc.pgdir owner owner s t ∧ t.freelist = s.freelist ∧
        Space owner t d pages)
      (fun reason => reason = .trap ∧ ¬ pages v) s := by
  have unchanged : During d s.proc.pgdir owner owner s s := (Within.refl d owner s).during _
  unfold storeFile
  by_cases empty : m = 0
  · rw [if_pos empty, Program.wp_pure]
    exact ⟨unchanged, rfl, loading.space⟩
  · rw [if_neg empty, Program.wp_bind, kernelPage]
    by_cases mapped : pages v
    · have present := (loading.space.user v isUser).mpr mapped
      have role := loading.space.dir.user v isUser present
      rw [if_pos (loading.heap.user_above (by rw [role]; exact Role.noConfusion)), Program.wp_pure,
        Program.wp_modify]
      exact ⟨(Within.store owner s (by rw [role]; exact rfl) _).during _, rfl,
        loading.space.store_user role _⟩
    · rw [loading.space.zero v isUser mapped, if_neg (by decide), Program.wp_bind, Program.wp_read]
      by_cases zero : Present (pte s s.proc.pgdir (PTE_ADDR 0))
      · have role := loading.caller.dir.user 0 (by decide) zero
        rw [if_pos zero, Program.wp_pure, Program.wp_modify]
        refine ⟨⟨⟨fun _ _ => rfl, fun p _ notZero => Vm.withPage_mem_of_ne _ _ (fun same => ?_)⟩,
          rfl⟩, rfl, loading.space.store_user role _⟩
        rw [same] at notZero
        exact notZero role
      · rw [if_neg zero, Program.wp_stop]
        exact ⟨rfl, mapped⟩

/-! ## Loading the segments -/

/-- An iteration of `loaduvm` finds its bytes in the file. -/
def File.chunk (ip : File) (offset sz i : Nat) : Bool :=
  ip.readi ((offset + i) % 2 ^ 32) (chunkSize sz i) == some (chunkSize sz i)

/-- Every iteration of `loaduvm` finds its bytes in the file. -/
def File.chunks (ip : File) (offset sz : Nat) : Nat -> Nat -> Bool
  | 0, _ => true
  | count + 1, i => ip.chunk offset sz i && ip.chunks offset sz count (i + PGSIZE)

theorem loadPage_wp {image : Image} {owner : Nat -> Role} {s : Vm} {d a k : Nat}
    {pages source : Nat -> Prop} (loading : Loading image owner s d pages source)
    (isUser : a + k < USERPAGES) (ip : File) (offset sz : Nat) :
    Program.wp (loadPage d (a * PGSIZE) ip offset sz (k * PGSIZE))
      (fun ok t => ok = ip.chunk offset sz (k * PGSIZE) ∧ During d s.proc.pgdir owner owner s t ∧
        t.freelist = s.freelist ∧ Space owner t d pages)
      (fun reason => reason = .trap) s := by
  have address : a * PGSIZE + k * PGSIZE = (a + k) * PGSIZE := (Nat.add_mul a k PGSIZE).symm
  have table : Present (pde s d ((a + k) / 1024)) := by
    rw [(userpage_table isUser).1]
    exact loading.space.table
  unfold loadPage
  rw [address, Program.wp_bind]
  refine walkpgdir_user loading.space isUser false ?_
  rw [Program.wp_bind, Program.wp_read]
  cases delivered : ip.readi ((offset + k * PGSIZE) % 2 ^ 32) (chunkSize sz (k * PGSIZE)) with
  | none =>
      rw [Program.wp_pure, File.chunk, delivered]
      exact ⟨rfl, (Within.refl d owner s).during _, rfl, loading.space⟩
  | some m =>
      rw [← pte_of_present table, Program.wp_bind]
      refine Program.wp_mono (storeFile_wp loading isUser m _) ?_ (fun _ stopped => stopped.1)
      intro _ t stored
      rw [Program.wp_pure, File.chunk, delivered]
      exact ⟨rfl, stored⟩

theorem loadPages_wp {image : Image} {d a : Nat} {pages source : Nat -> Prop} (ip : File)
    (offset sz count : Nat) :
    forall {owner : Nat -> Role} {s : Vm} {k : Nat}, Loading image owner s d pages source ->
      (count = 0 ∨ a + k + count ≤ USERPAGES) ->
      Program.wp (loadPages d (a * PGSIZE) ip offset sz count (k * PGSIZE))
        (fun ok t => ok = ip.chunks offset sz count (k * PGSIZE) ∧
          During d s.proc.pgdir owner owner s t ∧ t.freelist = s.freelist ∧ Space owner t d pages)
        (fun reason => reason = .trap) s := by
  induction count with
  | zero =>
      intro owner s k loading _
      rw [loadPages, Program.wp_pure]
      exact ⟨rfl, (Within.refl d owner s).during _, rfl, loading.space⟩
  | succ count ih =>
      intro owner s k loading high
      have next : k * PGSIZE + PGSIZE = (k + 1) * PGSIZE := (Nat.succ_mul k PGSIZE).symm
      rw [loadPages, next, File.chunks, next]
      refine Program.wp_seq (loadPage_wp loading (by omega) ip offset sz) ?_
      rintro ok t ⟨isChunk, during, sameList, space⟩
      rw [← isChunk]
      cases ok with
      | false =>
          rw [if_neg Bool.false_ne_true, Program.wp_pure, Bool.false_and]
          exact ⟨rfl, during, sameList, space⟩
      | true =>
          rw [if_pos rfl, Bool.true_and]
          refine Program.wp_mono (ih (loading.step during (loading.heap.congr sameList) space)
            (by omega)) ?_ (fun _ stopped => stopped)
          rintro ok u ⟨isChunks, restDuring, restList, restSpace⟩
          rw [during.proc] at restDuring
          exact ⟨isChunks, during.trans restDuring, restList.trans sameList, restSpace⟩

/-- A loadable segment whose file part lies in user memory. -/
def ProgHdr.Confined (ph : ProgHdr) : Prop :=
  ph.type = ELF_PROG_LOAD -> ph.filesz = 0 ∨ ph.va + ph.filesz ≤ USERTOP

/-- The panics of `loaduvm` on user pages. -/
def LoadPanic (reason : Panic) : Prop := reason = .trap ∨ reason = .loaduvmUnaligned

theorem loaduvm_wp {image : Image} {owner : Nat -> Role} {s : Vm} {d addr sz : Nat}
    {pages source : Nat -> Prop} (loading : Loading image owner s d pages source) (ip : File)
    (offset : Nat) (confined : sz = 0 ∨ addr + sz ≤ USERTOP) :
    Program.wp (loaduvm d addr ip offset sz)
      (fun ok t => ok = ip.chunks offset sz (pagesBelow 0 sz) 0 ∧
        During d s.proc.pgdir owner owner s t ∧ t.freelist = s.freelist ∧ Space owner t d pages)
      LoadPanic s := by
  unfold loaduvm
  by_cases aligned : addr % PGSIZE = 0
  · have pages := pagesBelow_eq 0 sz
    rw [Nat.zero_mul] at pages
    have count : ceilPage sz = 0 ∨ addr / PGSIZE + 0 + ceilPage sz ≤ USERPAGES := by
      simp only [ceilPage, PGSIZE, USERPAGES, USERTOP] at confined aligned ⊢
      omega
    have loads := loadPages_wp (k := 0) ip offset sz (ceilPage sz) loading count
    rw [Nat.div_mul_cancel (Nat.dvd_of_mod_eq_zero aligned), Nat.zero_mul] at loads
    rw [if_neg (not_not_intro aligned), pages, Nat.sub_zero]
    exact Program.wp_mono loads (fun _ _ => id) (fun _ => Or.inl)
  · rw [if_pos aligned, Program.wp_stop]
    exact Or.inr rfl

/-- The pages of an image that ends at `sz`. -/
def ImagePages (sz v : Nat) : Prop := 1 ≤ v ∧ v < ceilPage sz

/-- The end of the image after a segment. -/
def ProgHdr.grow (ph : ProgHdr) (sz : Nat) : Nat :=
  if ph.type ≠ ELF_PROG_LOAD then sz else if ph.newsz sz < sz then sz else ph.newsz sz

theorem ProgHdr.le_grow (ph : ProgHdr) (sz : Nat) : sz ≤ ph.grow sz := by
  unfold ProgHdr.grow
  split
  · exact Nat.le_refl sz
  · split
    · exact Nat.le_refl sz
    · omega

/-- A segment that can be loaded when there is enough memory. -/
def File.loadable (ip : File) (ph : ProgHdr) (sz : Nat) : Prop :=
  ph.type = ELF_PROG_LOAD -> ph.filesz ≤ ph.memsz ∧ ph.newsz sz ≤ USERTOP ∧
    ip.chunks ph.offset ph.filesz (pagesBelow 0 ph.filesz) 0 = true

/-- What is known after a segment, or all segments, of an image that ends at
`sz` have been loaded up to `last`. -/
def Loaded (image : Image) (owner : Nat -> Role) (s : Vm) (d : Nat) (source : Nat -> Prop)
    (sz last : Nat) (loadable : Prop) (result : Option Nat) (t : Vm) : Prop :=
  Exists fun after => Exists fun now => During d s.proc.pgdir owner after s t ∧
    Loading image after t d now source ∧
    match result with
    | none => ¬ (loadable ∧ ceilPage last ≤ s.freelist.length + ceilPage sz)
    | some sz' => sz' = last ∧ loadable ∧ last ≤ USERTOP ∧ now = ImagePages last ∧
        s.freelist.length + ceilPage sz = t.freelist.length + ceilPage last

theorem fillSegment_wp {image : Image} {owner middle : Nat -> Role} {s u : Vm} {d : Nat}
    {source : Nat -> Prop} {ph : ProgHdr} (ip : File) (sz : Nat) (isLoad : ph.type = ELF_PROG_LOAD)
    (confined : ph.Confined) (during : During d s.proc.pgdir owner middle s u)
    (loading : Loading image middle u d (ImagePages (ph.grow sz)) source)
    (nonzero : ph.grow sz ≠ 0) (low : ph.grow sz ≤ USERTOP) (fits : ph.newsz sz ≤ USERTOP)
    (files : ph.filesz ≤ ph.memsz)
    (sum : s.freelist.length + ceilPage sz = u.freelist.length + ceilPage (ph.grow sz)) :
    Program.wp (fillSegment d ip ph (ph.grow sz))
      (Loaded image owner s d source sz (ph.grow sz) (ip.loadable ph sz))
      LoadPanic u := by
  unfold fillSegment
  rw [if_neg nonzero]
  refine Program.wp_seq (loaduvm_wp loading ip ph.offset (confined isLoad)) ?_
  rintro ok t ⟨isChunks, loadDuring, sameList, space⟩
  have next := loading.step loadDuring (loading.heap.congr sameList) space
  rw [during.proc] at loadDuring
  cases ok with
  | false =>
      rw [if_neg Bool.false_ne_true, Program.wp_pure]
      refine ⟨middle, _, during.trans loadDuring, next, fun both => ?_⟩
      rw [(both.1 isLoad).2.2] at isChunks
      cases isChunks
  | true =>
      rw [if_pos rfl, Program.wp_pure]
      exact ⟨middle, _, during.trans loadDuring, next, rfl, fun _ => ⟨files, fits, isChunks.symm⟩,
        low, rfl, by rw [sameList]; exact sum⟩

theorem fillSegment_failed {image : Image} {owner middle : Nat -> Role} {s u : Vm} {d sz : Nat}
    {source now : Nat -> Prop} {ip : File} {ph : ProgHdr}
    (during : During d s.proc.pgdir owner middle s u)
    (loading : Loading image middle u d now source)
    (failed : ¬ (ip.loadable ph sz ∧ ceilPage (ph.grow sz) ≤ s.freelist.length + ceilPage sz)) :
    Program.wp (fillSegment d ip ph 0)
      (Loaded image owner s d source sz (ph.grow sz) (ip.loadable ph sz)) LoadPanic u := by
  unfold fillSegment
  rw [if_pos rfl, Program.wp_pure]
  exact ⟨middle, now, during, loading, failed⟩

theorem loadSegment_wp {image : Image} {owner : Nat -> Role} {s : Vm} {d sz : Nat}
    {source : Nat -> Prop} (loading : Loading image owner s d (ImagePages sz) source) (ip : File)
    (ph : ProgHdr) (start : PGSIZE ≤ sz) (low : sz ≤ USERTOP) (confined : ph.Confined) :
    Program.wp (loadSegment image d ip ph sz)
      (Loaded image owner s d source sz (ph.grow sz) (ip.loadable ph sz))
      LoadPanic s := by
  have unchanged : During d s.proc.pgdir owner owner s s := (Within.refl d owner s).during _
  have first : 1 ≤ ceilPage sz := ceilPage_mono start
  have positive : 0 < sz := Nat.lt_of_lt_of_le (by decide) start
  unfold loadSegment
  by_cases skipped : ph.type ≠ ELF_PROG_LOAD
  · rw [if_pos skipped, Program.wp_pure, ProgHdr.grow, if_pos skipped]
    exact ⟨owner, _, unchanged, loading, rfl, fun load => absurd load skipped, low, rfl, rfl⟩
  · have isLoad : ph.type = ELF_PROG_LOAD := not_not.mp skipped
    rw [if_neg skipped]
    by_cases short : ph.memsz < ph.filesz
    · rw [if_pos short, Program.wp_pure]
      refine ⟨owner, _, unchanged, loading, fun both => ?_⟩
      exact absurd (both.1 isLoad).1 (Nat.not_le.mpr short)
    · have files : ph.filesz ≤ ph.memsz := Nat.not_lt.mp short
      rw [if_neg short, Program.wp_bind]
      refine Program.wp_mono (allocuvm_wp loading.heap loading.space) ?_ ?_
      · intro size t allocated
        cases allocated with
        | tooLarge large =>
            refine fillSegment_failed unchanged loading (fun both => ?_)
            exact absurd (both.1 isLoad).2.1 (Nat.not_le.mpr large)
        | shrinks smaller =>
            have same : ph.grow sz = sz := by
              rw [ProgHdr.grow, if_neg skipped, if_pos smaller]
            have filled := fillSegment_wp ip sz isLoad confined unchanged
              (by rw [same]; exact loading) (by omega) (by omega) (by omega) files (by rw [same])
            rw [same] at filled ⊢
            exact filled
        | grown high larger clear became sum =>
            rcases became with ⟨middle, heap, within, space⟩
            have same : ph.grow sz = ph.newsz sz := by
              rw [ProgHdr.grow, if_neg skipped, if_neg (Nat.not_lt.mpr larger)]
            have order := ceilPage_mono larger
            have grownPages : Space middle t d (ImagePages (ph.grow sz)) := by
              refine space.congr (fun v _ => ?_)
              rw [same]
              simp only [ImagePages, Between]
              omega
            have next := loading.step (within.during _) heap grownPages
            have filled := fillSegment_wp ip sz isLoad confined (within.during _) next
              (by omega) (by omega) high files (by rw [same]; omega)
            rw [same] at filled ⊢
            exact filled
        | outOfMemory high larger became few =>
            rcases became with ⟨middle, heap, within, space⟩
            have same : ph.grow sz = ph.newsz sz := by
              rw [ProgHdr.grow, if_neg skipped, if_neg (Nat.not_lt.mpr larger)]
            refine fillSegment_failed (within.during _) (loading.step (within.during _) heap space)
              (fun both => ?_)
            rw [same] at both
            omega
      · rintro reason ⟨_, high, w, between, mapped⟩
        exact absurd (Nat.lt_of_lt_of_le mapped.2 between.1) (Nat.lt_irrefl w)

/-- The end of the image after a list of segments. -/
def File.imageEnd (ip : File) : Nat -> Nat -> Nat -> Nat
  | 0, _, sz => sz
  | count + 1, off, sz => ip.imageEnd count ((off + 32) % 2 ^ 32) ((ip.ph off).grow sz)

/-- All segments can be loaded when there is enough memory. -/
def File.Loadable (ip : File) : Nat -> Nat -> Nat -> Prop
  | 0, _, _ => True
  | count + 1, off, sz => ip.readi off 32 = some 32 ∧ ip.loadable (ip.ph off) sz ∧
      ip.Loadable count ((off + 32) % 2 ^ 32) ((ip.ph off).grow sz)

/-- All loadable segments lie in user memory. -/
def File.Confined (ip : File) : Nat -> Nat -> Prop
  | 0, _ => True
  | count + 1, off => (ip.ph off).Confined ∧ ip.Confined count ((off + 32) % 2 ^ 32)

theorem File.le_imageEnd (ip : File) (count : Nat) :
    forall off sz, sz ≤ ip.imageEnd count off sz := by
  induction count with
  | zero => exact fun _ sz => Nat.le_refl sz
  | succ count ih => exact fun off sz => Nat.le_trans (ProgHdr.le_grow _ sz) (ih _ _)

theorem loadSegments_wp {image : Image} {d : Nat} {source : Nat -> Prop} (ip : File) (count : Nat) :
    forall {owner : Nat -> Role} {s : Vm} {off sz : Nat},
      Loading image owner s d (ImagePages sz) source -> PGSIZE ≤ sz -> sz ≤ USERTOP ->
      ip.Confined count off ->
      Program.wp (loadSegments image d ip count off sz)
        (Loaded image owner s d source sz (ip.imageEnd count off sz) (ip.Loadable count off sz))
        (fun reason => LoadPanic reason ∧ count ≠ 0) s := by
  induction count with
  | zero =>
      intro owner s off sz loading _ low _
      rw [loadSegments, Program.wp_pure]
      exact ⟨owner, _, (Within.refl d owner s).during _, loading, rfl, trivial, low, rfl, rfl⟩
  | succ count ih =>
      intro owner s off sz loading start low confined
      rw [loadSegments]
      by_cases unreadable : ip.readi off 32 ≠ some 32
      · rw [if_pos unreadable, Program.wp_pure]
        exact ⟨owner, _, (Within.refl d owner s).during _, loading, fun both =>
          unreadable both.1.1⟩
      · rw [if_neg unreadable]
        rw [Program.wp_bind]
        refine Program.wp_mono (loadSegment_wp loading ip (ip.ph off) start low confined.1) ?_
          (fun _ stopped => ⟨stopped, Nat.succ_ne_zero count⟩)
        rintro result t ⟨middle, now, during, next, outcome⟩
        have order := ceilPage_mono
            (ip.le_imageEnd count ((off + 32) % 2 ^ 32) ((ip.ph off).grow sz))
        cases result with
        | none =>
            rw [Program.wp_pure]
            refine ⟨middle, now, during, next, fun both => outcome ⟨both.1.2.1, ?_⟩⟩
            exact Nat.le_trans order both.2
        | some last =>
            rcases outcome with ⟨rfl, loadable, high, rfl, sum⟩
            refine Program.wp_mono (ih next (Nat.le_trans start (ProgHdr.le_grow _ sz)) high
              confined.2) ?_ (fun _ stopped => ⟨stopped.1, Nat.succ_ne_zero count⟩)
            rintro result u ⟨after, later, restDuring, restLoading, restOutcome⟩
            rw [during.proc] at restDuring
            refine ⟨after, later, during.trans restDuring, restLoading, ?_⟩
            cases result with
            | none =>
                intro both
                refine restOutcome ⟨both.1.2.2, ?_⟩
                have enough := both.2
                rw [File.imageEnd] at enough
                omega
            | some size =>
                rcases restOutcome with ⟨isEnd, restLoadable, isLow, isPages, restSum⟩
                refine ⟨isEnd, ⟨not_not.mp unreadable, loadable, restLoadable⟩, isLow, isPages, ?_⟩
                rw [File.imageEnd]
                omega

end AddressSpace
end OsProjects
