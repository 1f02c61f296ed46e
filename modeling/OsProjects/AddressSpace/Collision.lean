import OsProjects.AddressSpace.Process
import OsProjects.Machine.Transition

namespace OsProjects
namespace AddressSpace

open Machine

/-!
# Heap and stack of all processes

The state of the machine is memory, free list and the processes that have
completed an `exec`; the initial process waits apart until its first one.  A step
is a system call or a fault of one process, a store by user code, or the kernel
taking or returning a page for some other purpose, so that any pattern of
allocation failures can happen.  Calls that fail are not steps, except a `fork`
or a page fault that runs out of memory.

`growproc` compares the new size with a fixed limit, not with `sz2`, and `exec`
accepts an image up to the page below its stack page.  Runs that avoid both
mistakes keep the two regions apart.
-/

structure Sys where
  mem : Nat -> Page
  freelist : List Nat
  initproc : Option Proc
  procs : Nat -> Option Proc
  held : List Nat
  halted : Option Panic

/-- The machine as the process `p` sees it. -/
def Sys.vm (s : Sys) (p : Proc) : Vm := { mem := s.mem, freelist := s.freelist, proc := p }

/-- The state after the process `pid` has run. -/
def Sys.put (s : Sys) (pid : Nat) (v : Vm) : Sys :=
  { s with
    mem := v.mem
    freelist := v.freelist
    procs := Function.update s.procs pid (some v.proc) }

@[simp] theorem Sys.put_procs_self (s : Sys) (pid : Nat) (v : Vm) :
    (s.put pid v).procs pid = some v.proc := by
  show Function.update s.procs pid (some v.proc) pid = some v.proc
  rw [Function.update_self]

/-- The state after a child has been added, with the page of its kernel stack. -/
def Sys.add (s : Sys) (pid : Nat) (child : Proc) (kstack : Nat) : Sys :=
  { s with procs := Function.update s.procs pid (some child), held := kstack :: s.held }

/-- Continue with what a program returns, or halt. -/
def Sys.after {Value : Type} (s : Sys) (outcome : Outcome Panic Vm Value)
    (returns : Value -> Vm -> Option Sys) : Option Sys :=
  match outcome with
  | .done value v => returns value v
  | .panic reason => some { s with halted := some reason }

inductive Event
  | init (pid : Nat) (namei : List UInt8 -> Option File) (path : List UInt8) (argv : List Argument)
  | growproc (pid : Nat) (n : UInt32)
  | pageFault (pid : Nat)
  | fork (pid child : Nat)
  | exec (pid : Nat) (namei : List UInt8 -> Option File) (path : List UInt8) (argv : List Argument)
  | store (pid v : Nat) (contents : Page)
  | wait (pid : Nat)
  | kalloc
  | kfree (page : Nat)

/-- One step of the machine. -/
def next (image : Image) (s : Sys) (event : Event) : Option Sys :=
  if s.halted ≠ none then none
  else match event with
    | .init pid namei path argv => s.initproc.bind (fun p =>
        s.after (exec image namei path argv (s.vm p)) (fun result v =>
          if result = 0 then some { s.put pid v with initproc := none } else none))
    | .growproc pid n => (s.procs pid).bind (fun p =>
        s.after (growproc image n (s.vm p)) (fun result v =>
          if result = 0 then some (s.put pid v) else none))
    | .pageFault pid => (s.procs pid).bind (fun p =>
        s.after (pageFault image (s.vm p)) (fun _ v => some (s.put pid v)))
    | .fork pid child => (s.procs pid).bind (fun p =>
        if s.procs child ≠ none then none
        else s.after (fork image (s.vm p)) (fun result v =>
          match result with
          | none => some (s.put pid v)
          | some (np, kstack) => some ((s.put pid v).add child np kstack)))
    | .exec pid namei path argv => (s.procs pid).bind (fun p =>
        s.after (exec image namei path argv (s.vm p)) (fun result v =>
          if result = 0 then some (s.put pid v) else none))
    | .store pid v contents => (s.procs pid).bind (fun p =>
        if v < USERPAGES ∧ Present (pte (s.vm p) p.pgdir v) then
          some { s with mem := Function.update s.mem (PTE_ADDR (pte (s.vm p) p.pgdir v)) contents }
        else none)
    | .wait pid => (s.procs pid).bind (fun p =>
        s.after (freevm image p.pgdir (s.vm p)) (fun _ v => some { s with
          mem := v.mem, freelist := v.freelist, procs := Function.update s.procs pid none }))
    | .kalloc => match s.freelist with
        | [] => none
        | r :: rest => some { s with freelist := rest, held := r :: s.held }
    | .kfree page =>
        if page ∈ s.held then some { s with
          mem := Function.update s.mem page (Bytes.fill 1), freelist := page :: s.freelist,
          held := s.held.erase page }
        else none

/-- The machine after `userinit`: one process with a single page at address 0. -/
def Boot (image : Image) (s : Sys) : Prop :=
  Exists fun owner => Exists fun p => s.initproc = some p ∧ Heap image owner (s.vm p) ∧
    Space owner (s.vm p) p.pgdir (fun v => v = 0) ∧ p.sz.toNat = PGSIZE ∧
    (forall pid, s.procs pid = none) ∧ s.held = [] ∧ s.halted = none

/-- Heap and stack of a process do not collide. -/
structure Separated (s : Sys) (p : Proc) : Prop where
  aligned : p.sz2.toNat % PGSIZE = 0
  gap : PGROUNDUP p.sz.toNat + PGSIZE ≤ p.sz2.toNat
  high : p.sz2.toNat ≤ USERTOP - PGSIZE
  pages : forall v, v < USERPAGES -> (Present (pte (s.vm p) p.pgdir v) ↔
    (PGSIZE ≤ v * PGSIZE ∧ v * PGSIZE < PGROUNDUP p.sz.toNat) ∨ p.sz2.toNat ≤ v * PGSIZE)
  zero : ¬ Present (pte (s.vm p) p.pgdir 0)

/-- The property of the whole machine. -/
def NoCollision (s : Sys) : Prop :=
  s.halted ≠ some .remap ∧ forall pid p, s.procs pid = some p -> Separated s p

/-- An image whose segments lie in user memory and that leaves an unmapped page
below the stack page. -/
def Fitting (ip : File) : Prop :=
  ip.Confined ip.elf.phnum ip.elf.phoff ∧ ip.last ≤ USERTOP - 2 * PGSIZE

/-- The steps that respect the stack: growing leaves a page below `sz2`, and
every file that is executed fits. -/
def Careful (s : Sys) : Event -> Prop
  | .init _ namei path _ => forall ip, namei path = some ip -> Fitting ip
  | .exec _ namei path _ => forall ip, namei path = some ip -> Fitting ip
  | .growproc pid n => forall p, s.procs pid = some p -> 0 < n.toNat -> n.toNat < 2 ^ 31 ->
      p.sz.toNat + n.toNat + PGSIZE ≤ p.sz2.toNat
  | _ => True

/-! ## The invariant -/

/-- Every process owns its address space. -/
structure Inv (image : Image) (owner : Nat -> Role) (s : Sys) : Prop where
  heap : forall p, Heap image owner (s.vm p)
  process : forall pid p, s.procs pid = some p -> Process owner (s.vm p) p
  distinct : forall i j p q, s.procs i = some p -> s.procs j = some q -> p.pgdir = q.pgdir -> i = j
  held : forall page, page ∈ s.held -> owner page = .kernel
  nodup : s.held.Nodup
  initial : forall p, s.initproc = some p ->
    (Exists fun pages => Space owner (s.vm p) p.pgdir pages) ∧ forall pid, s.procs pid = none
  running : s.halted ≠ some .remap

theorem Process.separated {owner : Nat -> Role} {s : Sys} {p : Proc}
    (process : Process owner (s.vm p) p) : Separated s p := by
  rcases process.stack_pages with ⟨first, last, low⟩
  have aligned := process.aligned
  have gap := process.gap
  have round := PGROUNDUP_eq low
  refine ⟨aligned, ?_, process.high, fun v isUser => ?_, fun present => ?_⟩
  · rw [round]
    simp only [PGSIZE] at aligned gap ⊢
    omega
  · rw [process.space.user v isUser, round]
    simp only [Regions, PGSIZE] at aligned gap ⊢
    omega
  · have mapped := (process.space.user 0 (by decide)).mp present
    simp only [Regions] at mapped
    omega

theorem Inv.noCollision {image : Image} {owner : Nat -> Role} {s : Sys} (inv : Inv image owner s) :
    NoCollision s :=
  ⟨inv.running, fun pid p live => (inv.process pid p live).separated⟩

/-! ## Steps -/

theorem Process.of_mem {owner : Nat -> Role} {s t : Vm} {p : Proc} (process : Process owner s p)
    (same : t.mem = s.mem) : Process owner t p :=
  ⟨process.space.of_mem same, process.nonempty, process.aligned, process.gap, process.high⟩

/-- The live processes after one of them has changed. -/
theorem update_live {procs : Nat -> Option Proc} {pid j : Nat} {new : Option Proc} {q : Proc}
    (live : Function.update procs pid new j = some q) :
    (j = pid ∧ new = some q) ∨ (j ≠ pid ∧ procs j = some q) := by
  by_cases here : j = pid
  · rw [here, Function.update_self] at live
    exact Or.inl ⟨here, live⟩
  · rw [Function.update_of_ne here] at live
    exact Or.inr ⟨here, live⟩

/-- What a step of the process `pid` may touch. -/
structure Local (s : Sys) (pid : Nat) (touches : Role -> Prop) : Prop where
  others : forall j q, j ≠ pid -> s.procs j = some q -> forall r, r.Of q.pgdir -> ¬ touches r
  kernel : ¬ touches .kernel

/-- The step of one process keeps all others. -/
theorem Inv.put {image : Image} {owner after : Nat -> Role} {s : Sys} {pid : Nat} {p : Proc}
    {v : Vm} {touches : Role -> Prop} (inv : Inv image owner s) (isLocal : Local s pid touches)
    (framed : Framed touches owner after (s.vm p) v) (heap : Heap image after v)
    (process : Process after v v.proc)
    (distinct : forall j q, j ≠ pid -> s.procs j = some q -> q.pgdir ≠ v.proc.pgdir) :
    Inv image after { s.put pid v with initproc := none } := by
  refine ⟨fun _ => heap.congr rfl, fun j q live => ?_, fun i j q r liveI liveJ same => ?_,
    fun page member => ?_, inv.nodup, nofun, inv.running⟩
  · rcases update_live live with ⟨_, isProc⟩ | ⟨different, old⟩
    · rw [← Option.some.inj isProc]
      exact process.of_mem rfl
    · have kept : Framed touches owner after (s.vm q) v := ⟨framed.role, framed.contents⟩
      exact ((inv.process j q old).framed kept (isLocal.others j q different old)).of_mem rfl
  · rcases update_live liveI with ⟨hereI, isProc⟩ | ⟨differentI, oldI⟩
    · rcases update_live liveJ with ⟨hereJ, _⟩ | ⟨differentJ, oldJ⟩
      · rw [hereI, hereJ]
      · rw [← Option.some.inj isProc] at same
        exact absurd same.symm (distinct j r differentJ oldJ)
    · rcases update_live liveJ with ⟨_, isProc⟩ | ⟨_, oldJ⟩
      · rw [← Option.some.inj isProc] at same
        exact absurd same (distinct i q differentI oldI)
      · exact inv.distinct i j q r oldI oldJ same
  · have isKernel := inv.held page member
    rw [framed.role page (by rw [isKernel]; exact isLocal.kernel), isKernel]

theorem Inv.no_initproc {image : Image} {owner : Nat -> Role} {s : Sys} {pid : Nat} {p : Proc}
    (inv : Inv image owner s) (live : s.procs pid = some p) : s.initproc = none := by
  cases initial : s.initproc with
  | none => rfl
  | some q =>
      have dead := (inv.initial q initial).2 pid
      rw [live] at dead
      cases dead

/-- The directory of a live process is not the one of a new address space. -/
theorem Inv.dir_ne {image : Image} {owner : Nat -> Role} {s : Sys} {j d : Nat} {q : Proc}
    (inv : Inv image owner s) (live : s.procs j = some q) (notDir : owner d ≠ .dir d) :
    d ≠ q.pgdir := by
  intro same
  rw [same] at notDir
  exact notDir (inv.process j q live).space.dir.self

theorem Inv.local_own {image : Image} {owner : Nat -> Role} {s : Sys} {pid : Nat} {p : Proc}
    (inv : Inv image owner s) (live : s.procs pid = some p) :
    Local s pid (fun r => r = .free ∨ r.Of p.pgdir) := by
  refine ⟨fun j q different other r mine => ?_, ?_⟩
  · refine Role.Of.untouched (fun same => different ?_) mine
    exact (inv.distinct pid j p q live other same).symm
  · rintro (impossible | impossible)
    · cases impossible
    · exact impossible

theorem Inv.moved {image : Image} {owner : Nat -> Role} {s : Sys} {pid : Nat} {p : Proc} {v : Vm}
    (inv : Inv image owner s) (live : s.procs pid = some p) (moved : Moved image owner (s.vm p) v) :
    Exists fun after => Inv image after (s.put pid v) := by
  rcases moved with ⟨after, heap, framed, process, sameDir⟩
  have stepped := inv.put (inv.local_own live) framed heap process
      (fun j q different other same => by
    rw [sameDir] at same
    exact different (inv.distinct j pid q p other live same))
  refine ⟨after, ?_⟩
  have unchanged : { s.put pid v with initproc := none } = s.put pid v := by
    rw [← inv.no_initproc live]
    rfl
  rw [← unchanged]
  exact stepped

/-- A machine that stops for another reason than `remap`. -/
theorem Inv.halt {image : Image} {owner : Nat -> Role} {s : Sys} (inv : Inv image owner s)
    {reason : Panic} (notRemap : reason ≠ .remap) :
    Inv image owner { s with halted := some reason } :=
  ⟨inv.heap, inv.process, inv.distinct, inv.held, inv.nodup, inv.initial,
    fun isRemap => notRemap (Option.some.inj isRemap)⟩

/-- A step that runs a specified program. -/
theorem Inv.after {image : Image} {owner : Nat -> Role} {s t : Sys} {Value : Type} {p : Proc}
    {program : VmProgram Value} {post : Value -> Vm -> Prop} {escape : Panic -> Prop}
    {returns : Value -> Vm -> Option Sys} (inv : Inv image owner s)
    (holds : Program.wp program post escape (s.vm p))
    (stepped : s.after (program (s.vm p)) returns = some t)
    (escapes : forall reason, escape reason -> reason ≠ .remap)
    (goesOn : forall value v, post value v -> returns value v = some t ->
      Exists fun after => Inv image after t) : Exists fun after => Inv image after t := by
  unfold Program.wp at holds
  unfold Sys.after at stepped
  cases ended : program (s.vm p) with
  | done value v =>
      rw [ended] at holds stepped
      exact goesOn value v holds stepped
  | panic reason =>
      rw [ended] at holds stepped
      rw [← Option.some.inj stepped]
      exact ⟨owner, inv.halt (escapes reason holds)⟩

/-- A process with a new image has the layout. -/
theorem process_of_image {owner : Nat -> Role} {t : Vm} {p : Proc} {ip : File}
    (fitting : Fitting ip) (space : Space owner t p.pgdir (Regions ip.last (USERTOP - PGSIZE)))
    (isSz : p.sz = UInt32.ofNat (PGROUNDUP ip.last))
    (isSz2 : p.sz2 = UInt32.ofNat (USERTOP - PGSIZE)) : Process owner t p := by
  have start : PGSIZE ≤ ip.last := ip.le_imageEnd ip.elf.phnum ip.elf.phoff PGSIZE
  have limit := fitting.2
  have round := PGROUNDUP_eq (Nat.le_trans limit (by decide))
  have bounds : 1 ≤ ceilPage ip.last ∧ ceilPage ip.last + 2 ≤ USERPAGES := by
    simp only [ceilPage, PGSIZE, USERPAGES, USERTOP] at start limit ⊢
    omega
  have size : p.sz.toNat = ceilPage ip.last * PGSIZE := by
    rw [isSz, round]
    refine toNat_ofNat_of_le ?_
    simp only [PGSIZE, USERPAGES, USERTOP] at bounds ⊢
    omega
  have stack : p.sz2.toNat = USERTOP - PGSIZE := by
    rw [isSz2]
    decide
  have samePages : ceilPage p.sz.toNat = ceilPage ip.last := by
    rw [size]
    simp only [ceilPage, PGSIZE]
    omega
  refine ⟨space.congr (fun v _ => ?_), ?_, ?_, ?_, ?_⟩
  · rw [stack]
    simp only [Regions, samePages]
  · rw [size]
    exact Nat.mul_pos bounds.1 (by decide)
  · rw [stack]
    decide
  · rw [stack, samePages]
    have last : (USERTOP - PGSIZE) / PGSIZE + 1 = USERPAGES := by decide
    omega
  · rw [stack]

/-- Nothing but a file that fits can be executed. -/
theorem exec_step {image : Image} {owner : Nat -> Role} {s : Sys} {p : Proc} {pages : Nat -> Prop}
    {namei : List UInt8 -> Option File} {path : List UInt8} (argv : List Argument)
    (inv : Inv image owner s) (caller : Space owner (s.vm p) p.pgdir pages)
    (fitting : forall ip, namei path = some ip -> Fitting ip) :
    Program.wp (exec image namei path argv)
      (fun result t =>
        result = 0 ->
        Exists fun after => Exists fun d =>
          owner d ≠ .dir d ∧ Heap image after t ∧
          Framed (fun r => r = .free ∨ r.Of d ∨ r.Of p.pgdir) owner after (s.vm p) t ∧
          t.proc.pgdir = d ∧ Process after t t.proc)
      (fun reason => reason ≠ .remap) (s.vm p) := by
  cases found : namei path with
  | none =>
      unfold exec
      rw [found]
      exact fun impossible => absurd impossible (by decide)
  | some ip =>
      have fits := fitting ip found
      refine Program.wp_mono (exec_wp (inv.heap p) caller found fits.1 argv) ?_ ?_
      · intro result t ended isZero
        cases ended with
        | early _ _ _ _ _ => exact absurd isZero (by decide)
        | late _ _ _ _ _ _ => exact absurd isZero (by decide)
        | replaced notDir heap framed space isDir isSz isSz2 _ _ _ _ _ =>
            rw [← isDir] at space
            exact ⟨_, _, notDir, heap, framed, isDir, process_of_image fits space isSz isSz2⟩
      · intro reason stopped isRemap
        have high := stopped.remap isRemap
        have limit := fits.2
        simp only [ceilPage, PGSIZE, USERPAGES, USERTOP] at high limit
        omega

theorem Inv.exec {image : Image} {owner : Nat -> Role} {s t : Sys} {pid : Nat}
    {namei : List UInt8 -> Option File} {path : List UInt8} {argv : List Argument} {p : Proc}
    (inv : Inv image owner s) (live : s.procs pid = some p)
    (fitting : forall ip, namei path = some ip -> Fitting ip)
    (stepped : s.after (AddressSpace.exec image namei path argv (s.vm p)) (fun result v =>
      if result = 0 then some (s.put pid v) else none) = some t) :
    Exists fun after => Inv image after t := by
  refine inv.after (exec_step argv inv (inv.process pid p live).space fitting) stepped
    (fun _ notRemap => notRemap) (fun result v replaced returned => ?_)
  by_cases isZero : result = 0
  · rw [if_pos isZero] at returned
    rcases replaced isZero with ⟨after, d, notDir, heap, framed, isDir, process⟩
    have isLocal : Local s pid (fun r => r = .free ∨ r.Of d ∨ r.Of p.pgdir) := by
      refine ⟨fun j q different other r mine => ?_, ?_⟩
      · rintro (isFree | isNew | isOld)
        · exact Role.Of.untouched (inv.dir_ne other notDir) mine (Or.inl isFree)
        · exact Role.Of.untouched (inv.dir_ne other notDir) mine (Or.inr isNew)
        · exact (inv.local_own live).others j q different other r mine (Or.inr isOld)
      · rintro (impossible | impossible | impossible)
        · cases impossible
        · exact impossible
        · exact impossible
    have result := inv.put isLocal framed heap process (fun j q _ other same =>
      inv.dir_ne other notDir (isDir.symm.trans same.symm))
    refine ⟨after, ?_⟩
    have unchanged : { s.put pid v with initproc := none } = s.put pid v := by
      rw [← inv.no_initproc live]
      rfl
    rw [← Option.some.inj returned, ← unchanged]
    exact result
  · rw [if_neg isZero] at returned
    cases returned

/-- The first `exec` of the initial process. -/
theorem Inv.init {image : Image} {owner : Nat -> Role} {s t : Sys} {pid : Nat}
    {namei : List UInt8 -> Option File} {path : List UInt8} {argv : List Argument} {p : Proc}
    (inv : Inv image owner s) (initial : s.initproc = some p)
    (fitting : forall ip, namei path = some ip -> Fitting ip)
    (stepped : s.after (AddressSpace.exec image namei path argv (s.vm p)) (fun result v =>
      if result = 0 then some { s.put pid v with initproc := none } else none) = some t) :
    Exists fun after => Inv image after t := by
  rcases inv.initial p initial with ⟨⟨pages, space⟩, alone⟩
  have nobody : forall {j : Nat} {q : Proc}, s.procs j = some q -> False := by
    intro j q other
    rw [alone j] at other
    cases other
  refine inv.after (exec_step argv inv space fitting) stepped
    (fun _ notRemap => notRemap) (fun result v replaced returned => ?_)
  by_cases isZero : result = 0
  · rw [if_pos isZero] at returned
    rcases replaced isZero with ⟨after, d, notDir, heap, framed, isDir, process⟩
    refine ⟨after, ?_⟩
    rw [← Option.some.inj returned]
    refine inv.put ⟨fun j q _ other => (nobody other).elim, ?_⟩ framed heap process
      (fun j q _ other => (nobody other).elim)
    rintro (impossible | impossible | impossible)
    · cases impossible
    · exact impossible
    · exact impossible
  · rw [if_neg isZero] at returned
    cases returned

theorem Inv.add {image : Image} {owner : Nat -> Role} {s : Sys} {pid kstack : Nat} {child : Proc}
    (inv : Inv image owner s) (noInit : s.initproc = none)
    (process : Process owner (s.vm child) child)
    (distinct : forall j q, s.procs j = some q -> q.pgdir ≠ child.pgdir)
    (isKernel : owner kstack = .kernel) (fresh : kstack ∉ s.held) :
    Inv image owner (s.add pid child kstack) := by
  refine ⟨fun _ => (inv.heap child).congr rfl, fun j q live => ?_,
    fun i j q r liveI liveJ same => ?_, fun page member => ?_,
    List.nodup_cons.mpr ⟨fresh, inv.nodup⟩, fun p initial => ?_, inv.running⟩
  · rcases update_live live with ⟨_, isChild⟩ | ⟨_, old⟩
    · rw [← Option.some.inj isChild]
      exact process.of_mem rfl
    · exact (inv.process j q old).of_mem rfl
  · rcases update_live liveI with ⟨hereI, isChild⟩ | ⟨_, oldI⟩
    · rcases update_live liveJ with ⟨hereJ, _⟩ | ⟨_, oldJ⟩
      · rw [hereI, hereJ]
      · rw [← Option.some.inj isChild] at same
        exact absurd same.symm (distinct j r oldJ)
    · rcases update_live liveJ with ⟨_, isChild⟩ | ⟨_, oldJ⟩
      · rw [← Option.some.inj isChild] at same
        exact absurd same (distinct i q oldI)
      · exact inv.distinct i j q r oldI oldJ same
  · rcases List.mem_cons.mp member with rfl | old
    · exact isKernel
    · exact inv.held page old
  · have impossible : s.initproc = some p := initial
    rw [noInit] at impossible
    cases impossible

theorem Inv.fork {image : Image} {owner : Nat -> Role} {s t : Sys} {pid child : Nat} {p : Proc}
    (inv : Inv image owner s) (live : s.procs pid = some p)
    (stepped : s.after (AddressSpace.fork image (s.vm p)) (fun result v =>
      match result with
      | none => some (s.put pid v)
      | some (np, kstack) => some ((s.put pid v).add child np kstack)) = some t) :
    Exists fun after => Inv image after t := by
  refine inv.after (fork_wp (inv.heap p) (inv.process pid p live)) stepped
    (fun _ => False.elim) (fun result v forked returned => ?_)
  rcases forked with ⟨after, d, notDir, heap, framed, proc, born⟩
  have notOwn := inv.dir_ne live notDir
  have isLocal : Local s pid (fun r => r = .free ∨ r.Of d) := by
    refine ⟨fun j q _ other r mine => Role.Of.untouched (inv.dir_ne other notDir) mine, ?_⟩
    rintro (impossible | impossible)
    · cases impossible
    · exact impossible
  have parent : Process after v v.proc := by
    rw [proc]
    exact (inv.process pid p live).framed framed (fun _ => Role.Of.untouched notOwn)
  have stays := inv.put isLocal framed heap parent (fun j q different other same => by
    rw [proc] at same
    exact different (inv.distinct j pid q p other live same))
  have unchanged : { s.put pid v with initproc := none } = s.put pid v := by
    rw [← inv.no_initproc live]
    rfl
  rw [unchanged] at stays
  cases result with
  | none =>
      rw [← Option.some.inj returned]
      exact ⟨after, stays⟩
  | some pair =>
      rcases pair with ⟨np, kstack⟩
      rcases born np kstack rfl with ⟨isDir, process, isKernel, wasFree⟩
      rw [← Option.some.inj returned]
      refine ⟨after, stays.add (inv.no_initproc live) (process.of_mem rfl)
        (fun j q other => ?_) isKernel (fun member => ?_)⟩
      · rw [isDir]
        rcases update_live other with ⟨_, isParent⟩ | ⟨_, old⟩
        · rw [← Option.some.inj isParent, proc]
          exact notOwn.symm
        · exact (inv.dir_ne old notDir).symm
      · have held := inv.held kstack member
        rw [wasFree] at held
        cases held

/-- A store of user code to one of its own pages. -/
theorem Inv.store {image : Image} {owner : Nat -> Role} {s : Sys} {pid v : Nat} {p : Proc}
    (inv : Inv image owner s) (live : s.procs pid = some p) (isUser : v < USERPAGES)
    (present : Present (pte (s.vm p) p.pgdir v)) (contents : Page) :
    Inv image owner { s with
      mem := Function.update s.mem (PTE_ADDR (pte (s.vm p) p.pgdir v)) contents } := by
  have role := (inv.process pid p live).space.dir.user v isUser present
  generalize PTE_ADDR (pte (s.vm p) p.pgdir v) = r at role ⊢
  refine ⟨fun q => (inv.heap q).congr rfl, fun j q other => ?_, inv.distinct, inv.held, inv.nodup,
    fun q initial => ?_, inv.running⟩
  · have process := inv.process j q other
    exact ⟨process.space.store_user role contents, process.nonempty, process.aligned, process.gap,
      process.high⟩
  · rcases inv.initial q initial with ⟨⟨pages, space⟩, alone⟩
    exact ⟨⟨pages, space.store_user role contents⟩, alone⟩

theorem Inv.wait {image : Image} {owner : Nat -> Role} {s t : Sys} {pid : Nat} {p : Proc}
    (inv : Inv image owner s) (live : s.procs pid = some p)
    (stepped : s.after (freevm image p.pgdir (s.vm p)) (fun _ v => some { s with
      mem := v.mem, freelist := v.freelist, procs := Function.update s.procs pid none }) = some t) :
    Exists fun after => Inv image after t := by
  refine inv.after (freevm_wp (inv.heap p) (inv.process pid p live).space) stepped
    (fun _ => False.elim) (fun _ v freed returned => ?_)
  rcases freed with ⟨after, heap, within, _⟩
  have isLocal := inv.local_own live
  rw [← Option.some.inj returned]
  refine ⟨after, fun _ => heap.congr rfl, fun j q other => ?_, fun i j q r liveI liveJ same => ?_,
    fun page member => ?_, inv.nodup, fun q initial => ?_, inv.running⟩
  · rcases update_live other with ⟨_, impossible⟩ | ⟨different, old⟩
    · cases impossible
    · have kept : Framed (fun r => r = .free ∨ r.Of p.pgdir) owner after (s.vm q) v :=
        ⟨within.framed.role, within.framed.contents⟩
      exact ((inv.process j q old).framed kept (isLocal.others j q different old)).of_mem rfl
  · rcases update_live liveI with ⟨_, impossible⟩ | ⟨_, oldI⟩
    · cases impossible
    · rcases update_live liveJ with ⟨_, impossible⟩ | ⟨_, oldJ⟩
      · cases impossible
      · exact inv.distinct i j q r oldI oldJ same
  · have isKernel := inv.held page member
    rw [within.framed.role page (by rw [isKernel]; exact isLocal.kernel), isKernel]
  · have impossible : s.initproc = some q := initial
    rw [inv.no_initproc live] at impossible
    cases impossible

/-- The kernel takes a page for itself. -/
theorem Inv.kalloc {image : Image} {owner : Nat -> Role} {s : Sys} {r : Nat} {rest : List Nat}
    (inv : Inv image owner s) (head : s.freelist = r :: rest) :
    Inv image (Function.update owner r .kernel)
      { s with freelist := rest, held := r :: s.held } := by
  have isFree : owner r = .free := by
    refine ((inv.heap default).free r).mp ?_
    show r ∈ s.freelist
    rw [head]
    exact List.mem_cons_self
  have untouched : forall {d : Nat} {role : Role}, role.Of d -> role ≠ .free := by
    intro d role mine isFree
    rw [isFree] at mine
    exact mine
  have taken : forall p : Proc, Framed (fun r => r = .free) owner (Function.update owner r .kernel)
      (s.vm p) { mem := s.mem, freelist := rest, proc := p } :=
    fun p => Framed.take isFree .kernel (s.vm p) rest
  refine ⟨fun p => (inv.heap p).take head Role.noConfusion _ _, fun j q live => ?_, inv.distinct,
    fun page member => ?_, List.nodup_cons.mpr ⟨fun member => ?_, inv.nodup⟩, fun q initial => ?_,
    inv.running⟩
  · exact (inv.process j q live).framed (taken q) (fun _ => untouched)
  · rcases List.mem_cons.mp member with rfl | old
    · exact Function.update_self _ _ _
    · have isKernel := inv.held page old
      rw [Function.update_of_ne, isKernel]
      intro same
      rw [same, isFree] at isKernel
      cases isKernel
  · have isKernel := inv.held r member
    rw [isFree] at isKernel
    cases isKernel
  · rcases inv.initial q initial with ⟨⟨pages, space⟩, alone⟩
    exact ⟨⟨pages, space.framed (taken q) (fun _ => untouched)⟩, alone⟩

/-- The kernel returns a page that it has taken. -/
theorem Inv.kfree {image : Image} {owner : Nat -> Role} {s : Sys} {page : Nat}
    (inv : Inv image owner s) (member : page ∈ s.held) :
    Inv image (Function.update owner page .free) { s with
      mem := Function.update s.mem page (Bytes.fill 1), freelist := page :: s.freelist,
      held := s.held.erase page } := by
  have isKernel := inv.held page member
  have untouched : forall {d : Nat} {role : Role}, role.Of d -> role ≠ .kernel := by
    intro d role mine isKernel
    rw [isKernel] at mine
    exact mine
  have freed : forall p : Proc, Framed (fun r => r = .kernel) owner
      (Function.update owner page .free) (s.vm p)
      { mem := Function.update s.mem page (Bytes.fill 1)
        freelist := page :: s.freelist
        proc := p } := by
    intro p
    refine ⟨fun q other => Function.update_of_ne (fun same => other ?_) _ _,
      fun q other => Function.update_of_ne (fun same => other ?_) _ _⟩
    · rw [same]
      exact isKernel
    · rw [same]
      exact isKernel
  refine ⟨fun p => (inv.heap p).give ?_ ?_ _ _, fun j q live => ?_, inv.distinct,
    fun other held => ?_, inv.nodup.erase page, fun q initial => ?_, inv.running⟩
  · rw [isKernel]
    exact Role.noConfusion
  · rw [isKernel]
    exact Role.noConfusion
  · exact (inv.process j q live).framed (freed q) (fun _ => untouched)
  · have split := (List.Nodup.mem_erase_iff inv.nodup).mp held
    rw [Function.update_of_ne split.1]
    exact inv.held other split.2
  · rcases inv.initial q initial with ⟨⟨pages, space⟩, alone⟩
    exact ⟨⟨pages, space.framed (freed q) (fun _ => untouched)⟩, alone⟩

/-! ## Runs -/

theorem Inv.of_boot {image : Image} {s : Sys} (boot : Boot image s) :
    Exists fun owner => Inv image owner s := by
  rcases boot with ⟨owner, p, initial, heap, space, _, alone, held, halted⟩
  refine ⟨owner, fun q => heap.congr rfl, fun j q live => ?_, fun i j q r live => ?_,
    fun page member => ?_, ?_, fun q isInit => ?_, ?_⟩
  · rw [alone j] at live
    cases live
  · rw [alone i] at live
    cases live
  · rw [held] at member
    cases member
  · rw [held]
    exact List.nodup_nil
  · rw [initial] at isInit
    rw [← Option.some.inj isInit]
    exact ⟨⟨_, space⟩, alone⟩
  · rw [halted]
    exact nofun

/-- Every careful step keeps the invariant. -/
theorem Inv.next {image : Image} {owner : Nat -> Role} {s t : Sys} {event : Event}
    (inv : Inv image owner s) (careful : Careful s event)
    (stepped : AddressSpace.next image s event = some t) :
    Exists fun after => Inv image after t := by
  unfold AddressSpace.next at stepped
  by_cases running : s.halted ≠ none
  · rw [if_pos running] at stepped
    cases stepped
  · rw [if_neg running] at stepped
    cases event with
    | init pid namei path argv =>
        rcases Option.bind_eq_some_iff.mp stepped with ⟨p, initial, ran⟩
        exact inv.init initial careful ran
    | growproc pid n =>
        rcases Option.bind_eq_some_iff.mp stepped with ⟨p, live, ran⟩
        refine inv.after (growproc_wp (inv.heap p) (inv.process pid p live) (careful p live)) ran
          (fun _ => False.elim) (fun result v moved returned => ?_)
        by_cases isZero : result = 0
        · rw [if_pos isZero] at returned
          rw [← Option.some.inj returned]
          exact inv.moved live (moved isZero)
        · rw [if_neg isZero] at returned
          cases returned
    | pageFault pid =>
        rcases Option.bind_eq_some_iff.mp stepped with ⟨p, live, ran⟩
        refine inv.after (pageFault_wp (inv.heap p) (inv.process pid p live)) ran
          (fun _ => False.elim) (fun _ v moved returned => ?_)
        rw [← Option.some.inj returned]
        exact inv.moved live moved.1
    | fork pid child =>
        rcases Option.bind_eq_some_iff.mp stepped with ⟨p, live, ran⟩
        by_cases used : s.procs child ≠ none
        · rw [if_pos used] at ran
          cases ran
        · rw [if_neg used] at ran
          exact inv.fork live ran
    | exec pid namei path argv =>
        rcases Option.bind_eq_some_iff.mp stepped with ⟨p, live, ran⟩
        exact inv.exec live careful ran
    | store pid v contents =>
        rcases Option.bind_eq_some_iff.mp stepped with ⟨p, live, ran⟩
        by_cases own : v < USERPAGES ∧ Present (pte (s.vm p) p.pgdir v)
        · rw [if_pos own] at ran
          rw [← Option.some.inj ran]
          exact ⟨owner, inv.store live own.1 own.2 contents⟩
        · rw [if_neg own] at ran
          cases ran
    | wait pid =>
        rcases Option.bind_eq_some_iff.mp stepped with ⟨p, live, ran⟩
        exact inv.wait live ran
    | kalloc =>
        cases head : s.freelist with
        | nil =>
            simp only [head] at stepped
            cases stepped
        | cons r rest =>
            simp only [head] at stepped
            rw [← Option.some.inj stepped]
            exact ⟨_, inv.kalloc head⟩
    | kfree page =>
        by_cases member : page ∈ s.held
        · simp only [if_pos member] at stepped
          rw [← Option.some.inj stepped]
          exact ⟨_, inv.kfree member⟩
        · simp only [if_neg member] at stepped
          cases stepped

/-- In every run whose steps respect the stack, heap and stack stay apart. -/
theorem heap_and_stack_never_collide {image : Image} {s : Sys}
    (reached : Machine.Reachable (next image) (Boot image) Careful s) : NoCollision s := by
  have invariant : Exists fun owner => Inv image owner s :=
    Machine.Reachable.invariant (fun _ boot => Inv.of_boot boot)
      (fun _ _ _ held careful stepped => held.elim (fun _ inv => inv.next careful stepped)) reached
  exact invariant.elim (fun _ inv => inv.noCollision)

/-! ## A run that meets the stack -/

/-- The initial process. -/
def initcode : Proc where
  sz := 0x1000
  sz2 := 0
  pgdir := 512
  tf := { eip := 0, esp := 0x1000 }
  killed := false
  name := []

/-- A machine after `userinit`, with 200 free pages. -/
def bootSys : Sys where
  mem := fun p =>
    if p = 512 then (Bytes.fill 0).setWord 0 (513 * PGSIZE ||| 7)
    else if p = 513 then (Bytes.fill 0).setWord 0 (514 * PGSIZE ||| 7)
    else Bytes.fill 0
  freelist := List.range' 515 200
  initproc := some initcode
  procs := fun _ => none
  held := []
  halted := none

def bootOwner (p : Nat) : Role :=
  if p = 512 then .dir 512
  else if p = 513 then .table 512 0
  else if p = 514 then .user 512 0
  else if 515 ≤ p ∧ p < 715 then .free
  else .other

theorem bootSys_heap (p : Proc) : Heap smallKernel bootOwner (bootSys.vm p) := by
  refine ⟨fun r => ?_, List.nodup_range', fun r managed => ?_⟩
  · have listed : r ∈ (bootSys.vm p).freelist ↔ 515 ≤ r ∧ r < 515 + 200 := by
      show r ∈ List.range' 515 200 ↔ _
      rw [List.mem_range'_1]
    rw [listed]
    unfold bootOwner
    split_ifs <;> simp_all
  · show 0x200000 ≤ r * PGSIZE ∧ r * PGSIZE < PHYSTOP
    have bounds : 512 ≤ r ∧ r < 715 := by
      unfold bootOwner at managed
      split_ifs at managed <;> first | omega | exact absurd rfl managed
    simp only [PGSIZE, PHYSTOP]
    omega

theorem bootSys_space (p : Proc) : Space bootOwner (bootSys.vm p) 512 (fun v => v = 0) := by
  refine @Space.of_table bootOwner (bootSys.vm p) 512 513 _ (fun _ => 514) rfl rfl (by decide)
    rfl (fun v _ mapped => ?_) (fun v _ missing => ?_)
  · rw [mapped]
    exact ⟨Bytes.word_setWord_self _ (by decide) (by decide), rfl⟩
  · have nonzero : v ≠ 0 := fun same => missing ⟨by rw [same]; decide, same⟩
    show ((Bytes.fill 0).setWord 0 (514 * PGSIZE ||| 7)).word v = 0
    rw [Bytes.word_setWord_of_ne _ _ nonzero, Bytes.word_fill_zero]

theorem bootSys_boot : Boot smallKernel bootSys :=
  ⟨bootOwner, _, rfl, bootSys_heap _, bootSys_space _, rfl, fun _ => rfl, rfl, rfl⟩

/-- The first `exec`, of a program without segments. -/
def firstExec : Event := .init 1 (fun _ => some emptyProgram) [] []

theorem firstExec_careful : Careful bootSys firstExec := by
  intro ip same
  rw [← Option.some.inj same]
  refine ⟨emptyProgram_confined, ?_⟩
  rw [emptyProgram_last]
  decide

theorem next_init {image : Image} {s : Sys} {p : Proc} {v : Vm} {pid : Nat}
    {namei : List UInt8 -> Option File} {path : List UInt8} {argv : List Argument}
    (running : s.halted = none) (initial : s.initproc = some p)
    (ran : exec image namei path argv (s.vm p) = .done 0 v) :
    next image s (.init pid namei path argv) = some { s.put pid v with initproc := none } := by
  unfold next
  rw [if_neg (not_not_intro running)]
  simp only [initial, Option.bind_some]
  rw [ran]
  rfl

theorem firstExec_runs : Exists fun s => Exists fun p =>
    next smallKernel bootSys firstExec = some s ∧ s.procs 1 = some p ∧ s.halted = none ∧
      p.sz.toNat = 0x1000 ∧ p.sz2.toNat = 0x9F000 ∧ 186 ≤ s.freelist.length := by
  rcases exec_emptyProgram (bootSys_heap initcode) (bootSys_space initcode) [] [] (Or.inl rfl) with
    ⟨result, t, ran, ended⟩
  have count : (bootSys.vm initcode).freelist.length = 200 := List.length_range'
  have buildable : emptyProgram.Buildable (bootSys.vm initcode).freelist.length :=
    emptyProgram_buildable (by rw [count]; decide)
  cases ended with
  | early _ _ _ _ notBuildable => exact absurd buildable notBuildable
  | late _ _ _ _ _ nonempty => exact absurd rfl nonempty
  | replaced _ _ _ _ _ isSz isSz2 _ _ _ _ fewer =>
      rw [count, show ceilPage PGSIZE = 1 from rfl] at fewer
      refine ⟨{ bootSys.put 1 t with initproc := none }, t.proc, next_init rfl rfl ran,
        bootSys.put_procs_self 1 t, rfl, ?_, ?_, ?_⟩
      · rw [isSz]
        decide
      · rw [isSz2]
        decide
      · show 186 ≤ t.freelist.length
        omega

/-- A page fault of the new process moves its stack down. -/
theorem pageFault_runs {image : Image} {owner : Nat -> Role} {s : Sys} {pid : Nat} {p : Proc}
    (inv : Inv image owner s) (live : s.procs pid = some p) (running : s.halted = none)
    (room : p.sz.toNat + 2 * PGSIZE < p.sz2.toNat) (memory : s.freelist ≠ []) :
    Exists fun t => Exists fun q => next image s (.pageFault pid) = some t ∧
      t.procs pid = some q ∧ t.halted = none ∧ q.sz = p.sz ∧
      q.sz2.toNat + PGSIZE = p.sz2.toNat ∧ s.freelist.length = t.freelist.length + 1 := by
  rcases Program.exists_done_of_wp (pageFault_wp (inv.heap p) (inv.process pid p live)) with
    ⟨_, v, ran, _, sameSz, extended⟩
  rcases extended room memory with ⟨moved, fewer⟩
  refine ⟨s.put pid v, v.proc, ?_, s.put_procs_self pid v, running, sameSz, moved, fewer⟩
  unfold next
  rw [if_neg (not_not_intro running)]
  simp only [live, Option.bind_some]
  rw [ran]
  rfl

/-- `growproc` up to the stack succeeds. -/
theorem growproc_runs {image : Image} {owner : Nat -> Role} {s : Sys} {pid : Nat} {p : Proc}
    {n : UInt32} (inv : Inv image owner s) (live : s.procs pid = some p) (running : s.halted = none)
    (positive : 0 < n.toNat ∧ n.toNat < 2 ^ 31)
    (below : ceilPage (p.sz.toNat + n.toNat) ≤ p.sz2.toNat / PGSIZE)
    (limit : p.sz.toNat + n.toNat ≤ USERTOP - 2 * PGSIZE)
    (memory : ceilPage (p.sz.toNat + n.toNat) ≤ s.freelist.length) :
    Exists fun t => next image s (.growproc pid n) = some t ∧
      t.procs pid = some (p.withSz (UInt32.ofNat (p.sz.toNat + n.toNat))) := by
  rcases Program.exists_done_of_wp (growproc_up_wp (inv.heap p)
    (inv.process pid p live) positive below) with ⟨result, v, ran, ended⟩
  rcases ended with ⟨rfl, _, proc⟩ | ⟨_, high | few⟩
  · refine ⟨s.put pid v, ?_, ?_⟩
    · unfold next
      rw [if_neg (not_not_intro running)]
      simp only [live, Option.bind_some]
      rw [ran]
      rfl
    · have isProc : v.proc = p.withSz (UInt32.ofNat (p.sz.toNat + n.toNat)) := proc
      rw [← isProc]
      exact s.put_procs_self pid v
  · exact absurd limit (Nat.not_le.mpr high)
  · exact absurd memory (Nat.not_le.mpr few)

/-- The first program has started and its stack has grown by a page. -/
theorem stackGrown_runs : Exists fun owner => Exists fun t => Exists fun q =>
    Machine.run (next smallKernel) bootSys [firstExec, .pageFault 1] = some t ∧
      Machine.Reachable (next smallKernel) (Boot smallKernel) Careful t ∧ Inv smallKernel owner t ∧
      t.procs 1 = some q ∧ t.halted = none ∧ q.sz.toNat = 0x1000 ∧ q.sz2.toNat = 0x9E000 ∧
      185 ≤ t.freelist.length := by
  rcases firstExec_runs with ⟨s, p, ran, live, running, isSz, isSz2, free⟩
  rcases Inv.of_boot bootSys_boot with ⟨_, booted⟩
  rcases booted.next firstExec_careful ran with ⟨owner, inv⟩
  have nonempty : s.freelist ≠ [] := by
    intro empty
    rw [empty] at free
    exact absurd free (by decide)
  rcases pageFault_runs inv live running (by rw [isSz, isSz2]; decide) nonempty with
    ⟨t, q, faulted, liveQ, runningQ, sameSz, lower, fewer⟩
  have careful : Careful s (.pageFault 1) := trivial
  rcases inv.next careful faulted with ⟨ownerQ, invQ⟩
  have reached := ((Machine.Reachable.start bootSys_boot).step firstExec_careful ran).step
      careful faulted
  refine ⟨ownerQ, t, q, ?_, reached, invQ, liveQ, runningQ, by rw [sameSz, isSz], ?_, by omega⟩
  · exact Machine.run_cons_eq_some.mpr ⟨s, ran, Machine.run_cons_eq_some.mpr ⟨t, faulted, rfl⟩⟩
  · rw [isSz2] at lower
    simp only [PGSIZE] at lower
    omega

/-- Then the heap grows by five pages. -/
theorem heap_and_stack_never_collide_grown : Exists fun s =>
    Machine.run (next smallKernel) bootSys [firstExec, .pageFault 1, .growproc 1 0x5000] = some s ∧
      NoCollision s := by
  rcases stackGrown_runs with ⟨_, t, q, ran, reached, inv, live, running, sizeQ, stackQ, free⟩
  have amount : (0x5000 : UInt32).toNat = 0x5000 := by decide
  rcases growproc_runs (n := 0x5000) inv live running (by decide)
    (by rw [sizeQ, stackQ, amount]; decide) (by rw [sizeQ, amount]; decide) (by
      have needed : ceilPage (0x1000 + 0x5000) = 6 := by decide
      rw [sizeQ, amount, needed]
      omega) with ⟨u, grown, _⟩
  have careful : Careful t (.growproc 1 0x5000) := by
    intro p found _ _
    rw [← Option.some.inj (live.symm.trans found), sizeQ, stackQ, amount]
    decide
  have extended := Machine.run_append ran
      (Machine.run_cons_eq_some.mpr ⟨u, grown, Machine.run_nil u⟩)
  exact ⟨u, extended, heap_and_stack_never_collide (reached.step careful grown)⟩

/-- After one page fault, `sbrk` grows the heap right up to the stack. -/
theorem heap_reaches_stack : Boot smallKernel bootSys ∧ Exists fun s =>
    Machine.run (next smallKernel) bootSys [firstExec, .pageFault 1, .growproc 1 0x9D000] = some s ∧
      ¬ NoCollision s := by
  rcases stackGrown_runs with ⟨_, t, q, ran, _, inv, live, running, sizeQ, stackQ, free⟩
  have amount : (0x9D000 : UInt32).toNat = 0x9D000 := by decide
  rcases growproc_runs (n := 0x9D000) inv live running (by decide)
    (by rw [sizeQ, stackQ, amount]; decide) (by rw [sizeQ, amount]; decide) (by
      have needed : ceilPage (0x1000 + 0x9D000) = 158 := by decide
      rw [sizeQ, amount, needed]
      omega) with ⟨u, grown, liveU⟩
  have extended := Machine.run_append ran
      (Machine.run_cons_eq_some.mpr ⟨u, grown, Machine.run_nil u⟩)
  refine ⟨bootSys_boot, u, extended, fun separated => ?_⟩
  have gap := (separated.2 1 _ liveU).gap
  rw [Proc.withSz_sz, Proc.withSz_sz2, sizeQ, amount, stackQ] at gap
  exact absurd gap (by decide)

end AddressSpace
end OsProjects
