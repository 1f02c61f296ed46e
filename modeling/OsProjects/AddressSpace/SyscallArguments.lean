import OsProjects.AddressSpace.Layout

namespace OsProjects
namespace AddressSpace

/-!
# Checking the pointers that user code passes

A system call finds its arguments on the user stack and may get any 32-bit
value there.  `fetchint` and `argptr` are the only guards of addresses: they reject
the gap between `sz` and `sz2` and accept what is left.  What is left also contains
page 0, the kernel above `USERTOP` and ranges that wrap around, so the two
results below say exactly which values are still harmless.
-/

/-- Fetch the int at `addr`.  `memory` is the word the kernel reads there. -/
def fetchint (p : Proc) (memory : UInt32 -> UInt32) (addr : UInt32) : Option UInt32 :=
  if (addr ≥ p.sz ∧ addr < p.sz2) ∨ (addr + 4 > p.sz ∧ addr + 4 < p.sz2) then none
  else some (memory addr)

/-- Fetch the nth 32-bit system call argument. -/
def argint (p : Proc) (memory : UInt32 -> UInt32) (n : UInt32) : Option UInt32 :=
  fetchint p memory (p.tf.esp + 4 + 4 * n)

/-- The test of `argptr` on a pointer `i` and a signed size, which the addition
converts to unsigned. -/
def argptrRejects (p : Proc) (i : UInt32) (size : Int32) : Prop :=
  (i ≥ p.sz ∧ i < p.sz2) ∨ (i + size.toUInt32 > p.sz ∧ i < p.sz2) ∨
    i.toNat < PGSIZE ∨ (i + size.toUInt32).toNat > USERTOP

instance (p : Proc) (i : UInt32) (size : Int32) : Decidable (argptrRejects p i size) :=
  inferInstanceAs (Decidable (_ ∨ _))

/-- Fetch the nth argument as a pointer to `size` bytes. -/
def argptr (p : Proc) (memory : UInt32 -> UInt32) (n : UInt32) (size : Int32) : Option UInt32 :=
  match argint p memory n with
  | none => none
  | some i => if argptrRejects p i size then none else some i

/-! ## The handlers and the bytes they touch -/

/-- Largest size of a file in bytes, `MAXFILE*BSIZE`. -/
def largestFile : Nat := (12 + 512 / 4) * 512

def NOFILE : Int32 := 16

def PIPESIZE : Nat := 512

def NDEV : Int := 10

def CONSOLE : Int := 1

/-- Whether `readi` and `writei` find a function for a device.  `consoleinit` alone enters
functions in the table, and it enters both. -/
def devsw (major : Int) : Bool := 0 ≤ major ∧ major < NDEV ∧ major = CONSOLE

inductive FileType
  | pipe
  | device (major : Int)
  | inode
  deriving DecidableEq

/-- What the handlers look at in `struct file`. -/
structure OpenFile where
  type : FileType
  readable : Bool
  writable : Bool
  deriving DecidableEq

/-- What the file is like when the handler uses it: others that share it may have filled the
pipe in the meantime, moved the offset or changed the size. -/
inductive FileState
  | pipe (held : Nat) (bounded : held ≤ PIPESIZE)
  | device (major : Int)
  | inode (size off : UInt32) (bounded : size.toNat ≤ largestFile)

def FileState.type : FileState -> FileType
  | .pipe .. => .pipe
  | .device major => .device major
  | .inode .. => .inode

/-- Fetch the nth argument as a file descriptor; `ofile` is the table of the process. -/
def argfd (p : Proc) (ofile : Nat -> Option OpenFile) (memory : UInt32 -> UInt32) (n : UInt32) :
    Option OpenFile :=
  match argint p memory n with
  | none => none
  | some fd => if fd.toInt32 < 0 ∨ fd.toInt32 ≥ NOFILE then none else ofile fd.toNat

/-- The first free descriptor. -/
def fdalloc (ofile : Nat -> Option OpenFile) : Option Nat :=
  (List.range NOFILE.toNatClampNeg).find? (fun fd => (ofile fd).isNone)

/-- Bytes that `fileread` stores at its address.  Pipes and the console count
up to the signed `n`; `readi` takes `n` as unsigned and clips it to the file. -/
def fileread (n : Int32) (f : OpenFile) (now : FileState) : Nat :=
  if f.readable then
    match now with
    | .pipe held _ => min n.toInt.toNat held
    | .device major => if devsw major then n.toInt.toNat else 0
    | .inode size off _ =>
        if off > size ∨ off + n.toUInt32 < off then 0
        else if off + n.toUInt32 > size then (size - off).toNat
        else n.toUInt32.toNat
  else 0

/-- Bytes that `filewrite` loads from its address.  A full pipe makes it sleep and go on. -/
def filewrite (n : Int32) (f : OpenFile) (now : FileState) : Nat :=
  if f.writable then
    match now with
    | .pipe .. => n.toInt.toNat
    | .device major => if devsw major then n.toInt.toNat else 0
    | .inode size off _ =>
        if off > size ∨ off + n.toUInt32 < off then 0
        else if (off + n.toUInt32).toNat > largestFile then largestFile - off.toNat
        else n.toUInt32.toNat
  else 0

/-- Bytes that `filestat` stores, for the two types with an inode. -/
def filestat (f : OpenFile) : Nat := if f.type = .pipe then 0 else 20

/-- Bytes that `sys_pipe` stores: both descriptors, once it has one for each end. -/
def pipeDescriptors (ofile : Nat -> Option OpenFile) : Nat :=
  match fdalloc ofile with
  | none => 0
  | some fd0 =>
      match fdalloc (Function.update ofile fd0 (some ⟨.pipe, true, false⟩)) with
      | none => 0
      | some _ => 8

/-- The handlers that take a buffer. -/
inductive Handler
  | sys_read
  | sys_write
  | sys_fstat
  | sys_pipe
  deriving DecidableEq

namespace Handler

/-- The file that the handler uses, after its first check; `sys_pipe` uses none. -/
def file (p : Proc) (ofile : Nat -> Option OpenFile) (memory : UInt32 -> UInt32) :
    Handler -> Option (Option OpenFile)
  | .sys_pipe => some none
  | _ => (argfd p ofile memory 0).map some

/-- The argument that holds the buffer's address. -/
def pointer : Handler -> UInt32
  | .sys_pipe => 0
  | _ => 1

/-- The size that the handler passes to `argptr`: the third argument for reads
and writes, `sizeof(struct stat)`, or two ints. -/
def size (p : Proc) (memory : UInt32 -> UInt32) : Handler -> Option Int32
  | .sys_read | .sys_write => (argint p memory 2).map UInt32.toInt32
  | .sys_fstat => some 20
  | .sys_pipe => some 8

/-- The file, and the pointer and the size as the user passed them. -/
def arguments (p : Proc) (ofile : Nat -> Option OpenFile) (memory : UInt32 -> UInt32)
    (h : Handler) : Option (Option OpenFile × UInt32 × Int32) :=
  match h.file p ofile memory, h.size p memory, argint p memory h.pointer with
  | some f, some n, some i => some (f, i, n)
  | _, _, _ => none

/-- The file and the pointer with which the handler goes on, and the size it then uses. -/
def accepted (p : Proc) (ofile : Nat -> Option OpenFile) (memory : UInt32 -> UInt32)
    (h : Handler) : Option (Option OpenFile × UInt32 × Int32) :=
  match h.file p ofile memory with
  | none => none
  | some f =>
      match h.size p memory with
      | none => none
      | some n => (argptr p memory h.pointer n).map (fun i => (f, i, n))

/-- How many bytes from its pointer the handler touches. -/
def touched (ofile : Nat -> Option OpenFile) (n : Int32) (f : Option OpenFile) (now : FileState)
    (h : Handler) : Nat :=
  match h, f with
  | .sys_read, some f => fileread n f now
  | .sys_write, some f => filewrite n f now
  | .sys_fstat, some f => filestat f
  | .sys_pipe, _ => pipeDescriptors ofile
  | _, none => 0

/-- Acceptance is the test of `argptr` on the arguments. -/
theorem accepted_iff (p : Proc) (ofile : Nat -> Option OpenFile) (memory : UInt32 -> UInt32)
    (h : Handler) (f : Option OpenFile) (i : UInt32) (n : Int32) :
    h.accepted p ofile memory = some (f, i, n) ↔
      h.arguments p ofile memory = some (f, i, n) ∧ ¬ argptrRejects p i n := by
  unfold accepted arguments argptr
  cases opened : h.file p ofile memory with
  | none => simp
  | some g =>
      cases sized : h.size p memory with
      | none => simp
      | some m =>
          cases fetched : argint p memory h.pointer with
          | none => simp
          | some j =>
              by_cases rejected : argptrRejects p j m
              · simp only [if_pos rejected, Option.map_none, reduceCtorEq, Option.some.injEq,
                  Prod.mk.injEq, false_iff, not_and, not_not]
                rintro ⟨rfl, rfl, rfl⟩
                exact rejected
              · simp only [if_neg rejected, Option.map_some, Option.some.injEq, Prod.mk.injEq,
                  iff_self_and]
                rintro ⟨rfl, rfl, rfl⟩
                exact rejected

end Handler

/-! ## Confinement -/

/-- If `fetchint` succeeds, the four bytes it reads are user memory. -/
def FetchintConfined (p : Proc) (memory : UInt32 -> UInt32) (addr : UInt32) : Prop :=
  forall value, fetchint p memory addr = some value ->
    forall k, k < 4 -> p.UserByte (addr.toNat + k)

/-- If the pointer of a handler is accepted, every byte that the handler may
touch, whatever its file is like by then, is user memory. -/
def HandlerConfined (p : Proc) (ofile : Nat -> Option OpenFile) (memory : UInt32 -> UInt32)
    (h : Handler) : Prop :=
  forall f i n, h.accepted p ofile memory = some (f, i, n) ->
    forall now : FileState, (forall g, f = some g -> now.type = g.type) ->
      forall k, k < h.touched ofile n f now -> p.UserByte (i.toNat + k)

/-- The addresses on which `fetchint` is right.  Below the heap it must fall
into the gap by its last byte, inside the heap it must not step over a gap that
is shorter than an int, and above `sz2` it must stay below `USERTOP`. -/
def FetchintSafe (p : Proc) (addr : UInt32) : Prop :=
  (addr.toNat < PGSIZE -> p.sz.toNat < addr.toNat + 4 ∧ addr.toNat + 4 < p.sz2.toNat) ∧
  (PGSIZE ≤ addr.toNat -> addr.toNat < p.sz.toNat -> addr.toNat + 4 ≤ p.sz.toNat ∨
    addr.toNat + 4 < p.sz2.toNat ∨ (p.sz = p.sz2 ∧ addr.toNat + 4 ≤ USERTOP)) ∧
  (p.sz2.toNat ≤ addr.toNat -> addr.toNat + 4 ≤ USERTOP)

/-- The most bytes that a transfer of a given size touches: none if the file is not open for it
or is a device without a driver; `readi` and `writei` take the size as unsigned, but a file has
a largest size.  At most `throughPipe` bytes go through a pipe. -/
def transferReach (n : Int32) (throughPipe : Nat) (type : FileType) (opened : Bool) : Nat :=
  if opened then
    match type with
    | .pipe => throughPipe
    | .device major => if devsw major then n.toInt.toNat else 0
    | .inode => min n.toUInt32.toNat largestFile
  else 0

/-- The most bytes that a handler touches. -/
def Handler.reach (ofile : Nat -> Option OpenFile) (n : Int32) (f : Option OpenFile)
    (h : Handler) : Nat :=
  match h, f with
  | .sys_read, some f => transferReach n (min n.toInt.toNat PIPESIZE) f.type f.readable
  | .sys_write, some f => transferReach n n.toInt.toNat f.type f.writable
  | .sys_fstat, some f => filestat f
  | .sys_pipe, _ => pipeDescriptors ofile
  | _, none => 0

/-- The arguments on which `argptr` is right, for a handler that touches up to `m` bytes.  A
size that is not negative must not carry the range around the end of the address space and back
below `USERTOP`; with a negative size the pointer must be rejected, or leave room for what the
handler touches. -/
def ArgptrSafe (p : Proc) (i : UInt32) (n : Int32) (m : Nat) : Prop :=
  m = 0 ∨ if 0 ≤ n.toInt then
    ¬ (2 ^ 32 ≤ i.toNat + n.toInt.toNat ∧ i.toNat + n.toInt.toNat ≤ 2 ^ 32 + USERTOP)
  else
    i.toNat < PGSIZE ∨ (i.toNat : Int) + n.toInt < 0 ∨ (USERTOP : Int) < i.toNat + n.toInt ∨
      (p.sz ≤ i ∧ i < p.sz2) ∨ i.toNat + m ≤ p.sz.toNat ∨
      ((p.sz2 ≤ i ∨ p.sz = p.sz2) ∧ i.toNat + m ≤ USERTOP)

def HandlerSafe (p : Proc) (ofile : Nat -> Option OpenFile) (memory : UInt32 -> UInt32)
    (h : Handler) : Prop :=
  forall f i n, h.arguments p ofile memory = some (f, i, n) ->
    ArgptrSafe p i n (h.reach ofile n f)

/-- The test of `fetchint` in terms of numbers. -/
theorem fetchint_eq_some_iff (p : Proc) (memory : UInt32 -> UInt32) (addr value : UInt32) :
    fetchint p memory addr = some value ↔
      ¬ ((p.sz.toNat ≤ addr.toNat ∧ addr.toNat < p.sz2.toNat) ∨
        (p.sz.toNat < (addr.toNat + 4) % 2 ^ 32 ∧ (addr.toNat + 4) % 2 ^ 32 < p.sz2.toNat)) ∧
      memory addr = value := by
  have sum : (addr + 4).toNat = (addr.toNat + 4) % 2 ^ 32 := UInt32.toNat_add addr 4
  simp only [fetchint, ge_iff_le, gt_iff_lt, UInt32.le_iff_toNat_le, UInt32.lt_iff_toNat_lt, sum]
  split <;> rename_i test <;> simp only [test, not_true_eq_false, not_false_eq_true, reduceCtorEq,
    false_and, true_and, Option.some.injEq]

theorem fetchintConfined_iff (p : Proc) (memory : UInt32 -> UInt32) (addr : UInt32)
    (ordered : p.Ordered) : FetchintConfined p memory addr ↔ FetchintSafe p addr := by
  have bound := addr.toNat_lt
  have low := ordered.low
  have middle := ordered.middle
  have high := ordered.high
  have same : p.sz = p.sz2 ↔ p.sz.toNat = p.sz2.toNat := UInt32.toNat_inj.symm
  have page : PGSIZE = 4096 := rfl
  have top : USERTOP = 655360 := rfl
  simp only [FetchintConfined, fetchint_eq_some_iff, FetchintSafe, Proc.UserByte, same]
  constructor
  · intro confined
    have first := fun test => confined (memory addr) ⟨test, rfl⟩ 0 (by decide)
    have last := fun test => confined (memory addr) ⟨test, rfl⟩ 3 (by decide)
    have gap := fun test short => confined (memory addr) ⟨test, rfl⟩ (p.sz.toNat - addr.toNat) short
    refine ⟨fun below => ?_, fun above inside => ?_, fun stack => ?_⟩
    · by_contra outside
      have := first (by omega)
      omega
    · by_contra outside
      have hole := gap (by omega) (by omega)
      have ending := last (by omega)
      omega
    · by_contra outside
      have := last (by omega)
      omega
  · rintro ⟨below, heap, stack⟩ value ⟨test, -⟩ k short
    by_cases under : addr.toNat < PGSIZE
    · have := below under
      omega
    · by_cases inside : addr.toNat < p.sz.toNat
      · have := heap (by omega) inside
        omega
      · have := stack (by omega)
        omega

/-! ## The size argument -/

/-- The unsigned value of a signed size. -/
theorem toInt_cond (n : Int32) :
    n.toInt = if 2 * n.toUInt32.toNat < 2 ^ 32 then (n.toUInt32.toNat : Int)
      else (n.toUInt32.toNat : Int) - 2 ^ 32 :=
  BitVec.toInt_eq_toNat_cond n.toBitVec

/-- The test of `argptr` in terms of numbers. -/
theorem argptrRejects_iff (p : Proc) (i : UInt32) (n : Int32) :
    argptrRejects p i n ↔
      (p.sz.toNat ≤ i.toNat ∧ i.toNat < p.sz2.toNat) ∨
      (p.sz.toNat < (i.toNat + n.toUInt32.toNat) % 2 ^ 32 ∧ i.toNat < p.sz2.toNat) ∨
      i.toNat < PGSIZE ∨ USERTOP < (i.toNat + n.toUInt32.toNat) % 2 ^ 32 := by
  simp only [argptrRejects, ge_iff_le, gt_iff_lt, UInt32.le_iff_toNat_le, UInt32.lt_iff_toNat_lt,
    UInt32.toNat_add]

/-- A file of the largest size, at its beginning. -/
def fullFile : FileState := .inode 71680 0 (by decide)

/-- For each type a state in which a transfer of any size reaches as far as it can. -/
def FileType.fullest : FileType -> FileState
  | .pipe => .pipe PIPESIZE (Nat.le_refl PIPESIZE)
  | .device major => .device major
  | .inode => fullFile

theorem type_fullest (type : FileType) : type.fullest.type = type := by
  cases type with
  | pipe => rfl
  | device major => rfl
  | inode => rfl

theorem fileread_le (n : Int32) (f : OpenFile) {now : FileState} (same : now.type = f.type) :
    fileread n f now ≤ transferReach n (min n.toInt.toNat PIPESIZE) f.type f.readable := by
  have largest : largestFile = 71680 := rfl
  rw [← same]
  unfold fileread transferReach
  cases f.readable with
  | false => exact Nat.le_refl 0
  | true =>
      cases now with
      | pipe held bounded =>
          show min n.toInt.toNat held ≤ min n.toInt.toNat PIPESIZE
          omega
      | device major => exact Nat.le_refl _
      | inode size off bounded =>
          have sizeBound := size.toNat_lt
          have offBound := off.toNat_lt
          have unsigned := n.toUInt32.toNat_lt
          simp only [FileState.type, if_true, gt_iff_lt, UInt32.lt_iff_toNat_lt, UInt32.toNat_add]
          split
          · exact Nat.zero_le _
          · rename_i checks
            have difference : (size - off).toNat = size.toNat - off.toNat := by
              apply UInt32.toNat_sub_of_le
              rw [UInt32.le_iff_toNat_le]
              omega
            rw [difference]
            split <;> omega

theorem filewrite_le (n : Int32) (f : OpenFile) {now : FileState} (same : now.type = f.type) :
    filewrite n f now ≤ transferReach n n.toInt.toNat f.type f.writable := by
  have largest : largestFile = 71680 := rfl
  rw [← same]
  unfold filewrite transferReach
  cases f.writable with
  | false => exact Nat.le_refl 0
  | true =>
      cases now with
      | pipe held bounded => exact Nat.le_refl _
      | device major => exact Nat.le_refl _
      | inode size off bounded =>
          have offBound := off.toNat_lt
          have unsigned := n.toUInt32.toNat_lt
          simp only [FileState.type, if_true, gt_iff_lt, UInt32.lt_iff_toNat_lt, UInt32.toNat_add]
          split
          · exact Nat.zero_le _
          · split <;> omega

theorem fileread_fullest (n : Int32) (f : OpenFile) :
    fileread n f f.type.fullest =
      transferReach n (min n.toInt.toNat PIPESIZE) f.type f.readable := by
  have unsigned := n.toUInt32.toNat_lt
  unfold fileread transferReach
  cases f.readable with
  | false => rfl
  | true =>
      cases f.type with
      | pipe => rfl
      | device major => rfl
      | inode =>
          have difference : ((71680 : UInt32) - 0).toNat = 71680 := by decide
          have size : (71680 : UInt32).toNat = 71680 := by decide
          have largest : largestFile = 71680 := rfl
          simp only [FileType.fullest, fullFile, if_true, gt_iff_lt, UInt32.lt_iff_toNat_lt,
            UInt32.toNat_add, difference, size, UInt32.toNat_zero, largest]
          split
          · omega
          · split <;> omega

theorem filewrite_fullest (n : Int32) (f : OpenFile) :
    filewrite n f f.type.fullest = transferReach n n.toInt.toNat f.type f.writable := by
  have unsigned := n.toUInt32.toNat_lt
  unfold filewrite transferReach
  cases f.writable with
  | false => rfl
  | true =>
      cases f.type with
      | pipe => rfl
      | device major => rfl
      | inode =>
          have size : (71680 : UInt32).toNat = 71680 := by decide
          have largest : largestFile = 71680 := rfl
          simp only [FileType.fullest, fullFile, if_true, gt_iff_lt, UInt32.lt_iff_toNat_lt,
            UInt32.toNat_add, size, UInt32.toNat_zero, largest]
          split
          · omega
          · split <;> omega

/-- Whatever its file is like by then, a handler touches the bytes below its reach. -/
theorem touched_below_reach_iff (ofile : Nat -> Option OpenFile) (h : Handler)
    (f : Option OpenFile) (n : Int32) (P : Nat -> Prop) :
    (forall now : FileState, (forall g, f = some g -> now.type = g.type) ->
      forall k, k < h.touched ofile n f now -> P k) ↔
        forall k, k < h.reach ofile n f -> P k := by
  constructor
  · intro every
    cases f with
    | none =>
        have all := every fullFile nofun
        cases h with
        | sys_pipe => exact all
        | _ => exact all
    | some g =>
        have all := every g.type.fullest (fun other same => by
          rw [← Option.some.inj same]
          exact type_fullest g.type)
        cases h with
        | sys_read =>
            rw [Handler.touched, fileread_fullest] at all
            exact all
        | sys_write =>
            rw [Handler.touched, filewrite_fullest] at all
            exact all
        | sys_fstat => exact all
        | sys_pipe => exact all
  · intro every now same k below
    apply every k
    cases f with
    | none =>
        cases h with
        | sys_pipe => exact below
        | _ => exact below
    | some g =>
        cases h with
        | sys_read => exact Nat.lt_of_lt_of_le below (fileread_le n g (same g rfl))
        | sys_write => exact Nat.lt_of_lt_of_le below (filewrite_le n g (same g rfl))
        | sys_fstat => exact below
        | sys_pipe => exact below

/-- A size that is not negative bounds what a transfer touches. -/
theorem transferReach_le {n : Int32} (nonneg : 0 ≤ n.toInt) {throughPipe : Nat}
    (fewer : throughPipe ≤ n.toInt.toNat) (type : FileType) (opened : Bool) :
    transferReach n throughPipe type opened ≤ n.toInt.toNat := by
  have signed := toInt_cond n
  have unsigned := n.toUInt32.toNat_lt
  unfold transferReach
  cases opened with
  | false => exact Nat.zero_le _
  | true =>
      cases type with
      | pipe => exact fewer
      | device major =>
          simp only [if_true]
          split
          · exact Nat.le_refl _
          · exact Nat.zero_le _
      | inode =>
          simp only [if_true]
          split at signed <;> omega

theorem pipeDescriptors_le (ofile : Nat -> Option OpenFile) : pipeDescriptors ofile ≤ 8 := by
  unfold pipeDescriptors
  split
  · exact Nat.zero_le 8
  · split
    · exact Nat.zero_le 8
    · exact Nat.le_refl 8

/-- No handler touches more than the size that it passes to `argptr`, if that is not negative. -/
theorem reach_le {p : Proc} {ofile : Nat -> Option OpenFile} {memory : UInt32 -> UInt32}
    {h : Handler} {f : Option OpenFile} {i : UInt32} {n : Int32}
    (given : h.arguments p ofile memory = some (f, i, n)) (nonneg : 0 ≤ n.toInt) :
    h.reach ofile n f ≤ n.toInt.toNat := by
  have fixed : forall size, h.size p memory = some size -> size = n := by
    intro size sized
    unfold Handler.arguments at given
    rw [sized] at given
    cases opened : h.file p ofile memory with
    | none => simp [opened] at given
    | some g =>
        cases fetched : argint p memory h.pointer with
        | none => simp [opened, fetched] at given
        | some j =>
            simp only [opened, fetched, Option.some.injEq, Prod.mk.injEq] at given
            exact given.2.2
  cases h with
  | sys_read =>
      cases f with
      | none => exact Nat.zero_le _
      | some g => exact transferReach_le nonneg (Nat.min_le_left _ _) g.type g.readable
  | sys_write =>
      cases f with
      | none => exact Nat.zero_le _
      | some g => exact transferReach_le nonneg (Nat.le_refl _) g.type g.writable
  | sys_fstat =>
      rw [← fixed 20 rfl]
      cases f with
      | none => exact Nat.zero_le _
      | some g =>
          show filestat g ≤ 20
          unfold filestat
          split
          · exact Nat.zero_le _
          · exact Nat.le_refl _
  | sys_pipe =>
      rw [← fixed 8 rfl]
      exact pipeDescriptors_le ofile

/-- The arithmetic of `argptr`: an accepted pointer has what the handler touches in user
memory exactly for the safe arguments. -/
theorem argptr_reach_iff (p : Proc) (ordered : p.Ordered) (i : UInt32) (n : Int32) {m : Nat}
    (small : 0 ≤ n.toInt -> m ≤ n.toInt.toNat) :
    (¬ argptrRejects p i n -> forall k, k < m -> p.UserByte (i.toNat + k)) ↔
      ArgptrSafe p i n m := by
  have bound := i.toNat_lt
  have low := ordered.low
  have middle := ordered.middle
  have high := ordered.high
  have same : p.sz = p.sz2 ↔ p.sz.toNat = p.sz2.toNat := UInt32.toNat_inj.symm
  have page : PGSIZE = 4096 := rfl
  have top : USERTOP = 655360 := rfl
  have signed := toInt_cond n
  have unsigned := n.toUInt32.toNat_lt
  by_cases nothing : m = 0
  · refine iff_of_true (fun _ k below => ?_) (Or.inl nothing)
    omega
  have safe : ArgptrSafe p i n m ↔ _ := or_iff_right nothing
  rw [safe]
  simp only [argptrRejects_iff, Proc.UserByte, same, UInt32.le_iff_toNat_le,
    UInt32.lt_iff_toNat_lt]
  by_cases nonneg : 0 ≤ n.toInt
  · have value : n.toInt = n.toUInt32.toNat := by split at signed <;> omega
    have fewer := small nonneg
    rw [if_pos nonneg]
    constructor
    · intro confined wraps
      have := confined (by omega) 0 (by omega)
      omega
    · intro noWrap test k below
      omega
  · have value : n.toInt = (n.toUInt32.toNat : Int) - 2 ^ 32 := by split at signed <;> omega
    rw [if_neg nonneg]
    constructor
    · intro confined
      by_contra unsafeSize
      have first := confined (by omega) 0 (by omega)
      have atGap := fun short => confined (by omega) (p.sz.toNat - i.toNat) short
      have atTop := fun short => confined (by omega) (USERTOP - i.toNat) short
      by_cases heap : i.toNat < p.sz.toNat
      · have gap := atGap (by omega)
        by_cases joined : p.sz.toNat = p.sz2.toNat
        · have ending := atTop (by omega)
          omega
        · omega
      · have ending := atTop (by omega)
        omega
    · intro safeSize test k below
      omega

theorem handlerConfined_iff (p : Proc) (ofile : Nat -> Option OpenFile) (memory : UInt32 -> UInt32)
    (h : Handler) (ordered : p.Ordered) :
    HandlerConfined p ofile memory h ↔ HandlerSafe p ofile memory h := by
  constructor
  · intro confined f i n given
    apply (argptr_reach_iff p ordered i n (reach_le given)).mp
    intro passed
    exact (touched_below_reach_iff ofile h f n _).mp
      (confined f i n ((h.accepted_iff p ofile memory f i n).mpr ⟨given, passed⟩))
  · intro safe f i n accepted
    rcases (h.accepted_iff p ofile memory f i n).mp accepted with ⟨given, passed⟩
    exact (touched_below_reach_iff ofile h f n _).mpr
      ((argptr_reach_iff p ordered i n (reach_le given)).mpr (safe f i n given) passed)

/-- For every process with ordered boundaries, every table of open files, every memory, every
address and every handler, the pointers that pass the checks are confined to user memory
exactly when they are not of the kinds that the checks miss. -/
theorem syscall_pointers_confined_iff (p : Proc) (ordered : p.Ordered)
    (ofile : Nat -> Option OpenFile) (memory : UInt32 -> UInt32) (addr : UInt32) (h : Handler) :
    FetchintConfined p memory addr ∧ HandlerConfined p ofile memory h ↔
      FetchintSafe p addr ∧ HandlerSafe p ofile memory h :=
  and_congr (fetchintConfined_iff p memory addr ordered)
    (handlerConfined_iff p ofile memory h ordered)

/-- A process with one page of code and one page of stack. -/
def smallProc : Proc where
  sz := 0x2000
  sz2 := 0x9F000
  pgdir := 0
  tf := { eip := 0, esp := 0x9FF00 }
  killed := false
  name := []

theorem smallProc_ordered : smallProc.Ordered := by
  constructor <;> decide

/-- The descriptor 0 is a file that is open for reading. -/
def oneFile (fd : Nat) : Option OpenFile := if fd = 0 then some ⟨.inode, true, false⟩ else none

/-- `read(0, pointer, n)` as the user stack of the process has it. -/
def readArguments (pointer n : UInt32) (addr : UInt32) : UInt32 :=
  if addr = 0x9FF04 then 0 else if addr = 0x9FF08 then pointer else n

/-- A page of the file is read to the page of code, and nothing else is touched. -/
theorem syscall_pointers_confined_iff_smallProc :
    smallProc.Ordered ∧ FetchintConfined smallProc (readArguments 0x1000 0x1000) 0x9FF04 ∧
      HandlerConfined smallProc oneFile (readArguments 0x1000 0x1000) .sys_read ∧
      Handler.sys_read.accepted smallProc oneFile (readArguments 0x1000 0x1000) =
        some (oneFile 0, 0x1000, 0x1000) := by
  have given : Handler.sys_read.arguments smallProc oneFile (readArguments 0x1000 0x1000) =
      some (oneFile 0, 0x1000, 0x1000) := by decide
  have confined := (syscall_pointers_confined_iff smallProc smallProc_ordered oneFile
    (readArguments 0x1000 0x1000) 0x9FF04 .sys_read).mpr
      ⟨⟨by decide, by decide, by decide⟩, fun f i n other => ?_⟩
  · exact ⟨smallProc_ordered, confined.1, confined.2, by decide⟩
  · rw [given] at other
    rcases Prod.mk.inj (Option.some.inj other) with ⟨rfl, rest⟩
    rcases Prod.mk.inj rest with ⟨rfl, rfl⟩
    exact Or.inr (by decide)

/-- `fetchint` reads kernel memory at `USERTOP`, and `sys_read` with a size of
`-1` stores a whole file over the top of the stack page. -/
theorem syscall_pointers_escape :
    ¬ FetchintConfined smallProc (fun _ => 0) 0xA0000 ∧
      ¬ HandlerConfined smallProc oneFile (readArguments 0x9FFF0 0xFFFFFFFF) .sys_read := by
  constructor
  · intro confined
    have read := confined 0 (by decide) 0 (by decide)
    exact absurd read (by decide)
  · intro confined
    have stored := confined (oneFile 0) 0x9FFF0 (-1) (by decide) fullFile (fun g same => ?_) 16
      (by decide)
    · exact absurd stored (by decide)
    · rw [← Option.some.inj same]
      rfl

end AddressSpace
end OsProjects
