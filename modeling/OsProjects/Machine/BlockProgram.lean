import OsProjects.Machine.Bytes
import Mathlib.Logic.Function.Basic
import Mathlib.Data.Set.Defs

namespace OsProjects
namespace Machine

/-!
# Programs over a block device behind a buffer cache

Code above a buffer cache borrows a sector with `bread`, looks at and patches
its copy in memory, writes the copy out with `bwrite` and hands it back with
`brelse`.  Such code is written here once, as a tree of these operations, and
is given meaning twice: by running it on a concrete cache, and by the weakest
precondition below, which knows only the disk and the sectors that are held.

The weakest precondition is demonic about the one thing it does not know.  A
sector that was patched and handed back without being written may be found
again as it was left or as it is on the disk, depending on what the cache has
evicted meanwhile; `aside` lists these contents, and `bread` may return any of
them.  Code that leaves nothing aside sees the disk.

`room` is an assumption about the disk that a run may be restricted to, for
example that it never becomes full: after every `bwrite` it may be used.
-/

/-- A tree of buffer operations that ends with a value or stops the machine. -/
inductive BlockProgram (Panic Mem : Type) (n : Nat) (Value : Type) : Type
  | done (value : Value)
  | breadThen (sector : Nat) (next : BlockProgram Panic Mem n Value)
  | lookThen (sector : Nat) (next : Bytes n -> BlockProgram Panic Mem n Value)
  | patchThen (sector : Nat) (change : Bytes n -> Bytes n) (next : BlockProgram Panic Mem n Value)
  | bwriteThen (sector : Nat) (next : BlockProgram Panic Mem n Value)
  | brelseThen (sector : Nat) (next : BlockProgram Panic Mem n Value)
  | getThen (next : Mem -> BlockProgram Panic Mem n Value)
  | putThen (change : Mem -> Mem) (next : BlockProgram Panic Mem n Value)
  | fail (reason : Panic)

/-- Why a program does not return: it waits for a buffer that it holds itself,
every buffer is held, it uses a buffer that it does not hold, or it panics. -/
inductive Stop (Panic : Type)
  | asleep
  | noBuffers
  | notBusy
  | panic (reason : Panic)
  deriving DecidableEq

/-- The disk, the sectors that are held with their contents in memory, and the
contents that a cache may still have of sectors that are not held. -/
structure Device (n : Nat) (Mem : Type) where
  disk : Nat -> Bytes n
  held : Nat -> Option (Bytes n)
  busy : Nat
  aside : Nat -> Set (Bytes n)
  mem : Mem

/-- The number of buffers and the assumption about the disk. -/
structure Limits (n : Nat) where
  capacity : Nat
  room : (Nat -> Bytes n) -> Prop

namespace Device

variable {n : Nat} {Mem : Type}

/-- Borrow a sector with the contents `data`. -/
def hold (d : Device n Mem) (sector : Nat) (data : Bytes n) : Device n Mem :=
  { d with
    held := Function.update d.held sector (some data)
    busy := d.busy + 1
    aside := Function.update d.aside sector ∅ }

/-- Change the copy of a sector that is held. -/
def change (d : Device n Mem) (sector : Nat) (data : Bytes n) : Device n Mem :=
  { d with held := Function.update d.held sector (some data) }

/-- Write a sector. -/
def store (d : Device n Mem) (sector : Nat) (data : Bytes n) : Device n Mem :=
  { d with disk := Function.update d.disk sector data }

/-- Hand a sector back.  A copy that is not what the disk has stays aside. -/
def release (d : Device n Mem) (sector : Nat) : Device n Mem :=
  { d with
    held := Function.update d.held sector none
    busy := d.busy - 1
    aside := if d.held sector = some (d.disk sector) then d.aside
      else Function.update d.aside sector { data | d.held sector = some data } }

/-- Overwrite a sector, of which the cache then has nothing else. -/
def overwrite (d : Device n Mem) (sector : Nat) (data : Bytes n) : Device n Mem :=
  { d with disk := Function.update d.disk sector data, aside := Function.update d.aside sector ∅ }

/-- Replace the state in memory. -/
def withMem (d : Device n Mem) (mem : Mem) : Device n Mem := { d with mem := mem }

/-- The sector is not held and the cache has nothing else of it than the disk. -/
structure Resting (d : Device n Mem) (sector : Nat) : Prop where
  idle : d.held sector = none
  clean : d.aside sector = ∅

variable {d : Device n Mem} {sector other : Nat} {data : Bytes n}

@[simp] theorem held_hold_self : (d.hold sector data).held sector = some data := by
  simp only [hold, Function.update_self]

@[simp] theorem disk_hold : (d.hold sector data).disk = d.disk := rfl

theorem held_hold_of_ne (different : other ≠ sector) :
    (d.hold sector data).held other = d.held other := by
  simp only [hold, Function.update_of_ne different]

@[simp] theorem held_change_self : (d.change sector data).held sector = some data := by
  simp only [change, Function.update_self]

theorem Resting.hold (resting : d.Resting other) (different : other ≠ sector) :
    (d.hold sector data).Resting other := by
  refine ⟨(held_hold_of_ne different).trans resting.idle, ?_⟩
  simp only [Device.hold, Function.update_of_ne different, resting.clean]

theorem Resting.store (resting : d.Resting other) : (d.store sector data).Resting other :=
  ⟨resting.idle, resting.clean⟩

@[simp] theorem disk_store_self : (d.store sector data).disk sector = data := by
  simp only [store, Function.update_self]

theorem disk_store_of_ne (different : other ≠ sector) :
    (d.store sector data).disk other = d.disk other := by
  simp only [store, Function.update_of_ne different]

theorem held_release_of_ne (different : other ≠ sector) :
    (d.release sector).held other = d.held other := by
  simp only [release, Function.update_of_ne different]

/-- Borrowing and handing back leaves no trace. -/
theorem release_hold (resting : d.Resting sector) :
    (d.hold sector (d.disk sector)).release sector = d := by
  have idle : Function.update d.held sector none = d.held := by
    rw [← resting.idle, Function.update_eq_self]
  have clean : Function.update d.aside sector ∅ = d.aside := by
    rw [← resting.clean, Function.update_eq_self]
  simp only [hold, release, Function.update_self, Function.update_idem, if_true, idle, clean,
    Nat.add_sub_cancel]

theorem release_hold_store (resting : d.Resting other) (different : other ≠ sector) :
    ((d.store sector data).hold other (d.disk other)).release other = d.store sector data := by
  have kept := @disk_store_of_ne n Mem d sector other data different
  rw [← kept]
  exact release_hold resting.store

/-- Handing back one sector and borrowing another one can be exchanged. -/
theorem release_hold_of_ne (different : other ≠ sector) (lent : 0 < d.busy) :
    (d.hold sector data).release other = (d.release other).hold sector data := by
  have busy : d.busy + 1 - 1 = d.busy - 1 + 1 := by omega
  simp only [hold, release, Function.update_of_ne different, busy,
    Function.update_comm different]
  by_cases written : d.held other = some (d.disk other)
  · simp only [if_pos written]
  · simp only [if_neg written, Function.update_comm different]

theorem release_comm (different : other ≠ sector) :
    (d.release sector).release other = (d.release other).release sector := by
  simp only [release, Function.update_of_ne different, Function.update_of_ne different.symm,
    Function.update_comm different]
  by_cases written : d.held sector = some (d.disk sector)
  · simp only [if_pos written]
  · by_cases writtenToo : d.held other = some (d.disk other)
    · simp only [if_pos writtenToo, if_neg written]
    · simp only [if_neg writtenToo, if_neg written, Function.update_comm different]

/-- A sector that is held is borrowed with its changed copy. -/
theorem change_hold (before : Bytes n) :
    (d.hold sector before).change sector data = d.hold sector data := by
  simp only [hold, change, Function.update_idem]

/-- Writing does not look at what is held. -/
theorem store_hold (before : Bytes n) :
    (d.hold sector before).store other data = (d.store other data).hold sector before :=
  rfl

/-- Writing what the disk has changes nothing. -/
theorem store_self : d.store sector (d.disk sector) = d := by
  simp only [store, Function.update_eq_self]

/-- Borrowing, changing, writing and handing back is one write. -/
theorem release_store_change_hold (resting : d.Resting sector) (before : Bytes n) :
    (((d.hold sector before).change sector data).store sector data).release sector =
      d.store sector data := by
  have idle : Function.update d.held sector none = d.held := by
    rw [← resting.idle, Function.update_eq_self]
  have clean : Function.update d.aside sector ∅ = d.aside := by
    rw [← resting.clean, Function.update_eq_self]
  simp only [hold, change, store, release, Function.update_self, Function.update_idem, if_true,
    idle, clean, Nat.add_sub_cancel]

/-- The same for a sector of which the cache may have something else. -/
theorem release_overwrite (idle : d.held sector = none) (before : Bytes n) :
    (((d.hold sector before).change sector data).store sector data).release sector =
      d.overwrite sector data := by
  have same : Function.update d.held sector none = d.held := by
    rw [← idle, Function.update_eq_self]
  simp only [hold, change, store, release, overwrite, Function.update_self, Function.update_idem,
    if_true, same, Nat.add_sub_cancel]

end Device

namespace BlockProgram

variable {Panic Mem Value Result : Type} {n : Nat}

/-- Continue with the value of a program. -/
def bind (program : BlockProgram Panic Mem n Value)
    (next : Value -> BlockProgram Panic Mem n Result) : BlockProgram Panic Mem n Result :=
  match program with
  | .done value => next value
  | .breadThen sector rest => .breadThen sector (rest.bind next)
  | .lookThen sector rest => .lookThen sector (fun data => (rest data).bind next)
  | .patchThen sector change rest => .patchThen sector change (rest.bind next)
  | .bwriteThen sector rest => .bwriteThen sector (rest.bind next)
  | .brelseThen sector rest => .brelseThen sector (rest.bind next)
  | .getThen rest => .getThen (fun mem => (rest mem).bind next)
  | .putThen change rest => .putThen change (rest.bind next)
  | .fail reason => .fail reason

instance : Monad (BlockProgram Panic Mem n) where
  pure := .done
  bind := bind

/-- The weakest precondition of a program. -/
def wp (limits : Limits n) (post : Value -> Device n Mem -> Prop) (escape : Stop Panic -> Prop) :
    BlockProgram Panic Mem n Value -> Device n Mem -> Prop
  | .done value, d => post value d
  | .breadThen sector next, d =>
      (d.held sector ≠ none -> escape .asleep) ∧
      (d.held sector = none -> limits.capacity ≤ d.busy -> escape .noBuffers) ∧
      (d.held sector = none -> d.busy < limits.capacity -> forall data,
        data = d.disk sector ∨ data ∈ d.aside sector ->
        next.wp limits post escape (d.hold sector data))
  | .lookThen sector next, d =>
      (d.held sector = none -> escape .notBusy) ∧
      (forall data, d.held sector = some data -> (next data).wp limits post escape d)
  | .patchThen sector change next, d =>
      (d.held sector = none -> escape .notBusy) ∧
      (forall data, d.held sector = some data ->
        next.wp limits post escape (d.change sector (change data)))
  | .bwriteThen sector next, d =>
      (d.held sector = none -> escape .notBusy) ∧
      (forall data, d.held sector = some data ->
        limits.room (Function.update d.disk sector data) ->
        next.wp limits post escape (d.store sector data))
  | .brelseThen sector next, d =>
      (d.held sector = none -> escape .notBusy) ∧
      (forall data, d.held sector = some data ->
        next.wp limits post escape (d.release sector))
  | .getThen next, d => (next d.mem).wp limits post escape d
  | .putThen change next, d => next.wp limits post escape (d.withMem (change d.mem))
  | .fail reason, _ => escape (.panic reason)

/-- Weaken what is known about both ends. -/
theorem wp_mono {limits : Limits n} {stronger post : Value -> Device n Mem -> Prop}
    {narrower escape : Stop Panic -> Prop} {program : BlockProgram Panic Mem n Value}
    {d : Device n Mem} (holds : program.wp limits stronger narrower d)
    (returns : forall value after, stronger value after -> post value after)
    (stops : forall reason, narrower reason -> escape reason) :
    program.wp limits post escape d := by
  induction program generalizing d with
  | done value => exact returns value d holds
  | breadThen sector next ih =>
      rcases holds with ⟨sleeps, full, reads⟩
      exact ⟨fun held => stops _ (sleeps held), fun idle busy => stops _ (full idle busy),
        fun idle space data known => ih (reads idle space data known)⟩
  | lookThen sector next ih =>
      rcases holds with ⟨stray, continues⟩
      exact ⟨fun idle => stops _ (stray idle), fun data held => ih data (continues data held)⟩
  | patchThen sector change next ih =>
      rcases holds with ⟨stray, continues⟩
      exact ⟨fun idle => stops _ (stray idle), fun data held => ih (continues data held)⟩
  | bwriteThen sector next ih =>
      rcases holds with ⟨stray, continues⟩
      exact ⟨fun idle => stops _ (stray idle),
        fun data held roomy => ih (continues data held roomy)⟩
  | brelseThen sector next ih =>
      rcases holds with ⟨stray, continues⟩
      exact ⟨fun idle => stops _ (stray idle), fun data held => ih (continues data held)⟩
  | getThen next ih => exact ih d.mem holds
  | putThen change next ih => exact ih holds
  | fail reason => exact stops _ holds

/-- What is known about a run separately is known together. -/
theorem wp_and {limits : Limits n} {one other : Value -> Device n Mem -> Prop}
    {escape : Stop Panic -> Prop} {program : BlockProgram Panic Mem n Value} {d : Device n Mem}
    (first : program.wp limits one escape d) (second : program.wp limits other escape d) :
    program.wp limits (fun value after => one value after ∧ other value after) escape d := by
  induction program generalizing d with
  | done value => exact ⟨first, second⟩
  | breadThen sector next ih =>
      exact ⟨first.1, first.2.1, fun idle space data known =>
        ih (first.2.2 idle space data known) (second.2.2 idle space data known)⟩
  | lookThen sector next ih =>
      exact ⟨first.1, fun data held => ih data (first.2 data held) (second.2 data held)⟩
  | patchThen sector change next ih =>
      exact ⟨first.1, fun data held => ih (first.2 data held) (second.2 data held)⟩
  | bwriteThen sector next ih =>
      exact ⟨first.1, fun data held roomy => ih (first.2 data held roomy)
        (second.2 data held roomy)⟩
  | brelseThen sector next ih =>
      exact ⟨first.1, fun data held => ih (first.2 data held) (second.2 data held)⟩
  | getThen next ih => exact ih d.mem first second
  | putThen change next ih => exact ih first second
  | fail reason => exact first

/-- Sequencing composes weakest preconditions. -/
theorem wp_bind {limits : Limits n} {post : Result -> Device n Mem -> Prop}
    {escape : Stop Panic -> Prop} {program : BlockProgram Panic Mem n Value}
    {next : Value -> BlockProgram Panic Mem n Result} {d : Device n Mem} :
    (program >>= next).wp limits post escape d ↔
      program.wp limits (fun value after => (next value).wp limits post escape after) escape d := by
  show (program.bind next).wp limits post escape d ↔ _
  induction program generalizing d with
  | done value => exact Iff.rfl
  | breadThen sector rest ih => simp only [bind, wp, ih]
  | lookThen sector rest ih => simp only [bind, wp, ih]
  | patchThen sector change rest ih => simp only [bind, wp, ih]
  | bwriteThen sector rest ih => simp only [bind, wp, ih]
  | brelseThen sector rest ih => simp only [bind, wp, ih]
  | getThen rest ih => simp only [bind, wp, ih]
  | putThen change rest ih => simp only [bind, wp, ih]
  | fail reason => exact Iff.rfl

section Rules

variable {limits : Limits n} {post : Value -> Device n Mem -> Prop} {escape : Stop Panic -> Prop}
  {program : BlockProgram Panic Mem n Result} {next : Result -> BlockProgram Panic Mem n Value}
  {rest : BlockProgram Panic Mem n Value} {d : Device n Mem} {sector : Nat}

/-- Run a specified program and go on from what it guarantees. -/
theorem wp_seq {middle : Result -> Device n Mem -> Prop} (first : program.wp limits middle escape d)
    (continues : forall value after, middle value after ->
      (next value).wp limits post escape after) : (program >>= next).wp limits post escape d :=
  wp_bind.mpr (wp_mono first continues (fun _ stopped => stopped))

end Rules

/-! ## The single operations as programs -/

end BlockProgram

section Operations

variable {Panic Mem Value : Type} {n : Nat}

def bread (sector : Nat) : BlockProgram Panic Mem n Unit := .breadThen sector (.done ())
def look (sector : Nat) : BlockProgram Panic Mem n (Bytes n) := .lookThen sector .done
def patch (sector : Nat) (change : Bytes n -> Bytes n) : BlockProgram Panic Mem n Unit :=
  .patchThen sector change (.done ())
def bwrite (sector : Nat) : BlockProgram Panic Mem n Unit := .bwriteThen sector (.done ())
def brelse (sector : Nat) : BlockProgram Panic Mem n Unit := .brelseThen sector (.done ())
def getMem (view : Mem -> Value) : BlockProgram Panic Mem n Value :=
  .getThen (fun mem => .done (view mem))
def putMem (change : Mem -> Mem) : BlockProgram Panic Mem n Unit := .putThen change (.done ())
def stop (reason : Panic) : BlockProgram Panic Mem n Value := .fail reason

end Operations

namespace BlockProgram

variable {Panic Mem Value : Type} {n : Nat} {limits : Limits n}
  {post : Unit -> Device n Mem -> Prop} {valuePost : Value -> Device n Mem -> Prop}
  {dataPost : Bytes n -> Device n Mem -> Prop} {escape : Stop Panic -> Prop} {d : Device n Mem}
  {sector : Nat} {data : Bytes n}

/-- Reading a sector of which nothing is held or aside shows the disk. -/
theorem wp_bread (resting : d.Resting sector) (space : d.busy < limits.capacity)
    (holds : post () (d.hold sector (d.disk sector))) :
    (bread sector).wp limits post escape d := by
  refine ⟨fun held => absurd resting.idle held, fun _ full => ?_, fun _ _ data known => ?_⟩
  · exact absurd space (Nat.not_lt.mpr full)
  · rcases known with same | left
    · rw [same]
      exact holds
    · rw [resting.clean] at left
      exact absurd left id

/-- Reading a sector that is not held, whatever the cache has of it. -/
theorem wp_borrow (idle : d.held sector = none) (space : d.busy < limits.capacity)
    (holds : forall data, data = d.disk sector ∨ data ∈ d.aside sector ->
      post () (d.hold sector data)) : (bread sector).wp limits post escape d :=
  ⟨fun held => absurd idle held, fun _ full => absurd space (Nat.not_lt.mpr full),
    fun _ _ data known => holds data known⟩

theorem wp_look (held : d.held sector = some data) (holds : dataPost data d) :
    (look sector).wp limits dataPost escape d := by
  refine ⟨fun idle => ?_, fun other found => ?_⟩
  · rw [held] at idle
    exact nomatch idle
  · rw [held] at found
    rw [← Option.some.inj found]
    exact holds

theorem wp_patch {change : Bytes n -> Bytes n} (held : d.held sector = some data)
    (holds : post () (d.change sector (change data))) :
    (patch sector change).wp limits post escape d := by
  refine ⟨fun idle => ?_, fun other found => ?_⟩
  · rw [held] at idle
    exact nomatch idle
  · rw [held] at found
    rw [← Option.some.inj found]
    exact holds

theorem wp_bwrite (held : d.held sector = some data)
    (holds : limits.room (Function.update d.disk sector data) -> post () (d.store sector data)) :
    (bwrite sector).wp limits post escape d := by
  refine ⟨fun idle => ?_, fun other found roomy => ?_⟩
  · rw [held] at idle
    exact nomatch idle
  · rw [held] at found
    rw [← Option.some.inj found] at roomy ⊢
    exact holds roomy

theorem wp_brelse (held : d.held sector = some data) (holds : post () (d.release sector)) :
    (brelse sector).wp limits post escape d := by
  refine ⟨fun idle => ?_, fun _ _ => holds⟩
  rw [held] at idle
  exact nomatch idle

/-- Read a sector and hand it back. -/
theorem wp_glance {next : Bytes n -> BlockProgram Panic Mem n Value} (resting : d.Resting sector)
    (space : d.busy < limits.capacity)
    (holds : (next (d.disk sector)).wp limits valuePost escape d) :
    (do
      bread sector
      let found <- look sector
      brelse sector
      next found : BlockProgram Panic Mem n Value).wp limits valuePost escape d := by
  refine wp_bind.mpr (wp_bread resting space ?_)
  refine wp_bind.mpr (wp_look Device.held_hold_self ?_)
  refine wp_bind.mpr (wp_brelse Device.held_hold_self ?_)
  rw [Device.release_hold resting]
  exact holds

/-- Read a sector, change it, write it and hand it back. -/
theorem wp_rewrite {change : Bytes n -> Bytes n} (resting : d.Resting sector)
    (space : d.busy < limits.capacity)
    (holds : limits.room (Function.update d.disk sector (change (d.disk sector))) ->
      post () (d.store sector (change (d.disk sector)))) :
    (do
      bread sector
      patch sector change
      bwrite sector
      brelse sector : BlockProgram Panic Mem n Unit).wp limits post escape d := by
  refine wp_bind.mpr (wp_bread resting space ?_)
  refine wp_bind.mpr (wp_patch Device.held_hold_self ?_)
  refine wp_bind.mpr (wp_bwrite Device.held_change_self fun roomy => ?_)
  refine wp_brelse Device.held_change_self ?_
  rw [Device.release_store_change_hold resting]
  exact holds roomy

/-- Overwrite a sector, whatever the cache has of it. -/
theorem wp_overwrite (idle : d.held sector = none) (space : d.busy < limits.capacity)
    (holds : limits.room (Function.update d.disk sector data) ->
      post () (d.overwrite sector data)) : (do
      bread sector
      patch sector (fun _ => data)
      bwrite sector
      brelse sector : BlockProgram Panic Mem n Unit).wp limits post escape d := by
  refine wp_bind.mpr (wp_borrow idle space (fun before _ => ?_))
  refine wp_bind.mpr (wp_patch Device.held_hold_self ?_)
  refine wp_bind.mpr (wp_bwrite Device.held_change_self fun roomy => ?_)
  refine wp_brelse Device.held_change_self ?_
  rw [Device.release_overwrite idle]
  exact holds roomy

theorem wp_getMem {view : Mem -> Value} (holds : valuePost (view d.mem) d) :
    (getMem view).wp limits valuePost escape d := holds

theorem wp_putMem {change : Mem -> Mem} (holds : post () (d.withMem (change d.mem))) :
    (putMem change).wp limits post escape d := holds

theorem wp_stop {reason : Panic} (holds : escape (.panic reason)) :
    (stop reason : BlockProgram Panic Mem n Value).wp limits valuePost escape d := holds

/-! ## Programs that only read -/

/-- Whatever the cache delivers, a run of the program from here reaches no `bwrite`. -/
def Spares (limits : Limits n) : BlockProgram Panic Mem n Value -> Device n Mem -> Prop
  | .done _, _ => True
  | .breadThen sector next, d => d.held sector = none -> d.busy < limits.capacity -> forall data,
      data = d.disk sector ∨ data ∈ d.aside sector -> next.Spares limits (d.hold sector data)
  | .lookThen sector next, d =>
      forall data, d.held sector = some data -> (next data).Spares limits d
  | .patchThen sector change next, d => forall data, d.held sector = some data ->
      next.Spares limits (d.change sector (change data))
  | .bwriteThen sector _, d => d.held sector = none
  | .brelseThen sector next, d =>
      forall data, d.held sector = some data -> next.Spares limits (d.release sector)
  | .getThen next, d => (next d.mem).Spares limits d
  | .putThen change next, d => next.Spares limits (d.withMem (change d.mem))
  | .fail _, _ => True

/-- The weakest precondition together with that. -/
structure Reads (limits : Limits n) (post : Value -> Device n Mem -> Prop)
    (escape : Stop Panic -> Prop) (program : BlockProgram Panic Mem n Value) (d : Device n Mem) :
    Prop where
  wp : program.wp limits post escape d
  spares : program.Spares limits d

section Reading

variable {Result : Type} {program : BlockProgram Panic Mem n Result}
  {next : Result -> BlockProgram Panic Mem n Value} {change : Mem -> Mem} {view : Mem -> Value}
  {reason : Panic} {value : Value}

theorem spares_bind {middle : Result -> Device n Mem -> Prop} (first : program.Spares limits d)
    (known : program.wp limits middle escape d)
    (rest : forall value e, middle value e -> (next value).Spares limits e) :
    (program >>= next).Spares limits d := by
  show (program.bind next).Spares limits d
  induction program generalizing d with
  | done value => exact rest value d known
  | breadThen sector others ih =>
      exact fun idle space data from_ => ih (first idle space data from_)
        (known.2.2 idle space data from_)
  | lookThen sector others ih =>
      exact fun data held => ih data (first data held) (known.2 data held)
  | patchThen sector change others ih =>
      exact fun data held => ih (first data held) (known.2 data held)
  | bwriteThen sector others ih => exact first
  | brelseThen sector others ih => exact fun data held => ih (first data held) (known.2 data held)
  | getThen others ih => exact ih d.mem first known
  | putThen change others ih => exact ih first known
  | fail reason => trivial

theorem reads_seq {middle : Result -> Device n Mem -> Prop}
    (first : program.Reads limits middle escape d)
    (continues : forall value e, middle value e -> (next value).Reads limits valuePost escape e) :
    (program >>= next).Reads limits valuePost escape d :=
  ⟨wp_seq first.wp (fun value e holds => (continues value e holds).wp),
    spares_bind first.spares first.wp (fun value e holds => (continues value e holds).spares)⟩

theorem reads_bind
    (first : program.Reads limits
      (fun value e => (next value).Reads limits valuePost escape e) escape d) :
    (program >>= next).Reads limits valuePost escape d :=
  reads_seq first (fun _ _ holds => holds)

theorem Reads.mono {stronger : Result -> Device n Mem -> Prop}
    {weaker : Result -> Device n Mem -> Prop} {narrower : Stop Panic -> Prop}
    (holds : program.Reads limits stronger narrower d)
    (returns : forall value e, stronger value e -> weaker value e)
    (stops : forall reason, narrower reason -> escape reason) :
    program.Reads limits weaker escape d :=
  ⟨wp_mono holds.wp returns stops, holds.spares⟩

theorem reads_bread (resting : d.Resting sector) (space : d.busy < limits.capacity)
    (holds : post () (d.hold sector (d.disk sector))) : (bread sector).Reads limits post escape d :=
  ⟨wp_bread resting space holds, fun _ _ _ _ => trivial⟩

theorem reads_look (held : d.held sector = some data) (holds : dataPost data d) :
    (look sector).Reads limits dataPost escape d := ⟨wp_look held holds, fun _ _ => trivial⟩

theorem reads_brelse (held : d.held sector = some data) (holds : post () (d.release sector)) :
    (brelse sector).Reads limits post escape d := ⟨wp_brelse held holds, fun _ _ => trivial⟩

theorem reads_getMem (holds : valuePost (view d.mem) d) :
    (getMem view).Reads limits valuePost escape d :=
  ⟨wp_getMem holds, trivial⟩

theorem reads_putMem (holds : post () (d.withMem (change d.mem))) :
    (putMem change).Reads limits post escape d :=
  ⟨wp_putMem holds, trivial⟩

theorem reads_stop (holds : escape (.panic reason)) :
    (stop reason : BlockProgram Panic Mem n Value).Reads limits valuePost escape d :=
  ⟨wp_stop holds, trivial⟩

theorem reads_pure (holds : valuePost value d) :
    (pure value : BlockProgram Panic Mem n Value).Reads limits valuePost escape d :=
  ⟨holds, trivial⟩

end Reading

end BlockProgram
end Machine
end OsProjects
