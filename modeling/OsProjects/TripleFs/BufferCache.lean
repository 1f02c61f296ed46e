import OsProjects.Machine.Program
import OsProjects.Machine.BlockProgram
import Mathlib.Data.List.Perm.Basic
import Mathlib.Data.Set.Insert

namespace OsProjects
namespace TripleFs

open Machine

/-!
# The buffer cache

`bio.c` keeps `NBUF` buffers in one list, the most recently used one first.
`bget` looks for the sector from the front and otherwise takes over the last
buffer that nobody holds; `brelse` moves a buffer to the front.  `iderw` moves
one sector between a buffer and the disk.  There is one disk and one thread of
control, so waiting for a buffer that is already held would wait forever.

A program over the cache names a buffer by its sector, which is unambiguous as
long as the program holds it.  The second half shows that running a program on
the cache is what `BlockProgram.wp` says: the list, its order and its flags
only matter for the contents that were left `aside`.
-/

def BSIZE : Nat := 512
def NBUF : Nat := 10
def ROOTDEV : Int := 1

/-- The contents of a sector. -/
abbrev Block : Type := Bytes BSIZE

/-- `struct buf`. -/
structure Buf where
  busy : Bool
  valid : Bool
  dirty : Bool
  dev : Int
  sector : Nat
  data : Block

/-- The disk, the buffers and the rest of the kernel's memory. -/
structure Store (Mem : Type) where
  disk : Nat -> Block
  bufs : List Buf
  mem : Mem

/-- The buffers as `binit` leaves them. -/
def binit : List Buf := List.replicate NBUF ⟨false, false, false, -1, 0, Bytes.fill 0⟩

/-- The test by which `bget` recognizes a sector. -/
def Buf.holds (sector : Nat) (b : Buf) : Bool := decide (b.dev = ROOTDEV ∧ b.sector = sector)

/-- The buffer that a program holds for a sector. -/
def Buf.borrowed (sector : Nat) (b : Buf) : Bool := b.busy && b.holds sector

/-- Change the first element that passes a test. -/
def adjust {α : Type} (test : α -> Bool) (change : α -> α) : List α -> List α
  | [] => []
  | x :: xs => if test x then change x :: xs else x :: adjust test change xs

/-- Change the first element that passes a test and move it to the front. -/
def adjustToFront {α : Type} (test : α -> Bool) (change : α -> α) (xs : List α) : List α :=
  (xs.find? test).toList.map change ++ xs.eraseP test

/-- Change the last element that passes a test. -/
def adjustLast {α : Type} (test : α -> Bool) (change : α -> α) (xs : List α) : List α :=
  (adjust test change xs.reverse).reverse

/-- `iderw` on one buffer: a dirty buffer is written, one that is not valid is read. -/
def iderw (disk : Nat -> Block) (b : Buf) : (Nat -> Block) × Buf :=
  if b.dirty then
    (Function.update disk b.sector b.data, { b with valid := true, dirty := false })
  else if b.valid then (disk, b)
  else (disk, { b with data := disk b.sector, valid := true })

namespace Store

variable {Panic Mem : Type}

/-- `bget`, then the disk access of `bread` if the buffer is not valid. -/
def bread (s : Store Mem) (sector : Nat) : Outcome (Stop Panic) (Store Mem) Unit :=
  match s.bufs.find? (Buf.holds sector) with
  | some b =>
      if b.busy then .panic .asleep
      else
        let fetch := fun b : Buf => (iderw s.disk { b with busy := true }).2
        .done () { s with bufs := adjust (Buf.holds sector) fetch s.bufs }
  | none =>
      match s.bufs.reverse.find? (fun b => !b.busy) with
      | some _ =>
          let fetch := fun b : Buf => (iderw s.disk
            { b with
              dev := ROOTDEV
              sector := sector
              busy := true
              valid := false
              dirty := false }).2
          .done () { s with bufs := adjustLast (fun b => !b.busy) fetch s.bufs }
      | none => .panic .noBuffers

/-- The contents of a buffer that is held. -/
def look (s : Store Mem) (sector : Nat) : Outcome (Stop Panic) (Store Mem) Block :=
  match s.bufs.find? (Buf.borrowed sector) with
  | some b => .done b.data s
  | none => .panic .notBusy

/-- Change the contents of a buffer that is held. -/
def patch (s : Store Mem) (sector : Nat) (change : Block -> Block) :
    Outcome (Stop Panic) (Store Mem) Unit :=
  match s.bufs.find? (Buf.borrowed sector) with
  | some _ =>
      let edit := fun b : Buf => { b with data := change b.data }
      .done () { s with bufs := adjust (Buf.borrowed sector) edit s.bufs }
  | none => .panic .notBusy

def bwrite (s : Store Mem) (sector : Nat) : Outcome (Stop Panic) (Store Mem) Unit :=
  match s.bufs.find? (Buf.borrowed sector) with
  | some found =>
      let flush := fun b : Buf => (iderw s.disk { b with dirty := true }).2
      .done () { s with
        disk := (iderw s.disk { found with dirty := true }).1
        bufs := adjust (Buf.borrowed sector) flush s.bufs }
  | none => .panic .notBusy

def brelse (s : Store Mem) (sector : Nat) : Outcome (Stop Panic) (Store Mem) Unit :=
  match s.bufs.find? (Buf.borrowed sector) with
  | some _ =>
      let free := fun b : Buf => { b with busy := false }
      .done () { s with bufs := adjustToFront (Buf.borrowed sector) free s.bufs }
  | none => .panic .notBusy

end Store

/-- Continue after an operation that may stop. -/
def andThen {Panic State Value Result : Type} (outcome : Outcome Panic State Value)
    (next : Value -> State -> Outcome Panic State Result) : Outcome Panic State Result :=
  match outcome with
  | .done value state => next value state
  | .panic reason => .panic reason

/-- Run a program on the cache. -/
def exec {Panic Mem Value : Type} :
    BlockProgram Panic Mem BSIZE Value -> Store Mem -> Outcome (Stop Panic) (Store Mem) Value
  | .done value, s => .done value s
  | .breadThen sector next, s => andThen (s.bread sector) (fun _ after => exec next after)
  | .lookThen sector next, s => andThen (s.look sector) (fun data after => exec (next data) after)
  | .patchThen sector change next, s =>
      andThen (s.patch sector change) (fun _ after => exec next after)
  | .bwriteThen sector next, s => andThen (s.bwrite sector) (fun _ after => exec next after)
  | .brelseThen sector next, s => andThen (s.brelse sector) (fun _ after => exec next after)
  | .getThen next, s => exec (next s.mem) s
  | .putThen change next, s => exec next { s with mem := change s.mem }
  | .fail reason, _ => .panic (.panic reason)

/-- A condition on the state in which an operation leaves the cache, if it does not stop. -/
def After {Panic State Value : Type} (outcome : Outcome Panic State Value)
    (condition : Value -> State -> Prop) : Prop :=
  match outcome with
  | .done value state => condition value state
  | .panic _ => True

/-- Every disk that a run of the program writes satisfies `room`. -/
def Throughout {Panic Mem Value : Type} (room : (Nat -> Block) -> Prop) :
    BlockProgram Panic Mem BSIZE Value -> Store Mem -> Prop
  | .done _, _ => True
  | .breadThen sector next, s =>
      After (s.bread sector : Outcome (Stop Panic) _ _) (fun _ after => Throughout room next after)
  | .lookThen sector next, s =>
      After (s.look sector : Outcome (Stop Panic) _ _)
        (fun data after => Throughout room (next data) after)
  | .patchThen sector change next, s =>
      After (s.patch sector change : Outcome (Stop Panic) _ _)
        (fun _ after => Throughout room next after)
  | .bwriteThen sector next, s =>
      After (s.bwrite sector : Outcome (Stop Panic) _ _)
        (fun _ after => room after.disk ∧ Throughout room next after)
  | .brelseThen sector next, s =>
      After (s.brelse sector : Outcome (Stop Panic) _ _)
        (fun _ after => Throughout room next after)
  | .getThen next, s => Throughout room (next s.mem) s
  | .putThen change next, s => Throughout room next { s with mem := change s.mem }
  | .fail _, _ => True

/-! ## Searching a list of buffers -/

section Search

variable {α : Type} {test : α -> Bool} {xs : List α} {x : α} (change : α -> α)

/-- The element that a search finds can be taken out and put back changed. -/
theorem adjust_perm (found : xs.find? test = some x) :
    Exists fun rest => xs.Perm (x :: rest) ∧ (adjust test change xs).Perm (change x :: rest) := by
  induction xs with
  | nil => exact nomatch found
  | cons y ys ih =>
      by_cases passes : test y
      · rw [List.find?_cons_of_pos passes] at found
        have same := Option.some.inj found
        refine ⟨ys, by rw [same], ?_⟩
        rw [adjust, if_pos passes, same]
      · rw [List.find?_cons_of_neg passes] at found
        rcases ih found with ⟨rest, before, after⟩
        refine ⟨y :: rest, (before.cons y).trans (List.Perm.swap x y rest), ?_⟩
        rw [adjust, if_neg passes]
        exact (after.cons y).trans (List.Perm.swap (change x) y rest)

theorem adjustToFront_perm (found : xs.find? test = some x) :
    Exists fun rest => xs.Perm (x :: rest) ∧
      (adjustToFront test change xs).Perm (change x :: rest) := by
  refine ⟨xs.eraseP test, ?_, ?_⟩
  · rcases List.exists_of_eraseP (List.mem_of_find?_eq_some found) (List.find?_some found) with
      ⟨y, before, after, none_before, passes, split, erased⟩
    have same : x = y := by
      rw [split, List.find?_append, List.find?_eq_none.mpr (fun z inside => none_before z inside),
        Option.none_or, List.find?_cons_of_pos passes] at found
      exact (Option.some.inj found).symm
    rw [erased, split, same]
    exact List.perm_middle
  · rw [adjustToFront, found]
    exact List.Perm.refl _

theorem adjustLast_perm (found : xs.reverse.find? test = some x) :
    Exists fun rest =>
      xs.Perm (x :: rest) ∧ (adjustLast test change xs).Perm (change x :: rest) := by
  rcases adjust_perm change found with ⟨rest, before, after⟩
  exact ⟨rest, xs.reverse_perm.symm.trans before, (List.reverse_perm _).trans after⟩

end Search

/-! ## What the cache shows to a program -/

/-- Two buffers for one sector. -/
def Buf.Clash (a b : Buf) : Prop := a.dev = ROOTDEV ∧ b.dev = ROOTDEV ∧ a.sector = b.sector

/-- The list of buffers behind a device: no sector is in two buffers, the busy
buffers are the sectors that are held, and every other buffer that has been
used has the contents of the disk or one that was left aside. -/
structure Reflects {Mem : Type} (bufs : List Buf) (d : Device BSIZE Mem) : Prop where
  full : bufs.length = NBUF
  apart : bufs.Pairwise (fun a b => ¬ a.Clash b)
  fetched : forall b, b ∈ bufs -> (b.valid = true ↔ b.dev = ROOTDEV)
  written : forall b, b ∈ bufs -> b.dirty = false
  held : forall b, b ∈ bufs -> b.busy = true -> b.dev = ROOTDEV ∧ d.held b.sector = some b.data
  lent : forall sector, d.held sector ≠ none ->
    Exists fun b => b ∈ bufs ∧ b.busy = true ∧ b.sector = sector
  count : bufs.countP (fun b => b.busy) = d.busy
  clean : forall b, b ∈ bufs -> b.dev = ROOTDEV -> b.busy = false ->
    b.data = d.disk b.sector ∨ b.data ∈ d.aside b.sector

namespace Reflects

variable {Mem : Type} {bufs other rest : List Buf} {d : Device BSIZE Mem} {b : Buf} {sector : Nat}

theorem perm (reflects : Reflects bufs d) (same : bufs.Perm other) : Reflects other d where
  full := same.length_eq ▸ reflects.full
  apart := by
    refine (same.pairwise_iff ?_).mp reflects.apart
    intro a b distinct clash
    exact distinct ⟨clash.2.1, clash.1, clash.2.2.symm⟩
  fetched := fun b inside => reflects.fetched b (same.mem_iff.mpr inside)
  written := fun b inside => reflects.written b (same.mem_iff.mpr inside)
  held := fun b inside => reflects.held b (same.mem_iff.mpr inside)
  lent := by
    intro sector lent
    rcases reflects.lent sector lent with ⟨b, inside, facts⟩
    exact ⟨b, same.mem_iff.mp inside, facts⟩
  count := (same.countP_eq _).symm.trans reflects.count
  clean := fun b inside => reflects.clean b (same.mem_iff.mpr inside)

/-- Beside a buffer of a sector there is no other one of that sector. -/
theorem alone (reflects : Reflects (b :: rest) d) (used : b.dev = ROOTDEV) {x : Buf}
    (inside : x ∈ rest) (usedToo : x.dev = ROOTDEV) : x.sector ≠ b.sector :=
  fun same => (List.pairwise_cons.mp reflects.apart).1 x inside ⟨used, usedToo, same.symm⟩

/-- A buffer that nobody holds leaves room to hold one more sector. -/
theorem space (reflects : Reflects (b :: rest) d) (idle : b.busy = false) : d.busy < NBUF := by
  rw [← reflects.count, ← reflects.full]
  refine Nat.lt_of_le_of_ne List.countP_le_length fun all => ?_
  have taken := List.countP_eq_length.mp all b List.mem_cons_self
  rw [idle] at taken
  exact nomatch taken

/-- Taking a buffer that already has the sector. -/
theorem hold_hit (reflects : Reflects (b :: rest) d) (used : b.dev = ROOTDEV)
    (idle : b.busy = false) :
    Reflects ({ b with busy := true } :: rest) (d.hold b.sector b.data) where
  full := reflects.full
  apart := List.pairwise_cons.mpr (List.pairwise_cons.mp reflects.apart)
  fetched := List.forall_mem_cons.mpr (List.forall_mem_cons.mp reflects.fetched)
  written := List.forall_mem_cons.mpr (List.forall_mem_cons.mp reflects.written)
  held := by
    refine List.forall_mem_cons.mpr ⟨fun _ => ⟨used, Device.held_hold_self⟩,
      fun x inside busy => ?_⟩
    rcases reflects.held x (List.mem_cons_of_mem b inside) busy with ⟨usedToo, lent⟩
    exact ⟨usedToo, (Device.held_hold_of_ne (reflects.alone used inside usedToo)).trans lent⟩
  lent := by
    intro sector lent
    by_cases same : sector = b.sector
    · exact ⟨_, List.mem_cons_self, rfl, same.symm⟩
    · rw [Device.held_hold_of_ne same] at lent
      rcases reflects.lent sector lent with ⟨x, inside, busy, its⟩
      rcases List.mem_cons.mp inside with head | tail
      · rw [head, idle] at busy
        exact nomatch busy
      · exact ⟨x, List.mem_cons_of_mem _ tail, busy, its⟩
  count := by
    have before := reflects.count
    rw [List.countP_cons_of_neg (by simp [idle])] at before
    rw [List.countP_cons_of_pos rfl, before]
    rfl
  clean := by
    refine List.forall_mem_cons.mpr ⟨nofun, fun x inside usedToo quiet => ?_⟩
    have different := reflects.alone used inside usedToo
    simpa only [Device.hold, Function.update_of_ne different] using
      reflects.clean x (List.mem_cons_of_mem b inside) usedToo quiet

/-- Taking over a buffer for a sector that no buffer has. -/
theorem hold_miss (reflects : Reflects (b :: rest) d) (idle : b.busy = false)
    (absent : forall x, x ∈ rest -> x.dev = ROOTDEV -> x.sector ≠ sector) :
    Reflects (⟨true, true, false, ROOTDEV, sector, d.disk sector⟩ :: rest)
      (d.hold sector (d.disk sector)) where
  full := reflects.full
  apart := by
    refine List.pairwise_cons.mpr ⟨fun x inside clash => ?_,
      (List.pairwise_cons.mp reflects.apart).2⟩
    exact absent x inside clash.2.1 clash.2.2.symm
  fetched := List.forall_mem_cons.mpr ⟨⟨fun _ => rfl, fun _ => rfl⟩,
    (List.forall_mem_cons.mp reflects.fetched).2⟩
  written := List.forall_mem_cons.mpr ⟨rfl, (List.forall_mem_cons.mp reflects.written).2⟩
  held := by
    refine List.forall_mem_cons.mpr ⟨fun _ => ⟨rfl, Device.held_hold_self⟩, fun x inside busy => ?_⟩
    rcases reflects.held x (List.mem_cons_of_mem b inside) busy with ⟨usedToo, lent⟩
    exact ⟨usedToo, (Device.held_hold_of_ne (absent x inside usedToo)).trans lent⟩
  lent := by
    intro wanted lent
    by_cases same : wanted = sector
    · exact ⟨_, List.mem_cons_self, rfl, same.symm⟩
    · rw [Device.held_hold_of_ne same] at lent
      rcases reflects.lent wanted lent with ⟨x, inside, busy, its⟩
      rcases List.mem_cons.mp inside with head | tail
      · rw [head, idle] at busy
        exact nomatch busy
      · exact ⟨x, List.mem_cons_of_mem _ tail, busy, its⟩
  count := by
    have before := reflects.count
    rw [List.countP_cons_of_neg (by simp [idle])] at before
    rw [List.countP_cons_of_pos rfl, before]
    rfl
  clean := by
    refine List.forall_mem_cons.mpr ⟨nofun, fun x inside usedToo quiet => ?_⟩
    have different := absent x inside usedToo
    simpa only [Device.hold, Function.update_of_ne different] using
      reflects.clean x (List.mem_cons_of_mem b inside) usedToo quiet

/-- Changing the contents of a buffer that is held. -/
theorem change (reflects : Reflects (b :: rest) d) (busy : b.busy = true) (data : Block) :
    Reflects ({ b with data := data } :: rest) (d.change b.sector data) where
  full := reflects.full
  apart := List.pairwise_cons.mpr (List.pairwise_cons.mp reflects.apart)
  fetched := List.forall_mem_cons.mpr (List.forall_mem_cons.mp reflects.fetched)
  written := List.forall_mem_cons.mpr (List.forall_mem_cons.mp reflects.written)
  held := by
    have used := (reflects.held b List.mem_cons_self busy).1
    refine List.forall_mem_cons.mpr ⟨fun _ => ⟨used, Device.held_change_self⟩,
      fun x inside taken => ?_⟩
    rcases reflects.held x (List.mem_cons_of_mem b inside) taken with ⟨usedToo, lent⟩
    refine ⟨usedToo, ?_⟩
    rw [← lent]
    exact Function.update_of_ne (reflects.alone used inside usedToo) _ _
  lent := by
    intro wanted lent
    by_cases same : wanted = b.sector
    · exact ⟨_, List.mem_cons_self, busy, same.symm⟩
    · have before : d.held wanted ≠ none := by
        simpa only [Device.change, Function.update_of_ne same] using lent
      rcases reflects.lent wanted before with ⟨x, inside, taken, its⟩
      rcases List.mem_cons.mp inside with head | tail
      · exact absurd (its.symm.trans (head ▸ rfl)) same
      · exact ⟨x, List.mem_cons_of_mem _ tail, taken, its⟩
  count := by
    have before := reflects.count
    rw [List.countP_cons_of_pos busy] at before
    rw [List.countP_cons, if_pos busy, before]
    rfl
  clean := by
    refine List.forall_mem_cons.mpr ⟨fun _ quiet => ?_, (List.forall_mem_cons.mp reflects.clean).2⟩
    exact absurd (busy.symm.trans quiet) (by rintro ⟨⟩)

/-- Writing a buffer that is held. -/
theorem store (reflects : Reflects (b :: rest) d) (busy : b.busy = true) :
    Reflects (b :: rest) (d.store b.sector b.data) where
  full := reflects.full
  apart := reflects.apart
  fetched := reflects.fetched
  written := reflects.written
  held := reflects.held
  lent := reflects.lent
  count := reflects.count
  clean := by
    have used := (reflects.held b List.mem_cons_self busy).1
    refine List.forall_mem_cons.mpr ⟨fun _ quiet => ?_, fun x inside usedToo quiet => ?_⟩
    · exact absurd (busy.symm.trans quiet) nofun
    · have different := reflects.alone used inside usedToo
      simpa only [Device.store, Function.update_of_ne different] using
        reflects.clean x (List.mem_cons_of_mem b inside) usedToo quiet

/-- Handing a buffer back. -/
theorem release (reflects : Reflects (b :: rest) d) (busy : b.busy = true) :
    Reflects ({ b with busy := false } :: rest) (d.release b.sector) where
  full := reflects.full
  apart := List.pairwise_cons.mpr (List.pairwise_cons.mp reflects.apart)
  fetched := List.forall_mem_cons.mpr (List.forall_mem_cons.mp reflects.fetched)
  written := List.forall_mem_cons.mpr (List.forall_mem_cons.mp reflects.written)
  held := by
    have used := (reflects.held b List.mem_cons_self busy).1
    refine List.forall_mem_cons.mpr ⟨nofun, fun x inside taken => ?_⟩
    rcases reflects.held x (List.mem_cons_of_mem b inside) taken with ⟨usedToo, lent⟩
    refine ⟨usedToo, ?_⟩
    rw [← lent]
    exact Function.update_of_ne (reflects.alone used inside usedToo) _ _
  lent := by
    intro wanted lent
    by_cases same : wanted = b.sector
    · exact absurd (by simp only [Device.release, same, Function.update_self]) lent
    · have before : d.held wanted ≠ none := by
        simpa only [Device.release, Function.update_of_ne same] using lent
      rcases reflects.lent wanted before with ⟨x, inside, taken, its⟩
      rcases List.mem_cons.mp inside with head | tail
      · exact absurd (its.symm.trans (head ▸ rfl)) same
      · exact ⟨x, List.mem_cons_of_mem _ tail, taken, its⟩
  count := by
    have before := reflects.count
    rw [List.countP_cons_of_pos busy] at before
    rw [List.countP_cons_of_neg (by simp)]
    simp only [Device.release, ← before, Nat.add_sub_cancel]
  clean := by
    rcases reflects.held b List.mem_cons_self busy with ⟨used, lent⟩
    refine List.forall_mem_cons.mpr ⟨fun _ _ => ?_, fun x inside usedToo quiet => ?_⟩
    · by_cases same : b.data = d.disk b.sector
      · exact .inl same
      · right
        have patched : ¬ d.held b.sector = some (d.disk b.sector) := by
          rw [lent]
          exact fun equal => same (Option.some.inj equal)
        simp only [Device.release, if_neg patched, Function.update_self]
        exact lent
    · have different := reflects.alone used inside usedToo
      rcases reflects.clean x (List.mem_cons_of_mem b inside) usedToo quiet with same | left
      · exact .inl same
      · right
        unfold Device.release
        by_cases written : d.held b.sector = some (d.disk b.sector)
        · simpa only [if_pos written] using left
        · simpa only [if_neg written, Function.update_of_ne different] using left

end Reflects

/-- A cache and the device that a program on it sees. -/
structure Shows {Mem : Type} (s : Store Mem) (d : Device BSIZE Mem) : Prop where
  disk : s.disk = d.disk
  mem : s.mem = d.mem
  bufs : Reflects s.bufs d

theorem Buf.holds_iff {sector : Nat} {b : Buf} :
    b.holds sector = true ↔ b.dev = ROOTDEV ∧ b.sector = sector := decide_eq_true_iff

theorem Buf.borrowed_iff {sector : Nat} {b : Buf} :
    b.borrowed sector = true ↔ b.busy = true ∧ b.dev = ROOTDEV ∧ b.sector = sector := by
  rw [Buf.borrowed, Bool.and_eq_true, Buf.holds_iff]

namespace Shows

variable {Panic Mem Value : Type} {s : Store Mem} {d : Device BSIZE Mem} {b : Buf} {sector : Nat}

/-- A search for a sector that is held finds its buffer. -/
theorem held_of_find (shows : Shows s d) (found : s.bufs.find? (Buf.borrowed sector) = some b) :
    b.busy = true ∧ b.sector = sector ∧ d.held sector = some b.data := by
  rcases Buf.borrowed_iff.mp (List.find?_some found) with ⟨busy, _, its⟩
  have lent := (shows.bufs.held b (List.mem_of_find?_eq_some found) busy).2
  rw [its] at lent
  exact ⟨busy, its, lent⟩

theorem idle_of_find (shows : Shows s d) (missing : s.bufs.find? (Buf.borrowed sector) = none) :
    d.held sector = none := by
  by_contra lent
  rcases shows.bufs.lent sector lent with ⟨b, inside, busy, its⟩
  have used := (shows.bufs.held b inside busy).1
  exact List.find?_eq_none.mp missing b inside (Buf.borrowed_iff.mpr ⟨busy, used, its⟩)

/-- `bread` on the cache: the cases that the weakest precondition knows. -/
theorem bread_cases (shows : Shows s d) :
    (d.held sector ≠ none ∧ (s.bread sector : Outcome (Stop Panic) _ _) = .panic .asleep) ∨
    (d.held sector = none ∧ NBUF ≤ d.busy ∧
      (s.bread sector : Outcome (Stop Panic) _ _) = .panic .noBuffers) ∨
    (d.held sector = none ∧ d.busy < NBUF ∧ Exists fun data => Exists fun after =>
      (data = d.disk sector ∨ data ∈ d.aside sector) ∧
      (s.bread sector : Outcome (Stop Panic) _ _) = .done () after ∧
      Shows after (d.hold sector data)) := by
  unfold Store.bread
  cases found : s.bufs.find? (Buf.holds sector) with
  | some b =>
      have inside := List.mem_of_find?_eq_some found
      rcases Buf.holds_iff.mp (List.find?_some found) with ⟨used, its⟩
      cases busy : b.busy with
      | true =>
          left
          have lent := (shows.bufs.held b inside busy).2
          rw [its] at lent
          refine ⟨?_, if_pos busy⟩
          rw [lent]
          exact nofun
      | false =>
          right
          right
          rcases adjust_perm (fun b => (iderw s.disk { b with busy := true }).2) found with
            ⟨rest, before, after⟩
          have reflects := shows.bufs.perm before
          have fetched : (iderw s.disk { b with busy := true }).2 = { b with busy := true } := by
            have valid := (shows.bufs.fetched b inside).mpr used
            have written := shows.bufs.written b inside
            simp only [iderw, written, valid, Bool.false_eq_true, if_false, if_true]
          have idle : d.held sector = none := by
            by_contra lent
            rcases reflects.lent sector lent with ⟨x, member, taken, same⟩
            rcases List.mem_cons.mp member with head | tail
            · rw [head, busy] at taken
              exact nomatch taken
            · exact reflects.alone used tail (reflects.held x member taken).1 (same.trans its.symm)
          refine ⟨idle, reflects.space busy, b.data, _, ?_, if_neg (by simp [busy]), shows.disk,
            shows.mem, ?_⟩
          · rw [← its]
            exact shows.bufs.clean b inside used busy
          · have taken := reflects.hold_hit used busy
            rw [← fetched] at taken
            have shown := taken.perm after.symm
            rw [its] at shown
            exact shown
  | none =>
      right
      have absent : forall x, x ∈ s.bufs -> x.dev = ROOTDEV -> x.sector ≠ sector :=
        fun x inside used its => List.find?_eq_none.mp found x inside
          (Buf.holds_iff.mpr ⟨used, its⟩)
      have idle : d.held sector = none := by
        by_contra lent
        rcases shows.bufs.lent sector lent with ⟨x, member, taken, same⟩
        exact absent x member (shows.bufs.held x member taken).1 same
      cases victim : s.bufs.reverse.find? (fun b => !b.busy) with
      | none =>
          left
          refine ⟨idle, ?_, rfl⟩
          rw [← shows.bufs.count, ← shows.bufs.full]
          refine Nat.le_of_eq (List.countP_eq_length.mpr fun x inside => ?_).symm
          have taken := List.find?_eq_none.mp victim x (List.mem_reverse.mpr inside)
          simpa using taken
      | some b =>
          right
          have free : b.busy = false := by simpa using List.find?_some victim
          rcases adjustLast_perm (fun b => (iderw s.disk
              { b with
                dev := ROOTDEV
                sector := sector
                busy := true
                valid := false
                dirty := false }).2) victim with ⟨rest, before, after⟩
          have reflects := shows.bufs.perm before
          refine ⟨idle, reflects.space free, d.disk sector, _, .inl rfl, rfl, shows.disk,
            shows.mem, ?_⟩
          have taken := reflects.hold_miss free
            (fun x inside => absent x (before.mem_iff.mpr (List.mem_cons_of_mem b inside)))
          rw [← shows.disk] at taken ⊢
          exact taken.perm after.symm

/-- The other operations, on a sector that is held. -/
theorem patch_of_find (shows : Shows s d) (change : Block -> Block)
    (found : s.bufs.find? (Buf.borrowed sector) = some b) :
    Exists fun after => (s.patch sector change : Outcome (Stop Panic) _ _) = .done () after ∧
      Shows after (d.change sector (change b.data)) := by
  rcases shows.held_of_find found with ⟨busy, its, _⟩
  rcases adjust_perm (fun b : Buf => { b with data := change b.data }) found with
    ⟨rest, before, after⟩
  have ended : (s.patch sector change : Outcome (Stop Panic) _ _) = .done () { s with
      bufs := adjust (Buf.borrowed sector)
        (fun b => { b with data := change b.data }) s.bufs } := by
    simp only [Store.patch, found]
  have shown := ((shows.bufs.perm before).change busy (change b.data)).perm after.symm
  rw [its] at shown
  exact ⟨_, ended, shows.disk, shows.mem, shown⟩

theorem bwrite_of_find (shows : Shows s d)
    (found : s.bufs.find? (Buf.borrowed sector) = some b) :
    Exists fun after => (s.bwrite sector : Outcome (Stop Panic) _ _) = .done () after ∧
      Shows after (d.store sector b.data) := by
  rcases shows.held_of_find found with ⟨busy, its, _⟩
  have inside := List.mem_of_find?_eq_some found
  rcases adjust_perm (fun b : Buf => (iderw s.disk { b with dirty := true }).2) found with
    ⟨rest, before, after⟩
  have flushed : (iderw s.disk { b with dirty := true }).2 = b := by
    have used := (shows.bufs.held b inside busy).1
    have valid := (shows.bufs.fetched b inside).mpr used
    have written := shows.bufs.written b inside
    rw [iderw, if_pos rfl, ← valid, ← written]
  have ended : (s.bwrite sector : Outcome (Stop Panic) _ _) = .done () { s with
      disk := (iderw s.disk { b with dirty := true }).1
      bufs := adjust (Buf.borrowed sector)
        (fun b => (iderw s.disk { b with dirty := true }).2) s.bufs } := by
    simp only [Store.bwrite, found]
  rw [flushed] at after
  have shown := ((shows.bufs.perm before).store busy).perm after.symm
  rw [its] at shown
  refine ⟨_, ended, ?_, shows.mem, shown⟩
  simp only [iderw, if_true, shows.disk, its, Device.store]

theorem brelse_of_find (shows : Shows s d)
    (found : s.bufs.find? (Buf.borrowed sector) = some b) :
    Exists fun after => (s.brelse sector : Outcome (Stop Panic) _ _) = .done () after ∧
      Shows after (d.release sector) := by
  rcases shows.held_of_find found with ⟨busy, its, _⟩
  rcases adjustToFront_perm (fun b : Buf => { b with busy := false }) found with
    ⟨rest, before, after⟩
  have ended : (s.brelse sector : Outcome (Stop Panic) _ _) = .done () { s with
      bufs := adjustToFront (Buf.borrowed sector) (fun b => { b with busy := false }) s.bufs } := by
    simp only [Store.brelse, found]
  have shown := ((shows.bufs.perm before).release busy).perm after.symm
  rw [its] at shown
  exact ⟨_, ended, shows.disk, shows.mem, shown⟩

/-- A change in memory. -/
theorem withMem (shows : Shows s d) (change : Mem -> Mem) :
    Shows { s with mem := change s.mem } (d.withMem (change d.mem)) := by
  refine ⟨shows.disk, ?_, shows.bufs.full, shows.bufs.apart, shows.bufs.fetched,
    shows.bufs.written, shows.bufs.held, shows.bufs.lent, shows.bufs.count, shows.bufs.clean⟩
  simp only [Device.withMem, shows.mem]

end Shows

/-- Running a program on the cache does what its weakest precondition says,
whatever the cache has evicted, as long as every disk on the way satisfies the
assumption. -/
theorem exec_sound {Panic Mem Value : Type} {room : (Nat -> Block) -> Prop}
    {post : Value -> Device BSIZE Mem -> Prop} {escape : Stop Panic -> Prop}
    {program : BlockProgram Panic Mem BSIZE Value} {s : Store Mem} {d : Device BSIZE Mem}
    (shows : Shows s d) (roomy : Throughout room program s)
    (holds : program.wp ⟨NBUF, room⟩ post escape d) :
    Program.wp (exec program) (fun value after => Exists fun e => Shows after e ∧ post value e)
      escape s := by
  induction program generalizing s d with
  | done value => exact ⟨d, shows, holds⟩
  | breadThen sector next ih =>
      rcases holds with ⟨asleep, full, reads⟩
      unfold Program.wp
      simp only [exec, Throughout] at roomy ⊢
      rcases @Shows.bread_cases Panic _ _ _ sector shows with
        ⟨lent, ended⟩ | ⟨idle, all, ended⟩ | ⟨idle, space, data, after, known, ended, next⟩
      · rw [ended]
        exact asleep lent
      · rw [ended]
        exact full idle all
      · rw [ended] at roomy ⊢
        exact ih next roomy (reads idle space data known)
  | lookThen sector next ih =>
      rcases holds with ⟨stray, continues⟩
      unfold Program.wp
      simp only [exec, Throughout, Store.look] at roomy ⊢
      cases found : s.bufs.find? (Buf.borrowed sector) with
      | none => exact stray (shows.idle_of_find found)
      | some b =>
          rw [found] at roomy
          exact ih b.data shows roomy (continues b.data (shows.held_of_find found).2.2)
  | patchThen sector change next ih =>
      rcases holds with ⟨stray, continues⟩
      unfold Program.wp
      simp only [exec, Throughout] at roomy ⊢
      cases found : s.bufs.find? (Buf.borrowed sector) with
      | none =>
          rw [Store.patch, found]
          exact stray (shows.idle_of_find found)
      | some b =>
          rcases @Shows.patch_of_find Panic _ _ _ _ _ shows change found with ⟨after, ended, next⟩
          rw [ended] at roomy ⊢
          exact ih next roomy (continues b.data (shows.held_of_find found).2.2)
  | bwriteThen sector next ih =>
      rcases holds with ⟨stray, continues⟩
      unfold Program.wp
      simp only [exec, Throughout] at roomy ⊢
      cases found : s.bufs.find? (Buf.borrowed sector) with
      | none =>
          rw [Store.bwrite, found]
          exact stray (shows.idle_of_find found)
      | some b =>
          rcases @Shows.bwrite_of_find Panic _ _ _ _ _ shows found with ⟨after, ended, next⟩
          rw [ended] at roomy ⊢
          refine ih next roomy.2 (continues b.data (shows.held_of_find found).2.2 ?_)
          have disk : after.disk = Function.update d.disk sector b.data := next.disk
          exact disk ▸ roomy.1
  | brelseThen sector next ih =>
      rcases holds with ⟨stray, continues⟩
      unfold Program.wp
      simp only [exec, Throughout] at roomy ⊢
      cases found : s.bufs.find? (Buf.borrowed sector) with
      | none =>
          rw [Store.brelse, found]
          exact stray (shows.idle_of_find found)
      | some b =>
          rcases @Shows.brelse_of_find Panic _ _ _ _ _ shows found with ⟨after, ended, next⟩
          rw [ended] at roomy ⊢
          exact ih next roomy (continues b.data (shows.held_of_find found).2.2)
  | getThen next ih =>
      have same : exec (.getThen next) s = exec (next s.mem) s := rfl
      unfold Program.wp
      rw [same]
      have shown : (next s.mem).wp ⟨NBUF, room⟩ post escape d := shows.mem ▸ holds
      exact ih s.mem shows roomy shown
  | putThen change next ih =>
      exact ih (shows.withMem change) roomy holds
  | fail reason => exact holds

/-- A program that only reads writes no disk at all. -/
theorem throughout_of_spares {Panic Mem Value : Type} {room other : (Nat -> Block) -> Prop}
    {program : BlockProgram Panic Mem BSIZE Value} {s : Store Mem} {d : Device BSIZE Mem}
    (shows : Shows s d) (spares : program.Spares ⟨NBUF, other⟩ d) : Throughout room program s := by
  induction program generalizing s d with
  | done value => trivial
  | breadThen sector next ih =>
      simp only [Throughout]
      rcases @Shows.bread_cases Panic _ _ _ sector shows with
        ⟨_, ended⟩ | ⟨_, _, ended⟩ | ⟨idle, space, data, after, known, ended, next⟩
      · rw [ended]
        trivial
      · rw [ended]
        trivial
      · rw [ended]
        exact ih next (spares idle space data known)
  | lookThen sector next ih =>
      simp only [Throughout, Store.look]
      cases found : s.bufs.find? (Buf.borrowed sector) with
      | none => trivial
      | some b => exact ih b.data shows (spares b.data (shows.held_of_find found).2.2)
  | patchThen sector change next ih =>
      simp only [Throughout]
      cases found : s.bufs.find? (Buf.borrowed sector) with
      | none =>
          rw [Store.patch, found]
          trivial
      | some b =>
          rcases @Shows.patch_of_find Panic _ _ _ _ _ shows change found with ⟨after, ended, next⟩
          rw [ended]
          exact ih next (spares b.data (shows.held_of_find found).2.2)
  | bwriteThen sector next ih =>
      simp only [Throughout]
      cases found : s.bufs.find? (Buf.borrowed sector) with
      | none =>
          rw [Store.bwrite, found]
          trivial
      | some b =>
          have held := (shows.held_of_find found).2.2
          rw [show d.held sector = none from spares] at held
          exact nomatch held
  | brelseThen sector next ih =>
      simp only [Throughout]
      cases found : s.bufs.find? (Buf.borrowed sector) with
      | none =>
          rw [Store.brelse, found]
          trivial
      | some b =>
          rcases @Shows.brelse_of_find Panic _ _ _ _ _ shows found with ⟨after, ended, next⟩
          rw [ended]
          exact ih next (spares b.data (shows.held_of_find found).2.2)
  | getThen next ih =>
      have shown : (next s.mem).Spares ⟨NBUF, other⟩ d := shows.mem ▸ spares
      exact ih s.mem shows shown
  | putThen change next ih =>
      exact ih (shows.withMem change) spares
  | fail reason => trivial

/-- What every disk satisfies need not be checked on the way. -/
theorem throughout_of_forall {Panic Mem Value : Type} {room : (Nat -> Block) -> Prop}
    (always : forall disk, room disk) (program : BlockProgram Panic Mem BSIZE Value)
    (s : Store Mem) : Throughout room program s := by
  induction program generalizing s with
  | done value => trivial
  | breadThen sector next ih =>
      unfold Throughout After
      split
      · exact ih _
      · trivial
  | lookThen sector next ih =>
      unfold Throughout After
      split
      · exact ih _ _
      · trivial
  | patchThen sector change next ih =>
      unfold Throughout After
      split
      · exact ih _
      · trivial
  | bwriteThen sector next ih =>
      unfold Throughout After
      split
      · exact ⟨always _, ih _⟩
      · trivial
  | brelseThen sector next ih =>
      unfold Throughout After
      split
      · exact ih _
      · trivial
  | getThen next ih => exact ih s.mem s
  | putThen change next ih => exact ih _
  | fail reason => trivial

/-- With no assumption about the disk there is nothing to check on the way. -/
theorem throughout_true {Panic Mem Value : Type} (program : BlockProgram Panic Mem BSIZE Value)
    (s : Store Mem) : Throughout (fun _ => True) program s :=
  throughout_of_forall (fun _ => trivial) program s

/-- Run a program on the cache and test every disk that it writes; nothing is returned when the
program stops the kernel or a disk fails the test. -/
def execTested {Panic Mem Value : Type} (test : (Nat -> Block) -> Bool) :
    BlockProgram Panic Mem BSIZE Value -> Store Mem -> Option (Value × Store Mem)
  | .done value, s => some (value, s)
  | .breadThen sector next, s =>
      match (s.bread sector : Outcome (Stop Panic) _ _) with
      | .done _ after => execTested test next after
      | .panic _ => none
  | .lookThen sector next, s =>
      match (s.look sector : Outcome (Stop Panic) _ _) with
      | .done data after => execTested test (next data) after
      | .panic _ => none
  | .patchThen sector change next, s =>
      match (s.patch sector change : Outcome (Stop Panic) _ _) with
      | .done _ after => execTested test next after
      | .panic _ => none
  | .bwriteThen sector next, s =>
      match (s.bwrite sector : Outcome (Stop Panic) _ _) with
      | .done _ after => if test after.disk then execTested test next after else none
      | .panic _ => none
  | .brelseThen sector next, s =>
      match (s.brelse sector : Outcome (Stop Panic) _ _) with
      | .done _ after => execTested test next after
      | .panic _ => none
  | .getThen next, s => execTested test (next s.mem) s
  | .putThen change next, s => execTested test next { s with mem := change s.mem }
  | .fail _, _ => none

/-- A tested run is a run, and all of its disks pass the test. -/
theorem execTested_sound {Panic Mem Value : Type} {test : (Nat -> Block) -> Bool}
    {room : (Nat -> Block) -> Prop} (passes : forall disk, test disk = true -> room disk)
    {program : BlockProgram Panic Mem BSIZE Value} {s t : Store Mem} {value : Value}
    (ran : execTested test program s = some (value, t)) :
    exec program s = .done value t ∧ Throughout room program s := by
  induction program generalizing s with
  | done result =>
      have same := Prod.mk.inj (Option.some.inj ran)
      rw [exec, same.1, same.2]
      exact ⟨rfl, trivial⟩
  | breadThen sector next ih =>
      unfold execTested at ran
      unfold exec Throughout
      cases ended : (s.bread sector : Outcome (Stop Panic) (Store Mem) Unit) with
      | done result after =>
          rw [ended] at ran
          exact ih ran
      | panic reason =>
          rw [ended] at ran
          exact nomatch ran
  | lookThen sector next ih =>
      unfold execTested at ran
      unfold exec Throughout
      cases ended : (s.look sector : Outcome (Stop Panic) (Store Mem) Block) with
      | done result after =>
          rw [ended] at ran
          exact ih result ran
      | panic reason =>
          rw [ended] at ran
          exact nomatch ran
  | patchThen sector change next ih =>
      unfold execTested at ran
      unfold exec Throughout
      cases ended : (s.patch sector change : Outcome (Stop Panic) (Store Mem) Unit) with
      | done result after =>
          rw [ended] at ran
          exact ih ran
      | panic reason =>
          rw [ended] at ran
          exact nomatch ran
  | bwriteThen sector next ih =>
      unfold execTested at ran
      unfold exec Throughout
      cases ended : (s.bwrite sector : Outcome (Stop Panic) (Store Mem) Unit) with
      | done result after =>
          rw [ended] at ran
          dsimp only at ran
          split at ran
          · rename_i good
            exact ⟨(ih ran).1, passes _ good, (ih ran).2⟩
          · exact nomatch ran
      | panic reason =>
          rw [ended] at ran
          exact nomatch ran
  | brelseThen sector next ih =>
      unfold execTested at ran
      unfold exec Throughout
      cases ended : (s.brelse sector : Outcome (Stop Panic) (Store Mem) Unit) with
      | done result after =>
          rw [ended] at ran
          exact ih ran
      | panic reason =>
          rw [ended] at ran
          exact nomatch ran
  | getThen next ih => exact ih s.mem ran
  | putThen change next ih => exact ih ran
  | fail reason => exact nomatch ran

section Sequencing

variable {Panic Mem Value Result : Type} {program : BlockProgram Panic Mem BSIZE Value}
  {next : Value -> BlockProgram Panic Mem BSIZE Result}

/-- One program after the other. -/
theorem exec_bind (s : Store Mem) :
    exec (program >>= next) s =
      andThen (exec program s) (fun value after => exec (next value) after) := by
  show exec (program.bind next) s = _
  have through : forall {Between : Type} (outcome : Outcome (Stop Panic) (Store Mem) Between)
      (rest : Between -> Store Mem -> Outcome (Stop Panic) (Store Mem) Value),
      andThen (andThen outcome rest) (fun value after => exec (next value) after) =
      andThen outcome (fun value after => andThen (rest value after)
      (fun value after => exec (next value) after)) := by
    intro Between outcome rest
    cases outcome with
    | done value after => rfl
    | panic reason => rfl
  induction program generalizing s with
  | done value => rfl
  | breadThen sector rest ih => simp only [BlockProgram.bind, exec, ih, through]
  | lookThen sector rest ih => simp only [BlockProgram.bind, exec, ih, through]
  | patchThen sector change rest ih => simp only [BlockProgram.bind, exec, ih, through]
  | bwriteThen sector rest ih => simp only [BlockProgram.bind, exec, ih, through]
  | brelseThen sector rest ih => simp only [BlockProgram.bind, exec, ih, through]
  | getThen rest ih => exact ih s.mem s
  | putThen change rest ih => exact ih _
  | fail reason => rfl

theorem throughout_bind {room : (Nat -> Block) -> Prop} (s : Store Mem) :
    Throughout room (program >>= next) s ↔
      Throughout room program s ∧
      After (exec program s) (fun value after => Throughout room (next value) after) := by
  show Throughout room (program.bind next) s ↔ _
  have through : forall {Between : Type} {outcome : Outcome (Stop Panic) (Store Mem) Between}
      {rest : Between -> Store Mem -> Outcome (Stop Panic) (Store Mem) Value}
      {kept : Between -> Store Mem -> Prop},
      After outcome (fun value after => kept value after ∧
        After (rest value after) (fun value after => Throughout room (next value) after)) ↔
      After outcome kept ∧
        After (andThen outcome rest) (fun value after => Throughout room (next value) after) := by
    intro Between outcome rest kept
    cases outcome with
    | done value after => exact Iff.rfl
    | panic reason => exact ⟨fun _ => ⟨trivial, trivial⟩, fun _ => trivial⟩
  induction program generalizing s with
  | done value => exact ⟨fun rest => ⟨trivial, rest⟩, fun both => both.2⟩
  | breadThen sector rest ih => simp only [BlockProgram.bind, exec, Throughout, ih, through]
  | lookThen sector rest ih => simp only [BlockProgram.bind, exec, Throughout, ih, through]
  | patchThen sector change rest ih => simp only [BlockProgram.bind, exec, Throughout, ih, through]
  | bwriteThen sector rest ih =>
      simp only [BlockProgram.bind, exec, Throughout, ih, ← and_assoc, through]
  | brelseThen sector rest ih => simp only [BlockProgram.bind, exec, Throughout, ih, through]
  | getThen rest ih => exact ih s.mem s
  | putThen change rest ih => exact ih _
  | fail reason => exact ⟨fun _ => ⟨trivial, trivial⟩, fun _ => trivial⟩

/-- Two programs that run after each other and whose values are put together. -/
theorem wp_exec_cons {One : Type} {room : (Nat -> Block) -> Prop} {escape : Stop Panic -> Prop}
    {first : BlockProgram Panic Mem BSIZE One} {rest : BlockProgram Panic Mem BSIZE (List One)}
    {s : Store Mem} {middle : One -> Store Mem -> Prop} {post : List One -> Store Mem -> Prop}
    (roomy : Throughout room (do
      let value <- first
      let values <- rest
      pure (value :: values)) s)
    (head : Throughout room first s -> Program.wp (exec first) middle escape s)
    (tail : forall value t, middle value t -> exec first s = .done value t ->
      Throughout room rest t ->
      Program.wp (exec rest) (fun values u => post (value :: values) u) escape t) :
    Program.wp (exec (do
      let value <- first
      let values <- rest
      pure (value :: values))) post escape s := by
  rcases (throughout_bind s).mp roomy with ⟨roomyFirst, roomyRest⟩
  have one := head roomyFirst
  unfold Program.wp at one ⊢
  rw [exec_bind]
  cases ended : exec first s with
  | panic reason =>
      rw [ended] at one
      exact one
  | done value t =>
      rw [ended] at one roomyRest
      have others := tail value t one ended ((throughout_bind t).mp roomyRest).1
      unfold Program.wp at others
      simp only [andThen, exec_bind]
      cases endedToo : exec rest t with
      | panic reason =>
          rw [endedToo] at others
          exact others
      | done values u =>
          rw [endedToo] at others
          exact others

end Sequencing

/-- A device of which nothing is held and nothing left aside. -/
def fresh {Mem : Type} (disk : Nat -> Block) (mem : Mem) : Device BSIZE Mem where
  disk := disk
  held := fun _ => none
  busy := 0
  aside := fun _ => ∅
  mem := mem

/-- The cache after `binit`. -/
theorem shows_binit {Mem : Type} (disk : Nat -> Block) (mem : Mem) :
    Shows ⟨disk, binit, mem⟩ (fresh disk mem) := by
  have unused : forall b, b ∈ binit -> b = ⟨false, false, false, -1, 0, Bytes.fill 0⟩ :=
    fun b inside => List.eq_of_mem_replicate inside
  refine ⟨rfl, rfl, List.length_replicate, ?_, fun b inside => ?_, fun b inside => ?_,
    fun b inside busy => ?_, fun _ lent => absurd rfl lent, ?_, fun b inside used => ?_⟩
  · refine List.pairwise_replicate.mpr (Or.inr ?_)
    rintro ⟨used, _⟩
    exact absurd used (by decide)
  · rw [unused b inside]
    decide
  · rw [unused b inside]
  · rw [unused b inside] at busy
    exact nomatch busy
  · show List.countP _ binit = 0
    refine List.countP_eq_zero.mpr (fun b inside => ?_)
    rw [unused b inside]
    exact Bool.false_ne_true
  · rw [unused b inside] at used
    exact absurd used (by decide)

end TripleFs
end OsProjects
