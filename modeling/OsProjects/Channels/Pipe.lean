import OsProjects.Machine.RingBuffer

namespace OsProjects
namespace Channels

open Machine

/-!
# The pipe

A pipe is a ring of `PIPESIZE` bytes with two indices of 32 bits that count the bytes read
and written and wrap.  The code below runs with the pipe's lock held, up to a return or a
`sleep`: `sleep` gives the lock back in the same step as it puts the process to sleep.
-/

def PIPESIZE : Nat := 512

structure Pipe where
  data : Nat -> UInt8
  nread : UInt32
  nwrite : UInt32
  readopen : Bool
  writeopen : Bool

/-- How a call leaves the lock: with a result, with `-1`, or asleep. -/
inductive Stop
  | returned
  | failed
  | asleep
  deriving DecidableEq

namespace Pipe

/-- The pipe that `pipealloc` makes in a page of `kalloc`. -/
def pipealloc (data : Nat -> UInt8) : Pipe where
  data := data
  nread := 0
  nwrite := 0
  readopen := true
  writeopen := true

def put (p : Pipe) (byte : UInt8) : Pipe :=
  { p with data := Function.update p.data (p.nwrite.toNat % PIPESIZE) byte, nwrite := p.nwrite + 1 }

def get (p : Pipe) : UInt8 × Pipe :=
  (p.data (p.nread.toNat % PIPESIZE), { p with nread := p.nread + 1 })

/-- The loop of `pipewrite` over the bytes from `addr[i]` on, with the index it stops at. -/
def writeLoop (killed : Bool) : List UInt8 -> Nat -> Pipe -> Stop × Nat × Pipe
  | [], i, p => (.returned, i, p)
  | byte :: bytes, i, p =>
      if p.nwrite = p.nread + UInt32.ofNat PIPESIZE then
        if p.readopen = false ∨ killed = true then (.failed, i, p) else (.asleep, i, p)
      else writeLoop killed bytes (i + 1) (p.put byte)

/-- `pipewrite`, from the start or from a `sleep` at the index `i`. -/
def pipewrite (killed : Bool) (addr : List UInt8) (i : Nat) (p : Pipe) : Stop × Nat × Pipe :=
  writeLoop killed (addr.drop i) i p

/-- The copying loop of `piperead`. -/
def readLoop : Nat -> Pipe -> List UInt8 × Pipe
  | 0, p => ([], p)
  | n + 1, p =>
      if p.nread = p.nwrite then ([], p)
      else (p.get.1 :: (readLoop n p.get.2).1, (readLoop n p.get.2).2)

/-- `piperead`, from the start or from a `sleep`. -/
def piperead (killed : Bool) (n : Int) (p : Pipe) : Stop × List UInt8 × Pipe :=
  if p.nread = p.nwrite ∧ p.writeopen = true then
    if killed = true then (.failed, [], p) else (.asleep, [], p)
  else (.returned, readLoop n.toNat p)

/-- `pipeclose` on one of the ends. -/
def pipeclose (p : Pipe) (writable : Bool) : Pipe :=
  if writable then { p with writeopen := false } else { p with readopen := false }

/-- Whether an end is open. -/
def isOpen (p : Pipe) (writable : Bool) : Bool := if writable then p.writeopen else p.readopen

/-- The queue of bytes that a pipe stands for: `r` is what `nread` would be if it did not
wrap. -/
def Contains (p : Pipe) (items : List UInt8) : Prop :=
  Exists fun r => p.nread = UInt32.ofNat r ∧ p.nwrite = UInt32.ofNat (r + items.length) ∧
    items = ringItems p.data PIPESIZE r items.length ∧ items.length ≤ PIPESIZE

section Queue

variable {p q : Pipe} {items bytes : List UInt8} {byte : UInt8} {killed : Bool} {i j n : Nat}

theorem pipealloc_contains (data : Nat -> UInt8) : (pipealloc data).Contains [] :=
  ⟨0, rfl, rfl, rfl, Nat.zero_le _⟩

theorem ofNat_inj {r k l : Nat} (within : k ≤ PIPESIZE) (other : l ≤ PIPESIZE) :
    UInt32.ofNat (r + k) = UInt32.ofNat (r + l) ↔ k = l :=
  RingItems.ofNat_inj (by decide) within other

theorem index_mod (r : Nat) : (UInt32.ofNat r).toNat % PIPESIZE = r % PIPESIZE :=
  RingItems.index_mod (by decide) r

namespace Contains

theorem fits (contains : p.Contains items) : items.length ≤ PIPESIZE := contains.choose_spec.2.2.2

/-- The test before a byte is put. -/
theorem full_iff (contains : p.Contains items) :
    p.nwrite = p.nread + UInt32.ofNat PIPESIZE ↔ items.length = PIPESIZE := by
  rcases contains with ⟨r, read, write, _, fits⟩
  rw [read, write, ← UInt32.ofNat_add, ofNat_inj fits (Nat.le_refl _)]

/-- The test before a byte is taken. -/
theorem empty_iff (contains : p.Contains items) : p.nread = p.nwrite ↔ items = [] := by
  rcases contains with ⟨r, read, write, _, fits⟩
  have same := @ofNat_inj r _ _ (Nat.zero_le PIPESIZE) fits
  rw [Nat.add_zero] at same
  rw [read, write, same, eq_comm, List.length_eq_zero_iff]

theorem put (contains : p.Contains items) (room : items.length < PIPESIZE) :
    (p.put byte).Contains (items ++ [byte]) := by
  rcases contains with ⟨r, read, write, stored, _⟩
  have counted : (items ++ [byte]).length = items.length + 1 := by
    rw [List.length_append, List.length_singleton]
  refine ⟨r, read, ?_, ?_, ?_⟩
  · show p.nwrite + 1 = _
    rw [write, counted, ← Nat.add_assoc, UInt32.ofNat_add _ 1]
    rfl
  · show _ = ringItems (Function.update p.data (p.nwrite.toNat % PIPESIZE) byte) PIPESIZE r _
    rw [write, index_mod, counted, RingItems.put room, ← stored]
  · rw [counted]
    exact room

theorem get (contains : p.Contains (byte :: items)) : p.get.1 = byte ∧ p.get.2.Contains items := by
  rcases contains with ⟨r, read, write, stored, fits⟩
  rw [List.length_cons, RingItems.first] at stored
  rcases List.cons_eq_cons.mp stored with ⟨head, tail⟩
  refine ⟨?_, r + 1, ?_, ?_, tail, Nat.le_of_succ_le fits⟩
  · show p.data (p.nread.toNat % PIPESIZE) = byte
    rw [read, index_mod, head]
  · show p.nread + 1 = _
    rw [read, UInt32.ofNat_add]
    rfl
  · show p.nwrite = _
    rw [write, List.length_cons, Nat.add_right_comm, Nat.add_assoc]

theorem pipeclose (contains : p.Contains items) (writable : Bool) :
    (p.pipeclose writable).Contains items := by
  cases writable with
  | false => exact contains
  | true => exact contains

end Contains

theorem writeLoop_ends : (writeLoop killed bytes i p).2.2.readopen = p.readopen ∧
    (writeLoop killed bytes i p).2.2.writeopen = p.writeopen := by
  induction bytes generalizing i p with
  | nil => exact ⟨rfl, rfl⟩
  | cons byte bytes ih =>
      rw [writeLoop]
      split
      · split
        · exact ⟨rfl, rfl⟩
        · exact ⟨rfl, rfl⟩
      · exact ih

theorem readLoop_ends :
    (readLoop n p).2.readopen = p.readopen ∧ (readLoop n p).2.writeopen = p.writeopen := by
  induction n generalizing p with
  | zero => exact ⟨rfl, rfl⟩
  | succ n ih =>
      rw [readLoop]
      split
      · exact ⟨rfl, rfl⟩
      · exact @ih p.get.2

theorem piperead_ends {n : Int} : (piperead killed n p).2.2.readopen = p.readopen ∧
    (piperead killed n p).2.2.writeopen = p.writeopen := by
  rw [piperead]
  split
  · split
    · exact ⟨rfl, rfl⟩
    · exact ⟨rfl, rfl⟩
  · exact readLoop_ends

/-- Writing puts as many bytes as there is room for, and stops early only at a full pipe. -/
theorem writeLoop_spec (contains : p.Contains items) :
    Exists fun q =>
      q.Contains (items ++ bytes.take (PIPESIZE - items.length)) ∧
      writeLoop killed bytes i p =
        (if bytes.length ≤ PIPESIZE - items.length then (.returned, i + bytes.length, q)
        else
          (if p.readopen = false ∨ killed = true then .failed
          else .asleep, i + (PIPESIZE - items.length), q)) := by
  induction bytes generalizing i p items with
  | nil =>
      refine ⟨p, by rw [List.take_nil, List.append_nil]; exact contains, ?_⟩
      rw [List.length_nil, if_pos (Nat.zero_le _)]
      rfl
  | cons byte bytes ih =>
      by_cases isFull : items.length = PIPESIZE
      · refine ⟨p, by rw [isFull, Nat.sub_self, List.take_zero, List.append_nil]; exact contains,
          ?_⟩
        rw [writeLoop, if_pos (contains.full_iff.mpr isFull), isFull, Nat.sub_self,
          List.length_cons, if_neg (Nat.not_succ_le_zero _)]
        split <;> rfl
      · have room : items.length < PIPESIZE := Nat.lt_of_le_of_ne contains.fits isFull
        have counted : (items ++ [byte]).length = items.length + 1 := by
          rw [List.length_append, List.length_singleton]
        have less : PIPESIZE - items.length = (PIPESIZE - (items.length + 1)) + 1 := by omega
        rcases ih (i := i + 1) (Contains.put contains room) with ⟨q, holds, ran⟩
        refine ⟨q, ?_, ?_⟩
        · rw [counted, List.append_assoc] at holds
          rw [less, List.take_succ_cons]
          exact holds
        · rw [writeLoop, if_neg (fun same => isFull (contains.full_iff.mp same)), ran, counted,
            less, List.length_cons]
          simp only [Nat.add_le_add_iff_right, Nat.add_right_comm i 1, Nat.add_assoc]
          rfl

/-- Reading takes the bytes at the front. -/
theorem readLoop_spec (contains : p.Contains items) :
    (readLoop n p).1 = items.take n ∧ (readLoop n p).2.Contains (items.drop n) := by
  induction n generalizing p items with
  | zero => exact ⟨rfl, contains⟩
  | succ n ih =>
      cases items with
      | nil =>
          rw [readLoop, if_pos (contains.empty_iff.mpr rfl)]
          exact ⟨rfl, contains⟩
      | cons byte items =>
          rw [readLoop, if_neg (fun same => List.cons_ne_nil _ _ (contains.empty_iff.mp same))]
          rcases contains.get with ⟨head, tail⟩
          rcases ih tail with ⟨taken, left⟩
          exact ⟨congrArg₂ List.cons head taken, left⟩

/-- A stretch of `pipewrite` from a place in the buffer puts the bytes up to the place where it
stops.  It returns at the end of the buffer, and stops before the end at a full pipe. -/
structure Wrote (killed : Bool) (addr : List UInt8) (i : Nat) (p : Pipe) (items : List UInt8)
    (stop : Stop) (j : Nat) (q : Pipe) : Prop where
  contains : q.Contains (items ++ (addr.take j).drop i)
  ends : q.readopen = p.readopen ∧ q.writeopen = p.writeopen
  onward : i ≤ j
  within : j ≤ addr.length
  returned : stop = .returned ↔ j = addr.length
  full : stop ≠ .returned -> (items ++ (addr.take j).drop i).length = PIPESIZE
  asleep : stop = .asleep -> p.readopen = true ∧ killed = false
  failed : stop = .failed -> p.readopen = false ∨ killed = true

theorem pipewrite_spec {addr : List UInt8} (contains : p.Contains items)
    (within : i ≤ addr.length) :
    Wrote killed addr i p items (pipewrite killed addr i p).1 (pipewrite killed addr i p).2.1
      (pipewrite killed addr i p).2.2 := by
  rcases @writeLoop_spec p items (addr.drop i) killed i contains with ⟨q, holds, ran⟩
  have ends := @writeLoop_ends p (addr.drop i) killed i
  have bytes : (addr.drop i).length = addr.length - i := List.length_drop
  rw [pipewrite]
  rw [ran] at ends ⊢
  by_cases enough : (addr.drop i).length ≤ PIPESIZE - items.length
  · have whole : i + (addr.drop i).length = addr.length := by omega
    rw [if_pos enough] at ends ⊢
    have put : (addr.drop i).take (PIPESIZE - items.length) = (addr.take addr.length).drop i := by
      rw [List.take_of_length_le enough, List.take_length]
    rw [put, ← whole] at holds
    exact ⟨holds, ends, Nat.le_add_right _ _, Nat.le_of_eq whole, ⟨fun _ => whole, fun _ => rfl⟩,
      fun other => absurd rfl other, fun other => Stop.noConfusion other,
      fun other => Stop.noConfusion other⟩
  · rw [if_neg enough] at ends ⊢
    have put : (addr.drop i).take (PIPESIZE - items.length) =
        (addr.take (i + (PIPESIZE - items.length))).drop i := by
      rw [List.drop_take, Nat.add_sub_cancel_left]
    have fits := contains.fits
    have less : i + (PIPESIZE - items.length) < addr.length := by omega
    rw [put] at holds
    refine ⟨holds, ends, Nat.le_add_right _ _, Nat.le_of_lt less, ⟨fun other => ?_, fun other =>
      absurd other (Nat.ne_of_lt less)⟩, fun _ => ?_, fun asleep => ?_, fun failed => ?_⟩
    · dsimp only at other
      split at other
      · exact Stop.noConfusion other
      · exact Stop.noConfusion other
    · rw [← put, List.length_append, List.length_take, Nat.min_eq_left (Nat.le_of_not_le enough)]
      exact Nat.add_sub_of_le fits
    · dsimp only at asleep
      split at asleep
      next => exact Stop.noConfusion asleep
      next waits =>
        rw [not_or, Bool.not_eq_false, Bool.not_eq_true] at waits
        exact waits
    · dsimp only at failed
      split at failed
      next finished => exact finished
      next => exact Stop.noConfusion failed

/-- A stretch of `piperead` takes bytes from the front and returns, or finds nothing at a
pipe that may still be written. -/
structure Read (n : Int) (p : Pipe) (items : List UInt8) (stop : Stop) (bytes : List UInt8)
    (q : Pipe) : Prop where
  contains : q.Contains (items.drop bytes.length)
  taken : bytes = items.take bytes.length
  bounded : bytes.length ≤ n.toNat
  ends : q.readopen = p.readopen ∧ q.writeopen = p.writeopen
  finished : stop = .returned -> bytes = [] -> 0 < n -> items = [] ∧ p.writeopen = false
  empty : stop ≠ .returned -> items = [] ∧ p.writeopen = true ∧ bytes = [] ∧ q = p

theorem piperead_spec {n : Int} (contains : p.Contains items) :
    Read n p items (piperead killed n p).1 (piperead killed n p).2.1 (piperead killed n p).2.2 := by
  have ends := @piperead_ends p killed n
  rw [piperead] at ends ⊢
  split
  next waits =>
    rw [if_pos waits] at ends
    have nothing := contains.empty_iff.mp waits.1
    split
    next dead =>
      exact ⟨contains, rfl, Nat.zero_le _, ⟨rfl, rfl⟩, fun other => Stop.noConfusion other,
        fun _ => ⟨nothing, waits.2, rfl, rfl⟩⟩
    next =>
      exact ⟨contains, rfl, Nat.zero_le _, ⟨rfl, rfl⟩, fun other => Stop.noConfusion other,
        fun _ => ⟨nothing, waits.2, rfl, rfl⟩⟩
  next ready =>
    rw [if_neg ready] at ends
    rcases @readLoop_spec p items n.toNat contains with ⟨took, left⟩
    have length : (readLoop n.toNat p).1.length = min n.toNat items.length := by
      rw [took, List.length_take]
    refine ⟨?_, ?_, ?_, ends, fun _ nothing positive => ?_, fun other => absurd rfl other⟩
    · dsimp only
      rw [length, ← List.drop_eq_drop_min]
      exact left
    · dsimp only
      rw [length, took, ← List.take_eq_take_min]
    · dsimp only
      rw [length]
      exact Nat.min_le_left _ _
    · have taken : items.take n.toNat = [] := took.symm.trans nothing
      have none : items = [] := by
        refine (List.take_eq_nil_iff.mp taken).resolve_left ?_
        omega
      refine ⟨none, ?_⟩
      refine (Bool.eq_false_or_eq_true p.writeopen).resolve_left (fun isOpen => ?_)
      exact ready ⟨contains.empty_iff.mpr none, isOpen⟩

end Queue

end Pipe

end Channels
end OsProjects
