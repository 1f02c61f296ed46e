import Mathlib.Data.UInt
import Mathlib.Data.Nat.Basic
import Mathlib.Tactic.Ring

namespace OsProjects
namespace Machine

/-!
# Blocks of bytes

A disk sector and a page of memory are arrays of a fixed number of bytes.  The
code reads and writes ranges of them, and it overlays them with little-endian
integers.  Offsets are plain numbers: reading outside the array gives zero and
writing there changes nothing, so a bound is needed only where it matters.
-/

/-- An array of `n` bytes. -/
abbrev Bytes (n : Nat) : Type := Fin n -> UInt8

namespace Bytes

variable {n : Nat}

/-- The byte at a numeric offset. -/
def get (b : Bytes n) (i : Nat) : UInt8 := if h : i < n then b ⟨i, h⟩ else 0

/-- Every byte set to `c`, as `memset` does. -/
def fill (c : UInt8) : Bytes n := fun _ => c

/-- `memmove` of `len` bytes into the array at `off`. -/
def splice (b : Bytes n) (off len : Nat) (src : Nat -> UInt8) : Bytes n :=
  fun i => if off ≤ i.val ∧ i.val < off + len then src (i.val - off) else b i

theorem ext_get {a b : Bytes n} (same : forall i, i < n -> a.get i = b.get i) : a = b := by
  funext i
  have at_i := same i.val i.isLt
  simpa only [get, dif_pos i.isLt] using at_i

@[simp] theorem get_fill (c : UInt8) {i : Nat} (within : i < n) : (fill c : Bytes n).get i = c := by
  rw [get, dif_pos within, fill]

theorem get_splice (b : Bytes n) (off len : Nat) (src : Nat -> UInt8) {i : Nat} (within : i < n) :
    (b.splice off len src).get i =
      if off ≤ i ∧ i < off + len then src (i - off) else b.get i := by
  simp only [get, dif_pos within, splice]

theorem get_splice_outside (b : Bytes n) (off len : Nat) (src : Nat -> UInt8) {i : Nat}
    (outside : i < off ∨ off + len ≤ i) : (b.splice off len src).get i = b.get i := by
  by_cases within : i < n
  · rw [get_splice b off len src within, if_neg (by omega)]
  · simp only [get, dif_neg within]

/-! ## Little-endian integers -/

/-- The number stored in `len` bytes from `off`. -/
def number (b : Bytes n) (off : Nat) : Nat -> Nat
  | 0 => 0
  | len + 1 => (b.get off).toNat + 256 * b.number (off + 1) len

/-- The byte `i` of a number. -/
def digit (value i : Nat) : UInt8 := UInt8.ofNat (value / 256 ^ i)

/-- Store a number in `len` bytes at `off`. -/
def putNumber (b : Bytes n) (off len value : Nat) : Bytes n := b.splice off len (digit value)

theorem number_congr {a b : Bytes n} (off len : Nat)
    (same : forall i, off ≤ i -> i < off + len -> a.get i = b.get i) :
    a.number off len = b.number off len := by
  induction len generalizing off with
  | zero => rfl
  | succ len ih =>
      rw [number, number, same off (Nat.le_refl off) (by omega),
        ih (off + 1) (fun i lower upper => same i (by omega) (by omega))]

theorem number_lt (b : Bytes n) (off len : Nat) : b.number off len < 256 ^ len := by
  induction len generalizing off with
  | zero => exact Nat.one_pos
  | succ len ih =>
      have byte := (b.get off).toNat_lt
      have rest := ih (off + 1)
      rw [number, Nat.pow_succ]
      omega

theorem number_splice_disjoint (b : Bytes n) (off len at_ size : Nat) (src : Nat -> UInt8)
    (disjoint : at_ + size ≤ off ∨ off + len ≤ at_) :
    (b.splice off len src).number at_ size = b.number at_ size :=
  number_congr at_ size (fun i lower upper =>
    get_splice_outside b off len src (by omega))

@[simp] theorem number_fill_zero (off len : Nat) : (fill 0 : Bytes n).number off len = 0 := by
  induction len generalizing off with
  | zero => rfl
  | succ len ih =>
      rw [number, ih]
      by_cases within : off < n
      · rw [get_fill 0 within]
        rfl
      · simp only [get, dif_neg within]
        rfl

theorem digit_toNat (value i : Nat) : (digit value i).toNat = value / 256 ^ i % 256 := by
  rw [digit, UInt8.toNat_ofNat']

/-- Storing a number and reading it back keeps what fits. -/
theorem number_putNumber (b : Bytes n) (off len value : Nat) (within : off + len ≤ n) :
    (b.putNumber off len value).number off len = value % 256 ^ len := by
  suffices tail : forall k, k ≤ len ->
      (b.putNumber off len value).number (off + (len - k)) k =
        value / 256 ^ (len - k) % 256 ^ k by
    have whole := tail len (Nat.le_refl len)
    simpa only [Nat.sub_self, Nat.add_zero, Nat.pow_zero, Nat.div_one] using whole
  intro k
  induction k with
  | zero => intro _; simp only [number, Nat.pow_zero, Nat.mod_one]
  | succ k ih =>
      intro short
      have next : off + (len - (k + 1)) + 1 = off + (len - k) := by omega
      have byte : ((b.putNumber off len value).get (off + (len - (k + 1)))).toNat =
          value / 256 ^ (len - (k + 1)) % 256 := by
        rw [putNumber, get_splice b off len _ (by omega), if_pos (by omega),
          Nat.add_sub_cancel_left, digit_toNat]
      have shift : value / 256 ^ (len - k) = value / 256 ^ (len - (k + 1)) / 256 := by
        rw [Nat.div_div_eq_div_mul, ← Nat.pow_succ]
        congr 2
        omega
      rw [number, byte, next, ih (by omega), shift, Nat.pow_succ, Nat.mul_comm (256 ^ k) 256,
        Nat.mod_mul]

theorem number_putNumber_of_lt (b : Bytes n) {off len value : Nat} (within : off + len ≤ n)
    (fits : value < 256 ^ len) : (b.putNumber off len value).number off len = value := by
  rw [number_putNumber b off len value within, Nat.mod_eq_of_lt fits]

theorem number_putNumber_disjoint (b : Bytes n) (off len value at_ size : Nat)
    (disjoint : at_ + size ≤ off ∨ off + len ≤ at_) :
    (b.putNumber off len value).number at_ size = b.number at_ size :=
  number_splice_disjoint b off len at_ size _ disjoint

/-! ## An array of 32-bit words -/

/-- The 32-bit word with index `i`. -/
def word (b : Bytes n) (i : Nat) : Nat := b.number (4 * i) 4

/-- Store a 32-bit word. -/
def setWord (b : Bytes n) (i value : Nat) : Bytes n := b.putNumber (4 * i) 4 value

theorem word_lt (b : Bytes n) (i : Nat) : b.word i < 2 ^ 32 := b.number_lt (4 * i) 4

@[simp] theorem word_fill_zero (i : Nat) : (fill 0 : Bytes n).word i = 0 :=
  number_fill_zero (4 * i) 4

theorem word_setWord_self (b : Bytes n) {i value : Nat} (within : 4 * i + 4 ≤ n)
    (fits : value < 2 ^ 32) : (b.setWord i value).word i = value :=
  number_putNumber_of_lt b within fits

theorem word_setWord_of_ne (b : Bytes n) {i j : Nat} (value : Nat) (different : j ≠ i) :
    (b.setWord i value).word j = b.word j :=
  number_putNumber_disjoint b (4 * i) 4 value (4 * j) 4 (by omega)

end Bytes
end Machine
end OsProjects
