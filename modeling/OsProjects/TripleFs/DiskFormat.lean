import OsProjects.TripleFs.BufferCache
import Mathlib.Data.Nat.Bitwise

namespace OsProjects
namespace TripleFs

open Machine

/-!
# The format of the disk

Sector 1 is the superblock.  The inodes follow from sector 2 on, eight to a
sector, then the bitmap of used blocks and then the blocks that it describes.
Both `mkfs` and the kernel overlay these sectors with the structures of `fs.h`;
their fields are little-endian.
-/

def NDIRECT : Nat := 12
def NINDIRECT : Nat := 128
def MAXFILE : Nat := NDIRECT + NINDIRECT
def ROOTINO : Nat := 1

/-- Inodes per block. -/
def IPB : Nat := 8

/-- Bitmap bits per block. -/
def BPB : Nat := 4096

def T_DIR : Nat := 1
def T_FILE : Nat := 2
def T_DEV : Nat := 3
def T_MIRRORED : Nat := 4

/-- The block that contains an inode. -/
def IBLOCK (inum : Nat) : Nat := inum / IPB + 2

/-- The block that contains the bit of a block. -/
def BBLOCK (b ninodes : Nat) : Nat := b / BPB + ninodes / IPB + 3

/-- `struct superblock`. -/
structure Superblock where
  size : Nat
  nblocks : Nat
  ninodes : Nat
  deriving DecidableEq

def superblock (b : Block) : Superblock := ⟨b.word 0, b.word 1, b.word 2⟩

/-! ## Inodes -/

/-- `struct dinode`.  The short integers are kept as unsigned numbers, and there
are no addresses beyond the indirect block. -/
@[ext]
structure Dinode where
  type : Nat
  major : Nat
  minor : Nat
  nlink : Nat
  logical_size : Nat
  addrs : Nat -> Nat

/-- An inode that is not in use. -/
def Dinode.blank : Dinode := ⟨0, 0, 0, 0, 0, fun _ => 0⟩

/-- Assign to `addrs[i]`. -/
def Dinode.setAddr (d : Dinode) (i a : Nat) : Dinode :=
  { d with addrs := Function.update d.addrs i a }

@[simp] theorem Dinode.setAddr_self (d : Dinode) (i a : Nat) : (d.setAddr i a).addrs i = a := by
  simp only [Dinode.setAddr, Function.update_self]

theorem Dinode.setAddr_of_ne (d : Dinode) {i j : Nat} (a : Nat) (different : j ≠ i) :
    (d.setAddr i a).addrs j = d.addrs j := by
  simp only [Dinode.setAddr, Function.update_of_ne different]

/-- The values that the fields of an inode can have on the disk. -/
structure Dinode.Fits (d : Dinode) : Prop where
  type : d.type < 2 ^ 16
  major : d.major < 2 ^ 16
  minor : d.minor < 2 ^ 16
  nlink : d.nlink < 2 ^ 16
  size : d.logical_size < 2 ^ 32
  addrs : forall i, d.addrs i < 2 ^ 32
  noMore : forall i, NDIRECT < i -> d.addrs i = 0

/-- Store a row of 32-bit words. -/
def putWords (b : Block) (off : Nat) (words : Nat -> Nat) : Nat -> Block
  | 0 => b
  | count + 1 => (putWords b off words count).putNumber (off + 4 * count) 4 (words count)

/-- The inode in a slot of its block. -/
def getDinode (b : Block) (slot : Nat) : Dinode where
  type := b.number (64 * slot) 2
  major := b.number (64 * slot + 2) 2
  minor := b.number (64 * slot + 4) 2
  nlink := b.number (64 * slot + 6) 2
  logical_size := b.number (64 * slot + 8) 4
  addrs := fun i => if i ≤ NDIRECT then b.number (64 * slot + 12 + 4 * i) 4 else 0

/-- The fields of an inode before its addresses. -/
def putHead (b : Block) (slot : Nat) (d : Dinode) : Block :=
  ((((b.putNumber (64 * slot) 2 d.type).putNumber (64 * slot + 2) 2 d.major).putNumber
    (64 * slot + 4) 2 d.minor).putNumber (64 * slot + 6) 2 d.nlink).putNumber
    (64 * slot + 8) 4 d.logical_size

/-- Store an inode in a slot of its block. -/
def putDinode (slot : Nat) (d : Dinode) (b : Block) : Block :=
  putWords (putHead b slot d) (64 * slot + 12) d.addrs (NDIRECT + 1)

theorem number_putWords_disjoint (b : Block) (off : Nat) (words : Nat -> Nat) {count at_ size : Nat}
    (disjoint : at_ + size ≤ off ∨ off + 4 * count ≤ at_) :
    (putWords b off words count).number at_ size = b.number at_ size := by
  induction count with
  | zero => rfl
  | succ count ih =>
      rw [putWords, Bytes.number_putNumber_disjoint _ _ _ _ _ _ (by omega), ih (by omega)]

theorem number_putWords (b : Block) {off : Nat} {words : Nat -> Nat} {count : Nat}
    (within : off + 4 * count ≤ BSIZE) (fits : forall i, words i < 2 ^ 32) {i : Nat}
    (below : i < count) : (putWords b off words count).number (off + 4 * i) 4 = words i := by
  induction count with
  | zero => exact absurd below (Nat.not_lt_zero i)
  | succ count ih =>
      rw [putWords]
      by_cases last : i = count
      · rw [last]
        exact Bytes.number_putNumber_of_lt _ (by omega) (fits count)
      · rw [Bytes.number_putNumber_disjoint _ _ _ _ _ _ (by omega)]
        exact ih (by omega) (by omega)

theorem number_putHead_disjoint (b : Block) (slot : Nat) (d : Dinode) {at_ size : Nat}
    (disjoint : at_ + size ≤ 64 * slot ∨ 64 * slot + 12 ≤ at_) :
    (putHead b slot d).number at_ size = b.number at_ size := by
  unfold putHead
  rw [Bytes.number_putNumber_disjoint _ _ _ _ _ _ (by omega),
    Bytes.number_putNumber_disjoint _ _ _ _ _ _ (by omega),
    Bytes.number_putNumber_disjoint _ _ _ _ _ _ (by omega),
    Bytes.number_putNumber_disjoint _ _ _ _ _ _ (by omega),
    Bytes.number_putNumber_disjoint _ _ _ _ _ _ (by omega)]

theorem number_putDinode_disjoint (b : Block) (slot : Nat) (d : Dinode) {at_ size : Nat}
    (disjoint : at_ + size ≤ 64 * slot ∨ 64 * slot + 64 ≤ at_) :
    (putDinode slot d b).number at_ size = b.number at_ size := by
  have count : NDIRECT + 1 = 13 := rfl
  unfold putDinode
  rw [number_putWords_disjoint _ _ _ (by omega), number_putHead_disjoint _ _ _ (by omega)]

/-- The head of an inode that has just been stored. -/
theorem getDinode_head (b : Block) {slot : Nat} (below : slot < IPB) {d : Dinode} (fits : d.Fits) :
    (putHead b slot d).number (64 * slot) 2 = d.type ∧
    (putHead b slot d).number (64 * slot + 2) 2 = d.major ∧
    (putHead b slot d).number (64 * slot + 4) 2 = d.minor ∧
    (putHead b slot d).number (64 * slot + 6) 2 = d.nlink ∧
    (putHead b slot d).number (64 * slot + 8) 4 = d.logical_size := by
  have room : 64 * slot + 64 ≤ BSIZE := by
    simp only [IPB, BSIZE] at below ⊢
    omega
  unfold putHead
  refine ⟨?_, ?_, ?_, ?_, ?_⟩
  · rw [Bytes.number_putNumber_disjoint _ _ _ _ _ _ (by omega),
      Bytes.number_putNumber_disjoint _ _ _ _ _ _ (by omega),
      Bytes.number_putNumber_disjoint _ _ _ _ _ _ (by omega),
      Bytes.number_putNumber_disjoint _ _ _ _ _ _ (by omega)]
    exact Bytes.number_putNumber_of_lt _ (by omega) fits.type
  · rw [Bytes.number_putNumber_disjoint _ _ _ _ _ _ (by omega),
      Bytes.number_putNumber_disjoint _ _ _ _ _ _ (by omega),
      Bytes.number_putNumber_disjoint _ _ _ _ _ _ (by omega)]
    exact Bytes.number_putNumber_of_lt _ (by omega) fits.major
  · rw [Bytes.number_putNumber_disjoint _ _ _ _ _ _ (by omega),
      Bytes.number_putNumber_disjoint _ _ _ _ _ _ (by omega)]
    exact Bytes.number_putNumber_of_lt _ (by omega) fits.minor
  · rw [Bytes.number_putNumber_disjoint _ _ _ _ _ _ (by omega)]
    exact Bytes.number_putNumber_of_lt _ (by omega) fits.nlink
  · exact Bytes.number_putNumber_of_lt _ (by omega) fits.size

theorem getDinode_putDinode (b : Block) {slot : Nat} (below : slot < IPB) {d : Dinode}
    (fits : d.Fits) : getDinode (putDinode slot d b) slot = d := by
  have head := getDinode_head b below fits
  have room : 64 * slot + 12 + 4 * (NDIRECT + 1) ≤ BSIZE := by
    simp only [IPB, NDIRECT, BSIZE] at below ⊢
    omega
  unfold getDinode putDinode
  ext i
  · exact (number_putWords_disjoint _ _ _ (by omega)).trans head.1
  · exact (number_putWords_disjoint _ _ _ (by omega)).trans head.2.1
  · exact (number_putWords_disjoint _ _ _ (by omega)).trans head.2.2.1
  · exact (number_putWords_disjoint _ _ _ (by omega)).trans head.2.2.2.1
  · exact (number_putWords_disjoint _ _ _ (by omega)).trans head.2.2.2.2
  · by_cases address : i ≤ NDIRECT
    · simp only [if_pos address]
      exact number_putWords _ room fits.addrs (by omega)
    · simp only [if_neg address]
      exact (fits.noMore i (by omega)).symm

theorem getDinode_putDinode_of_ne (b : Block) {slot other : Nat} (d : Dinode)
    (different : other ≠ slot) : getDinode (putDinode slot d b) other = getDinode b other := by
  unfold getDinode
  ext i
  · exact number_putDinode_disjoint b slot d (by omega)
  · exact number_putDinode_disjoint b slot d (by omega)
  · exact number_putDinode_disjoint b slot d (by omega)
  · exact number_putDinode_disjoint b slot d (by omega)
  · exact number_putDinode_disjoint b slot d (by omega)
  · by_cases address : i ≤ NDIRECT
    · simp only [if_pos address]
      refine number_putDinode_disjoint b slot d ?_
      simp only [NDIRECT] at address
      omega
    · simp only [if_neg address]

/-- What is read from the disk fits there. -/
theorem getDinode_fits (b : Block) (slot : Nat) : (getDinode b slot).Fits where
  type := b.number_lt _ 2
  major := b.number_lt _ 2
  minor := b.number_lt _ 2
  nlink := b.number_lt _ 2
  size := b.number_lt _ 4
  addrs := fun i => by
    unfold getDinode
    by_cases address : i ≤ NDIRECT
    · simp only [if_pos address]
      exact b.number_lt _ 4
    · simp only [if_neg address]
      decide
  noMore := fun i beyond => if_neg (Nat.not_le.mpr beyond)

/-! ## The bitmap -/

/-- The bit `i` of a bitmap block. -/
def bit (b : Block) (i : Nat) : Bool := (b.get (i / 8)).toNat.testBit (i % 8)

/-- Mark a block in use. -/
def setBit (i : Nat) (b : Block) : Block :=
  b.splice (i / 8) 1 (fun _ => UInt8.ofNat ((b.get (i / 8)).toNat ||| 2 ^ (i % 8)))

/-- Mark a block free. -/
def clearBit (i : Nat) (b : Block) : Block :=
  b.splice (i / 8) 1 (fun _ => UInt8.ofNat ((b.get (i / 8)).toNat &&& (255 ^^^ 2 ^ (i % 8))))

/-- Changing a byte changes its own bits only. -/
theorem bit_splice (b : Block) (at_ value : Nat) (byte : value < 256) {i : Nat} (below : i < BPB) :
    bit (b.splice at_ 1 (fun _ => UInt8.ofNat value)) i =
      if i / 8 = at_ then value.testBit (i % 8) else bit b i := by
  have inside : i / 8 < BSIZE := by
    simp only [BPB, BSIZE] at below ⊢
    omega
  unfold bit
  rw [Bytes.get_splice b at_ 1 _ inside]
  by_cases same : i / 8 = at_
  · rw [if_pos same, if_pos (by omega), UInt8.toNat_ofNat', Nat.mod_eq_of_lt byte]
  · rw [if_neg same, if_neg (by omega)]

theorem bit_setBit (b : Block) {i j : Nat} (below : j < BPB) :
    bit (setBit i b) j = (decide (i = j) || bit b j) := by
  have byte : (b.get (i / 8)).toNat ||| 2 ^ (i % 8) < 256 :=
    Nat.or_lt_two_pow (b.get (i / 8)).toNat_lt
      (Nat.pow_lt_pow_right (by decide) (Nat.mod_lt i (by decide)))
  unfold setBit
  rw [bit_splice b _ _ byte below]
  by_cases same : j / 8 = i / 8
  · rw [if_pos same, Nat.testBit_or, Nat.testBit_two_pow, ← same, Bool.or_comm]
    congr 1
    exact decide_eq_decide.mpr (by omega)
  · rw [if_neg same, decide_eq_false (by omega), Bool.false_or]

theorem bit_clearBit (b : Block) {i j : Nat} (below : j < BPB) :
    bit (clearBit i b) j = (!decide (i = j) && bit b j) := by
  have byte : (b.get (i / 8)).toNat &&& (255 ^^^ 2 ^ (i % 8)) < 256 :=
    Nat.and_lt_two_pow _ (Nat.xor_lt_two_pow (by decide)
      (Nat.pow_lt_pow_right (by decide) (Nat.mod_lt i (by decide))))
  unfold clearBit
  rw [bit_splice b _ _ byte below]
  by_cases same : j / 8 = i / 8
  · have mask : (255 : Nat).testBit (j % 8) = true :=
      (Nat.testBit_two_pow_sub_one 8 (j % 8)).trans (decide_eq_true (Nat.mod_lt j (by decide)))
    rw [if_pos same, Nat.testBit_and, Nat.testBit_xor, mask, Nat.testBit_two_pow, ← same,
      Bool.true_xor, Bool.and_comm]
    congr 2
    exact decide_eq_decide.mpr (by omega)
  · rw [if_neg same, decide_eq_false (by omega), Bool.not_false, Bool.true_and]

end TripleFs
end OsProjects
