import OsProjects.TripleFs.ImageReading

namespace OsProjects
namespace TripleFs

open Machine

/-!
# Allocating a block

`balloc` looks for the first bit of the bitmap that is zero.  It goes through whole
bitmap blocks, so it also looks at the bits behind the end of the disk.
-/

/-- The bit of a block in the bitmap. -/
def used (sb : Superblock) (disk : Nat -> Block) (b : Nat) : Bool :=
  bit (disk (BBLOCK b sb.ninodes)) (b % BPB)

/-- The bits that `balloc` looks at: those of the bitmap blocks that begin below `sb.size`. -/
def scanned (sb : Superblock) : Nat := (sb.size + BPB - 1) / BPB * BPB

/-- The disk after the bit of a block has been set. -/
def markBlock (sb : Superblock) (disk : Nat -> Block) (b : Nat) : Nat -> Block :=
  Function.update disk (BBLOCK b sb.ninodes) (setBit (b % BPB) (disk (BBLOCK b sb.ninodes)))

theorem firstZero_some {data : Block} {count i : Nat} :
    forall {bi : Nat}, firstZero data count bi = some i ->
      bi ≤ i ∧ i < bi + count ∧ bit data i = false ∧
      forall j, bi ≤ j -> j < i -> bit data j = true := by
  induction count with
  | zero => exact fun found => nomatch found
  | succ count ih =>
      intro bi found
      rw [firstZero] at found
      by_cases set_ : bit data bi = true
      · rw [if_pos set_] at found
        rcases ih found with ⟨lower, upper, zero, before⟩
        refine ⟨by omega, by omega, zero, fun j from_ below => ?_⟩
        by_cases first : j = bi
        · rw [first]
          exact set_
        · exact before j (by omega) below
      · rw [if_neg set_] at found
        rw [← Option.some.inj found]
        refine ⟨Nat.le_refl bi, by omega, Bool.eq_false_iff.mpr set_, fun j from_ below => ?_⟩
        exact absurd from_ (Nat.not_le.mpr below)

theorem firstZero_none {data : Block} {count : Nat} :
    forall {bi : Nat}, firstZero data count bi = none ->
      forall j, bi ≤ j -> j < bi + count -> bit data j = true := by
  induction count with
  | zero => exact fun _ j lower upper => absurd lower (Nat.not_le.mpr upper)
  | succ count ih =>
      intro bi missing j lower upper
      rw [firstZero] at missing
      by_cases set_ : bit data bi = true
      · rw [if_pos set_] at missing
        by_cases first : j = bi
        · rw [first]
          exact set_
        · exact ih missing j (by omega) (by omega)
      · rw [if_neg set_] at missing
        exact nomatch missing

/-- The bits of one bitmap block. -/
theorem used_block (sb : Superblock) (disk : Nat -> Block) {q j : Nat} (below : j < BPB) :
    used sb disk (q * BPB + j) = bit (disk (BBLOCK (q * BPB) sb.ninodes)) j := by
  have block : (q * BPB + j) / BPB = q * BPB / BPB := by
    simp only [BPB] at below ⊢
    omega
  have position : (q * BPB + j) % BPB = j := by
    simp only [BPB] at below ⊢
    omega
  rw [used, BBLOCK, BBLOCK, block, position]

/-- What `balloc` returns: the first block whose bit is zero, with its bit set. -/
structure Allocated (sb : Superblock) (d e : Device BSIZE Kernel) (b : Nat) : Prop where
  low : b < scanned sb
  free : used sb d.disk b = false
  first : forall c, c < b -> used sb d.disk c = true
  marked : e = d.store (BBLOCK b sb.ninodes) (setBit (b % BPB) (d.disk (BBLOCK b sb.ninodes)))

/-- `balloc` gives up. -/
def NoBlocks (sb : Superblock) (disk : Nat -> Block) (reason : Stop FsPanic) : Prop :=
  reason = .panic .ballocOutOfBlocks ∧ forall b, b < scanned sb -> used sb disk b = true

section Balloc

variable {limits : Limits BSIZE} {d : Device BSIZE Kernel}

open BlockProgram

theorem ballocFrom_wp (sb : Superblock)
    (resting : forall q, q * BPB < sb.size -> d.Resting (BBLOCK (q * BPB) sb.ninodes))
    (space : d.busy < limits.capacity) (fuel : Nat) :
    forall {q : Nat}, sb.size ≤ (q + fuel) * BPB ->
      (forall c, c < q * BPB -> used sb d.disk c = true) ->
      (ballocFrom sb fuel (q * BPB)).wp limits (fun b e => Allocated sb d e b ∧ limits.room e.disk)
        (NoBlocks sb d.disk) d := by
  have rounded : scanned sb < sb.size + BPB ∧ forall q, sb.size ≤ q * BPB ->
      scanned sb ≤ q * BPB := by
    unfold scanned
    simp only [BPB]
    exact ⟨by omega, fun q large => by omega⟩
  have whole : forall q, q * BPB < sb.size -> (q + 1) * BPB ≤ scanned sb := by
    intro q small
    unfold scanned
    simp only [BPB] at small ⊢
    omega
  induction fuel with
  | zero =>
      intro q enough before
      exact wp_stop ⟨rfl, fun b below => before b (Nat.lt_of_lt_of_le below (rounded.2 q enough))⟩
  | succ fuel ih =>
      intro q enough before
      rw [ballocFrom]
      by_cases more : q * BPB < sb.size
      · rw [if_pos more]
        refine wp_bind.mpr (wp_bread (resting q more) space ?_)
        refine wp_bind.mpr (wp_look Device.held_hold_self ?_)
        have limit := whole q more
        cases found : firstZero (d.disk (BBLOCK (q * BPB) sb.ninodes)) BPB 0 with
        | some bi =>
            rcases firstZero_some found with ⟨_, upper, zero, earlier⟩
            have below : bi < BPB := by omega
            have same : BBLOCK (q * BPB + bi) sb.ninodes = BBLOCK (q * BPB) sb.ninodes := by
              simp only [BBLOCK, BPB] at below ⊢
              omega
            have position : (q * BPB + bi) % BPB = bi := by
              simp only [BPB] at below ⊢
              omega
            dsimp only
            refine wp_bind.mpr (wp_patch Device.held_hold_self ?_)
            refine wp_bind.mpr (wp_bwrite Device.held_change_self fun roomy => ?_)
            refine wp_bind.mpr (wp_brelse Device.held_change_self ?_)
            rw [Device.release_store_change_hold (resting q more)]
            rw [Nat.succ_mul] at limit
            refine ⟨⟨by omega, ?_, fun c smaller => ?_, by rw [same, position]⟩, roomy⟩
            · rw [used_block sb _ below]
              exact zero
            · by_cases old : c < q * BPB
              · exact before c old
              · have split : c = q * BPB + (c - q * BPB) := by omega
                rw [split, used_block sb _ (by omega)]
                exact earlier _ (Nat.zero_le _) (by omega)
        | none =>
            dsimp only
            refine wp_bind.mpr (wp_brelse Device.held_hold_self ?_)
            rw [Device.release_hold (resting q more)]
            have next : q * BPB + BPB = (q + 1) * BPB := (Nat.succ_mul q BPB).symm
            rw [next]
            refine ih (by rw [Nat.add_right_comm]; exact enough) (fun c smaller => ?_)
            by_cases old : c < q * BPB
            · exact before c old
            · have split : c = q * BPB + (c - q * BPB) := by omega
              rw [split, used_block sb _ (by omega)]
              exact firstZero_none found _ (Nat.zero_le _) (by omega)
      · rw [if_neg more]
        exact wp_stop ⟨rfl, fun b below =>
          before b (Nat.lt_of_lt_of_le below (rounded.2 q (Nat.not_lt.mp more)))⟩

/-- `balloc` takes the first block whose bit is zero, or finds that there is none. -/
theorem balloc_resting {sb : Superblock} (isSuper : superblock (d.disk 1) = sb)
    (first : d.Resting 1)
    (resting : forall q, q * BPB < sb.size -> d.Resting (BBLOCK (q * BPB) sb.ninodes))
    (space : d.busy < limits.capacity) :
    balloc.wp limits (fun b e => Allocated sb d e b ∧ limits.room e.disk)
      (NoBlocks sb d.disk) d := by
  unfold balloc readsb
  refine wp_bind.mpr (wp_glance first space ?_)
  rw [isSuper]
  have start := @ballocFrom_wp limits d sb resting space (sb.size / BPB + 1) 0
    (by simp only [BPB]; omega) (fun c below => absurd below (by omega))
  rw [Nat.zero_mul] at start
  exact start

end Balloc

/-! ## On the cache -/

theorem used_markBlock (sb : Superblock) (disk : Nat -> Block) (b c : Nat) :
    used sb (markBlock sb disk b) c = (decide (c = b) || used sb disk c) := by
  have below : c % BPB < BPB := Nat.mod_lt c (by decide)
  unfold used markBlock
  by_cases block : BBLOCK c sb.ninodes = BBLOCK b sb.ninodes
  · rw [block, Function.update_self, bit_setBit _ below]
    congr 1
    refine decide_eq_decide.mpr ?_
    simp only [BBLOCK, BPB] at block ⊢
    omega
  · have different : c ≠ b := fun same => block (same ▸ rfl)
    rw [Function.update_of_ne block, decide_eq_false different, Bool.false_or]

variable {s : Store Kernel} {d : Device BSIZE Kernel}

theorem size_le_scanned (sb : Superblock) : sb.size ≤ scanned sb := by
  unfold scanned
  simp only [BPB]
  omega

/-- The superblock that is written can be read. -/
theorem superblock_superblockBytes {sb : Superblock} (size : sb.size < 2 ^ 32)
    (nblocks : sb.nblocks < 2 ^ 32) (ninodes : sb.ninodes < 2 ^ 32) :
    superblock (superblockBytes sb) = sb := by
  have first : (superblockBytes sb).word 0 = sb.size := by
    unfold superblockBytes
    rw [Bytes.word_setWord_of_ne _ _ (by decide), Bytes.word_setWord_of_ne _ _ (by decide),
      Bytes.word_setWord_self _ (by decide) size]
  have second : (superblockBytes sb).word 1 = sb.nblocks := by
    unfold superblockBytes
    rw [Bytes.word_setWord_of_ne _ _ (by decide), Bytes.word_setWord_self _ (by decide) nblocks]
  have third : (superblockBytes sb).word 2 = sb.ninodes :=
    Bytes.word_setWord_self _ (by decide) ninodes
  rw [superblock, first, second, third]

/-- A kernel that has just started on a disk. -/
def started (disk : Nat -> Block) : Store Kernel :=
  ⟨disk, binit, ⟨fun _ => ⟨0, 0, false, false, Dinode.blank⟩⟩⟩

end TripleFs
end OsProjects
