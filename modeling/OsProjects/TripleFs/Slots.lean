import OsProjects.Machine.Ownership
import OsProjects.TripleFs.DiskFormat

namespace OsProjects
namespace TripleFs

open Machine

/-!
# Where block numbers are stored

An inode stores the numbers of its first blocks itself, then the number of its
indirect block, and the indirect block stores the rest.  A volume is what remains of
a disk when this is all one looks at: the inodes and the data blocks.  Its slots are
the places for block numbers, and the logical blocks of a file are the blocks in its
slots other than the one of the indirect block.  A slot that is empty stands for a
block of zeros.

The three ways to fill a slot change the table of slots at one place and leave every
byte of every file as it is; writing a data block changes one logical block of one
file.
-/

@[ext]
structure Volume where
  inode : Nat -> Dinode
  block : Nat -> Block

namespace Volume

/-- The block number in a slot: the direct ones, the indirect one, then its entries. -/
def slot (v : Volume) (s : Nat × Nat) : Nat :=
  if s.2 ≤ NDIRECT then (v.inode s.1).addrs s.2
  else if (v.inode s.1).addrs NDIRECT = 0 then 0
  else (v.block ((v.inode s.1).addrs NDIRECT)).word (s.2 - (NDIRECT + 1))

/-- The slot of a logical block. -/
def place (bn : Nat) : Nat := if bn < NDIRECT then bn else bn + 1

/-- The contents of a logical block. -/
def content (v : Volume) (i bn : Nat) : Block :=
  if v.slot (i, place bn) = 0 then Bytes.fill 0 else v.block (v.slot (i, place bn))

/-- A byte of a file, whatever its size. -/
def byte (v : Volume) (i x : Nat) : UInt8 := (v.content i (x / BSIZE)).get (x % BSIZE)

def setInode (v : Volume) (i : Nat) (d : Dinode) : Volume :=
  { v with inode := Function.update v.inode i d }

def setBlock (v : Volume) (b : Nat) (data : Block) : Volume :=
  { v with block := Function.update v.block b data }

/-- The block is the indirect block of no inode. -/
def NotIndirect (v : Volume) (b : Nat) : Prop := forall i, (v.inode i).addrs NDIRECT ≠ b

variable {v w : Volume} {i j bn a b e : Nat} {d : Dinode} {data : Block}

@[simp] theorem inode_setInode_self (c : Dinode) : (v.setInode i c).inode i = c :=
  Function.update_self _ _ _

theorem inode_setInode_of_ne (c : Dinode) (different : j ≠ i) :
    (v.setInode i c).inode j = v.inode j :=
  Function.update_of_ne different _ _

theorem place_ne_indirect (bn : Nat) : place bn ≠ NDIRECT := by
  unfold place
  split <;> omega

theorem place_injective {bn other : Nat} (same : place bn = place other) : bn = other := by
  unfold place at same
  split at same <;> split at same <;> omega

theorem slot_direct (below : j ≤ NDIRECT) : v.slot (i, j) = (v.inode i).addrs j := if_pos below

theorem slot_entry (indirect : (v.inode i).addrs NDIRECT ≠ 0) (e : Nat) :
    v.slot (i, NDIRECT + 1 + e) = (v.block ((v.inode i).addrs NDIRECT)).word e := by
  unfold slot
  rw [if_neg (Nat.not_le.mpr (show NDIRECT < NDIRECT + 1 + e by omega)), if_neg indirect,
    Nat.add_sub_cancel_left]

theorem slot_entry_empty (none_ : (v.inode i).addrs NDIRECT = 0) (e : Nat) :
    v.slot (i, NDIRECT + 1 + e) = 0 := by
  unfold slot
  rw [if_neg (Nat.not_le.mpr (show NDIRECT < NDIRECT + 1 + e by omega)), if_pos none_]

/-- An indirect block has no entries beyond its end. -/
theorem word_beyond (b : Block) {e : Nat} (beyond : NINDIRECT ≤ e) : b.word e = 0 := by
  have outside : forall at_ size, BSIZE ≤ at_ -> Bytes.number b at_ size = 0 := by
    intro at_ size above
    induction size generalizing at_ with
    | zero => rfl
    | succ size ih =>
        rw [Bytes.number, ih (at_ + 1) (by omega), Bytes.get, dif_neg (Nat.not_lt.mpr above)]
        rfl
  refine outside (4 * e) 4 ?_
  simp only [NINDIRECT, BSIZE] at beyond ⊢
  omega

/-- Only the first blocks of a file have slots. -/
theorem lt_of_slot (stored : v.slot (i, place bn) ≠ 0) : bn < MAXFILE := by
  by_contra beyond
  have large : MAXFILE ≤ bn := Nat.not_lt.mp beyond
  have position : place bn = NDIRECT + 1 + (bn - NDIRECT) := by
    unfold place
    rw [if_neg (by simp only [MAXFILE] at large; omega)]
    simp only [MAXFILE] at large
    omega
  rw [position] at stored
  by_cases none_ : (v.inode i).addrs NDIRECT = 0
  · exact stored (slot_entry_empty none_ _)
  · rw [slot_entry none_, word_beyond _ (by simp only [MAXFILE] at large; omega)] at stored
    exact stored rfl

/-- The slots depend on the addresses of the inodes and on their indirect blocks. -/
theorem slot_congr {s : Nat × Nat} (addrs : (w.inode s.1).addrs = (v.inode s.1).addrs)
    (entries : (v.inode s.1).addrs NDIRECT ≠ 0 -> w.block ((v.inode s.1).addrs NDIRECT) =
      v.block ((v.inode s.1).addrs NDIRECT)) : w.slot s = v.slot s := by
  unfold slot
  rw [addrs]
  by_cases direct : s.2 ≤ NDIRECT
  · rw [if_pos direct, if_pos direct]
  · rw [if_neg direct, if_neg direct]
    by_cases none_ : (v.inode s.1).addrs NDIRECT = 0
    · rw [if_pos none_, if_pos none_]
    · rw [if_neg none_, if_neg none_, entries none_]

/-- Changing an inode other than at its addresses. -/
theorem slot_setInode_addrs (addrs : d.addrs = (v.inode i).addrs) (s : Nat × Nat) :
    (v.setInode i d).slot s = v.slot s := by
  refine slot_congr ?_ (fun _ => rfl)
  by_cases here : s.1 = i
  · rw [here]
    simp only [setInode, Function.update_self, addrs]
  · simp only [setInode, Function.update_of_ne here]

theorem content_setInode_addrs (addrs : d.addrs = (v.inode i).addrs) (other bn : Nat) :
    (v.setInode i d).content other bn = v.content other bn := by
  unfold content
  rw [slot_setInode_addrs addrs]
  rfl

/-- Writing a block that is not an indirect block. -/
theorem slot_setBlock (notIndirect : v.NotIndirect b) (data : Block) (s : Nat × Nat) :
    (v.setBlock b data).slot s = v.slot s :=
  slot_congr rfl (fun _ => Function.update_of_ne (notIndirect s.1) _ _)

/-- Store an address in an inode. -/
theorem slot_setAddr (below : j ≤ NDIRECT)
    (addrs : d.addrs = Function.update (v.inode i).addrs j a)
    (fresh : j = NDIRECT -> (v.inode i).addrs NDIRECT = 0 ∧ v.block a = Bytes.fill 0)
    (s : Nat × Nat) : (v.setInode i d).slot s = Function.update v.slot (i, j) a s := by
  rcases s with ⟨inum, k⟩
  by_cases here : inum = i
  · subst here
    have now : ((v.setInode inum d).inode inum).addrs = Function.update
        (v.inode inum).addrs j a := by
      simp only [setInode, Function.update_self, addrs]
    by_cases same : k = j
    · subst same
      rw [slot_direct below, now, Function.update_self, Function.update_self]
    · have different : (inum, k) ≠ (inum, j) := fun equal => same (Prod.mk.inj equal).2
      rw [Function.update_of_ne different]
      by_cases direct : k ≤ NDIRECT
      · rw [slot_direct direct, slot_direct direct, now, Function.update_of_ne same]
      · have split : k = NDIRECT + 1 + (k - (NDIRECT + 1)) := by omega
        rw [split]
        by_cases indirect : j = NDIRECT
        · rcases fresh indirect with ⟨empty, zeros⟩
          subst indirect
          rw [slot_entry_empty empty]
          by_cases null : a = 0
          · refine slot_entry_empty ?_ _
            rw [now, Function.update_self, null]
          · rw [slot_entry (by rw [now, Function.update_self]; exact null), now,
              Function.update_self]
            show (v.block a).word _ = 0
            rw [zeros, Bytes.word_fill_zero]
        · have kept : ((v.setInode inum d).inode inum).addrs NDIRECT =
              (v.inode inum).addrs NDIRECT := by
            rw [now, Function.update_of_ne (Ne.symm indirect)]
          by_cases none_ : (v.inode inum).addrs NDIRECT = 0
          · rw [slot_entry_empty none_, slot_entry_empty (by rw [kept, none_])]
          · rw [slot_entry none_, slot_entry (by rw [kept]; exact none_), kept]
            rfl
  · have different : (inum, k) ≠ (i, j) := fun equal => here (Prod.mk.inj equal).1
    rw [Function.update_of_ne different]
    refine slot_congr ?_ (fun _ => rfl)
    simp only [setInode, Function.update_of_ne here]

/-- Store an address in an indirect block. -/
theorem slot_setEntry (indirect : (v.inode i).addrs NDIRECT = b) (nonnull : b ≠ 0)
    (alone : forall other, other ≠ i -> (v.inode other).addrs NDIRECT ≠ b)
    (below : e < NINDIRECT) (fits : a < 2 ^ 32) (s : Nat × Nat) :
    (v.setBlock b ((v.block b).setWord e a)).slot s =
      Function.update v.slot (i, NDIRECT + 1 + e) a s := by
  rcases s with ⟨inum, k⟩
  by_cases here : inum = i
  · subst here
    have room : 4 * e + 4 ≤ BSIZE := by
      simp only [NINDIRECT, BSIZE] at below ⊢
      omega
    have stored : (v.setBlock b ((v.block b).setWord e a)).block b = (v.block b).setWord e a :=
      Function.update_self b _ v.block
    have same : ((v.setBlock b ((v.block b).setWord e a)).inode inum).addrs NDIRECT = b := indirect
    by_cases direct : k ≤ NDIRECT
    · have different : (inum, k) ≠ (inum, NDIRECT + 1 + e) := by
        intro equal
        have index := (Prod.mk.inj equal).2
        omega
      rw [Function.update_of_ne different, slot_direct direct, slot_direct direct]
      rfl
    · have split : k = NDIRECT + 1 + (k - (NDIRECT + 1)) := by omega
      rw [split, slot_entry (by rw [same]; exact nonnull), same, stored]
      by_cases entry : k - (NDIRECT + 1) = e
      · rw [entry, Function.update_self, Bytes.word_setWord_self _ room fits]
      · have different : (inum, NDIRECT + 1 + (k - (NDIRECT + 1))) ≠ (inum, NDIRECT + 1 + e) := by
          intro equal
          have index := (Prod.mk.inj equal).2
          omega
        rw [Function.update_of_ne different, Bytes.word_setWord_of_ne _ _ entry,
          slot_entry (by rw [indirect]; exact nonnull), indirect]
  · have different : (inum, k) ≠ (i, NDIRECT + 1 + e) := fun equal => here (Prod.mk.inj equal).1
    rw [Function.update_of_ne different]
    exact slot_congr rfl (fun _ => Function.update_of_ne (alone inum here) _ _)

/-! ## Contents -/

section Contents

variable {used : Nat -> Prop}

/-- A block of file data is no indirect block. -/
theorem notIndirect (owned : Owned 0 used v.slot) (stored : v.slot (i, place bn) = b)
    (nonnull : b ≠ 0) : v.NotIndirect b := by
  intro other same
  have indirect : v.slot (other, NDIRECT) = b := (slot_direct (Nat.le_refl _)).trans same
  have equal := owned.once (i, place bn) (other, NDIRECT) (by rw [stored]; exact nonnull)
    (stored.trans indirect.symm)
  exact place_ne_indirect bn (Prod.mk.inj equal).2

/-- Two inodes have different indirect blocks. -/
theorem indirect_alone (owned : Owned 0 used v.slot) (indirect : (v.inode i).addrs NDIRECT = b)
    (nonnull : b ≠ 0) : forall other, other ≠ i -> (v.inode other).addrs NDIRECT ≠ b := by
  intro other different same
  have mine : v.slot (i, NDIRECT) = b := (slot_direct (Nat.le_refl _)).trans indirect
  have its : v.slot (other, NDIRECT) = b := (slot_direct (Nat.le_refl _)).trans same
  have equal := owned.once (other, NDIRECT) (i, NDIRECT) (by rw [its]; exact nonnull)
    (its.trans mine.symm)
  exact different (Prod.mk.inj equal).1

theorem content_congr (slots : w.slot (i, place bn) = v.slot (i, place bn))
    (blocks : v.slot (i, place bn) ≠ 0 ->
      w.block (v.slot (i, place bn)) = v.block (v.slot (i, place bn))) :
    w.content i bn = v.content i bn := by
  unfold content
  rw [slots]
  by_cases empty : v.slot (i, place bn) = 0
  · rw [if_pos empty, if_pos empty]
  · rw [if_neg empty, if_neg empty, blocks empty]

/-- Filling an empty slot with a block of zeros shows in no file. -/
theorem content_fill {s : Nat × Nat} (slots : forall t, w.slot t = Function.update v.slot s a t)
    (empty : v.slot s = 0) (zeros : w.block a = Bytes.fill 0)
    (blocks : forall i bn, v.slot (i, place bn) ≠ 0 ->
      w.block (v.slot (i, place bn)) = v.block (v.slot (i, place bn))) (i bn : Nat) :
    w.content i bn = v.content i bn := by
  by_cases here : (i, place bn) = s
  · unfold content
    rw [slots, here, empty, Function.update_self, if_pos rfl, zeros, ite_self]
  · refine content_congr ?_ (blocks i bn)
    rw [slots, Function.update_of_ne here]

/-- Writing a logical block of one file. -/
theorem content_setBlock (owned : Owned 0 used v.slot) (stored : v.slot (i, place bn) = b)
    (nonnull : b ≠ 0) (data : Block) (j k : Nat) :
    (v.setBlock b data).content j k = if j = i ∧ k = bn then data else v.content j k := by
  have slots := slot_setBlock (notIndirect owned stored nonnull) data
  by_cases here : j = i ∧ k = bn
  · rw [if_pos here, here.1, here.2]
    unfold content
    rw [slots, stored, if_neg nonnull]
    exact Function.update_self b data v.block
  · rw [if_neg here]
    refine content_congr (slots _) (fun inUse => Function.update_of_ne (fun same => here ?_) _ _)
    have equal := owned.once (j, place k) (i, place bn) inUse (same.trans stored.symm)
    exact ⟨(Prod.mk.inj equal).1, place_injective (Prod.mk.inj equal).2⟩

end Contents

end Volume

/-! ## The volume on a disk -/

/-- The first data block. -/
def Superblock.dataStart (sb : Superblock) : Nat := sb.ninodes / IPB + 3 + (sb.size / BPB + 1)

/-- The inodes and data blocks of a disk. -/
def Superblock.volume (sb : Superblock) (disk : Nat -> Block) : Volume where
  inode := fun i => if i < sb.ninodes then getDinode (disk (IBLOCK i)) (i % IPB) else Dinode.blank
  block := fun b => if sb.dataStart ≤ b then disk b else Bytes.fill 0

namespace Superblock

variable {sb : Superblock} {disk : Nat -> Block} {i b : Nat} {d : Dinode} {data : Block}

theorem inode_below (below : i < sb.ninodes) :
    (sb.volume disk).inode i = getDinode (disk (IBLOCK i)) (i % IPB) := if_pos below

theorem block_above (above : sb.dataStart ≤ b) : (sb.volume disk).block b = disk b := if_pos above

/-- The inodes lie before the bitmap. -/
theorem IBLOCK_lt (below : i < sb.ninodes) : IBLOCK i < sb.ninodes / IPB + 3 := by
  unfold IBLOCK
  simp only [IPB]
  omega

theorem IBLOCK_lt_dataStart (below : i < sb.ninodes) : IBLOCK i < sb.dataStart :=
  Nat.lt_of_lt_of_le (IBLOCK_lt below) (Nat.le_add_right _ _)

/-- Storing an inode. -/
theorem volume_putDinode (below : i < sb.ninodes) (fits : d.Fits) :
    sb.volume (Function.update disk (IBLOCK i) (putDinode (i % IPB) d (disk (IBLOCK i)))) =
      (sb.volume disk).setInode i d := by
  have slot : i % IPB < IPB := Nat.mod_lt i (by decide)
  refine Volume.ext (funext fun j => ?_) (funext fun b => ?_)
  · by_cases here : j = i
    · rw [here, inode_below below, Function.update_self, getDinode_putDinode _ slot fits]
      exact (Function.update_self i d (sb.volume disk).inode).symm
    · have kept : ((sb.volume disk).setInode i d).inode j = (sb.volume disk).inode j :=
        Function.update_of_ne here _ _
      rw [kept]
      by_cases inside : j < sb.ninodes
      · rw [inode_below inside, inode_below inside]
        by_cases sector : IBLOCK j = IBLOCK i
        · have other : j % IPB ≠ i % IPB := by
            simp only [IBLOCK, IPB] at sector ⊢
            omega
          rw [sector, Function.update_self, getDinode_putDinode_of_ne _ d other]
        · rw [Function.update_of_ne sector]
      · exact (if_neg inside).trans (if_neg inside).symm
  · show (if sb.dataStart ≤ b then _ else _) = (if sb.dataStart ≤ b then _ else _)
    by_cases above : sb.dataStart ≤ b
    · have different : b ≠ IBLOCK i := fun same =>
        absurd (IBLOCK_lt_dataStart below) (Nat.not_lt.mpr (same ▸ above))
      rw [if_pos above, if_pos above, Function.update_of_ne different]
    · rw [if_neg above, if_neg above]

/-- Writing a data block. -/
theorem volume_setBlock (above : sb.dataStart ≤ b) (data : Block) :
    sb.volume (Function.update disk b data) = (sb.volume disk).setBlock b data := by
  refine Volume.ext (funext fun j => ?_) (funext fun c => ?_)
  · by_cases inside : j < sb.ninodes
    · have different : IBLOCK j ≠ b := fun same =>
        absurd (IBLOCK_lt_dataStart inside) (Nat.not_lt.mpr (same ▸ above))
      exact (inode_below inside).trans (by
        rw [Function.update_of_ne different]
        exact (inode_below inside).symm)
    · exact (if_neg inside).trans (if_neg inside).symm
  · show (if sb.dataStart ≤ c then _ else _) = Function.update (sb.volume disk).block b data c
    by_cases here : c = b
    · rw [here, if_pos above, Function.update_self, Function.update_self]
    · rw [Function.update_of_ne here, Function.update_of_ne here]
      rfl

/-- Writing a sector that is neither one of the inodes nor a data block. -/
theorem volume_other (noInode : forall i, i < sb.ninodes -> IBLOCK i ≠ b) (upper : b < sb.dataStart)
    (data : Block) : sb.volume (Function.update disk b data) = sb.volume disk := by
  refine Volume.ext (funext fun j => ?_) (funext fun c => ?_)
  · by_cases inside : j < sb.ninodes
    · exact (inode_below inside).trans (by
        rw [Function.update_of_ne (noInode j inside)]
        exact (inode_below inside).symm)
    · exact (if_neg inside).trans (if_neg inside).symm
  · show (if sb.dataStart ≤ c then _ else _) = (if sb.dataStart ≤ c then _ else _)
    by_cases above : sb.dataStart ≤ c
    · have different : c ≠ b := fun same => absurd upper (Nat.not_lt.mpr (same ▸ above))
      rw [if_pos above, if_pos above, Function.update_of_ne different]
    · rw [if_neg above, if_neg above]

/-- Writing a sector of the bitmap. -/
theorem volume_bitmap (lower : sb.ninodes / IPB + 3 ≤ b) (upper : b < sb.dataStart) (data : Block) :
    sb.volume (Function.update disk b data) = sb.volume disk :=
  volume_other (fun _ inside same => absurd (IBLOCK_lt inside) (Nat.not_lt.mpr (same ▸ lower)))
    upper data

end Superblock

end TripleFs
end OsProjects
