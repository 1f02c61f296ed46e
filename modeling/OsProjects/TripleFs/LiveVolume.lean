import Mathlib.Data.Finset.Card
import OsProjects.TripleFs.References
import OsProjects.TripleFs.Writing

namespace OsProjects
namespace TripleFs

open Machine

/-!
# The volume that the kernel sees

The cache has copies of some inodes, and a copy may be ahead of the disk.  The live volume
has the copies of the inodes that have been read and the disk for everything else.

In the middle of a call the kernel holds some data blocks.  Of the blocks of mirrored
files the buffers may have contents that were never written, since a repair can leave them
behind, even when the file has lost the block again; of every other sector they have what
is on the disk.
-/

/-- The entry is referred to and its inode has been read. -/
def Inode.Active (e : Inode) : Prop := 0 < e.ref ∧ e.valid = true

/-- No inode is in the cache twice. -/
def Kernel.Apart (k : Kernel) : Prop :=
  forall ip jp, 0 < (k.icache ip).ref -> 0 < (k.icache jp).ref ->
    (k.icache ip).inum = (k.icache jp).inum -> ip = jp

/-- `v` is the live volume. -/
structure Live (sb : Superblock) (d : Device BSIZE Kernel) (v : Volume) : Prop where
  cached : forall ip, (d.mem.icache ip).Active ->
    v.inode (d.mem.icache ip).inum = (d.mem.icache ip).copy
  others : forall i, (forall ip, (d.mem.icache ip).Active -> (d.mem.icache ip).inum ≠ i) ->
    v.inode i = (sb.volume d.disk).inode i
  blocks : v.block = (sb.volume d.disk).block

/-- Block ownership: the slots store the numbers of data blocks in use below `ends`, each
number at most once, and the sectors before the data blocks are in use. -/
structure Volume.Owns (sb : Superblock) (ends : Nat) (v : Volume) (bits : Nat -> Bool) : Prop where
  ledger : Ledger () sb.dataStart ends v.slot bits (fun _ => ())
  fits : forall i, (v.inode i).Fits

/-- The data blocks that are not in use are zero. -/
def Volume.Blank (sb : Superblock) (ends : Nat) (v : Volume) (bits : Nat -> Bool) : Prop :=
  forall b, sb.dataStart ≤ b -> b < ends -> bits b = false -> v.block b = Bytes.fill 0

/-- The sector has a copy of a block of a mirrored file. -/
def Volume.Mirror (v : Volume) (s : Nat) : Prop :=
  s ≠ 0 ∧ Exists fun i => Exists fun bn => (v.inode i).type = T_MIRRORED ∧
    v.slot (i, Volume.place bn) = s

/-- A data block in use that is in no slot but those of copies. -/
def Loose (sb : Superblock) (type : Nat -> Nat) (slots : Nat × Nat -> Nat) (bits : Nat -> Bool)
    (s : Nat) : Prop :=
  sb.dataStart ≤ s ∧ bits s = true ∧ forall t, slots t = s -> type t.1 = T_MIRRORED ∧ t.2 ≠ NDIRECT

/-- The sectors of which the buffers may have contents that were never written. -/
def Volume.Loose (sb : Superblock) (v : Volume) (bits : Nat -> Bool) : Nat -> Prop :=
  TripleFs.Loose sb (fun i => (v.inode i).type) v.slot bits

/-- The sectors in `lent` are held.  They are data blocks, and the buffers have the contents
of the disk of every sector that is not `loose`. -/
structure Lends (sb : Superblock) (loose : Nat -> Prop) (lent : Finset Nat)
    (d : Device BSIZE Kernel) : Prop where
  held : forall s, d.held s ≠ none ↔ s ∈ lent
  count : d.busy = lent.card
  data : forall s, s ∈ lent -> sb.dataStart ≤ s
  clean : forall s, ¬ loose s -> d.aside s = ∅

/-- A state of the kernel that satisfies block ownership, while it holds the blocks in `lent`. -/
structure Owning (sb : Superblock) (ends : Nat) (v : Volume) (lent : Finset Nat)
    (d : Device BSIZE Kernel) : Prop where
  isSuper : superblock (d.disk 1) = sb
  scans : ends ≤ scanned sb
  live : Live sb d v
  apart : d.mem.Apart
  numbers : forall ip, 0 < (d.mem.icache ip).ref -> (d.mem.icache ip).inum < sb.ninodes
  owns : v.Owns sb ends (marked sb d.disk)
  lends : Lends sb (v.Loose sb (marked sb d.disk)) lent d

/-! ## Sectors that may be loose -/

section Looseness

variable {sb : Superblock} {v : Volume} {type types : Nat -> Nat} {slots table : Nat × Nat -> Nat}
  {bits others : Nat -> Bool} {i b : Nat}

theorem Loose.mono (loose : Loose sb type slots bits b) (more : others b = true)
    (back : forall t, table t = b -> slots t = b ∧ types t.1 = type t.1) :
    Loose sb types table others b := by
  refine ⟨loose.1, more, fun t same => ?_⟩
  rcases back t same with ⟨before, typed⟩
  rw [typed]
  exact loose.2.2 t before

/-- No slot has changed. -/
theorem Loose.same (loose : Loose sb type slots bits b) (typed : forall i, types i = type i)
    (same : forall t, table t = slots t) : Loose sb types table bits b :=
  loose.mono loose.2.1 (fun t stored => ⟨(same t).symm.trans stored, typed t.1⟩)

/-- Free blocks have been stored in empty slots. -/
theorem Loose.filled (loose : Loose sb type slots bits b)
    (more : forall c, bits c = true -> others c = true) (typed : forall i, types i = type i)
    (stays : forall t, slots t ≠ 0 -> table t = slots t)
    (new : forall t, slots t = 0 -> table t ≠ 0 -> bits (table t) = false) :
    Loose sb types table others b := by
  refine loose.mono (more b loose.2.1) (fun t same => ⟨?_, typed t.1⟩)
  have large := dataStart_large sb
  by_contra changed
  by_cases empty : slots t = 0
  · have free := new t empty (by rw [same]; have above := loose.1; omega)
    rw [same, loose.2.1] at free
    exact nomatch free
  · exact changed ((stays t empty).symm.trans same)

/-- Indirect blocks are not loose. -/
theorem Volume.not_loose_indirect (indirect : (v.inode i).addrs NDIRECT = b) :
    ¬ v.Loose sb bits b :=
  fun loose => (loose.2.2 (i, NDIRECT) ((Volume.slot_direct (Nat.le_refl _)).trans indirect)).2 rfl

theorem Volume.not_loose_low (low : b < sb.dataStart) : ¬ v.Loose sb bits b :=
  fun loose => absurd low (Nat.not_lt.mpr loose.1)

/-- Blocks of other files are not loose. -/
theorem Volume.not_loose_plain {t : Nat × Nat} (plain : (v.inode t.1).type ≠ T_MIRRORED)
    (stored : v.slot t = b) : ¬ v.Loose sb bits b := fun loose => plain (loose.2.2 t stored).1

end Looseness

/-! ## Ownership -/

section Ownership

variable {sb : Superblock} {ends : Nat} {v w : Volume} {bits others : Nat -> Bool} {i j e a b : Nat}

theorem Volume.sound_iff : v.Sound sb ends bits ↔ v.Owns sb ends bits ∧ v.Blank sb ends bits := by
  constructor
  · rintro ⟨⟨reserved, stored, once, blank⟩, fits⟩
    exact ⟨⟨⟨reserved, stored, once, fun _ _ _ _ => rfl⟩, fits⟩, blank⟩
  · rintro ⟨⟨⟨reserved, stored, once, _⟩, fits⟩, blank⟩
    exact ⟨⟨reserved, stored, once, blank⟩, fits⟩

namespace Volume.Owns

theorem congr (owns : v.Owns sb ends bits) (slots : forall s, w.slot s = v.slot s)
    (fits : forall i, (w.inode i).Fits) : w.Owns sb ends bits :=
  ⟨owns.ledger.congr slots (fun _ => rfl) (fun _ _ _ _ => rfl), fits⟩

/-- The block of a slot is a data block. -/
theorem above (owns : v.Owns sb ends bits) {s : Nat × Nat} (stored : v.slot s = b)
    (nonnull : b ≠ 0) : sb.dataStart ≤ b ∧ b < ends ∧ bits b = true := by
  rw [← stored] at nonnull ⊢
  exact owns.ledger.stored s nonnull

/-- The indirect block of an inode is a data block. -/
theorem indirect_above (owns : v.Owns sb ends bits) (indirect : (v.inode i).addrs NDIRECT = b)
    (nonnull : b ≠ 0) : sb.dataStart ≤ b ∧ b < ends ∧ bits b = true :=
  owns.above (s := (i, NDIRECT)) ((Volume.slot_direct (Nat.le_refl _)).trans indirect) nonnull

/-- The copies of blocks of mirrored files. -/
theorem loose_of_mirror (owns : v.Owns sb ends bits) (mirror : v.Mirror b) : v.Loose sb bits b := by
  rcases mirror with ⟨nonnull, k, bn, type, stored⟩
  have above := owns.above stored nonnull
  refine ⟨above.1, above.2.2, fun t same => ?_⟩
  have equal := owns.ledger.once t (k, Volume.place bn) (by rw [same]; exact nonnull)
      (same.trans stored.symm)
  rw [equal]
  exact ⟨type, Volume.place_ne_indirect bn⟩

/-- Store a free block in the inode itself. -/
theorem fillAddr (owns : v.Owns sb ends bits) (below : j ≤ NDIRECT)
    (empty : (v.inode i).addrs j = 0) (lower : sb.dataStart ≤ a) (upper : a < ends)
    (small : a < 2 ^ 32) (free : bits a = false) (zeros : j = NDIRECT -> v.block a = Bytes.fill 0)
    (sets : forall c, others c = (decide (c = a) || bits c)) :
    (v.setInode i ((v.inode i).setAddr j a)).Owns sb ends others ∧
    forall s,
      (v.setInode i ((v.inode i).setAddr j a)).slot s = Function.update v.slot (i, j) a s := by
  have slots : forall s, (v.setInode i ((v.inode i).setAddr j a)).slot s = Function.update v.slot
      (i, j) a s := by
    intro s
    refine Volume.slot_setAddr below rfl (fun indirect => ⟨?_, zeros indirect⟩) s
    rw [← indirect]
    exact empty
  exact ⟨⟨(owns.ledger.fill lower upper free).congr slots sets (fun _ _ _ _ => rfl),
    Volume.Sound.setInode_fits owns.fits ((owns.fits i).setAddr below small)⟩, slots⟩

/-- Store a free block in the indirect block. -/
theorem fillEntry (owns : v.Owns sb ends bits) (indirect : (v.inode i).addrs NDIRECT = b)
    (nonnull : b ≠ 0) (below : e < NINDIRECT) (lower : sb.dataStart ≤ a) (upper : a < ends)
    (small : a < 2 ^ 32) (free : bits a = false)
    (sets : forall c, others c = (decide (c = a) || bits c)) :
    (v.setBlock b ((v.block b).setWord e a)).Owns sb ends others ∧
    forall s,
      (v.setBlock b ((v.block b).setWord e a)).slot s =
        Function.update v.slot (i, NDIRECT + 1 + e) a s := by
  have slots := Volume.slot_setEntry indirect nonnull
      (Volume.indirect_alone owns.ledger.owned indirect nonnull) below small
  exact ⟨⟨(owns.ledger.fill lower upper free).congr slots sets (fun _ _ _ _ => rfl), owns.fits⟩,
    slots⟩

end Volume.Owns

end Ownership

/-! ## The live volume -/

namespace Live

variable {sb : Superblock} {d e : Device BSIZE Kernel} {v : Volume} {ip b : Nat} {data : Block}

/-- Nothing has changed in memory or in the inodes and data blocks on the disk. -/
theorem same (live : Live sb d v) (mem : e.mem = d.mem)
    (volume : sb.volume e.disk = sb.volume d.disk) : Live sb e v := by
  refine ⟨?_, ?_, ?_⟩
  · rw [mem]
    exact live.cached
  · rw [mem, volume]
    exact live.others
  · rw [volume]
    exact live.blocks

theorem setBlock (live : Live sb d v) (mem : e.mem = d.mem)
    (volume : sb.volume e.disk = (sb.volume d.disk).setBlock b data) :
    Live sb e (v.setBlock b data) := by
  refine ⟨?_, ?_, ?_⟩
  · rw [mem]
    exact live.cached
  · rw [mem, volume]
    exact live.others
  · rw [volume]
    exact congrArg (fun blocks => Function.update blocks b data) live.blocks

theorem active_adjust {k : Kernel} {change : Dinode -> Dinode} (jp : Nat) :
    ((k.adjust ip (Inode.withCopy change)).icache jp).Active ↔ (k.icache jp).Active := by
  by_cases here : jp = ip
  · rw [here, Kernel.adjust_self]
    exact Iff.rfl
  · rw [Kernel.adjust_of_ne _ here]

theorem inum_adjust {k : Kernel} {change : Dinode -> Dinode} (jp : Nat) :
    ((k.adjust ip (Inode.withCopy change)).icache jp).inum = (k.icache jp).inum := by
  by_cases here : jp = ip
  · rw [here, Kernel.adjust_self]
    rfl
  · rw [Kernel.adjust_of_ne _ here]

theorem ref_adjust {k : Kernel} {change : Dinode -> Dinode} (jp : Nat) :
    ((k.adjust ip (Inode.withCopy change)).icache jp).ref = (k.icache jp).ref := by
  by_cases here : jp = ip
  · rw [here, Kernel.adjust_self]
    rfl
  · rw [Kernel.adjust_of_ne _ here]

/-- Changing a copy in the cache. -/
theorem withCopy {change : Dinode -> Dinode} (live : Live sb d v) (apart : d.mem.Apart)
    (active : (d.mem.icache ip).Active) (mem : e.mem = d.mem.adjust ip (Inode.withCopy change))
    (volume : sb.volume e.disk = sb.volume d.disk) :
    Live sb e (v.setInode (d.mem.icache ip).inum (change (d.mem.icache ip).copy)) := by
  refine ⟨fun jp activeNow => ?_, fun i none_ => ?_, ?_⟩
  · rw [mem] at activeNow ⊢
    have activeToo := (active_adjust jp).mp activeNow
    rw [inum_adjust]
    by_cases here : jp = ip
    · rw [here, Volume.inode_setInode_self, Kernel.adjust_self]
      rfl
    · have different : (d.mem.icache jp).inum ≠ (d.mem.icache ip).inum :=
        fun same => here (apart jp ip activeToo.1 active.1 same)
      rw [Volume.inode_setInode_of_ne _ different, Kernel.adjust_of_ne _ here]
      exact live.cached jp activeToo
  · rw [mem] at none_
    have others : forall jp, (d.mem.icache jp).Active -> (d.mem.icache jp).inum ≠ i := by
      intro jp activeToo
      have differs := none_ jp ((active_adjust jp).mpr activeToo)
      rw [inum_adjust] at differs
      exact differs
    rw [Volume.inode_setInode_of_ne _ (others ip active).symm, volume]
    exact live.others i others
  · rw [volume]
    exact live.blocks

/-- Copying an inode to the disk does not change the live volume. -/
theorem saved (live : Live sb d v) (active : (d.mem.icache ip).Active) (mem : e.mem = d.mem)
    (volume : sb.volume e.disk = (sb.volume d.disk).setInode (d.mem.icache ip).inum
      (d.mem.icache ip).copy) : Live sb e v := by
  refine ⟨?_, fun i none_ => ?_, ?_⟩
  · rw [mem]
    exact live.cached
  · rw [mem] at none_
    rw [volume, Volume.inode_setInode_of_ne _ (none_ ip active).symm]
    exact live.others i none_
  · rw [volume]
    exact live.blocks

/-- Where the kernel finds the number of a logical block. -/
theorem address {ends : Nat} {bits : Nat -> Bool} (live : Live sb d v) (owns : v.Owns sb ends bits)
    (i bn : Nat) : TripleFs.addressOf d.disk (v.inode i) bn = v.slot (i, Volume.place bn) := by
  unfold TripleFs.addressOf
  by_cases direct : bn < NDIRECT
  · rw [if_pos direct, place_direct direct, Volume.slot_direct (Nat.le_of_lt direct)]
  · rw [if_neg direct, place_entry direct]
    by_cases none_ : (v.inode i).addrs NDIRECT = 0
    · rw [if_pos none_, Volume.slot_entry_empty none_]
    · have above := (owns.indirect_above rfl none_).1
      rw [if_neg none_, Volume.slot_entry none_, live.blocks, Superblock.block_above above]

theorem addressOf {ends : Nat} {bits : Nat -> Bool} (live : Live sb d v)
    (owns : v.Owns sb ends bits) (active : (d.mem.icache ip).Active) (bn : Nat) :
    addressOf d.disk (d.mem.icache ip).copy bn =
      v.slot ((d.mem.icache ip).inum, Volume.place bn) := by
  rw [← live.cached ip active]
  exact live.address owns _ bn

end Live

/-! ## The buffers -/

namespace Lends

variable {sb : Superblock} {loose looser : Nat -> Prop} {lent : Finset Nat}
  {d : Device BSIZE Kernel} {s : Nat} {data : Block}

theorem resting (lends : Lends sb loose lent d) (out : s ∉ lent) (clean : ¬ loose s) :
    d.Resting s :=
  ⟨by_contra fun held => out ((lends.held s).mp held), lends.clean s clean⟩

theorem weaken (lends : Lends sb loose lent d) (more : forall s, loose s -> looser s) :
    Lends sb looser lent d :=
  ⟨lends.held, lends.count, lends.data, fun s clean => lends.clean s (mt (more s) clean)⟩

theorem store (lends : Lends sb loose lent d) : Lends sb loose lent (d.store s data) :=
  ⟨lends.held, lends.count, lends.data, lends.clean⟩

theorem withMem (lends : Lends sb loose lent d) (mem : Kernel) :
    Lends sb loose lent (d.withMem mem) :=
  ⟨lends.held, lends.count, lends.data, lends.clean⟩

end Lends

/-! ## States of the kernel -/

namespace Owning

variable {sb : Superblock} {ends : Nat} {v : Volume} {lent : Finset Nat}
  {d : Device BSIZE Kernel} {ip s : Nat}

/-- The sectors before the data blocks. -/
theorem resting_low (owning : Owning sb ends v lent d) (low : s < sb.dataStart) : d.Resting s := by
  refine owning.lends.resting (fun inside => ?_) (Volume.not_loose_low low)
  exact absurd low (Nat.not_lt.mpr (owning.lends.data s inside))

theorem resting_indirect (owning : Owning sb ends v lent d) {i : Nat}
    (indirect : (v.inode i).addrs NDIRECT = s) (out : s ∉ lent) : d.Resting s :=
  owning.lends.resting out (Volume.not_loose_indirect indirect)

theorem copy (owning : Owning sb ends v lent d) (active : (d.mem.icache ip).Active) :
    v.inode (d.mem.icache ip).inum = (d.mem.icache ip).copy := owning.live.cached ip active

theorem ends_le (owning : Owning sb ends v lent d) : ends ≤ 2 ^ 32 := by
  have small : sb.size < 2 ^ 32 := by
    rw [← owning.isSuper]
    exact Bytes.word_lt _ _
  have scans := owning.scans
  unfold scanned at scans
  simp only [BPB] at scans
  omega

/-- A block of the live volume is what the disk has. -/
theorem block (owning : Owning sb ends v lent d) (above : sb.dataStart ≤ s) :
    v.block s = d.disk s := by
  rw [owning.live.blocks, Superblock.block_above above]

end Owning

end TripleFs
end OsProjects
