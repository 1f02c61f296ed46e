import OsProjects.TripleFs.BlockMap

namespace OsProjects
namespace TripleFs

open Machine

/-!
# Working while blocks are held

A read of a mirrored file holds up to three of its blocks while `mbmap` looks for the next
one, and `mbmap` may take blocks for empty slots.  That is safe because the blocks that are
held are blocks of files: the super block, the bitmap, the inodes and the indirect
blocks are never among them.
-/

/-- The buffers of the cache, and the assumption that the disk does not fill up to `ends`. -/
def withRoom (sb : Superblock) (ends : Nat) : Limits BSIZE :=
  ⟨NBUF, fun disk => Roomy sb ends (marked sb disk)⟩

/-- The sector has a block of a file. -/
def Volume.FileBlock (v : Volume) (s : Nat) : Prop :=
  s ≠ 0 ∧ Exists fun i => Exists fun bn => v.slot (i, Volume.place bn) = s

/-- A state that satisfies block ownership, with free blocks that are zero, while blocks of
files are held. -/
structure Secure (sb : Superblock) (ends : Nat) (v : Volume) (lent : Finset Nat)
    (d : Device BSIZE Kernel) : Prop where
  owning : Owning sb ends v lent d
  blank : v.Blank sb ends (marked sb d.disk)
  roomy : Roomy sb ends (marked sb d.disk)
  files : forall s, s ∈ lent -> v.FileBlock s

/-- The slots of the inode `i` have been filled and its file has been written. -/
structure Touched (v : Volume) (bits : Nat -> Bool) (w : Volume) (others : Nat -> Bool) (i : Nat) :
    Prop where
  stays : forall s, v.slot s ≠ 0 -> w.slot s = v.slot s
  only : forall s, v.slot s = 0 -> w.slot s ≠ 0 -> s.1 = i
  more : forall b, bits b = true -> others b = true
  fresh : forall b, others b = true -> bits b = true ∨ b ≠ 0 ∧ Exists fun s => w.slot s = b
  elsewhere : forall j bn, j ≠ i -> w.content j bn = v.content j bn
  inodes : forall j, j ≠ i -> w.inode j = v.inode j
  head : w.inode i =
    { v.inode i with addrs := (w.inode i).addrs, logical_size := (w.inode i).logical_size }

/-- The inodes on the disk have the types of the live volume and no addresses that it does
not have. -/
structure Behind (sb : Superblock) (v : Volume) (d : Device BSIZE Kernel) : Prop where
  types : forall i, ((sb.volume d.disk).inode i).type = (v.inode i).type
  addrs : forall i j, j ≤ NDIRECT -> ((sb.volume d.disk).inode i).addrs j ≠ 0 ->
    (v.inode i).addrs j = ((sb.volume d.disk).inode i).addrs j

/-- From `d` to `e` the kernel has changed the inode in the entry `ip` and its file. -/
structure Changed (sb : Superblock) (ends : Nat) (v : Volume) (d : Device BSIZE Kernel) (ip : Nat)
    (w : Volume) (lent : Finset Nat) (e : Device BSIZE Kernel) : Prop where
  secure : Secure sb ends w lent e
  touched : Touched v (marked sb d.disk) w (marked sb e.disk) (d.mem.icache ip).inum
  mem : Exists fun c => e.mem = d.mem.adjust ip (Inode.withCopy fun _ => c)
  saved : forall j, j ≠ (d.mem.icache ip).inum ->
    (sb.volume e.disk).inode j = (sb.volume d.disk).inode j
  behind : Behind sb v d -> Behind sb w e

/-- The same without a change of the size and without writing inodes.  Unless one
of the slots in `need` was empty no block has been taken. -/
structure Worked (sb : Superblock) (ends : Nat) (need : Nat -> Prop) (v : Volume)
    (d : Device BSIZE Kernel) (ip : Nat) (w : Volume) (lent : Finset Nat)
    (e : Device BSIZE Kernel) : Prop extends Changed sb ends v d ip w lent e where
  size : forall j, (w.inode j).logical_size = (v.inode j).logical_size
  inodes : (sb.volume e.disk).inode = (sb.volume d.disk).inode
  steady : (forall m, need m -> v.slot ((d.mem.icache ip).inum, m) ≠ 0) -> forall s,
    w.slot s = v.slot s

/-- The slot is filled if those in `need` are. -/
def Needs (need : Nat -> Prop) (v : Volume) (i m : Nat) : Prop :=
  (forall k, need k -> v.slot (i, k) ≠ 0) -> v.slot (i, m) ≠ 0

/-! ## Effects -/

section Effects

variable {sb : Superblock} {ends : Nat} {v w u : Volume} {bits others more : Nat -> Bool} {i : Nat}
  {new need : Nat -> Prop} {lent lentToo : Finset Nat} {d e f : Device BSIZE Kernel} {ip s : Nat}

theorem Needs.of {m : Nat} (needed : need m) : Needs need v i m := fun filled => filled m needed

theorem Filled.touched (filled : Filled sb v bits w others i new) : Touched v bits w others i := by
  refine ⟨filled.stays, fun s empty stored => (filled.only s empty stored).1, filled.more,
    filled.fresh, fun j bn _ => filled.content j bn, filled.inodes, ?_⟩
  rw [filled.head]

theorem Filled.size (filled : Filled sb v bits w others i new) (j : Nat) :
    (w.inode j).logical_size = (v.inode j).logical_size := by
  by_cases here : j = i
  · rw [here, filled.head]
  · rw [filled.inodes j here]

theorem Touched.refl (v : Volume) (bits : Nat -> Bool) (i : Nat) : Touched v bits v bits i :=
  ⟨fun _ _ => rfl, fun _ empty stored => absurd empty stored, fun _ => id, fun _ => Or.inl,
    fun _ _ _ => rfl, fun _ _ => rfl, rfl⟩

theorem Touched.trans (first : Touched v bits w others i) (second : Touched w others u more i) :
    Touched v bits u more i := by
  refine ⟨fun s stored => ?_, fun s empty stored => ?_,
    fun b inUse => second.more b (first.more b inUse), fun b inUse => ?_,
    fun j bn different => (second.elsewhere j bn different).trans (first.elsewhere j bn different),
    fun j different => (second.inodes j different).trans (first.inodes j different), ?_⟩
  · have same := first.stays s stored
    exact (second.stays s (by rw [same]; exact stored)).trans same
  · by_cases between : w.slot s = 0
    · exact second.only s between stored
    · exact first.only s empty between
  · rcases second.fresh b inUse with before | stored
    · rcases first.fresh b before with old | ⟨nonnull, s, same⟩
      · exact Or.inl old
      · exact Or.inr ⟨nonnull, s, (second.stays s (by rw [same]; exact nonnull)).trans same⟩
    · exact Or.inr stored
  · rw [second.head, first.head]

theorem Touched.type (touched : Touched v bits w others i) (j : Nat) :
    (w.inode j).type = (v.inode j).type := by
  by_cases here : j = i
  · rw [here, touched.head]
  · rw [touched.inodes j here]

theorem Volume.FileBlock.mono (file : v.FileBlock s)
    (stays : forall t, v.slot t ≠ 0 -> w.slot t = v.slot t) : w.FileBlock s := by
  rcases file with ⟨nonnull, i, bn, stored⟩
  exact ⟨nonnull, i, bn, (stays _ (by rw [stored]; exact nonnull)).trans stored⟩

/-- The disk stays behind when its inodes do not change. -/
theorem Behind.touched (behind : Behind sb v d) (touched : Touched v bits w others i)
    (inodes : (sb.volume e.disk).inode = (sb.volume d.disk).inode) : Behind sb w e := by
  refine ⟨fun j => ?_, fun j k below stored => ?_⟩
  · rw [inodes, touched.type]
    exact behind.types j
  · rw [inodes] at stored ⊢
    have same := behind.addrs j k below stored
    have slot := touched.stays (j, k) (by
      rw [Volume.slot_direct below, same]
      exact stored)
    rw [Volume.slot_direct below, Volume.slot_direct below] at slot
    exact slot.trans same

namespace Changed

theorem inum (changed : Changed sb ends v d ip w lent e) :
    (e.mem.icache ip).inum = (d.mem.icache ip).inum := by
  rcases changed.mem with ⟨c, same⟩
  rw [same, Kernel.adjust_self]
  rfl

theorem active (changed : Changed sb ends v d ip w lent e) (active : (d.mem.icache ip).Active) :
    (e.mem.icache ip).Active := by
  rcases changed.mem with ⟨c, same⟩
  rw [same]
  exact (Live.active_adjust ip).mpr active

theorem trans (first : Changed sb ends v d ip w lent e)
    (second : Changed sb ends w e ip u lentToo f) : Changed sb ends v d ip u lentToo f := by
  have inum := first.inum
  have touched := second.touched
  have saved := second.saved
  rw [inum] at touched saved
  refine ⟨second.secure, first.touched.trans touched, ?_,
    fun j different => (saved j different).trans (first.saved j different),
    fun behind => second.behind (first.behind behind)⟩
  rcases first.mem with ⟨c, before⟩
  rcases second.mem with ⟨c', after⟩
  refine ⟨c', ?_⟩
  rw [after, before, Kernel.adjust_adjust]
  rfl

end Changed

namespace Worked

theorem refl (secure : Secure sb ends v lent d) : Worked sb ends need v d ip v lent d :=
  ⟨⟨secure, Touched.refl v _ _, ⟨_, (Kernel.adjust_same rfl).symm⟩, fun _ _ => rfl, id⟩,
    fun _ => rfl, rfl, fun _ _ => rfl⟩

theorem inum (worked : Worked sb ends need v d ip w lent e) :
    (e.mem.icache ip).inum = (d.mem.icache ip).inum :=
  worked.toChanged.inum

theorem active (worked : Worked sb ends need v d ip w lent e) (active : (d.mem.icache ip).Active) :
    (e.mem.icache ip).Active :=
  worked.toChanged.active active

theorem trans (first : Worked sb ends need v d ip w lent e)
    (second : Worked sb ends need w e ip u lentToo f) : Worked sb ends need v d ip u lentToo f := by
  refine ⟨first.toChanged.trans second.toChanged, fun j => (second.size j).trans (first.size j),
    second.inodes.trans first.inodes, fun filled s => ?_⟩
  have same := first.steady filled
  have steady := second.steady
  rw [first.inum] at steady
  refine (steady (fun m needed => ?_) s).trans (same s)
  rw [same]
  exact filled m needed

theorem slot (worked : Worked sb ends need v d ip w lent e) {t : Nat × Nat} (stored : v.slot t = s)
    (nonnull : s ≠ 0) : w.slot t = s :=
  (worked.touched.stays t (by rw [stored]; exact nonnull)).trans stored

end Worked

end Effects

/-! ## Filling slots -/

section Growing

variable {sb : Superblock} {ends : Nat} {escape : Stop FsPanic -> Prop} {v w : Volume}
  {lent : Finset Nat} {d e f : Device BSIZE Kernel} {ip j k a bn mbn ind s : Nat}
  {need : Nat -> Prop}

open BlockProgram

theorem addrStored_disk {limits : Limits BSIZE} (fresh : Fresh limits sb ends d f a) :
    (addrStored d ip j a f).disk = markBlock sb d.disk a := by
  rw [fresh.taken]
  rfl

theorem entryStored_disk {limits : Limits BSIZE} (fresh : Fresh limits sb ends d f a) :
    (entryStored d ind k a f).disk =
      Function.update (markBlock sb d.disk a) ind ((d.disk ind).setWord k a) := by
  rw [entryStored, fresh.taken]
  rfl

namespace Secure

theorem sound (secure : Secure sb ends v lent d) : v.Sound sb ends (marked sb d.disk) :=
  Volume.sound_iff.mpr ⟨secure.owning.owns, secure.blank⟩

theorem ample (secure : Secure sb ends v lent d) (allowed : escape (.panic .ballocOutOfBlocks)) :
    Ample sb ends escape (marked sb d.disk) :=
  secure.roomy.imp id (fun whole => ⟨whole, allowed⟩)

/-- An indirect block is not among the blocks that are held. -/
theorem out (secure : Secure sb ends v lent d) {i : Nat}
    (indirect : (v.inode i).addrs NDIRECT = ind) : ind ∉ lent := by
  intro inside
  rcases secure.files ind inside with ⟨nonnull, k, bn, stored⟩
  exact Volume.notIndirect secure.owning.owns.ledger.owned stored nonnull i indirect

theorem space {count : Nat} (few : count ≤ 3) : count + 3 < (withRoom sb ends).capacity := by
  show count + 3 < NBUF
  simp only [NBUF]
  omega

/-- Whoever fills slots only has worked on the inode. -/
theorem worked {new : Nat -> Prop} (secure : Secure sb ends v lent d)
    (owning : Owning sb ends w lent e) (sound : w.Sound sb ends (marked sb e.disk))
    (roomy : Roomy sb ends (marked sb e.disk))
    (filled : Filled sb v (marked sb d.disk) w (marked sb e.disk) (d.mem.icache ip).inum new)
    (mem : Exists fun c => e.mem = d.mem.adjust ip (Inode.withCopy fun _ => c))
    (inodes : (sb.volume e.disk).inode = (sb.volume d.disk).inode) {m : Nat}
    (empty : v.slot ((d.mem.icache ip).inum, m) = 0)
    (needed : Needs need v (d.mem.icache ip).inum m) : Worked sb ends need v d ip w lent e :=
  ⟨⟨⟨owning, (Volume.sound_iff.mp sound).2, roomy,
    fun s inside => (secure.files s inside).mono filled.stays⟩, filled.touched, mem,
    fun j _ => congrFun inodes j, fun behind => behind.touched filled.touched inodes⟩, filled.size,
    inodes, fun full => absurd empty (needed full)⟩

/-- `ensureAddr` fills the slot if it is empty, and returns what is in it. -/
theorem ensureAddr_wp (secure : Secure sb ends v lent d) (few : lent.card ≤ 3)
    (allowed : escape (.panic .ballocOutOfBlocks)) (active : (d.mem.icache ip).Active)
    (below : j ≤ NDIRECT) (needed : Needs need v (d.mem.icache ip).inum j) :
    (ensureAddr ip j).wp (withRoom sb ends)
      (fun a e => Exists fun w =>
        Worked sb ends need v d ip w lent e ∧ w.slot ((d.mem.icache ip).inum, j) = a ∧ a ≠ 0 ∧
        forall i n, w.content i n = v.content i n)
      escape d := by
  have copy := secure.owning.copy active
  refine wp_mono (secure.owning.ensureAddr_wp (space few) (secure.ample allowed) below) ?_
    (fun _ stopped => stopped)
  rintro a e (⟨stored, nonnull, rfl⟩ | ⟨empty, f, fresh, rfl⟩)
  · refine ⟨v, Worked.refl secure, ?_, nonnull, fun _ _ => rfl⟩
    rw [Volume.slot_direct below, copy]
    exact stored
  · have small : a < 2 ^ 32 := Nat.lt_of_lt_of_le fresh.upper secure.owning.ends_le
    have scans : a < scanned sb := Nat.lt_of_lt_of_le fresh.upper secure.owning.scans
    have disk := @addrStored_disk _ _ d f ip j a _ fresh
    have sets : forall c, marked sb (addrStored d ip j a f).disk c =
        (decide (c = a) || marked sb d.disk c) := by
      rw [disk]
      exact marked_markBlock scans
    have emptyToo : (v.inode (d.mem.icache ip).inum).addrs j = 0 := by
      rw [copy]
      exact empty
    have filled := secure.sound.fillAddr below emptyToo fresh.lower fresh.upper small
        fresh.free sets
    have kept := secure.owning.storeAddr active below empty fresh
      (fun _ => secure.blank a fresh.lower fresh.upper fresh.free)
    have nonnull : a ≠ 0 := by
      have large := dataStart_large sb
      have lower := fresh.lower
      omega
    have inodes : (sb.volume (addrStored d ip j a f).disk).inode = (sb.volume d.disk).inode := by
      rw [disk, volume_markBlock scans]
    have slot := (Volume.slot_direct below).trans emptyToo
    refine ⟨_, secure.worked kept.1 filled.1 fresh.roomy filled.2 ⟨_, rfl⟩ inodes slot needed, ?_,
      nonnull, filled.2.content⟩
    rw [kept.2, Function.update_self]

/-- `ensureEntry` does the same in the indirect block. -/
theorem ensureEntry_wp (secure : Secure sb ends v lent d) (few : lent.card ≤ 3)
    (allowed : escape (.panic .ballocOutOfBlocks)) (active : (d.mem.icache ip).Active)
    (indirect : v.slot ((d.mem.icache ip).inum, NDIRECT) = ind) (nonnull : ind ≠ 0)
    (below : k < NINDIRECT) (needed : need (NDIRECT + 1 + k)) :
    (ensureEntry ind k).wp (withRoom sb ends)
      (fun a e => Exists fun w =>
        Worked sb ends need v d ip w lent e ∧ w.slot ((d.mem.icache ip).inum, NDIRECT + 1 + k) = a ∧
        a ≠ 0 ∧ forall i n, w.content i n = v.content i n)
      escape d := by
  rw [Volume.slot_direct (Nat.le_refl _)] at indirect
  have copy := secure.owning.copy active
  have above := (secure.owning.owns.indirect_above indirect nonnull).1
  have block := secure.owning.block above
  have slot : v.slot ((d.mem.icache ip).inum, NDIRECT + 1 + k) = (d.disk ind).word k := by
    rw [Volume.slot_entry (by rw [indirect]; exact nonnull), indirect, block]
  refine wp_mono (secure.owning.ensureEntry_wp (space few) (secure.ample allowed) indirect nonnull
    (secure.out indirect) below) ?_ (fun _ stopped => stopped)
  rintro a e (⟨stored, nonnullToo, rfl⟩ | ⟨empty, ⟨f, fresh, rfl⟩, roomy⟩)
  · exact ⟨v, Worked.refl secure, slot.trans stored, nonnullToo, fun _ _ => rfl⟩
  · have small : a < 2 ^ 32 := Nat.lt_of_lt_of_le fresh.upper secure.owning.ends_le
    have scans : a < scanned sb := Nat.lt_of_lt_of_le fresh.upper secure.owning.scans
    have disk := @entryStored_disk _ _ d f k a ind _ fresh
    have sets : forall c, marked sb (entryStored d ind k a f).disk c =
        (decide (c = a) || marked sb d.disk c) := by
      intro c
      rw [disk, marked_other (Or.inr above), marked_markBlock scans]
    have filled := secure.sound.fillEntry (i := (d.mem.icache ip).inum)
        (by rw [indirect]; exact nonnull) below
        (slot.trans empty) fresh.lower fresh.upper small fresh.free sets
    rw [indirect] at filled
    have ofCopy := congrArg (Dinode.addrs · NDIRECT) copy
    have kept := secure.owning.storeEntry active
        (ofCopy.symm.trans indirect) nonnull below empty fresh
    have mem : f.mem = d.mem := by
      rw [fresh.taken]
      rfl
    have nonnullToo : a ≠ 0 := by
      have large := dataStart_large sb
      have lower := fresh.lower
      omega
    have inodes : (sb.volume (entryStored d ind k a f).disk).inode = (sb.volume d.disk).inode := by
      rw [disk, Superblock.volume_setBlock above, volume_markBlock scans]
      rfl
    refine ⟨_, secure.worked kept.1 filled.1 roomy filled.2
      ⟨_, mem.trans (Kernel.adjust_same rfl).symm⟩ inodes (slot.trans empty) (Needs.of needed), ?_,
      nonnullToo, filled.2.content⟩
    rw [kept.2, Function.update_self]

/-- The indirect block and then one of its entries. -/
theorem indirectEntry_wp (secure : Secure sb ends v lent d) (few : lent.card ≤ 3)
    (allowed : escape (.panic .ballocOutOfBlocks)) (active : (d.mem.icache ip).Active)
    (below : k < NINDIRECT) (needed : need (NDIRECT + 1 + k)) : (do
      let addr <- ensureAddr ip NDIRECT
      ensureEntry addr k : Fs Nat).wp (withRoom sb ends) (fun a e => Exists fun w =>
        Worked sb ends need v d ip w lent e ∧ w.slot ((d.mem.icache ip).inum, NDIRECT + 1 + k) = a ∧
        a ≠ 0 ∧ forall i n, w.content i n = v.content i n) escape d := by
  have indirect : Needs need v (d.mem.icache ip).inum NDIRECT := by
    intro filled none_
    -- An entry that is filled is in an indirect block.
    rw [Volume.slot_direct (Nat.le_refl _)] at none_
    exact filled _ needed (Volume.slot_entry_empty none_ _)
  refine wp_seq (secure.ensureAddr_wp few allowed active (Nat.le_refl _) indirect) ?_
  rintro ind e ⟨w, first, isIndirect, nonnull, contents⟩
  rw [← first.inum] at isIndirect
  refine wp_mono (first.secure.ensureEntry_wp few allowed
    (first.active active) isIndirect nonnull below needed) ?_ (fun _ stopped => stopped)
  rintro a f ⟨u, second, stored, nonnullToo, same⟩
  rw [first.inum] at stored
  exact ⟨u, first.trans second, stored, nonnullToo, fun i n => (same i n).trans (contents i n)⟩

/-- `bmap` returns the block in the slot of a logical block, which it fills if it is empty. -/
theorem bmap_wp (secure : Secure sb ends v lent d) (few : lent.card ≤ 3)
    (allowed : escape (.panic .ballocOutOfBlocks)) (active : (d.mem.icache ip).Active)
    (below : bn < MAXFILE ∨ escape (.panic .bmapOutOfRange)) (needed : need (Volume.place bn)) :
    (bmap ip bn).wp (withRoom sb ends)
      (fun a e => Exists fun w =>
        Worked sb ends need v d ip w lent e ∧ w.slot ((d.mem.icache ip).inum, Volume.place bn) = a ∧
        a ≠ 0 ∧ forall i n, w.content i n = v.content i n)
      escape d := by
  unfold bmap
  by_cases direct : bn < NDIRECT
  · rw [place_direct direct] at needed ⊢
    rw [if_pos direct]
    exact secure.ensureAddr_wp few allowed active (Nat.le_of_lt direct) (Needs.of needed)
  · by_cases entry : bn - NDIRECT < NINDIRECT
    · rw [place_entry direct] at needed ⊢
      rw [if_neg direct, if_pos entry]
      exact secure.indirectEntry_wp few allowed active entry needed
    · rw [if_neg direct, if_neg entry]
      refine wp_stop (below.resolve_left (fun inside => entry ?_))
      simp only [MAXFILE] at inside
      omega

end Secure

/-- The slot whose block `mbmap` returns. -/
def mirrorPlace (bn mbn : Nat) : Nat :=
  if bn < NDIRECT then if mbn = 1 then bn + 1 else if mbn = 2 then bn + 2 else bn
  else if mbn ≤ 2 then NDIRECT + 1 + (bn - NDIRECT + mbn) else NDIRECT

/-- The call stays inside the inode and inside its indirect block. -/
def MirrorFits (bn mbn : Nat) : Prop :=
  bn < MAXFILE ∧ mirrorPlace bn mbn ≤ if bn < NDIRECT then NDIRECT else MAXFILE

theorem mirrorPlace_copy (small : j < 3) : mirrorPlace (k * 3) j = Volume.place (k * 3 + j) := by
  unfold mirrorPlace
  by_cases direct : k * 3 < NDIRECT
  · have within : k * 3 + j < NDIRECT := by
      simp only [NDIRECT] at direct ⊢
      omega
    rw [if_pos direct, place_direct within]
    split
    · omega
    · split <;> omega
  · rw [if_neg direct, if_pos (by omega), place_entry (by omega)]
    omega

theorem mirrorFits_copy (small : j < 3) (below : k * 3 + j < MAXFILE) : MirrorFits (k * 3) j := by
  refine ⟨by omega, ?_⟩
  rw [mirrorPlace_copy small]
  split
  · have within : k * 3 + j < NDIRECT := by
      rename_i direct
      simp only [NDIRECT] at direct ⊢
      omega
    rw [place_direct within]
    exact Nat.le_of_lt within
  · unfold Volume.place
    split <;> omega

/-- `mbmap` does the same for the slots of copies. -/
theorem Secure.mbmap_wp (secure : Secure sb ends v lent d) (few : lent.card ≤ 3)
    (allowed : escape (.panic .ballocOutOfBlocks)) (active : (d.mem.icache ip).Active)
    (fits : MirrorFits bn mbn) (needed : need (Volume.place bn))
    (neededToo : need (mirrorPlace bn mbn)) :
    (mbmap ip bn mbn).wp (withRoom sb ends)
      (fun a e => Exists fun w =>
        Worked sb ends need v d ip w lent e ∧
        w.slot ((d.mem.icache ip).inum, mirrorPlace bn mbn) = a ∧ a ≠ 0)
      escape d := by
  rcases fits with ⟨below, inside⟩
  unfold mbmap mirrorPlace at *
  by_cases direct : bn < NDIRECT
  · rw [if_pos direct] at inside neededToo ⊢
    rw [if_pos direct] at inside
    rw [place_direct direct] at needed
    rw [if_pos direct]
    -- Another slot of the inode, after the one of the first copy.
    have later : forall i, i ≤ NDIRECT -> need i -> forall w e,
        Worked sb ends need v d ip w lent e -> (ensureAddr ip i).wp (withRoom sb ends)
        (fun a f => Exists fun u => Worked sb ends need v d ip u lent f ∧
        u.slot ((d.mem.icache ip).inum, i) = a ∧ a ≠ 0) escape e := by
      intro i low isNeeded w e first
      refine wp_mono (first.secure.ensureAddr_wp few allowed (first.active active) low
        (Needs.of isNeeded)) ?_ (fun _ stopped => stopped)
      rintro a f ⟨u, second, stored, nonnull, _⟩
      rw [first.inum] at stored
      exact ⟨u, first.trans second, stored, nonnull⟩
    refine wp_seq (secure.ensureAddr_wp few allowed active (Nat.le_of_lt direct) (Needs.of needed))
      ?_
    rintro a e ⟨w, first, stored, nonnull, _⟩
    by_cases second : mbn = 1
    · rw [if_pos second] at inside neededToo ⊢
      rw [if_pos second]
      exact later _ inside neededToo w e first
    · by_cases third : mbn = 2
      · rw [if_neg second, if_pos third] at inside neededToo ⊢
        rw [if_neg second, if_pos third]
        exact later _ inside neededToo w e first
      · rw [if_neg second, if_neg third, if_neg second, if_neg third]
        exact ⟨w, first, stored, nonnull⟩
  · have entry : bn - NDIRECT < NINDIRECT := by
      simp only [MAXFILE] at below
      omega
    rw [if_neg direct] at inside neededToo
    rw [if_neg direct] at inside
    rw [if_neg direct, if_pos entry, if_neg direct]
    by_cases copy : mbn ≤ 2
    · rw [if_pos copy] at inside neededToo ⊢
      simp only [if_pos copy]
      refine wp_mono (secure.indirectEntry_wp few allowed active ?_ neededToo) ?_
        (fun _ stopped => stopped)
      · simp only [MAXFILE] at inside
        omega
      · rintro a e ⟨w, first, stored, nonnull, _⟩
        exact ⟨w, first, stored, nonnull⟩
    · rw [if_neg copy] at neededToo
      simp only [if_neg copy]
      refine wp_seq (secure.ensureAddr_wp few allowed active (Nat.le_refl _) (Needs.of neededToo))
        ?_
      rintro ind e ⟨w, first, isIndirect, nonnull, _⟩
      have held := first.secure.owning.lends.count
      have there : (w.inode (d.mem.icache ip).inum).addrs NDIRECT = ind := by
        rw [← isIndirect, Volume.slot_direct (Nat.le_refl _)]
      have resting := first.secure.owning.resting_indirect there (first.secure.out there)
      have room : e.busy < (withRoom sb ends).capacity := by
        have enough := @Secure.space sb ends _ few
        omega
      refine wp_bind.mpr (wp_bread resting room ?_)
      refine wp_bind.mpr (wp_brelse Device.held_hold_self ?_)
      rw [Device.release_hold resting]
      exact ⟨w, first, isIndirect, nonnull⟩

end Growing

end TripleFs
end OsProjects
