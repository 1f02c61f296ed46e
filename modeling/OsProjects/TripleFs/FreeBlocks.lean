import OsProjects.TripleFs.FileRuns
import OsProjects.TripleFs.ImageInOrder

namespace OsProjects
namespace TripleFs

open Machine

/-!
# Free blocks are zero

`balloc` takes a block as it is.  Whoever gives a block back clears it first, and an image
of `mkfs` starts with zeros, so whatever `balloc` takes is zero.  Two parts of the kernel
rest on that: `bmap` takes every word of a new indirect block for the number of a block
unless it is zero, and `dirlookup` looks at all the entries of the last block of a
directory.
-/

/-- The kernel has just booted with a disk. -/
def booted (disk : Nat -> Block) : Session := ⟨started disk, ⟨[], []⟩⟩

/-- `c` is an inode as the kernel has it: the copy in the cache if it has been read, and
else what is on the disk. -/
def IsCurrent (sb : Superblock) (s : Store Kernel) (c : Dinode) : Prop :=
  (Exists fun ip => (s.mem.icache ip).Active ∧ (s.mem.icache ip).copy = c) ∨
    Exists fun inum => inum < sb.ninodes ∧ diskInode s.disk inum = c ∧
      forall ip, (s.mem.icache ip).Active -> (s.mem.icache ip).inum ≠ inum

/-- The indirect block of the inode in the entry `ip` has nothing but the entry `k`. -/
def FreshIndirect (disk : Nat -> Block) (k : Kernel) (ip entry : Nat) : Prop :=
  forall other, other ≠ entry -> (disk ((k.icache ip).copy.addrs NDIRECT)).word other = 0

/-- No block that is not in use has anything in it, and so nothing stale turns up in blocks
that are taken, in indirect blocks or behind the ends of directories. -/
structure FreeBlocksZero (sb : Superblock) (s : Store Kernel) : Prop where
  free : forall b, b < sb.size -> used sb s.disk b = false -> s.disk b = Bytes.fill 0
  taken : forall b t, exec balloc s = .done b t -> t.disk b = Bytes.fill 0
  indirect : forall ip bn a t, (s.mem.icache ip).Active -> (s.mem.icache ip).copy.addrs NDIRECT =
    0 -> NDIRECT ≤ bn -> Throughout (withRoom sb sb.size).room (bmap ip bn) s ->
    exec (bmap ip bn) s = .done a t -> FreshIndirect t.disk t.mem ip (bn - NDIRECT)
  mirrored : forall ip bn mbn a t, (s.mem.icache ip).Active ->
    (s.mem.icache ip).copy.addrs NDIRECT = 0 -> NDIRECT ≤ bn -> mbn < 3 ->
    bn + mbn < MAXFILE -> Throughout (withRoom sb sb.size).room (mbmap ip bn mbn) s ->
    exec (mbmap ip bn mbn) s = .done a t -> FreshIndirect t.disk t.mem ip (bn - NDIRECT + mbn)
  entries : forall c x, IsCurrent sb s c -> c.type = T_DIR -> c.logical_size ≤ x ->
    addressOf s.disk c (x / BSIZE) ≠ 0 -> fileByte s.disk c x = 0

/-! ## Taking a block -/

section Taking

variable {sb : Superblock} {ends : Nat} {escape : Stop FsPanic -> Prop} {v : Volume}
  {lent : Finset Nat} {d e f : Device BSIZE Kernel} {limits : Limits BSIZE} {ip bn mbn k a b : Nat}

open BlockProgram

namespace Secure

theorem zero (secure : Secure sb ends v lent d) (below : b < ends)
    (free : marked sb d.disk b = false) : d.disk b = Bytes.fill 0 := by
  have above : sb.dataStart ≤ b := by
    by_contra low
    rw [secure.owning.owns.ledger.reserved b (Nat.not_le.mp low)] at free
    exact nomatch free
  rw [← secure.owning.block above]
  exact secure.blank b above below free

/-- What has been taken is zero. -/
theorem taken (secure : Secure sb ends v lent d) (fresh : Fresh limits sb ends d f a) :
    markBlock sb d.disk a a = Bytes.fill 0 := by
  have bitmap := (BBLOCK_bounds (Nat.lt_of_lt_of_le fresh.upper secure.owning.scans)).2
  have lower := fresh.lower
  unfold markBlock
  rw [Function.update_of_ne (show a ≠ BBLOCK a sb.ninodes by omega)]
  exact secure.zero fresh.upper fresh.free

/-- A new indirect block gets one entry. -/
theorem newIndirect_wp (secure : Secure sb ends v ∅ d)
    (allowed : escape (.panic .ballocOutOfBlocks)) (active : (d.mem.icache ip).Active)
    (empty : (d.mem.icache ip).copy.addrs NDIRECT = 0) (below : k < NINDIRECT) : (do
      let addr <- ensureAddr ip NDIRECT
      ensureEntry addr k : Fs Nat).wp (withRoom sb ends)
        (fun _ e => FreshIndirect e.disk e.mem ip k) escape d := by
  have space : (∅ : Finset Nat).card + 3 < (withRoom sb ends).capacity :=
    Secure.space (Nat.zero_le 3)
  refine wp_seq (secure.owning.ensureAddr_wp space (secure.ample allowed) (Nat.le_refl _)) ?_
  rintro ind e (⟨present, nonnull, _⟩ | ⟨_, f, fresh, rfl⟩)
  · exact absurd (present.symm.trans empty) nonnull
  · have taken := secure.taken fresh
    have large := dataStart_large sb
    have nonnull : ind ≠ 0 := by
      have lower := fresh.lower
      omega
    have zeros : v.block ind = Bytes.fill 0 := by
      rw [secure.owning.block fresh.lower]
      exact secure.zero fresh.upper fresh.free
    have stored := secure.owning.storeAddr active (Nat.le_refl _) empty fresh (fun _ => zeros)
    have isIndirect : ((addrStored d ip NDIRECT ind f).mem.icache ip).copy.addrs NDIRECT = ind := by
      show ((d.mem.adjust ip _).icache ip).copy.addrs NDIRECT = ind
      rw [Kernel.adjust_self]
      exact Dinode.setAddr_self _ _ _
    have activeNow : ((addrStored d ip NDIRECT ind f).mem.icache ip).Active := by
      show ((d.mem.adjust ip _).icache ip).Active
      rw [Kernel.adjust_self]
      exact active
    have block : (addrStored d ip NDIRECT ind f).disk ind = Bytes.fill 0 :=
      (congrFun (addrStored_disk fresh) ind).trans taken
    have room : Roomy sb ends (marked sb (addrStored d ip NDIRECT ind f).disk) := by
      rw [addrStored_disk fresh]
      have roomy := fresh.roomy
      rw [fresh.taken] at roomy
      exact roomy
    have ample : Ample sb ends escape (marked sb (addrStored d ip NDIRECT ind f).disk) :=
      room.imp id (fun whole => ⟨whole, allowed⟩)
    have kept := stored.1.copy activeNow
    generalize addrStored d ip NDIRECT ind f = g at stored isIndirect activeNow block ample kept
    refine wp_mono (stored.1.ensureEntry_wp space ample
      ((congrArg (fun c => Dinode.addrs c NDIRECT) kept).trans isIndirect) nonnull
      (Finset.notMem_empty ind) below) ?_ (fun _ stopped => stopped)
    rintro a h (⟨present, nonnullToo, _⟩ | ⟨_, ⟨f', freshToo, rfl⟩, _⟩)
    · rw [block, Bytes.word_fill_zero] at present
      exact absurd present.symm nonnullToo
    · intro other different
      have mem : (entryStored g ind k a f').mem = g.mem := by
        rw [entryStored, freshToo.taken]
        rfl
      rw [mem, isIndirect, entryStored_disk freshToo, Function.update_self, block,
        Bytes.word_setWord_of_ne _ _ different, Bytes.word_fill_zero]

theorem bmap_newIndirect_wp (secure : Secure sb ends v ∅ d) (tolerates : Tolerates escape)
    (active : (d.mem.icache ip).Active) (empty : (d.mem.icache ip).copy.addrs NDIRECT = 0)
    (beyond : NDIRECT ≤ bn) :
    (bmap ip bn).wp (withRoom sb ends) (fun _ e => FreshIndirect e.disk e.mem ip (bn - NDIRECT))
      escape d := by
  unfold bmap
  rw [if_neg (Nat.not_lt.mpr beyond)]
  by_cases below : bn - NDIRECT < NINDIRECT
  · rw [if_pos below]
    exact secure.newIndirect_wp (tolerates _ (by decide)) active empty below
  · rw [if_neg below]
    exact wp_stop (tolerates _ (by decide))

theorem mbmap_newIndirect_wp (secure : Secure sb ends v ∅ d) (tolerates : Tolerates escape)
    (active : (d.mem.icache ip).Active) (empty : (d.mem.icache ip).copy.addrs NDIRECT = 0)
    (beyond : NDIRECT ≤ bn) (small : mbn < 3) (inside : bn + mbn < MAXFILE) :
    (mbmap ip bn mbn).wp (withRoom sb ends)
      (fun _ e => FreshIndirect e.disk e.mem ip (bn - NDIRECT + mbn)) escape d := by
  have whole : MAXFILE = NDIRECT + NINDIRECT := rfl
  unfold mbmap
  rw [if_neg (Nat.not_lt.mpr beyond), if_pos (show bn - NDIRECT < NINDIRECT by omega)]
  simp only [if_pos (Nat.le_of_lt_succ small)]
  exact secure.newIndirect_wp (tolerates _ (by decide)) active empty (by omega)

end Secure

end Taking

/-! ## Between two calls -/

section Sessions

variable {sb : Superblock} {tidy : Prop} {v : Volume} {d : Device BSIZE Kernel} {s : Store Kernel}
  {c : Dinode} {devsw : Devsw} {final : Image} {root : Listing}

open BlockProgram

/-- The inodes as the kernel has them are those of the live volume. -/
theorem Live.current (live : Live sb d v) (shows : Shows s d) (current : IsCurrent sb s c) :
    Exists fun i => v.inode i = c := by
  unfold IsCurrent at current
  rw [shows.mem, shows.disk] at current
  rcases current with ⟨ip, active, rfl⟩ | ⟨inum, below, rfl, others⟩
  · exact ⟨_, live.cached ip active⟩
  · exact ⟨inum, (live.others inum others).trans (Superblock.inode_below below)⟩

/-- There is nothing behind the end of a directory in the blocks that it has. -/
theorem Settled.behind (settled : Settled sb tidy v d) {i x : Nat}
    (directory : (v.inode i).type = T_DIR) (behind : (v.inode i).logical_size ≤ x)
    (some_ : addressOf d.disk (v.inode i) (x / BSIZE) ≠ 0) : fileByte d.disk (v.inode i) x = 0 := by
  have owning := settled.secure.owning
  have address := owning.live.address owning.owns i (x / BSIZE)
  have zero := (settled.proper.listed i directory).zeros x behind
  rw [address] at some_
  have above := (owning.owns.above rfl some_).1
  unfold fileByte
  rw [address, ← owning.block above]
  unfold Volume.byte Volume.content at zero
  rw [if_neg some_] at zero
  exact zero

theorem InOrder.freeBlocksZero {refs : Nat -> Nat} (order : InOrder sb tidy refs ∅ d)
    (shows : Shows s d) : FreeBlocksZero sb s := by
  rcases order.settled with ⟨v, settled⟩
  have secure := settled.secure
  have tolerates : Tolerates fun _ => True := fun _ _ => trivial
  refine ⟨fun b below free => ?_, fun b t ended => ?_,
    fun ip bn a t active empty beyond roomy ended => ?_,
    fun ip bn mbn a t active empty beyond small inside roomy ended => ?_,
    fun c x current directory behind some_ => ?_⟩
  · rw [shows.disk] at free ⊢
    exact secure.zero below
      ((used_of_marked (Nat.lt_of_lt_of_le below secure.owning.scans)).trans free)
  · have terms : Terms ⟨NBUF, fun _ => True⟩ sb sb.size (fun _ => True) (fun _ _ => False) :=
      secure.owning.terms (by decide)
    have idle : d.busy < NBUF := by
      rw [order.idle]
      decide
    have took := balloc_fresh terms secure.owning.isSuper
        (fun sector low => secure.owning.resting_low low) idle secure.owning.owns.ledger.reserved
        (secure.ample trivial)
    rcases Program.post_of_done (exec_sound shows (throughout_true _ _) took) ended with
      ⟨e, shown, fresh⟩
    rw [shown.disk, fresh.taken]
    exact secure.taken fresh
  · rw [shows.mem] at active empty
    rcases Program.post_of_done
      (exec_sound shows roomy (secure.bmap_newIndirect_wp tolerates active empty beyond)) ended with
      ⟨e, shown, only⟩
    rw [shown.disk, shown.mem]
    exact only
  · rw [shows.mem] at active empty
    rcases Program.post_of_done (exec_sound shows roomy
      (secure.mbmap_newIndirect_wp tolerates active empty beyond small inside)) ended with
      ⟨e, shown, only⟩
    rw [shown.disk, shown.mem]
    exact only
  · rcases secure.owning.live.current shows current with ⟨i, rfl⟩
    rw [shows.disk] at some_ ⊢
    exact settled.behind directory behind some_

/-- The kernel is in order when it has booted with an image of `mkfs`. -/
theorem booted_served (built : mkfsMain root = some final)
    (few : root.inodes + 1 < imageSuperblock.ninodes)
    (notFull : NotFull imageSuperblock final.disk) :
    (booted final.disk).Served imageSuperblock False := by
  exact ⟨_, shows_binit _ _, mkfs_inOrder built few notFull.roomy (fun _ => rfl),
    fun _ member => nomatch member⟩

/-- Free blocks are zero after every sequence of system calls on an image of `mkfs`, as long
as the disk does not fill up and mirrored files stay within 46 blocks. -/
theorem free_blocks_zero {s : Session} (built : mkfsMain root = some final)
    (few : root.inodes + 1 < imageSuperblock.ninodes) (notFull : NotFull imageSuperblock final.disk)
    (reached : Reachable (Session.next devsw) (fun s => s = booted final.disk)
      (Allowed imageSuperblock devsw) s) : FreeBlocksZero imageSuperblock s.store := by
  have served : s.Served imageSuperblock False := by
    refine served_reached (fun s start => ?_) reached
    rw [start]
    exact booted_served built few notFull
  rcases served with ⟨d, shows, served⟩
  exact served.order.freeBlocksZero shows

/-- An image has a free block if the builder has not come to the end. -/
theorem Image.Finished.notFull (finished : final.Finished)
    (room : final.freeblock < imageSuperblock.size) : NotFull imageSuperblock final.disk := by
  have low : final.freeblock < scanned imageSuperblock :=
    Nat.lt_of_lt_of_le room (size_le_scanned _)
  refine ⟨final.freeblock, room, ?_⟩
  rw [← used_of_marked low, finished.marked low]
  exact decide_eq_false (Nat.lt_irrefl _)

/-- The block of a root directory without files. -/
def dotsBlock : Block :=
  (Bytes.fill 0 : Block).splice 0 32 (fun i =>
    if i = 0 ∨ i = 16 then 1 else if i = 2 ∨ i = 18 ∨ i = 19 then 46 else 0)

/-- An image without files, with the block of its root directory written out. -/
def withDots (disk : Nat -> Block) (sector : Nat) : Block :=
  if sector = 29 then dotsBlock else disk sector

theorem mkfsMain_done : Exists fun final => mkfsMain .done = some final ∧
    withDots final.disk = final.disk ∧ used imageSuperblock final.disk 1000 = false := by
  have known : (mkfsMain .done).map (fun img =>
      ((List.range BSIZE).all (fun i => (img.disk 29).get i == dotsBlock.get i),
        used imageSuperblock img.disk 1000)) = some (true, false) := by
    decide +kernel
  rcases Option.map_eq_some_iff.mp known with ⟨final, built, observed⟩
  rcases Prod.mk.inj observed with ⟨bytes, free⟩
  refine ⟨final, built, funext (fun sector => ?_), free⟩
  unfold withDots
  split
  · rename_i here
    rw [here]
    refine (Bytes.ext_get (fun i below => ?_)).symm
    exact eq_of_beq (List.all_eq_true.mp bytes i (List.mem_range.mpr below))
  · rfl

/-- A process makes the file `x` and writes two bytes to it. -/
def createAndWrite : List CallEvent :=
  [(.userinit, fun _ _ => 0), (.openFile 0 [120] (O_CREATE ||| O_RDWR) true, fun _ _ => 0),
    (.write 0 [65, 66], fun _ _ => 0)]

/-- It closes the file and removes it. -/
def closeAndRemove : List CallEvent := [(.close 0, fun _ _ => 0), (.unlink 0 [120], fun _ _ => 0)]

/-- The block 30 is allocated for the file and freed again. -/
theorem free_blocks_zero_removed : Exists fun final => Exists fun s => Exists fun t =>
    mkfsMain .done = some final ∧
    run (Session.next noDevices) (booted final.disk) createAndWrite = some s ∧
    used imageSuperblock s.store.disk 30 = true ∧
    run (Session.next noDevices) s closeAndRemove = some t ∧
    used imageSuperblock t.store.disk 30 = false ∧
    FreeBlocksZero imageSuperblock s.store ∧ FreeBlocksZero imageSuperblock t.store := by
  have known : (mkfsMain .done).bind (fun img =>
      (run (Session.tested imageSuperblock 1000 noDevices) (booted (withDots img.disk))
        createAndWrite).bind (fun s =>
        (run (Session.tested imageSuperblock 1000 noDevices) s closeAndRemove).map (fun t =>
          (used imageSuperblock s.store.disk 30, used imageSuperblock t.store.disk 30)))) =
      some (true, false) := by
    decide +kernel
  rcases mkfsMain_done with ⟨final, built, same, free⟩
  rcases Option.bind_eq_some_iff.mp known with ⟨img, isImage, known⟩
  rw [← Option.some.inj (built.symm.trans isImage), same] at known
  rcases Option.bind_eq_some_iff.mp known with ⟨s, first, known⟩
  rcases Option.map_eq_some_iff.mp known with ⟨t, second, observed⟩
  rcases Prod.mk.inj observed with ⟨allocated, freed⟩
  have few : Listing.done.inodes + 1 < imageSuperblock.ninodes := by decide
  have notFull : NotFull imageSuperblock final.disk := ⟨1000, by decide, free⟩
  have sound := fun s event t => @Session.tested_sound imageSuperblock 1000 noDevices s t event
  have started : Reachable (Session.next noDevices) (fun s => s = booted final.disk)
      (Allowed imageSuperblock noDevices) (booted final.disk) := .start rfl
  have reached := started.run_checked sound first
  exact ⟨final, s, t, built, run_of_checked sound first, allocated, run_of_checked sound second,
    freed, free_blocks_zero built few notFull reached,
    free_blocks_zero built few notFull (reached.run_checked sound second)⟩

end Sessions

end TripleFs
end OsProjects
