import OsProjects.TripleFs.FreeBlocks

namespace OsProjects
namespace TripleFs

open Machine

/-!
# What a check of the disk finds

Nothing in the invariant of the kernel is lost when the machine is switched off between two
calls: the disk by itself says which blocks belong to which file.  So a disk on which the
kernel may start is such a disk after every sequence of calls and restarts.

A disk is clean if moreover no file has holes and no block has been lost.  Calls keep the
disk clean, and for a clean disk what the kernel sees is exactly what is on the disk.
-/

/-- The kernel may start on the disk: blocks belong to one slot at most, free blocks are
zero, and directories name inodes that the disk has room for. -/
structure Bootable (sb : Superblock) (disk : Nat -> Block) : Prop where
  isSuper : superblock (disk 1) = sb
  root : ROOTINO < sb.ninodes
  owns : (sb.volume disk).Owns sb sb.size (marked sb disk)
  blank : (sb.volume disk).Blank sb sb.size (marked sb disk)
  proper : Proper sb (sb.volume disk)

/-- Files have no holes, and every data block in use belongs to a file. -/
structure CleanDisk (sb : Superblock) (disk : Nat -> Block) : Prop extends Bootable sb disk where
  whole : forall i, Covers (sb.volume disk) i 0 ((sb.volume disk).inode i).logical_size
    (copiesOf ((sb.volume disk).inode i).type)
  complete : Ledger.Complete sb.dataStart sb.size (sb.volume disk).slot (marked sb disk)
  unused : forall i, ((sb.volume disk).inode i).type = 0 -> forall m,
    (sb.volume disk).slot (i, m) = 0

/-- A call, or the machine is switched off and on again. -/
def Session.nextOrRestart (devsw : Devsw) (s : Session) : Option CallEvent -> Option Session
  | none => some (booted s.store.disk)
  | some event => s.next devsw event

/-- The disk is not full at a restart, and does not fill up during a call. -/
def AllowedOrRestart (sb : Superblock) (devsw : Devsw) (s : Session) : Option CallEvent -> Prop
  | none => NotFull sb s.store.disk
  | some event => Allowed sb devsw s event

/-- The session after an event that is allowed because the block `b` is and stays free. -/
def Session.testedOrRestart (sb : Superblock) (b : Nat) (devsw : Devsw) (s : Session) :
    Option CallEvent -> Option Session
  | none =>
      if b < sb.size ∧ used sb s.store.disk b = false then some (booted s.store.disk) else none
  | some event => s.tested sb b devsw event

theorem Session.testedOrRestart_sound {sb : Superblock} {b : Nat} {devsw : Devsw} {s t : Session}
    {event : Option CallEvent} (stepped : s.testedOrRestart sb b devsw event = some t) :
    AllowedOrRestart sb devsw s event ∧ s.nextOrRestart devsw event = some t := by
  cases event with
  | none =>
      by_cases free : b < sb.size ∧ used sb s.store.disk b = false
      · rw [Session.testedOrRestart, if_pos free] at stepped
        exact ⟨⟨b, free⟩, stepped⟩
      · rw [Session.testedOrRestart, if_neg free] at stepped
        exact nomatch stepped
  | some event => exact Session.tested_sound stepped

/-! ## Between the disk and the kernel -/

section Starting

variable {sb : Superblock} {tidy : Prop} {v : Volume} {refs : Nat -> Nat} {disk : Nat -> Block}
  {d : Device BSIZE Kernel} {s t : Session} {devsw : Devsw}

/-- The kernel has the volume on the disk before it has read an inode. -/
theorem live_unread {k : Kernel} (unused : forall ip, (k.icache ip).ref = 0) :
    Live sb (fresh disk k) (sb.volume disk) := by
  refine ⟨fun ip active => ?_, fun _ _ => rfl, rfl⟩
  have referred : 0 < (k.icache ip).ref := active.1
  rw [unused ip] at referred
  exact absurd referred (Nat.lt_irrefl 0)

theorem Bootable.settled (bootable : Bootable sb disk) (notFull : NotFull sb disk)
    (neat : tidy -> CleanDisk sb disk) {k : Kernel} (unused : forall ip, (k.icache ip).ref = 0) :
    Settled sb tidy (sb.volume disk) (fresh disk k) := by
  have none_ : forall ip, ¬ 0 < (k.icache ip).ref := fun ip referred => by
    have idle := unused ip
    omega
  have lends : Lends sb ((sb.volume disk).Loose sb (marked sb disk)) ∅ (fresh disk k) :=
    ⟨fun s => iff_of_false (fun held => held rfl) (Finset.notMem_empty s), rfl,
      fun s inside => absurd inside (Finset.notMem_empty s), fun _ _ => rfl⟩
  have owning : Owning sb sb.size (sb.volume disk) ∅ (fresh disk k) :=
    ⟨bootable.isSuper, size_le_scanned sb, live_unread unused, fun ip _ referred => absurd referred
      (none_ ip), fun ip referred => absurd referred (none_ ip), bootable.owns, lends⟩
  refine ⟨⟨owning, bootable.blank, notFull.roomy,
    fun s inside => absurd inside (Finset.notMem_empty s)⟩, ⟨fun _ => rfl, fun _ _ _ _ => rfl⟩,
    bootable.proper, bootable.root, fun isTidy => ?_⟩
  have clean := neat isTidy
  exact ⟨rfl, clean.whole, clean.complete, clean.unused⟩

/-- A kernel that has booted is in order. -/
theorem Bootable.served (bootable : Bootable sb disk) (notFull : NotFull sb disk)
    (neat : tidy -> CleanDisk sb disk) : (booted disk).Served sb tidy := by
  have settled := bootable.settled notFull neat (k := (started disk).mem) (fun _ => rfl)
  refine ⟨_, shows_binit _ _, ⟨⟨_, settled⟩, ?_⟩, fun _ member => nomatch member⟩
  exact ⟨fun _ => rfl, fun ip referred => absurd referred (Nat.lt_irrefl 0),
    fun ip => iff_of_false (Finset.notMem_empty ip) (fun both => absurd both.1 (Nat.lt_irrefl 0)),
    fun ip active => absurd active.1 (Nat.lt_irrefl 0)⟩

/-- If the kernel forgets what it has read, it sees what is on the disk. -/
theorem Settled.unread (settled : Settled sb tidy v d) :
    Settled sb tidy (sb.volume d.disk) (d.withMem (started d.disk).mem) := by
  have idle : forall ip, ¬ ((started d.disk).mem.icache ip).Active :=
    fun ip active => absurd active.1 (Nat.lt_irrefl 0)
  have none_ : forall ip, ¬ 0 < ((started d.disk).mem.icache ip).ref := fun ip => Nat.lt_irrefl 0
  rcases settled.recache (fun ip active => absurd active (idle ip)) (fun ip _ referred =>
    absurd referred (none_ ip)) (fun ip referred => absurd referred (none_ ip)) with ⟨w, unread⟩
  have live := unread.secure.owning.live
  have same : w = sb.volume d.disk := Volume.ext
      (funext fun i => live.others i (fun ip active => absurd active (idle ip))) live.blocks
  rw [← same]
  exact unread

theorem InOrder.bootable {locked : Finset Nat} (order : InOrder sb tidy refs locked d) :
    Bootable sb d.disk := by
  rcases order.settled with ⟨v, settled⟩
  have unread := settled.unread
  exact ⟨order.isSuper, order.root, unread.secure.owning.owns, unread.secure.blank, unread.proper⟩

theorem InOrder.clean {locked : Finset Nat} (order : InOrder sb True refs locked d) :
    CleanDisk sb d.disk := by
  rcases order.settled with ⟨v, settled⟩
  have neat := settled.unread.neat trivial
  exact ⟨order.bootable, neat.whole, neat.complete, neat.unused⟩

theorem Session.Served.bootable (served : s.Served sb tidy) : Bootable sb s.store.disk := by
  rcases served with ⟨d, shows, served⟩
  rw [shows.disk]
  exact served.order.bootable

theorem Session.Served.clean (served : s.Served sb True) : CleanDisk sb s.store.disk := by
  rcases served with ⟨d, shows, served⟩
  rw [shows.disk]
  exact served.order.clean

/-- Calls and restarts leave the kernel in order. -/
theorem Session.Served.nextOrRestart {event : Option CallEvent} (served : s.Served sb tidy)
    (neat : tidy -> tidy = True) (allowed : AllowedOrRestart sb devsw s event)
    (stepped : s.nextOrRestart devsw event = some t) : t.Served sb tidy := by
  cases event with
  | none =>
      rw [← Option.some.inj stepped]
      refine served.bootable.served allowed (fun isTidy => ?_)
      rw [neat isTidy] at served
      exact served.clean
  | some event => exact served.next allowed stepped

theorem served_restarted {start : Session -> Prop} (neat : tidy -> tidy = True)
    (initially : forall s, start s -> s.Served sb tidy)
    (reached : Reachable (Session.nextOrRestart devsw) start (AllowedOrRestart sb devsw) s) :
    s.Served sb tidy :=
  reached.invariant initially
    (fun _ _ _ served allowed stepped => served.nextOrRestart neat allowed stepped)

end Starting

/-! ## A disk with a root directory -/

section Root

/-- A disk of 200 blocks with seven unused inodes and an empty root directory. -/
def rootDisk : Nat -> Block :=
  Function.update (bareDisk 31 (Bytes.fill 0)) 2 (putDinode 1 (noBlocks T_DIR) (Bytes.fill 0))

theorem volume_rootDisk : blankSuper.volume rootDisk =
    (⟨fun _ => Dinode.blank, fun _ => Bytes.fill 0⟩ : Volume).setInode 1 (noBlocks T_DIR) := by
  have stored := @Superblock.volume_putDinode blankSuper (bareDisk 31 (Bytes.fill 0)) 1
      (noBlocks T_DIR) (by decide) (noBlocks_fits (by decide))
  rw [volume_bareDisk] at stored
  refine Eq.trans stored ?_
  congr 1
  exact congrArg _ (funext fun b => ite_self _)

theorem marked_rootDisk {b : Nat} (low : b < scanned blankSuper) :
    marked blankSuper rootDisk b = decide (b < 5) := by
  have known : forall b, b < 8 -> (31 : UInt8).toNat.testBit b = decide (b < 5) := by decide
  rw [← @marked_bare 31 (Bytes.fill 0) 5 known (by decide) b low, used_of_marked low,
    used_of_marked low]
  have small : b < BPB := low
  have place : BBLOCK b blankSuper.ninodes = 4 := by
    unfold BBLOCK
    rw [Nat.div_eq_of_lt small]
    rfl
  unfold used
  rw [place]
  rfl

theorem notFull_rootDisk : NotFull blankSuper rootDisk := by
  have low : 5 < scanned blankSuper := by decide
  refine ⟨5, by decide, ?_⟩
  rw [← used_of_marked low, marked_rootDisk low]
  rfl

theorem slot_rootDisk (s : Nat × Nat) : (blankSuper.volume rootDisk).slot s = 0 := by
  have unused : (⟨fun _ => Dinode.blank, fun _ => Bytes.fill 0⟩ : Volume).slot s = 0 := by
    unfold Volume.slot
    split
    · rfl
    · exact if_pos rfl
  rw [volume_rootDisk, Volume.slot_setInode_fresh rfl]
  split
  · rfl
  · exact unused

/-- The disk is clean: its only file is the empty root directory. -/
theorem cleanDisk_rootDisk : CleanDisk blankSuper rootDisk := by
  have scans : blankSuper.size ≤ scanned blankSuper := size_le_scanned _
  have start : blankSuper.dataStart = 5 := rfl
  have five : 5 < scanned blankSuper := by decide
  have inode : forall i, (blankSuper.volume rootDisk).inode i = if i = 1 then noBlocks T_DIR
      else Dinode.blank := by
    intro i
    rw [volume_rootDisk]
    split
    · rename_i here
      rw [here]
      exact Volume.inode_setInode_self _
    · rename_i other
      exact Volume.inode_setInode_of_ne _ other
  have fits : forall i, ((blankSuper.volume rootDisk).inode i).Fits := by
    intro i
    rw [inode]
    split
    · exact noBlocks_fits (by decide)
    · exact ⟨by decide, by decide, by decide, by decide, by decide, fun _ => Nat.two_pow_pos 32,
        fun _ _ => rfl⟩
  have zero : forall i x, (blankSuper.volume rootDisk).byte i x = 0 := by
    intro i x
    unfold Volume.byte Volume.content
    rw [if_pos (slot_rootDisk _)]
    exact Bytes.get_fill 0 (Nat.mod_lt x (by decide))
  have empty : forall i, ((blankSuper.volume rootDisk).inode i).logical_size = 0 := by
    intro i
    rw [inode]
    split
    · rfl
    · rfl
  refine ⟨⟨superblock_blankDisk, by decide,
    ⟨⟨fun b before => ?_, fun s stored => absurd (slot_rootDisk s) stored, fun s t stored =>
    absurd (slot_rootDisk s) stored, fun _ _ _ _ => rfl⟩, fits⟩, fun b above below free => ?_,
    ⟨fun i directory => ⟨fun x _ => zero i x, fun k => ?_⟩, fun i mirrored => ?_⟩⟩,
    fun i x _ below => ?_, fun b above below inUse => ?_, fun i _ m => slot_rootDisk (i, m)⟩
  · rw [marked_rootDisk (by omega)]
    exact decide_eq_true before
  · rw [volume_rootDisk]
    rfl
  · rw [inumOf, zero, zero]
    decide
  · rw [empty]
    exact Nat.zero_le _
  · rw [empty] at below
    exact absurd below (Nat.not_lt_zero x)
  · rw [marked_rootDisk (by omega)] at inUse
    have before := of_decide_eq_true inUse
    omega

/-- The process closes the file; then the machine is switched off and on again, and the file is
removed. -/
def restartAndRemove : List (Option CallEvent) :=
  [some (.close 0, fun _ _ => 0), none, some (.userinit, fun _ _ => 0),
    some (.unlink 0 [120], fun _ _ => 0)]

/-- Two sessions on this disk: in the first one the file `x` has been written and is open, and
its block is block 6; in the second one it has been removed after a restart. -/
structure RootRun (s t : Session) : Prop where
  first : run (Session.nextOrRestart noDevices) (booted rootDisk) (createAndWrite.map some) = some s
  allocated : used blankSuper s.store.disk 6 = true
  opened : s.tables.files.length = 1
  second : run (Session.nextOrRestart noDevices) s restartAndRemove = some t
  freed : used blankSuper t.store.disk 6 = false

theorem rootRun : Exists fun s => Exists fun t => RootRun s t ∧
    Reachable (Session.nextOrRestart noDevices) (fun s => s = booted rootDisk)
      (AllowedOrRestart blankSuper noDevices) s ∧
    Reachable (Session.nextOrRestart noDevices) (fun s => s = booted rootDisk)
      (AllowedOrRestart blankSuper noDevices) t ∧
    Allowed blankSuper noDevices s (.close 0, fun _ _ => 0) := by
  have known : (run (Session.testedOrRestart blankSuper 150 noDevices) (booted rootDisk)
      (createAndWrite.map some)).bind (fun s =>
        (run (Session.testedOrRestart blankSuper 150 noDevices) s restartAndRemove).map (fun t =>
          (used blankSuper s.store.disk 6, s.tables.files.length,
            used blankSuper t.store.disk 6))) =
      some (true, 1, false) := by
    decide +kernel
  rcases Option.bind_eq_some_iff.mp known with ⟨s, first, known⟩
  rcases Option.map_eq_some_iff.mp known with ⟨t, second, observed⟩
  rcases Prod.mk.inj observed with ⟨allocated, rest⟩
  rcases Prod.mk.inj rest with ⟨opened, freed⟩
  have sound := fun s event t => @Session.testedOrRestart_sound blankSuper 150 noDevices s t event
  have started : Reachable (Session.nextOrRestart noDevices) (fun s => s = booted rootDisk)
      (AllowedOrRestart blankSuper noDevices) (booted rootDisk) := .start rfl
  have reached := started.run_checked sound first
  rcases run_cons_eq_some.mp second with ⟨closed, closes, _⟩
  exact ⟨s, t, ⟨run_of_checked sound first, allocated, opened, run_of_checked sound second, freed⟩,
    reached, reached.run_checked sound second, (sound s _ closed closes).1⟩

end Root

/-! ## Runs -/

section Runs

variable {sb : Superblock} {disk : Nat -> Block} {devsw : Devsw} {s : Session} {final : Image}
  {root : Listing}

/-- The image of a directory tree is such a disk. -/
theorem mkfsMain_bootable (built : mkfsMain root = some final)
    (few : root.inodes + 1 < imageSuperblock.ninodes)
    (notFull : NotFull imageSuperblock final.disk) : Bootable imageSuperblock final.disk :=
  (booted_served built few notFull).bootable

theorem mkfsMain_bootable_threeFiles : Exists fun final => mkfsMain (emptyFiles 3) = some final ∧
    Bootable imageSuperblock final.disk := by
  rcases mkfsMain_emptyFiles_room (show 3 + 1 ≤ imageSuperblock.ninodes by decide) with
    ⟨final, built, room⟩
  have few : (emptyFiles 3).inodes + 1 < imageSuperblock.ninodes := by decide
  exact ⟨final, built, mkfsMain_bootable built few ((mkfsMain_finished built few).notFull room)⟩

theorem Bootable.reached (bootable : Bootable sb disk) (notFull : NotFull sb disk)
    (reached : Reachable (Session.nextOrRestart devsw) (fun s => s = booted disk)
      (AllowedOrRestart sb devsw) s) : s.Served sb False := by
  refine served_restarted False.elim (fun s start => ?_) reached
  rw [start]
  exact bootable.served notFull False.elim

/-- The kernel may be started again after every sequence of calls and restarts. -/
theorem disk_stays_bootable (bootable : Bootable sb disk) (notFull : NotFull sb disk)
    (reached : Reachable (Session.nextOrRestart devsw) (fun s => s = booted disk)
      (AllowedOrRestart sb devsw) s) : Bootable sb s.store.disk := by
  exact (bootable.reached notFull reached).bootable

theorem disk_stays_bootable_rootDisk : Exists fun s => Exists fun t => RootRun s t ∧
    Bootable blankSuper s.store.disk ∧ Bootable blankSuper t.store.disk := by
  rcases rootRun with ⟨s, t, runs, first, second, _⟩
  exact ⟨s, t, runs, disk_stays_bootable cleanDisk_rootDisk.toBootable notFull_rootDisk first,
    disk_stays_bootable cleanDisk_rootDisk.toBootable notFull_rootDisk second⟩

/-- A clean disk is clean after every sequence of calls and restarts. -/
theorem disk_stays_clean (clean : CleanDisk sb disk) (notFull : NotFull sb disk)
    (reached : Reachable (Session.nextOrRestart devsw) (fun s => s = booted disk)
      (AllowedOrRestart sb devsw) s) : CleanDisk sb s.store.disk := by
  have served : s.Served sb True := by
    refine served_restarted (fun _ => rfl) (fun s start => ?_) reached
    rw [start]
    exact clean.served notFull (fun _ => clean)
  exact served.clean

theorem disk_stays_clean_rootDisk : Exists fun s => Exists fun t => RootRun s t ∧
    CleanDisk blankSuper s.store.disk ∧ CleanDisk blankSuper t.store.disk := by
  rcases rootRun with ⟨s, t, runs, first, second, _⟩
  exact ⟨s, t, runs, disk_stays_clean cleanDisk_rootDisk notFull_rootDisk first,
    disk_stays_clean cleanDisk_rootDisk notFull_rootDisk second⟩

/-- The references of the cache of inodes are those of the open files and of the current
directories. -/
structure Balanced (s : Session) : Prop where
  counts : forall ip, (s.store.mem.icache ip).ref =
    (s.tables.files.map File.ip).count ip + s.tables.cwds.count ip
  places : forall ip, 0 < (s.store.mem.icache ip).ref -> ip < NINODE
  unlocked : forall ip, 0 < (s.store.mem.icache ip).ref -> (s.store.mem.icache ip).busy = false
  apart : s.store.mem.Apart
  idle : forall b, b ∈ s.store.bufs -> b.busy = false

theorem Session.Served.balanced {tidy : Prop} (served : s.Served sb tidy) : Balanced s := by
  rcases served with ⟨d, shows, served⟩
  have order := served.order
  have counted := order.counted
  rcases order.settled with ⟨v, settled⟩
  refine ⟨fun ip => ?_, fun ip referred => ?_, fun ip referred => ?_, ?_, fun b inside => ?_⟩
  · rw [shows.mem, counted.counts ip]
    exact List.count_append
  · rw [shows.mem, order.referred] at referred
    exact counted.places ip referred
  · rw [shows.mem] at referred ⊢
    have locks := counted.locks ip
    refine Bool.eq_false_iff.mpr (fun busy => ?_)
    exact absurd (locks.mpr ⟨order.referred.mp referred, busy⟩) (Finset.notMem_empty ip)
  · rw [shows.mem]
    exact settled.secure.owning.apart
  · refine Bool.eq_false_iff.mpr (fun busy => ?_)
    have held := (shows.bufs.held b inside busy).2
    have lent := (settled.secure.owning.lends.held b.sector).mp
        (by rw [held]; exact Option.some_ne_none _)
    exact absurd lent (Finset.notMem_empty b.sector)

/-- References balance after every sequence of calls and restarts. -/
theorem references_balance (bootable : Bootable sb disk) (notFull : NotFull sb disk)
    (reached : Reachable (Session.nextOrRestart devsw) (fun s => s = booted disk)
      (AllowedOrRestart sb devsw) s) : Balanced s := by
  exact (bootable.reached notFull reached).balanced

theorem references_balance_rootDisk : Exists fun s => Exists fun t => RootRun s t ∧
    Balanced s ∧ Balanced t := by
  rcases rootRun with ⟨s, t, runs, first, second, _⟩
  exact ⟨s, t, runs, references_balance cleanDisk_rootDisk.toBootable notFull_rootDisk first,
    references_balance cleanDisk_rootDisk.toBootable notFull_rootDisk second⟩

end Runs

end TripleFs
end OsProjects
