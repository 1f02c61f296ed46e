import OsProjects.TripleFs.HostDirectories
import OsProjects.TripleFs.KernelOrder

namespace OsProjects
namespace TripleFs

open Machine

/-!
# An image of `mkfs` is in order

A kernel that has an image of `mkfs` and has not read an inode yet is in order.  The
inodes that have not been handed out have the type zero, and the blocks that have not been
handed out are zero because the image file has been zeroed first.
-/

section Unused

variable {img next final : Image} {root : Listing} {i bound : Nat}

theorem mkfs_type (i : Nat) : (Image.mkfs.volume.inode i).type = 0 := by
  have notFirst : IBLOCK i ≠ 1 := Nat.ne_of_gt (Nat.lt_add_left _ (Nat.lt_succ_self 1))
  have zeros : Image.mkfs.disk (IBLOCK i) = Bytes.fill 0 := by
    simp only [Image.mkfs, Function.update_of_ne notFirst]
  show (if i < imageSuperblock.ninodes then _ else _ : Dinode).type = 0
  split
  · rw [zeros]
    unfold getDinode
    dsimp only
    rw [Bytes.number_fill_zero]
  · rfl

/-- Steps leave alone the inodes that are handed out later. -/
theorem runOnFile_later (steps : List ImageStep) :
    forall {img next : Image}, runOnFile steps img = some next -> img.Ready ->
      (forall step, step ∈ steps -> forall inum, step.target = some inum -> inum < bound) ->
      (forall step, step ∈ steps -> forall type, step = .ialloc type -> type < 2 ^ 16) ->
      next.freeinode ≤ bound -> bound ≤ imageSuperblock.ninodes -> bound ≤ i ->
      Steady i img next := by
  induction steps with
  | nil =>
      intro img next ran _ _ _ _ _ _
      rw [← Option.some.inj ran]
      exact Steady.refl i img
  | cons step rest ih =>
      intro img next ran ready targets types few inside later
      rw [runOnFile_cons] at ran
      rcases Option.bind_eq_some_iff.mp ran with ⟨middle, first, others⟩
      have here : step ∈ step :: rest := List.mem_cons_self
      have counts :=
        (runSteps_counters rest (runOnFile_runSteps rest others (onFile_free first ready.few)).1).2
      have one : middle.Ready ∧ Steady i img middle := by
        cases step with
        | ialloc type =>
            have number := (ialloc_onFile first).2
            have made := ready.ialloc (types _ here type rfl)
                (show img.freeinode < imageSuperblock.ninodes by omega) first
            exact ⟨made.1, made.2.1 i (by omega)⟩
        | iappend inum p =>
            have below := targets _ here inum rfl
            have made := ready.iappend (show inum < imageSuperblock.ninodes by omega) first
            exact ⟨made.1, made.2.1 i (by omega)⟩
        | fixSize inum =>
            have below := targets _ here inum rfl
            have made := ready.fixSize (show inum < imageSuperblock.ninodes by omega) first
            exact ⟨made.1, made.2.1 i (by omega)⟩
      exact one.2.trans (ih others one.1
        (fun step member => targets step (List.mem_cons_of_mem _ member))
        (fun step member => types step (List.mem_cons_of_mem _ member)) few inside later)

/-- What has been written is not changed by the bitmap. -/
theorem balloc_volume (finished : img.balloc img.usedblocks = some final) :
    final.volume = img.volume := by
  unfold Image.balloc at finished
  split at finished
  · rw [← Option.some.inj finished]
    exact Superblock.volume_bitmap (Nat.le_refl _) (by decide) _
  · exact nomatch finished

/-- The inodes of an image that `mkfs` has not handed out. -/
theorem mkfsMain_unused (built : mkfsMain root = some final)
    (few : root.inodes + 1 < imageSuperblock.ninodes) (outside : i = 0 ∨ root.inodes + 2 ≤ i) :
    (final.volume.inode i).type = 0 := by
  rcases outside with first | late
  · rcases mkfsMain_dirs built few with ⟨img, _, finished, _, steady, _⟩
    rw [balloc_volume finished, first, steady.inode]
    exact mkfs_type 0
  · rcases mkfsMain_walks built with ⟨img, steps, walks, count, finished⟩
    have steady := @runOnFile_later i img.freeinode steps Image.mkfs img walks.ran
        ⟨mkfs_sound, by decide, rfl⟩ walks.targets walks.types (Nat.le_refl _) (by omega) (by omega)
    rw [balloc_volume finished, steady.inode]
    exact mkfs_type i

end Unused

/-! ## The finished image -/

section Finished

variable {final : Image} {root : Listing} {i : Nat} {k : Kernel}

/-- What `main` leaves behind, apart from the files. -/
structure Image.Finished (img : Image) : Prop where
  isSuper : superblock (img.disk 1) = imageSuperblock
  laid : Laid img img.volume
  few : img.freeblock ≤ imageSuperblock.size
  bitmap : forall b, b < BPB -> bit (img.disk (imageSuperblock.ninodes / IPB + 3)) b =
    decide (b < img.freeblock)

theorem mkfsMain_finished (built : mkfsMain root = some final)
    (few : root.inodes + 1 < imageSuperblock.ninodes) : final.Finished := by
  rcases mkfsMain_dirs built few with ⟨img, ready, finished, _⟩
  have volume := balloc_volume finished
  unfold Image.balloc at finished
  split at finished
  · have isFinal := (Option.some.inj finished).symm
    have kept : forall b, b ≠ imageSuperblock.ninodes / IPB + 3 -> final.disk b = img.disk b := by
      intro b other
      rw [isFinal]
      simp only [Image.wsect, Function.update_of_ne other]
    refine ⟨?_, ?_, ?_, fun b below => ?_⟩
    · rw [kept 1 (by decide), ready.super]
      exact superblock_superblockBytes (by decide) (by decide) (by decide)
    · rw [volume]
      have laid : Laid final img.volume := by
        rw [isFinal]
        refine ready.sound.laid.congr (fun _ => rfl) rfl rfl rfl (fun b above => ?_)
        have start : imageSuperblock.ninodes / IPB + 3 < imageSuperblock.dataStart := by decide
        exact Function.update_of_ne (show b ≠ imageSuperblock.ninodes / IPB + 3 by omega) _ _
      exact laid
    · rw [isFinal]
      exact ready.few
    · rw [isFinal, wsect_disk_self, bit_markUsed below, ready.sound.laid.count]
      rfl
  · exact absurd finished (Option.some_ne_none _).symm

/-- The bitmap of an image is one block. -/
theorem Image.Finished.marked (finished : final.Finished) {b : Nat}
    (low : b < scanned imageSuperblock) :
    marked imageSuperblock final.disk b = decide (b < final.freeblock) := by
  have small : b < BPB := low
  have ninodes : imageSuperblock.ninodes = 200 := rfl
  have sector : BBLOCK b imageSuperblock.ninodes = imageSuperblock.ninodes / IPB + 3 := by
    simp only [BBLOCK, BPB, ninodes, IPB] at small ⊢
    omega
  unfold TripleFs.marked used
  rw [decide_eq_true low, Bool.true_and, sector, Nat.mod_eq_of_lt small, finished.bitmap b small]

/-- The slots of the image have the blocks that have been handed out. -/
theorem Image.Finished.owns (finished : final.Finished) :
    final.volume.Owns imageSuperblock imageSuperblock.size
      (TripleFs.marked imageSuperblock final.disk) := by
  have laid := finished.laid
  have scans : imageSuperblock.size ≤ scanned imageSuperblock := by decide
  have few := finished.few
  have start := laid.start
  refine ⟨⟨fun b below => ?_, fun s stored => ?_, laid.once, fun _ _ _ _ => rfl⟩,
    fun i => Superblock.inode_fits final.disk i⟩
  · rw [finished.marked (by omega)]
    exact decide_eq_true (by omega)
  · have handedOut := laid.stored s stored
    refine ⟨handedOut.1, by omega, ?_⟩
    rw [finished.marked (by omega)]
    exact decide_eq_true handedOut.2

/-- The directories of the tree have nothing behind them, and their entries name inodes of the
tree. -/
theorem Image.HasDir.listed {img : Image} {size : Nat} {entries : Entries}
    (dir : img.HasDir i size entries) (fits : direntSize * entries.length ≤ size)
    (closed : forall entry, entry ∈ entries -> entry.1 < imageSuperblock.ninodes) :
    Listed imageSuperblock img.volume i := by
  refine ⟨fun x behind => ?_, fun k => ?_⟩
  · rw [dir.size] at behind
    rw [dir.bytes]
    exact List.getD_eq_default _ _ (by rw [length_entryBytes]; omega)
  · rw [show img.volume.byte i = fun x => (entryBytes entries).getD x 0 from funext dir.bytes]
    by_cases inside : k < entries.length
    · have found : entries[k]? = some (entries[k].1, entries[k].2) :=
        List.getElem?_eq_getElem inside
      have below := closed _ (List.getElem_mem inside)
      rw [inumOf_entryBytes found (Nat.lt_trans below (by decide))]
      exact below
    · have length := length_entryBytes entries
      have behind : forall x, direntSize * k ≤ x -> (entryBytes entries).getD x 0 = 0 :=
        fun x above =>
        List.getD_eq_default _ _
          (by rw [length]; exact Nat.le_trans (Nat.mul_le_mul_left _ (Nat.not_lt.mp inside)) above)
      have low := behind (16 * k) (Nat.le_refl _)
      have high := behind (16 * k + 1) (Nat.le_succ _)
      unfold inumOf
      dsimp only
      rw [low, high]
      decide

/-- Every inode of the image is a directory in order, a file or free. -/
theorem mkfsMain_proper (built : mkfsMain root = some final)
    (few : root.inodes + 1 < imageSuperblock.ninodes) : Proper imageSuperblock final.volume := by
  have ninodes : imageSuperblock.ninodes = 200 := rfl
  rcases mkfsMain_dirs built few with ⟨img, _, finished, _, _, placed⟩
  have cases_ : forall i, (final.volume.inode i).type ≠ T_MIRRORED ∧
      ((final.volume.inode i).type = T_DIR -> Listed imageSuperblock final.volume i) := by
    intro i
    by_cases inside : 0 < i ∧ i < root.inodes + 2
    · have has := placed i inside.1 inside.2
      rw [balloc_volume finished]
      cases found : (treeDirs root).lookup i with
      | none =>
          rw [found] at has
          rw [has.1]
          exact ⟨by decide, fun directory => absurd directory (by decide)⟩
      | some entries =>
          rw [found] at has
          have length := treeDirs_length found
          rw [has.type]
          refine ⟨by decide, fun _ => has.listed ?_ (fun entry member => ?_)⟩
          · have bound : direntSize * entries.length ≤ 3232 := by
              simp only [direntSize]
              omega
            unfold roundedSize
            generalize direntSize * entries.length = bytes at bound
            simp only [BSIZE]
            omega
          · have closed := treeDirs_closed found entry member
            omega
    · rw [mkfsMain_unused built few (show i = 0 ∨ root.inodes + 2 ≤ i by omega)]
      exact ⟨by decide, fun directory => absurd directory (by decide)⟩
  exact ⟨fun i => (cases_ i).2, fun i mirrored => absurd mirrored (cases_ i).1⟩

/-- A kernel that has not read an inode of the image yet is in order, if the image is not full. -/
theorem mkfs_inOrder (built : mkfsMain root = some final)
    (few : root.inodes + 1 < imageSuperblock.ninodes)
    (roomy : Roomy imageSuperblock imageSuperblock.size (marked imageSuperblock final.disk))
    (unused : forall ip, (k.icache ip).ref = 0) :
    InOrder imageSuperblock False (fun _ => 0) ∅ (fresh final.disk k) := by
  have finished := mkfsMain_finished built few
  have none_ : forall ip, ¬ 0 < (k.icache ip).ref := fun ip referred => by
    have idle := unused ip
    omega
  have live : Live imageSuperblock (fresh final.disk k) final.volume :=
    ⟨fun ip active => absurd active.1 (none_ ip), fun _ _ => rfl, rfl⟩
  have lends : Lends imageSuperblock (final.volume.Loose imageSuperblock
      (marked imageSuperblock final.disk)) ∅ (fresh final.disk k) :=
    ⟨fun s => iff_of_false (fun held => held rfl) (Finset.notMem_empty s), rfl,
      fun s inside => absurd inside (Finset.notMem_empty s), fun _ _ => rfl⟩
  have owning : Owning imageSuperblock imageSuperblock.size final.volume ∅ (fresh final.disk k) :=
    ⟨finished.isSuper, by decide, live, fun ip _ referred => absurd referred (none_ ip),
      fun ip referred => absurd referred (none_ ip), finished.owns, lends⟩
  have blank : final.volume.Blank imageSuperblock imageSuperblock.size
      (marked imageSuperblock final.disk) := by
    intro b lower upper free
    have scans : imageSuperblock.size ≤ scanned imageSuperblock := by decide
    rw [finished.marked (by omega)] at free
    rw [finished.laid.blocks b lower]
    exact finished.laid.zeros b (Nat.not_lt.mp (of_decide_eq_false free))
  refine ⟨⟨final.volume, ⟨owning, blank, roomy,
    fun s inside => absurd inside (Finset.notMem_empty s)⟩, ⟨fun _ => rfl, fun _ _ _ _ => rfl⟩,
    mkfsMain_proper built few, by decide, fun tidy => tidy.elim⟩, ?_⟩
  exact ⟨unused, fun ip referred => absurd referred (Nat.lt_irrefl 0),
    fun ip => iff_of_false (Finset.notMem_empty ip) (fun both => absurd both.1 (Nat.lt_irrefl 0)),
    fun ip active => absurd active.1 (none_ ip)⟩

end Finished

end TripleFs
end OsProjects
