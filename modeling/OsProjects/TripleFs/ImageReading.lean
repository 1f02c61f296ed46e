import OsProjects.TripleFs.ImageFiles
import OsProjects.TripleFs.Inodes

namespace OsProjects
namespace TripleFs

open Machine

/-!
# Reading a file without holes

`bmap` finds the block of every byte below the size of such a file and allocates
nothing, so reading leaves the disk, the cache and the inode as they are.
-/

/-- Nothing is held and nothing is left aside. -/
structure Quiet (d : Device BSIZE Kernel) : Prop where
  resting : forall sector, d.Resting sector
  idle : d.busy = 0

/-- The block number that an inode has for a logical block; zero if there is none. -/
def addressOf (disk : Nat -> Block) (c : Dinode) (bn : Nat) : Nat :=
  if bn < NDIRECT then c.addrs bn
  else if c.addrs NDIRECT = 0 then 0
  else (disk (c.addrs NDIRECT)).word (bn - NDIRECT)

/-- A byte of the file of an inode. -/
def fileByte (disk : Nat -> Block) (c : Dinode) (x : Nat) : UInt8 :=
  (disk (addressOf disk c (x / BSIZE))).get (x % BSIZE)

/-- The bytes `[off, off + n)` of a file. -/
def fileBytes (disk : Nat -> Block) (c : Dinode) (off n : Nat) : List UInt8 :=
  (List.range n).map (fun k => fileByte disk c (off + k))

section Reading

variable {limits : Limits BSIZE} {escape : Stop FsPanic -> Prop}
  {d : Device BSIZE Kernel} {ip : Nat}

open BlockProgram

/-- An address that is there is returned. -/
theorem ensureAddr_reads {post : Nat -> Device BSIZE Kernel -> Prop} {i : Nat}
    (inside : i ≤ NDIRECT) (present : (d.mem.icache ip).copy.addrs i ≠ 0)
    (holds : post ((d.mem.icache ip).copy.addrs i) d) :
    (ensureAddr ip i).Reads limits post escape d := by
  unfold ensureAddr
  refine reads_bind (reads_getMem ?_)
  rw [if_neg (Nat.not_lt.mpr inside), if_neg present]
  exact reads_pure holds

theorem ensureAddr_present {post : Nat -> Device BSIZE Kernel -> Prop} {i : Nat}
    (inside : i ≤ NDIRECT) (present : (d.mem.icache ip).copy.addrs i ≠ 0)
    (holds : post ((d.mem.icache ip).copy.addrs i) d) : (ensureAddr ip i).wp limits post escape d :=
  (ensureAddr_reads inside present holds).wp

theorem ensureEntry_reads {post : Nat -> Device BSIZE Kernel -> Prop} {addr i : Nat}
    (resting : d.Resting addr) (space : d.busy < limits.capacity)
    (present : (d.disk addr).word i ≠ 0) (holds : post ((d.disk addr).word i) d) :
    (ensureEntry addr i).Reads limits post escape d := by
  unfold ensureEntry
  refine reads_bind (reads_bread resting space ?_)
  refine reads_bind (reads_look Device.held_hold_self ?_)
  have inside : ¬ NINDIRECT ≤ i := fun beyond => present (Volume.word_beyond _ beyond)
  rw [if_neg inside, if_neg present]
  refine reads_bind (reads_brelse Device.held_hold_self ?_)
  rw [Device.release_hold resting]
  exact reads_pure holds

theorem ensureEntry_present {post : Nat -> Device BSIZE Kernel -> Prop} {addr i : Nat}
    (resting : d.Resting addr) (space : d.busy < limits.capacity)
    (present : (d.disk addr).word i ≠ 0) (holds : post ((d.disk addr).word i) d) :
    (ensureEntry addr i).wp limits post escape d :=
  (ensureEntry_reads resting space present holds).wp

theorem bmap_reads {post : Nat -> Device BSIZE Kernel -> Prop} {bn : Nat}
    (resting : d.Resting ((d.mem.icache ip).copy.addrs NDIRECT)) (space : d.busy < limits.capacity)
    (below : bn < MAXFILE) (present : addressOf d.disk (d.mem.icache ip).copy bn ≠ 0)
    (holds : post (addressOf d.disk (d.mem.icache ip).copy bn) d) :
    (bmap ip bn).Reads limits post escape d := by
  unfold addressOf at present holds
  unfold bmap
  by_cases direct : bn < NDIRECT
  · rw [if_pos direct] at present holds ⊢
    exact ensureAddr_reads (Nat.le_of_lt direct) present holds
  · have entry : bn - NDIRECT < NINDIRECT := by
      simp only [MAXFILE] at below
      omega
    rw [if_neg direct] at present holds ⊢
    rw [if_pos entry]
    by_cases none_ : (d.mem.icache ip).copy.addrs NDIRECT = 0
    · rw [if_pos none_] at present
      exact absurd rfl present
    · rw [if_neg none_] at present holds
      refine reads_bind (ensureAddr_reads (Nat.le_refl _) none_ ?_)
      exact ensureEntry_reads resting space present holds

theorem bmap_present {post : Nat -> Device BSIZE Kernel -> Prop} {bn : Nat}
    (resting : d.Resting ((d.mem.icache ip).copy.addrs NDIRECT)) (space : d.busy < limits.capacity)
    (below : bn < MAXFILE) (present : addressOf d.disk (d.mem.icache ip).copy bn ≠ 0)
    (holds : post (addressOf d.disk (d.mem.icache ip).copy bn) d) :
    (bmap ip bn).wp limits post escape d := (bmap_reads resting space below present holds).wp

theorem bytesFrom_eq (disk : Nat -> Block) (c : Dinode) {off m : Nat}
    (inBlock : off % BSIZE + m ≤ BSIZE) :
    bytesFrom (disk (addressOf disk c (off / BSIZE))) (off % BSIZE) m = fileBytes disk c off m := by
  unfold bytesFrom fileBytes
  refine List.map_congr_left (fun k member => ?_)
  have below := List.mem_range.mp member
  have block : (off + k) / BSIZE = off / BSIZE := by
    simp only [BSIZE] at inBlock ⊢
    omega
  have position : (off + k) % BSIZE = off % BSIZE + k := by
    simp only [BSIZE] at inBlock ⊢
    omega
  rw [fileByte, block, position]

theorem fileBytes_append (disk : Nat -> Block) (c : Dinode) (off m rest : Nat) :
    fileBytes disk c off m ++ fileBytes disk c (off + m) rest =
      fileBytes disk c off (m + rest) := by
  unfold fileBytes
  rw [List.range_add, List.map_append, List.map_map]
  congr 1
  refine List.map_congr_left (fun k _ => ?_)
  rw [Function.comp_apply, Nat.add_assoc]

/-- The loop of `readi` over blocks that are there. -/
theorem readPlain_present (quiet : Quiet d) (space : 0 < limits.capacity) (fuel : Nat) :
    forall {off left : Nat}, left ≤ fuel -> off + left ≤ MAXFILE * BSIZE ->
      (forall x, off ≤ x -> x < off + left ->
        addressOf d.disk (d.mem.icache ip).copy (x / BSIZE) ≠ 0) ->
      (readPlain ip fuel off left).wp limits
        (fun bytes e => e = d ∧ bytes = fileBytes d.disk (d.mem.icache ip).copy off left)
        escape d := by
  have roomy : d.busy < limits.capacity := by
    rw [quiet.idle]
    exact space
  induction fuel with
  | zero =>
      intro off left short _ _
      rw [Nat.le_zero.mp short]
      exact ⟨rfl, rfl⟩
  | succ fuel ih =>
      intro off left short low present
      rw [readPlain]
      by_cases done : left = 0
      · rw [if_pos done, done]
        exact ⟨rfl, rfl⟩
      · have within : off % BSIZE < BSIZE := Nat.mod_lt off (by decide)
        have below : off / BSIZE < MAXFILE := by
          rw [Nat.div_lt_iff_lt_mul (by decide)]
          omega
        rw [if_neg done]
        refine wp_bind.mpr (bmap_present (quiet.resting _) roomy below
          (present off (Nat.le_refl _) (by omega)) ?_)
        refine wp_bind.mpr (wp_bread (quiet.resting _) roomy ?_)
        refine wp_bind.mpr (wp_look Device.held_hold_self ?_)
        refine wp_bind.mpr (wp_brelse Device.held_hold_self ?_)
        rw [Device.release_hold (quiet.resting _)]
        generalize piece : min left (BSIZE - off % BSIZE) = m
        have inBlock : off % BSIZE + m ≤ BSIZE := by omega
        refine wp_seq (ih (by omega) (by omega)
          (fun x lower upper => present x (by omega) (by omega))) ?_
        rintro rest e ⟨rfl, rfl⟩
        refine ⟨rfl, ?_⟩
        rw [bytesFrom_eq _ _ inBlock, fileBytes_append]
        congr 1
        omega

/-- What `readi` should return for a file with these contents. -/
def readResult (content : List UInt8) (off n : Nat) : Int × List UInt8 :=
  if content.length < off ∨ 2 ^ 32 ≤ off + n then (-1, [])
  else (((min n (content.length - off) : Nat) : Int), (content.drop off).take n)

/-- The inode stores a plain file with these contents, without holes. -/
structure StoresFile (disk : Nat -> Block) (c : Dinode) (content : List UInt8) : Prop where
  plain : c.type ≠ T_DEV ∧ c.type ≠ T_MIRRORED
  size : c.logical_size = content.length
  small : content.length ≤ MAXFILE * BSIZE
  present : forall x, x < content.length -> addressOf disk c (x / BSIZE) ≠ 0
  bytes : forall x, x < content.length -> fileByte disk c x = content.getD x 0

theorem StoresFile.fileBytes {disk : Nat -> Block} {c : Dinode} {content : List UInt8}
    (stores : StoresFile disk c content) {off n : Nat} (within : off + n ≤ content.length) :
    fileBytes disk c off n = (content.drop off).take n := by
  refine List.ext_getElem ?_ (fun k below _ => ?_)
  · rw [TripleFs.fileBytes, List.length_map, List.length_range, List.length_take, List.length_drop]
    omega
  · rw [TripleFs.fileBytes, List.length_map, List.length_range] at below
    simp only [TripleFs.fileBytes, List.getElem_map, List.getElem_range, List.getElem_take,
      List.getElem_drop]
    rw [stores.bytes _ (by omega), List.getD_eq_getElem _ _ (by omega)]

theorem readi_present (quiet : Quiet d) (space : 0 < limits.capacity) {content : List UInt8}
    (stores : StoresFile d.disk (d.mem.icache ip).copy content) (devsw : Devsw)
    (behind : Nat -> Nat -> UInt8) {off n : Nat} (offFits : off < 2 ^ 32) (nFits : n < 2 ^ 32) :
    (readi devsw behind ip off n).wp limits
      (fun result e => e = d ∧ result = readResult content off n) escape d := by
  have small := stores.small
  have limit : MAXFILE * BSIZE < 2 ^ 32 := by decide
  unfold readi
  refine wp_bind.mpr (wp_getMem ?_)
  rw [if_neg stores.plain.1, stores.size, readResult]
  have wraps : (content.length < off ∨ (off + n) % 2 ^ 32 < off) ↔
      (content.length < off ∨ 2 ^ 32 ≤ off + n) := by omega
  by_cases refused : content.length < off ∨ 2 ^ 32 ≤ off + n
  · rw [if_pos (wraps.mpr refused), if_pos refused]
    exact ⟨rfl, rfl⟩
  · rw [if_neg (mt wraps.mp refused), if_neg refused]
    dsimp only
    rw [if_neg stores.plain.2]
    have clipped : (if content.length < off + n then content.length - off else n) =
        min n (content.length - off) := by
      split <;> omega
    have within : off + min n (content.length - off) ≤ content.length := by omega
    rw [clipped]
    refine wp_seq (readPlain_present quiet space _ (Nat.le_refl _) (by omega)
      (fun x _ upper => stores.present x (by omega))) ?_
    rintro bytes e ⟨rfl, rfl⟩
    refine ⟨rfl, Prod.ext rfl ?_⟩
    show fileBytes _ _ _ _ = (content.drop off).take n
    rw [stores.fileBytes within, ← List.length_drop, ← List.take_eq_take_min]

end Reading

/-! ## The files of an image -/

/-- A file of a sound image is what the kernel reads. -/
theorem Image.HasFile.stores {img : Image} {inum type : Nat} {content : List UInt8}
    (file : img.HasFile inum type content) (sound : img.Sound)
    (plain : type ≠ T_DEV ∧ type ≠ T_MIRRORED) :
    StoresFile img.disk (img.volume.inode inum) content := by
  have laid := sound.laid
  have address : forall bn, addressOf img.disk (img.volume.inode inum) bn =
      img.volume.slot (inum, Volume.place bn) := by
    intro bn
    unfold addressOf Volume.place
    by_cases direct : bn < NDIRECT
    · rw [if_pos direct, if_pos direct, Volume.slot_direct (Nat.le_of_lt direct)]
    · have position : bn + 1 = NDIRECT + 1 + (bn - NDIRECT) := by omega
      rw [if_neg direct, if_neg direct, position]
      by_cases none_ : (img.volume.inode inum).addrs NDIRECT = 0
      · rw [if_pos none_, Volume.slot_entry_empty none_]
      · have here : img.volume.slot (inum, NDIRECT) = (img.volume.inode inum).addrs NDIRECT :=
          Volume.slot_direct (Nat.le_refl _)
        have above := (laid.stored (inum, NDIRECT) (by rw [here]; exact none_)).1
        rw [here] at above
        rw [if_neg none_, Volume.slot_entry none_, laid.blocks _ above]
  refine ⟨by rw [file.type]; exact plain, file.size, ?_, fun x below => ?_, fun x below => ?_⟩
  · by_contra large
    have last := Volume.lt_of_slot (file.covered (MAXFILE * BSIZE) (Nat.not_le.mp large))
    rw [Nat.mul_div_cancel _ (show 0 < BSIZE by decide)] at last
    exact absurd last (Nat.lt_irrefl _)
  · rw [address]
    exact file.covered x below
  · have stored := file.covered x below
    have above := (laid.stored _ stored).1
    rw [← file.bytes x below]
    unfold fileByte Volume.byte Volume.content
    rw [address, if_neg stored, laid.blocks _ above]

/-- Writing the bitmap changes no file. -/
theorem balloc_files {img : Image} (sound : img.Sound) (limits : img.WithinLimits) :
    Exists fun final =>
      img.balloc img.usedblocks = some final ∧ final.Sound ∧
      forall inum type content, img.HasFile inum type content ->
        final.HasFile inum type content := by
  have few : img.usedblocks < 512 * 8 := by
    have counted := sound.laid.count
    have blocks := limits.blocks
    have limit : imageSuperblock.size < 512 * 8 := by decide
    omega
  have volume : forall data, (img.wsect (imageSuperblock.ninodes / IPB + 3) data).volume =
      img.volume :=
    fun data => Superblock.volume_bitmap (Nat.le_refl _) (by decide) data
  have disk : forall data b, imageSuperblock.dataStart ≤ b ->
      (img.wsect (imageSuperblock.ninodes / IPB + 3) data).disk b = img.disk b := by
    intro data b above
    have before : imageSuperblock.ninodes / IPB + 3 < imageSuperblock.dataStart := by decide
    exact Function.update_of_ne (by omega) _ _
  refine ⟨_, if_pos few, ⟨?_, sound.first⟩, fun inum type content file => ?_⟩
  · rw [volume]
    exact sound.laid.congr (fun _ => rfl) rfl rfl rfl (disk _)
  · refine file.congr ?_ (fun bn => ?_) (fun bn => ?_)
    · rw [volume]
    · rw [volume]
      exact id
    · rw [volume]

/-- The kernel has the inode in its cache as it is on the disk, as `ilock` leaves it. -/
def Loaded (s : Store Kernel) (ip inum : Nat) : Prop :=
  (s.mem.icache ip).copy = getDinode (s.disk (IBLOCK inum)) (inum % IPB)

/-- `mkfs` and the kernel agree on the format of a file.  Take any image in the
making, let `mkfs` allocate an inode and then take any further steps, in which other
files may grow as well.  Appending to the file fails only if it would become too large
for an inode, and in the finished image `readi` delivers the concatenation of all that
was appended to it, for every offset and length. -/
theorem readi_of_iappend {before after : List ImageStep} {type : Nat} {middle img : Image}
    (start : runSteps before Image.mkfs = some middle)
    (ran : runSteps after (middle.ialloc type) = some img) (limits : img.WithinLimits)
    (proper : forall step, step ∈ before ++ .ialloc type :: after -> step.Proper)
    (plain : type ≠ T_DEV ∧ type ≠ T_MIRRORED)
    (unresized : ImageStep.fixSize middle.freeinode ∉ after) :
    (forall p,
      img.iappend middle.freeinode p = none ↔
        p ≠ [] ∧ MAXFILE * BSIZE < (appendedTo middle.freeinode after).length + p.length) ∧
    Exists fun final =>
      img.balloc img.usedblocks = some final ∧
      (getDinode (final.disk (IBLOCK middle.freeinode)) (middle.freeinode % IPB)).logical_size =
        (appendedTo middle.freeinode after).length ∧
      forall (s : Store Kernel) (d : Device BSIZE Kernel) (ip : Nat), Shows s d -> Quiet d ->
        s.disk = final.disk -> Loaded s ip middle.freeinode ->
        forall (devsw : Devsw) (behind : Nat -> Nat -> UInt8) (off n : Nat), off < 2 ^ 32 ->
          n < 2 ^ 32 ->
          Exists fun t =>
            exec (readi devsw behind ip off n) s =
              .done (readResult (appendedTo middle.freeinode after) off n) t ∧
            t.disk = final.disk := by
  have whole : runSteps (.ialloc type :: after) middle = some img := by
    rw [runSteps_cons]
    exact ran
  have counters := runSteps_counters _ ran
  have inodes := limits.inodes
  have allocated : (middle.ialloc type).freeinode = middle.freeinode + 1 := rfl
  have isInode : IsInode middle.freeinode := by
    unfold IsInode
    omega
  have grew : middle.freeblock ≤ img.freeblock := counters.1
  have blocks := limits.blocks
  have first := runSteps_sound before mkfs_sound
    (fun step member => proper step (List.mem_append_left _ member)) start ⟨by omega, by omega⟩
  have typeFits := (proper (.ialloc type) (List.mem_append_right _ List.mem_cons_self)).2 type rfl
  have created := ialloc_beside first.1 typeFits isInode
  have run := runSteps_sound after created.1.sound (fun step member =>
      proper step (List.mem_append_right _ (List.mem_cons_of_mem _ member))) ran limits
  have file := run.2 middle.freeinode type [] isInode (by omega) unresized created.2
  rw [List.nil_append] at file
  refine ⟨fun p => ?_, ?_⟩
  · rw [iappend_none, ← rinode_eq isInode, file.size]
  · rcases balloc_files run.1 limits with ⟨final, finished, sound, files⟩
    have finalFile := files _ _ _ file
    have inode : final.volume.inode middle.freeinode =
        getDinode (final.disk (IBLOCK middle.freeinode)) (middle.freeinode % IPB) :=
      Superblock.inode_below isInode
    refine ⟨final, finished, by rw [← inode]; exact finalFile.size, ?_⟩
    intro s d ip shows quiet disk loaded devsw behind off n offFits nFits
    have stores := finalFile.stores sound plain
    rw [inode, ← disk] at stores
    unfold Loaded at loaded
    rw [← loaded, shows.disk, shows.mem] at stores
    rcases Program.exists_done_of_wp (exec_sound shows (throughout_true _ _)
      (readi_present quiet (show 0 < NBUF by decide) stores devsw behind offFits nFits)) with
      ⟨result, t, done, e, shown, same, isResult⟩
    refine ⟨t, ?_, ?_⟩
    · rw [done, isResult]
    · rw [shown.disk, same, ← shows.disk, disk]

theorem quiet_fresh (disk : Nat -> Block) (mem : Kernel) : Quiet (fresh disk mem) :=
  ⟨fun _ => ⟨rfl, rfl⟩, rfl⟩

/-- A kernel that has just read an inode into the first entry of its cache. -/
def oneInode (disk : Nat -> Block) (inum : Nat) : Store Kernel where
  disk := disk
  bufs := binit
  mem := ⟨fun _ => ⟨inum, 1, true, true, getDinode (disk (IBLOCK inum)) (inum % IPB)⟩⟩

theorem readi_of_iappend_threeBytes : Exists fun img => Exists fun final => Exists fun t =>
    runSteps [.iappend 1 [7, 8, 9]] (Image.mkfs.ialloc T_FILE) = some img ∧
    img.balloc img.usedblocks = some final ∧
    exec (readi ⟨fun _ => none, fun _ => none⟩ (fun _ _ => 0) 0 1 5) (oneInode final.disk 1) =
      .done (2, [8, 9]) t := by
  have created := ialloc_beside mkfs_sound (show T_FILE < 2 ^ 16 by decide) (by decide)
  have size : ((Image.mkfs.ialloc T_FILE).rinode 1).logical_size = 0 := by
    rw [← rinode_eq (by decide)]
    exact created.2.size
  cases grown : (Image.mkfs.ialloc T_FILE).iappend 1 [7, 8, 9] with
  | none =>
      have large := (iappend_none [7, 8, 9]).mp grown
      rw [size] at large
      exact absurd large.2 (by decide)
  | some img =>
      have ran : runSteps [.iappend 1 [7, 8, 9]] (Image.mkfs.ialloc T_FILE) = some img := by
        rw [runSteps_cons]
        show ((Image.mkfs.ialloc T_FILE).iappend 1 [7, 8, 9]).bind (runSteps []) = some img
        rw [grown]
        rfl
      have limits : img.WithinLimits := by
        unfold Image.iappend at grown
        cases looped : Image.appendLoop ([7, 8, 9] : List UInt8).length (Image.mkfs.ialloc T_FILE)
            ((Image.mkfs.ialloc T_FILE).rinode 1) ((Image.mkfs.ialloc T_FILE).rinode 1).logical_size
            [7, 8, 9] with
        | none =>
            rw [looped] at grown
            exact nomatch grown
        | some result =>
            rw [looped] at grown
            have bounds := appendLoop_grown _ looped
            rw [← Option.some.inj grown]
            exact ⟨Nat.le_trans bounds.few (by decide),
              Nat.le_trans (Nat.le_of_eq bounds.freeinode) (by decide)⟩
      have proper : forall step, step ∈ [] ++ ImageStep.ialloc T_FILE :: [.iappend 1 [7, 8, 9]] ->
          step.Proper := by
        intro step member
        rcases List.mem_cons.mp member with rfl | member
        · exact ⟨nofun, fun type same => by rw [← ImageStep.ialloc.inj same]; decide⟩
        · rw [List.mem_singleton.mp member]
          exact ⟨fun inum same => by rw [← Option.some.inj same]; decide, nofun⟩
      rcases (@readi_of_iappend [] [.iappend 1 [7, 8, 9]] T_FILE Image.mkfs img rfl ran limits
        proper (by decide) (by simp)).2 with ⟨final, finished, _, reads⟩
      rcases reads (oneInode final.disk 1) _ 0 (shows_binit _ _) (quiet_fresh _ _) rfl rfl
        ⟨fun _ => none, fun _ => none⟩ (fun _ _ => 0) 1 5 (by decide) (by decide) with ⟨t, done, _⟩
      exact ⟨img, final, t, ran, finished, done⟩

end TripleFs
end OsProjects
