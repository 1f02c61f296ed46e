import OsProjects.TripleFs.ImageBuilder

namespace OsProjects
namespace TripleFs

open Machine

/-!
# The files of an image

While the image grows, the blocks stay laid out in the order in which they were
handed out, and each file has the bytes that were appended to it, however they were
cut into pieces and whatever was appended to other files in between.
-/

/-- The inodes and data blocks of an image. -/
def Image.volume (img : Image) : Volume := imageSuperblock.volume img.disk

/-- An inode of the image. -/
def IsInode (inum : Nat) : Prop := inum < imageSuperblock.ninodes

instance (inum : Nat) : Decidable (IsInode inum) := Nat.decLt _ _

/-- The image has a file with these contents. -/
structure Image.HasFile (img : Image) (inum type : Nat) (content : List UInt8) : Prop where
  type : (img.volume.inode inum).type = type
  size : (img.volume.inode inum).logical_size = content.length
  bytes : forall x, x < content.length -> img.volume.byte inum x = content.getD x 0
  covered : forall x, x < content.length -> img.volume.slot (inum, Volume.place (x / BSIZE)) ≠ 0

variable {img next : Image} {inum : Nat} {d din : Dinode}

theorem rinode_eq (below : IsInode inum) : img.volume.inode inum = img.rinode inum :=
  Superblock.inode_below below

/-- The inode that has been read is the one of the volume. -/
theorem view_rinode (below : IsInode inum) : img.view inum (img.rinode inum) = img.volume := by
  rw [← rinode_eq below]
  unfold Image.view Image.volume Volume.setInode
  rw [Function.update_eq_self]

theorem winode_volume (below : IsInode inum) (fits : d.Fits) :
    (img.winode inum d).volume = img.view inum d :=
  Superblock.volume_putDinode below fits

/-- A layout depends on the table of slots, the data blocks and the counters. -/
theorem Laid.congr {v w : Volume} (laid : Laid img v) (slots : forall s, w.slot s = v.slot s)
    (blocks : w.block = v.block) (free : next.freeblock = img.freeblock)
    (used : next.usedblocks = img.usedblocks)
    (disk : forall b, imageSuperblock.dataStart ≤ b -> next.disk b = img.disk b) : Laid next w := by
  refine ⟨by rw [free]; exact laid.start, fun s => ?_, fun s t => ?_, fun b beyond => ?_,
    fun b inside => ?_, by rw [used, free, laid.count]⟩
  · rw [slots, free]
    exact laid.stored s
  · rw [slots, slots]
    exact laid.once s t
  · rw [free] at beyond
    rw [disk b (Nat.le_trans laid.start beyond)]
    exact laid.zeros b beyond
  · rw [blocks, disk b inside]
    exact laid.blocks b inside

theorem winode_disk (below : IsInode inum) {b : Nat} (above : imageSuperblock.dataStart ≤ b) :
    (img.winode inum d).disk b = img.disk b := by
  have before : Image.i2b inum < imageSuperblock.dataStart := Superblock.IBLOCK_lt_dataStart below
  exact Function.update_of_ne (by omega) _ _

/-- Writing the inode that `iappend` has in memory, with another size. -/
theorem Laid.winode (laid : Laid img (img.view inum din)) (below : IsInode inum) (fits : d.Fits)
    (addrs : d.addrs = din.addrs) :
    Laid (img.winode inum d) (img.winode inum d).volume ∧
    (forall s, (img.winode inum d).volume.slot s = (img.view inum din).slot s) ∧
    (forall i bn, (img.winode inum d).volume.content i bn = (img.view inum din).content i bn) := by
  have same : d.addrs = ((img.view inum din).inode inum).addrs := by rw [view_inode, addrs]
  have slots := Volume.slot_setInode_addrs same
  have contents := Volume.content_setInode_addrs same
  rw [view_setInode] at slots contents
  rw [winode_volume below fits]
  exact ⟨laid.congr slots rfl rfl rfl (fun _ => winode_disk below), slots, contents⟩

/-- A new inode has no blocks. -/
theorem Laid.reset (laid : Laid img img.volume) (below : IsInode inum) (fits : d.Fits)
    (none_ : forall j, d.addrs j = 0) :
    Laid (img.winode inum d) (img.winode inum d).volume ∧
      (forall i bn, i ≠ inum ->
        (img.winode inum d).volume.slot (i, bn) = img.volume.slot (i, bn)) := by
  have mine : forall j, (img.view inum d).slot (inum, j) = 0 := by
    intro j
    unfold Volume.slot
    rw [view_inode, none_, none_, if_pos rfl, ite_self]
  have others : forall i j, i ≠ inum -> (img.view inum d).slot (i, j) = img.volume.slot (i, j) := by
    intro i j different
    refine Volume.slot_congr ?_ (fun _ => rfl)
    simp only [Image.view, Image.volume, Volume.setInode, Function.update_of_ne different]
  have kept : forall s, (img.view inum d).slot s ≠ 0 ->
      (img.view inum d).slot s = img.volume.slot s := by
    rintro ⟨i, j⟩ stored
    refine others i j (fun same => ?_)
    rw [same, mine] at stored
    exact stored rfl
  rw [winode_volume below fits]
  refine ⟨⟨laid.start, fun s stored => ?_, fun s t stored same => ?_, fun b beyond => ?_,
    fun b inside => ?_, laid.count⟩, others⟩
  · have same := kept s stored
    rw [same] at stored ⊢
    exact laid.stored s stored
  · have storedToo : (img.view inum d).slot t ≠ 0 := by rw [← same]; exact stored
    rw [kept s stored, kept t storedToo] at same
    refine laid.once s t ?_ same
    rw [← kept s stored]
    exact stored
  · exact (winode_disk below (Nat.le_trans laid.start beyond)).trans (laid.zeros b beyond)
  · exact (laid.blocks b inside).trans (winode_disk below inside).symm

/-- A file does not change when its inode, its slots and its blocks do not. -/
theorem Image.HasFile.congr {type : Nat} {content : List UInt8}
    (file : img.HasFile inum type content) (inode : next.volume.inode inum = img.volume.inode inum)
    (kept : forall bn, img.volume.slot (inum, Volume.place bn) ≠ 0 ->
      next.volume.slot (inum, Volume.place bn) ≠ 0)
    (same : forall bn, next.volume.content inum bn = img.volume.content inum bn) :
    next.HasFile inum type content := by
  refine ⟨by rw [inode]; exact file.type, by rw [inode]; exact file.size, fun x below => ?_,
    fun x below => kept _ (file.covered x below)⟩
  have before := file.bytes x below
  unfold Volume.byte at before ⊢
  rw [same]
  exact before

/-- Only the inode that is written changes. -/
theorem winode_other (below : IsInode inum) (fits : d.Fits) {other : Nat}
    (different : other ≠ inum) :
    (img.winode inum d).volume.inode other = img.volume.inode other := by
  rw [winode_volume below fits]
  exact Function.update_of_ne different _ _

/-! ## Steps -/

/-- The inode that a step works on. -/
def ImageStep.target : ImageStep -> Option Nat
  | .ialloc _ => none
  | .iappend inum _ => some inum
  | .fixSize inum => some inum

/-- The bytes that a step appends to a file. -/
def ImageStep.bytesFor (inum : Nat) : ImageStep -> List UInt8
  | .ialloc _ => []
  | .iappend other p => if other = inum then p else []
  | .fixSize _ => []

/-- Steps as `mkfs` makes them: on inodes of the image. -/
def ImageStep.Proper (step : ImageStep) : Prop :=
  (forall inum, step.target = some inum -> IsInode inum) ∧
  (forall type, step = .ialloc type -> type < 2 ^ 16)

/-- What holds of every image in the making. -/
structure Image.Sound (img : Image) : Prop where
  laid : Laid img img.volume
  first : 0 < img.freeinode

theorem mkfs_sound : Image.mkfs.Sound := by
  have zeros : forall b, b ≠ 1 -> Image.mkfs.disk b = Bytes.fill 0 :=
    fun b different => by simp only [Image.mkfs, Function.update_of_ne different]
  have start : 1 < imageSuperblock.dataStart := by decide
  have empty : forall s, Image.mkfs.volume.slot s = 0 := by
    rintro ⟨i, j⟩
    have none_ : forall k, (Image.mkfs.volume.inode i).addrs k = 0 := by
      intro k
      have notFirst : IBLOCK i ≠ 1 := Nat.ne_of_gt (Nat.lt_add_left _ (Nat.lt_succ_self 1))
      show (if i < imageSuperblock.ninodes then _ else _ : Dinode).addrs k = 0
      split
      · rw [zeros _ notFirst]
        unfold getDinode
        dsimp only
        rw [Bytes.number_fill_zero, ite_self]
      · rfl
    unfold Volume.slot
    rw [none_, none_, if_pos rfl, ite_self]
  refine ⟨⟨Nat.le_refl _, fun s stored => absurd (empty s) stored, fun s _ stored =>
    absurd (empty s) stored, fun b beyond => zeros b ?_, fun b inside => ?_, rfl⟩, by decide⟩
  · have same : Image.mkfs.freeblock = imageSuperblock.dataStart := rfl
    omega
  · exact Superblock.block_above inside

/-- Counters only grow. -/
theorem step_counters {step : ImageStep} (ran : step.run img = some next) :
    img.freeblock ≤ next.freeblock ∧ img.freeinode ≤ next.freeinode := by
  cases step with
  | ialloc type =>
      rw [← Option.some.inj ran]
      exact ⟨Nat.le_refl _, Nat.le_succ _⟩
  | fixSize inum =>
      rw [← Option.some.inj ran]
      exact ⟨Nat.le_refl _, Nat.le_refl _⟩
  | iappend inum p =>
      have ran' : img.iappend inum p = some next := ran
      unfold Image.iappend at ran'
      cases made : Image.appendLoop p.length img (img.rinode inum)
        (img.rinode inum).logical_size p with
      | none =>
          rw [made] at ran'
          exact nomatch ran'
      | some result =>
          rcases result with ⟨mid, din, off⟩
          rw [made] at ran'
          rw [← Option.some.inj ran']
          have grown := appendLoop_grown _ made
          exact ⟨grown.more, Nat.le_of_eq grown.freeinode.symm⟩

/-- Nothing of a file changes: neither its inode nor its slots nor its contents. -/
structure Steady (i : Nat) (img next : Image) : Prop where
  inode : next.volume.inode i = img.volume.inode i
  kept : forall bn, img.volume.slot (i, Volume.place bn) ≠ 0 ->
    next.volume.slot (i, Volume.place bn) = img.volume.slot (i, Volume.place bn)
  content : forall bn, next.volume.content i bn = img.volume.content i bn

theorem Steady.hasFile {i type : Nat} {content : List UInt8} (steady : Steady i img next)
    (file : img.HasFile i type content) : next.HasFile i type content :=
  file.congr steady.inode (fun bn stored => by rw [steady.kept bn stored]; exact stored)
    steady.content

/-- A step on one inode keeps the image sound and all other files. -/
structure Beside (inum : Nat) (img next : Image) : Prop where
  sound : next.Sound
  files : forall other type content, other ≠ inum ->
    img.HasFile other type content -> next.HasFile other type content

theorem beside_of_steady (sound : next.Sound)
    (steady : forall other, other ≠ inum -> Steady other img next) : Beside inum img next :=
  ⟨sound, fun other _ _ different file => (steady other different).hasFile file⟩

/-- The inode that `ialloc` writes. -/
def newInode (type : Nat) : Dinode := { Dinode.blank with type := type, nlink := 1 }

theorem newInode_fits {type : Nat} (small : type < 2 ^ 16) : (newInode type).Fits :=
  ⟨small, show 0 < 2 ^ 16 by decide, show 0 < 2 ^ 16 by decide, show 1 < 2 ^ 16 by decide,
    show 0 < 2 ^ 32 by decide, fun _ => show 0 < 2 ^ 32 by decide, fun _ _ => rfl⟩

theorem ialloc_steady (sound : img.Sound) {type : Nat} (small : type < 2 ^ 16)
    (inodes : IsInode img.freeinode) :
    (img.ialloc type).Sound ∧
    (forall other, other ≠ img.freeinode -> Steady other img (img.ialloc type)) ∧
    (img.ialloc type).volume.inode img.freeinode = newInode type := by
  generalize counted : ({ img with freeinode := img.freeinode + 1 } : Image) = numbered
  have made : img.ialloc type = numbered.winode img.freeinode (newInode type) := by
    rw [← counted]
    rfl
  have volume : numbered.volume = img.volume := by
    rw [← counted]
    rfl
  have laid : Laid numbered numbered.volume := by
    rw [volume, ← counted]
    exact sound.laid.congr (fun _ => rfl) rfl rfl rfl (fun _ _ => rfl)
  have fits := newInode_fits small
  have reset := laid.reset inodes fits (fun _ => rfl)
  rw [made]
  refine ⟨⟨reset.1, ?_⟩, fun other different => ?_, ?_⟩
  · show 0 < numbered.freeinode
    rw [← counted]
    exact Nat.succ_pos _
  · have slots := fun bn => reset.2 other (Volume.place bn) different
    rw [volume] at slots
    refine ⟨?_, fun bn _ => slots bn, fun bn => Volume.content_congr (slots bn) (fun _ => ?_)⟩
    · rw [winode_other inodes fits different, volume]
    · rw [winode_volume inodes fits, ← volume]
      rfl
  · rw [winode_volume inodes fits, view_inode]

theorem ialloc_beside (sound : img.Sound) {type : Nat} (small : type < 2 ^ 16)
    (inodes : IsInode img.freeinode) :
    Beside img.freeinode img (img.ialloc type) ∧
    (img.ialloc type).HasFile img.freeinode type [] := by
  rcases ialloc_steady sound small inodes with ⟨soundToo, steady, mine⟩
  refine ⟨beside_of_steady soundToo steady, ?_, ?_, fun x below => absurd below (Nat.not_lt_zero x),
    fun x below => absurd below (Nat.not_lt_zero x)⟩
  · rw [mine]
    rfl
  · rw [mine]
    rfl

/-- The inode after the size fix. -/
def Dinode.rounded (din : Dinode) : Dinode :=
  { din with logical_size := (din.logical_size / BSIZE + 1) * BSIZE % 2 ^ 32 }

theorem fixSize_steady (sound : img.Sound) (below : IsInode inum) :
    (img.fixSize inum).Sound ∧ (forall other, other ≠ inum -> Steady other img (img.fixSize inum)) ∧
      (img.fixSize inum).volume.inode inum = (img.volume.inode inum).rounded ∧
      (forall s, (img.fixSize inum).volume.slot s = img.volume.slot s) ∧
      (forall i bn, (img.fixSize inum).volume.content i bn = img.volume.content i bn) := by
  have fits := getDinode_fits (img.disk (Image.i2b inum)) (inum % IPB)
  have laid := sound.laid
  rw [← view_rinode below] at laid
  have newFits : (img.rinode inum).rounded.Fits :=
    ⟨fits.type, fits.major, fits.minor, fits.nlink, Nat.mod_lt _ (by decide),
      fits.addrs, fits.noMore⟩
  have made : img.fixSize inum = img.winode inum (img.rinode inum).rounded := rfl
  rcases laid.winode below newFits rfl with ⟨nextLaid, slots, contents⟩
  rw [view_rinode below] at slots contents
  rw [made]
  refine ⟨⟨nextLaid, sound.first⟩, fun other different => ?_, ?_, slots, contents⟩
  · exact ⟨winode_other below newFits different, fun bn _ => slots _, fun bn => contents _ _⟩
  · rw [winode_volume below newFits, view_inode, rinode_eq below]

theorem fixSize_beside (sound : img.Sound) (below : IsInode inum) :
    Beside inum img (img.fixSize inum) :=
  beside_of_steady (fixSize_steady sound below).1 (fixSize_steady sound below).2.1

/-- `iappend` fails only when a file gets too large. -/
theorem iappend_none (p : List UInt8) : img.iappend inum p = none ↔
    p ≠ [] ∧ MAXFILE * BSIZE < (img.rinode inum).logical_size + p.length := by
  have loop := @appendLoop_none p.length img (img.rinode inum) (img.rinode inum).logical_size p
    (Nat.le_refl _)
  unfold Image.iappend
  cases ran : Image.appendLoop p.length img (img.rinode inum) (img.rinode inum).logical_size p with
  | none => exact iff_of_true rfl (loop.mp ran)
  | some result =>
      refine iff_of_false nofun (fun large => ?_)
      rw [loop.mpr large] at ran
      exact nomatch ran

/-- The inode that `iappend` writes can be stored. -/
theorem Grown.fits {after : Dinode} {most off : Nat} (grown : Grown img din next after most)
    (fits : din.Fits) (laid : Laid next (next.view inum after)) (free : next.freeblock < 2 ^ 32)
    (small : off < 2 ^ 32) : ({ after with logical_size := off } : Dinode).Fits := by
  have head := grown.head
  have addrs : forall j, after.addrs j < 2 ^ 32 := by
    intro j
    by_cases direct : j ≤ NDIRECT
    · have slot : (next.view inum after).slot (inum, j) = after.addrs j := by
        rw [Volume.slot_direct direct, view_inode]
      by_cases zero : after.addrs j = 0
      · rw [zero]
        decide
      · have handedOut := (laid.stored (inum, j) (by rw [slot]; exact zero)).2
        rw [slot] at handedOut
        exact Nat.lt_trans handedOut free
    · rw [grown.noMore j (Nat.not_le.mp direct)]
      exact fits.addrs j
  refine ⟨?_, ?_, ?_, ?_, small, addrs, fun j beyond => ?_⟩
  · rw [head]
    exact fits.type
  · rw [head]
    exact fits.major
  · rw [head]
    exact fits.minor
  · rw [head]
    exact fits.nlink
  · exact (grown.noMore j beyond).trans (fits.noMore j beyond)

/-- What a run of `iappend` does to the whole image. -/
theorem iappend_appended (sound : img.Sound) (below : IsInode inum) {p : List UInt8}
    (ran : img.iappend inum p = some next) (free : next.freeblock + 2 < 2 ^ 32) :
    next.Sound ∧ Appended img.volume next.volume inum (img.volume.inode inum).logical_size p ∧
      (Exists fun addrs => next.volume.inode inum = { img.volume.inode inum with
        logical_size := (img.volume.inode inum).logical_size + p.length, addrs := addrs }) ∧
      (forall j, j < NDIRECT -> (img.volume.inode inum).logical_size + p.length ≤ j * BSIZE ->
      (next.volume.inode inum).addrs j = (img.volume.inode inum).addrs j) ∧
      next.disk 1 = img.disk 1 := by
  have fits := getDinode_fits (img.disk (Image.i2b inum)) (inum % IPB)
  have notNone : ¬ img.iappend inum p = none := by
    rw [ran]
    exact nofun
  rw [iappend_none] at notNone
  have start : Laid img (img.view inum (img.rinode inum)) := by
    rw [view_rinode below]
    exact sound.laid
  unfold Image.iappend at ran
  cases looped : Image.appendLoop p.length img (img.rinode inum)
    (img.rinode inum).logical_size p with
  | none =>
      rw [looped] at ran
      exact nomatch ran
  | some result =>
      rcases result with ⟨mid, after, off⟩
      rw [looped] at ran
      have isNext := Option.some.inj ran
      have freeMid : mid.freeblock + 2 < 2 ^ 32 := by
        rw [← isNext] at free
        exact free
      rcases appendLoop_laid p.length start looped (Nat.le_refl _) freeMid with
        ⟨laid, isOff, appended, low⟩
      have grown := appendLoop_grown _ looped
      have small : off < 2 ^ 32 := by
        have stored := fits.size
        have limit : MAXFILE * BSIZE < 2 ^ 32 := by decide
        by_cases empty : p = []
        · rw [isOff, empty]
          exact stored
        · have room : ¬ MAXFILE * BSIZE < (img.rinode inum).logical_size + p.length :=
            fun large => notNone ⟨empty, large⟩
          omega
      have newFits := grown.fits fits laid (by omega) small
      rcases laid.winode below newFits rfl with ⟨nextLaid, slots, contents⟩
      have mine : (mid.winode inum { after with logical_size := off }).volume.inode inum =
          { after with logical_size := off } := by
        rw [winode_volume below newFits, view_inode]
      rw [view_rinode below] at appended
      rw [isNext] at nextLaid slots contents mine
      rw [rinode_eq below]
      refine ⟨⟨nextLaid, ?_⟩, ⟨fun other different => ?_, fun s stored => ?_,
        fun other bn different => ?_, fun x => ?_, fun x lower upper => ?_⟩, ⟨after.addrs, ?_⟩,
        fun j direct beyond => ?_, ?_⟩
      · rw [← isNext]
        exact Nat.lt_of_lt_of_le sound.first (Nat.le_of_eq grown.freeinode.symm)
      · rw [← isNext, winode_volume below newFits, ← appended.inodes other different]
        simp only [Image.view, Volume.setInode, Function.update_of_ne different]
      · rw [slots]
        exact appended.kept s stored
      · rw [contents]
        exact appended.others other bn different
      · unfold Volume.byte
        rw [contents]
        exact appended.bytes x
      · rw [slots]
        exact appended.covered x lower upper
      · rw [mine, isOff, grown.head]
      · rw [mine]
        have same := appendLoop_beyond _ looped direct beyond
        exact same
      · rw [← isNext, ← low 1 (by decide)]
        have other : 1 ≠ Image.i2b inum := Nat.ne_of_lt (Nat.lt_add_left _ (Nat.lt_succ_self 1))
        simp only [Image.winode, Image.wsect, Function.update_of_ne other]

theorem iappend_steady (sound : img.Sound) (below : IsInode inum) {p : List UInt8}
    (ran : img.iappend inum p = some next) (free : next.freeblock + 2 < 2 ^ 32) {other : Nat}
    (different : other ≠ inum) : Steady other img next := by
  rcases iappend_appended sound below ran free with ⟨_, appended, _⟩
  exact ⟨appended.inodes other different, fun bn => appended.kept _,
    fun bn => appended.others other bn different⟩

theorem iappend_beside (sound : img.Sound) (below : IsInode inum) {p : List UInt8}
    (ran : img.iappend inum p = some next) (free : next.freeblock + 2 < 2 ^ 32) :
    Beside inum img next ∧ forall type content, img.HasFile inum type content ->
      next.HasFile inum type (content ++ p) := by
  rcases iappend_appended sound below ran free with ⟨nextSound, appended, ⟨addrs, mine⟩, _, _⟩
  refine ⟨beside_of_steady nextSound (fun other different =>
    iappend_steady sound below ran free different), fun type content file => ?_⟩
  rw [file.size] at appended mine
  refine ⟨by rw [mine]; exact file.type, by rw [mine, List.length_append], fun x inside => ?_,
    fun x inside => ?_⟩
  · rw [List.length_append] at inside
    rw [appended.bytes, List.getD_eq_getElem?_getD, List.getD_eq_getElem?_getD]
    by_cases new : content.length ≤ x
    · rw [if_pos ⟨new, inside⟩, List.getElem?_append_right new]
    · rw [if_neg (fun both => new both.1), file.bytes x (Nat.not_le.mp new),
        List.getElem?_append_left (Nat.not_le.mp new), List.getD_eq_getElem?_getD]
  · rw [List.length_append] at inside
    by_cases new : content.length ≤ x
    · exact appended.covered x new inside
    · have stored := file.covered x (Nat.not_le.mp new)
      rw [appended.kept (inum, Volume.place (x / BSIZE)) stored]
      exact stored

/-! ## Runs -/

/-- Run the steps of `mkfs`; `none` is a failed assertion. -/
def runSteps (steps : List ImageStep) (img : Image) : Option Image := steps.foldlM ImageStep.run img

theorem runSteps_cons (step : ImageStep) (steps : List ImageStep) :
    runSteps (step :: steps) img = (step.run img).bind (runSteps steps) := List.foldlM_cons ..

theorem runSteps_counters (steps : List ImageStep) : forall {img next : Image},
    runSteps steps img = some next ->
    img.freeblock ≤ next.freeblock ∧ img.freeinode ≤ next.freeinode := by
  induction steps with
  | nil =>
      intro img next ran
      rw [← Option.some.inj ran]
      exact ⟨Nat.le_refl _, Nat.le_refl _⟩
  | cons step rest ih =>
      intro img next ran
      rw [runSteps_cons] at ran
      rcases Option.bind_eq_some_iff.mp ran with ⟨middle, first, others⟩
      have one := step_counters first
      have more := ih others
      exact ⟨Nat.le_trans one.1 more.1, Nat.le_trans one.2 more.2⟩

/-- All bytes that the steps append to a file. -/
def appendedTo (inum : Nat) (steps : List ImageStep) : List UInt8 :=
  steps.flatMap (ImageStep.bytesFor inum)

/-- The image that the steps lead to has room for its blocks and inodes. -/
structure Image.WithinLimits (img : Image) : Prop where
  blocks : img.freeblock ≤ imageSuperblock.size
  inodes : img.freeinode ≤ imageSuperblock.ninodes

theorem runSteps_sound (steps : List ImageStep) : forall {img next : Image}, img.Sound ->
    (forall step, step ∈ steps -> step.Proper) -> runSteps steps img = some next ->
    next.WithinLimits -> next.Sound ∧ forall inum type content, IsInode inum ->
      inum < img.freeinode -> (.fixSize inum) ∉ steps -> img.HasFile inum type content ->
      next.HasFile inum type (content ++ appendedTo inum steps) := by
  induction steps with
  | nil =>
      intro img next sound _ ran _
      rw [← Option.some.inj ran]
      refine ⟨sound, fun inum type content _ _ _ file => ?_⟩
      rw [appendedTo, List.flatMap_nil, List.append_nil]
      exact file
  | cons step rest ih =>
      intro img next sound proper ran limits
      rw [runSteps_cons] at ran
      rcases Option.bind_eq_some_iff.mp ran with ⟨middle, first, others⟩
      have counters := step_counters first
      have final := runSteps_counters rest others
      have blocks := limits.blocks
      have inodes := limits.inodes
      have limit : imageSuperblock.size + 2 < 2 ^ 32 := by decide
      have isProper := proper step List.mem_cons_self
      have one : middle.Sound ∧ forall inum type content, IsInode inum ->
          inum < img.freeinode -> step ≠ .fixSize inum -> img.HasFile inum type content ->
          middle.HasFile inum type (content ++ step.bytesFor inum) := by
        cases step with
        | ialloc type =>
            have isMiddle := Option.some.inj first
            have room : IsInode img.freeinode := by
              have grew : img.freeinode + 1 = middle.freeinode := by
                rw [← isMiddle]
                rfl
              unfold IsInode
              omega
            have beside := (ialloc_beside sound (isProper.2 type rfl) room).1
            rw [isMiddle] at beside
            refine ⟨beside.sound, fun inum _ content _ old _ file => ?_⟩
            rw [ImageStep.bytesFor, List.append_nil]
            exact beside.files inum _ content (Nat.ne_of_lt old) file
        | fixSize target =>
            have beside := fixSize_beside sound (isProper.1 target rfl)
            rw [Option.some.inj first] at beside
            refine ⟨beside.sound, fun inum _ content _ _ different file => ?_⟩
            rw [ImageStep.bytesFor, List.append_nil]
            refine beside.files inum _ content (fun same => different ?_) file
            rw [same]
        | iappend target p =>
            have beside := iappend_beside sound (isProper.1 target rfl) first (by omega)
            refine ⟨beside.1.sound, fun inum _ content _ _ _ file => ?_⟩
            by_cases here : target = inum
            · rw [ImageStep.bytesFor, if_pos here]
              subst here
              exact beside.2 _ content file
            · rw [ImageStep.bytesFor, if_neg here, List.append_nil]
              exact beside.1.files inum _ content (fun same => here same.symm) file
      have restRun := ih one.1 (fun other member => proper other (List.mem_cons_of_mem step member))
        others limits
      refine ⟨restRun.1, fun inum type content below old untouched file => ?_⟩
      rw [appendedTo, List.flatMap_cons, ← List.append_assoc]
      refine restRun.2 inum type _ below (Nat.lt_of_lt_of_le old counters.2)
        (fun member => untouched (List.mem_cons_of_mem step member)) ?_
      exact one.2 inum type content below old
        (fun same => untouched (same ▸ List.mem_cons_self)) file

end TripleFs
end OsProjects
