import OsProjects.TripleFs.BlockAllocator

namespace OsProjects
namespace TripleFs

open Machine

/-!
# Copying a directory tree into an image

`add_dir` walks a directory of the host and copies it into the image: it allocates an
inode for each entry, descends into directories and appends an entry for the child when
it is back.  Every sector that `mkfs` writes it has read before, apart from the ones it
writes first of all, so that a sector behind the end of the image file makes it exit.
-/

/-- What `readdir` says about a directory: the entries in their order, without `.` and
`..`, with the bytes of the files. -/
inductive Listing
  | done
  | file (name content : List UInt8) (rest : Listing)
  | dir (name : List UInt8) (inside rest : Listing)

/-- The number of files and directories, at any depth. -/
def Listing.inodes : Listing -> Nat
  | .done => 0
  | .file _ _ rest => rest.inodes + 1
  | .dir _ inside rest => inside.inodes + rest.inodes + 1

/-! ## Reading the image file -/

/-- The sectors that `iappend` reads, apart from that of the inode. -/
def Image.appendReads : Nat -> Image -> Dinode -> Nat -> List UInt8 -> List Nat
  | 0, _, _, _, _ => []
  | fuel + 1, img, din, off, p =>
      if p = [] then []
      else
        let fbn := off / 512
        if MAXFILE ≤ fbn then []
        else
          let (img, din, x) := img.blockFor din fbn
          let n1 := min p.length ((fbn + 1) * 512 - off)
          let after := img.wsect x ((img.disk x).splice (off - fbn * 512) n1 (fun k => p.getD k 0))
          (if fbn < NDIRECT then [x] else [din.addrs NDIRECT, x]) ++
            Image.appendReads fuel after din (off + n1) (p.drop n1)

def ImageStep.reads (img : Image) : ImageStep -> List Nat
  | .ialloc _ => [Image.i2b img.freeinode]
  | .iappend inum p => Image.i2b inum ::
      Image.appendReads p.length img (img.rinode inum) (img.rinode inum).logical_size p
  | .fixSize inum => [Image.i2b inum]

/-- Make a step on the image file; `none` is an exit with a failure. -/
def ImageStep.onFile (step : ImageStep) (img : Image) : Option Image :=
  if (step.reads img).all (fun sec => decide (sec < imageSuperblock.size)) then
    step.run img
  else none

/-! ## The walk -/

/-- A `struct dirent`: the number of the inode and `DIRSIZ` bytes of the name. -/
def direntBytes (inum : Nat) (name : List UInt8) : List UInt8 :=
  [UInt8.ofNat inum, UInt8.ofNat (inum / 256)] ++ (List.range 14).map (fun i => name.getD i 0)

def dotName : List UInt8 := [46]
def dotdotName : List UInt8 := [46, 46]

/-- The first two entries of a directory. -/
def addDots (cur parent : Nat) (img : Image) : Option Image := do
  let img <- (ImageStep.iappend cur (direntBytes cur dotName)).onFile img
  (ImageStep.iappend cur (direntBytes parent dotdotName)).onFile img

/-- Copy a file, one sector at a time. -/
def addFile (child : Nat) : Nat -> List UInt8 -> Image -> Option Image
  | 0, _, img => some img
  | fuel + 1, content, img =>
      if content = [] then some img
      else do
        let img <- (ImageStep.iappend child (content.take 512)).onFile img
        addFile child fuel (content.drop 512) img

/-- The loop of `add_dir`. -/
def addEntries (cur : Nat) : Listing -> Image -> Option Image
  | .done, img => some img
  | .file name content rest, img => do
      let child := img.freeinode
      let img <- (ImageStep.ialloc T_FILE).onFile img
      let img <- addFile child content.length content img
      let img <- (ImageStep.iappend cur (direntBytes child name)).onFile img
      addEntries cur rest img
  | .dir name inside rest, img => do
      let child := img.freeinode
      let img <- (ImageStep.ialloc T_DIR).onFile img
      let img <- addDots child cur img
      let img <- addEntries child inside img
      let img <- (ImageStep.fixSize child).onFile img
      let img <- (ImageStep.iappend cur (direntBytes child name)).onFile img
      addEntries cur rest img

/-- `add_dir` on the inode `cur`. -/
def addDir (cur parent : Nat) (listing : Listing) (img : Image) : Option Image := do
  let img <- addDots cur parent img
  let img <- addEntries cur listing img
  (ImageStep.fixSize cur).onFile img

/-- The `main` of `mkfs`; `none` is an exit with a failure. -/
def mkfsMain (root : Listing) : Option Image := do
  let img <- (ImageStep.ialloc T_DIR).onFile Image.mkfs
  let img <- addDir ROOTINO ROOTINO root img
  img.balloc img.usedblocks

/-! ## The walk as steps -/

/-- Steps on the image file. -/
def runOnFile (steps : List ImageStep) (img : Image) : Option Image :=
  steps.foldlM (fun img step => step.onFile img) img

variable {img next : Image} {steps : List ImageStep}

theorem runOnFile_single {step : ImageStep} (ran : step.onFile img = some next) :
    runOnFile [step] img = some next := by
  unfold runOnFile
  rw [List.foldlM_cons, ran]
  rfl

theorem runOnFile_append {more : List ImageStep} {last : Image}
    (first : runOnFile steps img = some next) (second : runOnFile more next = some last) :
    runOnFile (steps ++ more) img = some last := by
  unfold runOnFile at first second ⊢
  rw [List.foldlM_append, first]
  exact second

theorem onFile_run {step : ImageStep} (ran : step.onFile img = some next) :
    (forall sec, sec ∈ step.reads img -> sec < imageSuperblock.size) ∧
    step.run img = some next := by
  unfold ImageStep.onFile at ran
  split at ran
  · rename_i inside
    refine ⟨fun sec member => ?_, ran⟩
    exact of_decide_eq_true (List.all_eq_true.mp inside sec member)
  · exact nomatch ran

/-- The number of a new inode. -/
theorem ialloc_onFile {type : Nat} (ran : (ImageStep.ialloc type).onFile img = some next) :
    next = img.ialloc type ∧ next.freeinode = img.freeinode + 1 := by
  have same := Option.some.inj (onFile_run ran).2
  rw [← same]
  exact ⟨rfl, rfl⟩

theorem freeinode_iappend {inum : Nat} {p : List UInt8}
    (ran : (ImageStep.iappend inum p).onFile img = some next) : next.freeinode = img.freeinode := by
  have made : img.iappend inum p = some next := (onFile_run ran).2
  unfold Image.iappend at made
  cases looped : Image.appendLoop p.length img (img.rinode inum)
    (img.rinode inum).logical_size p with
  | none =>
      rw [looped] at made
      exact nomatch made
  | some result =>
      rcases result with ⟨mid, din, off⟩
      rw [looped] at made
      rw [← Option.some.inj made]
      exact (appendLoop_grown _ looped).freeinode

theorem freeinode_fixSize {inum : Nat} (ran : (ImageStep.fixSize inum).onFile img = some next) :
    next.freeinode = img.freeinode := by
  rw [← Option.some.inj (onFile_run ran).2]
  rfl

/-- Steps of the walk: on inodes with numbers below `bound`. -/
structure Walks (steps : List ImageStep) (img next : Image) (bound : Nat) : Prop where
  ran : runOnFile steps img = some next
  targets : forall step, step ∈ steps -> forall inum, step.target = some inum -> inum < bound
  types : forall step, step ∈ steps -> forall type, step = .ialloc type -> type < 2 ^ 16

theorem Walks.refl (bound : Nat) : Walks [] img img bound := ⟨rfl, nofun, nofun⟩

theorem Walks.trans {more : List ImageStep} {last : Image} {bound wider : Nat}
    (first : Walks steps img next bound) (second : Walks more next last wider)
    (widens : bound ≤ wider) : Walks (steps ++ more) img last wider := by
  refine ⟨runOnFile_append first.ran second.ran, fun step member inum isTarget => ?_,
    fun step member => ?_⟩
  · rcases List.mem_append.mp member with early | late
    · exact Nat.lt_of_lt_of_le (first.targets step early inum isTarget) widens
    · exact second.targets step late inum isTarget
  · rcases List.mem_append.mp member with early | late
    · exact first.types step early
    · exact second.types step late

theorem Walks.iappend {inum bound : Nat} {p : List UInt8} (below : inum < bound)
    (ran : (ImageStep.iappend inum p).onFile img = some next) :
    Walks [.iappend inum p] img next bound := by
  refine ⟨runOnFile_single ran, fun step member other isTarget => ?_,
    fun step member type same => ?_⟩
  · rw [List.mem_singleton.mp member] at isTarget
    rw [← Option.some.inj isTarget]
    exact below
  · rw [List.mem_singleton.mp member] at same
    exact nomatch same

theorem Walks.fixSize {inum bound : Nat} (below : inum < bound)
    (ran : (ImageStep.fixSize inum).onFile img = some next) :
    Walks [.fixSize inum] img next bound := by
  refine ⟨runOnFile_single ran, fun step member other isTarget => ?_,
    fun step member type same => ?_⟩
  · rw [List.mem_singleton.mp member] at isTarget
    rw [← Option.some.inj isTarget]
    exact below
  · rw [List.mem_singleton.mp member] at same
    exact nomatch same

theorem Walks.ialloc {type bound : Nat} (small : type < 2 ^ 16)
    (ran : (ImageStep.ialloc type).onFile img = some next) :
    Walks [.ialloc type] img next bound := by
  refine ⟨runOnFile_single ran, fun step member other isTarget => ?_,
    fun step member other same => ?_⟩
  · rw [List.mem_singleton.mp member] at isTarget
    exact nomatch isTarget
  · rw [List.mem_singleton.mp member] at same
    rw [← ImageStep.ialloc.inj same]
    exact small

theorem addDots_walks {cur parent bound : Nat} (below : cur < bound)
    (ran : addDots cur parent img = some next) :
    Exists fun steps => Walks steps img next bound ∧ next.freeinode = img.freeinode := by
  rcases Option.bind_eq_some_iff.mp ran with ⟨middle, first, second⟩
  exact ⟨_, (Walks.iappend below first).trans (Walks.iappend below second) (Nat.le_refl _),
    (freeinode_iappend second).trans (freeinode_iappend first)⟩

theorem addFile_walks {child bound : Nat} (below : child < bound) (fuel : Nat) :
    forall {content : List UInt8} {img next : Image}, addFile child fuel content img = some next ->
      Exists fun steps => Walks steps img next bound ∧ next.freeinode = img.freeinode := by
  induction fuel with
  | zero =>
      intro content img next ran
      rw [addFile] at ran
      rw [← Option.some.inj ran]
      exact ⟨[], Walks.refl _, rfl⟩
  | succ fuel ih =>
      intro content img next ran
      rw [addFile] at ran
      split at ran
      · rw [← Option.some.inj ran]
        exact ⟨[], Walks.refl _, rfl⟩
      · rcases Option.bind_eq_some_iff.mp ran with ⟨middle, first, rest⟩
        rcases ih rest with ⟨steps, walks, same⟩
        exact ⟨_, (Walks.iappend below first).trans walks (Nat.le_refl _),
          same.trans (freeinode_iappend first)⟩

/-- The loop of `add_dir` makes steps and numbers the inodes of the tree one by one. -/
theorem addEntries_walks (listing : Listing) :
    forall {cur : Nat} {img next : Image}, cur < img.freeinode ->
      addEntries cur listing img = some next ->
      Exists fun steps =>
        Walks steps img next next.freeinode ∧ next.freeinode = img.freeinode + listing.inodes := by
  induction listing with
  | done =>
      intro cur img next below ran
      rw [← Option.some.inj ran]
      exact ⟨[], Walks.refl _, rfl⟩
  | file name content rest ih =>
      intro cur img next below ran
      rcases Option.bind_eq_some_iff.mp ran with ⟨i1, made, ran⟩
      rcases Option.bind_eq_some_iff.mp ran with ⟨i2, filled, ran⟩
      rcases Option.bind_eq_some_iff.mp ran with ⟨i3, linked, ran⟩
      have n1 := (ialloc_onFile made).2
      rcases addFile_walks (show img.freeinode < i1.freeinode by omega) _ filled with ⟨s2, w2, n2⟩
      have n3 := freeinode_iappend linked
      rcases ih (show cur < i3.freeinode by omega) ran with ⟨s4, w4, n4⟩
      have w1 : Walks [.ialloc T_FILE] img i1 i1.freeinode := Walks.ialloc (by decide) made
      have w3 : Walks [.iappend cur (direntBytes img.freeinode name)] i2 i3 i3.freeinode :=
        Walks.iappend (by omega) linked
      refine ⟨_, ((w1.trans w2 (Nat.le_refl _)).trans w3 (by omega)).trans w4 (by omega), ?_⟩
      rw [Listing.inodes]
      omega
  | dir name inside rest inner ih =>
      intro cur img next below ran
      rcases Option.bind_eq_some_iff.mp ran with ⟨i1, made, ran⟩
      rcases Option.bind_eq_some_iff.mp ran with ⟨i2, dotted, ran⟩
      rcases Option.bind_eq_some_iff.mp ran with ⟨i3, filled, ran⟩
      rcases Option.bind_eq_some_iff.mp ran with ⟨i4, fixed, ran⟩
      rcases Option.bind_eq_some_iff.mp ran with ⟨i5, linked, ran⟩
      have n1 := (ialloc_onFile made).2
      rcases addDots_walks (show img.freeinode < i1.freeinode by omega) dotted with ⟨s2, w2, n2⟩
      rcases inner (show img.freeinode < i2.freeinode by omega) filled with ⟨s3, w3, n3⟩
      have n4 := freeinode_fixSize fixed
      have n5 := freeinode_iappend linked
      rcases ih (show cur < i5.freeinode by omega) ran with ⟨s6, w6, n6⟩
      have w1 : Walks [.ialloc T_DIR] img i1 i1.freeinode := Walks.ialloc (by decide) made
      have w4 : Walks [.fixSize img.freeinode] i3 i4 i4.freeinode := Walks.fixSize (by omega) fixed
      have w5 : Walks [.iappend cur (direntBytes img.freeinode name)] i4 i5 i5.freeinode :=
        Walks.iappend (by omega) linked
      refine ⟨_, (((((w1.trans w2 (Nat.le_refl _)).trans w3 (by omega)).trans w4 (by omega)).trans
        w5 (by omega)).trans w6 (by omega)), ?_⟩
      rw [Listing.inodes]
      omega

/-- The whole of `main` as steps. -/
theorem mkfsMain_walks {root : Listing} {final : Image} (built : mkfsMain root = some final) :
    Exists fun img => Exists fun steps => Walks steps Image.mkfs img img.freeinode ∧
      img.freeinode = root.inodes + 2 ∧ img.balloc img.usedblocks = some final := by
  have whole : ((ImageStep.ialloc T_DIR).onFile Image.mkfs).bind (fun img =>
      (addDir ROOTINO ROOTINO root img).bind (fun img => img.balloc img.usedblocks)) = some final :=
        built
  rcases Option.bind_eq_some_iff.mp whole with ⟨i1, made, others⟩
  rcases Option.bind_eq_some_iff.mp others with ⟨i4, added, finished⟩
  rcases Option.bind_eq_some_iff.mp added with ⟨i2, dotted, added⟩
  rcases Option.bind_eq_some_iff.mp added with ⟨i3, filled, fixed⟩
  have n1 : i1.freeinode = 2 := (ialloc_onFile made).2
  have isRoot : ROOTINO < i1.freeinode := by
    rw [n1]
    decide
  rcases addDots_walks isRoot dotted with ⟨s2, w2, n2⟩
  rcases addEntries_walks root (show ROOTINO < i2.freeinode by omega) filled with ⟨s3, w3, n3⟩
  have n4 := freeinode_fixSize fixed
  have w1 : Walks [.ialloc T_DIR] Image.mkfs i1 i1.freeinode := Walks.ialloc (by decide) made
  have w4 : Walks [.fixSize ROOTINO] i3 i4 i4.freeinode := Walks.fixSize (by omega) fixed
  exact ⟨i4, _, ((w1.trans w2 (Nat.le_refl _)).trans w3 (by omega)).trans w4 (by omega),
    by omega, finished⟩

/-! ## The blocks that are handed out -/

section Blocks

variable {din after : Dinode} {x : Nat}

theorem direct_free {j : Nat} (made : img.direct din j = (next, after))
    (read : after.addrs j < imageSuperblock.size) (few : img.freeblock ≤ imageSuperblock.size) :
    next.freeblock ≤ imageSuperblock.size := by
  unfold Image.direct at made
  split at made
  · rcases Prod.mk.inj made with ⟨rfl, rfl⟩
    rw [Dinode.setAddr_self] at read
    exact read
  · rcases Prod.mk.inj made with ⟨rfl, rfl⟩
    exact few

theorem entry_free {addr e : Nat} (made : img.entry addr e = (next, x))
    (read : x < imageSuperblock.size) (few : img.freeblock ≤ imageSuperblock.size) :
    next.freeblock ≤ imageSuperblock.size := by
  unfold Image.entry at made
  dsimp only at made
  split at made
  · rcases Prod.mk.inj made with ⟨rfl, rfl⟩
    exact read
  · rcases Prod.mk.inj made with ⟨rfl, rfl⟩
    exact few

/-- The sectors that an iteration of `iappend` reads. -/
def blockReads (fbn : Nat) (after : Dinode) (x : Nat) : List Nat :=
  if fbn < NDIRECT then [x] else [after.addrs NDIRECT, x]

/-- A block that is handed out is read at once. -/
theorem blockFor_free {fbn : Nat} (made : img.blockFor din fbn = (next, after, x))
    (reads : forall sec, sec ∈ blockReads fbn after x -> sec < imageSuperblock.size)
    (few : img.freeblock ≤ imageSuperblock.size) : next.freeblock ≤ imageSuperblock.size := by
  unfold blockReads at reads
  rcases blockFor_cases made with ⟨isDirect, direct, same⟩ | ⟨isEntry, middle, direct, entry⟩
  · rw [if_pos isDirect] at reads
    exact direct_free direct (same ▸ reads x List.mem_cons_self) few
  · rw [if_neg (Nat.not_lt.mpr isEntry)] at reads
    refine entry_free entry (reads x (List.mem_cons_of_mem _ List.mem_cons_self)) ?_
    exact direct_free direct (reads _ List.mem_cons_self) few

theorem appendReads_step {fuel off : Nat} {p : List UInt8} (nonempty : p ≠ [])
    (below : off / BSIZE < MAXFILE) (made : img.blockFor din (off / BSIZE) = (next, after, x)) :
    Image.appendReads (fuel + 1) img din off p =
      blockReads (off / BSIZE) after x ++ Image.appendReads fuel (next.wsect x
        ((next.disk x).splice (off % BSIZE) (pieceLength off p) (fun k => p.getD k 0))) after
        (off + pieceLength off p) (p.drop (pieceLength off p)) := by
  have made' : img.blockFor din (off / 512) = (next, after, x) := made
  have piece : min p.length ((off / 512 + 1) * 512 - off) = pieceLength off p := by
    unfold pieceLength
    simp only [BSIZE]
    omega
  have position : off - off / 512 * 512 = off % BSIZE := by
    simp only [BSIZE]
    omega
  rw [Image.appendReads, if_neg nonempty]
  simp only [if_neg (Nat.not_le.mpr (show off / 512 < MAXFILE from below)), made', piece, position]
  rfl

theorem appendLoop_free (fuel : Nat) :
    forall {img next : Image} {din after : Dinode} {off last : Nat} {p : List UInt8},
      Image.appendLoop fuel img din off p = some (next, after, last) ->
      (forall sec, sec ∈ Image.appendReads fuel img din off p -> sec < imageSuperblock.size) ->
      img.freeblock ≤ imageSuperblock.size -> next.freeblock ≤ imageSuperblock.size := by
  induction fuel with
  | zero =>
      intro img next din after off last p ran _ few
      rw [Image.appendLoop] at ran
      rw [← (Prod.mk.inj (Option.some.inj ran)).1]
      exact few
  | succ fuel ih =>
      intro img next din after off last p ran reads few
      rcases appendLoop_cases ran with ⟨_, rfl, _⟩ | ⟨some_, below, middle, inode, x, made, rest⟩
      · exact few
      · rw [appendReads_step some_ below made] at reads
        have fewer := blockFor_free made
            (fun sec member => reads sec (List.mem_append_left _ member)) few
        exact ih rest (fun sec member => reads sec (List.mem_append_right _ member)) fewer

end Blocks

theorem onFile_free {step : ImageStep} (ran : step.onFile img = some next)
    (few : img.freeblock ≤ imageSuperblock.size) : next.freeblock ≤ imageSuperblock.size := by
  rcases onFile_run ran with ⟨reads, made⟩
  cases step with
  | ialloc type =>
      rw [← Option.some.inj made]
      exact few
  | fixSize inum =>
      rw [← Option.some.inj made]
      exact few
  | iappend inum p =>
      have made' : img.iappend inum p = some next := made
      unfold Image.iappend at made'
      cases looped : Image.appendLoop p.length img (img.rinode inum)
        (img.rinode inum).logical_size p with
      | none =>
          rw [looped] at made'
          exact nomatch made'
      | some result =>
          rcases result with ⟨mid, din, off⟩
          rw [looped] at made'
          have fewer := appendLoop_free _ looped
              (fun sec member => reads sec (List.mem_cons_of_mem _ member)) few
          rw [← Option.some.inj made']
          exact fewer

theorem runOnFile_cons (step : ImageStep) (steps : List ImageStep) :
    runOnFile (step :: steps) img = (step.onFile img).bind (runOnFile steps) := List.foldlM_cons ..

/-- A walk on the image file is a run of the steps, and it hands out blocks of the disk only. -/
theorem runOnFile_runSteps (steps : List ImageStep) : forall {img next : Image},
    runOnFile steps img = some next -> img.freeblock ≤ imageSuperblock.size ->
    runSteps steps img = some next ∧ next.freeblock ≤ imageSuperblock.size := by
  induction steps with
  | nil =>
      intro img next ran few
      rw [← Option.some.inj ran]
      exact ⟨rfl, few⟩
  | cons step rest ih =>
      intro img next ran few
      rw [runOnFile_cons] at ran
      rcases Option.bind_eq_some_iff.mp ran with ⟨middle, first, others⟩
      rcases ih others (onFile_free first few) with ⟨same, fewer⟩
      refine ⟨?_, fewer⟩
      rw [runSteps_cons, (onFile_run first).2]
      exact same

/-- A walk that stays below the number of inodes keeps the image sound. -/
theorem Walks.sound {bound : Nat} (walks : Walks steps img next bound) (sound : img.Sound)
    (few : img.freeblock ≤ imageSuperblock.size) (inodes : bound ≤ imageSuperblock.ninodes)
    (free : next.freeinode ≤ imageSuperblock.ninodes) :
    next.Sound ∧ next.WithinLimits ∧
    forall inum type content, IsInode inum -> inum < img.freeinode -> .fixSize inum ∉ steps ->
      img.HasFile inum type content ->
      next.HasFile inum type (content ++ appendedTo inum steps) := by
  rcases runOnFile_runSteps steps walks.ran few with ⟨ran, fewer⟩
  have proper : forall step, step ∈ steps -> step.Proper := fun step member =>
    ⟨fun inum isTarget => Nat.lt_of_lt_of_le (walks.targets step member inum isTarget) inodes,
      walks.types step member⟩
  have run := runSteps_sound steps sound proper ran ⟨fewer, free⟩
  exact ⟨run.1, ⟨fewer, free⟩, run.2⟩

/-! ## The layout -/

theorem bit_markUsed {count b : Nat} (below : b < BPB) :
    bit (Image.markUsed count (Bytes.fill 0)) b = decide (b < count) := by
  induction count with
  | zero =>
      have inside : b / 8 < BSIZE := by
        simp only [BPB, BSIZE] at below ⊢
        omega
      rw [Image.markUsed, bit, Bytes.get_fill 0 inside, decide_eq_false (Nat.not_lt_zero b)]
      exact Nat.zero_testBit _
  | succ count ih =>
      rw [Image.markUsed, bit_setBit _ below, ih]
      by_cases last : count = b
      · rw [decide_eq_true last, Bool.true_or, decide_eq_true (by omega)]
      · rw [decide_eq_false last, Bool.false_or]
        exact decide_eq_decide.mpr (by omega)

theorem wsect_disk_self (img : Image) (sec : Nat) (data : Block) :
    (img.wsect sec data).disk sec = data := by
  simp only [Image.wsect, Function.update_self]

/-- `mkfs` has handed out this inode number. -/
def Image.HandedOut (img : Image) (inum : Nat) : Prop := 0 < inum ∧ inum < img.freeinode

/-- The finished image is inside the layout that its superblock describes. -/
structure Image.InLayout (img : Image) : Prop where
  inodes : forall inum, img.HandedOut inum -> inum < imageSuperblock.ninodes
  inodeWrites : forall inum, img.HandedOut inum ->
    2 ≤ Image.i2b inum ∧ Image.i2b inum ≤ imageSuperblock.ninodes / IPB + 2
  blocks : forall s, img.volume.slot s ≠ 0 -> img.volume.slot s < imageSuperblock.size
  bitmap : forall b, b < BPB ->
    bit (img.disk (imageSuperblock.ninodes / IPB + 3)) b = decide (b < img.freeblock)

/-- An image that `mkfs` finishes is inside its layout exactly when the tree, with its
root, has fewer files and directories than the superblock has inodes. -/
theorem mkfs_inLayout_iff {root : Listing} {final : Image} (built : mkfsMain root = some final) :
    final.InLayout ↔ root.inodes + 1 < imageSuperblock.ninodes := by
  rcases mkfsMain_walks built with ⟨img, steps, walks, count, finished⟩
  have marked : img.usedblocks < 512 * 8 ∧ final = img.wsect (imageSuperblock.ninodes / IPB + 3)
      (Image.markUsed img.usedblocks (Bytes.fill 0)) := by
    unfold Image.balloc at finished
    split at finished
    · rename_i small
      exact ⟨small, (Option.some.inj finished).symm⟩
    · exact nomatch finished
  have counters : final.freeinode = img.freeinode ∧ final.freeblock = img.freeblock := by
    rw [marked.2]
    exact ⟨rfl, rfl⟩
  constructor
  · intro layout
    have last := layout.inodes (root.inodes + 1) ⟨Nat.succ_pos _, by omega⟩
    exact last
  · intro few
    have start : Image.mkfs.freeblock ≤ imageSuperblock.size := by decide
    have inodes : img.freeinode ≤ imageSuperblock.ninodes := by omega
    rcases walks.sound mkfs_sound start inodes inodes with ⟨sound, limits, _⟩
    have volume : final.volume = img.volume := by
      rw [marked.2]
      exact Superblock.volume_bitmap (Nat.le_refl _) (by decide) _
    refine ⟨fun inum handedOut => ?_, fun inum handedOut => ?_, fun s stored => ?_,
      fun b below => ?_⟩
    · have below := handedOut.2
      omega
    · have below : inum < imageSuperblock.ninodes := by
        have upper := handedOut.2
        omega
      have size : imageSuperblock.ninodes = 200 := rfl
      simp only [Image.i2b, IPB, size] at below ⊢
      omega
    · rw [volume] at stored ⊢
      exact Nat.lt_of_lt_of_le (sound.laid.stored s stored).2 limits.blocks
    · rw [marked.2, wsect_disk_self, sound.laid.count]
      exact bit_markUsed below

/-! ## A directory of empty files -/

/-- `n` files without bytes, with different names. -/
def emptyFiles : Nat -> Listing
  | 0 => .done
  | n + 1 =>
      .file [UInt8.ofNat (48 + n / 100), UInt8.ofNat (48 + n / 10 % 10),
        UInt8.ofNat (48 + n % 10)] [] (emptyFiles n)

theorem emptyFiles_inodes (n : Nat) : (emptyFiles n).inodes = n := by
  induction n with
  | zero => rfl
  | succ n ih => rw [emptyFiles, Listing.inodes, ih]

theorem length_direntBytes (inum : Nat) (name : List UInt8) :
    (direntBytes inum name).length = 16 := by
  rw [direntBytes, List.length_append, List.length_map, List.length_range]
  rfl

/-- The root with `j` entries, each of them in a block of which at most two have been handed out
for it. -/
structure RootOf (img : Image) (j : Nat) : Prop where
  sound : img.Sound
  file : Exists fun content => img.HasFile ROOTINO T_DIR content ∧ content.length = 16 * j
  few : img.freeblock ≤ imageSuperblock.dataStart + 2 * j

/-- Appending to a file inside its last block. -/
theorem appendLoop_inBlock {din : Dinode} {off fuel : Nat} {p : List UInt8} (nonempty : p ≠ [])
    (below : off / BSIZE < MAXFILE) (inBlock : off % BSIZE + p.length ≤ BSIZE) :
    Exists fun middle => Exists fun inode => Exists fun x =>
      img.blockFor din (off / BSIZE) = (middle, inode, x) ∧
      Image.appendReads (fuel + 1) img din off p = blockReads (off / BSIZE) inode x ∧
      forall next after last,
        Image.appendLoop (fuel + 1) img din off p = some (next, after, last) ->
        next.freeblock = middle.freeblock := by
  have piece : pieceLength off p = p.length := by
    unfold pieceLength
    omega
  cases made : img.blockFor din (off / BSIZE) with
  | mk middle rest =>
      refine ⟨middle, rest.1, rest.2, rfl, ?_, fun next after last ran => ?_⟩
      · have ended : forall fuel img din off, Image.appendReads fuel img din off [] = [] := by
          intro fuel img din off
          cases fuel with
          | zero => rfl
          | succ fuel => rw [Image.appendReads, if_pos rfl]
        rw [appendReads_step nonempty below made, piece, List.drop_length, ended, List.append_nil]
      · have ended : forall fuel img din off,
            Image.appendLoop fuel img din off [] = some (img, din, off) := by
          intro fuel img din off
          cases fuel with
          | zero => rfl
          | succ fuel => rw [Image.appendLoop, if_pos rfl]
        rw [appendLoop_step nonempty below made, piece, List.drop_length, ended] at ran
        rw [← (Prod.mk.inj (Option.some.inj ran)).1]
        rfl

/-- The root takes one more entry. -/
theorem RootOf.link {j : Nat} (root : RootOf img j) (small : j < 256) {p : List UInt8}
    (sized : p.length = 16) :
    Exists fun next =>
      (ImageStep.iappend ROOTINO p).onFile img = some next ∧ RootOf next (j + 1) := by
  rcases root with ⟨sound, ⟨content, file, length⟩, few⟩
  have isInode : IsInode ROOTINO := by decide
  have size : (img.rinode ROOTINO).logical_size = 16 * j := by
    rw [← rinode_eq isInode, file.size, length]
  have start : imageSuperblock.dataStart = 29 := rfl
  have disk : imageSuperblock.size = 1024 := rfl
  have largest : MAXFILE * BSIZE = 71680 := rfl
  have nonempty : p ≠ [] := by
    intro empty
    rw [empty] at sized
    cases sized
  have below : 16 * j / BSIZE < MAXFILE := by
    rw [Nat.div_lt_iff_lt_mul (by decide)]
    omega
  have inBlock : 16 * j % BSIZE + p.length ≤ BSIZE := by
    simp only [BSIZE]
    omega
  have fuel : p.length = 15 + 1 := sized
  rcases @appendLoop_inBlock img (img.rinode ROOTINO) (16 * j) 15 p nonempty below inBlock with
    ⟨middle, inode, x, made, reads, grew⟩
  have laid := sound.laid
  rw [← view_rinode isInode] at laid
  rcases blockFor_laid laid below (by omega) made with ⟨middleLaid, _, nonzero, stored⟩
  have more := (blockFor_grown made).few
  have inside : (ImageStep.reads img (.iappend ROOTINO p)).all
      (fun sec => decide (sec < imageSuperblock.size)) = true := by
    refine List.all_eq_true.mpr (fun sec member => decide_eq_true ?_)
    rw [ImageStep.reads, size, fuel, reads] at member
    rcases List.mem_cons.mp member with inodeSector | block
    · rw [inodeSector]
      decide
    · have data := (middleLaid.stored _ (by rw [stored]; exact nonzero)).2
      rw [stored] at data
      unfold blockReads at block
      split at block
      · rw [List.mem_singleton.mp block]
        omega
      · rcases List.mem_cons.mp block with indirect | last
        · have slot : (middle.view ROOTINO inode).slot (ROOTINO, NDIRECT) =
              inode.addrs NDIRECT := by
            rw [Volume.slot_direct (Nat.le_refl _), view_inode]
          rw [indirect]
          by_cases zero : inode.addrs NDIRECT = 0
          · rw [zero]
            decide
          · have handedOut := (middleLaid.stored (ROOTINO, NDIRECT) (by rw [slot]; exact zero)).2
            rw [slot] at handedOut
            omega
        · rw [List.mem_singleton.mp last]
          omega
  cases ran : img.iappend ROOTINO p with
  | none =>
      have large := ((iappend_none p).mp ran).2
      rw [size] at large
      omega
  | some next =>
      have free : next.freeblock = middle.freeblock := by
        have ran' := ran
        unfold Image.iappend at ran'
        cases looped : Image.appendLoop p.length img (img.rinode ROOTINO)
          (img.rinode ROOTINO).logical_size p with
        | none =>
            rw [looped] at ran'
            cases ran'
        | some result =>
            rcases result with ⟨mid, din, off⟩
            rw [looped] at ran'
            rw [size, fuel] at looped
            have same := grew _ _ _ looped
            rw [← Option.some.inj ran']
            exact same
      have beside := iappend_beside sound isInode ran (by omega)
      refine ⟨next, ?_, beside.1.sound, ⟨content ++ p, beside.2 _ _ file, ?_⟩, by omega⟩
      · unfold ImageStep.onFile
        rw [if_pos inside]
        exact ran
      · rw [List.length_append]
        omega

/-- The root stays when a new inode is allocated, also the first one that does not fit. -/
theorem RootOf.ialloc {j : Nat} (root : RootOf img j) (others : ROOTINO < img.freeinode)
    (most : img.freeinode ≤ imageSuperblock.ninodes) :
    (ImageStep.ialloc T_FILE).onFile img = some (img.ialloc T_FILE) ∧
    RootOf (img.ialloc T_FILE) j := by
  have ninodes : imageSuperblock.ninodes = 200 := rfl
  have sector : Image.i2b img.freeinode < imageSuperblock.dataStart := by
    have start : imageSuperblock.dataStart = 29 := rfl
    simp only [Image.i2b, IPB, ninodes, start] at most ⊢
    omega
  refine ⟨?_, ?_⟩
  · unfold ImageStep.onFile
    rw [if_pos]
    · rfl
    · refine List.all_eq_true.mpr (fun sec member => decide_eq_true ?_)
      rw [List.mem_singleton.mp member]
      exact Nat.lt_trans sector (by decide)
  · by_cases room : img.freeinode < imageSuperblock.ninodes
    · have made := ialloc_beside root.sound (show T_FILE < 2 ^ 16 by decide) room
      rcases root.file with ⟨content, file, length⟩
      exact ⟨made.1.sound, ⟨content, made.1.files _ _ _ (Nat.ne_of_lt others) file, length⟩,
        root.few⟩
    · have last : img.freeinode = 200 := by omega
      have spare : Image.i2b img.freeinode = 27 := by rw [last]; rfl
      have noInode : forall i, i < imageSuperblock.ninodes -> IBLOCK i ≠ 27 := by
        intro i below
        simp only [IBLOCK, IPB, ninodes] at below ⊢
        omega
      have volume : (img.ialloc T_FILE).volume = img.volume := by
        unfold Image.ialloc Image.winode Image.wsect Image.volume
        rw [spare]
        exact Superblock.volume_other noInode (by decide) _
      have disk : forall b, imageSuperblock.dataStart ≤ b ->
          (img.ialloc T_FILE).disk b = img.disk b := by
        intro b above
        exact Function.update_of_ne (Nat.ne_of_gt (Nat.lt_of_lt_of_le sector above)) _ _
      rcases root.file with ⟨content, file, length⟩
      refine ⟨⟨?_, Nat.succ_pos _⟩, ⟨content, file.congr ?_ (fun bn => ?_) (fun bn => ?_), length⟩,
        root.few⟩
      · rw [volume]
        exact root.sound.laid.congr (fun _ => rfl) rfl rfl rfl disk
      · rw [volume]
      · rw [volume]
        exact id
      · rw [volume]

/-- `mkfs` gets through such a directory, and does not notice that it has run out of inodes. -/
theorem addEntries_emptyFiles (n : Nat) :
    forall {img : Image} {j : Nat}, RootOf img j -> j < 256 - n -> ROOTINO < img.freeinode ->
      img.freeinode + n ≤ imageSuperblock.ninodes + 1 ->
      Exists fun next =>
        addEntries ROOTINO (emptyFiles n) img = some next ∧ RootOf next (j + n) := by
  induction n with
  | zero => exact fun {img} _ root _ _ _ => ⟨img, rfl, root⟩
  | succ n ih =>
      intro img j root small others most
      rcases root.ialloc others (by omega) with ⟨made, rootToo⟩
      rcases rootToo.link (by omega) (length_direntBytes img.freeinode _) with
        ⟨next, linked, rootThree⟩
      have number : next.freeinode = img.freeinode + 1 := freeinode_iappend linked
      rcases ih rootThree (by omega) (by omega) (by omega) with ⟨last, rest, rootFour⟩
      have count : j + 1 + n = j + (n + 1) := by omega
      rw [count] at rootFour
      refine ⟨last, ?_, rootFour⟩
      have copied : addFile img.freeinode 0 [] (img.ialloc T_FILE) = some (img.ialloc T_FILE) := rfl
      rw [emptyFiles, addEntries]
      exact Option.bind_eq_some_iff.mpr ⟨_, made, Option.bind_eq_some_iff.mpr ⟨_, copied,
        Option.bind_eq_some_iff.mpr ⟨_, linked, rest⟩⟩⟩

theorem addDir_emptyFiles {n : Nat} (most : n + 1 ≤ imageSuperblock.ninodes) (root : RootOf img 0)
    (first : img.freeinode = 2) : Exists fun next =>
      addDir ROOTINO ROOTINO (emptyFiles n) img = some next ∧ next.usedblocks < 512 * 8 ∧
        next.freeblock < imageSuperblock.size := by
  have ninodes : imageSuperblock.ninodes = 200 := rfl
  rcases root.link (by decide) (length_direntBytes ROOTINO dotName) with ⟨i1, dotted, rootOne⟩
  rcases rootOne.link (by decide) (length_direntBytes ROOTINO dotdotName) with
    ⟨i2, dotdotted, rootTwo⟩
  have number : i2.freeinode = 2 :=
    ((freeinode_iappend dotdotted).trans (freeinode_iappend dotted)).trans first
  have isRoot : ROOTINO < i2.freeinode := by
    rw [number]
    decide
  rcases addEntries_emptyFiles n rootTwo (by omega) isRoot (by omega) with ⟨i3, filled, rootLast⟩
  have fixed : (ImageStep.fixSize ROOTINO).onFile i3 = some (i3.fixSize ROOTINO) := by
    unfold ImageStep.onFile
    exact if_pos (by simp only [ImageStep.reads]; decide)
  have few : i3.usedblocks < 512 * 8 ∧ i3.freeblock < imageSuperblock.size := by
    have counted : i3.usedblocks = i3.freeblock := rootLast.sound.laid.count
    have most := rootLast.few
    have start : imageSuperblock.dataStart = 29 := rfl
    have size : imageSuperblock.size = 1024 := rfl
    omega
  have dots : addDots ROOTINO ROOTINO img = some i2 :=
    Option.bind_eq_some_iff.mpr ⟨_, dotted, dotdotted⟩
  exact ⟨_, Option.bind_eq_some_iff.mpr ⟨_, dots, Option.bind_eq_some_iff.mpr ⟨_, filled, fixed⟩⟩,
    few⟩

/-- The image of such a directory is not full. -/
theorem mkfsMain_emptyFiles_room {n : Nat} (most : n + 1 ≤ imageSuperblock.ninodes) :
    Exists fun final =>
      mkfsMain (emptyFiles n) = some final ∧ final.freeblock < imageSuperblock.size := by
  have made := ialloc_beside mkfs_sound (show T_DIR < 2 ^ 16 by decide) (by decide)
  have first : (ImageStep.ialloc T_DIR).onFile Image.mkfs = some (Image.mkfs.ialloc T_DIR) := by
    unfold ImageStep.onFile
    exact if_pos (by decide)
  have root : RootOf (Image.mkfs.ialloc T_DIR) 0 :=
    ⟨made.1.sound, ⟨[], made.2, rfl⟩, Nat.le_refl _⟩
  rcases addDir_emptyFiles most root rfl with ⟨next, walked, few⟩
  have whole : mkfsMain (emptyFiles n) = ((ImageStep.ialloc T_DIR).onFile Image.mkfs).bind
      (fun img =>
      (addDir ROOTINO ROOTINO (emptyFiles n) img).bind (fun img => img.balloc img.usedblocks)) :=
        rfl
  rw [whole, first, Option.bind_some, walked, Option.bind_some]
  exact ⟨_, if_pos few.1, few.2⟩

theorem mkfsMain_emptyFiles {n : Nat} (most : n + 1 ≤ imageSuperblock.ninodes) :
    Exists fun final => mkfsMain (emptyFiles n) = some final := by
  rcases mkfsMain_emptyFiles_room most with ⟨final, built, _⟩
  exact ⟨final, built⟩

theorem mkfs_inLayout_iff_threeFiles :
    Exists fun final => mkfsMain (emptyFiles 3) = some final ∧ final.InLayout := by
  rcases mkfsMain_emptyFiles (show 3 + 1 ≤ imageSuperblock.ninodes by decide) with ⟨final, built⟩
  exact ⟨final, built, (mkfs_inLayout_iff built).mpr (by decide)⟩

/-- A directory of 199 empty files and the root take the inodes 1 to 200. -/
theorem mkfs_runs_out_of_inodes :
    ¬ forall (root : Listing) (final : Image), mkfsMain root = some final -> final.InLayout := by
  intro always
  rcases mkfsMain_emptyFiles (show 199 + 1 ≤ imageSuperblock.ninodes by decide) with ⟨final, built⟩
  rcases mkfsMain_walks built with ⟨img, steps, _, count, finished⟩
  have numbers : final.freeinode = img.freeinode := by
    unfold Image.balloc at finished
    split at finished
    · rw [← Option.some.inj finished]
      rfl
    · exact nomatch finished
  rw [emptyFiles_inodes] at count
  have handedOut : final.HandedOut 200 := ⟨by decide, by omega⟩
  exact absurd ((always _ final built).inodes 200 handedOut) (by decide)

end TripleFs
end OsProjects
