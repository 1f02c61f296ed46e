import OsProjects.TripleFs.Slots

namespace OsProjects
namespace TripleFs

open Machine

/-!
# Building an image

`mkfs` writes the sectors of an image file directly.  It hands out inodes and blocks
in order and never takes one back, and it appends to one file at a time, reading the
inode from the image and writing it again for each piece.
-/

/-- The image file and the counters of `mkfs`. -/
structure Image where
  disk : Nat -> Block
  freeblock : Nat
  usedblocks : Nat
  freeinode : Nat

/-- The superblock that `main` asks for. -/
def imageSuperblock : Superblock := ⟨1024, 995, 200⟩

/-- The superblock as it is written to sector 1. -/
def superblockBytes (sb : Superblock) : Block :=
  (((Bytes.fill 0).setWord 0 sb.size).setWord 1 sb.nblocks).setWord 2 sb.ninodes

namespace Image

/-- The image after `mkfs(995, 200, 1024)`. -/
def mkfs : Image where
  disk := Function.update (fun _ => Bytes.fill 0) 1 (superblockBytes imageSuperblock)
  freeblock := imageSuperblock.ninodes / IPB + 3 + (imageSuperblock.size / BPB + 1)
  usedblocks := imageSuperblock.ninodes / IPB + 3 + (imageSuperblock.size / BPB + 1)
  freeinode := 1

def wsect (img : Image) (sec : Nat) (data : Block) : Image :=
  { img with disk := Function.update img.disk sec data }

def i2b (inum : Nat) : Nat := inum / IPB + 2

def rinode (img : Image) (inum : Nat) : Dinode := getDinode (img.disk (i2b inum)) (inum % IPB)

def winode (img : Image) (inum : Nat) (din : Dinode) : Image :=
  img.wsect (i2b inum) (putDinode (inum % IPB) din (img.disk (i2b inum)))

/-- Allocate an inode; its number is the old `freeinode`. -/
def ialloc (img : Image) (type : Nat) : Image :=
  winode { img with freeinode := img.freeinode + 1 } img.freeinode
    { Dinode.blank with type := type, nlink := 1 }

/-- Hand out a block. -/
def takeBlock (img : Image) : Image :=
  { img with freeblock := img.freeblock + 1, usedblocks := img.usedblocks + 1 }

/-- Make sure that an address of an inode is there. -/
def direct (img : Image) (din : Dinode) (i : Nat) : Image × Dinode :=
  if din.addrs i = 0 then (img.takeBlock, din.setAddr i img.freeblock)
  else (img, din)

/-- Make sure that an entry of the indirect block is there, and return it. -/
def entry (img : Image) (addr i : Nat) : Image × Nat :=
  let indirect := img.disk addr
  if indirect.word i = 0 then
    (img.takeBlock.wsect addr (indirect.setWord i img.freeblock), img.freeblock)
  else (img, indirect.word i)

/-- The block `fbn` of a file: the image, the inode and the block number. -/
def blockFor (img : Image) (din : Dinode) (fbn : Nat) : Image × Dinode × Nat :=
  if fbn < NDIRECT then
    let (img, din) := img.direct din fbn
    (img, din, din.addrs fbn)
  else
    let (img, din) := img.direct din NDIRECT
    let (img, x) := img.entry (din.addrs NDIRECT) (fbn - NDIRECT)
    (img, din, x)

/-- The loop of `iappend`; `none` is a failed assertion. -/
def appendLoop : Nat -> Image -> Dinode -> Nat -> List UInt8 -> Option (Image × Dinode × Nat)
  | 0, img, din, off, _ => some (img, din, off)
  | fuel + 1, img, din, off, p =>
      if p = [] then some (img, din, off)
      else
        let fbn := off / 512
        if MAXFILE ≤ fbn then none
        else
          let (img, din, x) := img.blockFor din fbn
          let n1 := min p.length ((fbn + 1) * 512 - off)
          let img := img.wsect x ((img.disk x).splice (off - fbn * 512) n1 (fun k => p.getD k 0))
          appendLoop fuel img din (off + n1) (p.drop n1)

def iappend (img : Image) (inum : Nat) (p : List UInt8) : Option Image :=
  match appendLoop p.length img (img.rinode inum) (img.rinode inum).logical_size p with
  | none => none
  | some (img, din, off) => some (img.winode inum { din with logical_size := off })

/-- The end of `add_dir`: the size of a directory is rounded up to more than it needs. -/
def fixSize (img : Image) (inum : Nat) : Image :=
  let din := img.rinode inum
  img.winode inum { din with logical_size := (din.logical_size / BSIZE + 1) * BSIZE % 2 ^ 32 }

/-- The loop of `balloc`. -/
def markUsed : Nat -> Block -> Block
  | 0, buf => buf
  | i + 1, buf => setBit i (markUsed i buf)

/-- Write the bitmap; `none` is a failed assertion. -/
def balloc (img : Image) (used : Nat) : Option Image :=
  if used < 512 * 8 then
    some (img.wsect (imageSuperblock.ninodes / IPB + 3) (markUsed used (Bytes.fill 0)))
  else none

end Image

/-- What `add_dir` does to the image, step by step. -/
inductive ImageStep
  | ialloc (type : Nat)
  | iappend (inum : Nat) (p : List UInt8)
  | fixSize (inum : Nat)

def ImageStep.run (img : Image) : ImageStep -> Option Image
  | .ialloc type => some (img.ialloc type)
  | .iappend inum p => img.iappend inum p
  | .fixSize inum => some (img.fixSize inum)

/-! ## Blocks are handed out in order -/

/-- The image and the inode that `iappend` has in memory. -/
def Image.view (img : Image) (inum : Nat) (din : Dinode) : Volume :=
  (imageSuperblock.volume img.disk).setInode inum din

/-- The block numbers in a volume have been handed out by `mkfs`, each of them once,
and the blocks that have not been handed out are zero. -/
structure Laid (img : Image) (v : Volume) : Prop where
  start : imageSuperblock.dataStart ≤ img.freeblock
  stored : forall s, v.slot s ≠ 0 -> imageSuperblock.dataStart ≤ v.slot s ∧ v.slot s < img.freeblock
  once : forall s t, v.slot s ≠ 0 -> v.slot s = v.slot t -> s = t
  zeros : forall b, img.freeblock ≤ b -> img.disk b = Bytes.fill 0
  blocks : forall b, imageSuperblock.dataStart ≤ b -> v.block b = img.disk b
  count : img.usedblocks = img.freeblock

/-- The block numbers that a volume stores. -/
def Volume.Stores (v : Volume) (b : Nat) : Prop := b ≠ 0 ∧ Exists fun s => v.slot s = b

theorem Laid.owned {img : Image} {v : Volume} (laid : Laid img v) : Owned 0 v.Stores v.slot where
  absent := fun stores => stores.1 rfl
  sound := fun s stored => ⟨stored, s, rfl⟩
  once := laid.once
  complete := fun _ stores => stores.2

theorem Laid.fresh {img : Image} {v : Volume} (laid : Laid img v) : ¬ v.Stores img.freeblock := by
  rintro ⟨nonzero, s, same⟩
  have handedOut := (laid.stored s (by rw [same]; exact nonzero)).2
  omega

theorem Laid.free_pos {img : Image} {v : Volume} (laid : Laid img v) : img.freeblock ≠ 0 := by
  have positive : 0 < imageSuperblock.dataStart := by decide
  have start := laid.start
  omega

/-- What is stored stays, no byte of a file changes, and neither does another inode. -/
structure Extends (inum : Nat) (v w : Volume) : Prop where
  inodes : forall i, i ≠ inum -> w.inode i = v.inode i
  kept : forall s, v.slot s ≠ 0 -> w.slot s = v.slot s
  content : forall i bn, w.content i bn = v.content i bn

theorem Extends.refl (inum : Nat) (v : Volume) : Extends inum v v :=
  ⟨fun _ _ => rfl, fun _ _ => rfl, fun _ _ => rfl⟩

theorem Extends.trans {inum : Nat} {u v w : Volume} (first : Extends inum u v)
    (second : Extends inum v w) : Extends inum u w := by
  refine ⟨fun i different => (second.inodes i different).trans (first.inodes i different),
    fun s stored => ?_, fun i bn => (second.content i bn).trans (first.content i bn)⟩
  have same := first.kept s stored
  rw [second.kept s (by rw [same]; exact stored), same]

/-- Handing out the next block for a slot. -/
theorem Laid.take {img next : Image} {v w : Volume} {s : Nat × Nat} {inum : Nat} (laid : Laid img v)
    (empty : v.slot s = 0) (slots : forall t, w.slot t = Function.update v.slot s img.freeblock t)
    (counts : next.freeblock = img.freeblock + 1 ∧ next.usedblocks = img.usedblocks + 1)
    (inodes : forall i, i ≠ inum -> w.inode i = v.inode i)
    (disk : forall b, img.freeblock ≤ b -> next.disk b = img.disk b)
    (blocks : forall b, imageSuperblock.dataStart ≤ b -> w.block b = next.disk b)
    (data : forall i bn, v.slot (i, Volume.place bn) ≠ 0 ->
      w.block (v.slot (i, Volume.place bn)) = v.block (v.slot (i, Volume.place bn))) :
    Laid next w ∧ Extends inum v w ∧ w.slot s = img.freeblock := by
  have owned := laid.owned.fill empty laid.fresh laid.free_pos
  have start := laid.start
  have table : w.slot = Function.update v.slot s img.freeblock := funext slots
  refine ⟨⟨by omega, fun t stored => ?_, ?_, fun b beyond => ?_,
    blocks, by rw [counts.1, counts.2, laid.count]⟩,
    ⟨inodes, fun t stored => ?_, Volume.content_fill slots empty ?_ data⟩, ?_⟩
  · rw [slots] at stored ⊢
    by_cases here : t = s
    · rw [here, Function.update_self]
      omega
    · rw [Function.update_of_ne here] at stored ⊢
      have range := laid.stored t stored
      omega
  · rw [table]
    exact owned.once
  · rw [disk b (by omega), laid.zeros b (by omega)]
  · have different : t ≠ s := by
      intro here
      rw [here] at stored
      exact stored empty
    rw [slots, Function.update_of_ne different]
  · rw [blocks _ start, disk _ (Nat.le_refl _), laid.zeros _ (Nat.le_refl _)]
  · rw [slots, Function.update_self]

section Steps

variable {img : Image} {inum : Nat} {din : Dinode}

theorem view_inode : (img.view inum din).inode inum = din := by
  simp only [Image.view, Volume.setInode, Function.update_self]

theorem view_setInode (other : Dinode) :
    (img.view inum din).setInode inum other = img.view inum other := by
  unfold Image.view Volume.setInode
  rw [Function.update_idem]

theorem view_wsect {x : Nat} (above : imageSuperblock.dataStart ≤ x) (data : Block) :
    (img.wsect x data).view inum din = (img.view inum din).setBlock x data := by
  unfold Image.view Image.wsect
  rw [Superblock.volume_setBlock above]
  rfl

/-- The two steps that hand out a block: for an address of the inode ... -/
theorem direct_laid (laid : Laid img (img.view inum din)) {j : Nat} (below : j ≤ NDIRECT)
    {next : Image} {after : Dinode} (made : img.direct din j = (next, after)) :
    Laid next (next.view inum after) ∧ Extends inum (img.view inum din) (next.view inum after) ∧
      after.addrs j ≠ 0 ∧ (next.view inum after).slot (inum, j) = after.addrs j := by
  have stored : forall {im : Image} {d : Dinode}, (im.view inum d).slot (inum, j) = d.addrs j := by
    intro im d
    rw [Volume.slot_direct below, view_inode]
  unfold Image.direct at made
  by_cases missing : din.addrs j = 0
  · rw [if_pos missing] at made
    rcases Prod.mk.inj made with ⟨rfl, rfl⟩
    have zero : (img.view inum din).block img.freeblock = Bytes.fill 0 := by
      rw [laid.blocks _ laid.start, laid.zeros _ (Nat.le_refl _)]
    have slots := @Volume.slot_setAddr (img.view inum din) inum j img.freeblock
      (din.setAddr j img.freeblock) below (by rw [view_inode]; rfl)
      (fun isIndirect => ⟨by rw [view_inode, ← isIndirect]; exact missing, zero⟩)
    rw [view_setInode] at slots
    have inodes : forall i, i ≠ inum -> (img.takeBlock.view inum
        (din.setAddr j img.freeblock)).inode i = (img.view inum din).inode i := by
      intro i different
      simp only [Image.view, Volume.setInode, Function.update_of_ne different]
      rfl
    have taken := @Laid.take img img.takeBlock _ _ _ inum laid (by rw [stored]; exact missing) slots
      ⟨rfl, rfl⟩ inodes (fun _ _ => rfl) laid.blocks (fun _ _ _ => rfl)
    refine ⟨taken.1, taken.2.1, ?_, stored⟩
    rw [Dinode.setAddr_self]
    exact laid.free_pos
  · rw [if_neg missing] at made
    rcases Prod.mk.inj made with ⟨rfl, rfl⟩
    exact ⟨laid, Extends.refl _ _, missing, stored⟩

/-- ... and for an entry of the indirect block. -/
theorem entry_laid (laid : Laid img (img.view inum din)) (indirect : din.addrs NDIRECT ≠ 0)
    {e : Nat} (below : e < NINDIRECT) (small : img.freeblock < 2 ^ 32) {next : Image} {x : Nat}
    (made : img.entry (din.addrs NDIRECT) e = (next, x)) :
    Laid next (next.view inum din) ∧ Extends inum (img.view inum din) (next.view inum din) ∧ x ≠ 0 ∧
    (next.view inum din).slot (inum, NDIRECT + 1 + e) = x := by
  have mine : ((img.view inum din).inode inum).addrs NDIRECT = din.addrs NDIRECT := by
    rw [view_inode]
  have here : (img.view inum din).slot (inum, NDIRECT) = din.addrs NDIRECT :=
    (Volume.slot_direct (Nat.le_refl _)).trans mine
  have above := (laid.stored (inum, NDIRECT) (by rw [here]; exact indirect)).1
  have handedOut := (laid.stored (inum, NDIRECT) (by rw [here]; exact indirect)).2
  rw [here] at above handedOut
  have word : (img.view inum din).slot (inum, NDIRECT + 1 + e) =
      (img.disk (din.addrs NDIRECT)).word e := by
    rw [Volume.slot_entry (by rw [mine]; exact indirect), mine, laid.blocks _ above]
  unfold Image.entry at made
  by_cases missing : (img.disk (din.addrs NDIRECT)).word e = 0
  · simp only [if_pos missing] at made
    rcases Prod.mk.inj made with ⟨rfl, rfl⟩
    have alone := Volume.indirect_alone laid.owned mine indirect
    have slots := Volume.slot_setEntry mine indirect alone below small
    have stored : (img.takeBlock.wsect (din.addrs NDIRECT)
        ((img.disk (din.addrs NDIRECT)).setWord e img.freeblock)).view inum din =
        (img.view inum din).setBlock (din.addrs NDIRECT)
          (((img.view inum din).block (din.addrs NDIRECT)).setWord e img.freeblock) := by
      rw [view_wsect above, laid.blocks _ above]
      rfl
    rw [stored]
    have taken := @Laid.take img (img.takeBlock.wsect (din.addrs NDIRECT)
        ((img.disk (din.addrs NDIRECT)).setWord e img.freeblock)) _ _ _ inum laid
        (by rw [word]; exact missing) slots ⟨rfl, rfl⟩ (fun _ _ => rfl) (fun b beyond => ?_)
        (fun b inside => ?_) (fun j bn stored => ?_)
    · exact ⟨taken.1, taken.2.1, laid.free_pos, taken.2.2⟩
    · have different : b ≠ din.addrs NDIRECT := by omega
      exact Function.update_of_ne different _ _
    · by_cases same : b = din.addrs NDIRECT
      · rw [same]
        simp only [Volume.setBlock, Image.wsect, Function.update_self, laid.blocks _ above]
      · simp only [Volume.setBlock, Image.wsect, Function.update_of_ne same, laid.blocks _ inside]
        rfl
    · have different : (img.view inum din).slot (j, Volume.place bn) ≠ din.addrs NDIRECT := by
        intro same
        have equal := laid.once (j, Volume.place bn) (inum, NDIRECT) stored (same.trans here.symm)
        exact Volume.place_ne_indirect bn (Prod.mk.inj equal).2
      exact Function.update_of_ne different _ _
  · simp only [if_neg missing] at made
    rcases Prod.mk.inj made with ⟨rfl, rfl⟩
    exact ⟨laid, Extends.refl _ _, missing, word⟩

/-- What `mkfs` never changes while it appends, and the blocks it has left. -/
structure Grown (img : Image) (din : Dinode) (next : Image) (after : Dinode) (most : Nat) :
    Prop where
  head : after = { din with addrs := after.addrs }
  noMore : forall i, NDIRECT < i -> after.addrs i = din.addrs i
  more : img.freeblock ≤ next.freeblock
  few : next.freeblock ≤ img.freeblock + most
  freeinode : next.freeinode = img.freeinode

theorem Grown.trans {other last : Image} {after final : Dinode} {m n : Nat}
    (first : Grown img din other after m) (second : Grown other after last final n) :
    Grown img din last final (m + n) := by
  refine ⟨?_, fun i beyond => (second.noMore i beyond).trans (first.noMore i beyond),
    Nat.le_trans first.more second.more, ?_, second.freeinode.trans first.freeinode⟩
  · rw [second.head, first.head]
  · have few := second.few
    have before := first.few
    omega

theorem Grown.refl (img : Image) (din : Dinode) (most : Nat) : Grown img din img din most :=
  ⟨rfl, fun _ _ => rfl, Nat.le_refl _, Nat.le_add_right _ _, rfl⟩

theorem direct_grown {j : Nat} (below : j ≤ NDIRECT) {next : Image} {after : Dinode}
    (made : img.direct din j = (next, after)) : Grown img din next after 1 := by
  unfold Image.direct at made
  split at made
  · rcases Prod.mk.inj made with ⟨rfl, rfl⟩
    exact ⟨rfl, fun i beyond => Dinode.setAddr_of_ne _ _ (by omega), Nat.le_succ _,
      Nat.le_refl _, rfl⟩
  · rcases Prod.mk.inj made with ⟨rfl, rfl⟩
    exact Grown.refl _ _ 1

theorem entry_grown (din : Dinode) {addr e x : Nat} {next : Image}
    (made : img.entry addr e = (next, x)) : Grown img din next din 1 := by
  unfold Image.entry at made
  dsimp only at made
  split at made
  · rcases Prod.mk.inj made with ⟨rfl, rfl⟩
    exact ⟨rfl, fun _ _ => rfl, Nat.le_succ _, Nat.le_refl _, rfl⟩
  · rcases Prod.mk.inj made with ⟨rfl, rfl⟩
    exact Grown.refl _ _ 1

/-- The two ways to a block. -/
theorem blockFor_cases {fbn x : Nat} {next : Image} {after : Dinode}
    (made : img.blockFor din fbn = (next, after, x)) :
    (fbn < NDIRECT ∧ img.direct din fbn = (next, after) ∧ x = after.addrs fbn) ∨
    (NDIRECT ≤ fbn ∧ Exists fun middle => img.direct din NDIRECT = (middle, after) ∧
      middle.entry (after.addrs NDIRECT) (fbn - NDIRECT) = (next, x)) := by
  unfold Image.blockFor at made
  by_cases below : fbn < NDIRECT
  · left
    rw [if_pos below] at made
    cases step : img.direct din fbn with
    | mk middle inode =>
        rw [step] at made
        rcases Prod.mk.inj made with ⟨rfl, rest⟩
        rcases Prod.mk.inj rest with ⟨rfl, rfl⟩
        exact ⟨below, rfl, rfl⟩
  · right
    rw [if_neg below] at made
    cases step : img.direct din NDIRECT with
    | mk middle inode =>
        rw [step] at made
        cases stepTwo : middle.entry (inode.addrs NDIRECT) (fbn - NDIRECT) with
        | mk last found =>
            simp only [stepTwo] at made
            rcases Prod.mk.inj made with ⟨rfl, rest⟩
            rcases Prod.mk.inj rest with ⟨rfl, rfl⟩
            exact ⟨Nat.not_lt.mp below, middle, rfl, stepTwo⟩

theorem blockFor_grown {fbn x : Nat} {next : Image} {after : Dinode}
    (made : img.blockFor din fbn = (next, after, x)) : Grown img din next after 2 := by
  rcases blockFor_cases made with ⟨below, direct, _⟩ | ⟨_, middle, direct, entry⟩
  · exact (direct_grown (Nat.le_of_lt below) direct).trans (Grown.refl _ _ 1)
  · exact (direct_grown (Nat.le_refl _) direct).trans (entry_grown _ entry)

/-- The block for a logical block of the file is in its slot. -/
theorem blockFor_laid (laid : Laid img (img.view inum din)) {fbn : Nat} (below : fbn < MAXFILE)
    (small : img.freeblock + 2 < 2 ^ 32) {x : Nat} {next : Image} {after : Dinode}
    (made : img.blockFor din fbn = (next, after, x)) :
    Laid next (next.view inum after) ∧ Extends inum (img.view inum din) (next.view inum after) ∧
    x ≠ 0 ∧ (next.view inum after).slot (inum, Volume.place fbn) = x := by
  unfold Volume.place
  rcases blockFor_cases made with ⟨isDirect, direct, rfl⟩ | ⟨isEntry, middle, direct, entry⟩
  · rw [if_pos isDirect]
    exact direct_laid laid (Nat.le_of_lt isDirect) direct
  · rw [if_neg (Nat.not_lt.mpr isEntry)]
    rcases direct_laid laid (Nat.le_refl NDIRECT) direct with ⟨middleLaid, extended, present, _⟩
    have few := (direct_grown (Nat.le_refl NDIRECT) direct).few
    have index : fbn - NDIRECT < NINDIRECT := by
      simp only [MAXFILE] at below
      omega
    have position : NDIRECT + 1 + (fbn - NDIRECT) = fbn + 1 := by omega
    have found := entry_laid middleLaid present index (by omega) entry
    rw [position] at found
    exact ⟨found.1, extended.trans found.2.1, found.2.2⟩

/-- What appending `p` at `off` does to the files. -/
structure Appended (v w : Volume) (inum off : Nat) (p : List UInt8) : Prop where
  inodes : forall i, i ≠ inum -> w.inode i = v.inode i
  kept : forall s, v.slot s ≠ 0 -> w.slot s = v.slot s
  others : forall i bn, i ≠ inum -> w.content i bn = v.content i bn
  bytes : forall x, w.byte inum x =
    if off ≤ x ∧ x < off + p.length then p.getD (x - off) 0 else v.byte inum x
  covered : forall x, off ≤ x -> x < off + p.length -> w.slot (inum, Volume.place (x / BSIZE)) ≠ 0

theorem Appended.refl (v : Volume) (inum off : Nat) : Appended v v inum off [] := by
  refine ⟨fun _ _ => rfl, fun _ _ => rfl, fun _ _ _ => rfl, fun x => ?_, fun x lower upper => ?_⟩
  · rw [if_neg]
    rintro ⟨lower, upper⟩
    exact absurd lower (Nat.not_le.mpr upper)
  · exact absurd lower (Nat.not_le.mpr upper)

theorem Extends.appended {v w : Volume} (extended : Extends inum v w) (off : Nat) :
    Appended v w inum off [] := by
  refine ⟨extended.inodes, extended.kept, fun i bn _ => extended.content i bn, fun x => ?_,
    fun x lower upper => ?_⟩
  · rw [if_neg]
    · unfold Volume.byte
      rw [extended.content]
    · rintro ⟨lower, upper⟩
      exact absurd lower (Nat.not_le.mpr upper)
  · exact absurd lower (Nat.not_le.mpr upper)

/-- Appending one piece and then another. -/
theorem Appended.trans {u v w : Volume} {off : Nat} {p q : List UInt8}
    (first : Appended u v inum off p) (second : Appended v w inum (off + p.length) q) :
    Appended u w inum off (p ++ q) := by
  refine ⟨fun i different => (second.inodes i different).trans (first.inodes i different),
    fun s stored => ?_, fun i bn different => ?_, fun x => ?_, fun x lower upper => ?_⟩
  · have same := first.kept s stored
    rw [second.kept s (by rw [same]; exact stored), same]
  · rw [second.others i bn different, first.others i bn different]
  · rw [second.bytes, first.bytes, List.length_append]
    by_cases late : off + p.length ≤ x ∧ x < off + p.length + q.length
    · rw [if_pos late, if_pos (by omega), List.getD_eq_getElem?_getD, List.getD_eq_getElem?_getD,
        List.getElem?_append_right (by omega)]
      congr 2
      omega
    · rw [if_neg late]
      by_cases early : off ≤ x ∧ x < off + p.length
      · rw [if_pos early, if_pos (by omega), List.getD_eq_getElem?_getD, List.getD_eq_getElem?_getD,
          List.getElem?_append_left (by omega)]
      · rw [if_neg early, if_neg (by omega)]
  · rw [List.length_append] at upper
    by_cases late : off + p.length ≤ x
    · exact second.covered x late (by omega)
    · have stored := first.covered x lower (by omega)
      rw [second.kept _ stored]
      exact stored

/-- Writing part of a logical block. -/
theorem write_laid (laid : Laid img (img.view inum din)) {off n x : Nat} (p : List UInt8)
    (stored : (img.view inum din).slot (inum, Volume.place (off / BSIZE)) = x) (nonzero : x ≠ 0)
    (short : n ≤ p.length) (fits : off % BSIZE + n ≤ BSIZE) :
    Laid (img.wsect x ((img.disk x).splice (off % BSIZE) n (fun k => p.getD k 0)))
      ((img.wsect x ((img.disk x).splice (off % BSIZE) n (fun k => p.getD k 0))).view inum din) ∧
    Appended (img.view inum din)
      ((img.wsect x ((img.disk x).splice (off % BSIZE) n (fun k => p.getD k 0))).view inum din)
      inum off (p.take n) := by
  have range := laid.stored _ (by rw [stored]; exact nonzero)
  rw [stored] at range
  generalize written : (img.disk x).splice (off % BSIZE) n (fun k => p.getD k 0) = data
  have length : (p.take n).length = n := by rw [List.length_take, Nat.min_eq_left short]
  have divide : off / BSIZE * BSIZE + off % BSIZE = off := Nat.div_add_mod' off BSIZE
  have slots := Volume.slot_setBlock (Volume.notIndirect laid.owned stored nonzero) data
  have contents := Volume.content_setBlock laid.owned stored nonzero data
  rw [view_wsect range.1]
  refine ⟨⟨laid.start, fun s => ?_, fun s t => ?_, fun b beyond => ?_, fun b inside => ?_,
    laid.count⟩, fun _ _ => rfl, fun s _ => slots s, fun i bn different => ?_, fun y => ?_,
    fun y lower upper => ?_⟩
  · rw [slots]
    exact laid.stored s
  · rw [slots, slots]
    exact laid.once s t
  · have different : b ≠ x := fun same => absurd beyond (Nat.not_le.mpr (same ▸ range.2))
    exact (Function.update_of_ne different _ _).trans (laid.zeros b beyond)
  · by_cases same : b = x
    · rw [same]
      simp only [Volume.setBlock, Image.wsect, Function.update_self]
    · simp only [Volume.setBlock, Image.wsect, Function.update_of_ne same, laid.blocks _ inside]
  · rw [contents, if_neg (fun both => different both.1)]
  · unfold Volume.byte
    rw [contents, length]
    by_cases here : y / BSIZE = off / BSIZE
    · have index : y / BSIZE * BSIZE + y % BSIZE = y := Nat.div_add_mod' y BSIZE
      have before : (img.view inum din).content inum (y / BSIZE) = img.disk x := by
        unfold Volume.content
        rw [here, stored, if_neg nonzero, laid.blocks _ range.1]
      rw [if_pos ⟨rfl, here⟩, ← written,
        Bytes.get_splice _ _ _ _ (Nat.mod_lt y (show 0 < BSIZE by decide)), before]
      rw [here] at index
      by_cases inside : off ≤ y ∧ y < off + n
      · have position : y % BSIZE - off % BSIZE = y - off := by omega
        rw [if_pos (by omega), if_pos inside, position, List.getD_eq_getElem?_getD,
          List.getD_eq_getElem?_getD, List.getElem?_take_of_lt (by omega)]
      · rw [if_neg (by omega), if_neg inside]
    · rw [if_neg (fun both => here both.2), if_neg]
      rintro ⟨lower, upper⟩
      refine here ((Nat.div_eq_iff (by decide)).mpr ?_)
      simp only [BSIZE] at divide fits ⊢
      omega
  · rw [length] at upper
    have same : y / BSIZE = off / BSIZE := by
      simp only [BSIZE] at lower upper divide fits ⊢
      omega
    rw [slots, same, stored]
    exact nonzero

/-- The number of bytes that go to the current block. -/
def pieceLength (off : Nat) (p : List UInt8) : Nat := min p.length (BSIZE - off % BSIZE)

/-- One iteration of `iappend`. -/
theorem appendLoop_step {fuel off x : Nat} {p : List UInt8} (nonempty : p ≠ [])
    (below : off / BSIZE < MAXFILE) {next : Image} {after : Dinode}
    (made : img.blockFor din (off / BSIZE) = (next, after, x)) :
    Image.appendLoop (fuel + 1) img din off p =
      Image.appendLoop fuel (next.wsect x ((next.disk x).splice (off % BSIZE) (pieceLength off p)
        (fun k => p.getD k 0))) after (off + pieceLength off p) (p.drop (pieceLength off p)) := by
  have made' : img.blockFor din (off / 512) = (next, after, x) := made
  have piece : min p.length ((off / 512 + 1) * 512 - off) = pieceLength off p := by
    unfold pieceLength
    simp only [BSIZE]
    omega
  have position : off - off / 512 * 512 = off % BSIZE := by
    simp only [BSIZE]
    omega
  rw [Image.appendLoop, if_neg nonempty]
  simp only [if_neg (Nat.not_le.mpr (show off / 512 < MAXFILE from below)), made', piece, position]

theorem pieceLength_spec {off : Nat} {p : List UInt8} (nonempty : p ≠ []) :
    0 < pieceLength off p ∧ pieceLength off p ≤ p.length ∧ off % BSIZE + pieceLength off p ≤ BSIZE ∧
      (off + pieceLength off p = (off / BSIZE + 1) * BSIZE ∨ pieceLength off p = p.length) := by
  have positive : 0 < p.length := List.length_pos_iff.mpr nonempty
  unfold pieceLength
  simp only [BSIZE]
  omega

/-- `iappend` fails if the file becomes too large. -/
theorem appendLoop_none (fuel : Nat) :
    forall {img : Image} {din : Dinode} {off : Nat} {p : List UInt8}, p.length ≤ fuel ->
      (Image.appendLoop fuel img din off p = none ↔ p ≠ [] ∧ MAXFILE * BSIZE < off + p.length) := by
  induction fuel with
  | zero =>
      intro img din off p short
      rw [Image.appendLoop]
      exact iff_of_false nofun
        (fun large => large.1 (List.length_eq_zero_iff.mp (Nat.le_zero.mp short)))
  | succ fuel ih =>
      intro img din off p short
      by_cases empty : p = []
      · rw [Image.appendLoop, if_pos empty]
        exact iff_of_false nofun (fun large => large.1 empty)
      · have nonempty : 0 < p.length := List.length_pos_iff.mpr empty
        by_cases beyond : MAXFILE ≤ off / BSIZE
        · have stops : Image.appendLoop (fuel + 1) img din off p = none := by
            rw [Image.appendLoop, if_neg empty]
            exact if_pos beyond
          have reached : MAXFILE * BSIZE ≤ off / BSIZE * BSIZE := Nat.mul_le_mul_right _ beyond
          have rounded : off / BSIZE * BSIZE ≤ off := Nat.div_mul_le_self off BSIZE
          exact iff_of_true stops ⟨empty, by omega⟩
        · cases made : img.blockFor din (off / BSIZE) with
          | mk next rest =>
              rcases @pieceLength_spec off p empty with ⟨positive, short_, inBlock, ends⟩
              have limit : (off / BSIZE + 1) * BSIZE ≤ MAXFILE * BSIZE :=
                Nat.mul_le_mul_right _ (Nat.not_le.mp beyond)
              have rounded : off / BSIZE * BSIZE + off % BSIZE = off := Nat.div_add_mod' off BSIZE
              rw [Nat.succ_mul] at limit
              rw [appendLoop_step empty (Nat.not_le.mp beyond) made]
              refine (ih (by rw [List.length_drop]; omega)).trans ?_
              rw [ne_eq, List.drop_eq_nil_iff, List.length_drop]
              exact ⟨fun large => ⟨empty, by omega⟩, fun large => by omega⟩

/-- A loop of `iappend` that has run: it was at its end or did one iteration. -/
theorem appendLoop_cases {fuel off last : Nat} {p : List UInt8} {next : Image} {after : Dinode}
    (ran : Image.appendLoop (fuel + 1) img din off p = some (next, after, last)) :
    (p = [] ∧ next = img ∧ after = din ∧ last = off) ∨
    (p ≠ [] ∧ off / BSIZE < MAXFILE ∧
     Exists fun middle => Exists fun inode => Exists fun x =>
       img.blockFor din (off / BSIZE) = (middle, inode, x) ∧
       Image.appendLoop fuel
         (middle.wsect x
           ((middle.disk x).splice (off % BSIZE) (pieceLength off p) (fun k => p.getD k 0)))
         inode (off + pieceLength off p) (p.drop (pieceLength off p)) =
         some (next, after, last)) := by
  by_cases empty : p = []
  · left
    rw [Image.appendLoop, if_pos empty] at ran
    rcases Prod.mk.inj (Option.some.inj ran) with ⟨rfl, rest⟩
    rcases Prod.mk.inj rest with ⟨rfl, rfl⟩
    exact ⟨empty, rfl, rfl, rfl⟩
  · right
    by_cases beyond : MAXFILE ≤ off / BSIZE
    · have stops : Image.appendLoop (fuel + 1) img din off p = none := by
        rw [Image.appendLoop, if_neg empty]
        exact if_pos beyond
      rw [stops] at ran
      exact nomatch ran
    · cases made : img.blockFor din (off / BSIZE) with
      | mk middle rest =>
          rw [appendLoop_step empty (Nat.not_le.mp beyond) made] at ran
          exact ⟨empty, Nat.not_le.mp beyond, middle, rest.1, rest.2, rfl, ran⟩

theorem appendLoop_grown (fuel : Nat) : forall {img next : Image} {din after : Dinode}
    {off last : Nat} {p : List UInt8},
    Image.appendLoop fuel img din off p = some (next, after, last) ->
    Grown img din next after (2 * fuel) := by
  induction fuel with
  | zero =>
      intro img next din after off last p ran
      rw [Image.appendLoop] at ran
      rcases Prod.mk.inj (Option.some.inj ran) with ⟨rfl, rest⟩
      rw [(Prod.mk.inj rest).1]
      exact Grown.refl _ _ _
  | succ fuel ih =>
      intro img next din after off last p ran
      rcases appendLoop_cases ran with ⟨_, rfl, rfl, _⟩ | ⟨_, _, middle, inode, x, made, rest⟩
      · exact Grown.refl _ _ _
      · have grown := ih rest
        have both := (blockFor_grown made).trans
          ⟨grown.head, grown.noMore, grown.more, grown.few, grown.freeinode⟩
        rw [Nat.mul_succ, Nat.add_comm]
        exact both

/-- Addresses behind what is appended stay. -/
theorem blockFor_beyond {fbn x j : Nat} {next : Image} {after : Dinode} (direct : j < NDIRECT)
    (beyond : fbn < j) (made : img.blockFor din fbn = (next, after, x)) :
    after.addrs j = din.addrs j := by
  have other : forall {i : Nat} {middle : Image}, j ≠ i -> img.direct din i = (middle, after) ->
      after.addrs j = din.addrs j := by
    intro i middle different found
    unfold Image.direct at found
    split at found
    · rw [← (Prod.mk.inj found).2]
      exact Dinode.setAddr_of_ne _ _ different
    · rw [← (Prod.mk.inj found).2]
  rcases blockFor_cases made with ⟨_, found, _⟩ | ⟨_, middle, found, _⟩
  · exact other (Nat.ne_of_gt beyond) found
  · exact other (Nat.ne_of_lt direct) found

theorem appendLoop_beyond (fuel : Nat) :
    forall {img next : Image} {din after : Dinode} {off last j : Nat} {p : List UInt8},
      Image.appendLoop fuel img din off p = some (next, after, last) -> j < NDIRECT ->
      off + p.length ≤ j * BSIZE -> after.addrs j = din.addrs j := by
  induction fuel with
  | zero =>
      intro img next din after off last j p ran _ _
      rw [Image.appendLoop] at ran
      rw [(Prod.mk.inj (Prod.mk.inj (Option.some.inj ran)).2).1]
  | succ fuel ih =>
      intro img next din after off last j p ran direct beyond
      rcases appendLoop_cases ran with ⟨_, _, rfl, _⟩ | ⟨nonempty, _, middle, inode, x, made, rest⟩
      · rfl
      · rcases @pieceLength_spec off p nonempty with ⟨positive, short, _, _⟩
        have block : off / BSIZE < j := by
          rw [Nat.div_lt_iff_lt_mul (by decide)]
          omega
        rw [ih rest direct (by rw [List.length_drop]; omega), blockFor_beyond direct block made]

/-- Sectors in front of the data blocks are not written. -/
theorem blockFor_low (laid : Laid img (img.view inum din)) {fbn x b : Nat} {next : Image}
    {after : Dinode} (low : b < imageSuperblock.dataStart)
    (made : img.blockFor din fbn = (next, after, x)) : next.disk b = img.disk b := by
  have first : forall {i : Nat} {middle : Image}, img.direct din i = (middle, after) ->
      middle.disk = img.disk := by
    intro i middle found
    unfold Image.direct at found
    split at found
    · rw [← (Prod.mk.inj found).1]
      rfl
    · rw [← (Prod.mk.inj found).1]
  rcases blockFor_cases made with ⟨_, found, _⟩ | ⟨_, middle, found, stored⟩
  · rw [first found]
  · rcases direct_laid laid (Nat.le_refl NDIRECT) found with ⟨middleLaid, _, present, slot⟩
    have above := (middleLaid.stored _ (by rw [slot]; exact present)).1
    rw [slot] at above
    rw [← first found]
    unfold Image.entry at stored
    dsimp only at stored
    split at stored
    · rw [← (Prod.mk.inj stored).1]
      exact Function.update_of_ne (Nat.ne_of_lt (Nat.lt_of_lt_of_le low above)) _ _
    · rw [← (Prod.mk.inj stored).1]

/-- A run of `iappend`. -/
theorem appendLoop_laid (fuel : Nat) :
    forall {img next : Image} {din after : Dinode} {off last : Nat} {p : List UInt8},
      Laid img (img.view inum din) ->
      Image.appendLoop fuel img din off p = some (next, after, last) -> p.length ≤ fuel ->
      next.freeblock + 2 < 2 ^ 32 ->
      Laid next (next.view inum after) ∧ last = off + p.length ∧
      Appended (img.view inum din) (next.view inum after) inum off p ∧
      forall b, b < imageSuperblock.dataStart -> next.disk b = img.disk b := by
  induction fuel with
  | zero =>
      intro img next din after off last p laid ran short _
      rw [Image.appendLoop] at ran
      rcases Prod.mk.inj (Option.some.inj ran) with ⟨rfl, rest⟩
      rcases Prod.mk.inj rest with ⟨rfl, rfl⟩
      have empty : p = [] := List.length_eq_zero_iff.mp (Nat.le_zero.mp short)
      rw [empty]
      exact ⟨laid, rfl, Appended.refl _ _ _, fun _ _ => rfl⟩
  | succ fuel ih =>
      intro img next din after off last p laid ran short small
      rcases appendLoop_cases ran with
        ⟨rfl, rfl, rfl, rfl⟩ | ⟨some_, below, middle, inode, x, made, rest⟩
      · exact ⟨laid, rfl, Appended.refl _ _ _, fun _ _ => rfl⟩
      · rcases @pieceLength_spec off p some_ with ⟨positive, short_, inBlock, _⟩
        have more := (appendLoop_grown fuel rest).more
        have few : img.freeblock + 2 < 2 ^ 32 := by
          have step := (blockFor_grown made).more
          have others : middle.freeblock ≤ next.freeblock := more
          omega
        rcases blockFor_laid laid below few made with ⟨middleLaid, extended, nonzero, stored⟩
        rcases write_laid middleLaid p stored nonzero short_ inBlock with
          ⟨writtenLaid, written⟩
        rcases ih writtenLaid rest (by rw [List.length_drop]; omega) small with
          ⟨final, isLast, appended, low⟩
        have length : (p.take (pieceLength off p)).length = pieceLength off p := by
          rw [List.length_take, Nat.min_eq_left short_]
        have found := (extended.appended off).trans written
        rw [List.nil_append] at found
        have whole := found.trans (by rw [length]; exact appended)
        rw [List.take_append_drop] at whole
        refine ⟨final, ?_, whole, fun b inFront => ?_⟩
        · rw [isLast, List.length_drop]
          omega
        · have above := (middleLaid.stored _ (by rw [stored]; exact nonzero)).1
          rw [stored] at above
          rw [low b inFront, ← blockFor_low laid inFront made]
          exact Function.update_of_ne (Nat.ne_of_lt (Nat.lt_of_lt_of_le inFront above)) _ _

end Steps

end TripleFs
end OsProjects
