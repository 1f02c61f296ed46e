import OsProjects.TripleFs.HostTree
import OsProjects.TripleFs.DirectoryMap
import OsProjects.TripleFs.PathLookup

namespace OsProjects
namespace TripleFs

open Machine

/-!
# The directories that the walk leaves behind

`add_dir` numbers the files and directories in the order in which it comes to them.  From
the tree alone follows which entries each directory gets; the image has exactly these,
and behind them zeros up to the end of the last block and no further block.
-/

/-- The entries that the loop of `add_dir` appends, if `n` is the next inode. -/
def Listing.children : Listing -> Nat -> Entries
  | .done, _ => []
  | .file name _ rest, n => (n, name) :: rest.children (n + 1)
  | .dir name inside rest, n => (n, name) :: rest.children (n + 1 + inside.inodes)

/-- All entries of a directory. -/
def listedEntries (cur parent : Nat) (children : Entries) : Entries :=
  (cur, dotName) :: (parent, dotdotName) :: children

/-- The directories below the directory `cur` with their entries. -/
def Listing.dirs : Listing -> Nat -> Nat -> List (Nat × Entries)
  | .done, _, _ => []
  | .file _ _ rest, cur, n => rest.dirs cur (n + 1)
  | .dir _ inside rest, cur, n =>
      (n, listedEntries n cur (inside.children (n + 1))) ::
        (inside.dirs n (n + 1) ++ rest.dirs cur (n + 1 + inside.inodes))

/-- The directories of the image of a tree. -/
def treeDirs (root : Listing) : List (Nat × Entries) :=
  (ROOTINO, listedEntries ROOTINO ROOTINO (root.children 2)) :: root.dirs ROOTINO 2

section Numbers

variable {listing : Listing} {cur n i : Nat} {entries : Entries}

theorem Listing.length_children (listing : Listing) :
    forall n, (listing.children n).length ≤ listing.inodes := by
  induction listing with
  | done => exact fun _ => Nat.le_refl _
  | file name content rest ih =>
      intro n
      have others := ih (n + 1)
      rw [Listing.children, List.length_cons, Listing.inodes]
      omega
  | dir name inside rest _ ih =>
      intro n
      have others := ih (n + 1 + inside.inodes)
      rw [Listing.children, List.length_cons, Listing.inodes]
      omega

theorem Listing.children_range (listing : Listing) : forall {n : Nat} {entry : Nat × List UInt8},
    entry ∈ listing.children n -> n ≤ entry.1 ∧ entry.1 < n + listing.inodes := by
  induction listing with
  | done => exact fun member => nomatch member
  | file name content rest ih =>
      intro n entry member
      rw [Listing.inodes]
      rcases List.mem_cons.mp member with rfl | later
      · exact ⟨Nat.le_refl _, Nat.lt_add_of_pos_right (Nat.succ_pos _)⟩
      · have range := ih later
        omega
  | dir name inside rest _ ih =>
      intro n entry member
      rw [Listing.inodes]
      rcases List.mem_cons.mp member with rfl | later
      · exact ⟨Nat.le_refl _, Nat.lt_add_of_pos_right (Nat.succ_pos _)⟩
      · have range := ih later
        omega

/-- A directory below has one of the numbers that are handed out for the tree. -/
theorem Listing.dirs_range (listing : Listing) : forall {cur n i : Nat} {entries : Entries},
    (listing.dirs cur n).lookup i = some entries -> n ≤ i ∧ i < n + listing.inodes := by
  induction listing with
  | done => exact fun found => nomatch found
  | file name content rest ih =>
      intro cur n i entries found
      have range := ih found
      rw [Listing.inodes]
      omega
  | dir name inside rest inner ih =>
      intro cur n i entries found
      rw [Listing.inodes]
      rw [Listing.dirs, List.lookup_cons] at found
      split at found
      · rename_i same
        have here : i = n := beq_iff_eq.mp same
        omega
      · rw [List.lookup_append] at found
        rcases Option.or_eq_some_iff.mp found with below | ⟨_, beside⟩
        · have range := inner below
          omega
        · have range := ih beside
          omega

/-- Its entries have numbers that have been handed out, or that of the directory above. -/
theorem Listing.dirs_closed (listing : Listing) :
    forall {cur n i : Nat} {entries : Entries}, 0 < cur -> cur < n ->
      (listing.dirs cur n).lookup i = some entries ->
      forall entry, entry ∈ entries -> 0 < entry.1 ∧ entry.1 < n + listing.inodes := by
  induction listing with
  | done => exact fun _ _ found => nomatch found
  | file name content rest ih =>
      intro cur n i entries positive below found entry member
      have range := ih positive (Nat.lt_succ_of_lt below) found entry member
      rw [Listing.inodes]
      omega
  | dir name inside rest inner ih =>
      intro cur n i entries positive below found entry member
      rw [Listing.inodes]
      rw [Listing.dirs, List.lookup_cons] at found
      split at found
      · rw [← Option.some.inj found] at member
        rcases List.mem_cons.mp member with rfl | later
        · exact ⟨Nat.lt_of_le_of_lt (Nat.zero_le _) below, Nat.lt_add_of_pos_right (Nat.succ_pos _)⟩
        · rcases List.mem_cons.mp later with rfl | child
          · exact ⟨positive, Nat.lt_of_lt_of_le below (Nat.le_add_right _ _)⟩
          · have range := inside.children_range child
            omega
      · rw [List.lookup_append] at found
        rcases Option.or_eq_some_iff.mp found with inBelow | ⟨_, beside⟩
        · have range := inner (Nat.lt_of_le_of_lt (Nat.zero_le _) below)
              (Nat.lt_succ_self n) inBelow entry member
          omega
        · have range := ih positive (by omega) beside entry member
          omega

theorem treeDirs_closed {root : Listing} (found : (treeDirs root).lookup i = some entries) :
    forall entry, entry ∈ entries -> 0 < entry.1 ∧ entry.1 < root.inodes + 2 := by
  intro entry member
  rw [treeDirs, List.lookup_cons] at found
  split at found
  · rw [← Option.some.inj found] at member
    have isRoot : ROOTINO = 1 := rfl
    rcases List.mem_cons.mp member with rfl | later
    · exact ⟨by omega, by omega⟩
    · rcases List.mem_cons.mp later with rfl | child
      · exact ⟨by omega, by omega⟩
      · have range := root.children_range child
        omega
  · have range := root.dirs_closed (by decide) (by decide) found entry member
    omega

theorem treeDirs_range {root : Listing} (found : (treeDirs root).lookup i = some entries) :
    0 < i ∧ i < root.inodes + 2 := by
  rw [treeDirs, List.lookup_cons] at found
  split at found
  · rename_i same
    have isRoot : i = 1 := beq_iff_eq.mp same
    omega
  · have range := root.dirs_range found
    omega

/-- No other number is that of a directory below. -/
theorem Listing.lookup_dirs_none (listing : Listing) {cur n i : Nat}
    (outside : i < n ∨ n + listing.inodes ≤ i) : (listing.dirs cur n).lookup i = none := by
  cases found : (listing.dirs cur n).lookup i with
  | none => rfl
  | some entries =>
      have range := listing.dirs_range found
      omega

theorem Listing.dirs_length (listing : Listing) : forall {cur n i : Nat} {entries : Entries},
    (listing.dirs cur n).lookup i = some entries -> entries.length ≤ listing.inodes + 2 := by
  induction listing with
  | done => exact fun found => nomatch found
  | file name content rest ih =>
      intro cur n i entries found
      have length := ih found
      rw [Listing.inodes]
      omega
  | dir name inside rest inner ih =>
      intro cur n i entries found
      rw [Listing.inodes]
      rw [Listing.dirs, List.lookup_cons] at found
      split at found
      · have length := inside.length_children (n + 1)
        rw [← Option.some.inj found, listedEntries, List.length_cons, List.length_cons]
        omega
      · rw [List.lookup_append] at found
        rcases Option.or_eq_some_iff.mp found with below | ⟨_, beside⟩
        · have length := inner below
          omega
        · have length := ih beside
          omega

theorem treeDirs_length {root : Listing} (found : (treeDirs root).lookup i = some entries) :
    entries.length ≤ root.inodes + 2 := by
  rw [treeDirs, List.lookup_cons] at found
  split at found
  · have length := root.length_children 2
    rw [← Option.some.inj found, listedEntries, List.length_cons, List.length_cons]
    omega
  · exact root.dirs_length found

end Numbers

/-! ## A directory of the image -/

/-- The bytes of entries. -/
def entryBytes (entries : Entries) : List UInt8 :=
  entries.flatMap (fun entry => direntBytes entry.1 entry.2)

/-- The image has a directory with these entries, zeros behind them and no block more than
they need.  What its inode says about the size is another thing. -/
structure Image.HasDir (img : Image) (inum size : Nat) (entries : Entries) : Prop where
  type : (img.volume.inode inum).type = T_DIR
  links : (img.volume.inode inum).nlink = 1
  size : (img.volume.inode inum).logical_size = size
  bytes : forall x, img.volume.byte inum x = (entryBytes entries).getD x 0
  covered : forall q, q * BSIZE < direntSize * entries.length ->
    img.volume.slot (inum, Volume.place q) ≠ 0
  beyond : forall j, j < NDIRECT -> direntSize * entries.length ≤ j * BSIZE ->
    (img.volume.inode inum).addrs j = 0

/-- An image in the making, with its superblock and its blocks inside the disk. -/
structure Image.Ready (img : Image) : Prop where
  sound : img.Sound
  few : img.freeblock ≤ imageSuperblock.size
  super : img.disk 1 = superblockBytes imageSuperblock

theorem length_entryBytes (entries : Entries) :
    (entryBytes entries).length = direntSize * entries.length := by
  induction entries with
  | nil => rfl
  | cons entry rest ih =>
      unfold entryBytes at ih ⊢
      rw [List.flatMap_cons, List.length_append, ih, length_direntBytes, List.length_cons]
      simp only [direntSize]
      omega

section Steps

variable {img next last : Image} {inum i size : Nat} {entries : Entries}

theorem Steady.refl (i : Nat) (img : Image) : Steady i img img :=
  ⟨rfl, fun _ _ => rfl, fun _ => rfl⟩

theorem Steady.trans (first : Steady i img next) (second : Steady i next last) :
    Steady i img last := by
  refine ⟨second.inode.trans first.inode, fun bn stored => ?_,
    fun bn => (second.content bn).trans (first.content bn)⟩
  have same := first.kept bn stored
  rw [second.kept bn (by rw [same]; exact stored), same]

theorem Steady.hasDir (steady : Steady i img next) (dir : img.HasDir i size entries) :
    next.HasDir i size entries := by
  refine ⟨?_, ?_, ?_, fun x => ?_, fun q inside => ?_, fun j direct behind => ?_⟩
  · rw [steady.inode]
    exact dir.type
  · rw [steady.inode]
    exact dir.links
  · rw [steady.inode]
    exact dir.size
  · have same := dir.bytes x
    unfold Volume.byte at same ⊢
    rw [steady.content]
    exact same
  · rw [steady.kept q (dir.covered q inside)]
    exact dir.covered q inside
  · rw [steady.inode]
    exact dir.beyond j direct behind

/-- The three steps on the image file. -/
theorem Image.Ready.ialloc {type : Nat} (ready : img.Ready) (small : type < 2 ^ 16)
    (inodes : IsInode img.freeinode) (ran : (ImageStep.ialloc type).onFile img = some next) :
    next.Ready ∧ (forall other, other ≠ img.freeinode -> Steady other img next) ∧
    next.volume.inode img.freeinode = newInode type := by
  rcases ialloc_steady ready.sound small inodes with ⟨sound, steady, mine⟩
  have isNext := (ialloc_onFile ran).1
  rw [isNext]
  refine ⟨⟨sound, ready.few, ?_⟩, steady, mine⟩
  have other : 1 ≠ Image.i2b img.freeinode := Nat.ne_of_lt (Nat.lt_add_left _ (Nat.lt_succ_self 1))
  rw [← ready.super]
  simp only [Image.ialloc, Image.winode, Image.wsect, Function.update_of_ne other]

theorem Image.Ready.fixSize (ready : img.Ready) (below : IsInode inum)
    (ran : (ImageStep.fixSize inum).onFile img = some next) :
    next.Ready ∧ (forall other, other ≠ inum -> Steady other img next) ∧
      next.volume.inode inum = (img.volume.inode inum).rounded ∧
      (forall s, next.volume.slot s = img.volume.slot s) ∧
      (forall i bn, next.volume.content i bn = img.volume.content i bn) := by
  rcases fixSize_steady ready.sound below with ⟨sound, others⟩
  have isNext : img.fixSize inum = next := Option.some.inj (onFile_run ran).2
  rw [← isNext]
  refine ⟨⟨sound, ready.few, ?_⟩, others⟩
  have other : 1 ≠ Image.i2b inum := Nat.ne_of_lt (Nat.lt_add_left _ (Nat.lt_succ_self 1))
  rw [← ready.super]
  simp only [Image.fixSize, Image.winode, Image.wsect, Function.update_of_ne other]

theorem Image.Ready.iappend {p : List UInt8} (ready : img.Ready) (below : IsInode inum)
    (ran : (ImageStep.iappend inum p).onFile img = some next) :
    next.Ready ∧ (forall other, other ≠ inum -> Steady other img next) ∧
      Appended img.volume next.volume inum (img.volume.inode inum).logical_size p ∧
      (Exists fun addrs => next.volume.inode inum = { img.volume.inode inum with
        logical_size := (img.volume.inode inum).logical_size + p.length, addrs := addrs }) ∧
      forall j, j < NDIRECT -> (img.volume.inode inum).logical_size + p.length ≤ j * BSIZE ->
        (next.volume.inode inum).addrs j = (img.volume.inode inum).addrs j := by
  have few := onFile_free ran ready.few
  have made : img.iappend inum p = some next := (onFile_run ran).2
  have limit : imageSuperblock.size + 2 < 2 ^ 32 := by decide
  rcases iappend_appended ready.sound below made (by omega) with
    ⟨sound, appended, mine, behind, super⟩
  exact ⟨⟨sound, few, super.trans ready.super⟩, fun other different =>
    iappend_steady ready.sound below made (by omega) different, appended, mine, behind⟩

/-- A directory that has just been allocated. -/
theorem hasDir_new (mine : img.volume.inode inum = newInode T_DIR) : img.HasDir inum 0 [] := by
  have empty : forall bn, img.volume.slot (inum, bn) = 0 := by
    intro bn
    have none_ : forall j, (img.volume.inode inum).addrs j = 0 := fun j => by rw [mine]; rfl
    unfold Volume.slot
    rw [none_, none_, if_pos rfl, ite_self]
  refine ⟨by rw [mine]; rfl, by rw [mine]; rfl, by rw [mine]; rfl, fun x => ?_, fun q inside => ?_,
    fun j _ _ => ?_⟩
  · unfold Volume.byte Volume.content
    rw [empty, if_pos rfl]
    exact Bytes.get_fill 0 (Nat.mod_lt x (show 0 < BSIZE by decide))
  · exact absurd inside (Nat.not_lt_zero _)
  · rw [mine]
    rfl

/-- An entry is appended. -/
theorem Image.HasDir.iappend {n : Nat} {name : List UInt8}
    (dir : img.HasDir inum (direntSize * entries.length) entries)
    (appended : Appended img.volume next.volume inum (img.volume.inode inum).logical_size
      (direntBytes n name))
    (mine : Exists fun addrs => next.volume.inode inum = { img.volume.inode inum with
      logical_size := (img.volume.inode inum).logical_size + (direntBytes n name).length,
        addrs := addrs })
    (behind : forall j, j < NDIRECT ->
      (img.volume.inode inum).logical_size + (direntBytes n name).length ≤ j * BSIZE ->
      (next.volume.inode inum).addrs j = (img.volume.inode inum).addrs j) :
    next.HasDir inum (direntSize * (entries ++ [(n, name)]).length) (entries ++ [(n, name)]) := by
  rcases mine with ⟨addrs, mine⟩
  rw [dir.size, length_direntBytes] at behind mine
  rw [dir.size, ← length_entryBytes] at appended
  have longer :
      direntSize * (entries ++ [(n, name)]).length = direntSize * entries.length + 16 := by
    rw [List.length_append]
    rfl
  have whole : entryBytes (entries ++ [(n, name)]) = entryBytes entries ++ direntBytes n name := by
    unfold entryBytes
    rw [List.flatMap_append, List.flatMap_singleton]
  rw [longer]
  refine ⟨by rw [mine]; exact dir.type, by rw [mine]; exact dir.links, by rw [mine], fun x => ?_,
    fun q inside => ?_, fun j direct beyond => ?_⟩
  · rw [appended.bytes, whole, List.getD_eq_getElem?_getD, List.getD_eq_getElem?_getD]
    by_cases new : (entryBytes entries).length ≤ x
    · rw [List.getElem?_append_right new]
      by_cases inside : x < (entryBytes entries).length + (direntBytes n name).length
      · rw [if_pos ⟨new, inside⟩]
      · rw [if_neg (fun both => inside both.2), dir.bytes, List.getD_eq_default _ _ new,
          List.getElem?_eq_none (by omega)]
        rfl
    · rw [if_neg (fun both => new both.1), dir.bytes, List.getElem?_append_left (Nat.not_le.mp new),
        List.getD_eq_getElem?_getD]
  · rw [longer] at inside
    by_cases old : q * BSIZE < direntSize * entries.length
    · rw [appended.kept (inum, Volume.place q) (dir.covered q old)]
      exact dir.covered q old
    · rw [length_entryBytes] at appended
      have block := appended.covered (q * BSIZE) (Nat.not_lt.mp old)
          (by rw [length_direntBytes]; exact inside)
      rw [Nat.mul_div_cancel q (show 0 < BSIZE by decide)] at block
      exact block
  · rw [longer] at beyond
    rw [behind j direct beyond]
    exact dir.beyond j direct (Nat.le_trans (Nat.le_add_right _ _) beyond)

/-- The size is rounded. -/
theorem Image.HasDir.fixSize (dir : img.HasDir inum size entries)
    (mine : next.volume.inode inum = (img.volume.inode inum).rounded)
    (slots : forall s, next.volume.slot s = img.volume.slot s)
    (contents : forall i bn, next.volume.content i bn = img.volume.content i bn) :
    next.HasDir inum ((size / BSIZE + 1) * BSIZE % 2 ^ 32) entries := by
  refine ⟨by rw [mine]; exact dir.type, by rw [mine]; exact dir.links, ?_, fun x => ?_,
    fun q inside => ?_, fun j direct behind => ?_⟩
  · rw [mine, ← dir.size]
    rfl
  · have same := dir.bytes x
    unfold Volume.byte at same ⊢
    rw [contents]
    exact same
  · rw [slots]
    exact dir.covered q inside
  · rw [mine]
    exact dir.beyond j direct behind

end Steps

/-! ## The walk -/

/-- The size of a directory after the size fix. -/
def roundedSize (entries : Entries) : Nat :=
  (direntSize * entries.length / BSIZE + 1) * BSIZE % 2 ^ 32

/-- The inode is that of a directory with these entries, or that of a file. -/
def Image.Has (img : Image) (i : Nat) : Option Entries -> Prop
  | some entries => img.HasDir i (roundedSize entries) entries
  | none => (img.volume.inode i).type = T_FILE ∧ (img.volume.inode i).nlink = 1

/-- What a part of the walk on the directory `cur` has done: it has appended the entries
`more`, and nothing of another file that was there has changed. -/
structure Linked (cur : Nat) (entries more : Entries) (img next : Image) : Prop where
  ready : next.Ready
  dir : next.HasDir cur (direntSize * (entries ++ more).length) (entries ++ more)
  steady : forall i, i ≠ cur -> i < img.freeinode -> Steady i img next

section Walk

variable {img next : Image} {cur parent i : Nat} {entries : Entries}

theorem Steady.has {found : Option Entries} (steady : Steady i img next) (has : img.Has i found) :
    next.Has i found := by
  cases found with
  | some entries => exact steady.hasDir has
  | none =>
      unfold Image.Has at has ⊢
      rw [steady.inode]
      exact has

theorem linked_iappend {n : Nat} {name : List UInt8} (ready : img.Ready) (below : IsInode cur)
    (dir : img.HasDir cur (direntSize * entries.length) entries)
    (ran : (ImageStep.iappend cur (direntBytes n name)).onFile img = some next) :
    Linked cur entries [(n, name)] img next := by
  rcases ready.iappend below ran with ⟨readyToo, steady, appended, mine, behind⟩
  exact ⟨readyToo, dir.iappend appended mine behind, fun i different _ => steady i different⟩

theorem addDots_linked (ready : img.Ready) (below : IsInode cur) (dir : img.HasDir cur 0 [])
    (ran : addDots cur parent img = some next) :
    Linked cur [] [(cur, dotName), (parent, dotdotName)] img next := by
  rcases Option.bind_eq_some_iff.mp ran with ⟨middle, first, second⟩
  have start : img.HasDir cur (direntSize * ([] : Entries).length) [] := dir
  have one := linked_iappend ready below start first
  have two := linked_iappend one.ready below one.dir second
  have same := freeinode_iappend first
  exact ⟨two.ready, two.dir, fun i different old =>
    (one.steady i different old).trans (two.steady i different (by omega))⟩

/-- Copying the bytes of a file. -/
theorem addFile_steady {child : Nat} (below : IsInode child) (fuel : Nat) :
    forall {content : List UInt8} {img next : Image}, img.Ready ->
      addFile child fuel content img = some next ->
      next.Ready ∧ (forall i, i ≠ child -> Steady i img next) ∧
      (img.Has child none -> next.Has child none) := by
  induction fuel with
  | zero =>
      intro content img next ready ran
      rw [addFile] at ran
      rw [← Option.some.inj ran]
      exact ⟨ready, fun i _ => Steady.refl i img, id⟩
  | succ fuel ih =>
      intro content img next ready ran
      rw [addFile] at ran
      split at ran
      · rw [← Option.some.inj ran]
        exact ⟨ready, fun i _ => Steady.refl i img, id⟩
      · rcases Option.bind_eq_some_iff.mp ran with ⟨middle, first, rest⟩
        rcases ready.iappend below first with ⟨readyToo, steady, _, ⟨addrs, mine⟩, _⟩
        rcases ih readyToo rest with ⟨readyLast, steadyToo, keeps⟩
        refine ⟨readyLast, fun i different => (steady i different).trans (steadyToo i different),
          fun has => keeps ?_⟩
        unfold Image.Has at has ⊢
        rw [mine]
        exact has

/-- The next part of the walk on the same directory. -/
theorem Linked.trans {middle : Image} {more rest : Entries}
    (first : Linked cur entries more img middle)
    (second : Linked cur (entries ++ more) rest middle next)
    (grows : img.freeinode ≤ middle.freeinode) : Linked cur entries (more ++ rest) img next := by
  refine ⟨second.ready, ?_, fun i different old =>
    (first.steady i different old).trans (second.steady i different (by omega))⟩
  have whole := second.dir
  rw [List.append_assoc] at whole
  exact whole

/-- One file of the listing. -/
theorem newFile_linked {made filled : Image} {name content : List UInt8} (ready : img.Ready)
    (isChild : IsInode img.freeinode) (below : cur < img.freeinode)
    (dir : img.HasDir cur (direntSize * entries.length) entries)
    (allocated : (ImageStep.ialloc T_FILE).onFile img = some made)
    (copied : addFile img.freeinode content.length content made = some filled)
    (linked : (ImageStep.iappend cur (direntBytes img.freeinode name)).onFile filled = some next) :
    Linked cur entries [(img.freeinode, name)] img next ∧ next.freeinode = img.freeinode + 1 ∧
      next.Has img.freeinode none := by
  have grown := (ialloc_onFile allocated).2
  rcases addFile_walks (show img.freeinode < made.freeinode by omega) _ copied with ⟨_, _, same⟩
  have last := freeinode_iappend linked
  have isCur : IsInode cur := Nat.lt_trans below isChild
  have old : cur ≠ img.freeinode := Nat.ne_of_lt below
  rcases ready.ialloc (by decide) isChild allocated with ⟨ready1, steady1, mine⟩
  rcases addFile_steady isChild _ ready1 copied with ⟨ready2, steady2, keeps⟩
  have one := linked_iappend ready2 isCur
      ((steady2 cur old).hasDir ((steady1 cur old).hasDir dir)) linked
  have has : made.Has img.freeinode none := by
    unfold Image.Has
    rw [mine]
    exact ⟨rfl, rfl⟩
  refine ⟨⟨one.ready, one.dir, fun i different before => ?_⟩, by omega, ?_⟩
  · exact ((steady1 i (by omega)).trans (steady2 i (by omega))).trans
      (one.steady i different (by omega))
  · exact (one.steady _ (fun same => old same.symm) (by omega)).has (keeps has)

/-- A new directory with its two dots. -/
theorem newDots_linked {made : Image} (ready : img.Ready) (isChild : IsInode img.freeinode)
    (allocated : (ImageStep.ialloc T_DIR).onFile img = some made)
    (dotted : addDots img.freeinode cur made = some next) :
    Linked img.freeinode [] [(img.freeinode, dotName), (cur, dotdotName)] img next ∧
      next.freeinode = img.freeinode + 1 := by
  have grown := (ialloc_onFile allocated).2
  rcases addDots_walks (show img.freeinode < made.freeinode by omega) dotted with ⟨_, _, same⟩
  rcases ready.ialloc (by decide) isChild allocated with ⟨ready1, steady1, mine⟩
  have dots := addDots_linked ready1 isChild (hasDir_new mine) dotted
  refine ⟨⟨dots.ready, dots.dir, fun i different before => ?_⟩, by omega⟩
  exact (steady1 i different).trans (dots.steady i different (by omega))

/-- When everything in it has been written, its size is rounded and it gets its name. -/
theorem finished_linked {filled fixed : Image} {name : List UInt8} {own : Entries}
    (below : cur < img.freeinode) (isChild : IsInode img.freeinode)
    (dir : img.HasDir cur (direntSize * entries.length) entries)
    (whole : Linked img.freeinode [] own img filled) (grows : img.freeinode < filled.freeinode)
    (rounded : (ImageStep.fixSize img.freeinode).onFile filled = some fixed)
    (linked : (ImageStep.iappend cur (direntBytes img.freeinode name)).onFile fixed = some next) :
    Linked cur entries [(img.freeinode, name)] img next ∧ next.freeinode = filled.freeinode ∧
    next.Has img.freeinode (some own) ∧
    forall i found, i ≠ cur -> i ≠ img.freeinode -> i < filled.freeinode -> filled.Has i found ->
      next.Has i found := by
  have same := freeinode_fixSize rounded
  have last := freeinode_iappend linked
  have isCur : IsInode cur := Nat.lt_trans below isChild
  have old : cur ≠ img.freeinode := Nat.ne_of_lt below
  rcases whole.ready.fixSize isChild rounded with ⟨ready4, steady4, mine4, slots4, contents4⟩
  have finished := whole.dir.fixSize mine4 slots4 contents4
  have one := linked_iappend ready4 isCur
    ((steady4 cur old).hasDir ((whole.steady cur old below).hasDir dir)) linked
  refine ⟨⟨one.ready, one.dir, fun i different before => ?_⟩, by omega, ?_,
    fun i found different other low has => ?_⟩
  · exact ((whole.steady i (by omega) before).trans (steady4 i (by omega))).trans
      (one.steady i different (by omega))
  · exact (one.steady _ (fun same => old same.symm) (by omega)).has finished
  · exact (one.steady i different (by omega)).has ((steady4 i other).has has)

/-- The loop of `add_dir`. -/
theorem addEntries_linked (listing : Listing) :
    forall {cur : Nat} {entries : Entries} {img next : Image}, img.Ready -> cur < img.freeinode ->
      img.freeinode + listing.inodes ≤ imageSuperblock.ninodes ->
      img.HasDir cur (direntSize * entries.length) entries ->
      addEntries cur listing img = some next ->
      Linked cur entries (listing.children img.freeinode) img next ∧
      forall i, img.freeinode ≤ i -> i < img.freeinode + listing.inodes ->
        next.Has i ((listing.dirs cur img.freeinode).lookup i) := by
  induction listing with
  | done =>
      intro cur entries img next ready below few dir ran
      rw [← Option.some.inj ran]
      refine ⟨⟨ready, ?_, fun i _ _ => Steady.refl i img⟩, fun i low high => ?_⟩
      · rw [Listing.children, List.append_nil]
        exact dir
      · rw [Listing.inodes] at high
        omega
  | file name content rest ih =>
      intro cur entries img next ready below few dir ran
      rw [Listing.inodes] at few ⊢
      rcases Option.bind_eq_some_iff.mp ran with ⟨i1, made, ran⟩
      rcases Option.bind_eq_some_iff.mp ran with ⟨i2, filled, ran⟩
      rcases Option.bind_eq_some_iff.mp ran with ⟨i3, linked, ran⟩
      have isChild : IsInode img.freeinode := show img.freeinode < _ by omega
      rcases newFile_linked ready isChild below dir made filled linked with ⟨one, numbers, has⟩
      rcases ih one.ready (show cur < i3.freeinode by omega) (by omega) one.dir ran with
        ⟨others, placed⟩
      rw [numbers] at others placed
      refine ⟨one.trans others (by omega), fun i low high => ?_⟩
      by_cases isNew : i = img.freeinode
      · -- The file itself is not in the list of directories.
        rw [Listing.dirs, isNew, rest.lookup_dirs_none (Or.inl (Nat.lt_succ_self _))]
        exact (others.steady _ (by omega) (by omega)).has has
      · exact placed i (by omega) (by omega)
  | dir name inside rest inner ih =>
      intro cur entries img next ready below few dir ran
      rw [Listing.inodes] at few ⊢
      rcases Option.bind_eq_some_iff.mp ran with ⟨i1, made, ran⟩
      rcases Option.bind_eq_some_iff.mp ran with ⟨i2, dotted, ran⟩
      rcases Option.bind_eq_some_iff.mp ran with ⟨i3, filled, ran⟩
      rcases Option.bind_eq_some_iff.mp ran with ⟨i4, fixed, ran⟩
      rcases Option.bind_eq_some_iff.mp ran with ⟨i5, linked, ran⟩
      have isChild : IsInode img.freeinode := show img.freeinode < _ by omega
      rcases newDots_linked ready isChild made dotted with ⟨dots, second⟩
      rcases addEntries_walks inside (show img.freeinode < i2.freeinode by omega) filled with
        ⟨_, _, third⟩
      rcases inner dots.ready (by omega) (by omega) dots.dir filled with ⟨below_, placed⟩
      rcases finished_linked below isChild dir (dots.trans below_ (by omega))
        (by omega) fixed linked with
        ⟨one, same, finished, keeps⟩
      rcases ih one.ready (show cur < i5.freeinode by omega) (by omega) one.dir ran with
        ⟨others, placedToo⟩
      have numbers : i5.freeinode = img.freeinode + 1 + inside.inodes := by omega
      rw [second] at placed finished
      rw [numbers] at others placedToo
      refine ⟨one.trans others (by omega), fun i low high => ?_⟩
      -- The number is that of the directory, or of something in it, or behind it.
      rw [Listing.dirs, List.lookup_cons]
      by_cases isNew : i = img.freeinode
      · rw [beq_iff_eq.mpr isNew, isNew]
        exact (others.steady _ (by omega) (by omega)).has finished
      · rw [beq_eq_false_iff_ne.mpr isNew]
        show next.Has i (List.lookup i (inside.dirs img.freeinode (img.freeinode + 1) ++
          rest.dirs cur (img.freeinode + 1 + inside.inodes)))
        rw [List.lookup_append]
        by_cases isInside : i < img.freeinode + 1 + inside.inodes
        · rw [rest.lookup_dirs_none (Or.inl isInside), Option.or_none]
          exact (others.steady i (by omega) (by omega)).has
            (keeps i _ (by omega) isNew (by omega) (placed i (by omega) isInside))
        · rw [inside.lookup_dirs_none (Or.inr (Nat.not_lt.mp isInside)), Option.none_or]
          exact placedToo i (by omega) (by omega)

end Walk

/-! ## The finished image -/

section Bytes

variable {entries : Entries} {k inum : Nat} {name : List UInt8}

/-- Each entry has its own 16 bytes. -/
theorem getD_entryBytes (entries : Entries) : forall {k j inum : Nat} {name : List UInt8},
    entries[k]? = some (inum, name) -> j < 16 ->
    (entryBytes entries).getD (16 * k + j) 0 = (direntBytes inum name).getD j 0 := by
  induction entries with
  | nil => exact fun found => nomatch found
  | cons entry rest ih =>
      intro k j inum name found below
      have split : entryBytes (entry :: rest) = direntBytes entry.1 entry.2 ++ entryBytes rest :=
        List.flatMap_cons ..
      have length := length_direntBytes entry.1 entry.2
      rw [split, List.getD_eq_getElem?_getD]
      cases k with
      | zero =>
          have same := Option.some.inj found
          rw [List.getElem?_append_left (by omega), Nat.mul_zero, Nat.zero_add, same,
            List.getD_eq_getElem?_getD]
      | succ k =>
          have position :
              16 * (k + 1) + j - (direntBytes entry.1 entry.2).length = 16 * k + j := by omega
          rw [List.getElem?_append_right (by omega), position, ← List.getD_eq_getElem?_getD]
          exact ih found below

theorem inumOf_entryBytes (found : entries[k]? = some (inum, name)) (small : inum < 2 ^ 16) :
    inumOf (fun x => (entryBytes entries).getD x 0) k = inum := by
  have first := @getD_entryBytes entries k 0 _ _ found (by decide)
  have second := @getD_entryBytes entries k 1 _ _ found (by decide)
  have bytes : (direntBytes inum name).getD 0 0 = UInt8.ofNat inum ∧
      (direntBytes inum name).getD 1 0 = UInt8.ofNat (inum / 256) := ⟨rfl, rfl⟩
  show ((entryBytes entries).getD (16 * k + 0) 0).toNat + 256 *
    ((entryBytes entries).getD (16 * k + 1) 0).toNat = inum
  rw [first, second, bytes.1, bytes.2, UInt8.toNat_ofNat', UInt8.toNat_ofNat']
  omega

theorem keyOf_entryBytes (found : entries[k]? = some (inum, name)) :
    keyOf (fun x => (entryBytes entries).getD x 0) k = nameKey (charsOf name) := by
  refine nameKey_congr (fun i below _ => ?_)
  simp only [DIRSIZ] at below
  have byte := @getD_entryBytes entries k (2 + i) _ _ found (by omega)
  rw [Nat.add_assoc]
  refine byte.trans ?_
  unfold direntBytes charsOf
  have inside : i < (List.range 14).length := below
  rw [List.getD_eq_getElem?_getD, List.getElem?_append_right (Nat.le_add_right 2 i)]
  show (((List.range 14).map (fun i => name.getD i 0))[2 + i - 2]?).getD 0 = name.getD i 0
  rw [Nat.add_sub_cancel_left, List.getElem?_map, List.getElem?_range below]
  rfl

end Bytes

section Finished

variable {img final : Image} {i : Nat} {entries : Entries}

/-- What the kernel sees of such a directory. -/
theorem Image.HasDir.dirOf (laid : Laid img img.volume) (below : IsInode i)
    (dir : img.HasDir i (roundedSize entries) entries)
    (few : entries.length ≤ imageSuperblock.ninodes + 1)
    (small : forall entry, entry ∈ entries -> entry.1 < 2 ^ 16) :
    DirOf img.disk (diskInode img.disk i) entries := by
  have same : img.volume.inode i = diskInode img.disk i := Superblock.inode_below below
  have ninodes : imageSuperblock.ninodes = 200 := rfl
  have short : entries.length / 32 < NDIRECT := by
    simp only [NDIRECT]
    omega
  -- The blocks of the directory are direct ones.
  have direct : forall q, q * BSIZE < direntSize * entries.length -> q < NDIRECT := by
    intro q inside
    simp only [BSIZE, direntSize, NDIRECT] at inside short ⊢
    omega
  have address : forall q, q < NDIRECT ->
      addressOf img.disk (diskInode img.disk i) q = img.volume.slot (i, Volume.place q) := by
    intro q isDirect
    unfold addressOf Volume.place
    rw [if_pos isDirect, if_pos isDirect, Volume.slot_direct (Nat.le_of_lt isDirect), same]
  have present : forall q, q * BSIZE < direntSize * entries.length ->
      addressOf img.disk (diskInode img.disk i) q ≠ 0 := by
    intro q inside
    rw [address q (direct q inside)]
    exact dir.covered q inside
  have block : forall q, q * BSIZE < direntSize * entries.length ->
      img.volume.content i q = img.disk (addressOf img.disk (diskInode img.disk i) q) := by
    intro q inside
    have stored := dir.covered q inside
    unfold Volume.content
    rw [if_neg stored, laid.blocks _ (laid.stored _ stored).1, address q (direct q inside)]
  have cut : forall x, (entryBytes entries).getD x 0 = (img.volume.content i (x / BSIZE)).get
      (x % BSIZE) :=
    fun x => (dir.bytes x).symm
  have inums : forall k, k / 32 * BSIZE < direntSize * entries.length -> inumAt img.disk
      (diskInode img.disk i) k = inumOf (fun x => (entryBytes entries).getD x 0) k := by
    intro k inside
    rw [inumOf_blocks cut, inumAt, block _ inside]
  have names : forall k, k / 32 * BSIZE < direntSize * entries.length ->
      nameKey (nameAt img.disk (diskInode img.disk i) k) = keyOf
      (fun x => (entryBytes entries).getD x 0) k := by
    intro k inside
    rw [keyOf_blocks cut]
    unfold nameAt
    rw [block _ inside]
  have sized := dir.size
  refine ⟨by rw [← same]; exact dir.type, ?_, short, present, fun k inum name found => ?_,
    fun k behind inside => ?_, fun whole => ?_⟩
  · rw [← same, sized]
    refine Nat.mod_eq_of_lt ?_
    simp only [direntSize, BSIZE]
    omega
  · have low := (List.getElem?_eq_some_iff.mp found).1
    have inside : k / 32 * BSIZE < direntSize * entries.length := by
      simp only [BSIZE, direntSize]
      omega
    rw [inums k inside, names k inside]
    exact ⟨inumOf_entryBytes found (small _ (List.mem_of_getElem? found)), keyOf_entryBytes found⟩
  · have zero : forall j, (entryBytes entries).getD (16 * k + j) 0 = 0 := by
      intro j
      refine List.getD_eq_default _ _ ?_
      rw [length_entryBytes]
      simp only [direntSize]
      omega
    have second := zero 1
    have first := zero 0
    rw [Nat.add_zero] at first
    rw [inums k inside, inumOf, first, second]
    rfl
  · rw [← same]
    refine dir.beyond _ short ?_
    simp only [direntSize, BSIZE]
    omega

/-- All that `mkfs` has put into a tree. -/
theorem mkfsMain_dirs {root : Listing} (built : mkfsMain root = some final)
    (few : root.inodes + 1 < imageSuperblock.ninodes) :
    Exists fun img : Image =>
      img.Ready ∧ img.balloc img.usedblocks = some final ∧ img.freeinode = root.inodes + 2 ∧
      Steady 0 Image.mkfs img ∧
      forall i, 0 < i -> i < root.inodes + 2 -> img.Has i ((treeDirs root).lookup i) := by
  have whole : ((ImageStep.ialloc T_DIR).onFile Image.mkfs).bind (fun img =>
      (addDir ROOTINO ROOTINO root img).bind (fun img => img.balloc img.usedblocks)) = some final :=
        built
  rcases Option.bind_eq_some_iff.mp whole with ⟨i1, made, others⟩
  rcases Option.bind_eq_some_iff.mp others with ⟨i4, added, finished⟩
  rcases Option.bind_eq_some_iff.mp added with ⟨i2, dotted, added⟩
  rcases Option.bind_eq_some_iff.mp added with ⟨i3, filled, fixed⟩
  have start : Image.mkfs.Ready := ⟨mkfs_sound, by decide, rfl⟩
  have isRoot : IsInode ROOTINO := by decide
  have n1 : i1.freeinode = 2 := (ialloc_onFile made).2
  rcases addDots_walks (show ROOTINO < i1.freeinode by rw [n1]; decide) dotted with ⟨_, _, n2⟩
  rcases addEntries_walks root (show ROOTINO < i2.freeinode by rw [n2, n1]; decide) filled with
    ⟨_, _, n3⟩
  have n4 := freeinode_fixSize fixed
  rcases start.ialloc (by decide) isRoot made with ⟨ready1, steady1, mine⟩
  have dots := addDots_linked ready1 isRoot (hasDir_new mine) dotted
  rcases addEntries_linked root dots.ready (show ROOTINO < i2.freeinode by rw [n2, n1]; decide)
    (by omega) dots.dir filled with ⟨linked, placed⟩
  rcases linked.ready.fixSize isRoot fixed with ⟨ready4, steady4, mine4, slots4, contents4⟩
  have rootDir := linked.dir.fixSize mine4 slots4 contents4
  have numbers : i2.freeinode = 2 := by omega
  rw [numbers] at placed rootDir
  have other : 0 ≠ ROOTINO := by decide
  refine ⟨i4, ready4, finished, by omega,
    (steady1 0 other).trans ((dots.steady 0 other (by omega)).trans
    ((linked.steady 0 other (by omega)).trans (steady4 0 other))), fun i positive below => ?_⟩
  rw [treeDirs, List.lookup_cons]
  by_cases here : i = ROOTINO
  · rw [beq_iff_eq.mpr here, here]
    exact rootDir
  · have one : ROOTINO = 1 := rfl
    rw [beq_eq_false_iff_ne.mpr here]
    exact (steady4 i here).has (placed i (by omega) (by omega))

/-- The tree of a finished image. -/
theorem mkfsMain_knownTree {root : Listing} (built : mkfsMain root = some final)
    (few : root.inodes + 1 < imageSuperblock.ninodes) :
    KnownTree final.disk (treeDirs root) (root.inodes + 2) := by
  rcases mkfsMain_dirs built few with ⟨img, ready, finished, count, _, placed⟩
  unfold Image.balloc at finished
  split at finished
  · rename_i small
    have isFinal := (Option.some.inj finished).symm
    have ninodes : imageSuperblock.ninodes = 200 := rfl
    have volume : final.volume = img.volume := by
      rw [isFinal]
      exact Superblock.volume_bitmap (Nat.le_refl _) (by decide) _
    have laid : Laid final final.volume := by
      rw [volume, isFinal]
      refine ready.sound.laid.congr (fun _ => rfl) rfl rfl rfl (fun b above => ?_)
      have other : b ≠ imageSuperblock.ninodes / IPB + 3 := by
        have start : imageSuperblock.dataStart = 29 := rfl
        simp only [ninodes, IPB]
        omega
      exact Function.update_of_ne other _ _
    have inode : forall i, i < root.inodes + 2 -> diskInode final.disk i = img.volume.inode i := by
      intro i below
      rw [← volume]
      exact (Superblock.inode_below (show i < imageSuperblock.ninodes by omega)).symm
    have super : superblock (final.disk 1) = imageSuperblock := by
      have kept : final.disk 1 = img.disk 1 := by
        have other : 1 ≠ imageSuperblock.ninodes / IPB + 3 := by decide
        rw [isFinal]
        simp only [Image.wsect, Function.update_of_ne other]
      rw [kept, ready.super]
      exact superblock_superblockBytes (by decide) (by decide) (by decide)
    refine ⟨?_, fun i positive below => ?_, fun i entries found => ?_,
      fun i positive below missing => ?_, fun i entries found => treeDirs_closed found, ?_⟩
    · have one : ROOTINO = 1 := rfl
      omega
    · have has := placed i positive below
      rw [inode i below]
      cases found : (treeDirs root).lookup i with
      | none =>
          rw [found] at has
          rw [has.1, has.2]
          decide
      | some entries =>
          rw [found] at has
          rw [has.type, has.links]
          decide
    · have range := treeDirs_range found
      have has := placed i range.1 range.2
      rw [found] at has
      have dir : final.HasDir i (roundedSize entries) entries := by
        refine ⟨?_, ?_, ?_, ?_, ?_, ?_⟩
        · rw [volume]
          exact has.type
        · rw [volume]
          exact has.links
        · rw [volume]
          exact has.size
        · rw [volume]
          exact has.bytes
        · rw [volume]
          exact has.covered
        · rw [volume]
          exact has.beyond
      have length := treeDirs_length found
      refine dir.dirOf laid (show i < imageSuperblock.ninodes by omega) (by omega)
        (fun entry member => ?_)
      have closed := treeDirs_closed found entry member
      omega
    · have has := placed i positive below
      rw [missing] at has
      rw [inode i below, has.1]
      decide
    · refine ⟨img.freeblock, ?_, ?_⟩
      · rw [super]
        exact Nat.lt_of_le_of_lt ready.few (by decide)
      · have few := ready.few
        have size : imageSuperblock.size = 1024 := rfl
        have sector : BBLOCK img.freeblock imageSuperblock.ninodes = imageSuperblock.ninodes /
            IPB + 3 := by
          simp only [BBLOCK, BPB, ninodes, IPB]
          omega
        have position : img.freeblock % BPB = img.freeblock :=
          Nat.mod_eq_of_lt (by simp only [BPB]; omega)
        have inside : img.freeblock < BPB := by
          simp only [BPB]
          omega
        rw [super]
        unfold used
        rw [sector, position, isFinal, wsect_disk_self, bit_markUsed inside, ready.sound.laid.count]
        exact decide_eq_false (Nat.lt_irrefl _)
  · cases finished

end Finished

/-! ## Looking up paths in the image -/

/-- A state of the kernel over a disk: the buffer cache is at rest, the cache of inodes has
nothing but what is on the disk, and the current directory is in it. -/
structure Browsable (disk : Nat -> Block) (bound : Nat) (s : Store Kernel) (cwd : Nat) : Prop where
  sameDisk : s.disk = disk
  atRest : Exists fun d => Shows s d ∧ Quiet d
  cache : CacheOf disk bound s.mem
  cwd : 0 < (s.mem.icache cwd).ref

/-- Looking up a path writes no disk, and leaves the addresses of all inodes as they are, on
the disk and in memory. -/
structure LookupReadOnly (s : Store Kernel) (cwd : Nat) (path : List UInt8) : Prop where
  noWrite : Throughout (fun _ => False) (namei cwd path) s
  kept : Program.wp (exec (namei cwd path)) (fun _ t => t.disk = s.disk ∧
    (forall i, 0 < (s.mem.icache i).ref -> (s.mem.icache i).valid = true -> 0 <
    (t.mem.icache i).ref ∧ (t.mem.icache i).inum = (s.mem.icache i).inum ∧ (t.mem.icache i).valid =
    true ∧ (t.mem.icache i).copy.addrs = (s.mem.icache i).copy.addrs) ∧ forall i,
    0 < (t.mem.icache i).ref -> (t.mem.icache i).valid = true -> (t.mem.icache i).copy.addrs =
    (diskInode s.disk (t.mem.icache i).inum).addrs) (fun reason => reason = .panic .igetNoInodes) s

section Paths

variable {root : Listing} {final : Image} {s : Store Kernel} {cwd : Nat}

/-- Whoever comes to a hole writes the disk. -/
theorem not_readOnly {disk : Nat -> Block} {tree : List (Nat × Entries)} {bound : Nat}
    {path : List UInt8} (known : KnownTree disk tree bound) (state : Browsable disk bound s cwd)
    (two : TwoFree s.mem)
    (meets : meetsHole tree (path.length + 1) (startInode s.mem cwd path) path = true) :
    ¬ LookupReadOnly s cwd path := by
  intro readOnly
  rcases state.atRest with ⟨d, shows, quiet⟩
  have mem : d.mem = s.mem := shows.mem.symm
  have hole := @namei_hole ⟨NBUF, fun _ => False⟩ d bound disk tree (fun _ => False) cwd path
      (fun _ _ => False) known (by decide) quiet (shows.disk.symm.trans state.sameDisk)
      (mem ▸ state.cache) (mem ▸ state.cwd) (mem ▸ two) (fun _ => id) (mem ▸ meets)
  have ran := exec_sound shows readOnly.noWrite hole
  unfold Program.wp at ran
  cases ended : exec (namei cwd path) s with
  | panic reason =>
      rw [ended] at ran
      exact absurd ran id
  | done found t =>
      rw [ended] at ran
      rcases ran with ⟨_, _, never⟩
      exact absurd never id

/-- Looking up a path in an image that `mkfs` has made reads only, exactly when no name is
missing in a directory on the way whose entries fill its last block.  The other direction
needs two free entries of the cache of inodes, because otherwise `iget` may panic first. -/
theorem lookupReadOnly_iff (built : mkfsMain root = some final)
    (few : root.inodes + 1 < imageSuperblock.ninodes)
    (state : Browsable final.disk (root.inodes + 2) s cwd) (path : List UInt8) :
    (meetsHole (treeDirs root) (path.length + 1) (startInode s.mem cwd path) path = false ->
      LookupReadOnly s cwd path) ∧
    (TwoFree s.mem -> LookupReadOnly s cwd path ->
      meetsHole (treeDirs root) (path.length + 1) (startInode s.mem cwd path) path = false) := by
  have known := mkfsMain_knownTree built few
  rcases state.atRest with ⟨d, shows, quiet⟩
  have disk : d.disk = final.disk := shows.disk.symm.trans state.sameDisk
  have mem : d.mem = s.mem := shows.mem.symm
  have cache : CacheOf final.disk (root.inodes + 2) d.mem := mem ▸ state.cache
  have referred : 0 < (d.mem.icache cwd).ref := mem ▸ state.cwd
  rw [← mem]
  constructor
  · intro clear
    have reads := @namei_reads ⟨NBUF, fun _ => False⟩ d (root.inodes + 2) final.disk
        (treeDirs root) (fun reason => reason = .panic .igetNoInodes) cwd path known
        (by decide) quiet disk cache referred (fun _ => rfl) clear
    have noWrite : Throughout (fun _ => False) (namei cwd path) s :=
      throughout_of_spares shows reads.spares
    have ran := exec_sound shows noWrite reads.wp
    refine ⟨noWrite, ?_⟩
    unfold Program.wp at ran ⊢
    cases ended : exec (namei cwd path) s with
    | panic reason =>
        rw [ended] at ran
        exact ran
    | done found t =>
        rw [ended] at ran
        rcases ran with ⟨e, shown, browsed⟩
        have sameMem : t.mem = e.mem := shown.mem
        refine ⟨?_, fun i old valid => ?_, fun i old valid => ?_⟩
        · rw [shown.disk, browsed.sameDisk, state.sameDisk]
        · rw [← mem] at old valid
          rw [← mem, sameMem]
          have kept := browsed.kept i old
          have copy := (browsed.cache i kept.1).2.2.2 (kept.2.2 valid)
          have before := (cache i old).2.2.2 valid
          refine ⟨kept.1, kept.2.1, kept.2.2 valid, ?_⟩
          rw [copy, before, kept.2.1]
        · rw [sameMem] at old valid ⊢
          rw [(browsed.cache i old).2.2.2 valid, state.sameDisk]
  · intro two readOnly
    cases meets : meetsHole (treeDirs root) (path.length + 1) (startInode d.mem cwd path) path with
    | false => rfl
    | true => exact absurd readOnly (not_readOnly known state (mem ▸ two) (mem ▸ meets))

/-- The kernel when the first process has the root as its current directory. -/
def rooted (disk : Nat -> Block) : Store Kernel :=
  ⟨disk, binit, ⟨fun i => if i = 0 then ⟨ROOTINO, 1, false, false, Dinode.blank⟩
    else ⟨0, 0, false, false, Dinode.blank⟩⟩⟩

theorem rooted_browsable (disk : Nat -> Block) {bound : Nat} (root : ROOTINO < bound) :
    Browsable disk bound (rooted disk) 0 := by
  refine ⟨rfl, ⟨_, shows_binit _ _, quiet_fresh _ _⟩, fun i referred => ?_, Nat.one_pos⟩
  by_cases first : i = 0
  · have entry : (rooted disk).mem.icache i = ⟨ROOTINO, 1, false, false, Dinode.blank⟩ :=
      if_pos first
    rw [entry]
    exact ⟨rfl, by decide, root, nofun⟩
  · have entry : (rooted disk).mem.icache i = ⟨0, 0, false, false, Dinode.blank⟩ := if_neg first
    rw [entry] at referred
    exact absurd referred (Nat.lt_irrefl 0)

theorem rooted_twoFree (disk : Nat -> Block) : TwoFree (rooted disk).mem :=
  ⟨1, 2, by decide, by decide, by decide, rfl, rfl⟩

/-- The name `x` is missing in a root directory with three files, and not one block is allocated. -/
theorem lookupReadOnly_iff_threeFiles :
    Exists fun final =>
      mkfsMain (emptyFiles 3) = some final ∧ LookupReadOnly (rooted final.disk) 0 [120] ∧
      meetsHole (treeDirs (emptyFiles 3)) 2 (startInode (rooted final.disk).mem 0 [120]) [120] =
        false := by
  rcases mkfsMain_emptyFiles (show 3 + 1 ≤ imageSuperblock.ninodes by decide) with ⟨final, built⟩
  have start : startInode (rooted final.disk).mem 0 [120] = ROOTINO := rfl
  have both := lookupReadOnly_iff built (by decide) (rooted_browsable _ (by decide)) [120]
  have readOnly := both.1 (by
    rw [start]
    decide)
  exact ⟨final, built, readOnly, both.2 (rooted_twoFree _) readOnly⟩

/-- With thirty files, the entries of the root fill one block, and looking for `x` allocates
the next one. -/
theorem full_directory_allocates :
    ¬ forall (root : Listing) (final : Image), mkfsMain root = some final ->
      forall (s : Store Kernel) (cwd : Nat), Browsable final.disk (root.inodes + 2) s cwd ->
        forall path, LookupReadOnly s cwd path := by
  intro always
  rcases mkfsMain_emptyFiles (show 30 + 1 ≤ imageSuperblock.ninodes by decide) with ⟨final, built⟩
  have state : Browsable final.disk ((emptyFiles 30).inodes + 2) (rooted final.disk) 0 :=
    rooted_browsable _ (by decide)
  have known := mkfsMain_knownTree built
      (show (emptyFiles 30).inodes + 1 < imageSuperblock.ninodes by decide)
  have meets : meetsHole (treeDirs (emptyFiles 30)) 2 ROOTINO [120] = true := by decide +kernel
  exact @not_readOnly _ 0 _ _ _ [120] known state (rooted_twoFree _) meets
    (always _ final built _ 0 state [120])

end Paths

end TripleFs
end OsProjects
