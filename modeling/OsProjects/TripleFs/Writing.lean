import OsProjects.TripleFs.Growth
import OsProjects.TripleFs.MirroredRead

namespace OsProjects
namespace TripleFs

open Machine

/-!
# Writing a file

`writei` fills slots and then changes bytes of the blocks in them.  The bytes that a
loop writes are described by one function of the block and the position, so that the
iterations only add to the set of bytes that have been hit.
-/

/-- In the inode `i` some slots have been filled and the bytes that are hit have got
their values. -/
structure Edited (sb : Superblock) (v : Volume) (bits : Nat -> Bool) (w : Volume)
    (others : Nat -> Bool) (i : Nat) (value : Nat -> Nat -> UInt8) (hit : Nat -> Nat -> Prop)
    (new : Nat -> Prop) : Prop where
  stays : forall s, v.slot s ≠ 0 -> w.slot s = v.slot s
  only : forall s, v.slot s = 0 -> w.slot s ≠ 0 -> s.1 = i ∧ new s.2
  more : forall b, bits b = true -> others b = true
  fresh : forall b, others b = true -> bits b = true ∨ b ≠ 0 ∧ Exists fun s => w.slot s = b
  written : forall bn y, y < BSIZE -> hit bn y -> (w.content i bn).get y = value bn y
  kept : forall bn y, y < BSIZE -> ¬ hit bn y -> (w.content i bn).get y = (v.content i bn).get y
  elsewhere : forall j bn, j ≠ i -> w.content j bn = v.content j bn
  inodes : forall j, j ≠ i -> w.inode j = v.inode j
  head : w.inode i =
    { v.inode i with addrs := (w.inode i).addrs, logical_size := (w.inode i).logical_size }

/-- The same on the device, before the size is changed. -/
structure Edits (sb : Superblock) (ends : Nat) (enough : (Nat -> Bool) -> (Nat -> Nat) -> Prop)
    (d e : Device BSIZE Kernel) (ip : Nat) (value : Nat -> Nat -> UInt8) (hit : Nat -> Nat -> Prop)
    (new : Nat -> Prop) : Prop where
  works : Works sb ends enough e ip
  kept : Kept sb d e ip
  edited : Edited sb (work sb d ip) (marked sb d.disk) (work sb e ip) (marked sb e.disk)
    (d.mem.icache ip).inum value hit new
  size : (e.mem.icache ip).copy.logical_size = (d.mem.icache ip).copy.logical_size

section Editing

variable {sb : Superblock} {v w u : Volume} {bits others more : Nat -> Bool} {i : Nat}
  {value : Nat -> Nat -> UInt8} {hit hits : Nat -> Nat -> Prop} {new newer : Nat -> Prop}

theorem Filled.edited (filled : Filled sb v bits w others i new) (value : Nat -> Nat -> UInt8) :
    Edited sb v bits w others i value (fun _ _ => False) new := by
  refine ⟨filled.stays, filled.only, filled.more, filled.fresh, fun _ _ _ none_ => none_.elim,
    fun bn y _ _ => by rw [filled.content], fun j bn _ => filled.content j bn, filled.inodes, ?_⟩
  rw [filled.head]

theorem Edited.trans (first : Edited sb v bits w others i value hit new)
    (second : Edited sb w others u more i value hits newer) :
    Edited sb v bits u more i value (fun bn y => hit bn y ∨ hits bn y)
      (fun j => new j ∨ newer j) := by
  refine ⟨fun s stored => ?_, fun s empty stored => ?_,
    fun b inUse => second.more b (first.more b inUse), fun b inUse => ?_,
    fun bn y below either => ?_, fun bn y below neither => ?_,
    fun j bn different => (second.elsewhere j bn different).trans (first.elsewhere j bn different),
    fun j different => (second.inodes j different).trans (first.inodes j different), ?_⟩
  · have same := first.stays s stored
    rw [second.stays s (by rw [same]; exact stored), same]
  · by_cases between : w.slot s = 0
    · rcases second.only s between stored with ⟨here, allowed⟩
      exact ⟨here, Or.inr allowed⟩
    · rcases first.only s empty between with ⟨here, allowed⟩
      exact ⟨here, Or.inl allowed⟩
  · rcases second.fresh b inUse with before | stored
    · rcases first.fresh b before with old | ⟨nonnull, s, same⟩
      · exact Or.inl old
      · exact Or.inr ⟨nonnull, s, by rw [second.stays s (by rw [same]; exact nonnull), same]⟩
    · exact Or.inr stored
  · by_cases later : hits bn y
    · exact second.written bn y below later
    · rw [second.kept bn y below later]
      exact first.written bn y below (either.resolve_right later)
  · rw [second.kept bn y below (fun later => neither (Or.inr later)),
      first.kept bn y below (fun earlier => neither (Or.inl earlier))]
  · rw [second.head, first.head]

theorem Edited.weaken (edited : Edited sb v bits w others i value hit new)
    (same : forall bn y, y < BSIZE -> (hit bn y ↔ hits bn y))
    (allowed : forall j, new j -> newer j) : Edited sb v bits w others i value hits newer :=
  ⟨edited.stays, fun s empty stored =>
    ⟨(edited.only s empty stored).1, allowed _ (edited.only s empty stored).2⟩, edited.more,
    edited.fresh, fun bn y below hit => edited.written bn y below ((same bn y below).mpr hit),
    fun bn y below miss => edited.kept bn y below (fun hit => miss ((same bn y below).mp hit)),
    edited.elsewhere, edited.inodes, edited.head⟩

/-- Where no slot may be filled, none has changed. -/
theorem Edited.slots (edited : Edited sb v bits w others i value hit new)
    (none_ : forall j, ¬ new j) (s : Nat × Nat) : w.slot s = v.slot s := by
  by_cases empty : v.slot s = 0
  · by_contra different
    rw [empty] at different
    exact none_ _ (edited.only s empty different).2
  · exact edited.stays s empty

/-- Changing the size of the inode. -/
theorem Edited.resize (edited : Edited sb v bits w others i value hit new) {c : Dinode} {size : Nat}
    (resized : c = { w.inode i with logical_size := size }) :
    Edited sb v bits (w.setInode i c) others i value hit new := by
  have addrs : c.addrs = (w.inode i).addrs := by rw [resized]
  have slots := Volume.slot_setInode_addrs addrs
  have contents := Volume.content_setInode_addrs addrs
  refine ⟨fun s stored => (slots s).trans (edited.stays s stored),
    fun s empty stored => edited.only s empty ?_, edited.more, fun b inUse => ?_,
    fun bn y below hit => ?_, fun bn y below miss => ?_, fun j bn different =>
    (contents j bn).trans (edited.elsewhere j bn different), fun j different =>
    (Volume.inode_setInode_of_ne _ different).trans (edited.inodes j different), ?_⟩
  · rw [← slots]
    exact stored
  · rcases edited.fresh b inUse with old | ⟨nonnull, s, same⟩
    · exact Or.inl old
    · exact Or.inr ⟨nonnull, s, (slots s).trans same⟩
  · rw [contents]
    exact edited.written bn y below hit
  · rw [contents]
    exact edited.kept bn y below miss
  · rw [Volume.inode_setInode_self, resized, edited.head]

/-- A piece of the block in a slot. -/
theorem Volume.Sound.editBlock {ends bn at_ m b : Nat} {src : Nat -> UInt8}
    (sound : v.Sound sb ends bits) (stored : v.slot (i, Volume.place bn) = b) (nonnull : b ≠ 0)
    (values : forall y, at_ ≤ y -> y < at_ + m -> value bn y = src (y - at_)) :
    (v.setBlock b ((v.block b).splice at_ m src)).Sound sb ends bits ∧
    Edited sb v bits (v.setBlock b ((v.block b).splice at_ m src)) bits i value
      (fun k y => k = bn ∧ at_ ≤ y ∧ y < at_ + m) (fun _ => False) := by
  have owned := sound.ledger.owned
  have slots := Volume.slot_setBlock (Volume.notIndirect owned stored nonnull)
      ((v.block b).splice at_ m src)
  have contents := Volume.content_setBlock owned stored nonnull ((v.block b).splice at_ m src)
  have inUse := (sound.ledger.stored _ (by rw [stored]; exact nonnull)).2.2
  rw [stored] at inUse
  have before : v.content i bn = v.block b := by
    unfold Volume.content
    rw [stored, if_neg nonnull]
  refine ⟨⟨(sound.ledger.write inUse _).congr slots (fun _ => rfl) (fun _ _ _ _ => rfl),
    sound.fits⟩, fun s _ => slots s, fun s empty storedNow => ?_, fun _ => id, fun _ => Or.inl,
    fun k y below hit => ?_, fun k y below miss => ?_, fun j k different => ?_, fun _ _ => rfl, rfl⟩
  · rw [slots, empty] at storedNow
    exact absurd rfl storedNow
  · rcases hit with ⟨rfl, lower, upper⟩
    rw [contents, if_pos ⟨rfl, rfl⟩, Bytes.get_splice _ _ _ _ below, if_pos ⟨lower, upper⟩,
      values y lower upper]
  · by_cases here : k = bn
    · have outside : ¬ (at_ ≤ y ∧ y < at_ + m) := fun inside => miss ⟨here, inside⟩
      rw [contents, if_pos ⟨rfl, here⟩, Bytes.get_splice _ _ _ _ below, if_neg outside,
        here, before]
    · rw [contents, if_neg (fun both => here both.2)]
  · rw [contents, if_neg (fun both => different both.1)]

end Editing

section Loops

variable {limits : Limits BSIZE} {sb : Superblock} {ends : Nat} {escape : Stop FsPanic -> Prop}
  {enough : (Nat -> Bool) -> (Nat -> Nat) -> Prop} {d e : Device BSIZE Kernel} {ip j bn : Nat}
  {value : Nat -> Nat -> UInt8} {hit hits : Nat -> Nat -> Prop} {new newer : Nat -> Prop}

open BlockProgram

theorem Extended.edits (extended : Extended sb ends enough d e ip new)
    (value : Nat -> Nat -> UInt8) : Edits sb ends enough d e ip value (fun _ _ => False) new := by
  refine ⟨extended.works, extended.kept, extended.filled.edited value, ?_⟩
  have head := congrArg Dinode.logical_size extended.filled.head
  have inum := extended.kept.inum
  have here := @work_inode sb e ip
  rw [inum] at here
  rw [here, work_inode] at head
  exact head

theorem Edits.trans {f : Device BSIZE Kernel} (first : Edits sb ends enough d e ip value hit new)
    (second : Edits sb ends enough e f ip value hits newer) :
    Edits sb ends enough d f ip value (fun bn y => hit bn y ∨ hits bn y)
      (fun j => new j ∨ newer j) := by
  have edited := second.edited
  rw [first.kept.inum] at edited
  exact ⟨second.works, first.kept.trans second.kept, first.edited.trans edited,
    second.size.trans first.size⟩

theorem Edits.weaken (edits : Edits sb ends enough d e ip value hit new)
    (same : forall bn y, y < BSIZE -> (hit bn y ↔ hits bn y))
    (allowed : forall j, new j -> newer j) : Edits sb ends enough d e ip value hits newer :=
  ⟨edits.works, edits.kept, edits.edited.weaken same allowed, edits.size⟩

/-- Write a piece of the block in a slot. -/
theorem writeBlock_wp {at_ m b : Nat} {src : Nat -> UInt8}
    (terms : Terms limits sb ends escape enough) (works : Works sb ends enough d ip)
    (stored : b = (work sb d ip).slot ((d.mem.icache ip).inum, Volume.place bn)) (nonnull : b ≠ 0)
    (values : forall y, at_ ≤ y -> y < at_ + m -> value bn y = src (y - at_)) :
    (writeBlock b at_ m src).wp limits
      (fun _ e =>
        Edits sb ends enough d e ip value (fun k y => k = bn ∧ at_ ≤ y ∧ y < at_ + m)
          (fun _ => False))
      escape d := by
  have space := works.space terms
  have above := (works.sound.ledger.stored _ (by rw [← stored]; exact nonnull)).1
  rw [← stored] at above
  have block : (work sb d ip).block b = d.disk b := Superblock.block_above above
  unfold writeBlock
  refine wp_rewrite (works.quiet.resting b) (by omega) (fun roomy => ?_)
  have edited := works.sound.editBlock stored.symm nonnull values
  rw [block] at edited
  have volume := @Superblock.volume_setBlock sb d.disk b above ((d.disk b).splice at_ m src)
  have after := @work_setBlock sb d (d.store b ((d.disk b).splice at_ m src)) ip b _ rfl volume
  have sets : marked sb (d.store b ((d.disk b).splice at_ m src)).disk = marked sb d.disk :=
    funext (marked_other (Or.inr above) _)
  rw [← after, ← sets] at edited
  have low : 1 ≠ b := by
    have large := dataStart_large sb
    omega
  refine ⟨⟨works.quiet.store, ?_, works.inode, edited.1, ?_⟩,
    ⟨(Kept.refl sb d ip).mem, ?_⟩, ?_, rfl⟩
  · rw [Device.disk_store_of_ne low]
    exact works.isSuper
  · have own : ownSlots sb (d.store b ((d.disk b).splice at_ m src)) ip = ownSlots sb d ip :=
      funext fun j => edited.2.slots (fun _ none_ => none_) _
    rw [sets, own]
    exact works.enough
  · have inodes := congrArg Volume.inode volume
    exact inodes
  · have result := edited.2
    rw [sets] at result ⊢
    exact result

/-- The bytes of a range: those in the first block, and those of what is left after it. -/
theorem requested_cons {off left m k y : Nat} (piece : min left (BSIZE - off % BSIZE) = m)
    (below : y < BSIZE) :
    Requested off left k y ↔
      (k = off / BSIZE ∧ off % BSIZE ≤ y ∧ y < off % BSIZE + m) ∨
      Requested (off + m) (left - m) k y := by
  unfold Requested
  simp only [BSIZE] at piece below ⊢
  omega

section Pieces

variable {stored : Nat -> Nat -> UInt8} {src : Nat -> UInt8} {off left m : Nat}

/-- What is to be stored in the first block of a range. -/
theorem firstPiece (piece : min left (BSIZE - off % BSIZE) = m)
    (values : forall x, off ≤ x -> x < off + left -> stored (x / BSIZE) (x % BSIZE) = src (x - off))
    (y : Nat) (lower : off % BSIZE ≤ y) (upper : y < off % BSIZE + m) :
    stored (off / BSIZE) y = src (y - off % BSIZE) := by
  have split := Nat.div_add_mod off BSIZE
  have position : (off + (y - off % BSIZE)) / BSIZE = off / BSIZE ∧
      (off + (y - off % BSIZE)) % BSIZE = y := by
    simp only [BSIZE] at piece lower upper ⊢
    omega
  have at_ := values (off + (y - off % BSIZE)) (by omega) (by omega)
  rw [position.1, position.2, Nat.add_sub_cancel_left] at at_
  exact at_

/-- What is to be stored behind it. -/
theorem laterPieces
    (values : forall x, off ≤ x -> x < off + left -> stored (x / BSIZE) (x % BSIZE) = src (x - off))
    (x : Nat) (lower : off + m ≤ x) (upper : x < off + m + (left - m)) :
    stored (x / BSIZE) (x % BSIZE) = src (m + (x - (off + m))) := by
  rw [values x (by omega) (by omega)]
  congr 1
  omega

end Pieces

/-- The slots that a write to a plain file may fill. -/
def PlainSlot (off n m : Nat) : Prop :=
  m = NDIRECT ∨ Exists fun bn => Touches off n bn ∧ m = Volume.place bn

/-- The slots that a write to a mirrored file may fill. -/
def MirrorSlot (off n m : Nat) : Prop := Exists fun k => Touches off n k ∧ CopySlot k m

/-- The loop of `writei` for plain files. -/
theorem writePlain_wp (terms : Terms limits sb ends escape enough) (fuel : Nat) :
    forall {d : Device BSIZE Kernel} {off left : Nat} {src : Nat -> UInt8}, left ≤ fuel ->
      off + left ≤ MAXFILE * BSIZE -> Works sb ends enough d ip ->
      (forall x, off ≤ x -> x < off + left -> value (x / BSIZE) (x % BSIZE) = src (x - off)) ->
      (writePlain ip fuel off left src).wp limits
        (fun _ e =>
          Edits sb ends enough d e ip value (fun bn y => Requested off left bn y)
            (PlainSlot off left) ∧
          forall bn, Touches off left bn ->
            (work sb e ip).slot ((d.mem.icache ip).inum, Volume.place bn) ≠ 0)
        escape d := by
  have finished : forall {d : Device BSIZE Kernel} {off : Nat}, Works sb ends enough d ip ->
      Edits sb ends enough d d ip value (fun bn y => Requested off 0 bn y) (PlainSlot off 0) ∧
      forall bn, Touches off 0 bn ->
        (work sb d ip).slot ((d.mem.icache ip).inum, Volume.place bn) ≠ 0 := by
    intro d off works
    refine ⟨((Extended.refl works _).edits value).weaken (fun bn y _ => ⟨False.elim, ?_⟩)
      (fun _ => id), ?_⟩
    · rintro ⟨lower, upper⟩
      exact absurd lower (Nat.not_le.mpr upper)
    · intro bn touches
      exact absurd (touches_iff.mp touches).1 (Nat.lt_irrefl 0)
  induction fuel with
  | zero =>
      intro d off left src short _ works _
      rw [Nat.le_zero.mp short]
      exact finished works
  | succ fuel ih =>
      intro d off left src short low works values
      rw [writePlain]
      by_cases none_ : left = 0
      · rw [if_pos none_, none_]
        exact finished works
      · generalize piece : min left (BSIZE - off % BSIZE) = m
        have within := Nat.mod_lt off (show 0 < BSIZE by decide)
        have below : off / BSIZE < MAXFILE := by
          rw [Nat.div_lt_iff_lt_mul (by decide)]
          omega
        rw [if_neg none_]
        refine wp_seq (bmap_wp terms works below) ?_
        rintro b e ⟨filled, stored, nonnull⟩
        have storedToo := stored
        rw [← filled.kept.inum] at storedToo
        refine wp_seq (writeBlock_wp terms filled.works storedToo nonnull (firstPiece piece values))
          ?_
        rintro _ f piece_
        refine wp_mono (ih (by omega) (by omega) piece_.works (laterPieces values)) ?_
          (fun _ stopped => stopped)
        rintro _ g ⟨rest, present⟩
        have whole := ((filled.edits value).trans piece_).trans rest
        have inums := filled.kept.inum
        refine ⟨whole.weaken (fun bn y inside => ?_) (fun j allowed => ?_), fun bn touches => ?_⟩
        · rw [requested_cons piece inside, false_or]
        · rcases allowed with ((indirect | here) | none') | (indirect | ⟨bn, touches, here⟩)
          · exact Or.inl indirect
          · exact Or.inr ⟨_, (touches_cons none_ piece _).mpr (Or.inl rfl), here⟩
          · exact none'.elim
          · exact Or.inl indirect
          · exact Or.inr ⟨bn, (touches_cons none_ piece bn).mpr (Or.inr touches), here⟩
        · rcases (touches_cons none_ piece bn).mp touches with rfl | touchesLater
          · have stillThere := (piece_.trans rest).edited.stays _
                (by rw [← storedToo]; exact nonnull)
            rw [inums] at stillThere
            rw [stillThere, ← stored]
            exact nonnull
          · have there := present bn touchesLater
            rw [(filled.kept.trans piece_.kept).inum] at there
            exact there

/-- Write a piece of one copy. -/
theorem writeCopy_wp {Value : Type} {post : Value -> Device BSIZE Kernel -> Prop} {next : Fs Value}
    {k at_ m : Nat} {src : Nat -> UInt8} (terms : Terms limits sb ends escape enough)
    (works : Works sb ends enough d ip) (small : j < 3) (below : k * 3 + 2 < MAXFILE)
    (values : forall y, at_ ≤ y -> y < at_ + m -> value (k * 3 + j) y = src (y - at_))
    (holds : forall f, Edits sb ends enough d f ip value
      (fun bn y => bn = k * 3 + j ∧ at_ ≤ y ∧ y < at_ + m) (CopySlot k) -> (work sb f ip).slot
      ((d.mem.icache ip).inum, Volume.place (k * 3 + j)) ≠ 0 -> next.wp limits post escape f) : (do
      let s <- mbmap ip (k * 3) j
      writeBlock s at_ m src
      next : Fs Value).wp limits post escape d := by
  refine wp_seq (mbmap_wp terms works small (by omega)) ?_
  rintro b e ⟨filled, stored, nonnull⟩
  have storedToo := stored
  rw [← filled.kept.inum] at storedToo
  refine wp_seq (writeBlock_wp terms filled.works storedToo nonnull values) ?_
  rintro _ f piece
  refine holds f (((filled.edits value).trans piece).weaken (fun _ _ _ => by rw [false_or]) ?_) ?_
  · rintro m (allowed | none_)
    · exact allowed
    · exact none_.elim
  · have stays := piece.edited.stays _ (by rw [← storedToo]; exact nonnull)
    rw [filled.kept.inum, ← stored] at stays
    rw [stays]
    exact nonnull

theorem hit_copies {first second third inside : Prop} :
    (((False ∨ first ∧ inside) ∨ second ∧ inside) ∨ third ∧ inside) ↔
      (first ∨ second ∨ third) ∧ inside := by
  tauto

/-- Write a piece of the three copies of a block. -/
theorem writeCopies_wp {Value : Type} {post : Value -> Device BSIZE Kernel -> Prop}
    {next : Fs Value} {k at_ m : Nat} {src : Nat -> UInt8}
    (terms : Terms limits sb ends escape enough) (works : Works sb ends enough d ip)
    (below : k * 3 + 2 < MAXFILE) (values : forall j, j < 3 -> forall y, at_ ≤ y -> y < at_ + m ->
      value (k * 3 + j) y = src (y - at_)) (holds : forall g, Edits sb ends enough d g ip value
      (fun bn y => bn / 3 = k ∧ at_ ≤ y ∧ y < at_ + m) (CopySlot k) -> (forall j, j < 3 ->
      (work sb g ip).slot ((d.mem.icache ip).inum, Volume.place (k * 3 + j)) ≠ 0) ->
      next.wp limits post escape g) : (do
      let _ <- mbmap ip (k * 3) 0
      let _ <- mbmap ip (k * 3) 1
      let _ <- mbmap ip (k * 3) 2
      let s1 <- mbmap ip (k * 3) 0
      writeBlock s1 at_ m src
      let s2 <- mbmap ip (k * 3) 1
      writeBlock s2 at_ m src
      let s3 <- mbmap ip (k * 3) 2
      writeBlock s3 at_ m src
      next : Fs Value).wp limits post escape d := by
  refine wp_seq (mbmap_wp terms works (by decide) (by omega)) ?_
  rintro _ d0 ⟨fill0, _⟩
  refine wp_seq (mbmap_wp terms fill0.works (by decide) (by omega)) ?_
  rintro _ d1 ⟨fill1, _⟩
  refine wp_seq (mbmap_wp terms fill1.works (by decide) below) ?_
  rintro _ d2 ⟨fill2, _⟩
  have fills := (fill0.trans fill1).trans fill2
  refine writeCopy_wp terms fills.works (by decide) below (values 0 (by decide))
    (fun e first there1 => ?_)
  refine writeCopy_wp terms first.works (by decide) below (values 1 (by decide))
    (fun f second there2 => ?_)
  refine writeCopy_wp terms second.works (by decide) below (values 2 (by decide))
    (fun g third there3 => ?_)
  have inum2 := fills.kept.inum
  have inumE := first.kept.inum.trans inum2
  rw [inum2] at there1
  rw [inumE] at there2
  rw [second.kept.inum.trans inumE] at there3
  refine holds g (((((fills.edits value).trans first).trans second).trans third).weaken
    (fun bn y _ => ?_) (fun i allowed => ?_)) (fun j small => ?_)
  · have block : bn / 3 = k ↔ bn = k * 3 + 0 ∨ bn = k * 3 + 1 ∨ bn = k * 3 + 2 := by omega
    rw [block]
    exact hit_copies
  · rcases allowed with ((((a | a) | a) | a) | a) | a <;> exact a
  · have cases_ : j = 0 ∨ j = 1 ∨ j = 2 := by omega
    rcases cases_ with rfl | rfl | rfl
    · rw [(second.trans third).edited.stays _ there1]
      exact there1
    · rw [third.edited.stays _ there2]
      exact there2
    · exact there3

/-- What the loop for mirrored files has done. -/
structure WrittenMirror (sb : Superblock) (ends : Nat)
    (enough : (Nat -> Bool) -> (Nat -> Nat) -> Prop) (d e : Device BSIZE Kernel) (ip : Nat)
    (value : Nat -> Nat -> UInt8) (off left : Nat) : Prop where
  low : off + left ≤ 46 * BSIZE
  edits : Edits sb ends enough d e ip value (fun bn y => Requested off left (bn / 3) y)
    (MirrorSlot off left)
  present : forall k, Touches off left k -> forall j, j < 3 ->
    (work sb e ip).slot ((d.mem.icache ip).inum, Volume.place (k * 3 + j)) ≠ 0

theorem WrittenMirror.nothing {off : Nat} (low : off ≤ 46 * BSIZE)
    (works : Works sb ends enough d ip) : WrittenMirror sb ends enough d d ip value off 0 := by
  refine ⟨low, ((Extended.refl works _).edits value).weaken (fun bn y _ => ⟨False.elim, ?_⟩)
    (fun _ => id), ?_⟩
  · rintro ⟨lower, upper⟩
    exact absurd lower (Nat.not_le.mpr upper)
  · intro k touches
    exact absurd (touches_iff.mp touches).1 (Nat.lt_irrefl 0)

/-- The first block of a range and then the rest. -/
theorem WrittenMirror.cons {f : Device BSIZE Kernel} {off left m : Nat} (some_ : left ≠ 0)
    (piece : min left (BSIZE - off % BSIZE) = m)
    (first : Edits sb ends enough d e ip value (fun bn y => bn / 3 = off / BSIZE ∧ off % BSIZE ≤ y ∧
      y < off % BSIZE + m) (CopySlot (off / BSIZE)))
    (there : forall j, j < 3 ->
      (work sb e ip).slot ((d.mem.icache ip).inum, Volume.place (off / BSIZE * 3 + j)) ≠ 0)
    (rest : WrittenMirror sb ends enough e f ip value (off + m) (left - m)) :
    WrittenMirror sb ends enough d f ip value off left := by
  have lowRest := rest.low
  refine ⟨by omega, (first.trans rest.edits).weaken (fun bn y inside => ?_) (fun i allowed => ?_),
    fun k touches j small => ?_⟩
  · rw [requested_cons piece inside]
  · rcases allowed with a | ⟨k, touches, a⟩
    · exact ⟨_, (touches_cons some_ piece _).mpr (Or.inl rfl), a⟩
    · exact ⟨k, (touches_cons some_ piece k).mpr (Or.inr touches), a⟩
  · rcases (touches_cons some_ piece k).mp touches with rfl | touchesLater
    · have stored := there j small
      have inum := first.kept.inum
      rw [← inum] at stored ⊢
      rw [rest.edits.edited.stays _ stored]
      exact stored
    · have present := rest.present k touchesLater j small
      rw [first.kept.inum] at present
      exact present

/-- The loop of `writei` for mirrored files.  It stops at the end of 46 blocks. -/
theorem writeMirrored_wp (terms : Terms limits sb ends escape enough) (fuel : Nat) :
    forall {d : Device BSIZE Kernel} {off left : Nat} {src : Nat -> UInt8}, left ≤ fuel ->
      off ≤ 46 * BSIZE -> (46 * BSIZE < off + left -> escape (.panic .outOfBounds)) ->
      Works sb ends enough d ip ->
      (forall x, off ≤ x -> x < off + left ->
        forall j, j < 3 -> value (x / BSIZE * 3 + j) (x % BSIZE) = src (x - off)) ->
      (writeMirrored ip fuel off left src).wp limits
        (fun _ e => WrittenMirror sb ends enough d e ip value off left) escape d := by
  induction fuel with
  | zero =>
      intro d off left src short low _ works _
      rw [Nat.le_zero.mp short]
      exact .nothing low works
  | succ fuel ih =>
      intro d off left src short low beyond works values
      rw [writeMirrored]
      by_cases none_ : left = 0
      · rw [if_pos none_, none_]
        exact .nothing low works
      · generalize piece : min left (BSIZE - off % BSIZE) = m
        have within := Nat.mod_lt off (show 0 < BSIZE by decide)
        rw [if_neg none_]
        by_cases last : off = 46 * BSIZE
        · -- The third copy of block 46 has no place in an inode.
          have block : off / BSIZE = 46 := by rw [last]; rfl
          rw [block]
          refine wp_seq (mbmap_wp terms works (by decide) (by decide)) ?_
          rintro _ d0 ⟨fill0, _⟩
          refine wp_seq (mbmap_wp terms fill0.works (by decide) (by decide)) ?_
          rintro _ d1 ⟨fill1, _⟩
          exact wp_bind.mpr (mbmap_outOfBounds terms fill1.works (beyond (by omega)))
        have short_ : off / BSIZE < 46 := by
          rw [Nat.div_lt_iff_lt_mul (by decide)]
          omega
        have below : off / BSIZE * 3 + 2 < MAXFILE := by
          simp only [MAXFILE, NDIRECT, NINDIRECT]
          omega
        have lowToo : off + m ≤ 46 * BSIZE := by
          simp only [BSIZE] at piece within short_ ⊢
          omega
        have copy : forall j, j < 3 -> forall x, off ≤ x -> x < off + left ->
            (fun bn y => value (bn * 3 + j) y) (x / BSIZE) (x % BSIZE) = src (x - off) :=
          fun j small x lower upper => values x lower upper j small
        refine writeCopies_wp terms works below (fun j small => @firstPiece
          (fun bn y => value (bn * 3 + j) y) _ _ _ _ piece (copy j small)) (fun e first there => ?_)
        refine wp_mono (ih (by omega) lowToo (fun far => beyond (by omega)) first.works
          (fun x lower upper j small =>
            @laterPieces (fun bn y => value (bn * 3 + j) y) _ _ _ m
              (copy j small) x lower upper)) ?_
          (fun _ stopped => stopped)
        exact fun _ f rest => .cons none_ piece first there rest

/-- The copy of the inode is on the disk, and nothing else has changed. -/
structure Saved (sb : Superblock) (ends : Nat) (enough : (Nat -> Bool) -> (Nat -> Nat) -> Prop)
    (d e : Device BSIZE Kernel) (ip : Nat) : Prop where
  works : Works sb ends enough e ip
  mem : e.mem = d.mem
  bits : marked sb e.disk = marked sb d.disk
  volume : sb.volume e.disk = work sb d ip

theorem Saved.work (saved : Saved sb ends enough d e ip) : work sb e ip = work sb d ip := by
  have same : TripleFs.work sb e ip = (TripleFs.work sb d ip).setInode (d.mem.icache ip).inum
      (d.mem.icache ip).copy := by
    unfold TripleFs.work
    rw [saved.mem, saved.volume]
    rfl
  rw [same]
  exact setInode_setInode _ _ _ _

/-- `iupdate` copies the inode to the disk. -/
theorem iupdate_wp (terms : Terms limits sb ends escape enough)
    (works : Works sb ends enough d ip) :
    (iupdate ip).wp limits (fun _ e => Saved sb ends enough d e ip) escape d := by
  have space := works.space terms
  have fits : (d.mem.icache ip).copy.Fits := by
    have all := works.sound.fits (d.mem.icache ip).inum
    rw [work_inode] at all
    exact all
  have place := Superblock.IBLOCK_lt works.inode
  have before : IBLOCK (d.mem.icache ip).inum < sb.dataStart :=
    Superblock.IBLOCK_lt_dataStart works.inode
  have volume := @Superblock.volume_putDinode sb d.disk _ _ works.inode fits
  unfold iupdate
  refine wp_bind.mpr (wp_getMem ?_)
  refine wp_rewrite (works.quiet.resting _) (by omega) (fun roomy => ?_)
  generalize isAfter : d.store (IBLOCK (d.mem.icache ip).inum)
    (putDinode ((d.mem.icache ip).inum % IPB) (d.mem.icache ip).copy
      (d.disk (IBLOCK (d.mem.icache ip).inum))) = e
  have disk : e.disk = Function.update d.disk (IBLOCK (d.mem.icache ip).inum)
      (putDinode ((d.mem.icache ip).inum % IPB) (d.mem.icache ip).copy
      (d.disk (IBLOCK (d.mem.icache ip).inum))) := by
    rw [← isAfter]
    rfl
  have mem : e.mem = d.mem := by
    rw [← isAfter]
    rfl
  have bits : marked sb e.disk = marked sb d.disk := by
    rw [disk]
    exact funext (marked_other (Or.inl place) _)
  have saved : sb.volume e.disk = work sb d ip := by
    rw [disk, volume]
    rfl
  have same : work sb e ip = work sb d ip := by
    have again : work sb e ip = (work sb d ip).setInode (d.mem.icache ip).inum
        (d.mem.icache ip).copy := by
      rw [← saved, ← mem]
      rfl
    rw [again]
    exact setInode_setInode _ _ _ _
  refine ⟨⟨?_, ?_, ?_, ?_, ?_⟩, mem, bits, saved⟩
  · rw [← isAfter]
    exact works.quiet.store
  · have low : 1 ≠ IBLOCK (d.mem.icache ip).inum :=
      Nat.ne_of_lt (Nat.lt_of_lt_of_le (by decide) (Nat.le_add_left 2 _))
    rw [disk, Function.update_of_ne low]
    exact works.isSuper
  · rw [mem]
    exact works.inode
  · rw [same, bits]
    exact works.sound
  · have own : ownSlots sb e ip = ownSlots sb d ip := by
      funext j
      unfold ownSlots
      rw [same, mem]
    rw [bits, own]
    exact works.enough

/-- What `writei` has done to a file. -/
structure Written (sb : Superblock) (ends : Nat) (enough : (Nat -> Bool) -> (Nat -> Nat) -> Prop)
    (d e : Device BSIZE Kernel) (ip : Nat) (value : Nat -> Nat -> UInt8) (hit : Nat -> Nat -> Prop)
    (new : Nat -> Prop) (size : Nat) : Prop where
  works : Works sb ends enough e ip
  mem : Exists fun c => e.mem = d.mem.adjust ip (Inode.withCopy fun _ => c)
  saved : sb.volume e.disk = work sb e ip
  others : forall j, j ≠ (d.mem.icache ip).inum ->
    (sb.volume e.disk).inode j = (sb.volume d.disk).inode j
  edited : Edited sb (work sb d ip) (marked sb d.disk) (work sb e ip) (marked sb e.disk)
    (d.mem.icache ip).inum value hit new
  size : (e.mem.icache ip).copy.logical_size = size

/-- The end of `writei`: save the inode, and save it again when the file has grown. -/
theorem finish_wp {grows : Prop} [Decidable grows] {stop : Nat} {result : Int}
    (terms : Terms limits sb ends escape enough) (edits : Edits sb ends enough d e ip value hit new)
    (fits : stop < 2 ^ 32) : (do
      iupdate ip
      if grows then do
        setInode ip (Inode.withCopy (fun c => { c with logical_size := stop }))
        iupdate ip
      else pure ()
      pure result : Fs Int).wp limits (fun value_ f => value_ = result ∧
        Written sb ends enough d f ip value hit new
          (if grows then stop else (d.mem.icache ip).copy.logical_size) ∧ forall s,
        (work sb f ip).slot s = (work sb e ip).slot s) escape e := by
  have inum := edits.kept.inum
  refine wp_seq (iupdate_wp terms edits.works) ?_
  rintro _ f saved
  have others : forall j, j ≠ (d.mem.icache ip).inum ->
      (work sb e ip).inode j = (sb.volume d.disk).inode j := by
    intro j different
    rw [edits.edited.inodes j different]
    exact Volume.inode_setInode_of_ne _ different
  by_cases grown : grows
  · simp only [if_pos grown]
    refine wp_bind.mpr (wp_putMem ?_)
    have copyFits : (f.mem.icache ip).copy.Fits := by
      have all := saved.works.sound.fits (f.mem.icache ip).inum
      rw [work_inode] at all
      exact all
    have resized := @Works.withCopy sb ends enough f ip
        (fun c => { c with logical_size := stop }) saved.works rfl ⟨copyFits.type, copyFits.major,
        copyFits.minor, copyFits.nlink, fits, copyFits.addrs, copyFits.noMore⟩
    generalize isAfter : f.withMem
      (f.mem.adjust ip (Inode.withCopy fun c => { c with logical_size := stop })) = g at resized ⊢
    have inumF : (f.mem.icache ip).inum = (d.mem.icache ip).inum := by
      rw [saved.mem, inum]
    have workF : work sb g ip = (work sb e ip).setInode (d.mem.icache ip).inum
        { (work sb e ip).inode (d.mem.icache ip).inum with logical_size := stop } := by
      rw [resized.2, saved.work, inumF, ← inum, work_inode, saved.mem]
    refine wp_bind.mpr (wp_mono (iupdate_wp terms resized.1) ?_ (fun _ stopped => stopped))
    rintro _ h again
    have memG : g.mem = f.mem.adjust ip
        (Inode.withCopy fun c => { c with logical_size := stop }) := by
      rw [← isAfter]
      rfl
    have bitsG : marked sb g.disk = marked sb e.disk := by
      rw [← saved.bits, ← isAfter]
      rfl
    refine ⟨rfl, ⟨again.works, ?_, ?_, fun j different => ?_, ?_, ?_⟩, fun s => ?_⟩
    · rcases edits.kept.mem with ⟨c, before⟩
      refine ⟨{ c with logical_size := stop }, ?_⟩
      rw [again.mem, memG, saved.mem, before, Kernel.adjust_adjust]
      rfl
    · rw [again.work, again.volume]
    · rw [again.volume, workF, Volume.inode_setInode_of_ne _ different]
      exact others j different
    · rw [again.work, again.bits, workF, bitsG]
      exact edits.edited.resize rfl
    · rw [again.mem, memG, Kernel.adjust_self]
      rfl
    · rw [again.work, workF]
      refine Volume.slot_setInode_addrs ?_ s
      rfl
  · simp only [if_neg grown]
    refine ⟨rfl, ⟨saved.works, ?_, ?_, fun j different => ?_, ?_, ?_⟩, fun s => ?_⟩
    · rw [saved.mem]
      exact edits.kept.mem
    · rw [saved.work, saved.volume]
    · rw [saved.volume]
      exact others j different
    · rw [saved.work, saved.bits]
      exact edits.edited
    · rw [saved.mem]
      exact edits.size
    · rw [saved.work]

/-! ## The whole call -/

/-- The size of a file after a write. -/
def grownSize (size off n : Nat) : Nat := if 0 < n ∧ size < off + n then off + n else size

/-- The bytes of a write to a plain file, by block and position. -/
def plainValue (src : List UInt8) (off bn y : Nat) : UInt8 := src.getD (bn * BSIZE + y - off) 0

/-- The bytes of a write to a mirrored file. -/
def mirrorValue (src : List UInt8) (off bn y : Nat) : UInt8 := src.getD (bn / 3 * BSIZE + y - off) 0

theorem block_position (x : Nat) : x / BSIZE * BSIZE + x % BSIZE = x := by
  rw [Nat.mul_comm]
  exact Nat.div_add_mod x BSIZE

/-- The length of a write, clipped at the largest size of a file. -/
theorem clipped_write {limit off n : Nat} (large : limit < 2 ^ 32) (small : off ≤ limit) :
    (if limit < off + n then (limit + 2 ^ 32 - off) % 2 ^ 32 else n) = min n (limit - off) := by
  split
  · have same : limit + 2 ^ 32 - off = limit - off + 2 ^ 32 := by omega
    rw [same, Nat.add_mod_right, Nat.mod_eq_of_lt (by omega)]
    omega
  · omega

/-- `writei` on a plain file.  It stores at most as many bytes as an inode has room for. -/
theorem writei_plain_wp (terms : Terms limits sb ends escape enough)
    (works : Works sb ends enough d ip) (devsw : Devsw) {src : List UInt8} {off : Nat}
    (plain : (d.mem.icache ip).copy.type ≠ T_DEV ∧ (d.mem.icache ip).copy.type ≠ T_MIRRORED)
    (offLe : off ≤ (d.mem.icache ip).copy.logical_size) (small : off ≤ MAXFILE * BSIZE)
    (fits : off + src.length < 2 ^ 32) :
    (writei devsw ip src off).wp limits
      (fun result e =>
        result = ((min src.length (MAXFILE * BSIZE - off) : Nat) : Int) ∧
        Written sb ends enough d e ip (plainValue src off)
          (fun bn y => Requested off (min src.length (MAXFILE * BSIZE - off)) bn y)
          (PlainSlot off (min src.length (MAXFILE * BSIZE - off)))
          (grownSize (d.mem.icache ip).copy.logical_size off
            (min src.length (MAXFILE * BSIZE - off))) ∧
        forall bn, Touches off (min src.length (MAXFILE * BSIZE - off)) bn ->
          (work sb e ip).slot ((d.mem.icache ip).inum, Volume.place bn) ≠ 0)
      escape d := by
  have accepted : ¬ ((d.mem.icache ip).copy.logical_size < off ∨
      (off + src.length) % 2 ^ 32 < off) := by
    rw [Nat.mod_eq_of_lt fits]
    omega
  have length := @clipped_write (MAXFILE * BSIZE) off src.length (by decide) small
  unfold writei
  dsimp only
  refine wp_bind.mpr (wp_getMem ?_)
  rw [if_neg plain.1, if_neg accepted, length]
  generalize isLength : min src.length (MAXFILE * BSIZE - off) = n
  have stop : off + n ≤ MAXFILE * BSIZE := by
    rw [← isLength]
    exact Nat.add_le_of_le_sub' small (Nat.min_le_right _ _)
  rw [if_neg plain.2]
  refine wp_seq (@writePlain_wp limits sb ends escape enough ip
    (plainValue src off) terms n d off n _ (Nat.le_refl _) stop works (fun x _ _ => ?_)) ?_
  · unfold plainValue
    rw [block_position]
  · rintro _ e ⟨edits, present⟩
    have fitsToo : off + n < 2 ^ 32 := Nat.lt_of_le_of_lt stop (by decide)
    refine wp_mono (@finish_wp limits sb ends escape enough d e ip _ _ _ (0 < n ∧
      (d.mem.icache ip).copy.logical_size < off + n) _ (off + n) (n : Int) terms edits fitsToo) ?_
      (fun _ stopped => stopped)
    rintro result f ⟨same, written, slots⟩
    refine ⟨same, written, fun bn touches => ?_⟩
    rw [slots]
    exact present bn touches

/-- `writei` on a mirrored file.  It returns only if it stays within 46 blocks. -/
theorem writei_mirrored_wp (terms : Terms limits sb ends escape enough)
    (works : Works sb ends enough d ip) (devsw : Devsw) {src : List UInt8} {off : Nat}
    (mirrored : (d.mem.icache ip).copy.type = T_MIRRORED)
    (offLe : off ≤ (d.mem.icache ip).copy.logical_size) (low : off ≤ 46 * BSIZE)
    (fits : off + src.length < 2 ^ 32)
    (beyond : 46 * BSIZE < off + src.length -> escape (.panic .outOfBounds)) :
    (writei devsw ip src off).wp limits
      (fun result e =>
        off + src.length ≤ 46 * BSIZE ∧ result = (src.length : Int) ∧
        Written sb ends enough d e ip (mirrorValue src off)
          (fun bn y => Requested off src.length (bn / 3) y) (MirrorSlot off src.length)
          (grownSize (d.mem.icache ip).copy.logical_size off src.length) ∧
        forall k, Touches off src.length k ->
          forall j, j < 3 ->
            (work sb e ip).slot ((d.mem.icache ip).inum, Volume.place (k * 3 + j)) ≠ 0)
      escape d := by
  have accepted : ¬ ((d.mem.icache ip).copy.logical_size < off ∨
      (off + src.length) % 2 ^ 32 < off) := by
    rw [Nat.mod_eq_of_lt fits]
    omega
  have notDev : ¬ (d.mem.icache ip).copy.type = T_DEV := by
    rw [mirrored]
    decide
  have room : 46 * BSIZE < MAXFILE * BSIZE := by decide
  have length := @clipped_write (MAXFILE * BSIZE) off src.length (by decide)
      (Nat.le_trans low (Nat.le_of_lt room))
  unfold writei
  dsimp only
  refine wp_bind.mpr (wp_getMem ?_)
  rw [if_neg notDev, if_neg accepted, length, if_pos mirrored]
  generalize MAXFILE * BSIZE = limit at room
  generalize isLength : min src.length (limit - off) = n
  refine wp_seq (@writeMirrored_wp limits sb ends escape enough ip (mirrorValue src off) terms n d
    off n _ (Nat.le_refl _) low (fun far => beyond (by omega)) works (fun x _ _ j small => ?_)) ?_
  · have block : (x / BSIZE * 3 + j) / 3 = x / BSIZE := by omega
    unfold mirrorValue
    rw [block, block_position]
  · rintro _ e ⟨inside, edits, present⟩
    have whole : n = src.length := by omega
    rw [whole] at inside edits present ⊢
    refine wp_mono (@finish_wp limits sb ends escape enough d e ip _ _ _
      (0 < src.length ∧ (d.mem.icache ip).copy.logical_size < off + src.length) _ (off + src.length)
      (src.length : Int) terms edits fits) ?_ (fun _ stopped => stopped)
    rintro result f ⟨same, written, slots⟩
    refine ⟨inside, same, written, fun k touches j small => ?_⟩
    rw [slots]
    exact present k touches j small

end Loops

end TripleFs
end OsProjects
