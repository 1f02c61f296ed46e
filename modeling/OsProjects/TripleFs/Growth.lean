import OsProjects.Machine.Ledger
import OsProjects.TripleFs.BlockAllocator

namespace OsProjects
namespace TripleFs

open Machine

/-!
# Filling the slots of an inode

While the kernel works on an inode, the copy in the cache is ahead of the disk.  The
volume it works on is the one on the disk with this copy in the place of the inode.

`bmap` and `mbmap` fill empty slots of that inode with free blocks.  A free block is
blank, so no file shows the difference, and the ledger of slots and bits stays sound.
-/

/-- The bits of the bitmap, as far as `balloc` looks at them. -/
def marked (sb : Superblock) (disk : Nat -> Block) (b : Nat) : Bool :=
  decide (b < scanned sb) && used sb disk b

/-- The slots of a volume and the bitmap agree, with blocks up to `ends`. -/
structure Volume.Sound (sb : Superblock) (ends : Nat) (v : Volume) (bits : Nat -> Bool) : Prop where
  ledger : Ledger (Bytes.fill 0) sb.dataStart ends v.slot bits v.block
  fits : forall i, (v.inode i).Fits

/-- The volume with the copy of the inode that is in the cache. -/
def work (sb : Superblock) (d : Device BSIZE Kernel) (ip : Nat) : Volume :=
  (sb.volume d.disk).setInode (d.mem.icache ip).inum (d.mem.icache ip).copy

/-- A block is free, or `balloc` looks no further than to `ends` and may give up. -/
def Ample (sb : Superblock) (ends : Nat) (escape : Stop FsPanic -> Prop) (bits : Nat -> Bool) :
    Prop :=
  (Exists fun b => b < ends ∧ bits b = false) ∨ scanned sb ≤ ends ∧
    escape (.panic .ballocOutOfBlocks)

/-- The slots of an inode.  Those that are filled stay, and what is taken ends up in one of
them. -/
structure Taken (slots : Nat -> Nat) (bits : Nat -> Bool) (after : Nat -> Nat)
    (others : Nat -> Bool) : Prop where
  bounded : forall j, MAXFILE < j -> after j = 0
  stays : forall j, slots j ≠ 0 -> after j = slots j
  taken : forall b, others b = true -> bits b = true ∨ Exists fun j => after j = b

/-- What is assumed of the buffers and of the disk.  `enough` says of the bits and of the
slots of the inode at work that `balloc` finds a free block. -/
structure Terms (limits : Limits BSIZE) (sb : Superblock) (ends : Nat)
    (escape : Stop FsPanic -> Prop) (enough : (Nat -> Bool) -> (Nat -> Nat) -> Prop) : Prop where
  buffers : 3 < limits.capacity
  scans : ends ≤ scanned sb
  fits : ends ≤ 2 ^ 32
  ample : forall bits slots, enough bits slots -> Ample sb ends escape bits
  keeps : forall disk slots bits after, limits.room disk -> enough bits slots ->
    Taken slots bits after (marked sb disk) -> enough (marked sb disk) after

/-- The slots of the inode in the entry `ip`. -/
def ownSlots (sb : Superblock) (d : Device BSIZE Kernel) (ip j : Nat) : Nat :=
  (work sb d ip).slot ((d.mem.icache ip).inum, j)

/-- A state in which the kernel works on the inode in the entry `ip` of its cache. -/
structure Works (sb : Superblock) (ends : Nat) (enough : (Nat -> Bool) -> (Nat -> Nat) -> Prop)
    (d : Device BSIZE Kernel) (ip : Nat) : Prop where
  quiet : Quiet d
  isSuper : superblock (d.disk 1) = sb
  inode : (d.mem.icache ip).inum < sb.ninodes
  sound : (work sb d ip).Sound sb ends (marked sb d.disk)
  enough : enough (marked sb d.disk) (ownSlots sb d ip)

/-- Only the copy in the entry `ip` may have changed in memory, and no inode on the
disk. -/
structure Kept (sb : Superblock) (d e : Device BSIZE Kernel) (ip : Nat) : Prop where
  mem : Exists fun c => e.mem = d.mem.adjust ip (Inode.withCopy fun _ => c)
  inodes : (sb.volume e.disk).inode = (sb.volume d.disk).inode

/-- Empty slots of the inode `i` have been filled with blank blocks. -/
structure Filled (sb : Superblock) (v : Volume) (bits : Nat -> Bool) (w : Volume)
    (others : Nat -> Bool) (i : Nat) (new : Nat -> Prop) : Prop where
  stays : forall s, v.slot s ≠ 0 -> w.slot s = v.slot s
  only : forall s, v.slot s = 0 -> w.slot s ≠ 0 -> s.1 = i ∧ new s.2
  more : forall b, bits b = true -> others b = true
  fresh : forall b, others b = true -> bits b = true ∨ b ≠ 0 ∧ Exists fun s => w.slot s = b
  content : forall j bn, w.content j bn = v.content j bn
  inodes : forall j, j ≠ i -> w.inode j = v.inode j
  head : w.inode i = { v.inode i with addrs := (w.inode i).addrs }

/-- The slots have been filled on the device. -/
structure Extended (sb : Superblock) (ends : Nat) (enough : (Nat -> Bool) -> (Nat -> Nat) -> Prop)
    (d e : Device BSIZE Kernel) (ip : Nat) (new : Nat -> Prop) : Prop where
  works : Works sb ends enough e ip
  kept : Kept sb d e ip
  filled : Filled sb (work sb d ip) (marked sb d.disk) (work sb e ip) (marked sb e.disk)
    (d.mem.icache ip).inum new

/-! ## Enough free blocks -/

/-- A block below `ends` is free, or `balloc` looks no further than to `ends`. -/
def Roomy (sb : Superblock) (ends : Nat) (bits : Nat -> Bool) : Prop :=
  (Exists fun b => b < ends ∧ bits b = false) ∨ scanned sb ≤ ends

/-- More blocks than an inode has slots are free or already in its slots. -/
def Plenty (ends : Nat) (bits : Nat -> Bool) (slots : Nat -> Nat) : Prop :=
  (forall j, MAXFILE < j -> slots j = 0) ∧ Exists fun spare : List Nat => spare.Nodup ∧
    MAXFILE + 1 < spare.length ∧ forall b, b ∈ spare -> 0 < b ∧ b < ends ∧
    (bits b = false ∨ Exists fun j => slots j = b)

/-- A slot that no inode has. -/
theorem Volume.slot_beyond {v : Volume} {i j : Nat} (beyond : MAXFILE < j) : v.slot (i, j) = 0 := by
  have entry : j = NDIRECT + 1 + (j - (NDIRECT + 1)) := by
    simp only [MAXFILE] at beyond
    omega
  rw [entry]
  by_cases none_ : (v.inode i).addrs NDIRECT = 0
  · exact Volume.slot_entry_empty none_ _
  · rw [Volume.slot_entry none_]
    refine Volume.word_beyond _ ?_
    simp only [MAXFILE] at beyond
    omega

theorem Plenty.free {ends : Nat} {bits : Nat -> Bool} {slots : Nat -> Nat}
    (plenty : Plenty ends bits slots) : Exists fun b => b < ends ∧ bits b = false := by
  rcases plenty with ⟨bounded, spare, distinct, long, each⟩
  by_contra full
  have stored : spare ⊆ (List.range (MAXFILE + 1)).map slots := by
    intro b inside
    rcases each b inside with ⟨positive, below, free | ⟨j, same⟩⟩
    · exact absurd ⟨b, below, free⟩ full
    · refine List.mem_map.mpr ⟨j, List.mem_range.mpr ?_, same⟩
      by_contra beyond
      have empty := bounded j (by omega)
      omega
  have short := (distinct.subperm stored).length_le
  rw [List.length_map, List.length_range] at short
  exact absurd long (Nat.not_lt.mpr short)

/-- Filling slots leaves as much. -/
theorem Plenty.taken {ends : Nat} {bits others : Nat -> Bool} {slots after : Nat -> Nat}
    (plenty : Plenty ends bits slots) (taken : Taken slots bits after others) :
    Plenty ends others after := by
  rcases plenty with ⟨_, spare, distinct, long, each⟩
  refine ⟨taken.bounded, spare, distinct, long, fun b inside => ?_⟩
  rcases each b inside with ⟨positive, below, free | ⟨j, same⟩⟩
  · refine ⟨positive, below, ?_⟩
    cases now : others b with
    | false => exact Or.inl rfl
    | true =>
        rcases taken.taken b now with before | stored
        · rw [free] at before
          exact nomatch before
        · exact Or.inr stored
  · exact ⟨positive, below, Or.inr ⟨j, (taken.stays j (by omega)).trans same⟩⟩

section Assumptions

variable {sb : Superblock} {ends : Nat} {escape : Stop FsPanic -> Prop}

/-- There are plenty of blocks from the beginning. -/
theorem Terms.plenty (scans : ends ≤ scanned sb) (fits : ends ≤ 2 ^ 32) :
    Terms ⟨NBUF, fun _ => True⟩ sb ends escape (Plenty ends) :=
  ⟨(show 3 < NBUF by decide), scans, fits, fun _ _ plenty => Or.inl plenty.free,
    fun _ _ _ _ _ plenty taken => plenty.taken taken⟩

/-- Whenever a block is written, the disk is not full, or `balloc` may give up. -/
theorem Terms.roomy (scans : ends ≤ scanned sb) (fits : ends ≤ 2 ^ 32)
    (allowed : escape (.panic .ballocOutOfBlocks)) :
    Terms ⟨NBUF, fun disk => Roomy sb ends (marked sb disk)⟩ sb ends escape
      (fun bits _ => Roomy sb ends bits) := by
  refine ⟨show 3 < NBUF by decide, scans, fits, fun bits _ roomy => ?_,
    fun _ _ _ _ roomy _ _ => roomy⟩
  rcases roomy with free | whole
  · exact Or.inl free
  · exact Or.inr ⟨whole, allowed⟩

end Assumptions

/-! ## Memory -/

section Memory

variable {k : Kernel} {ip : Nat}

@[simp] theorem Kernel.adjust_self (change : Inode -> Inode) :
    (k.adjust ip change).icache ip = change (k.icache ip) := by
  simp only [Kernel.adjust, Function.update_self]

theorem Kernel.adjust_of_ne (change : Inode -> Inode) {other : Nat} (different : other ≠ ip) :
    (k.adjust ip change).icache other = k.icache other := by
  simp only [Kernel.adjust, Function.update_of_ne different]

theorem Kernel.adjust_adjust (first second : Inode -> Inode) :
    (k.adjust ip first).adjust ip second = k.adjust ip (second ∘ first) := by
  simp only [Kernel.adjust, Function.update_self, Function.update_idem, Function.comp_apply]

theorem Kernel.adjust_same {change : Inode -> Inode} (same : change (k.icache ip) = k.icache ip) :
    k.adjust ip change = k := by
  simp only [Kernel.adjust, same, Function.update_eq_self]

end Memory

section Frames

variable {sb : Superblock} {d e f : Device BSIZE Kernel} {ip : Nat}

theorem Kept.refl (sb : Superblock) (d : Device BSIZE Kernel) (ip : Nat) : Kept sb d d ip :=
  ⟨⟨(d.mem.icache ip).copy, (Kernel.adjust_same rfl).symm⟩, rfl⟩

theorem Kept.trans (first : Kept sb d e ip) (second : Kept sb e f ip) : Kept sb d f ip := by
  rcases first.mem with ⟨c, before⟩
  rcases second.mem with ⟨c', after⟩
  refine ⟨⟨c', ?_⟩, second.inodes.trans first.inodes⟩
  rw [after, before, Kernel.adjust_adjust]
  rfl

theorem Kept.inum (kept : Kept sb d e ip) : (e.mem.icache ip).inum = (d.mem.icache ip).inum := by
  rcases kept.mem with ⟨c, same⟩
  rw [same, Kernel.adjust_self]
  rfl

end Frames

namespace Filled

variable {sb : Superblock} {v w u : Volume} {bits others more : Nat -> Bool} {i : Nat}
  {new newer : Nat -> Prop}

theorem refl (sb : Superblock) (v : Volume) (bits : Nat -> Bool) (i : Nat) (new : Nat -> Prop) :
    Filled sb v bits v bits i new :=
  ⟨fun _ _ => rfl, fun _ empty stored => absurd empty stored, fun _ => id, fun _ => Or.inl,
    fun _ _ => rfl, fun _ _ => rfl, rfl⟩

theorem trans (first : Filled sb v bits w others i new)
    (second : Filled sb w others u more i newer) :
    Filled sb v bits u more i (fun j => new j ∨ newer j) := by
  have stays : forall s, w.slot s ≠ 0 -> u.slot s = w.slot s := second.stays
  refine ⟨fun s stored => ?_, fun s empty stored => ?_,
    fun b inUse => second.more b (first.more b inUse), fun b inUse => ?_,
    fun j bn => (second.content j bn).trans (first.content j bn),
    fun j different => (second.inodes j different).trans (first.inodes j different), ?_⟩
  · have same := first.stays s stored
    rw [stays s (by rw [same]; exact stored), same]
  · by_cases between : w.slot s = 0
    · rcases second.only s between stored with ⟨here, allowed⟩
      exact ⟨here, Or.inr allowed⟩
    · rcases first.only s empty between with ⟨here, allowed⟩
      exact ⟨here, Or.inl allowed⟩
  · rcases second.fresh b inUse with before | stored
    · rcases first.fresh b before with old | ⟨nonnull, s, same⟩
      · exact Or.inl old
      · exact Or.inr ⟨nonnull, s, by rw [stays s (by rw [same]; exact nonnull), same]⟩
    · exact Or.inr stored
  · rw [second.head, first.head]

theorem weaken (filled : Filled sb v bits w others i new) (allowed : forall j, new j -> newer j) :
    Filled sb v bits w others i newer :=
  ⟨filled.stays, fun s empty stored =>
    ⟨(filled.only s empty stored).1, allowed _ (filled.only s empty stored).2⟩, filled.more,
    filled.fresh, filled.content, filled.inodes, filled.head⟩

end Filled

theorem dataStart_large (sb : Superblock) : 4 ≤ sb.dataStart := by
  unfold Superblock.dataStart
  simp only [IPB, BPB]
  omega

/-! ## Filling a slot of a volume -/

theorem Dinode.Fits.setAddr {c : Dinode} {i a : Nat} (fits : c.Fits) (below : i ≤ NDIRECT)
    (small : a < 2 ^ 32) : (c.setAddr i a).Fits := by
  refine ⟨fits.type, fits.major, fits.minor, fits.nlink, fits.size, fun j => ?_, fun j beyond => ?_⟩
  · by_cases here : j = i
    · rw [here, Dinode.setAddr_self]
      exact small
    · rw [Dinode.setAddr_of_ne _ _ here]
      exact fits.addrs j
  · have different : j ≠ i := by omega
    rw [Dinode.setAddr_of_ne _ _ different]
    exact fits.noMore j beyond

namespace Volume.Sound

variable {sb : Superblock} {ends : Nat} {v : Volume} {bits others : Nat -> Bool} {i j e a : Nat}

theorem setInode_fits {c : Dinode} (fits : forall i, (v.inode i).Fits) (fitsToo : c.Fits)
    (k : Nat) : ((v.setInode i c).inode k).Fits := by
  by_cases here : k = i
  · rw [here, inode_setInode_self]
    exact fitsToo
  · rw [inode_setInode_of_ne c here]
    exact fits k

/-- Store a free block in the inode itself. -/
theorem fillAddr (sound : v.Sound sb ends bits) (below : j ≤ NDIRECT)
    (empty : (v.inode i).addrs j = 0) (lower : sb.dataStart ≤ a) (upper : a < ends)
    (small : a < 2 ^ 32) (free : bits a = false)
    (sets : forall c, others c = (decide (c = a) || bits c)) :
    (v.setInode i ((v.inode i).setAddr j a)).Sound sb ends others ∧
    Filled sb v bits (v.setInode i ((v.inode i).setAddr j a)) others i (fun k => k = j) := by
  have zeros : v.block a = Bytes.fill 0 := sound.ledger.blank a lower upper free
  have slots : forall s, (v.setInode i ((v.inode i).setAddr j a)).slot s = Function.update v.slot
      (i, j) a s := by
    intro s
    refine slot_setAddr below rfl (fun indirect => ⟨?_, zeros⟩) s
    rw [← indirect]
    exact empty
  have slotEmpty : v.slot (i, j) = 0 := (slot_direct below).trans empty
  refine ⟨⟨(sound.ledger.fill lower upper free).congr slots sets (fun _ _ _ _ => rfl),
      setInode_fits sound.fits ((sound.fits i).setAddr below small)⟩,
    fun s stored => ?_, fun s none_ stored => ?_,
    fun b inUse => ?_, fun b inUse => ?_, content_fill slots slotEmpty zeros (fun _ _ _ => rfl),
    fun k different => Function.update_of_ne different _ _, ?_⟩
  · have other : s ≠ (i, j) := by
      intro here
      rw [here] at stored
      exact stored slotEmpty
    rw [slots, Function.update_of_ne other]
  · by_cases here : s = (i, j)
    · rw [here]
      exact ⟨rfl, rfl⟩
    · rw [slots, Function.update_of_ne here] at stored
      exact absurd none_ stored
  · rw [sets, inUse, Bool.or_true]
  · rw [sets] at inUse
    by_cases new : b = a
    · have large := dataStart_large sb
      exact Or.inr ⟨by omega, (i, j), by rw [slots, Function.update_self, new]⟩
    · rw [decide_eq_false new, Bool.false_or] at inUse
      exact Or.inl inUse
  · simp only [setInode, Function.update_self, Dinode.setAddr]

/-- Store a free block in the indirect block. -/
theorem fillEntry (sound : v.Sound sb ends bits) (indirect : (v.inode i).addrs NDIRECT ≠ 0)
    (below : e < NINDIRECT) (empty : v.slot (i, NDIRECT + 1 + e) = 0)
    (lower : sb.dataStart ≤ a) (upper : a < ends) (small : a < 2 ^ 32)
    (free : bits a = false) (sets : forall c, others c = (decide (c = a) || bits c)) :
    (v.setBlock ((v.inode i).addrs NDIRECT)
      ((v.block ((v.inode i).addrs NDIRECT)).setWord e a)).Sound sb ends others ∧ Filled sb v bits
      (v.setBlock ((v.inode i).addrs NDIRECT) ((v.block ((v.inode i).addrs NDIRECT)).setWord e a))
      others i (fun k => k = NDIRECT + 1 + e) := by
  generalize isBlock : (v.inode i).addrs NDIRECT = ind at indirect
  have inSlot : v.slot (i, NDIRECT) = ind := (slot_direct (Nat.le_refl _)).trans isBlock
  have owned := sound.ledger.owned
  have own := sound.ledger.stored (i, NDIRECT) (by rw [inSlot]; exact indirect)
  rw [inSlot] at own
  have slots := @slot_setEntry v i a ind e isBlock indirect
      (indirect_alone owned isBlock indirect) below small
  have different : a ≠ ind := by
    intro same
    rw [same, own.2.2] at free
    exact nomatch free
  have zeros : (v.setBlock ind ((v.block ind).setWord e a)).block a = Bytes.fill 0 :=
    (Function.update_of_ne different _ _).trans (sound.ledger.blank a lower upper free)
  have blocks : forall k bn, v.slot (k, place bn) ≠ 0 ->
      (v.setBlock ind ((v.block ind).setWord e a)).block (v.slot (k, place bn)) = v.block
      (v.slot (k, place bn)) := by
    intro k bn stored
    refine Function.update_of_ne (fun same => ?_) _ _
    have equal := sound.ledger.once _ (i, NDIRECT) stored (same.trans inSlot.symm)
    exact place_ne_indirect bn (Prod.mk.inj equal).2
  refine ⟨⟨((sound.ledger.fill lower upper free).write (b := ind)
    (by rw [own.2.2, Bool.or_true]) _).congr slots sets (fun _ _ _ _ => rfl), sound.fits⟩,
    fun s stored => ?_, fun s none_ stored => ?_, fun b inUse => ?_, fun b inUse => ?_,
    content_fill slots empty zeros blocks, fun k _ => rfl, rfl⟩
  · have other : s ≠ (i, NDIRECT + 1 + e) := by
      intro here
      rw [here] at stored
      exact stored empty
    rw [slots, Function.update_of_ne other]
  · by_cases here : s = (i, NDIRECT + 1 + e)
    · rw [here]
      exact ⟨rfl, rfl⟩
    · rw [slots, Function.update_of_ne here] at stored
      exact absurd none_ stored
  · rw [sets, inUse, Bool.or_true]
  · rw [sets] at inUse
    by_cases new : b = a
    · have large := dataStart_large sb
      exact Or.inr ⟨by omega, (i, NDIRECT + 1 + e), by rw [slots, Function.update_self, new]⟩
    · rw [decide_eq_false new, Bool.false_or] at inUse
      exact Or.inl inUse

end Volume.Sound

/-! ## The layout of the disk -/

section Places

variable {sb : Superblock} {disk : Nat -> Block} {b sector : Nat}

/-- The bitmap lies between the inodes and the data blocks. -/
theorem BBLOCK_bounds (below : b < scanned sb) :
    sb.ninodes / IPB + 3 ≤ BBLOCK b sb.ninodes ∧ BBLOCK b sb.ninodes < sb.dataStart := by
  unfold scanned at below
  unfold BBLOCK Superblock.dataStart
  simp only [BPB, IPB] at below ⊢
  omega

theorem marked_markBlock (below : b < scanned sb) (c : Nat) :
    marked sb (markBlock sb disk b) c = (decide (c = b) || marked sb disk c) := by
  unfold marked
  rw [used_markBlock]
  by_cases here : c = b
  · rw [here, decide_eq_true below, decide_eq_true rfl]
    rfl
  · rw [decide_eq_false here, Bool.false_or, Bool.false_or]

/-- Writing a sector that is not one of the bitmap. -/
theorem marked_other (outside : sector < sb.ninodes / IPB + 3 ∨ sb.dataStart ≤ sector)
    (data : Block) (c : Nat) :
    marked sb (Function.update disk sector data) c = marked sb disk c := by
  unfold marked
  by_cases below : c < scanned sb
  · have bounds := BBLOCK_bounds below
    have different : BBLOCK c sb.ninodes ≠ sector := by omega
    unfold used
    rw [Function.update_of_ne different]
  · rw [decide_eq_false below, Bool.false_and, Bool.false_and]

theorem volume_markBlock (below : b < scanned sb) :
    sb.volume (markBlock sb disk b) = sb.volume disk :=
  Superblock.volume_bitmap (BBLOCK_bounds below).1 (BBLOCK_bounds below).2 _

theorem superblock_markBlock (below : b < scanned sb) : markBlock sb disk b 1 = disk 1 := by
  have bounds := (BBLOCK_bounds below).1
  exact Function.update_of_ne (by simp only [IPB] at bounds; omega) _ _

theorem used_of_marked (below : b < scanned sb) : marked sb disk b = used sb disk b := by
  rw [marked, decide_eq_true below, Bool.true_and]

end Places

section Growing

variable {limits : Limits BSIZE} {sb : Superblock} {ends : Nat} {escape : Stop FsPanic -> Prop}
  {enough : (Nat -> Bool) -> (Nat -> Nat) -> Prop} {d e : Device BSIZE Kernel} {ip j bn : Nat}

open BlockProgram

/-- What `balloc` takes: a free data block. -/
structure Fresh (limits : Limits BSIZE) (sb : Superblock) (ends : Nat) (d e : Device BSIZE Kernel)
    (b : Nat) : Prop where
  lower : sb.dataStart ≤ b
  upper : b < ends
  free : marked sb d.disk b = false
  taken : e = d.store (BBLOCK b sb.ninodes) (setBit (b % BPB) (d.disk (BBLOCK b sb.ninodes)))
  roomy : limits.room e.disk

/-- `balloc` while at most data blocks are held. -/
theorem balloc_fresh (terms : Terms limits sb ends escape enough)
    (isSuper : superblock (d.disk 1) = sb)
    (resting : forall sector, sector < sb.dataStart -> d.Resting sector)
    (space : d.busy < limits.capacity)
    (reserved : forall b, b < sb.dataStart -> marked sb d.disk b = true)
    (ample : Ample sb ends escape (marked sb d.disk)) :
    balloc.wp limits (fun b e => Fresh limits sb ends d e b) escape d := by
  have large := dataStart_large sb
  have bitmap : forall q, q * BPB < sb.size -> d.Resting (BBLOCK (q * BPB) sb.ninodes) := by
    intro q below
    exact resting _ (BBLOCK_bounds (Nat.lt_of_lt_of_le below (size_le_scanned sb))).2
  refine wp_mono (balloc_resting isSuper (resting 1 (by omega)) bitmap space) ?_ ?_
  · rintro b e ⟨allocated, roomy⟩
    have free : marked sb d.disk b = false := by
      rw [used_of_marked allocated.low]
      exact allocated.free
    refine ⟨?_, ?_, free, allocated.marked, roomy⟩
    · by_contra before
      rw [reserved b (Nat.not_le.mp before)] at free
      exact nomatch free
    · rcases ample with ⟨c, inside, open_⟩ | ⟨far, _⟩
      · by_contra beyond
        have earlier : c < b := by omega
        have set_ := allocated.first c earlier
        rw [used_of_marked (by have low := allocated.low; omega), set_] at open_
        exact nomatch open_
      · exact Nat.lt_of_lt_of_le allocated.low far
  · rintro reason ⟨rfl, full⟩
    rcases ample with ⟨c, inside, open_⟩ | ⟨_, allowed⟩
    · have scans := terms.scans
      rw [used_of_marked (by omega), full c (by omega)] at open_
      exact nomatch open_
    · exact allowed

/-- The copy in the cache is the inode of the working volume. -/
theorem work_inode : (work sb d ip).inode (d.mem.icache ip).inum = (d.mem.icache ip).copy :=
  Volume.inode_setInode_self _

theorem setInode_setInode (v : Volume) (i : Nat) (c c' : Dinode) :
    (v.setInode i c).setInode i c' = v.setInode i c' := by
  simp only [Volume.setInode, Function.update_idem]

/-- Changing the copy in the cache. -/
theorem work_withCopy {change : Dinode -> Dinode}
    (mem : e.mem = d.mem.adjust ip (Inode.withCopy change))
    (volume : sb.volume e.disk = sb.volume d.disk) :
    work sb e ip =
      (work sb d ip).setInode (d.mem.icache ip).inum (change (d.mem.icache ip).copy) := by
  unfold work
  rw [mem, volume, Kernel.adjust_self, setInode_setInode]
  rfl

theorem Quiet.store {sector : Nat} {data : Block} (quiet : Quiet d) : Quiet (d.store sector data) :=
  ⟨fun other => (quiet.resting other).store, quiet.idle⟩

theorem Quiet.withMem (quiet : Quiet d) (mem : Kernel) : Quiet (d.withMem mem) :=
  ⟨fun other => ⟨(quiet.resting other).idle, (quiet.resting other).clean⟩, quiet.idle⟩

theorem Works.space (works : Works sb ends enough d ip)
    (terms : Terms limits sb ends escape enough) : d.busy + 3 < limits.capacity := by
  rw [works.quiet.idle]
  exact terms.buffers

theorem Extended.refl (works : Works sb ends enough d ip) (new : Nat -> Prop) :
    Extended sb ends enough d d ip new :=
  ⟨works, Kept.refl sb d ip, Filled.refl sb _ _ _ _⟩

theorem Extended.trans {e f : Device BSIZE Kernel} {new newer : Nat -> Prop}
    (first : Extended sb ends enough d e ip new) (second : Extended sb ends enough e f ip newer) :
    Extended sb ends enough d f ip (fun j => new j ∨ newer j) := by
  have filled := second.filled
  rw [first.kept.inum] at filled
  exact ⟨second.works, first.kept.trans second.kept, first.filled.trans filled⟩

/-- What is taken is in the slots of the inode at work. -/
theorem Filled.taken {bits : Nat -> Bool} {new : Nat -> Prop}
    (filled : Filled sb (work sb d ip) bits (work sb e ip) (marked sb e.disk)
      (d.mem.icache ip).inum new)
    (sound : (work sb d ip).Sound sb ends bits)
    (inum : (e.mem.icache ip).inum = (d.mem.icache ip).inum) :
    Taken (ownSlots sb d ip) bits (ownSlots sb e ip) (marked sb e.disk) := by
  unfold ownSlots
  rw [inum]
  refine ⟨fun j beyond => Volume.slot_beyond beyond, fun j stored => filled.stays _ stored,
    fun b inUse => ?_⟩
  rcases filled.fresh b inUse with before | ⟨nonnull, s, same⟩
  · exact Or.inl before
  · by_cases empty : (work sb d ip).slot s = 0
    · have here := (filled.only s empty (by rw [same]; exact nonnull)).1
      exact Or.inr ⟨s.2, by rw [← here]; exact same⟩
    · have stored := (sound.ledger.stored s empty).2.2
      rw [← filled.stays s empty, same] at stored
      exact Or.inl stored

/-- `ensureAddr` fills the slot if it is empty, and returns what is in it. -/
theorem ensureAddr_wp (terms : Terms limits sb ends escape enough)
    (works : Works sb ends enough d ip) (below : j ≤ NDIRECT) :
    (ensureAddr ip j).wp limits
      (fun a e =>
        Extended sb ends enough d e ip (fun k => k = j) ∧
        a = (work sb e ip).slot ((d.mem.icache ip).inum, j) ∧ a ≠ 0)
      escape d := by
  have here : (work sb d ip).slot ((d.mem.icache ip).inum, j) = (d.mem.icache ip).copy.addrs j := by
    rw [Volume.slot_direct below, work_inode]
  unfold ensureAddr
  refine wp_bind.mpr (wp_getMem ?_)
  rw [if_neg (Nat.not_lt.mpr below)]
  by_cases empty : (d.mem.icache ip).copy.addrs j = 0
  · rw [if_pos empty]
    have space := works.space terms
    refine wp_seq (balloc_fresh terms works.isSuper (fun sector _ => works.quiet.resting sector)
      (by omega) works.sound.ledger.reserved (terms.ample _ _ works.enough)) ?_
    rintro a e ⟨lower, upper, free, taken, roomy⟩
    have scans := terms.scans
    have fits := terms.fits
    have disk : e.disk = markBlock sb d.disk a := by
      rw [taken]
      rfl
    refine wp_bind.mpr (wp_putMem ?_)
    generalize isAfter : e.withMem (e.mem.adjust ip (Inode.withCopy fun c => c.setAddr j a)) = g
    have diskToo : g.disk = markBlock sb d.disk a := by
      rw [← isAfter, ← disk]
      rfl
    have mem : g.mem = d.mem.adjust ip (Inode.withCopy fun c => c.setAddr j a) := by
      rw [← isAfter, taken]
      rfl
    have volume : sb.volume g.disk = sb.volume d.disk := by
      rw [diskToo, volume_markBlock (by omega)]
    have after := work_withCopy mem volume
    rw [← work_inode] at after
    have emptySlot : ((work sb d ip).inode (d.mem.icache ip).inum).addrs j = 0 := by
      rw [work_inode]
      exact empty
    have sets : forall c, marked sb g.disk c = (decide (c = a) || marked sb d.disk c) := by
      intro c
      rw [diskToo]
      exact marked_markBlock (by omega) c
    have filled := works.sound.fillAddr below emptySlot lower upper (by omega) free sets
    rw [← after] at filled
    have inum : (g.mem.icache ip).inum = (d.mem.icache ip).inum := by
      rw [mem, Kernel.adjust_self]
      rfl
    refine ⟨⟨⟨?_, ?_, ?_, filled.1, ?_⟩, ⟨⟨_, mem⟩, congrArg Volume.inode volume⟩, filled.2⟩, ?_,
      ?_⟩
    · rw [← isAfter, taken]
      exact works.quiet.store.withMem _
    · rw [diskToo, superblock_markBlock (by omega)]
      exact works.isSuper
    · rw [inum]
      exact works.inode
    · have sameDisk : g.disk = e.disk := diskToo.trans disk.symm
      rw [← sameDisk] at roomy
      exact terms.keeps _ _ _ _ roomy works.enough (filled.2.taken works.sound inum)
    · rw [Volume.slot_direct below, after, Volume.inode_setInode_self, Dinode.setAddr_self]
    · have large := dataStart_large sb
      omega
  · rw [if_neg empty]
    exact ⟨Extended.refl works _, here.symm, empty⟩

/-- Changing a data block on the disk. -/
theorem work_setBlock {b : Nat} {data : Block} (mem : e.mem = d.mem)
    (volume : sb.volume e.disk = (sb.volume d.disk).setBlock b data) :
    work sb e ip = (work sb d ip).setBlock b data := by
  unfold work
  rw [mem, volume]
  rfl

/-- The slots of an inode, on the device. -/
theorem Works.indirect (works : Works sb ends enough d ip) {ind : Nat} (nonnull : ind ≠ 0)
    (isIndirect : (work sb d ip).slot ((d.mem.icache ip).inum, NDIRECT) = ind) :
    ((work sb d ip).inode (d.mem.icache ip).inum).addrs NDIRECT = ind ∧ sb.dataStart ≤ ind ∧
    (work sb d ip).block ind = d.disk ind ∧
    forall k,
      (work sb d ip).slot ((d.mem.icache ip).inum, NDIRECT + 1 + k) = (d.disk ind).word k := by
  have above := (works.sound.ledger.stored _ (by rw [isIndirect]; exact nonnull)).1
  rw [isIndirect] at above
  have addr := isIndirect
  rw [Volume.slot_direct (Nat.le_refl _)] at addr
  have block : (work sb d ip).block ind = d.disk ind := Superblock.block_above above
  refine ⟨addr, above, block, fun k => ?_⟩
  rw [Volume.slot_entry (by rw [addr]; exact nonnull), addr, block]

/-- `ensureEntry` does the same in the indirect block. -/
theorem ensureEntry_wp {ind k : Nat} (terms : Terms limits sb ends escape enough)
    (works : Works sb ends enough d ip)
    (isIndirect : (work sb d ip).slot ((d.mem.icache ip).inum, NDIRECT) = ind) (nonnull : ind ≠ 0)
    (below : k < NINDIRECT) :
    (ensureEntry ind k).wp limits
      (fun a e =>
        Extended sb ends enough d e ip (fun m => m = NDIRECT + 1 + k) ∧
        a = (work sb e ip).slot ((d.mem.icache ip).inum, NDIRECT + 1 + k) ∧ a ≠ 0)
      escape d := by
  rcases works.indirect nonnull isIndirect with ⟨addr, above, block, entries⟩
  have space := works.space terms
  have resting := works.quiet.resting ind
  unfold ensureEntry
  refine wp_bind.mpr (wp_bread resting (by omega) ?_)
  refine wp_bind.mpr (wp_look Device.held_hold_self ?_)
  rw [if_neg (Nat.not_le.mpr below)]
  by_cases empty : (d.disk ind).word k = 0
  · rw [if_pos empty]
    have others : forall sector, sector < sb.dataStart ->
        (d.hold ind (d.disk ind)).Resting sector :=
      fun sector before => (works.quiet.resting sector).hold (by omega)
    refine wp_seq (balloc_fresh terms works.isSuper others (show d.busy + 1 < _ by omega)
      works.sound.ledger.reserved (terms.ample _ _ works.enough)) ?_
    rintro a e ⟨lower, upper, free, rfl, _⟩
    have scans := terms.scans
    have fits := terms.fits
    refine wp_bind.mpr (wp_patch Device.held_hold_self ?_)
    refine wp_bind.mpr (wp_bwrite Device.held_change_self fun roomy => ?_)
    refine wp_bind.mpr (wp_brelse Device.held_change_self ?_)
    have bitmap := @BBLOCK_bounds sb a (by omega)
    have different : ind ≠ BBLOCK a sb.ninodes := by omega
    rw [Device.store_hold, Device.disk_hold, Device.release_store_change_hold resting.store]
    generalize isAfter : (d.store (BBLOCK a sb.ninodes)
      (setBit (a % BPB) (d.disk (BBLOCK a sb.ninodes)))).store ind ((d.disk ind).setWord k a) = g
    have disk : g.disk = Function.update (markBlock sb d.disk a) ind
        ((d.disk ind).setWord k a) := by
      rw [← isAfter]
      rfl
    have mem : g.mem = d.mem := by
      rw [← isAfter]
      rfl
    have volume : sb.volume g.disk = (sb.volume d.disk).setBlock ind
        ((d.disk ind).setWord k a) := by
      rw [disk, Superblock.volume_setBlock above, volume_markBlock (by omega)]
    have after := @work_setBlock sb d g ip ind _ mem volume
    have sets : forall c, marked sb g.disk c = (decide (c = a) || marked sb d.disk c) := by
      intro c
      rw [disk, marked_other (Or.inr above), marked_markBlock (by omega)]
    have filled := works.sound.fillEntry (by rw [addr]; exact nonnull) below
        ((entries k).trans empty) lower upper (by omega) free sets
    rw [addr, block, ← after] at filled
    have stored : (work sb g ip).slot ((d.mem.icache ip).inum, NDIRECT + 1 + k) = a := by
      have inside : 4 * k + 4 ≤ BSIZE := by
        simp only [NINDIRECT, BSIZE] at below ⊢
        omega
      have stillThere : ((work sb g ip).inode (d.mem.icache ip).inum).addrs NDIRECT = ind := by
        rw [after]
        exact addr
      have nowThere : (work sb g ip).block ind = (d.disk ind).setWord k a := by
        rw [after]
        exact Function.update_self _ _ _
      rw [Volume.slot_entry (by rw [stillThere]; exact nonnull), stillThere, nowThere,
        Bytes.word_setWord_self _ inside (by omega)]
    refine ⟨⟨⟨?_, ?_, ?_, filled.1, ?_⟩, ⟨?_, ?_⟩, filled.2⟩, stored.symm, ?_⟩
    · rw [← isAfter]
      exact works.quiet.store.store
    · have low : 1 ≠ ind := by
        have large := dataStart_large sb
        omega
      rw [disk, Function.update_of_ne low, superblock_markBlock (by omega)]
      exact works.isSuper
    · rw [mem]
      exact works.inode
    · have roomyToo : limits.room g.disk := by
        rw [disk]
        exact roomy
      have inum := congrArg (fun kernel : Kernel => (kernel.icache ip).inum) mem
      exact terms.keeps _ _ _ _ roomyToo works.enough (filled.2.taken works.sound inum)
    · rw [mem]
      exact (Kept.refl sb d ip).mem
    · rw [volume]
      rfl
    · have large := dataStart_large sb
      omega
  · rw [if_neg empty]
    refine wp_bind.mpr (wp_brelse Device.held_hold_self ?_)
    rw [Device.release_hold resting]
    refine ⟨Extended.refl works _, ?_, empty⟩
    rw [entries]

/-- The indirect block and then one of its entries. -/
theorem indirectEntry_wp {k : Nat} (terms : Terms limits sb ends escape enough)
    (works : Works sb ends enough d ip) (below : k < NINDIRECT) : (do
      let addr <- ensureAddr ip NDIRECT
      ensureEntry addr k : Fs Nat).wp limits (fun a e =>
        Extended sb ends enough d e ip (fun m => m = NDIRECT ∨ m = NDIRECT + 1 + k) ∧
        a = (work sb e ip).slot ((d.mem.icache ip).inum, NDIRECT + 1 + k) ∧ a ≠ 0) escape d := by
  refine wp_seq (ensureAddr_wp terms works (Nat.le_refl _)) ?_
  rintro ind e ⟨first, isIndirect, nonnull⟩
  have isIndirectToo := isIndirect.symm
  rw [← first.kept.inum] at isIndirectToo
  refine wp_mono (ensureEntry_wp terms first.works isIndirectToo nonnull below) ?_
    (fun _ stopped => stopped)
  rintro a f ⟨second, stored, nonnullToo⟩
  rw [first.kept.inum] at stored
  exact ⟨first.trans second, stored, nonnullToo⟩

theorem Extended.weaken {new newer : Nat -> Prop} (extended : Extended sb ends enough d e ip new)
    (allowed : forall j, new j -> newer j) : Extended sb ends enough d e ip newer :=
  ⟨extended.works, extended.kept, extended.filled.weaken allowed⟩

theorem place_entry {bn : Nat} (large : ¬ bn < NDIRECT) :
    Volume.place bn = NDIRECT + 1 + (bn - NDIRECT) := by
  unfold Volume.place
  rw [if_neg large]
  omega

theorem place_direct {bn : Nat} (small : bn < NDIRECT) : Volume.place bn = bn := if_pos small

/-- `bmap` returns the block in the slot of a logical block, which it fills if it is empty. -/
theorem bmap_wp (terms : Terms limits sb ends escape enough) (works : Works sb ends enough d ip)
    (below : bn < MAXFILE) :
    (bmap ip bn).wp limits
      (fun a e =>
        Extended sb ends enough d e ip (fun m => m = NDIRECT ∨ m = Volume.place bn) ∧
        a = (work sb e ip).slot ((d.mem.icache ip).inum, Volume.place bn) ∧ a ≠ 0)
      escape d := by
  unfold bmap
  by_cases direct : bn < NDIRECT
  · rw [if_pos direct, place_direct direct]
    refine wp_mono (ensureAddr_wp terms works (Nat.le_of_lt direct)) ?_ (fun _ stopped => stopped)
    rintro a e ⟨extended, stored⟩
    exact ⟨extended.weaken (fun _ => Or.inr), stored⟩
  · have entry : bn - NDIRECT < NINDIRECT := by
      simp only [MAXFILE] at below
      omega
    rw [if_neg direct, if_pos entry, place_entry direct]
    exact indirectEntry_wp terms works entry

/-- The slots of the copies of a logical block of a mirrored file, and of the indirect block. -/
def CopySlot (k m : Nat) : Prop :=
  m = NDIRECT ∨ Exists fun j => j < 3 ∧ m = Volume.place (k * 3 + j)

/-- `mbmap` does the same for a copy of a block. -/
theorem mbmap_wp {k : Nat} (terms : Terms limits sb ends escape enough)
    (works : Works sb ends enough d ip) (small : j < 3) (below : k * 3 + j < MAXFILE) :
    (mbmap ip (k * 3) j).wp limits
      (fun a e =>
        Extended sb ends enough d e ip (CopySlot k) ∧
        a = (work sb e ip).slot ((d.mem.icache ip).inum, Volume.place (k * 3 + j)) ∧ a ≠ 0)
      escape d := by
  unfold mbmap
  by_cases direct : k * 3 < NDIRECT
  · have within : forall i, i < 3 -> k * 3 + i < NDIRECT := by
      intro i short
      simp only [NDIRECT] at direct ⊢
      omega
    have allowed : forall i, i < 3 -> forall m, m = k * 3 + i -> CopySlot k m := by
      rintro i short m rfl
      exact Or.inr ⟨i, short, (place_direct (within i short)).symm⟩
    -- The second or the third copy, after the first one.
    have later : forall i, i < 3 -> forall e,
        Extended sb ends enough d e ip (fun m => m = k * 3) -> (ensureAddr ip (k * 3 + i)).wp limits
        (fun a f => Extended sb ends enough d f ip (CopySlot k) ∧ a = (work sb f ip).slot
        ((d.mem.icache ip).inum, Volume.place (k * 3 + i)) ∧ a ≠ 0) escape e := by
      intro i short e first
      refine wp_mono (ensureAddr_wp terms first.works (Nat.le_of_lt (within i short))) ?_
        (fun _ stopped => stopped)
      rintro a f ⟨second, stored, nonnull⟩
      rw [first.kept.inum] at stored
      rw [place_direct (within i short)]
      refine ⟨(first.trans second).weaken (fun m either => ?_), stored, nonnull⟩
      rcases either with here | there
      · exact allowed 0 (by decide) m here
      · exact allowed i short m there
    rw [if_pos direct]
    refine wp_seq (ensureAddr_wp terms works (Nat.le_of_lt direct)) ?_
    rintro a e ⟨first, stored, nonnull⟩
    by_cases second : j = 1
    · rw [if_pos second, second]
      exact later 1 (by decide) e first
    · by_cases third : j = 2
      · rw [if_neg second, if_pos third, third]
        exact later 2 (by decide) e first
      · have zero : j = 0 := by omega
        rw [if_neg second, if_neg third, zero, place_direct (within 0 (by decide))]
        exact ⟨first.weaken (allowed 0 (by decide)), stored, nonnull⟩
  · have entry : k * 3 - NDIRECT < NINDIRECT ∧ k * 3 - NDIRECT + j < NINDIRECT ∧
        NDIRECT + 1 + (k * 3 - NDIRECT + j) = Volume.place (k * 3 + j) := by
      rw [place_entry (by omega)]
      simp only [MAXFILE] at below
      omega
    have copy : j ≤ 2 := by omega
    rw [if_neg direct, if_pos entry.1]
    simp only [if_pos copy]
    refine wp_mono (indirectEntry_wp terms works entry.2.1) ?_ (fun _ stopped => stopped)
    rw [entry.2.2]
    rintro a e ⟨extended, stored⟩
    refine ⟨extended.weaken (fun m either => ?_), stored⟩
    rcases either with indirect | here
    · exact Or.inl indirect
    · exact Or.inr ⟨j, small, here⟩

/-- Changing the inode in the cache, but not its addresses. -/
theorem Works.withCopy {change : Dinode -> Dinode} (works : Works sb ends enough d ip)
    (addrs : (change (d.mem.icache ip).copy).addrs = (d.mem.icache ip).copy.addrs)
    (fits : (change (d.mem.icache ip).copy).Fits) :
    Works sb ends enough (d.withMem (d.mem.adjust ip (Inode.withCopy change))) ip ∧
      work sb (d.withMem (d.mem.adjust ip (Inode.withCopy change))) ip =
        (work sb d ip).setInode (d.mem.icache ip).inum (change (d.mem.icache ip).copy) := by
  have after := @work_withCopy sb d
      (d.withMem (d.mem.adjust ip (Inode.withCopy change))) ip change rfl rfl
  have same : (change (d.mem.icache ip).copy).addrs =
      ((work sb d ip).inode (d.mem.icache ip).inum).addrs := by
    rw [work_inode]
    exact addrs
  have inum : ((d.mem.adjust ip (Inode.withCopy change)).icache ip).inum =
      (d.mem.icache ip).inum := by
    rw [Kernel.adjust_self]
    rfl
  have slots := Volume.slot_setInode_addrs same
  refine ⟨⟨works.quiet.withMem _, works.isSuper, inum.symm ▸ works.inode, ?_, ?_⟩, after⟩
  · rw [after]
    exact ⟨works.sound.ledger.congr slots (fun _ => rfl) (fun _ _ _ _ => rfl),
      Volume.Sound.setInode_fits works.sound.fits fits⟩
  · have own : ownSlots sb (d.withMem (d.mem.adjust ip (Inode.withCopy change))) ip =
        ownSlots sb d ip := by
      funext j
      unfold ownSlots
      rw [after]
      exact (congrArg (fun i => ((work sb d ip).setInode _ _).slot (i, j)) inum).trans (slots _)
    exact own.symm ▸ works.enough

/-- The third copy of block 46 would be the entry behind the last one. -/
theorem mbmap_outOfBounds {post : Nat -> Device BSIZE Kernel -> Prop}
    (terms : Terms limits sb ends escape enough) (works : Works sb ends enough d ip)
    (allowed : escape (.panic .outOfBounds)) : (mbmap ip (46 * 3) 2).wp limits post escape d := by
  have notDirect : ¬ 46 * 3 < NDIRECT := by decide
  have entry : 46 * 3 - NDIRECT < NINDIRECT := by decide
  have copy : (2 : Nat) ≤ 2 := Nat.le_refl 2
  have beyond : NINDIRECT ≤ 46 * 3 - NDIRECT + 2 := by decide
  unfold mbmap
  rw [if_neg notDirect, if_pos entry]
  simp only [if_pos copy]
  refine wp_seq (ensureAddr_wp terms works (Nat.le_refl _)) ?_
  rintro ind e ⟨extended, _⟩
  have space := extended.works.space terms
  unfold ensureEntry
  refine wp_bind.mpr (wp_bread (extended.works.quiet.resting ind) (by omega) ?_)
  refine wp_bind.mpr (wp_look Device.held_hold_self ?_)
  rw [if_pos beyond]
  exact wp_stop allowed

end Growing

end TripleFs
end OsProjects
