import OsProjects.TripleFs.BufferDiscipline

namespace OsProjects
namespace TripleFs

open Machine

/-!
# Discarding the contents of an inode

`itrunc` gives the blocks of an inode back one after the other.  `bfree` wipes a block
before it clears its bit, so a block that is free is zero again.  While the blocks in the
indirect block are given back the disk still has their numbers; what is left of the slots
is known only to the loop.
-/

/-- The disk after the bit of a block has been cleared. -/
def clearBlock (sb : Superblock) (disk : Nat -> Block) (b : Nat) : Nat -> Block :=
  Function.update disk (BBLOCK b sb.ninodes) (clearBit (b % BPB) (disk (BBLOCK b sb.ninodes)))

/-- What `bfree` leaves behind. -/
def freed (sb : Superblock) (d : Device BSIZE Kernel) (b : Nat) : Device BSIZE Kernel :=
  (d.overwrite b (Bytes.fill 0)).store (BBLOCK b sb.ninodes)
    (clearBit (b % BPB) (d.disk (BBLOCK b sb.ninodes)))

/-- What is left of the slots when those of the inode `i` in `gone` have been emptied. -/
def Volume.without (v : Volume) (i : Nat) (gone : Nat -> Bool) (s : Nat × Nat) : Nat :=
  if s.1 = i ∧ gone s.2 = true then 0 else v.slot s

/-- The inode with the addresses that are left. -/
def Dinode.without (c : Dinode) (gone : Nat -> Bool) : Dinode :=
  { c with addrs := fun j => if gone j = true then 0 else c.addrs j }

/-- From `d` to `e` the blocks in `gone` of the inode `i` have been given back. -/
structure Trimming (sb : Superblock) (ends : Nat) (v : Volume) (d : Device BSIZE Kernel) (i : Nat)
    (gone : Nat -> Bool) (lent : Finset Nat) (e : Device BSIZE Kernel) : Prop where
  isSuper : superblock (e.disk 1) = sb
  scans : ends ≤ scanned sb
  ledger : Ledger (Bytes.fill 0) sb.dataStart ends (v.without i gone) (marked sb e.disk) e.disk
  roomy : Roomy sb ends (marked sb e.disk)
  kept : forall s, v.without i gone s ≠ 0 ->
    e.disk (v.without i gone s) = d.disk (v.without i gone s)
  inodes : (sb.volume e.disk).inode = (sb.volume d.disk).inode
  lends : Lends sb (Loose sb (fun k => (v.inode k).type) (v.without i gone)
    (marked sb e.disk)) lent e
  complete : Ledger.Complete sb.dataStart ends v.slot (marked sb d.disk) ->
    Ledger.Complete sb.dataStart ends (v.without i gone) (marked sb e.disk)

/-! ## One block -/

section Freeing

variable {limits : Limits BSIZE} {sb : Superblock} {ends : Nat} {escape : Stop FsPanic -> Prop}
  {v : Volume} {d e : Device BSIZE Kernel} {i j b : Nat} {gone more : Nat -> Bool}
  {lent : Finset Nat}

open BlockProgram

theorem used_clearBlock (sb : Superblock) (disk : Nat -> Block) (b c : Nat) :
    used sb (clearBlock sb disk b) c = (!decide (c = b) && used sb disk c) := by
  have below : c % BPB < BPB := Nat.mod_lt c (by decide)
  unfold used clearBlock
  by_cases block : BBLOCK c sb.ninodes = BBLOCK b sb.ninodes
  · rw [block, Function.update_self, bit_clearBit _ below]
    congr 2
    refine decide_eq_decide.mpr ?_
    simp only [BBLOCK, BPB] at block ⊢
    omega
  · have different : c ≠ b := fun same => block (same ▸ rfl)
    rw [Function.update_of_ne block, decide_eq_false different, Bool.not_false, Bool.true_and]

theorem marked_clearBlock (disk : Nat -> Block) (b c : Nat) :
    marked sb (clearBlock sb disk b) c = (!decide (c = b) && marked sb disk c) := by
  unfold marked
  rw [used_clearBlock]
  exact Bool.and_left_comm _ _ _

theorem disk_freed (above : sb.dataStart ≤ b) (below : b < scanned sb) :
    (freed sb d b).disk = clearBlock sb (Function.update d.disk b (Bytes.fill 0)) b := by
  have different : BBLOCK b sb.ninodes ≠ b :=
    Nat.ne_of_lt (Nat.lt_of_lt_of_le (BBLOCK_bounds below).2 above)
  unfold clearBlock
  rw [Function.update_of_ne different]
  rfl

/-- `bfree` wipes a block in use and clears its bit. -/
theorem bfree_wp (isSuper : superblock (d.disk 1) = sb)
    (resting : forall s, s < sb.dataStart -> d.Resting s) (idle : d.held b = none)
    (space : d.busy < limits.capacity) (above : sb.dataStart ≤ b) (below : b < scanned sb)
    (inUse : marked sb d.disk b = true) :
    (bfree b).wp limits (fun _ e => e = freed sb d b ∧ limits.room e.disk) escape d := by
  have large := dataStart_large sb
  have place := BBLOCK_bounds below
  have low : forall s, s < sb.dataStart -> (d.overwrite b (Bytes.fill 0)).Resting s :=
    fun s before =>
    ⟨(resting s before).idle, (Function.update_of_ne (by omega) _ _).trans (resting s before).clean⟩
  have super : superblock ((d.overwrite b (Bytes.fill 0)).disk 1) = sb := by
    rw [← isSuper]
    exact congrArg superblock (Function.update_of_ne (by omega) _ _)
  have bitmap : (d.overwrite b (Bytes.fill 0)).disk (BBLOCK b sb.ninodes) = d.disk
      (BBLOCK b sb.ninodes) :=
    Function.update_of_ne (by omega) _ _
  unfold bfree bzero readsb
  refine wp_bind.mpr (wp_overwrite idle space (fun _ => ?_))
  refine wp_bind.mpr (wp_glance (low 1 (by omega)) space ?_)
  rw [super]
  refine wp_bind.mpr (wp_bread (low _ place.2) space ?_)
  refine wp_bind.mpr (wp_look Device.held_hold_self ?_)
  rw [used_of_marked below] at inUse
  have set_ : bit (d.disk (BBLOCK b sb.ninodes)) (b % BPB) = true := inUse
  rw [bitmap, if_pos set_]
  refine wp_bind.mpr (wp_patch Device.held_hold_self ?_)
  refine wp_bind.mpr (wp_bwrite Device.held_change_self fun roomy => ?_)
  refine wp_brelse Device.held_change_self ?_
  rw [Device.release_store_change_hold (low _ place.2)]
  exact ⟨rfl, roomy⟩

/-! ## What is left of the slots -/

theorem Volume.without_gone (yes : gone j = true) : v.without i gone (i, j) = 0 := if_pos ⟨rfl, yes⟩

theorem Volume.without_left (no : gone j = false) : v.without i gone (i, j) = v.slot (i, j) :=
  if_neg (fun both => by rw [no] at both; exact nomatch both.2)

theorem Volume.without_other {s : Nat × Nat} (other : s.1 ≠ i) : v.without i gone s = v.slot s :=
  if_neg (fun both => other both.1)

theorem Volume.slot_of_without {s : Nat × Nat} (left : v.without i gone s ≠ 0) :
    v.without i gone s = v.slot s := by
  unfold Volume.without at left ⊢
  by_cases emptied : s.1 = i ∧ gone s.2 = true
  · rw [if_pos emptied] at left
    exact absurd rfl left
  · exact if_neg emptied

/-- One slot more has been emptied. -/
theorem Volume.without_update (grows : forall k, more k = (decide (k = j) || gone k)) :
    v.without i more = Function.update (v.without i gone) (i, j) 0 := by
  refine funext (fun s => ?_)
  by_cases here : s = (i, j)
  · rw [here, Function.update_self]
    exact Volume.without_gone (by rw [grows, decide_eq_true rfl, Bool.true_or])
  · rw [Function.update_of_ne here]
    unfold Volume.without
    by_cases own : s.1 = i
    · have other : s.2 ≠ j := fun same => here (Prod.ext own same)
      rw [grows, decide_eq_false other, Bool.false_or]
    · rw [if_neg (fun both => own both.1), if_neg (fun both => own both.1)]

namespace Trimming

/-- Nothing has been given back yet. -/
theorem start (secure : Secure sb ends v ∅ d) (i : Nat) :
    Trimming sb ends v d i (fun _ => false) ∅ d := by
  have slots : v.without i (fun _ => false) = v.slot :=
    funext (fun s => if_neg (fun both => nomatch both.2))
  have owning := secure.owning
  refine ⟨owning.isSuper, owning.scans, ?_, secure.roomy, fun _ _ => rfl, rfl, ?_, ?_⟩
  · rw [slots]
    exact secure.sound.ledger.congr (fun _ => rfl) (fun _ => rfl)
      (fun b above _ _ => (owning.block above).symm)
  · rw [slots]
    exact owning.lends
  · rw [slots]
    exact id

/-- Only what is left of the slots matters. -/
theorem congr (trimming : Trimming sb ends v d i gone lent e)
    (slots : v.without i more = v.without i gone) : Trimming sb ends v d i more lent e := by
  refine ⟨trimming.isSuper, trimming.scans, ?_, trimming.roomy, ?_, trimming.inodes, ?_, ?_⟩
  · rw [slots]
    exact trimming.ledger
  · rw [slots]
    exact trimming.kept
  · rw [slots]
    exact trimming.lends
  · rw [slots]
    exact trimming.complete

/-- A slot that is empty needs nothing. -/
theorem skip (trimming : Trimming sb ends v d i gone lent e) (empty : v.slot (i, j) = 0)
    (grows : forall k, more k = (decide (k = j) || gone k)) :
    Trimming sb ends v d i more lent e := by
  have already : v.without i gone (i, j) = 0 := by
    cases now : gone j with
    | true => exact Volume.without_gone now
    | false => exact (Volume.without_left now).trans empty
  refine trimming.congr ?_
  rw [Volume.without_update grows, ← already, Function.update_eq_self]

/-- Buffers may be borrowed and handed back meanwhile. -/
theorem still {f : Device BSIZE Kernel} {lentToo : Finset Nat}
    (trimming : Trimming sb ends v d i gone lent e) (disk : f.disk = e.disk)
    (lends : Lends sb (Loose sb (fun k => (v.inode k).type) (v.without i gone)
      (marked sb e.disk)) lentToo f) : Trimming sb ends v d i gone lentToo f := by
  refine ⟨?_, trimming.scans, ?_, ?_, ?_, ?_, ?_, ?_⟩
  · rw [disk]
    exact trimming.isSuper
  · rw [disk]
    exact trimming.ledger
  · rw [disk]
    exact trimming.roomy
  · rw [disk]
    exact trimming.kept
  · rw [disk]
    exact trimming.inodes
  · rw [disk]
    exact lends
  · rw [disk]
    exact trimming.complete

/-- The sectors before the data blocks. -/
theorem resting_low (trimming : Trimming sb ends v d i gone lent e) {s : Nat}
    (low : s < sb.dataStart) : e.Resting s := by
  exact trimming.lends.resting
    (fun inside => absurd low (Nat.not_lt.mpr (trimming.lends.data s inside)))
    (fun loose => absurd low (Nat.not_lt.mpr loose.1))

/-- One block is given back. -/
theorem freed (trimming : Trimming sb ends v d i gone lent e) (left : gone j = false)
    (stored : v.slot (i, j) = b) (nonnull : b ≠ 0)
    (grows : forall k, more k = (decide (k = j) || gone k))
    (roomy : Roomy sb ends (marked sb (freed sb e b).disk)) :
    Trimming sb ends v d i more lent (freed sb e b) := by
  have slots := @Volume.without_update v i j gone more grows
  have own : v.without i gone (i, j) = b := (Volume.without_left left).trans stored
  have ledger := trimming.ledger.clear (s := (i, j)) (by rw [own]; exact nonnull)
  rw [own] at ledger
  have inUse := trimming.ledger.stored (i, j) (by rw [own]; exact nonnull)
  rw [own] at inUse
  have scans : b < scanned sb := Nat.lt_of_lt_of_le inUse.2.1 trimming.scans
  have place := BBLOCK_bounds scans
  have large := dataStart_large sb
  have disk := @disk_freed sb e b inUse.1 scans
  have sets : forall c, marked sb (TripleFs.freed sb e b).disk c =
      (!decide (c = b) && marked sb e.disk c) := by
    intro c
    rw [disk, marked_clearBlock, marked_other (Or.inr inUse.1)]
  have others : forall c, sb.dataStart ≤ c ->
      (TripleFs.freed sb e b).disk c = Function.update e.disk b (Bytes.fill 0) c :=
    fun c above => Function.update_of_ne (by omega) _ _
  have other : forall t, v.without i more t ≠ 0 -> t ≠ (i, j) ∧
      v.without i more t = v.without i gone t := by
    intro t still
    rw [slots] at still ⊢
    have different : t ≠ (i, j) := by
      intro here
      rw [here, Function.update_self] at still
      exact still rfl
    exact ⟨different, Function.update_of_ne different _ _⟩
  refine ⟨?_, trimming.scans, ?_, roomy, fun t still => ?_, ?_, ⟨trimming.lends.held,
    trimming.lends.count, trimming.lends.data, fun s clean => ?_⟩, fun complete => ?_⟩
  · have first : (TripleFs.freed sb e b).disk 1 = e.disk 1 := by
      rw [disk]
      unfold clearBlock
      have early : 1 < BBLOCK b sb.ninodes :=
        Nat.lt_of_lt_of_le (by decide) (Nat.le_trans (Nat.le_add_left 3 _) place.1)
      rw [Function.update_of_ne (Nat.ne_of_lt early), Function.update_of_ne (by omega)]
    rw [first]
    exact trimming.isSuper
  · rw [slots]
    exact ledger.congr (fun _ => rfl) sets (fun c above _ _ => others c above)
  · rcases other t still with ⟨different, same⟩
    rw [same] at still ⊢
    have distinct : v.without i gone t ≠ b := fun equal =>
      different (trimming.ledger.once t (i, j) still (equal.trans own.symm))
    rw [others _ (trimming.ledger.stored t still).1, Function.update_of_ne distinct]
    exact trimming.kept t still
  · rw [← trimming.inodes, disk]
    unfold clearBlock
    rw [Superblock.volume_bitmap place.1 place.2, Superblock.volume_setBlock inUse.1]
    rfl
  · show Function.update e.aside b ∅ s = ∅
    by_cases here : s = b
    · rw [here, Function.update_self]
    · rw [Function.update_of_ne here]
      refine trimming.lends.clean s (fun loose => clean (loose.mono ?_ (fun t same => ⟨?_, rfl⟩)))
      · rw [sets, decide_eq_false here, loose.2.1]
        rfl
      · rw [slots] at same
        by_cases emptied : t = (i, j)
        · rw [emptied, Function.update_self] at same
          have above := loose.1
          omega
        · rw [Function.update_of_ne emptied] at same
          exact same
  · have cleared := (trimming.complete complete).clear (s := (i, j))
    rw [own] at cleared
    rw [slots, funext sets]
    exact cleared

/-- `bfree` for the block of a slot that is left. -/
theorem bfree_wp (trimming : Trimming sb ends v d i gone lent e) (left : gone j = false)
    (stored : v.slot (i, j) = b) (nonnull : b ≠ 0)
    (grows : forall k, more k = (decide (k = j) || gone k)) (out : b ∉ lent) (few : lent.card ≤ 3) :
    (bfree b).wp (withRoom sb ends)
      (fun _ f => f = TripleFs.freed sb e b ∧ Trimming sb ends v d i more lent f) escape e := by
  have own : v.without i gone (i, j) = b := (Volume.without_left left).trans stored
  have inUse := trimming.ledger.stored (i, j) (by rw [own]; exact nonnull)
  rw [own] at inUse
  have count := trimming.lends.count
  have space := @Secure.space sb ends _ few
  refine wp_mono (TripleFs.bfree_wp trimming.isSuper
    (fun s low => trimming.resting_low low) (trimming.lends.idle out) (by omega) inUse.1
    (Nat.lt_of_lt_of_le inUse.2.1 trimming.scans) inUse.2.2) ?_ (fun _ stopped => stopped)
  rintro _ f ⟨rfl, roomy⟩
  exact ⟨rfl, trimming.freed left stored nonnull grows roomy⟩

end Trimming

end Freeing

/-! ## All blocks of an inode -/

section Loops

variable {sb : Superblock} {ends : Nat} {escape : Stop FsPanic -> Prop} {v : Volume}
  {d e : Device BSIZE Kernel} {ip i j ind : Nat} {lent : Finset Nat} {a : Block}

open BlockProgram

/-- The copy in the cache has the addresses that are left. -/
def Trimmed (d : Device BSIZE Kernel) (ip : Nat) (gone : Nat -> Bool) (e : Device BSIZE Kernel) :
    Prop :=
  e.mem = d.mem.adjust ip (Inode.withCopy fun c => c.without gone)

theorem Dinode.without_setAddr {c : Dinode} {gone more : Nat -> Bool}
    (grows : forall k, more k = (decide (k = j) || gone k)) :
    (c.without gone).setAddr j 0 = c.without more := by
  unfold Dinode.without Dinode.setAddr
  refine congrArg (fun addrs => { c with addrs := addrs }) (funext (fun k => ?_))
  by_cases here : k = j
  · rw [here, Function.update_self, grows, decide_eq_true rfl, Bool.true_or, if_pos rfl]
  · rw [Function.update_of_ne here, grows, decide_eq_false here, Bool.false_or]

theorem Dinode.without_skip {c : Dinode} {gone more : Nat -> Bool} (empty : c.addrs j = 0)
    (grows : forall k, more k = (decide (k = j) || gone k)) : c.without more = c.without gone := by
  unfold Dinode.without
  refine congrArg (fun addrs => { c with addrs := addrs }) (funext (fun k => ?_))
  by_cases here : k = j
  · rw [here, grows, decide_eq_true rfl, Bool.true_or, if_pos rfl, empty, ite_self]
  · rw [grows, decide_eq_false here, Bool.false_or]

/-- An address that is clear needs nothing. -/
theorem Trimmed.skip {gone more : Nat -> Bool} (trimmed : Trimmed d ip gone e)
    (empty : (d.mem.icache ip).copy.addrs j = 0)
    (grows : forall k, more k = (decide (k = j) || gone k)) : Trimmed d ip more e := by
  refine Eq.trans trimmed (Kernel.adjust_congr ?_)
  show Inode.withCopy _ _ = Inode.withCopy _ _
  unfold Inode.withCopy
  dsimp only
  rw [Dinode.without_skip empty grows]

theorem Trimmed.addrs {gone : Nat -> Bool} (trimmed : Trimmed d ip gone e) (j : Nat) :
    (e.mem.icache ip).copy.addrs j =
      if gone j = true then 0 else (d.mem.icache ip).copy.addrs j := by
  rw [trimmed, Kernel.adjust_self]
  rfl

/-- The address of the block that has been given back is cleared. -/
theorem Trimmed.clear {gone more : Nat -> Bool} {f : Device BSIZE Kernel}
    (trimmed : Trimmed d ip gone e) (mem : f.mem = e.mem)
    (grows : forall k, more k = (decide (k = j) || gone k)) :
    Trimmed d ip more (f.withMem (f.mem.adjust ip (Inode.withCopy fun c => c.setAddr j 0))) := by
  unfold Trimmed
  show f.mem.adjust ip _ = _
  rw [mem, trimmed, Kernel.adjust_adjust]
  refine Kernel.adjust_congr ?_
  show Inode.withCopy _ (Inode.withCopy _ _) = Inode.withCopy _ _
  unfold Inode.withCopy
  dsimp only
  rw [Dinode.without_setAddr grows]

/-- The loop of `itrunc` over the direct blocks. -/
theorem freeDirect_wp (copy : v.inode i = (d.mem.icache ip).copy) (count : Nat) :
    forall {j : Nat} {e : Device BSIZE Kernel}, j + count ≤ NDIRECT ->
      Trimming sb ends v d i (fun k => decide (k < j)) ∅ e ->
      Trimmed d ip (fun k => decide (k < j)) e ->
      (freeDirect ip count j).wp (withRoom sb ends)
        (fun _ f =>
          Trimming sb ends v d i (fun k => decide (k < j + count)) ∅ f ∧
          Trimmed d ip (fun k => decide (k < j + count)) f)
        escape e := by
  induction count with
  | zero => exact fun {j e} _ trimming trimmed => ⟨trimming, trimmed⟩
  | succ count ih =>
      intro j e low trimming trimmed
      have left : decide (j < j) = false := decide_eq_false (Nat.lt_irrefl j)
      have grows : forall k, decide (k < j + 1) = (decide (k = j) || decide (k < j)) := by
        intro k
        rw [← Bool.decide_or]
        exact decide_eq_decide.mpr (by omega)
      have addr := trimmed.addrs j
      rw [left, if_neg Bool.false_ne_true, ← copy] at addr
      have slot : v.slot (i, j) = (v.inode i).addrs j := Volume.slot_direct (by omega)
      have shift : j + (count + 1) = j + 1 + count := by omega
      rw [freeDirect, shift]
      refine wp_bind.mpr (wp_getMem ?_)
      rw [addr]
      by_cases empty : (v.inode i).addrs j = 0
      · rw [if_neg (fun nonnull => nonnull empty)]
        rw [copy] at empty slot
        exact ih (by omega) (trimming.skip (slot.trans empty) grows) (trimmed.skip empty grows)
      · rw [if_pos empty]
        refine wp_seq (trimming.bfree_wp left slot empty grows (Finset.notMem_empty _)
          (Nat.zero_le 3)) ?_
        rintro _ f ⟨isFreed, next⟩
        refine wp_bind.mpr (wp_putMem ?_)
        refine ih (by omega) (next.still rfl (next.lends.withMem _)) (trimmed.clear ?_ grows)
        rw [isFreed]
        rfl

/-- The slots that are empty when the first `j` entries of the indirect block have been
given back. -/
def entriesGone (j k : Nat) : Bool := decide (k < NDIRECT ∨ NDIRECT < k ∧ k < NDIRECT + 1 + j)

/-- The loop of `itrunc` over the entries of the indirect block, which is held. -/
theorem freeEntries_wp (words : forall k, v.slot (i, NDIRECT + 1 + k) = a.word k)
    (other : forall k, a.word k ≠ 0 -> a.word k ≠ ind) (count : Nat) :
    forall {j : Nat} {e : Device BSIZE Kernel}, Trimming sb ends v d i (entriesGone j) {ind} e ->
      (freeEntries a count j).wp (withRoom sb ends)
        (fun _ f =>
          Trimming sb ends v d i (entriesGone (j + count)) {ind} f ∧ f.mem = e.mem ∧
          f.held = e.held)
        escape e := by
  induction count with
  | zero => exact fun {j e} trimming => ⟨trimming, rfl, rfl⟩
  | succ count ih =>
      intro j e trimming
      have left : entriesGone j (NDIRECT + 1 + j) = false := decide_eq_false (by omega)
      have grows : forall k,
          entriesGone (j + 1) k = (decide (k = NDIRECT + 1 + j) || entriesGone j k) := by
        intro k
        unfold entriesGone
        rw [← Bool.decide_or]
        exact decide_eq_decide.mpr (by omega)
      have shift : j + (count + 1) = j + 1 + count := by omega
      rw [freeEntries, shift]
      by_cases empty : a.word j = 0
      · rw [if_neg (fun nonnull => nonnull empty)]
        exact ih (trimming.skip ((words j).trans empty) grows)
      · rw [if_pos empty]
        have out : a.word j ∉ ({ind} : Finset Nat) :=
          fun inside => other j empty (Finset.mem_singleton.mp inside)
        refine wp_seq (trimming.bfree_wp left (words j) empty grows out ?_) ?_
        · rw [Finset.card_singleton]
          exact by decide
        · rintro _ f ⟨rfl, next⟩
          exact ih next

/-- Everything has been given back when what is left is empty. -/
theorem Volume.without_all {gone : Nat -> Bool}
    (all : forall k, gone k = true ∨ v.slot (i, k) = 0) :
    v.without i (fun _ => true) = v.without i gone := by
  refine funext (fun s => ?_)
  by_cases own : s.1 = i
  · have emptied : v.without i (fun _ => true) s = 0 := if_pos ⟨own, rfl⟩
    rw [emptied]
    by_contra left
    have slot := Volume.slot_of_without (fun none_ => left none_.symm)
    rcases all s.2 with gone_ | empty
    · exact left (if_pos ⟨own, gone_⟩).symm
    · rw [← own] at empty
      exact left (slot.trans empty).symm
  · rw [Volume.without_other own, Volume.without_other own]

theorem Dinode.without_all {c : Dinode} {gone : Nat -> Bool} (fits : c.Fits)
    (all : forall k, k ≤ NDIRECT -> gone k = true) :
    c.without gone = c.without (fun _ => true) := by
  unfold Dinode.without
  refine congrArg (fun addrs => { c with addrs := addrs }) (funext (fun k => ?_))
  rw [if_pos rfl]
  by_cases low : k ≤ NDIRECT
  · exact if_pos (all k low)
  · rw [fits.noMore k (Nat.not_le.mp low), ite_self]

end Loops

/-! ## The volume afterwards -/

/-- The volume with an inode that has no blocks. -/
def Volume.emptied (v : Volume) (i : Nat) (block : Nat -> Block) : Volume :=
  ⟨Function.update v.inode i ((v.inode i).without fun _ => true), block⟩

/-- The inode has been emptied, here and on the disk. -/
structure Emptied (sb : Superblock) (ends : Nat) (v : Volume) (d : Device BSIZE Kernel) (ip : Nat)
    (w : Volume) (e : Device BSIZE Kernel) : Prop where
  secure : Secure sb ends w ∅ e
  slots : forall s, w.slot s = v.without (d.mem.icache ip).inum (fun _ => true) s
  contents : forall j bn, j ≠ (d.mem.icache ip).inum -> w.content j bn = v.content j bn
  inodes : forall j, j ≠ (d.mem.icache ip).inum -> w.inode j = v.inode j
  head : w.inode (d.mem.icache ip).inum =
    { v.inode (d.mem.icache ip).inum with addrs := fun _ => 0, logical_size := 0 }
  mem : Exists fun c => e.mem = d.mem.adjust ip (Inode.withCopy fun _ => c)
  saved : forall j, j ≠ (d.mem.icache ip).inum ->
    (sb.volume e.disk).inode j = (sb.volume d.disk).inode j
  saves : Saves sb w (d.mem.icache ip).inum e
  complete : Ledger.Complete sb.dataStart ends v.slot (marked sb d.disk) ->
    Ledger.Complete sb.dataStart ends w.slot (marked sb e.disk)

section Emptying

variable {sb : Superblock} {ends : Nat} {escape : Stop FsPanic -> Prop} {v w : Volume}
  {d e : Device BSIZE Kernel} {ip i ind : Nat}

open BlockProgram

theorem Dinode.Fits.without {c : Dinode} (fits : c.Fits) (gone : Nat -> Bool) :
    (c.without gone).Fits := by
  refine ⟨fits.type, fits.major, fits.minor, fits.nlink, fits.size, fun j => ?_, fun j beyond => ?_⟩
  · show (if gone j = true then 0 else c.addrs j) < 2 ^ 32
    split
    · exact Nat.two_pow_pos 32
    · exact fits.addrs j
  · show (if gone j = true then 0 else c.addrs j) = 0
    rw [fits.noMore j beyond, ite_self]

theorem Volume.inode_emptied_self {block : Nat -> Block} :
    (v.emptied i block).inode i = (v.inode i).without fun _ => true := Function.update_self _ _ _

theorem Volume.inode_emptied_of_ne {block : Nat -> Block} {j : Nat} (other : j ≠ i) :
    (v.emptied i block).inode j = v.inode j := Function.update_of_ne other _ _

/-- The slots of the volume are what is left. -/
theorem Volume.slot_emptied {block : Nat -> Block}
    (kept : forall s, v.without i (fun _ => true) s ≠ 0 ->
      block (v.without i (fun _ => true) s) = v.block (v.without i (fun _ => true) s))
    (s : Nat × Nat) : (v.emptied i block).slot s = v.without i (fun _ => true) s := by
  by_cases own : s.1 = i
  · have none_ : ((v.emptied i block).inode s.1).addrs = fun _ => 0 := by
      rw [own, Volume.inode_emptied_self]
      rfl
    have gone : v.without i (fun _ => true) s = 0 := if_pos ⟨own, rfl⟩
    rw [gone]
    unfold Volume.slot
    rw [none_]
    split
    · rfl
    · exact if_pos rfl
  · rw [Volume.without_other own]
    refine Volume.slot_congr (congrArg Dinode.addrs (Volume.inode_emptied_of_ne own))
      (fun indirect => ?_)
    have slot : v.without i (fun _ => true) (s.1, NDIRECT) = (v.inode s.1).addrs NDIRECT :=
      (Volume.without_other (s := (s.1, NDIRECT)) own).trans (Volume.slot_direct (Nat.le_refl _))
    have same := kept (s.1, NDIRECT)
    rw [slot] at same
    exact same indirect

/-- When everything has been given back the kernel is in order again. -/
theorem Trimming.secure (trimming : Trimming sb ends v d (d.mem.icache ip).inum (fun _ => true) ∅ e)
    (secure : Secure sb ends v ∅ d) (active : (d.mem.icache ip).Active)
    (trimmed : Trimmed d ip (fun _ => true) e) :
    Secure sb ends (v.emptied (d.mem.icache ip).inum (sb.volume e.disk).block) ∅ e ∧
    (forall s,
      (v.emptied (d.mem.icache ip).inum (sb.volume e.disk).block).slot s =
        v.without (d.mem.icache ip).inum (fun _ => true) s) ∧
    forall j bn, j ≠ (d.mem.icache ip).inum ->
      (v.emptied (d.mem.icache ip).inum (sb.volume e.disk).block).content j bn =
        v.content j bn := by
  generalize isNumber : (d.mem.icache ip).inum = i at trimming
  have owning := secure.owning
  have copy := owning.copy active
  rw [isNumber] at copy
  have kept : forall s, v.without i (fun _ => true) s ≠ 0 -> (sb.volume e.disk).block
      (v.without i (fun _ => true) s) = v.block (v.without i (fun _ => true) s) := by
    intro s left
    have above := (trimming.ledger.stored s left).1
    rw [Superblock.block_above above, owning.block above]
    exact trimming.kept s left
  have slots := @Volume.slot_emptied v i _ kept
  have live : Live sb e (v.emptied i (sb.volume e.disk).block) := by
    have still : Live sb (e.withMem d.mem) ⟨v.inode, (sb.volume e.disk).block⟩ := by
      refine ⟨owning.live.cached, fun j none_ => ?_, rfl⟩
      exact (owning.live.others j none_).trans (congrFun trimming.inodes j).symm
    have changed := @Live.withCopy sb (e.withMem d.mem) e _ ip
        (fun c => c.without fun _ => true) still owning.apart active trimmed rfl
    have same : ((e.withMem d.mem).mem.icache ip).copy = v.inode i := copy.symm
    have number : ((e.withMem d.mem).mem.icache ip).inum = i := isNumber
    rw [same, number] at changed
    exact changed
  have numbers : forall jp, 0 < (e.mem.icache jp).ref -> (e.mem.icache jp).inum < sb.ninodes := by
    intro jp referred
    rw [trimmed, Live.ref_adjust] at referred
    rw [trimmed, Live.inum_adjust]
    exact owning.numbers jp referred
  have fits : forall j, ((v.emptied i (sb.volume e.disk).block).inode j).Fits := by
    intro j
    by_cases here : j = i
    · rw [here, Volume.inode_emptied_self]
      exact (owning.owns.fits i).without _
    · rw [Volume.inode_emptied_of_ne here]
      exact owning.owns.fits j
  have ledger : Ledger () sb.dataStart ends (v.without i fun _ => true) (marked sb e.disk)
      (fun _ => ()) :=
    ⟨trimming.ledger.reserved, trimming.ledger.stored, trimming.ledger.once, fun _ _ _ _ => rfl⟩
  have own : (v.emptied i (sb.volume e.disk).block).Owns sb ends (marked sb e.disk) :=
    ⟨ledger.congr slots (fun _ => rfl) (fun _ _ _ _ => rfl), fits⟩
  have lends : Lends sb ((v.emptied i (sb.volume e.disk).block).Loose sb
      (marked sb e.disk)) ∅ e := by
    refine trimming.lends.weaken (fun s loose => loose.same (fun k => ?_) slots)
    by_cases here : k = i
    · rw [here, Volume.inode_emptied_self]
      rfl
    · rw [Volume.inode_emptied_of_ne here]
  refine ⟨⟨⟨trimming.isSuper, trimming.scans, live, ?_, numbers, own, lends⟩,
    fun b lower upper free => ?_, trimming.roomy,
    fun s inside => absurd inside (Finset.notMem_empty s)⟩, slots, fun j bn other => ?_⟩
  · rw [trimmed]
    exact owning.apart.adjust
  · exact (Superblock.block_above lower).trans (trimming.ledger.blank b lower upper free)
  · have same : v.without i (fun _ => true) (j, Volume.place bn) = v.slot (j, Volume.place bn) :=
      Volume.without_other other
    refine Volume.content_congr ((slots _).trans same) (fun stored => ?_)
    have blocks := kept (j, Volume.place bn)
    rw [same] at blocks
    exact blocks stored

/-- The end of `itrunc`, when all blocks have been given back. -/
theorem Secure.emptied_wp (secure : Secure sb ends v ∅ d) (active : (d.mem.icache ip).Active)
    (trimming : Trimming sb ends v d (d.mem.icache ip).inum (fun _ => true) ∅ e)
    (trimmed : Trimmed d ip (fun _ => true) e) : (do
      setInode ip (Inode.withCopy fun c => { c with logical_size := 0 })
      iupdate ip : Fs Unit).wp (withRoom sb ends)
        (fun _ f => Exists fun w => Emptied sb ends v d ip w f) escape e := by
  rcases trimming.secure secure active trimmed with ⟨after, slots, contents⟩
  have number : (e.mem.icache ip).inum = (d.mem.icache ip).inum := by
    rw [trimmed]
    exact Live.inum_adjust ip
  have activeE : (e.mem.icache ip).Active := by
    rw [trimmed]
    exact (Live.active_adjust ip).mpr active
  have resized := after.resize activeE (Nat.two_pow_pos 32)
  refine wp_bind.mpr (wp_putMem ?_)
  refine wp_mono (resized.secure.iupdate_wp (resized.active activeE)) ?_ (fun _ stopped => stopped)
  rintro _ f ⟨last, saves, mem⟩
  have copy := after.owning.copy activeE
  have numberF := resized.inum.trans number
  rw [number] at copy
  rw [numberF] at saves
  generalize isBase : v.emptied (d.mem.icache ip).inum (sb.volume e.disk).block = u at *
  have head : u.inode (d.mem.icache ip).inum = (v.inode (d.mem.icache ip).inum).without
      fun _ => true := by
    rw [← isBase]
    exact Volume.inode_emptied_self
  have addrs : ({ (e.mem.icache ip).copy with logical_size := 0 } : Dinode).addrs =
      (u.inode (e.mem.icache ip).inum).addrs := by
    rw [number, copy]
  have again := Volume.slot_setInode_addrs addrs
  refine ⟨_, last.secure, fun s => (again s).trans (slots s),
    fun j bn other => (Volume.content_setInode_addrs addrs j bn).trans (contents j bn other),
    fun j other => ?_, ?_, ?_, fun j other => ?_, saves, fun complete b lower upper inUse => ?_⟩
  · rw [Volume.inode_setInode_of_ne _ (by rw [number]; exact other), ← isBase]
    exact Volume.inode_emptied_of_ne other
  · rw [number, Volume.inode_setInode_self, ← copy, head]
    rfl
  · rcases resized.mem with ⟨c, same⟩
    refine ⟨c, ?_⟩
    rw [mem, same, trimmed, Kernel.adjust_adjust]
    rfl
  · rw [last.saved j (by rw [numberF]; exact other)]
    exact congrFun trimming.inodes j
  · rcases last.touched.fresh b inUse with before | ⟨_, s, same⟩
    · rcases trimming.complete complete b lower upper before with ⟨s, same⟩
      exact ⟨s, ((again s).trans (slots s)).trans same⟩
    · exact ⟨s, same⟩

/-- The same when all addresses of the copy are gone. -/
theorem Secure.finish_wp {gone late : Nat -> Bool}
    (secure : Secure sb ends v ∅ d) (active : (d.mem.icache ip).Active)
    (trimming : Trimming sb ends v d (d.mem.icache ip).inum gone ∅ e) (slots : v.without
      (d.mem.icache ip).inum (fun _ => true) = v.without (d.mem.icache ip).inum gone)
    (trimmed : Trimmed d ip late e) (all : forall k, k ≤ NDIRECT -> late k = true) : (do
      setInode ip (Inode.withCopy fun c => { c with logical_size := 0 })
      iupdate ip : Fs Unit).wp (withRoom sb ends)
        (fun _ f => Exists fun w => Emptied sb ends v d ip w f) escape e := by
  have fits : (d.mem.icache ip).copy.Fits := by
    rw [← secure.owning.copy active]
    exact secure.owning.owns.fits _
  refine secure.emptied_wp active (trimming.congr slots) ?_
  unfold Trimmed at trimmed ⊢
  rw [trimmed]
  refine Kernel.adjust_congr ?_
  show Inode.withCopy _ _ = Inode.withCopy _ _
  unfold Inode.withCopy
  dsimp only
  rw [Dinode.without_all fits all]

/-- Without an indirect block, the direct blocks are all. -/
theorem Volume.without_direct (isIndirect : (v.inode i).addrs NDIRECT = 0) :
    v.without i (fun _ => true) = v.without i (fun k => decide (k < NDIRECT)) := by
  refine Volume.without_all (fun k => ?_)
  by_cases direct : k < NDIRECT
  · exact Or.inl (decide_eq_true direct)
  · by_cases entry : k = NDIRECT
    · rw [entry]
      exact Or.inr ((Volume.slot_direct (Nat.le_refl _)).trans isIndirect)
    · have shift : k = NDIRECT + 1 + (k - (NDIRECT + 1)) := by omega
      rw [shift]
      exact Or.inr (Volume.slot_entry_empty isIndirect _)

/-- The direct blocks, the entries and the indirect block are all. -/
theorem Volume.without_entries :
    v.without i (fun _ => true) =
      v.without i (fun k => decide (k = NDIRECT) || entriesGone NINDIRECT k) := by
  refine Volume.without_all (fun k => ?_)
  by_cases low : k ≤ MAXFILE
  · refine Or.inl ?_
    unfold entriesGone
    rw [← Bool.decide_or]
    refine decide_eq_true ?_
    simp only [MAXFILE] at low
    omega
  · exact Or.inr (Volume.slot_beyond (Nat.not_le.mp low))

/-- The blocks of the entries are given back, and then the indirect block. -/
theorem Trimming.freeIndirect_wp {post : Unit -> Device BSIZE Kernel -> Prop}
    {next : Fs Unit} (secure : Secure sb ends v ∅ d)
    (trimming : Trimming sb ends v d i (fun k => decide (k < NDIRECT)) ∅ e)
    (isIndirect : (v.inode i).addrs NDIRECT = ind) (nonnull : ind ≠ 0) (holds : forall g,
      Trimming sb ends v d i (fun k => decide (k = NDIRECT) || entriesGone NINDIRECT k) ∅ g ->
      g.mem = e.mem -> next.wp (withRoom sb ends) post escape g) : (do
      bread ind
      let a <- look ind
      freeEntries a NINDIRECT 0
      brelse ind
      bfree ind
      next : Fs Unit).wp (withRoom sb ends) post escape e := by
  have inSlot : v.slot (i, NDIRECT) = ind := (Volume.slot_direct (Nat.le_refl _)).trans isIndirect
  have left : v.without i (fun k => decide (k < NDIRECT)) (i, NDIRECT) = ind :=
    (Volume.without_left (decide_eq_false (Nat.lt_irrefl NDIRECT))).trans inSlot
  have block := trimming.kept (i, NDIRECT) (by rw [left]; exact nonnull)
  have above := (trimming.ledger.stored (i, NDIRECT) (by rw [left]; exact nonnull)).1
  rw [left] at block above
  have clean : ¬ Loose sb (fun k => (v.inode k).type) (v.without i (fun k => decide (k < NDIRECT)))
      (marked sb e.disk) ind := fun loose => (loose.2.2 (i, NDIRECT) left).2 rfl
  have resting := trimming.lends.resting (Finset.notMem_empty ind) clean
  have space : e.busy < (withRoom sb ends).capacity := by
    rw [trimming.lends.count]
    exact (by decide : 0 < NBUF)
  refine wp_bind.mpr (wp_bread resting space ?_)
  refine wp_bind.mpr (wp_look Device.held_hold_self ?_)
  have lent := @Lends.borrow _ _ _ _ _ (e.disk ind) trimming.lends (Finset.notMem_empty ind) above
  have only : insert ind (∅ : Finset Nat) = {ind} := insert_empty_eq ind
  rw [only] at lent
  have begins : (fun k => decide (k < NDIRECT)) = entriesGone 0 := by
    refine funext (fun k => decide_eq_decide.mpr ?_)
    omega
  have held := trimming.still (f := e.hold ind (e.disk ind)) rfl lent
  rw [begins] at held
  have words : forall k, v.slot (i, NDIRECT + 1 + k) = (e.disk ind).word k := by
    intro k
    rw [Volume.slot_entry (by rw [isIndirect]; exact nonnull), isIndirect,
      secure.owning.block above, block]
  -- No entry is the indirect block itself, which is needed to the end.
  have other : forall k, (e.disk ind).word k ≠ 0 -> (e.disk ind).word k ≠ ind := by
    intro k entry same
    rw [← words] at entry same
    have equal := (Prod.mk.inj (secure.sound.ledger.once _ _ entry (same.trans inSlot.symm))).2
    omega
  refine wp_seq (freeEntries_wp words other NINDIRECT held) ?_
  rintro _ f ⟨entries, mem, stillHeld⟩
  rw [Nat.zero_add] at entries
  have stays : entriesGone NINDIRECT NDIRECT = false := decide_eq_false (by omega)
  have leftToo : v.without i (entriesGone NINDIRECT) (i, NDIRECT) = ind :=
    (Volume.without_left stays).trans inSlot
  have blockToo := entries.kept (i, NDIRECT) (by rw [leftToo]; exact nonnull)
  rw [leftToo, ← block] at blockToo
  have same : f.held ind = some (f.disk ind) := by
    rw [stillHeld, blockToo]
    exact Device.held_hold_self
  refine wp_bind.mpr (wp_brelse same ?_)
  have lends := entries.lends.giveBack (Finset.mem_singleton_self ind) (Or.inr same)
  rw [Finset.erase_singleton] at lends
  refine wp_seq ((entries.still (f := f.release ind) rfl lends).bfree_wp stays inSlot nonnull
    (fun _ => rfl) (Finset.notMem_empty ind) (Nat.zero_le 3)) ?_
  rintro _ g ⟨isFreed, trims⟩
  refine holds g trims ?_
  rw [isFreed]
  exact mem

/-- `itrunc` empties the inode. -/
theorem Secure.itrunc_wp (secure : Secure sb ends v ∅ d) (active : (d.mem.icache ip).Active) :
    (itrunc ip).wp (withRoom sb ends) (fun _ e => Exists fun w => Emptied sb ends v d ip w e)
      escape d := by
  have copy := secure.owning.copy active
  have none_ : (fun k => decide (k < 0)) = fun _ => false :=
    funext (fun k => decide_eq_false (Nat.not_lt_zero k))
  have begin_ : Trimmed d ip (fun k => decide (k < 0)) d := by
    rw [none_]
    exact (Kernel.adjust_same rfl).symm
  have start := Trimming.start secure (d.mem.icache ip).inum
  rw [← none_] at start
  unfold itrunc
  refine wp_seq (freeDirect_wp copy NDIRECT (by omega) start begin_) ?_
  rintro _ e ⟨trimming, trimmed⟩
  rw [Nat.zero_add] at trimming trimmed
  have addr := trimmed.addrs NDIRECT
  rw [decide_eq_false (Nat.lt_irrefl NDIRECT), if_neg Bool.false_ne_true, ← copy] at addr
  refine wp_bind.mpr (wp_getMem ?_)
  rw [addr]
  have last : forall k, k ≤ NDIRECT -> (decide (k = NDIRECT) || decide (k < NDIRECT)) = true := by
    intro k low
    rw [← Bool.decide_or]
    exact decide_eq_true (by omega)
  generalize isIndirect : (v.inode (d.mem.icache ip).inum).addrs NDIRECT = ind at addr
  by_cases empty : ind = 0
  · rw [if_neg (fun nonnull => nonnull empty)]
    rw [empty] at isIndirect
    exact secure.finish_wp active trimming (Volume.without_direct isIndirect)
      (trimmed.skip (copy ▸ isIndirect) (fun _ => rfl)) last
  · rw [if_pos empty]
    refine trimming.freeIndirect_wp secure isIndirect empty (fun g trims mem => ?_)
    refine wp_bind.mpr (wp_putMem ?_)
    exact secure.finish_wp active (trims.still rfl (trims.lends.withMem _)) Volume.without_entries
      (trimmed.clear mem (fun _ => rfl)) last

end Emptying

end TripleFs
end OsProjects
