import OsProjects.TripleFs.FileCalls
import OsProjects.TripleFs.LiveVolume

namespace OsProjects
namespace TripleFs

open Machine

/-!
# The two maps from logical blocks to blocks

`mbmap` repeats the code of `bmap` for three copies.  When the first copy of a logical
block is there, its answer for the copy `j` is the one of `bmap` for the block
`3k + j`, and so is everything that it leaves behind.

A slot that is filled is never looked at again by the allocator, so later calls give
the same answer, and since no two slots store the same number, different copies have
different answers.
-/

/-- `a` has been stored in the inode in the entry `ip`. -/
def addrStored (d : Device BSIZE Kernel) (ip j a : Nat) (f : Device BSIZE Kernel) :
    Device BSIZE Kernel :=
  f.withMem (d.mem.adjust ip (Inode.withCopy fun c => c.setAddr j a))

/-- `a` has been stored in the indirect block `ind`. -/
def entryStored (d : Device BSIZE Kernel) (ind e a : Nat) (f : Device BSIZE Kernel) :
    Device BSIZE Kernel :=
  f.store ind ((d.disk ind).setWord e a)

section Filling

variable {limits : Limits BSIZE} {sb : Superblock} {ends : Nat} {escape : Stop FsPanic -> Prop}
  {v w : Volume} {lent : Finset Nat} {d e f : Device BSIZE Kernel} {ip j k a bn ind : Nat}

open BlockProgram

theorem Kernel.Apart.adjust {change : Dinode -> Dinode} {kernel : Kernel} (apart : kernel.Apart) :
    (kernel.adjust ip (Inode.withCopy change)).Apart := by
  intro i j
  rw [Live.ref_adjust, Live.ref_adjust, Live.inum_adjust, Live.inum_adjust]
  exact apart i j

/-- What is in no slot of an inode may be stored there. -/
theorem stays_update {slots : Nat × Nat -> Nat} {t : Nat × Nat} (empty : slots t = 0)
    (s : Nat × Nat) (stored : slots s ≠ 0) : Function.update slots t a s = slots s := by
  refine Function.update_of_ne (fun here => ?_) _ _
  rw [here] at stored
  exact stored empty

/-- What is there only now has been stored there. -/
theorem new_update {slots : Nat × Nat -> Nat} {t s : Nat × Nat} (none_ : slots s = 0)
    (new : Function.update slots t a s ≠ 0) : Function.update slots t a s = a := by
  by_cases here : s = t
  · rw [here, Function.update_self]
  · rw [Function.update_of_ne here] at new
    exact absurd none_ new

namespace Owning

theorem terms (owning : Owning sb ends v lent d) (space : lent.card + 3 < limits.capacity) :
    Terms limits sb ends escape (fun _ _ => False) :=
  ⟨by omega, owning.scans, owning.ends_le, fun _ _ none_ => none_.elim,
    fun _ _ _ _ _ none_ _ => none_⟩

/-- A block has been taken for an empty slot of the inode. -/
theorem storeAddr (owning : Owning sb ends v lent d) (active : (d.mem.icache ip).Active)
    (below : j ≤ NDIRECT) (empty : (d.mem.icache ip).copy.addrs j = 0)
    (fresh : Fresh limits sb ends d f a) (zeros : j = NDIRECT -> v.block a = Bytes.fill 0) :
    Owning sb ends
      (v.setInode (d.mem.icache ip).inum ((v.inode (d.mem.icache ip).inum).setAddr j a)) lent
      (addrStored d ip j a f) ∧
    forall s,
      (v.setInode (d.mem.icache ip).inum ((v.inode (d.mem.icache ip).inum).setAddr j a)).slot s =
        Function.update v.slot ((d.mem.icache ip).inum, j) a s := by
  have small : a < 2 ^ 32 := Nat.lt_of_lt_of_le fresh.upper owning.ends_le
  have scans : a < scanned sb := Nat.lt_of_lt_of_le fresh.upper owning.scans
  have copy := owning.copy active
  have disk : (addrStored d ip j a f).disk = markBlock sb d.disk a := by
    rw [fresh.taken]
    rfl
  have volume : sb.volume (addrStored d ip j a f).disk = sb.volume d.disk := by
    rw [disk, volume_markBlock scans]
  have sets : forall c, marked sb (addrStored d ip j a f).disk c =
      (decide (c = a) || marked sb d.disk c) := by
    rw [disk]
    exact marked_markBlock scans
  have emptyToo : (v.inode (d.mem.icache ip).inum).addrs j = 0 := by
    rw [copy]
    exact empty
  have filled := owning.owns.fillAddr below emptyToo fresh.lower fresh.upper small
      fresh.free zeros sets
  have live := @Live.withCopy sb d
      (addrStored d ip j a f) v ip _ owning.live owning.apart active rfl volume
  rw [← copy] at live
  refine ⟨⟨?_, owning.scans, live, owning.apart.adjust, fun jp referred => ?_, filled.1, ?_⟩,
    filled.2⟩
  · rw [disk, superblock_markBlock scans]
    exact owning.isSuper
  · have numbered := owning.numbers jp
    rw [← @Live.ref_adjust ip d.mem (fun c => c.setAddr j a) jp,
      ← @Live.inum_adjust ip d.mem (fun c => c.setAddr j a) jp] at numbered
    exact numbered referred
  · have lends : Lends sb (v.Loose sb (marked sb d.disk)) lent (addrStored d ip j a f) := by
      rw [addrStored, fresh.taken]
      exact owning.lends.store.withMem _
    refine lends.weaken (fun s loose => loose.filled (fun c inUse => ?_) (fun i => ?_)
      (fun t stored => ?_) (fun t none_ new => ?_))
    · rw [sets, inUse, Bool.or_true]
    · by_cases here : i = (d.mem.icache ip).inum
      · rw [here, Volume.inode_setInode_self]
        rfl
      · rw [Volume.inode_setInode_of_ne _ here]
    · rw [filled.2]
      exact stays_update ((Volume.slot_direct below).trans emptyToo) t stored
    · rw [filled.2] at new ⊢
      rw [new_update none_ new]
      exact fresh.free

/-- A block has been taken for an empty entry of the indirect block. -/
theorem storeEntry (owning : Owning sb ends v lent d) (active : (d.mem.icache ip).Active)
    (indirect : (d.mem.icache ip).copy.addrs NDIRECT = ind) (nonnull : ind ≠ 0)
    (below : k < NINDIRECT) (empty : (d.disk ind).word k = 0) (fresh : Fresh limits sb ends d f a) :
    Owning sb ends (v.setBlock ind ((v.block ind).setWord k a)) lent (entryStored d ind k a f) ∧
    forall s,
      (v.setBlock ind ((v.block ind).setWord k a)).slot s =
        Function.update v.slot ((d.mem.icache ip).inum, NDIRECT + 1 + k) a s := by
  have small : a < 2 ^ 32 := Nat.lt_of_lt_of_le fresh.upper owning.ends_le
  have scans : a < scanned sb := Nat.lt_of_lt_of_le fresh.upper owning.scans
  have isIndirect : (v.inode (d.mem.icache ip).inum).addrs NDIRECT = ind := by
    rw [owning.copy active]
    exact indirect
  have above := (owning.owns.indirect_above isIndirect nonnull).1
  have block := owning.block above
  have emptySlot : v.slot ((d.mem.icache ip).inum, NDIRECT + 1 + k) = 0 := by
    rw [Volume.slot_entry (by rw [isIndirect]; exact nonnull), isIndirect, block]
    exact empty
  have disk : (entryStored d ind k a f).disk = Function.update (markBlock sb d.disk a) ind
      ((d.disk ind).setWord k a) := by
    rw [entryStored, fresh.taken]
    rfl
  have volume : sb.volume (entryStored d ind k a f).disk = (sb.volume d.disk).setBlock ind
      ((v.block ind).setWord k a) := by
    rw [disk, block, Superblock.volume_setBlock above, volume_markBlock scans]
  have sets : forall c, marked sb (entryStored d ind k a f).disk c =
      (decide (c = a) || marked sb d.disk c) := by
    intro c
    rw [disk, marked_other (Or.inr above), marked_markBlock scans]
  have mem : (entryStored d ind k a f).mem = d.mem := by
    rw [entryStored, fresh.taken]
    rfl
  have filled := owning.owns.fillEntry isIndirect nonnull below fresh.lower fresh.upper small
      fresh.free sets
  refine ⟨⟨?_, owning.scans, owning.live.setBlock mem volume, ?_, ?_, filled.1, ?_⟩, filled.2⟩
  · have low : 1 ≠ ind := by
      have large := dataStart_large sb
      omega
    rw [disk, Function.update_of_ne low, superblock_markBlock scans]
    exact owning.isSuper
  · rw [mem]
    exact owning.apart
  · rw [mem]
    exact owning.numbers
  · have lends : Lends sb (v.Loose sb (marked sb d.disk)) lent (entryStored d ind k a f) := by
      rw [entryStored, fresh.taken]
      exact owning.lends.store.store
    refine lends.weaken (fun s loose => loose.filled (fun c inUse => ?_) (fun _ => rfl)
      (fun t stored => ?_) (fun t none_ new => ?_))
    · rw [sets, inUse, Bool.or_true]
    · rw [filled.2]
      exact stays_update emptySlot t stored
    · rw [filled.2] at new ⊢
      rw [new_update none_ new]
      exact fresh.free

/-- `ensureAddr` returns what is in the slot, or takes a free block for it. -/
theorem ensureAddr_wp (owning : Owning sb ends v lent d) (space : lent.card + 3 < limits.capacity)
    (ample : Ample sb ends escape (marked sb d.disk)) (below : j ≤ NDIRECT) :
    (ensureAddr ip j).wp limits
      (fun a e =>
        ((d.mem.icache ip).copy.addrs j = a ∧ a ≠ 0 ∧ e = d) ∨
        ((d.mem.icache ip).copy.addrs j = 0 ∧
         Exists fun f => Fresh limits sb ends d f a ∧ e = addrStored d ip j a f))
      escape d := by
  have count := owning.lends.count
  unfold ensureAddr
  refine wp_bind.mpr (wp_getMem ?_)
  rw [if_neg (Nat.not_lt.mpr below)]
  by_cases empty : (d.mem.icache ip).copy.addrs j = 0
  · rw [if_pos empty]
    refine wp_seq (balloc_fresh (owning.terms space) owning.isSuper
      (fun sector low => owning.resting_low low) (by omega) owning.owns.ledger.reserved ample) ?_
    rintro a f fresh
    refine wp_bind.mpr (wp_putMem ?_)
    have mem : f.mem = d.mem := by
      rw [fresh.taken]
      rfl
    refine Or.inr ⟨empty, f, fresh, ?_⟩
    rw [addrStored, mem]
  · rw [if_neg empty]
    exact Or.inl ⟨rfl, empty, rfl⟩

/-- `ensureEntry` does the same for an entry of the indirect block. -/
theorem ensureEntry_wp (owning : Owning sb ends v lent d) (space : lent.card + 3 < limits.capacity)
    (ample : Ample sb ends escape (marked sb d.disk)) {i : Nat}
    (indirect : (v.inode i).addrs NDIRECT = ind) (nonnull : ind ≠ 0) (out : ind ∉ lent)
    (below : k < NINDIRECT) :
    (ensureEntry ind k).wp limits
      (fun a e =>
        ((d.disk ind).word k = a ∧ a ≠ 0 ∧ e = d) ∨
        ((d.disk ind).word k = 0 ∧
         (Exists fun f => Fresh limits sb ends d f a ∧ e = entryStored d ind k a f) ∧
         limits.room e.disk))
      escape d := by
  have count := owning.lends.count
  have above := (owning.owns.indirect_above indirect nonnull).1
  have resting := owning.resting_indirect indirect out
  unfold ensureEntry
  refine wp_bind.mpr (wp_bread resting (by omega) ?_)
  refine wp_bind.mpr (wp_look Device.held_hold_self ?_)
  rw [if_neg (Nat.not_le.mpr below)]
  by_cases empty : (d.disk ind).word k = 0
  · rw [if_pos empty]
    have others : forall sector, sector < sb.dataStart ->
        (d.hold ind (d.disk ind)).Resting sector :=
      fun sector low => (owning.resting_low low).hold (by omega)
    refine wp_seq (balloc_fresh (owning.terms space) owning.isSuper others
      (show d.busy + 1 < _ by omega) owning.owns.ledger.reserved ample) ?_
    rintro a e ⟨lower, upper, free, rfl, roomy⟩
    refine wp_bind.mpr (wp_patch Device.held_hold_self ?_)
    refine wp_bind.mpr (wp_bwrite Device.held_change_self fun roomyToo => ?_)
    refine wp_bind.mpr (wp_brelse Device.held_change_self ?_)
    rw [Device.store_hold, Device.disk_hold, Device.release_store_change_hold resting.store]
    exact Or.inr ⟨empty, ⟨_, ⟨lower, upper, free, rfl, roomy⟩, rfl⟩, roomyToo⟩
  · rw [if_neg empty]
    refine wp_bind.mpr (wp_brelse Device.held_hold_self ?_)
    rw [Device.release_hold resting]
    exact Or.inl ⟨rfl, empty, rfl⟩

end Owning

/-- The block `a` is in the slot `t` of the volume `w`, and no other slot has changed. -/
structure Mapped (sb : Superblock) (ends : Nat) (v : Volume) (d : Device BSIZE Kernel) (ip : Nat)
    (t : Nat × Nat) (a : Nat) (w : Volume) (e : Device BSIZE Kernel) : Prop where
  owning : Owning sb ends w ∅ e
  slots : forall s, w.slot s = Function.update v.slot t a s
  nonnull : a ≠ 0
  mem : Exists fun c => e.mem = d.mem.adjust ip (Inode.withCopy fun _ => c)
  still : v.slot t ≠ 0 -> e = d

/-- Nothing has to be stored where something is. -/
theorem Owning.mapped (owning : Owning sb ends v ∅ d) {t : Nat × Nat} (stored : v.slot t = a)
    (nonnull : a ≠ 0) : Mapped sb ends v d ip t a v d := by
  refine ⟨owning, fun s => ?_, nonnull, ⟨_, (Kernel.adjust_same rfl).symm⟩, fun _ => rfl⟩
  rw [← stored, Function.update_eq_self]

/-- `bmap` for a block that needs no new indirect block. -/
theorem Owning.bmap_wp (owning : Owning sb ends v ∅ d) (active : (d.mem.icache ip).Active)
    (space : 3 < limits.capacity) (ample : Ample sb ends escape (marked sb d.disk))
    (below : bn < MAXFILE) (there : NDIRECT ≤ bn -> (d.mem.icache ip).copy.addrs NDIRECT ≠ 0) :
    (bmap ip bn).wp limits
      (fun a e => Exists fun w =>
        Mapped sb ends v d ip ((d.mem.icache ip).inum, Volume.place bn) a w e)
      escape d := by
  have copy := owning.copy active
  have spaceToo : (∅ : Finset Nat).card + 3 < limits.capacity := by
    rw [Finset.card_empty]
    omega
  unfold bmap
  by_cases direct : bn < NDIRECT
  · have slot : v.slot ((d.mem.icache ip).inum, bn) = (d.mem.icache ip).copy.addrs bn := by
      rw [Volume.slot_direct (Nat.le_of_lt direct), copy]
    rw [if_pos direct, place_direct direct]
    refine wp_mono (owning.ensureAddr_wp spaceToo ample (Nat.le_of_lt direct)) ?_
      (fun _ stopped => stopped)
    rintro a e (⟨stored, nonnull, rfl⟩ | ⟨empty, f, fresh, rfl⟩)
    · exact ⟨v, owning.mapped (slot.trans stored) nonnull⟩
    · have large := dataStart_large sb
      have lower := fresh.lower
      have kept := owning.storeAddr active (Nat.le_of_lt direct) empty fresh
          (fun same => absurd direct (by omega))
      exact ⟨_, kept.1, kept.2, by omega, ⟨_, rfl⟩, fun stored => absurd (slot.trans empty) stored⟩
  · have entry : bn - NDIRECT < NINDIRECT := by
      simp only [MAXFILE] at below
      omega
    have present := there (Nat.not_lt.mp direct)
    have indirect : (v.inode (d.mem.icache ip).inum).addrs NDIRECT =
        (d.mem.icache ip).copy.addrs NDIRECT := by rw [copy]
    have slot : v.slot ((d.mem.icache ip).inum, NDIRECT + 1 + (bn - NDIRECT)) =
        (d.disk ((d.mem.icache ip).copy.addrs NDIRECT)).word (bn - NDIRECT) := by
      rw [Volume.slot_entry (by rw [indirect]; exact present), indirect,
        owning.block (owning.owns.indirect_above indirect present).1]
    rw [if_neg direct, if_pos entry, place_entry direct]
    refine wp_bind.mpr (ensureAddr_present (Nat.le_refl _) present ?_)
    refine wp_mono (owning.ensureEntry_wp spaceToo ample indirect present
      (Finset.notMem_empty _) entry) ?_ (fun _ stopped => stopped)
    rintro a e (⟨stored, nonnull, rfl⟩ | ⟨empty, ⟨f, fresh, rfl⟩, _⟩)
    · exact ⟨v, owning.mapped (slot.trans stored) nonnull⟩
    · have large := dataStart_large sb
      have lower := fresh.lower
      have mem : f.mem = d.mem := by
        rw [fresh.taken]
        rfl
      have kept := owning.storeEntry active rfl present entry empty fresh
      exact ⟨_, kept.1, kept.2, by omega, ⟨_, mem.trans (Kernel.adjust_same rfl).symm⟩,
        fun stored => absurd (slot.trans empty) stored⟩

end Filling

/-! ## Calls of the two maps -/

/-- A block of the disk is free. -/
def NotFull (sb : Superblock) (disk : Nat -> Block) : Prop :=
  Exists fun b => b < sb.size ∧ used sb disk b = false

theorem NotFull.roomy {sb : Superblock} {disk : Nat -> Block} (notFull : NotFull sb disk) :
    Roomy sb sb.size (marked sb disk) := by
  rcases notFull with ⟨b, below, free⟩
  have scans := Nat.lt_of_lt_of_le below (size_le_scanned sb)
  exact Or.inl ⟨b, below, (used_of_marked scans).trans free⟩

/-- The call `mbmap(ip, 3k, j)` for a logical block of which the first copy is there. -/
structure MirrorCall (s : Store Kernel) (ip k j : Nat) : Prop where
  inside : k * 3 + 2 < MAXFILE
  copy : j < 3
  allocated : addressOf s.disk (s.mem.icache ip).copy (k * 3) ≠ 0

/-- Calls of `mbmap` one after the other, on a disk that is not full. -/
inductive MirrorRun (sb : Superblock) (ip : Nat) : Store Kernel -> Store Kernel -> Prop
  | refl (s : Store Kernel) : MirrorRun sb ip s s
  | call {s t u : Store Kernel} {k j a : Nat} (made : MirrorCall s ip k j)
      (free : NotFull sb s.disk) (ran : exec (mbmap ip (k * 3) j) s = .done a t)
      (rest : MirrorRun sb ip t u) : MirrorRun sb ip s u

section Calls

variable {sb : Superblock} {s t u : Store Kernel} {v : Volume} {d : Device BSIZE Kernel}
  {ip k j a : Nat}

/-- An address that is there is found without a change. -/
theorem exec_ensureAddr {i : Nat} (below : i ≤ NDIRECT)
    (present : (s.mem.icache ip).copy.addrs i ≠ 0) :
    exec (ensureAddr ip i) s = .done ((s.mem.icache ip).copy.addrs i) s := by
  unfold ensureAddr
  rw [exec_bind]
  show exec (if NDIRECT < i then _ else if (s.mem.icache ip).copy.addrs i = 0 then _ else _) s = _
  rw [if_neg (Nat.not_lt.mpr below), if_neg present]
  rfl

/-- The first copy is there, so `mbmap` does what `bmap` does. -/
theorem MirrorCall.exec (call : MirrorCall s ip k j) :
    exec (mbmap ip (k * 3) j) s = exec (bmap ip (k * 3 + j)) s := by
  rcases call with ⟨inside, copy, allocated⟩
  unfold mbmap bmap
  by_cases direct : k * 3 < NDIRECT
  · have within : k * 3 + j < NDIRECT := by
      simp only [NDIRECT] at direct ⊢
      omega
    rw [addressOf, if_pos direct] at allocated
    rw [if_pos direct, if_pos within, exec_bind, exec_ensureAddr (Nat.le_of_lt direct) allocated]
    show TripleFs.exec (if j = 1 then _ else if j = 2 then _ else _) s = _
    by_cases second : j = 1
    · rw [if_pos second, second]
    · by_cases third : j = 2
      · rw [if_neg second, if_pos third, third]
      · have first : j = 0 := by omega
        rw [if_neg second, if_neg third, first, Nat.add_zero,
          exec_ensureAddr (Nat.le_of_lt direct) allocated]
        rfl
  · have notDirect : ¬ k * 3 + j < NDIRECT := by omega
    have entry : k * 3 - NDIRECT < NINDIRECT ∧ k * 3 + j - NDIRECT < NINDIRECT := by
      simp only [MAXFILE] at inside
      omega
    have position : k * 3 - NDIRECT + j = k * 3 + j - NDIRECT := by omega
    have small : j ≤ 2 := by omega
    rw [if_neg direct, if_neg notDirect, if_pos entry.1, if_pos entry.2, position]
    simp only [if_pos small]

end Calls

/-- A store in which no buffer is held and the entry `ip` has an inode of a live volume that
satisfies block ownership. -/
structure OwningStore (sb : Superblock) (ip : Nat) (s : Store Kernel) (v : Volume)
    (d : Device BSIZE Kernel) : Prop where
  shows : Shows s d
  owning : Owning sb sb.size v ∅ d
  active : (d.mem.icache ip).Active

namespace OwningStore

variable {sb : Superblock} {s t u : Store Kernel} {v w : Volume} {d e : Device BSIZE Kernel}
  {ip k j a bn : Nat}

open BlockProgram

theorem address (store : OwningStore sb ip s v d) (bn : Nat) :
    addressOf s.disk (s.mem.icache ip).copy bn =
      v.slot ((d.mem.icache ip).inum, Volume.place bn) := by
  rw [store.shows.disk, store.shows.mem]
  exact store.owning.live.addressOf store.owning.owns store.active bn

/-- A block that is there is found again, and nothing changes. -/
theorem found (store : OwningStore sb ip s v d) (call : MirrorCall s ip k j) (nonnull : a ≠ 0)
    (stored : v.slot ((d.mem.icache ip).inum, Volume.place (k * 3 + j)) = a) :
    Exists fun t => exec (mbmap ip (k * 3) j) s = .done a t ∧ t.mem = s.mem ∧ t.disk = s.disk := by
  have address := store.owning.live.addressOf store.owning.owns store.active (k * 3 + j)
  rw [stored] at address
  have resting := store.owning.resting_indirect
      (congrArg (Dinode.addrs · NDIRECT) (store.owning.copy store.active)) (Finset.notMem_empty _)
  have idle : d.busy < NBUF := by
    rw [store.owning.lends.count]
    decide
  have below : k * 3 + j < MAXFILE :=
    Nat.lt_of_le_of_lt (Nat.add_le_add_left (Nat.le_of_lt_succ call.copy) _) call.inside
  have runs := @bmap_present ⟨NBUF, fun _ => True⟩ (fun _ => False) d ip (fun b e => b = a ∧ e = d)
      (k * 3 + j) resting idle below (by rw [address]; exact nonnull) ⟨address, rfl⟩
  rcases Program.exists_done_of_wp (exec_sound store.shows (throughout_true _ _) runs) with
    ⟨b, t, ended, e, shown, rfl, rfl⟩
  refine ⟨t, call.exec.trans ended, ?_, ?_⟩
  · rw [shown.mem, store.shows.mem]
  · rw [shown.disk, store.shows.disk]

/-- One call on a disk that is not full. -/
theorem call (store : OwningStore sb ip s v d) (call : MirrorCall s ip k j)
    (free : NotFull sb s.disk) :
    Exists fun a => Exists fun t => Exists fun w => Exists fun e =>
      exec (mbmap ip (k * 3) j) s = .done a t ∧ OwningStore sb ip t w e ∧ a ≠ 0 ∧
      (e.mem.icache ip).inum = (d.mem.icache ip).inum ∧
      w.slot ((d.mem.icache ip).inum, Volume.place (k * 3 + j)) = a ∧
      forall x, v.slot x ≠ 0 -> w.slot x = v.slot x := by
  have ample : Ample sb sb.size (fun _ => False) (marked sb d.disk) := by
    rcases free with ⟨b, inside, open_⟩
    refine Or.inl ⟨b, inside, ?_⟩
    rw [used_of_marked (Nat.lt_of_lt_of_le inside (size_le_scanned sb)), ← store.shows.disk]
    exact open_
  have below : k * 3 + j < MAXFILE :=
    Nat.lt_of_le_of_lt (Nat.add_le_add_left (Nat.le_of_lt_succ call.copy) _) call.inside
  have there : NDIRECT ≤ k * 3 + j -> (d.mem.icache ip).copy.addrs NDIRECT ≠ 0 := by
    intro beyond none_
    have allocated := call.allocated
    have notDirect : ¬ k * 3 < NDIRECT := by
      have copy := call.copy
      simp only [NDIRECT] at beyond ⊢
      omega
    rw [store.shows.mem, addressOf, if_neg notDirect, if_pos none_] at allocated
    exact allocated rfl
  have runs := @Owning.bmap_wp ⟨NBUF, fun _ => True⟩ sb sb.size (fun _ => False) v d ip _
      store.owning store.active (show 3 < NBUF by decide) ample below there
  rcases Program.exists_done_of_wp (exec_sound store.shows (throughout_true _ _) runs) with
    ⟨a, t, ended, e, shown, w, mapped⟩
  have mem : e.mem.icache ip = { d.mem.icache ip with copy := (e.mem.icache ip).copy } := by
    rcases mapped.mem with ⟨c, same⟩
    rw [same, Kernel.adjust_self]
    rfl
  have active : (e.mem.icache ip).Active := by
    rw [mem]
    exact store.active
  refine ⟨a, t, w, e, call.exec.trans ended, ⟨shown, mapped.owning, active⟩, mapped.nonnull, ?_, ?_,
    fun x stored => ?_⟩
  · rw [mem]
  · rw [mapped.slots, Function.update_self]
  · by_cases here : x = ((d.mem.icache ip).inum, Volume.place (k * 3 + j))
    · rw [here] at stored ⊢
      have same := mapped.still stored
      have equal := mapped.owning.live.addressOf mapped.owning.owns active (k * 3 + j)
      rw [same, store.owning.live.addressOf store.owning.owns store.active] at equal
      exact equal.symm
    · rw [mapped.slots, Function.update_of_ne here]

/-- What calls leave: the slots that were filled. -/
theorem run (run : MirrorRun sb ip s u) :
    forall {v : Volume} {d : Device BSIZE Kernel}, OwningStore sb ip s v d ->
      Exists fun w => Exists fun e =>
        OwningStore sb ip u w e ∧ (e.mem.icache ip).inum = (d.mem.icache ip).inum ∧
        forall x, v.slot x ≠ 0 -> w.slot x = v.slot x := by
  induction run with
  | refl s => exact fun {v d} store => ⟨v, d, store, rfl, fun _ _ => rfl⟩
  | call made free ran rest ih =>
      intro v d store
      rcases store.call made free with ⟨a, t, w, e, ended, next, _, inum, _, stays⟩
      rw [ended] at ran
      cases ran
      rcases ih next with ⟨x, f, last, inumToo, staysToo⟩
      refine ⟨x, f, last, inumToo.trans inum, fun y stored => ?_⟩
      have same := stays y stored
      exact (staysToo y (by rw [same]; exact stored)).trans same

end OwningStore

/-- `mbmap` for the copy `j` of a logical block is `bmap` for the block `3k + j`.  After any
further calls it gives the same answer without a change, and other copies have other
blocks. -/
theorem mbmap_agrees {sb : Superblock} {s : Store Kernel} {v : Volume} {d : Device BSIZE Kernel}
    {ip k j : Nat} (store : OwningStore sb ip s v d) (call : MirrorCall s ip k j)
    (free : NotFull sb s.disk) :
    Exists fun a => Exists fun t =>
      exec (mbmap ip (k * 3) j) s = .done a t ∧ exec (bmap ip (k * 3 + j)) s = .done a t ∧
      forall u, MirrorRun sb ip t u ->
        (Exists fun after =>
          exec (mbmap ip (k * 3) j) u = .done a after ∧ after.mem = u.mem ∧ after.disk = u.disk) ∧
        forall m i, MirrorCall u ip m i -> NotFull sb u.disk -> (m, i) ≠ (k, j) ->
          Exists fun b => Exists fun after =>
            exec (mbmap ip (m * 3) i) u = .done b after ∧ b ≠ a := by
  rcases store.call call free with ⟨a, t, w, e, ended, next, nonnull, inum, stored, stays⟩
  refine ⟨a, t, ended, call.exec.symm.trans ended, fun u run => ?_⟩
  rcases OwningStore.run run next with ⟨x, f, last, inumToo, staysToo⟩
  have still : x.slot ((f.mem.icache ip).inum, Volume.place (k * 3 + j)) = a := by
    rw [inumToo, inum, staysToo _ (by rw [stored]; exact nonnull), stored]
  have allocated : addressOf u.disk (u.mem.icache ip).copy (k * 3) ≠ 0 := by
    have first := call.allocated
    rw [store.address] at first
    rw [last.address, inumToo, inum]
    have same := stays _ first
    rw [staysToo _ (by rw [same]; exact first), same]
    exact first
  refine ⟨last.found ⟨call.inside, call.copy, allocated⟩ nonnull still,
    fun m i other open_ different => ?_⟩
  rcases last.call other open_ with
    ⟨b, after, y, g, endedToo, final, nonnullToo, inumThree, storedToo, staysThree⟩
  refine ⟨b, after, endedToo, fun same => different ?_⟩
  have there := staysThree _ (by rw [still]; exact nonnull)
  rw [still] at there
  have equal := final.owning.owns.ledger.once _ _ (by rw [there]; exact nonnull)
      (there.trans (same.symm.trans storedToo.symm))
  have position := Volume.place_injective (Prod.mk.inj equal).2
  have copy := call.copy
  have copyToo := other.copy
  exact Prod.ext (by show m = k; omega) (by show i = j; omega)

/-! ## A small disk -/

/-- A disk like the blank one, with other bits for its first eight blocks and with
`content` in all data blocks. -/
def bareDisk (bits : UInt8) (content : Block) (sector : Nat) : Block :=
  if 5 ≤ sector then content
  else if sector = 4 then (Bytes.fill 0 : Block).splice 0 1 (fun _ => bits)
  else blankDisk sector

/-- A file that has at most one block. -/
def bareFile (type size a : Nat) : Dinode :=
  { noBlocks type with logical_size := size, addrs := fun j => if j = 0 then a else 0 }

/-- A kernel that has read the inode 1 and no other. -/
def bareKernel (c : Dinode) : Kernel :=
  ⟨fun ip => if ip = 0 then ⟨1, 1, true, true, c⟩ else ⟨0, 0, false, false, Dinode.blank⟩⟩

def bareVolume (content : Block) (c : Dinode) : Volume :=
  ⟨fun i => if i = 1 then c else Dinode.blank, fun b => if 5 ≤ b then content else Bytes.fill 0⟩

section Bare

variable {bits : UInt8} {content : Block} {taken type size a : Nat}

theorem marked_bare (known : forall b, b < 8 -> bits.toNat.testBit b = decide (b < taken))
    (few : taken ≤ 8) {b : Nat} (low : b < scanned blankSuper) :
    marked blankSuper (bareDisk bits content) b = decide (b < taken) := by
  have small : b < BPB := low
  have place : BBLOCK b blankSuper.ninodes = 4 := by
    have none_ : b / BPB = 0 := Nat.div_eq_of_lt small
    unfold BBLOCK
    rw [none_]
    rfl
  have bitmap : bareDisk bits content 4 = (Bytes.fill 0 : Block).splice 0 1 (fun _ => bits) := rfl
  unfold marked
  rw [decide_eq_true low, Bool.true_and]
  unfold used
  rw [place, Nat.mod_eq_of_lt small, bitmap]
  by_cases first : b / 8 = 0
  · have short : b < 8 := by omega
    have inside : (0 : Nat) < BSIZE := by decide
    unfold bit
    rw [first, Bytes.get_splice _ _ _ _ inside, if_pos (by decide), Nat.mod_eq_of_lt short]
    exact known b short
  · have large : ¬ b < taken := by omega
    have inside : b / 8 < BSIZE := by
      simp only [BPB, BSIZE] at small ⊢
      omega
    unfold bit
    rw [Bytes.get_splice _ _ _ _ inside, if_neg (by omega), Bytes.get_fill 0 inside,
      decide_eq_false large]
    exact Nat.zero_testBit _

theorem volume_bareDisk : blankSuper.volume (bareDisk bits content) =
    ⟨fun _ => Dinode.blank, fun b => if 5 ≤ b then content else Bytes.fill 0⟩ := by
  refine Volume.ext (funext fun i => ?_) (funext fun b => ?_)
  · by_cases below : i < blankSuper.ninodes
    · have small : i < 8 := below
      have place : IBLOCK i = 2 := by
        simp only [IBLOCK, IPB]
        omega
      have sector : bareDisk bits content 2 = Bytes.fill 0 := rfl
      rw [Superblock.inode_below below, place, sector]
      exact getDinode_fill _
    · exact if_neg below
  · have start : blankSuper.dataStart = 5 := rfl
    by_cases above : 5 ≤ b
    · show (if _ ≤ b then _ else _) = if 5 ≤ b then _ else _
      rw [start, if_pos above, if_pos above, bareDisk, if_pos above]
    · show (if _ ≤ b then _ else _) = if 5 ≤ b then _ else _
      rw [start, if_neg above, if_neg above]

theorem slot_bare (s : Nat × Nat) :
    (bareVolume content (bareFile type size a)).slot s = if s = (1, 0) then a else 0 := by
  rcases s with ⟨i, j⟩
  by_cases here : i = 1
  · subst here
    have inode : (bareVolume content (bareFile type size a)).inode 1 = bareFile type size a := rfl
    by_cases direct : j ≤ NDIRECT
    · rw [Volume.slot_direct direct, inode]
      by_cases first : j = 0
      · rw [first]
        rfl
      · have other : ((1 : Nat), j) ≠ (1, 0) := fun same => first (Prod.mk.inj same).2
        rw [if_neg other]
        exact if_neg first
    · have entry : j = NDIRECT + 1 + (j - (NDIRECT + 1)) := by omega
      have other : ((1 : Nat), j) ≠ (1, 0) := by
        intro same
        have zero := (Prod.mk.inj same).2
        omega
      rw [if_neg other, entry, Volume.slot_entry_empty (by rw [inode]; rfl)]
  · have inode : (bareVolume content (bareFile type size a)).inode i = Dinode.blank := if_neg here
    have other : (i, j) ≠ ((1 : Nat), 0) := fun same => here (Prod.mk.inj same).1
    rw [if_neg other]
    unfold Volume.slot
    rw [inode]
    exact ite_self _

/-- Such a disk and the kernel satisfy block ownership. -/
theorem owning_bare (known : forall b, b < 8 -> bits.toNat.testBit b = decide (b < taken))
    (few : 5 ≤ taken ∧ taken ≤ 8) (short : type < 2 ^ 16) (fits : size < 2 ^ 32)
    (stored : a ≠ 0 -> 5 ≤ a ∧ a < taken) :
    Owning blankSuper blankSuper.size (bareVolume content (bareFile type size a)) ∅
      (fresh (bareDisk bits content) (bareKernel (bareFile type size a))) := by
  have bound : taken < scanned blankSuper := Nat.lt_of_le_of_lt few.2 (by decide)
  have only : forall ip, 0 < ((bareKernel (bareFile type size a)).icache ip).ref -> ip = 0 := by
    intro ip referred
    by_contra other
    rw [bareKernel] at referred
    simp only [if_neg other] at referred
    exact absurd referred (Nat.lt_irrefl 0)
  have small : a < 8 := by
    by_cases none_ : a = 0
    · omega
    · have range := stored none_
      omega
  have blank : Dinode.blank.Fits :=
    ⟨by decide, by decide, by decide, by decide, by decide, fun _ => Nat.two_pow_pos 32,
      fun _ _ => rfl⟩
  refine ⟨superblock_blankDisk, size_le_scanned _, ⟨fun ip active => ?_, fun i none_ => ?_, ?_⟩,
    fun ip jp one other _ => ?_, fun ip referred => ?_, ⟨⟨fun b before => ?_, fun s inUse => ?_,
    fun s t inUse same => ?_, fun _ _ _ _ => rfl⟩, fun i => ?_⟩, ?_⟩
  · rw [only ip active.1]
    rfl
  · have other : i ≠ 1 := (none_ 0 ⟨Nat.zero_lt_one, rfl⟩).symm
    rw [show (fresh (bareDisk bits content) (bareKernel (bareFile type size a))).disk =
      bareDisk bits content from rfl, volume_bareDisk]
    exact if_neg other
  · rw [show (fresh (bareDisk bits content) (bareKernel (bareFile type size a))).disk =
      bareDisk bits content from rfl, volume_bareDisk]
    rfl
  · rw [only ip one, only jp other]
  · rw [only ip referred]
    exact (by decide : 1 < 8)
  · have low : b < 5 := before
    exact (marked_bare known few.2 (by omega)).trans (decide_eq_true (by omega))
  · rw [slot_bare] at inUse ⊢
    by_cases here : s = (1, 0)
    · rw [if_pos here] at inUse ⊢
      have range := stored inUse
      have inside : a < 200 := by omega
      exact ⟨range.1, inside, (marked_bare known few.2 (by omega)).trans (decide_eq_true range.2)⟩
    · rw [if_neg here] at inUse
      exact absurd rfl inUse
  · rw [slot_bare] at inUse same
    rw [slot_bare] at same
    by_cases here : s = (1, 0)
    · by_cases there : t = (1, 0)
      · rw [here, there]
      · rw [if_pos here] at inUse
        rw [if_pos here, if_neg there] at same
        exact absurd same inUse
    · rw [if_neg here] at inUse
      exact absurd rfl inUse
  · by_cases here : i = 1
    · rw [here]
      refine ⟨short, Nat.two_pow_pos 16, Nat.two_pow_pos 16, (show 1 < 2 ^ 16 by decide), fits,
        fun j => ?_, fun j beyond => ?_⟩
      · show (if j = 0 then a else 0) < 2 ^ 32
        split
        · exact Nat.lt_trans small (by decide)
        · exact Nat.two_pow_pos 32
      · exact if_neg (by omega)
    · rw [show (bareVolume content (bareFile type size a)).inode i = Dinode.blank from if_neg here]
      exact blank
  · refine ⟨fun s => ?_, rfl, fun s inside => absurd inside (Finset.notMem_empty s), fun _ _ => rfl⟩
    exact iff_of_false (fun held => held rfl) (Finset.notMem_empty s)

end Bare

theorem mbmap_agrees_secondCopy :
    Exists fun a => Exists fun t =>
      exec (mbmap 0 (0 * 3) 1)
        ⟨bareDisk 63 (Bytes.fill 0), binit, bareKernel (bareFile T_MIRRORED 512 5)⟩ =
        .done a t ∧
      exec (bmap 0 (0 * 3 + 1))
        ⟨bareDisk 63 (Bytes.fill 0), binit, bareKernel (bareFile T_MIRRORED 512 5)⟩ =
        .done a t := by
  have known : forall b, b < 8 -> (63 : UInt8).toNat.testBit b = decide (b < 6) := by decide
  have store : OwningStore blankSuper 0 ⟨bareDisk 63 (Bytes.fill 0), binit,
      bareKernel (bareFile T_MIRRORED 512 5)⟩ _ _ :=
    ⟨shows_binit _ _, owning_bare known (by decide) (by decide) (by decide) (by decide),
      by decide, rfl⟩
  have open_ : marked blankSuper (bareDisk 63 (Bytes.fill 0)) 6 = false :=
    (marked_bare known (by decide) (by decide)).trans (by decide)
  rw [used_of_marked (by decide)] at open_
  rcases mbmap_agrees (k := 0) (j := 1) store ⟨by decide, by decide, by decide⟩
    ⟨6, by decide, open_⟩ with ⟨a, t, ended, same, _⟩
  exact ⟨a, t, ended, same⟩

end TripleFs
end OsProjects
