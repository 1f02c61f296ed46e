import OsProjects.TripleFs.InodeUpdates

namespace OsProjects
namespace TripleFs

open Machine

/-!
# Reading and writing keep the kernel in order

A read may take blocks for holes, which changes the live volume but no inode on the disk.
A write copies the inode to the disk.  A directory is written one entry at a time.
-/

section Effects

variable {sb : Superblock} {tidy : Prop} {v w : Volume} {need : Nat -> Prop} {lent : Finset Nat}
  {d e : Device BSIZE Kernel} {ip off n : Nat} {src : Nat -> UInt8}

/-- Work on an inode changes its addresses only. -/
theorem Worked.heads {ends : Nat} (worked : Worked sb ends need v d ip w lent e) (j : Nat) :
    w.inode j = { v.inode j with addrs := (w.inode j).addrs } := by
  by_cases here : j = (d.mem.icache ip).inum
  · have size := worked.size j
    rw [here] at size ⊢
    rw [worked.touched.head, size]
  · rw [worked.touched.inodes j here]

/-- An inode is its head and its direct slots. -/
theorem Volume.inode_eq {i : Nat} (head : w.inode i = { v.inode i with addrs := (w.inode i).addrs })
    (slots : forall m, w.slot (i, m) = v.slot (i, m)) (fits : (v.inode i).Fits)
    (fitsToo : (w.inode i).Fits) : w.inode i = v.inode i := by
  have addrs : (w.inode i).addrs = (v.inode i).addrs := by
    refine funext (fun m => ?_)
    by_cases direct : m ≤ NDIRECT
    · rw [← Volume.slot_direct direct, slots, Volume.slot_direct direct]
    · rw [fits.noMore m (by omega), fitsToo.noMore m (by omega)]
  rw [head, addrs]

/-- The kernel is in order after work on an inode that has not changed a directory. -/
theorem Settled.worked (settled : Settled sb tidy v d)
    (worked : Worked sb sb.size need v d ip w ∅ e) (active : (d.mem.icache ip).Active)
    (contents : (d.mem.icache ip).copy.type = T_DIR ->
      forall bn, w.content (d.mem.icache ip).inum bn = v.content (d.mem.icache ip).inum bn)
    (covered : tidy -> forall m, need m -> v.slot ((d.mem.icache ip).inum, m) ≠ 0) :
    Settled sb tidy w e := by
  have copy := settled.secure.owning.copy active
  have heads := worked.heads
  have behind := worked.behind ⟨fun j => by rw [settled.lags.heads j], settled.lags.addrs⟩
  have type : (w.inode (d.mem.icache ip).inum).type = (d.mem.icache ip).copy.type := by
    rw [heads, copy]
  refine ⟨worked.secure, ⟨fun j => ?_, behind.addrs⟩,
    settled.proper.change worked.touched.inodes worked.touched.elsewhere (fun directory => ?_)
    (fun mirrored => ?_), settled.root, fun isTidy => ?_⟩
  · rw [heads j, worked.inodes]
    exact settled.lags.heads j
  · rw [type] at directory
    refine (settled.proper.listed _ (by rw [copy]; exact directory)).congr (worked.size _)
      (fun x => ?_)
    unfold Volume.byte
    rw [contents directory]
  · rw [type, ← copy] at mirrored
    rw [worked.size]
    exact settled.proper.limits _ mirrored
  · have neat := settled.neat isTidy
    have slots := worked.steady (covered isTidy)
    have inodes : w.inode = v.inode := funext (fun j => Volume.inode_eq (heads j) (fun m =>
        slots (j, m)) (settled.secure.owning.owns.fits j) (worked.secure.owning.owns.fits j))
    refine ⟨?_, fun j x lower upper m small => ?_, ?_, fun j free m => ?_⟩
    · rw [worked.inodes, inodes]
      exact neat.saved
    · rw [inodes] at upper small ⊢
      rw [slots]
      exact neat.whole j x lower upper m small
    · exact worked.touched.complete
        (Nat.lt_of_lt_of_le (by decide) (dataStart_large sb)) neat.complete
    · rw [inodes] at free
      rw [slots]
      exact neat.unused j free m

/-- The kernel is in order after a write that leaves a directory behind. -/
theorem Settled.wrote (settled : Settled sb tidy v d)
    (wrote : Wrote sb sb.size v d ip off n src w e) (active : (d.mem.icache ip).Active)
    (typed : (d.mem.icache ip).copy.type ≠ 0) (within : off ≤ (d.mem.icache ip).copy.logical_size)
    (directory : (d.mem.icache ip).copy.type = T_DIR -> Listed sb w (d.mem.icache ip).inum) :
    Settled sb tidy w e := by
  have copy := settled.secure.owning.copy active
  have touched := wrote.changed.touched
  have type : (w.inode (d.mem.icache ip).inum).type = (d.mem.icache ip).copy.type := by
    rw [touched.type, copy]
  have size := wrote.size
  unfold grownSize at size
  refine ⟨wrote.changed.secure, settled.lags.saves touched.inodes wrote.changed.saved wrote.saves,
    settled.proper.change touched.inodes touched.elsewhere (fun isDirectory =>
    directory (type.symm.trans isDirectory)) (fun mirrored => ?_), settled.root, fun isTidy => ?_⟩
  · rw [type] at mirrored
    have before := settled.proper.limits _ (by rw [copy]; exact mirrored)
    rw [copy] at before
    by_cases grows : 0 < n ∧ (d.mem.icache ip).copy.logical_size < off + n
    · -- The last byte that has been written has three blocks.
      have three : copiesOf (d.mem.icache ip).copy.type = 3 := if_pos mirrored
      have last := wrote.covers (off + n - 1) (by omega) (by omega)
      rw [three] at last
      have below := Volume.lt_of_slot (last 2 (by decide))
      rw [if_pos grows] at size
      rw [size]
      simp only [BSIZE, MAXFILE, NDIRECT, NINDIRECT] at below ⊢
      omega
    · rw [if_neg grows] at size
      rw [size]
      exact before
  · have neat := settled.neat isTidy
    refine ⟨funext (fun j => ?_), fun j x lower upper m small => ?_, ?_, fun j free m => ?_⟩
    · by_cases here : j = (d.mem.icache ip).inum
      · rw [here]
        exact wrote.saves
      · rw [wrote.changed.saved j here, touched.inodes j here, neat.saved]
    · by_cases here : j = (d.mem.icache ip).inum
      · rw [here] at upper small ⊢
        rw [type] at small ⊢
        by_cases old : x < (d.mem.icache ip).copy.logical_size
        · have stored := neat.whole (d.mem.icache ip).inum x lower
              (by rw [copy, Nat.zero_add]; exact old) m (by rw [copy]; exact small)
          rw [copy] at stored
          rw [touched.stays _ stored]
          exact stored
        · refine wrote.covers x (by omega) ?_ m small
          rw [size] at upper
          split at upper <;> omega
      · rw [touched.inodes j here] at upper small ⊢
        have stored := neat.whole j x lower upper m small
        rw [touched.stays _ stored]
        exact stored
    · exact touched.complete (Nat.lt_of_lt_of_le (by decide) (dataStart_large sb)) neat.complete
    · by_cases here : j = (d.mem.icache ip).inum
      · rw [here, type] at free
        exact absurd free typed
      · have empty := touched.inodes j here
        rw [empty] at free
        by_contra stored
        exact here (touched.only (j, m) (neat.unused j free m) stored)

end Effects

/-! ## Reading and writing -/

section Calls

variable {sb : Superblock} {tidy : Prop} {escape : Stop FsPanic -> Prop} {v w : Volume}
  {refs after hold : Nat -> Nat} {locked lockedToo : Finset Nat} {need : Nat -> Prop}
  {d e f : Device BSIZE Kernel} {ip dp off n k : Nat} {name : Nat -> UInt8}

open BlockProgram

namespace Stays

theorem refl (order : InOrder sb tidy refs locked d) : Stays sb tidy refs hold locked d d :=
  ⟨order, Keeps.refl hold _⟩

theorem trans (first : Stays sb tidy refs hold locked d e)
    (second : Stays sb tidy after hold lockedToo e f) : Stays sb tidy after hold lockedToo d f :=
  ⟨second.order, first.keeps.trans second.keeps⟩

theorem less (stays : Stays sb tidy refs (more hold ip) locked d e) :
    Stays sb tidy refs hold locked d e :=
  ⟨stays.order, stays.keeps.less⟩

theorem active (stays : Stays sb tidy refs hold locked d e) (held : 0 < hold ip)
    (referred : 0 < refs ip) (active : (d.mem.icache ip).Active) : (e.mem.icache ip).Active :=
  ⟨stays.order.referred.mpr referred, ((stays.keeps ip held).valid active.2).1⟩

theorem type (stays : Stays sb tidy refs hold locked d e) (held : 0 < hold ip)
    (active : (d.mem.icache ip).Active) :
    (e.mem.icache ip).copy.type = (d.mem.icache ip).copy.type :=
  ((stays.keeps ip held).valid active.2).2

end Stays

theorem Tolerates.full (tolerates : Tolerates escape) : escape (.panic .ballocOutOfBlocks) :=
  tolerates _ (by decide)

/-- The slots that have a block if the disk has no holes. -/
def Present (tidy : Prop) (v : Volume) (i m : Nat) : Prop := tidy -> v.slot (i, m) ≠ 0

/-- Work on an inode that has not changed a directory. -/
theorem InOrder.worked (order : InOrder sb tidy refs locked d) (settled : Settled sb tidy v d)
    (worked : Worked sb sb.size (Present tidy v (d.mem.icache ip).inum) v d ip w ∅ e)
    (active : (d.mem.icache ip).Active)
    (contents : (d.mem.icache ip).copy.type = T_DIR ->
      forall bn, w.content (d.mem.icache ip).inum bn = v.content (d.mem.icache ip).inum bn) :
    Settled sb tidy w e ∧ Stays sb tidy refs refs locked d e := by
  have after := settled.worked worked active contents (fun isTidy _ needed => needed isTidy)
  have stays := worked.toChanged.stays (settled.secure.owning.copy active) active order.counted
  exact ⟨after, ⟨⟨w, after⟩, stays.1⟩, stays.2 refs⟩

/-- `readi` on an inode that is in use. -/
theorem InOrder.readi_wp (order : InOrder sb tidy refs locked d) (tolerates : Tolerates escape)
    (active : (d.mem.icache ip).Active) (devsw : Devsw) (behind : Nat -> Nat -> UInt8) :
    (readi devsw behind ip off n).wp (withRoom sb sb.size)
      (fun _ e => Stays sb tidy refs refs locked d e) escape d := by
  rcases order.settled with ⟨v, settled⟩
  have copy := settled.secure.owning.copy active
  have fits : ReadFits escape (d.mem.icache ip).copy off n := by
    by_cases mirrored : (d.mem.icache ip).copy.type = T_MIRRORED
    · refine Or.inl (Nat.le_trans (Nat.min_le_right _ _) ?_)
      have limits := settled.proper.limits _ (by rw [copy]; exact mirrored)
      rw [copy] at limits
      rw [fileCapacity, if_pos mirrored]
      exact limits
    · exact Or.inr ⟨mirrored, tolerates _ (by decide)⟩
  have asks : Asks (Present tidy v (d.mem.icache ip).inum) 0 (d.mem.icache ip).copy.logical_size
      (copiesOf (d.mem.icache ip).copy.type) := by
    intro x lower upper j small isTidy
    rw [← copy] at upper small ⊢
    exact (settled.neat isTidy).whole _ x lower upper j small
  refine wp_mono (settled.secure.readi_wp tolerates.full active devsw fits asks) ?_
    (fun _ stopped => stopped)
  rintro _ e ⟨w, worked, contents⟩
  exact (order.worked settled worked active
    (fun directory => contents (by rw [directory]; decide) _)).2

/-- What has been written is in order, and so is the cache. -/
theorem InOrder.wrote {src : Nat -> UInt8} (order : InOrder sb tidy refs locked d)
    (settled : Settled sb tidy v d) (wrote : Wrote sb sb.size v d ip off n src w e)
    (active : (d.mem.icache ip).Active) (within : off ≤ (d.mem.icache ip).copy.logical_size)
    (directory : (d.mem.icache ip).copy.type = T_DIR -> Listed sb w (d.mem.icache ip).inum) :
    Stays sb tidy refs refs locked d e := by
  have stays := wrote.changed.stays (settled.secure.owning.copy active) active order.counted
  exact ⟨⟨⟨w, settled.wrote wrote active (order.counted.typed ip active) within directory⟩,
    stays.1⟩, stays.2 refs⟩

/-- `writei` on a file. -/
theorem InOrder.writei_wp {src : List UInt8} (order : InOrder sb tidy refs locked d)
    (tolerates : Tolerates escape) (active : (d.mem.icache ip).Active)
    (plain : (d.mem.icache ip).copy.type ≠ T_DIR)
    (limits : (d.mem.icache ip).copy.type = T_MIRRORED ->
      off ≤ (d.mem.icache ip).copy.logical_size -> off + src.length ≤ 46 * BSIZE)
    (devsw : Devsw) :
    (writei devsw ip src off).wp (withRoom sb sb.size)
      (fun _ e => Stays sb tidy refs refs locked d e) escape d := by
  rcases order.settled with ⟨v, settled⟩
  have fits : WriteStays escape (d.mem.icache ip).copy off src.length := by
    by_cases mirrored : (d.mem.icache ip).copy.type = T_MIRRORED
    · refine Or.inl (fun within => ?_)
      rw [if_pos mirrored]
      exact limits mirrored within
    · exact Or.inr ⟨mirrored, tolerates _ (by decide)⟩
  refine wp_mono (settled.secure.writei_wp tolerates.full active devsw fits) ?_
    (fun _ stopped => stopped)
  rintro _ e (rfl | ⟨within, n, w, _, wrote⟩)
  · exact Stays.refl order
  · exact order.wrote settled wrote active within (fun directory => absurd directory plain)

/-! ## Entries of directories -/

/-- The entry that is written names an inode of the disk. -/
def NamesInode (sb : Superblock) (src : List UInt8) : Prop :=
  src.length = direntSize ∧ forall b k, inumOf (putEntry b k src) k < sb.ninodes

theorem namesInode_dirent {inum : Nat} (below : inum < sb.ninodes) :
    NamesInode sb (dirent inum name) := by
  refine ⟨length_dirent inum name, fun b k => ?_⟩
  rw [inumOf_dirent]
  exact Nat.lt_of_le_of_lt (Nat.mod_le _ _) below

theorem namesInode_cleared (root : ROOTINO < sb.ninodes) :
    NamesInode sb (List.replicate direntSize 0) := by
  refine ⟨List.length_replicate, fun b k => ?_⟩
  rw [inumOf_cleared]
  exact Nat.lt_of_le_of_lt (Nat.zero_le _) root

/-- An entry has been written. -/
theorem Listed.wrote {src : List UInt8} {i : Nat} (listed : Listed sb v i)
    (names : NamesInode sb src)
    (spliced : Spliced v w i (direntSize * k) direntSize (fun x => src.getD x 0))
    (grown : (w.inode i).logical_size = grownSize (v.inode i).logical_size
      (direntSize * k) direntSize) : Listed sb w i := by
  have bytes : w.byte i = putEntry (v.byte i) k src := funext spliced
  refine ⟨fun x behind => ?_, fun j => ?_⟩
  · rw [grown] at behind
    have beyond : (v.inode i).logical_size ≤ x ∧ direntSize * k + direntSize ≤ x := by
      unfold grownSize at behind
      split at behind <;> simp only [direntSize] at * <;> omega
    rw [spliced, if_neg (by omega)]
    exact listed.zeros x beyond.1
  · rw [bytes]
    by_cases here : j = k
    · rw [here]
      exact names.2 _ k
    · rw [(onlyEntry_putEntry src j here).1]
      exact listed.named j

/-- `writei` of one entry of a directory, if it does not fail. -/
theorem InOrder.writeEntry_wp {src : List UInt8} (order : InOrder sb tidy refs locked d)
    (tolerates : Tolerates escape) (active : (d.mem.icache dp).Active)
    (directory : (d.mem.icache dp).copy.type = T_DIR) (names : NamesInode sb src) (devsw : Devsw) :
    (writei devsw dp src (direntSize * k)).wp (withRoom sb sb.size)
      (fun r e => r = (direntSize : Int) -> Stays sb tidy refs refs locked d e) escape d := by
  rcases order.settled with ⟨v, settled⟩
  have copy := settled.secure.owning.copy active
  have plain : (d.mem.icache dp).copy.type ≠ T_MIRRORED := by
    rw [directory]
    decide
  refine wp_mono (settled.secure.writei_wp tolerates.full active devsw
    (Or.inr ⟨plain, tolerates _ (by decide)⟩)) ?_ (fun _ stopped => stopped)
  rintro r e (rfl | ⟨within, n, w, result, wrote⟩) whole
  · exact Stays.refl order
  · have all : n = direntSize := Int.ofNat_inj.mp (result.symm.trans whole)
    rw [all] at wrote
    have listed := settled.proper.listed (d.mem.icache dp).inum (by rw [copy]; exact directory)
    exact order.wrote settled wrote active within
      (fun _ => listed.wrote names (wrote.bytes plain) (by rw [wrote.size, copy]))

/-- The number in an entry of a block of a directory. -/
theorem Listed.entry {i bn : Nat} (listed : Listed sb v i) (below : k < 32) :
    (v.content i bn).number (direntSize * k) 2 < sb.ninodes := by
  have entry := inumOf_blocks (b := v.byte i) (fun x => rfl) (32 * bn + k)
  have block : (32 * bn + k) / 32 = bn ∧ (32 * bn + k) % 32 = k := by omega
  rw [block.1, block.2] at entry
  exact lt_of_eq_of_lt entry.symm (listed.named _)

/-- The result of `dirlookup` refers to an inode and is the position of an entry. -/
def LookedUp (sb : Superblock) (tidy : Prop) (refs : Nat -> Nat) (locked : Finset Nat)
    (d : Device BSIZE Kernel) : Option (Nat × Nat) -> Device BSIZE Kernel -> Prop
  | none, e => Stays sb tidy refs refs locked d e
  | some (ip, off), e =>
      Stays sb tidy (more refs ip) refs locked d e ∧ Exists fun k => off = direntSize * k

/-- The loop of `dirlookup`. -/
theorem InOrder.lookupFrom_wp (tolerates : Tolerates escape) (fuel : Nat) :
    forall {d q}, InOrder sb tidy refs locked d -> (d.mem.icache dp).Active ->
      (d.mem.icache dp).copy.type = T_DIR ->
      (lookupFrom dp name fuel (q * BSIZE)).wp (withRoom sb sb.size)
        (LookedUp sb tidy refs locked d) escape d := by
  induction fuel with
  | zero => exact fun order _ _ => Stays.refl order
  | succ fuel ih =>
      intro d q order active directory
      have held := order.referred.mp active.1
      rw [lookupFrom]
      refine wp_bind.mpr (wp_getMem ?_)
      by_cases inside : q * BSIZE < (d.mem.icache dp).copy.logical_size
      · have block : q * BSIZE / BSIZE = q := Nat.mul_div_cancel q (by decide)
        rw [if_pos inside, block]
        rcases order.settled with ⟨v, settled⟩
        have copy := settled.secure.owning.copy active
        have one : copiesOf T_DIR = 1 := by decide
        have needed : Present tidy v (d.mem.icache dp).inum (Volume.place q) := by
          intro isTidy
          have stored := (settled.neat isTidy).whole (d.mem.icache dp).inum
              (q * BSIZE) (Nat.zero_le _) (by rw [copy, Nat.zero_add]; exact inside) 0
              (by rw [copy, directory]; decide)
          rw [copy, directory, one, block, Nat.mul_one, Nat.add_zero] at stored
          exact stored
        refine wp_seq (settled.secure.bmap_wp (Nat.zero_le _) tolerates.full active
          (Or.inr (tolerates _ (by decide))) needed) ?_
        rintro a e ⟨w, worked, stored, nonnull, contents⟩
        rcases order.worked settled worked active (fun _ => contents _) with ⟨settledNow, stays⟩
        have out := Finset.notMem_empty a
        rcases worked.idle (Nat.zero_le _) out with ⟨idle, space⟩
        have owning := settledNow.secure.owning
        have plain : (w.inode (d.mem.icache dp).inum).type ≠ T_MIRRORED := by
          rw [worked.touched.type, copy, directory]
          decide
        refine wp_bind.mpr (wp_borrow idle space (fun data known => ?_))
        have delivered := (owning.lends.known known).resolve_left
            (Volume.not_loose_plain (t := (_, _)) plain stored)
        have content : data = w.content (d.mem.icache dp).inum q := by
          unfold Volume.content
          rw [stored, if_neg nonnull, owning.block (owning.owns.above stored nonnull).1]
          exact delivered
        have resting : e.Resting a :=
          owning.lends.resting out (Volume.not_loose_plain (t := (_, _)) plain stored)
        rw [delivered] at content ⊢
        refine wp_bind.mpr (wp_look Device.held_hold_self ?_)
        rcases @scanEntries_spec name (e.disk a) (BSIZE / direntSize) 0 with
          ⟨missing, _⟩ | ⟨j, below, found, _, _⟩
        · rw [missing]
          refine wp_bind.mpr (wp_brelse Device.held_hold_self ?_)
          rw [Device.release_hold resting, ← Nat.succ_mul]
          refine wp_mono (ih stays.order (stays.active held held active)
            ((stays.type held active).trans directory)) ?_ (fun _ stopped => stopped)
          rintro (_ | ⟨ip, off⟩) f looked
          · exact stays.trans looked
          · exact ⟨stays.trans looked.1, looked.2⟩
        · rw [found]
          refine wp_bind.mpr (wp_brelse Device.held_hold_self ?_)
          rw [Device.release_hold resting]
          have listed := settledNow.proper.listed (d.mem.icache dp).inum
              (by rw [worked.touched.type, copy, directory])
          have number : (e.disk a).number (0 + 16 * j) 2 < sb.ninodes := by
            rw [content, Nat.zero_add]
            exact listed.entry below
          refine wp_seq (stays.order.iget_wp tolerates number) ?_
          rintro ip f ⟨gotten, _, _⟩
          refine ⟨stays.trans gotten, 32 * q + j, ?_⟩
          simp only [BSIZE, direntSize]
          omega
      · rw [if_neg inside]
        exact Stays.refl order

/-- `dirlookup` keeps the kernel in order, and what it finds is referred to. -/
theorem InOrder.dirlookup_wp (order : InOrder sb tidy refs locked d) (tolerates : Tolerates escape)
    (active : (d.mem.icache dp).Active) :
    (dirlookup dp name).wp (withRoom sb sb.size)
      (fun result e =>
        (d.mem.icache dp).copy.type = T_DIR ∧ LookedUp sb tidy refs locked d result e)
      escape d := by
  unfold dirlookup
  refine wp_bind.mpr (wp_getMem ?_)
  by_cases directory : (d.mem.icache dp).copy.type = T_DIR
  · rw [if_neg (fun notDir => notDir directory), ← Nat.zero_mul BSIZE]
    exact wp_mono (InOrder.lookupFrom_wp tolerates _ order active directory)
      (fun _ _ looked => ⟨directory, looked⟩) (fun _ stopped => stopped)
  · rw [if_pos directory]
    exact tolerates _ (by decide)

/-- The loop of `dirlink` finds the position of an entry. -/
theorem InOrder.emptyFrom_wp (tolerates : Tolerates escape) (devsw : Devsw)
    (behind : Nat -> Nat -> UInt8) (fuel : Nat) :
    forall {d k}, InOrder sb tidy refs locked d -> (d.mem.icache dp).Active ->
      (emptyFrom devsw behind dp fuel (direntSize * k)).wp (withRoom sb sb.size)
        (fun off e => Stays sb tidy refs refs locked d e ∧ Exists fun j => off = direntSize * j)
        escape d := by
  induction fuel with
  | zero => exact fun order _ => ⟨Stays.refl order, _, rfl⟩
  | succ fuel ih =>
      intro d k order active
      have held := order.referred.mp active.1
      rw [emptyFrom]
      refine wp_bind.mpr (wp_getMem ?_)
      split
      · refine wp_seq (order.readi_wp tolerates active devsw behind) ?_
        rintro de e stays
        split
        · exact tolerates _ (by decide)
        · split
          · exact ⟨stays, k, rfl⟩
          · rw [← Nat.mul_succ]
            refine wp_mono (ih stays.order (stays.active held held active)) ?_
              (fun _ stopped => stopped)
            rintro off f ⟨rest, aligned⟩
            exact ⟨stays.trans rest, aligned⟩
      · exact ⟨Stays.refl order, k, rfl⟩

/-- `dirlink` keeps the kernel in order if the new entry names an inode of the disk. -/
theorem InOrder.dirlink_wp {inum : Nat} (order : InOrder sb tidy refs locked d)
    (tolerates : Tolerates escape) (active : (d.mem.icache dp).Active) (below : inum < sb.ninodes)
    (devsw : Devsw) (behind : Nat -> Nat -> UInt8) :
    (dirlink devsw behind dp name inum).wp (withRoom sb sb.size)
      (fun _ e => Stays sb tidy refs refs locked d e) escape d := by
  have held := order.referred.mp active.1
  unfold dirlink
  refine wp_seq (order.dirlookup_wp tolerates active) ?_
  rintro (_ | ⟨ip, off⟩) e ⟨directory, looked⟩
  · have activeNow := looked.active held held active
    refine wp_bind.mpr (wp_getMem ?_)
    rw [← Nat.mul_zero direntSize]
    refine wp_seq (InOrder.emptyFrom_wp tolerates devsw behind _ looked.order activeNow) ?_
    rintro _ f ⟨stays, k, rfl⟩
    have before := looked.trans stays
    refine wp_seq (stays.order.writeEntry_wp tolerates (before.active held held active)
      ((before.type held active).trans directory) (namesInode_dirent below) devsw) ?_
    intro r g written
    by_cases whole : r = (direntSize : Int)
    · rw [if_neg (fun different => different whole)]
      exact before.trans (written whole)
    · rw [if_pos whole]
      exact tolerates _ (by decide)
  · refine wp_bind.mpr (wp_mono (looked.1.order.iput_wp tolerates
      (fun inside => ((order.counted.locks ip).mp inside).1)) ?_ (fun _ stopped => stopped))
    exact fun _ f dropped => looked.1.trans dropped

/-- `isdirempty` keeps the kernel in order. -/
theorem InOrder.isdirempty_wp (order : InOrder sb tidy refs locked d) (tolerates : Tolerates escape)
    (active : (d.mem.icache dp).Active) (devsw : Devsw) (behind : Nat -> Nat -> UInt8) :
    (isdirempty devsw behind dp).wp (withRoom sb sb.size)
      (fun _ e => Stays sb tidy refs refs locked d e) escape d := by
  have loop : forall fuel {d off}, InOrder sb tidy refs locked d -> (d.mem.icache dp).Active ->
      (isdiremptyFrom devsw behind dp fuel off).wp (withRoom sb sb.size)
      (fun _ e => Stays sb tidy refs refs locked d e) escape d := by
    intro fuel
    induction fuel with
    | zero => exact fun order _ => Stays.refl order
    | succ fuel ih =>
        intro d off order active
        have held := order.referred.mp active.1
        rw [isdiremptyFrom]
        refine wp_bind.mpr (wp_getMem ?_)
        split
        · refine wp_seq (order.readi_wp tolerates active devsw behind) ?_
          rintro de e stays
          split
          · exact tolerates _ (by decide)
          · split
            · exact stays
            · exact wp_mono (ih stays.order (stays.active held held active))
                (fun _ _ rest => stays.trans rest) (fun _ stopped => stopped)
        · exact Stays.refl order
  unfold isdirempty
  refine wp_bind.mpr (wp_getMem ?_)
  exact loop _ order active

/-! ## Paths -/

/-- The result of `namex` refers to an inode. -/
def Reached (sb : Superblock) (tidy : Prop) (refs : Nat -> Nat) (d : Device BSIZE Kernel) :
    Option (Nat × List UInt8) -> Device BSIZE Kernel -> Prop
  | none, e => Stays sb tidy refs refs ∅ d e
  | some (ip, _), e => Stays sb tidy (more refs ip) refs ∅ d e

theorem Reached.later {result : Option (Nat × List UInt8)}
    (stays : Stays sb tidy after refs lockedToo d e) (reached : Reached sb tidy refs e result f) :
    Reached sb tidy refs d result f := by
  rcases result with _ | ⟨ip, name⟩
  · exact stays.trans reached
  · exact stays.trans reached

/-- The loop of `namex` passes the reference on from one inode to the next. -/
theorem InOrder.namexFrom_wp (tolerates : Tolerates escape) (parent : Bool) (fuel : Nat) :
    forall {d ip} (path name : List UInt8), InOrder sb tidy (more refs ip) ∅ d ->
      (namexFrom parent fuel ip path name).wp (withRoom sb sb.size) (Reached sb tidy refs d)
        escape d := by
  induction fuel with
  | zero => exact fun _ _ order => Stays.refl order
  | succ fuel ih =>
      intro d ip path name order
      have held : 0 < more refs ip ip := by
        rw [more_self]
        exact Nat.succ_pos _
      rw [namexFrom]
      split
      · split
        · refine wp_bind.mpr (wp_mono (order.iput_wp tolerates
            (fun inside => absurd inside (Finset.notMem_empty ip))) ?_ (fun _ stopped => stopped))
          exact fun _ _ dropped => dropped
        · exact Stays.refl order
      · rename_i element rest _
        refine wp_seq (order.ilock_wp tolerates (show 0 < NBUF by decide) held) ?_
        intro _ e locks
        have stays := locks.stays
        refine wp_bind.mpr (wp_getMem ?_)
        split
        · refine wp_bind.mpr (wp_mono (stays.order.leave_wp tolerates locks.out) ?_
            (fun _ stopped => stopped))
          exact fun _ _ left => stays.less.trans left
        · split
          · refine wp_bind.mpr (wp_mono (stays.order.iunlock_wp tolerates) ?_
              (fun _ stopped => stopped))
            intro _ f unlocked
            rw [Finset.erase_insert locks.out] at unlocked
            exact stays.less.trans unlocked.less
          · refine wp_seq (stays.order.dirlookup_wp tolerates locks.active) ?_
            rintro (_ | ⟨next, off⟩) f ⟨_, looked⟩
            · refine wp_bind.mpr (wp_mono (looked.order.leave_wp tolerates locks.out) ?_
                (fun _ stopped => stopped))
              exact fun _ _ left => stays.less.trans (looked.less.trans left)
            · have both := looked.1.order
              rw [more_comm] at both
              refine wp_seq (both.leave_wp tolerates locks.out) ?_
              intro _ g left
              have before := stays.less.trans (looked.1.less.trans left.less)
              exact wp_mono (ih rest element left.order)
                (fun _ _ reached => Reached.later before reached) (fun _ stopped => stopped)

/-- `namex` from the current directory `cwd`. -/
theorem InOrder.namex_wp {cwd : Nat} {path : List UInt8} (order : InOrder sb tidy refs ∅ d)
    (tolerates : Tolerates escape) (held : path.head? = some slash ∨ 0 < refs cwd) (parent : Bool) :
    (namex cwd path parent).wp (withRoom sb sb.size) (Reached sb tidy refs d) escape d := by
  rw [namex_eq]
  refine wp_bind.mpr ?_
  have start : (if path.head? = some slash then iget ROOTINO else idup cwd : Fs Nat).wp
      (withRoom sb sb.size) (fun ip e => Stays sb tidy (more refs ip) refs ∅ d e) escape d := by
    split
    · exact wp_mono (order.iget_wp tolerates order.root) (fun _ _ gotten => gotten.1)
        (fun _ stopped => stopped)
    · rename_i relative
      refine wp_mono (order.idup_wp (held.resolve_left relative)) ?_ (fun _ stopped => stopped)
      rintro ip e ⟨rfl, stays⟩
      exact stays
  refine wp_mono start ?_ (fun _ stopped => stopped)
  intro ip e stays
  exact wp_mono (InOrder.namexFrom_wp tolerates parent _ path [] stays.order)
    (fun _ _ reached => Reached.later stays reached) (fun _ stopped => stopped)

end Calls

end TripleFs
end OsProjects
