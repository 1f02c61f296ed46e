import OsProjects.TripleFs.KernelOrder

namespace OsProjects
namespace TripleFs

open Machine

/-!
# Inodes that are updated, discarded and allocated

A change of an inode that is copied to the disk at once keeps the kernel in order.  So do
`iput`, when it discards an inode that nothing names, and `ialloc`, which takes an inode
that has been discarded.
-/

section Updating

variable {sb : Superblock} {tidy : Prop} {escape : Stop FsPanic -> Prop} {v w : Volume}
  {bits others : Nat -> Bool} {refs after hold : Nat -> Nat} {locked : Finset Nat}
  {need : Nat -> Prop} {lent : Finset Nat} {d e : Device BSIZE Kernel} {ip i : Nat}

open BlockProgram

theorem Listed.congr (listed : Listed sb v i)
    (size : (w.inode i).logical_size = (v.inode i).logical_size)
    (bytes : forall x, w.byte i x = v.byte i x) : Listed sb w i := by
  have same : w.byte i = v.byte i := funext bytes
  refine ⟨fun x behind => ?_, fun k => ?_⟩
  · rw [size] at behind
    rw [same]
    exact listed.zeros x behind
  · rw [same]
    exact listed.named k

/-- A file without blocks is an empty directory. -/
theorem Listed.empty (root : 0 < sb.ninodes) (none_ : forall m, v.slot (i, m) = 0) :
    Listed sb v i := by
  have zero : forall x, v.byte i x = 0 := by
    intro x
    unfold Volume.byte Volume.content
    rw [if_pos (none_ _)]
    exact Bytes.get_fill 0 (Nat.mod_lt x (by decide))
  refine ⟨fun x _ => zero x, fun k => ?_⟩
  rw [inumOf, zero, zero]
  exact root

/-- Only one inode and its file have changed. -/
theorem Proper.change (proper : Proper sb v) (inodes : forall j, j ≠ i -> w.inode j = v.inode j)
    (contents : forall j bn, j ≠ i -> w.content j bn = v.content j bn)
    (directory : (w.inode i).type = T_DIR -> Listed sb w i)
    (mirrored : (w.inode i).type = T_MIRRORED -> (w.inode i).logical_size ≤ 46 * BSIZE) :
    Proper sb w := by
  refine ⟨fun j type => ?_, fun j type => ?_⟩
  · by_cases here : j = i
    · rw [here] at type ⊢
      exact directory type
    · have inode := inodes j here
      rw [inode] at type
      refine (proper.listed j type).congr (by rw [inode]) (fun x => ?_)
      unfold Volume.byte
      rw [contents j _ here]
  · by_cases here : j = i
    · rw [here] at type ⊢
      exact mirrored type
    · rw [inodes j here] at type ⊢
      exact proper.limits j type

/-- Nothing leaks when slots are filled. -/
theorem Touched.complete {start ends : Nat} (touched : Touched v bits w others i)
    (positive : 0 < start) (complete : Ledger.Complete start ends v.slot bits) :
    Ledger.Complete start ends w.slot others := by
  intro b lower upper inUse
  rcases touched.fresh b inUse with before | ⟨_, s, same⟩
  · rcases complete b lower upper before with ⟨s, same⟩
    exact ⟨s, (touched.stays s (by omega)).trans same⟩
  · exact ⟨s, same⟩

/-- The inode that has changed is on the disk. -/
theorem Lags.saves (lags : Lags sb v d) (inodes : forall j, j ≠ i -> w.inode j = v.inode j)
    (saved : forall j, j ≠ i -> (sb.volume e.disk).inode j = (sb.volume d.disk).inode j)
    (saves : Saves sb w i e) : Lags sb w e := by
  refine ⟨fun j => ?_, fun j m below stored => ?_⟩
  · by_cases here : j = i
    · rw [here, saves]
    · rw [saved j here, inodes j here]
      exact lags.heads j
  · by_cases here : j = i
    · rw [here, saves]
    · rw [saved j here] at stored ⊢
      rw [inodes j here]
      exact lags.addrs j m below stored

/-- A change of the cache by work on an inode. -/
theorem Changed.stays {ends : Nat} (changed : Changed sb ends v d ip w lent e)
    (copy : v.inode (d.mem.icache ip).inum = (d.mem.icache ip).copy)
    (active : (d.mem.icache ip).Active) (counted : Counted refs locked d.mem) :
    Counted refs locked e.mem ∧ forall hold, Keeps hold d.mem e.mem := by
  rcases changed.mem with ⟨c, mem⟩
  have type : c.type = (d.mem.icache ip).copy.type := by
    have now := changed.secure.owning.copy (changed.active active)
    rw [mem, Kernel.adjust_self] at now
    have inode : w.inode (d.mem.icache ip).inum = c := now
    rw [← copy, ← inode]
    exact changed.touched.type _
  rw [mem]
  refine ⟨counted.adjust (fun _ _ => rfl) (counted.counts ip)
    (counted.places ip) (counted.locks ip) (fun _ _ => Iff.rfl) (fun _ => ?_),
    fun hold => Keeps.adjust (fun _ => ⟨rfl, fun valid => ⟨valid, type⟩⟩)⟩
  show c.type ≠ 0
  rw [type]
  exact counted.typed ip active

/-- The new copy may have another type only if it is that of a free inode, and the old one had
no blocks. -/
def Retypes (v : Volume) (i : Nat) (c : Dinode) : Prop :=
  c.type = (v.inode i).type ∨ c.type = 0 ∧ c.logical_size = 0 ∧ forall m, v.slot (i, m) = 0

/-- An inode is changed, but not its file. -/
theorem Proper.setInode {c : Dinode} (proper : Proper sb v) (addrs : c.addrs = (v.inode i).addrs)
    (size : c.logical_size = (v.inode i).logical_size) (type : Retypes v i c) :
    Proper sb (v.setInode i c) := by
  have contents := Volume.content_setInode_addrs addrs
  have sizes : ((v.setInode i c).inode i).logical_size = (v.inode i).logical_size := by
    rw [Volume.inode_setInode_self, size]
  refine proper.change (fun j other => Volume.inode_setInode_of_ne _ other)
    (fun j bn _ => contents j bn) (fun directory => ?_) (fun mirrored => ?_)
  · rw [Volume.inode_setInode_self] at directory
    rcases type with same | ⟨free, _⟩
    · rw [same] at directory
      refine (proper.listed i directory).congr sizes (fun x => ?_)
      unfold Volume.byte
      rw [contents]
    · rw [free] at directory
      exact nomatch directory
  · rw [Volume.inode_setInode_self] at mirrored
    rcases type with same | ⟨free, _⟩
    · rw [same] at mirrored
      rw [sizes]
      exact proper.limits i mirrored
    · rw [free] at mirrored
      exact nomatch mirrored

/-- A disk without holes keeps having none. -/
theorem Neat.setInode {c : Dinode} (neat : Neat sb v d) (addrs : c.addrs = (v.inode i).addrs)
    (size : c.logical_size = (v.inode i).logical_size) (type : Retypes v i c)
    (saved : (sb.volume e.disk).inode = (v.setInode i c).inode)
    (complete : Ledger.Complete sb.dataStart sb.size (v.setInode i c).slot (marked sb e.disk)) :
    Neat sb (v.setInode i c) e := by
  have slots := Volume.slot_setInode_addrs addrs
  refine ⟨saved, fun j x lower upper m small => ?_, complete, fun j free m => ?_⟩
  · rw [slots]
    by_cases here : j = i
    · rw [here] at upper small ⊢
      rw [Volume.inode_setInode_self] at upper small ⊢
      rcases type with same | ⟨_, none_, _⟩
      · rw [same] at small ⊢
        rw [size] at upper
        exact neat.whole i x lower upper m small
      · rw [none_] at upper
        exact absurd upper (by omega)
    · rw [Volume.inode_setInode_of_ne _ here] at upper small ⊢
      exact neat.whole j x lower upper m small
  · rw [slots]
    by_cases here : j = i
    · rw [here] at free ⊢
      rw [Volume.inode_setInode_self] at free
      rcases type with same | ⟨_, _, empty⟩
      · exact neat.unused i (same.symm.trans free) m
      · exact empty m
    · rw [Volume.inode_setInode_of_ne _ here] at free
      exact neat.unused j free m

/-- A change of an inode in the cache is copied to the disk. -/
theorem Settled.iupdate_wp (settled : Settled sb tidy v d) (change : Dinode -> Dinode)
    (active : (d.mem.icache ip).Active)
    (addrs : (change (d.mem.icache ip).copy).addrs = (d.mem.icache ip).copy.addrs)
    (size : (change (d.mem.icache ip).copy).logical_size = (d.mem.icache ip).copy.logical_size)
    (type : Retypes v (d.mem.icache ip).inum (change (d.mem.icache ip).copy))
    (fits : (change (d.mem.icache ip).copy).Fits) :
    (iupdate ip).wp (withRoom sb sb.size)
      (fun _ e =>
        (Exists fun w => Settled sb tidy w e) ∧ e.mem = d.mem.adjust ip (Inode.withCopy change))
      escape (d.withMem (d.mem.adjust ip (Inode.withCopy change))) := by
  have copy := settled.secure.owning.copy active
  have secure := settled.secure.withCopy active addrs
      (type.imp (fun same => by rw [same, copy]) (fun both => both.2.2)) fits
  have addrsToo : (change (d.mem.icache ip).copy).addrs =
      (v.inode (d.mem.icache ip).inum).addrs := by
    rw [addrs, copy]
  have sizeToo : (change (d.mem.icache ip).copy).logical_size =
      (v.inode (d.mem.icache ip).inum).logical_size := by
    rw [size, copy]
  generalize isChanged : d.withMem (d.mem.adjust ip (Inode.withCopy change)) = f at secure
  generalize change (d.mem.icache ip).copy = c at *
  have mem : f.mem = d.mem.adjust ip (Inode.withCopy change) := by
    rw [← isChanged]
    rfl
  have disk : f.disk = d.disk := by
    rw [← isChanged]
    rfl
  have inum : (f.mem.icache ip).inum = (d.mem.icache ip).inum := by
    rw [mem]
    exact Live.inum_adjust ip
  have activeF : (f.mem.icache ip).Active := by
    rw [mem]
    exact (Live.active_adjust ip).mpr active
  refine wp_mono (secure.iupdate_wp activeF) ?_ (fun _ stopped => stopped)
  rintro _ e ⟨changed, saves, same⟩
  have saved := changed.saved
  rw [inum] at saved saves
  rw [disk] at saved
  have inodes : forall j, j ≠ (d.mem.icache ip).inum ->
      (v.setInode (d.mem.icache ip).inum c).inode j = v.inode j :=
    fun j other => Volume.inode_setInode_of_ne _ other
  refine ⟨⟨_, changed.secure, settled.lags.saves inodes saved saves,
    settled.proper.setInode addrsToo sizeToo type, settled.root, fun isTidy => ?_⟩, same.trans mem⟩
  have neat := settled.neat isTidy
  refine neat.setInode addrsToo sizeToo type (funext (fun j => ?_)) ?_
  · by_cases here : j = (d.mem.icache ip).inum
    · rw [here]
      exact saves
    · rw [saved j here, inodes j here, neat.saved]
  · refine changed.touched.complete (Nat.lt_of_lt_of_le (by decide) (dataStart_large sb)) ?_
    rw [disk, funext (Volume.slot_setInode_addrs addrsToo)]
    exact neat.complete

/-- A change of an inode that leaves its type is copied to the disk. -/
theorem InOrder.iupdate_wp (order : InOrder sb tidy refs locked d) (change : Dinode -> Dinode)
    (active : (d.mem.icache ip).Active)
    (addrs : (change (d.mem.icache ip).copy).addrs = (d.mem.icache ip).copy.addrs)
    (size : (change (d.mem.icache ip).copy).logical_size = (d.mem.icache ip).copy.logical_size)
    (type : (change (d.mem.icache ip).copy).type = (d.mem.icache ip).copy.type)
    (fits : (change (d.mem.icache ip).copy).Fits) :
    (iupdate ip).wp (withRoom sb sb.size) (fun _ e => Stays sb tidy refs refs locked d e) escape
      (d.withMem (d.mem.adjust ip (Inode.withCopy change))) := by
  rcases order.settled with ⟨v, settled⟩
  have copy := settled.secure.owning.copy active
  refine wp_mono (settled.iupdate_wp change active addrs size (Or.inl (by rw [type, copy])) fits) ?_
    (fun _ stopped => stopped)
  rintro _ e ⟨after, mem⟩
  have counted := order.counted
  refine ⟨⟨after, ?_⟩, ?_⟩
  · rw [mem]
    refine counted.adjust (fun _ _ => rfl) (counted.counts ip) (counted.places ip)
      (counted.locks ip) (fun _ _ => Iff.rfl) (fun _ => ?_)
    show (change (d.mem.icache ip).copy).type ≠ 0
    rw [type]
    exact counted.typed ip active
  · rw [mem]
    exact Keeps.adjust (fun _ => ⟨rfl, fun valid => ⟨valid, type⟩⟩)

/-! ## Discarding an inode -/

/-- The inode has no blocks any more. -/
theorem Settled.emptied (settled : Settled sb tidy v d) (emptied : Emptied sb sb.size v d ip w e) :
    Settled sb tidy w e := by
  have none_ : forall m, w.slot ((d.mem.icache ip).inum, m) = 0 := fun m =>
    (emptied.slots _).trans (Volume.without_gone rfl)
  have size : (w.inode (d.mem.icache ip).inum).logical_size = 0 := by
    rw [emptied.head]
  have root := Nat.lt_of_le_of_lt (Nat.zero_le _) settled.root
  refine ⟨emptied.secure, settled.lags.saves emptied.inodes emptied.saved emptied.saves,
    settled.proper.change emptied.inodes (fun j bn other => emptied.contents j bn other)
    (fun _ => Listed.empty root none_) (fun _ => by rw [size]; exact Nat.zero_le _), settled.root,
    fun isTidy => ?_⟩
  have neat := settled.neat isTidy
  have kept : forall j m, j ≠ (d.mem.icache ip).inum -> w.slot (j, m) = v.slot (j, m) :=
    fun j m other =>
    (emptied.slots _).trans (Volume.without_other other)
  refine ⟨funext (fun j => ?_), fun j x lower upper m small => ?_, emptied.complete neat.complete,
    fun j free m => ?_⟩
  · by_cases here : j = (d.mem.icache ip).inum
    · rw [here]
      exact emptied.saves
    · rw [emptied.saved j here, emptied.inodes j here, neat.saved]
  · by_cases here : j = (d.mem.icache ip).inum
    · rw [here, size] at upper
      exact absurd upper (by omega)
    · rw [emptied.inodes j here] at upper small ⊢
      rw [kept j _ here]
      exact neat.whole j x lower upper m small
  · by_cases here : j = (d.mem.icache ip).inum
    · rw [here]
      exact none_ m
    · rw [emptied.inodes j here] at free
      rw [kept j m here]
      exact neat.unused j free m

/-- The entry of an inode that has been discarded is not in use any more. -/
theorem Settled.forget (settled : Settled sb tidy v d) (ip : Nat) (change : Inode -> Inode)
    (idle : (change (d.mem.icache ip)).ref = 0) :
    Exists fun w => Settled sb tidy w (d.withMem (d.mem.adjust ip change)) := by
  have owning := settled.secure.owning
  have other : forall jp, 0 < ((d.mem.adjust ip change).icache jp).ref -> jp ≠ ip := by
    intro jp referred here
    rw [here, Kernel.adjust_self] at referred
    omega
  have same : forall jp, 0 < ((d.mem.adjust ip change).icache jp).ref ->
      (d.mem.adjust ip change).icache jp = d.mem.icache jp :=
    fun jp referred => Kernel.adjust_of_ne _ (other jp referred)
  refine settled.recache (fun jp active => ?_) (fun i j referred referredToo equal => ?_)
    (fun jp referred => ?_)
  · have kept := same jp active.1
    rw [kept] at active ⊢
    exact owning.live.cached jp active
  · have kept := same i referred
    have keptToo := same j referredToo
    rw [kept] at referred equal
    rw [keptToo] at referredToo equal
    exact owning.apart i j referred referredToo equal
  · have kept := same jp referred
    rw [kept] at referred ⊢
    exact owning.numbers jp referred

/-- Drop the last reference to an inode without links. -/
theorem InOrder.discard_wp (order : InOrder sb tidy (more refs ip) locked d)
    (last : (d.mem.icache ip).ref = 1) (valid : (d.mem.icache ip).valid = true)
    (unlocked : ip ∉ locked) : (do
      setInode ip (fun e => { e with busy := true })
      itrunc ip
      setInode ip (Inode.withCopy (fun c => { c with type := 0 }))
      iupdate ip
      setInode ip (fun e => { e with busy := false, valid := false })
      setInode ip (fun e => { e with ref := e.ref - 1 }) : Fs Unit).wp (withRoom sb sb.size)
        (fun _ e => Stays sb tidy refs refs locked d e) escape d := by
  have none_ : refs ip = 0 := by
    have count := order.counted.counts ip
    rw [last, more_self] at count
    omega
  have held : 0 < more refs ip ip := by
    rw [more_self]
    exact Nat.succ_pos _
  refine wp_bind.mpr (wp_putMem ?_)
  have begun := (order.same (fun e => { e with busy := true }) (more refs ip)
      (insert ip locked) held rfl rfl rfl (order.counted.counts ip)
      (fun _ _ => rfl) (iff_of_true (Finset.mem_insert_self ip locked) ⟨held, rfl⟩)
      (fun jp other => by rw [Finset.mem_insert]; exact or_iff_right other)).1
  generalize isFirst : d.withMem (d.mem.adjust ip fun e => { e with busy := true }) = d1 at begun
  have mem1 : d1.mem = d.mem.adjust ip fun e => { e with busy := true } := by
    rw [← isFirst]
    rfl
  rcases begun.settled with ⟨v, settled⟩
  have active : (d1.mem.icache ip).Active := by
    rw [mem1, Kernel.adjust_self]
    exact ⟨by rw [last]; exact Nat.one_pos, valid⟩
  refine wp_seq (settled.secure.itrunc_wp active) ?_
  rintro _ d2 ⟨w, emptied⟩
  rcases emptied.mem with ⟨c, mem2⟩
  have after := settled.emptied emptied
  have inum : (d2.mem.icache ip).inum = (d1.mem.icache ip).inum := by
    rw [mem2]
    exact Live.inum_adjust ip
  have activeToo : (d2.mem.icache ip).Active := by
    rw [mem2]
    exact (Live.active_adjust ip).mpr active
  have copy := after.secure.owning.copy activeToo
  have fits : (d2.mem.icache ip).copy.Fits := by
    rw [← copy]
    exact after.secure.owning.owns.fits _
  have retypes : Retypes w (d2.mem.icache ip).inum { (d2.mem.icache ip).copy with type := 0 } := by
    refine Or.inr ⟨rfl, ?_, fun m => ?_⟩
    · show (d2.mem.icache ip).copy.logical_size = 0
      rw [← copy, inum, emptied.head]
    · rw [inum]
      exact (emptied.slots _).trans (Volume.without_gone rfl)
  refine wp_bind.mpr (wp_putMem ?_)
  refine wp_seq (after.iupdate_wp (fun c => { c with type := 0 }) activeToo rfl rfl retypes
    ⟨Nat.two_pow_pos 16, fits.major, fits.minor, fits.nlink, fits.size, fits.addrs, fits.noMore⟩) ?_
  rintro _ d3 ⟨⟨u, retired⟩, mem3⟩
  refine wp_bind.mpr (wp_putMem (wp_putMem ?_))
  have memory : (d3.mem.adjust ip fun e => { e with busy := false, valid := false }).adjust ip
      (fun e => { e with ref := e.ref - 1 }) = d3.mem.adjust ip fun e =>
      { e with busy := false, valid := false, ref := e.ref - 1 } := Kernel.adjust_adjust _ _
  have count : (d3.mem.icache ip).ref = 1 := by
    rw [mem3, Live.ref_adjust, mem2, Live.ref_adjust, mem1, Kernel.adjust_self]
    exact last
  have whole :
      (d3.mem.adjust ip fun e => { e with busy := false, valid := false, ref := e.ref - 1 }) =
        d.mem.adjust ip fun _ => { d3.mem.icache ip with
          busy := false
          valid := false
          ref := (d3.mem.icache ip).ref - 1 } := by
    have here : forall k : Kernel, forall change : Inode -> Inode,
        k.adjust ip change = k.adjust ip fun _ => change (k.icache ip) :=
      fun k change => Kernel.adjust_congr rfl
    rw [here d3.mem]
    generalize ({ d3.mem.icache ip with
      busy := false
      valid := false
      ref := (d3.mem.icache ip).ref - 1 } : Inode) = last
    rw [mem3, mem2, mem1, Kernel.adjust_adjust, Kernel.adjust_adjust, Kernel.adjust_adjust]
    rfl
  have forgotten := retired.forget ip
      (fun e => { e with busy := false, valid := false, ref := e.ref - 1 })
      (show (d3.mem.icache ip).ref - 1 = 0 by omega)
  rw [← memory] at whole forgotten
  generalize isLast : (d3.mem.adjust ip fun e => { e with busy := false, valid := false }).adjust ip
    (fun e => { e with ref := e.ref - 1 }) = k at whole forgotten
  have counted : Counted refs locked k := by
    rw [whole]
    refine order.counted.adjust (fun jp other => (more_of_ne other).symm) ?_
      (fun referred => by omega) (iff_of_false unlocked (fun both => by omega)) (fun _ _ => Iff.rfl)
      (fun active => nomatch active.2)
    rw [none_, count]
  have keeps : Keeps refs d.mem k := by
    rw [whole]
    exact Keeps.adjust (fun held => by omega)
  have final : Stays sb tidy refs refs locked d (d3.withMem k) := ⟨⟨forgotten, counted⟩, keeps⟩
  rw [← isLast] at final
  exact final

/-- `iput` drops a reference. -/
theorem InOrder.iput_wp (order : InOrder sb tidy (more refs ip) locked d)
    (tolerates : Tolerates escape) (stillHeld : ip ∈ locked -> 0 < refs ip) :
    (iput ip).wp (withRoom sb sb.size) (fun _ e => Stays sb tidy refs refs locked d e)
      escape d := by
  have held : 0 < more refs ip ip := by
    rw [more_self]
    exact Nat.succ_pos _
  by_cases discards : (d.mem.icache ip).ref = 1 ∧ (d.mem.icache ip).valid = true ∧
    (d.mem.icache ip).copy.nlink = 0
  · unfold iput
    refine wp_bind.mpr (wp_getMem ?_)
    rw [if_pos discards]
    cases busy : (d.mem.icache ip).busy with
    | true =>
        rw [if_pos rfl]
        exact tolerates _ (by decide)
    | false =>
        rw [if_neg Bool.false_ne_true]
        have none_ : refs ip = 0 := by
          have count := order.counted.counts ip
          rw [discards.1, more_self] at count
          omega
        exact order.discard_wp discards.1 discards.2.1
          (fun inside => Nat.ne_of_gt (stillHeld inside) none_)
  · have kept := order.same Inode.put refs locked held rfl rfl rfl
        (by rw [Inode.put, order.counted.counts, more_self]; rfl)
        (fun jp other => (more_of_ne other).symm)
        ⟨fun inside => ⟨stillHeld inside, ((order.counted.locks ip).mp inside).2⟩,
        fun both => (order.counted.locks ip).mpr ⟨held, both.2⟩⟩ (fun _ _ => Iff.rfl)
    exact (iput_reads discards ⟨kept.1, kept.2 refs⟩).wp

/-- `iunlockput` on an inode that is locked. -/
theorem InOrder.iunlockput_wp (order : InOrder sb tidy (more refs ip) locked d)
    (tolerates : Tolerates escape) :
    (iunlockput ip).wp (withRoom sb sb.size)
      (fun _ e => Stays sb tidy refs refs (locked.erase ip) d e) escape d := by
  unfold iunlockput
  refine wp_seq (order.iunlock_wp tolerates) ?_
  rintro _ e ⟨unlocked, keeps⟩
  refine wp_mono (unlocked.iput_wp tolerates
    (fun inside => absurd inside (Finset.notMem_erase ip locked))) ?_ (fun _ stopped => stopped)
  rintro _ f ⟨dropped, keepsToo⟩
  exact ⟨dropped, keeps.less.trans keepsToo⟩

/-- `iunlockput` on an inode that has been locked. -/
theorem InOrder.leave_wp (order : InOrder sb tidy (more refs ip) (insert ip locked) d)
    (tolerates : Tolerates escape) (out : ip ∉ locked) :
    (iunlockput ip).wp (withRoom sb sb.size) (fun _ e => Stays sb tidy refs refs locked d e)
      escape d := by
  have left := @InOrder.iunlockput_wp sb tidy escape refs (insert ip locked) d ip order tolerates
  rw [Finset.erase_insert out] at left
  exact left

end Updating

/-! ## Allocating an inode -/

section Allocating

variable {sb : Superblock} {tidy : Prop} {escape : Stop FsPanic -> Prop}
  {v : Volume} {refs : Nat -> Nat} {locked : Finset Nat} {d : Device BSIZE Kernel}
  {i inum type : Nat} {c : Dinode}

open BlockProgram

/-- An inode that is written over has no slots any more. -/
theorem Volume.slot_setInode_fresh (none_ : c.addrs = fun _ => 0) (s : Nat × Nat) :
    (v.setInode i c).slot s = if s.1 = i then 0 else v.slot s := by
  by_cases here : s.1 = i
  · have addrs : ((v.setInode i c).inode s.1).addrs = fun _ => 0 := by
      rw [here, Volume.inode_setInode_self, none_]
    rw [if_pos here]
    unfold Volume.slot
    rw [addrs]
    split
    · rfl
    · exact if_pos rfl
  · rw [if_neg here]
    exact Volume.slot_congr (by rw [Volume.inode_setInode_of_ne _ here]) (fun _ => rfl)

theorem Volume.slot_setInode_kept (none_ : c.addrs = fun _ => 0) {s : Nat × Nat}
    (stored : (v.setInode i c).slot s ≠ 0) : s.1 ≠ i ∧ (v.setInode i c).slot s = v.slot s := by
  have slots := @Volume.slot_setInode_fresh v i c none_ s
  by_cases here : s.1 = i
  · rw [if_pos here] at slots
    exact absurd slots stored
  · rw [if_neg here] at slots
    exact ⟨here, slots⟩

theorem Volume.Owns.setInode_fresh {bits : Nat -> Bool} (owns : v.Owns sb sb.size bits)
    (fits : c.Fits) (none_ : c.addrs = fun _ => 0) : (v.setInode i c).Owns sb sb.size bits := by
  refine ⟨⟨owns.ledger.reserved, fun s stored => ?_, fun s t stored same => ?_, fun _ _ _ _ => rfl⟩,
    Volume.Sound.setInode_fits owns.fits fits⟩
  · have before := (Volume.slot_setInode_kept none_ stored).2
    rw [before] at stored ⊢
    exact owns.ledger.stored s stored
  · have before := (Volume.slot_setInode_kept none_ stored).2
    have beforeToo := (Volume.slot_setInode_kept none_ (s := t) (by rw [← same]; exact stored)).2
    refine owns.ledger.once s t (by rw [← before]; exact stored) ?_
    rw [← before, ← beforeToo, same]

/-- The inode `i` of the disk has been written over. -/
structure InodeWritten (sb : Superblock) (d : Device BSIZE Kernel) (i : Nat) (c : Dinode)
    (e : Device BSIZE Kernel) : Prop where
  isSuper : superblock (e.disk 1) = superblock (d.disk 1)
  mem : e.mem = d.mem
  volume : sb.volume e.disk = (sb.volume d.disk).setInode i c
  bits : marked sb e.disk = marked sb d.disk

theorem InodeWritten.store (below : i < sb.ninodes) (fits : c.Fits) :
    InodeWritten sb d i c (d.store (IBLOCK i) (putDinode (i % IPB) c (d.disk (IBLOCK i)))) := by
  have place := Superblock.IBLOCK_lt below
  have low : 1 ≠ IBLOCK i := Nat.ne_of_lt (Nat.lt_of_lt_of_le (by decide) (Nat.le_add_left 2 _))
  refine ⟨congrArg superblock ?_, rfl, Superblock.volume_putDinode below fits,
    funext (marked_other (Or.inl place) _)⟩
  exact Device.disk_store_of_ne low

section Written

variable {e : Device BSIZE Kernel}

theorem InodeWritten.inode (written : InodeWritten sb d i c e) {j : Nat} (other : j ≠ i) :
    (sb.volume e.disk).inode j = (sb.volume d.disk).inode j := by
  rw [written.volume, Volume.inode_setInode_of_ne _ other]

theorem InodeWritten.saves (written : InodeWritten sb d i c e) : Saves sb (v.setInode i c) i e := by
  unfold Saves
  rw [written.volume, Volume.inode_setInode_self, Volume.inode_setInode_self]

theorem InodeWritten.live (written : InodeWritten sb d i c e) (live : Live sb d v)
    (unread : forall ip, (d.mem.icache ip).Active -> (d.mem.icache ip).inum ≠ i) :
    Live sb e (v.setInode i c) := by
  refine ⟨fun ip active => ?_, fun j unreadToo => ?_, ?_⟩
  · rw [written.mem] at active ⊢
    rw [Volume.inode_setInode_of_ne _ (unread ip active)]
    exact live.cached ip active
  · by_cases here : j = i
    · rw [here]
      exact written.saves.symm
    · rw [written.mem] at unreadToo
      rw [Volume.inode_setInode_of_ne _ here, written.inode here]
      exact live.others j unreadToo
  · rw [written.volume]
    exact live.blocks

/-- A disk without holes has none when a free inode is written over. -/
theorem InodeWritten.neat (written : InodeWritten sb d i c e) (neat : Neat sb v d)
    (free : ((sb.volume d.disk).inode i).type = 0) (none_ : c.addrs = fun _ => 0)
    (empty : c.logical_size = 0) : Neat sb (v.setInode i c) e := by
  have large := dataStart_large sb
  have slots := @Volume.slot_setInode_fresh v i c none_
  refine ⟨funext (fun j => ?_), fun j x lower upper m small => ?_, fun b lower upper inUse => ?_,
    fun j typeless m => ?_⟩
  · by_cases here : j = i
    · rw [here]
      exact written.saves
    · rw [written.inode here, Volume.inode_setInode_of_ne _ here, neat.saved]
  · by_cases here : j = i
    · rw [here, Volume.inode_setInode_self, empty] at upper
      exact absurd upper (by omega)
    · rw [Volume.inode_setInode_of_ne _ here] at upper small ⊢
      rw [slots, if_neg here]
      exact neat.whole j x lower upper m small
  · rw [written.bits] at inUse
    rcases neat.complete b lower upper inUse with ⟨s, same⟩
    refine ⟨s, ?_⟩
    rw [slots, if_neg (fun here => ?_), same]
    have typeless : (v.inode s.1).type = 0 := by
      rw [here, ← neat.saved]
      exact free
    have isZero : v.slot s = 0 := neat.unused s.1 typeless s.2
    omega
  · by_cases here : j = i
    · rw [here, slots, if_pos rfl]
    · rw [Volume.inode_setInode_of_ne _ here] at typeless
      rw [slots, if_neg here]
      exact neat.unused j typeless m

end Written

theorem Owning.allocate (owning : Owning sb sb.size v ∅ d) (below : i < sb.ninodes)
    (unread : forall ip, (d.mem.icache ip).Active -> (d.mem.icache ip).inum ≠ i) (fits : c.Fits)
    (none_ : c.addrs = fun _ => 0) :
    Owning sb sb.size (v.setInode i c) ∅
      (d.store (IBLOCK i) (putDinode (i % IPB) c (d.disk (IBLOCK i)))) := by
  have large := dataStart_large sb
  have written := @InodeWritten.store sb d i c below fits
  refine ⟨written.isSuper.trans owning.isSuper, owning.scans, written.live owning.live unread,
    owning.apart, owning.numbers, ?_, ?_⟩
  · rw [written.bits]
    exact owning.owns.setInode_fresh fits none_
  · rw [written.bits]
    refine owning.lends.store.weaken (fun s loose => loose.mono loose.2.1 (fun t same => ?_))
    have above := loose.1
    have stored := Volume.slot_setInode_kept none_ (s := t) (by rw [same]; omega)
    exact ⟨stored.2.symm.trans same, by rw [Volume.inode_setInode_of_ne _ stored.1]⟩

/-- A free inode is written over. -/
theorem Settled.allocate (settled : Settled sb tidy v d) (below : i < sb.ninodes)
    (free : ((sb.volume d.disk).inode i).type = 0)
    (unread : forall ip, (d.mem.icache ip).Active -> (d.mem.icache ip).inum ≠ i) (fits : c.Fits)
    (none_ : c.addrs = fun _ => 0) (empty : c.logical_size = 0) :
    Settled sb tidy (v.setInode i c)
      (d.store (IBLOCK i) (putDinode (i % IPB) c (d.disk (IBLOCK i)))) := by
  have slots := @Volume.slot_setInode_fresh v i c none_
  have inodes : forall j, j ≠ i -> (v.setInode i c).inode j = v.inode j :=
    fun j other => Volume.inode_setInode_of_ne _ other
  have owning := settled.secure.owning.allocate below unread fits none_
  have written := @InodeWritten.store sb d i c below fits
  generalize d.store (IBLOCK i) (putDinode (i % IPB) c (d.disk (IBLOCK i))) = e at owning written
  refine ⟨⟨owning, by rw [written.bits]; exact settled.secure.blank,
    by rw [written.bits]; exact settled.secure.roomy,
    fun s inside => absurd inside (Finset.notMem_empty s)⟩,
    settled.lags.saves inodes (fun j other => written.inode other)
    written.saves, settled.proper.change inodes (fun j bn other => ?_) (fun _ => ?_) (fun _ => ?_),
    settled.root, fun isTidy => written.neat (settled.neat isTidy) free none_ empty⟩
  · exact Volume.content_congr (by rw [slots, if_neg other]) (fun _ => rfl)
  · exact Listed.empty (Nat.lt_of_le_of_lt (Nat.zero_le _) settled.root)
      (fun m => by rw [slots, if_pos rfl])
  · rw [Volume.inode_setInode_self, empty]
    exact Nat.zero_le _

/-- An inode that has been allocated and not been read yet. -/
structure NewInode (sb : Superblock) (tidy : Prop) (refs : Nat -> Nat) (locked : Finset Nat)
    (type : Nat) (d : Device BSIZE Kernel) (ip : Nat) (e : Device BSIZE Kernel) : Prop where
  stays : Stays sb tidy (more refs ip) refs locked d e
  unread : (e.mem.icache ip).valid = false
  type : ((sb.volume e.disk).inode (e.mem.icache ip).inum).type = type

/-- The loop of `ialloc`. -/
theorem InOrder.iallocFrom_wp (order : InOrder sb tidy refs locked d) (tolerates : Tolerates escape)
    (small : type < 2 ^ 16) (fuel : Nat) :
    forall inum,
      (iallocFrom sb type fuel inum).wp (withRoom sb sb.size) (NewInode sb tidy refs locked type d)
        escape d := by
  induction fuel with
  | zero => exact fun _ => tolerates _ (by decide)
  | succ fuel ih =>
      intro inum
      rw [iallocFrom]
      by_cases below : inum < sb.ninodes
      · have resting := order.resting (Superblock.IBLOCK_lt_dataStart below)
        have space : d.busy < (withRoom sb sb.size).capacity := by
          rw [order.idle]
          exact (by decide : 0 < NBUF)
        rw [if_pos below]
        refine wp_bind.mpr (wp_bread resting space ?_)
        refine wp_bind.mpr (wp_look Device.held_hold_self ?_)
        by_cases free : (getDinode (d.disk (IBLOCK inum)) (inum % IPB)).type = 0
        · have blank : ({ Dinode.blank with type := type } : Dinode).Fits :=
            ⟨small, Nat.two_pow_pos 16, Nat.two_pow_pos 16, Nat.two_pow_pos 16, Nat.two_pow_pos 32,
              fun _ => Nat.two_pow_pos 32, fun _ _ => rfl⟩
          have freeToo : ((sb.volume d.disk).inode inum).type = 0 := by
            rw [Superblock.inode_below below]
            exact free
          rw [if_pos free]
          refine wp_bind.mpr (wp_patch Device.held_hold_self ?_)
          refine wp_bind.mpr (wp_bwrite Device.held_change_self fun _ => ?_)
          refine wp_bind.mpr (wp_brelse Device.held_change_self ?_)
          rw [Device.release_store_change_hold resting]
          rcases order.settled with ⟨v, settled⟩
          have unread : forall ip, (d.mem.icache ip).Active -> (d.mem.icache ip).inum ≠ inum := by
            intro ip active same
            have typed := order.counted.typed ip active
            rw [← settled.secure.owning.copy active, same] at typed
            rw [settled.lags.heads] at freeToo
            exact typed freeToo
          have taken : InOrder sb tidy refs locked _ :=
            ⟨⟨_, settled.allocate below freeToo unread blank rfl rfl⟩, order.counted⟩
          refine wp_mono (taken.iget_wp tolerates below) ?_ (fun _ stopped => stopped)
          rintro ip f ⟨gotten, number, disk, cached⟩
          refine ⟨⟨gotten.order, gotten.keeps⟩, ?_, ?_⟩
          · by_contra valid
            rcases cached (Bool.eq_true_of_not_eq_false valid) with ⟨active, same⟩
            exact unread ip active same
          · rw [number, disk]
            show ((sb.volume (Function.update d.disk _ _)).inode inum).type = type
            rw [Superblock.volume_putDinode below blank, Volume.inode_setInode_self]
        · rw [if_neg free]
          refine wp_bind.mpr (wp_brelse Device.held_hold_self ?_)
          rw [Device.release_hold resting]
          exact ih (inum + 1)
      · rw [if_neg below]
        exact tolerates _ (by decide)

/-- `ialloc` refers to a new inode. -/
theorem InOrder.ialloc_wp (order : InOrder sb tidy refs locked d) (tolerates : Tolerates escape)
    (small : type < 2 ^ 16) :
    (ialloc type).wp (withRoom sb sb.size) (NewInode sb tidy refs locked type d) escape d := by
  have large := dataStart_large sb
  have space : d.busy < (withRoom sb sb.size).capacity := by
    rw [order.idle]
    exact (by decide : 0 < NBUF)
  unfold ialloc readsb
  refine wp_bind.mpr (wp_glance (order.resting (by omega)) space ?_)
  rw [order.isSuper]
  exact order.iallocFrom_wp tolerates small _ _

end Allocating

end TripleFs
end OsProjects
