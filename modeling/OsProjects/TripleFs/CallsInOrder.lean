import OsProjects.TripleFs.SystemCalls

namespace OsProjects
namespace TripleFs

open Machine

/-!
# System calls keep the kernel in order

Each call gives back every reference and every lock that it takes, but for the inode of a
file that it opens or of a new current directory.
-/

/-- A change of an inode that has nothing to do with its file. -/
structure Outward (change : Dinode -> Dinode) : Prop where
  addrs : forall c, (change c).addrs = c.addrs
  size : forall c, (change c).logical_size = c.logical_size
  type : forall c, (change c).type = c.type
  fits : forall c, c.Fits -> (change c).Fits

theorem outward_nlink {number : Dinode -> Nat} (small : forall c, number c < 2 ^ 16) :
    Outward fun c => { c with nlink := number c } :=
  ⟨fun _ => rfl, fun _ => rfl, fun _ => rfl,
    fun c fits => ⟨fits.type, fits.major, fits.minor, small c, fits.size, fits.addrs, fits.noMore⟩⟩

theorem outward_linked : Outward Dinode.linked :=
  outward_nlink (fun _ => Nat.mod_lt _ (Nat.two_pow_pos 16))

theorem outward_unlinked : Outward Dinode.unlinked :=
  outward_nlink (fun _ => Nat.mod_lt _ (Nat.two_pow_pos 16))

theorem outward_created (major minor : Nat) :
    Outward fun c => { c with major := major % 2 ^ 16, minor := minor % 2 ^ 16, nlink := 1 } :=
  ⟨fun _ => rfl, fun _ => rfl, fun _ => rfl,
    fun _ fits => ⟨fits.type, Nat.mod_lt _ (Nat.two_pow_pos 16), Nat.mod_lt _ (Nat.two_pow_pos 16),
    Nat.one_lt_two_pow (by decide), fits.size, fits.addrs, fits.noMore⟩⟩

/-- What a call that returns an inode leaves behind; the inodes in `keeps` stay locked. -/
def Gives (sb : Superblock) (tidy : Prop) (refs : Nat -> Nat) (keeps : Nat -> Finset Nat)
    (d : Device BSIZE Kernel) : Option Nat -> Device BSIZE Kernel -> Prop
  | none, e => Stays sb tidy refs refs ∅ d e
  | some ip, e => Stays sb tidy (more refs ip) refs (keeps ip) d e

section Calls

variable {sb : Superblock} {tidy : Prop} {escape : Stop FsPanic -> Prop}
  {refs after hold : Nat -> Nat} {locked lockedToo : Finset Nat} {d e f : Device BSIZE Kernel}
  {ip dp cwd off : Nat} {path : List UInt8}

open BlockProgram

theorem InOrder.capacity : 0 < (withRoom sb sb.size).capacity := (by decide : 0 < NBUF)

theorem held_more : 0 < more refs ip ip := by
  rw [more_self]
  exact Nat.succ_pos _

theorem notMem_other (different : ip ∉ insert dp (∅ : Finset Nat)) :
    dp ∉ insert ip (∅ : Finset Nat) := by
  rw [Finset.mem_insert] at different ⊢
  exact fun inside => inside.elim (fun same => different (Or.inl same.symm))
    (Finset.notMem_empty dp)

/-- An inode in memory is changed and copied to the disk. -/
theorem InOrder.updateInode_wp {change : Dinode -> Dinode} (order : InOrder sb tidy refs locked d)
    (active : (d.mem.icache ip).Active) (outward : Outward change) :
    (updateInode ip change).wp (withRoom sb sb.size) (fun _ e => Stays sb tidy refs refs locked d e)
      escape d := by
  rcases order.settled with ⟨v, settled⟩
  have copy := settled.secure.owning.copy active
  have fits : (d.mem.icache ip).copy.Fits := by
    rw [← copy]
    exact settled.secure.owning.owns.fits _
  unfold updateInode
  refine wp_bind.mpr (wp_putMem ?_)
  exact order.iupdate_wp change active (outward.addrs _) (outward.size _) (outward.type _)
    (outward.fits _ fits)

theorem InOrder.namei_wp (order : InOrder sb tidy refs ∅ d) (tolerates : Tolerates escape)
    (held : path.head? = some slash ∨ 0 < refs cwd) :
    (namei cwd path).wp (withRoom sb sb.size) (Gives sb tidy refs (fun _ => ∅) d) escape d := by
  unfold namei
  refine wp_seq (order.namex_wp tolerates held false) ?_
  rintro (_ | ⟨ip, name⟩) e reached
  · exact reached
  · exact reached

/-! ## Links -/

theorem InOrder.linkBad_wp (order : InOrder sb tidy (more refs ip) ∅ d)
    (tolerates : Tolerates escape) :
    (linkBad ip).wp (withRoom sb sb.size) (fun _ e => Stays sb tidy refs refs ∅ d e) escape d := by
  unfold linkBad
  refine wp_seq (order.ilock_wp tolerates InOrder.capacity held_more) ?_
  intro _ e locks
  refine wp_seq (locks.stays.order.updateInode_wp locks.active outward_unlinked) ?_
  intro _ f updated
  refine wp_bind.mpr (wp_mono (updated.order.leave_wp tolerates locks.out) ?_
    (fun _ stopped => stopped))
  exact fun _ _ left => locks.stays.less.trans (updated.less.trans left)

theorem InOrder.sys_link_wp {old new : List UInt8} (order : InOrder sb tidy refs ∅ d)
    (tolerates : Tolerates escape) (held : 0 < refs cwd) (devsw : Devsw)
    (behind : Nat -> Nat -> UInt8) :
    (sys_link devsw behind cwd old new).wp (withRoom sb sb.size)
      (fun _ e => Stays sb tidy refs refs ∅ d e) escape d := by
  unfold sys_link
  refine wp_seq (order.namei_wp tolerates (Or.inr held)) ?_
  rintro (_ | ip) e1 found
  · exact found
  · refine wp_seq (found.order.ilock_wp tolerates InOrder.capacity held_more) ?_
    intro _ e2 locks
    have before := found.trans locks.stays.less
    refine wp_bind.mpr (wp_getMem ?_)
    split
    · refine wp_bind.mpr (wp_mono (locks.stays.order.leave_wp tolerates locks.out) ?_
        (fun _ stopped => stopped))
      exact fun _ _ left => before.trans left
    · refine wp_seq (locks.stays.order.updateInode_wp locks.active outward_linked) ?_
      intro _ e3 updated
      refine wp_seq (updated.order.iunlock_wp tolerates) ?_
      intro _ e4 unlocked
      rw [Finset.erase_insert locks.out] at unlocked
      have linked := before.trans (updated.trans unlocked).less
      have heldToo : 0 < more refs ip cwd := Nat.lt_of_lt_of_le held (le_more refs ip cwd)
      refine wp_seq (unlocked.order.namex_wp tolerates (Or.inr heldToo) true) ?_
      rintro (_ | ⟨dp, name⟩) e5 parent
      · have missed := linked.trans parent.less
        exact wp_mono (parent.order.linkBad_wp tolerates) (fun _ _ left => missed.trans left)
          (fun _ stopped => stopped)
      · have reached := linked.trans parent.less
        refine wp_seq (parent.order.ilock_wp tolerates InOrder.capacity held_more) ?_
        intro _ e6 locksToo
        have entered := reached.trans locksToo.stays.less.less
        refine wp_bind.mpr (wp_getMem ?_)
        have number := @InOrder.number sb tidy (more (more refs ip) dp) (insert dp ∅) e6 ip
            locksToo.stays.order (Nat.lt_of_lt_of_le held_more (le_more _ dp ip))
        refine wp_seq
          (locksToo.stays.order.dirlink_wp tolerates locksToo.active number devsw behind) ?_
        intro r e7 entry
        have done := entered.trans entry.less.less
        split
        · refine wp_seq (entry.order.leave_wp tolerates locksToo.out) ?_
          intro _ e8 left
          have out := done.trans left.less
          exact wp_mono (left.order.linkBad_wp tolerates) (fun _ _ rest => out.trans rest)
            (fun _ stopped => stopped)
        · refine wp_seq (entry.order.leave_wp tolerates locksToo.out) ?_
          intro _ e8 left
          have out := done.trans left.less
          refine wp_bind.mpr (wp_mono (left.order.iput_wp tolerates
            (fun inside => absurd inside (Finset.notMem_empty ip))) ?_ (fun _ stopped => stopped))
          exact fun _ _ dropped => out.trans dropped

/-- The end of `sys_unlink` drops both references. -/
theorem InOrder.unlinkEntry_wp
    (order : InOrder sb tidy (more (more refs dp) ip) (insert ip (insert dp ∅)) d)
    (tolerates : Tolerates escape) (above : (d.mem.icache dp).Active)
    (directory : (d.mem.icache dp).copy.type = T_DIR) (active : (d.mem.icache ip).Active)
    (different : ip ∉ insert dp (∅ : Finset Nat)) (aligned : Exists fun k => off = direntSize * k)
    (devsw : Devsw) :
    (unlinkEntry devsw dp ip off).wp (withRoom sb sb.size)
      (fun _ e => Stays sb tidy refs refs ∅ d e) escape d := by
  rcases aligned with ⟨k, rfl⟩
  have held : 0 < more (more refs dp) ip dp := Nat.lt_of_lt_of_le held_more (le_more _ ip dp)
  have heldToo : 0 < more (more refs dp) ip ip := held_more
  unfold unlinkEntry
  refine wp_seq (order.writeEntry_wp tolerates above directory
    (namesInode_cleared order.root) devsw) ?_
  intro r e1 written
  by_cases whole : r = (direntSize : Int)
  · have cleared := written whole
    rw [if_neg (fun failed => failed whole)]
    have dots : (unlinkDots dp ip).wp (withRoom sb sb.size) (fun _ e => Stays sb tidy (more
        (more refs dp) ip) (more (more refs dp) ip) (insert ip (insert dp ∅)) d e) escape e1 := by
      unfold unlinkDots
      refine wp_bind.mpr (wp_getMem ?_)
      split
      · exact wp_mono (cleared.order.updateInode_wp (cleared.active held held above)
          outward_unlinked) (fun _ _ updated => cleared.trans updated) (fun _ stopped => stopped)
      · exact cleared
    refine wp_seq dots ?_
    intro _ e2 counted
    have both := counted.order
    rw [more_comm, Finset.insert_comm] at both
    refine wp_seq (both.leave_wp tolerates (notMem_other different)) ?_
    intro _ e3 left
    have activeNow := left.active held_more held_more (counted.active heldToo heldToo active)
    refine wp_seq (left.order.updateInode_wp activeNow outward_unlinked) ?_
    intro _ e4 updated
    refine wp_bind.mpr (wp_mono (updated.order.leave_wp tolerates (Finset.notMem_empty ip)) ?_
      (fun _ stopped => stopped))
    exact fun _ _ dropped => counted.less.less.trans (left.less.trans (updated.less.trans dropped))
  · rw [if_pos whole]
    exact tolerates _ (by decide)

theorem InOrder.sys_unlink_wp (order : InOrder sb tidy refs ∅ d) (tolerates : Tolerates escape)
    (held : 0 < refs cwd) (devsw : Devsw) (behind : Nat -> Nat -> UInt8) :
    (sys_unlink devsw behind cwd path).wp (withRoom sb sb.size)
      (fun _ e => Stays sb tidy refs refs ∅ d e) escape d := by
  unfold sys_unlink
  refine wp_seq (order.namex_wp tolerates (Or.inr held) true) ?_
  rintro (_ | ⟨dp, name⟩) e1 parent
  · exact parent
  · refine wp_seq (parent.order.ilock_wp tolerates InOrder.capacity held_more) ?_
    intro _ e2 locks
    have entered := parent.trans locks.stays.less
    split
    · refine wp_bind.mpr (wp_mono (locks.stays.order.leave_wp tolerates locks.out) ?_
        (fun _ stopped => stopped))
      exact fun _ _ left => entered.trans left
    · refine wp_seq (locks.stays.order.dirlookup_wp tolerates locks.active) ?_
      rintro (_ | ⟨ip, off⟩) e3 ⟨directory, looked⟩
      · refine wp_bind.mpr (wp_mono (looked.order.leave_wp tolerates locks.out) ?_
          (fun _ stopped => stopped))
        exact fun _ _ left => entered.trans (looked.less.trans left)
      · rcases looked with ⟨looked, aligned⟩
        have found := entered.trans looked.less
        have heldDir : 0 < more (more refs dp) ip dp :=
          Nat.lt_of_lt_of_le held_more (le_more _ ip dp)
        have above := looked.active held_more heldDir locks.active
        have type := (looked.type held_more locks.active).trans directory
        refine wp_seq (looked.order.ilock_wp tolerates InOrder.capacity held_more) ?_
        intro _ e4 locksToo
        have locked := found.trans locksToo.stays.less.less
        have aboveNow := locksToo.stays.active heldDir heldDir above
        have typeNow := (locksToo.stays.type heldDir above).trans type
        refine wp_bind.mpr (wp_getMem ?_)
        split
        · exact tolerates _ (by decide)
        · have checked : (removable devsw behind ip).wp (withRoom sb sb.size)
              (fun _ e => Stays sb tidy (more (more refs dp) ip) (more (more refs dp) ip)
              (insert ip (insert dp ∅)) e4 e) escape e4 := by
            unfold removable
            refine wp_bind.mpr (wp_getMem ?_)
            split
            · exact locksToo.stays.order.isdirempty_wp tolerates locksToo.active devsw behind
            · exact Stays.refl locksToo.stays.order
          refine wp_seq checked ?_
          intro empty e5 stays
          have arrived := locked.trans stays.less.less
          split
          · refine wp_seq (stays.order.leave_wp tolerates locksToo.out) ?_
            intro _ e6 left
            refine wp_bind.mpr (wp_mono (left.order.leave_wp tolerates locks.out) ?_
              (fun _ stopped => stopped))
            exact fun _ _ leftToo => arrived.trans (left.less.trans leftToo)
          · exact wp_mono (stays.order.unlinkEntry_wp tolerates
              (stays.active heldDir heldDir aboveNow) ((stays.type heldDir aboveNow).trans typeNow)
              (stays.active held_more held_more locksToo.active) locksToo.out aligned devsw)
              (fun _ _ removed => arrived.trans removed) (fun _ stopped => stopped)

/-! ## New inodes -/

/-- What a call leaves behind that returns an inode, locked, with a type that `fit` allows. -/
def Opens (sb : Superblock) (tidy : Prop) (refs : Nat -> Nat) (fit : Nat -> Prop)
    (d : Device BSIZE Kernel) : Option Nat -> Device BSIZE Kernel -> Prop
  | none, e => Stays sb tidy refs refs ∅ d e
  | some ip, e => Stays sb tidy (more refs ip) refs (insert ip ∅) d e ∧ (e.mem.icache ip).Active ∧
      fit (e.mem.icache ip).copy.type

theorem InOrder.createDots_wp (order : InOrder sb tidy refs locked d) (tolerates : Tolerates escape)
    (above : (d.mem.icache dp).Active) (active : (d.mem.icache ip).Active) (devsw : Devsw)
    (behind : Nat -> Nat -> UInt8) (type : Nat) :
    (createDots devsw behind type dp ip).wp (withRoom sb sb.size)
      (fun _ e => Stays sb tidy refs refs locked d e) escape d := by
  have held := order.referred.mp above.1
  have heldToo := order.referred.mp active.1
  unfold createDots
  split
  · refine wp_seq (order.updateInode_wp above outward_linked) ?_
    intro _ e1 updated
    refine wp_bind.mpr (wp_getMem ?_)
    have activeNow := updated.active heldToo heldToo active
    refine wp_seq (updated.order.dirlink_wp tolerates activeNow
      (updated.order.number heldToo) devsw behind) ?_
    intro r e2 first
    split
    · exact tolerates _ (by decide)
    · refine wp_bind.mpr (wp_getMem ?_)
      refine wp_seq (first.order.dirlink_wp tolerates (first.active heldToo heldToo activeNow)
        (first.order.number held) devsw behind) ?_
      intro s e3 second
      split
      · exact tolerates _ (by decide)
      · exact updated.trans (first.trans second)
  · exact Stays.refl order

/-- `create` returns an inode of the type that it has been asked for. -/
theorem InOrder.create_wp {type : Nat} (order : InOrder sb tidy refs ∅ d)
    (tolerates : Tolerates escape) (held : 0 < refs cwd) (small : type < 2 ^ 16) (devsw : Devsw)
    (behind : Nat -> Nat -> UInt8) (major minor : Nat) :
    (create devsw behind cwd path type major minor).wp (withRoom sb sb.size)
      (Opens sb tidy refs (· = type) d) escape d := by
  unfold create
  refine wp_seq (order.namex_wp tolerates (Or.inr held) true) ?_
  rintro (_ | ⟨dp, name⟩) e1 parent
  · exact parent
  · refine wp_seq (parent.order.ilock_wp tolerates InOrder.capacity held_more) ?_
    intro _ e2 locks
    have entered := parent.trans locks.stays.less
    refine wp_seq (locks.stays.order.dirlookup_wp tolerates locks.active) ?_
    rintro (_ | ⟨ip, off⟩) e3 ⟨_, looked⟩
    · have missed := entered.trans looked.less
      refine wp_seq (looked.order.ialloc_wp tolerates small) ?_
      intro ip e4 new
      have heldDir : 0 < more (more refs dp) ip dp := Nat.lt_of_lt_of_le held_more (le_more _ ip dp)
      have above := new.stays.active held_more heldDir
          (looked.active held_more held_more locks.active)
      refine wp_seq (new.stays.order.ilock_wp tolerates InOrder.capacity held_more) ?_
      intro _ e5 locksToo
      have type_ : (e5.mem.icache ip).copy.type = type := by
        rw [locksToo.read new.unread, new.type]
      have aboveNow := locksToo.stays.active heldDir heldDir above
      refine wp_seq (locksToo.stays.order.updateInode_wp locksToo.active
        (outward_created major minor)) ?_
      intro _ e6 updated
      refine wp_seq (updated.order.createDots_wp tolerates (updated.active heldDir heldDir aboveNow)
        (updated.active held_more held_more locksToo.active) devsw behind type) ?_
      intro _ e7 dots
      have filled := updated.trans dots
      refine wp_bind.mpr (wp_getMem ?_)
      refine wp_seq (dots.order.dirlink_wp tolerates (filled.active heldDir heldDir aboveNow)
        (dots.order.number held_more) devsw behind) ?_
      intro r e8 entry
      split
      · exact tolerates _ (by decide)
      · have both := entry.order
        rw [more_comm, Finset.insert_comm] at both
        refine wp_bind.mpr (wp_mono (both.leave_wp tolerates (notMem_other locksToo.out)) ?_
          (fun _ stopped => stopped))
        intro _ e9 left
        have kept := filled.trans entry
        refine ⟨missed.trans (new.stays.less.trans
          (locksToo.stays.less.less.trans (kept.less.less.trans left.less))),
          left.active held_more held_more (kept.active held_more held_more locksToo.active), ?_⟩
        rw [left.type held_more (kept.active held_more held_more locksToo.active),
          kept.type held_more locksToo.active, type_]
    · have both := looked.1.order
      rw [more_comm] at both
      refine wp_seq (both.leave_wp tolerates locks.out) ?_
      intro _ e4 left
      have found := entered.trans (looked.1.less.trans left.less)
      refine wp_seq (left.order.ilock_wp tolerates InOrder.capacity held_more) ?_
      intro _ e5 locksToo
      have locked := found.trans locksToo.stays.less
      refine wp_bind.mpr (wp_getMem ?_)
      split
      · rename_i mirrored
        exact ⟨locked, locksToo.active, mirrored.2.trans mirrored.1.symm⟩
      · split
        · rename_i plain
          exact ⟨locked, locksToo.active, plain.2.trans plain.1.symm⟩
        · refine wp_bind.mpr (wp_mono (locksToo.stays.order.leave_wp tolerates locksToo.out) ?_
            (fun _ stopped => stopped))
          exact fun _ _ out => found.trans (locksToo.stays.less.trans out)

theorem InOrder.makeNode_wp {type : Nat} (order : InOrder sb tidy refs ∅ d)
    (tolerates : Tolerates escape) (held : 0 < refs cwd) (small : type < 2 ^ 16) (devsw : Devsw)
    (behind : Nat -> Nat -> UInt8) (major minor : Nat) :
    (makeNode devsw behind cwd path type major minor).wp (withRoom sb sb.size)
      (fun _ e => Stays sb tidy refs refs ∅ d e) escape d := by
  unfold makeNode
  refine wp_seq (order.create_wp tolerates held small devsw behind major minor) ?_
  rintro (_ | ip) e created
  · exact created
  · refine wp_bind.mpr (wp_mono (created.1.order.leave_wp tolerates (Finset.notMem_empty ip)) ?_
      (fun _ stopped => stopped))
    exact fun _ _ left => created.1.trans left

/-! ## Opening files -/

/-- A file that `sys_open` opens for writing. -/
def Writes (omode : Nat) : Prop := omode &&& O_WRONLY ≠ 0 ∨ omode &&& O_RDWR ≠ 0

instance (omode : Nat) : Decidable (Writes omode) := instDecidableOr

/-- A directory is not opened for writing. -/
theorem InOrder.openInode_wp {omode : Nat} (order : InOrder sb tidy refs ∅ d)
    (tolerates : Tolerates escape) (held : 0 < refs cwd) (devsw : Devsw)
    (behind : Nat -> Nat -> UInt8) :
    (openInode devsw behind cwd path omode).wp (withRoom sb sb.size)
      (Opens sb tidy refs (fun type => Writes omode -> type ≠ T_DIR) d) escape d := by
  unfold openInode
  split
  · generalize isType : (if omode &&& O_MIRRORED ≠ 0 then T_MIRRORED else T_FILE) = type
    have either : type = T_MIRRORED ∨ type = T_FILE := by
      rw [← isType]
      exact ite_eq_or_eq _ _ _
    have small : type < 2 ^ 16 := by
      rcases either with same | same <;> rw [same] <;> decide
    refine wp_mono (order.create_wp tolerates held small devsw behind 0 0) ?_
      (fun _ stopped => stopped)
    rintro (_ | ip) e created
    · exact created
    · refine ⟨created.1, created.2.1, fun _ directory => ?_⟩
      rw [created.2.2] at directory
      rcases either with same | same <;> rw [same] at directory <;> exact nomatch directory
  · refine wp_seq (order.namei_wp tolerates (Or.inr held)) ?_
    rintro (_ | ip) e1 found
    · exact found
    · refine wp_seq (found.order.ilock_wp tolerates InOrder.capacity held_more) ?_
      intro _ e2 locks
      have locked := found.trans locks.stays.less
      refine wp_bind.mpr (wp_getMem ?_)
      split
      · refine wp_bind.mpr (wp_mono (locks.stays.order.leave_wp tolerates locks.out) ?_
          (fun _ stopped => stopped))
        exact fun _ _ left => locked.trans left
      · rename_i allowed
        refine ⟨locked, locks.active, fun writes directory =>
          allowed ⟨directory, fun readOnly => ?_⟩⟩
        rw [readOnly] at writes
        rcases writes with wronly | rdwr
        · exact wronly rfl
        · exact rdwr rfl

/-- What `sys_open` leaves behind: the inode of a new file is referred to, and it is not a directory
if it may be written. -/
def OpensFile (sb : Superblock) (tidy : Prop) (refs : Nat -> Nat) (d : Device BSIZE Kernel) :
    Option File -> Device BSIZE Kernel -> Prop
  | none, e => Stays sb tidy refs refs ∅ d e
  | some f, e => Stays sb tidy (more refs f.ip) refs ∅ d e ∧ (f.writable = true ->
      (e.mem.icache f.ip).valid = true ∧ (e.mem.icache f.ip).copy.type ≠ T_DIR)

theorem InOrder.sys_open_wp {omode : Nat} {place : Bool} (order : InOrder sb tidy refs ∅ d)
    (tolerates : Tolerates escape) (held : 0 < refs cwd) (devsw : Devsw)
    (behind : Nat -> Nat -> UInt8) :
    (sys_open devsw behind cwd path omode place).wp (withRoom sb sb.size) (OpensFile sb tidy refs d)
      escape d := by
  unfold sys_open
  refine wp_seq (order.openInode_wp tolerates held devsw behind) ?_
  rintro (_ | ip) e1 opened
  · exact opened
  · rcases opened with ⟨stays, active, fit⟩
    dsimp only
    split
    · refine wp_bind.mpr (wp_mono (stays.order.leave_wp tolerates (Finset.notMem_empty ip)) ?_
        (fun _ stopped => stopped))
      exact fun _ _ left => stays.trans left
    · refine wp_bind.mpr (wp_mono (stays.order.iunlock_wp tolerates) ?_ (fun _ stopped => stopped))
      intro _ e2 unlocked
      rw [Finset.erase_insert (Finset.notMem_empty ip)] at unlocked
      refine ⟨stays.trans unlocked.less,
        fun writable => ⟨(unlocked.active held_more held_more active).2, ?_⟩⟩
      show (e2.mem.icache ip).copy.type ≠ T_DIR
      rw [unlocked.type held_more active]
      exact fit (of_decide_eq_true writable)

/-- `sys_chdir` drops the reference to the old directory if there is a new one. -/
def Moves (sb : Superblock) (tidy : Prop) (rest : Nat -> Nat) (cwd : Nat)
    (d : Device BSIZE Kernel) : Option Nat -> Device BSIZE Kernel -> Prop
  | none, e => Stays sb tidy (more rest cwd) (more rest cwd) ∅ d e
  | some ip, e => Stays sb tidy (more rest ip) rest ∅ d e

theorem InOrder.sys_chdir_wp {rest : Nat -> Nat} (order : InOrder sb tidy (more rest cwd) ∅ d)
    (tolerates : Tolerates escape) :
    (sys_chdir cwd path).wp (withRoom sb sb.size) (Moves sb tidy rest cwd d) escape d := by
  unfold sys_chdir
  refine wp_seq (order.namei_wp tolerates (Or.inr held_more)) ?_
  rintro (_ | ip) e1 found
  · exact found
  · refine wp_seq (found.order.ilock_wp tolerates InOrder.capacity held_more) ?_
    intro _ e2 locks
    have locked := found.trans locks.stays.less
    refine wp_bind.mpr (wp_getMem ?_)
    split
    · refine wp_bind.mpr (wp_mono (locks.stays.order.leave_wp tolerates locks.out) ?_
        (fun _ stopped => stopped))
      exact fun _ _ left => locked.trans left
    · refine wp_seq (locks.stays.order.iunlock_wp tolerates) ?_
      intro _ e3 unlocked
      rw [Finset.erase_insert locks.out] at unlocked
      have both := unlocked.order
      rw [more_comm] at both
      refine wp_bind.mpr (wp_mono (both.iput_wp tolerates
        (fun inside => absurd inside (Finset.notMem_empty cwd))) ?_ (fun _ stopped => stopped))
      exact fun _ _ dropped => locked.less.trans (unlocked.less.less.trans dropped.less)

/-! ## Open files -/

/-- The file's inode is in memory and not a directory, if the file may be written. -/
def File.Fit (k : Kernel) (f : File) : Prop :=
  f.writable = true -> (k.icache f.ip).valid = true ∧ (k.icache f.ip).copy.type ≠ T_DIR

/-- A write to the file does not make a mirrored file longer than 46 blocks. -/
def File.Short (k : Kernel) (f : File) (n : Nat) : Prop :=
  (k.icache f.ip).copy.type = T_MIRRORED -> f.off ≤ (k.icache f.ip).copy.logical_size ->
    f.off + n ≤ 46 * BSIZE

/-- The same file, perhaps at another offset. -/
def File.Moved (f g : File) : Prop := g.ip = f.ip ∧ g.writable = f.writable

theorem File.moved_advance (f : File) (r : Int) : f.Moved (f.advance r) := by
  unfold File.advance
  split
  · exact ⟨rfl, rfl⟩
  · exact ⟨rfl, rfl⟩

theorem InOrder.fileread_wp {file : File} (order : InOrder sb tidy refs ∅ d)
    (tolerates : Tolerates escape) (held : 0 < refs file.ip) (devsw : Devsw)
    (behind : Nat -> Nat -> UInt8) (n : Nat) :
    (fileread devsw behind file n).wp (withRoom sb sb.size)
      (fun result e => file.Moved result.1 ∧ Stays sb tidy refs refs ∅ d e) escape d := by
  unfold fileread
  split
  · exact ⟨⟨rfl, rfl⟩, Stays.refl order⟩
  · refine wp_seq (order.ilock_wp tolerates InOrder.capacity held) ?_
    intro _ e1 locks
    refine wp_seq (locks.stays.order.readi_wp tolerates locks.active devsw behind) ?_
    intro r e2 read
    refine wp_bind.mpr (wp_mono (read.order.iunlock_wp tolerates) ?_ (fun _ stopped => stopped))
    intro _ e3 unlocked
    rw [Finset.erase_insert locks.out] at unlocked
    exact ⟨file.moved_advance r.1, locks.stays.trans (read.trans unlocked)⟩

theorem InOrder.filewrite_wp {file : File} {src : List UInt8} (order : InOrder sb tidy refs ∅ d)
    (tolerates : Tolerates escape) (held : 0 < refs file.ip) (fit : file.Fit d.mem)
    (short : file.Short d.mem src.length) (devsw : Devsw) :
    (filewrite devsw file src).wp (withRoom sb sb.size)
      (fun result e => file.Moved result.1 ∧ Stays sb tidy refs refs ∅ d e) escape d := by
  unfold filewrite
  split
  · exact ⟨⟨rfl, rfl⟩, Stays.refl order⟩
  · rename_i writable
    have plain := fit (by simpa using writable)
    refine wp_seq (order.ilock_wp tolerates InOrder.capacity held) ?_
    intro _ e1 locks
    have copy := locks.kept plain.1
    refine wp_seq (locks.stays.order.writei_wp tolerates locks.active (by rw [copy]; exact plain.2)
      (by rw [copy]; exact short) devsw) ?_
    intro r e2 written
    refine wp_bind.mpr (wp_mono (written.order.iunlock_wp tolerates) ?_ (fun _ stopped => stopped))
    intro _ e3 unlocked
    rw [Finset.erase_insert locks.out] at unlocked
    exact ⟨file.moved_advance r, locks.stays.trans (written.trans unlocked)⟩

end Calls

end TripleFs
end OsProjects
