import OsProjects.TripleFs.Truncation

namespace OsProjects
namespace TripleFs

open Machine

/-!
# Every buffer is handed back

The functions that work on the blocks of an inode never wait for a buffer that they hold
themselves, never use one that they do not hold, and hold none in the end.

Block ownership alone is not enough for this.  A block that `balloc` hands out as an
indirect block is not cleared, so what it contained before is taken for block numbers, and
two copies of a mirrored block may get the same number.  The blocks that `balloc` may hand
out have to be zero.
-/

/-- A call of one of the functions that work on the blocks of an inode. -/
inductive BlockCall
  | readi (off n : Nat)
  | writei (src : List UInt8) (off : Nat)
  | bmap (bn : Nat)
  | mbmap (bn mbn : Nat)
  | itrunc

/-- What the call runs. -/
def BlockCall.program (devsw : Devsw) (behind : Nat -> Nat -> UInt8) (ip : Nat) :
    BlockCall -> Fs Unit
  | .readi off n => do
      let _ <- TripleFs.readi devsw behind ip off n
      pure ()
  | .writei src off => do
      let _ <- TripleFs.writei devsw ip src off
      pure ()
  | .bmap bn => do
      let _ <- TripleFs.bmap ip bn
      pure ()
  | .mbmap bn mbn => do
      let _ <- TripleFs.mbmap ip bn mbn
      pure ()
  | .itrunc => TripleFs.itrunc ip

/-- The call stays within the capacity of the file. -/
def BlockCall.Within (c : Dinode) : BlockCall -> Prop
  | .readi off n => min (off + n) c.logical_size ≤ fileCapacity c.type
  | .writei src off => WriteFits c off src.length
  | .bmap bn => bn < MAXFILE
  | .mbmap bn mbn => MirrorFits bn mbn
  | .itrunc => True

/-- The run ends with no buffer in use, or the file system stops it for want of blocks.  It does not
sleep forever, run out of buffers or use a buffer that it does not hold. -/
def HandsBack (program : Fs Unit) (s : Store Kernel) : Prop :=
  Program.wp (exec program) (fun _ t => forall b, b ∈ t.bufs -> b.busy = false)
    (· = .panic .ballocOutOfBlocks) s

/-- The sectors that `balloc` may hand out are zero, behind the end of the disk too. -/
def FreshZero (sb : Superblock) (disk : Nat -> Block) : Prop :=
  forall b, sb.dataStart ≤ b -> b < scanned sb -> used sb disk b = false -> disk b = Bytes.fill 0

section Discipline

variable {sb : Superblock} {ends : Nat} {escape : Stop FsPanic -> Prop} {v : Volume}
  {s : Store Kernel} {d : Device BSIZE Kernel} {ip : Nat} {lent : Finset Nat}

open BlockProgram

/-- Blocks up to `sb.size` are blocks up to where `balloc` looks. -/
theorem Owning.widen (owning : Owning sb ends v lent d) : Owning sb (scanned sb) v lent d := by
  have ledger := owning.owns.ledger
  refine ⟨owning.isSuper, Nat.le_refl _, owning.live, owning.apart, owning.numbers,
    ⟨⟨ledger.reserved, fun t stored => ?_, ledger.once, fun _ _ _ _ => rfl⟩, owning.owns.fits⟩,
    owning.lends⟩
  rcases ledger.stored t stored with ⟨lower, upper, inUse⟩
  exact ⟨lower, Nat.lt_of_lt_of_le upper owning.scans, inUse⟩

/-- Block ownership and free blocks that are zero, and no buffer held. -/
theorem Owning.secure (owning : Owning sb ends v ∅ d) (zero : FreshZero sb d.disk) :
    Secure sb (scanned sb) v ∅ d := by
  refine ⟨owning.widen, fun b lower upper free => ?_, Or.inr (Nat.le_refl _),
    fun x inside => absurd inside (Finset.notMem_empty x)⟩
  rw [used_of_marked upper] at free
  exact (owning.block lower).trans (zero b lower upper free)

/-- When no block is lent no buffer is busy. -/
theorem Shows.idle (shows : Shows s d) {loose : Nat -> Prop} (lends : Lends sb loose ∅ d) (b : Buf)
    (inside : b ∈ s.bufs) : b.busy = false := by
  by_contra busy
  have held := (shows.bufs.held b inside (Bool.not_eq_false _ ▸ busy)).2
  have none_ := lends.idle (Finset.notMem_empty b.sector)
  rw [held] at none_
  exact nomatch none_

/-- What a call leaves behind satisfies block ownership, with no buffer held. -/
theorem BlockCall.program_wp (secure : Secure sb ends v ∅ d)
    (allowed : escape (.panic .ballocOutOfBlocks)) (active : (d.mem.icache ip).Active)
    (devsw : Devsw) (behind : Nat -> Nat -> UInt8) (call : BlockCall)
    (within : call.Within (d.mem.icache ip).copy) :
    (call.program devsw behind ip).wp (withRoom sb ends)
      (fun _ e => Exists fun w => Secure sb ends w ∅ e) escape d := by
  cases call with
  | readi off n =>
      have asks : Asks AnySlot 0 (d.mem.icache ip).copy.logical_size
          (copiesOf (d.mem.icache ip).copy.type) :=
        fun _ _ _ _ _ => trivial
      refine wp_seq (secure.readi_wp allowed active devsw (Or.inl within) asks) ?_
      rintro _ e ⟨w, worked, _⟩
      exact ⟨w, worked.secure⟩
  | writei src off =>
      refine wp_seq (secure.writei_wp allowed active devsw (Or.inl within)) ?_
      rintro _ e (rfl | ⟨_, _, w, _, wrote⟩)
      · exact ⟨v, secure⟩
      · exact ⟨w, wrote.changed.secure⟩
  | bmap bn =>
      refine wp_seq (secure.bmap_wp (Nat.zero_le 3) allowed active (Or.inl within)
        (show AnySlot _ from trivial)) ?_
      rintro _ e ⟨w, worked, _⟩
      exact ⟨w, worked.secure⟩
  | mbmap bn mbn =>
      refine wp_seq (secure.mbmap_wp (Nat.zero_le 3) allowed active within
        (show AnySlot _ from trivial) trivial) ?_
      rintro _ e ⟨w, worked, _⟩
      exact ⟨w, worked.secure⟩
  | itrunc =>
      refine wp_mono (secure.itrunc_wp active) ?_ (fun _ stopped => stopped)
      rintro _ e ⟨w, emptied⟩
      exact ⟨w, emptied.secure⟩

end Discipline

/-- In a state that satisfies block ownership, with zeros in the blocks that `balloc` may hand
out, every call within the capacity of the file hands back every buffer. -/
theorem buffers_handed_back {sb : Superblock} {ip : Nat} {s : Store Kernel} {v : Volume}
    {d : Device BSIZE Kernel} (store : OwningStore sb ip s v d) (zero : FreshZero sb s.disk)
    (devsw : Devsw) (behind : Nat -> Nat -> UInt8) (call : BlockCall)
    (within : call.Within (s.mem.icache ip).copy) : HandsBack (call.program devsw behind ip) s := by
  rw [store.shows.disk] at zero
  rw [store.shows.mem] at within
  have runs := @BlockCall.program_wp _ _ (· = .panic .ballocOutOfBlocks) _ _ _
      (store.owning.secure zero) rfl store.active devsw behind call within
  refine Program.wp_mono (exec_sound store.shows
    (throughout_of_forall (fun _ => Or.inr (Nat.le_refl _)) _ _) runs) ?_ (fun _ stopped => stopped)
  rintro _ t ⟨e, shows, w, secure⟩
  exact fun b inside => shows.idle secure.owning.lends b inside

theorem buffers_handed_back_read :
    HandsBack (BlockCall.program ⟨fun _ => none, fun _ => none⟩ (fun _ _ => 0) 0 (.readi 0 512))
      ⟨bareDisk 63 (Bytes.fill 0), binit, bareKernel (bareFile T_MIRRORED 512 5)⟩ := by
  have known : forall b, b < 8 -> (63 : UInt8).toNat.testBit b = decide (b < 6) := by decide
  have store : OwningStore blankSuper 0 ⟨bareDisk 63 (Bytes.fill 0), binit,
      bareKernel (bareFile T_MIRRORED 512 5)⟩ _ _ :=
    ⟨shows_binit _ _, owning_bare known (by decide) (by decide) (by decide) (by decide),
      by decide, rfl⟩
  exact buffers_handed_back store (fun b lower _ _ => if_pos lower) _ _ (.readi 0 512)
    (show min (0 + 512) 512 ≤ fileCapacity T_MIRRORED by decide)

/-! ## Blocks that are not zero -/

section Stale

variable {disk : Nat -> Block} {c : Dinode} {a : Nat}

theorem word_fill_one {k : Nat} (small : k < 3) : (Bytes.fill 1 : Block).word k = 16843009 := by
  have which : k = 0 ∨ k = 1 ∨ k = 2 := by omega
  rcases which with rfl | rfl | rfl <;> rfl

/-- All copies of the first mirrored block in an indirect block that has not been cleared have
one number. -/
theorem copyAt_stale (indirect : c.addrs NDIRECT = a) (nonnull : a ≠ 0)
    (stale : disk a = Bytes.fill 1) {i : Nat} (small : i < 3) : copyAt disk c 4 i = 16843009 := by
  unfold copyAt addressOf
  rw [if_neg (by simp only [NDIRECT]; omega), indirect, if_neg nonnull, stale]
  have entry : 4 * 3 + i - NDIRECT = i := by
    simp only [NDIRECT]
    omega
  rw [entry]
  exact word_fill_one small

open BlockProgram

/-- The indirect block of the file has been taken and has not been cleared. -/
structure StaleIndirect (e : Device BSIZE Kernel) (a : Nat) : Prop where
  indirect : (e.mem.icache 0).copy.addrs NDIRECT = a
  nonnull : a ≠ 0
  other : a ≠ 16843009
  stale : e.disk a = Bytes.fill 1
  resting : e.Resting a

/-- `mbmap` then has one answer for all copies. -/
theorem StaleIndirect.mbmap_wp {e : Device BSIZE Kernel} {limits : Limits BSIZE}
    {escape : Stop FsPanic -> Prop} {post : Nat -> Device BSIZE Kernel -> Prop} {j : Nat}
    (indirect : StaleIndirect e a) (small : j < 3) (space : e.busy < limits.capacity)
    (holds : post 16843009 e) : (mbmap 0 (4 * 3) j).wp limits post escape e := by
  have copies : forall i, i < 3 -> copyAt e.disk (e.mem.icache 0).copy 4 i = 16843009 :=
    fun i => copyAt_stale indirect.indirect indirect.nonnull indirect.stale
  refine mbmap_present rfl (indirect.indirect ▸ indirect.resting) space small (fun i below => ?_) ?_
  · rw [copies i below]
    decide
  · rw [copies j small]
    exact holds

/-- The first call of `mbmap` takes the indirect block. -/
theorem mbmap_takes_stale {v : Volume} {d : Device BSIZE Kernel} {escape : Stop FsPanic -> Prop}
    (owning : Owning blankSuper blankSuper.size v ∅ d) (quiet : Quiet d)
    (empty : (d.mem.icache 0).copy.addrs NDIRECT = 0)
    (large : forall b, 5 ≤ b -> d.disk b = Bytes.fill 1)
    (free : marked blankSuper d.disk 5 = false) :
    (mbmap 0 (4 * 3) 0).wp ⟨NBUF, fun _ => True⟩
      (fun x e => x = 16843009 ∧ Quiet e ∧ Exists fun a => StaleIndirect e a) escape d := by
  have ample : Ample blankSuper blankSuper.size escape (marked blankSuper d.disk) :=
    Or.inl ⟨5, by decide, free⟩
  have space : (∅ : Finset Nat).card + 3 < (⟨NBUF, fun _ => True⟩ : Limits BSIZE).capacity := by
    decide
  have position : (4 * 3) - NDIRECT + 0 = 0 := rfl
  unfold mbmap
  rw [if_neg (by decide), if_pos (by decide)]
  refine wp_seq (owning.ensureAddr_wp space ample (Nat.le_refl _)) ?_
  rintro a e (⟨stored, nonnull, _⟩ | ⟨_, f, fresh, rfl⟩)
  · rw [empty] at stored
    exact absurd stored.symm nonnull
  · have lower : 5 ≤ a := fresh.lower
    have upper : a < 200 := fresh.upper
    have scans : a < scanned blankSuper := Nat.lt_trans upper (by decide)
    have place := (BBLOCK_bounds scans).2
    have quietToo : Quiet (addrStored d 0 NDIRECT a f) := by
      rw [addrStored, fresh.taken]
      exact quiet.store.withMem _
    have block : (addrStored d 0 NDIRECT a f).disk a = Bytes.fill 1 := by
      rw [addrStored_disk fresh]
      refine (Function.update_of_ne ?_ _ _).trans (large a lower)
      have start : blankSuper.dataStart = 5 := rfl
      omega
    have word := @word_fill_one 0 (by decide)
    rw [if_pos (by decide), position]
    refine ensureEntry_present (quietToo.resting a) ?_ (by rw [block, word]; decide) ?_
    · rw [quietToo.idle]
      exact (by decide : 0 < NBUF)
    · rw [block, word]
      refine ⟨rfl, quietToo, a, ?_, by omega, by omega, block, quietToo.resting a⟩
      show ((d.mem.adjust 0 _).icache 0).copy.addrs NDIRECT = a
      rw [Kernel.adjust_self]
      exact Dinode.setAddr_self _ _ _

/-- Two copies have one number, so the second `bread` waits for the first. -/
theorem readMirrored_asleep {v : Volume} {d : Device BSIZE Kernel} (behind : Nat -> Nat -> UInt8)
    (diffs : Diffs) (owning : Owning blankSuper blankSuper.size v ∅ d) (quiet : Quiet d)
    (empty : (d.mem.icache 0).copy.addrs NDIRECT = 0)
    (large : forall b, 5 ≤ b -> d.disk b = Bytes.fill 1)
    (free : marked blankSuper d.disk 5 = false) :
    (readMirrored behind 0 1 1 2048 1 diffs).wp ⟨NBUF, fun _ => True⟩ (fun _ _ => False)
      (· = .asleep) d := by
  have block : 2048 / BSIZE = 4 := rfl
  rw [readMirrored, if_neg (by decide), block]
  refine wp_seq (mbmap_takes_stale owning quiet empty large free) ?_
  rintro _ e ⟨rfl, quietToo, a, stale⟩
  have space : e.busy + 1 < NBUF := by
    rw [quietToo.idle]
    decide
  refine wp_bind.mpr (wp_bread (quietToo.resting _) (Nat.lt_of_succ_lt space) ?_)
  have held : StaleIndirect (e.hold 16843009 (e.disk 16843009)) a :=
    ⟨stale.indirect, stale.nonnull, stale.other, stale.stale, stale.resting.hold stale.other⟩
  refine wp_bind.mpr (held.mbmap_wp (by decide) space ?_)
  refine wp_bind.mpr (held.mbmap_wp (by decide) space ?_)
  refine wp_bind.mpr (held.mbmap_wp (by decide) space ?_)
  refine wp_bind.mpr (held.mbmap_wp (by decide) space ?_)
  refine wp_bind.mpr ?_
  have busy : (e.hold 16843009 (e.disk 16843009)).held 16843009 ≠ none := by
    rw [Device.held_hold_self]
    exact Option.some_ne_none _
  exact ⟨fun _ => rfl, fun idle => absurd idle busy, fun idle => absurd idle busy⟩

end Stale

open BlockProgram

/-- A mirrored file with a hole, on a disk on which the blocks that are free are not zero. -/
def staleStore : Store Kernel :=
  ⟨bareDisk 31 (Bytes.fill 1), binit, bareKernel (bareFile T_MIRRORED 4096 0)⟩

def staleDevice : Device BSIZE Kernel :=
  fresh (bareDisk 31 (Bytes.fill 1)) (bareKernel (bareFile T_MIRRORED 4096 0))

theorem owning_stale :
    OwningStore blankSuper 0 staleStore (bareVolume (Bytes.fill 1) (bareFile T_MIRRORED 4096 0))
      staleDevice := by
  have known : forall b, b < 8 -> (31 : UInt8).toNat.testBit b = decide (b < 5) := by decide
  have owning := @owning_bare 31 (Bytes.fill 1) 5 T_MIRRORED 4096 0 known (by decide) (by decide)
      (by decide) (fun nonnull => absurd rfl nonnull)
  exact ⟨shows_binit _ _, owning, Nat.zero_lt_one, rfl⟩

theorem marked_stale : marked blankSuper staleDevice.disk 5 = false :=
  (@marked_bare 31 (Bytes.fill 1) 5 (by decide) (by decide) 5 (by decide)).trans (by decide)

/-- A read of such a file waits for the buffer that it holds. -/
theorem readi_asleep (devsw : Devsw) (behind : Nat -> Nat -> UInt8) :
    exec (BlockCall.program devsw behind 0 (.readi 2048 1)) staleStore = .panic .asleep := by
  have owning := owning_stale.owning
  have quiet : Quiet staleDevice := quiet_fresh _ _
  have copy : (staleDevice.mem.icache 0).copy = bareFile T_MIRRORED 4096 0 := rfl
  have large : forall b, 5 ≤ b -> staleDevice.disk b = Bytes.fill 1 := fun b above => if_pos above
  have free := marked_stale
  have shows := owning_stale.shows
  generalize staleDevice = d at owning quiet copy large free shows
  have runs : (BlockCall.program devsw behind 0 (.readi 2048 1)).wp ⟨NBUF, fun _ => True⟩
      (fun _ _ => False) (· = .asleep) d := by
    refine wp_bind.mpr ?_
    unfold readi
    refine wp_bind.mpr (wp_getMem ?_)
    have type : (d.mem.icache 0).copy.type = T_MIRRORED := congrArg Dinode.type copy
    have size : (d.mem.icache 0).copy.logical_size = 4096 := congrArg Dinode.logical_size copy
    have empty : (d.mem.icache 0).copy.addrs NDIRECT = 0 :=
      congrFun (congrArg Dinode.addrs copy) NDIRECT
    have whole : (if 4096 < 2048 + 1 then 4096 - 2048 else 1) = 1 := if_neg (by omega)
    dsimp only
    rw [type, size, whole, if_neg (by decide), if_neg (by omega), if_pos rfl]
    exact wp_bind.mpr (wp_mono (readMirrored_asleep behind _ owning quiet empty large free)
      (fun _ _ none_ => none_.elim) (fun _ stopped => stopped))
  have ran := @exec_sound _ _ _ (fun _ => True) _ _ _ staleStore d shows (throughout_true _ _) runs
  unfold Program.wp at ran
  split at ran
  · rcases ran with ⟨_, _, none_⟩
    exact none_.elim
  · rename_i reason ended
    rw [ended, ran]

theorem HandsBack.awake {program : Fs Unit} {s : Store Kernel} (back : HandsBack program s) :
    exec program s ≠ .panic .asleep := by
  intro ended
  unfold HandsBack Program.wp at back
  rw [ended] at back
  exact nomatch back

/-- Block ownership alone is not enough. -/
theorem ownership_alone_sleeps :
    ¬ forall (sb : Superblock) (ip : Nat) (s : Store Kernel) (v : Volume) (d : Device BSIZE Kernel)
      (devsw : Devsw) (behind : Nat -> Nat -> UInt8) (call : BlockCall),
      OwningStore sb ip s v d -> call.Within (s.mem.icache ip).copy ->
      HandsBack (call.program devsw behind ip) s := by
  intro always
  have within : BlockCall.Within (staleStore.mem.icache 0).copy (.readi 2048 1) := by
    have copy : (staleStore.mem.icache 0).copy = bareFile T_MIRRORED 4096 0 := rfl
    have capacity : fileCapacity T_MIRRORED = 46 * 512 := rfl
    rw [copy]
    show min (2048 + 1) 4096 ≤ fileCapacity T_MIRRORED
    rw [capacity]
    omega
  have back := always blankSuper 0 staleStore _ staleDevice ⟨fun _ => none, fun _ => none⟩
      (fun _ _ => 0) (.readi 2048 1) owning_stale within
  exact back.awake (readi_asleep _ _)

end TripleFs
end OsProjects
