import OsProjects.TripleFs.HeldBlocks

namespace OsProjects
namespace TripleFs

open Machine

/-!
# Buffers that are borrowed and handed back

Reading and writing a file borrows the blocks of the file one after the other, a read of a
mirrored file three at a time.  What such a buffer contains does not matter here; a repair
may leave contents in it that the disk does not have.
-/

namespace Lends

variable {sb : Superblock} {ends : Nat} {loose : Nat -> Prop} {lent : Finset Nat}
  {d : Device BSIZE Kernel} {s : Nat} {data : Block}

theorem idle (lends : Lends sb loose lent d) (out : s ∉ lent) : d.held s = none :=
  by_contra fun held => out ((lends.held s).mp held)

theorem some_ (lends : Lends sb loose lent d) (inside : s ∈ lent) :
    Exists fun data => d.held s = some data :=
  Option.ne_none_iff_exists'.mp ((lends.held s).mpr inside)

/-- Borrow a data block. -/
theorem borrow (lends : Lends sb loose lent d) (out : s ∉ lent) (above : sb.dataStart ≤ s) :
    Lends sb loose (insert s lent) (d.hold s data) := by
  refine ⟨fun x => ?_, ?_, fun x inside => ?_, fun x clean => ?_⟩
  · by_cases here : x = s
    · rw [here, Device.held_hold_self]
      exact iff_of_true nofun (Finset.mem_insert_self s lent)
    · rw [Device.held_hold_of_ne here, Finset.mem_insert, lends.held]
      exact (or_iff_right here).symm
  · rw [Finset.card_insert_of_notMem out, ← lends.count]
    rfl
  · rcases Finset.mem_insert.mp inside with here | there
    · rw [here]
      exact above
    · exact lends.data x there
  · by_cases here : x = s
    · rw [here]
      exact Function.update_self _ _ _
    · exact (Function.update_of_ne here _ _).trans (lends.clean x clean)

theorem change (lends : Lends sb loose lent d) (inside : s ∈ lent) :
    Lends sb loose lent (d.change s data) := by
  refine ⟨fun x => ?_, lends.count, lends.data, lends.clean⟩
  by_cases here : x = s
  · rw [here, Device.held_change_self]
    exact iff_of_true nofun inside
  · rw [← lends.held]
    exact not_congr
      (by rw [show (d.change s data).held x = d.held x from Function.update_of_ne here _ _])

/-- Hand a block back.  If the buffer differs from the disk, the difference stays in the cache. -/
theorem giveBack (lends : Lends sb loose lent d) (inside : s ∈ lent)
    (either : loose s ∨ d.held s = some (d.disk s)) :
    Lends sb loose (lent.erase s) (d.release s) := by
  refine ⟨fun x => ?_, ?_, fun x member => lends.data x (Finset.mem_of_mem_erase member),
    fun x clean => ?_⟩
  · rw [Finset.mem_erase]
    by_cases here : x = s
    · rw [here]
      refine iff_of_false (fun held => held (Function.update_self _ _ _)) (fun both => both.1 rfl)
    · rw [Device.held_release_of_ne here, lends.held]
      exact (and_iff_right here).symm
  · rw [Finset.card_erase_of_mem inside, ← lends.count]
    rfl
  · by_cases written : d.held s = some (d.disk s)
    · have same : (d.release s).aside = d.aside := if_pos written
      rw [same]
      exact lends.clean x clean
    · have different : x ≠ s := fun here => clean (here ▸ either.resolve_right written)
      have same : (d.release s).aside x = d.aside x := by
        simp only [Device.release, if_neg written]
        exact Function.update_of_ne different _ _
      rw [same]
      exact lends.clean x clean

/-- What the cache delivers of a sector that is not loose is what the disk has. -/
theorem known (lends : Lends sb loose lent d) (from_ : data = d.disk s ∨ data ∈ d.aside s) :
    loose s ∨ data = d.disk s := by
  rcases from_ with same | left
  · exact Or.inr same
  · refine Or.inl (by_contra fun clean => ?_)
    rw [lends.clean s clean] at left
    exact left

end Lends

section Borrowing

variable {sb : Superblock} {ends : Nat} {v w : Volume} {lent lentToo : Finset Nat}
  {d e : Device BSIZE Kernel} {ip s bn : Nat} {need : Nat -> Prop} {data : Block}

/-- Nothing has changed in memory or on the disk. -/
theorem Owning.still (owning : Owning sb ends v lent d)
    (lends : Lends sb (v.Loose sb (marked sb d.disk)) lentToo e) (mem : e.mem = d.mem)
    (disk : e.disk = d.disk) : Owning sb ends v lentToo e := by
  refine ⟨?_, owning.scans, owning.live.same mem (by rw [disk]), ?_, ?_, ?_, ?_⟩
  · rw [disk]
    exact owning.isSuper
  · rw [mem]
    exact owning.apart
  · rw [mem]
    exact owning.numbers
  · rw [disk]
    exact owning.owns
  · rw [disk]
    exact lends

theorem Secure.still (secure : Secure sb ends v lent d)
    (lends : Lends sb (v.Loose sb (marked sb d.disk)) lentToo e) (mem : e.mem = d.mem)
    (disk : e.disk = d.disk) (files : forall s, s ∈ lentToo -> v.FileBlock s) :
    Secure sb ends v lentToo e := by
  refine ⟨secure.owning.still lends mem disk, ?_, ?_, files⟩
  · rw [disk]
    exact secure.blank
  · rw [disk]
    exact secure.roomy

theorem Worked.still (secure : Secure sb ends v lentToo e) (mem : e.mem = d.mem)
    (disk : e.disk = d.disk) : Worked sb ends need v d ip v lentToo e := by
  refine ⟨⟨secure, ?_, ⟨_, mem.trans (Kernel.adjust_same rfl).symm⟩, fun j _ => by rw [disk],
    fun behind => ⟨?_, ?_⟩⟩, fun _ => rfl, by rw [disk], fun _ _ => rfl⟩
  · rw [disk]
    exact Touched.refl v _ _
  · rw [disk]
    exact behind.types
  · rw [disk]
    exact behind.addrs

namespace Worked

/-- The work goes on with a block that is borrowed. -/
theorem borrow (worked : Worked sb ends need v d ip w lent e) (file : w.FileBlock s)
    (out : s ∉ lent) : Worked sb ends need v d ip w (insert s lent) (e.hold s data) := by
  rcases file with ⟨nonnull, i, n, stored⟩
  have above := (worked.secure.owning.owns.above stored nonnull).1
  have secure := worked.secure.still (e := e.hold s data)
      (worked.secure.owning.lends.borrow out above) rfl rfl (fun x inside => by
    rcases Finset.mem_insert.mp inside with here | there
    · rw [here]
      exact ⟨nonnull, i, n, stored⟩
    · exact worked.secure.files x there)
  exact worked.trans (Worked.still secure rfl rfl)

theorem change (worked : Worked sb ends need v d ip w lent e) (inside : s ∈ lent) :
    Worked sb ends need v d ip w lent (e.change s data) :=
  worked.trans (Worked.still (worked.secure.still (e := e.change s data)
    (worked.secure.owning.lends.change inside) rfl rfl worked.secure.files) rfl rfl)

theorem giveBack (worked : Worked sb ends need v d ip w lent e) (inside : s ∈ lent)
    (either : w.Loose sb (marked sb e.disk) s ∨ e.held s = some (e.disk s)) :
    Worked sb ends need v d ip w (lent.erase s) (e.release s) :=
  worked.trans (Worked.still (worked.secure.still (e := e.release s)
    (worked.secure.owning.lends.giveBack inside either) rfl rfl
    (fun x member => worked.secure.files x (Finset.mem_of_mem_erase member))) rfl rfl)

/-- A block of the file of the inode is written. -/
theorem write (worked : Worked sb ends need v d ip w lent e) (nonnull : s ≠ 0)
    (stored : w.slot ((d.mem.icache ip).inum, Volume.place bn) = s)
    (roomy : Roomy sb ends (marked sb (e.store s data).disk)) :
    Worked sb ends need v d ip (w.setBlock s data) lent (e.store s data) := by
  have owning := worked.secure.owning
  have owned := owning.owns.ledger.owned
  have above := owning.owns.above stored nonnull
  have slots := Volume.slot_setBlock (Volume.notIndirect owned stored nonnull) data
  have contents := Volume.content_setBlock owned stored nonnull data
  have volume : sb.volume (e.store s data).disk = (sb.volume e.disk).setBlock s data :=
    Superblock.volume_setBlock above.1 data
  have sets : marked sb (e.store s data).disk = marked sb e.disk :=
    funext (marked_other (Or.inr above.1) data)
  have loose : forall x, w.Loose sb (marked sb e.disk) x ->
      (w.setBlock s data).Loose sb (marked sb (e.store s data).disk) x := by
    intro x loose
    rw [sets]
    exact loose.same (fun _ => rfl) slots
  have low : 1 ≠ s := by
    have large := dataStart_large sb
    omega
  have owningNow : Owning sb ends (w.setBlock s data) lent (e.store s data) := by
    refine ⟨?_, owning.scans, owning.live.setBlock rfl volume, owning.apart, owning.numbers, ?_,
      owning.lends.store.weaken loose⟩
    · rw [Device.disk_store_of_ne low]
      exact owning.isSuper
    · rw [sets]
      exact owning.owns.congr slots owning.owns.fits
  have secure : Secure sb ends (w.setBlock s data) lent (e.store s data) := by
    refine ⟨owningNow, fun b lower upper free => ?_, roomy,
      fun x inside => (worked.secure.files x inside).mono (fun t _ => slots t)⟩
    rw [sets] at free
    have other : b ≠ s := by
      intro here
      rw [here, above.2.2] at free
      exact nomatch free
    exact (Function.update_of_ne other _ _).trans (worked.secure.blank b lower upper free)
  have touched : Touched w (marked sb e.disk) (w.setBlock s data) (marked sb (e.store s data).disk)
      (e.mem.icache ip).inum := by
    rw [sets, worked.inum]
    refine ⟨fun t _ => slots t, fun t empty storedNow => ?_, fun _ => id, fun _ => Or.inl,
      fun j k different => ?_, fun _ _ => rfl, rfl⟩
    · rw [slots] at storedNow
      exact absurd empty storedNow
    · rw [contents, if_neg (fun both => different both.1)]
  have inodes : (sb.volume (e.store s data).disk).inode = (sb.volume e.disk).inode := by
    rw [volume]
    rfl
  exact worked.trans ⟨⟨secure, touched, ⟨_, (Kernel.adjust_same rfl).symm⟩,
    fun j _ => congrFun inodes j, fun behind => behind.touched touched inodes⟩,
    fun _ => rfl, inodes, fun _ => slots⟩

end Worked

end Borrowing

/-! ## Reading -/

section Reading

variable {sb : Superblock} {ends : Nat} {escape : Stop FsPanic -> Prop} {v w : Volume}
  {lent : Finset Nat} {d e : Device BSIZE Kernel} {ip k s : Nat} {need : Nat -> Prop}

open BlockProgram

/-- The places of the blocks that have the bytes are in `need`. -/
def Asks (need : Nat -> Prop) (off n copies : Nat) : Prop :=
  forall x, off ≤ x -> x < off + n -> forall j, j < copies ->
    need (Volume.place (x / BSIZE * copies + j))

section Asking

variable {off n m copies : Nat}

theorem Asks.first (asks : Asks need off n copies) (some_ : n ≠ 0) {j : Nat} (small : j < copies) :
    need (Volume.place (off / BSIZE * copies + j)) := asks off (Nat.le_refl off) (by omega) j small

theorem Asks.rest (asks : Asks need off n copies) (within : m ≤ n) :
    Asks need (off + m) (n - m) copies :=
  fun x lower upper => asks x (by omega) (by omega)

end Asking

theorem Worked.idle (worked : Worked sb ends need v d ip w lent e) (few : lent.card ≤ 3)
    (out : s ∉ lent) : e.held s = none ∧ e.busy < (withRoom sb ends).capacity := by
  have count := worked.secure.owning.lends.count
  have space := @Secure.space sb ends _ few
  exact ⟨worked.secure.owning.lends.idle out, by omega⟩

/-- The loop of `readi` for plain files. -/
theorem Secure.readPlain_wp (allowed : escape (.panic .ballocOutOfBlocks)) (fuel : Nat) :
    forall {v : Volume} {d : Device BSIZE Kernel} {off left : Nat}, Secure sb ends v ∅ d ->
      (d.mem.icache ip).Active -> off + left ≤ MAXFILE * BSIZE ∨ escape (.panic .bmapOutOfRange) ->
      Asks need off left 1 ->
      (readPlain ip fuel off left).wp (withRoom sb ends)
        (fun _ e => Exists fun w =>
          Worked sb ends need v d ip w ∅ e ∧ forall i n, w.content i n = v.content i n)
        escape d := by
  induction fuel with
  | zero => exact fun {v d off left} secure _ _ _ => ⟨v, Worked.refl secure, fun _ _ => rfl⟩
  | succ fuel ih =>
      intro v d off left secure active low asks
      rw [readPlain]
      by_cases none_ : left = 0
      · rw [if_pos none_]
        exact ⟨v, Worked.refl secure, fun _ _ => rfl⟩
      · have below : off / BSIZE < MAXFILE ∨ escape (.panic .bmapOutOfRange) := by
          refine low.imp (fun inside => ?_) id
          rw [Nat.div_lt_iff_lt_mul (by decide)]
          omega
        have needed := asks.first none_ (j := 0) (by decide)
        rw [Nat.mul_one, Nat.add_zero] at needed
        rw [if_neg none_]
        refine wp_seq (secure.bmap_wp (Nat.zero_le _) allowed active below needed) ?_
        rintro a e ⟨w, first, stored, nonnull, contents⟩
        have file : w.FileBlock a := ⟨nonnull, _, _, stored⟩
        have out := Finset.notMem_empty a
        rcases first.idle (Nat.zero_le _) out with ⟨idle, space⟩
        refine wp_bind.mpr (wp_borrow idle space (fun data known => ?_))
        have lent := @Worked.borrow _ _ _ _ _ _ _ _ _ _ data first file out
        refine wp_bind.mpr (wp_look Device.held_hold_self ?_)
        refine wp_bind.mpr (wp_brelse Device.held_hold_self ?_)
        have either : w.Loose sb (marked sb e.disk) a ∨
            (e.hold a data).held a = some ((e.hold a data).disk a) := by
          refine (first.secure.owning.lends.known known).imp id (fun same => ?_)
          rw [Device.held_hold_self, same]
          rfl
        have returned := lent.giveBack (Finset.mem_insert_self a ∅) either
        rw [Finset.erase_insert out] at returned
        refine wp_seq (ih returned.secure (returned.active active)
          (low.imp (fun inside => by omega) id) (asks.rest (Nat.min_le_left _ _))) ?_
        rintro rest f ⟨u, second, same⟩
        exact ⟨u, returned.trans second, fun i n => (same i n).trans (contents i n)⟩

/-- A copy of a block of the mirrored file in the entry `ip`. -/
structure IsCopy (w : Volume) (i k j s : Nat) : Prop where
  type : (w.inode i).type = T_MIRRORED
  stored : w.slot (i, Volume.place (k * 3 + j)) = s
  nonnull : s ≠ 0

theorem IsCopy.mirror {i j : Nat} (copy : IsCopy w i k j s) : w.Mirror s :=
  ⟨copy.nonnull, _, _, copy.type, copy.stored⟩

theorem IsCopy.file {i j : Nat} (copy : IsCopy w i k j s) : w.FileBlock s :=
  ⟨copy.nonnull, _, _, copy.stored⟩

/-- Work does not move copies. -/
theorem IsCopy.worked {i j : Nat} (copy : IsCopy v i k j s)
    (worked : Worked sb ends need v d ip w lent e) : IsCopy w i k j s :=
  ⟨(worked.touched.type i).trans copy.type, worked.slot copy.stored copy.nonnull, copy.nonnull⟩

theorem IsCopy.ne {i j j' s' : Nat} {bits : Nat -> Bool} (owns : v.Owns sb ends bits)
    (copy : IsCopy v i k j s) (other : IsCopy v i k j' s') (different : j ≠ j') : s ≠ s' := by
  intro same
  have equal := owns.ledger.once _ _ (by rw [copy.stored]; exact copy.nonnull)
      (copy.stored.trans (same.trans other.stored.symm))
  have place := Volume.place_injective (Prod.mk.inj equal).2
  omega

/-- The places of the copies of a block are in `need`. -/
def AsksCopies (need : Nat -> Prop) (k : Nat) : Prop :=
  forall j, j < 3 -> need (Volume.place (k * 3 + j))

/-- `mbmap` for a copy of a block, while other blocks are held. -/
theorem Worked.mbmap_wp {j : Nat} (worked : Worked sb ends need v d ip w lent e)
    (few : lent.card ≤ 3) (allowed : escape (.panic .ballocOutOfBlocks))
    (active : (d.mem.icache ip).Active)
    (mirrored : (v.inode (d.mem.icache ip).inum).type = T_MIRRORED) (small : j < 3)
    (below : k * 3 + j < MAXFILE) (copies : AsksCopies need k) :
    (mbmap ip (k * 3) j).wp (withRoom sb ends)
      (fun a f => Exists fun u =>
        Worked sb ends need v d ip u lent f ∧ Worked sb ends need w e ip u lent f ∧
        IsCopy u (d.mem.icache ip).inum k j a)
      escape e := by
  have needed : need (mirrorPlace (k * 3) j) := by
    rw [mirrorPlace_copy small]
    exact copies j small
  refine wp_mono (worked.secure.mbmap_wp few allowed (worked.active active)
    (mirrorFits_copy small below) (copies 0 (by decide)) needed) ?_ (fun _ stopped => stopped)
  rintro a f ⟨u, second, stored, nonnull⟩
  rw [worked.inum, mirrorPlace_copy small] at stored
  have both := worked.trans second
  exact ⟨u, both, second, (both.touched.type _).trans mirrored, stored, nonnull⟩

/-- Hand a copy back, read it again, change it with another one and write one of the two:
a repair branch. -/
theorem Worked.repairCopy_wp {Value : Type} {i j bad good target : Nat}
    {change : Block -> Block -> Block} {p : Nat -> Nat} {r : Nat -> Value}
    (worked : Worked sb ends need v d ip w lent e) (few : lent.card ≤ 3)
    (allowed : escape (.panic .ballocOutOfBlocks)) (active : (d.mem.icache ip).Active)
    (number : (d.mem.icache ip).inum = i) (small : j < 3) (below : k * 3 + j < MAXFILE)
    (isBad : IsCopy w i k j bad) (isPut : IsCopy w i k target (p bad)) (badIn : bad ∈ lent)
    (goodIn : good ∈ lent) (putIn : p bad ∈ lent) (copies : AsksCopies need k) : (do
      brelse bad
      let s <- mbmap ip (k * 3) j
      bread s
      let data <- look good
      patch s (change data)
      bwrite (p s)
      pure (r s) : Fs Value).wp (withRoom sb ends) (fun value f => value = r bad ∧ Exists fun u =>
        Worked sb ends need v d ip u lent f ∧ Worked sb ends need w e ip u lent f) escape e := by
  rcases worked.secure.owning.lends.some_ badIn with ⟨dataBad, heldBad⟩
  refine wp_bind.mpr (wp_brelse heldBad ?_)
  have still : Worked sb ends need w e ip w lent e := Worked.refl worked.secure
  have returned := still.giveBack badIn
      (Or.inl (worked.secure.owning.owns.loose_of_mirror isBad.mirror))
  have fewer : (lent.erase bad).card ≤ 3 := Nat.le_trans (Finset.card_erase_le) few
  have numberE : (e.mem.icache ip).inum = i := worked.inum.trans number
  refine wp_seq (returned.mbmap_wp fewer allowed (worked.active active)
    (by rw [numberE]; exact isBad.type) small below copies) ?_
  rintro s f ⟨x, first, _, again⟩
  have same : s = bad := by
    rw [numberE] at again
    rw [← again.stored]
    exact (isBad.worked first).stored
  rw [same]
  have out := Finset.notMem_erase bad lent
  rcases first.idle fewer out with ⟨idle, space⟩
  refine wp_bind.mpr (wp_borrow idle space (fun data known => ?_))
  have lentAgain := @Worked.borrow _ _ _ _ _ _ _ _ _ _ data first (isBad.worked first).file out
  rw [Finset.insert_erase badIn] at lentAgain
  rcases lentAgain.secure.owning.lends.some_ goodIn with ⟨dataGood, heldGood⟩
  refine wp_bind.mpr (wp_look heldGood ?_)
  refine wp_bind.mpr (wp_patch Device.held_hold_self ?_)
  have changed := @Worked.change _ _ _ _ _ _ _ _ _ _ (change dataGood data) lentAgain badIn
  rcases changed.secure.owning.lends.some_ putIn with ⟨dataPut, heldPut⟩
  refine wp_bind.mpr (wp_bwrite heldPut (fun roomy => ?_))
  have target := isPut.worked changed
  have written := @Worked.write _ _ _ _ _ _ _ _ _ (k * 3 + _) _ dataPut changed target.nonnull
    (by rw [numberE]; exact target.stored) roomy
  exact ⟨rfl, _, worked.trans written, written⟩

/-- The three copies of a block, all of them held. -/
structure HoldsCopies (w : Volume) (i k s1 s2 s3 : Nat) (lent : Finset Nat) : Prop where
  isFirst : IsCopy w i k 0 s1
  isSecond : IsCopy w i k 1 s2
  isThird : IsCopy w i k 2 s3
  held : lent = insert s3 (insert s2 (insert s1 ∅))

theorem HoldsCopies.members {i s1 s2 s3 : Nat} (holds : HoldsCopies w i k s1 s2 s3 lent) :
    s1 ∈ lent ∧ s2 ∈ lent ∧ s3 ∈ lent ∧ lent.card ≤ 3 := by
  rcases holds.held with rfl
  refine ⟨by simp, by simp, by simp, ?_⟩
  refine Nat.le_trans (Finset.card_insert_le _ _) (Nat.succ_le_succ ?_)
  refine Nat.le_trans (Finset.card_insert_le _ _) (Nat.succ_le_succ ?_)
  exact Nat.le_trans (Finset.card_insert_le _ _) (Nat.succ_le_succ (Nat.le_of_eq Finset.card_empty))

/-- The repair branches keep the three copies held. -/
theorem Worked.repair_wp {i at_ m s1 s2 s3 : Nat} (worked : Worked sb ends need v d ip w lent e)
    (allowed : escape (.panic .ballocOutOfBlocks)) (active : (d.mem.icache ip).Active)
    (number : (d.mem.icache ip).inum = i) (below : k * 3 + 2 < MAXFILE)
    (holds : HoldsCopies w i k s1 s2 s3 lent) (copies : AsksCopies need k) (diffs : Diffs) :
    (repair ip (k * 3) at_ m diffs s1 s2 s3).wp (withRoom sb ends)
      (fun value f =>
        value = (s1, s2, s3) ∧
        Exists fun u => Worked sb ends need v d ip u lent f ∧ Worked sb ends need w e ip u lent f)
      escape e := by
  rcases holds.members with ⟨in1, in2, in3, few⟩
  rcases holds with ⟨isFirst, isSecond, isThird, _⟩
  unfold repair
  by_cases branch2 : (diffs.diff12 && diffs.diff23 && !diffs.diff13) = true
  · rw [if_pos branch2]
    exact worked.repairCopy_wp (p := fun s => s) (r := fun s => (s1, s, s3)) few allowed active
      number (by decide) (by omega) isSecond isSecond in2 in3 in2 copies
  · by_cases branch1 : (diffs.diff13 && diffs.diff12 && !diffs.diff23) = true
    · rw [if_neg branch2, if_pos branch1]
      exact worked.repairCopy_wp (p := fun s => s) (r := fun s => (s, s2, s3)) few allowed active
        number (by decide) (by omega) isFirst isFirst in1 in3 in1 copies
    · by_cases branch3 : (diffs.diff23 && diffs.diff13 && !diffs.diff12) = true
      · rw [if_neg branch2, if_neg branch1, if_pos branch3]
        exact worked.repairCopy_wp (p := fun _ => s2) (r := fun s => (s1, s2, s)) few allowed active
          number (by decide) below isThird isSecond in3 in2 in2 copies
      · rw [if_neg branch2, if_neg branch1, if_neg branch3]
        exact ⟨rfl, w, worked, Worked.refl worked.secure⟩

/-- The first copies are held; the next one is looked for and borrowed. -/
theorem Worked.borrowCopy_wp {Value : Type} {i j : Nat}
    {next : Nat -> Fs Value} {post : Value -> Device BSIZE Kernel -> Prop}
    (worked : Worked sb ends need v d ip w lent e) (few : lent.card ≤ 2)
    (allowed : escape (.panic .ballocOutOfBlocks)) (active : (d.mem.icache ip).Active)
    (number : (d.mem.icache ip).inum = i) (mirrored : (v.inode i).type = T_MIRRORED)
    (small : j < 3) (below : k * 3 + j < MAXFILE) (copies : AsksCopies need k)
    (others : forall s, s ∈ lent -> Exists fun j' => j' ≠ j ∧ IsCopy w i k j' s)
    (continues : forall s u f, Worked sb ends need v d ip u (insert s lent) f ->
      Worked sb ends need w e ip u (insert s lent) f -> IsCopy u i k j s ->
      (next s).wp (withRoom sb ends) post escape f) : (do
      let s <- mbmap ip (k * 3) j
      bread s
      next s : Fs Value).wp (withRoom sb ends) post escape e := by
  have few3 : lent.card ≤ 3 := Nat.le_succ_of_le few
  refine wp_seq (worked.mbmap_wp few3 allowed active
    (by rw [number]; exact mirrored) small below copies) ?_
  rintro s f ⟨u, all, second, copy⟩
  rw [number] at copy
  have out : s ∉ lent := by
    intro inside
    rcases others s inside with ⟨j', different, other⟩
    exact (other.worked second).ne all.secure.owning.owns copy different rfl
  rcases all.idle few3 out with ⟨idle, space⟩
  refine wp_bind.mpr (wp_borrow idle space (fun data known => ?_))
  exact continues s u _ (all.borrow copy.file out) (second.borrow copy.file out) copy

/-- All three copies are handed back, in some order. -/
theorem Worked.releaseAll_wp {Value : Type} {i a b c s1 s2 s3 : Nat}
    {next : Fs Value} {post : Value -> Device BSIZE Kernel -> Prop}
    (worked : Worked sb ends need v d ip w lent e) (holds : HoldsCopies w i k s1 s2 s3 lent)
    (order : a = s1 ∧ b = s2 ∧ c = s3 ∨ a = s2 ∧ b = s1 ∧ c = s3) (continues : forall f,
      Worked sb ends need v d ip w ∅ f -> next.wp (withRoom sb ends) post escape f) : (do
      brelse a
      brelse b
      brelse c
      next : Fs Value).wp (withRoom sb ends) post escape e := by
  rcases holds with ⟨isFirst, isSecond, isThird, held⟩
  have owns := worked.secure.owning.owns
  have different12 := isFirst.ne owns isSecond (by decide)
  have different13 := isFirst.ne owns isThird (by decide)
  have different23 := isSecond.ne owns isThird (by decide)
  have mirrors : w.Mirror a ∧ w.Mirror b ∧ w.Mirror c := by
    rcases order with ⟨rfl, rfl, rfl⟩ | ⟨rfl, rfl, rfl⟩
    · exact ⟨isFirst.mirror, isSecond.mirror, isThird.mirror⟩
    · exact ⟨isSecond.mirror, isFirst.mirror, isThird.mirror⟩
  have apart : a ≠ b ∧ a ≠ c ∧ b ≠ c := by
    rcases order with ⟨rfl, rfl, rfl⟩ | ⟨rfl, rfl, rfl⟩
    · exact ⟨different12, different13, different23⟩
    · exact ⟨different12.symm, different23, different13⟩
  have members : forall x, x ∈ lent ↔ x = a ∨ x = b ∨ x = c := by
    intro x
    rw [held, Finset.mem_insert, Finset.mem_insert, Finset.mem_insert]
    rcases order with ⟨rfl, rfl, rfl⟩ | ⟨rfl, rfl, rfl⟩
    · simp only [Finset.notMem_empty, or_false]
      exact ⟨fun one => by tauto, fun one => by tauto⟩
    · simp only [Finset.notMem_empty, or_false]
      exact ⟨fun one => by tauto, fun one => by tauto⟩
  have inA : a ∈ lent := (members a).mpr (Or.inl rfl)
  have inB : b ∈ lent.erase a :=
    Finset.mem_erase.mpr ⟨apart.1.symm, (members b).mpr (Or.inr (Or.inl rfl))⟩
  have inC : c ∈ (lent.erase a).erase b :=
    Finset.mem_erase.mpr ⟨apart.2.2.symm,
      Finset.mem_erase.mpr ⟨apart.2.1.symm, (members c).mpr (Or.inr (Or.inr rfl))⟩⟩
  have gone : ((lent.erase a).erase b).erase c = ∅ := by
    refine Finset.eq_empty_of_forall_notMem (fun x inside => ?_)
    rw [Finset.mem_erase, Finset.mem_erase, Finset.mem_erase, members] at inside
    tauto
  rcases worked.secure.owning.lends.some_ inA with ⟨dataA, heldA⟩
  refine wp_bind.mpr (wp_brelse heldA ?_)
  have first := worked.giveBack inA (Or.inl (owns.loose_of_mirror mirrors.1))
  rcases first.secure.owning.lends.some_ inB with ⟨dataB, heldB⟩
  refine wp_bind.mpr (wp_brelse heldB ?_)
  have second := first.giveBack inB (Or.inl (owns.loose_of_mirror mirrors.2.1))
  rcases second.secure.owning.lends.some_ inC with ⟨dataC, heldC⟩
  refine wp_bind.mpr (wp_brelse heldC ?_)
  have third := second.giveBack inC (Or.inl (owns.loose_of_mirror mirrors.2.2))
  rw [gone] at third
  exact continues _ third

/-- The loop of `readi` for mirrored files. -/
theorem Secure.readMirrored_wp {behind : Nat -> Nat -> UInt8} {n : Nat}
    (allowed : escape (.panic .ballocOutOfBlocks)) (fuel : Nat) :
    forall {v : Volume} {d : Device BSIZE Kernel} {off left : Nat} {diffs : Diffs},
      Secure sb ends v ∅ d -> (d.mem.icache ip).Active ->
      (v.inode (d.mem.icache ip).inum).type = T_MIRRORED -> off + left ≤ 46 * BSIZE ->
      Asks need off left 3 ->
      (readMirrored behind ip n fuel off left diffs).wp (withRoom sb ends)
        (fun _ e => Exists fun w => Worked sb ends need v d ip w ∅ e) escape d := by
  induction fuel with
  | zero => exact fun {v d off left diffs} secure _ _ _ _ => ⟨v, Worked.refl secure⟩
  | succ fuel ih =>
      intro v d off left diffs secure active mirrored low asks
      rw [readMirrored]
      by_cases none_ : left = 0
      · rw [if_pos none_]
        exact ⟨v, Worked.refl secure⟩
      · have below : off / BSIZE * 3 + 2 < MAXFILE := by
          simp only [BSIZE, MAXFILE, NDIRECT, NINDIRECT] at low ⊢
          omega
        have copies : AsksCopies need (off / BSIZE) := fun j small => asks.first none_ small
        rw [if_neg none_]
        dsimp only
        generalize off / BSIZE = k at below copies
        generalize isNumber : (d.mem.icache ip).inum = i at mirrored
        have start : Worked sb ends need v d ip v ∅ d := Worked.refl secure
        refine start.borrowCopy_wp (Nat.zero_le _) allowed active isNumber mirrored (by decide)
          (by omega) copies (fun s inside => absurd inside (Finset.notMem_empty s)) ?_
        intro s1 w1 e1 first _ isFirst
        have one : (insert s1 (∅ : Finset Nat)).card ≤ 1 :=
          Nat.le_trans (Finset.card_insert_le _ _)
            (Nat.succ_le_succ (Nat.le_of_eq Finset.card_empty))
        have mirroredToo : (v.inode (d.mem.icache ip).inum).type = T_MIRRORED := by
          rw [isNumber]
          exact mirrored
        -- The calls of `mbmap` whose results are not used.
        refine wp_seq (first.mbmap_wp (j := 0) (k := k) (by omega) allowed active mirroredToo
          (by decide) (by omega) copies) ?_
        rintro _ e2 ⟨w2, second, step2, _⟩
        refine wp_seq (second.mbmap_wp (j := 1) (k := k) (by omega) allowed active mirroredToo
          (by decide) (by omega) copies) ?_
        rintro _ e3 ⟨w3, third, step3, _⟩
        refine wp_seq (third.mbmap_wp (j := 2) (k := k) (by omega) allowed active mirroredToo
          (by decide) below copies) ?_
        rintro _ e4 ⟨w4, fourth, step4, _⟩
        have isFirst4 := ((isFirst.worked step2).worked step3).worked step4
        refine fourth.borrowCopy_wp (by omega) allowed active isNumber mirrored (by decide)
          (by omega) copies (fun s inside => ?_) ?_
        · rcases Finset.mem_insert.mp inside with rfl | none_
          · exact ⟨0, by decide, isFirst4⟩
          · exact absurd none_ (Finset.notMem_empty s)
        intro s2 w5 e5 fifth step5 isSecond
        have isFirst5 := isFirst4.worked step5
        have two : (insert s2 (insert s1 (∅ : Finset Nat))).card ≤ 2 :=
          Nat.le_trans (Finset.card_insert_le _ _) (Nat.succ_le_succ one)
        refine fifth.borrowCopy_wp two allowed active isNumber mirrored (by decide) below copies
          (fun s inside => ?_) ?_
        · rcases Finset.mem_insert.mp inside with rfl | inside
          · exact ⟨1, by decide, isSecond⟩
          · rcases Finset.mem_insert.mp inside with rfl | none_
            · exact ⟨0, by decide, isFirst5⟩
            · exact absurd none_ (Finset.notMem_empty s)
        intro s3 w6 e6 sixth step6 isThird
        have holds : HoldsCopies w6 i k s1 s2 s3 (insert s3 (insert s2 (insert s1 ∅))) :=
          ⟨isFirst5.worked step6, isSecond.worked step6, isThird, rfl⟩
        rcases holds.members with ⟨in1, in2, in3, _⟩
        rcases sixth.secure.owning.lends.some_ in1 with ⟨data1, held1⟩
        rcases sixth.secure.owning.lends.some_ in2 with ⟨data2, held2⟩
        rcases sixth.secure.owning.lends.some_ in3 with ⟨data3, held3⟩
        refine wp_bind.mpr (wp_look held1 ?_)
        refine wp_bind.mpr (wp_look held2 ?_)
        refine wp_bind.mpr (wp_look held3 ?_)
        generalize diffs.compare n _ _ _ = flags
        refine wp_seq (sixth.repair_wp allowed active isNumber below holds copies flags) ?_
        rintro _ e7 ⟨rfl, w7, seventh, step7⟩
        have holdsToo : HoldsCopies w7 i k s1 s2 s3 (insert s3 (insert s2 (insert s1 ∅))) :=
          ⟨holds.isFirst.worked step7, holds.isSecond.worked step7, holds.isThird.worked step7, rfl⟩
        dsimp only
        by_cases all : (flags.diff12 && flags.diff23 && flags.diff13) = true
        · rw [if_pos all]
          exact seventh.releaseAll_wp holdsToo (Or.inl ⟨rfl, rfl, rfl⟩) (fun f last => ⟨w7, last⟩)
        · rw [if_neg all]
          refine seventh.releaseAll_wp holdsToo (Or.inr ⟨rfl, rfl, rfl⟩) (fun f last => ?_)
          have still : (w7.inode (f.mem.icache ip).inum).type = T_MIRRORED := by
            rw [last.inum, last.touched.type]
            exact mirroredToo
          refine wp_seq (@ih _ _ _ _ flags last.secure (last.active active) still (by omega)
            (asks.rest (Nat.min_le_left _ _))) ?_
          rintro result g ⟨u, rest⟩
          cases result with
          | none => exact ⟨u, last.trans rest⟩
          | some bytes => exact ⟨u, last.trans rest⟩

/-- The bytes that a file of the type has room for. -/
def fileCapacity (type : Nat) : Nat := (if type = T_MIRRORED then 46 else MAXFILE) * BSIZE

/-- The number of blocks for a logical block. -/
def copiesOf (type : Nat) : Nat := if type = T_MIRRORED then 3 else 1

/-- The read stays within the capacity of the file, or `bmap` may stop the kernel. -/
def ReadFits (escape : Stop FsPanic -> Prop) (c : Dinode) (off n : Nat) : Prop :=
  min (off + n) c.logical_size ≤ fileCapacity c.type ∨ c.type ≠ T_MIRRORED ∧
    escape (.panic .bmapOutOfRange)

/-- `readi`, up to the capacity of a file. -/
theorem Secure.readi_wp {behind : Nat -> Nat -> UInt8} {off n : Nat} (secure : Secure sb ends v ∅ d)
    (allowed : escape (.panic .ballocOutOfBlocks)) (active : (d.mem.icache ip).Active)
    (devsw : Devsw) (inside : ReadFits escape (d.mem.icache ip).copy off n)
    (asks : Asks need 0 (d.mem.icache ip).copy.logical_size
      (copiesOf (d.mem.icache ip).copy.type)) :
    (readi devsw behind ip off n).wp (withRoom sb ends)
      (fun _ e => Exists fun w =>
        Worked sb ends need v d ip w ∅ e ∧
        ((d.mem.icache ip).copy.type ≠ T_MIRRORED -> forall i n, w.content i n = v.content i n))
      escape d := by
  have unchanged : Exists fun w => Worked sb ends need v d ip w ∅ d ∧
      ((d.mem.icache ip).copy.type ≠ T_MIRRORED -> forall i n, w.content i n = v.content i n) :=
    ⟨v, Worked.refl secure, fun _ _ _ => rfl⟩
  unfold readi
  refine wp_bind.mpr (wp_getMem ?_)
  by_cases device : (d.mem.icache ip).copy.type = T_DEV
  · rw [if_pos device]
    by_cases major : NDEV ≤ (d.mem.icache ip).copy.major
    · rw [if_pos major]
      exact unchanged
    · rw [if_neg major]
      cases devsw.read (d.mem.icache ip).copy.major with
      | none => exact unchanged
      | some read => exact unchanged
  · rw [if_neg device]
    by_cases refused : (d.mem.icache ip).copy.logical_size < off ∨ (off + n) % 2 ^ 32 < off
    · rw [if_pos refused]
      exact unchanged
    · unfold ReadFits at inside
      generalize (d.mem.icache ip).copy.logical_size = size at *
      rw [if_neg refused]
      dsimp only
      generalize isLength : (if size < off + n then size - off else n) = length
      have within : off + length ≤ min (off + n) size := by
        rw [← isLength]
        split <;> omega
      have clipped := inside.imp (fun low => Nat.le_trans within low) id
      unfold fileCapacity at clipped
      by_cases mirrored : (d.mem.icache ip).copy.type = T_MIRRORED
      · have type : (v.inode (d.mem.icache ip).inum).type = T_MIRRORED := by
          rw [secure.owning.copy active]
          exact mirrored
        rw [if_pos mirrored] at clipped ⊢
        have low := clipped.resolve_right (fun both => both.1 mirrored)
        have copies : Asks need off length 3 := by
          intro x lower upper j small
          have asked := asks x (Nat.zero_le x) (by omega) j
          rw [copiesOf, if_pos mirrored] at asked
          exact asked small
        refine wp_seq (secure.readMirrored_wp allowed length active type low copies) ?_
        rintro result e ⟨w, worked⟩
        cases result with
        | none => exact ⟨w, worked, fun plain => absurd mirrored plain⟩
        | some bytes => exact ⟨w, worked, fun plain => absurd mirrored plain⟩
      · rw [if_neg mirrored] at clipped ⊢
        have blocks : Asks need off length 1 := by
          intro x lower upper j small
          have asked := asks x (Nat.zero_le x) (by omega) j
          rw [copiesOf, if_neg mirrored] at asked
          exact asked small
        refine wp_seq (secure.readPlain_wp allowed length active (clipped.imp id And.right) blocks)
          ?_
        rintro _ e ⟨w, worked, contents⟩
        exact ⟨w, worked, fun _ => contents⟩

end Reading

/-! ## Writing -/

section Writing

variable {sb : Superblock} {ends : Nat} {escape : Stop FsPanic -> Prop} {v w : Volume}
  {lent : Finset Nat} {d e : Device BSIZE Kernel} {ip k s bn : Nat} {need : Nat -> Prop}

open BlockProgram

/-- Every slot is in this set. -/
def AnySlot (_ : Nat) : Prop := True

/-- The bytes of a range have been replaced. -/
def Spliced (v w : Volume) (i off n : Nat) (src : Nat -> UInt8) : Prop :=
  forall x, w.byte i x = if off ≤ x ∧ x < off + n then src (x - off) else v.byte i x

theorem Spliced.nil {i off : Nat} {src : Nat -> UInt8}
    (same : forall n, w.content i n = v.content i n) : Spliced v w i off 0 src := by
  intro x
  rw [if_neg (by omega), Volume.byte, Volume.byte, same]

/-- First one piece and then the rest. -/
theorem Spliced.trans {u : Volume} {i off m n : Nat} {src : Nat -> UInt8}
    (first : Spliced v w i off m src)
    (rest : Spliced w u i (off + m) (n - m) (fun k => src (m + k))) (within : m ≤ n) :
    Spliced v u i off n src := by
  intro x
  rw [rest, first]
  by_cases early : off ≤ x ∧ x < off + m
  · rw [if_neg (by omega), if_pos early, if_pos (by omega)]
  · by_cases late : off + m ≤ x ∧ x < off + m + (n - m)
    · have inside : off ≤ x ∧ x < off + n := by omega
      have position : m + (x - (off + m)) = x - off := by omega
      rw [if_pos late, if_pos inside]
      exact congrArg src position
    · rw [if_neg late, if_neg early, if_neg (by omega)]

/-- Write a piece of a block of the file. -/
theorem Worked.writeBlock_wp {at_ m : Nat} {src : Nat -> UInt8}
    (worked : Worked sb ends need v d ip w ∅ e)
    (stored : w.slot ((d.mem.icache ip).inum, Volume.place bn) = s) (nonnull : s ≠ 0) :
    (writeBlock s at_ m src).wp (withRoom sb ends)
      (fun _ f => Exists fun u =>
        Worked sb ends need v d ip u ∅ f ∧ (forall t, w.slot t ≠ 0 -> u.slot t = w.slot t) ∧
        ((v.inode (d.mem.icache ip).inum).type ≠ T_MIRRORED -> at_ + m ≤ BSIZE ->
          Spliced w u (d.mem.icache ip).inum (bn * BSIZE + at_) m src))
      escape e := by
  have out := Finset.notMem_empty s
  rcases worked.idle (Nat.zero_le _) out with ⟨idle, space⟩
  unfold writeBlock
  refine wp_bind.mpr (wp_borrow idle space (fun data known => ?_))
  have lent := @Worked.borrow _ _ _ _ _ _ _ _ _ _ data worked ⟨nonnull, _, _, stored⟩ out
  have here := Finset.mem_insert_self s ∅
  refine wp_bind.mpr (wp_patch Device.held_hold_self ?_)
  refine wp_bind.mpr (wp_bwrite Device.held_change_self (fun roomy => ?_))
  refine wp_brelse Device.held_change_self ?_
  have written := (lent.change here).write nonnull stored roomy
  have same : (((e.hold s data).change s (data.splice at_ m src)).store s
      (data.splice at_ m src)).held s = some ((((e.hold s data).change s
      (data.splice at_ m src)).store s (data.splice at_ m src)).disk s) := by
    rw [Device.disk_store_self]
    exact Device.held_change_self
  have returned := written.giveBack here (Or.inr same)
  rw [Finset.erase_insert out] at returned
  have owning := worked.secure.owning
  have owned := owning.owns.ledger.owned
  refine ⟨_, returned, fun t _ => Volume.slot_setBlock
    (Volume.notIndirect owned stored nonnull) _ t, fun plain fits x => ?_⟩
  have plainNow : (w.inode (d.mem.icache ip).inum).type ≠ T_MIRRORED := by
    rw [worked.touched.type]
    exact plain
  have delivered := (owning.lends.known known).resolve_left
      (Volume.not_loose_plain (t := (_, _)) plainNow stored)
  have block : data = w.content (d.mem.icache ip).inum bn := by
    unfold Volume.content
    rw [stored, if_neg nonnull, owning.block (owning.owns.above stored nonnull).1]
    exact delivered
  have below := Nat.mod_lt x (show 0 < BSIZE by decide)
  have split := Nat.div_add_mod x BSIZE
  unfold Volume.byte
  rw [Volume.content_setBlock owned stored nonnull]
  by_cases inBlock : x / BSIZE = bn
  · rw [if_pos ⟨rfl, inBlock⟩, Bytes.get_splice _ _ _ _ below, block, inBlock]
    rw [inBlock, Nat.mul_comm] at split
    by_cases hit : at_ ≤ x % BSIZE ∧ x % BSIZE < at_ + m
    · rw [if_pos hit, if_pos (by omega)]
      congr 1
      omega
    · rw [if_neg hit, if_neg (by omega)]
  · rw [if_neg (fun both => inBlock both.2), if_neg]
    rintro ⟨lower, upper⟩
    refine inBlock ?_
    simp only [BSIZE] at lower upper fits ⊢
    omega

/-- The bytes of a range have blocks in the slots that `place` gives for them. -/
def Covers (w : Volume) (i off n : Nat) (copies : Nat) : Prop :=
  forall x, off ≤ x -> x < off + n -> forall j, j < copies ->
    w.slot (i, Volume.place (x / BSIZE * copies + j)) ≠ 0

theorem Covers.nil {i off copies : Nat} : Covers w i off 0 copies :=
  fun _ lower upper => absurd lower (Nat.not_le.mpr upper)

/-- The blocks of the first piece and those of the rest. -/
theorem Covers.cons {i off left m copies : Nat} (piece : min left (BSIZE - off % BSIZE) = m)
    (first : forall j, j < copies -> w.slot (i, Volume.place (off / BSIZE * copies + j)) ≠ 0)
    (rest : Covers w i (off + m) (left - m) copies) : Covers w i off left copies := by
  intro x lower upper j small
  by_cases early : x < off + m
  · have block : x / BSIZE = off / BSIZE := by
      simp only [BSIZE] at piece ⊢
      omega
    rw [block]
    exact first j small
  · exact rest x (by omega) (by omega) j small

/-- The loop of `writei` for plain files. -/
theorem Secure.writePlain_wp (allowed : escape (.panic .ballocOutOfBlocks)) (fuel : Nat) :
    forall {v : Volume} {d : Device BSIZE Kernel} {off left : Nat} {src : Nat -> UInt8},
      Secure sb ends v ∅ d -> (d.mem.icache ip).Active -> left ≤ fuel ->
      off + left ≤ MAXFILE * BSIZE ∨ escape (.panic .bmapOutOfRange) ->
      (writePlain ip fuel off left src).wp (withRoom sb ends)
        (fun _ e => Exists fun w =>
          Worked sb ends AnySlot v d ip w ∅ e ∧ Covers w (d.mem.icache ip).inum off left 1 ∧
          ((v.inode (d.mem.icache ip).inum).type ≠ T_MIRRORED ->
            Spliced v w (d.mem.icache ip).inum off left src))
        escape d := by
  have finished : forall {v : Volume} {d : Device BSIZE Kernel} {off : Nat} {src : Nat -> UInt8},
      Secure sb ends v ∅ d -> Exists fun w => Worked sb ends AnySlot v d ip w ∅ d ∧ Covers w
      (d.mem.icache ip).inum off 0 1 ∧ ((v.inode (d.mem.icache ip).inum).type ≠ T_MIRRORED ->
      Spliced v w (d.mem.icache ip).inum off 0 src) :=
    fun {v _ _ _} secure => ⟨v, Worked.refl secure, Covers.nil, fun _ => Spliced.nil (fun _ => rfl)⟩
  induction fuel with
  | zero =>
      intro v d off left src secure _ short _
      rw [Nat.le_zero.mp short]
      exact finished secure
  | succ fuel ih =>
      intro v d off left src secure active short low
      rw [writePlain]
      by_cases none_ : left = 0
      · rw [if_pos none_, none_]
        exact finished secure
      · have below : off / BSIZE < MAXFILE ∨ escape (.panic .bmapOutOfRange) := by
          refine low.imp (fun inside => ?_) id
          rw [Nat.div_lt_iff_lt_mul (by decide)]
          omega
        rw [if_neg none_]
        dsimp only
        generalize piece : min left (BSIZE - off % BSIZE) = m
        have within := Nat.mod_lt off (show 0 < BSIZE by decide)
        refine wp_seq (secure.bmap_wp (Nat.zero_le _) allowed active below
          (show AnySlot _ from trivial)) ?_
        rintro a e ⟨w, first, stored, nonnull, contents⟩
        refine wp_seq (first.writeBlock_wp stored nonnull) ?_
        rintro _ f ⟨u, second, stays, splices⟩
        refine wp_mono (ih second.secure (second.active active) (by omega)
          (low.imp (fun inside => by omega) id)) ?_ (fun _ stopped => stopped)
        rintro _ g ⟨x, rest, covers, more⟩
        rw [second.inum] at covers more
        refine ⟨x, second.trans rest, covers.cons piece (fun j small => ?_), fun plain => ?_⟩
        · have position : off / BSIZE * 1 + j = off / BSIZE := by omega
          have there := (stays _ (by rw [stored]; exact nonnull)).trans stored
          rw [position, rest.slot there nonnull]
          exact nonnull
        · have position : off / BSIZE * BSIZE + off % BSIZE = off := block_position off
          have spliced := splices plain (by omega)
          rw [position] at spliced
          have unchanged : forall y, w.byte (d.mem.icache ip).inum y = v.byte
              (d.mem.icache ip).inum y := fun y => by
            unfold Volume.byte
            rw [contents]
          refine Spliced.trans (w := u) (fun y => ?_)
            (more (by rw [second.touched.type]; exact plain)) (by omega)
          rw [spliced, unchanged]

/-- One copy of a piece. -/
theorem Worked.writeCopy_wp {i j at_ m : Nat} {src : Nat -> UInt8}
    (worked : Worked sb ends need v d ip w ∅ e) (allowed : escape (.panic .ballocOutOfBlocks))
    (active : (d.mem.icache ip).Active) (number : (d.mem.icache ip).inum = i)
    (mirrored : (v.inode i).type = T_MIRRORED) (small : j < 3) (below : k * 3 + j < MAXFILE)
    (copies : AsksCopies need k) {Value : Type} {next : Fs Value}
    {post : Value -> Device BSIZE Kernel -> Prop} (continues : forall s u f,
      Worked sb ends need v d ip u ∅ f -> Worked sb ends need w e ip u ∅ f -> IsCopy u i k j s ->
      next.wp (withRoom sb ends) post escape f) : (do
      let s <- mbmap ip (k * 3) j
      writeBlock s at_ m src
      next : Fs Value).wp (withRoom sb ends) post escape e := by
  refine wp_seq (worked.mbmap_wp (Nat.zero_le _) allowed active
    (by rw [number]; exact mirrored) small below copies) ?_
  rintro s f ⟨u, _, second, copy⟩
  have numberE : (e.mem.icache ip).inum = i := worked.inum.trans number
  rw [number] at copy
  refine wp_seq (second.writeBlock_wp (by rw [numberE]; exact copy.stored) copy.nonnull) ?_
  rintro _ g ⟨x, third, stays, _⟩
  refine continues s x g (worked.trans third) third ⟨?_, ?_, copy.nonnull⟩
  · rw [(worked.trans third).touched.type]
    exact mirrored
  · exact (stays _ (by rw [copy.stored]; exact copy.nonnull)).trans copy.stored

/-- The loop of `writei` for mirrored files. -/
theorem Secure.writeMirrored_wp (allowed : escape (.panic .ballocOutOfBlocks)) (fuel : Nat) :
    forall {v : Volume} {d : Device BSIZE Kernel} {off left : Nat} {src : Nat -> UInt8},
      Secure sb ends v ∅ d -> (d.mem.icache ip).Active ->
      (v.inode (d.mem.icache ip).inum).type = T_MIRRORED -> left ≤ fuel ->
      off + left ≤ 46 * BSIZE ->
      (writeMirrored ip fuel off left src).wp (withRoom sb ends)
        (fun _ e => Exists fun w =>
          Worked sb ends AnySlot v d ip w ∅ e ∧ Covers w (d.mem.icache ip).inum off left 3)
        escape d := by
  induction fuel with
  | zero =>
      intro v d off left src secure _ _ short _
      rw [Nat.le_zero.mp short]
      exact ⟨v, Worked.refl secure, Covers.nil⟩
  | succ fuel ih =>
      intro v d off left src secure active mirrored short low
      rw [writeMirrored]
      by_cases none_ : left = 0
      · rw [if_pos none_, none_]
        exact ⟨v, Worked.refl secure, Covers.nil⟩
      · have below : off / BSIZE * 3 + 2 < MAXFILE := by
          simp only [BSIZE, MAXFILE, NDIRECT, NINDIRECT] at low ⊢
          omega
        rw [if_neg none_]
        dsimp only
        generalize piece : min left (BSIZE - off % BSIZE) = m
        have within := Nat.mod_lt off (show 0 < BSIZE by decide)
        generalize isBlock : off / BSIZE = k at below
        generalize isNumber : (d.mem.icache ip).inum = i at mirrored
        have mirroredToo : (v.inode (d.mem.icache ip).inum).type = T_MIRRORED := by
          rw [isNumber]
          exact mirrored
        have zero := Nat.zero_le 3
        have start : Worked sb ends AnySlot v d ip v ∅ d := Worked.refl secure
        have copies : AsksCopies AnySlot k := fun _ _ => trivial
        refine wp_seq (start.mbmap_wp (j := 0) (k := k) zero allowed active mirroredToo (by decide)
          (by omega) copies) ?_
        rintro _ e1 ⟨w1, first, _, _⟩
        refine wp_seq (first.mbmap_wp (j := 1) (k := k) zero allowed active mirroredToo (by decide)
          (by omega) copies) ?_
        rintro _ e2 ⟨w2, second, _, _⟩
        refine wp_seq (second.mbmap_wp (j := 2) (k := k) zero allowed active mirroredToo
          (by decide) below copies) ?_
        rintro _ e3 ⟨w3, third, _, _⟩
        refine third.writeCopy_wp allowed active isNumber mirrored (by decide) (by omega) copies ?_
        intro s1 w4 e4 fourth _ isFirst
        refine fourth.writeCopy_wp allowed active isNumber mirrored (by decide) (by omega) copies ?_
        intro s2 w5 e5 fifth step5 isSecond
        refine fifth.writeCopy_wp allowed active isNumber mirrored (by decide) below copies ?_
        intro s3 w6 e6 sixth step6 isThird
        have still : (w6.inode (e6.mem.icache ip).inum).type = T_MIRRORED := by
          rw [sixth.inum, sixth.touched.type]
          exact mirroredToo
        refine wp_mono (ih sixth.secure (sixth.active active) still (by omega) (by omega)) ?_
          (fun _ stopped => stopped)
        rintro _ g ⟨_, rest, covers⟩
        rw [sixth.inum, isNumber] at covers
        refine ⟨_, sixth.trans rest, covers.cons piece (fun j small => ?_)⟩
        have stored : forall {x : Volume} {j s : Nat}, IsCopy x i k j s ->
            x.slot (i, Volume.place (k * 3 + j)) ≠ 0 := by
          intro x j s copy
          rw [copy.stored]
          exact copy.nonnull
        have which : j = 0 ∨ j = 1 ∨ j = 2 := by omega
        rw [isBlock]
        rcases which with rfl | rfl | rfl
        · exact stored (((isFirst.worked step5).worked step6).worked rest)
        · exact stored ((isSecond.worked step6).worked rest)
        · exact stored (isThird.worked rest)

/-- Changing a copy in the cache, but not its addresses, and its type only if it has no blocks. -/
theorem Owning.withCopy {change : Dinode -> Dinode} (owning : Owning sb ends v lent d)
    (active : (d.mem.icache ip).Active)
    (addrs : (change (d.mem.icache ip).copy).addrs = (d.mem.icache ip).copy.addrs)
    (type : (change (d.mem.icache ip).copy).type = (d.mem.icache ip).copy.type ∨
      forall m, v.slot ((d.mem.icache ip).inum, m) = 0)
    (fits : (change (d.mem.icache ip).copy).Fits) :
    Owning sb ends (v.setInode (d.mem.icache ip).inum (change (d.mem.icache ip).copy)) lent
      (d.withMem (d.mem.adjust ip (Inode.withCopy change))) := by
  have copy := owning.copy active
  have addrsToo : (change (d.mem.icache ip).copy).addrs =
      (v.inode (d.mem.icache ip).inum).addrs := by
    rw [copy]
    exact addrs
  have slots := Volume.slot_setInode_addrs addrsToo
  have live := @Live.withCopy sb d (d.withMem (d.mem.adjust ip (Inode.withCopy change))) v ip
      change owning.live owning.apart active rfl rfl
  refine ⟨owning.isSuper, owning.scans, live, owning.apart.adjust, fun jp referred => ?_,
    owning.owns.congr slots (Volume.Sound.setInode_fits owning.owns.fits fits), ?_⟩
  · have numbered := owning.numbers jp
    rw [← @Live.ref_adjust ip d.mem change jp, ← @Live.inum_adjust ip d.mem change jp] at numbered
    exact numbered referred
  · refine (owning.lends.withMem _).weaken (fun x loose => loose.mono loose.2.1 (fun t same => ?_))
    rw [slots] at same
    refine ⟨same, ?_⟩
    by_cases here : t.1 = (d.mem.icache ip).inum
    · rw [here, Volume.inode_setInode_self]
      refine type.elim (fun kept => by rw [kept, ← copy]) (fun empty => ?_)
      have none_ : v.slot t = 0 := by
        rw [← empty t.2, ← here]
      have above := loose.1
      have large := dataStart_large sb
      omega
    · rw [Volume.inode_setInode_of_ne _ here]

theorem Secure.withCopy {change : Dinode -> Dinode} (secure : Secure sb ends v lent d)
    (active : (d.mem.icache ip).Active)
    (addrs : (change (d.mem.icache ip).copy).addrs = (d.mem.icache ip).copy.addrs)
    (type : (change (d.mem.icache ip).copy).type = (d.mem.icache ip).copy.type ∨
      forall m, v.slot ((d.mem.icache ip).inum, m) = 0)
    (fits : (change (d.mem.icache ip).copy).Fits) :
    Secure sb ends (v.setInode (d.mem.icache ip).inum (change (d.mem.icache ip).copy)) lent
      (d.withMem (d.mem.adjust ip (Inode.withCopy change))) := by
  have addrsToo : (change (d.mem.icache ip).copy).addrs =
      (v.inode (d.mem.icache ip).inum).addrs := by
    rw [secure.owning.copy active]
    exact addrs
  exact ⟨secure.owning.withCopy active addrs type fits, secure.blank, secure.roomy,
    fun s inside => (secure.files s inside).mono (fun t _ => Volume.slot_setInode_addrs addrsToo t)⟩

/-- The size of the inode has been changed in the cache. -/
theorem Secure.resize {size : Nat} (secure : Secure sb ends v ∅ d)
    (active : (d.mem.icache ip).Active) (fits : size < 2 ^ 32) :
    Changed sb ends v d ip
      (v.setInode (d.mem.icache ip).inum { (d.mem.icache ip).copy with logical_size := size }) ∅
      (d.withMem (d.mem.adjust ip (Inode.withCopy fun c => { c with logical_size := size }))) := by
  have copy := secure.owning.copy active
  have copyFits : (d.mem.icache ip).copy.Fits := by
    rw [← copy]
    exact secure.owning.owns.fits _
  have fitsToo : ({ (d.mem.icache ip).copy with logical_size := size } : Dinode).Fits :=
    ⟨copyFits.type, copyFits.major, copyFits.minor, copyFits.nlink, fits, copyFits.addrs,
      copyFits.noMore⟩
  have addrs : ({ (d.mem.icache ip).copy with logical_size := size } : Dinode).addrs =
      (v.inode (d.mem.icache ip).inum).addrs := by
    rw [copy]
  have slots := Volume.slot_setInode_addrs addrs
  have contents := Volume.content_setInode_addrs addrs
  have touched : Touched v (marked sb d.disk)
      (v.setInode (d.mem.icache ip).inum { (d.mem.icache ip).copy with logical_size := size })
      (marked sb d.disk) (d.mem.icache ip).inum := by
    refine ⟨fun t _ => slots t, fun t empty stored => ?_, fun _ => id, fun _ => Or.inl,
      fun j bn _ => contents j bn, fun j different => Volume.inode_setInode_of_ne _ different, ?_⟩
    · rw [slots] at stored
      exact absurd empty stored
    · rw [Volume.inode_setInode_self, copy]
  exact ⟨@Secure.withCopy _ _ _ _ _ _ (fun c => { c with logical_size := size }) secure active rfl
    (Or.inl rfl) fitsToo, touched, ⟨_, Kernel.adjust_congr rfl⟩, fun _ _ => rfl,
    fun behind => behind.touched touched rfl⟩

/-- The inode on the disk is the one of the live volume. -/
def Saves (sb : Superblock) (w : Volume) (i : Nat) (e : Device BSIZE Kernel) : Prop :=
  (sb.volume e.disk).inode i = w.inode i

/-- `iupdate` copies the inode to the disk. -/
theorem Secure.iupdate_wp (secure : Secure sb ends v ∅ d) (active : (d.mem.icache ip).Active) :
    (iupdate ip).wp (withRoom sb ends)
      (fun _ e =>
        Changed sb ends v d ip v ∅ e ∧ Saves sb v (d.mem.icache ip).inum e ∧ e.mem = d.mem)
      escape d := by
  have owning := secure.owning
  have below := owning.numbers ip active.1
  have copy := owning.copy active
  have fits : (d.mem.icache ip).copy.Fits := by
    rw [← copy]
    exact owning.owns.fits _
  have place := Superblock.IBLOCK_lt below
  have resting := owning.resting_low (Superblock.IBLOCK_lt_dataStart below)
  have volume := @Superblock.volume_putDinode sb d.disk _ _ below fits
  have space : d.busy < (withRoom sb ends).capacity := by
    rw [owning.lends.count]
    exact (by decide : 0 < NBUF)
  unfold iupdate
  refine wp_bind.mpr (wp_getMem ?_)
  refine wp_rewrite resting space (fun roomy => ?_)
  generalize isAfter : d.store (IBLOCK (d.mem.icache ip).inum)
    (putDinode ((d.mem.icache ip).inum % IPB) (d.mem.icache ip).copy
      (d.disk (IBLOCK (d.mem.icache ip).inum))) = e
  have disk : e.disk = Function.update d.disk (IBLOCK (d.mem.icache ip).inum)
      (putDinode ((d.mem.icache ip).inum % IPB) (d.mem.icache ip).copy
      (d.disk (IBLOCK (d.mem.icache ip).inum))) := by
    rw [← isAfter]
    rfl
  have mem : e.mem = d.mem := by
    rw [← isAfter]
    rfl
  have bits : marked sb e.disk = marked sb d.disk := by
    rw [disk]
    exact funext (marked_other (Or.inl place) _)
  rw [← disk] at volume
  have low : 1 ≠ IBLOCK (d.mem.icache ip).inum :=
    Nat.ne_of_lt (Nat.lt_of_lt_of_le (by decide) (Nat.le_add_left 2 _))
  have lends : Lends sb (v.Loose sb (marked sb e.disk)) ∅ e := by
    rw [bits, ← isAfter]
    exact owning.lends.store
  have owningNow : Owning sb ends v ∅ e := by
    refine ⟨?_, owning.scans, owning.live.saved active mem volume, ?_, ?_, ?_, lends⟩
    · rw [disk, Function.update_of_ne low]
      exact owning.isSuper
    · rw [mem]
      exact owning.apart
    · rw [mem]
      exact owning.numbers
    · rw [bits]
      exact owning.owns
  have secureNow : Secure sb ends v ∅ e := by
    refine ⟨owningNow, ?_, ?_, secure.files⟩
    · rw [bits]
      exact secure.blank
    · rw [bits]
      exact secure.roomy
  refine ⟨⟨secureNow, ?_, ⟨_, mem.trans (Kernel.adjust_same rfl).symm⟩, fun j different => ?_,
    fun behind => ⟨fun j => ?_, fun j m low => ?_⟩⟩, ?_, mem⟩
  · rw [bits]
    exact Touched.refl v _ _
  · rw [volume, Volume.inode_setInode_of_ne _ different]
  · by_cases here : j = (d.mem.icache ip).inum
    · rw [volume, here, Volume.inode_setInode_self, copy]
    · rw [volume, Volume.inode_setInode_of_ne _ here]
      exact behind.types j
  · by_cases here : j = (d.mem.icache ip).inum
    · rw [volume, here, Volume.inode_setInode_self, copy]
      exact fun _ => rfl
    · rw [volume, Volume.inode_setInode_of_ne _ here]
      exact behind.addrs j m low
  · unfold Saves
    rw [volume, Volume.inode_setInode_self, copy]

/-- The call stays within the capacity of the file. -/
def WriteFits (c : Dinode) (off n : Nat) : Prop :=
  off ≤ c.logical_size -> if c.type = T_MIRRORED then off + n ≤ 46 * BSIZE
    else off ≤ MAXFILE * BSIZE

/-- `n` bytes of `src` have been written from `off` on, and the inode is on the disk. -/
structure Wrote (sb : Superblock) (ends : Nat) (v : Volume) (d : Device BSIZE Kernel)
    (ip off n : Nat) (src : Nat -> UInt8) (w : Volume) (e : Device BSIZE Kernel) : Prop where
  changed : Changed sb ends v d ip w ∅ e
  saves : Saves sb w (d.mem.icache ip).inum e
  covers : Covers w (d.mem.icache ip).inum off n (copiesOf (d.mem.icache ip).copy.type)
  size : (w.inode (d.mem.icache ip).inum).logical_size = grownSize
    (d.mem.icache ip).copy.logical_size off n
  bytes : (d.mem.icache ip).copy.type ≠ T_MIRRORED -> Spliced v w (d.mem.icache ip).inum off n src

/-- The end of `writei`: save the inode, and save it again when the file has grown. -/
theorem Worked.finish_wp {off n : Nat} {src : Nat -> UInt8}
    (worked : Worked sb ends need v d ip w ∅ e)
    (live : Live sb d v) (active : (d.mem.icache ip).Active)
    (covers : Covers w (d.mem.icache ip).inum off n (copiesOf (d.mem.icache ip).copy.type))
    (fits : off + n < 2 ^ 32) (bytes : (d.mem.icache ip).copy.type ≠ T_MIRRORED ->
      Spliced v w (d.mem.icache ip).inum off n src) : (do
      iupdate ip
      if 0 < n ∧ (d.mem.icache ip).copy.logical_size < off + n then do
        setInode ip (Inode.withCopy (fun c => { c with logical_size := off + n }))
        iupdate ip
      else pure ()
      pure (n : Int) : Fs Int).wp (withRoom sb ends) (fun r f => r = (n : Int) ∧
        Exists fun u => Wrote sb ends v d ip off n src u f) escape e := by
  refine wp_seq (worked.secure.iupdate_wp (worked.active active)) ?_
  rintro _ f ⟨first, saves, _⟩
  have before := worked.toChanged.trans first
  rw [worked.inum] at saves
  by_cases grows : 0 < n ∧ (d.mem.icache ip).copy.logical_size < off + n
  · simp only [if_pos grows]
    refine wp_bind.mpr (wp_putMem ?_)
    have activeF := before.active active
    have resized := first.secure.resize activeF fits
    refine wp_bind.mpr (wp_mono (resized.secure.iupdate_wp (resized.active activeF)) ?_
      (fun _ stopped => stopped))
    rintro _ g ⟨second, savesToo, _⟩
    have copyF := first.secure.owning.copy activeF
    have addrs : ({ (f.mem.icache ip).copy with logical_size := off + n } : Dinode).addrs =
        (w.inode (f.mem.icache ip).inum).addrs := by
      rw [copyF]
    have number := resized.inum.trans before.inum
    rw [before.inum] at resized second savesToo addrs
    refine ⟨rfl, _, (before.trans resized).trans second, ?_, fun x lower upper j small => ?_, ?_,
      fun plain x => ?_⟩
    · rw [number] at savesToo
      exact savesToo
    · rw [Volume.slot_setInode_addrs addrs]
      exact covers x lower upper j small
    · rw [Volume.inode_setInode_self, grownSize, if_pos grows]
    · rw [← bytes plain x, Volume.byte, Volume.byte, Volume.content_setInode_addrs addrs]
  · simp only [if_neg grows]
    refine ⟨rfl, w, before, saves, covers, ?_, bytes⟩
    rw [worked.size, live.cached ip active, grownSize, if_neg grows]

/-- The call stays within the capacity of the file, or `bmap` may stop the kernel. -/
def WriteStays (escape : Stop FsPanic -> Prop) (c : Dinode) (off n : Nat) : Prop :=
  WriteFits c off n ∨ c.type ≠ T_MIRRORED ∧ escape (.panic .bmapOutOfRange)

/-- `writei`, up to the capacity of a file. -/
theorem Secure.writei_wp {src : List UInt8} {off : Nat} (secure : Secure sb ends v ∅ d)
    (allowed : escape (.panic .ballocOutOfBlocks)) (active : (d.mem.icache ip).Active)
    (devsw : Devsw) (inside : WriteStays escape (d.mem.icache ip).copy off src.length) :
    (writei devsw ip src off).wp (withRoom sb ends)
      (fun r e =>
        e = d ∨
        off ≤ (d.mem.icache ip).copy.logical_size ∧
        Exists fun n : Nat => Exists fun w =>
          r = (n : Int) ∧ Wrote sb ends v d ip off n (fun k => src.getD k 0) w e)
      escape d := by
  have copy := secure.owning.copy active
  unfold writei
  dsimp only
  refine wp_bind.mpr (wp_getMem ?_)
  by_cases device : (d.mem.icache ip).copy.type = T_DEV
  · rw [if_pos device]
    by_cases major : NDEV ≤ (d.mem.icache ip).copy.major
    · rw [if_pos major]
      exact Or.inl rfl
    · rw [if_neg major]
      cases devsw.write (d.mem.icache ip).copy.major with
      | none => exact Or.inl rfl
      | some write => exact Or.inl rfl
  · rw [if_neg device]
    by_cases refused : (d.mem.icache ip).copy.logical_size < off ∨ (off + src.length) % 2 ^ 32 < off
    · rw [if_pos refused]
      exact Or.inl rfl
    · have offLe : off ≤ (d.mem.icache ip).copy.logical_size := by omega
      have copyFits : (d.mem.icache ip).copy.Fits := by
        rw [← copy]
        exact secure.owning.owns.fits _
      have offSmall : off < 2 ^ 32 := Nat.lt_of_le_of_lt offLe copyFits.size
      have uint : MAXFILE * BSIZE < 2 ^ 32 := by decide
      rw [if_neg refused]
      by_cases mirrored : (d.mem.icache ip).copy.type = T_MIRRORED
      · have limits := inside.resolve_right (fun both => both.1 mirrored) offLe
        rw [if_pos mirrored] at limits
        have largest : 46 * BSIZE < MAXFILE * BSIZE := by decide
        have clipped : ¬ MAXFILE * BSIZE < off + src.length := by omega
        have type : (v.inode (d.mem.icache ip).inum).type = T_MIRRORED := by
          rw [copy]
          exact mirrored
        rw [if_neg clipped, if_pos mirrored]
        refine wp_seq (secure.writeMirrored_wp allowed src.length active type
          (Nat.le_refl _) limits) ?_
        rintro _ e ⟨w, worked, covers⟩
        have three : copiesOf (d.mem.icache ip).copy.type = 3 := if_pos mirrored
        have never : (d.mem.icache ip).copy.type ≠ T_MIRRORED ->
            Spliced v w (d.mem.icache ip).inum off src.length (fun k => src.getD k 0) :=
          fun plain => absurd mirrored plain
        refine wp_mono (worked.finish_wp secure.owning.live active (by rw [three]; exact covers)
          (by omega) never) ?_ (fun _ stopped => stopped)
        rintro r f ⟨same, u, written⟩
        exact Or.inr ⟨offLe, _, u, same, written⟩
      · have type : (v.inode (d.mem.icache ip).inum).type ≠ T_MIRRORED := by
          rw [copy]
          exact mirrored
        have one : copiesOf (d.mem.icache ip).copy.type = 1 := if_neg mirrored
        rw [if_neg mirrored]
        generalize isLength : (if MAXFILE * BSIZE < off + src.length then
          (MAXFILE * BSIZE + 2 ^ 32 - off) % 2 ^ 32
          else src.length) = n
        have low : off + n ≤ MAXFILE * BSIZE ∨ escape (.panic .bmapOutOfRange) := by
          refine inside.imp (fun fits => ?_) And.right
          have limits := fits offLe
          rw [if_neg mirrored] at limits
          rw [← isLength, clipped_write uint limits]
          omega
        refine wp_seq (secure.writePlain_wp allowed n active (Nat.le_refl _) low) ?_
        rintro _ e ⟨w, worked, covers, spliced⟩
        -- What has been written has blocks, so it is within the capacity of a file.
        have fits : off + n < 2 ^ 32 := by
          by_cases none_ : n = 0
          · rw [none_]
            exact offSmall
          · have last := Volume.lt_of_slot
                (covers (off + n - 1) (by omega) (by omega) 0 (by decide))
            rw [Nat.mul_one, Nat.add_zero, Nat.div_lt_iff_lt_mul (by decide)] at last
            omega
        refine wp_mono (worked.finish_wp secure.owning.live active (by rw [one]; exact covers) fits
          (fun _ => spliced type)) ?_ (fun _ stopped => stopped)
        rintro r f ⟨same, u, written⟩
        exact Or.inr ⟨offLe, _, u, same, written⟩

end Writing

end TripleFs
end OsProjects
