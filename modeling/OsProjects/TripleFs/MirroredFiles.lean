import OsProjects.TripleFs.Writing
import OsProjects.TripleFs.Mirrors

namespace OsProjects
namespace TripleFs

open Machine

/-!
# Mirrored files from one call to the next

A mirrored file that starts empty and that only `writei` and `readi` touch has three
equal copies of each of its blocks.  `writei` writes the same bytes to the same places of
all three, into blocks that were blank, and the repairs of `readi` copy what is already
there.
-/

section Addresses

variable {sb : Superblock} {ends : Nat} {enough : (Nat -> Bool) -> (Nat -> Nat) -> Prop}
  {d : Device BSIZE Kernel} {ip bn : Nat}

/-- The address of a logical block is what its slot stores. -/
theorem Works.addressOf (works : Works sb ends enough d ip) (bn : Nat) :
    addressOf d.disk (d.mem.icache ip).copy bn =
      (work sb d ip).slot ((d.mem.icache ip).inum, Volume.place bn) := by
  unfold TripleFs.addressOf
  by_cases direct : bn < NDIRECT
  · rw [if_pos direct, place_direct direct, Volume.slot_direct (Nat.le_of_lt direct), work_inode]
  · rw [if_neg direct, place_entry direct]
    by_cases none_ : (d.mem.icache ip).copy.addrs NDIRECT = 0
    · rw [if_pos none_, Volume.slot_entry_empty (by rw [work_inode]; exact none_)]
    · have isIndirect : (work sb d ip).slot ((d.mem.icache ip).inum, NDIRECT) =
          (d.mem.icache ip).copy.addrs NDIRECT := by
        rw [Volume.slot_direct (Nat.le_refl _), work_inode]
      rw [if_neg none_, (works.indirect none_ isIndirect).2.2.2]

/-- A block of a file is on the disk. -/
theorem Works.disk (works : Works sb ends enough d ip)
    (stored : (work sb d ip).slot ((d.mem.icache ip).inum, Volume.place bn) ≠ 0) :
    d.disk (TripleFs.addressOf d.disk (d.mem.icache ip).copy bn) =
      (work sb d ip).content (d.mem.icache ip).inum bn := by
  have above := (works.sound.ledger.stored _ stored).1
  rw [works.addressOf]
  unfold Volume.content
  rw [if_neg stored]
  exact (Superblock.block_above above).symm

end Addresses

/-- A mirrored file within 46 blocks, with equal copies. -/
structure MirrorFile (sb : Superblock) (ends : Nat) (enough : (Nat -> Bool) -> (Nat -> Nat) -> Prop)
    (d : Device BSIZE Kernel) (ip : Nat) : Prop where
  works : Works sb ends enough d ip
  type : (d.mem.icache ip).copy.type = T_MIRRORED
  size : (d.mem.icache ip).copy.logical_size ≤ 46 * BSIZE
  covered : forall x, x < (d.mem.icache ip).copy.logical_size -> forall j, j < 3 ->
    (work sb d ip).slot ((d.mem.icache ip).inum, Volume.place (x / BSIZE * 3 + j)) ≠ 0
  alike : forall bn other, bn / 3 = other / 3 -> (work sb d ip).content (d.mem.icache ip).inum bn =
    (work sb d ip).content (d.mem.icache ip).inum other

section Files

variable {limits : Limits BSIZE} {sb : Superblock} {ends : Nat}
  {enough : (Nat -> Bool) -> (Nat -> Nat) -> Prop} {d e : Device BSIZE Kernel} {ip off : Nat}

/-- A write keeps the copies equal. -/
theorem MirrorFile.written {src : List UInt8} (file : MirrorFile sb ends enough d ip)
    (offLe : off ≤ (d.mem.icache ip).copy.logical_size) (low : off + src.length ≤ 46 * BSIZE)
    (written : Written sb ends enough d e ip (mirrorValue src off)
      (fun bn y => Requested off src.length (bn / 3) y) (MirrorSlot off src.length)
      (grownSize (d.mem.icache ip).copy.logical_size off src.length))
    (present : forall k, Touches off src.length k ->
      forall j, j < 3 ->
        (work sb e ip).slot ((d.mem.icache ip).inum, Volume.place (k * 3 + j)) ≠ 0) :
    MirrorFile sb ends enough e ip := by
  have inum : (e.mem.icache ip).inum = (d.mem.icache ip).inum := by
    rcases written.mem with ⟨c, same⟩
    rw [same, Kernel.adjust_self]
    rfl
  have head := written.edited.head
  have here := @work_inode sb e ip
  rw [inum] at here
  rw [here, work_inode] at head
  refine ⟨written.works, ?_, ?_, fun x below j small => ?_, fun bn other same => ?_⟩
  · rw [head]
    exact file.type
  · have size := file.size
    rw [written.size]
    unfold grownSize
    split <;> omega
  · rw [written.size] at below
    rw [inum]
    by_cases old : x < (d.mem.icache ip).copy.logical_size
    · have before := file.covered x old j small
      rw [written.edited.stays _ before]
      exact before
    · unfold grownSize at below
      split at below
      · exact present _ ⟨x, by omega, below, rfl⟩ j small
      · exact absurd below old
  · rw [inum]
    refine Bytes.ext_get (fun y below => ?_)
    by_cases hit : Requested off src.length (bn / 3) y
    · have hitToo := hit
      rw [same] at hitToo
      rw [written.edited.written bn y below hit, written.edited.written other y below hitToo]
      unfold mirrorValue
      rw [same]
    · have miss := hit
      rw [same] at miss
      rw [written.edited.kept bn y below hit, written.edited.kept other y below miss,
        file.alike bn other same]

/-- The copies of such a file, as `readi` sees them. -/
theorem MirrorFile.mirrored (file : MirrorFile sb ends enough d ip) :
    Mirrored d.disk (d.mem.icache ip).copy := by
  have address := file.works.addressOf
  refine ⟨file.type, fun x below j small => ?_, fun a b present same => ?_,
    fun a present same => ?_⟩
  · unfold copyAt
    rw [address]
    exact file.covered x below j small
  · rw [address] at present same
    rw [address] at same
    have equal := file.works.sound.ledger.once _ _ present same
    exact Volume.place_injective (Prod.mk.inj equal).2
  · rw [address] at present same
    have indirect : (work sb d ip).slot ((d.mem.icache ip).inum, NDIRECT) =
        (d.mem.icache ip).copy.addrs NDIRECT := by
      rw [Volume.slot_direct (Nat.le_refl _), work_inode]
    have equal := file.works.sound.ledger.once _ _ present (same.trans indirect.symm)
    exact Volume.place_ne_indirect a (Prod.mk.inj equal).2

/-- The copies of a block of such a file are equal on the disk. -/
theorem MirrorFile.equal (file : MirrorFile sb ends enough d ip) {k i j : Nat}
    (touches : Touches 0 (d.mem.icache ip).copy.logical_size k) (first : i < 3) (second : j < 3) :
    d.disk (copyAt d.disk (d.mem.icache ip).copy k i) =
      d.disk (copyAt d.disk (d.mem.icache ip).copy k j) := by
  rcases touches with ⟨x, _, below, rfl⟩
  have inside : x < (d.mem.icache ip).copy.logical_size := by omega
  unfold copyAt
  rw [file.works.disk (file.covered x inside i first),
    file.works.disk (file.covered x inside j second)]
  exact file.alike _ _ (by omega)

end Files

/-! ## Reading equal copies -/

section Reading

variable {limits : Limits BSIZE} {escape : Stop FsPanic -> Prop}
  {d : Device BSIZE Kernel} {ip : Nat}

open BlockProgram

/-- A repair among equal copies changes nothing. -/
theorem mend_equal (diffs : Diffs) {at_ m s1 s2 s3 : Nat} (resting : d.Resting s3)
    (first : d.disk s1 = d.disk s3) (second : d.disk s2 = d.disk s3) :
    diffs.mend at_ m s1 s2 s3 d = d := by
  have same : forall b : Block, overwrite at_ m b b = b := by
    intro b
    refine Bytes.ext_get (fun y below => ?_)
    unfold overwrite
    rw [Bytes.get_splice _ _ _ _ below]
    split
    · rw [Nat.add_sub_cancel' (by omega)]
    · rfl
  rcases mend_eq diffs at_ m s1 s2 s3 d with ⟨_, after⟩ | ⟨_, after⟩ | ⟨_, after⟩ | ⟨_, after⟩
  · rw [after, ← first, same, Device.store_self]
  · rw [after, ← second, same, Device.store_self]
  · rw [after, second, same, Device.release_hold resting]
  · exact after

/-- Reading equal copies leaves everything as it is. -/
theorem readMirrored_still {behind : Nat -> Nat -> UInt8} {c : Dinode} {place : Nat -> Nat -> Nat}
    {old : Nat -> Nat -> Block} {n : Nat} (space : 3 < limits.capacity) (fuel : Nat) :
    forall {off left : Nat} {diffs : Diffs}, Unread d ip c place old off left ->
      (forall k, Touches off left k -> old k 0 = old k 2 ∧ old k 1 = old k 2) ->
      (readMirrored behind ip n fuel off left diffs).wp limits (fun _ e => e = d) escape d := by
  induction fuel with
  | zero =>
      intro off left diffs _ _
      exact rfl
  | succ fuel ih =>
      intro off left diffs unread equal
      by_cases more : left = 0
      · rw [readMirrored, if_pos more]
        exact rfl
      · generalize piece : min left (BSIZE - off % BSIZE) = m
        have first : Touches off left (off / BSIZE) := (touches_cons more piece _).mpr (Or.inl rfl)
        have data := unread.data _ first
        have same := equal _ first
        refine readMirrored_step more piece (unread.readable first)
          (by rw [unread.idle]; exact space) rfl (fun _ => rfl) (fun _ => ?_)
        generalize diffs.or _ = flags
        have still : flags.mend (off % BSIZE) m (place (off / BSIZE) 0) (place (off / BSIZE) 1)
            (place (off / BSIZE) 2) d = d := by
          refine mend_equal flags ⟨unread.free _, unread.clean _ first 2 (by decide)⟩ ?_ ?_
          · rw [data 0 (by decide), data 2 (by decide)]
            exact same.1
          · rw [data 1 (by decide), data 2 (by decide)]
            exact same.2
        have rest := unread.mend more piece flags
        rw [still] at rest ⊢
        exact ih rest (fun k touches => equal k ((touches_cons more piece k).mpr (Or.inr touches)))

end Reading

/-! ## The bytes of a file -/

/-- The file in the entry `ip` has these contents.  `copies` is 3 for a mirrored file. -/
structure HasBytes (sb : Superblock) (d : Device BSIZE Kernel) (ip copies : Nat)
    (content : List UInt8) : Prop where
  size : (d.mem.icache ip).copy.logical_size = content.length
  bytes : forall x, x < content.length -> ((work sb d ip).content (d.mem.icache ip).inum
    (x / BSIZE * copies)).get (x % BSIZE) = content.getD x 0

/-- The contents after a write. -/
def spliced (content : List UInt8) (off : Nat) (src : List UInt8) : List UInt8 :=
  content.take off ++ src ++ content.drop (off + src.length)

section Contents

variable {content src : List UInt8} {off : Nat}

theorem length_spliced (offLe : off ≤ content.length) :
    (spliced content off src).length = grownSize content.length off src.length := by
  unfold spliced grownSize
  rw [List.length_append, List.length_append, List.length_take, List.length_drop]
  split <;> omega

theorem getD_spliced (offLe : off ≤ content.length) (x : Nat) : (spliced content off src).getD x 0 =
    if off ≤ x ∧ x < off + src.length then src.getD (x - off) 0 else content.getD x 0 := by
  have head : (content.take off).length = off := by
    rw [List.length_take]
    omega
  have front : (content.take off ++ src).length = off + src.length := by
    rw [List.length_append, head]
  unfold spliced
  by_cases before : x < off + src.length
  · rw [List.getD_append _ _ _ _ (by omega)]
    by_cases inside : off ≤ x
    · rw [if_pos ⟨inside, before⟩, List.getD_append_right _ _ _ _ (by omega), head]
    · rw [if_neg (fun both => inside both.1), List.getD_append _ _ _ _ (by omega)]
      simp only [List.getD_eq_getElem?_getD, List.getElem?_take, if_pos (Nat.not_le.mp inside)]
  · rw [if_neg (fun both => before both.2), List.getD_append_right _ _ _ _ (by omega), front]
    simp only [List.getD_eq_getElem?_getD, List.getElem?_drop]
    rw [Nat.add_sub_cancel' (by omega)]

end Contents

/-- A plain file without holes. -/
structure PlainFile (sb : Superblock) (ends : Nat) (enough : (Nat -> Bool) -> (Nat -> Nat) -> Prop)
    (d : Device BSIZE Kernel) (ip : Nat) : Prop where
  works : Works sb ends enough d ip
  plain : (d.mem.icache ip).copy.type ≠ T_DEV ∧ (d.mem.icache ip).copy.type ≠ T_MIRRORED
  size : (d.mem.icache ip).copy.logical_size ≤ MAXFILE * BSIZE
  covered : forall x, x < (d.mem.icache ip).copy.logical_size ->
    (work sb d ip).slot ((d.mem.icache ip).inum, Volume.place (x / BSIZE)) ≠ 0

section Bytes

variable {limits : Limits BSIZE} {sb : Superblock} {ends : Nat} {escape : Stop FsPanic -> Prop}
  {enough : (Nat -> Bool) -> (Nat -> Nat) -> Prop} {d e : Device BSIZE Kernel} {ip off n : Nat}
  {content src : List UInt8}

theorem Written.inum {value : Nat -> Nat -> UInt8} {hit : Nat -> Nat -> Prop} {new : Nat -> Prop}
    {size : Nat} (written : Written sb ends enough d e ip value hit new size) :
    (e.mem.icache ip).inum = (d.mem.icache ip).inum := by
  rcases written.mem with ⟨c, same⟩
  rw [same, Kernel.adjust_self]
  rfl

/-- A write changes the fields of the inode that it is meant to. -/
theorem Written.type {value : Nat -> Nat -> UInt8} {hit : Nat -> Nat -> Prop} {new : Nat -> Prop}
    {size : Nat} (written : Written sb ends enough d e ip value hit new size) :
    (e.mem.icache ip).copy.type = (d.mem.icache ip).copy.type := by
  have head := written.edited.head
  have here := @work_inode sb e ip
  rw [written.inum] at here
  rw [here, work_inode] at head
  rw [head]

theorem HasBytes.written {copies : Nat} {value : Nat -> Nat -> UInt8} {hit : Nat -> Nat -> Prop}
    {new : Nat -> Prop} (bytes : HasBytes sb d ip copies content) (offLe : off ≤ content.length)
    (written : Written sb ends enough d e ip value hit new
      (grownSize (d.mem.icache ip).copy.logical_size off src.length))
    (hits : forall x, hit (x / BSIZE * copies) (x % BSIZE) ↔ off ≤ x ∧ x < off + src.length)
    (values : forall x, value (x / BSIZE * copies) (x % BSIZE) = src.getD (x - off) 0) :
    HasBytes sb e ip copies (spliced content off src) := by
  refine ⟨?_, fun x below => ?_⟩
  · rw [written.size, bytes.size, length_spliced offLe]
  · have within := Nat.mod_lt x (show 0 < BSIZE by decide)
    rw [written.inum, getD_spliced offLe]
    by_cases inside : off ≤ x ∧ x < off + src.length
    · rw [if_pos inside, written.edited.written _ _ within ((hits x).mpr inside), values]
    · rw [length_spliced offLe] at below
      unfold grownSize at below
      have old : x < content.length := by
        split at below <;> omega
      rw [if_neg inside, written.edited.kept _ _ within (mt (hits x).mp inside)]
      exact bytes.bytes x old

theorem PlainFile.written {value : Nat -> Nat -> UInt8} {hit : Nat -> Nat -> Prop}
    {new : Nat -> Prop} (file : PlainFile sb ends enough d ip)
    (offLe : off ≤ (d.mem.icache ip).copy.logical_size) (low : off + n ≤ MAXFILE * BSIZE)
    (written : Written sb ends enough d e ip value hit new
      (grownSize (d.mem.icache ip).copy.logical_size off n))
    (present : forall bn, Touches off n bn ->
      (work sb e ip).slot ((d.mem.icache ip).inum, Volume.place bn) ≠ 0) :
    PlainFile sb ends enough e ip := by
  refine ⟨written.works, ?_, ?_, fun x below => ?_⟩
  · rw [written.type]
    exact file.plain
  · have size := file.size
    rw [written.size]
    unfold grownSize
    split <;> omega
  · rw [written.size] at below
    rw [written.inum]
    by_cases old : x < (d.mem.icache ip).copy.logical_size
    · have before := file.covered x old
      rw [written.edited.stays _ before]
      exact before
    · unfold grownSize at below
      split at below
      · exact present _ ⟨x, by omega, below, rfl⟩
      · exact absurd below old

/-- What `readi` needs to know of a plain file. -/
theorem PlainFile.stores (file : PlainFile sb ends enough d ip)
    (bytes : HasBytes sb d ip 1 content) : StoresFile d.disk (d.mem.icache ip).copy content := by
  have size := bytes.size
  refine ⟨file.plain, size, size ▸ file.size, fun x below => ?_, fun x below => ?_⟩
  · rw [file.works.addressOf]
    exact file.covered x (size ▸ below)
  · have byte := bytes.bytes x below
    unfold fileByte
    rw [file.works.disk (file.covered x (size ▸ below))]
    rw [Nat.mul_one] at byte
    exact byte

/-- Each copy has the bytes of the file. -/
theorem MirrorFile.copy_byte (file : MirrorFile sb ends enough d ip)
    (bytes : HasBytes sb d ip 3 content) {x j : Nat} (below : x < content.length) (copy : j < 3) :
    (d.disk (copyAt d.disk (d.mem.icache ip).copy (x / BSIZE) j)).get (x % BSIZE) =
      content.getD x 0 := by
  have there : x < (d.mem.icache ip).copy.logical_size := bytes.size ▸ below
  have equal := file.alike (x / BSIZE * 3 + j) (x / BSIZE * 3) (by omega)
  unfold copyAt
  rw [file.works.disk (file.covered x there j copy), equal]
  exact bytes.bytes x below

/-- What `readi` delivers of a mirrored file. -/
theorem MirrorFile.thirdCopies (file : MirrorFile sb ends enough d ip)
    (bytes : HasBytes sb d ip 3 content) (inside : off + n ≤ content.length) :
    TripleFs.thirdCopies (fun k j => d.disk (copyAt d.disk (d.mem.icache ip).copy k j)) off n =
      (content.drop off).take n := by
  refine List.ext_getElem ?_ (fun i below _ => ?_)
  · rw [TripleFs.thirdCopies, List.length_map, List.length_range, List.length_take,
      List.length_drop]
    omega
  · rw [TripleFs.thirdCopies, List.length_map, List.length_range] at below
    simp only [TripleFs.thirdCopies, List.getElem_map, List.getElem_range, List.getElem_take,
      List.getElem_drop]
    rw [file.copy_byte bytes (by omega) (by decide), List.getD_eq_getElem _ _ (by omega)]

/-- A read of a mirrored file, which changes nothing. -/
theorem MirrorFile.readi_wp (file : MirrorFile sb ends enough d ip)
    (bytes : HasBytes sb d ip 3 content) (space : 3 < limits.capacity)
    (offLe : off ≤ content.length) (fits : off + n < 2 ^ 32) (devsw : Devsw)
    (behind : Nat -> Nat -> UInt8) :
    (readi devsw behind ip off n).wp limits
      (fun result e =>
        e = d ∧
        (AllToldApart behind d.disk (d.mem.icache ip).copy off
          (clipped (d.mem.icache ip).copy off n) ->
          result = (-1, [])) ∧
        (¬ AllToldApart behind d.disk (d.mem.icache ip).copy off
          (clipped (d.mem.icache ip).copy off n) ->
          result = readResult content off n))
      escape d := by
  have mirrored := file.mirrored
  have size := bytes.size
  have offLeToo : off ≤ (d.mem.icache ip).copy.logical_size := size ▸ offLe
  have unread := Mirrored.unread file.works.quiet rfl mirrored (@clipped_le _ _ n offLeToo)
  have equal : forall k, Touches off (clipped (d.mem.icache ip).copy off n) k ->
      d.disk (copyAt d.disk (d.mem.icache ip).copy k 0) = d.disk (copyAt d.disk
      (d.mem.icache ip).copy k 2) ∧ d.disk (copyAt d.disk (d.mem.icache ip).copy k 1) = d.disk
      (copyAt d.disk (d.mem.icache ip).copy k 2) := by
    rintro k ⟨x, lower, upper, rfl⟩
    have whole : Touches 0 (d.mem.icache ip).copy.logical_size (x / BSIZE) := by
      refine ⟨x, Nat.zero_le x, ?_, rfl⟩
      unfold clipped at upper
      omega
    exact ⟨file.equal whole (by decide) (by decide), file.equal whole (by decide) (by decide)⟩
  have still : (readi devsw behind ip off n).wp limits (fun _ e => e = d) escape d :=
    readi_scan rfl mirrored.type offLeToo fits devsw
      (BlockProgram.wp_mono (readMirrored_still space _ unread equal)
      (fun _ _ same => ⟨fun _ => same, fun _ _ => same⟩) (fun _ stopped => stopped))
  refine BlockProgram.wp_mono (BlockProgram.wp_and still
    (readi_mirrored_wp space file.works.quiet rfl mirrored offLeToo fits devsw behind)) ?_
    (fun _ stopped => stopped)
  rintro result e ⟨same, _, ⟨all, gaveUp⟩ | ⟨some_, went, _⟩⟩
  · exact ⟨same, fun _ => gaveUp, fun notAll => absurd all notAll⟩
  · refine ⟨same, fun all => absurd all some_, fun _ => ?_⟩
    have accepted : ¬ (content.length < off ∨ 2 ^ 32 ≤ off + n) := by omega
    have inside : off + clipped (d.mem.icache ip).copy off n ≤ content.length :=
      size ▸ clipped_le offLeToo
    rw [went, file.thirdCopies bytes inside, readResult, if_neg accepted]
    unfold clipped
    rw [size, ← List.length_drop, ← List.take_eq_take_min]

end Bytes

end TripleFs
end OsProjects
