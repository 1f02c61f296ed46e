import OsProjects.TripleFs.MirroredRead

namespace OsProjects
namespace TripleFs

open Machine

/-!
# What mirroring is for

Three copies of each block should mask one bad copy, detect when no two of them agree,
and repair a bad copy on the disk.  `readi` compares the copies with `strncmp`, from the
beginning of the block and over the length of the whole read, and it trusts the third
copy.  The results here say exactly when that is good enough.
-/

/-- The length of a read, clipped at the end of the file. -/
def clipped (c : Dinode) (off n : Nat) : Nat := min n (c.logical_size - off)

/-- Two copies differ in the requested bytes of a block. -/
def DiffersOn (disk : Nat -> Block) (c : Dinode) (off n k i j : Nat) : Prop :=
  Exists fun y => y < BSIZE ∧ Requested off n k y ∧
    (disk (copyAt disk c k i)).get y ≠ (disk (copyAt disk c k j)).get y

/-- No two copies agree on the requested bytes of a block. -/
def Lost (disk : Nat -> Block) (c : Dinode) (off n k : Nat) : Prop :=
  forall pair : Pair, DiffersOn disk c off n k pair.left pair.right

/-- Each pair of copies is told apart in some block of the range. -/
def AllToldApart (behind : Nat -> Nat -> UInt8) (disk : Nat -> Block) (c : Dinode) (off n : Nat) :
    Prop :=
  forall pair : Pair, Exists fun k => Touches off n k ∧
    TellsApart n (copyMemory behind disk c k pair.left) (copyMemory behind disk c k pair.right)

/-- The flags of the block `k`, by itself. -/
def toldBy (behind : Nat -> Nat -> UInt8) (disk : Nat -> Block) (c : Dinode) (n k : Nat) : Diffs :=
  Diffs.told n (copyMemory behind disk c k 0) (copyMemory behind disk c k 1)
    (copyMemory behind disk c k 2)

theorem flag_toldBy {behind : Nat -> Nat -> UInt8} {disk : Nat -> Block} {c : Dinode} {n k : Nat}
    (pair : Pair) :
    (toldBy behind disk c n k).flag pair = true ↔
      TellsApart n (copyMemory behind disk c k pair.left) (copyMemory behind disk c k pair.right) :=
  Diffs.flag_told n (copyMemory behind disk c k) pair

/-- No flag is set when a read begins. -/
def Diffs.clear : Diffs := ⟨false, false, false⟩

theorem Diffs.flag_clear (pair : Pair) : Diffs.clear.flag pair = false := by
  cases pair <;> rfl

section Files

variable {disk : Nat -> Block} {c : Dinode} {off n k : Nat}

theorem addressOf_lt {bn : Nat} (present : addressOf disk c bn ≠ 0) : bn < MAXFILE := by
  unfold addressOf at present
  by_cases direct : bn < NDIRECT
  · exact Nat.lt_of_lt_of_le direct (Nat.le_add_right _ _)
  · rw [if_neg direct] at present
    by_cases none_ : c.addrs NDIRECT = 0
    · rw [if_pos none_] at present
      exact absurd rfl present
    · rw [if_neg none_] at present
      by_contra beyond
      refine present (Volume.word_beyond _ ?_)
      simp only [MAXFILE] at beyond
      omega

/-- Only 46 blocks have three copies. -/
theorem Mirrored.size (mirrored : Mirrored disk c) : c.logical_size ≤ 46 * BSIZE := by
  by_contra large
  have present := mirrored.present (46 * BSIZE) (Nat.not_le.mp large) 2 (by decide)
  have low := addressOf_lt present
  exact absurd low (by decide)

theorem Mirrored.of_touches (mirrored : Mirrored disk c) (inside : off + n ≤ c.logical_size)
    (touches : Touches off n k) {j : Nat} (copy : j < 3) : copyAt disk c k j ≠ 0 := by
  rcases touches with ⟨x, _, upper, rfl⟩
  exact mirrored.present x (by omega) j copy

theorem clipped_le (offLe : off ≤ c.logical_size) : off + clipped c off n ≤ c.logical_size := by
  unfold clipped
  omega

end Files

section Reads

variable {limits : Limits BSIZE} {escape : Stop FsPanic -> Prop} {s : Store Kernel}
  {d : Device BSIZE Kernel} {ip off n : Nat} {c : Dinode}

theorem Mirrored.unread (quiet : Quiet d) (loaded : (d.mem.icache ip).copy = c)
    (mirrored : Mirrored d.disk c) (inside : off + n ≤ c.logical_size) :
    Unread d ip c (copyAt d.disk c) (fun k j => d.disk (copyAt d.disk c k j)) off n := by
  have present := fun k touches j copy =>
      @Mirrored.of_touches _ _ off n k mirrored inside touches j copy
  refine ⟨loaded, quiet.idle, fun sector => (quiet.resting sector).idle,
    (quiet.resting _).clean, fun _ _ _ _ => rfl, present, fun k touches j copy =>
    mirrored.separate _ (present k touches j copy), fun k l touches _ i j first second same => ?_,
    fun _ _ _ _ => rfl, fun k _ j _ => (quiet.resting _).clean⟩
  have equal := mirrored.apart _ _ (present k touches i first) same
  omega

/-- `readi` on a range that is not refused. -/
theorem readi_scan {behind : Nat -> Nat -> UInt8}
    {post : Int × List UInt8 -> Device BSIZE Kernel -> Prop} (loaded : (d.mem.icache ip).copy = c)
    (mirrored : c.type = T_MIRRORED) (offLe : off ≤ c.logical_size) (fits : off + n < 2 ^ 32)
    (devsw : Devsw)
    (loop : (readMirrored behind ip (clipped c off n) (clipped c off n) off (clipped c off n)
      .clear).wp limits (fun result e => (result = none -> post (-1, []) e) ∧ forall bytes,
      result = some bytes -> post (((clipped c off n : Nat) : Int), bytes) e) escape d) :
    (readi devsw behind ip off n).wp limits post escape d := by
  have isDev : ¬ c.type = T_DEV := by
    rw [mirrored]
    decide
  have goes : ¬ (c.logical_size < off ∨ (off + n) % 2 ^ 32 < off) := by
    rw [Nat.mod_eq_of_lt fits]
    omega
  have length : (if c.logical_size < off + n then c.logical_size - off else n) =
      clipped c off n := by
    unfold clipped
    split <;> omega
  unfold readi
  refine BlockProgram.wp_bind.mpr (BlockProgram.wp_getMem ?_)
  rw [loaded, if_neg isDev, if_neg goes]
  dsimp only
  rw [if_pos mirrored, length]
  refine BlockProgram.wp_seq loop (fun result e holds => ?_)
  cases result with
  | none => exact holds.1 rfl
  | some bytes => exact holds.2 bytes rfl

/-- What `readi` does with a mirrored file. -/
theorem readi_mirrored_wp (space : 3 < limits.capacity) (quiet : Quiet d)
    (loaded : (d.mem.icache ip).copy = c) (mirrored : Mirrored d.disk c)
    (offLe : off ≤ c.logical_size) (fits : off + n < 2 ^ 32) (devsw : Devsw)
    (behind : Nat -> Nat -> UInt8) :
    (readi devsw behind ip off n).wp limits
      (fun result e =>
        Calm d e ∧
        ((AllToldApart behind d.disk c off (clipped c off n) ∧ result = (-1, [])) ∨
         (¬ AllToldApart behind d.disk c off (clipped c off n) ∧
          result =
            (((clipped c off n : Nat) : Int),
              thirdCopies (fun k j => d.disk (copyAt d.disk c k j)) off (clipped c off n)) ∧
          Scanned d e (copyAt d.disk c) (fun k j => d.disk (copyAt d.disk c k j)) off
            (clipped c off n)
            (flagsAt (toldBy behind d.disk c (clipped c off n)) .clear (off / BSIZE)))))
      escape d := by
  have unread := Mirrored.unread quiet loaded mirrored (@clipped_le c off n offLe)
  have notAll : ¬ Diffs.clear.All := fun all => nomatch all .firstSecond
  have loop := @readMirrored_scan limits escape ip behind c (copyAt d.disk c)
      (fun k j => d.disk (copyAt d.disk c k j)) (toldBy behind d.disk c (clipped c off n))
      (clipped c off n) space (clipped c off n) d off (clipped c off n) .clear
      (Nat.le_refl _) unread (fun _ _ => rfl) notAll
  refine readi_scan loaded mirrored.type offLe fits devsw
    (BlockProgram.wp_mono loop ?_ (fun _ stopped => stopped))
  rintro result e ⟨calm, gaveUp, went⟩
  have all : result = none ↔ AllToldApart behind d.disk c off (clipped c off n) := by
    rw [gaveUp]
    refine forall_congr' fun pair => ?_
    rw [Diffs.flag_clear, or_iff_right Bool.false_ne_true]
    exact exists_congr fun k => and_congr_right fun _ => flag_toldBy pair
  refine ⟨fun none_ => ⟨calm, Or.inl ⟨all.mp none_, rfl⟩⟩, fun bytes some_ => ?_⟩
  rcases went bytes some_ with ⟨same, scanned⟩
  have notNone : ¬ result = none := by
    rw [some_]
    exact nofun
  refine ⟨calm, Or.inr ⟨mt all.mpr notNone, ?_, scanned⟩⟩
  rw [same]

theorem exec_readi_mirrored (shows : Shows s d) (quiet : Quiet d)
    (loaded : (s.mem.icache ip).copy = c) (mirrored : Mirrored s.disk c)
    (offLe : off ≤ c.logical_size) (fits : off + n < 2 ^ 32) (devsw : Devsw)
    (behind : Nat -> Nat -> UInt8) :
    Exists fun t => Exists fun e =>
      Shows t e ∧ Calm d e ∧
      ((AllToldApart behind s.disk c off (clipped c off n) ∧
        exec (readi devsw behind ip off n) s = .done (-1, []) t) ∨
       (¬ AllToldApart behind s.disk c off (clipped c off n) ∧
        exec (readi devsw behind ip off n) s =
          .done (((clipped c off n : Nat) : Int),
            thirdCopies (fun k j => s.disk (copyAt s.disk c k j)) off (clipped c off n)) t ∧
        Scanned d e (copyAt s.disk c) (fun k j => s.disk (copyAt s.disk c k j)) off
          (clipped c off n)
          (flagsAt (toldBy behind s.disk c (clipped c off n)) .clear (off / BSIZE)))) := by
  have disk := shows.disk
  rw [disk] at mirrored ⊢
  rw [shows.mem] at loaded
  rcases Program.exists_done_of_wp (exec_sound shows (throughout_true _ _) (readi_mirrored_wp
    (show 3 < NBUF by decide) quiet loaded mirrored offLe fits devsw behind)) with
    ⟨result, t, ended, e, after, calm, ⟨all, same⟩ | ⟨some_, same, scanned⟩⟩
  · exact ⟨t, e, after, calm, Or.inl ⟨all, by rw [ended, same]⟩⟩
  · exact ⟨t, e, after, calm, Or.inr ⟨some_, by rw [ended, same], scanned⟩⟩

/-! ## Detecting loss -/

/-- Reading says exactly when a block of the range is lost. -/
def DetectsLoss (devsw : Devsw) (behind : Nat -> Nat -> UInt8) (s : Store Kernel) (ip off n : Nat)
    (c : Dinode) : Prop :=
  Exists fun value => Exists fun bytes => Exists fun t =>
    exec (readi devsw behind ip off n) s = .done (value, bytes) t ∧
    (value = -1 ↔ Exists fun k => Touches off (clipped c off n) k ∧
    Lost s.disk c off (clipped c off n) k) ∧
    (value = -1 ∨ value = ((clipped c off n : Nat) : Int))

/-- Loss is detected when `strncmp` tells each pair of copies apart somewhere in the
range exactly if some block of the range is lost. -/
theorem detectsLoss_iff (shows : Shows s d) (quiet : Quiet d) (loaded : (s.mem.icache ip).copy = c)
    (mirrored : Mirrored s.disk c) (offLe : off ≤ c.logical_size) (fits : off + n < 2 ^ 32)
    (devsw : Devsw) (behind : Nat -> Nat -> UInt8) :
    DetectsLoss devsw behind s ip off n c ↔
      (AllToldApart behind s.disk c off (clipped c off n) ↔
        Exists fun k =>
          Touches off (clipped c off n) k ∧ Lost s.disk c off (clipped c off n) k) := by
  rcases exec_readi_mirrored shows quiet loaded mirrored offLe fits devsw behind with
    ⟨t, e, _, _, ⟨all, ended⟩ | ⟨some_, ended, _⟩⟩
  · unfold DetectsLoss
    rw [ended]
    constructor
    · rintro ⟨value, bytes, u, same, exactly, _⟩
      injection same with same _
      exact iff_of_true all (exactly.mp (Prod.mk.inj same).1.symm)
    · intro exactly
      exact ⟨-1, [], t, rfl, iff_of_true rfl (exactly.mp all), Or.inl rfl⟩
  · have positive : ¬ ((clipped c off n : Nat) : Int) = -1 := by omega
    unfold DetectsLoss
    rw [ended]
    constructor
    · rintro ⟨value, bytes, u, same, exactly, _⟩
      injection same with same _
      refine iff_of_false some_ (fun lost => positive ?_)
      rw [(Prod.mk.inj same).1]
      exact exactly.mpr lost
    · intro exactly
      exact ⟨_, _, t, rfl, iff_of_false positive (mt exactly.mpr some_), Or.inr rfl⟩

end Reads

/-! ### A file of one block -/

/-- A mirrored file of one block. -/
def oneBlock (size : Nat) : Dinode where
  type := T_MIRRORED
  major := 0
  minor := 0
  nlink := 1
  logical_size := size
  addrs := fun i => if i < 3 then 29 + i else 0

/-- A disk with three copies of that block. -/
def threeCopies (copy : Nat -> Block) (sector : Nat) : Block :=
  if 29 ≤ sector ∧ sector < 32 then copy (sector - 29) else Bytes.fill 0

/-- A kernel with one inode in its cache. -/
def holding (disk : Nat -> Block) (c : Dinode) : Store Kernel :=
  ⟨disk, binit, ⟨fun _ => ⟨1, 1, true, true, c⟩⟩⟩

theorem addressOf_oneBlock (disk : Nat -> Block) (size bn : Nat) :
    addressOf disk (oneBlock size) bn = if bn < 3 then 29 + bn else 0 := by
  unfold addressOf
  by_cases direct : bn < NDIRECT
  · rw [if_pos direct]
    rfl
  · have large : ¬ bn < 3 := fun small => direct (Nat.lt_trans small (by decide))
    rw [if_neg direct, if_neg large]
    rfl

theorem copyAt_oneBlock (disk : Nat -> Block) (size : Nat) {j : Nat} (copy : j < 3) :
    copyAt disk (oneBlock size) 0 j = 29 + j := by
  unfold copyAt
  rw [addressOf_oneBlock, if_pos (by omega)]
  omega

theorem threeCopies_at (copy : Nat -> Block) {j : Nat} (small : j < 3) :
    threeCopies copy (29 + j) = copy j := by
  unfold threeCopies
  rw [if_pos (by omega), Nat.add_sub_cancel_left]

theorem mirrored_oneBlock (disk : Nat -> Block) {size : Nat} (short : size ≤ BSIZE) :
    Mirrored disk (oneBlock size) := by
  refine ⟨rfl, fun x below j copy => ?_, fun a b present same => ?_, fun a present => ?_⟩
  · have first : x / BSIZE = 0 := Nat.div_eq_of_lt (Nat.lt_of_lt_of_le below short)
    rw [first, copyAt_oneBlock _ _ copy]
    omega
  · rw [addressOf_oneBlock] at present same
    rw [addressOf_oneBlock] at same
    split at present
    · rw [if_pos (by assumption)] at same
      split at same <;> omega
    · exact absurd rfl present
  · have none_ : (oneBlock size).addrs NDIRECT = 0 := rfl
    rw [none_]
    exact present

/-- The only block of such a file. -/
theorem touches_oneBlock {n k : Nat} (short : n ≤ BSIZE) : Touches 0 n k ↔ 0 < n ∧ k = 0 := by
  rw [touches_iff]
  refine and_congr_right fun positive => ?_
  simp only [BSIZE] at short ⊢
  omega

theorem copyMemory_oneBlock (behind : Nat -> Nat -> UInt8) (copy : Nat -> Block) (size : Nat)
    {j y : Nat} (small : j < 3) (below : y < BSIZE) :
    copyMemory behind (threeCopies copy) (oneBlock size) 0 j y = (copy j).get y := by
  unfold copyMemory memoryFrom
  rw [if_pos below, copyAt_oneBlock _ _ small, threeCopies_at _ small]

/-- No devices. -/
def noDevices : Devsw := ⟨fun _ => none, fun _ => none⟩

/-- Copies that all differ in their first byte are lost, and `readi` says so. -/
theorem detectsLoss_iff_different :
    DetectsLoss noDevices (fun _ _ => 0)
      (holding (threeCopies fun j => Bytes.fill (UInt8.ofNat j)) (oneBlock 2)) 1 0 2
      (oneBlock 2) := by
  have apart : forall pair : Pair, UInt8.ofNat pair.left ≠ UInt8.ofNat pair.right := by
    intro pair
    cases pair <;> decide
  have small : forall pair : Pair, pair.left < 3 ∧ pair.right < 3 := by
    intro pair
    cases pair <;> decide
  have touches : Touches 0 2 0 := (touches_oneBlock (by decide)).mpr ⟨by decide, rfl⟩
  have start : 0 < BSIZE := by decide
  have lost : Lost (threeCopies fun j => Bytes.fill (UInt8.ofNat j)) (oneBlock 2) 0 2 0 := by
    intro pair
    refine ⟨0, start, by decide, ?_⟩
    rw [copyAt_oneBlock _ _ (small pair).1, copyAt_oneBlock _ _ (small pair).2,
      threeCopies_at _ (small pair).1, threeCopies_at _ (small pair).2, Bytes.get_fill _ start,
      Bytes.get_fill _ start]
    exact apart pair
  refine (detectsLoss_iff (shows_binit _ _) (quiet_fresh _ _) rfl
    (mirrored_oneBlock _ (by decide)) (by decide) (by decide) _ _).mpr
    (iff_of_true (fun pair => ⟨0, touches, 0, by decide, ?_, ?_⟩) ⟨0, touches, lost⟩)
  · rw [copyMemory_oneBlock _ _ _ (small pair).1 start, copyMemory_oneBlock _ _ _
      (small pair).2 start, Bytes.get_fill _ start, Bytes.get_fill _ start]
    exact apart pair
  · intro j below
    exact absurd below (Nat.not_lt_zero j)

/-- A block that begins with a NUL byte, followed by `second`. -/
def afterNul (second : Nat) : Block :=
  (Bytes.fill 0 : Block).splice 1 1 (fun _ => UInt8.ofNat second)

theorem get_afterNul {second y : Nat} (below : y < BSIZE) :
    (afterNul second).get y = if y = 1 then UInt8.ofNat second else 0 := by
  unfold afterNul
  rw [Bytes.get_splice _ _ _ _ below, Bytes.get_fill 0 below]
  exact if_congr (by omega) rfl rfl

/-- Three copies that begin with a NUL byte and differ in the next one are lost, but
`readi` delivers one of them. -/
theorem loss_behind_nul_unnoticed :
    ¬ forall (s : Store Kernel) (d : Device BSIZE Kernel) (ip off n : Nat) (c : Dinode)
      (devsw : Devsw) (behind : Nat -> Nat -> UInt8),
      Shows s d -> Quiet d -> (s.mem.icache ip).copy = c -> Mirrored s.disk c ->
      off ≤ c.logical_size -> off + n < 2 ^ 32 -> DetectsLoss devsw behind s ip off n c := by
  intro always
  have quiet := quiet_fresh (threeCopies afterNul) (holding (threeCopies afterNul) (oneBlock 2)).mem
  have mirrored := mirrored_oneBlock (threeCopies afterNul) (show 2 ≤ BSIZE by decide)
  have detects := always (holding (threeCopies afterNul) (oneBlock 2)) _ 1 0 2 _ noDevices
      (fun _ _ => 0) (shows_binit _ _) quiet rfl mirrored (by decide) (by decide)
  have exactly :=
    (detectsLoss_iff (shows_binit _ _) quiet rfl mirrored (by decide) (by decide) _ _).mp detects
  have lost : Lost (threeCopies afterNul) (oneBlock 2) 0 2 0 := by
    intro pair
    refine ⟨1, by decide, by decide, ?_⟩
    have small : pair.left < 3 ∧ pair.right < 3 := by cases pair <;> decide
    rw [copyAt_oneBlock _ _ small.1, copyAt_oneBlock _ _ small.2, threeCopies_at _ small.1,
      threeCopies_at _ small.2, get_afterNul (by decide), get_afterNul (by decide)]
    cases pair <;> decide
  rcases exactly.mpr ⟨0, (touches_oneBlock (by decide)).mpr ⟨by decide, rfl⟩,
    lost⟩ .firstSecond with
    ⟨k, touches, i, below, differs, before⟩
  rcases (touches_oneBlock (by decide)).mp touches with ⟨_, rfl⟩
  have start : forall j, j < 3 -> copyMemory (fun _ _ => 0) (threeCopies afterNul)
      (oneBlock 2) 0 j 0 = 0 := by
    intro j small
    rw [copyMemory_oneBlock _ _ _ small (by decide), get_afterNul (by decide)]
    rfl
  by_cases first : i = 0
  · subst first
    exact differs ((start 0 (by decide)).trans (start 1 (by decide)).symm)
  · exact (before 0 (Nat.pos_of_ne_zero first)).2 (start 0 (by decide))

/-! ## Repairing a copy -/

/-- The pair has the copy `j`. -/
def Pair.Has (pair : Pair) (j : Nat) : Prop := pair.left = j ∨ pair.right = j

/-- Exactly one copy of a block differs from the other two in the requested bytes. -/
structure Odd (disk : Nat -> Block) (c : Dinode) (off n k bad : Nat) : Prop where
  copy : bad < 3
  differs : forall pair : Pair, DiffersOn disk c off n k pair.left pair.right ↔ pair.Has bad

theorem Pair.forall_iff {p : Pair -> Prop} :
    (forall pair, p pair) ↔ p .firstSecond ∧ p .firstThird ∧ p .secondThird := by
  constructor
  · intro all
    exact ⟨all _, all _, all _⟩
  · rintro ⟨first, second, third⟩ pair
    cases pair with
    | firstSecond => exact first
    | firstThird => exact second
    | secondThird => exact third

/-- Two flags single out the copy that both pairs have. -/
theorem Diffs.outlier_iff {diffs : Diffs} {bad : Nat} : diffs.outlier = some bad ↔
    bad < 3 ∧ forall pair : Pair, diffs.flag pair = true ↔ pair.Has bad := by
  rw [Pair.forall_iff]
  rcases diffs with ⟨diff12, diff13, diff23⟩
  cases diff12 <;> cases diff13 <;> cases diff23 <;>
    simp [Diffs.outlier, Diffs.flag, Pair.Has, Pair.left, Pair.right] <;> omega

/-- A copy is known by its pairs. -/
theorem Pair.eq_of_has {i j : Nat} (first : i < 3) (second : j < 3)
    (all : forall pair : Pair, pair.Has i -> pair.Has j) : i = j := by
  rw [Pair.forall_iff] at all
  simp only [Pair.Has, Pair.left, Pair.right] at all
  omega

/-- Only one pair does not have a given copy. -/
theorem Pair.eq_of_without {pair other : Pair} {j : Nat} (small : j < 3) (without : ¬ pair.Has j)
    (withoutToo : ¬ other.Has j) : pair = other := by
  cases pair <;> cases other <;> simp [Pair.Has, Pair.left, Pair.right] at without withoutToo ⊢ <;>
    omega

/-- The odd copy differs from another one. -/
theorem Odd.other {disk : Nat -> Block} {c : Dinode} {off n k bad : Nat}
    (odd : Odd disk c off n k bad) :
    Exists fun j =>
      j < 3 ∧ j ≠ bad ∧
      Exists fun y =>
        y < BSIZE ∧ Requested off n k y ∧
        (disk (copyAt disk c k bad)).get y ≠ (disk (copyAt disk c k j)).get y := by
  have small := odd.copy
  by_cases third : bad = 2
  · subst third
    rcases (odd.differs .secondThird).mpr (Or.inr rfl) with ⟨y, below, requested, differs⟩
    exact ⟨1, by decide, by decide, y, below, requested, differs.symm⟩
  · by_cases second : bad = 1
    · subst second
      rcases (odd.differs .secondThird).mpr (Or.inl rfl) with ⟨y, below, requested, differs⟩
      exact ⟨2, by decide, by decide, y, below, requested, differs⟩
    · have first : bad = 0 := by omega
      subst first
      rcases (odd.differs .firstThird).mpr (Or.inl rfl) with ⟨y, below, requested, differs⟩
      exact ⟨2, by decide, by decide, y, below, requested, differs⟩

/-- The other two copies agree. -/
theorem Odd.same {disk : Nat -> Block} {c : Dinode} {off n k bad i j y : Nat}
    (odd : Odd disk c off n k bad) (first : i < 3) (second : j < 3) (goodToo : i ≠ bad)
    (good : j ≠ bad) (below : y < BSIZE) (requested : Requested off n k y) :
    (disk (copyAt disk c k i)).get y = (disk (copyAt disk c k j)).get y := by
  have agree : forall pair : Pair, ¬ pair.Has bad ->
      (disk (copyAt disk c k pair.left)).get y = (disk (copyAt disk c k pair.right)).get y := by
    intro pair without
    by_contra differs
    exact without ((odd.differs pair).mp ⟨y, below, requested, differs⟩)
  have small := odd.copy
  rw [Pair.forall_iff] at agree
  simp only [Pair.Has, Pair.left, Pair.right, not_or] at agree
  rcases agree with ⟨firstSecond, firstThird, secondThird⟩
  by_cases equal : i = j
  · rw [equal]
  · have cases_ : (i = 0 ∧ j = 1 ∨ i = 1 ∧ j = 0) ∨ (i = 0 ∧ j = 2 ∨ i = 2 ∧ j = 0) ∨
        (i = 1 ∧ j = 2 ∨ i = 2 ∧ j = 1) := by omega
    rcases cases_ with
      (⟨rfl, rfl⟩ | ⟨rfl, rfl⟩) | (⟨rfl, rfl⟩ | ⟨rfl, rfl⟩) | (⟨rfl, rfl⟩ | ⟨rfl, rfl⟩)
    · exact firstSecond ⟨goodToo, good⟩
    · exact (firstSecond ⟨good, goodToo⟩).symm
    · exact firstThird ⟨goodToo, good⟩
    · exact (firstThird ⟨good, goodToo⟩).symm
    · exact secondThird ⟨goodToo, good⟩
    · exact (secondThird ⟨good, goodToo⟩).symm

/-- The three copies of each block agree on the requested bytes with what two of them
said, nothing else on the disk has changed, and the cache has what the disk has. -/
structure Repaired (c : Dinode) (off n : Nat) (before after : Store Kernel) : Prop where
  agree : forall k, Touches off n k -> forall bad, Odd before.disk c off n k bad ->
    forall i j, i < 3 -> j < 3 -> j ≠ bad -> forall y, y < BSIZE -> Requested off n k y ->
    (after.disk (copyAt before.disk c k i)).get y = (before.disk (copyAt before.disk c k j)).get y
  kept : forall sector y, y < BSIZE -> (forall k, Touches off n k ->
    Requested off n k y -> forall j, j < 3 -> sector ≠ copyAt before.disk c k j) ->
    (after.disk sector).get y = (before.disk sector).get y
  clean : forall b, b ∈ after.bufs -> b.valid = true -> b.dirty = false ->
    b.data = after.disk b.sector

section Repairs

variable {s t : Store Kernel} {d : Device BSIZE Kernel} {ip off n : Nat} {c : Dinode}
  {behind : Nat -> Nat -> UInt8}

/-- The flags after the block `k`: what the blocks up to it have told. -/
theorem flag_toldUpTo {k : Nat} (pair : Pair) :
    (flagsAt (toldBy behind s.disk c n) .clear (off / BSIZE) k).flag pair = true ↔
      Exists fun i =>
        off / BSIZE ≤ i ∧ i ≤ k ∧
        TellsApart n (copyMemory behind s.disk c i pair.left)
          (copyMemory behind s.disk c i pair.right) := by
  rw [flag_flagsAt, Diffs.flag_clear, or_iff_right Bool.false_ne_true]
  exact exists_congr fun i => and_congr_right fun _ => and_congr_right fun _ => flag_toldBy pair

/-- A copy that has been repaired was singled out, and it is not the third one. -/
theorem outlier_of_repaired {e : Device BSIZE Kernel} {k bad : Nat} {flags : Nat -> Diffs}
    (after : Shows t e)
    (scanned : Scanned d e (copyAt s.disk c) (fun k j => s.disk (copyAt s.disk c k j)) off n flags)
    (repaired : Repaired c off n s t) (touches : Touches off n k) (odd : Odd s.disk c off n k bad) :
    (flags k).outlier = some bad ∧ bad ≠ 2 := by
  rcases odd.other with ⟨j, small, good, y, below, requested, differs⟩
  have now := repaired.agree k touches bad odd bad j odd.copy small good y below requested
  rw [after.disk, scanned.bytes k touches bad odd.copy y below] at now
  by_cases single : (flags k).outlier = some bad ∧ bad ≠ 2 ∧ Requested off n k y
  · exact ⟨single.1, single.2.1⟩
  · rw [if_neg single] at now
    exact absurd now differs

/-- When the odd copy of each block is singled out and is not the third one, the read
repairs. -/
theorem repaired_of_outlier {e : Device BSIZE Kernel} {flags : Nat -> Diffs} (shows : Shows s d)
    (quiet : Quiet d) (after : Shows t e) (calm : Calm d e)
    (scanned : Scanned d e (copyAt s.disk c) (fun k j => s.disk (copyAt s.disk c k j)) off n flags)
    (single : forall k, Touches off n k -> Exists fun bad => Odd s.disk c off n k bad ∧ bad ≠ 2 ∧
      (flags k).outlier = some bad) : Repaired c off n s t := by
  refine ⟨fun k touches bad odd i j first second good y below requested => ?_,
    fun sector y below outside => ?_, fun b inside valid _ => ?_⟩
  · rcases single k touches with ⟨found, oddToo, notThird, outlier⟩
    have same : found = bad := by
      refine Pair.eq_of_has oddToo.copy odd.copy (fun pair has => ?_)
      exact (odd.differs pair).mp ((oddToo.differs pair).mpr has)
    subst same
    rw [after.disk, scanned.bytes k touches i first y below, outlier]
    by_cases here : found = i
    · rw [if_pos ⟨congrArg some here, here ▸ notThird, requested⟩]
      exact odd.same (by decide) second (Ne.symm notThird) good below requested
    · rw [if_neg (fun all => here (Option.some.inj all.1))]
      exact odd.same first second (Ne.symm here) good below requested
  · rw [after.disk, shows.disk]
    by_cases copy : Exists fun k => Touches off n k ∧ Exists fun j => j < 3 ∧
      sector = copyAt s.disk c k j
    · rcases copy with ⟨k, touches, j, small, rfl⟩
      have notRequested : ¬ Requested off n k y :=
        fun requested => outside k touches requested j small rfl
      rw [scanned.bytes k touches j small y below, if_neg (fun all => notRequested all.2.2),
        shows.disk]
    · have other :=
        (scanned.others sector (fun k touches j small same => copy ⟨k, touches, j, small, same⟩)).1
      rw [other]
  · have used := (after.bufs.fetched b inside).mp valid
    have idle : b.busy = false := by
      rw [← Bool.not_eq_true]
      intro busy
      have lent := (after.bufs.held b inside busy).2
      rw [calm.free] at lent
      exact nomatch lent
    rw [after.disk]
    rcases after.bufs.clean b inside used idle with same | left
    · exact same
    · have empty : e.aside b.sector = ∅ := by
        by_cases copy : Exists fun k => Touches off n k ∧ Exists fun j => j < 3 ∧
          b.sector = copyAt s.disk c k j
        · rcases copy with ⟨k, touches, j, small, here⟩
          rcases single k touches with ⟨found, _, notThird, outlier⟩
          rw [here]
          refine scanned.clean k touches ?_ j small
          rw [outlier]
          exact fun same => notThird (Option.some.inj same)
        · rw [(scanned.others _
            (fun k touches j small same => copy ⟨k, touches, j, small, same⟩)).2]
          exact (quiet.resting _).clean
      rw [empty] at left
      exact absurd left id

/-- A read that succeeds over blocks with one odd copy each repairs them exactly when it
is always the same copy, not the third one, and `strncmp` tells it from both others in
the first block. -/
theorem repaired_iff (shows : Shows s d) (quiet : Quiet d) (loaded : (s.mem.icache ip).copy = c)
    (mirrored : Mirrored s.disk c) (offLe : off ≤ c.logical_size) (fits : off + n < 2 ^ 32)
    (devsw : Devsw) {value : Int} {bytes : List UInt8}
    (ended : exec (readi devsw behind ip off n) s = .done (value, bytes) t) (succeeds : value ≠ -1)
    (odd : forall k, Touches off (clipped c off n) k ->
      Exists fun bad => Odd s.disk c off (clipped c off n) k bad) :
    Repaired c off (clipped c off n) s t ↔ clipped c off n = 0 ∨ Exists fun bad => bad ≠ 2 ∧
      (forall k, Touches off (clipped c off n) k -> Odd s.disk c off (clipped c off n) k bad) ∧
      forall pair : Pair, pair.Has bad -> TellsApart (clipped c off n)
        (copyMemory behind s.disk c (off / BSIZE) pair.left)
        (copyMemory behind s.disk c (off / BSIZE) pair.right) := by
  rcases exec_readi_mirrored shows quiet loaded mirrored offLe fits devsw behind with
    ⟨u, e, after, calm, ⟨_, same⟩ | ⟨notAll, same, scanned⟩⟩
  · rw [same] at ended
    injection ended with equal _
    exact absurd (Prod.mk.inj equal).1.symm succeeds
  rw [same] at ended
  injection ended with _ equal
  subst equal
  have inside := @clipped_le c off n offLe
  generalize clipped c off n = len at *
  constructor
  · intro repaired
    refine or_iff_not_imp_left.mpr (fun some_ => ?_)
    have first : Touches off len (off / BSIZE) := touches_iff.mpr
      ⟨Nat.pos_of_ne_zero some_, Nat.le_refl _, Nat.div_le_div_right (by omega)⟩
    rcases odd _ first with ⟨bad, oddFirst⟩
    have single := outlier_of_repaired after scanned repaired first oddFirst
    have told := (Diffs.outlier_iff.mp single.1).2
    have here : forall pair : Pair, pair.Has bad -> TellsApart len
        (copyMemory behind s.disk c (off / BSIZE) pair.left)
        (copyMemory behind s.disk c (off / BSIZE) pair.right) := by
      intro pair has
      rcases (flag_toldUpTo pair).mp ((told pair).mpr has) with ⟨i, lower, upper, apart⟩
      rw [Nat.le_antisymm upper lower] at apart
      exact apart
    refine ⟨bad, single.2, fun k touches => ?_, here⟩
    rcases odd k touches with ⟨other, oddToo⟩
    have singleToo := Diffs.outlier_iff.mp
        (outlier_of_repaired after scanned repaired touches oddToo).1
    have same : bad = other := by
      refine Pair.eq_of_has oddFirst.copy singleToo.1 (fun pair has => (singleToo.2 pair).mp ?_)
      exact (flag_toldUpTo pair).mpr ⟨_, Nat.le_refl _, (touches_iff.mp touches).2.1, here pair has⟩
    rw [same]
    exact oddToo
  · intro condition
    refine repaired_of_outlier shows quiet after calm scanned (fun k touches => ?_)
    have range := touches_iff.mp touches
    rcases condition with none_ | ⟨bad, notThird, oddAll, here⟩
    · exact absurd range.1 (by omega)
    · refine ⟨bad, oddAll k touches, notThird,
        Diffs.outlier_iff.mpr ⟨(oddAll k touches).copy, fun pair => ?_⟩⟩
      rw [flag_toldUpTo]
      constructor
      · rintro ⟨i, lower, upper, apart⟩
        by_contra without
        refine notAll (fun other => ?_)
        by_cases has : other.Has bad
        · exact ⟨_, touches_iff.mpr ⟨range.1, Nat.le_refl _, Nat.le_trans range.2.1 range.2.2⟩,
            here other has⟩
        · rw [Pair.eq_of_without (oddAll k touches).copy has without]
          exact ⟨i, touches_iff.mpr ⟨range.1, lower, Nat.le_trans upper range.2.2⟩, apart⟩
      · intro has
        exact ⟨_, Nat.le_refl _, range.2.1, here pair has⟩

end Repairs

/-- Copies of zeros, except that the first byte of one copy is one. -/
def damaged (bad j : Nat) : Block := if j = bad then (Bytes.fill 0 : Block).splice 0 1 (fun _ => 1)
    else Bytes.fill 0

theorem get_damaged {bad j y : Nat} (below : y < BSIZE) :
    (damaged bad j).get y = if j = bad ∧ y = 0 then 1 else 0 := by
  unfold damaged
  by_cases here : j = bad
  · rw [if_pos here, Bytes.get_splice _ _ _ _ below, Bytes.get_fill 0 below]
    exact if_congr (by omega) rfl rfl
  · rw [if_neg here, Bytes.get_fill 0 below, if_neg (fun both => here both.1)]

theorem damaged_ne {bad : Nat} {pair : Pair} :
    (damaged bad pair.left).get 0 ≠ (damaged bad pair.right).get 0 ↔ pair.Has bad := by
  have apart : pair.left ≠ pair.right := by cases pair <;> decide
  rw [get_damaged (by decide), get_damaged (by decide)]
  by_cases first : pair.left = bad
  · have second : ¬ pair.right = bad := fun same => apart (first.trans same.symm)
    rw [if_pos ⟨first, rfl⟩, if_neg (fun both => second both.1)]
    exact iff_of_true (by decide) (Or.inl first)
  · rw [if_neg (fun both => first both.1)]
    by_cases second : pair.right = bad
    · rw [if_pos ⟨second, rfl⟩]
      exact iff_of_true (by decide) (Or.inr second)
    · rw [if_neg (fun both => second both.1)]
      exact iff_of_false (fun differs => differs rfl) (fun has => has.elim first second)

theorem odd_damaged {bad : Nat} (small : bad < 3) :
    Odd (threeCopies (damaged bad)) (oneBlock 1) 0 1 0 bad := by
  refine ⟨small, fun pair => ?_⟩
  have smallToo : pair.left < 3 ∧ pair.right < 3 := by cases pair <;> decide
  rw [← damaged_ne]
  unfold DiffersOn
  rw [copyAt_oneBlock _ _ smallToo.1, copyAt_oneBlock _ _ smallToo.2, threeCopies_at _ smallToo.1,
    threeCopies_at _ smallToo.2]
  constructor
  · rintro ⟨y, _, requested, differs⟩
    have first : y = 0 := by
      unfold Requested at requested
      omega
    rw [first] at differs
    exact differs
  · intro differs
    exact ⟨0, by decide, by decide, differs⟩

theorem tellsApart_damaged {bad : Nat} {pair : Pair} :
    TellsApart 1 (copyMemory (fun _ _ => 0) (threeCopies (damaged bad)) (oneBlock 1) 0 pair.left)
      (copyMemory (fun _ _ => 0) (threeCopies (damaged bad)) (oneBlock 1) 0 pair.right) ↔
      pair.Has bad := by
  have small : pair.left < 3 ∧ pair.right < 3 := by cases pair <;> decide
  rw [← damaged_ne]
  constructor
  · rintro ⟨i, below, differs, _⟩
    have first : i = 0 := by omega
    rw [first, copyMemory_oneBlock _ _ _ small.1 (by decide),
      copyMemory_oneBlock _ _ _ small.2 (by decide)] at differs
    exact differs
  · intro differs
    refine ⟨0, by decide, ?_, fun j below => absurd below (Nat.not_lt_zero j)⟩
    rw [copyMemory_oneBlock _ _ _ small.1 (by decide),
      copyMemory_oneBlock _ _ _ small.2 (by decide)]
    exact differs

/-- The kernel that reads these copies. -/
def damagedStore (bad : Nat) : Store Kernel := holding (threeCopies (damaged bad)) (oneBlock 1)

theorem notAll_damaged (bad : Nat) :
    ¬ AllToldApart (fun _ _ => 0) (threeCopies (damaged bad)) (oneBlock 1) 0 1 := by
  intro all
  have has : forall pair : Pair, pair.Has bad := by
    intro pair
    rcases all pair with ⟨k, touches, apart⟩
    rcases (touches_oneBlock (by decide)).mp touches with ⟨_, rfl⟩
    exact tellsApart_damaged.mp apart
  rw [Pair.forall_iff] at has
  simp only [Pair.Has, Pair.left, Pair.right] at has
  omega

/-- Reading the byte succeeds. -/
theorem exec_readi_damaged (bad : Nat) :
    Exists fun t =>
      exec (readi noDevices (fun _ _ => 0) 1 0 1) (damagedStore bad) =
        .done (1, [(damaged bad 2).get 0]) t := by
  have mirrored := mirrored_oneBlock (threeCopies (damaged bad)) (show 1 ≤ BSIZE by decide)
  have shows := shows_binit (threeCopies (damaged bad)) (damagedStore bad).mem
  rcases @exec_readi_mirrored (damagedStore bad) _ 1 0 1 _ shows (quiet_fresh _ _) rfl mirrored
    (Nat.zero_le _) (by decide) noDevices (fun _ _ => 0) with ⟨t, _, _, _, ⟨all, _⟩ | ⟨_, ended, _⟩⟩
  · exact absurd all (notAll_damaged bad)
  · refine ⟨t, ended.trans ?_⟩
    have copy := copyAt_oneBlock (threeCopies (damaged bad)) 1 (show 2 < 3 by decide)
    have data := threeCopies_at (damaged bad) (show 2 < 3 by decide)
    have bytes : thirdCopies (fun k j => threeCopies (damaged bad)
        (copyAt (threeCopies (damaged bad)) (oneBlock 1) k j)) 0 1 = [(damaged bad 2).get 0] := by
      show [(threeCopies (damaged bad) (copyAt _ (oneBlock 1) 0 2)).get 0] = _
      rw [copy, data]
    exact congrArg (fun list => Outcome.done ((1 : Int), list) t) bytes

/-- A bad first copy is repaired. -/
theorem repaired_iff_first : Exists fun t =>
    exec (readi noDevices (fun _ _ => 0) 1 0 1) (damagedStore 0) = .done (1, [0]) t ∧
      Repaired (oneBlock 1) 0 1 (damagedStore 0) t := by
  rcases exec_readi_damaged 0 with ⟨t, ended⟩
  refine ⟨t, ended, (@repaired_iff (damagedStore 0) t _ 1 0 1 (oneBlock 1) (fun _ _ => 0)
    (shows_binit _ _) (quiet_fresh _ _) rfl (mirrored_oneBlock _ (by decide))
    (by decide) (by decide) _ _ _ ended (by decide) (fun k touches => ?_)).mpr
    (Or.inr ⟨0, by decide, fun k touches => ?_, fun pair has => tellsApart_damaged.mpr has⟩)⟩
  · rcases (touches_oneBlock (by decide)).mp touches with ⟨_, rfl⟩
    exact ⟨0, odd_damaged (by decide)⟩
  · rcases (touches_oneBlock (by decide)).mp touches with ⟨_, rfl⟩
    exact odd_damaged (by decide)

/-- A bad third copy is not: `readi` writes the wrong buffer. -/
theorem third_copy_stays_bad :
    ¬ forall (s t : Store Kernel) (d : Device BSIZE Kernel) (ip off n : Nat) (c : Dinode)
      (devsw : Devsw) (behind : Nat -> Nat -> UInt8) (value : Int) (bytes : List UInt8),
      Shows s d -> Quiet d -> (s.mem.icache ip).copy = c -> Mirrored s.disk c ->
      off ≤ c.logical_size -> off + n < 2 ^ 32 ->
      exec (readi devsw behind ip off n) s = .done (value, bytes) t -> value ≠ -1 ->
      (forall k, Touches off (clipped c off n) k ->
        Exists fun bad => Odd s.disk c off (clipped c off n) k bad) ->
      Repaired c off (clipped c off n) s t := by
  intro always
  rcases exec_readi_damaged 2 with ⟨t, ended⟩
  have mirrored := mirrored_oneBlock (threeCopies (damaged 2)) (show 1 ≤ BSIZE by decide)
  have odd : forall k, Touches 0 1 k -> Exists fun bad => Odd (threeCopies (damaged 2))
      (oneBlock 1) 0 1 k bad := by
    intro k touches
    rcases (touches_oneBlock (by decide)).mp touches with ⟨_, rfl⟩
    exact ⟨2, odd_damaged (by decide)⟩
  have repaired := always (damagedStore 2) t _ 1 0 1 _ noDevices (fun _ _ => 0) 1 _
      (shows_binit _ _) (quiet_fresh _ _) rfl mirrored (by decide) (by decide) ended (by decide) odd
  rcases (@repaired_iff (damagedStore 2) t _ 1 0 1 (oneBlock 1) (fun _ _ => 0) (shows_binit _ _)
    (quiet_fresh _ _) rfl mirrored (by decide) (by decide) _ _ _ ended (by decide) odd).mp
    repaired with none_ | ⟨bad, notThird, oddAll, _⟩
  · exact absurd none_ (by decide)
  · have oddToo := oddAll 0 ((touches_oneBlock (by decide)).mpr ⟨by decide, rfl⟩)
    refine notThird (Pair.eq_of_has oddToo.copy (by decide) (fun pair has => ?_))
    exact ((odd_damaged (by decide)).differs pair).mp ((oddToo.differs pair).mpr has)

/-! ## Masking a bad copy -/

/-- The disk of a mirrored file with equal copies, after bytes of at most one copy of
each block have been changed. -/
structure Corrupted (before after : Nat -> Block) (c : Dinode) : Prop where
  identical : forall k, Touches 0 c.logical_size k -> forall i j, i < 3 -> j < 3 ->
    before (copyAt before c k i) = before (copyAt before c k j)
  others : forall sector, (forall k, Touches 0 c.logical_size k -> forall j, j < 3 ->
    sector ≠ copyAt before c k j) -> after sector = before sector
  oneBad : forall k, Touches 0 c.logical_size k -> Exists fun bad => forall j, j < 3 -> j ≠ bad ->
    after (copyAt before c k j) = before (copyAt before c k j)

/-- The bytes of a range of a file whose copies are equal. -/
def written (disk : Nat -> Block) (c : Dinode) (off n : Nat) : List UInt8 :=
  (List.range n).map (fun i => (disk (copyAt disk c ((off + i) / BSIZE) 0)).get ((off + i) % BSIZE))

/-- A read returns what was written before the corruption. -/
def Masks (devsw : Devsw) (behind : Nat -> Nat -> UInt8) (before : Nat -> Block) (s : Store Kernel)
    (ip off n : Nat) (c : Dinode) : Prop :=
  Exists fun t => exec (readi devsw behind ip off n) s =
    .done (((clipped c off n : Nat) : Int), written before c off (clipped c off n)) t

section Masking

variable {s : Store Kernel} {d : Device BSIZE Kernel} {before : Nat -> Block}
  {ip off n : Nat} {c : Dinode}

/-- Corruption does not reach the indirect block. -/
theorem Corrupted.addresses {after : Nat -> Block} (mirrored : Mirrored before c)
    (corrupted : Corrupted before after c) (bn : Nat) :
    addressOf after c bn = addressOf before c bn := by
  refine addressOf_congr (corrupted.others _ (fun k touches j small same => ?_)) bn
  have present := Mirrored.of_touches mirrored
      (show 0 + c.logical_size ≤ c.logical_size by omega) touches small
  exact mirrored.separate _ present same.symm

theorem Corrupted.mirrored {after : Nat -> Block} (mirrored : Mirrored before c)
    (corrupted : Corrupted before after c) : Mirrored after c := by
  have same := corrupted.addresses mirrored
  refine ⟨mirrored.type, fun x below j small => ?_, fun a b present equal => ?_,
    fun a present => ?_⟩
  · rw [copyAt, same]
    exact mirrored.present x below j small
  · rw [same] at present equal
    rw [same] at equal
    exact mirrored.apart a b present equal
  · rw [same] at present ⊢
    exact mirrored.separate a present

theorem written_eq_thirdCopies_iff {disk : Nat -> Block} {off n : Nat} {old : Nat -> Nat -> Block} :
    thirdCopies old off n = written disk c off n ↔
      forall k, Touches off n k ->
        forall y, y < BSIZE -> Requested off n k y ->
          (old k 2).get y = (disk (copyAt disk c k 0)).get y := by
  unfold thirdCopies written
  rw [List.map_inj_left]
  constructor
  · intro same k _ y below requested
    have at_ := same (k * BSIZE + y - off)
        (List.mem_range.mpr (by unfold Requested at requested; omega))
    have position : off + (k * BSIZE + y - off) = k * BSIZE + y := by
      unfold Requested at requested
      omega
    have block : (k * BSIZE + y) / BSIZE = k := by
      simp only [BSIZE] at below ⊢
      omega
    have byte : (k * BSIZE + y) % BSIZE = y := by
      simp only [BSIZE] at below ⊢
      omega
    rw [position, block, byte] at at_
    exact at_
  · intro same i member
    have below := List.mem_range.mp member
    have split := Nat.div_add_mod (off + i) BSIZE
    refine same _ ⟨off + i, by omega, by omega, rfl⟩ _ (Nat.mod_lt _ (by decide)) ?_
    unfold Requested
    rw [Nat.mul_comm, split]
    omega

/-- A range that is refused. -/
theorem exec_readi_refused (type : (s.mem.icache ip).copy.type ≠ T_DEV)
    (refused : (s.mem.icache ip).copy.logical_size < off ∨ (off + n) % 2 ^ 32 < off) (devsw : Devsw)
    (behind : Nat -> Nat -> UInt8) : exec (readi devsw behind ip off n) s = .done (-1, []) s := by
  have start : exec (readi devsw behind ip off n) s = exec
      (if (s.mem.icache ip).copy.type = T_DEV then _
      else if (s.mem.icache ip).copy.logical_size < off ∨ (off + n) % 2 ^ 32 < off then
        pure (-1, [])
      else _ : Fs (Int × List UInt8)) s := rfl
  rw [start, if_neg type, if_pos refused]
  rfl

/-- One bad copy is masked exactly when the range does not wrap, the third copies are
good there and `strncmp` does not tell each pair of copies apart somewhere. -/
theorem masks_iff (shows : Shows s d) (quiet : Quiet d) (loaded : (s.mem.icache ip).copy = c)
    (mirrored : Mirrored before c) (corrupted : Corrupted before s.disk c)
    (offLe : off ≤ c.logical_size) (uint : n < 2 ^ 32) (devsw : Devsw)
    (behind : Nat -> Nat -> UInt8) :
    Masks devsw behind before s ip off n c ↔
      off + n < 2 ^ 32 ∧ ¬ AllToldApart behind s.disk c off (clipped c off n) ∧
      forall k, Touches off (clipped c off n) k ->
        forall y, y < BSIZE -> Requested off (clipped c off n) k y ->
          (s.disk (copyAt before c k 2)).get y = (before (copyAt before c k 2)).get y := by
  have now := corrupted.mirrored mirrored
  have place : forall k j, copyAt s.disk c k j = copyAt before c k j :=
    fun k j => corrupted.addresses mirrored _
  have inside := @clipped_le c off n offLe
  have equal : forall k, Touches off (clipped c off n) k ->
      before (copyAt before c k 2) = before (copyAt before c k 0) := by
    intro k touches
    refine corrupted.identical k ?_ 2 0 (by decide) (by decide)
    rcases touches with ⟨x, lower, upper, block⟩
    exact ⟨x, Nat.zero_le x, by omega, block⟩
  unfold Masks
  by_cases fits : off + n < 2 ^ 32
  · rcases exec_readi_mirrored shows quiet loaded now offLe fits devsw behind with
      ⟨t, e, _, _, ⟨all, ended⟩ | ⟨notAll, ended, _⟩⟩
    · refine iff_of_false ?_ (fun condition => condition.2.1 all)
      rintro ⟨u, same⟩
      rw [ended] at same
      injection same with same _
      have value := (Prod.mk.inj same).1
      omega
    · have right : (Exists fun u => exec (readi devsw behind ip off n) s =
          .done (((clipped c off n : Nat) : Int), written before c off (clipped c off n)) u) ↔
          thirdCopies (fun k j => s.disk (copyAt s.disk c k j)) off (clipped c off n) =
            written before c off (clipped c off n) := by
        rw [ended]
        constructor
        · rintro ⟨u, same⟩
          injection same with same _
          exact (Prod.mk.inj same).2
        · intro same
          exact ⟨t, by rw [same]⟩
      rw [right, written_eq_thirdCopies_iff]
      constructor
      · intro same
        refine ⟨fits, notAll, fun k touches y below requested => ?_⟩
        rw [equal k touches, ← place]
        exact same k touches y below requested
      · rintro ⟨_, _, good⟩ k touches y below requested
        rw [place, ← equal k touches]
        exact good k touches y below requested
  · refine iff_of_false ?_ (fun condition => fits condition.1)
    have size := mirrored.size
    have wraps : c.logical_size < off ∨ (off + n) % 2 ^ 32 < off := by
      simp only [BSIZE] at size
      right
      omega
    rintro ⟨u, same⟩
    rw [← loaded] at wraps
    rw [exec_readi_refused (by rw [loaded, mirrored.type]; decide) wraps] at same
    injection same with same _
    have value := (Prod.mk.inj same).1
    omega

/-- The disk of a file of one block before the corruption. -/
theorem corrupted_damaged (bad : Nat) :
    Corrupted (threeCopies fun _ => Bytes.fill 0) (threeCopies (damaged bad)) (oneBlock 1) := by
  have first : forall k, Touches 0 (oneBlock 1).logical_size k -> k = 0 := fun k touches =>
    ((@touches_oneBlock 1 k (by decide)).mp touches).2
  refine ⟨fun k touches i j small smallToo => ?_, fun sector outside => ?_,
    fun k touches => ⟨bad, fun j small good => ?_⟩⟩
  · rw [first k touches, copyAt_oneBlock _ _ small, copyAt_oneBlock _ _ smallToo,
      threeCopies_at _ small, threeCopies_at _ smallToo]
  · unfold threeCopies
    by_cases copy : 29 ≤ sector ∧ sector < 32
    · refine absurd ?_ (outside 0 ((@touches_oneBlock 1 0 (by decide)).mpr ⟨by decide, rfl⟩)
        (sector - 29) (by omega))
      rw [copyAt_oneBlock _ _ (by omega)]
      omega
    · rw [if_neg copy, if_neg copy]
  · rw [first k touches, copyAt_oneBlock _ _ small, threeCopies_at _ small, threeCopies_at _ small]
    exact if_neg good

/-- A bad first copy is masked. -/
theorem masks_iff_first :
    Masks noDevices (fun _ _ => 0) (threeCopies fun _ => Bytes.fill 0) (damagedStore 0) 1 0 1
      (oneBlock 1) := by
  refine (@masks_iff (damagedStore 0) _ _ 1 0 1 (oneBlock 1) (shows_binit _ _) (quiet_fresh _ _) rfl
    (mirrored_oneBlock _ (by decide)) (corrupted_damaged 0) (by decide) (by decide) _ _).mpr
    ⟨by decide, notAll_damaged 0, fun k touches y below _ => ?_⟩
  rcases (@touches_oneBlock 1 k (by decide)).mp touches with ⟨_, rfl⟩
  have third : 2 < 3 := by decide
  have disk : (damagedStore 0).disk = threeCopies (damaged 0) := rfl
  rw [disk, copyAt_oneBlock _ _ third, threeCopies_at _ third, threeCopies_at _ third]
  rfl

/-- A bad third copy is what the read delivers. -/
theorem third_copy_delivered :
    ¬ forall (s : Store Kernel) (d : Device BSIZE Kernel) (before : Nat -> Block) (ip off n : Nat)
      (c : Dinode) (devsw : Devsw) (behind : Nat -> Nat -> UInt8),
      Shows s d -> Quiet d -> (s.mem.icache ip).copy = c -> Mirrored before c ->
      Corrupted before s.disk c -> off ≤ c.logical_size -> n < 2 ^ 32 ->
      Masks devsw behind before s ip off n c := by
  intro always
  have masks := always (damagedStore 2) _ _ 1 0 1 (oneBlock 1) noDevices (fun _ _ => 0)
      (shows_binit _ _) (quiet_fresh _ _) rfl (mirrored_oneBlock _ (by decide))
      (corrupted_damaged 2) (by decide) (by decide)
  rcases (@masks_iff (damagedStore 2) _ _ 1 0 1 (oneBlock 1) (shows_binit _ _) (quiet_fresh _ _) rfl
    (mirrored_oneBlock _ (by decide)) (corrupted_damaged 2) (by decide) (by decide) _ _).mp
    masks with ⟨_, _, good⟩
  have same := good 0 ((@touches_oneBlock 1 0 (by decide)).mpr ⟨by decide, rfl⟩) 0
      (by decide) (by decide)
  have third : 2 < 3 := by decide
  have disk : (damagedStore 2).disk = threeCopies (damaged 2) := rfl
  rw [disk, copyAt_oneBlock _ _ third, threeCopies_at _ third, threeCopies_at _ third,
    get_damaged (by decide)] at same
  exact absurd same (by decide)

end Masking

end TripleFs
end OsProjects
