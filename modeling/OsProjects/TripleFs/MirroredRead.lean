import OsProjects.TripleFs.ImageReading

namespace OsProjects
namespace TripleFs

open Machine

/-!
# Reading a mirrored file

`readi` compares the three copies of each block pairwise, keeps three flags over the
whole read, delivers the third copy and repairs one copy when two of the flags are set.
This says what it does to any copies, without regard to what it should do.
-/

/-! ## Comparing copies -/

/-- The first difference of two strings is within the first `n` bytes and not behind
their end. -/
def TellsApart (n : Nat) (p q : Nat -> UInt8) : Prop :=
  Exists fun i => i < n ∧ p i ≠ q i ∧ forall j, j < i -> p j = q j ∧ p j ≠ 0

theorem strncmp_ne_zero (p q : Nat -> UInt8) (n : Nat) :
    forall i,
      strncmp p q n i ≠ 0 ↔
        Exists fun k =>
          i ≤ k ∧ k < i + n ∧ p k ≠ q k ∧ forall j, i ≤ j -> j < k -> p j = q j ∧ p j ≠ 0 := by
  induction n with
  | zero =>
      intro i
      rw [strncmp]
      refine iff_of_false (fun differs => differs rfl) ?_
      rintro ⟨k, lower, upper, _⟩
      exact absurd lower (Nat.not_le.mpr upper)
  | succ n ih =>
      intro i
      by_cases further : p i ≠ 0 ∧ p i = q i
      · rw [strncmp, if_pos further, ih]
        constructor
        · rintro ⟨k, lower, upper, differs, before⟩
          refine ⟨k, by omega, by omega, differs, fun j from_ below => ?_⟩
          by_cases first : j = i
          · rw [first]
            exact ⟨further.2, further.1⟩
          · exact before j (by omega) below
        · rintro ⟨k, lower, upper, differs, before⟩
          have later : k ≠ i := by
            intro same
            rw [same] at differs
            exact differs further.2
          exact ⟨k, by omega, by omega, differs, fun j from_ below => before j (by omega) below⟩
      · rw [strncmp, if_neg further]
        by_cases same : p i = q i
        · rw [same, Int.sub_self]
          refine iff_of_false (fun differs => differs rfl) ?_
          rintro ⟨k, lower, _, differs, before⟩
          by_cases here : k = i
          · rw [here] at differs
            exact differs same
          · have ended := before i (Nat.le_refl i) (by omega)
            exact further ⟨ended.2, ended.1⟩
        · refine iff_of_true (fun equal => same ?_)
            ⟨i, Nat.le_refl i, by omega, same, fun j from_ below => ?_⟩
          · have values : (p i).toNat = (q i).toNat := by omega
            exact UInt8.toNat_inj.mp values
          · exact absurd from_ (Nat.not_le.mpr below)

theorem strncmp_iff {p q : Nat -> UInt8} {n : Nat} : strncmp p q n 0 ≠ 0 ↔ TellsApart n p q := by
  rw [strncmp_ne_zero]
  constructor
  · rintro ⟨i, _, upper, differs, before⟩
    exact ⟨i, by omega, differs, fun j below => before j (Nat.zero_le j) below⟩
  · rintro ⟨i, upper, differs, before⟩
    exact ⟨i, Nat.zero_le i, by omega, differs, fun j _ below => before j below⟩

instance (n : Nat) (p q : Nat -> UInt8) : Decidable (TellsApart n p q) :=
  decidable_of_iff _ strncmp_iff

/-- Two of the three copies. -/
inductive Pair
  | firstSecond
  | firstThird
  | secondThird
  deriving DecidableEq

def Pair.left : Pair -> Nat
  | .firstSecond => 0
  | .firstThird => 0
  | .secondThird => 1

def Pair.right : Pair -> Nat
  | .firstSecond => 1
  | .firstThird => 2
  | .secondThird => 2

/-- The flag of a pair. -/
def Diffs.flag (diffs : Diffs) : Pair -> Bool
  | .firstSecond => diffs.diff12
  | .firstThird => diffs.diff13
  | .secondThird => diffs.diff23

/-- All flags are set, which makes `readi` give up. -/
def Diffs.All (diffs : Diffs) : Prop := forall pair, diffs.flag pair = true

theorem Diffs.all_iff (diffs : Diffs) :
    (diffs.diff12 && diffs.diff23 && diffs.diff13) = true ↔ diffs.All := by
  rw [Bool.and_eq_true, Bool.and_eq_true]
  constructor
  · rintro ⟨⟨first, third⟩, second⟩ pair
    cases pair with
    | firstSecond => exact first
    | firstThird => exact second
    | secondThird => exact third
  · intro all
    exact ⟨⟨all .firstSecond, all .secondThird⟩, all .firstThird⟩

def Diffs.or (diffs more : Diffs) : Diffs where
  diff12 := diffs.diff12 || more.diff12
  diff13 := diffs.diff13 || more.diff13
  diff23 := diffs.diff23 || more.diff23

theorem Diffs.flag_or (diffs more : Diffs) (pair : Pair) :
    (diffs.or more).flag pair = (diffs.flag pair || more.flag pair) := by
  cases pair <;> rfl

/-- The flags that one block sets. -/
def Diffs.told (n : Nat) (p1 p2 p3 : Nat -> UInt8) : Diffs :=
  Diffs.compare ⟨false, false, false⟩ n p1 p2 p3

theorem Diffs.compare_eq (diffs : Diffs) (n : Nat) (p1 p2 p3 : Nat -> UInt8) :
    diffs.compare n p1 p2 p3 = diffs.or (Diffs.told n p1 p2 p3) := by
  simp only [Diffs.compare, Diffs.or, Diffs.told, Bool.false_or]

theorem Diffs.flag_told (n : Nat) (p : Nat -> Nat -> UInt8) (pair : Pair) :
    (Diffs.told n (p 0) (p 1) (p 2)).flag pair = true ↔
      TellsApart n (p pair.left) (p pair.right) := by
  rw [← strncmp_iff]
  have set_ : forall x y : Nat -> UInt8, (false || decide (strncmp x y n 0 ≠ 0)) = true ↔
      strncmp x y n 0 ≠ 0 := by
    intro x y
    rw [Bool.false_or, decide_eq_true_eq]
  cases pair with
  | firstSecond => exact set_ (p 0) (p 1)
  | firstThird => exact set_ (p 0) (p 2)
  | secondThird => exact set_ (p 1) (p 2)

/-- The copy that two flags single out. -/
def Diffs.outlier (diffs : Diffs) : Option Nat :=
  if diffs.diff12 && diffs.diff23 && !diffs.diff13 then some 1
  else if diffs.diff13 && diffs.diff12 && !diffs.diff23 then some 0
  else if diffs.diff23 && diffs.diff13 && !diffs.diff12 then some 2
  else none

/-- The flags when the block `k` has been compared, in a read that starts in block `first`. -/
def flagsAt (told : Nat -> Diffs) (diffs : Diffs) (first k : Nat) : Diffs :=
  (List.range' first (k + 1 - first)).foldl (fun diffs i => diffs.or (told i)) diffs

section Flags

variable {told : Nat -> Diffs} {diffs : Diffs} {first k : Nat}

theorem flagsAt_first : flagsAt told diffs first first = diffs.or (told first) := by
  unfold flagsAt
  rw [Nat.add_sub_cancel_left]
  rfl

theorem flagsAt_next (later : first < k) :
    flagsAt told diffs first k = flagsAt told (diffs.or (told first)) (first + 1) k := by
  have count : k + 1 - first = (k + 1 - (first + 1)) + 1 := by omega
  unfold flagsAt
  rw [count, List.range'_succ, List.foldl_cons]

theorem flag_foldl (blocks : List Nat) (pair : Pair) : forall diffs : Diffs,
    (blocks.foldl (fun diffs i => diffs.or (told i)) diffs).flag pair = true ↔
      diffs.flag pair = true ∨ Exists fun i => i ∈ blocks ∧ (told i).flag pair = true := by
  induction blocks with
  | nil =>
      intro diffs
      constructor
      · exact Or.inl
      · rintro (already | ⟨i, inside, _⟩)
        · exact already
        · exact nomatch inside
  | cons block blocks ih =>
      intro diffs
      rw [List.foldl_cons, ih, Diffs.flag_or, Bool.or_eq_true, or_assoc]
      refine or_congr_right ?_
      constructor
      · rintro (here | ⟨i, inside, set_⟩)
        · exact ⟨block, List.mem_cons_self, here⟩
        · exact ⟨i, List.mem_cons_of_mem _ inside, set_⟩
      · rintro ⟨i, inside, set_⟩
        rcases List.mem_cons.mp inside with here | there
        · rw [here] at set_
          exact Or.inl set_
        · exact Or.inr ⟨i, there, set_⟩

/-- A flag is set when this block or an earlier one has set it. -/
theorem flag_flagsAt (pair : Pair) : (flagsAt told diffs first k).flag pair = true ↔
    diffs.flag pair = true ∨
      Exists fun i => first ≤ i ∧ i ≤ k ∧ (told i).flag pair = true := by
  unfold flagsAt
  rw [flag_foldl]
  refine or_congr_right (exists_congr fun i => ?_)
  rw [List.mem_range'_1, ← and_assoc]
  refine and_congr_left fun _ => ?_
  omega

end Flags

/-! ## The copies of a file -/

/-- The block with the copy `j` of the logical block `k`. -/
def copyAt (disk : Nat -> Block) (c : Dinode) (k j : Nat) : Nat := addressOf disk c (k * 3 + j)

/-- The memory from such a copy on, once it is in a buffer. -/
def copyMemory (behind : Nat -> Nat -> UInt8) (disk : Nat -> Block) (c : Dinode) (k j : Nat) :
    Nat -> UInt8 := memoryFrom (disk (copyAt disk c k j)) (behind (copyAt disk c k j))

/-- A mirrored file without holes: its blocks are there and they are different. -/
structure Mirrored (disk : Nat -> Block) (c : Dinode) : Prop where
  type : c.type = T_MIRRORED
  present : forall x, x < c.logical_size -> forall j, j < 3 -> copyAt disk c (x / BSIZE) j ≠ 0
  apart : forall a b, addressOf disk c a ≠ 0 -> addressOf disk c a = addressOf disk c b -> a = b
  separate : forall a, addressOf disk c a ≠ 0 -> addressOf disk c a ≠ c.addrs NDIRECT

/-- The range `[off, off + n)` has bytes in the block `k`. -/
def Touches (off n k : Nat) : Prop := Exists fun x => off ≤ x ∧ x < off + n ∧ x / BSIZE = k

/-- The byte `y` of the block `k` is in the range `[off, off + n)`. -/
def Requested (off n k y : Nat) : Prop := off ≤ k * BSIZE + y ∧ k * BSIZE + y < off + n

instance (off n k y : Nat) : Decidable (Requested off n k y) := instDecidableAnd

theorem touches_iff {off n k : Nat} :
    Touches off n k ↔ 0 < n ∧ off / BSIZE ≤ k ∧ k ≤ (off + n - 1) / BSIZE := by
  constructor
  · rintro ⟨x, lower, upper, rfl⟩
    exact ⟨by omega, Nat.div_le_div_right lower, Nat.div_le_div_right (by omega)⟩
  · rintro ⟨positive, lower, upper⟩
    refine ⟨max off (k * BSIZE), by omega, ?_, ?_⟩
    · simp only [BSIZE] at lower upper ⊢
      omega
    · simp only [BSIZE] at lower upper ⊢
      omega

theorem addressOf_congr {disk other : Nat -> Block} {c : Dinode}
    (same : other (c.addrs NDIRECT) = disk (c.addrs NDIRECT)) (bn : Nat) :
    addressOf other c bn = addressOf disk c bn := by
  unfold addressOf
  rw [same]

section Loop

variable {limits : Limits BSIZE} {escape : Stop FsPanic -> Prop}
  {d : Device BSIZE Kernel} {ip k : Nat}

open BlockProgram

/-- `mbmap` returns the copies that are there. -/
theorem mbmap_present {post : Nat -> Device BSIZE Kernel -> Prop} {c : Dinode} {j : Nat}
    (loaded : (d.mem.icache ip).copy = c) (resting : d.Resting (c.addrs NDIRECT))
    (space : d.busy < limits.capacity) (small : j < 3)
    (present : forall i, i < 3 -> copyAt d.disk c k i ≠ 0) (holds : post (copyAt d.disk c k j) d) :
    (mbmap ip (k * 3) j).wp limits post escape d := by
  unfold mbmap
  by_cases direct : k * 3 < NDIRECT
  · have address : forall i, i < 3 -> copyAt d.disk c k i = (d.mem.icache ip).copy.addrs
        (k * 3 + i) := by
      intro i below
      rw [loaded]
      exact if_pos (by simp only [NDIRECT] at direct ⊢; omega)
    have stored : forall i, i < 3 -> (d.mem.icache ip).copy.addrs (k * 3 + i) ≠ 0 := by
      intro i below
      rw [← address i below]
      exact present i below
    rw [address j small] at holds
    have within : forall i, i < 3 -> k * 3 + i ≤ NDIRECT := by
      intro i below
      simp only [NDIRECT] at direct ⊢
      omega
    rw [if_pos direct]
    refine wp_bind.mpr (ensureAddr_present (within 0 (by decide)) (stored 0 (by decide)) ?_)
    by_cases second : j = 1
    · rw [if_pos second]
      rw [second] at holds
      exact ensureAddr_present (within 1 (by decide)) (stored 1 (by decide)) holds
    · by_cases third : j = 2
      · rw [if_neg second, if_pos third]
        rw [third] at holds
        exact ensureAddr_present (within 2 (by decide)) (stored 2 (by decide)) holds
      · have first : j = 0 := by omega
        rw [if_neg second, if_neg third]
        rw [first] at holds
        exact holds
  · have notDirect : ¬ k * 3 + j < NDIRECT := by omega
    have address : copyAt d.disk c k j =
        if c.addrs NDIRECT = 0 then 0 else (d.disk (c.addrs NDIRECT)).word (k * 3 + j - NDIRECT) :=
      if_neg notDirect
    have stored := present j small
    by_cases none_ : c.addrs NDIRECT = 0
    · rw [address, if_pos none_] at stored
      exact absurd rfl stored
    · rw [address, if_neg none_] at stored holds
      have entry : k * 3 - NDIRECT < NINDIRECT := by
        by_contra beyond
        exact stored (Volume.word_beyond _ (by omega))
      have position : k * 3 - NDIRECT + j = k * 3 + j - NDIRECT := by omega
      rw [if_neg direct, if_pos entry]
      rw [← loaded] at resting none_ stored holds
      refine wp_bind.mpr (ensureAddr_present (Nat.le_refl _) none_ ?_)
      rw [if_pos (show j ≤ 2 by omega), position]
      exact ensureEntry_present resting space stored holds

/-- The piece of a copy that a repair overwrites. -/
def overwrite (at_ m : Nat) (bad good : Block) : Block :=
  bad.splice at_ m (fun i => good.get (at_ + i))

/-- The device after the repair branch for these flags.  The last branch writes `bp2`
instead of `bp3`, so that its repair stays in the buffer. -/
def Diffs.mend (diffs : Diffs) (at_ m s1 s2 s3 : Nat) (d : Device BSIZE Kernel) :
    Device BSIZE Kernel :=
  if diffs.diff12 && diffs.diff23 && !diffs.diff13 then
    d.store s2 (overwrite at_ m (d.disk s2) (d.disk s3))
  else if diffs.diff13 && diffs.diff12 && !diffs.diff23 then
    d.store s1 (overwrite at_ m (d.disk s1) (d.disk s3))
  else if diffs.diff23 && diffs.diff13 && !diffs.diff12 then
    (d.hold s3 (overwrite at_ m (d.disk s3) (d.disk s2))).release s3
  else d

/-- A program holds the three sectors. -/
structure HoldsAll (e : Device BSIZE Kernel) (s1 s2 s3 : Nat) : Prop where
  first : Exists fun data => e.held s1 = some data
  second : Exists fun data => e.held s2 = some data
  third : Exists fun data => e.held s3 = some data

theorem HoldsAll.of_hold {e : Device BSIZE Kernel} {s1 s2 s3 : Nat} {b1 b2 b3 : Block}
    (apart : s1 ≠ s2 ∧ s1 ≠ s3 ∧ s2 ≠ s3) :
    HoldsAll (((e.hold s1 b1).hold s2 b2).hold s3 b3) s1 s2 s3 := by
  refine ⟨⟨b1, ?_⟩, ⟨b2, ?_⟩, ⟨b3, Device.held_hold_self⟩⟩
  · rw [Device.held_hold_of_ne apart.2.1, Device.held_hold_of_ne apart.1, Device.held_hold_self]
  · rw [Device.held_hold_of_ne apart.2.2, Device.held_hold_self]

/-- With all flags set there is no majority to repair from. -/
theorem Diffs.mend_all {diffs : Diffs} (all : diffs.All) (at_ m s1 s2 s3 : Nat) :
    diffs.mend at_ m s1 s2 s3 d = d := by
  have set12 : diffs.diff12 = true := all .firstSecond
  have set13 : diffs.diff13 = true := all .firstThird
  have set23 : diffs.diff23 = true := all .secondThird
  simp only [Diffs.mend, set12, set13, set23, Bool.and_self, Bool.not_true, Bool.and_false,
    Bool.false_eq_true, if_false]

/-- Handing back two of three sectors. -/
theorem release_two {s1 s2 s3 : Nat} {data : Block} (r1 : d.Resting s1) (r2 : d.Resting s2)
    (apart : s1 ≠ s2 ∧ s1 ≠ s3 ∧ s2 ≠ s3) :
    ((((d.hold s1 (d.disk s1)).hold s2 (d.disk s2)).hold s3 data).release s2).release s1 =
      d.hold s3 data := by
  have second : ((d.hold s1 (d.disk s1)).hold s2 (d.disk s2)).release s2 = d.hold s1 (d.disk s1) :=
    Device.release_hold (r2.hold apart.1.symm)
  rw [Device.release_hold_of_ne apart.2.2 (Nat.succ_pos _), second,
    Device.release_hold_of_ne apart.2.1 (Nat.succ_pos _), Device.release_hold r1]

/-- Hand one of two sectors back, read it again and write part of it: the first two
repair branches. -/
theorem rewrite_present {Value : Type} {value : Value} {post : Value -> Device BSIZE Kernel -> Prop}
    {bad good other : Nat} {at_ m : Nat} (rBad : d.Resting bad)
    (apart : bad ≠ good ∧ bad ≠ other ∧ other ≠ good) (space : d.busy + 2 < limits.capacity)
    (holds : forall e, HoldsAll e bad good other ->
      e.release bad = ((d.store bad (overwrite at_ m (d.disk bad) (d.disk good))).hold other
        (d.disk other)).hold good (d.disk good) -> post value e) :
    (do
      bread bad
      let data <- look good
      patch bad (fun old => old.splice at_ m (fun i => data.get (at_ + i)))
      bwrite bad
      pure value : Fs Value).wp limits post escape
      ((d.hold other (d.disk other)).hold good (d.disk good)) := by
  have resting : ((d.hold other (d.disk other)).hold good (d.disk good)).Resting bad :=
    (rBad.hold apart.2.1).hold apart.1
  refine wp_bind.mpr (wp_bread resting space ?_)
  refine wp_bind.mpr (@wp_look _ _ _ _ _ _ _ _ (d.disk good) ?_ ?_)
  · rw [Device.held_hold_of_ne apart.1.symm, Device.held_hold_self]
  · refine wp_bind.mpr (wp_patch Device.held_hold_self ?_)
    refine wp_bind.mpr (wp_bwrite Device.held_change_self (fun _ => holds _
      ⟨⟨_, Device.held_change_self⟩, ⟨d.disk good, ?_⟩, ⟨d.disk other, ?_⟩⟩ ?_))
    · show (Function.update _ _ _) good = _
      rw [Function.update_of_ne apart.1.symm, Device.held_hold_of_ne apart.1.symm,
        Device.held_hold_self]
    · show (Function.update _ _ _) other = _
      rw [Function.update_of_ne apart.2.1.symm, Device.held_hold_of_ne apart.2.1.symm,
        Device.held_hold_of_ne apart.2.2, Device.held_hold_self]
    · rw [Device.release_store_change_hold resting]
      rfl

/-- What is known about a block of which the three copies are read. -/
structure Readable (d : Device BSIZE Kernel) (ip : Nat) (c : Dinode) (k s1 s2 s3 : Nat) : Prop where
  loaded : (d.mem.icache ip).copy = c
  indirect : d.Resting (c.addrs NDIRECT)
  present : forall j, j < 3 -> copyAt d.disk c k j ≠ 0
  isFirst : copyAt d.disk c k 0 = s1
  isSecond : copyAt d.disk c k 1 = s2
  isThird : copyAt d.disk c k 2 = s3
  resting : d.Resting s1 ∧ d.Resting s2 ∧ d.Resting s3
  apart : s1 ≠ s2 ∧ s1 ≠ s3 ∧ s2 ≠ s3
  away : c.addrs NDIRECT ≠ s1 ∧ c.addrs NDIRECT ≠ s2 ∧ c.addrs NDIRECT ≠ s3

/-- From holding all three copies to what the repair leaves. -/
theorem repair_present {post : Nat × Nat × Nat -> Device BSIZE Kernel -> Prop} {c : Dinode}
    {at_ m : Nat} {diffs : Diffs} {s1 s2 s3 : Nat} (readable : Readable d ip c k s1 s2 s3)
    (space : d.busy + 3 < limits.capacity)
    (holds : forall e, HoldsAll e s1 s2 s3 ->
      ((e.release s2).release s1).release s3 = diffs.mend at_ m s1 s2 s3 d -> post (s1, s2, s3) e) :
    (repair ip (k * 3) at_ m diffs s1 s2 s3).wp limits post escape
      (((d.hold s1 (d.disk s1)).hold s2 (d.disk s2)).hold s3 (d.disk s3)) := by
  rcases readable with ⟨loaded, indirect, present, isFirst, isSecond, isThird,
    ⟨r1, r2, r3⟩, apart, away⟩
  have heldAll := @HoldsAll.of_hold d s1 s2 s3 (d.disk s1) (d.disk s2) (d.disk s3) apart
  unfold repair Diffs.mend at *
  by_cases branch2 : (diffs.diff12 && diffs.diff23 && !diffs.diff13) = true
  · rw [if_pos branch2] at holds ⊢
    have released : (((d.hold s1 (d.disk s1)).hold s2 (d.disk s2)).hold s3 (d.disk s3)).release s2 =
        (d.hold s1 (d.disk s1)).hold s3 (d.disk s3) := by
      rw [Device.release_hold_of_ne apart.2.2 (Nat.succ_pos _)]
      exact congrArg (Device.hold · s3 _) (Device.release_hold (r2.hold apart.1.symm))
    rcases heldAll.second with ⟨data, held⟩
    refine wp_bind.mpr (wp_brelse held ?_)
    rw [released]
    refine wp_bind.mpr (@mbmap_present _ _ _ _ k _ c 1 loaded ((indirect.hold away.1).hold away.2.2)
      (Nat.lt_of_succ_lt space) (by decide) present ?_)
    have again : copyAt ((d.hold s1 (d.disk s1)).hold s3 (d.disk s3)).disk c k 1 = s2 := isSecond
    rw [again]
    refine rewrite_present r2 ⟨apart.2.2, apart.1.symm, apart.2.1⟩ (Nat.lt_of_succ_lt space)
      (fun e all left => holds e ⟨all.third, all.first, all.second⟩ ?_)
    rw [left, Device.release_hold_of_ne apart.2.1 (Nat.succ_pos _),
      Device.release_hold_store r1 apart.1, Device.release_hold_store r3 apart.2.2.symm]
  · by_cases branch1 : (diffs.diff13 && diffs.diff12 && !diffs.diff23) = true
    · rw [if_neg branch2, if_pos branch1] at holds ⊢
      have released : (((d.hold s1 (d.disk s1)).hold s2 (d.disk s2)).hold s3 (d.disk s3)).release
          s1 = (d.hold s2 (d.disk s2)).hold s3 (d.disk s3) := by
        rw [Device.release_hold_of_ne apart.2.1 (Nat.succ_pos _)]
        refine congrArg (Device.hold · s3 _) ?_
        rw [Device.release_hold_of_ne apart.1 (Nat.succ_pos _), Device.release_hold r1]
      rcases heldAll.first with ⟨data, held⟩
      refine wp_bind.mpr (wp_brelse held ?_)
      rw [released]
      refine wp_bind.mpr (@mbmap_present _ _ _ _ k _ c 0 loaded
        ((indirect.hold away.2.1).hold away.2.2) (Nat.lt_of_succ_lt space) (by decide) present ?_)
      have again : copyAt ((d.hold s2 (d.disk s2)).hold s3 (d.disk s3)).disk c k 0 = s1 := isFirst
      rw [again]
      refine rewrite_present r1 ⟨apart.2.1, apart.1, apart.2.2⟩ (Nat.lt_of_succ_lt space)
        (fun e all left => holds e ⟨all.first, all.third, all.second⟩ ?_)
      rw [Device.release_comm apart.1, left, Device.release_hold_of_ne apart.2.2 (Nat.succ_pos _),
        Device.release_hold_store r2 apart.1.symm, Device.release_hold_store r3 apart.2.1.symm]
    · by_cases branch3 : (diffs.diff23 && diffs.diff13 && !diffs.diff12) = true
      · rw [if_neg branch2, if_neg branch1, if_pos branch3] at holds
        rw [if_neg branch2, if_neg branch1, if_pos branch3]
        have resting : ((d.hold s1 (d.disk s1)).hold s2 (d.disk s2)).Resting s3 :=
          (r3.hold apart.2.1.symm).hold apart.2.2.symm
        rcases heldAll.third with ⟨data, held⟩
        refine wp_bind.mpr (wp_brelse held ?_)
        have released : (((d.hold s1 (d.disk s1)).hold s2 (d.disk s2)).hold s3 (d.disk s3)).release
            s3 = (d.hold s1 (d.disk s1)).hold s2 (d.disk s2) := Device.release_hold resting
        rw [released]
        refine wp_bind.mpr (@mbmap_present _ _ _ _ k _ c 2 loaded
          ((indirect.hold away.1).hold away.2.1) (Nat.lt_of_succ_lt space) (by decide) present ?_)
        have again : copyAt ((d.hold s1 (d.disk s1)).hold s2 (d.disk s2)).disk c k 2 = s3 := isThird
        rw [again]
        refine wp_bind.mpr (wp_bread resting (Nat.lt_of_succ_lt space) ?_)
        refine wp_bind.mpr (@wp_look _ _ _ _ _ _ _ _ (d.disk s2) ?_ ?_)
        · rw [Device.held_hold_of_ne apart.2.2, Device.held_hold_self]
        · refine wp_bind.mpr (wp_patch Device.held_hold_self ?_)
          rw [Device.change_hold]
          refine wp_bind.mpr (@wp_bwrite _ _ _ _ _ _ _ _ (d.disk s2) ?_ fun _ => ?_)
          · rw [Device.held_hold_of_ne apart.2.2, Device.held_hold_self]
          · have unchanged := @Device.store_self _ _ (((d.hold s1 (d.disk s1)).hold s2
                (d.disk s2)).hold s3 (overwrite at_ m (d.disk s3) (d.disk s2))) s2
            have same : (((d.hold s1 (d.disk s1)).hold s2 (d.disk s2)).hold s3
              (overwrite at_ m (d.disk s3) (d.disk s2))).disk s2 = d.disk s2 := rfl
            rw [same] at unchanged
            refine holds _ ?_ ?_
            · refine Eq.mpr (congrArg (HoldsAll · s1 s2 s3) unchanged) (HoldsAll.of_hold apart)
            · refine (congrArg (fun e : Device BSIZE Kernel =>
                ((e.release s2).release s1).release s3) unchanged).trans ?_
              rw [release_two r1 r2 apart]
      · rw [if_neg branch2, if_neg branch1, if_neg branch3] at holds
        rw [if_neg branch2, if_neg branch1, if_neg branch3]
        refine holds _ heldAll ?_
        rw [release_two r1 r2 apart, Device.release_hold r3]

/-- One iteration of the loop of `readi`. -/
theorem readMirrored_step {behind : Nat -> Nat -> UInt8} {c : Dinode}
    {fuel n off left m s1 s2 s3 : Nat} {diffs flags : Diffs}
    {post : Option (List UInt8) -> Device BSIZE Kernel -> Prop} (more : left ≠ 0)
    (piece : min left (BSIZE - off % BSIZE) = m) (readable : Readable d ip c (off / BSIZE) s1 s2 s3)
    (space : d.busy + 3 < limits.capacity)
    (compared : diffs.or (Diffs.told n (copyMemory behind d.disk c (off / BSIZE) 0) (copyMemory
      behind d.disk c (off / BSIZE) 1) (copyMemory behind d.disk c (off / BSIZE) 2)) = flags)
    (stops : flags.All -> post none d)
    (goesOn : ¬ flags.All ->
      (readMirrored behind ip n fuel (off + m) (left - m) flags).wp limits
        (fun result e => post (result.map (bytesFrom (d.disk s3) (off % BSIZE) m ++ ·)) e) escape
        (flags.mend (off % BSIZE) m s1 s2 s3 d)) :
    (readMirrored behind ip n (fuel + 1) off left diffs).wp limits post escape d := by
  have facts := readable
  rcases facts with ⟨loaded, indirect, present, isFirst, isSecond, isThird,
    ⟨r1, r2, r3⟩, apart, away⟩
  rw [readMirrored, if_neg more]
  dsimp only
  rw [piece]
  refine wp_bind.mpr (mbmap_present loaded indirect (by omega) (by decide) present ?_)
  rw [isFirst]
  refine wp_bind.mpr (wp_bread r1 (by omega) ?_)
  have indirect1 := @Device.Resting.hold _ _ d s1 (c.addrs NDIRECT) (d.disk s1) indirect away.1
  have space1 : (d.hold s1 (d.disk s1)).busy < limits.capacity := by
    show d.busy + 1 < _
    omega
  refine wp_bind.mpr (mbmap_present loaded indirect1 space1 (by decide) present ?_)
  refine wp_bind.mpr (mbmap_present loaded indirect1 space1 (by decide) present ?_)
  refine wp_bind.mpr (mbmap_present loaded indirect1 space1 (by decide) present ?_)
  refine wp_bind.mpr (mbmap_present loaded indirect1 space1 (by decide) present ?_)
  rw [Device.disk_hold, isSecond]
  refine wp_bind.mpr (wp_bread (r2.hold apart.1.symm) space1 ?_)
  have space2 : ((d.hold s1 (d.disk s1)).hold s2 (d.disk s2)).busy < limits.capacity := by
    show d.busy + 1 + 1 < _
    omega
  refine wp_bind.mpr (mbmap_present loaded (indirect1.hold away.2.1) space2 (by decide) present ?_)
  rw [Device.disk_hold, Device.disk_hold, isThird]
  refine wp_bind.mpr (wp_bread ((r3.hold apart.2.1.symm).hold apart.2.2.symm) space2 ?_)
  have all := @HoldsAll.of_hold d s1 s2 s3 (d.disk s1) (d.disk s2) (d.disk s3) apart
  refine wp_bind.mpr (@wp_look _ _ _ _ _ _ _ _ (d.disk s1) ?_ ?_)
  · rw [Device.held_hold_of_ne apart.2.1, Device.held_hold_of_ne apart.1, Device.held_hold_self]
  refine wp_bind.mpr (@wp_look _ _ _ _ _ _ _ _ (d.disk s2) ?_ ?_)
  · rw [Device.held_hold_of_ne apart.2.2, Device.held_hold_self]
  refine wp_bind.mpr (wp_look Device.held_hold_self ?_)
  have compared' : diffs.compare n (memoryFrom (d.disk s1) (behind s1))
      (memoryFrom (d.disk s2) (behind s2)) (memoryFrom (d.disk s3) (behind s3)) = flags := by
    rw [Diffs.compare_eq, ← isFirst, ← isSecond, ← isThird]
    exact compared
  rw [Device.disk_hold, Device.disk_hold, compared']
  refine wp_bind.mpr (repair_present readable space (fun e lent released => ?_))
  rcases lent with ⟨⟨data1, held1⟩, ⟨data2, held2⟩, ⟨data3, held3⟩⟩
  dsimp only
  by_cases all : flags.All
  · rw [if_pos (flags.all_iff.mpr all)]
    refine wp_bind.mpr (wp_brelse held1 ?_)
    refine wp_bind.mpr (wp_brelse ((Device.held_release_of_ne apart.1.symm).trans held2) ?_)
    refine wp_bind.mpr (wp_brelse (((Device.held_release_of_ne apart.2.2.symm).trans
      (Device.held_release_of_ne apart.2.1.symm)).trans held3) ?_)
    rw [Device.release_comm apart.1.symm, released, Diffs.mend_all all]
    exact stops all
  · rw [if_neg (mt flags.all_iff.mp all)]
    refine wp_bind.mpr (wp_brelse held2 ?_)
    refine wp_bind.mpr (wp_brelse ((Device.held_release_of_ne apart.1).trans held1) ?_)
    refine wp_bind.mpr (wp_brelse (((Device.held_release_of_ne apart.2.1.symm).trans
      (Device.held_release_of_ne apart.2.2.symm)).trans held3) ?_)
    rw [released]
    refine wp_seq (goesOn all) (fun result after holds => ?_)
    cases result with
    | none => exact holds
    | some rest => exact holds

/-- What a repair does to the disk, copy by copy. -/
theorem mend_eq (diffs : Diffs) (at_ m s1 s2 s3 : Nat) (d : Device BSIZE Kernel) :
    (diffs.outlier = some 0 ∧ diffs.mend at_ m s1 s2 s3 d =
      d.store s1 (overwrite at_ m (d.disk s1) (d.disk s3))) ∨
    (diffs.outlier = some 1 ∧ diffs.mend at_ m s1 s2 s3 d =
      d.store s2 (overwrite at_ m (d.disk s2) (d.disk s3))) ∨
    (diffs.outlier = some 2 ∧ diffs.mend at_ m s1 s2 s3 d =
      (d.hold s3 (overwrite at_ m (d.disk s3) (d.disk s2))).release s3) ∨
    (diffs.outlier = none ∧ diffs.mend at_ m s1 s2 s3 d = d) := by
  unfold Diffs.outlier Diffs.mend
  by_cases branch2 : (diffs.diff12 && diffs.diff23 && !diffs.diff13) = true
  · rw [if_pos branch2, if_pos branch2]
    exact Or.inr (Or.inl ⟨rfl, rfl⟩)
  · rw [if_neg branch2, if_neg branch2]
    by_cases branch1 : (diffs.diff13 && diffs.diff12 && !diffs.diff23) = true
    · rw [if_pos branch1, if_pos branch1]
      exact Or.inl ⟨rfl, rfl⟩
    · rw [if_neg branch1, if_neg branch1]
      by_cases branch3 : (diffs.diff23 && diffs.diff13 && !diffs.diff12) = true
      · rw [if_pos branch3, if_pos branch3]
        exact Or.inr (Or.inr (Or.inl ⟨rfl, rfl⟩))
      · rw [if_neg branch3, if_neg branch3]
        exact Or.inr (Or.inr (Or.inr ⟨rfl, rfl⟩))

/-- A repair leaves nothing held, and of other sectors it changes nothing. -/
structure Mended (d e : Device BSIZE Kernel) (s1 s2 s3 : Nat) : Prop where
  mem : e.mem = d.mem
  idle : e.busy = d.busy
  free : forall sector, d.held sector = none -> e.held sector = none
  disk : forall sector, sector ≠ s1 -> sector ≠ s2 -> e.disk sector = d.disk sector
  aside : forall sector, sector ≠ s3 -> e.aside sector = d.aside sector

theorem mend_mended (diffs : Diffs) (at_ m s1 s2 s3 : Nat) (d : Device BSIZE Kernel) :
    Mended d (diffs.mend at_ m s1 s2 s3 d) s1 s2 s3 := by
  rcases mend_eq diffs at_ m s1 s2 s3 d with ⟨_, same⟩ | ⟨_, same⟩ | ⟨_, same⟩ | ⟨_, same⟩
  · rw [same]
    exact ⟨rfl, rfl, fun _ idle => idle, fun _ first _ => Device.disk_store_of_ne first,
      fun _ _ => rfl⟩
  · rw [same]
    exact ⟨rfl, rfl, fun _ idle => idle, fun _ _ second => Device.disk_store_of_ne second,
      fun _ _ => rfl⟩
  · rw [same]
    refine ⟨rfl, rfl, fun sector idle => ?_, fun _ _ _ => rfl, fun sector different => ?_⟩
    · by_cases here : sector = s3
      · rw [here]
        exact Function.update_self _ _ _
      · rw [Device.held_release_of_ne here, Device.held_hold_of_ne here]
        exact idle
    · unfold Device.release
      dsimp only
      split
      · exact Function.update_of_ne different _ _
      · rw [Function.update_of_ne different]
        exact Function.update_of_ne different _ _
  · rw [same]
    exact ⟨rfl, rfl, fun _ idle => idle, fun _ _ _ => rfl, fun _ _ => rfl⟩

/-! ## The whole loop -/

/-- What a repair leaves of the three copies, byte by byte. -/
theorem mend_bytes (diffs : Diffs) {at_ m y : Nat} {place : Nat -> Nat} {d : Device BSIZE Kernel}
    (apart : forall i j, i < 3 -> j < 3 -> place i = place j -> i = j) {j : Nat} (copy : j < 3)
    (below : y < BSIZE) :
    ((diffs.mend at_ m (place 0) (place 1) (place 2) d).disk (place j)).get y =
      if diffs.outlier = some j ∧ j ≠ 2 ∧ at_ ≤ y ∧ y < at_ + m then (d.disk (place 2)).get y
      else (d.disk (place j)).get y := by
  have written : forall bad good : Block, (overwrite at_ m bad good).get y =
      if at_ ≤ y ∧ y < at_ + m then good.get y else bad.get y := by
    intro bad good
    unfold overwrite
    rw [Bytes.get_splice _ _ _ _ below]
    by_cases inside : at_ ≤ y ∧ y < at_ + m
    · rw [if_pos inside, if_pos inside, Nat.add_sub_cancel' inside.1]
    · rw [if_neg inside, if_neg inside]
  rcases mend_eq diffs at_ m (place 0) (place 1) (place 2) d with
    ⟨bad, same⟩ | ⟨bad, same⟩ | ⟨bad, same⟩ | ⟨bad, same⟩
  · rw [same, bad]
    by_cases here : j = 0
    · subst here
      rw [Device.disk_store_self, written]
      exact if_congr (by simp) rfl rfl
    · have different : place j ≠ place 0 := fun equal => here (apart j 0 copy (by decide) equal)
      rw [Device.disk_store_of_ne different, if_neg (fun all => here (Option.some.inj all.1).symm)]
  · rw [same, bad]
    by_cases here : j = 1
    · subst here
      rw [Device.disk_store_self, written]
      exact if_congr (by simp) rfl rfl
    · have different : place j ≠ place 1 := fun equal => here (apart j 1 copy (by decide) equal)
      rw [Device.disk_store_of_ne different, if_neg (fun all => here (Option.some.inj all.1).symm)]
  · rw [same, bad, if_neg (fun all => all.2.1 (Option.some.inj all.1).symm)]
    rfl
  · rw [same, bad, if_neg (fun all => nomatch all.1)]

/-- Only the third copy can be left in the cache with other contents than on the disk. -/
theorem mend_clean (diffs : Diffs) (at_ m s1 s2 s3 : Nat) (d : Device BSIZE Kernel)
    (first : diffs.outlier ≠ some 2) : (diffs.mend at_ m s1 s2 s3 d).aside = d.aside := by
  rcases mend_eq diffs at_ m s1 s2 s3 d with ⟨_, same⟩ | ⟨_, same⟩ | ⟨bad, _⟩ | ⟨_, same⟩
  · rw [same]
    rfl
  · rw [same]
    rfl
  · exact absurd bad first
  · rw [same]

/-- The copies that a read still has to look at: where they are and what they hold. -/
structure Unread (d : Device BSIZE Kernel) (ip : Nat) (c : Dinode) (place : Nat -> Nat -> Nat)
    (old : Nat -> Nat -> Block) (off left : Nat) : Prop where
  loaded : (d.mem.icache ip).copy = c
  idle : d.busy = 0
  free : forall sector, d.held sector = none
  indirect : d.aside (c.addrs NDIRECT) = ∅
  address : forall k, Touches off left k -> forall j, j < 3 -> copyAt d.disk c k j = place k j
  present : forall k, Touches off left k -> forall j, j < 3 -> place k j ≠ 0
  away : forall k, Touches off left k -> forall j, j < 3 -> place k j ≠ c.addrs NDIRECT
  apart : forall k l, Touches off left k -> Touches off left l -> forall i j, i < 3 -> j < 3 ->
    place k i = place l j -> k = l ∧ i = j
  data : forall k, Touches off left k -> forall j, j < 3 -> d.disk (place k j) = old k j
  clean : forall k, Touches off left k -> forall j, j < 3 -> d.aside (place k j) = ∅

/-- What a read has done to the copies when it has gone through. -/
structure Scanned (d e : Device BSIZE Kernel) (place : Nat -> Nat -> Nat)
    (old : Nat -> Nat -> Block) (off left : Nat) (flags : Nat -> Diffs) : Prop where
  others : forall sector, (forall k, Touches off left k -> forall j, j < 3 -> sector ≠ place k j) ->
    e.disk sector = d.disk sector ∧ e.aside sector = d.aside sector
  bytes : forall k, Touches off left k -> forall j, j < 3 -> forall y, y < BSIZE ->
    (e.disk (place k j)).get y =
      if (flags k).outlier = some j ∧ j ≠ 2 ∧ Requested off left k y then (old k 2).get y
      else (old k j).get y
  clean : forall k, Touches off left k -> (flags k).outlier ≠ some 2 -> forall j, j < 3 ->
    e.aside (place k j) = ∅

/-- Nothing is held, and the memory is as before. -/
structure Calm (d e : Device BSIZE Kernel) : Prop where
  mem : e.mem = d.mem
  idle : e.busy = 0
  free : forall sector, e.held sector = none

/-- The blocks of a range: the first one, and those of what is left after it. -/
theorem touches_cons {off left m : Nat} (more : left ≠ 0)
    (piece : min left (BSIZE - off % BSIZE) = m) (k : Nat) :
    Touches off left k ↔ k = off / BSIZE ∨ Touches (off + m) (left - m) k := by
  rw [touches_iff, touches_iff]
  simp only [BSIZE] at piece ⊢
  omega

theorem later_of_touches {off left m k : Nat} (piece : min left (BSIZE - off % BSIZE) = m)
    (touches : Touches (off + m) (left - m) k) :
    off / BSIZE < k ∧ (off + m) / BSIZE = off / BSIZE + 1 ∧
      forall y, Requested off left k y ↔ Requested (off + m) (left - m) k y := by
  rw [touches_iff] at touches
  unfold Requested
  simp only [BSIZE] at piece touches ⊢
  refine ⟨by omega, by omega, fun y => by omega⟩

theorem Unread.readable {c : Dinode} {place : Nat -> Nat -> Nat} {old : Nat -> Nat -> Block}
    {off left : Nat} (unread : Unread d ip c place old off left) (touches : Touches off left k) :
    Readable d ip c k (place k 0) (place k 1) (place k 2) := by
  have resting : forall j, j < 3 -> d.Resting (place k j) := fun j copy =>
    ⟨unread.free _, unread.clean k touches j copy⟩
  have apart : forall i j, i < 3 -> j < 3 -> i ≠ j -> place k i ≠ place k j :=
    fun i j first second different same =>
    different (unread.apart k k touches touches i j first second same).2
  have address := unread.address k touches
  refine ⟨unread.loaded, ⟨unread.free _, unread.indirect⟩, fun j copy => ?_, address 0 (by decide),
    address 1 (by decide), address 2 (by decide),
    ⟨resting 0 (by decide), resting 1 (by decide), resting 2 (by decide)⟩,
    ⟨apart 0 1 (by decide) (by decide) (by decide), apart 0 2 (by decide) (by decide) (by decide),
      apart 1 2 (by decide) (by decide) (by decide)⟩,
    ⟨(unread.away k touches 0 (by decide)).symm, (unread.away k touches 1 (by decide)).symm,
      (unread.away k touches 2 (by decide)).symm⟩⟩
  rw [address j copy]
  exact unread.present k touches j copy

/-- A repair in the first block leaves the later ones to be read. -/
theorem Unread.mend {c : Dinode} {place : Nat -> Nat -> Nat} {old : Nat -> Nat -> Block}
    {off left m : Nat} (unread : Unread d ip c place old off left) (more : left ≠ 0)
    (piece : min left (BSIZE - off % BSIZE) = m) (diffs : Diffs) :
    Unread (diffs.mend (off % BSIZE) m (place (off / BSIZE) 0) (place (off / BSIZE) 1)
      (place (off / BSIZE) 2) d) ip c place old (off + m) (left - m) := by
  have mended := mend_mended diffs (off % BSIZE) m (place (off / BSIZE) 0) (place (off / BSIZE) 1)
    (place (off / BSIZE) 2) d
  have first : Touches off left (off / BSIZE) := (touches_cons more piece _).mpr (Or.inl rfl)
  have touched : forall k, Touches (off + m) (left - m) k -> Touches off left k :=
    fun k touches => (touches_cons more piece k).mpr (Or.inr touches)
  have away := unread.away (off / BSIZE) first
  have distinct : forall k, Touches (off + m) (left - m) k -> forall i j, i < 3 -> j < 3 ->
      place k i ≠ place (off / BSIZE) j := by
    intro k touches i j copy copyToo same
    have equal := (unread.apart k _ (touched k touches) first i j copy copyToo same).1
    exact absurd (later_of_touches piece touches).1 (by omega)
  have indirect := mended.disk _ (away 0 (by decide)).symm (away 1 (by decide)).symm
  refine ⟨?_, mended.idle.trans unread.idle, fun sector => mended.free sector (unread.free sector),
    ?_, fun k touches j copy => ?_, fun k touches => unread.present k (touched k touches),
    fun k touches => unread.away k (touched k touches),
    fun k l touches touchesToo => unread.apart k l (touched k touches) (touched l touchesToo),
    fun k touches j copy => ?_, fun k touches j copy => ?_⟩
  · rw [mended.mem]
    exact unread.loaded
  · rw [mended.aside _ (away 2 (by decide)).symm]
    exact unread.indirect
  · exact (addressOf_congr indirect _).trans (unread.address k (touched k touches) j copy)
  · rw [mended.disk _ (distinct k touches j 0 copy (by decide))
      (distinct k touches j 1 copy (by decide))]
    exact unread.data k (touched k touches) j copy
  · rw [mended.aside _ (distinct k touches j 2 copy (by decide))]
    exact unread.clean k (touched k touches) j copy

/-- The bytes of the third copies. -/
def thirdCopies (old : Nat -> Nat -> Block) (off left : Nat) : List UInt8 :=
  (List.range left).map (fun i => (old ((off + i) / BSIZE) 2).get ((off + i) % BSIZE))

theorem thirdCopies_cons (old : Nat -> Nat -> Block) {off left m : Nat}
    (piece : min left (BSIZE - off % BSIZE) = m) :
    bytesFrom (old (off / BSIZE) 2) (off % BSIZE) m ++ thirdCopies old (off + m) (left - m) =
      thirdCopies old off left := by
  have split : left = m + (left - m) := by omega
  have positive : 0 < BSIZE := by decide
  unfold thirdCopies bytesFrom
  conv => rhs; rw [split]
  rw [List.range_add, List.map_append, List.map_map]
  congr 1
  · refine List.map_congr_left (fun i member => ?_)
    have below := List.mem_range.mp member
    have within := Nat.mod_lt off positive
    have block : (off + i) / BSIZE = off / BSIZE := by
      simp only [BSIZE] at piece ⊢
      omega
    have position : (off + i) % BSIZE = off % BSIZE + i := by
      simp only [BSIZE] at piece ⊢
      omega
    rw [block, position]
  · refine List.map_congr_left (fun i _ => ?_)
    rw [Function.comp_apply, Nat.add_assoc]

/-- The first block and then the rest. -/
theorem Scanned.cons {c : Dinode} {place : Nat -> Nat -> Nat} {old : Nat -> Nat -> Block}
    {off left m : Nat} {told : Nat -> Diffs} {diffs flags : Diffs} {e : Device BSIZE Kernel}
    (unread : Unread d ip c place old off left) (more : left ≠ 0)
    (piece : min left (BSIZE - off % BSIZE) = m) (compared : diffs.or (told (off / BSIZE)) = flags)
    (rest : Scanned (flags.mend (off % BSIZE) m (place (off / BSIZE) 0)
      (place (off / BSIZE) 1) (place (off / BSIZE) 2) d) e place old (off + m) (left - m)
      (flagsAt told flags ((off + m) / BSIZE))) :
    Scanned d e place old off left (flagsAt told diffs (off / BSIZE)) := by
  have mended := mend_mended flags (off % BSIZE) m (place (off / BSIZE) 0) (place (off / BSIZE) 1)
    (place (off / BSIZE) 2) d
  have first : Touches off left (off / BSIZE) := (touches_cons more piece _).mpr (Or.inl rfl)
  have here : flagsAt told diffs (off / BSIZE) (off / BSIZE) = flags := by
    rw [flagsAt_first, compared]
  have later : forall k, Touches (off + m) (left - m) k ->
      flagsAt told diffs (off / BSIZE) k = flagsAt told flags ((off + m) / BSIZE) k := by
    intro k touches
    have after := later_of_touches piece touches
    rw [flagsAt_next after.1, compared, after.2.1]
  have distinct : forall i, i < 3 -> forall k, Touches (off + m) (left - m) k -> forall j, j < 3 ->
      place (off / BSIZE) i ≠ place k j := by
    intro i copy k touches j copyToo same
    have equal := (unread.apart _ k first
        ((touches_cons more piece k).mpr (Or.inr touches)) i j copy copyToo same).1
    exact absurd (later_of_touches piece touches).1 (by omega)
  refine ⟨fun sector outside => ?_, fun k touches j copy y below => ?_,
    fun k touches clean j copy => ?_⟩
  · have untouched := rest.others sector
      (fun k touches j copy => outside k ((touches_cons more piece k).mpr (Or.inr touches)) j copy)
    rw [untouched.1, untouched.2]
    exact ⟨mended.disk _ (outside _ first 0 (by decide)) (outside _ first 1 (by decide)),
      mended.aside _ (outside _ first 2 (by decide))⟩
  · rcases (touches_cons more piece k).mp touches with rfl | touchesLater
    · have apart : forall i j, i < 3 -> j < 3 -> place (off / BSIZE) i = place (off / BSIZE) j ->
          i = j :=
        fun i j copy copyToo same => (unread.apart _ _ first first i j copy copyToo same).2
      have range : (off % BSIZE ≤ y ∧ y < off % BSIZE + m) ↔
          Requested off left (off / BSIZE) y := by
        unfold Requested
        simp only [BSIZE] at piece below ⊢
        omega
      rw [(rest.others _ (distinct j copy)).1, here,
        @mend_bytes flags (off % BSIZE) m y (place (off / BSIZE)) d apart j copy below,
        unread.data _ first j copy, unread.data _ first 2 (by decide)]
      exact if_congr (and_congr_right fun _ => and_congr_right fun _ => range) rfl rfl
    · rw [rest.bytes k touchesLater j copy y below, later k touchesLater]
      exact if_congr (and_congr_right fun _ => and_congr_right fun _ =>
        ((later_of_touches piece touchesLater).2.2 y).symm) rfl rfl
  · rcases (touches_cons more piece k).mp touches with rfl | touchesLater
    · rw [here] at clean
      rw [(rest.others _ (distinct j copy)).2, mend_clean _ _ _ _ _ _ _ clean]
      exact unread.clean _ first j copy
    · rw [later k touchesLater] at clean
      exact rest.clean k touchesLater clean j copy

/-- The loop of `readi` gives up when each flag is set by some block; otherwise it
delivers the third copies and repairs what the flags single out. -/
theorem readMirrored_scan {behind : Nat -> Nat -> UInt8} {c : Dinode} {place : Nat -> Nat -> Nat}
    {old : Nat -> Nat -> Block} {told : Nat -> Diffs} {n : Nat} (space : 3 < limits.capacity)
    (fuel : Nat) :
    forall {d : Device BSIZE Kernel} {off left : Nat} {diffs : Diffs}, left ≤ fuel ->
      Unread d ip c place old off left ->
      (forall k, Touches off left k ->
        told k =
          Diffs.told n (memoryFrom (old k 0) (behind (place k 0)))
            (memoryFrom (old k 1) (behind (place k 1)))
            (memoryFrom (old k 2) (behind (place k 2)))) ->
      ¬ diffs.All ->
      (readMirrored behind ip n fuel off left diffs).wp limits
        (fun result e =>
          Calm d e ∧
          (result = none ↔
            forall pair,
              diffs.flag pair = true ∨
              Exists fun k => Touches off left k ∧ (told k).flag pair = true) ∧
          forall bytes, result = some bytes ->
            bytes = thirdCopies old off left ∧
            Scanned d e place old off left (flagsAt told diffs (off / BSIZE)))
        escape d := by
  have finished : forall {d : Device BSIZE Kernel} {off : Nat} {diffs : Diffs},
      Unread d ip c place old off 0 -> ¬ diffs.All -> Calm d d ∧
        ((some ([] : List UInt8)) = none ↔ forall pair, diffs.flag pair = true ∨
          Exists fun k => Touches off 0 k ∧ (told k).flag pair = true) ∧
        forall bytes, some [] = some bytes -> bytes = thirdCopies old off 0 ∧
          Scanned d d place old off 0 (flagsAt told diffs (off / BSIZE)) := by
    intro d off diffs unread open_
    have none_ : forall k, ¬ Touches off 0 k := by
      rintro k ⟨x, lower, upper, _⟩
      omega
    refine ⟨⟨rfl, unread.idle, unread.free⟩, iff_of_false nofun (fun all => open_ (fun pair => ?_)),
      fun bytes same => ⟨(Option.some.inj same).symm, fun _ _ => ⟨rfl, rfl⟩,
        fun k touches => absurd touches (none_ k), fun k touches => absurd touches (none_ k)⟩⟩
    rcases all pair with set_ | ⟨k, touches, _⟩
    · exact set_
    · exact absurd touches (none_ k)
  induction fuel with
  | zero =>
      intro d off left diffs short unread _ open_
      rw [Nat.le_zero.mp short] at unread ⊢
      exact finished unread open_
  | succ fuel ih =>
      intro d off left diffs short unread compares open_
      by_cases more : left = 0
      · rw [more] at unread ⊢
        rw [readMirrored, if_pos rfl]
        exact finished unread open_
      · generalize piece : min left (BSIZE - off % BSIZE) = m
        have first : Touches off left (off / BSIZE) := (touches_cons more piece _).mpr (Or.inl rfl)
        have positive : 0 < m := by
          have within := Nat.mod_lt off (show 0 < BSIZE by decide)
          omega
        have memory : forall j, j < 3 -> copyMemory behind d.disk c (off / BSIZE) j =
            memoryFrom (old (off / BSIZE) j) (behind (place (off / BSIZE) j)) := by
          intro j copy
          rw [copyMemory, unread.address _ first j copy, unread.data _ first j copy]
        generalize compared : diffs.or (told (off / BSIZE)) = flags
        have setBy : forall pair, flags.flag pair = true ↔
            diffs.flag pair = true ∨ (told (off / BSIZE)).flag pair = true := by
          intro pair
          rw [← compared, Diffs.flag_or, Bool.or_eq_true]
        refine @readMirrored_step _ _ _ _ _ _ _ _ _ _ _ _ _ _ _ flags _ more piece
          (unread.readable first) (by rw [unread.idle]; exact space) ?_ (fun all => ?_)
          (fun notAll => ?_)
        · rw [memory 0 (by decide), memory 1 (by decide), memory 2 (by decide),
            ← compares _ first, compared]
        · refine ⟨⟨rfl, unread.idle, unread.free⟩, iff_of_true rfl (fun pair => ?_), nofun⟩
          rcases (setBy pair).mp (all pair) with already | here
          · exact Or.inl already
          · exact Or.inr ⟨_, first, here⟩
        · have mended := mend_mended flags (off % BSIZE) m (place (off / BSIZE) 0)
              (place (off / BSIZE) 1) (place (off / BSIZE) 2) d
          refine wp_mono (ih (by omega) (unread.mend more piece flags)
            (fun k touches => compares k ((touches_cons more piece k).mpr (Or.inr touches))) notAll)
            ?_ (fun _ stopped => stopped)
          rintro result e ⟨calm, gaveUp, went⟩
          refine ⟨⟨calm.mem.trans mended.mem, calm.idle, calm.free⟩, ?_, fun bytes isResult => ?_⟩
          · rw [Option.map_eq_none_iff, gaveUp]
            refine forall_congr' fun pair => ?_
            rw [setBy pair, or_assoc]
            refine or_congr_right ⟨?_, ?_⟩
            · rintro (here | ⟨k, touches, set_⟩)
              · exact ⟨_, first, here⟩
              · exact ⟨k, (touches_cons more piece k).mpr (Or.inr touches), set_⟩
            · rintro ⟨k, touches, set_⟩
              rcases (touches_cons more piece k).mp touches with rfl | later
              · exact Or.inl set_
              · exact Or.inr ⟨k, later, set_⟩
          · cases result with
            | none => exact nomatch isResult
            | some rest =>
                rcases went rest rfl with ⟨same, scanned⟩
                refine ⟨?_, Scanned.cons unread more piece compared scanned⟩
                rw [← Option.some.inj isResult, same, unread.data _ first 2 (by decide)]
                exact thirdCopies_cons old piece

end Loop

end TripleFs
end OsProjects
