import OsProjects.TripleFs.Directories
import OsProjects.TripleFs.FileCalls

namespace OsProjects
namespace TripleFs

open Machine

/-!
# A directory as a finite map

The entries in use of a directory are a finite map from names, as far as an entry stores
them, to inode numbers.  `dirlookup`, `dirlink` and the removal of an entry are the
operations on that map.
-/

/-! ## Entries as bytes -/

/-- The inode number in the entry `k` of a row of bytes. -/
def inumOf (b : Nat -> UInt8) (k : Nat) : Nat := (b (16 * k)).toNat + 256 * (b (16 * k + 1)).toNat

/-- The name in that entry. -/
def keyOf (b : Nat -> UInt8) (k : Nat) : List UInt8 := nameKey (fun i => b (16 * k + 2 + i))

/-- The entries in use are the map `m`. -/
structure Represents (b : Nat -> UInt8) (m : List UInt8 -> Option Nat) : Prop where
  once : forall j k, inumOf b j ≠ 0 -> inumOf b k ≠ 0 -> keyOf b j = keyOf b k -> j = k
  entry : forall key inum, m key = some inum ↔
    Exists fun k => inumOf b k ≠ 0 ∧ keyOf b k = key ∧ inumOf b k = inum

/-- Only the entry `k` may have changed. -/
def OnlyEntry (b after : Nat -> UInt8) (k : Nat) : Prop :=
  forall j, j ≠ k -> inumOf after j = inumOf b j ∧ keyOf after j = keyOf b j

/-- The bytes after an entry has been written. -/
def putEntry (b : Nat -> UInt8) (k : Nat) (src : List UInt8) (x : Nat) : UInt8 :=
  if 16 * k ≤ x ∧ x < 16 * k + direntSize then src.getD (x - 16 * k) 0 else b x

section Entries

variable {b after : Nat -> UInt8} {m : List UInt8 -> Option Nat} {k : Nat}

theorem onlyEntry_putEntry (src : List UInt8) : OnlyEntry b (putEntry b k src) k := by
  intro j different
  have kept : forall i, i < 16 -> putEntry b k src (16 * j + i) = b (16 * j + i) := by
    intro i below
    refine if_neg ?_
    rintro ⟨lower, upper⟩
    simp only [direntSize] at upper
    omega
  refine ⟨?_, nameKey_congr (fun i below _ => ?_)⟩
  · have first := kept 0 (by decide)
    have second := kept 1 (by decide)
    rw [Nat.add_zero] at first
    rw [inumOf, inumOf, first, second]
  · simp only [DIRSIZ] at below
    rw [Nat.add_assoc]
    exact kept (2 + i) (by omega)

theorem inumOf_dirent (inum : Nat) (name : Nat -> UInt8) :
    inumOf (putEntry b k (dirent inum name)) k = inum % 2 ^ 16 := by
  have first : putEntry b k (dirent inum name) (16 * k) = UInt8.ofNat inum := by
    unfold putEntry
    rw [if_pos ⟨Nat.le_refl _, Nat.lt_add_of_pos_right (by decide)⟩, Nat.sub_self]
    rfl
  have second : putEntry b k (dirent inum name) (16 * k + 1) = UInt8.ofNat (inum / 256) := by
    unfold putEntry
    rw [if_pos ⟨Nat.le_add_right _ _, Nat.add_lt_add_left (by decide) _⟩, Nat.add_sub_cancel_left]
    rfl
  rw [inumOf, first, second, UInt8.toNat_ofNat', UInt8.toNat_ofNat']
  omega

theorem keyOf_dirent (inum : Nat) (name : Nat -> UInt8) :
    keyOf (putEntry b k (dirent inum name)) k = nameKey name := by
  rw [← nameKey_stored name]
  refine nameKey_congr (fun i below _ => ?_)
  have inside : 16 * k ≤ 16 * k + 2 + i ∧ 16 * k + 2 + i < 16 * k + direntSize := by
    simp only [DIRSIZ] at below
    simp only [direntSize]
    omega
  have position : 16 * k + 2 + i - 16 * k = i + 2 := by omega
  unfold putEntry
  rw [if_pos inside, position]
  rfl

theorem inumOf_cleared : inumOf (putEntry b k (List.replicate direntSize 0)) k = 0 := by
  have zero : forall i, i < direntSize ->
      putEntry b k (List.replicate direntSize 0) (16 * k + i) = 0 := by
    intro i below
    unfold putEntry
    rw [if_pos ⟨by omega, by omega⟩, Nat.add_sub_cancel_left]
    exact List.getD_replicate _ below
  rw [inumOf, zero 1 (by decide), ← Nat.add_zero (16 * k), zero 0 (by decide)]
  rfl

/-- A name that is not in the map is in no entry in use. -/
theorem Represents.absent (represents : Represents b m) {key : List UInt8} (none_ : m key = none)
    (live : inumOf b k ≠ 0) : keyOf b k ≠ key := by
  intro same
  have some_ := (represents.entry key (inumOf b k)).mpr ⟨k, live, same, rfl⟩
  rw [none_] at some_
  exact nomatch some_

/-- Fill an entry that is not in use. -/
theorem Represents.insert (represents : Represents b m) (beside : OnlyEntry b after k)
    {key : List UInt8} (free : inumOf b k = 0) (none_ : m key = none) (live : inumOf after k ≠ 0)
    (named : keyOf after k = key) :
    Represents after (Function.update m key (some (inumOf after k))) := by
  refine ⟨fun i j liveI liveJ same => ?_, fun other inum => ?_⟩
  · by_cases first : i = k
    · by_cases second : j = k
      · rw [first, second]
      · rw [(beside j second).1] at liveJ
        rw [first, named, (beside j second).2] at same
        exact absurd same.symm (represents.absent none_ liveJ)
    · rw [(beside i first).1] at liveI
      rw [(beside i first).2] at same
      by_cases second : j = k
      · rw [second, named] at same
        exact absurd same (represents.absent none_ liveI)
      · rw [(beside j second).1] at liveJ
        rw [(beside j second).2] at same
        exact represents.once i j liveI liveJ same
  · by_cases here : other = key
    · rw [here, Function.update_self]
      constructor
      · intro same
        exact ⟨k, live, named, Option.some.inj same⟩
      · rintro ⟨j, liveJ, namedJ, same⟩
        by_cases there : j = k
        · rw [← same, there]
        · rw [(beside j there).1] at liveJ
          rw [(beside j there).2] at namedJ
          exact absurd namedJ (represents.absent none_ liveJ)
    · rw [Function.update_of_ne here, represents.entry]
      refine exists_congr fun j => ?_
      by_cases there : j = k
      · rw [there]
        refine iff_of_false (fun all => all.1 free) (fun all => here ?_)
        rw [← all.2.1, named]
      · rw [(beside j there).1, (beside j there).2]

/-- Clear an entry in use. -/
theorem Represents.erase (represents : Represents b m) (beside : OnlyEntry b after k)
    (live : inumOf b k ≠ 0) (cleared : inumOf after k = 0) :
    Represents after (Function.update m (keyOf b k) none) := by
  have other : forall {j}, inumOf after j ≠ 0 -> j ≠ k := by
    intro j liveJ here
    rw [here] at liveJ
    exact liveJ cleared
  refine ⟨fun i j liveI liveJ same => ?_, fun key inum => ?_⟩
  · have first := beside i (other liveI)
    have second := beside j (other liveJ)
    rw [first.1] at liveI
    rw [second.1] at liveJ
    rw [first.2, second.2] at same
    exact represents.once i j liveI liveJ same
  · by_cases here : key = keyOf b k
    · rw [here, Function.update_self]
      refine iff_of_false nofun ?_
      rintro ⟨j, liveJ, named, _⟩
      have kept := beside j (other liveJ)
      have different := other liveJ
      rw [kept.1] at liveJ
      rw [kept.2] at named
      exact different (represents.once j k liveJ live named)
    · rw [Function.update_of_ne here, represents.entry]
      refine exists_congr fun j => ?_
      by_cases there : j = k
      · rw [there]
        exact iff_of_false (fun all => here all.2.1.symm) (fun all => all.1 cleared)
      · rw [(beside j there).1, (beside j there).2]

/-- Write an entry without using it. -/
theorem Represents.keep (represents : Represents b m) (beside : OnlyEntry b after k)
    (free : inumOf b k = 0) (unused : inumOf after k = 0) : Represents after m := by
  have same : forall j, inumOf after j = inumOf b j := by
    intro j
    by_cases here : j = k
    · rw [here, unused, free]
    · exact (beside j here).1
  have key : forall j, inumOf b j ≠ 0 -> keyOf after j = keyOf b j := by
    intro j live
    refine (beside j ?_).2
    intro here
    rw [here] at live
    exact live free
  refine ⟨fun i j liveI liveJ equal => ?_, fun other inum => ?_⟩
  · rw [same] at liveI liveJ
    rw [key i liveI, key j liveJ] at equal
    exact represents.once i j liveI liveJ equal
  · rw [represents.entry]
    refine exists_congr fun j => ?_
    rw [same]
    refine and_congr_right fun live => ?_
    rw [key j live]

end Entries

/-! ## The bytes of a directory -/

/-- A byte of the directory in the entry `dp`, with zeros where it has no block. -/
def dirBytes (sb : Superblock) (d : Device BSIZE Kernel) (dp x : Nat) : UInt8 :=
  (work sb d dp).byte (d.mem.icache dp).inum x

/-- A directory without holes.  Behind its end there is no entry in use. -/
structure Directory (sb : Superblock) (ends : Nat) (enough : (Nat -> Bool) -> (Nat -> Nat) -> Prop)
    (d : Device BSIZE Kernel) (dp : Nat) : Prop where
  file : PlainFile sb ends enough d dp
  type : (d.mem.icache dp).copy.type = T_DIR
  held : 0 < (d.mem.icache dp).ref
  whole : (d.mem.icache dp).copy.logical_size % direntSize = 0
  tail : forall k, (d.mem.icache dp).copy.logical_size ≤ direntSize * k ->
    inumOf (dirBytes sb d dp) k = 0

section Bytes

variable {sb : Superblock} {ends : Nat} {enough : (Nat -> Bool) -> (Nat -> Nat) -> Prop}
  {d e : Device BSIZE Kernel} {dp k : Nat}

/-- The entries of a row of bytes that is cut into blocks. -/
theorem inumOf_blocks {b : Nat -> UInt8} {block : Nat -> Block}
    (cut : forall x, b x = (block (x / BSIZE)).get (x % BSIZE)) (k : Nat) :
    inumOf b k = (block (k / 32)).number (16 * (k % 32)) 2 := by
  have first : 16 * k / BSIZE = k / 32 ∧ 16 * k % BSIZE = 16 * (k % 32) := by
    simp only [BSIZE]
    omega
  have second : (16 * k + 1) / BSIZE = k / 32 ∧ (16 * k + 1) % BSIZE = 16 * (k % 32) + 1 := by
    simp only [BSIZE]
    omega
  rw [inumOf, cut, cut, first.1, first.2, second.1, second.2]
  rfl

theorem keyOf_blocks {b : Nat -> UInt8} {block : Nat -> Block}
    (cut : forall x, b x = (block (x / BSIZE)).get (x % BSIZE)) (k : Nat) :
    keyOf b k = nameKey (fun i => (block (k / 32)).get (16 * (k % 32) + 2 + i)) := by
  refine nameKey_congr (fun i below _ => ?_)
  have position : (16 * k + 2 + i) / BSIZE = k / 32 ∧
      (16 * k + 2 + i) % BSIZE = 16 * (k % 32) + 2 + i := by
    simp only [DIRSIZ] at below
    simp only [BSIZE]
    omega
  rw [cut, position.1, position.2]

theorem dirBytes_blocks (sb : Superblock) (d : Device BSIZE Kernel) (dp x : Nat) :
    dirBytes sb d dp x =
      ((work sb d dp).content (d.mem.icache dp).inum (x / BSIZE)).get (x % BSIZE) :=
  rfl

theorem Directory.stored (dir : Directory sb ends enough d dp)
    (inside : k / 32 * BSIZE < (d.mem.icache dp).copy.logical_size) :
    (work sb d dp).slot ((d.mem.icache dp).inum, Volume.place (k / 32)) ≠ 0 := by
  have covered := dir.file.covered _ inside
  rw [Nat.mul_div_cancel _ (by decide)] at covered
  exact covered

/-- What `dirlookup` sees of an entry in a block of the directory. -/
theorem Directory.inumAt (dir : Directory sb ends enough d dp)
    (inside : k / 32 * BSIZE < (d.mem.icache dp).copy.logical_size) :
    TripleFs.inumAt d.disk (d.mem.icache dp).copy k = inumOf (dirBytes sb d dp) k := by
  rw [inumOf_blocks (dirBytes_blocks sb d dp), TripleFs.inumAt,
    dir.file.works.disk (dir.stored inside)]

theorem Directory.nameAt (dir : Directory sb ends enough d dp)
    (inside : k / 32 * BSIZE < (d.mem.icache dp).copy.logical_size) :
    nameKey (TripleFs.nameAt d.disk (d.mem.icache dp).copy k) = keyOf (dirBytes sb d dp) k := by
  rw [keyOf_blocks (dirBytes_blocks sb d dp)]
  unfold TripleFs.nameAt
  rw [dir.file.works.disk (dir.stored inside)]

theorem Directory.isNamed (dir : Directory sb ends enough d dp) {name : Nat -> UInt8}
    (inside : k / 32 * BSIZE < (d.mem.icache dp).copy.logical_size) :
    IsNamed d.disk (d.mem.icache dp).copy name k ↔
      inumOf (dirBytes sb d dp) k ≠ 0 ∧ nameKey name = keyOf (dirBytes sb d dp) k := by
  unfold IsNamed
  rw [dir.inumAt inside, dir.nameAt inside]

/-- An entry in use lies before the end. -/
theorem Directory.within (dir : Directory sb ends enough d dp)
    (live : inumOf (dirBytes sb d dp) k ≠ 0) :
    direntSize * k < (d.mem.icache dp).copy.logical_size := by
  by_contra beyond
  exact live (dir.tail k (Nat.not_lt.mp beyond))

/-- The contents of a directory as a list. -/
theorem hasBytes_dirBytes (sb : Superblock) (d : Device BSIZE Kernel) (dp : Nat) :
    HasBytes sb d dp 1
      ((List.range (d.mem.icache dp).copy.logical_size).map (dirBytes sb d dp)) := by
  have length : ((List.range (d.mem.icache dp).copy.logical_size).map (dirBytes sb d dp)).length =
      (d.mem.icache dp).copy.logical_size := by
    rw [List.length_map, List.length_range]
  refine ⟨length.symm, fun x below => ?_⟩
  rw [List.getD_eq_getElem _ 0 below, List.getElem_map, List.getElem_range, Nat.mul_one]
  rfl

/-- A write of an entry. -/
theorem Written.dirBytes {src : List UInt8} {new : Nat -> Prop} {size : Nat}
    (written : Written sb ends enough d e dp (plainValue src (direntSize * k))
      (fun bn y => Requested (direntSize * k) direntSize bn y) new size) :
    TripleFs.dirBytes sb e dp = putEntry (TripleFs.dirBytes sb d dp) k src := by
  funext x
  have within := Nat.mod_lt x (show 0 < BSIZE by decide)
  have requested : Requested (direntSize * k) direntSize (x / BSIZE) (x % BSIZE) ↔
      16 * k ≤ x ∧ x < 16 * k + direntSize := by
    unfold Requested
    rw [block_position]
    exact Iff.rfl
  unfold TripleFs.dirBytes putEntry Volume.byte
  rw [written.inum]
  by_cases hit : 16 * k ≤ x ∧ x < 16 * k + direntSize
  · rw [if_pos hit, written.edited.written _ _ within (requested.mpr hit)]
    unfold plainValue
    rw [block_position]
    rfl
  · rw [if_neg hit, written.edited.kept _ _ within (mt requested.mp hit)]

end Bytes

/-! ## Changes in memory -/

section Memory

variable {limits : Limits BSIZE} {sb : Superblock} {ends : Nat} {escape : Stop FsPanic -> Prop}
  {enough : (Nat -> Bool) -> (Nat -> Nat) -> Prop} {d : Device BSIZE Kernel}
  {dp ip inum : Nat} {k : Kernel}

open BlockProgram

/-- A change in memory that leaves the inode alone. -/
theorem Works.withMem (works : Works sb ends enough d dp)
    (number : (k.icache dp).inum = (d.mem.icache dp).inum)
    (copy : (k.icache dp).copy = (d.mem.icache dp).copy) :
    Works sb ends enough (d.withMem k) dp ∧ work sb (d.withMem k) dp = work sb d dp := by
  have same : work sb (d.withMem k) dp = work sb d dp := by
    unfold work
    exact congrArg₂ (sb.volume d.disk).setInode number copy
  refine ⟨⟨works.quiet.withMem _, works.isSuper, number ▸ works.inode, same ▸ works.sound, ?_⟩,
    same⟩
  have own : ownSlots sb (d.withMem k) dp = ownSlots sb d dp := by
    funext j
    unfold ownSlots
    rw [same]
    exact congrArg (fun i => (work sb d dp).slot (i, j)) number
  rw [own]
  exact works.enough

theorem Directory.withMem (dir : Directory sb ends enough d dp)
    (number : (k.icache dp).inum = (d.mem.icache dp).inum)
    (copy : (k.icache dp).copy = (d.mem.icache dp).copy) (held : 0 < (k.icache dp).ref) :
    Directory sb ends enough (d.withMem k) dp ∧
    dirBytes sb (d.withMem k) dp = dirBytes sb d dp := by
  have works := dir.file.works.withMem number copy
  have bytes : dirBytes sb (d.withMem k) dp = dirBytes sb d dp := by
    funext x
    unfold dirBytes
    rw [works.2]
    exact congrArg (fun i => (work sb d dp).byte i x) number
  refine ⟨⟨⟨works.1, ?_, ?_, fun x below => ?_⟩, ?_, held, ?_, fun j beyond => ?_⟩, bytes⟩
  · exact copy.symm ▸ dir.file.plain
  · exact copy.symm ▸ dir.file.size
  · rw [works.2]
    exact number.symm ▸ dir.file.covered x (copy ▸ below)
  · exact copy.symm ▸ dir.type
  · exact copy.symm ▸ dir.whole
  · rw [bytes]
    exact dir.tail j (copy ▸ beyond)

/-- `iget` leaves the directory alone. -/
theorem Directory.gotten (dir : Directory sb ends enough d dp) (ip inum : Nat) :
    Directory sb ends enough (d.withMem (d.mem.adjust ip (Inode.gotten inum))) dp ∧
      dirBytes sb (d.withMem (d.mem.adjust ip (Inode.gotten inum))) dp = dirBytes sb d dp := by
  have entry : (d.mem.adjust ip (Inode.gotten inum)).icache dp = d.mem.icache dp ∨
      (d.mem.adjust ip (Inode.gotten inum)).icache dp =
      { d.mem.icache dp with ref := (d.mem.icache dp).ref + 1 } := by
    by_cases here : dp = ip
    · rw [← here, Kernel.adjust_self]
      exact Or.inr (if_pos dir.held)
    · rw [Kernel.adjust_of_ne _ here]
      exact Or.inl rfl
  have held := dir.held
  rcases entry with same | same
  · exact dir.withMem (by rw [same]) (by rw [same]) (by rw [same]; exact held)
  · exact dir.withMem (by rw [same]) (by rw [same]) (by rw [same]; exact Nat.succ_pos _)

/-- So do `iget` and `iput`. -/
theorem Directory.got_and_put (dir : Directory sb ends enough d dp) (ip inum : Nat) :
    (d.mem.adjust ip (Inode.put ∘ Inode.gotten inum)).icache dp = d.mem.icache dp := by
  by_cases here : dp = ip
  · rw [← here, Kernel.adjust_self, Function.comp_apply, Inode.put_gotten dir.held]
  · rw [Kernel.adjust_of_ne _ here]

end Memory

/-! ## The operations -/

section Operations

variable {limits : Limits BSIZE} {sb : Superblock} {ends : Nat} {escape : Stop FsPanic -> Prop}
  {enough : (Nat -> Bool) -> (Nat -> Nat) -> Prop} {d e : Device BSIZE Kernel} {dp k : Nat}
  {m : List UInt8 -> Option Nat} {name : Nat -> UInt8}

open BlockProgram

/-- What `dirlookup` finds is what the map says. -/
def Found (sb : Superblock) (d : Device BSIZE Kernel) (dp : Nat) (m : List UInt8 -> Option Nat)
    (name : Nat -> UInt8) (result : Option (Nat × Nat)) (e : Device BSIZE Kernel) : Prop :=
  (m (nameKey name) = none ∧ result = none ∧ e = d) ∨
  Exists fun k => Exists fun ip => m (nameKey name) = some (inumOf (dirBytes sb d dp) k) ∧
  inumOf (dirBytes sb d dp) k ≠ 0 ∧ keyOf (dirBytes sb d dp) k = nameKey name ∧
  result = some (ip, direntSize * k) ∧ d.mem.find (inumOf (dirBytes sb d dp) k) = some ip ∧
  e = d.withMem (d.mem.adjust ip (Inode.gotten (inumOf (dirBytes sb d dp) k)))

theorem Directory.dirlookup_wp (terms : Terms limits sb ends escape enough)
    (dir : Directory sb ends enough d dp) (represents : Represents (dirBytes sb d dp) m)
    (free : SlotFree d.mem ∨ escape (.panic .igetNoInodes)) :
    (dirlookup dp name).wp limits (Found sb d dp m name) escape d := by
  have space : 0 < limits.capacity := Nat.lt_trans (by decide) terms.buffers
  have inBlock : forall q, (32 * q) / 32 * BSIZE = q * BSIZE := fun q => by
    rw [Nat.mul_div_cancel_left _ (by decide)]
  have size := dir.file.size
  unfold dirlookup
  refine wp_bind.mpr (wp_getMem ?_)
  rw [if_neg (fun notDir => notDir dir.type), ← Nat.zero_mul BSIZE]
  refine wp_mono ((lookupFrom_reads dir.file.works.quiet space (fun q below _ => ⟨?_, ?_⟩)
    (fun k _ _ _ none_ => ?_) _ ?_ (fun k low => absurd low (Nat.not_lt_zero k))).wp) ?_
    (fun _ stopped => stopped)
  · exact Nat.lt_of_mul_lt_mul_right (Nat.lt_of_lt_of_le below size)
  · have stored := @Directory.stored _ _ _ _ _ (32 * q) dir (by rw [inBlock]; exact below)
    rw [Nat.mul_div_cancel_left _ (by decide)] at stored
    rw [dir.file.works.addressOf]
    exact stored
  · exact free.resolve_left (fun slot => slot.find _ none_)
  · simp only [BSIZE]
    omega
  · rintro result e (⟨missing, same, none_⟩ | ⟨k, ip, found, inside, here, _, got, after⟩)
    · refine Or.inl ⟨?_, missing, same⟩
      cases entry : m (nameKey name) with
      | none => rfl
      | some inum =>
          rcases (represents.entry _ _).mp entry with ⟨k, live, named, _⟩
          have within := dir.within live
          have block : k / 32 * BSIZE < (d.mem.icache dp).copy.logical_size := by
            simp only [direntSize] at within
            simp only [BSIZE]
            omega
          exact absurd ((dir.isNamed block).mpr ⟨live, named.symm⟩) (none_ k within)
    · have named := (dir.isNamed inside).mp here
      rw [dir.inumAt inside] at got after
      refine Or.inr ⟨k, ip, ?_, named.1, named.2.symm, found, got, after⟩
      exact (represents.entry _ _).mpr ⟨k, named.1, named.2.symm, rfl⟩

/-- The entry that `dirlink` uses is not in use. -/
theorem Directory.emptyFrom_wp (terms : Terms limits sb ends escape enough)
    (dir : Directory sb ends enough d dp) (devsw : Devsw) (behind : Nat -> Nat -> UInt8)
    (fuel : Nat) :
    forall {k}, (d.mem.icache dp).copy.logical_size ≤ direntSize * (k + fuel) ->
      direntSize * k ≤ (d.mem.icache dp).copy.logical_size ->
      (emptyFrom devsw behind dp fuel (direntSize * k)).wp limits
        (fun off e =>
          e = d ∧
          Exists fun j =>
            off = direntSize * j ∧ direntSize * j ≤ (d.mem.icache dp).copy.logical_size ∧
            inumOf (dirBytes sb d dp) j = 0)
        escape d := by
  have space : 0 < limits.capacity := Nat.lt_trans (by decide) terms.buffers
  have bytes := hasBytes_dirBytes sb d dp
  have small := dir.file.size
  have whole := dir.whole
  induction fuel with
  | zero =>
      intro k short low
      exact ⟨rfl, k, rfl, low, dir.tail k short⟩
  | succ fuel ih =>
      intro k short low
      rw [emptyFrom]
      refine wp_bind.mpr (wp_getMem ?_)
      by_cases more : direntSize * k < (d.mem.icache dp).copy.logical_size
      · have inside : direntSize * k + direntSize ≤ (d.mem.icache dp).copy.logical_size := by
          simp only [direntSize] at more whole ⊢
          omega
        have fits : direntSize * k + direntSize < 2 ^ 32 := by
          have limit : MAXFILE * BSIZE < 2 ^ 32 := by decide
          omega
        rw [if_pos more]
        refine wp_seq (readi_present dir.file.works.quiet space (dir.file.stores bytes) devsw behind
          (show direntSize * k < 2 ^ 32 by omega) (show direntSize < 2 ^ 32 by decide)) ?_
        rintro de e ⟨rfl, result⟩
        have accepted :
            ¬ (((List.range (e.mem.icache dp).copy.logical_size).map (dirBytes sb e dp)).length <
            direntSize * k ∨ 2 ^ 32 ≤ direntSize * k + direntSize) := by
          rw [← bytes.size]
          omega
        have whole_ : min direntSize ((e.mem.icache dp).copy.logical_size - direntSize * k) =
            direntSize := by omega
        rw [readResult, if_neg accepted, ← bytes.size, whole_] at result
        have inum : direntInum de.2 = inumOf (dirBytes sb e dp) k := by
          have byte : forall i, i < direntSize ->
              de.2.getD i 0 = dirBytes sb e dp (direntSize * k + i) := by
            intro i below
            rw [result]
            simp only [List.getD_eq_getElem?_getD, List.getElem?_take, if_pos below,
              List.getElem?_drop, List.getElem?_map]
            rw [List.getElem?_range (by omega)]
            rfl
          unfold direntInum inumOf
          rw [byte 0 (by decide), byte 1 (by decide)]
          rfl
        have length : de.1 = direntSize := by rw [result]
        rw [if_neg (fun different => different length), inum]
        by_cases empty : inumOf (dirBytes sb e dp) k = 0
        · rw [if_pos empty]
          exact ⟨rfl, k, rfl, low, empty⟩
        · rw [if_neg empty]
          exact ih (by rw [Nat.add_right_comm k 1 fuel]; exact short) inside
      · rw [if_neg more]
        exact ⟨rfl, k, rfl, low, dir.tail k (Nat.not_lt.mp more)⟩

/-- The entry `k` of the directory has been written. -/
structure EntryPut (sb : Superblock) (d e : Device BSIZE Kernel) (dp k : Nat) (src : List UInt8) :
    Prop where
  grows : (d.mem.icache dp).copy.logical_size ≤ (e.mem.icache dp).copy.logical_size
  short : (e.mem.icache dp).copy.logical_size ≤ (d.mem.icache dp).copy.logical_size + direntSize
  bytes : dirBytes sb e dp = putEntry (dirBytes sb d dp) k src

theorem grownSize_le {size off n : Nat} (some_ : 0 < n) (low : off ≤ size) :
    size ≤ grownSize size off n ∧ off + n ≤ grownSize size off n ∧
    grownSize size off n ≤ size + n := by
  unfold grownSize
  split <;> omega

/-- Write an entry. -/
theorem Directory.writei_wp (terms : Terms limits sb ends escape enough)
    (dir : Directory sb ends enough d dp) (devsw : Devsw) {src : List UInt8}
    (length : src.length = direntSize)
    (low : direntSize * k ≤ (d.mem.icache dp).copy.logical_size) :
    (writei devsw dp src (direntSize * k)).wp limits
      (fun n e =>
        n ≠ (direntSize : Int) ∧ direntSize * k = (d.mem.icache dp).copy.logical_size ∧
        MAXFILE * BSIZE < (d.mem.icache dp).copy.logical_size + direntSize ∨
        n = (direntSize : Int) ∧ Directory sb ends enough e dp ∧ EntryPut sb d e dp k src ∧
        Exists fun c => e.mem = d.mem.adjust dp (Inode.withCopy fun _ => c))
      escape d := by
  have small := dir.file.size
  have whole := dir.whole
  have limit : MAXFILE * BSIZE + direntSize < 2 ^ 32 := by decide
  have even : MAXFILE * BSIZE % direntSize = 0 := by decide
  refine wp_mono (writei_plain_wp terms dir.file.works devsw dir.file.plain low (by omega)
    (by rw [length]; omega)) ?_ (fun _ stopped => stopped)
  rw [length]
  rintro n e ⟨result, written, present⟩
  by_cases room : direntSize * k + direntSize ≤ MAXFILE * BSIZE
  · have all : min direntSize (MAXFILE * BSIZE - direntSize * k) = direntSize := by omega
    rw [all] at result written present
    have bytes := written.dirBytes
    have grown := @grownSize_le (d.mem.icache dp).copy.logical_size (direntSize * k) direntSize
        (by decide) low
    rw [← written.size] at grown
    refine Or.inr ⟨result, ⟨dir.file.written low room written present, ?_, ?_, ?_,
      fun j beyond => ?_⟩, ⟨grown.1, grown.2.2, bytes⟩, written.mem⟩
    · rw [written.type]
      exact dir.type
    · rcases written.mem with ⟨c, same⟩
      rw [same, Kernel.adjust_self]
      exact dir.held
    · rw [written.size]
      unfold grownSize
      split
      · rw [Nat.add_mod_right, Nat.mul_mod_right]
      · exact whole
    · have far : (d.mem.icache dp).copy.logical_size ≤ direntSize * j ∧ j ≠ k := by
        simp only [direntSize] at beyond grown ⊢
        omega
      rw [bytes, (onlyEntry_putEntry src j far.2).1]
      exact dir.tail j far.1
  · have none_ : min direntSize (MAXFILE * BSIZE - direntSize * k) = 0 ∧
        direntSize * k = (d.mem.icache dp).copy.logical_size := by
      generalize MAXFILE * BSIZE = most at *
      simp only [direntSize] at *
      omega
    refine Or.inl ⟨?_, none_.2, by omega⟩
    rw [result, none_.1]
    decide

/-! ### Adding an entry -/

/-- What a call leaves of the cache of inodes. -/
def StillFree (d e : Device BSIZE Kernel) : Prop := SlotFree d.mem -> SlotFree e.mem

/-- `iput` after `dirlookup` leaves the directory as it was. -/
theorem Directory.dropped (dir : Directory sb ends enough d dp) {ip inum : Nat} :
    Directory sb ends enough (d.withMem (d.mem.adjust ip (Inode.put ∘ Inode.gotten inum))) dp ∧
    dirBytes sb (d.withMem (d.mem.adjust ip (Inode.put ∘ Inode.gotten inum))) dp =
      dirBytes sb d dp ∧
    StillFree d (d.withMem (d.mem.adjust ip (Inode.put ∘ Inode.gotten inum))) := by
  have entry := dir.got_and_put ip inum
  have held := dir.held
  have kept := @Directory.withMem sb ends enough d dp
      (d.mem.adjust ip (Inode.put ∘ Inode.gotten inum)) dir (by rw [entry]) (by rw [entry])
      (by rw [entry]; exact held)
  exact ⟨kept.1, kept.2, fun free => free.adjust Inode.ref_put_gotten⟩

/-- `dirlink` refuses a name that is there and adds one that is not. -/
theorem Directory.dirlink_wp (terms : Terms limits sb ends escape enough)
    (dir : Directory sb ends enough d dp) (represents : Represents (dirBytes sb d dp) m)
    (free : SlotFree d.mem ∨ escape (.panic .igetNoInodes))
    (full : MAXFILE * BSIZE < (d.mem.icache dp).copy.logical_size + direntSize ->
      escape (.panic .dirlink))
    (devsw : Devsw) (behind : Nat -> Nat -> UInt8) (inum : Nat) :
    (dirlink devsw behind dp name inum).wp limits
      (fun result e =>
        Directory sb ends enough e dp ∧ StillFree d e ∧
        (m (nameKey name) ≠ none ∧ result = -1 ∧ e.disk = d.disk ∧
         e.mem.icache dp = d.mem.icache dp ∧ dirBytes sb e dp = dirBytes sb d dp ∨
         m (nameKey name) = none ∧ result = 0 ∧
         Exists fun k => inumOf (dirBytes sb d dp) k = 0 ∧ EntryPut sb d e dp k (dirent inum name)))
      escape d := by
  unfold dirlink
  refine wp_seq (dir.dirlookup_wp terms represents free) ?_
  rintro found e (⟨absent, rfl, rfl⟩ | ⟨k, ip, present, _, _, rfl, _, rfl⟩)
  · refine wp_bind.mpr (wp_getMem ?_)
    refine wp_seq (@Directory.emptyFrom_wp limits sb ends escape enough e dp terms dir devsw behind
      _ 0 ?_ ?_) ?_
    · simp only [direntSize]
      omega
    · exact Nat.zero_le _
    · rintro off f ⟨rfl, k, rfl, low, unused⟩
      refine wp_seq (dir.writei_wp terms devsw (length_dirent inum name) low) ?_
      rintro n g (⟨different, _, atEnd⟩ | ⟨rfl, dirNow, bytes, c, mem⟩)
      · rw [if_pos different]
        exact full atEnd
      · rw [if_neg (fun different => different rfl)]
        refine ⟨dirNow, ?_, Or.inr ⟨absent, rfl, k, unused, bytes⟩⟩
        intro slot
        rw [mem]
        exact slot.adjust id
  · refine wp_bind.mpr (iput_wp ?_ ?_)
    · have same : ((d.withMem
          (d.mem.adjust ip (Inode.gotten (inumOf (dirBytes sb d dp) k)))).mem.icache ip) =
          Inode.gotten (inumOf (dirBytes sb d dp) k) (d.mem.icache ip) := Kernel.adjust_self _
      rw [same]
      exact Inode.shared_gotten _
    · have dropped := @Directory.dropped sb ends enough d dp dir ip (inumOf (dirBytes sb d dp) k)
      have mem := @Kernel.adjust_adjust d.mem ip
          (Inode.gotten (inumOf (dirBytes sb d dp) k)) Inode.put
      have entry := dir.got_and_put ip (inumOf (dirBytes sb d dp) k)
      rw [← mem] at dropped entry
      refine ⟨dropped.1, dropped.2.2, Or.inl ⟨?_, rfl, rfl, entry, dropped.2.1⟩⟩
      rw [present]
      rintro ⟨⟩

/-! ### Removing an entry -/

/-- What `unlink` does to the directory: it clears the entry that `dirlookup` reports. -/
def removeEntry (devsw : Devsw) (dp : Nat) (name : Nat -> UInt8) : Fs Int := do
  match <- dirlookup dp name with
  | none => pure (-1)
  | some (ip, off) => do
      let n <- writei devsw dp (List.replicate direntSize 0) off
      if n ≠ direntSize then stop .unlinkWritei
      else do
        iput ip
        pure 0

theorem Directory.removeEntry_wp (terms : Terms limits sb ends escape enough)
    (dir : Directory sb ends enough d dp) (represents : Represents (dirBytes sb d dp) m)
    (free : SlotFree d.mem ∨ escape (.panic .igetNoInodes)) (devsw : Devsw) :
    (removeEntry devsw dp name).wp limits
      (fun result e =>
        Directory sb ends enough e dp ∧ StillFree d e ∧
        (m (nameKey name) = none ∧ result = -1 ∧ e = d ∨
         m (nameKey name) ≠ none ∧ result = 0 ∧
         Exists fun k =>
           inumOf (dirBytes sb d dp) k ≠ 0 ∧ keyOf (dirBytes sb d dp) k = nameKey name ∧
           EntryPut sb d e dp k (List.replicate direntSize 0)))
      escape d := by
  unfold removeEntry
  refine wp_seq (dir.dirlookup_wp terms represents free) ?_
  rintro found e (⟨absent, rfl, rfl⟩ | ⟨k, ip, present, live, named, rfl, _, rfl⟩)
  · exact ⟨dir, id, Or.inl ⟨absent, rfl, rfl⟩⟩
  · have gotten := dir.gotten ip (inumOf (dirBytes sb d dp) k)
    have within := dir.within live
    generalize isNow : d.withMem (d.mem.adjust ip (Inode.gotten (inumOf (dirBytes sb d dp) k))) =
      now at gotten ⊢
    have mem : now.mem = d.mem.adjust ip (Inode.gotten (inumOf (dirBytes sb d dp) k)) := by
      rw [← isNow]
      rfl
    have size : (now.mem.icache dp).copy.logical_size = (d.mem.icache dp).copy.logical_size := by
      rw [mem]
      by_cases here : dp = ip
      · rw [← here, Kernel.adjust_self, Inode.gotten, if_pos dir.held]
      · rw [Kernel.adjust_of_ne _ here]
    refine wp_seq (gotten.1.writei_wp terms devsw List.length_replicate
      (by rw [size]; exact Nat.le_of_lt within)) ?_
    rintro n f (⟨_, atEnd, _⟩ | ⟨rfl, dirNow, bytes, c, memToo⟩)
    · rw [size] at atEnd
      omega
    · have entry : (f.mem.icache ip).ref = (Inode.gotten (inumOf (dirBytes sb d dp) k)
          (d.mem.icache ip)).ref ∧ (f.mem.icache ip).valid =
          (Inode.gotten (inumOf (dirBytes sb d dp) k) (d.mem.icache ip)).valid := by
        rw [memToo, mem]
        by_cases here : ip = dp
        · rw [← here, Kernel.adjust_self, Kernel.adjust_self]
          exact ⟨rfl, rfl⟩
        · rw [Kernel.adjust_of_ne _ here, Kernel.adjust_self]
          exact ⟨rfl, rfl⟩
      rw [if_neg (fun different => different rfl)]
      refine wp_bind.mpr (iput_wp ?_ ?_)
      · rw [entry.1, entry.2]
        exact Inode.shared_gotten _
      · have same : ((f.mem.adjust ip Inode.put).icache dp).inum = (f.mem.icache dp).inum ∧
            ((f.mem.adjust ip Inode.put).icache dp).copy = (f.mem.icache dp).copy ∧
            0 < ((f.mem.adjust ip Inode.put).icache dp).ref := by
          by_cases here : dp = ip
          · have twice : (f.mem.icache dp).ref = (d.mem.icache dp).ref + 1 := by
              rw [here, entry.1, ← here, Inode.gotten, if_pos dir.held]
            rw [← here, Kernel.adjust_self]
            refine ⟨rfl, rfl, ?_⟩
            have held := dir.held
            show 0 < (f.mem.icache dp).ref - 1
            omega
          · rw [Kernel.adjust_of_ne _ here]
            exact ⟨rfl, rfl, dirNow.held⟩
        have kept := dirNow.withMem same.1 same.2.1 same.2.2
        refine ⟨kept.1, ?_, Or.inr ⟨?_, rfl, k, live, named, ?_⟩⟩
        · rintro ⟨other, below, idle⟩
          have different : other ≠ dp := by
            intro here
            have held := dir.held
            rw [here] at idle
            omega
          refine ⟨other, below, ?_⟩
          show ((f.mem.adjust ip Inode.put).icache other).ref = 0
          by_cases here : other = ip
          · rw [← here, Kernel.adjust_self, memToo, Kernel.adjust_of_ne _ different, mem, here,
              Kernel.adjust_self]
            rw [here] at idle
            exact Inode.ref_put_gotten idle
          · rw [Kernel.adjust_of_ne _ here, memToo, Kernel.adjust_of_ne _ different, mem,
              Kernel.adjust_of_ne _ here]
            exact idle
        · rw [present]
          exact nofun
        · have sizes : ((f.withMem (f.mem.adjust ip Inode.put)).mem.icache dp).copy =
              (f.mem.icache dp).copy := same.2.1
          refine ⟨?_, ?_, ?_⟩
          · rw [← size, sizes]
            exact bytes.grows
          · rw [← size, sizes]
            exact bytes.short
          · rw [kept.2, bytes.bytes, gotten.2]

end Operations

end TripleFs
end OsProjects
