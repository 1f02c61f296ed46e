import OsProjects.TripleFs.Directories

namespace OsProjects
namespace TripleFs

open Machine

/-!
# Looking up a path

`namei` locks one directory after the other, looks for the next element in it and drops
its reference to it.  On a disk whose directories are known it is followed here from the
first to the last element.  It reads blocks only, except for one case: the size of a
directory may promise a block that is not there, and whoever looks for a name that the
directory does not have comes to that block.
-/

/-! ## Directories that are known -/

/-- The entries of a directory: numbers of inodes and names. -/
abbrev Entries : Type := List (Nat × List UInt8)

/-- The inode of the first entry with the name. -/
def lookupEntry (entries : Entries) (name : List UInt8) : Option Nat :=
  (entries.find? (fun entry => nameKey (charsOf entry.2) = nameKey (charsOf name))).map Prod.fst

/-- The directory has these entries.  Its size is rounded up to a multiple of the block
size, also if it is one already. -/
structure DirOf (disk : Nat -> Block) (c : Dinode) (entries : Entries) : Prop where
  type : c.type = T_DIR
  size : c.logical_size = (direntSize * entries.length / BSIZE + 1) * BSIZE
  short : entries.length / 32 < NDIRECT
  present : forall q, q * BSIZE < direntSize * entries.length -> addressOf disk c q ≠ 0
  entry : forall k inum name, entries[k]? = some (inum, name) ->
    inumAt disk c k = inum ∧ nameKey (nameAt disk c k) = nameKey (charsOf name)
  unused : forall k, entries.length ≤ k -> k / 32 * BSIZE < direntSize * entries.length ->
    inumAt disk c k = 0
  hole : entries.length % 32 = 0 -> c.addrs (entries.length / 32) = 0

/-- The directories of a disk.  All inodes below `bound` are in use and have links. -/
structure KnownTree (disk : Nat -> Block) (tree : List (Nat × Entries)) (bound : Nat) : Prop where
  root : ROOTINO < bound
  linked : forall inum, 0 < inum -> inum < bound -> (diskInode disk inum).type ≠ 0 ∧
    (diskInode disk inum).nlink ≠ 0
  dirs : forall inum entries, tree.lookup inum = some entries ->
    DirOf disk (diskInode disk inum) entries
  others : forall inum, 0 < inum -> inum < bound -> tree.lookup inum = none ->
    (diskInode disk inum).type ≠ T_DIR
  closed : forall inum entries, tree.lookup inum = some entries -> forall entry, entry ∈ entries ->
    0 < entry.1 ∧ entry.1 < bound
  open_ : Exists fun b => b < scanned (superblock (disk 1)) ∧
    used (superblock (disk 1)) disk b = false

/-- On the way along the path a name is missing in a directory whose entries fill its
blocks. -/
def meetsHole (tree : List (Nat × Entries)) : Nat -> Nat -> List UInt8 -> Bool
  | 0, _, _ => false
  | fuel + 1, inum, path =>
      match skipelem path with
      | none => false
      | some (name, path) =>
          match tree.lookup inum with
          | none => false
          | some entries =>
              match lookupEntry entries name with
              | none => decide (entries.length % 32 = 0)
              | some next => meetsHole tree fuel next path

section Entries

variable {disk : Nat -> Block} {c : Dinode} {entries : Entries} {name : List UInt8} {k inum : Nat}

/-- Entries in blocks that are there have the name or are unused. -/
theorem DirOf.named_of_isNamed (dir : DirOf disk c entries)
    (inBlock : k / 32 * BSIZE < direntSize * entries.length)
    (named : IsNamed disk c (charsOf name) k) :
    Exists fun entry =>
      entries[k]? = some entry ∧ nameKey (charsOf entry.2) = nameKey (charsOf name) := by
  cases found : entries[k]? with
  | none => exact absurd (dir.unused k (List.getElem?_eq_none_iff.mp found) inBlock) named.1
  | some entry => exact ⟨entry, rfl, (dir.entry k _ _ found).2.symm.trans named.2.symm⟩

theorem DirOf.missing (dir : DirOf disk c entries) (none_ : lookupEntry entries name = none)
    (inBlock : k / 32 * BSIZE < direntSize * entries.length) :
    ¬ IsNamed disk c (charsOf name) k := by
  intro named
  rcases dir.named_of_isNamed inBlock named with ⟨entry, found, same⟩
  unfold lookupEntry at none_
  rw [Option.map_eq_none_iff, List.find?_eq_none] at none_
  exact none_ entry (List.mem_of_getElem? found) (decide_eq_true same)

theorem DirOf.found (dir : DirOf disk c entries)
    (nonzero : forall entry, entry ∈ entries -> 0 < entry.1)
    (some_ : lookupEntry entries name = some inum) :
    Exists fun k =>
      k < entries.length ∧ IsNamed disk c (charsOf name) k ∧ inumAt disk c k = inum ∧
      forall j, j < k -> ¬ IsNamed disk c (charsOf name) j := by
  unfold lookupEntry at some_
  rcases Option.map_eq_some_iff.mp some_ with ⟨entry, found, number⟩
  rcases List.find?_eq_some_iff_getElem.mp found with ⟨same, k, below, here, before⟩
  have at_k : entries[k]? = some (entry.1, entry.2) :=
    (List.getElem?_eq_getElem below).trans (congrArg some here)
  have facts := dir.entry k _ _ at_k
  have live := nonzero entry (List.mem_of_getElem? at_k)
  refine ⟨k, below, ⟨by rw [facts.1]; omega, ?_⟩, facts.1.trans number, fun j earlier named => ?_⟩
  · rw [facts.2]
    exact (of_decide_eq_true same).symm
  · have inBlock : j / 32 * BSIZE < direntSize * entries.length := by
      simp only [BSIZE, direntSize]
      omega
    rcases dir.named_of_isNamed inBlock named with ⟨other, at_j, equal⟩
    have notThere := before j earlier
    have isOther : entries[j] = other := by
      rw [List.getElem?_eq_getElem (by omega)] at at_j
      exact Option.some.inj at_j
    rw [isOther] at notThere
    simp only [equal, decide_true, Bool.not_true] at notThere
    cases notThere

end Entries

/-! ## Looking into a known directory -/

section Lookup

variable {limits : Limits BSIZE} {escape : Stop FsPanic -> Prop} {d : Device BSIZE Kernel}
  {dp : Nat} {entries : Entries} {name : List UInt8}

open BlockProgram

theorem DirOf.dirlookup_reads (quiet : Quiet d) (space : 0 < limits.capacity)
    (dir : DirOf d.disk (d.mem.icache dp).copy entries)
    (nonzero : forall entry, entry ∈ entries -> 0 < entry.1)
    (met : lookupEntry entries name = none -> entries.length % 32 ≠ 0)
    (full : forall inum, lookupEntry entries name = some inum -> d.mem.find inum = none ->
      escape (.panic .igetNoInodes)) :
    (dirlookup dp (charsOf name)).Reads limits
      (fun result e =>
        (lookupEntry entries name = none ∧ result = none ∧ e = d) ∨
        Exists fun inum => Exists fun next => Exists fun off =>
          lookupEntry entries name = some inum ∧ result = some (next, off) ∧
          d.mem.find inum = some next ∧ e = d.withMem (d.mem.adjust next (Inode.gotten inum)))
      escape d := by
  have size := dir.size
  unfold dirlookup
  refine reads_bind (reads_getMem ?_)
  rw [if_neg (fun notDir => notDir dir.type), ← Nat.zero_mul BSIZE]
  -- Which entry it is decides which blocks are looked at.
  cases outcome : lookupEntry entries name with
  | none =>
      have partly := met outcome
      have inside : forall q, q * BSIZE < (d.mem.icache dp).copy.logical_size ->
          q * BSIZE < direntSize * entries.length := by
        intro q below
        rw [size] at below
        simp only [BSIZE, direntSize] at below ⊢
        omega
      have short := dir.short
      refine (lookupFrom_reads quiet space (fun q below _ => ⟨?_, dir.present q (inside q below)⟩)
        (fun k named _ below _ => ?_) _ ?_ (fun k low => absurd low (Nat.not_lt_zero k))).mono ?_
        (fun _ stopped => stopped)
      · have low := inside q below
        simp only [BSIZE, direntSize, NDIRECT, MAXFILE] at low short ⊢
        omega
      · exact absurd named (dir.missing outcome (inside _ below))
      · simp only [BSIZE]
        omega
      · rintro result e (⟨missing, same, _⟩ | ⟨k, ip, _, below, named, _⟩)
        · exact Or.inl ⟨rfl, missing, same⟩
        · exact absurd named (dir.missing outcome (inside _ below))
  | some inum =>
      rcases dir.found nonzero outcome with ⟨k, low, named, number, before⟩
      have short := dir.short
      -- Nothing behind the entry is looked at.
      have first : forall q,
          (forall j, j < 32 * q -> ¬ IsNamed d.disk (d.mem.icache dp).copy (charsOf name) j) ->
          q * BSIZE < direntSize * entries.length := by
        intro q unnamed
        by_contra beyond
        refine unnamed k ?_ named
        simp only [BSIZE, direntSize] at beyond
        omega
      have least : forall j, IsNamed d.disk (d.mem.icache dp).copy (charsOf name) j -> k ≤ j :=
        fun j namedToo =>
        Nat.not_lt.mp (fun earlier => before j earlier namedToo)
      have isFirst : forall j, IsNamed d.disk (d.mem.icache dp).copy (charsOf name) j ->
          (forall i, i < j -> ¬ IsNamed d.disk (d.mem.icache dp).copy (charsOf name) i) ->
          j = k := by
        intro j namedToo none_
        exact Nat.le_antisymm (Nat.not_lt.mp (fun later => none_ k later named)) (least j namedToo)
      have loop := @lookupFrom_reads limits escape d dp (charsOf name) quiet space
        (fun q below unnamed => ⟨by
          have lower := first q unnamed
          simp only [BSIZE, direntSize, NDIRECT, MAXFILE] at lower short ⊢
          omega, dir.present q (first q unnamed)⟩)
        (fun j namedToo lowest below none_ => by
          have same := isFirst j namedToo lowest
          rw [same, number] at none_
          exact full inum outcome none_)
        ((d.mem.icache dp).copy.logical_size / BSIZE + 1) 0
        (by
          simp only [BSIZE]
          omega)
        (fun j low => absurd low (Nat.not_lt_zero j))
      refine loop.mono ?_ (fun _ stopped => stopped)
      rintro result e (⟨_, _, missing⟩ | ⟨j, ip, result_, below, namedToo, lowest, got, after⟩)
      · refine absurd named (missing k ?_)
        rw [size]
        simp only [BSIZE, direntSize]
        omega
      · have same := isFirst j namedToo lowest
        rw [same, number] at got after
        rw [same] at result_
        exact Or.inr ⟨inum, ip, 16 * k, rfl, result_, got, after⟩

/-- Without a hole, looking for an entry passes on to the next block. -/
theorem lookupFrom_skip {post : Option (Nat × Nat) -> Device BSIZE Kernel -> Prop} {q fuel : Nat}
    (quiet : Quiet d) (space : 0 < limits.capacity)
    (more : q * BSIZE < (d.mem.icache dp).copy.logical_size) (below : q < MAXFILE)
    (present : addressOf d.disk (d.mem.icache dp).copy q ≠ 0)
    (unnamed : forall k, k / 32 = q -> ¬ IsNamed d.disk (d.mem.icache dp).copy (charsOf name) k)
    (rest : (lookupFrom dp (charsOf name) fuel ((q + 1) * BSIZE)).wp limits post escape d) :
    (lookupFrom dp (charsOf name) (fuel + 1) (q * BSIZE)).wp limits post escape d := by
  have roomy : d.busy < limits.capacity := by
    rw [quiet.idle]
    exact space
  have block : q * BSIZE / BSIZE = q := Nat.mul_div_cancel q (by decide)
  have following : q * BSIZE + BSIZE = (q + 1) * BSIZE := (Nat.succ_mul q BSIZE).symm
  rw [lookupFrom]
  refine wp_bind.mpr (wp_getMem ?_)
  rw [if_pos more, block]
  refine wp_bind.mpr (bmap_present (quiet.resting _) roomy below present ?_)
  refine wp_bind.mpr (wp_bread (quiet.resting _) roomy ?_)
  refine wp_bind.mpr (wp_look Device.held_hold_self ?_)
  rcases @scanEntries_spec (charsOf name) (d.disk (addressOf d.disk (d.mem.icache dp).copy q))
    (BSIZE / direntSize) 0 with
    ⟨missing, _⟩ | ⟨i, inside, _, here, _⟩
  · rw [missing]
    refine wp_bind.mpr (wp_brelse Device.held_hold_self ?_)
    rw [Device.release_hold (quiet.resting _), following]
    exact rest
  · have small : i < 32 := inside
    refine absurd here (mt (fun named => ?_) (unnamed (32 * q + i) (by omega)))
    unfold IsNamed inumAt nameAt
    have position : (32 * q + i) / 32 = q ∧ (32 * q + i) % 32 = i := by omega
    rw [position.1, position.2]
    rw [Nat.zero_add] at named
    exact named

/-- When there is a free block, a hole is filled, so that a disk is written. -/
theorem bmap_hole {post : Nat -> Device BSIZE Kernel -> Prop} {q : Nat} (quiet : Quiet d)
    (space : 0 < limits.capacity) (never : forall disk, ¬ limits.room disk) (direct : q < NDIRECT)
    (hole : (d.mem.icache dp).copy.addrs q = 0)
    (open_ : Exists fun b =>
      b < scanned (superblock (d.disk 1)) ∧ used (superblock (d.disk 1)) d.disk b = false) :
    (bmap dp q).wp limits post escape d := by
  have roomy : d.busy < limits.capacity := by
    rw [quiet.idle]
    exact space
  unfold bmap ensureAddr
  rw [if_pos direct]
  refine wp_bind.mpr (wp_getMem ?_)
  rw [if_neg (Nat.not_lt.mpr (Nat.le_of_lt direct)), if_pos hole]
  refine wp_bind.mpr (wp_mono (balloc_resting rfl (quiet.resting 1) (fun _ _ => quiet.resting _)
    roomy) (fun b e allocated => absurd allocated.2 (never e.disk)) (fun reason full => ?_))
  rcases open_ with ⟨b, low, free⟩
  have set_ := full.2 b low
  rw [free] at set_
  exact nomatch set_

theorem lookupFrom_hole {post : Option (Nat × Nat) -> Device BSIZE Kernel -> Prop} {last : Nat}
    (quiet : Quiet d) (space : 0 < limits.capacity) (never : forall disk, ¬ limits.room disk)
    (direct : last < NDIRECT) (promised : last * BSIZE < (d.mem.icache dp).copy.logical_size)
    (present : forall q, q < last -> addressOf d.disk (d.mem.icache dp).copy q ≠ 0)
    (hole : (d.mem.icache dp).copy.addrs last = 0)
    (unnamed : forall k, k / 32 < last -> ¬ IsNamed d.disk (d.mem.icache dp).copy (charsOf name) k)
    (open_ : Exists fun b =>
      b < scanned (superblock (d.disk 1)) ∧ used (superblock (d.disk 1)) d.disk b = false)
    (fuel : Nat) :
    forall {q : Nat}, q ≤ last -> last < q + fuel ->
      (lookupFrom dp (charsOf name) fuel (q * BSIZE)).wp limits post escape d := by
  have largest : NDIRECT < MAXFILE := by decide
  induction fuel with
  | zero =>
      intro q low high
      omega
  | succ fuel ih =>
      intro q low high
      rcases Nat.lt_or_eq_of_le low with earlier | rfl
      · have more : q * BSIZE < (d.mem.icache dp).copy.logical_size :=
          Nat.lt_of_le_of_lt (Nat.mul_le_mul_right _ low) promised
        exact lookupFrom_skip quiet space more (by omega) (present q earlier)
          (fun k block => unnamed k (by omega)) (ih earlier (by omega))
      · rw [lookupFrom]
        refine wp_bind.mpr (wp_getMem ?_)
        rw [if_pos promised, Nat.mul_div_cancel q (show 0 < BSIZE by decide)]
        exact wp_bind.mpr (bmap_hole quiet space never direct hole open_)

/-- Whoever looks for a name that is not in a directory whose entries fill its blocks
comes to a hole. -/
theorem DirOf.dirlookup_hole {post : Option (Nat × Nat) -> Device BSIZE Kernel -> Prop}
    (quiet : Quiet d) (space : 0 < limits.capacity) (never : forall disk, ¬ limits.room disk)
    (dir : DirOf d.disk (d.mem.icache dp).copy entries) (missing : lookupEntry entries name = none)
    (full : entries.length % 32 = 0)
    (open_ : Exists fun b =>
      b < scanned (superblock (d.disk 1)) ∧ used (superblock (d.disk 1)) d.disk b = false) :
    (dirlookup dp (charsOf name)).wp limits post escape d := by
  have size := dir.size
  have blocks : direntSize * entries.length = entries.length / 32 * BSIZE := by
    simp only [direntSize, BSIZE]
    omega
  rw [blocks, Nat.mul_div_cancel _ (show 0 < BSIZE by decide)] at size
  have inside : forall q, q < entries.length / 32 -> q * BSIZE < direntSize * entries.length := by
    intro q below
    rw [blocks]
    exact Nat.mul_lt_mul_of_pos_right below (by decide)
  unfold dirlookup
  refine wp_bind.mpr (wp_getMem ?_)
  rw [if_neg (fun notDir => notDir dir.type), size, Nat.mul_div_cancel _ (show 0 < BSIZE by decide),
    ← Nat.zero_mul BSIZE]
  refine lookupFrom_hole quiet space never dir.short ?_
    (fun q below => dir.present q (inside q below)) (dir.hole full)
    (fun k low => dir.missing missing (inside _ low)) open_ _ (Nat.zero_le _) (by omega)
  rw [size]
  exact Nat.mul_lt_mul_of_pos_right (Nat.lt_succ_self _) (by decide)

end Lookup

/-! ## Walking along a path -/

/-- The cache of inodes over a disk: an entry that somebody refers to belongs to an inode
below `bound`, nobody holds it, and its copy is that of the disk. -/
def CacheOf (disk : Nat -> Block) (bound : Nat) (k : Kernel) : Prop :=
  forall i, 0 < (k.icache i).ref -> (k.icache i).busy = false ∧
    0 < (k.icache i).inum ∧ (k.icache i).inum < bound ∧
    ((k.icache i).valid = true -> (k.icache i).copy = diskInode disk (k.icache i).inum)

/-- There is one more reference, to `ip`, and nothing that was referred to has left the
cache. -/
structure Holding (before after : Kernel) (ip : Nat) : Prop where
  refs : forall i, (after.icache i).ref = (before.icache i).ref + if i = ip then 1 else 0
  kept : forall i, 0 < (before.icache i).ref -> (after.icache i).inum = (before.icache i).inum ∧
    ((before.icache i).valid = true -> (after.icache i).valid = true)

/-- Two entries of the cache that nobody refers to. -/
def TwoFree (k : Kernel) : Prop := Exists fun i => Exists fun j => i ≠ j ∧ i < NINODE ∧ j < NINODE ∧
  (k.icache i).ref = 0 ∧ (k.icache j).ref = 0

section Cache

variable {disk : Nat -> Block} {bound ip next inum : Nat} {before k : Kernel}

theorem TwoFree.slotFree (two : TwoFree before) (holding : Holding before k ip) : SlotFree k := by
  rcases two with ⟨i, j, different, inside, insideToo, idle, idleToo⟩
  by_cases here : i = ip
  · refine ⟨j, insideToo, ?_⟩
    rw [holding.refs, idleToo, if_neg (fun same => different (here.trans same.symm))]
  · refine ⟨i, inside, ?_⟩
    rw [holding.refs, idle, if_neg here]

/-- The entry that `iget` returns for an inode. -/
theorem CacheOf.gotten (cache : CacheOf disk bound k) (positive : 0 < inum) (below : inum < bound) :
    CacheOf disk bound (k.adjust next (Inode.gotten inum)) := by
  intro i referred
  by_cases here : i = next
  · rw [here, Kernel.adjust_self] at referred ⊢
    unfold Inode.gotten at referred ⊢
    split
    · rename_i held
      exact cache next held
    · exact ⟨rfl, positive, below, nofun⟩
  · rw [Kernel.adjust_of_ne _ here] at referred ⊢
    exact cache i referred

theorem inum_gotten (found : k.find inum = some next) :
    ((k.adjust next (Inode.gotten inum)).icache next).inum = inum := by
  rw [Kernel.adjust_self]
  unfold Inode.gotten
  split
  · rename_i held
    rcases (Kernel.find_spec found).2 with ⟨_, same⟩ | idle
    · exact same
    · omega
  · rfl

theorem Holding.gotten : Holding k (k.adjust next (Inode.gotten inum)) next := by
  refine ⟨fun i => ?_, fun i referred => ?_⟩
  · by_cases here : i = next
    · rw [here, Kernel.adjust_self, if_pos rfl]
      unfold Inode.gotten
      split
      · rfl
      · rename_i idle
        show 1 = (k.icache next).ref + 1
        omega
    · rw [Kernel.adjust_of_ne _ here, if_neg here]
      rfl
  · by_cases here : i = next
    · rw [here] at referred ⊢
      rw [Kernel.adjust_self]
      unfold Inode.gotten
      rw [if_pos referred]
      exact ⟨rfl, id⟩
    · rw [Kernel.adjust_of_ne _ here]
      exact ⟨rfl, id⟩

/-- Which entry `iget` takes depends on the references and the numbers only. -/
theorem Kernel.find_congr {other : Kernel}
    (same : forall i,
      (other.icache i).ref = (k.icache i).ref ∧ (other.icache i).inum = (k.icache i).inum) :
    other.find inum = k.find inum := by
  unfold Kernel.find
  simp only [(same _).1, (same _).2]

/-- After `ilock` and `iunlock`. -/
theorem CacheOf.read (cache : CacheOf disk bound k) :
    CacheOf disk bound (k.adjust ip (Inode.unlocked ∘ Inode.locked disk)) := by
  intro i referred
  by_cases here : i = ip
  · rw [here, Kernel.adjust_self] at referred ⊢
    have old := cache ip referred
    refine ⟨rfl, old.2.1, old.2.2.1, fun _ => ?_⟩
    show (if (k.icache ip).valid then (k.icache ip).copy else diskInode disk (k.icache ip).inum) =
      diskInode disk (k.icache ip).inum
    split
    · rename_i valid
      exact old.2.2.2 valid
    · rfl
  · rw [Kernel.adjust_of_ne _ here] at referred ⊢
    exact cache i referred

theorem Holding.read (holding : Holding before k ip) :
    Holding before (k.adjust ip (Inode.unlocked ∘ Inode.locked disk)) ip := by
  refine ⟨fun i => ?_, fun i referred => ?_⟩
  · by_cases here : i = ip
    · rw [here, Kernel.adjust_self]
      have refs := holding.refs ip
      exact refs
    · rw [Kernel.adjust_of_ne _ here]
      exact holding.refs i
  · by_cases here : i = ip
    · rw [here] at referred ⊢
      rw [Kernel.adjust_self]
      exact ⟨(holding.kept ip referred).1, fun _ => rfl⟩
    · rw [Kernel.adjust_of_ne _ here]
      exact holding.kept i referred

theorem CacheOf.put (cache : CacheOf disk bound k) :
    CacheOf disk bound (k.adjust ip Inode.put) := by
  intro i referred
  by_cases here : i = ip
  · rw [here, Kernel.adjust_self] at referred ⊢
    have still : 0 < (k.icache ip).ref := Nat.lt_of_lt_of_le referred (Nat.sub_le _ _)
    exact cache ip still
  · rw [Kernel.adjust_of_ne _ here] at referred ⊢
    exact cache i referred

/-- `iget` for the next inode and `iput` for the one before. -/
theorem Holding.pass (holding : Holding before k ip) :
    Holding before ((k.adjust next (Inode.gotten inum)).adjust ip Inode.put) next := by
  have referred : 0 < (k.icache ip).ref := by
    rw [holding.refs, if_pos rfl]
    exact Nat.succ_pos _
  by_cases same : ip = next
  · have back : (k.adjust next (Inode.gotten inum)).adjust ip Inode.put = k := by
      rw [same, Kernel.adjust_adjust]
      refine Kernel.adjust_same ?_
      rw [Function.comp_apply, Inode.put_gotten (same ▸ referred)]
    rw [back, ← same]
    exact holding
  · have got := @Holding.gotten next inum k
    have apart : (k.adjust next (Inode.gotten inum)).icache ip = k.icache ip :=
      Kernel.adjust_of_ne _ same
    refine ⟨fun i => ?_, fun i old => ?_⟩
    · have refs := got.refs i
      have before_ := holding.refs i
      by_cases here : i = ip
      · rw [here] at before_ ⊢
        rw [if_pos rfl] at before_
        rw [Kernel.adjust_self, apart, if_neg same]
        show (k.icache ip).ref - 1 = _
        omega
      · rw [if_neg here] at before_
        rw [Kernel.adjust_of_ne _ here, refs, before_]
        rfl
    · have kept := holding.kept i old
      have still : 0 < (k.icache i).ref := by
        rw [holding.refs]
        omega
      by_cases here : i = ip
      · rw [here] at kept ⊢
        rw [Kernel.adjust_self, apart]
        exact kept
      · rw [Kernel.adjust_of_ne _ here]
        have keptToo := got.kept i still
        exact ⟨keptToo.1.trans kept.1, fun valid => keptToo.2 (kept.2 valid)⟩

/-- Unlocking after `iget` is the same as before. -/
theorem Kernel.unlock_gotten (referred : 0 < (k.icache ip).ref) :
    ((k.adjust ip (Inode.locked disk)).adjust next (Inode.gotten inum)).adjust ip Inode.unlocked =
      (k.adjust ip (Inode.unlocked ∘ Inode.locked disk)).adjust next (Inode.gotten inum) := by
  by_cases same : ip = next
  · rw [← same, Kernel.adjust_adjust, Kernel.adjust_adjust, Kernel.adjust_adjust]
    refine Kernel.adjust_congr ?_
    have locked : 0 < (Inode.locked disk (k.icache ip)).ref := referred
    have unlocked : 0 < (Inode.locked disk (k.icache ip)).unlocked.ref := referred
    simp only [Function.comp_apply, Inode.gotten, if_pos locked, if_pos unlocked]
    rfl
  · have order : next ≠ ip := fun equal => same equal.symm
    simp only [Kernel.adjust, Function.update_self, Function.update_of_ne order,
      Function.update_of_ne same, Function.update_comm order, Function.update_idem,
      Function.comp_apply]

end Cache

section Walk

variable {limits : Limits BSIZE} {d : Device BSIZE Kernel} {ip bound : Nat} {disk : Nat -> Block}
  {before : Kernel} {tree : List (Nat × Entries)} {post : Unit -> Device BSIZE Kernel -> Prop}
  {escape : Stop FsPanic -> Prop}

open BlockProgram

/-- On the way of `namex`: `ip` is the inode that has been reached. -/
structure Browsing (disk : Nat -> Block) (bound : Nat) (before : Kernel) (ip : Nat)
    (d : Device BSIZE Kernel) : Prop where
  quiet : Quiet d
  sameDisk : d.disk = disk
  cache : CacheOf disk bound d.mem
  holding : Holding before d.mem ip

/-- `namex` is back: the disk is as before, and what was in the cache still is. -/
structure Browsed (disk : Nat -> Block) (bound : Nat) (before : Kernel) (d : Device BSIZE Kernel) :
    Prop where
  sameDisk : d.disk = disk
  cache : CacheOf disk bound d.mem
  kept : forall i, 0 < (before.icache i).ref -> 0 < (d.mem.icache i).ref ∧ (d.mem.icache i).inum =
    (before.icache i).inum ∧ ((before.icache i).valid = true -> (d.mem.icache i).valid = true)

theorem Browsing.referred (browsing : Browsing disk bound before ip d) :
    0 < (d.mem.icache ip).ref := by
  rw [browsing.holding.refs, if_pos rfl]
  exact Nat.succ_pos _

theorem Browsing.browsed (browsing : Browsing disk bound before ip d) :
    Browsed disk bound before d := by
  refine ⟨browsing.sameDisk, browsing.cache,
    fun i referred => ⟨?_, browsing.holding.kept i referred⟩⟩
  rw [browsing.holding.refs]
  omega

/-- The state after `ilock`. -/
def lockedAt (disk : Nat -> Block) (ip : Nat) (d : Device BSIZE Kernel) : Device BSIZE Kernel :=
  d.withMem (d.mem.adjust ip (Inode.locked disk))

theorem Browsing.copy (browsing : Browsing disk bound before ip d) :
    ((lockedAt disk ip d).mem.icache ip).copy = diskInode disk (d.mem.icache ip).inum := by
  show ((d.mem.adjust ip (Inode.locked disk)).icache ip).copy = _
  rw [Kernel.adjust_self]
  show (if (d.mem.icache ip).valid then (d.mem.icache ip).copy
    else diskInode disk (d.mem.icache ip).inum) = _
  split
  · rename_i valid
    exact (browsing.cache ip browsing.referred).2.2.2 valid
  · rfl

theorem Browsing.ilock (known : KnownTree disk tree bound)
    (browsing : Browsing disk bound before ip d) (space : 0 < limits.capacity)
    (holds : post () (lockedAt disk ip d)) : (ilock ip).Reads limits post escape d := by
  have facts := browsing.cache ip browsing.referred
  refine ilock_reads browsing.quiet space browsing.referred facts.1 (fun _ none_ => ?_) ?_
  · rw [browsing.sameDisk] at none_
    exact absurd none_ (known.linked _ facts.2.1 facts.2.2.1).1
  · rw [browsing.sameDisk]
    exact holds

/-- No inode of the tree is discarded. -/
theorem KnownTree.stays {k : Kernel} (known : KnownTree disk tree bound)
    (cache : CacheOf disk bound k) :
    ¬ ((k.icache ip).ref = 1 ∧ (k.icache ip).valid = true ∧ (k.icache ip).copy.nlink = 0) := by
  rintro ⟨one, valid, noLinks⟩
  have facts := cache ip (by omega)
  rw [facts.2.2.2 valid] at noLinks
  exact (known.linked _ facts.2.1 facts.2.2.1).2 noLinks

/-- `iunlockput` without another reference: what is left of the walk. -/
theorem Browsing.leave (known : KnownTree disk tree bound)
    (browsing : Browsing disk bound before ip d)
    (holds : forall e, Browsed disk bound before e -> post () e) :
    (iunlockput ip).Reads limits post escape (lockedAt disk ip d) := by
  have entry : (lockedAt disk ip d).mem.icache ip = Inode.locked disk (d.mem.icache ip) :=
    Kernel.adjust_self _
  have read := @CacheOf.read disk bound ip d.mem browsing.cache
  refine iunlockput_reads ?_ ?_ (Kernel.adjust_adjust _ _) (known.stays read)
    (holds _ ⟨browsing.sameDisk, read.put, fun i old => ?_⟩)
  · rw [entry]
    rfl
  · rw [entry]
    exact browsing.referred
  · have holding := @Holding.read disk ip before d.mem browsing.holding
    have refs := holding.refs i
    have kept := holding.kept i old
    simp only [Device.withMem]
    by_cases here : i = ip
    · rw [here] at refs kept old ⊢
      rw [if_pos rfl] at refs
      rw [@Kernel.adjust_self _ ip Inode.put]
      refine ⟨?_, kept⟩
      show 0 < _ - 1
      omega
    · rw [if_neg here] at refs
      rw [@Kernel.adjust_of_ne _ ip Inode.put _ here]
      exact ⟨by omega, kept⟩

/-- `iunlockput` after `dirlookup` has got the next inode. -/
theorem Browsing.pass {next inum : Nat} (known : KnownTree disk tree bound)
    (browsing : Browsing disk bound before ip d)
    (found : (lockedAt disk ip d).mem.find inum = some next)
    (positive : 0 < inum) (below : inum < bound) (holds : forall e,
      Browsing disk bound before next e -> (e.mem.icache next).inum = inum -> post () e) :
    (iunlockput ip).Reads limits post escape ((lockedAt disk ip d).withMem
      ((lockedAt disk ip d).mem.adjust next (Inode.gotten inum))) := by
  have entry : (lockedAt disk ip d).mem.icache ip = Inode.locked disk (d.mem.icache ip) :=
    Kernel.adjust_self _
  have referred : 0 < (Inode.locked disk (d.mem.icache ip)).ref := browsing.referred
  have got : ((lockedAt disk ip d).mem.adjust next (Inode.gotten inum)).icache ip =
        Inode.locked disk (d.mem.icache ip) ∨
      ((lockedAt disk ip d).mem.adjust next (Inode.gotten inum)).icache ip =
        { Inode.locked disk (d.mem.icache ip) with ref := (d.mem.icache ip).ref + 1 } := by
    by_cases here : ip = next
    · rw [← here, Kernel.adjust_self, entry]
      exact Or.inr (if_pos referred)
    · rw [Kernel.adjust_of_ne _ here, entry]
      exact Or.inl rfl
  -- The memory in between is that after reading the inode and `iget`.
  have foundToo : (d.mem.adjust ip (Inode.unlocked ∘ Inode.locked disk)).find inum = some next := by
    rw [← found]
    refine Kernel.find_congr (fun i => ?_)
    by_cases here : i = ip
    · rw [here, entry, Kernel.adjust_self]
      exact ⟨rfl, rfl⟩
    · rw [Kernel.adjust_of_ne _ here]
      show _ = ((d.mem.adjust ip (Inode.locked disk)).icache i).ref ∧
        _ = ((d.mem.adjust ip (Inode.locked disk)).icache i).inum
      rw [Kernel.adjust_of_ne _ here]
      exact ⟨rfl, rfl⟩
  have read := @CacheOf.gotten disk bound next inum _
      (@CacheOf.read disk bound ip d.mem browsing.cache) positive below
  have number := inum_gotten foundToo
  refine iunlockput_reads ?_ ?_ (Kernel.unlock_gotten browsing.referred) (known.stays read)
    (holds _ ⟨browsing.quiet.withMem _, browsing.sameDisk, read.put, browsing.holding.read.pass⟩ ?_)
  · rcases got with same | same
    · exact (congrArg Inode.busy same).trans rfl
    · exact (congrArg Inode.busy same).trans rfl
  · rcases got with same | same
    · exact Nat.lt_of_lt_of_eq referred (congrArg Inode.ref same).symm
    · exact Nat.lt_of_lt_of_eq (Nat.succ_pos _) (congrArg Inode.ref same).symm
  · refine Eq.trans ?_ number
    simp only [Device.withMem]
    by_cases here : next = ip
    · rw [here, Kernel.adjust_self]
      rfl
    · rw [@Kernel.adjust_of_ne _ ip Inode.put _ here]

/-- What is known of the directory that has been reached. -/
theorem Browsing.dir {entries : Entries} (known : KnownTree disk tree bound)
    (browsing : Browsing disk bound before ip d)
    (listed : tree.lookup (d.mem.icache ip).inum = some entries) :
    DirOf (lockedAt disk ip d).disk ((lockedAt disk ip d).mem.icache ip).copy entries := by
  rw [browsing.copy]
  have same : (lockedAt disk ip d).disk = disk := browsing.sameDisk
  rw [same]
  exact known.dirs _ _ listed

theorem Browsing.isDir (known : KnownTree disk tree bound)
    (browsing : Browsing disk bound before ip d) :
    ((lockedAt disk ip d).mem.icache ip).copy.type = T_DIR ↔
      Exists fun entries => tree.lookup (d.mem.icache ip).inum = some entries := by
  have facts := browsing.cache ip browsing.referred
  constructor
  · intro isDir
    rw [browsing.copy] at isDir
    cases listed : tree.lookup (d.mem.icache ip).inum with
    | none => exact absurd isDir (known.others _ facts.2.1 facts.2.2.1 listed)
    | some entries => exact ⟨entries, rfl⟩
  · rintro ⟨entries, listed⟩
    exact (browsing.dir known listed).type

theorem Browsing.free (browsing : Browsing disk bound before ip d) (two : TwoFree before) :
    SlotFree (lockedAt disk ip d).mem :=
  (two.slotFree browsing.holding).adjust id

/-- If no directory on the way has a hole where the name is missing, `namex` reads only. -/
theorem namexFrom_reads (known : KnownTree disk tree bound) (space : 0 < limits.capacity)
    (full : ¬ TwoFree before -> escape (.panic .igetNoInodes)) (fuel : Nat) :
    forall {ip : Nat} {path name : List UInt8} {d : Device BSIZE Kernel},
      Browsing disk bound before ip d -> meetsHole tree fuel (d.mem.icache ip).inum path = false ->
      (namexFrom false fuel ip path name).Reads limits (fun _ e => Browsed disk bound before e)
        escape d := by
  induction fuel with
  | zero => exact fun browsing _ => reads_pure browsing.browsed
  | succ fuel ih =>
      intro ip path name d browsing clear
      rw [namexFrom]
      rw [meetsHole] at clear
      cases element : skipelem path with
      | none => exact reads_pure browsing.browsed
      | some parts =>
          rcases parts with ⟨name, path⟩
          rw [element] at clear
          refine reads_bind (browsing.ilock known space ?_)
          refine reads_bind (reads_getMem ?_)
          by_cases isDir : ((lockedAt disk ip d).mem.icache ip).copy.type = T_DIR
          · rcases (browsing.isDir known).mp isDir with ⟨entries, listed⟩
            have dir := browsing.dir known listed
            have closed := known.closed _ _ listed
            simp only [listed] at clear
            rw [if_neg (fun other => other isDir),
              if_neg (fun both => absurd both.1 Bool.false_ne_true)]
            refine reads_seq (dir.dirlookup_reads (browsing.quiet.withMem _) space
              (fun entry member => (closed entry member).1) (fun missing => ?_)
              (fun inum _ none_ => full (fun two => (browsing.free two).find inum none_))) ?_
            · rw [missing] at clear
              exact of_decide_eq_false clear
            · rintro result e (⟨_, rfl, rfl⟩ | ⟨inum, next, off, present, rfl, found, rfl⟩)
              · exact reads_bind (browsing.leave known (fun e browsed => reads_pure browsed))
              · have range : 0 < inum ∧ inum < bound := by
                  unfold lookupEntry at present
                  rcases Option.map_eq_some_iff.mp present with ⟨entry, first, rfl⟩
                  exact closed entry (List.mem_of_find?_eq_some first)
                simp only [present] at clear
                refine reads_bind (browsing.pass known found range.1 range.2
                  (fun e goesOn number => ?_))
                exact ih goesOn (number.symm ▸ clear)
          · rw [if_pos isDir]
            exact reads_bind (browsing.leave known (fun e browsed => reads_pure browsed))

/-- Otherwise it writes the disk. -/
theorem namexFrom_hole {post : Option (Nat × List UInt8) -> Device BSIZE Kernel -> Prop}
    (known : KnownTree disk tree bound) (space : 0 < limits.capacity) (two : TwoFree before)
    (never : forall disk, ¬ limits.room disk) (fuel : Nat) :
    forall {ip : Nat} {path name : List UInt8} {d : Device BSIZE Kernel},
      Browsing disk bound before ip d -> meetsHole tree fuel (d.mem.icache ip).inum path = true ->
      (namexFrom false fuel ip path name).wp limits post escape d := by
  induction fuel with
  | zero => exact fun _ meets => nomatch meets
  | succ fuel ih =>
      intro ip path name d browsing meets
      rw [namexFrom]
      rw [meetsHole] at meets
      cases element : skipelem path with
      | none =>
          rw [element] at meets
          exact nomatch meets
      | some parts =>
          rcases parts with ⟨name, path⟩
          rw [element] at meets
          refine wp_bind.mpr (browsing.ilock known space ?_).wp
          refine wp_bind.mpr (wp_getMem ?_)
          cases listed : tree.lookup (d.mem.icache ip).inum with
          | none =>
              simp only [listed] at meets
              exact nomatch meets
          | some entries =>
              have dir := browsing.dir known listed
              have closed := known.closed _ _ listed
              have isDir := (browsing.isDir known).mpr ⟨entries, listed⟩
              simp only [listed] at meets
              rw [if_neg (fun other => other isDir),
                if_neg (fun both => absurd both.1 Bool.false_ne_true)]
              cases missing : lookupEntry entries name with
              | none =>
                  simp only [missing] at meets
                  have sameDisk : (lockedAt disk ip d).disk = disk := browsing.sameDisk
                  exact wp_bind.mpr (dir.dirlookup_hole (browsing.quiet.withMem _) space never
                    missing (of_decide_eq_true meets) (sameDisk.symm ▸ known.open_))
              | some inum =>
                  simp only [missing] at meets
                  refine wp_seq (dir.dirlookup_reads (browsing.quiet.withMem _) space
                    (fun entry member => (closed entry member).1) (fun none_ => ?_)
                    (fun inum _ none_ => absurd none_ ((browsing.free two).find inum))).wp ?_
                  · rw [missing] at none_
                    exact nomatch none_
                  · rintro result e (⟨none_, _, _⟩ | ⟨inum, next, off, present, rfl, found, rfl⟩)
                    · rw [missing] at none_
                      exact nomatch none_
                    · have range : 0 < inum ∧ inum < bound := by
                        unfold lookupEntry at present
                        rcases Option.map_eq_some_iff.mp present with ⟨entry, first, rfl⟩
                        exact closed entry (List.mem_of_find?_eq_some first)
                      rw [present] at missing
                      rw [← Option.some.inj missing] at meets
                      refine wp_bind.mpr (browsing.pass known found range.1 range.2
                        (fun e goesOn number => ?_)).wp
                      exact ih goesOn (number.symm ▸ meets)

/-- The inode where a path starts. -/
def startInode (k : Kernel) (cwd : Nat) (path : List UInt8) : Nat :=
  if path.head? = some slash then ROOTINO else (k.icache cwd).inum

theorem TwoFree.slotFree_self {k : Kernel} (two : TwoFree k) : SlotFree k := by
  rcases two with ⟨i, _, _, inside, _, idle, _⟩
  exact ⟨i, inside, idle⟩

/-- The first step of `namex`. -/
theorem start_reads {cwd : Nat} (known : KnownTree disk tree bound) (quiet : Quiet d)
    (sameDisk : d.disk = disk) (cache : CacheOf disk bound d.mem)
    (referred : 0 < (d.mem.icache cwd).ref)
    (full : ¬ TwoFree d.mem -> escape (.panic .igetNoInodes)) (path : List UInt8) :
    (if path.head? = some slash then iget ROOTINO else idup cwd).Reads limits
      (fun ip e =>
        Browsing disk bound d.mem ip e ∧ (e.mem.icache ip).inum = startInode d.mem cwd path)
      escape d := by
  unfold startInode
  split
  · refine (iget_reads (fun none_ => full (fun two => two.slotFree_self.find ROOTINO none_))).mono
      ?_ (fun _ stopped => stopped)
    rintro ip e ⟨found, rfl⟩
    exact ⟨⟨quiet.withMem _, sameDisk, cache.gotten (by decide) known.root, Holding.gotten⟩,
      inum_gotten found⟩
  · refine idup_reads.mono ?_ (fun _ stopped => stopped)
    rintro ip e ⟨rfl, rfl⟩
    -- Another reference to an entry that is there is what `iget` would have taken.
    have same := @Kernel.adjust_congr ip d.mem (fun e => { e with ref := e.ref + 1 })
      (Inode.gotten (d.mem.icache ip).inum) (if_pos referred).symm
    have facts := cache ip referred
    rw [same]
    refine ⟨⟨quiet.withMem _, sameDisk, cache.gotten facts.2.1 facts.2.2.1, Holding.gotten⟩, ?_⟩
    have entry : (d.mem.adjust ip (Inode.gotten (d.mem.icache ip).inum)).icache ip =
        Inode.gotten (d.mem.icache ip).inum (d.mem.icache ip) := Kernel.adjust_self _
    refine (congrArg Inode.inum entry).trans ?_
    unfold Inode.gotten
    rw [if_pos referred]

theorem namei_reads {cwd : Nat} {path : List UInt8} (known : KnownTree disk tree bound)
    (space : 0 < limits.capacity) (quiet : Quiet d) (sameDisk : d.disk = disk)
    (cache : CacheOf disk bound d.mem) (referred : 0 < (d.mem.icache cwd).ref)
    (full : ¬ TwoFree d.mem -> escape (.panic .igetNoInodes))
    (clear : meetsHole tree (path.length + 1) (startInode d.mem cwd path) path = false) :
    (namei cwd path).Reads limits (fun _ e => Browsed disk bound d.mem e) escape d := by
  unfold namei
  rw [namex_eq]
  refine reads_bind (reads_seq (start_reads known quiet sameDisk cache referred full path) ?_)
  rintro ip e ⟨browsing, number⟩
  exact (namexFrom_reads known space full _ browsing (number.symm ▸ clear)).mono
    (fun _ _ browsed => reads_pure browsed) (fun _ stopped => stopped)

theorem namei_hole {cwd : Nat} {path : List UInt8}
    {post : Option Nat -> Device BSIZE Kernel -> Prop} (known : KnownTree disk tree bound)
    (space : 0 < limits.capacity) (quiet : Quiet d) (sameDisk : d.disk = disk)
    (cache : CacheOf disk bound d.mem) (referred : 0 < (d.mem.icache cwd).ref) (two : TwoFree d.mem)
    (never : forall disk, ¬ limits.room disk)
    (meets : meetsHole tree (path.length + 1) (startInode d.mem cwd path) path = true) :
    (namei cwd path).wp limits post escape d := by
  unfold namei
  rw [namex_eq]
  refine wp_bind.mpr (wp_seq
    (start_reads known quiet sameDisk cache referred (fun none_ => absurd two none_) path).wp ?_)
  rintro ip e ⟨browsing, number⟩
  exact namexFrom_hole known space two never _ browsing (number.symm ▸ meets)

end Walk

end TripleFs
end OsProjects
