import OsProjects.TripleFs.MirroredRead
import OsProjects.TripleFs.References

namespace OsProjects
namespace TripleFs

open Machine

/-!
# Directories and paths

A directory is a file of entries of 16 bytes: the number of an inode, which is zero in an
entry that is not in use, and a name of up to 14 bytes, which ends with a NUL byte only if
it is shorter.  `dirlookup` looks at whole blocks, `dirlink` and `isdirempty` at one entry
after the other.
-/

def DIRSIZ : Nat := 14

/-- The size of `struct dirent`. -/
def direntSize : Nat := 16

/-! ## Names -/

def namecmp (s t : Nat -> UInt8) : Int := strncmp s t DIRSIZ 0

/-- `strncpy` of `n` bytes from position `i` on. -/
def strncpy (t : Nat -> UInt8) : Nat -> Nat -> List UInt8
  | 0, _ => []
  | n + 1, i => t i :: (if t i = 0 then List.replicate n 0 else strncpy t n (i + 1))

/-- A name as an entry stores it. -/
def nameKey (name : Nat -> UInt8) : List UInt8 := strncpy name DIRSIZ 0

/-- The bytes of an entry. -/
def dirent (inum : Nat) (name : Nat -> UInt8) : List UInt8 :=
  [UInt8.ofNat inum, UInt8.ofNat (inum / 256)] ++ nameKey name

/-! ## Entries -/

/-- The loop of `dirlookup` over the entries of a block. -/
def scanEntries (name : Nat -> UInt8) (data : Block) : Nat -> Nat -> Option Nat
  | 0, _ => none
  | count + 1, de =>
      if data.number de 2 = 0 then scanEntries name data count (de + direntSize)
      else if namecmp name (fun i => data.get (de + 2 + i)) = 0 then some de
      else scanEntries name data count (de + direntSize)

/-- The loop of `dirlookup` over the blocks.  The result is the inode and `*poff`. -/
def lookupFrom (dp : Nat) (name : Nat -> UInt8) : Nat -> Nat -> Fs (Option (Nat × Nat))
  | 0, _ => pure none
  | fuel + 1, off => do
      let e <- getInode dp
      if off < e.copy.logical_size then do
        let addr <- bmap dp (off / BSIZE)
        bread addr
        let data <- look addr
        match scanEntries name data (BSIZE / direntSize) 0 with
        | some de => do
            brelse addr
            let ip <- iget (data.number de 2)
            pure (some (ip, off + de))
        | none => do
            brelse addr
            lookupFrom dp name fuel (off + BSIZE)
      else pure none

/-- Look for a directory entry in a directory. -/
def dirlookup (dp : Nat) (name : Nat -> UInt8) : Fs (Option (Nat × Nat)) := do
  let e <- getInode dp
  if e.copy.type ≠ T_DIR then stop .dirlookupNotDir
  else lookupFrom dp name (e.copy.logical_size / BSIZE + 1) 0

/-- The inode number in the bytes of an entry. -/
def direntInum (de : List UInt8) : Nat := (de.getD 0 0).toNat + 256 * (de.getD 1 0).toNat

/-- The loop of `dirlink` that looks for an empty entry. -/
def emptyFrom (devsw : Devsw) (behind : Nat -> Nat -> UInt8) (dp : Nat) : Nat -> Nat -> Fs Nat
  | 0, off => pure off
  | fuel + 1, off => do
      let e <- getInode dp
      if off < e.copy.logical_size then do
        let de <- readi devsw behind dp off direntSize
        if de.1 ≠ direntSize then stop .dirlinkRead
        else if direntInum de.2 = 0 then pure off
        else emptyFrom devsw behind dp fuel (off + direntSize)
      else pure off

/-- Write a new directory entry (name, inum) into the directory dp. -/
def dirlink (devsw : Devsw) (behind : Nat -> Nat -> UInt8) (dp : Nat) (name : Nat -> UInt8)
    (inum : Nat) : Fs Int := do
  match <- dirlookup dp name with
  | some (ip, _) => do
      iput ip
      pure (-1)
  | none => do
      let e <- getInode dp
      let off <- emptyFrom devsw behind dp (e.copy.logical_size / direntSize + 1) 0
      let n <- writei devsw dp (dirent inum name) off
      if n ≠ direntSize then stop .dirlink
      else pure 0

/-- The loop of `isdirempty`. -/
def isdiremptyFrom (devsw : Devsw) (behind : Nat -> Nat -> UInt8) (dp : Nat) : Nat -> Nat -> Fs Bool
  | 0, _ => pure true
  | fuel + 1, off => do
      let e <- getInode dp
      if off < e.copy.logical_size then do
        let de <- readi devsw behind dp off direntSize
        if de.1 ≠ direntSize then stop .isdirempty
        else if direntInum de.2 ≠ 0 then pure false
        else isdiremptyFrom devsw behind dp fuel (off + direntSize)
      else pure true

/-- Is the directory dp empty except for "." and ".."? -/
def isdirempty (devsw : Devsw) (behind : Nat -> Nat -> UInt8) (dp : Nat) : Fs Bool := do
  let e <- getInode dp
  isdiremptyFrom devsw behind dp (e.copy.logical_size / direntSize + 1) (2 * direntSize)

/-! ## Paths -/

/-- The character that separates the elements of a path. -/
def slash : UInt8 := 47

/-- Copy the next path element from path into name: the name and the rest without leading
slashes.  What an earlier element has left behind the end of a shorter name is not
represented; nothing looks at it. -/
def skipelem (path : List UInt8) : Option (List UInt8 × List UInt8) :=
  match path.dropWhile (· == slash) with
  | [] => none
  | c :: rest =>
      some (((c :: rest).takeWhile (· != slash)).take DIRSIZ,
        ((c :: rest).dropWhile (· != slash)).dropWhile (· == slash))

/-- A string in memory. -/
def charsOf (s : List UInt8) (i : Nat) : UInt8 := s.getD i 0

/-- The loop of `namex` from the inode `ip` on. -/
def namexFrom (parent : Bool) : Nat -> Nat -> List UInt8 -> List UInt8 ->
    Fs (Option (Nat × List UInt8))
  | 0, ip, _, name => pure (some (ip, name))
  | fuel + 1, ip, path, name =>
      match skipelem path with
      | none =>
          if parent then do
            iput ip
            pure none
          else pure (some (ip, name))
      | some (name, path) => do
          ilock ip
          let e <- getInode ip
          if e.copy.type ≠ T_DIR then do
            iunlockput ip
            pure none
          else if parent ∧ path = [] then do
            iunlock ip
            pure (some (ip, name))
          else do
            match <- dirlookup ip (charsOf name) with
            | none => do
                iunlockput ip
                pure none
            | some (next, _) => do
                iunlockput ip
                namexFrom parent fuel next path name

/-- Look up the inode for a path name, or the inode of its parent and the final path
element. -/
def namex (cwd : Nat) (path : List UInt8) (parent : Bool) : Fs (Option (Nat × List UInt8)) := do
  let ip <- if path.head? = some slash then iget ROOTINO else idup cwd
  namexFrom parent (path.length + 1) ip path []

theorem namex_eq (cwd : Nat) (path : List UInt8) (parent : Bool) : namex cwd path parent =
    (if path.head? = some slash then iget ROOTINO else idup cwd) >>= fun ip =>
      namexFrom parent (path.length + 1) ip path [] := by
  unfold namex
  split
  · rfl
  · rfl

def namei (cwd : Nat) (path : List UInt8) : Fs (Option Nat) := do
  let found <- namex cwd path false
  pure (found.map Prod.fst)

def nameiparent (cwd : Nat) (path : List UInt8) : Fs (Option (Nat × List UInt8)) :=
  namex cwd path true

/-! ## Names and what entries store of them -/

section Names

variable {s t : Nat -> UInt8} {n : Nat}

theorem length_strncpy : forall i, (strncpy t n i).length = n := by
  induction n with
  | zero => exact fun _ => rfl
  | succ n ih =>
      intro i
      rw [strncpy, List.length_cons]
      split
      · rw [List.length_replicate]
      · rw [ih]

theorem length_dirent (inum : Nat) (name : Nat -> UInt8) :
    (dirent inum name).length = direntSize := by
  unfold dirent nameKey
  rw [List.length_append, length_strncpy]
  rfl

/-- A byte behind a NUL byte is zero. -/
theorem getD_strncpy_after : forall {i k : Nat}, (Exists fun j => i ≤ j ∧ j < i + k ∧ t j = 0) ->
    (strncpy t n i).getD k 0 = 0 := by
  induction n with
  | zero => exact fun _ => rfl
  | succ n ih =>
      rintro i k ⟨j, lower, upper, zero⟩
      rw [strncpy]
      cases k with
      | zero => omega
      | succ k =>
          rw [List.getD_cons_succ]
          by_cases ended : t i = 0
          · rw [if_pos ended]
            by_cases below : k < n
            · exact List.getD_replicate _ below
            · exact List.getD_eq_default _ _ (by rw [List.length_replicate]; omega)
          · rw [if_neg ended]
            refine ih ⟨j, ?_, by omega, zero⟩
            by_contra first
            have here : j = i := by omega
            rw [here] at zero
            exact ended zero

/-- The others are copied. -/
theorem getD_strncpy : forall {i k : Nat}, k < n -> (forall j, i ≤ j -> j < i + k -> t j ≠ 0) ->
    (strncpy t n i).getD k 0 = t (i + k) := by
  induction n with
  | zero => exact fun below => absurd below (Nat.not_lt_zero _)
  | succ n ih =>
      intro i k below before
      rw [strncpy]
      cases k with
      | zero => rfl
      | succ k =>
          rw [List.getD_cons_succ, if_neg (before i (Nat.le_refl i) (by omega)),
            ih (by omega) (fun j lower upper => before j (by omega) (by omega))]
          congr 1
          omega

/-- What lies behind a NUL byte does not matter. -/
theorem nameKey_congr (same : forall k, k < DIRSIZ -> (forall j, j < k -> s j ≠ 0) -> s k = t k) :
    nameKey s = nameKey t := by
  refine List.ext_getElem (by rw [nameKey, nameKey, length_strncpy, length_strncpy])
    (fun k below belowToo => ?_)
  rw [← List.getD_eq_getElem _ 0 below, ← List.getD_eq_getElem _ 0 belowToo]
  rw [nameKey, length_strncpy] at below
  unfold nameKey
  by_cases ended : Exists fun j => j < k ∧ s j = 0
  · -- Both names end at the first NUL byte of one of them.
    rcases Nat.find_spec ended with ⟨upper, zero⟩
    have first : forall j, j < Nat.find ended -> s j ≠ 0 := fun j earlier nul =>
      Nat.find_min ended earlier ⟨by omega, nul⟩
    have zeroToo : t (Nat.find ended) = 0 := (same _ (by omega) first).symm.trans zero
    rw [getD_strncpy_after ⟨_, Nat.zero_le _, by omega, zero⟩,
      getD_strncpy_after ⟨_, Nat.zero_le _, by omega, zeroToo⟩]
  · have before : forall j, j < k -> s j ≠ 0 := fun j earlier nul => ended ⟨j, earlier, nul⟩
    rw [getD_strncpy below (fun j _ upper => before j (by omega)),
      getD_strncpy below (fun j _ upper => by
        rw [← same j (by omega) (fun i first => before i (by omega))]
        exact before j (by omega)), Nat.zero_add]
    exact same k below before

/-- Two names are equal exactly if entries store the same of them. -/
theorem namecmp_eq_zero : namecmp s t = 0 ↔ nameKey s = nameKey t := by
  have tells : ¬ namecmp s t = 0 ↔ TellsApart DIRSIZ s t := strncmp_iff
  rw [← not_iff_not, tells]
  constructor
  · rintro ⟨k, below, differs, before⟩ same
    have byte := congrArg (fun key => List.getD key k 0) same
    simp only [nameKey] at byte
    rw [getD_strncpy below (fun j _ upper => (before j (by omega)).2),
      getD_strncpy below (fun j _ upper => by
        have equal := before j (by omega)
        rw [← equal.1]
        exact equal.2), Nat.zero_add] at byte
    exact differs byte
  · intro differs
    by_contra alike
    refine differs (nameKey_congr (fun k => ?_))
    induction k using Nat.strong_induction_on with
    | _ k ih =>
        intro inside before
        by_contra different
        exact alike ⟨k, inside, different, fun j earlier =>
          ⟨ih j earlier (by omega) (fun i first => before i (by omega)), before j earlier⟩⟩

/-- Storing a name again changes nothing. -/
theorem nameKey_stored (name : Nat -> UInt8) : nameKey (charsOf (nameKey name)) = nameKey name := by
  refine (nameKey_congr (fun k below before => ?_)).symm
  unfold charsOf nameKey
  rw [getD_strncpy below (fun j _ upper => before j (by omega)), Nat.zero_add]

end Names

/-! ## Looking through a directory -/

/-- The inode number in an entry of a directory. -/
def inumAt (disk : Nat -> Block) (c : Dinode) (k : Nat) : Nat :=
  (disk (addressOf disk c (k / 32))).number (16 * (k % 32)) 2

/-- The name in an entry of a directory. -/
def nameAt (disk : Nat -> Block) (c : Dinode) (k i : Nat) : UInt8 :=
  (disk (addressOf disk c (k / 32))).get (16 * (k % 32) + 2 + i)

/-- The entry is in use and has this name. -/
def IsNamed (disk : Nat -> Block) (c : Dinode) (name : Nat -> UInt8) (k : Nat) : Prop :=
  inumAt disk c k ≠ 0 ∧ nameKey name = nameKey (nameAt disk c k)

/-- The same at a position in a block. -/
def NamedIn (name : Nat -> UInt8) (data : Block) (de : Nat) : Prop :=
  data.number de 2 ≠ 0 ∧ nameKey name = nameKey (fun i => data.get (de + 2 + i))

section Lookup

variable {limits : Limits BSIZE} {escape : Stop FsPanic -> Prop} {d : Device BSIZE Kernel}
  {dp inum : Nat} {name : Nat -> UInt8}

open BlockProgram

/-- The first entry of a block that is in use and has the name. -/
theorem scanEntries_spec {data : Block} (count : Nat) :
    forall {de : Nat},
      (scanEntries name data count de = none ∧
       forall i, i < count -> ¬ NamedIn name data (de + 16 * i)) ∨
      (Exists fun i =>
        i < count ∧ scanEntries name data count de = some (de + 16 * i) ∧
        NamedIn name data (de + 16 * i) ∧
        forall k, k < i -> ¬ NamedIn name data (de + 16 * k)) := by
  induction count with
  | zero => exact Or.inl ⟨rfl, fun i below => absurd below (Nat.not_lt_zero i)⟩
  | succ count ih =>
      intro de
      have next : forall i, de + 16 * (i + 1) = de + direntSize + 16 * i := by
        intro i
        simp only [direntSize]
        omega
      by_cases first : NamedIn name data de
      · refine Or.inr ⟨0, by omega, ?_, first, fun k earlier => absurd earlier (Nat.not_lt_zero k)⟩
        rw [scanEntries, if_neg first.1, if_pos (namecmp_eq_zero.mpr first.2)]
        rfl
      · have goes : scanEntries name data (count + 1) de = scanEntries name data count
            (de + direntSize) := by
          rw [scanEntries]
          by_cases unused : data.number de 2 = 0
          · exact if_pos unused
          · rw [if_neg unused, if_neg (fun same => first ⟨unused, namecmp_eq_zero.mp same⟩)]
        rw [goes]
        rcases @ih (de + direntSize) with ⟨missing, none_⟩ | ⟨i, below, found, here, before⟩
        · refine Or.inl ⟨missing, fun i below => ?_⟩
          cases i with
          | zero => exact first
          | succ i =>
              rw [next]
              exact none_ i (by omega)
        · refine Or.inr ⟨i + 1, by omega, ?_, ?_, fun k earlier => ?_⟩
          · rw [next]
            exact found
          · rw [next]
            exact here
          · cases k with
            | zero => exact first
            | succ k =>
                rw [next]
                exact before k (by omega)

/-- What `dirlookup` has done: it has looked at every entry in vain, or it has got the
inode of the first entry with the name. -/
def Looked (d : Device BSIZE Kernel) (dp : Nat) (name : Nat -> UInt8) (result : Option (Nat × Nat))
    (e : Device BSIZE Kernel) : Prop :=
  (result = none ∧ e = d ∧ forall k, 16 * k < (d.mem.icache dp).copy.logical_size ->
    ¬ IsNamed d.disk (d.mem.icache dp).copy name k) ∨
  Exists fun k => Exists fun ip => result = some (ip, 16 * k) ∧ k / 32 * BSIZE <
  (d.mem.icache dp).copy.logical_size ∧ IsNamed d.disk (d.mem.icache dp).copy name k ∧
  (forall j, j < k -> ¬ IsNamed d.disk (d.mem.icache dp).copy name j) ∧
  d.mem.find (inumAt d.disk (d.mem.icache dp).copy k) = some ip ∧
  e = d.withMem (d.mem.adjust ip (Inode.gotten (inumAt d.disk (d.mem.icache dp).copy k)))

/-- The loop of `dirlookup`, if each block that it comes to is there. -/
theorem lookupFrom_reads (quiet : Quiet d) (space : 0 < limits.capacity)
    (reach : forall q, q * BSIZE < (d.mem.icache dp).copy.logical_size ->
      (forall k, k < 32 * q -> ¬ IsNamed d.disk (d.mem.icache dp).copy name k) ->
      q < MAXFILE ∧ addressOf d.disk (d.mem.icache dp).copy q ≠ 0)
    (full : forall k, IsNamed d.disk (d.mem.icache dp).copy name k ->
      (forall j, j < k -> ¬ IsNamed d.disk (d.mem.icache dp).copy name j) ->
      k / 32 * BSIZE < (d.mem.icache dp).copy.logical_size ->
      d.mem.find (inumAt d.disk (d.mem.icache dp).copy k) = none -> escape (.panic .igetNoInodes))
    (fuel : Nat) :
    forall {q : Nat}, (d.mem.icache dp).copy.logical_size ≤ (q + fuel) * BSIZE ->
      (forall k, k < 32 * q -> ¬ IsNamed d.disk (d.mem.icache dp).copy name k) ->
      (lookupFrom dp name fuel (q * BSIZE)).Reads limits (Looked d dp name) escape d := by
  have roomy : d.busy < limits.capacity := by
    rw [quiet.idle]
    exact space
  have finished : forall {q : Nat}, (d.mem.icache dp).copy.logical_size ≤ q * BSIZE ->
      (forall k, k < 32 * q -> ¬ IsNamed d.disk (d.mem.icache dp).copy name k) ->
      Looked d dp name none d := by
    intro q short before
    refine Or.inl ⟨rfl, rfl, fun k below => before k ?_⟩
    simp only [BSIZE] at short
    omega
  induction fuel with
  | zero =>
      intro q short before
      exact reads_pure (finished short before)
  | succ fuel ih =>
      intro q short before
      rw [lookupFrom]
      refine reads_bind (reads_getMem ?_)
      by_cases more : q * BSIZE < (d.mem.icache dp).copy.logical_size
      · have there := reach q more before
        have block : q * BSIZE / BSIZE = q := Nat.mul_div_cancel q (by decide)
        have position : forall i, i < 32 -> (32 * q + i) / 32 = q ∧ (32 * q + i) % 32 = i := by
          intro i below
          omega
        have entry : forall i, i < 32 -> (IsNamed d.disk (d.mem.icache dp).copy name (32 * q + i) ↔
            NamedIn name (d.disk (addressOf d.disk (d.mem.icache dp).copy q)) (0 + 16 * i)) := by
          intro i below
          unfold IsNamed inumAt nameAt NamedIn
          rw [(position i below).1, (position i below).2, Nat.zero_add]
        rw [if_pos more, block]
        refine reads_bind (bmap_reads (quiet.resting _) roomy there.1 there.2 ?_)
        refine reads_bind (reads_bread (quiet.resting _) roomy ?_)
        refine reads_bind (reads_look Device.held_hold_self ?_)
        rcases @scanEntries_spec name (d.disk (addressOf d.disk (d.mem.icache dp).copy q))
          (BSIZE / direntSize) 0 with
          ⟨missing, none_⟩ | ⟨i, below, found, here, earlier⟩
        · rw [missing]
          refine reads_bind (reads_brelse Device.held_hold_self ?_)
          rw [Device.release_hold (quiet.resting _)]
          have following : q * BSIZE + BSIZE = (q + 1) * BSIZE := (Nat.succ_mul q BSIZE).symm
          rw [following]
          refine ih (by rw [Nat.add_right_comm q 1 fuel]; exact short) (fun k low => ?_)
          by_cases old : k < 32 * q
          · exact before k old
          · have split : k = 32 * q + (k - 32 * q) := by omega
            rw [split]
            exact mt (entry (k - 32 * q) (by omega)).mp (none_ _ (show k - 32 * q < 32 by omega))
        · have small : i < 32 := below
          rw [found]
          refine reads_bind (reads_brelse Device.held_hold_self ?_)
          rw [Device.release_hold (quiet.resting _)]
          have first : (32 * q + i) / 32 * BSIZE < (d.mem.icache dp).copy.logical_size := by
            rw [(position i small).1]
            exact more
          have lowest : forall j, j < 32 * q + i ->
              ¬ IsNamed d.disk (d.mem.icache dp).copy name j := by
            intro j low
            by_cases old : j < 32 * q
            · exact before j old
            · have split : j = 32 * q + (j - 32 * q) := by omega
              rw [split]
              exact mt (entry (j - 32 * q) (by omega)).mp (earlier _ (by omega))
          refine reads_seq (iget_reads
            (fun none_ => full (32 * q + i) ((entry i small).mpr here) lowest first ?_)) ?_
          · unfold inumAt
            rw [(position i small).1, (position i small).2, ← Nat.zero_add (16 * i)]
            exact none_
          rintro ip e ⟨got, rfl⟩
          have place : q * BSIZE + (0 + 16 * i) = 16 * (32 * q + i) := by
            simp only [BSIZE]
            omega
          have number : inumAt d.disk (d.mem.icache dp).copy (32 * q + i) =
              (d.disk (addressOf d.disk (d.mem.icache dp).copy q)).number (0 + 16 * i) 2 := by
            unfold inumAt
            rw [(position i small).1, (position i small).2, Nat.zero_add]
          refine reads_pure (Or.inr ⟨32 * q + i, ip, by rw [place], first, (entry i small).mpr here,
            lowest, ?_, ?_⟩)
          · rw [number]
            exact got
          · rw [number]
      · rw [if_neg more]
        exact reads_pure (finished (Nat.not_lt.mp more) before)

end Lookup

end TripleFs
end OsProjects
