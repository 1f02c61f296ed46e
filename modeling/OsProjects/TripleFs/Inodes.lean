import OsProjects.TripleFs.DiskFormat

namespace OsProjects
namespace TripleFs

open Machine

/-!
# Blocks and inodes in the kernel

The block allocator and the inode layer of `fs.c`, as programs over the buffer
cache.  What is not on the disk is the cache of inodes; `ip` is an index into it.
There is one disk, so device numbers are left out.
-/

def NINODE : Nat := 50
def NDEV : Nat := 10

/-- Where the file system stops: its panics, sleeping on an inode that is busy, which
lasts forever when there is one thread of control, and using an entry outside an array,
after which anything may happen. -/
inductive FsPanic
  | ballocOutOfBlocks
  | freeingFreeBlock
  | iallocNoInodes
  | igetNoInodes
  | ilock
  | ilockNoType
  | ilockAsleep
  | iunlock
  | iputBusy
  | bmapOutOfRange
  | outOfBounds
  | dirlookupNotDir
  | dirlinkRead
  | dirlink
  | isdirempty
  | unlinkNlink
  | unlinkWritei
  | createDots
  | createDirlink
  deriving DecidableEq

/-- `struct inode`: an entry of the inode cache with its copy of the disk inode. -/
structure Inode where
  inum : Nat
  ref : Nat
  busy : Bool
  valid : Bool
  copy : Dinode

/-- The memory of the file system. -/
structure Kernel where
  icache : Nat -> Inode

abbrev Fs (Value : Type) : Type := BlockProgram FsPanic Kernel BSIZE Value

/-- Change an entry of the inode cache. -/
def Kernel.adjust (k : Kernel) (ip : Nat) (change : Inode -> Inode) : Kernel :=
  { k with icache := Function.update k.icache ip (change (k.icache ip)) }

def getInode (ip : Nat) : Fs Inode := getMem (fun k => k.icache ip)
def setInode (ip : Nat) (change : Inode -> Inode) : Fs Unit := putMem (fun k => k.adjust ip change)

def Inode.withCopy (change : Dinode -> Dinode) (e : Inode) : Inode :=
  { e with copy := change e.copy }

/-! ## Blocks -/

/-- Read the super block. -/
def readsb : Fs Superblock := do
  bread 1
  let data <- look 1
  brelse 1
  pure (superblock data)

/-- Zero a block. -/
def bzero (bno : Nat) : Fs Unit := do
  bread bno
  patch bno (fun _ => Bytes.fill 0)
  bwrite bno
  brelse bno

/-- The first of `count` bits from `bi` on that is zero. -/
def firstZero (data : Block) : Nat -> Nat -> Option Nat
  | 0, _ => none
  | count + 1, bi => if bit data bi then firstZero data count (bi + 1) else some bi

/-- The loop of `balloc` over the bitmap blocks. -/
def ballocFrom (sb : Superblock) : Nat -> Nat -> Fs Nat
  | 0, _ => stop .ballocOutOfBlocks
  | fuel + 1, b =>
      if b < sb.size then do
        bread (BBLOCK b sb.ninodes)
        let data <- look (BBLOCK b sb.ninodes)
        match firstZero data BPB 0 with
        | some bi => do
            patch (BBLOCK b sb.ninodes) (setBit bi)
            bwrite (BBLOCK b sb.ninodes)
            brelse (BBLOCK b sb.ninodes)
            pure (b + bi)
        | none => do
            brelse (BBLOCK b sb.ninodes)
            ballocFrom sb fuel (b + BPB)
      else stop .ballocOutOfBlocks

/-- Allocate a disk block. -/
def balloc : Fs Nat := do
  let sb <- readsb
  ballocFrom sb (sb.size / BPB + 1) 0

/-- Free a disk block. -/
def bfree (b : Nat) : Fs Unit := do
  bzero b
  let sb <- readsb
  bread (BBLOCK b sb.ninodes)
  let data <- look (BBLOCK b sb.ninodes)
  if bit data (b % BPB) then do
    patch (BBLOCK b sb.ninodes) (clearBit (b % BPB))
    bwrite (BBLOCK b sb.ninodes)
    brelse (BBLOCK b sb.ninodes)
  else stop .freeingFreeBlock

/-! ## Inodes -/

/-- The entry of the cache that `iget` uses: the one of the inode, or the first one
that nobody refers to. -/
def Kernel.find (k : Kernel) (inum : Nat) : Option Nat :=
  match (List.range NINODE).find? (fun ip =>
    decide (0 < (k.icache ip).ref ∧ (k.icache ip).inum = inum)) with
  | some ip => some ip
  | none => (List.range NINODE).find? (fun ip => decide ((k.icache ip).ref = 0))

/-- Find the inode and return the in-memory copy. -/
def iget (inum : Nat) : Fs Nat := do
  match <- getMem (fun k => k.find inum) with
  | none => stop .igetNoInodes
  | some ip => do
      setInode ip (fun e => if 0 < e.ref then { e with ref := e.ref + 1 }
        else { e with inum := inum, ref := 1, busy := false, valid := false })
      pure ip

/-- The loop of `ialloc` over the inodes. -/
def iallocFrom (sb : Superblock) (type : Nat) : Nat -> Nat -> Fs Nat
  | 0, _ => stop .iallocNoInodes
  | fuel + 1, inum =>
      if inum < sb.ninodes then do
        bread (IBLOCK inum)
        let data <- look (IBLOCK inum)
        if (getDinode data (inum % IPB)).type = 0 then do
          patch (IBLOCK inum) (putDinode (inum % IPB) { Dinode.blank with type := type })
          bwrite (IBLOCK inum)
          brelse (IBLOCK inum)
          iget inum
        else do
          brelse (IBLOCK inum)
          iallocFrom sb type fuel (inum + 1)
      else stop .iallocNoInodes

/-- Allocate a new inode with the given type. -/
def ialloc (type : Nat) : Fs Nat := do
  let sb <- readsb
  iallocFrom sb type sb.ninodes 1

/-- Copy inode, which has changed, from memory to disk. -/
def iupdate (ip : Nat) : Fs Unit := do
  let e <- getInode ip
  bread (IBLOCK e.inum)
  patch (IBLOCK e.inum) (putDinode (e.inum % IPB) e.copy)
  bwrite (IBLOCK e.inum)
  brelse (IBLOCK e.inum)

/-- Increment the reference count. -/
def idup (ip : Nat) : Fs Nat := do
  setInode ip (fun e => { e with ref := e.ref + 1 })
  pure ip

/-- Lock the given inode. -/
def ilock (ip : Nat) : Fs Unit := do
  let e <- getInode ip
  if e.ref < 1 then stop .ilock
  else if e.busy then stop .ilockAsleep
  else do
    setInode ip (fun e => { e with busy := true })
    if e.valid then pure ()
    else do
      bread (IBLOCK e.inum)
      let data <- look (IBLOCK e.inum)
      setInode ip (fun e => { e with copy := getDinode data (e.inum % IPB) })
      brelse (IBLOCK e.inum)
      setInode ip (fun e => { e with valid := true })
      if (getDinode data (e.inum % IPB)).type = 0 then stop .ilockNoType
      else pure ()

/-- Unlock the given inode. -/
def iunlock (ip : Nat) : Fs Unit := do
  let e <- getInode ip
  if !e.busy || decide (e.ref < 1) then stop .iunlock
  else setInode ip (fun e => { e with busy := false })

/-! ## Inode contents -/

/-- Return `ip->addrs[i]`, after allocating a block for it if it is zero. -/
def ensureAddr (ip i : Nat) : Fs Nat := do
  let e <- getInode ip
  if NDIRECT < i then stop .outOfBounds
  else if e.copy.addrs i = 0 then do
    let addr <- balloc
    setInode ip (Inode.withCopy (fun d => d.setAddr i addr))
    pure addr
  else pure (e.copy.addrs i)

/-- Return the entry `i` of the indirect block `addr`, after allocating a block for
it if it is zero. -/
def ensureEntry (addr i : Nat) : Fs Nat := do
  bread addr
  let a <- look addr
  if NINDIRECT ≤ i then stop .outOfBounds
  else if a.word i = 0 then do
    let new <- balloc
    patch addr (fun a => a.setWord i new)
    bwrite addr
    brelse addr
    pure new
  else do
    brelse addr
    pure (a.word i)

/-- Return the disk block address of the nth block in an inode.  If there is no such
block, `bmap` allocates one. -/
def bmap (ip bn : Nat) : Fs Nat :=
  if bn < NDIRECT then ensureAddr ip bn
  else if bn - NDIRECT < NINDIRECT then do
    let addr <- ensureAddr ip NDIRECT
    ensureEntry addr (bn - NDIRECT)
  else stop .bmapOutOfRange

/-- The same for the copy `mbn` of a mirrored block; `bn` is the place of the first
copy. -/
def mbmap (ip bn mbn : Nat) : Fs Nat :=
  if bn < NDIRECT then do
    let addr <- ensureAddr ip bn
    if mbn = 1 then ensureAddr ip (bn + 1)
    else if mbn = 2 then ensureAddr ip (bn + 2)
    else pure addr
  else if bn - NDIRECT < NINDIRECT then do
    let addr <- ensureAddr ip NDIRECT
    if mbn ≤ 2 then ensureEntry addr (bn - NDIRECT + mbn)
    else do
      bread addr
      brelse addr
      pure addr
  else stop .bmapOutOfRange

/-- The loop of `itrunc` over the direct blocks. -/
def freeDirect (ip : Nat) : Nat -> Nat -> Fs Unit
  | 0, _ => pure ()
  | count + 1, i => do
      let e <- getInode ip
      if e.copy.addrs i ≠ 0 then do
        bfree (e.copy.addrs i)
        setInode ip (Inode.withCopy (fun d => d.setAddr i 0))
      else pure ()
      freeDirect ip count (i + 1)

/-- The loop of `itrunc` over the entries of the indirect block. -/
def freeEntries (a : Block) : Nat -> Nat -> Fs Unit
  | 0, _ => pure ()
  | count + 1, j => do
      if a.word j ≠ 0 then bfree (a.word j) else pure ()
      freeEntries a count (j + 1)

/-- Truncate inode (discard contents). -/
def itrunc (ip : Nat) : Fs Unit := do
  freeDirect ip NDIRECT 0
  let e <- getInode ip
  if e.copy.addrs NDIRECT ≠ 0 then do
    bread (e.copy.addrs NDIRECT)
    let a <- look (e.copy.addrs NDIRECT)
    freeEntries a NINDIRECT 0
    brelse (e.copy.addrs NDIRECT)
    bfree (e.copy.addrs NDIRECT)
    setInode ip (Inode.withCopy (fun d => d.setAddr NDIRECT 0))
  else pure ()
  setInode ip (Inode.withCopy (fun d => { d with logical_size := 0 }))
  iupdate ip

/-- Drop a reference to an unlocked inode. -/
def iput (ip : Nat) : Fs Unit := do
  let e <- getInode ip
  if e.ref = 1 ∧ e.valid = true ∧ e.copy.nlink = 0 then
    if e.busy then stop .iputBusy
    else do
      setInode ip (fun e => { e with busy := true })
      itrunc ip
      setInode ip (Inode.withCopy (fun d => { d with type := 0 }))
      iupdate ip
      setInode ip (fun e => { e with busy := false, valid := false })
  else pure ()
  setInode ip (fun e => { e with ref := e.ref - 1 })

def iunlockput (ip : Nat) : Fs Unit := do
  iunlock ip
  iput ip

/-! ## Reading and writing -/

/-- The device table.  A device answers from outside the file system. -/
structure Devsw where
  read : Nat -> Option (Nat -> Int × List UInt8)
  write : Nat -> Option (List UInt8 -> Int)

/-- `m` bytes of a block from an offset on. -/
def bytesFrom (data : Block) (off m : Nat) : List UInt8 :=
  (List.range m).map (fun k => data.get (off + k))

/-- The loop of `readi` for plain files. -/
def readPlain (ip : Nat) : Nat -> Nat -> Nat -> Fs (List UInt8)
  | 0, _, _ => pure []
  | fuel + 1, off, left =>
      if left = 0 then pure []
      else do
        let addr <- bmap ip (off / BSIZE)
        bread addr
        let m := min left (BSIZE - off % BSIZE)
        let data <- look addr
        brelse addr
        let rest <- readPlain ip fuel (off + m) (left - m)
        pure (bytesFrom data (off % BSIZE) m ++ rest)

/-- `strncmp` from position `i` on, for at most `n` bytes. -/
def strncmp (p q : Nat -> UInt8) : Nat -> Nat -> Int
  | 0, _ => 0
  | n + 1, i =>
      if p i ≠ 0 ∧ p i = q i then strncmp p q n (i + 1)
      else ((p i).toNat : Int) - ((q i).toNat : Int)

/-- The memory from the data of a buffer on: its bytes and what lies behind them. -/
def memoryFrom (data : Block) (behind : Nat -> UInt8) (i : Nat) : UInt8 :=
  if i < BSIZE then data.get i else behind (i - BSIZE)

/-- The difference flags of `readi`. -/
structure Diffs where
  diff12 : Bool
  diff13 : Bool
  diff23 : Bool
  deriving DecidableEq

/-- The flags after the comparisons of one iteration; `n` is the length of the whole
read. -/
def Diffs.compare (diffs : Diffs) (n : Nat) (p1 p2 p3 : Nat -> UInt8) : Diffs where
  diff12 := diffs.diff12 || decide (strncmp p1 p2 n 0 ≠ 0)
  diff23 := diffs.diff23 || decide (strncmp p2 p3 n 0 ≠ 0)
  diff13 := diffs.diff13 || decide (strncmp p1 p3 n 0 ≠ 0)

/-- The three repair branches.  The result is where `bp`, `bp2` and `bp3` point to. -/
def repair (ip offset at_ m : Nat) (diffs : Diffs) (s1 s2 s3 : Nat) : Fs (Nat × Nat × Nat) :=
  if diffs.diff12 && diffs.diff23 && !diffs.diff13 then do
    brelse s2
    let s2 <- mbmap ip offset 1
    bread s2
    let data3 <- look s3
    patch s2 (fun data => data.splice at_ m (fun k => data3.get (at_ + k)))
    bwrite s2
    pure (s1, s2, s3)
  else if diffs.diff13 && diffs.diff12 && !diffs.diff23 then do
    brelse s1
    let s1 <- mbmap ip offset 0
    bread s1
    let data3 <- look s3
    patch s1 (fun data => data.splice at_ m (fun k => data3.get (at_ + k)))
    bwrite s1
    pure (s1, s2, s3)
  else if diffs.diff23 && diffs.diff13 && !diffs.diff12 then do
    brelse s3
    let s3 <- mbmap ip offset 2
    bread s3
    let data2 <- look s2
    patch s3 (fun data => data.splice at_ m (fun k => data2.get (at_ + k)))
    bwrite s2
    pure (s1, s2, s3)
  else pure (s1, s2, s3)

/-- The loop of `readi` for mirrored files.  `behind` is the memory after the data of
the buffer that has a sector; `none` is the return value -1.  The calls of `mbmap`
whose results are not used are arguments of `cprintf`. -/
def readMirrored (behind : Nat -> Nat -> UInt8) (ip n : Nat) :
    Nat -> Nat -> Nat -> Diffs -> Fs (Option (List UInt8))
  | 0, _, _, _ => pure (some [])
  | fuel + 1, off, left, diffs =>
      if left = 0 then pure (some [])
      else do
        let offset := off / BSIZE * 3
        let m := min left (BSIZE - off % BSIZE)
        let s1 <- mbmap ip offset 0
        bread s1
        let _ <- mbmap ip offset 0
        let _ <- mbmap ip offset 1
        let _ <- mbmap ip offset 2
        let s2 <- mbmap ip offset 1
        bread s2
        let s3 <- mbmap ip offset 2
        bread s3
        let data1 <- look s1
        let data2 <- look s2
        let data3 <- look s3
        let diffs := diffs.compare n (memoryFrom data1 (behind s1)) (memoryFrom data2 (behind s2))
          (memoryFrom data3 (behind s3))
        let (s1, s2, s3) <- repair ip offset (off % BSIZE) m diffs s1 s2 s3
        if diffs.diff12 && diffs.diff23 && diffs.diff13 then do
          brelse s1
          brelse s2
          brelse s3
          pure none
        else do
          brelse s2
          brelse s1
          brelse s3
          match <- readMirrored behind ip n fuel (off + m) (left - m) diffs with
          | none => pure none
          | some rest => pure (some (bytesFrom data3 (off % BSIZE) m ++ rest))

/-- Read data from inode: the return value and the bytes at `dst`. -/
def readi (devsw : Devsw) (behind : Nat -> Nat -> UInt8) (ip off n : Nat) :
    Fs (Int × List UInt8) := do
  let e <- getInode ip
  if e.copy.type = T_DEV then
    if NDEV ≤ e.copy.major then pure (-1, [])
    else match devsw.read e.copy.major with
      | none => pure (-1, [])
      | some read => pure (read n)
  else if e.copy.logical_size < off ∨ (off + n) % 2 ^ 32 < off then pure (-1, [])
  else do
    let n := if e.copy.logical_size < off + n then e.copy.logical_size - off else n
    if e.copy.type = T_MIRRORED then
      match <- readMirrored behind ip n n off n ⟨false, false, false⟩ with
      | none => pure (-1, [])
      | some bytes => pure (n, bytes)
    else do
      let bytes <- readPlain ip n off n
      pure (n, bytes)

/-- Write `m` bytes of `src` into a block. -/
def writeBlock (addr at_ m : Nat) (src : Nat -> UInt8) : Fs Unit := do
  bread addr
  patch addr (fun data => data.splice at_ m src)
  bwrite addr
  brelse addr

/-- The loop of `writei` for plain files. -/
def writePlain (ip : Nat) : Nat -> Nat -> Nat -> (Nat -> UInt8) -> Fs Unit
  | 0, _, _, _ => pure ()
  | fuel + 1, off, left, src =>
      if left = 0 then pure ()
      else do
        let m := min left (BSIZE - off % BSIZE)
        let addr <- bmap ip (off / BSIZE)
        writeBlock addr (off % BSIZE) m src
        writePlain ip fuel (off + m) (left - m) (fun k => src (m + k))

/-- The loop of `writei` for mirrored files. -/
def writeMirrored (ip : Nat) : Nat -> Nat -> Nat -> (Nat -> UInt8) -> Fs Unit
  | 0, _, _, _ => pure ()
  | fuel + 1, off, left, src =>
      if left = 0 then pure ()
      else do
        let offset := off / BSIZE * 3
        let m := min left (BSIZE - off % BSIZE)
        let _ <- mbmap ip offset 0
        let _ <- mbmap ip offset 1
        let _ <- mbmap ip offset 2
        let s1 <- mbmap ip offset 0
        writeBlock s1 (off % BSIZE) m src
        let s2 <- mbmap ip offset 1
        writeBlock s2 (off % BSIZE) m src
        let s3 <- mbmap ip offset 2
        writeBlock s3 (off % BSIZE) m src
        writeMirrored ip fuel (off + m) (left - m) (fun k => src (m + k))

/-- Write the bytes `src` to an inode. -/
def writei (devsw : Devsw) (ip : Nat) (src : List UInt8) (off : Nat) : Fs Int := do
  let n := src.length
  let e <- getInode ip
  if e.copy.type = T_DEV then
    if NDEV ≤ e.copy.major then pure (-1)
    else match devsw.write e.copy.major with
      | none => pure (-1)
      | some write => pure (write src)
  else if e.copy.logical_size < off ∨ (off + n) % 2 ^ 32 < off then pure (-1)
  else do
    let n := if MAXFILE * BSIZE < off + n then (MAXFILE * BSIZE + 2 ^ 32 - off) % 2 ^ 32 else n
    let bytes := fun k => src.getD k 0
    if e.copy.type = T_MIRRORED then writeMirrored ip n off n bytes
    else writePlain ip n off n bytes
    iupdate ip
    if 0 < n ∧ e.copy.logical_size < off + n then do
      setInode ip (Inode.withCopy (fun d => { d with logical_size := off + n }))
      iupdate ip
    else pure ()
    pure n

end TripleFs
end OsProjects
