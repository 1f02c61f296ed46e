import OsProjects.TripleFs.FilesInOrder

namespace OsProjects
namespace TripleFs

open Machine

/-!
# The system calls on files

The calls of `sysfile.c` and what `file.c` does for them, for the case that one call ends
before the next one begins.  `cwd` is the entry of the inode cache that is the current
directory of the process.  Whether a call finds an empty place in the table of open files
and a descriptor depends on what is open elsewhere, pipes included; it is an argument.
-/

/-! ## Link counts -/

/-- `nlink++` for a number of 16 bits. -/
def Dinode.linked (c : Dinode) : Dinode := { c with nlink := (c.nlink + 1) % 2 ^ 16 }

/-- `nlink--`. -/
def Dinode.unlinked (c : Dinode) : Dinode := { c with nlink := (c.nlink + (2 ^ 16 - 1)) % 2 ^ 16 }

/-- The test `nlink < 1` for a signed number. -/
def Dinode.Linkless (c : Dinode) : Prop := c.nlink = 0 ∨ 2 ^ 15 ≤ c.nlink

instance (c : Dinode) : Decidable c.Linkless := instDecidableOr

/-- Change an inode and copy it to the disk. -/
def updateInode (ip : Nat) (change : Dinode -> Dinode) : Fs Unit := do
  setInode ip (Inode.withCopy change)
  iupdate ip

/-! ## Links -/

/-- The label `bad` of `sys_link`. -/
def linkBad (ip : Nat) : Fs Int := do
  ilock ip
  updateInode ip Dinode.unlinked
  iunlockput ip
  pure (-1)

/-- Create the path new as a link to the same inode as old. -/
def sys_link (devsw : Devsw) (behind : Nat -> Nat -> UInt8) (cwd : Nat)
    (old new : List UInt8) : Fs Int := do
  match <- namei cwd old with
  | none => pure (-1)
  | some ip => do
      ilock ip
      let e <- getInode ip
      if e.copy.type = T_DIR then do
        iunlockput ip
        pure (-1)
      else do
        updateInode ip Dinode.linked
        iunlock ip
        match <- nameiparent cwd new with
        | none => linkBad ip
        | some (dp, name) => do
            ilock dp
            let e <- getInode ip
            let result <- dirlink devsw behind dp (charsOf name) e.inum
            if result < 0 then do
              iunlockput dp
              linkBad ip
            else do
              iunlockput dp
              iput ip
              pure 0

/-- The names that `sys_unlink` refuses. -/
def isDots (name : List UInt8) : Prop :=
  namecmp (charsOf name) (charsOf [46]) = 0 ∨ namecmp (charsOf name) (charsOf [46, 46]) = 0

instance (name : List UInt8) : Decidable (isDots name) := instDecidableOr

/-- `sys_unlink` does not remove a directory with entries. -/
def removable (devsw : Devsw) (behind : Nat -> Nat -> UInt8) (ip : Nat) : Fs Bool := do
  let e <- getInode ip
  if e.copy.type = T_DIR then isdirempty devsw behind ip else pure true

/-- The entry ".." of a directory that is removed does not count any more. -/
def unlinkDots (dp ip : Nat) : Fs Unit := do
  let e <- getInode ip
  if e.copy.type = T_DIR then updateInode dp Dinode.unlinked else pure ()

/-- The end of `sys_unlink`: the entry at `off` of `dp` for the inode `ip` is removed. -/
def unlinkEntry (devsw : Devsw) (dp ip off : Nat) : Fs Int := do
  let n <- writei devsw dp (List.replicate direntSize 0) off
  if n ≠ direntSize then stop .unlinkWritei
  else do
    unlinkDots dp ip
    iunlockput dp
    updateInode ip Dinode.unlinked
    iunlockput ip
    pure 0

def sys_unlink (devsw : Devsw) (behind : Nat -> Nat -> UInt8) (cwd : Nat)
    (path : List UInt8) : Fs Int := do
  match <- nameiparent cwd path with
  | none => pure (-1)
  | some (dp, name) => do
      ilock dp
      if isDots name then do
        iunlockput dp
        pure (-1)
      else do
        match <- dirlookup dp (charsOf name) with
        | none => do
            iunlockput dp
            pure (-1)
        | some (ip, off) => do
            ilock ip
            let e <- getInode ip
            if e.copy.Linkless then stop .unlinkNlink
            else do
              let empty <- removable devsw behind ip
              if !empty then do
                iunlockput ip
                iunlockput dp
                pure (-1)
              else unlinkEntry devsw dp ip off

/-! ## New inodes -/

/-- The entries "." and ".." of the new inode `ip` in `dp`, if it is a directory. -/
def createDots (devsw : Devsw) (behind : Nat -> Nat -> UInt8) (type dp ip : Nat) : Fs Unit :=
  if type = T_DIR then do
    updateInode dp Dinode.linked
    let e <- getInode ip
    let first <- dirlink devsw behind ip (charsOf [46]) e.inum
    if first < 0 then stop .createDots
    else do
      let above <- getInode dp
      let second <- dirlink devsw behind ip (charsOf [46, 46]) above.inum
      if second < 0 then stop .createDots else pure ()
  else pure ()

/-- The inode for the path, locked. -/
def create (devsw : Devsw) (behind : Nat -> Nat -> UInt8) (cwd : Nat) (path : List UInt8)
    (type major minor : Nat) : Fs (Option Nat) := do
  match <- nameiparent cwd path with
  | none => pure none
  | some (dp, name) => do
      ilock dp
      match <- dirlookup dp (charsOf name) with
      | some (ip, _) => do
          iunlockput dp
          ilock ip
          let e <- getInode ip
          if type = T_MIRRORED ∧ e.copy.type = T_MIRRORED then pure (some ip)
          else if type = T_FILE ∧ e.copy.type = T_FILE then pure (some ip)
          else do
            iunlockput ip
            pure none
      | none => do
          let ip <- ialloc type
          ilock ip
          updateInode ip (fun c =>
            { c with major := major % 2 ^ 16, minor := minor % 2 ^ 16, nlink := 1 })
          createDots devsw behind type dp ip
          let e <- getInode ip
          let result <- dirlink devsw behind dp (charsOf name) e.inum
          if result < 0 then stop .createDirlink
          else do
            iunlockput dp
            pure (some ip)

def O_RDONLY : Nat := 0x000
def O_WRONLY : Nat := 0x001
def O_RDWR : Nat := 0x002
def O_CREATE : Nat := 0x200
def O_MIRRORED : Nat := 0x400

/-- The inode that `sys_open` opens, locked. -/
def openInode (devsw : Devsw) (behind : Nat -> Nat -> UInt8) (cwd : Nat) (path : List UInt8)
    (omode : Nat) : Fs (Option Nat) :=
  if omode &&& O_CREATE ≠ 0 then
    create devsw behind cwd path (if omode &&& O_MIRRORED ≠ 0 then T_MIRRORED else T_FILE) 0 0
  else do
    match <- namei cwd path with
    | none => pure none
    | some ip => do
        ilock ip
        let e <- getInode ip
        if e.copy.type = T_DIR ∧ omode ≠ O_RDONLY then do
          iunlockput ip
          pure none
        else pure (some ip)

/-- `struct file` for a file with an inode. -/
structure File where
  ip : Nat
  readable : Bool
  writable : Bool
  off : Nat

/-- Open a file, if there is a place for it. -/
def sys_open (devsw : Devsw) (behind : Nat -> Nat -> UInt8) (cwd : Nat) (path : List UInt8)
    (omode : Nat) (place : Bool) : Fs (Option File) := do
  match <- openInode devsw behind cwd path omode with
  | none => pure none
  | some ip =>
      if !place then do
        iunlockput ip
        pure none
      else do
        iunlock ip
        pure (some ⟨ip, decide (omode &&& O_WRONLY = 0),
          decide (omode &&& O_WRONLY ≠ 0 ∨ omode &&& O_RDWR ≠ 0), 0⟩)

/-- `sys_mkdir` and `sys_mknod`. -/
def makeNode (devsw : Devsw) (behind : Nat -> Nat -> UInt8) (cwd : Nat) (path : List UInt8)
    (type major minor : Nat) : Fs Int := do
  match <- create devsw behind cwd path type major minor with
  | none => pure (-1)
  | some ip => do
      iunlockput ip
      pure 0

def sys_mkdir (devsw : Devsw) (behind : Nat -> Nat -> UInt8) (cwd : Nat) (path : List UInt8) :
    Fs Int :=
  makeNode devsw behind cwd path T_DIR 0 0

def sys_mknod (devsw : Devsw) (behind : Nat -> Nat -> UInt8) (cwd : Nat) (path : List UInt8)
    (major minor : Nat) : Fs Int :=
  makeNode devsw behind cwd path T_DEV major minor

/-- The new current directory. -/
def sys_chdir (cwd : Nat) (path : List UInt8) : Fs (Option Nat) := do
  match <- namei cwd path with
  | none => pure none
  | some ip => do
      ilock ip
      let e <- getInode ip
      if e.copy.type ≠ T_DIR then do
        iunlockput ip
        pure none
      else do
        iunlock ip
        iput cwd
        pure (some ip)

/-! ## Open files -/

/-- `f->off += r` for a result that is positive. -/
def File.advance (f : File) (r : Int) : File :=
  if 0 < r then { f with off := (f.off + r.toNat) % 2 ^ 32 } else f

/-- Read from file f. -/
def fileread (devsw : Devsw) (behind : Nat -> Nat -> UInt8) (f : File) (n : Nat) :
    Fs (File × Int) :=
  if !f.readable then pure (f, -1)
  else do
    ilock f.ip
    let r <- readi devsw behind f.ip f.off n
    iunlock f.ip
    pure (f.advance r.1, r.1)

/-- Write to file f. -/
def filewrite (devsw : Devsw) (f : File) (src : List UInt8) : Fs (File × Int) :=
  if !f.writable then pure (f, -1)
  else do
    ilock f.ip
    let r <- writei devsw f.ip src f.off
    iunlock f.ip
    pure (f.advance r, r)

end TripleFs
end OsProjects
