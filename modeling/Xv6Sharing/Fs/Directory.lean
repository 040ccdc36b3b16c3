/-
Xv6Sharing.Fs.Directory — the entries of directories (kernel/fs.c, kernel/sysfile.c).

A call runs with the locks of some inodes. A lock that another process holds is
waited for, which does not show here; a call that waits for a lock it holds itself
sleeps for good, and `asleep` says so. A name is the list of its bytes up to the
NUL; one of DIRSIZ bytes has no NUL.
-/
import Xv6Sharing.Fs.Cache

namespace Xv6Sharing.Fs.Call

open Lib Fs

/-- How a call fails to return. -/
inductive Stop where
  | panic (p : Panic)
  | iunlock
  | dirlinkRead
  | dirlink
  | isdirempty
  | unlinkLinks
  | unlinkWrite
  | createDots
  | createDirlink
  /-- The call waits for a lock that it holds itself. -/
  | asleep
  deriving DecidableEq, Repr

/-- The file system, and the inodes whose lock the running call holds. -/
structure Caller where
  fs : FileSys
  locked : List Nat

abbrev CallM := StateT Caller (Except Stop)

/-- Code that takes no lock of an inode. -/
def onFs {α : Type} (m : KernM α) : CallM α := fun c =>
  match m c.fs with
  | .error e => .error (.panic e)
  | .ok (a, fs) => .ok (a, { c with fs })

/-- `acquiresleep` on the lock of an inode. -/
def acquiresleep (i : Nat) : CallM Unit := fun c =>
  if i ∈ c.locked then .error .asleep else .ok ((), { c with locked := i :: c.locked })

def releasesleep (i : Nat) : CallM Unit := fun c =>
  .ok ((), { c with locked := c.locked.erase i })

section

variable (sb : Superblock) (devsw : Devsw)

/-! ## Locked inodes -/

def ilock (i : Nat) : CallM Unit := fun c =>
  if c.fs.ref i < 1 then .error (.panic .badLock)
  else (do
    acquiresleep i
    onFs (Fs.ilock sb i)) c

def iunlock (i : Nat) : CallM Unit := fun c =>
  if i ∉ c.locked ∨ c.fs.ref i < 1 then .error .iunlock else releasesleep i c

def iput (i : Nat) : CallM Unit := do
  acquiresleep i
  onFs (Fs.iput sb i)
  releasesleep i

/-! ## Entries -/

/-- `strncpy`, from position `x` on for `n` bytes. -/
def strncpy (t : Nat → UInt8) : Nat → Nat → List UInt8
  | 0, _ => []
  | n + 1, x => if t x ≠ 0 then t x :: strncpy t n (x + 1) else List.replicate (n + 1) 0

/-- The bytes of a `struct dirent`. -/
def putDirent (inum : Nat) (name : List UInt8) : List UInt8 :=
  UInt8.ofNat inum :: UInt8.ofNat (inum / 256) :: name

/-- The loop of `dirlink`: the offset of a free entry, or the end. -/
def freeEntryFrom (dp : Nat) : Nat → Nat → CallM Nat
  | 0, off => return off
  | fuel + 1, off => do
      let ip ← onFs (fields dp)
      if off < ip.size then do
        let de ← onFs (readEntry sb devsw dp off)
        match de with
        | none => throw .dirlinkRead
        | some de => if de.inum = 0 then return off else freeEntryFrom dp fuel (off + 16)
      else return off

/-- What `dirlink` does when the name is not present. -/
def addEntry (dp : Nat) (name : List UInt8) (inum : Nat) : CallM Int := do
  let ip ← onFs (fields dp)
  let off ← freeEntryFrom sb devsw dp (ip.size / 16 + 1) 0
  let r ← onFs (onInode dp fun ip =>
    writei sb devsw dp ip (putDirent inum (strncpy (cstr name) 14 0)) off)
  if r = 16 then return 0 else throw .dirlink

def dirlink (dp : Nat) (name : List UInt8) (inum : Nat) : CallM Int := do
  let r ← onFs (dirlookup sb devsw dp name)
  match r with
  | some (ip, _) => do
      iput sb ip
      return -1
  | none => addEntry sb devsw dp name inum

/-- What `sys_unlink` does to the entry at `off`. -/
def clearEntry (dp off : Nat) : CallM Unit := do
  let r ← onFs (onInode dp fun ip => writei sb devsw dp ip (List.replicate 16 0) off)
  if r = 16 then return () else throw .unlinkWrite

/-- The name of a directory in itself, and that of its parent. -/
def dot : List UInt8 := [46]

def dotdot : List UInt8 := [46, 46]

end

end Xv6Sharing.Fs.Call
