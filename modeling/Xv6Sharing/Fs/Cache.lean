/-
Xv6Sharing.Fs.Cache — the inode cache and the entries of directories
(kernel/fs.c).

The cache keeps one entry for an inode number: the fields of a valid entry, and
`ref`. Locks do not show here: a function that needs a locked inode is called
with it locked, and what `iput` does is done under the lock it takes. A name is
the list of its bytes up to the NUL.
-/
import Xv6Sharing.Fs.Inode

namespace Xv6Sharing.Fs

open Lib

/-! ## The inode cache -/

/-- The blocks, and the entries of `icache`: the fields of a valid one, and `ref`. -/
structure FileSys where
  store : Store
  copy : Nat → Option Dinode
  ref : Nat → Nat

namespace FileSys

/-- `iget`; an entry that was not in use is not valid. -/
def iget (fs : FileSys) (i : Nat) : FileSys :=
  { fs with
    copy := if fs.ref i = 0 then Function.update fs.copy i none else fs.copy
    ref := Function.update fs.ref i (fs.ref i + 1) }

/-- `iput` finds that the inode has no links and no other references. -/
def Frees (fs : FileSys) (i : Nat) (ip : Dinode) : Prop :=
  fs.copy i = some ip ∧ ip.nlink = 0 ∧ fs.ref i = 1

end FileSys

abbrev KernM := StateT FileSys (Except Panic)

section

variable (sb : Superblock) (devsw : Devsw)

/-- What `iput` does then. -/
def freeInode (i : Nat) (ip : Dinode) : FsM Unit := do
  let ip ← itrunc sb i ip
  iupdate sb i { ip with type := 0 }

/-- The entries of the cache in use. -/
def inUse (fs : FileSys) : Nat :=
  ((List.range sb.ninodes).filter fun i => 0 < fs.ref i).length

/-- The cache has an entry for inode `i`, or a free one; NINODE is 50. -/
def CanGet (fs : FileSys) (i : Nat) : Prop := 0 < fs.ref i ∨ inUse sb fs < 50

instance (fs : FileSys) (i : Nat) : Decidable (CanGet sb fs i) :=
  inferInstanceAs (Decidable (_ ∨ _))

def iget (i : Nat) : KernM Unit := fun fs =>
  if CanGet sb fs i then .ok ((), fs.iget i) else .error .noEntries

/-- `ilock`, which reads the inode from the disk if need be. -/
def ilock (i : Nat) : KernM Unit := fun fs =>
  if fs.ref i < 1 then .error .badLock
  else match fs.copy i with
    | some _ => .ok ((), fs)
    | none =>
      if (dinode sb fs.store.disk i).type = 0 then .error .noType
      else .ok ((), { fs with
        copy := Function.update fs.copy i (some (dinode sb fs.store.disk i)) })

/-- The fields of a locked inode. -/
def fields (i : Nat) : KernM Dinode := fun fs => .ok ((fs.copy i).getD (zeroInode 0), fs)

/-- A function of fs.c on a locked inode. -/
def onInode {α : Type} (i : Nat) (f : Dinode → FsM (Dinode × α)) : KernM α := fun fs =>
  match f ((fs.copy i).getD (zeroInode 0)) fs.store with
  | .error e => .error e
  | .ok ((ip, a), s) => .ok (a, { fs with store := s, copy := Function.update fs.copy i (some ip) })

def iput (i : Nat) : KernM Unit := fun fs =>
  match fs.copy i with
  | some ip =>
    if ip.nlink = 0 ∧ fs.ref i = 1 then
      match freeInode sb i ip fs.store with
      | .error e => .error e
      | .ok (_, s) => .ok ((),
          ⟨s, Function.update fs.copy i none, Function.update fs.ref i (fs.ref i - 1)⟩)
    else .ok ((), { fs with ref := Function.update fs.ref i (fs.ref i - 1) })
  | none => .ok ((), { fs with ref := Function.update fs.ref i (fs.ref i - 1) })

/-! ## Directories -/

/-- The loop of `strncmp` from position `x` on, and what follows it. -/
def strncmp (p q : Nat → UInt8) : Nat → Nat → Int
  | 0, _ => 0
  | n + 1, x =>
    if p x ≠ 0 ∧ p x = q x then strncmp p q n (x + 1) else (p x).toNat - (q x).toNat

/-- A C string. -/
def cstr (s : List UInt8) (x : Nat) : UInt8 := s.getD x 0

def namecmp (s t : Nat → UInt8) : Int := strncmp s t 14 0

/-- `struct dirent`. -/
structure Dirent where
  inum : Nat
  name : Nat → UInt8

/-- The sixteen bytes of a `struct dirent`. -/
def getDirent (bs : List UInt8) : Dirent where
  inum := (bs.getD 0 0).toNat + 256 * (bs.getD 1 0).toNat
  name := fun x => bs.getD (2 + x) 0

/-- `readi` of `sizeof(struct dirent)` bytes; `none` if there are not so many. -/
def readEntry (dp off : Nat) : KernM (Option Dirent) := do
  let r ← onInode dp fun ip => readi sb devsw ip off 16
  match r with
  | some bs => if bs.length = 16 then return some (getDirent bs) else return none
  | none => return none

/-- The loop of `dirlookup`; returns the inode number and the offset of the entry. -/
def dirlookupFrom (dp : Nat) (name : List UInt8) : Nat → Nat → KernM (Option (Nat × Nat))
  | 0, _ => return none
  | fuel + 1, off => do
      let ip ← fields dp
      if off < ip.size then do
        let de ← readEntry sb devsw dp off
        match de with
        | none => throw .dirRead
        | some de =>
          if de.inum = 0 then dirlookupFrom dp name fuel (off + 16)
          else if namecmp (cstr name) de.name = 0 then do
            iget sb de.inum
            return some (de.inum, off)
          else dirlookupFrom dp name fuel (off + 16)
      else return none

def dirlookup (dp : Nat) (name : List UInt8) : KernM (Option (Nat × Nat)) := do
  let ip ← fields dp
  if ip.type ≠ T_DIR then throw .notDir
  else dirlookupFrom sb devsw dp name (ip.size / 16 + 1) 0

end

end Xv6Sharing.Fs
