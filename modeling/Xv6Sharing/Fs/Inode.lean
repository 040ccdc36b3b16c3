/-
Xv6Sharing.Fs.Inode — blocks, inodes and their contents (kernel/fs.c).

The functions run on the blocks as the buffer cache shows them; `logged` are the
blocks that were passed to `log_write`, the last one first. A function that works
on an inode takes the fields of the in-memory inode and returns them changed,
where C goes through `ip`. `panic` ends the run. The drivers behind `devsw` are a
parameter: what a device returns has no bearing on the disk.
-/
import Xv6Sharing.Fs.Layout
import Xv6Sharing.Lib.Run

namespace Xv6Sharing.Fs

open Lib

/-- The panics of fs.c, and that of `filewrite`. -/
inductive Panic where
  | outOfBlocks
  | freeingFree
  | noInodes
  | noType
  | outOfRange
  | noEntries
  | badLock
  | notDir
  | dirRead
  | shortWrite
  deriving DecidableEq, Repr

structure Store where
  disk : Disk
  logged : List Nat

abbrev FsM := StateT Store (Except Panic)

/-- The entries of `devsw`, by major number. -/
structure Devsw where
  read : Nat → Option (Nat → List UInt8)
  write : Nat → Option (List UInt8 → Int)

def bread (b : Nat) : FsM Block := fun s => .ok (s.disk b, s)

/-- `log_write` of a changed buffer. -/
def logWrite (b : Nat) (data : Block) : FsM Unit := fun s =>
  .ok ((), { disk := Function.update s.disk b data, logged := b :: s.logged })

def bzero (bno : Nat) : FsM Unit := logWrite bno fun _ => 0

section

variable (sb : Superblock) (devsw : Devsw)

/-! ## Blocks -/

/-- The inner loop of `balloc`, from bit `bi` on for `n` bits. -/
def scanBits (bp : Block) (b : Nat) : Nat → Nat → Option Nat
  | 0, _ => none
  | n + 1, bi =>
    if b + bi < sb.size then
      if testBit bp bi then scanBits bp b n (bi + 1) else some bi
    else none

/-- The outer loop of `balloc`, from block `b` on. -/
def ballocFrom : Nat → Nat → FsM Nat
  | 0, _ => throw .outOfBlocks
  | n + 1, b =>
    if b < sb.size then do
      let bp ← bread (sb.bblock b)
      match scanBits sb bp b 4096 0 with
      | some bi =>
        logWrite (sb.bblock b) (setBit bp bi)
        bzero (b + bi)
        return b + bi
      | none => ballocFrom n (b + 4096)
    else throw .outOfBlocks

def balloc : FsM Nat := ballocFrom sb (sb.size / 4096 + 1) 0

def bfree (b : Nat) : FsM Unit := do
  let bp ← bread (sb.bblock b)
  if testBit bp (b % 4096) then logWrite (sb.bblock b) (clearBit bp (b % 4096))
  else throw .freeingFree

/-! ## Inodes -/

/-- What `memset` and the store of the type leave of an inode. -/
def zeroInode (type : Nat) : Dinode where
  type := type
  major := 0
  minor := 0
  nlink := 0
  size := 0
  addrs := fun _ => 0

/-- The loop of `ialloc`, from inode `inum` on. -/
def iallocFrom (type : Nat) : Nat → Nat → FsM Nat
  | 0, _ => throw .noInodes
  | n + 1, inum =>
    if inum < sb.ninodes then do
      let bp ← bread (sb.iblock inum)
      if (getInode bp (inum % 8)).type = 0 then do
        logWrite (sb.iblock inum) (putInode bp (inum % 8) (zeroInode type))
        return inum
      else iallocFrom type n (inum + 1)
    else throw .noInodes

/-- `ialloc`, up to the call of `iget`. -/
def ialloc (type : Nat) : FsM Nat := iallocFrom sb type sb.ninodes 1

def iupdate (inum : Nat) (ip : Dinode) : FsM Unit := do
  let bp ← bread (sb.iblock inum)
  logWrite (sb.iblock inum) (putInode bp (inum % 8) ip)

/-! ## Inode content -/

/-- An element of `addrs`, allocated if it is 0. -/
def bmapAddr (ip : Dinode) (k : Nat) : FsM Dinode :=
  if ip.addrs k = 0 then do
    let addr ← balloc sb
    return ip.setAddr k addr
  else return ip

/-- An entry of the indirect block, allocated if it is 0. -/
def bmapEntry (ip : Dinode) (j : Nat) : FsM Nat := do
  let a ← bread (ip.addrs 12)
  if read32 a (4 * j) = 0 then do
    let addr ← balloc sb
    logWrite (ip.addrs 12) (write32 a (4 * j) addr)
    return addr
  else return read32 a (4 * j)

def bmap (ip : Dinode) (bn : Nat) : FsM (Dinode × Nat) :=
  if bn < 12 then do
    let ip ← bmapAddr sb ip bn
    return (ip, ip.addrs bn)
  else if bn - 12 < 128 then do
    let ip ← bmapAddr sb ip 12
    let addr ← bmapEntry sb ip (bn - 12)
    return (ip, addr)
  else throw .outOfRange

/-- The first loop of `itrunc`, from `addrs[i]` on for `n` elements. -/
def truncDirect : Nat → Nat → Dinode → FsM Dinode
  | 0, _, ip => return ip
  | n + 1, i, ip =>
    if ip.addrs i = 0 then truncDirect n (i + 1) ip
    else do
      bfree sb (ip.addrs i)
      truncDirect n (i + 1) (ip.setAddr i 0)

/-- The second loop of `itrunc`, from `a[j]` on for `n` elements. -/
def truncIndirect (a : Block) : Nat → Nat → FsM Unit
  | 0, _ => return ()
  | n + 1, j =>
    if read32 a (4 * j) = 0 then truncIndirect a n (j + 1)
    else do
      bfree sb (read32 a (4 * j))
      truncIndirect a n (j + 1)

/-- What `itrunc` does about the indirect block. -/
def truncLast (ip : Dinode) : FsM Dinode :=
  if ip.addrs 12 = 0 then return ip
  else do
    let a ← bread (ip.addrs 12)
    truncIndirect sb a 128 0
    bfree sb (ip.addrs 12)
    return ip.setAddr 12 0

def itrunc (inum : Nat) (ip : Dinode) : FsM Dinode := do
  let ip ← truncDirect sb 12 0 ip
  let ip ← truncLast sb ip
  let ip := { ip with size := 0 }
  iupdate sb inum ip
  return ip

/-- The loop of `readi`: `n` bytes from `off` on. Every round reads at least one. -/
def readLoop : Nat → Dinode → Nat → Nat → FsM (Dinode × List UInt8)
  | 0, ip, _, _ => return (ip, [])
  | fuel + 1, ip, off, n =>
    if n = 0 then return (ip, [])
    else do
      let (ip, addr) ← bmap sb ip (off / 512)
      let bp ← bread addr
      let m := min n (512 - off % 512)
      let (ip, rest) ← readLoop fuel ip (off + m) (n - m)
      return (ip, (List.range m).map (fun x => bp (off % 512 + x)) ++ rest)

/-- `readi`; -1 is `none`. -/
def readi (ip : Dinode) (off n : Nat) : FsM (Dinode × Option (List UInt8)) :=
  if ip.type = T_DEV then return (ip, (devsw.read ip.major).map (· n))
  else if off > ip.size ∨ (off + n) % 2 ^ 32 < off then return (ip, none)
  else do
    let n := if (off + n) % 2 ^ 32 > ip.size then ip.size - off else n
    let (ip, data) ← readLoop sb n ip off n
    return (ip, some data)

/-- The loop of `writei`: the bytes `src` from `off` on. -/
def writeLoop : Nat → Dinode → List UInt8 → Nat → FsM Dinode
  | 0, ip, _, _ => return ip
  | fuel + 1, ip, src, off =>
    if src = [] then return ip
    else do
      let (ip, addr) ← bmap sb ip (off / 512)
      let bp ← bread addr
      let m := min src.length (512 - off % 512)
      logWrite addr (storeBytes bp (off % 512) (src.take m))
      writeLoop fuel ip (src.drop m) (off + m)

def writei (inum : Nat) (ip : Dinode) (src : List UInt8) (off : Nat) : FsM (Dinode × Int) :=
  if ip.type = T_DEV then return (ip, ((devsw.write ip.major).map (· src)).getD (-1))
  else if off > ip.size ∨ (off + src.length) % 2 ^ 32 < off then return (ip, -1)
  else if (off + src.length) % 2 ^ 32 > 140 * 512 then return (ip, -1)
  else do
    let ip ← writeLoop sb src.length ip src off
    if src ≠ [] ∧ off + src.length > ip.size then do
      let ip := { ip with size := off + src.length }
      iupdate sb inum ip
      return (ip, src.length)
    else return (ip, src.length)

end

end Xv6Sharing.Fs
