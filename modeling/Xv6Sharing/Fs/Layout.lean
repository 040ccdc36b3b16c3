/-
Xv6Sharing.Fs.Layout — the on-disk format (kernel/fs.h).

A disk is a function from block numbers to blocks, a block a function from
offsets to bytes of which the first 512 count. The constants of fs.h are
written out: BSIZE is 512, NDIRECT 12, NINDIRECT 128 and MAXFILE 140, a
`struct dinode` takes 64 bytes (IPB is 8), a bitmap block has 4096 bits (BPB),
a `struct dirent` takes 16 bytes, of which DIRSIZ = 14 are the name.

Block addresses are kept in slots of an inode: the thirteen of `addrs`, the last
of which is the indirect block, and the 128 of the indirect block.
-/
import Mathlib.Data.UInt
import Mathlib.Logic.Function.Basic
import Xv6Sharing.Lib.Memory
import Xv6Sharing.Lib.Slots

namespace Xv6Sharing.Fs

open Lib

abbrev Block := Nat → UInt8

abbrev Disk := Nat → Block

structure Superblock where
  size : Nat
  nblocks : Nat
  ninodes : Nat
  nlog : Nat
  logstart : Nat
  inodestart : Nat
  bmapstart : Nat
  deriving DecidableEq, Repr

namespace Superblock

variable (sb : Superblock)

/-- `IBLOCK(i, sb)`. -/
def iblock (i : Nat) : Nat := i / 8 + sb.inodestart

/-- `BBLOCK(b, sb)`. -/
def bblock (b : Nat) : Nat := b / 4096 + sb.bmapstart

/-- A block behind the metadata. -/
def Data (b : Nat) : Prop := sb.size - sb.nblocks ≤ b ∧ b < sb.size

instance (b : Nat) : Decidable (sb.Data b) :=
  inferInstanceAs (Decidable (sb.size - sb.nblocks ≤ b ∧ b < sb.size))

/-- The inode blocks lie before the bitmap and the bitmap before the data, as
in the layout that fs.h draws. -/
structure Valid : Prop where
  inodes : ∀ i < sb.ninodes, sb.iblock i < sb.bmapstart
  bitmap : ∀ b < sb.size, sb.bblock b < sb.size - sb.nblocks
  pos : 0 < sb.size
  small : sb.size < 2 ^ 32

end Superblock

/-! ## Inodes -/

/-- The types of inodes, as kernel/stat.h numbers them. -/
def T_DIR : Nat := 1
def T_FILE : Nat := 2
def T_DEV : Nat := 3

/-- `struct dinode`; the shorts are kept as unsigned values. -/
@[ext]
structure Dinode where
  type : Nat
  major : Nat
  minor : Nat
  nlink : Nat
  size : Nat
  addrs : Nat → Nat

/-- The little-endian half word at an offset. -/
def read16 (blk : Block) (a : Nat) : Nat := (blk a).toNat + 256 * (blk (a + 1)).toNat

/-- The `i`-th byte of a number. -/
def byte (w i : Nat) : UInt8 := UInt8.ofNat (w / 256 ^ i)

/-- The `k`-th `struct dinode` of a block. -/
def getInode (blk : Block) (k : Nat) : Dinode where
  type := read16 blk (64 * k)
  major := read16 blk (64 * k + 2)
  minor := read16 blk (64 * k + 4)
  nlink := read16 blk (64 * k + 6)
  size := read32 blk (64 * k + 8)
  addrs := fun j => if j < 13 then read32 blk (64 * k + 12 + 4 * j) else 0

/-- The bytes of a `struct dinode`. -/
def Dinode.bytes (d : Dinode) (x : Nat) : UInt8 :=
  if x < 2 then byte d.type x
  else if x < 4 then byte d.major (x - 2)
  else if x < 6 then byte d.minor (x - 4)
  else if x < 8 then byte d.nlink (x - 6)
  else if x < 12 then byte d.size (x - 8)
  else byte (d.addrs ((x - 12) / 4)) ((x - 12) % 4)

/-- Store the `k`-th `struct dinode` of a block. -/
def putInode (blk : Block) (k : Nat) (d : Dinode) : Block :=
  fun x => if x / 64 = k then d.bytes (x % 64) else blk x

/-- The fields have the widths they have in C. -/
structure Dinode.Fits (d : Dinode) : Prop where
  type : d.type < 2 ^ 16
  major : d.major < 2 ^ 16
  minor : d.minor < 2 ^ 16
  nlink : d.nlink < 2 ^ 16
  size : d.size < 2 ^ 32
  addrs : ∀ k, d.addrs k < 2 ^ 32
  thirteen : ∀ k, 13 ≤ k → d.addrs k = 0

def Dinode.setAddr (d : Dinode) (k addr : Nat) : Dinode :=
  { d with addrs := Function.update d.addrs k addr }

/-- The inode `i` of a disk. -/
def dinode (sb : Superblock) (disk : Disk) (i : Nat) : Dinode :=
  getInode (disk (sb.iblock i)) (i % 8)

/-! ## The bitmap -/

/-- `1 << (bi % 8)`. -/
def mask (bi : Nat) : UInt8 := 1 <<< UInt8.ofNat (bi % 8)

def testBit (blk : Block) (bi : Nat) : Bool := blk (bi / 8) &&& mask bi != 0

def setBit (blk : Block) (bi : Nat) : Block :=
  Function.update blk (bi / 8) (blk (bi / 8) ||| mask bi)

def clearBit (blk : Block) (bi : Nat) : Block :=
  Function.update blk (bi / 8) (blk (bi / 8) &&& ~~~ mask bi)

/-- Block `b` is marked as in use. -/
def Marked (sb : Superblock) (disk : Disk) (b : Nat) : Prop :=
  testBit (disk (sb.bblock b)) (b % 4096) = true

instance (sb : Superblock) (disk : Disk) (b : Nat) : Decidable (Marked sb disk b) :=
  inferInstanceAs (Decidable (_ = true))

/-! ## Slots -/

/-- A place in which an inode keeps a block address: an element of `addrs`, or of
the indirect block. -/
inductive Slot where
  | addr (k : Fin 13)
  | entry (j : Fin 128)
  deriving DecidableEq

instance neZeroAddrs : NeZero 13 := ⟨by decide⟩

/-- What a slot holds. -/
def slotAddr (disk : Disk) (d : Dinode) : Slot → Nat
  | .addr k => d.addrs k
  | .entry j => if d.addrs 12 = 0 then 0 else read32 (disk (d.addrs 12)) (4 * j)

/-- What a slot of an inode of a file system holds; free inodes hold nothing. -/
def ownerAddr (n : Nat) (disk : Disk) (ino : Nat → Dinode) (o : Nat × Slot) : Nat :=
  if o.1 < n ∧ (ino o.1).type ≠ 0 then slotAddr disk (ino o.1) o.2 else 0

/-- The slot for block `bn` of a file. -/
def slotOf (bn : Nat) (h : bn < 140) : Slot :=
  if h' : bn < 12 then .addr ⟨bn, by omega⟩ else .entry ⟨bn - 12, by omega⟩

/-- Byte `x` of a file. -/
def fileByte (disk : Disk) (d : Dinode) (x : Nat) : UInt8 :=
  if h : x / 512 < 140 then disk (slotAddr disk d (slotOf (x / 512) h)) (x % 512) else 0

end Xv6Sharing.Fs
