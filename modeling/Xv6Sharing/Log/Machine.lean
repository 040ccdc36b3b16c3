/-
Xv6Sharing.Log.Machine — the log and the operations it groups
(kernel/log.c, kernel/bio.c as far as the log needs it).

Processes run operations between `begin_op` and `end_op`; when the last one of a
group ends, its process commits the group, one disk write at a time. A crash may
come between any two steps. It leaves the disk alone, and the machine starts
again with `recover_from_log`, in which it may crash as well.

A buffer is what the cache holds of a block: its bytes, whether B_DIRTY pins it,
and who holds its lock. A process changes a buffer only while it holds the lock
and is in an operation, and gives the buffer back after `log_write`; `fresh`
marks a change that `log_write` has not seen yet. `log_write` reads the size of
the log before it takes the lock, so that is a step of its own. Sleeping in
`begin_op` is a step that is not enabled.

`ops` and `used`, the processes in an operation and the blocks each of them has
logged, are not in the source and decide nothing.
-/
import Mathlib.Data.Finset.Basic
import Xv6Sharing.Lib.Memory
import Xv6Sharing.Lib.RedoLog

namespace Xv6Sharing.Log

open Lib

def MAXOPBLOCKS : Nat := 10

def LOGSIZE : Nat := 3 * MAXOPBLOCKS

/-- The bytes of a disk block. -/
abbrev Block := Nat → UInt8

/-! ## The header block -/

/-- `read_head`: `n`, and then `n` block numbers. -/
def readHead (buf : Block) : List Nat :=
  if read32 buf 0 < 2 ^ 31 then (List.range (read32 buf 0)).map fun i => read32 buf (4 + 4 * i)
  else []

/-- The loop of `write_head` from the `i`-th block number on. -/
def storeBlocks : List Nat → Nat → Block → Block
  | [], _, buf => buf
  | b :: bs, i, buf => storeBlocks bs (i + 1) (write32 buf (4 + 4 * i) b)

/-- `write_head` on the buffer of the header block. -/
def writeHead (bs : List Nat) (buf : Block) : Block := storeBlocks bs 0 (write32 buf 0 bs.length)

/-- `recover_from_log` on a disk, run to its end. -/
def recoverFromLog (L : LogArea) (disk : Nat → Block) : Nat → Block :=
  let installed := installFrom L (readHead (disk L.start)) 0 disk
  Function.update installed L.start (writeHead [] (installed L.start))

/-! ## The machine -/

/-- What `commit` or `recover_from_log` does next; `idle` is `committing == 0`. -/
inductive Phase where
  | idle
  | writeLog (tail : Nat)
  | head
  | install (tail : Nat)
  | erase
  | readHead
  | halted
  deriving DecidableEq, Repr

structure Machine (P : Type) where
  disk : Nat → Block
  cache : Nat → Option Block
  dirty : Nat → Bool
  fresh : Nat → Bool
  holder : Nat → Option P
  checking : P → Option Nat
  block : List Nat
  outstanding : Nat
  phase : Phase
  up : Bool
  ops : Finset P
  used : P → Finset Nat

section

variable {P : Type} [DecidableEq P]

/-- What `bread` returns. -/
def Machine.content (m : Machine P) (b : Nat) : Block := (m.cache b).getD (m.disk b)

/-- `bwrite` of a buffer with these bytes. -/
def Machine.bwrite (m : Machine P) (b : Nat) (d : Block) : Machine P :=
  { m with
    disk := Function.update m.disk b d
    cache := Function.update m.cache b (some d)
    dirty := Function.update m.dirty b false }

/-- Power goes on: only the disk holds anything. -/
def poweredOn (disk : Nat → Block) : Machine P where
  disk := disk
  cache := fun _ => none
  dirty := fun _ => false
  fresh := fun _ => false
  holder := fun _ => none
  checking := fun _ => none
  block := []
  outstanding := 0
  phase := .readHead
  up := false
  ops := ∅
  used := fun _ => ∅

/-- What a step was. -/
inductive Event (P : Type) where
  | internal
  | begin_op (p : P)
  | end_op (p : P)
  | update (p : P) (b : Nat) (d : Block)
  | append (p : P) (b : Nat)
  /-- The header of a group reached the disk. -/
  | commit
  | crash

/-- The tests at the top of `log_write`. -/
def Machine.NoRoom (m : Machine P) (L : LogArea) : Prop :=
  m.block.length ≥ LOGSIZE ∨ m.block.length + 1 ≥ L.size ∨ m.outstanding < 1

inductive Step (L : LogArea) (m : Machine P) : Event P → Machine P → Prop
  | beginOp {p : P} : m.up = true → m.phase = .idle → p ∉ m.ops →
      m.block.length + (m.outstanding + 1) * MAXOPBLOCKS ≤ LOGSIZE →
      Step L m (.begin_op p) { m with
        outstanding := m.outstanding + 1
        ops := insert p m.ops
        used := Function.update m.used p ∅ }
  -- the last operation commits the group, unless nothing was logged
  | endOp {p : P} : m.up = true → m.phase = .idle → p ∈ m.ops → (∀ b, m.holder b ≠ some p) →
      Step L m (.end_op p) { m with
        outstanding := m.outstanding - 1
        ops := m.ops.erase p
        phase := if m.outstanding - 1 = 0 ∧ m.block ≠ [] then .writeLog 0 else .idle }
  | endPanics {p : P} : m.up = true → m.phase ≠ .idle → p ∈ m.ops →
      Step L m .internal { m with up := false, phase := .halted }
  | bread {p : P} {b : Nat} : m.up = true → m.holder b = none →
      Step L m .internal { m with
        holder := Function.update m.holder b (some p)
        cache := Function.update m.cache b (some (m.content b)) }
  | modify {p : P} {b : Nat} {d : Block} : m.up = true → m.holder b = some p → p ∈ m.ops →
      m.checking p = none → ¬ L.Has b → b < 2 ^ 32 →
      Step L m (.update p b d) { m with
        cache := Function.update m.cache b (some d)
        fresh := Function.update m.fresh b true }
  -- `log_write`, before it takes the lock
  | check {p : P} {b : Nat} : m.up = true → m.holder b = some p → p ∈ m.ops →
      m.checking p = none → ¬ L.Has b → b < 2 ^ 32 → ¬ m.NoRoom L →
      Step L m .internal { m with checking := Function.update m.checking p (some b) }
  | checkPanics {p : P} {b : Nat} : m.up = true → m.holder b = some p → p ∈ m.ops →
      m.checking p = none → m.NoRoom L →
      Step L m .internal { m with up := false, phase := .halted }
  -- and with the lock; a store past the end of `lh.block` is where the model stops
  | append {p : P} {b : Nat} : m.up = true → m.checking p = some b →
      b ∈ m.block ∨ m.block.length < LOGSIZE →
      Step L m (.append p b) { m with
        block := if b ∈ m.block then m.block else m.block ++ [b]
        dirty := Function.update m.dirty b true
        fresh := Function.update m.fresh b false
        checking := Function.update m.checking p none
        used := Function.update m.used p (insert b (m.used p)) }
  | brelse {p : P} {b : Nat} : m.up = true → m.holder b = some p → m.checking p = none →
      m.fresh b = false → Step L m .internal { m with holder := Function.update m.holder b none }
  -- `bget` takes the buffer for another block
  | recycle {b : Nat} : m.up = true → m.holder b = none → m.dirty b = false →
      Step L m .internal { m with cache := Function.update m.cache b none }
  -- `write_log`, one block of it
  | writeLog {tail : Nat} (h : tail < m.block.length) : m.phase = .writeLog tail →
      m.holder (L.slot tail) = none → m.holder m.block[tail] = none →
      Step L m .internal { m.bwrite (L.slot tail) (m.content m.block[tail]) with
        phase := if tail + 1 = m.block.length then .head else .writeLog (tail + 1) }
  | commitHead : m.phase = .head → m.holder L.start = none →
      Step L m .commit { m.bwrite L.start (writeHead m.block (m.content L.start)) with
        phase := .install 0 }
  -- `install_trans`, one block of it
  | install {tail : Nat} (h : tail < m.block.length) : m.phase = .install tail →
      m.holder (L.slot tail) = none → m.holder m.block[tail] = none →
      Step L m .internal { m.bwrite m.block[tail] (m.content (L.slot tail)) with
        phase := if tail + 1 = m.block.length then .erase else .install (tail + 1) }
  -- the end of `commit` and of `recover_from_log`
  | erase : m.phase = .erase → m.holder L.start = none →
      Step L m .internal { m.bwrite L.start (writeHead [] (m.content L.start)) with
        block := []
        phase := .idle
        up := true }
  | boot : m.phase = .readHead →
      Step L m .internal { m with
        block := readHead (m.content L.start)
        phase := if readHead (m.content L.start) = [] then .erase else .install 0 }
  | crash : Step L m .crash (poweredOn m.disk)

/-- The machine is switched on with a disk whose log is empty. -/
def Started (L : LogArea) (base : Nat → Block) (m : Machine P) : Prop :=
  0 < L.size ∧ readHead (base L.start) = [] ∧ m = poweredOn base

end

end Xv6Sharing.Log
