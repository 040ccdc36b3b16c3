/-
Xv6Sharing.Bio.Machine — the buffer cache (kernel/bio.c).

The steps are those of any number of `bread` calls that are under way at once,
each with its own name: `bget` under `bcache.lock`, the wait for the sleeplock
of the buffer, the read from disk, then whatever the caller does with the locked
buffer, and the two halves of `brelse`. A caller changes the data in place,
calls `log_write` or `bwrite`, and lets the buffer go only after one of them;
`install_trans`, `write_log` and `write_head` are made of the same steps. What
`log_write` does to the log header is in `Log.Machine`.

The disk is the memory disk of memide.c. The nodes of the list are the buffers
and `bcache.head`, which is `none` here.
-/
import Xv6Sharing.Ide.Machine

namespace Xv6Sharing.Bio

open Lib

/-- A buffer of `bcache.buf`. -/
abbrev Slot := Fin 30

/-- `struct buf` without its links. -/
structure Buf (D : Type) extends Ide.Buf D where
  dev : Nat
  refcnt : Nat

/-- How far a `bread` call and what follows it is; `held` says whether the data was given
to `log_write` or `bwrite` since it was changed. -/
inductive Call where
  | idle
  | waiting (b : Slot)
  | reading (b : Slot)
  | held (b : Slot) (stored : Bool)
  | releasing (b : Slot)
  deriving DecidableEq, Repr

/-- The buffer that a call has counted in `refcnt`. -/
def Call.buf : Call → Option Slot
  | .idle => none
  | .waiting b | .reading b | .held b _ | .releasing b => some b

/-- `bcache`, the sleeplocks of its buffers, the disk, and the calls with the block each
was made for. -/
structure Machine (H D : Type) where
  buf : Slot → Buf D
  next : Option Slot → Option Slot
  prev : Option Slot → Option Slot
  lock : Slot → Option H
  disk : Nat → D
  call : H → Call
  asked : H → Nat × Nat

section

variable {H D : Type} [DecidableEq H]

/-- The links after `binit`. -/
def binit : (Option Slot → Option Slot) × (Option Slot → Option Slot) :=
  (List.finRange 30).foldl (fun l b => insertAfter l.1 l.2 none (some b))
    (fun _ => none, fun _ => none)

def setBuf (m : Machine H D) (b : Slot) (x : Buf D) : Machine H D :=
  { m with buf := Function.update m.buf b x }

/-- The test of the first loop of `bget`. -/
def caches (m : Machine H D) (dev blockno : Nat) : Option Slot → Bool
  | none => false
  | some b => (m.buf b).dev = dev ∧ (m.buf b).blockno = blockno

/-- The test of the second loop. -/
def unused (m : Machine H D) : Option Slot → Bool
  | none => false
  | some b => (m.buf b).refcnt = 0 ∧ (m.buf b).dirty = false

/-- `bget` up to the sleeplock; `none` is the panic. -/
def bget (m : Machine H D) (dev blockno : Nat) : Option (Slot × Machine H D) :=
  match (scan m.next none (caches m dev blockno) 31 (m.next none)).join with
  | some b => some (b, setBuf m b { m.buf b with refcnt := (m.buf b).refcnt + 1 })
  | none =>
    match (scan m.prev none (unused m) 31 (m.prev none)).join with
    | some b =>
      some (b, setBuf m b { m.buf b with dev, blockno, valid := false, dirty := false, refcnt := 1 })
    | none => none

/-- `iderw` on disk 1. -/
def iderw (m : Machine H D) (b : Slot) : Option (Machine H D) :=
  if (m.buf b).dev ≠ 1 then none
  else (Ide.memIderw ⟨m.disk, fun x => (m.buf x).toBuf⟩ b).map fun s =>
    { m with disk := s.disk, buf := fun x => { m.buf x with toBuf := s.buf x } }

/-- `bread` once it has the buffer. -/
def bread (m : Machine H D) (b : Slot) : Option (Machine H D) :=
  if (m.buf b).valid then some m else iderw m b

def markDirty (m : Machine H D) (b : Slot) : Machine H D :=
  setBuf m b { m.buf b with dirty := true }

/-- `brelse` under `bcache.lock`. -/
def brelse (m : Machine H D) (b : Slot) : Machine H D :=
  let m' := setBuf m b { m.buf b with refcnt := (m.buf b).refcnt - 1 }
  if (m'.buf b).refcnt = 0 then
    let l := unlink m'.next m'.prev (some b)
    { m' with
      next := (insertAfter l.1 l.2 none (some b)).1
      prev := (insertAfter l.1 l.2 none (some b)).2 }
  else m'

/-- What a step was: a `bread` that returned these bytes, bytes given to `log_write` or
`bwrite`, or something else. -/
inductive Event (H D : Type) where
  | internal
  | bread (h : H) (dev blockno : Nat) (data : D)
  | store (dev blockno : Nat) (data : D)

inductive Step (m : Machine H D) : Event H D → Machine H D → Prop
  | bget {h : H} {dev blockno : Nat} {b : Slot} {m' : Machine H D} : m.call h = .idle → dev ≠ 0 →
      bget m dev blockno = some (b, m') →
      Step m .internal { m' with
        call := Function.update m.call h (.waiting b)
        asked := Function.update m.asked h (dev, blockno) }
  | acquiresleep {h : H} {b : Slot} : m.call h = .waiting b → m.lock b = none →
      Step m .internal { m with
        lock := Function.update m.lock b (some h)
        call := Function.update m.call h (.reading b) }
  | bread {h : H} {b : Slot} {m' : Machine H D} : m.call h = .reading b → bread m b = some m' →
      Step m (.bread h (m.asked h).1 (m.asked h).2 (m'.buf b).data)
        { m' with call := Function.update m.call h (.held b true) }
  | modify {h : H} {b : Slot} {stored : Bool} {d : D} : m.call h = .held b stored →
      Step m .internal { setBuf m b { m.buf b with data := d } with
        call := Function.update m.call h (.held b false) }
  | logWrite {h : H} {b : Slot} {stored : Bool} : m.call h = .held b stored →
      Step m (.store (m.buf b).dev (m.buf b).blockno (m.buf b).data)
        { markDirty m b with call := Function.update m.call h (.held b true) }
  | bwrite {h : H} {b : Slot} {stored : Bool} {m' : Machine H D} : m.call h = .held b stored →
      iderw (markDirty m b) b = some m' →
      Step m (.store (m.buf b).dev (m.buf b).blockno (m.buf b).data)
        { m' with call := Function.update m.call h (.held b true) }
  | releasesleep {h : H} {b : Slot} : m.call h = .held b true →
      Step m .internal { m with
        lock := Function.update m.lock b none
        call := Function.update m.call h (.releasing b) }
  | brelse {h : H} {b : Slot} : m.call h = .releasing b →
      Step m .internal { brelse m b with call := Function.update m.call h .idle }

/-- After `binit`: the buffers are zero, and no call is under way. -/
structure Started (m : Machine H D) : Prop where
  dev : ∀ b, (m.buf b).dev = 0
  refcnt : ∀ b, (m.buf b).refcnt = 0
  clean : ∀ b, (m.buf b).dirty = false
  links : (m.next, m.prev) = binit
  lock : ∀ b, m.lock b = none
  call : ∀ h, m.call h = .idle

/-- The bytes last given to `log_write` or `bwrite` for a block in the steps `es`, the last
one first; else what was on the disk. -/
def lastStored (disk : Nat → D) : List (Event H D) → Nat → Nat → D
  | [], _, blockno => disk blockno
  | .store dev' blockno' data :: es, dev, blockno =>
    if dev' = dev ∧ blockno' = blockno then data else lastStored disk es dev blockno
  | _ :: es, dev, blockno => lastStored disk es dev blockno

end

end Xv6Sharing.Bio
