/-
Xv6Sharing.Ide.Machine — the two disk drivers (kernel/ide.c, kernel/memide.c).

memide.c does a request in one go; `memIderw` is its `iderw`. ide.c queues
requests, hands the first to the device and goes on when the device interrupts.
A step of the machine is what holds `idelock`, or what the device does: it
transfers the block of the request that was started, and then interrupts.

A buffer is locked by the process that calls `iderw`, so nobody else changes it
meanwhile; the buffers are those of the buffer cache, all on disk 1. A panic
ends the run.
-/
import Mathlib.Data.Fintype.Card
import Xv6Sharing.Lib.Linked

namespace Xv6Sharing.Ide

open Lib

/-- `struct buf` as the drivers see it: the two flags, the block and its bytes. -/
structure Buf (D : Type) where
  valid : Bool
  dirty : Bool
  blockno : Nat
  data : D

/-- `(b->flags & (B_VALID|B_DIRTY)) == B_VALID`. -/
def Buf.Synced {D : Type} (x : Buf D) : Prop := x.valid = true ∧ x.dirty = false

instance {D : Type} (x : Buf D) : Decidable x.Synced :=
  inferInstanceAs (Decidable (x.valid = true ∧ x.dirty = false))

def FSSIZE : Nat := 1000

/-! ## The memory disk -/

section

variable {P B D : Type} [DecidableEq P] [DecidableEq B]

structure MemDisk (B D : Type) where
  disk : Nat → D
  buf : B → Buf D

/-- `iderw` of memide.c; `none` is a panic. -/
def memIderw (s : MemDisk B D) (b : B) : Option (MemDisk B D) :=
  let x := s.buf b
  if x.Synced then none
  else if FSSIZE ≤ x.blockno then none
  else if x.dirty then
    some {
      disk := Function.update s.disk x.blockno x.data
      buf := Function.update s.buf b { x with dirty := false, valid := true } }
  else
    some { s with
      buf := Function.update s.buf b { x with data := s.disk x.blockno, valid := true } }

/-! ## The queued driver -/

/-- What `idestart` tells the device. -/
inductive Command (D : Type) where
  | read (blockno : Nat)
  | write (blockno : Nat) (data : D)

/-- The device: ready, working for a buffer, or done and interrupting; then it holds
the bytes that were read. -/
inductive Device (B D : Type) where
  | ready
  | busy (b : B) (cmd : Command D)
  | done (b : B) (data : Option D)

/-- `pc` is the buffer that a process waits for in `iderw`. -/
structure Machine (P B D : Type) where
  buf : B → Buf D
  qnext : B → Option B
  idequeue : Option B
  device : Device B D
  disk : Nat → D
  pc : P → Option B
  sleeping : P → Bool

/-- What is asked of the device for `x`. -/
def Buf.command (x : Buf D) : Command D :=
  if x.dirty then .write x.blockno x.data else .read x.blockno

def idestart (m : Machine P B D) (b : B) : Option (Machine P B D) :=
  if FSSIZE ≤ (m.buf b).blockno then none
  else some { m with device := .busy b (m.buf b).command }

/-- `iderw` appends `b` to the queue, and `p` will wait for it. -/
def appendBuf [Fintype B] (m : Machine P B D) (p : P) (b : B) : Machine P B D :=
  { m with
    idequeue := (enqueue (Fintype.card B) m.qnext m.idequeue b).1
    qnext := (enqueue (Fintype.card B) m.qnext m.idequeue b).2
    pc := Function.update m.pc p (some b)
    sleeping := Function.update m.sleeping p true }

/-- `iderw` up to `sleep`. -/
def iderw [Fintype B] (m : Machine P B D) (p : P) (b : B) : Option (Machine P B D) :=
  if (m.buf b).Synced then none
  else if (appendBuf m p b).idequeue = some b then idestart (appendBuf m p b) b
  else some (appendBuf m p b)

/-- What `ideintr` makes of a buffer, with the bytes that the device has. -/
def Buf.complete (x : Buf D) (data : Option D) : Buf D :=
  { x with data := if x.dirty then x.data else data.getD x.data, valid := true, dirty := false }

def ideintr (m : Machine P B D) (data : Option D) : Option (Machine P B D) :=
  match m.idequeue with
  | none => some { m with device := .ready }
  | some b =>
    let m' := { m with
      buf := Function.update m.buf b ((m.buf b).complete data)
      idequeue := m.qnext b
      device := .ready
      sleeping := fun q => if m.pc q = some b then false else m.sleeping q }
    match m'.idequeue with
    | none => some m'
    | some b' => idestart m' b'

/-- What a step was; `intr` has the buffer that was completed and the one that was started. -/
inductive Event (P B D : Type) where
  | internal
  | request (p : P) (b : B) (started : Bool)
  | transfer (b : B)
  | intr (done next : Option B)
  | ret (p : P) (b : B)
  | change (b : B) (x : Buf D)

inductive Step [Fintype B] (m : Machine P B D) : Event P B D → Machine P B D → Prop
  | request {p : P} {b : B} {m' : Machine P B D} : m.pc p = none → (∀ q, m.pc q ≠ some b) →
      iderw m p b = some m' → Step m (.request p b m.idequeue.isNone) m'
  | transferRead {b : B} {n : Nat} : m.device = .busy b (.read n) →
      Step m (.transfer b) { m with device := .done b (some (m.disk n)) }
  | transferWrite {b : B} {n : Nat} {data : D} : m.device = .busy b (.write n data) →
      Step m (.transfer b) { m with
        disk := Function.update m.disk n data
        device := .done b none }
  | intr {b : B} {data : Option D} {m' : Machine P B D} : m.device = .done b data →
      ideintr m data = some m' → Step m (.intr m.idequeue m'.idequeue) m'
  -- the test of the loop in `iderw`, after a wakeup
  | again {p : P} {b : B} : m.pc p = some b → m.sleeping p = false → ¬ (m.buf b).Synced →
      Step m .internal { m with sleeping := Function.update m.sleeping p true }
  | ret {p : P} {b : B} : m.pc p = some b → m.sleeping p = false → (m.buf b).Synced →
      Step m (.ret p b) { m with pc := Function.update m.pc p none }
  | kill {q : P} : Step m .internal { m with sleeping := Function.update m.sleeping q false }
  -- the process that has locked a buffer changes it
  | change {b : B} {x : Buf D} : (∀ q, m.pc q ≠ some b) →
      Step m (.change b x) { m with buf := Function.update m.buf b x }

/-- After `ideinit`: no requests, and nobody waits. -/
structure Started (m : Machine P B D) : Prop where
  idequeue : m.idequeue = none
  device : m.device = .ready
  pc : ∀ p, m.pc p = none

/-! ## One call after the other -/

/-- From `s₀`, the buffers change as in the steps `es`, the last one first, and each request
is done by memide.c when the device transfers its block. -/
inductive MemRun (s₀ : MemDisk B D) : List (Event P B D) → MemDisk B D → Prop
  | start : MemRun s₀ [] s₀
  | transfer {es : List (Event P B D)} {s s' : MemDisk B D} {b : B} : MemRun s₀ es s →
      memIderw s b = some s' → MemRun s₀ (.transfer b :: es) s'
  | change {es : List (Event P B D)} {s : MemDisk B D} {b : B} {x : Buf D} : MemRun s₀ es s →
      MemRun s₀ (.change b x :: es) { s with buf := Function.update s.buf b x }
  | internal {es : List (Event P B D)} {s : MemDisk B D} : MemRun s₀ es s →
      MemRun s₀ (.internal :: es) s
  | request {es : List (Event P B D)} {s : MemDisk B D} {p : P} {b : B} {started : Bool} :
      MemRun s₀ es s → MemRun s₀ (.request p b started :: es) s
  | intr {es : List (Event P B D)} {s : MemDisk B D} {done next : Option B} : MemRun s₀ es s →
      MemRun s₀ (.intr done next :: es) s
  | ret {es : List (Event P B D)} {s : MemDisk B D} {p : P} {b : B} : MemRun s₀ es s →
      MemRun s₀ (.ret p b :: es) s

end

section

variable {P B D : Type}

/-- The buffers for which `iderw` was called, in order. -/
def requested : List (Event P B D) → List B
  | [] => []
  | .request _ b _ :: es => requested es ++ [b]
  | _ :: es => requested es

/-- The buffers for which the device was started. -/
def started : List (Event P B D) → List B
  | [] => []
  | .request _ b true :: es => started es ++ [b]
  | .intr _ next :: es => started es ++ next.toList
  | _ :: es => started es

/-- The buffers whose blocks the device transferred. -/
def transferred : List (Event P B D) → List B
  | [] => []
  | .transfer b :: es => transferred es ++ [b]
  | _ :: es => transferred es

/-- The buffers that `ideintr` completed. -/
def completed : List (Event P B D) → List B
  | [] => []
  | .intr done _ :: es => completed es ++ done.toList
  | _ :: es => completed es

end

end Xv6Sharing.Ide
