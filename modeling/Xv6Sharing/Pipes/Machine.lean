/-
Xv6Sharing.Pipes.Machine — one pipe and the processes that use it
(kernel/pipe.c).

A step is what a process does from taking `p->lock` to releasing it, which
`sleep` does as well. Several processes read and write; a writer that sleeps in
the middle of its bytes holds what is left of them, and reads the bytes from
its memory again when it goes on, so every section gets its bytes anew. `uint`
counters are natural numbers modulo 2^32.

A process inside `pipewrite` holds a reference to the write end through its
descriptor table, so that end is not closed meanwhile; the same for `piperead`.
-/
import Mathlib.Logic.Function.Basic
import Xv6Sharing.Lib.Ring

namespace Xv6Sharing.Pipes

open Lib

/-! ## The buffer -/

def PIPESIZE : Nat := 512

/-- `struct pipe`. -/
structure Pipe where
  data : Nat → UInt8
  nread : Nat
  nwrite : Nat
  readopen : Bool
  writeopen : Bool

/-- The test of the loop in `pipewrite`. -/
def Pipe.Full (p : Pipe) : Prop := p.nwrite = (p.nread + PIPESIZE) % 2 ^ 32

instance (p : Pipe) : Decidable p.Full :=
  inferInstanceAs (Decidable (p.nwrite = (p.nread + PIPESIZE) % 2 ^ 32))

/-- `p->data[p->nwrite++ % PIPESIZE] = b`. -/
def Pipe.store (p : Pipe) (b : UInt8) : Pipe :=
  { p with
    data := Function.update p.data (p.nwrite % PIPESIZE) b
    nwrite := (p.nwrite + 1) % 2 ^ 32 }

/-- The loop of `pipewrite` up to its end, or to a byte for which there is no room:
the number of bytes stored. -/
def fill : List UInt8 → Pipe → Nat × Pipe
  | [], p => (0, p)
  | b :: bs, p =>
    if p.Full then (0, p)
    else ((fill bs (p.store b)).1 + 1, (fill bs (p.store b)).2)

/-- The loop of `piperead` that copies at most `n` bytes. -/
def drain : Nat → Pipe → List UInt8 × Pipe
  | 0, p => ([], p)
  | n + 1, p =>
    if p.nread = p.nwrite then ([], p)
    else
      let r := drain n { p with nread := (p.nread + 1) % 2 ^ 32 }
      (p.data (p.nread % PIPESIZE) :: r.1, r.2)

/-- The bytes in the buffer, the oldest first. -/
def Pipe.buffered (p : Pipe) : List UInt8 := queued PIPESIZE (2 ^ 32) p.data p.nread p.nwrite

/-! ## The processes -/

/-- `&p->nread` and `&p->nwrite`. -/
inductive Chan where
  | nread
  | nwrite
  deriving DecidableEq, Repr

/-- Where a process is: `writing n left` has `left` of its `n` bytes to store. -/
inductive Pc where
  | user
  | writing (n left : Nat)
  | reading (n : Nat)
  deriving DecidableEq, Repr

/-- The pipe, and of each process what concerns it. -/
structure Machine (P : Type) where
  pipe : Pipe
  pc : P → Pc
  sleeping : P → Option Chan
  killed : P → Bool

section

variable {P : Type} [DecidableEq P]

def wakeup (m : Machine P) (chan : Chan) : Machine P :=
  { m with sleeping := fun q => if m.sleeping q = some chan then none else m.sleeping q }

def sleep (m : Machine P) (p : P) (chan : Chan) : Machine P :=
  { m with sleeping := Function.update m.sleeping p (some chan) }

/-- One section of `pipewrite` with the bytes `addr` left to write: how many it stored,
the value it returned unless it sleeps, and the machine after it. -/
def pipewrite (m : Machine P) (p : P) (n : Nat) (addr : List UInt8) :
    Nat × Option Int × Machine P :=
  let i := (fill addr m.pipe).1
  let m' := { m with pipe := (fill addr m.pipe).2, pc := Function.update m.pc p .user }
  if i = addr.length then (i, some n, wakeup m' .nread)
  else if m.pipe.readopen = false ∨ m.killed p = true then (i, some (-1), m')
  else
    (i, none, sleep { wakeup m' .nread with
      pc := Function.update m.pc p (.writing n (addr.length - i)) } p .nwrite)

/-- One section of `piperead`: the bytes it copied, the value it returned unless it
sleeps, and the machine after it. -/
def piperead (m : Machine P) (p : P) (n : Nat) : List UInt8 × Option Int × Machine P :=
  if m.pipe.nread = m.pipe.nwrite ∧ m.pipe.writeopen = true then
    if m.killed p = true then ([], some (-1), { m with pc := Function.update m.pc p .user })
    else ([], none, sleep m p .nread)
  else
    ((drain n m.pipe).1, some (drain n m.pipe).1.length,
      wakeup { m with pipe := (drain n m.pipe).2, pc := Function.update m.pc p .user } .nwrite)

/-- What a step was: a section of `pipewrite` with the bytes it had and those it stored,
a section of `piperead` with the bytes it returned, or something else. -/
inductive Event (P : Type) where
  | internal
  | write (p : P) (addr stored : List UInt8) (ret : Option Int)
  | read (p : P) (n : Nat) (bytes : List UInt8) (ret : Option Int)

inductive Step (m : Machine P) : Event P → Machine P → Prop
  | callWrite {p : P} {n : Nat} : m.pc p = .user → m.pipe.writeopen = true →
      Step m .internal { m with pc := Function.update m.pc p (.writing n n) }
  | write {p : P} {n left : Nat} {addr : List UInt8} : m.pc p = .writing n left →
      m.sleeping p = none → addr.length = left →
      Step m (.write p addr (addr.take (pipewrite m p n addr).1) (pipewrite m p n addr).2.1)
        (pipewrite m p n addr).2.2
  | callRead {p : P} {n : Nat} : m.pc p = .user → m.pipe.readopen = true →
      Step m .internal { m with pc := Function.update m.pc p (.reading n) }
  | read {p : P} {n : Nat} : m.pc p = .reading n → m.sleeping p = none →
      Step m (.read p n (piperead m p n).1 (piperead m p n).2.1) (piperead m p n).2.2
  -- `pipeclose`, when the last reference to an end goes
  | closeWrite : m.pipe.writeopen = true → (∀ q n left, m.pc q ≠ .writing n left) →
      Step m .internal (wakeup { m with pipe := { m.pipe with writeopen := false } } .nread)
  | closeRead : m.pipe.readopen = true → (∀ q n, m.pc q ≠ .reading n) →
      Step m .internal (wakeup { m with pipe := { m.pipe with readopen := false } } .nwrite)
  | kill {q : P} :
      Step m .internal { m with
        killed := Function.update m.killed q true
        sleeping := Function.update m.sleeping q none }
  -- a kill that comes when the process has tested `killed` and is not asleep yet
  | killLate {q : P} : Step m .internal { m with killed := Function.update m.killed q true }
  -- the process ends and another gets its slot
  | renew {q : P} : m.pc q = .user →
      Step m .internal { m with killed := Function.update m.killed q false }

/-- After `pipealloc`: the counters are zero, the data is whatever the page held. -/
structure Started (m : Machine P) : Prop where
  nread : m.pipe.nread = 0
  nwrite : m.pipe.nwrite = 0
  readopen : m.pipe.readopen = true
  writeopen : m.pipe.writeopen = true
  pc : ∀ q, m.pc q = .user
  sleeping : ∀ q, m.sleeping q = none

end

end Xv6Sharing.Pipes
