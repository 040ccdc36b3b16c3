/-
Xv6Sharing.Sched.Machine — the process table under its lock
(kernel/proc.c).

Here a system call is not one step. Code that holds `ptable.lock` is one step
from `acquire` to `release`, or to the switch to another process; what runs
without the lock is cut where it matters: `fork` takes a slot, allocates the
stack, copies the memory, fills the slot and at last makes it runnable, and
every other process may run in between. The processors are numbered, and `cpu`
is `c->proc` of each.

After `sched` the lock passes to the scheduler and from there to the process
that runs next. A step of the model ends at that point, so the model has a few
more interleavings than the kernel, and no fewer.

The fields of `struct proc` are functions of the slot. Beside them, `pc` says
where in the kernel a process is, `asleep` that its saved context is inside
`sleep`, `stage` how far `fork` got with an EMBRYO. `born`, the number of the
`allocproc` call that took the slot, is not in the source and decides nothing.

The allocator is reduced to the set of frames it gave out: `kalloc` fails, or
returns a frame that is not in it. A page directory stands for the pages that
`freevm` gives back with it.
-/
import Mathlib.Data.Finset.Basic
import Xv6Sharing.Process.Table

namespace Xv6Sharing.Sched

open Process

/-! ## The table -/

/-- What a process sleeps on: the address of a process, or another address. -/
inductive Chan where
  | proc (p : Slot)
  | other (n : Nat)
  deriving DecidableEq, Repr

/-- How far `fork` got with the slot it took. -/
inductive Stage where
  | embryo
  | stack
  | copied
  | bad
  | freed
  | filled
  deriving DecidableEq, Repr

/-- Where in the kernel a process is; `user` is user mode and every system call
not named here. -/
inductive Pc where
  | user
  | fork (np : Slot)
  | wait
  | exit
  deriving DecidableEq, Repr

/-- `ptable.proc`, `nextpid`, `initproc`, what each processor runs, the frames given
out, and the number of `allocproc` calls that found a slot. -/
structure Machine where
  state : Slot → ProcState
  pid : Slot → Int
  parent : Slot → Option Slot
  killed : Slot → Bool
  chan : Slot → Option Chan
  kstack : Slot → Nat
  pgdir : Slot → Nat
  pc : Slot → Pc
  asleep : Slot → Bool
  stage : Slot → Stage
  born : Slot → Nat
  nextpid : Int
  initproc : Slot
  cpu : Nat → Option Slot
  used : Finset Nat
  births : Nat

/-- Reduction to a 32-bit `int`. -/
def i32 (n : Int) : Int := n.bmod (2 ^ 32)

/-! ## Code that runs under `ptable.lock` -/

/-- The first part of `allocproc`: the slot it takes. -/
def allocproc (m : Machine) : Option (Slot × Machine) :=
  match (List.finRange 64).find? fun p => m.state p = .unused with
  | none => none
  | some p =>
    some (p, { m with
      state := Function.update m.state p .embryo
      pid := Function.update m.pid p m.nextpid
      stage := Function.update m.stage p .embryo
      born := Function.update m.born p (m.births + 1)
      nextpid := i32 (m.nextpid + 1)
      births := m.births + 1 })

/-- `wakeup1(chan)`; `none` is the null pointer. -/
def wakeup1 (m : Machine) (chan : Option Chan) : Machine :=
  { m with state := fun q =>
      if m.state q = .sleeping ∧ m.chan q = chan then .runnable else m.state q }

/-- `kill(pid)`: the slot it found, or `none` for -1. -/
def kill (m : Machine) (pid : Int) : Option Slot × Machine :=
  match (List.finRange 64).find? fun q => m.pid q = pid with
  | none => (none, m)
  | some q =>
    (some q, { m with
      killed := Function.update m.killed q true
      state := Function.update m.state q
        (if m.state q = .sleeping then .runnable else m.state q) })

/-- The body of the loop in `exit` that passes the children of `p` to init. -/
def abandonOne (m : Machine) (p q : Slot) : Machine :=
  if m.parent q = some p then
    let m' := { m with parent := Function.update m.parent q (some m.initproc) }
    if m'.state q = .zombie then wakeup1 m' (some (.proc m.initproc)) else m'
  else m

/-- That loop over the slots `qs`. -/
def abandon (p : Slot) : List Slot → Machine → Machine
  | [], m => m
  | q :: qs, m => abandon p qs (abandonOne m p q)

/-- The end of `exit`, up to `sched`. -/
def exitLocked (m : Machine) (p : Slot) : Machine :=
  let m' := abandon p (List.finRange 64) (wakeup1 m ((m.parent p).map .proc))
  { m' with state := Function.update m'.state p .zombie }

/-- How a round of the loop in `wait` ends. -/
inductive Waited where
  | reaped (z : Slot)
  | failed
  | sleeps
  deriving DecidableEq, Repr

/-- `wait` gives a zombie's stack and memory back and clears the slot. -/
def reap (m : Machine) (z : Slot) : Machine :=
  { m with
    kstack := Function.update m.kstack z 0
    pid := Function.update m.pid z 0
    parent := Function.update m.parent z none
    killed := Function.update m.killed z false
    state := Function.update m.state z .unused
    used := (m.used.erase (m.kstack z)).erase (m.pgdir z) }

/-- `sleep(chan, ..)` of process `p`, up to `sched`. -/
def sleepOn (m : Machine) (p : Slot) (chan : Chan) : Machine :=
  { m with
    chan := Function.update m.chan p (some chan)
    state := Function.update m.state p .sleeping
    asleep := Function.update m.asleep p true }

/-- One round of the loop in `wait` of `p`. -/
def waitRound (m : Machine) (p : Slot) : Waited × Machine :=
  match (List.finRange 64).find? fun q => m.parent q = some p ∧ m.state q = .zombie with
  | some z => (.reaped z, reap m z)
  | none =>
    if (∀ q, m.parent q ≠ some p) ∨ m.killed p = true then (.failed, m)
    else (.sleeps, sleepOn m p (.proc p))

/-! ## Steps -/

/-- What a step was. -/
inductive Event where
  | internal
  | alloc (np : Slot)
  | forking (np : Slot)
  | forkFailed (np : Slot)
  | exec (p : Slot)
  | exited (p : Slot)
  | kill (pid : Int) (q : Option Slot)
  | trap (p : Slot)
  | waited (p z : Slot) (pid : Int) (born : Nat)
  | waitFailed (p : Slot)
  deriving DecidableEq, Repr

/-- The steps of the machine. Processor `c` runs process `p` in all of them but the
scheduler's and the interrupts'. -/
inductive Step (m : Machine) : Event → Machine → Prop
  -- `scheduler`; a process that was in `sleep` clears its channel
  | schedule {c : Nat} {p : Slot} : m.cpu c = none → m.state p = .runnable →
      Step m .internal { m with
        state := Function.update m.state p .running
        chan := Function.update m.chan p (if m.asleep p then none else m.chan p)
        asleep := Function.update m.asleep p false
        cpu := Function.update m.cpu c (some p) }
  | yield {c : Nat} {p : Slot} : m.cpu c = some p →
      Step m .internal { m with
        state := Function.update m.state p .runnable
        cpu := Function.update m.cpu c none }
  -- `sleep` of another system call, or while `exit` closes files
  | sleep {c n : Nat} {p : Slot} : m.cpu c = some p → m.pc p = .user ∨ m.pc p = .exit →
      Step m .internal { sleepOn m p (.other n) with cpu := Function.update m.cpu c none }
  -- `wakeup` of a system call or an interrupt
  | wakeup {n : Nat} : Step m .internal (wakeup1 m (some (.other n)))
  | kill {c : Nat} {p : Slot} {pid : Int} : m.cpu c = some p → m.pc p = .user →
      Step m (.kill pid (kill m pid).1) (kill m pid).2
  -- a fault in user mode
  | trap {c : Nat} {p : Slot} : m.cpu c = some p → m.pc p = .user →
      Step m (.trap p) { m with killed := Function.update m.killed p true }
  -- `exec` replaces the page directory
  | exec {c d : Nat} {p : Slot} : m.cpu c = some p → m.pc p = .user → d ≠ 0 → d ∉ m.used →
      Step m (.exec p) { m with
        pgdir := Function.update m.pgdir p d
        used := insert d (m.used.erase (m.pgdir p)) }
  | forkFull {c : Nat} {p : Slot} : m.cpu c = some p → m.pc p = .user → allocproc m = none →
      Step m .internal m
  | forkAlloc {m' : Machine} {c : Nat} {p np : Slot} : m.cpu c = some p → m.pc p = .user →
      allocproc m = some (np, m') →
      Step m (.alloc np) { m' with pc := Function.update m'.pc p (.fork np) }
  | forkNoStack {c : Nat} {p np : Slot} : m.cpu c = some p → m.pc p = .fork np →
      m.stage np = .embryo →
      Step m (.forkFailed np) { m with
        kstack := Function.update m.kstack np 0
        state := Function.update m.state np .unused
        pc := Function.update m.pc p .user }
  | forkStack {c k : Nat} {p np : Slot} : m.cpu c = some p → m.pc p = .fork np →
      m.stage np = .embryo → k ≠ 0 → k ∉ m.used →
      Step m (.forking np) { m with
        kstack := Function.update m.kstack np k
        pc := Function.update m.pc np .user
        asleep := Function.update m.asleep np false
        stage := Function.update m.stage np .stack
        used := insert k m.used }
  | forkCopyFails {c : Nat} {p np : Slot} : m.cpu c = some p → m.pc p = .fork np →
      m.stage np = .stack →
      Step m (.forking np) { m with
        pgdir := Function.update m.pgdir np 0
        stage := Function.update m.stage np .bad }
  | forkCopy {c d : Nat} {p np : Slot} : m.cpu c = some p → m.pc p = .fork np →
      m.stage np = .stack → d ≠ 0 → d ∉ m.used →
      Step m (.forking np) { m with
        pgdir := Function.update m.pgdir np d
        stage := Function.update m.stage np .copied
        used := insert d m.used }
  | forkFree {c : Nat} {p np : Slot} : m.cpu c = some p → m.pc p = .fork np →
      m.stage np = .bad →
      Step m (.forking np) { m with
        stage := Function.update m.stage np .freed
        used := m.used.erase (m.kstack np) }
  | forkUndo {c : Nat} {p np : Slot} : m.cpu c = some p → m.pc p = .fork np →
      m.stage np = .freed →
      Step m (.forkFailed np) { m with
        kstack := Function.update m.kstack np 0
        state := Function.update m.state np .unused
        pc := Function.update m.pc p .user }
  | forkFill {c : Nat} {p np : Slot} : m.cpu c = some p → m.pc p = .fork np →
      m.stage np = .copied →
      Step m (.forking np) { m with
        parent := Function.update m.parent np (some p)
        stage := Function.update m.stage np .filled }
  | forkDone {c : Nat} {p np : Slot} : m.cpu c = some p → m.pc p = .fork np →
      m.stage np = .filled →
      Step m (.forking np) { m with
        state := Function.update m.state np .runnable
        pc := Function.update m.pc p .user }
  -- init may not exit: the kernel panics
  | exit {c : Nat} {p : Slot} : m.cpu c = some p → m.pc p = .user → p ≠ m.initproc →
      Step m .internal { m with pc := Function.update m.pc p .exit }
  | exitLast {c : Nat} {p : Slot} : m.cpu c = some p → m.pc p = .exit →
      Step m (.exited p) { exitLocked m p with cpu := Function.update m.cpu c none }
  | wait {c : Nat} {p : Slot} : m.cpu c = some p → m.pc p = .user →
      Step m .internal { m with pc := Function.update m.pc p .wait }
  | waited {m' : Machine} {c : Nat} {p z : Slot} : m.cpu c = some p → m.pc p = .wait →
      waitRound m p = (.reaped z, m') →
      Step m (.waited p z (m.pid z) (m.born z)) { m' with pc := Function.update m'.pc p .user }
  | waitFailed {m' : Machine} {c : Nat} {p : Slot} : m.cpu c = some p → m.pc p = .wait →
      waitRound m p = (.failed, m') →
      Step m (.waitFailed p) { m' with pc := Function.update m'.pc p .user }
  | waitSleeps {m' : Machine} {c : Nat} {p : Slot} : m.cpu c = some p → m.pc p = .wait →
      waitRound m p = (.sleeps, m') →
      Step m .internal { m' with cpu := Function.update m'.cpu c none }

/-- The machine after `userinit`: one process in a zeroed table, with kernel stack
`k` and page directory `d`; `used` has whatever else the kernel allocated. -/
def started (k d : Nat) (used : Finset Nat) : Machine where
  state := Function.update (fun _ => .unused) 0 .runnable
  pid := Function.update (fun _ => 0) 0 1
  parent := fun _ => none
  killed := fun _ => false
  chan := fun _ => none
  kstack := Function.update (fun _ => 0) 0 k
  pgdir := Function.update (fun _ => 0) 0 d
  pc := fun _ => .user
  asleep := fun _ => false
  stage := fun _ => .embryo
  born := Function.update (fun _ => 0) 0 1
  nextpid := 2
  initproc := 0
  cpu := fun _ => none
  used := insert k (insert d used)
  births := 1

def Started (m : Machine) : Prop := ∃ k d used, k ≠ 0 ∧ d ≠ 0 ∧ k ≠ d ∧ m = started k d used

end Xv6Sharing.Sched
