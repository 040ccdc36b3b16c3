/-
Xv6Sharing.Process.System — the machine as a transition system.

`main` boots it (kernel/main.c): the allocator gets the memory below 4 MB,
the kernel's page directory and the boot stacks of the other processors are
allocated, the allocator gets the rest, and `userinit` makes the first
process. Then any runnable process makes any system call, each call one
step. `wait` is a step when it returns; while it sleeps nothing happens.
-/
import Xv6Sharing.Lib.Run
import Xv6Sharing.Process.Exec

namespace Xv6Sharing.Process

open Lib Vm Share

/-! ## Booting -/

/-- The machine before `main`: memory as the loader left it, tables zeroed. -/
def powerOn (mem : Mem) : Sys where
  phys := ⟨mem, []⟩
  proc := fun _ => Proc.zero
  file := fun _ => File.zero
  pipe := fun _ => ⟨false, false⟩
  iref := fun _ => 0
  kpgdir := 0
  bootStacks := []
  initproc := 0
  nextpid := 1

/-- `kvmalloc()`. Without a page directory the machine cannot go on. -/
def kvmalloc (L : Layout) : SysM Unit := do
  match ← onPhys (setupkvm L) with
  | none => throw .nullDeref
  | some d => modify fun s => { s with kpgdir := d }

/-- `startothers()`: a stack for each of the `n` other processors. -/
def startothers : Nat → SysM Unit
  | 0 => return ()
  | n + 1 => do
      match ← onPhys kalloc with
      | none => throw .nullDeref
      | some k =>
        modify fun s => { s with bootStacks := k :: s.bootStacks }
        startothers n

/-- "initcode". -/
def initcodeName : List UInt8 := [105, 110, 105, 116, 99, 111, 100, 101]

/-- `userinit()`, with the bytes of initcode. -/
def userinit (L : Layout) (initcode : List UInt8) : SysM Unit := do
  match ← allocproc with
  | none => throw .nullDeref
  | some p =>
    modify fun s => { s with initproc := p }
    match ← onPhys (setupkvm L) with
    | none => throw .userinit
    | some d =>
      onPhys (inituvm d initcode)
      setProc p fun q =>
        { q with
          pgdir := d
          sz := 4096
          tf := ⟨0, 4096, 0⟩
          name := initcodeName
          state := .runnable }

/-- `main()` up to the scheduler, on a machine with `ncpu` processors. -/
def main (L : Layout) (ncpu : Nat) (initcode : List UInt8) : SysM Unit := do
  onPhys (freerange L L.kend 0x400000)
  kvmalloc L
  startothers (ncpu - 1)
  onPhys (freerange L 0x400000 phystop)
  userinit L initcode

/-- `s` is the machine when the first process is about to run; `mpinit` counts at
most `NCPU` processors. -/
def Booted (L : Layout) (s : Sys) : Prop :=
  ∃ mem ncpu initcode, ncpu ≤ 8 ∧ main L ncpu initcode (powerOn mem) = .ok ((), s)

/-! ## System calls -/

/-- `sys_share_data` of process `p`. -/
def shareData (p : Slot) (name : Option CString) (addr : Option Nat) (size : Option Int) :
    SysM Int := do
  let s ← get
  let r := sysShareData (s.proc p).sz (s.proc p).shared name addr size
  setProc p fun q => { q with shared := r.2 }
  return r.1

/-- The system calls, with the arguments fetched for them. -/
inductive Act where
  | shareData (name : Option CString) (addr : Option Nat) (size : Option Int)
  | getData (name : Option CString) (addrp : Option Nat)
  | fork
  | exec (path : Option CString) (file : Option (List UInt8)) (argv : List CString)
  | sbrk (n : Option Int)
  | exit
  | wait
  | pipe (arg : Option Nat)
  | close (n : Option Int)
  | dup (n : Option Int)
  | open (ip : Option Nat) (readable writable : Bool)

/-- A system call of process `p`: what it returns, or `none` when it sleeps. -/
def Act.run (L : Layout) (p : Slot) : Act → SysM (Option Int)
  | .shareData name addr size => do
      let r ← Process.shareData p name addr size
      return some r
  | .getData name addrp => do
      let s ← get
      return some (sysGetData (s.proc p).sz (s.proc p).shared name addrp).1
  | .fork => do
      let r ← Process.fork L p
      return some r
  | .exec path file argv => do
      let r ← sysExec L p path file argv
      return some r
  | .sbrk n => do
      let r ← sysSbrk L p n
      return some r
  | .exit => do
      Process.exit L p
      return some 0
  | .wait => Process.wait L p
  | .pipe arg => do
      let r ← sysPipe L p arg
      return some (if r.isSome then 0 else -1)
  | .close n => do
      let r ← sysClose L p n
      return some r
  | .dup n => do
      let r ← sysDup p n
      return some r
  | .open ip readable writable => do
      let r ← sysOpen L p ip readable writable
      return some r

/-- One step: a runnable process makes a system call that returns `r`. -/
def Returns (L : Layout) (s : Sys) (p : Slot) (a : Act) (r : Int) (s' : Sys) : Prop :=
  (s.proc p).state = .runnable ∧ a.run L p s = .ok (some r, s')

/-- The transition relation. -/
def Step (L : Layout) (s : Sys) (c : Slot × Act) (s' : Sys) : Prop :=
  ∃ r, Returns L s c.1 c.2 r s'

/-- The states of all runs whose steps meet `ok`. -/
abbrev Run (L : Layout) (ok : Sys → Slot × Act → Prop) : Sys → Prop :=
  Reach (Booted L) (Step L) ok

end Xv6Sharing.Process
