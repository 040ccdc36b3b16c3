/-
Xv6Sharing.Process.Table — the process table (kernel/proc.h, kernel/proc.c)
and the open-file table with its pipes (kernel/file.c, kernel/pipe.c), as
far as they decide what happens to memory.

A pointer into one of the two tables is the index of the slot. The state
of the machine (`Sys`) is physical memory with its free list, the two
tables, the fields of the open pipes, which live in pages of their own
and are named by the frame, and how many references the open files hold to
each inode. A system call runs as one step of the process
that makes it; `SysM` code stops at a panic like `Kern` code does.

Left out here: the current directory of a process (file system), the saved
contexts and sleep channels (scheduler), and of the trap frame all but the
three registers `fork` and `exec` write.
-/
import Mathlib.Data.List.FinRange
import Mathlib.Logic.Function.Basic
import Xv6Sharing.Share.Table
import Xv6Sharing.Vm.PageTable

namespace Xv6Sharing.Process

open Lib Vm Share

/-! ## The tables -/

/-- `enum procstate`. -/
inductive ProcState where
  | unused
  | embryo
  | sleeping
  | runnable
  | running
  | zombie
  deriving DecidableEq, Repr

/-- An index into `ptable.proc`, of `NPROC` slots. -/
abbrev Slot := Fin 64

instance neZeroSlots : NeZero 64 := ⟨by decide⟩

/-- An index into `ftable.file`, of `NFILE` slots. -/
abbrev FileSlot := Fin 100

/-- A file descriptor, below `NOFILE`. -/
abbrev Fd := Fin 16

/-- The registers of `struct trapframe` that `fork` and `exec` write. -/
structure TrapFrame where
  eip : Nat
  esp : Nat
  eax : Nat
  deriving DecidableEq, Repr

/-- `struct proc`. -/
structure Proc where
  sz : Nat
  pgdir : Nat
  parentPgdir : Nat
  kstack : Nat
  state : ProcState
  pid : Nat
  parent : Option Slot
  tf : TrapFrame
  killed : Bool
  ofile : Fd → Option FileSlot
  name : List UInt8
  shared : Table

/-- A slot of the zeroed process table. -/
def Proc.zero : Proc where
  sz := 0
  pgdir := 0
  parentPgdir := 0
  kstack := 0
  state := .unused
  pid := 0
  parent := none
  tf := ⟨0, 0, 0⟩
  killed := false
  ofile := fun _ => none
  name := []
  shared := Table.zero

/-- The `type` field of `struct file`. -/
inductive FileType where
  | none
  | pipe
  | inode
  deriving DecidableEq, Repr

/-- `struct file` without its offset; the inode is named by its number. -/
structure File where
  type : FileType
  ref : Nat
  readable : Bool
  writable : Bool
  pipe : Nat
  ip : Nat
  deriving DecidableEq, Repr

/-- A slot of the zeroed file table. -/
def File.zero : File := ⟨.none, 0, false, false, 0, 0⟩

/-- The fields of `struct pipe` that say who has it open. -/
structure Pipe where
  readopen : Bool
  writeopen : Bool
  deriving DecidableEq, Repr

/-- The machine: memory, the tables, the references to inodes that open files hold, the
kernel's page directory and the boot stacks `startothers` allocated. -/
structure Sys where
  phys : Phys
  proc : Slot → Proc
  file : FileSlot → File
  pipe : Nat → Pipe
  iref : Nat → Nat
  kpgdir : Nat
  bootStacks : List Nat
  initproc : Slot
  nextpid : Nat

/-- Kernel code over the whole machine. -/
abbrev SysM := StateT Sys (Except Panic)

/-- The machine with other memory. -/
def Sys.withPhys (s : Sys) (σ : Phys) : Sys := { s with phys := σ }

/-- The machine with another process in slot `p`. -/
def Sys.withProc (s : Sys) (p : Slot) (q : Proc) : Sys :=
  { s with proc := Function.update s.proc p q }

/-- The machine with another file in slot `i`. -/
def Sys.withFile (s : Sys) (i : FileSlot) (f : File) : Sys :=
  { s with file := Function.update s.file i f }

/-- The machine with other fields of the pipe in frame `f`. -/
def Sys.withPipe (s : Sys) (f : Nat) (g : Pipe) : Sys :=
  { s with pipe := Function.update s.pipe f g }

/-- The machine with other counts of inode references. -/
def Sys.withIref (s : Sys) (r : Nat → Nat) : Sys := { s with iref := r }

/-- Memory code run on the machine. -/
def onPhys {α : Type} (c : Kern α) : SysM α := fun s =>
  match c s.phys with
  | .ok (a, σ) => .ok (a, s.withPhys σ)
  | .error e => .error e

/-- Change the slot of one process. -/
def setProc (p : Slot) (f : Proc → Proc) : SysM Unit :=
  modify fun s => s.withProc p (f (s.proc p))

/-- Change one slot of the file table. -/
def setFile (i : FileSlot) (f : File → File) : SysM Unit :=
  modify fun s => s.withFile i (f (s.file i))

/-- Change the fields of the pipe in frame `f`. -/
def setPipe (f : Nat) (g : Pipe → Pipe) : SysM Unit :=
  modify fun s => s.withPipe f (g (s.pipe f))

/-! ## Files and pipes -/

/-- `filealloc()`. -/
def filealloc : SysM (Option FileSlot) := do
  let s ← get
  match (List.finRange 100).find? fun i => (s.file i).ref = 0 with
  | none => return none
  | some i =>
    setFile i fun f => { f with ref := 1 }
    return some i

/-- `filedup(f)`. -/
def filedup (i : FileSlot) : SysM Unit := do
  let s ← get
  if (s.file i).ref < 1 then
    throw .filedup
  else
    setFile i fun f => { f with ref := f.ref + 1 }

/-- `pipeclose(p, writable)`. -/
def pipeclose (L : Layout) (p : Nat) (writable : Bool) : SysM Unit := do
  setPipe p fun q =>
    if writable then { q with writeopen := false } else { q with readopen := false }
  let s ← get
  if (s.pipe p).readopen = false ∧ (s.pipe p).writeopen = false then
    onPhys (kfree L p)
  else
    return ()

/-- A reference to an inode is taken, by `namei` or `create`. -/
def iget (ip : Nat) : SysM Unit :=
  modify fun s => s.withIref (Function.update s.iref ip (s.iref ip + 1))

/-- `iput(ip)` gives up a reference; what becomes of the inode is the file system's. -/
def iput (ip : Nat) : SysM Unit :=
  modify fun s => s.withIref (Function.update s.iref ip (s.iref ip - 1))

/-- `fileclose(f)`. -/
def fileclose (L : Layout) (i : FileSlot) : SysM Unit := do
  let s ← get
  let ff := s.file i
  if ff.ref < 1 then
    throw .fileclose
  else if ff.ref > 1 then
    setFile i fun f => { f with ref := f.ref - 1 }
  else
    setFile i fun f => { f with ref := 0, type := .none }
    if ff.type = .pipe then
      pipeclose L ff.pipe ff.writable
    else if ff.type = .inode then
      iput ff.ip
    else
      return ()

/-- `pipealloc(&f0, &f1)`; `none` is the return of -1. -/
def pipealloc (L : Layout) : SysM (Option (FileSlot × FileSlot)) := do
  match ← filealloc with
  | none => return none
  | some f0 =>
    match ← filealloc with
    | none =>
      fileclose L f0
      return none
    | some f1 =>
      match ← onPhys kalloc with
      | none =>
        fileclose L f0
        fileclose L f1
        return none
      | some p =>
        setPipe p fun _ => ⟨true, true⟩
        setFile f0 fun f =>
          { f with type := .pipe, readable := true, writable := false, pipe := p }
        setFile f1 fun f =>
          { f with type := .pipe, readable := false, writable := true, pipe := p }
        return some (f0, f1)

/-- `fdalloc(f)`; `none` is the return of -1. -/
def fdalloc (p : Slot) (i : FileSlot) : SysM (Option Fd) := do
  let s ← get
  match (List.finRange 16).find? fun fd => (s.proc p).ofile fd = none with
  | none => return none
  | some fd =>
    setProc p fun q => { q with ofile := Function.update q.ofile fd (some i) }
    return some fd

/-- `sys_pipe`, for the array pointer `argptr` is given; the descriptors it
stores, or `none` for -1. -/
def sysPipe (L : Layout) (p : Slot) (arg : Option Nat) : SysM (Option (Fd × Fd)) := do
  let s ← get
  match Share.argptr (s.proc p).sz arg 8 with
  | none => return none
  | some _ =>
    match ← pipealloc L with
    | none => return none
    | some (rf, wf) =>
      match ← fdalloc p rf with
      | none =>
        fileclose L rf
        fileclose L wf
        return none
      | some fd0 =>
        match ← fdalloc p wf with
        | none =>
          setProc p fun q => { q with ofile := Function.update q.ofile fd0 none }
          fileclose L rf
          fileclose L wf
          return none
        | some fd1 => return some (fd0, fd1)

/-- `argfd` of the descriptor `argint` fetched. -/
def argfd (q : Proc) (n : Option Int) : Option (Fd × FileSlot) :=
  match n with
  | none => none
  | some n =>
    if h : 0 ≤ n ∧ n < 16 then
      let fd : Fd := ⟨n.toNat, by omega⟩
      (q.ofile fd).map fun i => (fd, i)
    else none

/-- `sys_close`. -/
def sysClose (L : Layout) (p : Slot) (n : Option Int) : SysM Int := do
  let s ← get
  match argfd (s.proc p) n with
  | none => return -1
  | some (fd, i) =>
    setProc p fun q => { q with ofile := Function.update q.ofile fd none }
    fileclose L i
    return 0

/-- `sys_dup`. -/
def sysDup (p : Slot) (n : Option Int) : SysM Int := do
  let s ← get
  match argfd (s.proc p) n with
  | none => return -1
  | some (_, i) =>
    match ← fdalloc p i with
    | none => return -1
    | some fd =>
      filedup i
      return fd.val

/-- `sys_open`, with the inode that `create` or `namei` found for the path, if the mode
allows it. -/
def sysOpen (L : Layout) (p : Slot) (ip : Option Nat) (readable writable : Bool) : SysM Int := do
  match ip with
  | none => return -1
  | some ip =>
    iget ip
    match ← filealloc with
    | none =>
      iput ip
      return -1
    | some i =>
      match ← fdalloc p i with
      | none =>
        fileclose L i
        iput ip
        return -1
      | some fd =>
        setFile i fun f =>
          { f with type := .inode, ip := ip, readable := readable, writable := writable }
        return fd.val

/-! ## Processes -/

/-- `allocproc()`. -/
def allocproc : SysM (Option Slot) := do
  let s ← get
  match (List.finRange 64).find? fun p => (s.proc p).state = .unused with
  | none => return none
  | some p =>
    setProc p fun q => { q with state := .embryo, pid := s.nextpid }
    modify fun s => { s with nextpid := s.nextpid + 1 }
    match ← onPhys kalloc with
    | none =>
      setProc p fun q => { q with kstack := 0, state := .unused }
      return none
    | some k =>
      setProc p fun q => { q with kstack := k }
      return some p

/-- `sz + n` of `growproc`, an unsigned 32-bit sum. -/
def addSz (sz : Nat) (n : Int) : Nat := ((sz : Int) + n).emod (2 ^ 32) |>.toNat

/-- `growproc(n)`. -/
def growproc (L : Layout) (p : Slot) (n : Int) : SysM Int := do
  let s ← get
  let q := s.proc p
  if n > 0 then
    let sz ← onPhys (allocuvm L q.pgdir q.sz (addSz q.sz n))
    if sz = 0 then
      return -1
    else
      setProc p fun q => { q with sz := sz }
      return 0
  else if n < 0 then
    let sz ← onPhys (deallocuvm L q.pgdir q.sz (addSz q.sz n))
    if sz = 0 then
      return -1
    else
      setProc p fun q => { q with sz := sz }
      return 0
  else
    return 0

/-- `sys_sbrk`. -/
def sysSbrk (L : Layout) (p : Slot) (n : Option Int) : SysM Int := do
  let s ← get
  match n with
  | none => return -1
  | some n =>
    let r ← growproc L p n
    if r < 0 then
      return -1
    else
      return (s.proc p).sz

/-- The loop of `fork` over `shared[]`: the parent's entries up to the first
free one replace what the slot held. -/
def forkShared : List Shared → List Shared → List Shared
  | c :: cs, n :: ns => if c.size = 0 then n :: ns else c :: forkShared cs ns
  | _, ns => ns

theorem forkShared_length : ∀ cs ns : List Shared, (forkShared cs ns).length = ns.length
  | [], _ => rfl
  | _ :: _, [] => rfl
  | c :: cs, n :: ns => by
    unfold forkShared
    split
    · rfl
    · simp [forkShared_length cs ns]

/-- The child's table after `fork`. -/
def forkTable (cur np : Table) : Table :=
  ⟨forkShared cur.entries np.entries, by rw [forkShared_length, np.length_eq]⟩

/-- The loop of `fork` over the descriptors. -/
def dupFiles (cur np : Slot) : List Fd → SysM Unit
  | [] => return ()
  | fd :: fds => do
      let s ← get
      match (s.proc cur).ofile fd with
      | none => dupFiles cur np fds
      | some i =>
        filedup i
        setProc np fun q => { q with ofile := Function.update q.ofile fd (some i) }
        dupFiles cur np fds

/-- `fork()` of process `p`. -/
def fork (L : Layout) (p : Slot) : SysM Int := do
  match ← allocproc with
  | none => return -1
  | some np =>
    let s ← get
    let cur := s.proc p
    match ← onPhys (copyuvm L cur.pgdir cur.sz) with
    | none =>
      onPhys (kfree L (s.proc np).kstack)
      setProc np fun q => { q with pgdir := 0, kstack := 0, state := .unused }
      return -1
    | some d =>
      setProc np fun q =>
        { q with
          pgdir := d
          sz := cur.sz
          parent := some p
          tf := { cur.tf with eax := 0 }
          parentPgdir := cur.pgdir }
      dupFiles p np (List.finRange 16)
      setProc np fun q =>
        { q with
          shared := forkTable cur.shared q.shared
          name := cur.name
          state := .runnable }
      return (s.proc np).pid

/-- The loop of `exit` over the descriptors. -/
def closeFiles (L : Layout) (p : Slot) : List Fd → SysM Unit
  | [] => return ()
  | fd :: fds => do
      let s ← get
      match (s.proc p).ofile fd with
      | none => closeFiles L p fds
      | some i =>
        fileclose L i
        setProc p fun q => { q with ofile := Function.update q.ofile fd none }
        closeFiles L p fds

/-- What `exit` leaves of a shared entry: only entries strictly above
SHAREDBASE are cleared. -/
def clearShared (e : Shared) : Shared :=
  if e.memstart > sharedbase then { e with memstart := 0, size := 0 } else e

/-- The table of an exited process. -/
def exitTable (t : Table) : Table :=
  ⟨t.entries.map clearShared, by rw [List.length_map, t.length_eq]⟩

/-- `exit` of a process without a parent frees the registered addresses. -/
def freeShared (L : Layout) : List Shared → Kern Unit
  | [] => return ()
  | e :: es => do
      kfreeAddr L e.memstart
      freeShared L es

/-- The machine once the children of `p` went to init. -/
def Sys.abandon (s : Sys) (p : Slot) : Sys :=
  { s with proc := fun q =>
      if (s.proc q).parent = some p then { s.proc q with parent := some s.initproc }
      else s.proc q }

/-- `exit()` of process `p`. -/
def exit (L : Layout) (p : Slot) : SysM Unit := do
  let s ← get
  if p = s.initproc then
    throw .initExiting
  else
    closeFiles L p (List.finRange 16)
    onPhys (if (s.proc p).parent = none then freeShared L (s.proc p).shared.entries
      else return ())
    setProc p fun q => { q with shared := exitTable q.shared }
    modify fun s => s.abandon p
    setProc p fun q => { q with state := .zombie }

/-- What `wait` does to the zombie it found. -/
def reap (L : Layout) (q : Slot) : SysM Unit := do
  let s ← get
  onPhys (kfree L (s.proc q).kstack)
  onPhys (freevm L (s.proc q).pgdir)
  setProc q fun r =>
    { r with kstack := 0, pid := 0, parent := none, name := [], killed := false, state := .unused }

/-- `wait()` of process `p`: the pid of the child, -1, or `none` when it goes
to sleep. -/
def wait (L : Layout) (p : Slot) : SysM (Option Int) := do
  let s ← get
  match (List.finRange 64).find? fun q =>
      (s.proc q).parent = some p ∧ (s.proc q).state = .zombie with
  | some q =>
    reap L q
    return some (s.proc q).pid
  | none =>
    if (∃ q, (s.proc q).parent = some p) ∧ (s.proc p).killed = false then
      return none
    else
      return some (-1)

end Xv6Sharing.Process
