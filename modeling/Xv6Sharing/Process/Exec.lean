/-
Xv6Sharing.Process.Exec — `exec` (kernel/exec.c), `sys_exec`
(kernel/sysfile.c) and `access_shared_memory` (kernel/vm.c).

`exec` runs in three parts. `execLoad` reads the file into a new page
directory. `accessSharedMemory` maps the regions of the caller's shared
table into the window at SHAREDBASE when argv[0] names one of the two
sharing programs; `exec` ignores what it returns. `execStack` allocates the
stack and pushes the arguments. Then the new image replaces the old one.

The file is given by its bytes, `none` when `namei` finds nothing. C
returns -1 from `access_shared_memory` in two cases that the model keeps
apart (`ShareResult`): a page absent from the parent's table, and a page
that could not be mapped for want of memory.
-/
import Xv6Sharing.Process.Table

namespace Xv6Sharing.Process

open Lib Vm Share

/-! ## ELF headers -/

/-- Two bytes, little endian. -/
def half (bs : List UInt8) (i : Nat) : Nat := (bs.getD i 0).toNat + 256 * (bs.getD (i + 1) 0).toNat

/-- Four bytes, little endian. -/
def word32 (bs : List UInt8) (i : Nat) : Nat := half bs i + 65536 * half bs (i + 2)

/-- The fields of `struct elfhdr` that `exec` reads. -/
structure ElfHdr where
  magic : Nat
  entry : Nat
  phoff : Nat
  phnum : Nat

/-- `sizeof(struct elfhdr)`. -/
def elfhdrSize : Nat := 52

def elfhdr (bs : List UInt8) : ElfHdr where
  magic := word32 bs 0
  entry := word32 bs 24
  phoff := word32 bs 28
  phnum := half bs 44

/-- The fields of `struct proghdr` that `exec` reads. -/
structure ProgHdr where
  type : Nat
  off : Nat
  vaddr : Nat
  filesz : Nat
  memsz : Nat

/-- `sizeof(struct proghdr)`. -/
def proghdrSize : Nat := 32

def proghdr (bs : List UInt8) : ProgHdr where
  type := word32 bs 0
  off := word32 bs 4
  vaddr := word32 bs 8
  filesz := word32 bs 16
  memsz := word32 bs 20

/-- `ELF_MAGIC`. -/
def elfMagic : Nat := 0x464C457F

/-- `ELF_PROG_LOAD`. -/
def elfProgLoad : Nat := 1

/-! ## Loading -/

/-- The loop of `exec` over the program headers: `n` left, the next one at
`off`, `sz` the size so far. `none` is the `goto bad`. -/
def loadSegments (L : Layout) (pgdir : Nat) (file : List UInt8) :
    Nat → Nat → Nat → Kern (Option Nat)
  | 0, _, sz => return some sz
  | n + 1, off, sz => do
      match readi file off proghdrSize with
      | none => return none
      | some bs =>
        let ph := proghdr bs
        if bs.length ≠ proghdrSize then
          return none
        else if ph.type ≠ elfProgLoad then
          loadSegments L pgdir file n (u32 (off + proghdrSize)) sz
        else if ph.memsz < ph.filesz then
          return none
        else if u32 (ph.vaddr + ph.memsz) < ph.vaddr then
          return none
        else
          let sz' ← allocuvm L pgdir sz (u32 (ph.vaddr + ph.memsz))
          if sz' = 0 then
            return none
          else if ph.vaddr % 4096 ≠ 0 then
            return none
          else if ← loaduvm pgdir ph.vaddr file ph.off ph.filesz then
            loadSegments L pgdir file n (u32 (off + proghdrSize)) sz'
          else
            return none

/-- The first part of `exec`: directory, size and entry point of the loaded
program; `none` after the cleanup at `bad`. -/
def execLoad (L : Layout) (file : Option (List UInt8)) : Kern (Option (Nat × Nat × Nat)) := do
  match file with
  | none => return none
  | some file =>
    match readi file 0 elfhdrSize with
    | none => return none
    | some bs =>
      if bs.length ≠ elfhdrSize ∨ (elfhdr bs).magic ≠ elfMagic then
        return none
      else
        match ← setupkvm L with
        | none => return none
        | some pgdir =>
          match ← loadSegments L pgdir file (elfhdr bs).phnum (elfhdr bs).phoff 0 with
          | none =>
            freevm L pgdir
            return none
          | some sz => return some (pgdir, sz, (elfhdr bs).entry)

/-! ## `access_shared_memory` -/

/-- How `access_shared_memory` ends: 0, or -1 in one of two ways. -/
inductive ShareResult where
  | done
  | absent
  | noMemory
  deriving DecidableEq, Repr

/-- `PGROUNDUP(shared[i].size)`, stored in an unsigned. -/
def Shared.span (e : Shared) : Nat := pgroundup (e.size.emod (2 ^ 32)).toNat

/-- The inner loop of `access_shared_memory`, for a region that goes to `va`;
`i` bytes are mapped, the next page goes from `start` to `vpage`. -/
def accessLoop (L : Layout) (pgdir parent va size : Nat) :
    Nat → Nat → Nat → Nat → Kern ShareResult
  | 0, _, _, _ => throw .diverges
  | n + 1, i, vpage, start => do
      if i < size then
        match ← walkpgdir parent start false with
        | none => return .absent
        | some pte =>
          let w ← readPte pte
          if present w then
            if ← mappages pgdir vpage 4096 (pteFrame w * 4096) (pteW ||| pteU) then
              accessLoop L pgdir parent va size n (u32 (i + 4096)) (u32 (vpage + 4096))
                (u32 (start + 4096))
            else
              let _ ← deallocuvm L pgdir (u32 (va + size)) va
              return .noMemory
          else
            return .absent
      else
        return .done

/-- The outer loop of `access_shared_memory` over the entries left, the next
region going to `va`: how it ends, and the entries afterwards. -/
def accessEntries (L : Layout) (pgdir parent : Nat) :
    Nat → List Shared → Kern (ShareResult × List Shared)
  | _, [] => return (.done, [])
  | va, e :: es => do
      if e.size = 0 then
        return (.done, e :: es)
      else
        let r ← accessLoop L pgdir parent va (Shared.span e) pageFuel 0 (pgroundup va) e.memstart
        if r = .done then
          let (r', es') ← accessEntries L pgdir parent (u32 (va + Shared.span e)) es
          return (r', { e with memstart := u32 (va + pteFlags e.memstart) } :: es')
        else
          return (r, e :: es)

/-- `access_shared_memory(pgdir)` of a process with that table and
`parent_pgdir`. -/
def accessSharedMemory (L : Layout) (pgdir parent : Nat) (t : Table) :
    Kern (ShareResult × List Shared) :=
  accessEntries L pgdir parent sharedbase t.entries

/-- A list of entries as a table; a list of the wrong length changes nothing. -/
def Table.ofEntries (t : Table) (es : List Shared) : Table :=
  if h : es.length = sharedCount then ⟨es, h⟩ else t

/-- "comma". -/
def comma : List UInt8 := [99, 111, 109, 109, 97]

/-- "lisa". -/
def lisa : List UInt8 := [108, 105, 115, 97]

/-- The test of `exec` on argv[0]. -/
def sharingName (arg : CString) : Bool :=
  strncmp sharedName comma arg.bytes = 0 || strncmp sharedName lisa arg.bytes = 0

/-! ## Stack and arguments -/

/-- A 32-bit word as bytes, little endian. -/
def bytesOf (w : Nat) : List UInt8 :=
  [UInt8.ofNat w, UInt8.ofNat (w / 256), UInt8.ofNat (w / 65536), UInt8.ofNat (w / 16777216)]

/-- The loop of `exec` that pushes the argument strings: the stack pointer and
the addresses of the strings, or `none` for `goto bad`. -/
def pushArgs (pgdir : Nat) : Nat → List CString → Kern (Option (Nat × List Nat))
  | sp, [] => return some (sp, [])
  | sp, arg :: args => do
      let sp := u32 (sp + 2 ^ 32 - (arg.bytes.length + 1)) / 4 * 4
      if ← copyout pgdir sp (arg.bytes ++ [0]) then
        match ← pushArgs pgdir sp args with
        | none => return none
        | some (sp', addrs) => return some (sp', sp :: addrs)
      else
        return none

/-- The words `exec` leaves below the strings. -/
def ustack (sp : Nat) (addrs : List Nat) : List Nat :=
  0xffffffff :: addrs.length :: u32 (sp + 2 ^ 32 - (addrs.length + 1) * 4) :: addrs ++ [0]

/-- The last part of `exec` before it commits: size and stack pointer of the
new image, or `none` for `goto bad`. -/
def execStack (L : Layout) (pgdir sz : Nat) (argv : List CString) : Kern (Option (Nat × Nat)) := do
  let sz' ← allocuvm L pgdir (pgroundup sz) (u32 (pgroundup sz + 8192))
  if sz' = 0 then
    return none
  else
    clearpteu pgdir (u32 (sz' + 2 ^ 32 - 8192))
    match ← pushArgs pgdir sz' argv with
    | none => return none
    | some (sp, addrs) =>
      let sp' := u32 (sp + 2 ^ 32 - (3 + addrs.length + 1) * 4)
      if ← copyout pgdir sp' ((ustack sp addrs).flatMap bytesOf) then
        return some (sz', sp')
      else
        return none

/-- The stack of a new image of size `sz`: two pages, of which the first is closed to
the user. The new size, or `none` for `goto bad`. -/
def allocStack (L : Layout) (pgdir sz : Nat) : Kern (Option Nat) := do
  let sz' ← allocuvm L pgdir (pgroundup sz) (u32 (pgroundup sz + 8192))
  if sz' = 0 then
    return none
  else
    clearpteu pgdir (u32 (sz' + 2 ^ 32 - 8192))
    return some sz'

/-- The arguments on the stack that ends at `sz`: the stack pointer, or `none` for
`goto bad`. -/
def pushStack (pgdir sz : Nat) (argv : List CString) : Kern (Option Nat) := do
  match ← pushArgs pgdir sz argv with
  | none => return none
  | some (sp, addrs) =>
    let sp' := u32 (sp + 2 ^ 32 - (3 + addrs.length + 1) * 4)
    if ← copyout pgdir sp' ((ustack sp addrs).flatMap bytesOf) then
      return some sp'
    else
      return none

/-- `safestrcpy` of the last component of the path into `name[16]`. -/
def progName (path : CString) : List UInt8 :=
  ((path.bytes.reverse.takeWhile (· != 47)).reverse).take 15

/-! ## `exec` -/

/-- The middle of `exec`: the sharing, if argv[0] asks for it. -/
def execShare (L : Layout) (q : Proc) (pgdir : Nat) (argv : List CString) :
    Kern (ShareResult × List Shared) := do
  match argv with
  | [] => throw .nullDeref
  | arg :: _ =>
    if sharingName arg then
      accessSharedMemory L pgdir q.parentPgdir q.shared
    else
      return (.done, q.shared.entries)

/-- `exec(path, argv)` of process `p`. -/
def exec (L : Layout) (p : Slot) (path : CString) (file : Option (List UInt8))
    (argv : List CString) : SysM Int := do
  match ← onPhys (execLoad L file) with
  | none => return -1
  | some (pgdir, sz, entry) =>
    let s ← get
    let (_, es) ← onPhys (execShare L (s.proc p) pgdir argv)
    setProc p fun q => { q with shared := Table.ofEntries q.shared es }
    match ← onPhys (execStack L pgdir sz argv) with
    | none =>
      onPhys (freevm L pgdir)
      return -1
    | some (sz', sp) =>
      let oldpgdir := (s.proc p).pgdir
      setProc p fun q =>
        { q with
          name := progName path
          pgdir := pgdir
          sz := sz'
          tf := { q.tf with eip := entry, esp := sp } }
      onPhys (freevm L oldpgdir)
      return 0

/-- `sys_exec`: `path` is what `argstr` fetched, `argv` the strings the user's
array points to. `fetchstr` refuses a string that does not end inside the
caller's memory, and the local array has room for `MAXARG` pointers. -/
def sysExec (L : Layout) (p : Slot) (path : Option CString) (file : Option (List UInt8))
    (argv : List CString) : SysM Int := do
  let s ← get
  match path with
  | none => return -1
  | some path =>
    if argv.length ≥ 32 ∨ ∃ arg ∈ argv, arg.bytes.length ≥ (s.proc p).sz then
      return -1
    else
      exec L p path file argv

end Xv6Sharing.Process
