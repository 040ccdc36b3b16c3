/-
Xv6Sharing.Vm.PageTable — the page-table code of kernel/vm.c.

A page directory is a page of 1024 words in physical memory and is named
by its frame; so are the page-table pages its entries point to. `PtePtr`
is what `walkpgdir` returns: the page-table page and the index in it.

The `for(;;)` and `for(; a < ..; )` loops take a fuel argument and end in
`Panic.diverges` when it runs out. `pageFuel` iterations are enough for any
loop that visits each of the 2^20 pages at most once.
-/
import Xv6Sharing.Vm.Kalloc

namespace Xv6Sharing.Vm

open Lib

/-- A `pte_t *`: page-table page and index. -/
abbrev PtePtr := Nat × Nat

/-- One more than the number of pages of the address space. -/
def pageFuel : Nat := 1048577

def readPte (p : PtePtr) : Kern Nat := do
  let σ ← get
  return word σ.mem p.1 p.2

def writePte (p : PtePtr) (w : Nat) : Kern Unit :=
  modify fun σ => { σ with mem := setWord σ.mem p.1 p.2 w }

/-- `memset(P2V(f), c, PGSIZE)`. -/
def memsetPage (f : Nat) (c : UInt8) : Kern Unit :=
  modify fun σ => { σ with mem := fillPage σ.mem f c }

/-- The page-table page `walkpgdir` allocates for an absent directory entry. -/
def allocTab (pgdir va : Nat) : Kern (Option PtePtr) := do
  match ← kalloc with
  | none => return none
  | some pgtab =>
    memsetPage pgtab 0
    -- the permissions are generous, the page table's own entries restrict them
    writePte (pgdir, pdx va) (pgtab * 4096 ||| pteP ||| pteW ||| pteU)
    return some (pgtab, ptx va)

/-- `walkpgdir(pgdir, va, alloc)`. -/
def walkpgdir (pgdir va : Nat) (alloc : Bool) : Kern (Option PtePtr) := do
  if pgdir = 0 then
    throw .nullDeref
  else
    let pde ← readPte (pgdir, pdx va)
    if present pde then
      return some (pteFrame pde, ptx va)
    else if alloc then
      allocTab pgdir va
    else
      return none

/-- The body of the loop of `mappages` for one page; `false` is the return
of -1. -/
def mapOne (pgdir a pa perm : Nat) : Kern Bool := do
  match ← walkpgdir pgdir a true with
  | none => return false
  | some pte =>
    let w ← readPte pte
    if present w then
      throw .remap
    else
      writePte pte (pa ||| perm ||| pteP)
      return true

/-- The loop of `mappages`; it ends when `a` equals `last`. -/
def mappagesLoop (pgdir last perm : Nat) : Nat → Nat → Nat → Kern Bool
  | 0, _, _ => throw .diverges
  | n + 1, a, pa => do
      if ← mapOne pgdir a pa perm then
        if a = last then
          return true
        else
          mappagesLoop pgdir last perm n (u32 (a + 4096)) (u32 (pa + 4096))
      else
        return false

/-- `mappages(pgdir, va, size, pa, perm)`. -/
def mappages (pgdir va size pa perm : Nat) : Kern Bool :=
  mappagesLoop pgdir (pgrounddown (u32 (va + size + 2 ^ 32 - 1))) perm pageFuel
    (pgrounddown va) pa

/-! ## Taking memory away -/

/-- What `deallocuvm` does at a page-table entry that exists. -/
def deallocPte (L : Layout) (pte : PtePtr) : Kern Unit := do
  let w ← readPte pte
  if present w then
    if pteFrame w = 0 then
      throw .kfree
    else
      kfree L (pteFrame w)
      writePte pte 0
  else
    return ()

/-- The loop of `deallocuvm` from address `a` on. -/
def deallocLoop (L : Layout) (pgdir oldsz : Nat) : Nat → Nat → Kern Unit
  | 0, _ => throw .diverges
  | n + 1, a => do
      if a < oldsz then
        match ← walkpgdir pgdir a false with
        | none =>
          -- no page-table page: on to the first page of the next one
          let next := u32 (pgaddr (pdx a + 1) 0 0 + 2 ^ 32 - 4096)
          deallocLoop L pgdir oldsz n (u32 (next + 4096))
        | some pte =>
          deallocPte L pte
          deallocLoop L pgdir oldsz n (u32 (a + 4096))
      else
        return ()

/-- `deallocuvm(pgdir, oldsz, newsz)`. -/
def deallocuvm (L : Layout) (pgdir oldsz newsz : Nat) : Kern Nat := do
  if newsz ≥ oldsz then
    return oldsz
  else
    deallocLoop L pgdir oldsz pageFuel (pgroundup newsz)
    return newsz

/-- The loop of `freevm` over the directory entries from `i` on. -/
def freeTabs (L : Layout) (pgdir : Nat) : Nat → Nat → Kern Unit
  | 0, _ => return ()
  | n + 1, i => do
      let pde ← readPte (pgdir, i)
      if present pde then
        kfree L (pteFrame pde)
        freeTabs L pgdir n (i + 1)
      else
        freeTabs L pgdir n (i + 1)

/-- `freevm(pgdir)`. -/
def freevm (L : Layout) (pgdir : Nat) : Kern Unit := do
  if pgdir = 0 then
    throw .freevmNull
  else
    let _ ← deallocuvm L pgdir sharedbase 0
    freeTabs L pgdir 1024 0
    kfree L pgdir

/-! ## The kernel's own mappings -/

/-- `struct kmap`. -/
structure Kmap where
  virt : Nat
  physStart : Nat
  physEnd : Nat
  perm : Nat

/-- The table `kmap[]`. -/
def kmap (L : Layout) : List Kmap :=
  [⟨kernbase, 0, extmem, pteW⟩,
   ⟨kernlink, v2p kernlink, L.data, 0⟩,
   ⟨p2v L.data, L.data, phystop, pteW⟩,
   ⟨devspace, devspace, 0, pteW⟩]

/-- The loop of `setupkvm`; `false` when a mapping failed. -/
def mapKernel (pgdir : Nat) : List Kmap → Kern Bool
  | [] => return true
  | k :: rest => do
      let size := u32 (k.physEnd + 2 ^ 32 - k.physStart)
      if ← mappages pgdir k.virt size k.physStart k.perm then
        mapKernel pgdir rest
      else
        return false

/-- `setupkvm()`; `none` is the return of 0. -/
def setupkvm (L : Layout) : Kern (Option Nat) := do
  match ← kalloc with
  | none => return none
  | some pgdir =>
    memsetPage pgdir 0
    if p2v phystop > devspace then
      throw .phystopTooHigh
    else if ← mapKernel pgdir (kmap L) then
      return some pgdir
    else
      freevm L pgdir
      return none

/-! ## User memory -/

/-- The loop of `allocuvm` from address `a` on; `false` when it ran out of
memory, after the pages mapped so far were taken back. -/
def allocLoop (L : Layout) (pgdir oldsz newsz : Nat) : Nat → Nat → Kern Bool
  | 0, _ => throw .diverges
  | n + 1, a => do
      if a < newsz then
        match ← kalloc with
        | none =>
          let _ ← deallocuvm L pgdir newsz oldsz
          return false
        | some mem =>
          memsetPage mem 0
          if ← mappages pgdir a 4096 (mem * 4096) (pteW ||| pteU) then
            allocLoop L pgdir oldsz newsz n (u32 (a + 4096))
          else
            let _ ← deallocuvm L pgdir newsz oldsz
            kfree L mem
            return false
      else
        return true

/-- `allocuvm(pgdir, oldsz, newsz)`: the new size, or 0. -/
def allocuvm (L : Layout) (pgdir oldsz newsz : Nat) : Kern Nat := do
  if newsz ≥ sharedbase then
    return 0
  else if newsz < oldsz then
    return oldsz
  else if ← allocLoop L pgdir oldsz newsz pageFuel (pgroundup oldsz) then
    return newsz
  else
    return 0

/-- `inituvm(pgdir, init, sz)`: the first process's only page. The result of
`mappages` is not looked at. -/
def inituvm (pgdir : Nat) (init : List UInt8) : Kern Unit := do
  if init.length ≥ 4096 then
    throw .inituvm
  else
    match ← kalloc with
    | none => throw .nullDeref
    | some mem =>
      memsetPage mem 0
      let _ ← mappages pgdir 0 4096 (mem * 4096) (pteW ||| pteU)
      modify fun σ => { σ with mem := storeBytes σ.mem (mem * 4096) init }

/-- `clearpteu(pgdir, uva)`. -/
def clearpteu (pgdir uva : Nat) : Kern Unit := do
  match ← walkpgdir pgdir uva false with
  | none => throw .clearpteu
  | some pte =>
    let w ← readPte pte
    writePte pte (if user w then w - pteU else w)

/-- The loop of `copyuvm` from address `i` on; `false` is the `goto bad`. -/
def copyLoop (L : Layout) (d pgdir sz : Nat) : Nat → Nat → Kern Bool
  | 0, _ => throw .diverges
  | n + 1, i => do
      if i < sz then
        match ← walkpgdir pgdir i false with
        | none => throw .copyuvmMissing
        | some pte =>
          let w ← readPte pte
          if present w then
            match ← kalloc with
            | none => return false
            | some mem =>
              modify fun σ => { σ with mem := copyPage σ.mem mem (pteFrame w) }
              if ← mappages d i 4096 (mem * 4096) (pteFlags w) then
                copyLoop L d pgdir sz n (u32 (i + 4096))
              else
                kfree L mem
                return false
          else
            throw .copyuvmAbsent
      else
        return true

/-- `copyuvm(pgdir, sz)`; `none` is the return of 0. -/
def copyuvm (L : Layout) (pgdir sz : Nat) : Kern (Option Nat) := do
  match ← setupkvm L with
  | none => return none
  | some d =>
    if ← copyLoop L d pgdir sz pageFuel 0 then
      return some d
    else
      freevm L d
      return none

/-- `uva2ka(pgdir, uva)`: the frame, if the page is present and the user's.
The pointer `walkpgdir` returned is used without a null check. -/
def uva2ka (pgdir uva : Nat) : Kern (Option Nat) := do
  match ← walkpgdir pgdir uva false with
  | none => throw .nullDeref
  | some pte =>
    let w ← readPte pte
    if present w then
      if user w then
        return some (pteFrame w)
      else
        return none
    else
      return none

/-- The loop of `copyout`; every round writes at least one byte. -/
def copyoutLoop (pgdir : Nat) : Nat → Nat → List UInt8 → Kern Bool
  | 0, _, _ => throw .diverges
  | n + 1, va, bs => do
      if bs.length > 0 then
        let va0 := pgrounddown va
        match ← uva2ka pgdir va0 with
        | none => return false
        | some pa0 =>
          let k := min (4096 - (va - va0)) bs.length
          modify fun σ =>
            { σ with mem := storeBytes σ.mem (pa0 * 4096 + (va - va0)) (bs.take k) }
          copyoutLoop pgdir n (u32 (va0 + 4096)) (bs.drop k)
      else
        return true

/-- `copyout(pgdir, va, p, len)`; `false` is the return of -1. -/
def copyout (pgdir va : Nat) (bs : List UInt8) : Kern Bool :=
  copyoutLoop pgdir (bs.length + 1) va bs

/-! ## Loading a program -/

/-- `readi(ip, dst, off, n)` of a regular file with those contents: the bytes
read, or `none` for -1. -/
def readi (file : List UInt8) (off n : Nat) : Option (List UInt8) :=
  if off > file.length ∨ u32 (off + n) < off then none
  else some ((file.drop off).take n)

/-- The loop of `loaduvm` from offset `i` on; `false` is the return of -1. -/
def loadLoop (pgdir addr : Nat) (file : List UInt8) (offset sz : Nat) : Nat → Nat → Kern Bool
  | 0, _ => throw .diverges
  | n + 1, i => do
      if i < sz then
        match ← walkpgdir pgdir (u32 (addr + i)) false with
        | none => throw .loaduvmMissing
        | some pte =>
          let w ← readPte pte
          let k := if sz - i < 4096 then sz - i else 4096
          match readi file (u32 (offset + i)) k with
          | none => return false
          | some bs =>
            modify fun σ => { σ with mem := storeBytes σ.mem (pteFrame w * 4096) bs }
            if bs.length = k then
              loadLoop pgdir addr file offset sz n (u32 (i + 4096))
            else
              return false
      else
        return true

/-- `loaduvm(pgdir, addr, ip, offset, sz)`. -/
def loaduvm (pgdir addr : Nat) (file : List UInt8) (offset sz : Nat) : Kern Bool := do
  if addr % 4096 ≠ 0 then
    throw .loaduvmAlign
  else
    loadLoop pgdir addr file offset sz pageFuel 0

end Xv6Sharing.Vm
