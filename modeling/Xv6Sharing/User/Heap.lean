/-
Xv6Sharing.User.Heap — the allocator of user programs (user/umalloc.c).

Addresses are numbers of bytes and a header takes eight. The fields of the headers
in memory are two functions of the address. `base` is the header in the data segment
of the program, below all memory that `sbrk` gives. Unsigned arithmetic that can
wrap is taken modulo 2^32: the number of units and the size handed to `sbrk`, which
takes an `int`. The state also records the arguments of `sbrk`.
-/
import Mathlib.Logic.Function.Basic
import Xv6Sharing.Lib.Cycle

namespace Xv6Sharing.User.Umalloc

open Lib

/-- The memory of the allocator; `freep` is 0 before the first call, `brk` is the size of the
process. -/
structure Heap where
  ptr : Nat → Nat
  size : Nat → Nat
  freep : Nat
  brk : Nat
  asked : List Int

def Heap.setPtr (h : Heap) (p v : Nat) : Heap := { h with ptr := Function.update h.ptr p v }

def Heap.setSize (h : Heap) (p v : Nat) : Heap := { h with size := Function.update h.size p v }

/-! ## free -/

/-- The loop of `free` ends at `p`, by its condition or by the `break`. -/
def placeFor (h : Heap) (bp p : Nat) : Bool :=
  (bp > p && bp < h.ptr p) || (p ≥ h.ptr p && (bp > p || bp < h.ptr p))

/-- The block behind `bp` is joined to it. -/
def joinNext (h : Heap) (bp p : Nat) : Heap :=
  if bp + 8 * h.size bp = h.ptr p then
    let h := h.setSize bp (h.size bp + h.size (h.ptr p))
    h.setPtr bp (h.ptr (h.ptr p))
  else h.setPtr bp (h.ptr p)

/-- `bp` is joined to the block before it. -/
def joinPrev (h : Heap) (bp p : Nat) : Heap :=
  if p + 8 * h.size p = bp then
    let h := h.setSize p (h.size p + h.size bp)
    h.setPtr p (h.ptr bp)
  else h.setPtr p bp

/-- `free`, with at most `n` rounds of its loop. -/
def free (n ap : Nat) (h : Heap) : Option Heap := do
  let bp := ap - 8
  let p ← search h.ptr (placeFor h bp) n h.freep
  return { joinPrev (joinNext h bp p) bp p with freep := p }

/-! ## malloc -/

/-- An unsigned number as an `int`. -/
def toInt (n : Nat) : Int := if n % 2 ^ 32 < 2 ^ 31 then (n % 2 ^ 32 : Nat) else (n % 2 ^ 32 : Nat) - 2 ^ 32

/-- The system call. `grow` says that there are pages; the size stays below SHAREDBASE. A negative
argument takes memory away, unless the process is smaller than that; the size 0 is taken for a
failure. -/
def sbrk (grow : Bool) (n : Int) (h : Heap) : Option Nat × Heap :=
  let h := { h with asked := h.asked ++ [n] }
  if n > 0 then
    if grow && h.brk + n.toNat < 2 ^ 30 then (some h.brk, { h with brk := h.brk + n.toNat })
    else (none, h)
  else if n < 0 then
    if (-n).toNat > h.brk then (some h.brk, h)
    else if (-n).toNat = h.brk then (none, h)
    else (some h.brk, { h with brk := h.brk - (-n).toNat })
  else (some h.brk, h)

/-- The end of the last page of a process. -/
def pgroundup (sz : Nat) : Nat := (sz + 4095) / 4096 * 4096

/-- `morecore`; the process ends where the new header is behind its last page. -/
def morecore (n : Nat) (grow : Bool) (nu : Nat) (h : Heap) : Option (Nat × Heap) :=
  let nu := if nu < 4096 then 4096 else nu
  match sbrk grow (toInt (nu * 8)) h with
  | (none, h) => some (0, h)
  | (some hp, h) =>
    if hp + 8 > pgroundup h.brk then none
    else do
      let h ← free n (hp + 8) (h.setSize hp nu)
      return (h.freep, h)

/-- A block that is large enough is taken, or its tail is. -/
def take (nunits prevp p : Nat) (h : Heap) : Nat × Heap :=
  if h.size p = nunits then
    (p + 8, { h.setPtr prevp (h.ptr p) with freep := prevp })
  else
    let h := h.setSize p (h.size p - nunits)
    let q := p + 8 * h.size p
    (q + 8, { h.setSize q nunits with freep := prevp })

/-- The loop of `malloc`, at most `k` rounds of it. -/
def mallocLoop (n : Nat) (grow : Bool) (nunits : Nat) :
    Nat → Nat → Nat → Heap → Option (Nat × Heap)
  | 0, _, _, _ => none
  | k + 1, prevp, p, h =>
    if h.size p ≥ nunits then some (take nunits prevp p h)
    else if p = h.freep then do
      let (p, h) ← morecore n grow nunits h
      if p = 0 then return (0, h)
      else mallocLoop n grow nunits k p (h.ptr p) h
    else mallocLoop n grow nunits k p (h.ptr p) h

/-- The number of headers for `nbytes` and a header. -/
def nunitsFor (nbytes : Nat) : Nat := (nbytes + 7) % 2 ^ 32 / 8 + 1

/-- The first call makes a list of `base` alone. -/
def initBase (base : Nat) (h : Heap) : Heap :=
  if h.freep = 0 then { (h.setPtr base base).setSize base 0 with freep := base } else h

/-- `malloc`; 0 is the null pointer. -/
def malloc (base n : Nat) (grow : Bool) (nbytes : Nat) (h : Heap) : Option (Nat × Heap) :=
  let h := initBase base h
  mallocLoop n grow (nunitsFor nbytes) n h.freep (h.ptr h.freep) h

end Xv6Sharing.User.Umalloc
