/-
Xv6Sharing.Vm.Kalloc — memory layout (kernel/memlayout.h, kernel/mmu.h)
and the page allocator (kernel/kalloc.c).

Physical memory is a function from byte addresses to bytes. A pointer the
allocator hands out is the frame number of its page: the kernel virtual
address is `P2V(frame * PGSIZE)`, and 0 stands for the null pointer, as
frame 0 is never given out. The free list is a list of frames; the words
that link it inside the free pages are written by `kfree` but the list
itself is kept beside memory.

`panic` ends the run, and so does a null pointer dereference, which C
leaves undefined: both are errors of the monad `Kern`. Page numbers,
addresses and sizes are 32-bit values written as natural numbers, with
`u32` where a sum can leave the range.
-/
import Xv6Sharing.Lib.Memory
import Xv6Sharing.Lib.Run

namespace Xv6Sharing.Vm

open Lib

/-! ## Layout -/

/-- `EXTMEM`. -/
def extmem : Nat := 0x100000

/-- `PHYSTOP`. -/
def phystop : Nat := 0xE000000

/-- `DEVSPACE`. -/
def devspace : Nat := 0xFE000000

/-- `KERNBASE`. -/
def kernbase : Nat := 0x80000000

/-- `SHAREDBASE`. -/
def sharedbase : Nat := 0x40000000

/-- `KERNLINK`. -/
def kernlink : Nat := kernbase + extmem

/-- Reduction to a 32-bit unsigned value. -/
def u32 (n : Nat) : Nat := n % 2 ^ 32

/-- `V2P(a)`. -/
def v2p (a : Nat) : Nat := u32 (a + 2 ^ 32 - kernbase)

/-- `P2V(a)`. -/
def p2v (a : Nat) : Nat := u32 (a + kernbase)

/-- What the linker script decides: the physical addresses of its symbols
`data` and `end`. -/
structure Layout where
  data : Nat
  kend : Nat
  data_aligned : data % 4096 = 0
  extmem_lt_data : extmem < data
  data_le_kend : data ≤ kend
  kend_le : kend ≤ phystop

/-! ## `mmu.h` -/

/-- `PDX(va)`. -/
def pdx (va : Nat) : Nat := va / 4194304 % 1024

/-- `PTX(va)`. -/
def ptx (va : Nat) : Nat := va / 4096 % 1024

/-- `PGADDR(d, t, o)`. -/
def pgaddr (d t o : Nat) : Nat := u32 (d * 4194304 + t * 4096 + o)

/-- `PGROUNDUP(sz)`, as an unsigned 32-bit value. -/
def pgroundup (sz : Nat) : Nat := u32 (sz + 4095) / 4096 * 4096

/-- `PGROUNDDOWN(a)`. -/
def pgrounddown (a : Nat) : Nat := a / 4096 * 4096

/-- `PTE_P`. -/
def pteP : Nat := 1

/-- `PTE_W`. -/
def pteW : Nat := 2

/-- `PTE_U`. -/
def pteU : Nat := 4

/-- `*pte & PTE_P`. -/
def present (w : Nat) : Bool := w.testBit 0

/-- `*pte & PTE_W`. -/
def writable (w : Nat) : Bool := w.testBit 1

/-- `*pte & PTE_U`. -/
def user (w : Nat) : Bool := w.testBit 2

/-- The frame of `PTE_ADDR(pte)`. -/
def pteFrame (w : Nat) : Nat := w / 4096

/-- `PTE_FLAGS(pte)`. -/
def pteFlags (w : Nat) : Nat := w % 4096

/-! ## Kernel code -/

/-- How kernel code can stop. -/
inductive Panic where
  | kfree
  | remap
  | phystopTooHigh
  | inituvm
  | loaduvmAlign
  | loaduvmMissing
  | freevmNull
  | clearpteu
  | copyuvmMissing
  | copyuvmAbsent
  | initExiting
  | userinit
  | filedup
  | fileclose
  | nullDeref
  | diverges
  deriving DecidableEq, Repr

/-- What the memory code acts on: physical memory and `kmem.freelist`. -/
structure Phys where
  mem : Mem
  freelist : List Nat

/-- Kernel code over physical memory. -/
abbrev Kern := StateT Phys (Except Panic)

/-! ## `kalloc.c` -/

/-- The link word of a free page: the kernel address of the next one. -/
def nextLink : List Nat → Nat
  | [] => 0
  | f :: _ => p2v (f * 4096)

/-- The memory `kfree` leaves: junk in the page and the link in its first word. -/
def junkPage (m : Mem) (f : Nat) (freelist : List Nat) : Mem :=
  setWord (fillPage m f 1) f 0 (nextLink freelist)

/-- `kfree(v)` of a kernel virtual address. -/
def kfreeAddr (L : Layout) (v : Nat) : Kern Unit := do
  if v % 4096 ≠ 0 ∨ v < p2v L.kend ∨ v2p v ≥ phystop then
    throw .kfree
  else
    modify fun σ =>
      { mem := junkPage σ.mem (v2p v / 4096) σ.freelist
        freelist := v2p v / 4096 :: σ.freelist }

/-- `kfree` of the page in frame `f`. -/
def kfree (L : Layout) (f : Nat) : Kern Unit := kfreeAddr L (p2v (f * 4096))

/-- `kalloc()`. -/
def kalloc : Kern (Option Nat) := do
  let σ ← get
  match σ.freelist with
  | [] => return none
  | f :: rest =>
    modify fun σ => { σ with freelist := rest }
    return some f

/-- The loop of `freerange`, for the `n` pages from frame `f` on. -/
def freerangeLoop (L : Layout) : Nat → Nat → Kern Unit
  | 0, _ => return ()
  | n + 1, f => do
      kfree L f
      freerangeLoop L n (f + 1)

/-- `freerange(P2V(start), P2V(stop))`. -/
def freerange (L : Layout) (start stop : Nat) : Kern Unit :=
  freerangeLoop L (stop / 4096 - (start + 4095) / 4096) ((start + 4095) / 4096)

/-! ## The allocator runs -/

/-- The frames the allocator may be given: between `end` and `PHYSTOP`. -/
def Ram (L : Layout) (f : Nat) : Prop := L.kend ≤ f * 4096 ∧ f * 4096 < phystop

theorem Ram.pos {L : Layout} {f : Nat} (h : Ram L f) : 0 < f := by
  have h1 := L.extmem_lt_data
  have h2 := L.data_le_kend
  have h3 := h.1
  unfold extmem at h1
  omega

theorem Ram.lt {L : Layout} {f : Nat} (h : Ram L f) : f < 57344 := by
  have h1 := h.2
  unfold phystop at h1
  omega

theorem kalloc_run {σ : Phys} :
    kalloc σ = match σ.freelist with
      | [] => .ok (none, σ)
      | f :: rest => .ok (some f, { σ with freelist := rest }) := by
  unfold kalloc
  rw [bind_ok (get_run σ)]
  cases σ.freelist with
  | nil => rfl
  | cons f rest => rfl

theorem kalloc_none {σ : Phys} (h : σ.freelist = []) : kalloc σ = .ok (none, σ) := by
  rw [kalloc_run, h]

theorem kalloc_some {σ : Phys} {f : Nat} {rest : List Nat} (h : σ.freelist = f :: rest) :
    kalloc σ = .ok (some f, { σ with freelist := rest }) := by
  rw [kalloc_run, h]

theorem kfree_run {L : Layout} {f : Nat} (h : Ram L f) (σ : Phys) :
    kfree L f σ = .ok ((), ⟨junkPage σ.mem f σ.freelist, f :: σ.freelist⟩) := by
  have hlt := h.lt
  have hlo := h.1
  have hkend := L.kend_le
  have hv : p2v (f * 4096) = f * 4096 + kernbase := by
    unfold p2v u32 kernbase
    omega
  have hback : v2p (f * 4096 + kernbase) = f * 4096 := by
    unfold v2p u32 kernbase
    omega
  have hkendv : p2v L.kend = L.kend + kernbase := by
    unfold phystop at hkend
    unfold p2v u32 kernbase
    omega
  have hok : ¬ ((f * 4096 + kernbase) % 4096 ≠ 0 ∨ f * 4096 + kernbase < L.kend + kernbase ∨
      f * 4096 ≥ phystop) := by
    unfold phystop kernbase
    omega
  rw [kfree, kfreeAddr, hv, hback, hkendv, if_neg hok, modify_run,
    show f * 4096 / 4096 = f by omega]

theorem kfree_error {L : Layout} {f : Nat} {σ : Phys} {e : Panic} (h : kfree L f σ = .error e) :
    e = .kfree := by
  unfold kfree kfreeAddr at h
  split at h
  · cases h
    rfl
  · cases h

theorem samePage_junkPage {m : Mem} {f g : Nat} {l : List Nat} (h : g ≠ f) :
    SamePage m (junkPage m f l) g :=
  (samePage_fillPage h).trans (samePage_setWord (by omega) h)

theorem junkPage_apply_of_ne {m : Mem} {f x : Nat} {l : List Nat} (h : x / 4096 ≠ f) :
    junkPage m f l x = m x :=
  samePage_junkPage h x rfl

/-- The junk does not depend on what the page held. -/
theorem junkPage_apply_self {m m' : Mem} {f x : Nat} {l : List Nat} (h : x / 4096 = f) :
    junkPage m f l x = junkPage m' f l x := by
  unfold junkPage setWord write32 fillPage
  simp only [h, if_true]

/-- A store into another page commutes with `kfree`. -/
theorem setWord_junkPage {m : Mem} {f t i w : Nat} {l : List Nat} (hi : i < 1024) (h : t ≠ f) :
    setWord (junkPage m f l) t i w = junkPage (setWord m t i w) f l := by
  funext x
  by_cases hx : x / 4096 = f
  · rw [samePage_setWord hi (by omega) x rfl]
    exact junkPage_apply_self hx
  · rw [junkPage_apply_of_ne hx]
    unfold setWord write32
    simp only [junkPage_apply_of_ne hx]

end Xv6Sharing.Vm
