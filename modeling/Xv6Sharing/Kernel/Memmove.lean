/-
Xv6Sharing.Kernel.Memmove — `memmove` (kernel/string.c).

Pointers are 32-bit words and their arithmetic wraps. Each loop is specified on its
own by the distance between the two pointers: a loop that goes up must not write what
it has still to read above, one that goes down must not do so below. Where ranges do
not wrap, the test at the head of `memmove` picks a loop that meets its condition.
-/
import Mathlib.Algebra.Ring.Int.Defs
import Mathlib.Algebra.Ring.Nat
import Mathlib.Logic.Function.Basic
import Mathlib.Tactic.Common

namespace Xv6Sharing.Kernel

/-- A pointer. -/
abbrev Addr := BitVec 32

/-- The bytes of the address space. -/
abbrev Bytes := Addr → UInt8

/-! ## The function -/

/-- `while(n-- > 0) *d++ = *s++`. -/
def copyUp : Nat → Bytes → Addr → Addr → Bytes
  | 0, mem, _, _ => mem
  | n + 1, mem, d, s => copyUp n (Function.update mem d (mem s)) (d + 1) (s + 1)

/-- `while(n-- > 0) *--d = *--s`. -/
def copyDown : Nat → Bytes → Addr → Addr → Bytes
  | 0, mem, _, _ => mem
  | n + 1, mem, d, s => copyDown n (Function.update mem (d - 1) (mem (s - 1))) (d - 1) (s - 1)

/-- The memory after `memmove`, and what it returns. -/
def memmove (mem : Bytes) (dst src n : Addr) : Bytes × Addr :=
  if src < dst ∧ src + n > dst then (copyDown n.toNat mem (dst + n) (src + n), dst)
  else (copyUp n.toNat mem dst src, dst)

def memcpy (mem : Bytes) (dst src n : Addr) : Bytes × Addr := memmove mem dst src n

/-! ## Ranges -/

variable {mem : Bytes} {dst src d s a p : Addr} {n i : Nat}

/-- The `i`-th address of a range. -/
def nth (p : Addr) (i : Nat) : Addr := p + BitVec.ofNat 32 i

theorem nth_zero (p : Addr) : nth p 0 = p := BitVec.add_zero p

theorem nth_succ (p : Addr) (i : Nat) : nth (p + 1) i = nth p (i + 1) := by
  rw [nth, nth, BitVec.add_assoc, Nat.add_comm i 1, BitVec.ofNat_add]
  rfl

theorem nth_pred (p : Addr) (i : Nat) : nth p (i + 1) - 1 = nth p i := by
  rw [nth, nth, BitVec.ofNat_add, ← BitVec.add_assoc]
  exact BitVec.add_sub_cancel ..

theorem toNat_nth (h : p.toNat + n ≤ 2 ^ 32) (hi : i < n) : (nth p i).toNat = p.toNat + i := by
  rw [nth, BitVec.toNat_add, BitVec.toNat_ofNat, Nat.add_mod_mod, Nat.mod_eq_of_lt (by omega)]

/-- The loop that goes up writes no byte that it has still to read. -/
def Upwards (d s : Addr) (n : Nat) : Prop := ∀ i j, i < j → j < n → nth d i ≠ nth s j

/-- The same for the loop that goes down. -/
def Downwards (d s : Addr) (n : Nat) : Prop := ∀ i j, j < i → i < n → nth d i ≠ nth s j

/-- The addresses of the range are distinct. -/
def Distinct (d : Addr) (n : Nat) : Prop := ∀ i j, i < j → j < n → nth d i ≠ nth d j

theorem distinct_of_le (h : p.toNat + n ≤ 2 ^ 32) : Distinct p n := by
  intro i j hij hj heq
  have hnat := congrArg BitVec.toNat heq
  rw [toNat_nth h (by omega), toNat_nth h hj] at hnat
  omega

/-! ## The loops -/

/-- The `n` bytes at `d` are those that `mem` has at `s`. -/
structure Copied (n : Nat) (mem : Bytes) (d s : Addr) (mem' : Bytes) : Prop where
  copied : ∀ i < n, mem' (nth d i) = mem (nth s i)
  kept : ∀ a, (∀ i < n, a ≠ nth d i) → mem' a = mem a

theorem copyUp_copied (hd : Distinct d n) (hup : Upwards d s n) :
    Copied n mem d s (copyUp n mem d s) := by
  induction n generalizing mem d s with
  | zero => exact ⟨fun i hi => absurd hi (Nat.not_lt_zero i), fun _ _ => rfl⟩
  | succ n ih =>
    have hd' : Distinct (d + 1) n := by
      intro i j hij hj
      rw [nth_succ, nth_succ]
      exact hd _ _ (by omega) (by omega)
    have hup' : Upwards (d + 1) (s + 1) n := by
      intro i j hij hj
      rw [nth_succ, nth_succ]
      exact hup _ _ (by omega) (by omega)
    have hrest : Copied n (Function.update mem d (mem s)) (d + 1) (s + 1) _ := ih hd' hup'
    rw [copyUp]
    refine ⟨fun i hi => ?_, fun a ha => ?_⟩
    · cases i with
      | zero =>
        rw [nth_zero, nth_zero]
        -- the byte of this round is not written again
        refine (hrest.kept d fun j hj => ?_).trans (Function.update_self ..)
        have hfirst := hd 0 (j + 1) (by omega) (by omega)
        rwa [nth_zero, ← nth_succ] at hfirst
      | succ i =>
        rw [← nth_succ, hrest.copied i (by omega), nth_succ]
        have hunread := hup 0 (i + 1) (by omega) hi
        rw [nth_zero] at hunread
        exact Function.update_of_ne hunread.symm ..
    · refine (hrest.kept a fun i hi => ?_).trans (Function.update_of_ne ?_ ..)
      · rw [nth_succ]
        exact ha (i + 1) (by omega)
      · exact nth_zero d ▸ ha 0 (by omega)

/-- The loop that goes down begins behind the ranges. -/
theorem copyDown_copied (hd : Distinct d n) (hdown : Downwards d s n) :
    Copied n mem d s (copyDown n mem (nth d n) (nth s n)) := by
  induction n generalizing mem with
  | zero => exact ⟨fun i hi => absurd hi (Nat.not_lt_zero i), fun _ _ => rfl⟩
  | succ n ih =>
    have hd' : Distinct d n := fun i j hij hj => hd i j hij (by omega)
    have hdown' : Downwards d s n := fun i j hji hi => hdown i j hji (by omega)
    have hrest : Copied n (Function.update mem (nth d n) (mem (nth s n))) d s _ := ih hd' hdown'
    rw [copyDown, nth_pred, nth_pred]
    refine ⟨fun i hi => ?_, fun a ha => ?_⟩
    · rcases Nat.lt_or_eq_of_le (Nat.le_of_lt_succ hi) with hlt | rfl
      · rw [hrest.copied i hlt]
        exact Function.update_of_ne (hdown n i hlt (by omega)).symm ..
      · exact (hrest.kept _ fun j hj => (hd j i hj hi).symm).trans (Function.update_self ..)
    · exact (hrest.kept a fun i hi => ha i (by omega)).trans
        (Function.update_of_ne (ha n (by omega)) ..)

/-! ## The copy -/

/-- The address lies in the `n` bytes from `p` on. -/
def InRange (p : Addr) (n : Nat) (a : Addr) : Prop := p.toNat ≤ a.toNat ∧ a.toNat < p.toNat + n

theorem inRange_nth (h : p.toNat + n ≤ 2 ^ 32) (hi : i < n) : InRange p n (nth p i) := by
  rw [InRange, toNat_nth h hi]
  omega

/-- For ranges that do not wrap, after `memmove` the bytes at `dst` are those that were at `src`, and
no others have changed, however the ranges overlap. -/
theorem memmove_moves {n : Addr} (hsrc : src.toNat + n.toNat ≤ 2 ^ 32)
    (hdst : dst.toNat + n.toNat ≤ 2 ^ 32) :
    (∀ i < n.toNat, (memmove mem dst src n).1 (nth dst i) = mem (nth src i)) ∧
      (∀ a, ¬ InRange dst n.toNat a → (memmove mem dst src n).1 a = mem a) ∧
      (memmove mem dst src n).2 = dst := by
  have hcopied : Copied n.toNat mem dst src (memmove mem dst src n).1 ∧
      (memmove mem dst src n).2 = dst := by
    have hdistinct : Distinct dst n.toNat := distinct_of_le hdst
    have hend : ∀ p : Addr, p + n = nth p n.toNat := by
      intro p
      rw [nth, BitVec.ofNat_toNat, BitVec.setWidth_eq]
    unfold memmove
    by_cases hdown : src < dst ∧ src + n > dst
    · rw [if_pos hdown, hend, hend]
      refine ⟨copyDown_copied hdistinct (fun i j hji hi heq => ?_), rfl⟩
      have hlt : src.toNat < dst.toNat := hdown.1
      have hnat := congrArg BitVec.toNat heq
      rw [toNat_nth hdst hi, toNat_nth hsrc (by omega)] at hnat
      omega
    · rw [if_neg hdown]
      refine ⟨copyUp_copied hdistinct (fun i j hij hj heq => hdown ?_), rfl⟩
      have hnat := congrArg BitVec.toNat heq
      rw [toNat_nth hdst (by omega), toNat_nth hsrc hj] at hnat
      have hlt : src.toNat < dst.toNat := by omega
      have hsum : (src + n).toNat = src.toNat + n.toNat := by
        rw [BitVec.toNat_add, Nat.mod_eq_of_lt (by omega)]
      refine ⟨hlt, ?_⟩
      show dst.toNat < (src + n).toNat
      omega
  refine ⟨hcopied.1.copied, fun a ha => hcopied.1.kept a fun i hi heq => ha ?_, hcopied.2⟩
  exact heq ▸ inRange_nth hdst hi

/-- Two bytes, moved up by one. -/
theorem memmove_moves_up : (4 : Addr).toNat + (2 : Addr).toNat ≤ 2 ^ 32 ∧
    (5 : Addr).toNat + (2 : Addr).toNat ≤ 2 ^ 32 ∧
    (memmove (fun a => UInt8.ofNat a.toNat) 5 4 2).1 (nth 5 1) = UInt8.ofNat (nth 4 1).toNat := by
  have hsrc : (4 : Addr).toNat + (2 : Addr).toNat ≤ 2 ^ 32 := by decide
  have hdst : (5 : Addr).toNat + (2 : Addr).toNat ≤ 2 ^ 32 := by decide
  exact ⟨hsrc, hdst, (memmove_moves hsrc hdst).1 1 (by decide)⟩

end Xv6Sharing.Kernel
