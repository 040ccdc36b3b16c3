/-
Xv6Sharing.Lib.Ring — a ring buffer with counters that wrap.

The counters run modulo `W` and index a buffer of `N` cells, where `N` divides
`W`. `Ring N W data head tail xs` says that the cells from `head` to `tail` hold
the queue `xs`. The rules say what the two operations do to the queue and what
the two tests on the counters mean.
-/
import Mathlib.Algebra.Ring.Int.Defs
import Mathlib.Algebra.Ring.Nat
import Mathlib.Data.Nat.ModEq
import Mathlib.Logic.Function.Basic

namespace Xv6Sharing.Lib

variable {α : Type} {N W head tail : Nat} {data : Nat → α} {xs : List α}

/-- How far `tail` is ahead of `head`. -/
def ahead (W head tail : Nat) : Nat := (tail + W - head) % W

/-- The elements between the counters, the oldest first. -/
def queued (N W : Nat) (data : Nat → α) (head tail : Nat) : List α :=
  (List.range (ahead W head tail)).map fun i => data ((head + i) % W % N)

structure Ring (N W : Nat) (data : Nat → α) (head tail : Nat) (xs : List α) : Prop where
  head_lt : head < W
  tail_eq : tail = (head + xs.length) % W
  length_le : xs.length ≤ N
  cell : ∀ i (h : i < xs.length), data ((head + i) % N) = xs[i]

namespace Ring

theorem nil (h : head < W) : Ring N W data head head [] where
  head_lt := h
  tail_eq := (Nat.mod_eq_of_lt h).symm
  length_le := Nat.zero_le N
  cell := fun i hi => absurd hi (Nat.not_lt_zero i)

theorem ahead_eq (h : Ring N W data head tail xs) (hN : N < W) :
    ahead W head tail = xs.length := by
  have hlen := h.length_le
  have hhead := h.head_lt
  unfold ahead
  rw [h.tail_eq]
  by_cases hw : head + xs.length < W
  · rw [Nat.mod_eq_of_lt hw, show head + xs.length + W - head = xs.length + W by omega,
      Nat.add_mod_right]
    exact Nat.mod_eq_of_lt (by omega)
  · have htail : (head + xs.length) % W = head + xs.length - W := by
      rw [Nat.mod_eq_sub_mod (by omega)]
      exact Nat.mod_eq_of_lt (by omega)
    rw [htail, show head + xs.length - W + W - head = xs.length by omega]
    exact Nat.mod_eq_of_lt (by omega)

theorem queued_eq (h : Ring N W data head tail xs) (hN : N < W) (hdvd : N ∣ W) :
    queued N W data head tail = xs := by
  unfold queued
  rw [h.ahead_eq hN]
  apply List.ext_getElem
  · simp
  · intro i hi hxs
    rw [List.getElem_map, List.getElem_range, Nat.mod_mod_of_dvd _ hdvd]
    exact h.cell i hxs

theorem empty_iff (h : Ring N W data head tail xs) (hN : N < W) : head = tail ↔ xs = [] := by
  have hahead := h.ahead_eq hN
  have hhead := h.head_lt
  constructor
  · rintro rfl
    unfold ahead at hahead
    rw [Nat.add_sub_cancel_left, Nat.mod_self] at hahead
    exact List.eq_nil_of_length_eq_zero hahead.symm
  · rintro rfl
    rw [h.tail_eq]
    exact (Nat.mod_eq_of_lt hhead).symm

theorem full_iff (h : Ring N W data head tail xs) (hN : N < W) :
    tail = (head + N) % W ↔ xs.length = N := by
  have hlen := h.length_le
  have hhead := h.head_lt
  rw [h.tail_eq]
  constructor
  · intro heq
    have hmod : xs.length ≡ N [MOD W] := Nat.ModEq.add_left_cancel' head heq
    exact Nat.ModEq.eq_of_lt_of_lt hmod (by omega) hN
  · intro heq
    rw [heq]

theorem push (h : Ring N W data head tail xs) (hdvd : N ∣ W) (hroom : xs.length < N) (x : α) :
    Ring N W (Function.update data (tail % N) x) head ((tail + 1) % W) (xs ++ [x]) where
  head_lt := h.head_lt
  tail_eq := by
    rw [h.tail_eq, Nat.mod_add_mod, List.length_append, List.length_singleton, Nat.add_assoc]
  length_le := by
    rw [List.length_append, List.length_singleton]
    exact hroom
  cell := by
    intro i hi
    have htail : tail % N = (head + xs.length) % N := by
      rw [h.tail_eq, Nat.mod_mod_of_dvd _ hdvd]
    rw [List.length_append, List.length_singleton] at hi
    by_cases hlast : i = xs.length
    · subst hlast
      rw [htail, Function.update_self]
      simp
    · have hlt : i < xs.length := by omega
      -- two cells less than `N` apart are different
      have hne : (head + i) % N ≠ tail % N := by
        rw [htail]
        intro heq
        have hmod : i ≡ xs.length [MOD N] := Nat.ModEq.add_left_cancel' head heq
        exact hlast (Nat.ModEq.eq_of_lt_of_lt hmod (by omega) hroom)
      rw [Function.update_of_ne hne, List.getElem_append_left hlt]
      exact h.cell i hlt

theorem pop {x : α} (h : Ring N W data head tail (x :: xs)) (hdvd : N ∣ W) :
    data (head % N) = x ∧ Ring N W data ((head + 1) % W) tail xs := by
  have hW : 0 < W := lt_of_le_of_lt (Nat.zero_le head) h.head_lt
  have hlen := h.length_le
  rw [List.length_cons] at hlen
  refine ⟨?_, ⟨Nat.mod_lt _ hW, ?_, by omega, fun i hi => ?_⟩⟩
  · exact h.cell 0 (by simp)
  · rw [h.tail_eq, List.length_cons, Nat.mod_add_mod]
    congr 1
    omega
  · have hcell := h.cell (i + 1) (by simpa using hi)
    rw [List.getElem_cons_succ] at hcell
    rw [← hcell, ← Nat.mod_mod_of_dvd _ hdvd, Nat.mod_add_mod, Nat.mod_mod_of_dvd _ hdvd]
    congr 2
    omega

theorem pred_eq (hW : 0 < W) (k : Nat) : ((k + 1) % W + W - 1) % W = k % W := by
  rw [Nat.add_sub_assoc hW, Nat.mod_add_mod, show k + 1 + (W - 1) = k + W by omega,
    Nat.add_mod_right]

theorem unpush {x : α} (h : Ring N W data head tail (xs ++ [x])) (hdvd : N ∣ W) :
    data ((tail + W - 1) % W % N) = x ∧ Ring N W data head ((tail + W - 1) % W) xs := by
  have hW : 0 < W := lt_of_le_of_lt (Nat.zero_le head) h.head_lt
  have hlen := h.length_le
  have htail : (tail + W - 1) % W = (head + xs.length) % W := by
    rw [h.tail_eq, List.length_append, List.length_singleton, ← Nat.add_assoc]
    exact pred_eq hW _
  rw [List.length_append, List.length_singleton] at hlen
  rw [htail, Nat.mod_mod_of_dvd _ hdvd]
  refine ⟨?_, ⟨h.head_lt, rfl, by omega, fun i hi => ?_⟩⟩
  · rw [h.cell xs.length (by simp)]
    simp
  · rw [h.cell i (by simp; omega), List.getElem_append_left hi]

/-- The first elements of a queue, up to a counter in between. -/
theorem front {ys : List α} (h : Ring N W data head tail (xs ++ ys)) :
    Ring N W data head ((head + xs.length) % W) xs := by
  have hlen := h.length_le
  rw [List.length_append] at hlen
  refine ⟨h.head_lt, rfl, by omega, fun i hi => ?_⟩
  rw [h.cell i (by simp; omega), List.getElem_append_left hi]

theorem back {ys : List α} (h : Ring N W data head tail (xs ++ ys)) (hdvd : N ∣ W) :
    Ring N W data ((head + xs.length) % W) tail ys := by
  induction xs generalizing head with
  | nil =>
    rw [List.length_nil, Nat.add_zero, Nat.mod_eq_of_lt h.head_lt]
    exact h
  | cons x xs ih =>
    have hrest := ih (h.pop hdvd).2
    rw [Nat.mod_add_mod, Nat.add_assoc, Nat.add_comm 1] at hrest
    exact hrest

end Ring

end Xv6Sharing.Lib
