/-
Xv6Sharing.Lib.Refcount — reference counts.

Each of the owners `O` refers to one of the things `X` or to none. `Counted`
says that a count is the number of owners of each thing. The owners need not be
finitely many; those of one thing are. `Tally` is the same in the middle of code
that counts first and stores the reference later, or the other way round: the
references in between are in its hand. The rules say what taking, storing and
dropping a reference do, and what a count of 0 or 1 means.
-/
import Mathlib.Algebra.Ring.Int.Defs
import Mathlib.Algebra.Ring.Nat
import Mathlib.Data.Set.Card

namespace Xv6Sharing.Lib

variable {O X : Type} {points points' : O → Option X} {ref ref' : X → Nat} {o o' : O} {x y : X}

def Counted (points : O → Option X) (ref : X → Nat) : Prop :=
  ∀ x, {o | points o = some x}.encard = ref x

namespace Counted

theorem congr (h : Counted points ref) (hp : ∀ o, points' o = points o) (hr : ∀ x, ref' x = ref x) :
    Counted points' ref' := by
  have hpoints : points' = points := funext hp
  intro x
  rw [hpoints, hr]
  exact h x

theorem pos (h : Counted points ref) (ho : points o = some x) : 0 < ref x := by
  have hmem : o ∈ {o | points o = some x} := ho
  rw [Nat.pos_iff_ne_zero]
  intro hzero
  have hcard := h x
  rw [hzero, Nat.cast_zero, Set.encard_eq_zero] at hcard
  rw [hcard] at hmem
  exact hmem

theorem unowned (h : Counted points ref) (hx : ref x = 0) (o : O) : points o ≠ some x := by
  intro ho
  have hpos := h.pos ho
  omega

theorem owner (h : Counted points ref) (hx : ref x ≠ 0) : ∃ o, points o = some x := by
  have hcard := h x
  have hne : {o | points o = some x}.encard ≠ 0 := by
    rw [hcard]
    exact Nat.cast_ne_zero.mpr hx
  exact Set.encard_ne_zero.mp hne

theorem ncard (h : Counted points ref) (x : X) : ref x = {o | points o = some x}.ncard := by
  rw [Set.ncard, h x, ENat.toNat_natCast]

theorem zero (hp : ∀ o, points o = none) (hr : ∀ x, ref x = 0) : Counted points ref := by
  intro x
  rw [hr x, Nat.cast_zero, Set.encard_eq_zero]
  ext o
  simp [hp o]

end Counted

/-! ## References in hand -/

variable [DecidableEq X] {hand hand' : List X}

/-- The count is the number of owners of each thing, and of the references to it that code
still has in hand. -/
def Tally (points : O → Option X) (hand : List X) (ref : X → Nat) : Prop :=
  ∀ x, {o | points o = some x}.encard + hand.count x = ref x

theorem tally_nil : Tally points [] ref ↔ Counted points ref := by
  unfold Tally Counted
  simp

namespace Tally

theorem congr (h : Tally points hand ref) (hp : ∀ o, points' o = points o)
    (hr : ∀ x, ref' x = ref x) : Tally points' hand ref' := by
  have hpoints : points' = points := funext hp
  intro x
  rw [hpoints, hr]
  exact h x

theorem perm (h : Tally points hand ref) (hperm : hand.Perm hand') : Tally points hand' ref := by
  intro x
  rw [← hperm.count_eq]
  exact h x

/-- A thing has a positive count when a reference to it is in hand. -/
theorem pos (h : Tally points (x :: hand) ref) : 0 < ref x := by
  rw [Nat.pos_iff_ne_zero]
  intro hzero
  have hx := h x
  rw [hzero, List.count_cons_self] at hx
  simp at hx

theorem get (h : Tally points hand ref) (x : X) :
    Tally points (x :: hand) (Function.update ref x (ref x + 1)) := by
  intro y
  by_cases hy : y = x
  · subst hy
    rw [List.count_cons_self, Function.update_self, Nat.cast_succ, Nat.cast_succ, ← add_assoc, h y]
  · rw [List.count_cons_of_ne (Ne.symm hy), Function.update_of_ne hy]
    exact h y

theorem put (h : Tally points (x :: hand) ref) :
    Tally points hand (Function.update ref x (ref x - 1)) := by
  have hpos := h.pos
  intro y
  by_cases hy : y = x
  · subst hy
    have hy := h y
    have hsucc : ((ref y - 1 : Nat) : ℕ∞) + 1 = ref y := by
      rw [← Nat.cast_succ, Nat.succ_eq_add_one, Nat.sub_add_cancel hpos]
    rw [List.count_cons_self, Nat.cast_succ, ← add_assoc, ← hsucc] at hy
    rw [Function.update_self]
    exact ENat.add_left_injective_of_ne_top ENat.one_ne_top hy
  · rw [Function.update_of_ne hy, ← h y, List.count_cons_of_ne (Ne.symm hy)]

variable [DecidableEq O]

/-- An owner without a thing takes over a reference. -/
theorem place (h : Tally points (x :: hand) ref) (ho : points o = none) :
    Tally (Function.update points o (some x)) hand ref := by
  intro y
  by_cases hy : y = x
  · subst hy
    have hset : {o' | Function.update points o (some y) o' = some y}
        = insert o {o' | points o' = some y} := by
      ext o'
      by_cases heq : o' = o <;> simp [heq]
    have hnot : o ∉ {o' | points o' = some y} := by simp [ho]
    rw [hset, Set.encard_insert_of_notMem hnot, ← h y, List.count_cons_self, Nat.cast_succ,
      add_right_comm, add_assoc]
  · have hset : {o' | Function.update points o (some x) o' = some y} = {o' | points o' = some y} := by
      ext o'
      by_cases heq : o' = o <;> simp [heq, ho, Ne.symm hy]
    rw [hset, ← h y, List.count_cons_of_ne (Ne.symm hy)]

theorem pick (h : Tally points hand ref) (ho : points o = some x) :
    Tally (Function.update points o none) (x :: hand) ref := by
  intro y
  by_cases hy : y = x
  · subst hy
    have hset : {o' | Function.update points o none o' = some y} = {o' | points o' = some y} \ {o} := by
      ext o'
      by_cases heq : o' = o <;> simp [heq]
    have hmem : o ∈ {o' | points o' = some y} := ho
    rw [← h y, hset, List.count_cons_self, ← Set.encard_sdiff_singleton_add_one hmem, Nat.cast_succ,
      add_right_comm, add_assoc]
  · have hset : {o' | Function.update points o none o' = some y} = {o' | points o' = some y} := by
      ext o'
      by_cases heq : o' = o <;> simp [heq, ho, Ne.symm hy]
    rw [hset, ← h y, List.count_cons_of_ne (Ne.symm hy)]

end Tally

/-! ## Without references in hand -/

variable [DecidableEq O]

theorem Counted.take (h : Counted points ref) (ho : points o = none) (x : X) :
    Counted (Function.update points o (some x)) (Function.update ref x (ref x + 1)) :=
  tally_nil.mp (((tally_nil.mpr h).get x).place ho)

theorem Counted.drop (h : Counted points ref) (ho : points o = some x) :
    Counted (Function.update points o none) (Function.update ref x (ref x - 1)) :=
  tally_nil.mp ((tally_nil.mpr h).pick ho).put

end Xv6Sharing.Lib
