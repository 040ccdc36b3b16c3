/-
Xv6Sharing.Lib.Slots — things that are allocated one by one and kept in slots.

A slot holds a thing, or 0. `Owned addr marked Data` says that the slots hold
things of `Data` only, no thing is in two slots, and a thing of `Data` is
marked exactly when some slot holds it. The rules say what filling an empty
slot with an unmarked thing and emptying a slot do to it.
-/
import Mathlib.Algebra.Notation.Defs
import Mathlib.Algebra.Ring.Int.Defs
import Mathlib.Algebra.Ring.Nat
import Mathlib.Logic.ExistsUnique
import Mathlib.Logic.Function.Basic
import Mathlib.Tactic.Common

namespace Xv6Sharing.Lib

variable {S R : Type} [Zero R]

structure Owned (addr : S → R) (marked Data : R → Prop) : Prop where
  zero : ¬ Data 0
  data : ∀ s, addr s ≠ 0 → Data (addr s)
  unique : ∀ s t, addr s ≠ 0 → addr s = addr t → s = t
  marked_iff : ∀ b, Data b → (marked b ↔ ∃ s, addr s = b)

namespace Owned

variable {addr addr' : S → R} {marked marked' Data : R → Prop}

/-- A marked thing is in exactly one slot. -/
theorem existsUnique_iff (h : Owned addr marked Data) {b : R} (hb : Data b) :
    marked b ↔ ∃! s, addr s = b := by
  rw [h.marked_iff b hb]
  constructor
  · rintro ⟨s, rfl⟩
    have hne : addr s ≠ 0 := fun h0 => h.zero (h0 ▸ hb)
    exact ⟨s, rfl, fun t ht => (h.unique s t hne ht.symm).symm⟩
  · rintro ⟨s, hs, -⟩
    exact ⟨s, hs⟩

/-- What is not marked is in no slot. -/
theorem fresh (h : Owned addr marked Data) {b : R} (hb : Data b) (hm : ¬ marked b) (s : S) :
    addr s ≠ b :=
  fun hs => hm ((h.marked_iff b hb).mpr ⟨s, hs⟩)

theorem congr (h : Owned addr marked Data) (haddr : ∀ s, addr' s = addr s)
    (hmarked : ∀ b, Data b → (marked' b ↔ marked b)) : Owned addr' marked' Data := by
  have heq : addr' = addr := funext haddr
  subst heq
  exact ⟨h.zero, h.data, h.unique, fun b hb => (hmarked b hb).trans (h.marked_iff b hb)⟩

theorem assign (h : Owned addr marked Data) {s : S} {b : R} (hs : addr s = 0) (hb : Data b)
    (hm : ¬ marked b) (hslot : addr' s = b) (hother : ∀ t, t ≠ s → addr' t = addr t)
    (hmarked : ∀ x, Data x → (marked' x ↔ marked x ∨ x = b)) : Owned addr' marked' Data := by
  have hfresh := h.fresh hb hm
  have hcases : ∀ t, t = s ∧ addr' t = b ∨ t ≠ s ∧ addr' t = addr t := by
    intro t
    by_cases ht : t = s
    · exact .inl ⟨ht, ht ▸ hslot⟩
    · exact .inr ⟨ht, hother t ht⟩
  constructor
  · exact h.zero
  · intro t ht
    obtain ⟨-, heq⟩ | ⟨-, heq⟩ := hcases t
    · exact heq ▸ hb
    · rw [heq] at ht ⊢
      exact h.data t ht
  · intro t u ht htu
    obtain ⟨rfl, heq⟩ | ⟨hts, heq⟩ := hcases t <;> obtain ⟨rfl, heq'⟩ | ⟨hus, heq'⟩ := hcases u
    · rfl
    · exact absurd (heq'.symm.trans (htu.symm.trans heq)) (hfresh u)
    · exact absurd (heq.symm.trans (htu.trans heq')) (hfresh t)
    · rw [heq] at ht htu
      exact h.unique t u ht (htu.trans heq')
  · intro x hx
    rw [hmarked x hx, h.marked_iff x hx]
    constructor
    · rintro (⟨t, rfl⟩ | rfl)
      · have hts : t ≠ s := by
          rintro rfl
          exact h.zero (hs ▸ hx)
        exact ⟨t, hother t hts⟩
      · exact ⟨s, hslot⟩
    · rintro ⟨t, rfl⟩
      obtain ⟨-, heq⟩ | ⟨-, heq⟩ := hcases t
      · exact .inr heq
      · exact .inl ⟨t, heq.symm⟩

/-- A slot is emptied, and what it held is no longer marked. -/
theorem release (h : Owned addr marked Data) {s : S} (hslot : addr' s = 0)
    (hother : ∀ t, t ≠ s → addr' t = addr t)
    (hmarked : ∀ x, Data x → (marked' x ↔ marked x ∧ x ≠ addr s)) : Owned addr' marked' Data := by
  have hback : ∀ t, addr' t ≠ 0 → t ≠ s ∧ addr' t = addr t := by
    intro t ht
    have hts : t ≠ s := fun heq => ht (heq ▸ hslot)
    exact ⟨hts, hother t hts⟩
  constructor
  · exact h.zero
  · intro t ht
    obtain ⟨-, heq⟩ := hback t ht
    rw [heq] at ht ⊢
    exact h.data t ht
  · intro t u ht htu
    obtain ⟨-, heq⟩ := hback t ht
    obtain ⟨-, heq'⟩ := hback u (htu ▸ ht)
    rw [heq] at ht htu
    exact h.unique t u ht (htu.trans heq')
  · intro x hx
    have hx0 : x ≠ 0 := fun h0 => h.zero (h0 ▸ hx)
    rw [hmarked x hx, h.marked_iff x hx]
    constructor
    · rintro ⟨⟨t, rfl⟩, hne⟩
      exact ⟨t, hother t fun heq => hne (heq ▸ rfl)⟩
    · rintro ⟨t, rfl⟩
      obtain ⟨hts, heq⟩ := hback t hx0
      refine ⟨⟨t, heq.symm⟩, fun hs => hts (h.unique t s ?_ ?_)⟩
      · rwa [← heq]
      · exact heq.symm.trans hs

end Owned

end Xv6Sharing.Lib
