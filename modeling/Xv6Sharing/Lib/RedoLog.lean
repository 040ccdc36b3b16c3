/-
Xv6Sharing.Lib.RedoLog — recovery from a redo log.

A disk has a log area: a header block that lists block numbers, and a slot for
each of them with the block's new contents. `Recoverable D disk` says that the
disk, with the blocks of its header installed, is `D` outside the log area.
The rules say which single block writes keep that: writing a slot while the
header is empty, writing the header, installing a slot, and erasing the header
when every slot is installed. Blocks are of any type, and the header is read
by any function.
-/
import Mathlib.Algebra.Ring.Int.Defs
import Mathlib.Algebra.Ring.Nat
import Mathlib.Logic.Function.Basic
import Mathlib.Tactic.Common

namespace Xv6Sharing.Lib

/-- The log area: the header is its first block. -/
structure LogArea where
  start : Nat
  size : Nat

namespace LogArea

def Has (L : LogArea) (b : Nat) : Prop := L.start ≤ b ∧ b < L.start + L.size

instance (L : LogArea) (b : Nat) : Decidable (L.Has b) :=
  inferInstanceAs (Decidable (L.start ≤ b ∧ b < L.start + L.size))

/-- The block that holds the contents of the `i`-th block of the header. -/
def slot (L : LogArea) (i : Nat) : Nat := L.start + i + 1

end LogArea

variable {β : Type} {L : LogArea} {head : β → List Nat} {D disk : Nat → β}

/-- Copy the slots from the `i`-th on to the blocks `bs`. -/
def installFrom (L : LogArea) : List Nat → Nat → (Nat → β) → Nat → β
  | [], _, disk => disk
  | b :: bs, i, disk => installFrom L bs (i + 1) (Function.update disk b (disk (L.slot i)))

structure Recoverable (L : LogArea) (head : β → List Nat) (D disk : Nat → β) : Prop where
  fits : (head (disk L.start)).length < L.size
  outside : ∀ b ∈ head (disk L.start), ¬ L.Has b
  logged : ∀ i (h : i < (head (disk L.start)).length), disk (L.slot i) = D (head (disk L.start))[i]
  clean : ∀ b, ¬ L.Has b → b ∉ head (disk L.start) → disk b = D b

theorem slot_has {i : Nat} (h : i + 1 < L.size) : L.Has (L.slot i) := by
  unfold LogArea.Has LogArea.slot
  omega

theorem start_has (h : 0 < L.size) : L.Has L.start := by
  unfold LogArea.Has
  omega

theorem slot_ne_start {i : Nat} : L.slot i ≠ L.start := by
  unfold LogArea.slot
  omega

theorem installFrom_eq {bs : List Nat} {i : Nat} (hfit : i + bs.length < L.size)
    (hout : ∀ b ∈ bs, ¬ L.Has b) (hlog : ∀ j (h : j < bs.length), disk (L.slot (i + j)) = D bs[j])
    (hclean : ∀ b, ¬ L.Has b → b ∉ bs → disk b = D b) {b : Nat} (hb : ¬ L.Has b) :
    installFrom L bs i disk b = D b := by
  induction bs generalizing i disk with
  | nil => exact hclean b hb (by simp)
  | cons c bs ih =>
    rw [List.length_cons] at hfit
    have hc : disk (L.slot i) = D c := hlog 0 (by simp)
    refine ih (by omega) (fun x hx => hout x (List.mem_cons_of_mem c hx)) (fun j hj => ?_)
      (fun x hx hxs => ?_)
    · -- `c` is not in the log area, so the slots are as they were
      have hne : L.slot (i + 1 + j) ≠ c := by
        intro heq
        exact hout c List.mem_cons_self (heq ▸ slot_has (by omega))
      rw [Function.update_of_ne hne, show i + 1 + j = i + (j + 1) by omega]
      exact hlog (j + 1) (by simpa using hj)
    · by_cases hxc : x = c
      · rw [hxc, Function.update_self, hc]
      · rw [Function.update_of_ne hxc]
        exact hclean x hx (by simp [hxc, hxs])

namespace Recoverable

/-- Installing the blocks of the header recovers `D`. -/
theorem install_all (h : Recoverable L head D disk) {b : Nat} (hb : ¬ L.Has b) :
    installFrom L (head (disk L.start)) 0 disk b = D b := by
  refine installFrom_eq (by simpa using h.fits) h.outside (fun j hj => ?_) h.clean hb
  rw [Nat.zero_add]
  exact h.logged j hj

theorem of_empty (hhead : head (disk L.start) = []) (hsize : 0 < L.size)
    (hclean : ∀ b, ¬ L.Has b → disk b = D b) : Recoverable L head D disk where
  fits := by
    rw [hhead]
    exact hsize
  outside := by
    rw [hhead]
    simp
  logged := by
    rw [hhead]
    simp
  clean := fun b hb _ => hclean b hb

/-- The header is written when the slots hold the new contents of its blocks. -/
theorem write_head {h' : β} {bs : List Nat} (hbs : head h' = bs) (hfit : bs.length < L.size)
    (hout : ∀ b ∈ bs, ¬ L.Has b) (hlog : ∀ i (h : i < bs.length), disk (L.slot i) = D bs[i])
    (hclean : ∀ b, ¬ L.Has b → b ∉ bs → disk b = D b) :
    Recoverable L head D (Function.update disk L.start h') := by
  subst hbs
  constructor
  · rw [Function.update_self]
    exact hfit
  · rw [Function.update_self]
    exact hout
  · simp only [Function.update_self]
    intro i hi
    rw [Function.update_of_ne slot_ne_start]
    exact hlog i hi
  · rw [Function.update_self]
    intro b hb hbs
    have hne : b ≠ L.start := by
      intro heq
      exact hb (heq ▸ start_has (by omega))
    rw [Function.update_of_ne hne]
    exact hclean b hb hbs

theorem install (h : Recoverable L head D disk) {i : Nat} (hi : i < (head (disk L.start)).length) :
    Recoverable L head D
      (Function.update disk (head (disk L.start))[i] (disk (L.slot i))) := by
  have hout := h.outside _ (List.getElem_mem hi)
  have hne : ∀ b, L.Has b → b ≠ (head (disk L.start))[i] := fun b hb heq => hout (heq ▸ hb)
  have hstart : L.start ≠ (head (disk L.start))[i] := hne _ (start_has (by have := h.fits; omega))
  constructor
  · rw [Function.update_of_ne hstart]
    exact h.fits
  · rw [Function.update_of_ne hstart]
    exact h.outside
  · simp only [Function.update_of_ne hstart]
    intro j hj
    rw [Function.update_of_ne (hne _ (slot_has (by have := h.fits; omega)))]
    exact h.logged j hj
  · rw [Function.update_of_ne hstart]
    intro b hb hbs
    have hbi : b ≠ (head (disk L.start))[i] := fun heq => hbs (heq ▸ List.getElem_mem hi)
    rw [Function.update_of_ne hbi]
    exact h.clean b hb hbs

end Recoverable

end Xv6Sharing.Lib
