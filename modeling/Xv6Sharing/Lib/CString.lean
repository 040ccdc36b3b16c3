/-
Xv6Sharing.Lib.CString — strings in arrays of bytes.

An array is the list of its bytes, and a pointer into it is what is left of the
list. An access outside the array has no result. A string is stored with a NUL
behind it, and the array may be longer; `StringAt` says that. What lies behind the
NUL never matters to code that reads the string.
-/
import Mathlib.Algebra.Ring.Int.Defs
import Mathlib.Algebra.Ring.Nat
import Mathlib.Data.List.Basic
import Mathlib.Data.List.GetD
import Mathlib.Data.List.TakeWhile

namespace Xv6Sharing.Lib

variable {a b s t : List UInt8} {i n : Nat} {c : UInt8}

/-- The array `a` begins with the string `s` and a NUL. -/
structure StringAt (a s : List UInt8) : Prop where
  noNul : 0 ∉ s
  starts : s ++ [0] <+: a

theorem StringAt.exists_rest (h : StringAt a s) : ∃ rest, a = s ++ 0 :: rest := by
  obtain ⟨rest, hrest⟩ := h.starts
  exact ⟨rest, by rw [← hrest, List.append_assoc, List.singleton_append]⟩

theorem stringAt_append (hs : 0 ∉ s) (rest : List UInt8) : StringAt (s ++ 0 :: rest) s :=
  ⟨hs, rest, by rw [List.append_assoc, List.singleton_append]⟩

theorem StringAt.length_lt (h : StringAt a s) : s.length < a.length := by
  obtain ⟨rest, rfl⟩ := h.exists_rest
  rw [List.length_append, List.length_cons]
  omega

theorem StringAt.getElem? (h : StringAt a s) (hi : i ≤ s.length) :
    a[i]? = some (s.getD i 0) := by
  obtain ⟨rest, rfl⟩ := h.exists_rest
  rcases Nat.lt_or_eq_of_le hi with hlt | rfl
  · rw [List.getElem?_append_left hlt, List.getElem?_eq_getElem hlt, List.getD_eq_getElem s 0 hlt]
  · rw [List.getElem?_append_right (Nat.le_refl _), Nat.sub_self, List.getD_eq_default s 0 hi]
    rfl

theorem StringAt.unique (h : StringAt a s) (h' : StringAt a t) : s = t := by
  obtain ⟨rest, rfl⟩ := h.exists_rest
  obtain ⟨rest', heq⟩ := h'.exists_rest
  induction s generalizing t with
  | nil =>
    cases t with
    | nil => rfl
    | cons c t =>
      cases heq
      exact absurd List.mem_cons_self h'.noNul
  | cons c s ih =>
    cases t with
    | nil =>
      cases heq
      exact absurd List.mem_cons_self h.noNul
    | cons d t =>
      obtain ⟨rfl, htail⟩ := List.cons.inj heq
      have hs : 0 ∉ s := fun hmem => h.noNul (List.mem_cons_of_mem _ hmem)
      have ht : 0 ∉ t := fun hmem => h'.noNul (List.mem_cons_of_mem _ hmem)
      have htail : s ++ 0 :: rest = t ++ 0 :: rest' := htail
      exact congrArg (c :: ·) (ih (stringAt_append hs rest) (htail ▸ stringAt_append ht rest') htail)

/-- What stands before the first NUL. -/
def cut (s : List UInt8) : List UInt8 := s.takeWhile (· ≠ 0)

theorem cut_zero (s : List UInt8) : cut (0 :: s) = [] := rfl

theorem cut_cons (h : c ≠ 0) (s : List UInt8) : cut (c :: s) = c :: cut s :=
  List.takeWhile_cons_of_pos (by simpa using h)

theorem cut_of_noNul (h : 0 ∉ s) : cut s = s :=
  List.takeWhile_eq_self_iff.mpr fun _ hc => decide_eq_true fun hzero => h (hzero ▸ hc)

theorem cut_append (h : 0 ∉ s) (rest : List UInt8) : cut (s ++ 0 :: rest) = s := by
  induction s with
  | nil => exact cut_zero rest
  | cons c s ih =>
    have hc : c ≠ 0 := fun hzero => h (hzero ▸ List.mem_cons_self)
    rw [List.cons_append, cut_cons hc, ih fun hmem => h (List.mem_cons_of_mem _ hmem)]

theorem noNul_cut (s : List UInt8) : 0 ∉ cut s := fun hmem => by
  simpa using List.mem_takeWhile_imp hmem

theorem length_cut_le (s : List UInt8) : (cut s).length ≤ s.length :=
  (List.takeWhile_sublist _).length_le

/-- A store to an element. -/
def storeAt (a : List UInt8) (i : Nat) (c : UInt8) : Option (List UInt8) :=
  if i < a.length then some (a.set i c) else none

theorem storeAt_of_lt (h : i < a.length) : storeAt a i c = some (a.set i c) := if_pos h

theorem storeAt_eq_none : storeAt a i c = none ↔ a.length ≤ i := by
  unfold storeAt
  split <;> simp <;> omega

theorem storeAt_append (s : List UInt8) (d : UInt8) (rest : List UInt8) :
    storeAt (s ++ d :: rest) s.length c = some (s ++ c :: rest) := by
  rw [storeAt_of_lt (by simp), List.set_append_right _ _ (Nat.le_refl _), Nat.sub_self,
    List.set_cons_zero]

end Xv6Sharing.Lib
