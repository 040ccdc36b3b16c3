/-
Xv6Sharing.Lib.Lines — texts as lines that end in a separator.

A text is a list of lines, each with the separator behind it, and an open line at the
end. `splitLines` finds them, and they are unique since no line has a separator inside.
-/
import Mathlib.Algebra.Ring.Int.Defs
import Mathlib.Algebra.Ring.Nat
import Mathlib.Data.List.Basic

namespace Xv6Sharing.Lib

variable {α : Type} {sep : α} {xs : List (List α)} {rest t : List α}

/-- The lines with the separator behind each. -/
def joinLines (sep : α) (xs : List (List α)) : List α := xs.flatMap (· ++ [sep])

theorem joinLines_cons (x : List α) :
    joinLines sep (x :: xs) = x ++ sep :: joinLines sep xs := by
  rw [joinLines, List.flatMap_cons, List.append_assoc]
  rfl

theorem joinLines_append (ys : List (List α)) :
    joinLines sep (xs ++ ys) = joinLines sep xs ++ joinLines sep ys := List.flatMap_append

theorem length_le_joinLines : xs.length ≤ (joinLines sep xs).length := by
  induction xs with
  | nil => exact Nat.le_refl 0
  | cons x xs ih =>
    rw [joinLines_cons, List.length_append, List.length_cons, List.length_cons]
    omega

/-- Lines without a separator inside, and an open line. -/
structure IsSplit (sep : α) (t : List α) (xs : List (List α)) (rest : List α) : Prop where
  join : joinLines sep xs ++ rest = t
  lines : ∀ x ∈ xs, sep ∉ x
  last : sep ∉ rest

variable [DecidableEq α]

/-- The lines of a text, and the open line. -/
def splitLines (sep : α) : List α → List (List α) × List α
  | [] => ([], [])
  | c :: t =>
    if c = sep then ([] :: (splitLines sep t).1, (splitLines sep t).2)
    else match (splitLines sep t).1 with
      | [] => ([], c :: (splitLines sep t).2)
      | x :: xs => ((c :: x) :: xs, (splitLines sep t).2)

theorem isSplit_splitLines (sep : α) (t : List α) :
    IsSplit sep t (splitLines sep t).1 (splitLines sep t).2 := by
  induction t with
  | nil => exact ⟨rfl, nofun, nofun⟩
  | cons c t ih =>
    rw [splitLines]
    by_cases hc : c = sep
    · rw [if_pos hc]
      refine ⟨?_, fun x hx => ?_, ih.last⟩
      · rw [joinLines_cons, List.nil_append, List.cons_append, ih.join, hc]
      · rcases List.mem_cons.mp hx with rfl | hx
        · exact List.not_mem_nil
        · exact ih.lines x hx
    · rw [if_neg hc]
      have hjoin := ih.join
      cases hxs : (splitLines sep t).1 with
      | nil =>
        rw [hxs] at hjoin
        refine ⟨congrArg (c :: ·) hjoin, nofun, fun hmem => ?_⟩
        rcases List.mem_cons.mp hmem with heq | hmem
        · exact hc heq.symm
        · exact ih.last hmem
      | cons x xs =>
        rw [hxs, joinLines_cons] at hjoin
        refine ⟨?_, fun y hy => ?_, ih.last⟩
        · rw [joinLines_cons]
          exact congrArg (c :: ·) hjoin
        · have hlines := ih.lines
          rw [hxs] at hlines
          rcases List.mem_cons.mp hy with rfl | hy
          · intro hmem
            rcases List.mem_cons.mp hmem with heq | hmem
            · exact hc heq.symm
            · exact hlines x List.mem_cons_self hmem
          · exact hlines y (List.mem_cons_of_mem _ hy)

theorem splitLines_of_notMem (h : sep ∉ t) : splitLines sep t = ([], t) := by
  induction t with
  | nil => rfl
  | cons c t ih =>
    have hc : c ≠ sep := fun heq => h (heq ▸ List.mem_cons_self)
    rw [splitLines, if_neg hc, ih fun hmem => h (List.mem_cons_of_mem _ hmem)]

theorem splitLines_line {x : List α} (h : sep ∉ x) (t : List α) :
    splitLines sep (x ++ sep :: t) = (x :: (splitLines sep t).1, (splitLines sep t).2) := by
  induction x with
  | nil => rw [List.nil_append, splitLines, if_pos rfl]
  | cons c x ih =>
    have hc : c ≠ sep := fun heq => h (heq ▸ List.mem_cons_self)
    rw [List.cons_append, splitLines, if_neg hc, ih fun hmem => h (List.mem_cons_of_mem _ hmem)]

/-- A text has one split. -/
theorem IsSplit.eq_splitLines (h : IsSplit sep t xs rest) : splitLines sep t = (xs, rest) := by
  rw [← h.join]
  have hlines := h.lines
  induction xs generalizing t with
  | nil => exact splitLines_of_notMem h.last
  | cons x xs ih =>
    have hrest : ∀ y ∈ xs, sep ∉ y := fun y hy => hlines y (List.mem_cons_of_mem _ hy)
    rw [joinLines_cons, List.append_assoc, List.cons_append,
      splitLines_line (hlines x List.mem_cons_self), ih ⟨rfl, hrest, h.last⟩ hrest]

end Xv6Sharing.Lib
