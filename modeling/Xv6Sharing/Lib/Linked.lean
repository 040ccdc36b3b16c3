/-
Xv6Sharing.Lib.Linked — lists kept in link fields.

* A queue through one link. `Linked next start xs` says that following `next`
  from `start` visits `xs` and ends. `enqueue` walks to the last cell and hangs
  a cell behind it.

* A circular list through two links. `Path next prev a xs z` says that `next`
  leads from `a` through `xs` to `z` and `prev` leads back; a circular list is a
  path from a node to itself. `scan` walks it, `unlink` takes a node out and
  `insertAfter` puts one in.

The rules say what the operations do to the list of nodes.
-/
import Mathlib.Algebra.Ring.Int.Defs
import Mathlib.Algebra.Ring.Nat
import Mathlib.Data.List.Basic
import Mathlib.Data.List.Nodup
import Mathlib.Logic.Function.Basic

namespace Xv6Sharing.Lib

/-! ## Queues -/

section Queue

variable {B : Type} {next next' : B → Option B} {start : Option B} {xs : List B} {x b : B}

def Linked (next : B → Option B) : Option B → List B → Prop
  | start, [] => start = none
  | start, x :: xs => start = some x ∧ Linked next (next x) xs

/-- The last cell after `b`, within `fuel` links. -/
def lastCell (next : B → Option B) : Nat → B → B
  | 0, b => b
  | fuel + 1, b =>
    match next b with
    | none => b
    | some b' => lastCell next fuel b'

theorem Linked.congr (h : Linked next start xs) (hsame : ∀ b ∈ xs, next' b = next b) :
    Linked next' start xs := by
  induction xs generalizing start with
  | nil => exact h
  | cons x xs ih =>
    refine ⟨h.1, ?_⟩
    rw [hsame x List.mem_cons_self]
    exact ih h.2 fun b hb => hsame b (List.mem_cons_of_mem x hb)

/-- The walk ends at the last cell. -/
theorem Linked.lastCell_eq {fuel : Nat} (h : Linked next (some b) (xs ++ [x]))
    (hfuel : xs.length ≤ fuel) : lastCell next fuel b = x := by
  induction xs generalizing b fuel with
  | nil =>
    obtain ⟨hb, hend⟩ := h
    cases hb
    cases fuel with
    | zero => rfl
    | succ fuel => rw [lastCell, show next x = none from hend]
  | cons y ys ih =>
    obtain ⟨hb, hrest⟩ := h
    cases hb
    cases fuel with
    | zero => exact absurd hfuel (Nat.not_succ_le_zero _)
    | succ fuel =>
      cases hnext : next y with
      | none =>
        rw [hnext] at hrest
        cases ys with
        | nil => cases hrest.1
        | cons z zs => cases hrest.1
      | some b' =>
        rw [hnext] at hrest
        rw [lastCell, hnext]
        exact ih hrest (Nat.le_of_succ_le_succ hfuel)

variable [DecidableEq B]

theorem Linked.snoc (h : Linked next start (xs ++ [x])) (hx : x ∉ xs) (hb : b ∉ xs ++ [x])
    (hend : next b = none) : Linked (Function.update next x (some b)) start (xs ++ [x] ++ [b]) := by
  induction xs generalizing start with
  | nil =>
    have hne : b ≠ x := by simpa using hb
    refine ⟨h.1, ?_⟩
    rw [Function.update_self]
    exact ⟨rfl, by rw [Function.update_of_ne hne]; exact hend⟩
  | cons y ys ih =>
    have hyx : y ≠ x := fun heq => hx (heq ▸ List.mem_cons_self)
    refine ⟨h.1, ?_⟩
    rw [Function.update_of_ne hyx]
    exact ih h.2 (fun hmem => hx (List.mem_cons_of_mem y hmem))
      fun hmem => hb (List.mem_cons_of_mem y hmem)

/-- `b` is hung behind the last cell: the new start and the new links. -/
def enqueue (fuel : Nat) (next : B → Option B) (start : Option B) (b : B) :
    Option B × (B → Option B) :=
  let next := Function.update next b none
  match start with
  | none => (some b, next)
  | some a => (some a, Function.update next (lastCell next fuel a) (some b))

theorem Linked.enqueue {fuel : Nat} (h : Linked next start xs) (hnodup : xs.Nodup) (hb : b ∉ xs)
    (hfuel : xs.length ≤ fuel) :
    Linked (enqueue fuel next start b).2 (enqueue fuel next start b).1 (xs ++ [b]) := by
  have hclear : Linked (Function.update next b none) start xs := by
    refine h.congr fun a ha => Function.update_of_ne ?_ ..
    rintro rfl
    exact hb ha
  cases hxs : xs.reverse with
  | nil =>
    have hnil : xs = [] := List.reverse_eq_nil_iff.mp hxs
    subst hnil
    rw [show start = none from h]
    exact ⟨rfl, Function.update_self ..⟩
  | cons x ys =>
    have heq : xs = ys.reverse ++ [x] := by
      rw [← List.reverse_reverse xs, hxs, List.reverse_cons]
    subst heq
    rw [List.nodup_append] at hnodup
    have hx : x ∉ ys.reverse := fun hmem =>
      hnodup.2.2 x hmem x (List.mem_singleton_self x) rfl
    cases start with
    | none =>
      cases hys : ys.reverse with
      | nil => rw [hys] at h; cases h.1
      | cons z zs => rw [hys] at h; cases h.1
    | some a =>
      have hlast : lastCell (Function.update next b none) fuel a = x := by
        refine hclear.lastCell_eq ?_
        rw [List.length_append, List.length_singleton] at hfuel
        omega
      unfold Lib.enqueue
      dsimp only
      rw [hlast]
      exact hclear.snoc hx hb (Function.update_self ..)

end Queue

/-! ## Circular lists -/

section Circular

variable {N : Type} {next prev next' prev' : N → N} {a b z : N} {xs ys : List N}

def Path (next prev : N → N) : N → List N → N → Prop
  | a, [], z => next a = z ∧ prev z = a
  | a, x :: xs, z => next a = x ∧ prev x = a ∧ Path next prev x xs z

theorem Path.congr (h : Path next prev a xs z) (hnext : ∀ b ∈ a :: xs, next' b = next b)
    (hprev : ∀ b ∈ z :: xs, prev' b = prev b) : Path next' prev' a xs z := by
  induction xs generalizing a with
  | nil =>
    obtain ⟨hn, hp⟩ := h
    exact ⟨(hnext a (by simp)).trans hn, (hprev z (by simp)).trans hp⟩
  | cons x xs ih =>
    obtain ⟨hn, hp, hrest⟩ := h
    refine ⟨(hnext a (by simp)).trans hn, (hprev x (by simp)).trans hp, ih hrest ?_ ?_⟩
    · exact fun b hb => hnext b (List.mem_cons_of_mem a hb)
    · intro b hb
      refine hprev b ?_
      rcases List.mem_cons.mp hb with rfl | hmem
      · exact List.mem_cons_self
      · exact List.mem_cons_of_mem _ (List.mem_cons_of_mem x hmem)

theorem path_append : Path next prev a (xs ++ b :: ys) z ↔
    Path next prev a xs b ∧ Path next prev b ys z := by
  induction xs generalizing a with
  | nil => exact and_assoc.symm
  | cons x xs ih =>
    show _ ∧ _ ∧ Path next prev x (xs ++ b :: ys) z ↔ (_ ∧ _ ∧ Path next prev x xs b) ∧ _
    rw [ih, and_assoc, and_assoc]

theorem Path.reverse (h : Path next prev a xs z) : Path prev next z xs.reverse a := by
  induction xs generalizing a with
  | nil => exact ⟨h.2, h.1⟩
  | cons x xs ih =>
    obtain ⟨hn, hp, hrest⟩ := h
    rw [List.reverse_cons]
    exact path_append.mpr ⟨ih hrest, hp, hn⟩

/-- Walk from `a` until `found` or `stop`. -/
def scan (step : N → N) [DecidableEq N] (stop : N) (found : N → Bool) : Nat → N → Option N
  | 0, _ => none
  | fuel + 1, a =>
    if a = stop then none else if found a then some a else scan step stop found fuel (step a)

variable [DecidableEq N]

/-- A walk over a path finds what a search of its nodes finds. -/
theorem Path.scan_eq {found : N → Bool} {fuel : Nat} (h : Path next prev a xs z) (hz : z ∉ xs)
    (hfuel : xs.length < fuel) : scan next z found fuel (next a) = xs.find? found := by
  induction xs generalizing a fuel with
  | nil =>
    cases fuel with
    | zero => cases hfuel
    | succ fuel => rw [h.1, scan, if_pos rfl]; rfl
  | cons x xs ih =>
    obtain ⟨hn, -, hrest⟩ := h
    cases fuel with
    | zero => cases hfuel
    | succ fuel =>
      have hxz : x ≠ z := fun heq => hz (heq ▸ List.mem_cons_self)
      rw [hn, scan, if_neg hxz, List.find?_cons]
      cases found x with
      | true => rfl
      | false =>
        exact ih hrest (fun hmem => hz (List.mem_cons_of_mem x hmem))
          (Nat.lt_of_succ_lt_succ hfuel)

/-- Take `b` out: the two stores of the neighbours' links. -/
def unlink (next prev : N → N) (b : N) : (N → N) × (N → N) :=
  let prev := Function.update prev (next b) (prev b)
  (Function.update next (prev b) (next b), prev)

/-- Put `b` behind `a`: four stores. -/
def insertAfter (next prev : N → N) (a b : N) : (N → N) × (N → N) :=
  let next := Function.update next b (next a)
  let prev := Function.update prev b a
  (Function.update next a b, Function.update prev (next a) b)

/-- The links around a circular list of different nodes. -/
def Circular (next prev : N → N) (a : N) (xs : List N) : Prop :=
  Path next prev a xs a ∧ (a :: xs).Nodup

omit [DecidableEq N] in
theorem Path.next_mem (h : Path next prev a xs z) : next a ∈ z :: xs := by
  cases xs with
  | nil => rw [h.1]; exact List.mem_cons_self
  | cons x xs => rw [h.1]; exact List.mem_cons_of_mem z List.mem_cons_self

omit [DecidableEq N] in
theorem Path.prev_mem (h : Path next prev a xs z) : prev z ∈ a :: xs := by
  have hmem := h.reverse.next_mem
  rwa [List.mem_cons, List.mem_reverse, ← List.mem_cons] at hmem

/-- Two paths that meet in `b` without it. -/
theorem Path.skip (h : Path next prev a xs b) (h' : Path next prev b ys z)
    (hnodup : (a :: (xs ++ ys)).Nodup) (hxs : z ∉ xs) (hys : z ∉ ys) :
    Path (Function.update next (prev b) (next b)) (Function.update prev (next b) (prev b))
      a (xs ++ ys) z := by
  induction xs generalizing a with
  | nil =>
    rw [h.2]
    cases ys with
    | nil =>
      rw [h'.1]
      exact ⟨Function.update_self .., Function.update_self ..⟩
    | cons y ys =>
      rw [h'.1]
      refine ⟨Function.update_self .., Function.update_self .., h'.2.2.congr ?_ ?_⟩
      · intro x hx
        refine Function.update_of_ne ?_ ..
        rintro rfl
        exact (List.nodup_cons.mp hnodup).1 hx
      · intro x hx
        refine Function.update_of_ne ?_ ..
        rintro rfl
        rcases List.mem_cons.mp hx with rfl | hmem
        · exact hys List.mem_cons_self
        · exact (List.nodup_cons.mp (List.nodup_cons.mp hnodup).2).1 hmem
  | cons x xs ih =>
    obtain ⟨hn, hp, hrest⟩ := h
    rw [List.cons_append, List.nodup_cons] at hnodup
    -- `prev b` comes after `a`, and `next b` after `x`
    have hprev : prev b ≠ a := by
      rintro rfl
      have hmem := hrest.prev_mem
      exact hnodup.1 (by grind)
    have hnext : next b ≠ x := by
      rintro rfl
      have hmem := h'.next_mem
      have hfresh := (List.nodup_cons.mp hnodup.2).1
      grind
    refine ⟨?_, ?_, ih hrest hnodup.2 fun hmem => hxs (List.mem_cons_of_mem x hmem)⟩
    · rw [Function.update_of_ne (Ne.symm hprev)]
      exact hn
    · rw [Function.update_of_ne (Ne.symm hnext)]
      exact hp

theorem Circular.unlink (h : Circular next prev a (xs ++ b :: ys)) :
    Circular (unlink next prev b).1 (unlink next prev b).2 a (xs ++ ys) := by
  obtain ⟨hpath, hnodup⟩ := h
  obtain ⟨hto, hfrom⟩ := path_append.mp hpath
  have hrest : (a :: (xs ++ ys)).Nodup := by
    refine hnodup.sublist (List.Sublist.cons_cons a ?_)
    exact List.Sublist.append_left (List.sublist_cons_self b ys) xs
  have hself : b ≠ next b := by
    have hmem := hfrom.next_mem
    grind
  refine ⟨?_, hrest⟩
  unfold Lib.unlink
  dsimp only
  rw [Function.update_of_ne hself]
  refine hto.skip hfrom hrest ?_ ?_
  · grind
  · grind

theorem Circular.insertAfter (h : Circular next prev a xs) (hb : b ∉ a :: xs) :
    Circular (insertAfter next prev a b).1 (insertAfter next prev a b).2 a (b :: xs) := by
  obtain ⟨hpath, hnodup⟩ := h
  have hba : b ≠ a := fun heq => hb (heq ▸ List.mem_cons_self)
  have hnext : next a ≠ b := fun heq => hb (heq ▸ hpath.next_mem)
  refine ⟨?_, by grind⟩
  unfold Lib.insertAfter
  dsimp only
  rw [Function.update_of_ne (Ne.symm hba)]
  refine ⟨Function.update_self .., ?_, ?_⟩
  · rw [Function.update_of_ne (Ne.symm hnext), Function.update_self]
  · cases xs with
    | nil =>
      rw [hpath.1]
      refine ⟨?_, Function.update_self ..⟩
      rw [Function.update_of_ne hba, Function.update_self]
    | cons x xs =>
      obtain ⟨hn, hp, hrest⟩ := hpath
      rw [hn]
      refine ⟨?_, Function.update_self .., hrest.congr ?_ ?_⟩
      · rw [Function.update_of_ne hba, Function.update_self]
      · intro y hy
        rw [Function.update_of_ne (by grind), Function.update_of_ne (by grind)]
      · intro y hy
        rw [Function.update_of_ne (by grind), Function.update_of_ne (by grind)]

end Circular

end Xv6Sharing.Lib
