/-
Xv6Sharing.Lib.SlotTable — a table of slots as a finite map.

A slot is free, or holds a key and a value. A new binding goes into the first
free slot, or behind the last one; a binding is removed by freeing its slot.
While no key stands in two slots the table is a finite map, `lookup`, and these
two change the map at one key.

What a table binds does not depend on the order of the slots, so the operations
are compared up to permutation of `List.reduceOption`.
-/
import Mathlib.Algebra.Ring.Int.Defs
import Mathlib.Algebra.Ring.Nat
import Mathlib.Data.List.Nodup
import Mathlib.Data.List.ReduceOption

namespace Xv6Sharing.Lib

/-- The slots of a table. -/
abbrev SlotTable (K V : Type) := List (Option (K × V))

namespace SlotTable

variable {K V : Type} [DecidableEq K] {t : SlotTable K V} {k : K} {v : V} {i : Nat}

/-- The first slot with the key `k`, and the value there. -/
def find (k : K) : SlotTable K V → Option (Nat × V)
  | [] => none
  | none :: t => (find k t).map fun r => (r.1 + 1, r.2)
  | some (k', v) :: t => if k' = k then some (0, v) else (find k t).map fun r => (r.1 + 1, r.2)

def lookup (t : SlotTable K V) (k : K) : Option V := (find k t).map (·.2)

/-- The first free slot; behind the last one if none is free. -/
def firstFree : SlotTable K V → Nat
  | [] => 0
  | none :: _ => 0
  | some _ :: t => firstFree t + 1

def put (k : K) (v : V) : SlotTable K V → SlotTable K V
  | [] => [some (k, v)]
  | none :: t => some (k, v) :: t
  | some b :: t => some b :: put k v t

/-- No key stands in two slots. -/
def Unique (t : SlotTable K V) : Prop := (t.reduceOption.map Prod.fst).Nodup

/-! ## Finding a key -/

theorem find_eq_none : find k t = none ↔ ∀ v, some (k, v) ∉ t := by
  induction t with
  | nil => simp [find]
  | cons s t ih =>
    rcases s with _ | ⟨k', v'⟩
    · simp [find, ih]
    · by_cases hk : k' = k
      · subst hk
        rw [find, if_pos rfl]
        exact iff_of_false nofun fun hno => hno v' List.mem_cons_self
      · simp [find, hk, ih, Ne.symm hk]

theorem getElem?_of_find (h : find k t = some (i, v)) : t[i]? = some (some (k, v)) := by
  induction t generalizing i with
  | nil => cases h
  | cons s t ih =>
    have hrest : (find k t).map (fun r => (r.1 + 1, r.2)) = some (i, v) →
        (s :: t)[i]? = some (some (k, v)) := by
      intro hr
      obtain ⟨⟨j, w⟩, hj, heq⟩ := Option.map_eq_some_iff.mp hr
      cases heq
      exact ih hj
    rcases s with _ | ⟨k', v'⟩
    · exact hrest h
    · unfold find at h
      by_cases hk : k' = k
      · rw [if_pos hk] at h
        cases h
        rw [hk]
        rfl
      · rw [if_neg hk] at h
        exact hrest h

theorem lookup_eq_none : lookup t k = none ↔ ∀ v, some (k, v) ∉ t := by
  rw [lookup, Option.map_eq_none_iff, find_eq_none]

theorem mem_of_lookup (h : lookup t k = some v) : some (k, v) ∈ t := by
  obtain ⟨⟨i, w⟩, hfind, rfl⟩ := Option.map_eq_some_iff.mp h
  exact List.mem_of_getElem? (getElem?_of_find hfind)

/-- A table without double keys is the map of its bindings. -/
theorem Unique.lookup_eq_some (h : Unique t) : lookup t k = some v ↔ some (k, v) ∈ t := by
  refine ⟨mem_of_lookup, fun hmem => ?_⟩
  cases hl : lookup t k with
  | none => exact absurd hmem (lookup_eq_none.mp hl v)
  | some w =>
    have hw : (k, w) ∈ t.reduceOption := List.reduceOption_mem_iff.mpr (mem_of_lookup hl)
    have hv : (k, v) ∈ t.reduceOption := List.reduceOption_mem_iff.mpr hmem
    have heq := List.inj_on_of_nodup_map h hw hv rfl
    rw [(Prod.mk.inj heq).2]

/-! ## Putting and clearing -/

omit [DecidableEq K] in
theorem put_perm (k : K) (v : V) (t : SlotTable K V) :
    (put k v t).reduceOption.Perm ((k, v) :: t.reduceOption) := by
  induction t with
  | nil => exact .refl _
  | cons s t ih =>
    cases s with
    | none => exact .refl _
    | some b =>
      rw [put, List.reduceOption_cons_of_some, List.reduceOption_cons_of_some]
      exact (ih.cons b).trans (.swap ..)

omit [DecidableEq K] in
theorem clear_perm (h : t[i]? = some (some (k, v))) :
    t.reduceOption.Perm ((k, v) :: (t.set i none).reduceOption) := by
  induction t generalizing i with
  | nil => cases h
  | cons s t ih =>
    cases i with
    | zero =>
      cases h
      exact .refl _
    | succ i =>
      have hrest : t[i]? = some (some (k, v)) := h
      cases s with
      | none => exact ih hrest
      | some b =>
        rw [List.set_cons_succ, List.reduceOption_cons_of_some, List.reduceOption_cons_of_some]
        exact ((ih hrest).cons b).trans (.swap ..)

theorem Unique.put (h : Unique t) (hnone : lookup t k = none) (v : V) : Unique (t.put k v) := by
  unfold Unique
  rw [((put_perm k v t).map Prod.fst).nodup_iff, List.map_cons, List.nodup_cons]
  refine ⟨fun hmem => ?_, h⟩
  obtain ⟨⟨k', w⟩, hw, rfl⟩ := List.mem_map.mp hmem
  exact lookup_eq_none.mp hnone w (List.reduceOption_mem_iff.mp hw)

omit [DecidableEq K] in
theorem Unique.clear (h : Unique t) (hi : t[i]? = some (some (k, v))) : Unique (t.set i none) := by
  unfold Unique at h
  rw [((clear_perm hi).map Prod.fst).nodup_iff, List.map_cons] at h
  exact h.of_cons

omit [DecidableEq K] in
/-- A new binding leaves the others in their slots. -/
theorem getElem?_put {k' : K} {v' : V} (h : t[i]? = some (some (k', v'))) :
    (t.put k v)[i]? = some (some (k', v')) := by
  induction t generalizing i with
  | nil => cases h
  | cons s t ih =>
    cases i with
    | zero =>
      cases h
      rfl
    | succ i =>
      have hrest : t[i]? = some (some (k', v')) := h
      cases s with
      | none => exact hrest
      | some b => exact ih hrest

/-- A new binding changes the map at its key. -/
theorem Unique.lookup_put (h : Unique t) (hnone : lookup t k = none) (v : V) :
    lookup (t.put k v) = Function.update (lookup t) k (some v) := by
  funext k'
  refine Option.ext fun w => ?_
  rw [(h.put hnone v).lookup_eq_some, ← List.reduceOption_mem_iff, (put_perm k v t).mem_iff,
    List.mem_cons, List.reduceOption_mem_iff, ← h.lookup_eq_some, Function.update_apply]
  by_cases hk : k' = k
  · subst hk
    simp [hnone, eq_comm]
  · simp [hk]

/-- Freeing the slot of a key removes its binding. -/
theorem Unique.lookup_clear (h : Unique t) (hi : t[i]? = some (some (k, v))) :
    lookup (t.set i none) = Function.update (lookup t) k none := by
  have hfresh : k ∉ ((t.set i none).reduceOption.map Prod.fst) := by
    unfold Unique at h
    rw [((clear_perm hi).map Prod.fst).nodup_iff, List.map_cons] at h
    exact h.notMem
  funext k'
  refine Option.ext fun w => ?_
  rw [(h.clear hi).lookup_eq_some, ← List.reduceOption_mem_iff, Function.update_apply]
  by_cases hk : k' = k
  · subst hk
    rw [if_pos rfl]
    exact iff_of_false (fun hw => hfresh (List.mem_map_of_mem hw)) nofun
  · rw [if_neg hk, h.lookup_eq_some, ← List.reduceOption_mem_iff, (clear_perm hi).mem_iff,
      List.mem_cons]
    simp [hk]

/-! ## Where a binding is put -/

omit [DecidableEq K] in
theorem firstFree_le : firstFree t ≤ t.length := by
  induction t with
  | nil => exact Nat.le_refl 0
  | cons s t ih =>
    cases s with
    | none => exact Nat.zero_le _
    | some b => exact Nat.succ_le_succ ih

omit [DecidableEq K] in
theorem put_of_free (h : firstFree t < t.length) :
    put k v t = t.set (firstFree t) (some (k, v)) := by
  induction t with
  | nil => exact absurd h (Nat.not_lt_zero _)
  | cons s t ih =>
    cases s with
    | none => rfl
    | some b => exact congrArg (some b :: ·) (ih (Nat.lt_of_succ_lt_succ h))

omit [DecidableEq K] in
theorem put_of_full (h : firstFree t = t.length) : put k v t = t ++ [some (k, v)] := by
  induction t with
  | nil => rfl
  | cons s t ih =>
    cases s with
    | none => cases h
    | some b => exact congrArg (some b :: ·) (ih (Nat.succ.inj h))

end SlotTable

end Xv6Sharing.Lib
