/-
Xv6Sharing.Lib.Tiling — an interval of addresses cut into tiles.

A tiling is the list of its tiles, each with a length; where a tile starts follows
from the lengths before it. So tiles never overlap and leave no gap, and cutting or
joining tiles is an operation on the list that moves nothing else.
-/
import Mathlib.Algebra.Order.Group.Nat
import Mathlib.Algebra.Ring.Int.Defs
import Mathlib.Algebra.Ring.Nat
import Mathlib.Data.List.Basic

namespace Xv6Sharing.Lib

structure Tile (τ : Type) where
  len : Nat
  tag : τ

variable {τ : Type} {ts us : List (Tile τ)} {t : Tile τ} {a x d : Nat} {b : Nat × Tile τ}

/-- The length of all tiles. -/
def total : List (Tile τ) → Nat
  | [] => 0
  | t :: ts => t.len + total ts

/-- The tiles with their addresses, from `a` on. -/
def place : Nat → List (Tile τ) → List (Nat × Tile τ)
  | _, [] => []
  | a, t :: ts => (a, t) :: place (a + t.len) ts

theorem total_append : total (ts ++ us) = total ts + total us := by
  induction ts with
  | nil => simp [total]
  | cons t ts ih => rw [List.cons_append, total, total, ih, Nat.add_assoc]

theorem place_append : place a (ts ++ us) = place a ts ++ place (a + total ts) us := by
  induction ts generalizing a with
  | nil => simp [place, total]
  | cons t ts ih => rw [List.cons_append, place, ih, place, total, Nat.add_assoc, List.cons_append]

theorem tag_mem_of_place (h : b ∈ place a ts) : b.2 ∈ ts := by
  induction ts generalizing a with
  | nil => cases h
  | cons t ts ih =>
    rcases List.mem_cons.mp h with rfl | h
    · exact List.mem_cons_self
    · exact List.mem_cons_of_mem _ (ih h)

theorem le_of_mem_place (h : b ∈ place a ts) : a ≤ b.1 ∧ b.1 + b.2.len ≤ a + total ts := by
  induction ts generalizing a with
  | nil => cases h
  | cons t ts ih =>
    rw [total]
    rcases List.mem_cons.mp h with rfl | h
    · exact ⟨le_rfl, Nat.add_le_add_left (Nat.le_add_right _ _) a⟩
    · have hle := ih h
      omega

/-- Tiles do not overlap. -/
theorem pairwise_place (a : Nat) (ts : List (Tile τ)) :
    (place a ts).Pairwise fun b c => b.1 + b.2.len ≤ c.1 := by
  induction ts generalizing a with
  | nil => exact .nil
  | cons t ts ih => exact .cons (fun c hc => (le_of_mem_place hc).1) (ih _)

/-- Tiles leave no gap. -/
theorem exists_mem_place (hle : a ≤ x) (hlt : x < a + total ts) :
    ∃ b ∈ place a ts, b.1 ≤ x ∧ x < b.1 + b.2.len := by
  induction ts generalizing a with
  | nil => exact absurd hlt (not_lt.mpr hle)
  | cons t ts ih =>
    rw [total] at hlt
    by_cases hx : x < a + t.len
    · exact ⟨(a, t), List.mem_cons_self, hle, hx⟩
    · obtain ⟨b, hb, hin⟩ := ih (by omega) (by omega : x < a + t.len + total ts)
      exact ⟨b, List.mem_cons_of_mem _ hb, hin⟩

theorem length_le_total (h : ∀ t ∈ ts, 0 < t.len) : ts.length ≤ total ts := by
  induction ts with
  | nil => exact Nat.le_refl 0
  | cons t ts ih =>
    obtain ⟨ht, hts⟩ := List.forall_mem_cons.mp h
    have hle := ih hts
    rw [List.length_cons, total]
    omega

theorem dvd_of_mem_place (ha : d ∣ a) (h : ∀ t ∈ ts, d ∣ t.len) (hb : b ∈ place a ts) : d ∣ b.1 := by
  induction ts generalizing a with
  | nil => cases hb
  | cons t ts ih =>
    obtain ⟨ht, hts⟩ := List.forall_mem_cons.mp h
    rcases List.mem_cons.mp hb with rfl | hb
    · exact ha
    · exact ih (Nat.dvd_add ha ht) hts hb

/-- What holds of the tiles around one of them. -/
theorem forall_place_split {P : Nat × Tile τ → Prop} : (∀ b ∈ place a (ts ++ t :: us), P b) ↔
    (∀ b ∈ place a ts, P b) ∧ P (a + total ts, t) ∧ ∀ b ∈ place (a + total ts + t.len) us, P b := by
  rw [place_append, List.forall_mem_append, place, List.forall_mem_cons]

/-- A tile in the list, and what stands before and behind it. -/
theorem exists_split (h : b ∈ place a ts) :
    ∃ us vs, ts = us ++ b.2 :: vs ∧ b.1 = a + total us := by
  induction ts generalizing a with
  | nil => cases h
  | cons t ts ih =>
    rcases List.mem_cons.mp h with rfl | h
    · exact ⟨[], ts, rfl, rfl⟩
    · obtain ⟨us, vs, rfl, haddr⟩ := ih h
      exact ⟨t :: us, vs, rfl, by rw [haddr, total, Nat.add_assoc]⟩

/-- The addresses of the tiles with a property. -/
def addrs (p : Tile τ → Bool) (a : Nat) (ts : List (Tile τ)) : List Nat :=
  ((place a ts).filter (p ·.2)).map Prod.fst

section

variable {p : Tile τ → Bool}

theorem addrs_append : addrs p a (ts ++ us) = addrs p a ts ++ addrs p (a + total ts) us := by
  rw [addrs, place_append, List.filter_append, List.map_append, addrs, addrs]

theorem addrs_cons_of_pos (h : p t = true) : addrs p a (t :: ts) = a :: addrs p (a + t.len) ts := by
  rw [addrs, place, List.filter_cons_of_pos (by exact h), List.map_cons, addrs]

theorem addrs_cons_of_neg (h : p t = false) : addrs p a (t :: ts) = addrs p (a + t.len) ts := by
  rw [addrs, place, List.filter_cons_of_neg (by simp [h]), addrs]

theorem mem_addrs : x ∈ addrs p a ts ↔ ∃ t, (x, t) ∈ place a ts ∧ p t = true := by
  simp only [addrs, List.mem_map, List.mem_filter, Prod.exists, exists_and_right, exists_eq_right]

theorem length_addrs_le : (addrs p a ts).length ≤ ts.length := by
  have hlen : (place a ts).length = ts.length := by
    induction ts generalizing a with
    | nil => rfl
    | cons t ts ih => rw [place, List.length_cons, List.length_cons, ih]
  rw [addrs, List.length_map, ← hlen]
  exact List.length_filter_le ..

theorem le_of_mem_addrs (h : x ∈ addrs p a ts) : a ≤ x := by
  obtain ⟨t, ht, -⟩ := mem_addrs.mp h
  exact (le_of_mem_place ht).1

theorem lt_of_mem_addrs (hpos : ∀ t ∈ ts, 0 < t.len) (h : x ∈ addrs p a ts) : x < a + total ts := by
  obtain ⟨t, ht, -⟩ := mem_addrs.mp h
  have hle : x + t.len ≤ a + total ts := (le_of_mem_place ht).2
  have hlen : 0 < t.len := hpos t (tag_mem_of_place ht)
  omega

theorem pairwise_addrs (hpos : ∀ t ∈ ts, 0 < t.len) (a : Nat) : (addrs p a ts).Pairwise (· < ·) := by
  rw [addrs, List.pairwise_map]
  refine ((pairwise_place a ts).filter _).imp_of_mem fun hb _ hle => ?_
  have hlen := hpos _ (tag_mem_of_place (List.mem_filter.mp hb).1)
  omega

end

end Xv6Sharing.Lib
