/-
Xv6Sharing.Lib.Cycle — lists of nodes linked by a successor function.

`Links next xs z` says that each node of `xs` has the next one as its successor and
the last one has `z`. A ring is such a list whose last node leads back to the first;
it can be entered at any of its nodes (`Links.rotate`). A search along the
successors finds a node of the ring within one round (`search_links`).
-/
import Mathlib.Algebra.Ring.Int.Defs
import Mathlib.Algebra.Ring.Nat
import Mathlib.Data.List.Basic
import Mathlib.Data.List.Nodup
import Mathlib.Logic.Function.Basic

namespace Xv6Sharing.Lib

variable {α : Type} {next : α → α} {xs ys : List α} {a p q z : α}

/-- Each node has the one behind it as its successor, and the last one `z`. -/
def Links (next : α → α) : List α → α → Prop
  | [], _ => True
  | x :: xs, z => next x = xs.headD z ∧ Links next xs z

theorem links_append : Links next (xs ++ ys) z ↔ Links next xs (ys.headD z) ∧ Links next ys z := by
  induction xs with
  | nil => simp [Links]
  | cons x xs ih =>
    have hhead : (xs ++ ys).headD z = xs.headD (ys.headD z) := by cases xs <;> rfl
    rw [List.cons_append, Links, Links, ih, hhead, and_assoc]

theorem links_singleton : Links next [p] z ↔ next p = z := by simp [Links]

/-- Only the successors of the nodes of the list matter. -/
theorem Links.congr {next' : α → α} (h : Links next xs z) (heq : ∀ x ∈ xs, next' x = next x) :
    Links next' xs z := by
  induction xs with
  | nil => trivial
  | cons x xs ih =>
    obtain ⟨hx, hxs⟩ := List.forall_mem_cons.mp heq
    exact ⟨hx.trans h.1, ih h.2 hxs⟩

theorem Links.update [DecidableEq α] (h : Links next xs z) (ha : a ∉ xs) (v : α) :
    Links (Function.update next a v) xs z :=
  h.congr fun x hx => Function.update_of_ne (fun heq : x = a => ha (heq ▸ hx)) ..

/-- The successor of a node is the end, or a node behind it. -/
theorem Links.next_cases {R : α → α → Prop} (h : Links next xs z) (hR : xs.Pairwise R)
    (hp : p ∈ xs) : next p = z ∨ next p ∈ xs ∧ R p (next p) := by
  induction xs with
  | nil => cases hp
  | cons x xs ih =>
    obtain ⟨hx, hxs⟩ := List.pairwise_cons.mp hR
    rcases List.mem_cons.mp hp with rfl | hp
    · cases xs with
      | nil => exact .inl h.1
      | cons y ys =>
        have hnext : next p = y := h.1
        rw [hnext]
        exact .inr ⟨List.mem_cons_of_mem _ List.mem_cons_self, hx y List.mem_cons_self⟩
    · exact (ih h.2 hxs hp).imp_right fun ⟨hmem, hrel⟩ => ⟨List.mem_cons_of_mem _ hmem, hrel⟩

theorem links_map (h : Links next (p :: xs) z) : (p :: xs).map next = xs ++ [z] := by
  induction xs generalizing p with
  | nil => rw [List.map_singleton, links_singleton.mp h]; rfl
  | cons x xs ih =>
    have hnext : next p = x := h.1
    rw [List.map_cons, ih h.2, hnext]
    rfl

theorem Links.next_inj {x : α} (h : Links next (x :: xs) x) (hnodup : (x :: xs).Nodup)
    (hp : p ∈ x :: xs) (hq : q ∈ x :: xs) (heq : next p = next q) : p = q := by
  refine List.inj_on_of_nodup_map ?_ hp hq heq
  rw [links_map h, List.nodup_append_comm]
  exact hnodup

theorem Links.rotate {x : α} (h : Links next (x :: xs) x) {us vs : List α}
    (hsplit : x :: xs = us ++ p :: vs) : Links next (p :: (vs ++ us)) p := by
  rw [hsplit, links_append] at h
  rw [← List.cons_append, links_append]
  cases us with
  | nil =>
    obtain ⟨rfl, rfl⟩ := List.cons.inj hsplit
    exact ⟨h.2, trivial⟩
  | cons u us =>
    obtain ⟨rfl, -⟩ := List.cons.inj hsplit
    exact ⟨h.2, h.1⟩

/-- The first node from `p` on that meets the condition. -/
def search (next : α → α) (stop : α → Bool) : Nat → α → Option α
  | 0, _ => none
  | n + 1, p => if stop p then some p else search next stop n (next p)

/-- The only node of a list that meets the condition is found. -/
theorem search_links {stop : α → Bool} {n : Nat} (h : Links next (p :: xs) z)
    (hq : q ∈ p :: xs) (hstop : stop q = true) (honly : ∀ y ∈ p :: xs, stop y = true → y = q)
    (hn : xs.length < n) : search next stop n p = some q := by
  obtain ⟨n, rfl⟩ : ∃ m, n = m + 1 := ⟨n - 1, by omega⟩
  induction xs generalizing p n with
  | nil =>
    obtain rfl := List.mem_singleton.mp hq
    exact if_pos hstop
  | cons x xs ih =>
    rw [search]
    by_cases hp : stop p = true
    · rw [if_pos hp, honly p List.mem_cons_self hp]
    · have hne : q ≠ p := fun heq => hp (heq ▸ hstop)
      obtain ⟨n, rfl⟩ : ∃ m, n = m + 1 := ⟨n - 1, by rw [List.length_cons] at hn; omega⟩
      have hnext : next p = x := h.1
      rw [if_neg hp, hnext]
      refine ih h.2 ((List.mem_cons.mp hq).resolve_left hne)
        (fun y hy => honly y (List.mem_cons_of_mem _ hy)) n ?_
      rw [List.length_cons] at hn
      omega

theorem Links.from_node {x : α} (h : Links next (x :: xs) x) (hp : p ∈ x :: xs) :
    ∃ ys, Links next (p :: ys) p ∧ (p :: ys).Perm (x :: xs) := by
  obtain ⟨us, vs, hsplit⟩ := List.append_of_mem hp
  refine ⟨vs ++ us, h.rotate hsplit, ?_⟩
  rw [hsplit, ← List.cons_append]
  exact List.perm_append_comm

theorem search_ring {stop : α → Bool} {n : Nat} {x : α} (h : Links next (x :: xs) x)
    (hp : p ∈ x :: xs) (hq : q ∈ x :: xs) (hstop : stop q = true)
    (honly : ∀ y ∈ x :: xs, stop y = true → y = q) (hn : xs.length < n) :
    search next stop n p = some q := by
  obtain ⟨ys, hlinks, hperm⟩ := h.from_node hp
  have hlen : ys.length = xs.length := Nat.succ.inj hperm.length_eq
  exact search_links hlinks (hperm.mem_iff.mpr hq) hstop (fun y hy => honly y (hperm.mem_iff.mp hy))
    (hlen ▸ hn)

end Xv6Sharing.Lib
