/-
Xv6Sharing.User.Ulib — the string functions of user programs (user/ulib.c).

An argument of pointer type is the array from there on. A function that reads or
writes outside its arrays has no result. A loop is bounded by the length of an
array, since it reads or writes one element further in each round.
-/
import Xv6Sharing.Lib.CString

namespace Xv6Sharing.User

open Lib

variable {a s t dst src : List UInt8} {n : Nat}

/-! ## The functions -/

def strlen : List UInt8 → Option Nat
  | [] => none
  | c :: s => if c = 0 then some 0 else (strlen s).map (· + 1)

def memset (c : UInt8) : Nat → List UInt8 → Option (List UInt8)
  | 0, s => some s
  | _ + 1, [] => none
  | n + 1, _ :: s => (memset c n s).map (c :: ·)

/-- Both loops of `strncpy`; the second one stores zeroes. -/
def strncpy : List UInt8 → List UInt8 → Nat → Option (List UInt8)
  | s, _, 0 => some s
  | _ :: s, c :: t, n + 1 =>
    if c ≠ 0 then (strncpy s t n).map (c :: ·) else (memset 0 n s).map (0 :: ·)
  | _, _, _ + 1 => none

def memmove : List UInt8 → List UInt8 → Nat → Option (List UInt8)
  | s, _, 0 => some s
  | _ :: s, c :: t, n + 1 => (memmove s t n).map (c :: ·)
  | _, _, _ + 1 => none

/-- The loop `for(i = 0; i <= strlen(src); i++) *(dst+i) = *(src+i)`, from `i` on. -/
def copyFrom (src : List UInt8) : Nat → Nat → List UInt8 → Option (List UInt8)
  | 0, _, _ => none
  | fuel + 1, i, dst => do
      let n ← strlen src
      if i ≤ n then do
        let c ← src[i]?
        let dst ← storeAt dst i c
        copyFrom src fuel (i + 1) dst
      else return dst

def copyString (dst src : List UInt8) : Option (List UInt8) := copyFrom src (src.length + 1) 0 dst

/-! ## What they do -/

theorem strlen_append (hs : 0 ∉ s) (rest : List UInt8) : strlen (s ++ 0 :: rest) = some s.length := by
  induction s with
  | nil => rfl
  | cons c s ih =>
    have hc : c ≠ 0 := fun h => hs (h ▸ List.mem_cons_self)
    rw [List.cons_append, strlen, if_neg hc, ih fun hmem => hs (List.mem_cons_of_mem _ hmem)]
    rfl

theorem strlen_of_string (h : StringAt a s) : strlen a = some s.length := by
  obtain ⟨rest, rfl⟩ := h.exists_rest
  exact strlen_append h.noNul rest

theorem memset_eq {c : UInt8} (h : n ≤ s.length) :
    memset c n s = some (List.replicate n c ++ s.drop n) := by
  induction n generalizing s with
  | zero => rfl
  | succ n ih =>
    cases s with
    | nil => exact absurd h (Nat.not_succ_le_zero n)
    | cons d s =>
      rw [memset, ih (Nat.le_of_succ_le_succ h)]
      rfl

theorem memset_eq_none {c : UInt8} (h : s.length < n) : memset c n s = none := by
  induction n generalizing s with
  | zero => exact absurd h (Nat.not_lt_zero _)
  | succ n ih =>
    cases s with
    | nil => rfl
    | cons d s => rw [memset, ih (Nat.lt_of_succ_lt_succ h), Option.map_none]

/-- What stands before the first NUL is copied, and the rest of the bytes is zeroed. -/
theorem strncpy_cut (hn : s.length ≤ dst.length) (rest : List UInt8) :
    strncpy dst (s ++ rest) s.length = some
      (cut s ++ List.replicate (s.length - (cut s).length) 0 ++ dst.drop s.length) := by
  induction s generalizing dst with
  | nil => simp [strncpy, cut]
  | cons c s ih =>
    cases dst with
    | nil => exact absurd hn (Nat.not_succ_le_zero _)
    | cons d dst =>
      have hn' := Nat.le_of_succ_le_succ hn
      rw [List.cons_append, List.length_cons, strncpy]
      by_cases hc : c = 0
      · rw [if_neg (not_not.mpr hc), memset_eq hn', hc, cut_zero]
        rfl
      · rw [if_pos hc, ih hn', cut_cons hc]
        simp

/-- A string is copied, and the rest of the `n` bytes is zeroed. -/
theorem strncpy_string (hs : 0 ∉ s) (hn : s.length < n) (hdst : n ≤ dst.length)
    (rest : List UInt8) :
    strncpy dst (s ++ 0 :: rest) n
      = some (s ++ List.replicate (n - s.length) 0 ++ dst.drop n) := by
  induction s generalizing dst n with
  | nil =>
    obtain ⟨m, rfl⟩ : ∃ m, n = m + 1 := ⟨n - 1, by simp only [List.length_nil] at hn; omega⟩
    cases dst with
    | nil => exact absurd hdst (Nat.not_succ_le_zero _)
    | cons d dst =>
      rw [List.nil_append, strncpy, if_neg (by simp), memset_eq (Nat.le_of_succ_le_succ hdst)]
      rfl
  | cons c s ih =>
    obtain ⟨m, rfl⟩ : ∃ m, n = m + 1 := ⟨n - 1, by simp only [List.length_cons] at hn; omega⟩
    cases dst with
    | nil => exact absurd hdst (Nat.not_succ_le_zero _)
    | cons d dst =>
      have hc : c ≠ 0 := fun h => hs (h ▸ List.mem_cons_self)
      rw [List.cons_append, strncpy, if_pos hc,
        ih (fun hmem => hs (List.mem_cons_of_mem _ hmem)) (Nat.lt_of_succ_lt_succ hn)
          (Nat.le_of_succ_le_succ hdst)]
      simp [Nat.add_sub_add_right]

theorem memset_length {c : UInt8} {r : List UInt8} (h : memset c n s = some r) :
    r.length = s.length := by
  by_cases hn : n ≤ s.length
  · rw [memset_eq hn] at h
    cases h
    rw [List.length_append, List.length_replicate, List.length_drop]
    omega
  · rw [memset_eq_none (Nat.lt_of_not_le hn)] at h
    cases h

theorem strncpy_length {r : List UInt8} (h : strncpy dst t n = some r) : r.length = dst.length := by
  induction n generalizing dst t r with
  | zero =>
    simp only [strncpy, Option.some.injEq] at h
    rw [h]
  | succ n ih =>
    cases dst with
    | nil => cases h
    | cons d dst =>
      cases t with
      | nil => cases h
      | cons c t =>
        rw [strncpy] at h
        split at h
        · obtain ⟨r', hr, rfl⟩ := Option.map_eq_some_iff.mp h
          rw [List.length_cons, List.length_cons, ih hr]
        · obtain ⟨r', hr, rfl⟩ := Option.map_eq_some_iff.mp h
          rw [List.length_cons, List.length_cons, memset_length hr]

theorem memmove_eq (rest : List UInt8) (hn : s.length ≤ dst.length) :
    memmove dst (s ++ rest) s.length = some (s ++ dst.drop s.length) := by
  induction s generalizing dst with
  | nil => simp [memmove]
  | cons c s ih =>
    cases dst with
    | nil => exact absurd hn (Nat.not_succ_le_zero _)
    | cons d dst =>
      rw [List.cons_append, List.length_cons, memmove, ih (Nat.le_of_succ_le_succ hn)]
      rfl

/-- One round of the loop, with the bytes `p` of the string copied. -/
theorem copyFrom_step {p q : List UInt8} (h : StringAt src (p ++ q)) (fuel : Nat) (d : UInt8)
    (r : List UInt8) : copyFrom src (fuel + 1) p.length (p ++ d :: r)
      = copyFrom src fuel (p.length + 1) (p ++ q.headD 0 :: r) := by
  have hle : p.length ≤ (p ++ q).length := by simp
  have hget : src[p.length]? = some (q.headD 0) := by
    rw [h.getElem? hle]
    cases q <;> simp
  have hlen : strlen src = some (p ++ q).length := strlen_of_string h
  simp only [copyFrom, hlen, Option.bind_eq_bind, Option.bind_some, if_pos hle, hget, storeAt_append]

theorem copyFrom_full {p q : List UInt8} (h : StringAt src (p ++ q)) (fuel : Nat) :
    copyFrom src (fuel + 1) p.length p = none := by
  have hle : p.length ≤ (p ++ q).length := by simp
  have hlen : strlen src = some (p ++ q).length := strlen_of_string h
  have hfull : ∀ c, storeAt p p.length c = none := fun c => storeAt_eq_none.mpr (Nat.le_refl _)
  simp only [copyFrom, hlen, Option.bind_eq_bind, Option.bind_some, if_pos hle, h.getElem? hle,
    hfull, Option.bind_none]

/-- The bytes `p` of the string are copied, and `q` is left. -/
theorem copyFrom_eq {p q : List UInt8} (h : StringAt src (p ++ q)) {fuel : Nat}
    (hfuel : q.length + 2 ≤ fuel) (r : List UInt8) :
    copyFrom src fuel p.length (p ++ r)
      = if q.length < r.length then some (p ++ q ++ 0 :: r.drop (q.length + 1)) else none := by
  obtain ⟨fuel, rfl⟩ : ∃ m, fuel = m + 1 := ⟨fuel - 1, by omega⟩
  induction q generalizing p r fuel with
  | nil =>
    cases r with
    | nil =>
      rw [List.append_nil]
      exact copyFrom_full h fuel
    | cons d r =>
      obtain ⟨fuel, rfl⟩ : ∃ m, fuel = m + 1 := ⟨fuel - 1, by simp at hfuel; omega⟩
      have hlen : strlen src = some p.length := by
        rw [strlen_of_string h, List.append_nil]
      have hover : ¬ p.length + 1 ≤ p.length := by omega
      rw [copyFrom_step h]
      simp [copyFrom, hlen, hover]
  | cons c q ih =>
    cases r with
    | nil =>
      rw [List.append_nil]
      exact copyFrom_full h fuel
    | cons d r =>
      obtain ⟨fuel, rfl⟩ : ∃ m, fuel = m + 1 := ⟨fuel - 1, by simp at hfuel; omega⟩
      have hnext : StringAt src (p ++ [c] ++ q) := by
        rwa [List.append_assoc, List.singleton_append]
      have hrest := ih hnext r fuel (by simp at hfuel ⊢; omega)
      rw [List.length_append, List.length_singleton] at hrest
      rw [copyFrom_step h]
      simpa using hrest

theorem copyString_eq (h : StringAt src s) (dst : List UInt8) :
    copyString dst src
      = if s.length < dst.length then some (s ++ 0 :: dst.drop (s.length + 1)) else none := by
  have hlt := h.length_lt
  exact copyFrom_eq (p := []) h (by omega) dst

end Xv6Sharing.User
