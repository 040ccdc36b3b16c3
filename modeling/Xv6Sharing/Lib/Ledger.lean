/-
Xv6Sharing.Lib.Ledger — accounting for a pool of resources.

Every resource of the pool is either on a free list, once, or held under
exactly one use. `H u f` says that use `u` holds resource `f`; it is a
relation so that a client can read it off its own state.

The rules say what the four moves of an allocator do to a sound ledger:
`take` (free list to use), `give` (use to free list), `move` (use to use)
and `recast`, `rename` (the same resources under other names).

A `Naming` is the part of that without the pool: names that hold at most
one resource each, and none the same. A client that keeps its holders in
several tables shows for each table that it is a naming.
-/
import Mathlib.Algebra.Ring.Int.Defs
import Mathlib.Algebra.Ring.Nat
import Mathlib.Data.List.Basic
import Mathlib.Data.Set.Insert

namespace Xv6Sharing.Lib

variable {Use Res : Type}

/-- The ledger balances: `free` and the uses `H` partition the pool. -/
structure Ledger (pool : Res → Prop) (free : List Res) (H : Use → Res → Prop) : Prop where
  nodup : free.Nodup
  func : ∀ {u f g}, H u f → H u g → f = g
  inj : ∀ {u w f}, H u f → H w f → u = w
  notFree : ∀ {u f}, H u f → f ∉ free
  cover : ∀ f, pool f ↔ f ∈ free ∨ ∃ u, H u f

namespace Ledger

variable {pool : Res → Prop} {free : List Res} {H H' : Use → Res → Prop} {u w : Use} {f g : Res}

theorem pool_of_free (h : Ledger pool free H) (hf : f ∈ free) : pool f :=
  (h.cover f).mpr (Or.inl hf)

theorem pool_of_held (h : Ledger pool free H) (hf : H u f) : pool f :=
  (h.cover f).mpr (Or.inr ⟨u, hf⟩)

/-- The uses determine the free list, up to its order. -/
theorem perm_free {free' : List Res} (h : Ledger pool free H) (h' : Ledger pool free' H) :
    free'.Perm free := by
  refine (List.perm_ext_iff_of_nodup h'.nodup h.nodup).mpr fun f => ?_
  constructor
  · intro hf
    rcases (h.cover f).mp (h'.pool_of_free hf) with hfree | ⟨u, hu⟩
    · exact hfree
    · exact absurd hf (h'.notFree hu)
  · intro hf
    rcases (h'.cover f).mp (h.pool_of_free hf) with hfree | ⟨u, hu⟩
    · exact hfree
    · exact absurd hf (h.notFree hu)

/-- What a use gave up, and nobody else took, is free. -/
theorem mem_free_of_dropped {free' : List Res} (h : Ledger pool free H)
    (h' : Ledger pool free' H') (hsub : ∀ w g, H' w g → H w g) (hu : H u f)
    (hgone : ¬ H' u f) : f ∈ free' := by
  rcases (h'.cover f).mp (h.pool_of_held hu) with hfree | ⟨w, hw⟩
  · exact hfree
  · rw [h.inj (hsub w f hw) hu] at hw
    exact absurd hw hgone

/-- What a use got, and nobody gave up, was free. -/
theorem mem_free_of_taken {free' : List Res} (h : Ledger pool free H)
    (h' : Ledger pool free' H') (hkeep : ∀ w, H w f → H' w f) (hu : H' u f)
    (hnew : ¬ H u f) : f ∈ free := by
  rcases (h.cover f).mp (h'.pool_of_held hu) with hfree | ⟨w, hw⟩
  · exact hfree
  · rw [h'.inj (hkeep w hw) hu] at hw
    exact absurd hw hnew

theorem congr (h : Ledger pool free H) (hH : ∀ u f, H' u f ↔ H u f) :
    Ledger pool free H' := by
  have heq : H' = H := by
    funext u f
    exact propext (hH u f)
  rw [heq]
  exact h

/-- The head of the free list goes to a use that held nothing. -/
theorem take (h : Ledger pool (f :: free) H) (hu : ∀ g, ¬ H u g)
    (hH : ∀ w g, H' w g ↔ H w g ∨ (w = u ∧ g = f)) : Ledger pool free H' where
  nodup := (List.nodup_cons.mp h.nodup).2
  func := by
    intro w a b ha hb
    rcases (hH w a).mp ha with ha | ⟨rfl, rfl⟩
    · rcases (hH w b).mp hb with hb | ⟨rfl, rfl⟩
      · exact h.func ha hb
      · exact absurd ha (hu a)
    · rcases (hH w b).mp hb with hb | ⟨_, rfl⟩
      · exact absurd hb (hu b)
      · rfl
  inj := by
    intro w v a ha hb
    rcases (hH w a).mp ha with ha | ⟨rfl, rfl⟩
    · rcases (hH v a).mp hb with hb | ⟨rfl, rfl⟩
      · exact h.inj ha hb
      · exact absurd List.mem_cons_self (h.notFree ha)
    · rcases (hH v a).mp hb with hb | ⟨rfl, _⟩
      · exact absurd List.mem_cons_self (h.notFree hb)
      · rfl
  notFree := by
    intro w a ha
    rcases (hH w a).mp ha with ha | ⟨_, rfl⟩
    · exact fun hm => h.notFree ha (List.mem_cons_of_mem _ hm)
    · exact (List.nodup_cons.mp h.nodup).1
  cover := by
    intro a
    rw [h.cover a]
    constructor
    · rintro (hm | ⟨w, hw⟩)
      · rcases List.mem_cons.mp hm with rfl | hm
        · exact Or.inr ⟨u, (hH u a).mpr (Or.inr ⟨rfl, rfl⟩)⟩
        · exact Or.inl hm
      · exact Or.inr ⟨w, (hH w a).mpr (Or.inl hw)⟩
    · rintro (hm | ⟨w, hw⟩)
      · exact Or.inl (List.mem_cons_of_mem _ hm)
      · rcases (hH w a).mp hw with hw | ⟨_, rfl⟩
        · exact Or.inr ⟨w, hw⟩
        · exact Or.inl List.mem_cons_self

theorem give (h : Ledger pool free H) (hu : H u f)
    (hH : ∀ w g, H' w g ↔ H w g ∧ w ≠ u) : Ledger pool (f :: free) H' where
  nodup := List.nodup_cons.mpr ⟨h.notFree hu, h.nodup⟩
  func := fun ha hb => h.func ((hH _ _).mp ha).1 ((hH _ _).mp hb).1
  inj := fun ha hb => h.inj ((hH _ _).mp ha).1 ((hH _ _).mp hb).1
  notFree := by
    intro w a ha hm
    obtain ⟨hw, hne⟩ := (hH w a).mp ha
    rcases List.mem_cons.mp hm with rfl | hm
    · exact hne (h.inj hw hu)
    · exact h.notFree hw hm
  cover := by
    intro a
    rw [h.cover a]
    constructor
    · rintro (hm | ⟨w, hw⟩)
      · exact Or.inl (List.mem_cons_of_mem _ hm)
      · by_cases hwu : w = u
        · subst hwu
          rw [h.func hw hu]
          exact Or.inl List.mem_cons_self
        · exact Or.inr ⟨w, (hH w a).mpr ⟨hw, hwu⟩⟩
    · rintro (hm | ⟨w, hw⟩)
      · rcases List.mem_cons.mp hm with rfl | hm
        · exact Or.inr ⟨u, hu⟩
        · exact Or.inl hm
      · exact Or.inr ⟨w, ((hH w a).mp hw).1⟩

/-- The same resources are held under other uses, still one each. -/
theorem recast {Use' : Type} {H' : Use' → Res → Prop} (h : Ledger pool free H)
    (hsame : ∀ f, (∃ u, H' u f) ↔ ∃ u, H u f)
    (hfunc : ∀ {u f g}, H' u f → H' u g → f = g)
    (hinj : ∀ {u w f}, H' u f → H' w f → u = w) : Ledger pool free H' where
  nodup := h.nodup
  func := hfunc
  inj := hinj
  notFree := by
    intro u f hu
    obtain ⟨w, hw⟩ := (hsame f).mp ⟨u, hu⟩
    exact h.notFree hw
  cover := by
    intro f
    rw [h.cover f, hsame f]

/-- The uses get new names, by a relation that is one to one. -/
theorem rename {Use' : Type} {R : Use' → Use → Prop} (h : Ledger pool free H)
    (hfunc : ∀ {v u w}, R v u → R v w → u = w) (hinj : ∀ {v v' u}, R v u → R v' u → v = v')
    (htotal : ∀ u f, H u f → ∃ v, R v u) : Ledger pool free (fun v f => ∃ u, R v u ∧ H u f) := by
  refine h.recast (fun f => ?_) ?_ ?_
  · constructor
    · intro hf
      obtain ⟨_, u, _, hu⟩ := hf
      exact ⟨u, hu⟩
    · intro hf
      obtain ⟨u, hu⟩ := hf
      obtain ⟨v, hv⟩ := htotal u f hu
      exact ⟨v, u, hv, hu⟩
  · intro v f g hf hg
    obtain ⟨u, hv, hu⟩ := hf
    obtain ⟨w, hv', hw⟩ := hg
    rw [hfunc hv hv'] at hu
    exact h.func hu hw
  · intro v v' f hf hg
    obtain ⟨u, hv, hu⟩ := hf
    obtain ⟨w, hv', hw⟩ := hg
    rw [h.inj hu hw] at hv
    exact hinj hv hv'

/-- A held resource moves to a use that held nothing. -/
theorem move (h : Ledger pool free H) (hu : H u f) (hw : ∀ g, ¬ H w g)
    (hH : ∀ v g, H' v g ↔ (H v g ∧ v ≠ u) ∨ (v = w ∧ g = f)) : Ledger pool free H' := by
  refine h.recast ?_ ?_ ?_
  · intro a
    constructor
    · rintro ⟨v, hv⟩
      rcases (hH v a).mp hv with ⟨hv, _⟩ | ⟨_, rfl⟩
      · exact ⟨v, hv⟩
      · exact ⟨u, hu⟩
    · rintro ⟨v, hv⟩
      by_cases hvu : v = u
      · subst hvu
        exact ⟨w, (hH w a).mpr (Or.inr ⟨rfl, h.func hv hu⟩)⟩
      · exact ⟨v, (hH v a).mpr (Or.inl ⟨hv, hvu⟩)⟩
  · intro v a b ha hb
    rcases (hH v a).mp ha with ⟨ha, _⟩ | ⟨rfl, rfl⟩
    · rcases (hH v b).mp hb with ⟨hb, _⟩ | ⟨rfl, _⟩
      · exact h.func ha hb
      · exact absurd ha (hw a)
    · rcases (hH v b).mp hb with ⟨hb, _⟩ | ⟨_, rfl⟩
      · exact absurd hb (hw b)
      · rfl
  · intro v v' a ha hb
    rcases (hH v a).mp ha with ⟨ha, hne⟩ | ⟨rfl, rfl⟩
    · rcases (hH v' a).mp hb with ⟨hb, _⟩ | ⟨_, rfl⟩
      · exact h.inj ha hb
      · exact absurd (h.inj ha hu) hne
    · rcases (hH v' a).mp hb with ⟨hb, hne⟩ | ⟨rfl, _⟩
      · exact absurd (h.inj hb hu) hne
      · rfl

end Ledger

/-! ## Namings -/

/-- Each name holds at most one resource, and no two names the same one. -/
structure Naming (H : Use → Res → Prop) : Prop where
  func : ∀ {u f g}, H u f → H u g → f = g
  inj : ∀ {u w f}, H u f → H w f → u = w

/-- The resources that have a name. -/
def named (H : Use → Res → Prop) : Set Res := {f | ∃ u, H u f}

section Naming

variable {H H' : Use → Res → Prop} {u : Use} {f : Res}

theorem Naming.congr (h : Naming H) (hH : ∀ w g, H' w g ↔ H w g) :
    Naming H' ∧ named H' = named H := by
  have heq : H' = H := by
    funext w g
    exact propext (hH w g)
  rw [heq]
  exact ⟨h, rfl⟩

/-- A name that held nothing gets a resource that had no name. -/
theorem Naming.add (h : Naming H) (hu : ∀ g, ¬ H u g) (hf : f ∉ named H)
    (hH : ∀ w g, H' w g ↔ H w g ∨ (w = u ∧ g = f)) :
    Naming H' ∧ named H' = insert f (named H) := by
  refine ⟨⟨?_, ?_⟩, ?_⟩
  · intro w a b ha hb
    obtain ha | ⟨rfl, rfl⟩ := (hH w a).mp ha
    · obtain hb | ⟨rfl, rfl⟩ := (hH w b).mp hb
      · exact h.func ha hb
      · exact absurd ha (hu a)
    · obtain hb | ⟨_, rfl⟩ := (hH w b).mp hb
      · exact absurd hb (hu b)
      · rfl
  · intro w v a ha hb
    obtain ha | ⟨rfl, rfl⟩ := (hH w a).mp ha
    · obtain hb | ⟨rfl, rfl⟩ := (hH v a).mp hb
      · exact h.inj ha hb
      · exact absurd ⟨w, ha⟩ hf
    · obtain hb | ⟨rfl, _⟩ := (hH v a).mp hb
      · exact absurd ⟨v, hb⟩ hf
      · rfl
  · ext a
    constructor
    · intro ha
      obtain ⟨w, hw⟩ := ha
      obtain hw | ⟨_, rfl⟩ := (hH w a).mp hw
      · exact Or.inr ⟨w, hw⟩
      · exact Or.inl rfl
    · intro ha
      obtain rfl | ⟨w, hw⟩ := ha
      · exact ⟨u, (hH u a).mpr (Or.inr ⟨rfl, rfl⟩)⟩
      · exact ⟨w, (hH w a).mpr (Or.inl hw)⟩

theorem Naming.drop (h : Naming H) (hu : H u f) (hH : ∀ w g, H' w g ↔ H w g ∧ w ≠ u) :
    Naming H' ∧ named H' = named H \ {f} := by
  refine ⟨⟨?_, ?_⟩, ?_⟩
  · intro w a b ha hb
    exact h.func ((hH w a).mp ha).1 ((hH w b).mp hb).1
  · intro w v a ha hb
    exact h.inj ((hH w a).mp ha).1 ((hH v a).mp hb).1
  · ext a
    constructor
    · intro ha
      obtain ⟨w, hw⟩ := ha
      obtain ⟨hw, hne⟩ := (hH w a).mp hw
      refine ⟨⟨w, hw⟩, fun he => hne (h.inj hw ?_)⟩
      rw [show a = f from he]
      exact hu
    · intro ha
      obtain ⟨⟨w, hw⟩, hne⟩ := ha
      refine ⟨w, (hH w a).mpr ⟨hw, fun he => hne ?_⟩⟩
      subst he
      exact h.func hw hu

end Naming

end Xv6Sharing.Lib
