/-
Xv6Sharing.Process.SharedWindow — where `access_shared_memory` (kernel/vm.c) may
put its pages.

The regions of a table go to the window between SHAREDBASE and KERNBASE one after
the other, and nothing checks that they end before KERNBASE. What bounds the sum
is what the parent has mapped, and a parent may share the same pages ten times. A
parent of 26215 pages can fill the window; the next page goes to KERNBASE, where
`mappages` finds the kernel's own entry and panics.

The allocator may run dry before that, when it is asked for a page of page-table
entries. Then the range of the region, as long as it was asked for, is passed to
`deallocuvm`; if it ends beyond KERNBASE the kernel's entries are met there.

`Safe` says from the table, the size of the parent and the free frames whether
either happens. The loops are followed once, with `¬ Safe` as the only error: so
the specification gives both directions.
-/
import Mathlib.Data.Finset.Card
import Xv6Sharing.Process.SharingRun

namespace Xv6Sharing.Process

open Lib Vm Share

/-! ## The condition -/

/-- The tables that calls of `share_data` build. -/
inductive SharedBy : Table → Prop
  | zero : SharedBy Table.zero
  | share {t : Table} {sz : Nat} (name : Option CString) (addr : Option Nat) (size : Option Int) :
      SharedBy t → sz ≤ sharedbase → SharedBy (sysShareData sz t name addr size).2

/-- The page-table pages that are missing for the first `t` pages of the window. -/
def missingTabs (m : Mem) (d t : Nat) : Nat :=
  ((Finset.Ico 256 (256 + (t + 1023) / 1024)).filter fun i => tabOf m d i = none).card

/-- There are frames for the page-table pages of the first `t` pages of the window. -/
def Roomy (d : Nat) (σ : Phys) (t : Nat) : Prop := missingTabs σ.mem d t ≤ σ.freelist.length

/-- The pages of a region that a parent of `n` pages has. -/
def lentPages (n : Nat) (e : Shared) : Nat := min (Shared.pages e) (n - e.memstart / 4096)

/-- A region of `k` pages that starts `t` pages into the window, where pages up to `last` are
to be mapped. With page tables for them (`room`) they must fit the window; otherwise the
region itself must, or end where 32-bit addresses wrap. -/
def Fits (room : Prop) (t k last : Nat) : Prop :=
  (room → last ≤ 262144) ∧ (¬ room → t + k ≤ 262144 ∨ 786432 ≤ t + k)

/-- The regions of the entries, the next one `t` pages into the window. -/
def Safe (n : Nat) (room : Nat → Prop) : Nat → List Shared → Prop
  | _, [] => True
  | t, e :: es => e.size ≠ 0 →
      Fits (room (min (t + lentPages n e) 262144)) t (Shared.pages e) (t + lentPages n e) ∧
      (room (min (t + lentPages n e) 262144) → lentPages n e = Shared.pages e →
        Safe n room (t + lentPages n e) es)

theorem Safe.congr {n : Nat} {room room' : Nat → Prop} (es : List Shared) (t : Nat)
    (h : ∀ u, t ≤ u → u ≤ 262144 → (room u ↔ room' u)) (ht : t ≤ 262144) :
    Safe n room t es ↔ Safe n room' t es := by
  induction es generalizing t with
  | nil => exact Iff.rfl
  | cons e es ih =>
    have hroom := h (min (t + lentPages n e) 262144) (by omega) (by omega)
    rw [Safe, Safe, Fits, Fits, hroom]
    refine imp_congr_right fun _ => and_congr_right fun hfits => ?_
    refine imp_congr_right fun hr => imp_congr_right fun _ => ?_
    exact ih _ (fun u hu => h u (by omega)) (hfits.1 hr)

/-! ## Tables built by `share_data` -/

theorem mem_shareLoop {name : CString} {a i : Nat} {size : Int} {es : List Shared} {e : Shared}
    (h : e ∈ (shareLoop name a size i es).2) : e ∈ es ∨ e.memstart = a := by
  induction es generalizing i with
  | nil => exact Or.inl h
  | cons e' es ih =>
    rw [shareLoop] at h
    split at h
    · rcases List.mem_cons.mp h with rfl | h
      · exact Or.inr rfl
      · exact Or.inl (List.mem_cons_of_mem _ h)
    · split at h
      · exact Or.inl h
      · rcases List.mem_cons.mp h with rfl | h
        · exact Or.inl List.mem_cons_self
        · exact (ih h).imp_left (List.mem_cons_of_mem _)

/-- Every region starts in the memory of a process. -/
theorem SharedBy.memstart_lt {t : Table} (h : SharedBy t) :
    ∀ e ∈ t.entries, e.memstart < sharedbase := by
  induction h with
  | zero =>
    intro e he
    rw [List.eq_of_mem_replicate he]
    decide
  | @share t sz name addr size _ hsz ih =>
    intro e he
    cases name with
    | none => exact ih e he
    | some name =>
      cases haddr : Share.argptr sz addr 4 with
      | none =>
        simp only [sysShareData, haddr] at he
        exact ih e he
      | some a =>
        cases size with
        | none =>
          simp only [sysShareData, haddr] at he
          exact ih e he
        | some size =>
          simp only [sysShareData, haddr] at he
          rcases mem_shareLoop he with hold | hnew
          · exact ih e hold
          · rw [hnew]
            exact (Share.argptr_lt haddr).trans_le hsz

/-! ## Frames for page tables -/

section

variable {L : Layout} {D X : Set Nat} {σ σ' : Phys} {d parent psz : Nat} {E : Panic → Prop}

/-- Taking a frame for a page-table page leaves the balance as it was. -/
theorem roomy_iff {i t : Nat} (h : OneTab d i σ σ') (hlow : 256 ≤ i)
    (hi : i < 256 + (t + 1023) / 1024) (ht : t ≤ 262144) : Roomy d σ' t ↔ Roomy d σ t := by
  have htaken := h.taken
  have hsub : ∀ j ∈ Finset.Ico 256 (256 + (t + 1023) / 1024), j ≠ i →
      (tabOf σ'.mem d j = none ↔ tabOf σ.mem d j = none) := by
    intro j hj hne
    have hlt := (Finset.mem_Ico.mp hj).2
    rw [h.others j (by omega) hne]
  unfold Roomy missingTabs
  by_cases hnone : tabOf σ.mem d i = none
  · rw [if_pos hnone] at htaken
    have hset : (Finset.Ico 256 (256 + (t + 1023) / 1024)).filter (fun j => tabOf σ.mem d j = none)
        = insert i ((Finset.Ico 256 (256 + (t + 1023) / 1024)).filter
            fun j => tabOf σ'.mem d j = none) := by
      ext j
      have hmem : i ∈ Finset.Ico 256 (256 + (t + 1023) / 1024) := Finset.mem_Ico.mpr ⟨hlow, hi⟩
      simp only [Finset.mem_filter, Finset.mem_insert]
      by_cases hji : j = i
      · simp [hji, hnone, hlow, hi]
      · constructor
        · exact fun hj => Or.inr ⟨hj.1, (hsub j hj.1 hji).mpr hj.2⟩
        · rintro (heq | hj)
          · exact absurd heq hji
          · exact ⟨hj.1, (hsub j hj.1 hji).mp hj.2⟩
    have hnot : i ∉ (Finset.Ico 256 (256 + (t + 1023) / 1024)).filter
        fun j => tabOf σ'.mem d j = none := fun hmem => h.self (Finset.mem_filter.mp hmem).2
    rw [hset, Finset.card_insert_of_notMem hnot]
    omega
  · rw [if_neg hnone] at htaken
    have hset : (Finset.Ico 256 (256 + (t + 1023) / 1024)).filter (fun j => tabOf σ'.mem d j = none)
        = (Finset.Ico 256 (256 + (t + 1023) / 1024)).filter fun j => tabOf σ.mem d j = none := by
      refine Finset.filter_congr fun j hj => ?_
      by_cases hji : j = i
      · rw [hji]
        exact iff_of_false h.self hnone
      · exact hsub j hj hji
    rw [hset, htaken]

theorem not_roomy {i t : Nat} (hempty : σ.freelist = []) (hnone : tabOf σ.mem d i = none)
    (hlow : 256 ≤ i) (hi : i < 256 + (t + 1023) / 1024) : ¬ Roomy d σ t := by
  unfold Roomy missingTabs
  rw [hempty, List.length_nil, Nat.le_zero, Finset.card_eq_zero, Finset.filter_eq_empty_iff]
  exact fun hall => hall (Finset.mem_Ico.mpr ⟨hlow, hi⟩) hnone

theorem Roomy.mono {t u : Nat} (h : Roomy d σ u) (htu : t ≤ u) : Roomy d σ t := by
  refine le_trans (Finset.card_le_card (Finset.filter_subset_filter _ ?_)) h
  exact Finset.Ico_subset_Ico_right (by omega)

/-! ## The pages of the parent -/

/-- The pages a parent has of a region of `n` pages: those before the first one it does not
have. -/
def lentRun (m : Mem) (parent : Nat) : Nat → Nat → Nat
  | _, 0 => 0
  | start, n + 1 =>
    if pteAt m parent (srcPage start 0) = none then 0
    else lentRun m parent (u32 (start + 4096)) n + 1

theorem lentRun_le (m : Mem) (parent start n : Nat) : lentRun m parent start n ≤ n := by
  induction n generalizing start with
  | zero => exact le_rfl
  | succ n ih =>
    unfold lentRun
    split
    · exact Nat.zero_le _
    · exact Nat.succ_le_succ (ih _)

theorem lentRun_pos {m : Mem} {start n : Nat} (h : 0 < lentRun m parent start n) :
    ∃ w, pteAt m parent (srcPage start 0) = some w := by
  cases n with
  | zero => exact absurd h (Nat.lt_irrefl 0)
  | succ n =>
    refine Option.ne_none_iff_exists'.mp fun hnone => ?_
    rw [lentRun, if_pos hnone] at h
    exact absurd h (Nat.lt_irrefl 0)

theorem lentRun_congr {m m' : Mem} {start : Nat}
    (h : ∀ y < 1048576, pteAt m' parent y = pteAt m parent y) (n : Nat) :
    lentRun m' parent start n = lentRun m parent start n := by
  induction n generalizing start with
  | zero => rfl
  | succ n ih =>
    unfold lentRun
    rw [h _ (srcPage_lt _ _), ih]

/-- Frame `f` holds a page of the memory of some process. -/
def Lendable (D : Set Nat) (m : Mem) (f : Nat) : Prop :=
  ∃ d' ∈ D, ∃ y < 262144, ∃ w, pteAt m d' y = some w ∧ pteFrame w = f

/-- Such frames are taken by `kfree`, are no page tables and not free. -/
theorem Lendable.frame {f : Nat} (h : Lendable D σ.mem f) (hs : Sound L D X σ) :
    Ram L f ∧ NotTable σ.mem D f ∧ f ∉ σ.freelist := by
  obtain ⟨d', hd', y, hy, w, hw, rfl⟩ := h
  exact ⟨hs.ram_page hd' hy hw, hs.notTable_of_page hd' hy hw,
    hs.notFree (u := .page d' y) ⟨hd', hy, w, hw, rfl⟩⟩

theorem lendable_congr {m m' : Mem} {f : Nat}
    (h : ∀ d' ∈ D, ∀ y < 262144, pteAt m' d' y = pteAt m d' y) :
    Lendable D m' f ↔ Lendable D m f := by
  constructor
  · rintro ⟨d', hd', y, hy, w, hw, hf⟩
    exact ⟨d', hd', y, hy, w, (h d' hd' y hy).symm.trans hw, hf⟩
  · rintro ⟨d', hd', y, hy, w, hw, hf⟩
    exact ⟨d', hd', y, hy, w, (h d' hd' y hy).trans hw, hf⟩

theorem lendable_edit {f v : Nat} {o : Option Nat} (hv : 262144 ≤ v)
    (hedit : Edit D d (Function.update (pteAt σ.mem d) v o) σ σ') :
    Lendable D σ'.mem f ↔ Lendable D σ.mem f := by
  refine lendable_congr fun d' hd' y hy => ?_
  by_cases hdd : d' = d
  · rw [hdd, hedit.pte y (by omega), Function.update_of_ne (by omega)]
  · exact (hedit.others d' ⟨hd', hdd⟩).2 y (by omega)

/-- The pages of `d` from `v` up to `v'` hold pages of the parent. -/
def Lent (D : Set Nat) (d parent v v' : Nat) (σ : Phys) : Prop :=
  ∀ x, v ≤ x → x < v' → ∃ w, pteAt σ.mem d x = some w ∧ Lendable D σ.mem (pteFrame w) ∧
    ∃ y < 1048576, ∃ w', pteAt σ.mem parent y = some w' ∧ pteFrame w' = pteFrame w

theorem Lent.next {v v' y w : Nat} (h : Lent D d parent v v' σ) (hp : parent ∈ D \ {d})
    (hlow : 262144 ≤ v') (hv' : v' < 1048576) (hy : y < 1048576)
    (hw : pteAt σ.mem parent y = some w) (hlend : Lendable D σ.mem (pteFrame w))
    (hedit : Edit D d (Function.update (pteAt σ.mem d) v'
      (some (pteFrame w * 4096 ||| (pteW ||| pteU) ||| pteP))) σ σ') :
    Lent D d parent v (v' + 1) σ' := by
  have hpar : ∀ z < 1048576, pteAt σ'.mem parent z = pteAt σ.mem parent z :=
    fun z hz => (hedit.others parent hp).2 z hz
  intro x hx hlt
  by_cases hself : x = v'
  · have hframe : pteFrame (pteFrame w * 4096 ||| (pteW ||| pteU) ||| pteP) = pteFrame w :=
      pteFrame_mk (by decide)
    refine ⟨_, by rw [hself, hedit.pte v' hv', Function.update_self], ?_, y, hy, w,
      (hpar y hy).trans hw, hframe.symm⟩
    rw [hframe]
    exact (lendable_edit hlow hedit).mpr hlend
  · obtain ⟨w', hw', hlend', z, hz, w'', hw'', hf⟩ := h x hx (by omega)
    refine ⟨w', ?_, (lendable_edit hlow hedit).mpr hlend', z, hz, w'', (hpar z hz).trans hw'', hf⟩
    rw [hedit.pte x (by omega), Function.update_of_ne hself]
    exact hw'

/-- The pages of the regions, as far as the parent has them, are memory of processes. -/
def Lends (D : Set Nat) (m : Mem) (parent : Nat) (es : List Shared) : Prop :=
  ∀ e ∈ es, ∀ j < lentRun m parent e.memstart (Shared.pages e), ∀ w,
    pteAt m parent (srcPage e.memstart j) = some w → Lendable D m (pteFrame w)

/-! ## The state between two pages -/

/-- `t` pages into the window: they have their page tables, the rest of the window is empty and
the kernel's half begins behind it. -/
structure Progressed (L : Layout) (D X : Set Nat) (d t : Nat) (σ : Phys) : Prop where
  sound : Sound L D X σ
  tabs : ∀ i, 256 ≤ i → i < 256 + (t + 1023) / 1024 → tabOf σ.mem d i ≠ none
  clear : ∀ x, 262144 + t ≤ x → x < 524288 → pteAt σ.mem d x = none
  kernel : ∃ w, pteAt σ.mem d 524288 = some w ∧ pteFrame w = 0

theorem Progressed.roomy {t : Nat} (h : Progressed L D X d t σ) : Roomy d σ t := by
  have hzero : missingTabs σ.mem d t = 0 := by
    refine Finset.card_eq_zero.mpr (Finset.filter_eq_empty_iff.mpr fun i hi => ?_)
    obtain ⟨hlow, hlt⟩ := Finset.mem_Ico.mp hi
    exact h.tabs i hlow hlt
  unfold Roomy
  rw [hzero]
  exact Nat.zero_le _

theorem Progressed.next {t f : Nat} (h : Progressed L D X d t σ) (ht : t < 262144)
    (h' : Sound L D X σ')
    (hedit : Edit D d (Function.update (pteAt σ.mem d) (262144 + t)
      (some (f * 4096 ||| (pteW ||| pteU) ||| pteP))) σ σ')
    (htab : OneTab d ((262144 + t) / 1024) σ σ') : Progressed L D X d (t + 1) σ' := by
  have hsame : ∀ x < 1048576, x ≠ 262144 + t → pteAt σ'.mem d x = pteAt σ.mem d x := by
    intro x hx hne
    rw [hedit.pte x hx, Function.update_of_ne hne]
  refine ⟨h', fun i hlow hi => ?_, fun x hx hlt => ?_, ?_⟩
  · by_cases hself : i = (262144 + t) / 1024
    · rw [hself]
      exact htab.self
    · rw [htab.others i (by omega) hself]
      exact h.tabs i hlow (by omega)
  · rw [hsame x (by omega) (by omega)]
    exact h.clear x (by omega) hlt
  · obtain ⟨w, hw, hf⟩ := h.kernel
    refine ⟨w, ?_, hf⟩
    rw [hsame _ (by omega) (by omega)]
    exact hw

/-! ## The cleanup -/

theorem notTable_of_tabs {m m' : Mem} {f : Nat} (h : NotTable m D f)
    (htabs : ∀ d ∈ D, ∀ i < 1024, tabOf m' d i = tabOf m d i) : NotTable m' D f := by
  refine ⟨h.1, fun d hd i hi => ?_⟩
  rw [htabs d hd i hi]
  exact h.2 d hd i hi

/-- `deallocuvm` at a page of the window that holds a frame of somebody else. The frame goes to
the free list although it is in use; `free` is the list without it. -/
theorem deallocPte_window {free : List Nat} {v t : Nat} (h : Owned L σ.mem free D X) (hd : d ∈ D)
    (hlow : 262144 ≤ v) (hv : v < 1048576) (ht : tabOf σ.mem d (v / 1024) = some t)
    (hlent : ∀ w, pteAt σ.mem d v = some w → Ram L (pteFrame w) ∧ NotTable σ.mem D (pteFrame w)) :
    Spec E (deallocPte L (t, v % 1024)) σ (fun _ σ' => Owned L σ'.mem free D X ∧
      Edit D d (Function.update (pteAt σ.mem d) v none) σ σ' ∧
      (∀ d' ∈ D, ∀ i < 1024, tabOf σ'.mem d' i = tabOf σ.mem d' i) ∧
      (pteAt σ.mem d v = none → σ' = σ) ∧
      σ'.freelist = ((pteAt σ.mem d v).map pteFrame).toList ++ σ.freelist) := by
  have hlt : v % 1024 < 1024 := Nat.mod_lt _ (by omega)
  unfold deallocPte
  refine Spec.seq_ok (readPte_run _ σ) ?_
  have hpte := pteAt_of_tabOf ht
  cases hpres : present (word σ.mem t (v % 1024)) with
  | false =>
    rw [hpres] at hpte
    refine Spec.pure ⟨h, (Edit.refl D d σ).congr (fun x _ => ?_), fun _ _ _ _ => rfl,
      fun _ => rfl, by rw [hpte]; rfl⟩
    rw [Function.update_apply]
    by_cases hx : x = v
    · rw [if_pos hx, hx, hpte]
      rfl
    · rw [if_neg hx]
  | true =>
    rw [if_pos hpres] at hpte
    obtain ⟨hram, hnot⟩ := hlent _ hpte
    have htf : t ≠ pteFrame (word σ.mem t (v % 1024)) := fun he =>
      hnot.2 d hd (v / 1024) (by omega) (he ▸ ht)
    rw [if_pos rfl, if_neg (Nat.pos_iff_ne_zero.mp hram.pos)]
    refine Spec.seq_ok (kfree_run hram σ) ?_
    refine Spec.of_ok (writePte_run (t, v % 1024) 0 _) ?_
    simp only
    rw [setWord_junkPage hlt htf]
    have hs := h.setPte hd hv ht (show 0 < 2 ^ 32 by decide)
    have hj := sameTables_junkPage (notTable_of_tabs hnot fun d' hd' => (hs d' hd').1) σ.freelist
    refine ⟨(h.setHigh hs hlow).of_sameTables hj, ⟨?_, fun x hx => ?_⟩, fun d' hd' i hi => ?_,
      fun hnone => ?_, by rw [hpte]; rfl⟩
    · have hs' : SameTables (D \ {d}) σ.mem (setWord σ.mem t (v % 1024) 0) :=
        hs.sameTables Set.sdiff_subset (fun hc => hc.2 rfl)
      exact hs'.trans (hj.mono Set.sdiff_subset)
    · rw [(hj d hd).2 x hx, (hs d hd).2 x hx, Function.update_apply]
      by_cases hxv : x = v
      · rw [if_pos ⟨rfl, hxv⟩, if_pos hxv]
        rfl
      · rw [if_neg (fun hc => hxv hc.2), if_neg hxv]
    · rw [(hj d' hd').1 i hi, (hs d' hd').1 i hi]
    · rw [hpte] at hnone
      cases hnone

/-- The frames of the `n` pages from `v` on, the last one first. -/
def framesOf (m : Mem) (d v n : Nat) : List Nat :=
  ((List.range' v n).filterMap fun x => (pteAt m d x).map pteFrame).reverse

theorem framesOf_congr {m m' : Mem} {v n : Nat}
    (h : ∀ x, v ≤ x → x < v + n → pteAt m' d x = pteAt m d x) :
    framesOf m' d v n = framesOf m d v n := by
  unfold framesOf
  refine congrArg List.reverse (List.filterMap_congr fun x hx => ?_)
  obtain ⟨hlow, hlt⟩ := List.mem_range'_1.mp hx
  rw [h x hlow hlt]

theorem framesOf_absent {m : Mem} {v n : Nat}
    (h : ∀ x, v ≤ x → x < v + n → pteAt m d x = none) : framesOf m d v n = [] := by
  unfold framesOf
  refine List.reverse_eq_nil_iff.mpr (List.filterMap_eq_nil_iff.mpr fun x hx => ?_)
  obtain ⟨hlow, hlt⟩ := List.mem_range'_1.mp hx
  rw [h x hlow hlt]
  rfl

theorem framesOf_add (m : Mem) (d v n k : Nat) :
    framesOf m d v (n + k) = framesOf m d (v + n) k ++ framesOf m d v n := by
  unfold framesOf
  rw [← List.reverse_append, ← List.filterMap_append, List.range'_append_1]

theorem framesOf_skip {m : Mem} {v u top : Nat} (hle : v ≤ u)
    (h : ∀ x, v ≤ x → x < u → pteAt m d x = none) :
    framesOf m d v (top - v) = framesOf m d u (top - u) := by
  by_cases htop : u ≤ top
  · rw [show top - v = (u - v) + (top - u) by omega, framesOf_add,
      framesOf_absent (n := u - v) fun x hx hlt => h x hx (by omega), List.append_nil,
      show v + (u - v) = u by omega]
  · rw [framesOf_absent fun x hx hlt => h x hx (by omega), show top - u = 0 by omega]
    rfl

theorem framesOf_step (m : Mem) (d : Nat) {v top : Nat} (h : v < top) :
    framesOf m d v (top - v)
      = framesOf m d (v + 1) (top - (v + 1)) ++ ((pteAt m d v).map pteFrame).toList := by
  rw [show top - v = 1 + (top - (v + 1)) by omega, framesOf_add]
  refine congrArg _ ?_
  unfold framesOf
  cases hw : pteAt m d v <;> simp [List.range', hw]

/-- The pages of `d` from `v` up to `top` were given back. The frames went to the free list
although they are in use; `free` is the list without them. -/
structure Released (L : Layout) (D X : Set Nat) (free : List Nat) (d v top : Nat) (σ σ' : Phys) :
    Prop where
  owned : Owned L σ'.mem free D X
  edit : Edit D d (dropRange v (top * 4096) (pteAt σ.mem d)) σ σ'
  tabs : ∀ i < 1024, tabOf σ'.mem d i = tabOf σ.mem d i
  nothing : (∀ x, v ≤ x → x < top → pteAt σ.mem d x = none) → σ' = σ
  freed : σ'.freelist = framesOf σ.mem d v (top - v) ++ σ.freelist

/-- The loop of `deallocuvm` in the window, up to page `top`: it gives back every frame it meets,
and beyond the window it meets frame 0 of the kernel's half. -/
theorem deallocLoop_window {free : List Nat} (top : Nat) (hd : d ∈ D) (htop : top < 1048576) :
    ∀ (fuel v : Nat) (σ : Phys), Owned L σ.mem free D X →
      (∀ x, v ≤ x → x < 524288 → ∀ w, pteAt σ.mem d x = some w →
        Ram L (pteFrame w) ∧ NotTable σ.mem D (pteFrame w)) →
      (∃ w, pteAt σ.mem d 524288 = some w ∧ pteFrame w = 0) →
      262144 ≤ v → v ≤ 524288 → 524288 - v < fuel →
      Spec (fun _ => 524288 < top) (deallocLoop L d (top * 4096) fuel (v * 4096)) σ (fun _ σ' =>
        top ≤ 524288 ∧ Released L D X free d v top σ σ') := by
  intro fuel
  induction fuel with
  | zero => intro v σ _ _ _ _ _ hfuel; omega
  | succ fuel ih =>
    intro v σ h hlent hkern hlow hv hfuel
    have hd0 : d ≠ 0 := by
      have := (h.ram_dir hd).pos
      omega
    unfold deallocLoop
    by_cases hlt : v * 4096 < top * 4096
    · rw [if_pos hlt]
      refine Spec.seq_ok (walkpgdir_run hd0 _ σ) ?_
      rw [pdx_page (by omega), ptx_page]
      by_cases hend : v = 524288
      · subst hend
        obtain ⟨w, hw, hf⟩ := hkern
        obtain ⟨t, ht, hword⟩ := tabOf_of_pteAt hw
        rw [ht]
        dsimp only [Option.map_some]
        refine Spec.seq (Q := fun _ _ => False) ?_ (fun _ _ hr => hr.elim)
        unfold deallocPte
        refine Spec.seq_ok (readPte_run _ σ) ?_
        dsimp only
        rw [hword, if_pos (present_of_pteAt hw), if_pos hf]
        exact Spec.throw (by omega)
      cases ht : tabOf σ.mem d (v / 1024) with
      | none =>
        have hskip : u32 (u32 (pgaddr (v / 1024 + 1) 0 0 + 2 ^ 32 - 4096) + 4096)
            = (v / 1024 + 1) * 1024 * 4096 := by
          unfold u32 pgaddr u32
          omega
        -- the pages that are skipped are absent
        have habs : ∀ x, v ≤ x → x < (v / 1024 + 1) * 1024 → pteAt σ.mem d x = none := by
          intro x h1 h2
          refine pteAt_none_of_tabOf ?_
          rw [show x / 1024 = v / 1024 by omega]
          exact ht
        show Spec _ (deallocLoop L d (top * 4096) fuel _) σ _
        rw [hskip]
        refine (ih _ σ h (fun x hx => hlent x (by omega)) hkern (by omega) (by omega)
          (by omega)).mono (fun _ σ' hr => ?_)
        obtain ⟨hle, hrel⟩ := hr
        refine ⟨hle, hrel.owned, hrel.edit.congr fun x hx => ?_, hrel.tabs,
          fun hall => hrel.nothing fun x h1 => hall x (by omega), ?_⟩
        · unfold dropRange
          by_cases hin : (v / 1024 + 1) * 1024 ≤ x ∧ x * 4096 < top * 4096
          · rw [if_pos hin, if_pos ⟨by omega, hin.2⟩]
          · rw [if_neg hin]
            by_cases hin' : v ≤ x ∧ x * 4096 < top * 4096
            · rw [if_pos hin']
              exact habs x hin'.1 (by omega)
            · rw [if_neg hin']
        · rw [hrel.freed, framesOf_skip (show v ≤ (v / 1024 + 1) * 1024 by omega) habs]
      | some t =>
        dsimp only [Option.map_some]
        refine Spec.seq (deallocPte_window h hd hlow (by omega) ht (hlent v le_rfl (by omega)))
          (fun _ σ₁ hr => ?_)
        obtain ⟨h₁, he, htabs, hsame₁, hfree₁⟩ := hr
        have hnext : u32 (v * 4096 + 4096) = (v + 1) * 4096 := by
          unfold u32
          omega
        have hkeep : ∀ x < 1048576, x ≠ v → pteAt σ₁.mem d x = pteAt σ.mem d x := by
          intro x hx hne
          rw [he.pte x hx, Function.update_of_ne hne]
        rw [hnext]
        refine (ih (v + 1) σ₁ h₁ (fun x hx hlt' w hw => ?_) ?_ (by omega) (by omega)
          (by omega)).mono (fun _ σ' hr => ?_)
        · rw [hkeep x (by omega) (by omega)] at hw
          obtain ⟨hram, hnot⟩ := hlent x (by omega) hlt' w hw
          exact ⟨hram, notTable_of_tabs hnot htabs⟩
        · rw [hkeep 524288 (by omega) (by omega)]
          exact hkern
        · obtain ⟨hle, hrel⟩ := hr
          refine ⟨hle, hrel.owned, (he.trans hrel.edit).congr fun x hx => ?_,
            fun i hi => (hrel.tabs i hi).trans (htabs d hd i hi), fun hall => ?_, ?_⟩
          · unfold dropRange
            by_cases hxv : x = v
            · rw [if_neg (by omega), if_pos (by omega), hxv, he.pte v (by omega),
                Function.update_self]
            · rw [hkeep x hx hxv]
              exact if_congr (by omega) rfl rfl
          · have hσ := hsame₁ (hall v le_rfl (by omega))
            rw [hrel.nothing fun x h1 h2 => by rw [hσ]; exact hall x (by omega) h2, hσ]
          · rw [hrel.freed, hfree₁, framesOf_step σ.mem d (show v < top by omega),
              List.append_assoc, framesOf_congr fun x h1 h2 => hkeep x (by omega) (by omega)]
    · rw [if_neg hlt]
      refine Spec.pure ⟨by omega, h, (Edit.refl D d σ).congr fun x _ => ?_, fun _ _ => rfl,
        fun _ => rfl, ?_⟩
      · unfold dropRange
        rw [if_neg (by omega)]
      · rw [show top - v = 0 by omega]
        rfl

/-- The cleanup of a region of `k` pages that starts `t` pages into the window. -/
theorem cleanup_window {free : List Nat} {t k : Nat} (h : Owned L σ.mem free D X) (hd : d ∈ D)
    (hlent : ∀ x, 262144 + t ≤ x → x < 524288 → ∀ w, pteAt σ.mem d x = some w →
      Ram L (pteFrame w) ∧ NotTable σ.mem D (pteFrame w))
    (hkern : ∃ w, pteAt σ.mem d 524288 = some w ∧ pteFrame w = 0) (ht : t ≤ 262144) (hk : 0 < k)
    (hk' : k < 1048576) :
    Spec (fun _ => ¬ (t + k ≤ 262144 ∨ 786432 ≤ t + k))
      (deallocuvm L d (u32 ((262144 + t) * 4096 + k * 4096)) ((262144 + t) * 4096)) σ (fun _ σ' =>
        (786432 ≤ t + k ∧ σ' = σ) ∨
        (t + k ≤ 262144 ∧ Released L D X free d (262144 + t) (262144 + t + k) σ σ')) := by
  unfold deallocuvm
  by_cases hwrap : 786432 ≤ t + k
  · rw [if_pos (by unfold u32; omega)]
    exact Spec.pure (Or.inl ⟨hwrap, rfl⟩)
  · have htop : u32 ((262144 + t) * 4096 + k * 4096) = (262144 + t + k) * 4096 := by
      unfold u32
      omega
    have hround : pgroundup ((262144 + t) * 4096) = (262144 + t) * 4096 := by
      unfold pgroundup u32
      omega
    rw [htop, if_neg (by omega), hround]
    have hloop := deallocLoop_window (262144 + t + k) hd (by omega) pageFuel (262144 + t) σ h
      hlent hkern (by omega) (by omega) (by unfold pageFuel; omega)
    refine Spec.seq (hloop.weaken fun _ _ => by omega) (fun _ σ' hr => ?_)
    exact Spec.pure (Or.inr ⟨by omega, hr.2⟩)

/-! ## One region -/

/-- The frame at page `x` of the window once the loop has reached it: pages from `t` on are still
to be mapped, from address `start` of the parent. -/
def windowFrame (m : Mem) (d parent start t x : Nat) : Nat :=
  pteFrame ((if x < t then pteAt m d (262144 + x)
    else pteAt m parent (srcPage start (x - t))).getD 0)

/-- What the cleanup leaves of a region that started `t₀` pages into the window and reached page
`u`: in the books nothing has changed, but the frames of its pages are on the free list. -/
structure Dropped (L : Layout) (D X : Set Nat) (d parent start t₀ t u : Nat) (σ σ' : Phys) :
    Prop where
  owned : Owned L σ'.mem [] D X
  others : SameTables (D \ {d}) σ.mem σ'.mem
  tabs : ∀ i < 1024, i < 256 ∨ 512 ≤ i → tabOf σ'.mem d i = tabOf σ.mem d i
  pte : ∀ x < 1048576, pteAt σ'.mem d x
    = if 262144 + t₀ ≤ x ∧ x < 524288 then none else pteAt σ.mem d x
  freed : σ'.freelist
    = ((List.range' t₀ (u - t₀)).map (windowFrame σ.mem d parent start t)).reverse

/-- How the inner loop ends, with `n` pages to go and `k` of them in the parent. The region has
`pages` pages and started `t₀` pages into the window. When no page table can be had, the pages
mapped so far stay if the end of the region wraps, and otherwise their frames are freed. -/
inductive RegionEnd (L : Layout) (D X : Set Nat) (d parent start t₀ pages t n k : Nat)
    (room : Prop) (σ σ' : Phys) : ShareResult → Prop
  | mapped : t + k ≤ 262144 → Progressed L D X d (t + k) σ' →
      Window D d parent start (262144 + t) k σ σ' →
      (∀ u, t + k ≤ u → u ≤ 262144 → (Roomy d σ' u ↔ Roomy d σ u)) →
      σ'.freelist <:+ σ.freelist →
      RegionEnd L D X d parent start t₀ pages t n k room σ σ' (if k = n then .done else .absent)
  | kept {j : Nat} : ¬ room → j ≤ k → 786432 ≤ t₀ + pages →
      Window D d parent start (262144 + t) j σ σ' → σ'.freelist = [] →
      RegionEnd L D X d parent start t₀ pages t n k room σ σ' .noMemory
  | dropped {u : Nat} : ¬ room → t₀ + pages ≤ 262144 → t ≤ u → u < 262144 →
      Roomy d σ u → ¬ Roomy d σ (u + 1) →
      Dropped L D X d parent start t₀ t u σ σ' →
      RegionEnd L D X d parent start t₀ pages t n k room σ σ' .noMemory

theorem Lent.framesOf {start t₀ t : Nat} (h : Lent D d parent (262144 + t₀) (262144 + t) σ) :
    framesOf σ.mem d (262144 + t₀) (t - t₀)
      = ((List.range' t₀ (t - t₀)).map (windowFrame σ.mem d parent start t)).reverse := by
  have hshift : List.range' (262144 + t₀) (t - t₀)
      = (List.range' t₀ (t - t₀)).map (262144 + ·) := (List.map_add_range' _ _ _).symm
  unfold Process.framesOf
  refine congrArg List.reverse ?_
  rw [hshift, List.filterMap_map, ← List.filterMap_eq_map]
  refine List.filterMap_congr fun x hx => ?_
  obtain ⟨hlow, hlt⟩ := List.mem_range'_1.mp hx
  obtain ⟨w, hw, -⟩ := h (262144 + x) (by omega) (by omega)
  simp only [Function.comp_apply, windowFrame, hw, if_pos (show x < t by omega)]
  rfl

/-- Seen from before the last page was mapped. -/
theorem Dropped.pull {start t₀ t u w : Nat} {σ₁ σ₂ : Phys}
    (h : Dropped L D X d parent (u32 (start + 4096)) t₀ (t + 1) u σ₁ σ₂) (hp : parent ∈ D \ {d})
    (ht₀ : t₀ ≤ t) (ht : t < 262144) (hw : pteAt σ.mem parent (srcPage start 0) = some w)
    (hedit : Edit D d (Function.update (pteAt σ.mem d) (262144 + t)
      (some (pteFrame w * 4096 ||| (pteW ||| pteU) ||| pteP))) σ σ₁)
    (htab : OneTab d ((262144 + t) / 1024) σ σ₁) : Dropped L D X d parent start t₀ t u σ σ₂ := by
  refine ⟨h.owned, hedit.others.trans h.others, fun i hi hout => ?_, fun x hx => ?_, ?_⟩
  · rw [h.tabs i hi hout, htab.others i hi (by omega)]
  · rw [h.pte x hx]
    by_cases hin : 262144 + t₀ ≤ x ∧ x < 524288
    · rw [if_pos hin, if_pos hin]
    · rw [if_neg hin, if_neg hin, hedit.pte x hx, Function.update_of_ne (by omega)]
  · rw [h.freed]
    refine congrArg List.reverse (List.map_congr_left fun x hx => ?_)
    unfold windowFrame
    have hlow := (List.mem_range'_1.mp hx).1
    rcases Nat.lt_trichotomy x t with hlt | rfl | hgt
    · rw [if_pos hlt, if_pos (by omega), hedit.pte _ (by omega), Function.update_of_ne (by omega)]
    · rw [if_pos (Nat.lt_succ_self x), if_neg (Nat.lt_irrefl x), hedit.pte _ (by omega),
        Function.update_self, Nat.sub_self, hw]
      exact pteFrame_mk (by decide)
    · rw [if_neg (by omega), if_neg (by omega), (hedit.others parent hp).2 _ (srcPage_lt _ _),
        srcPage_succ, show x - (t + 1) + 1 = x - t by omega]

/-- The frame of the region's first page is freed, if that page was mapped. -/
theorem Dropped.first {start t u w : Nat} (h : Dropped L D X d parent start t t u σ σ') (hu : t < u)
    (hw : pteAt σ.mem parent (srcPage start 0) = some w) : pteFrame w ∈ σ'.freelist := by
  rw [h.freed, List.mem_reverse]
  refine List.mem_map.mpr ⟨t, List.mem_range'_1.mpr (by omega), ?_⟩
  rw [windowFrame, if_neg (Nat.lt_irrefl t), Nat.sub_self, hw]
  rfl

/-- No frame for a page of page-table entries: the region is given up. -/
theorem giveUp_window {start t₀ pages t n k : Nat} {room : Prop} (h : Progressed L D X d t σ)
    (hd : d ∈ D) (hempty : σ.freelist = []) (hnotab : tabOf σ.mem d ((262144 + t) / 1024) = none)
    (ht₀ : t₀ ≤ t) (ht : t < 262144) (hpages : t < t₀ + pages) (hpages' : pages < 1048576)
    (hlent : Lent D d parent (262144 + t₀) (262144 + t) σ) (hno : ¬ room) :
    Spec (fun _ => ¬ Fits room t₀ pages (t + k)) (do
      let _ ← deallocuvm L d (u32 ((262144 + t₀) * 4096 + pages * 4096)) ((262144 + t₀) * 4096)
      return .noMemory) σ (fun r σ' => Fits room t₀ pages (t + k) ∧
        RegionEnd L D X d parent start t₀ pages t n k room σ σ' r) := by
  have hfits : Fits room t₀ pages (t + k) ↔ t₀ + pages ≤ 262144 ∨ 786432 ≤ t₀ + pages :=
    ⟨fun hf => hf.2 hno, fun hor => ⟨fun hr => absurd hr hno, fun _ => hor⟩⟩
  have hclean := cleanup_window h.sound hd (fun x hx hx' w' hw' => ?_) h.kernel
    (show t₀ ≤ 262144 by omega) (show 0 < pages by omega) hpages'
  · refine Spec.seq (hclean.weaken fun _ hbad => mt hfits.mp hbad) (fun _ σ₂ hr => ?_)
    obtain ⟨hwrap, hσ⟩ | ⟨hin, hrel⟩ := hr
    · rw [hσ]
      exact Spec.pure ⟨hfits.mpr (Or.inr hwrap),
        .kept hno (Nat.zero_le k) hwrap (Window.nil (by omega)) hempty⟩
    · refine Spec.pure ⟨hfits.mpr (Or.inl hin), .dropped hno hin le_rfl ht h.roomy
        (not_roomy hempty hnotab (by omega) (by omega)) ⟨hempty ▸ hrel.owned, hrel.edit.others,
          fun i hi _ => hrel.tabs i hi, fun x hx => ?_, ?_⟩⟩
      · rw [hrel.edit.pte x hx, dropRange]
        by_cases hdr : 262144 + t₀ ≤ x ∧ x < 524288
        · rw [if_pos hdr]
          by_cases hsmall : 262144 + t₀ ≤ x ∧ x * 4096 < (262144 + t₀ + pages) * 4096
          · rw [if_pos hsmall]
          · rw [if_neg hsmall]
            exact h.clear x (by omega) hdr.2
        · rw [if_neg hdr, if_neg (by omega)]
      · -- behind the pages mapped so far the region is empty
        rw [hrel.freed, hempty, List.append_nil,
          show 262144 + t₀ + pages - (262144 + t₀) = (t - t₀) + (pages - (t - t₀)) by omega,
          framesOf_add, framesOf_absent fun x hx hlt => h.clear x (by omega) (by omega),
          List.nil_append]
        exact hlent.framesOf
  · by_cases hmapped : x < 262144 + t
    · obtain ⟨w, hw, hlend, _⟩ := hlent x hx hmapped
      rw [hw] at hw'
      cases hw'
      exact ⟨(hlend.frame h.sound).1, (hlend.frame h.sound).2.1⟩
    · rw [h.clear x (by omega) hx'] at hw'
      cases hw'

/-- The inner loop, with `n` pages to go. -/
theorem accessLoop_window {t₀ pages : Nat} (hd : d ∈ D) (hp : parent ∈ D \ {d})
    (hpages : pages < 1048576) :
    ∀ (n fuel t start : Nat) (σ : Phys) (room : Prop),
      Progressed L D X d t σ → n < fuel → t₀ ≤ t → t ≤ 262144 → t + n = t₀ + pages →
      (∀ j < lentRun σ.mem parent start n, ∀ w, pteAt σ.mem parent (srcPage start j) = some w →
        Lendable D σ.mem (pteFrame w)) →
      Lent D d parent (262144 + t₀) (262144 + t) σ →
      (room ↔ Roomy d σ (min (t + lentRun σ.mem parent start n) 262144)) →
      Spec (fun _ => ¬ Fits room t₀ pages (t + lentRun σ.mem parent start n))
        (accessLoop L d parent ((262144 + t₀) * 4096) (pages * 4096) fuel ((t - t₀) * 4096)
          ((262144 + t) * 4096) start) σ (fun r σ' =>
        Fits room t₀ pages (t + lentRun σ.mem parent start n) ∧
        RegionEnd L D X d parent start t₀ pages t n (lentRun σ.mem parent start n) room σ σ' r) := by
  intro n
  induction n with
  | zero =>
    intro fuel t start σ room h hfuel ht₀ ht hsum _ hlent hroom
    obtain ⟨fuel, rfl⟩ := Nat.exists_eq_add_of_lt hfuel
    unfold accessLoop lentRun
    rw [if_neg (by omega), Nat.add_zero]
    refine Spec.pure ⟨⟨fun _ => ht, fun _ => by omega⟩, ?_⟩
    exact .mapped ht h (Window.nil (by omega)) (fun _ _ _ => Iff.rfl) List.suffix_rfl
  | succ n ih =>
    intro fuel t start σ room h hfuel ht₀ ht hsum hlend hlent hroom
    obtain ⟨fuel, rfl⟩ := Nat.exists_eq_add_of_lt hfuel
    have hp0 : parent ≠ 0 := by
      have := (h.sound.ram_dir hp.1).pos
      omega
    unfold lentRun at hlend hroom ⊢
    refine accessRound hp0 (by omega) (fun hnone => ?_) (fun w hw hf => ?_)
    · -- the pages of the parent end here
      rw [if_pos hnone] at hroom ⊢
      have hyes : room := hroom.mpr (by
        rw [Nat.add_zero, min_eq_left ht]
        exact h.roomy)
      refine ⟨⟨fun _ => ht, fun hno => absurd hyes hno⟩, ?_⟩
      exact .mapped ht h (Window.nil (by omega)) (fun _ _ _ => Iff.rfl) List.suffix_rfl
    · have hsome : pteAt σ.mem parent (srcPage start 0) ≠ none := by
        rw [hw]
        exact Option.some_ne_none w
      rw [if_neg hsome] at hlend hroom ⊢
      have hfirst := hlend 0 (Nat.succ_pos _) w hw
      generalize hk : lentRun σ.mem parent (u32 (start + 4096)) n + 1 = k at hlend hroom ⊢
      have hkpos : 0 < k := by omega
      refine (mapWindow_spec h.sound hd (by omega) (by omega) hf ?_).mono (fun b σ₁ hb => ?_)
      · -- the page is KERNBASE: all page tables of the window are there
        intro hne hfits
        have hend : t = 262144 := by
          by_contra hlt
          exact hne (h.clear _ le_rfl (by omega))
        subst hend
        have := hfits.1 (hroom.mpr (by
          rw [min_eq_right (by omega)]
          exact h.roomy))
        omega
      obtain ⟨rfl, hσ, hempty, hnotab⟩ | ⟨rfl, hnone, h₁, hedit, htab⟩ := hb
      · have ht' : t < 262144 := by
          by_contra hge
          obtain ⟨w', hw', -⟩ := h.kernel
          obtain ⟨tab, htab, -⟩ := tabOf_of_pteAt hw'
          rw [show (262144 + t) / 1024 = 524288 / 1024 by omega, htab] at hnotab
          cases hnotab
        have hno : ¬ room := fun hroom' =>
          not_roomy hempty hnotab (by omega) (by omega) (hroom.mp hroom')
        rw [if_neg (by simp), hσ]
        exact giveUp_window h hd hempty hnotab ht₀ ht' (by omega) hpages hlent hno
      · have ht' : t < 262144 := by
          by_contra hge
          obtain ⟨w', hw', -⟩ := h.kernel
          rw [show 262144 + t = 524288 by omega, hw'] at hnone
          cases hnone
        have hroomy : ∀ u, t + 1 ≤ u → u ≤ 262144 → (Roomy d σ₁ u ↔ Roomy d σ u) :=
          fun u hu hu' => roomy_iff htab (by omega) (by omega) hu'
        have hpar : ∀ y < 1048576, pteAt σ₁.mem parent y = pteAt σ.mem parent y :=
          (hedit.others parent hp).2
        have hnext : u32 ((262144 + t) * 4096 + 4096) = (262144 + (t + 1)) * 4096 := by
          unfold u32
          omega
        have hi : u32 ((t - t₀) * 4096 + 4096) = (t + 1 - t₀) * 4096 := by
          unfold u32
          omega
        rw [if_pos rfl, hnext, hi]
        have hk' : lentRun σ₁.mem parent (u32 (start + 4096)) n = k - 1 := by
          rw [lentRun_congr hpar]
          omega
        have hlend₁ : ∀ j < lentRun σ₁.mem parent (u32 (start + 4096)) n, ∀ w',
            pteAt σ₁.mem parent (srcPage (u32 (start + 4096)) j) = some w' →
            Lendable D σ₁.mem (pteFrame w') := by
          intro j hj w' hw'
          rw [srcPage_succ, hpar _ (srcPage_lt _ _)] at hw'
          exact (lendable_edit (by omega) hedit).mpr (hlend (j + 1) (by omega) w' hw')
        have hprog₁ := h.next ht' h₁ hedit htab
        have hgo := ih (n + 1 + fuel) (t + 1) (u32 (start + 4096)) σ₁ room hprog₁ (by omega)
          (by omega) (by omega) (by omega) hlend₁
          (hlent.next hp (by omega) (by omega) (srcPage_lt _ _) hw hfirst hedit)
          (hroom.trans (by
            rw [hk', show t + 1 + (k - 1) = t + k by omega]
            exact (hroomy _ (by omega) (by omega)).symm))
        rw [hk', show t + 1 + (k - 1) = t + k by omega] at hgo
        refine hgo.mono (fun r σ₂ hr => ⟨hr.1, ?_⟩)
        have hwin : ∀ j, Window D d parent (u32 (start + 4096)) (262144 + (t + 1)) j σ₁ σ₂ →
            Window D d parent start (262144 + t) (j + 1) σ σ₂ :=
          fun j hj => Window.cons hedit hw rfl hj
        cases hr.2 with
        | mapped hle hprog hwindow hroom' hsuffix =>
          have hend : t + 1 + (k - 1) = t + k := by omega
          rw [hend] at hle hprog hroom'
          have hif : (if k - 1 = n then ShareResult.done else .absent)
              = if k = n + 1 then .done else .absent := if_congr (by omega) rfl rfl
          rw [hif]
          refine .mapped hle hprog ?_ (fun u hu hu' => (hroom' u hu hu').trans
            (hroomy u (by omega) hu')) (hsuffix.trans htab.suffix)
          have := hwin _ hwindow
          rwa [Nat.sub_add_cancel hkpos] at this
        | @kept j hno hj hwrap hwindow hfree =>
          exact .kept hno (by omega) hwrap (hwin j hwindow) hfree
        | @dropped u hno hin hu hlt hroom' hno' hdrop =>
          refine .dropped hno hin (by omega) hlt ((hroomy u (by omega) (by omega)).mp hroom')
            (mt (hroomy (u + 1) (by omega) (by omega)).mpr hno')
            (hdrop.pull hp ht₀ ht' hw hedit htab)

/-! ## The regions of a table -/

/-- The pages that entries `es` got in `d` from page `b` on, as pairs of the first page and
the number of pages. -/
structure Regions (parent d : Nat) (m m' : Mem) (b : Nat) (es es' : List Shared)
    (rs : List (Nat × Nat)) : Prop where
  window : ∀ r ∈ rs, b ≤ r.1 ∧ r.1 + r.2 ≤ 524288
  apart : rs.Pairwise fun r r' => r.1 + r.2 ≤ r'.1
  only : ∀ x < 1048576, (∀ r ∈ rs, ¬ (r.1 ≤ x ∧ x < r.1 + r.2)) → pteAt m' d x = pteAt m d x
  /-- Region `i` is that of entry `i`: it holds the pages of the parent from `memstart` on, and
  the entry is moved to it once it is complete. -/
  pages : ∀ (i : Nat) (r : Nat × Nat), rs[i]? = some r → ∃ e, es[i]? = some e ∧ r.2 ≤ Shared.pages e ∧
    (es'[i]? = some e ∨ r.2 = Shared.pages e ∧ es'[i]? = some (Shared.moved e r.1)) ∧
    ∀ j < r.2, ∃ w, pteAt m parent (srcPage e.memstart j) = some w ∧
      pteAt m' d (r.1 + j) = some (pteFrame w * 4096 ||| (pteW ||| pteU) ||| pteP)

theorem Regions.nil {m m' : Mem} {b : Nat} {es es' : List Shared}
    (h : ∀ x < 1048576, pteAt m' d x = pteAt m d x) : Regions parent d m m' b es es' [] :=
  ⟨nofun, .nil, fun x hx _ => h x hx, fun i r hr => by simp at hr⟩

theorem Window.pages {v k start : Nat} (h : Window D d parent start v k σ σ')
    (hp : parent ∈ D \ {d}) {j : Nat} (hj : j < k) :
    ∃ w, pteAt σ.mem parent (srcPage start j) = some w ∧
      pteAt σ'.mem d (v + j) = some (pteFrame w * 4096 ||| (pteW ||| pteU) ||| pteP) := by
  obtain ⟨f, hf, hpar⟩ := h.mapped j hj
  obtain ⟨w, hw, hwf⟩ := hpar hp
  exact ⟨w, hw, hwf ▸ hf⟩

/-- A region that was not completed is the last one. -/
theorem Regions.last {b k : Nat} {e : Shared} {es : List Shared}
    (h : Window D d parent e.memstart b k σ σ') (hp : parent ∈ D \ {d}) (hk : k ≤ Shared.pages e) :
    Regions parent d σ.mem σ'.mem b (e :: es) (e :: es) [(b, k)] := by
  refine ⟨fun r hr => ?_, List.pairwise_singleton _ _, fun x hx hout => ?_, fun i r hr => ?_⟩
  · rw [List.mem_singleton.mp hr]
    exact ⟨le_rfl, h.fits⟩
  · exact h.outside x hx (hout _ List.mem_cons_self)
  · cases i with
    | zero =>
      cases hr
      exact ⟨e, rfl, hk, Or.inl rfl, fun j hj => Window.pages h hp hj⟩
    | succ i => simp at hr

theorem Regions.cons {σ₁ : Phys} {b : Nat} {e : Shared} {es es' : List Shared} {rs : List (Nat × Nat)}
    (h : Window D d parent e.memstart b (Shared.pages e) σ σ₁) (hp : parent ∈ D \ {d})
    (hr : Regions parent d σ₁.mem σ'.mem (b + Shared.pages e) es es' rs) :
    Regions parent d σ.mem σ'.mem b (e :: es) (Shared.moved e b :: es') ((b, Shared.pages e) :: rs) := by
  have hfits := h.fits
  refine ⟨fun r hmem => ?_, List.pairwise_cons.mpr ⟨fun r hmem => (hr.window r hmem).1, hr.apart⟩,
    fun x hx hout => ?_, fun i r hget => ?_⟩
  · rcases List.mem_cons.mp hmem with rfl | hmem
    · exact ⟨le_rfl, hfits⟩
    · have := hr.window r hmem
      omega
  · rw [hr.only x hx fun r hmem => hout r (List.mem_cons_of_mem _ hmem)]
    exact h.outside x hx (hout _ List.mem_cons_self)
  · cases i with
    | zero =>
      cases hget
      refine ⟨e, rfl, le_rfl, Or.inr ⟨rfl, rfl⟩, fun j hj => ?_⟩
      obtain ⟨w, hw, hpte⟩ := Window.pages h hp hj
      refine ⟨w, hw, ?_⟩
      rw [hr.only (b + j) (by omega) fun r hmem => ?_]
      · exact hpte
      · have := hr.window r hmem
        omega
    | succ i =>
      obtain ⟨e', he', hle, hmoved, hpages⟩ := hr.pages i r hget
      refine ⟨e', he', hle, hmoved, fun j hj => ?_⟩
      obtain ⟨w, hw, hpte⟩ := hpages j hj
      refine ⟨w, ?_, hpte⟩
      rw [← (h.others parent hp).2 _ (srcPage_lt _ _)]
      exact hw

/-! ## Regions of the parent's image -/

/-- No image is larger than memory: its pages are frames of their own. -/
theorem image_pages_le (h : Sound L D X σ) (hp : parent ∈ D) (hpsz : psz ≤ sharedbase)
    (himg : Image σ.mem parent psz) : (psz + 4095) / 4096 ≤ 57344 := by
  unfold sharedbase at hpsz
  have hsome : ∀ v < (psz + 4095) / 4096, ∃ w, pteAt σ.mem parent v = some w := fun v hv =>
    Option.ne_none_iff_exists'.mp (himg.inside v (by omega))
  have hcard := Finset.card_le_card_of_injOn (s := Finset.range ((psz + 4095) / 4096))
    (t := Finset.range 57344) (fun v => pteFrame ((pteAt σ.mem parent v).getD 0)) ?_ ?_
  · rwa [Finset.card_range, Finset.card_range] at hcard
  · intro v hv
    have hv := Finset.mem_range.mp (Finset.mem_coe.mp hv)
    obtain ⟨w, hw⟩ := hsome v hv
    have hram := h.ram_page hp (by omega) hw
    refine Finset.mem_coe.mpr (Finset.mem_range.mpr ?_)
    simp only [hw, Option.getD_some]
    exact hram.lt
  · intro v hv v' hv' heq
    have hv := Finset.mem_range.mp (Finset.mem_coe.mp hv)
    have hv' := Finset.mem_range.mp (Finset.mem_coe.mp hv')
    obtain ⟨w, hw⟩ := hsome v hv
    obtain ⟨w', hw'⟩ := hsome v' hv'
    simp only [hw, hw', Option.getD_some] at heq
    exact (h.page_inj hp (by omega) hw' hp (by omega) hw heq).2

/-- The pages of the parent end with its image. -/
theorem lentRun_image (h : Sound L D X σ) (hp : parent ∈ D) (hpsz : psz ≤ sharedbase)
    (himg : Image σ.mem parent psz) : ∀ (n start : Nat), start / 4096 < 262144 →
    lentRun σ.mem parent start n = min n ((psz + 4095) / 4096 - start / 4096) := by
  have hle := image_pages_le h hp hpsz himg
  intro n
  induction n with
  | zero => exact fun start _ => by rw [lentRun, Nat.zero_min]
  | succ n ih =>
    intro start hstart
    have hsrc : srcPage start 0 = start / 4096 := by
      unfold srcPage
      omega
    rw [lentRun, hsrc]
    by_cases hge : (psz + 4095) / 4096 ≤ start / 4096
    · rw [if_pos (himg.above _ hstart (by omega))]
      omega
    · have hnext : u32 (start + 4096) / 4096 = start / 4096 + 1 := by
        unfold u32
        omega
      rw [if_neg (himg.inside _ (by omega)), ih _ (by omega), hnext]
      omega

theorem Lends.of_image {es : List Shared} (h : Sound L D X σ) (hp : parent ∈ D)
    (hpsz : psz ≤ sharedbase) (himg : Image σ.mem parent psz)
    (hstart : ∀ e ∈ es, e.memstart < sharedbase) : Lends D σ.mem parent es := by
  intro e he j hj w hw
  have hmem := hstart e he
  unfold sharedbase at hmem
  have hP := image_pages_le h hp hpsz himg
  rw [lentRun_image h hp hpsz himg _ _ (by omega)] at hj
  exact ⟨parent, hp, srcPage e.memstart j, by unfold srcPage; omega, w, hw, rfl⟩

/-- The outer loop: it stops with a panic exactly when the table is not safe. -/
theorem accessEntries_window (hd : d ∈ D) (hp : parent ∈ D \ {d}) (hpsz : psz ≤ sharedbase) :
    ∀ (es : List Shared) (t : Nat) (σ : Phys), Progressed L D X d t σ → Image σ.mem parent psz →
      t ≤ 262144 → (∀ e ∈ es, e.memstart < sharedbase) →
      Spec (fun _ => ¬ Safe ((psz + 4095) / 4096) (Roomy d σ) t es)
        (accessEntries L d parent ((262144 + t) * 4096) es) σ (fun r σ' =>
        Safe ((psz + 4095) / 4096) (Roomy d σ) t es ∧
        ∃ rs, Regions parent d σ.mem σ'.mem (262144 + t) es r.2 rs) := by
  intro es
  induction es with
  | nil =>
    intro t σ _ _ _ _
    exact Spec.pure ⟨trivial, [], Regions.nil fun _ _ => rfl⟩
  | cons e es ih =>
    intro t σ h himg ht hstart
    have hmem := hstart e List.mem_cons_self
    unfold sharedbase at hmem
    unfold accessEntries
    by_cases hz : e.size = 0
    · rw [if_pos hz]
      exact Spec.pure ⟨fun hne => absurd hz hne, [], Regions.nil fun _ _ => rfl⟩
    rw [if_neg hz]
    have hround : pgroundup ((262144 + t) * 4096) = (262144 + t) * 4096 := by
      unfold pgroundup u32
      omega
    have hzero : (0 : Nat) = (t - t) * 4096 := by omega
    rw [hround, span_eq, hzero]
    have hlen := pages_lt e
    have hrun : lentRun σ.mem parent e.memstart (Shared.pages e)
        = lentPages ((psz + 4095) / 4096) e :=
      lentRun_image h.sound hp.1 hpsz himg _ _ (by omega)
    have hlend := Lends.of_image h.sound hp.1 hpsz himg hstart e List.mem_cons_self
    have hloop := accessLoop_window hd hp hlen (Shared.pages e) pageFuel t e.memstart σ
      (Roomy d σ (min (t + lentRun σ.mem parent e.memstart (Shared.pages e)) 262144)) h
      (by unfold pageFuel; omega) le_rfl ht rfl hlend (fun x hx hlt => by omega) Iff.rfl
    rw [hrun] at hloop
    refine Spec.seq (hloop.weaken fun _ hbad hsafe => hbad (hsafe hz).1) (fun r σ₁ hr => ?_)
    obtain ⟨hfits, hend⟩ := hr
    have hle : lentPages ((psz + 4095) / 4096) e ≤ Shared.pages e := min_le_left ..
    cases hend with
    | mapped hin hprog hwin hroomy _ =>
      by_cases hall : lentPages ((psz + 4095) / 4096) e = Shared.pages e
      · rw [if_pos hall, if_pos rfl]
        rw [hall] at hin hprog hwin hroomy hfits
        have hva : u32 ((262144 + t) * 4096 + Shared.pages e * 4096)
            = (262144 + (t + Shared.pages e)) * 4096 := by
          unfold u32
          omega
        have hcongr := Safe.congr (n := (psz + 4095) / 4096) es (t + Shared.pages e) hroomy hin
        have hsafe : Safe ((psz + 4095) / 4096) (Roomy d σ) t (e :: es)
            ↔ Safe ((psz + 4095) / 4096) (Roomy d σ₁) (t + Shared.pages e) es := by
          rw [hcongr]
          constructor
          · intro hs
            have := (hs hz).2
            rw [hall] at this
            refine this ?_ rfl
            rw [min_eq_left hin]
            exact (hroomy _ le_rfl hin).mp hprog.roomy
          · intro hs _
            rw [hall]
            exact ⟨hfits, fun _ _ => hs⟩
        rw [hva]
        have hgo := ih (t + Shared.pages e) σ₁ hprog
          (himg.of_sameTables hpsz hp hwin.others) hin
          fun e' he' => hstart e' (List.mem_cons_of_mem _ he')
        rw [← propext hsafe] at hgo
        refine Spec.seq hgo (fun r σ₂ hr => ?_)
        obtain ⟨hs, rs, hrs⟩ := hr
        have hmoved : ({ e with memstart := u32 ((262144 + t) * 4096 + pteFlags e.memstart) } : Shared)
            = Shared.moved e (262144 + t) := by
          unfold Shared.moved
          congr 1
          unfold u32 pteFlags
          omega
        refine Spec.pure ⟨hs, (262144 + t, Shared.pages e) :: rs, ?_⟩
        show Regions parent d σ.mem σ₂.mem (262144 + t) (e :: es) (_ :: r.2) _
        rw [hmoved]
        exact Regions.cons hwin hp (by rwa [Nat.add_assoc])
      · rw [if_neg hall, if_neg (by decide)]
        exact Spec.pure ⟨fun _ => ⟨hfits, fun _ hk => absurd hk hall⟩, _, Regions.last hwin hp hle⟩
    | @kept j hno hj _ hwin _ =>
      rw [if_neg (by decide)]
      exact Spec.pure ⟨fun _ => ⟨hfits, fun hroom => absurd hroom hno⟩, _, Regions.last hwin hp (hj.trans hle)⟩
    | dropped hno _ _ _ _ _ hdrop =>
      rw [if_neg (by decide)]
      refine Spec.pure ⟨fun _ => ⟨hfits, fun hroom => absurd hroom hno⟩, [], Regions.nil fun x hx => ?_⟩
      rw [hdrop.pte x hx]
      split
      · rename_i hin
        exact (h.clear x hin.1 hin.2).symm
      · rfl

/-! ## A program that was just loaded -/

theorem kmapPte_zero (h : L.data < phystop) :
    ∃ w, kmapPte (kmap L) 524288 = some w ∧ pteFrame w = 0 := by
  rw [kmap_eq h, kmapPte, if_pos (by decide)]
  exact ⟨_, rfl, by decide⟩

theorem progressed_of_load {σ₀ : Phys} {file : Option (List UInt8)} {sz entry : Nat}
    (h : Sound L D X σ₀) (hp : parent ∈ D) (himg : Image σ₀.mem parent psz)
    (hpsz : psz ≤ sharedbase) (hload : execLoad L file σ₀ = .ok (some (d, sz, entry), σ)) :
    parent ∈ insert d D \ {d} ∧ Image σ.mem parent psz ∧ Progressed L (insert d D) X d 0 σ := by
  obtain ⟨hsame, hcase⟩ := (execLoad_spec (E := fun _ => True) file h).post hload
  obtain ⟨hnone, _⟩ | ⟨d', sz', entry', heq, hfree, hfresh, h₁, -, -, hwin⟩ := hcase
  · cases hnone
  cases Option.some.inj heq
  have hdata := Ram.data_lt (h.pool_of_free hfree)
  have hne : parent ≠ d := fun he => hfresh (he ▸ hp)
  refine ⟨⟨Set.mem_insert_of_mem d hp, hne⟩, himg.of_sameTables hpsz hp hsame, h₁,
    fun i hlow hi => by omega, fun x hx hlt => ?_, ?_⟩
  · rw [hwin x (by omega) (by omega)]
    exact kmapPte_user hdata hlt
  · rw [hwin 524288 (by decide) (by decide)]
    exact kmapPte_zero hdata

/-- The sharing of table `t` in `d` returns. It creates entries in the window only, leaves those
that were there as they were, and gives every entry pages of its own. -/
def StaysInside (L : Layout) (d parent : Nat) (t : Table) (σ : Phys) : Prop :=
  ∃ r es' σ' rs, accessSharedMemory L d parent t σ = .ok ((r, es'), σ') ∧
    (∀ x < 1048576, pteAt σ.mem d x = none → pteAt σ'.mem d x ≠ none →
      262144 ≤ x ∧ x < 524288) ∧
    (∀ x < 1048576, ∀ w, pteAt σ.mem d x = some w → pteAt σ'.mem d x = some w) ∧
    Regions parent d σ.mem σ'.mem 262144 t.entries es' rs

theorem accessSharedMemory_window {σ₀ : Phys} {file : Option (List UInt8)} {sz entry : Nat} {t : Table}
    (h : Sound L D X σ₀) (hp : parent ∈ D) (himg : Image σ₀.mem parent psz)
    (hpsz : psz ≤ sharedbase) (hload : execLoad L file σ₀ = .ok (some (d, sz, entry), σ))
    (ht : SharedBy t) :
    Spec (fun _ => ¬ Safe ((psz + 4095) / 4096) (Roomy d σ) 0 t.entries)
      (accessSharedMemory L d parent t) σ (fun r σ' =>
      Safe ((psz + 4095) / 4096) (Roomy d σ) 0 t.entries ∧
      ∃ rs, Regions parent d σ.mem σ'.mem 262144 t.entries r.2 rs) := by
  obtain ⟨hpar, himg', hprog⟩ := progressed_of_load h hp himg hpsz hload
  exact accessEntries_window (Set.mem_insert d D) hpar hpsz t.entries 0 σ hprog himg' (by decide)
    ht.memstart_lt

/-- The sharing stays inside the window exactly when the table is safe, by the size of the
parent and the free frames. -/
theorem shared_window_iff {σ₀ : Phys} {file : Option (List UInt8)} {sz entry : Nat} {t : Table}
    (h : Sound L D X σ₀) (hp : parent ∈ D) (himg : Image σ₀.mem parent psz)
    (hpsz : psz ≤ sharedbase) (hload : execLoad L file σ₀ = .ok (some (d, sz, entry), σ))
    (ht : SharedBy t) :
    StaysInside L d parent t σ ↔ Safe ((psz + 4095) / 4096) (Roomy d σ) 0 t.entries := by
  have hspec := accessSharedMemory_window h hp himg hpsz hload ht
  constructor
  · rintro ⟨r, es', σ', rs, hrun, -⟩
    exact (hspec.post hrun).1
  · intro hsafe
    cases hrun : accessSharedMemory L d parent t σ with
    | error e => exact absurd hsafe (hspec.error hrun)
    | ok out =>
      obtain ⟨⟨r, es'⟩, σ'⟩ := out
      obtain ⟨-, rs, hrs⟩ := hspec.post hrun
      have hclear := (progressed_of_load h hp himg hpsz hload).2.2.clear
      refine ⟨r, es', σ', rs, hrun, fun x hx hnone hne => ?_, fun x hx w hw => ?_, hrs⟩
      · by_contra hout
        refine hne (.trans (hrs.only x hx fun r hr hin => ?_) hnone)
        have := hrs.window r hr
        omega
      · rw [hrs.only x hx fun r hr hin => ?_]
        · exact hw
        · have hr' := hrs.window r hr
          rw [hclear x (by omega) (by omega)] at hw
          cases hw

end

/-! ## A large parent -/

/-- Regions that the parent has in full fill the window one after the other. -/
theorem Safe.fills {n k : Nat} {room : Nat → Prop} (hroom : ∀ u ≤ 262144, room u)
    (es : List Shared) (t : Nat)
    (hes : ∀ e ∈ es, e.size ≠ 0 ∧ lentPages n e = k ∧ Shared.pages e = k) (h : Safe n room t es)
    (ht : t ≤ 262144) : t + k * es.length ≤ 262144 := by
  induction es generalizing t with
  | nil => simpa using ht
  | cons e es ih =>
    obtain ⟨hsize, hlent, hpages⟩ := hes e List.mem_cons_self
    obtain ⟨hfits, hrest⟩ := h hsize
    rw [hlent] at hfits hrest
    have hr := hroom (min (t + k) 262144) (by omega)
    have hgo := ih (t + k) (fun e' he' => hes e' (List.mem_cons_of_mem _ he'))
      (hrest hr hpages.symm) (hfits.1 hr)
    rw [List.length_cons, Nat.mul_succ]
    omega

/-- All memory of the small kernel is free. -/
theorem smallKernel_sound :
    Sound smallKernel ∅ ∅ ⟨fun _ => 0, List.range' 277 57067⟩ := by
  have hno : ∀ u f, ¬ Holds (fun _ => 0) ∅ ∅ u f := by
    intro u f hu
    cases u <;> exact hu.1
  refine ⟨List.nodup_range', fun hu => absurd hu (hno _ _), fun hu => absurd hu (hno _ _),
    fun hu => absurd hu (hno _ _), fun f => ?_⟩
  rw [List.mem_range'_1]
  constructor
  · intro hram
    have h₁ : 0x115000 ≤ f * 4096 := hram.1
    have h₂ : f * 4096 < 0xE000000 := hram.2
    exact Or.inl (by omega)
  · rintro (hf | ⟨u, hu⟩)
    · exact ⟨show 0x115000 ≤ f * 4096 by omega, show f * 4096 < 0xE000000 by omega⟩
    · exact absurd hu (hno _ _)

theorem exists_image {n : Nat} (hn : 0 < n) (hroom : n ≤ 26300) : ∃ D X σ parent,
    Sound smallKernel D X σ ∧ parent ∈ D ∧ Image σ.mem parent (n * 4096) ∧
    769 ≤ σ.freelist.length := by
  obtain ⟨_, σ₁, -, -, ⟨-, -, hfew⟩ | ⟨parent, -, hfree, hpar, h₁, hkern, hlen⟩⟩ :=
    (setupkvm_spec (E := fun _ => False) smallKernel_sound).total
  · simp at hfew
  have hmem : parent ∈ insert parent (∅ : Set Nat) := Set.mem_insert parent ∅
  have hdata := Ram.data_lt (smallKernel_sound.pool_of_free hfree)
  have hempty : Image σ₁.mem parent 0 := by
    refine ⟨fun v hv => absurd hv (Nat.not_lt_zero _), fun v hv _ => ?_⟩
    rw [hkern v (by omega)]
    exact kmapPte_user hdata (by omega)
  have hlen' : 57067 ≤ σ₁.freelist.length + 513 := by
    simpa using hlen
  have habove : ∀ x, (0 + 4095) / 4096 ≤ x → x * 4096 < n * 4096 → n * 4096 < sharedbase →
      pteAt σ₁.mem parent x ≠ none → False := by
    intro x _ _ hlt hne
    unfold sharedbase at hlt
    exact hne (hempty.above x (by omega) (Nat.zero_le _))
  obtain ⟨r, σ₂, hrun, h₂, -, hcase⟩ :=
    (allocuvm_spec h₁ hmem habove : Spec (fun _ => False) (allocuvm _ parent 0 (n * 4096)) σ₁ _).total
  obtain ⟨-, -, hgrow, -⟩ := (allocuvm_image (E := fun _ => False) h₁ hmem hempty
    (Nat.zero_le _)).post hrun
  have hbound : n * 4096 < sharedbase := by
    unfold sharedbase
    omega
  obtain ⟨hbig, -⟩ | ⟨-, hlt, -⟩ | ⟨-, -, rfl, -, hlen₂⟩ | ⟨-, -, -, hfew, -⟩ := hcase
  · omega
  · omega
  · obtain ⟨-, hbuilt, -⟩ := hgrow (by omega)
    exact ⟨_, _, σ₂, parent, h₂, hmem, hbuilt.image, by omega⟩
  · omega

/-- Beside it the empty program is loaded. -/
theorem exists_loaded {n : Nat} (hn : 0 < n) (hroom : n ≤ 26300) : ∃ D X σ₀ parent d σ,
    Sound smallKernel D X σ₀ ∧ parent ∈ D ∧ Image σ₀.mem parent (n * 4096) ∧
    execLoad smallKernel (some emptyElf) σ₀ = .ok (some (d, 0, 0), σ) ∧
    256 ≤ σ.freelist.length := by
  obtain ⟨D, X, σ₀, parent, h, hp, himg, hlen⟩ := exists_image hn hroom
  obtain ⟨d, σ, hload, hlen'⟩ := execLoad_emptyElf h (by omega)
  exact ⟨D, X, σ₀, parent, d, σ, h, hp, himg, hload, by omega⟩

/-- There are at most 256 page-table pages to the window. -/
theorem roomy_of_free {d t : Nat} {σ : Phys} (h : 256 ≤ σ.freelist.length) (ht : t ≤ 262144) :
    Roomy d σ t := by
  have hcard := Finset.card_filter_le (Finset.Ico 256 (256 + (t + 1023) / 1024))
    fun i => tabOf σ.mem d i = none
  rw [Nat.card_Ico] at hcard
  unfold Roomy missingTabs
  omega

/-- Four bytes are shared. -/
theorem shared_window_iff_smallKernel : ∃ L D X σ₀ parent d σ t, Sound L D X σ₀ ∧ parent ∈ D ∧
    Image σ₀.mem parent 4096 ∧ execLoad L (some emptyElf) σ₀ = .ok (some (d, 0, 0), σ) ∧
    SharedBy t ∧ StaysInside L d parent t σ := by
  obtain ⟨D, X, σ₀, parent, d, σ, h, hp, himg, hload, -⟩ := exists_loaded Nat.one_pos (by decide)
  have ht : SharedBy (sysShareData 4096 Table.zero (some nameA) (some 0) (some 4)).2 :=
    .share _ _ _ .zero (by decide)
  refine ⟨_, D, X, σ₀, parent, d, σ, _, h, hp, himg, hload, ht, ?_⟩
  refine (shared_window_iff h hp himg (by decide) hload ht).mpr fun _ => ?_
  have hlent : lentPages ((1 * 4096 + 4095) / 4096) (Shared.make nameA 0 4) = 1 := by decide
  have hpages : Shared.pages (Shared.make nameA 0 4) = 1 := by decide
  rw [hlent, hpages]
  exact ⟨⟨fun _ => by decide, fun _ => by decide⟩, fun _ _ hsize => absurd rfl hsize⟩

/-- One call of `share_data` after the other: `k` bytes from address 0 on, under names of one
byte. -/
def shareAll (sz : Nat) (k : Int) (names : List CString) : Table :=
  names.foldl (fun t name => (sysShareData sz t (some name) (some 0) (some k)).2) Table.zero

theorem shareAll_sharedBy {sz : Nat} (hsz : sz ≤ sharedbase) (k : Int) (names : List CString) :
    SharedBy (shareAll sz k names) := by
  have hgo : ∀ t, SharedBy t → SharedBy
      (names.foldl (fun t name => (sysShareData sz t (some name) (some 0) (some k)).2) t) := by
    induction names with
    | nil => exact fun t ht => ht
    | cons name names ih => exact fun t ht => ih _ (.share _ _ _ ht hsz)
  exact hgo _ .zero

/-- The names 1 to 10. -/
def tenNames : List CString :=
  (List.finRange 10).map fun (i : Fin 10) => ⟨[UInt8.ofNat (i.val + 1)], by revert i; decide⟩

/-- A parent of 26300 pages shares all of them ten times: the sharing panics. -/
theorem shared_window_overflow : ∃ L D X σ₀ parent d σ t e, Sound L D X σ₀ ∧ parent ∈ D ∧
    Image σ₀.mem parent (26300 * 4096) ∧
    execLoad L (some emptyElf) σ₀ = .ok (some (d, 0, 0), σ) ∧ SharedBy t ∧
    accessSharedMemory L d parent t σ = .error e ∧ ¬ StaysInside L d parent t σ := by
  obtain ⟨D, X, σ₀, parent, d, σ, h, hp, himg, hload, hfree⟩ :=
    exists_loaded (show 0 < 26300 by decide) le_rfl
  have ht := shareAll_sharedBy (show 26300 * 4096 ≤ sharedbase by decide) 107724800 tenNames
  have hentries : (shareAll (26300 * 4096) 107724800 tenNames).entries
      = tenNames.map fun name => Shared.make name 0 107724800 := by decide
  have hunsafe : ¬ Safe ((26300 * 4096 + 4095) / 4096) (Roomy d σ) 0
      (shareAll (26300 * 4096) 107724800 tenNames).entries := by
    intro hsafe
    have hall := Safe.fills (k := 26300) (fun u hu => roomy_of_free hfree hu) _ 0 ?_ hsafe (by decide)
    · rw [hentries, List.length_map] at hall
      exact absurd hall (by decide)
    · rw [hentries]
      decide
  have hspec := accessSharedMemory_window h hp himg (by decide) hload ht
  cases hrun : accessSharedMemory smallKernel d parent (shareAll (26300 * 4096) 107724800 tenNames) σ with
  | ok out =>
    obtain ⟨r, σ'⟩ := out
    exact absurd (hspec.post hrun).1 hunsafe
  | error e =>
    refine ⟨_, D, X, σ₀, parent, d, σ, _, e, h, hp, himg, hload, ht, hrun, ?_⟩
    rintro ⟨r, es', σ', rs, hok, -⟩
    rw [hrun] at hok
    cases hok

end Xv6Sharing.Process
