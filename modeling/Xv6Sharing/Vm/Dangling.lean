/-
Xv6Sharing.Vm.Dangling — a page table whose frames are in use elsewhere.

When the frames of a page table were freed behind its back, the books of
`Vm.Ownership` do not balance: a frame has an old use and a new one. They balance
again for some of the page tables, with every other frame put aside
(`Owned.reassign`). Read in the books of one page table alone, `freevm` does
what it always does, and the frames of its pages end up full of junk, whoever
uses them by then (`freevm_dangling`).
-/
import Xv6Sharing.Vm.Contents
import Xv6Sharing.Vm.Freeing

namespace Xv6Sharing.Vm

open Lib

section

variable {L : Layout} {D D' X X' : Set Nat} {free free' : List Nat} {m m' : Mem} {σ σ' : Phys}
  {d f v : Nat} {E : Panic → Prop}

/-! ## Other books -/

theorem holds_iff (u : FrameUse) :
    Holds m D X u f ↔ Holds m D ∅ u f ∨ (u = .other f ∧ f ∈ X) := by
  cases u with
  | dir e => exact ⟨Or.inl, fun h => h.resolve_right fun hc => FrameUse.noConfusion hc.1⟩
  | tab e i => exact ⟨Or.inl, fun h => h.resolve_right fun hc => FrameUse.noConfusion hc.1⟩
  | page e x => exact ⟨Or.inl, fun h => h.resolve_right fun hc => FrameUse.noConfusion hc.1⟩
  | other g =>
    constructor
    · rintro ⟨hg, rfl⟩
      exact Or.inr ⟨rfl, hg⟩
    · rintro (⟨hg, -⟩ | ⟨heq, hf⟩)
      · exact absurd hg (Set.notMem_empty g)
      · cases heq
        exact ⟨hf, rfl⟩

theorem Holds.mono {u : FrameUse} (h : Holds m D' ∅ u f) (hsub : D' ⊆ D) : Holds m D X u f := by
  cases u with
  | dir e => exact ⟨hsub h.1, h.2⟩
  | tab e i => exact ⟨hsub h.1, h.2⟩
  | page e x => exact ⟨hsub h.1, h.2⟩
  | other g => exact absurd h.1 (Set.notMem_empty g)

/-- The frames that are not free and not held by directories `D`. -/
def restOf (L : Layout) (m : Mem) (free : List Nat) (D : Set Nat) : Set Nat :=
  {f | Ram L f ∧ f ∉ free ∧ ∀ u, ¬ Holds m D ∅ u f}

/-- Books for some of the directories and any free list that has none of their frames. -/
theorem Owned.reassign (h : Owned L m free D X) (hsub : D' ⊆ D) (hnodup : free'.Nodup)
    (hfree : ∀ f ∈ free', Ram L f ∧ ∀ u, ¬ Holds m D' ∅ u f) :
    Owned L m free' D' (restOf L m free' D') := by
  refine ⟨hnodup, fun {u f g} hf hg => ?_, fun {u w f} hu hw => ?_, fun {u f} hu hf => ?_,
    fun f => ⟨fun hram => ?_, ?_⟩⟩
  · rcases (holds_iff u).mp hf with hf | ⟨rfl, -⟩
    · rcases (holds_iff u).mp hg with hg | ⟨rfl, -⟩
      · exact h.func (hf.mono hsub) (hg.mono hsub)
      · exact absurd hf.1 (Set.notMem_empty g)
    · exact hg.2.symm
  · rcases (holds_iff u).mp hu with hu | ⟨rfl, hX⟩
    · rcases (holds_iff w).mp hw with hw | ⟨rfl, hX⟩
      · exact h.inj (hu.mono hsub) (hw.mono hsub)
      · exact absurd hu (hX.2.2 u)
    · rcases (holds_iff w).mp hw with hw | ⟨rfl, -⟩
      · exact absurd hw (hX.2.2 w)
      · rfl
  · rcases (holds_iff u).mp hu with hu | ⟨rfl, hX⟩
    · exact (hfree f hf).2 u hu
    · exact hX.2.1 hf
  · by_cases hf : f ∈ free'
    · exact Or.inl hf
    · by_cases hu : ∃ u, Holds m D' ∅ u f
      · obtain ⟨u, hu⟩ := hu
        exact Or.inr ⟨u, (holds_iff u).mpr (Or.inl hu)⟩
      · exact Or.inr ⟨.other f, ⟨hram, hf, not_exists.mp hu⟩, rfl⟩
  · rintro (hf | ⟨u, hu⟩)
    · exact (hfree f hf).1
    · rcases (holds_iff u).mp hu with hu | ⟨-, hX⟩
      · exact h.pool_of_held (hu.mono hsub)
      · exact hX.1

/-! ## Junk -/

/-- What `kfree` leaves in a frame, its first word apart. -/
def Junk (m : Mem) (f : Nat) : Prop := ∀ i, 0 < i → i < 1024 → word m f i = 0x01010101

theorem junk_junkPage (m : Mem) (f : Nat) (l : List Nat) : Junk (junkPage m f l) f := by
  intro i hpos hi
  unfold junkPage
  rw [word_setWord_of_ne (by decide) hi (Or.inr (by omega)), word_fillPage 1 hi]
  rfl

theorem Junk.of_samePage (h : Junk m f) (hs : SamePage m m' f) : Junk m' f :=
  fun i hpos hi => (hs.word hi).trans (h i hpos hi)

/-! ## `freevm` in books of its own -/

/-- The pages of `d` from `v` on are given back in books that do not know the free list: the
frames are put aside, full of junk. -/
structure Wiped (L : Layout) (D X : Set Nat) (free : List Nat) (d v : Nat) (σ σ' : Phys)
    (X' : Set Nat) : Prop where
  sub : X ⊆ X'
  owned : Owned L σ'.mem free D X'
  kept : Kept X σ σ'
  tabs : ∀ i < 1024, tabOf σ'.mem d i = tabOf σ.mem d i
  junk : ∀ x, v ≤ x → x < 262144 → ∀ w, pteAt σ.mem d x = some w →
    pteFrame w ∈ X' ∧ Junk σ'.mem (pteFrame w)

theorem deallocPte_dangling {t : Nat} (h : Owned L σ.mem free D X) (hd : d ∈ D) (hv : v < 262144)
    (ht : tabOf σ.mem d (v / 1024) = some t) :
    Spec E (deallocPte L (t, v % 1024)) σ (fun _ σ' => ∃ X', X ⊆ X' ∧ Owned L σ'.mem free D X' ∧
      Kept X σ σ' ∧ Edit D d (Function.update (pteAt σ.mem d) v none) σ σ' ∧
      (∀ i < 1024, tabOf σ'.mem d i = tabOf σ.mem d i) ∧
      ∀ w, pteAt σ.mem d v = some w → pteFrame w ∈ X' ∧ Junk σ'.mem (pteFrame w)) := by
  have hlt : v % 1024 < 1024 := Nat.mod_lt _ (by omega)
  unfold deallocPte
  refine Spec.seq_ok (readPte_run _ σ) ?_
  have hpte := pteAt_of_tabOf ht
  cases hpres : present (word σ.mem t (v % 1024)) with
  | false =>
    rw [hpres] at hpte
    refine Spec.pure ⟨X, Set.Subset.rfl, h, Kept.refl _ _, (Edit.refl D d σ).congr fun x _ => ?_,
      fun _ _ => rfl, fun w hw => ?_⟩
    · rw [Function.update_apply]
      by_cases hx : x = v
      · rw [if_pos hx, hx, hpte]
        rfl
      · rw [if_neg hx]
    · rw [hpte] at hw
      cases hw
  | true =>
    rw [if_pos hpres] at hpte
    have hram := h.ram_page hd hv hpte
    have hnot := h.notTable_of_page hd hv hpte
    have htf : t ≠ pteFrame (word σ.mem t (v % 1024)) := fun he =>
      hnot.2 d hd (v / 1024) (by omega) (he ▸ ht)
    rw [if_pos rfl, if_neg (Nat.pos_iff_ne_zero.mp hram.pos)]
    refine Spec.seq_ok (kfree_run hram σ) ?_
    refine Spec.of_ok (writePte_run (t, v % 1024) 0 _) ?_
    simp only
    rw [setWord_junkPage hlt htf]
    have hs := h.setPte hd (by omega) ht (show 0 < 2 ^ 32 by decide)
    have h₁ := h.unmap hs hd hv hpte
    have hj := sameTables_junkPage (h₁.notTable_of_other (Set.mem_insert _ _)) σ.freelist
    refine ⟨_, Set.subset_insert _ _, h₁.of_sameTables hj, fun g hg => ?_, ⟨?_, fun x hx => ?_⟩,
      fun i hi => ?_, fun w hw => ?_⟩
    · -- a frame that is put aside is neither the page nor a page table
      have hgt : g ≠ t := fun he =>
        (h.notTable_of_other hg).2 d hd (v / 1024) (by omega) (he ▸ ht)
      have hgf : g ≠ pteFrame (word σ.mem t (v % 1024)) := fun he =>
        FrameUse.noConfusion (h.inj (u := .other g) ⟨hg, rfl⟩ (w := .page d v)
          ⟨hd, hv, _, hpte, he.symm⟩)
      exact (samePage_setWord hlt hgt).trans (samePage_junkPage hgf)
    · have hs' : SameTables (D \ {d}) σ.mem (setWord σ.mem t (v % 1024) 0) :=
        hs.sameTables Set.sdiff_subset (fun hc => hc.2 rfl)
      exact hs'.trans (hj.mono Set.sdiff_subset)
    · rw [(hj d hd).2 x hx, (hs d hd).2 x hx, Function.update_apply]
      by_cases hxv : x = v
      · rw [if_pos ⟨rfl, hxv⟩, if_pos hxv]
        rfl
      · rw [if_neg (fun hc => hxv hc.2), if_neg hxv]
    · rw [(hj d hd).1 i hi, (hs d hd).1 i hi]
    · rw [hpte] at hw
      cases hw
      exact ⟨Set.mem_insert _ _, junk_junkPage _ _ _⟩

/-- The loop, by induction on the fuel: frames put aside stay as they are, so a frame that is
junk remains junk. -/
theorem deallocLoop_dangling (hd : d ∈ D) : ∀ (fuel v : Nat) (σ : Phys) (X : Set Nat),
    Owned L σ.mem free D X → v ≤ 262144 → 262144 - v < fuel →
    Spec E (deallocLoop L d sharedbase fuel (v * 4096)) σ
      (fun _ σ' => ∃ X', Wiped L D X free d v σ σ' X') := by
  intro fuel
  induction fuel with
  | zero => intro v σ X _ _ hfuel; omega
  | succ fuel ih =>
    intro v σ X h hv hfuel
    have hd0 : d ≠ 0 := Nat.pos_iff_ne_zero.mp (h.ram_dir hd).pos
    unfold deallocLoop
    by_cases hlt : v * 4096 < sharedbase
    · rw [if_pos hlt]
      unfold sharedbase at hlt
      refine Spec.seq_ok (walkpgdir_run hd0 _ σ) ?_
      rw [pdx_page (by omega), ptx_page]
      cases ht : tabOf σ.mem d (v / 1024) with
      | none =>
        have hskip : u32 (u32 (pgaddr (v / 1024 + 1) 0 0 + 2 ^ 32 - 4096) + 4096)
            = (v / 1024 + 1) * 1024 * 4096 := by
          unfold u32 pgaddr u32
          omega
        show Spec E (deallocLoop L d sharedbase fuel _) σ _
        rw [hskip]
        refine (ih _ σ X h (by omega) (by omega)).mono (fun _ σ' hr => ?_)
        obtain ⟨X', hw⟩ := hr
        refine ⟨X', hw.sub, hw.owned, hw.kept, hw.tabs, fun x hx hx' w hxw => ?_⟩
        by_cases hin : x < (v / 1024 + 1) * 1024
        · rw [pteAt_none_of_tabOf (by rw [show x / 1024 = v / 1024 by omega]; exact ht)] at hxw
          cases hxw
        · exact hw.junk x (by omega) hx' w hxw
      | some t =>
        have hnext : u32 (v * 4096 + 4096) = (v + 1) * 4096 := by
          unfold u32
          omega
        show Spec E (deallocPte L (t, v % 1024) >>= fun _ =>
          deallocLoop L d sharedbase fuel (u32 (v * 4096 + 4096))) σ _
        rw [hnext]
        refine Spec.seq (deallocPte_dangling h hd (by omega) ht) (fun _ σ₁ hr => ?_)
        obtain ⟨X₁, hsub₁, h₁, hkept₁, he₁, htabs₁, hjunk₁⟩ := hr
        refine (ih (v + 1) σ₁ X₁ h₁ (by omega) (by omega)).mono (fun _ σ₂ hr => ?_)
        obtain ⟨X₂, hw⟩ := hr
        refine ⟨X₂, hsub₁.trans hw.sub, hw.owned, hkept₁.trans (hw.kept.mono hsub₁),
          fun i hi => (hw.tabs i hi).trans (htabs₁ i hi), fun x hx hx' w hxw => ?_⟩
        by_cases hxv : x = v
        · obtain ⟨hmem, hjunk⟩ := hjunk₁ w (hxv ▸ hxw)
          exact ⟨hw.sub hmem, hjunk.of_samePage (hw.kept _ hmem)⟩
        · refine hw.junk x (by omega) hx' w ?_
          rw [he₁.pte x (by omega), Function.update_of_ne hxv]
          exact hxw
    · rw [if_neg hlt]
      unfold sharedbase at hlt
      exact Spec.pure ⟨X, Set.Subset.rfl, h, Kept.refl _ _, fun _ _ => rfl,
        fun x hx hx' => by omega⟩

/-- `freevm` of a directory, in any books that know it. -/
theorem freevm_dangling (h : Owned L σ.mem free D X) (hd : d ∈ D) :
    Spec E (freevm L d) σ (fun _ σ' => Kept X σ σ' ∧
      ∀ x < 262144, ∀ w, pteAt σ.mem d x = some w → Junk σ'.mem (pteFrame w)) := by
  have hram := h.ram_dir hd
  have hd0 : d ≠ 0 := Nat.pos_iff_ne_zero.mp hram.pos
  unfold freevm deallocuvm
  rw [if_neg hd0, if_neg (by decide)]
  have hloop := deallocLoop_dangling (E := E) hd pageFuel 0 σ X h (by omega)
    (by unfold pageFuel; omega)
  refine Spec.seq (Q := fun _ σ₁ => ∃ X', Wiped L D X free d 0 σ σ₁ X')
    (Spec.seq hloop fun _ σ₁ hr => Spec.pure hr) fun _ σ₁ hr => ?_
  obtain ⟨X₁, hw⟩ := hr
  have htabs : ∀ j < 1024, ∀ t, tabOf σ₁.mem d j = some t → t ∉ X₁ ∧ t ≠ d := fun j hj t ht =>
    ⟨fun hX => (hw.owned.notTable_of_other hX).2 d hd j hj ht,
      fun he => hw.owned.tab_not_dir hd hj ht (he ▸ hd)⟩
  obtain ⟨σ₂, hrun, -⟩ := freeTabs_run (L := L) 1024 0 σ₁ le_rfl fun j hj t ht =>
    ⟨hw.owned.ram_tab hd hj ht, (htabs j hj t ht).2⟩
  have hrest := (freeTabs_kept 1024 0 σ₁ le_rfl htabs).post hrun
  refine Spec.seq_ok hrun (Spec.of_ok (kfree_run hram σ₂) ?_)
  have hkept : Kept X₁ σ₁ ⟨junkPage σ₂.mem d σ₂.freelist, d :: σ₂.freelist⟩ :=
    hrest.trans (Kept.of_other (fun hX => (hw.owned.notTable_of_other hX).1 hd)
      fun g hg => samePage_junkPage hg)
  refine ⟨hw.kept.trans (hkept.mono hw.sub), fun x hx w hxw => ?_⟩
  obtain ⟨hmem, hjunk⟩ := hw.junk x (Nat.zero_le x) hx w hxw
  exact hjunk.of_samePage (hkept _ hmem)

end

end Xv6Sharing.Vm
