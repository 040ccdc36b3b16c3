/-
Xv6Sharing.Vm.Tables — which page-table pages a directory has.

`walkpgdir` adds the page-table page of the address it looks for and no other, so
a mapping operation leaves alone the entries of the directory it has no address
under (`TabsKept`). `setupkvm` maps nothing between `PHYSTOP` and `DEVSPACE`; the
directory entries of that hole stay empty in every address space.
-/
import Xv6Sharing.Vm.Contents

namespace Xv6Sharing.Vm

open Lib

/-- The entries `S` of directory `d` are what they were. -/
def TabsKept (S : Set Nat) (d : Nat) (σ σ' : Phys) : Prop :=
  ∀ j ∈ S, j < 1024 → tabOf σ'.mem d j = tabOf σ.mem d j

/-- The directory entries of the kernel half under which nothing is mapped. -/
def hole : Set Nat := Set.Ico 568 1016

/-- The directory entries that `setupkvm` leaves empty. -/
def unmapped : Set Nat := Set.Iio 512 ∪ hole

section

variable {L : Layout} {D X S : Set Nat} {σ σ' σ'' : Phys} {d v f perm : Nat}

theorem TabsKept.refl (S : Set Nat) (d : Nat) (σ : Phys) : TabsKept S d σ σ := fun _ _ _ => rfl

theorem TabsKept.trans (h : TabsKept S d σ σ') (h' : TabsKept S d σ' σ'') :
    TabsKept S d σ σ'' :=
  fun j hj hlt => (h' j hj hlt).trans (h j hj hlt)

theorem TabsKept.of_sameTables (hs : SameTables D σ.mem σ'.mem) (hd : d ∈ D) :
    TabsKept S d σ σ' :=
  fun j _ hlt => (hs d hd).1 j hlt

/-! ## `setupkvm` -/

theorem mapKernel_tabs (hd : d ∈ D) (ks : List Kmap) (σ : Phys) (h : Sound L D X σ)
    (hfit : ∀ k ∈ ks, k.Fits)
    (hS : ∀ k ∈ ks, ∀ x, k.virt / 4096 ≤ x → x < k.virt / 4096 + k.pages → x / 1024 ∉ S) :
    Spec anyPanic (mapKernel d ks) σ (fun _ σ' => TabsKept S d σ σ') := by
  refine mapKernel_keeps (J := TabsKept S d σ) hd ks σ h hfit
    (fun k hk x hx hx' g hg σ₁ h₁ hJ => ?_) (TabsKept.refl _ _ _)
  have hhigh := (hfit k hk).high
  have htop := (hfit k hk).top
  refine (mapOne_spec (E := anyPanic) h₁ hd (by omega) hg (hfit k hk).perm (fun hc => by omega)
    (fun _ => trivial)).mono fun b σ₂ hr => ?_
  obtain ⟨-, rfl, _⟩ | ⟨-, _, _, _, _, htab⟩ := hr
  · exact hJ
  · exact hJ.trans fun j hj hlt => htab.others j hlt fun he => hS k hk x hx hx' (he ▸ hj)

/-- No entry of `kmap[]` reaches out of the kernel half or into the hole. -/
theorem kmap_unmapped (h : L.data < phystop) : ∀ k ∈ kmap L, ∀ x, k.virt / 4096 ≤ x →
    x < k.virt / 4096 + k.pages → x / 1024 ∉ unmapped := by
  have h1 := L.data_aligned
  have h2 := L.extmem_lt_data
  rw [kmap_eq h]
  unfold extmem at h2
  unfold phystop at h
  intro k hk x hx hx'
  unfold unmapped hole
  rw [Set.mem_union, Set.mem_Iio, Set.mem_Ico]
  simp only [List.mem_cons, List.not_mem_nil, or_false] at hk
  obtain rfl | rfl | rfl | rfl := hk
  all_goals
    simp only [Kmap.pages, u32] at hx hx'
    omega

theorem kmapPte_ne_none {ks : List Kmap} {k : Kmap} (hk : k ∈ ks) (hlow : k.virt / 4096 ≤ v)
    (hlt : v < k.virt / 4096 + k.pages) : kmapPte ks v ≠ none := by
  induction ks with
  | nil => cases hk
  | cons k' ks ih =>
    unfold kmapPte
    split
    · exact Option.some_ne_none _
    · next hout =>
        rcases List.mem_cons.mp hk with rfl | hk
        · exact absurd ⟨hlow, hlt⟩ hout
        · exact ih hk

theorem kmapPte_dev (L : Layout) (hv : 1040384 ≤ v) (hv' : v < 1048576) :
    kmapPte (kmap L) v ≠ none := by
  have hk : (⟨devspace, devspace, 0, pteW⟩ : Kmap) ∈ kmap L := by simp [kmap]
  have hvirt : devspace / 4096 = 1040384 := by decide
  have hpages : (⟨devspace, devspace, 0, pteW⟩ : Kmap).pages = 8192 := by decide
  exact kmapPte_ne_none hk (by rw [hvirt]; exact hv) (by rw [hvirt, hpages]; exact hv')

theorem kmapPte_ram (h : L.data < phystop) (hv : 524288 ≤ v) (hv' : v < 581632) :
    kmapPte (kmap L) v ≠ none := by
  have h1 := L.data_aligned
  have h2 := L.extmem_lt_data
  rw [kmap_eq h]
  unfold extmem at h2
  unfold phystop at h
  unfold kmapPte
  split
  · exact Option.some_ne_none _
  next hlow =>
  refine kmapPte_ne_none (k := if v < 524288 + L.data / 4096 then ⟨0x80100000, 0x100000, L.data, 0⟩
    else ⟨L.data + 0x80000000, L.data, 0xE000000, 2⟩) ?_ ?_ ?_
  · split <;> simp
  all_goals
    simp only [Kmap.pages, u32] at hlow ⊢
    split <;> dsimp only <;> omega

theorem unmapped_lt {j : Nat} (h : j ∈ unmapped) : j < 1024 := by
  rcases h with h | h
  · exact lt_trans h (by decide)
  · exact lt_trans h.2 (by decide)

/-- What holds of an empty directory and is kept by every round holds of the directory
`setupkvm` returns. -/
theorem setupkvm_keeps {J : Nat → Phys → Prop} (h : Sound L D X σ)
    (hnew : ∀ d rest, J d ⟨fillPage σ.mem d 0, rest⟩)
    (hround : ∀ d, L.data < phystop → ∀ k ∈ kmap L, ∀ x, k.virt / 4096 ≤ x →
      x < k.virt / 4096 + k.pages → ∀ g < 1048576, ∀ σ, Sound L (insert d D) X σ → J d σ →
      Spec anyPanic (mapOne d (x * 4096) (g * 4096) k.perm) σ (fun _ σ' => J d σ')) :
    Spec anyPanic (setupkvm L) σ (fun r σ' => ∀ d, r = some d → J d σ') := by
  unfold setupkvm
  cases hfree : σ.freelist with
  | nil =>
    refine Spec.seq_ok (kalloc_none hfree) ?_
    exact Spec.pure fun _ hr => nomatch hr
  | cons d rest =>
    refine Spec.seq_ok (kalloc_some hfree) ?_
    refine Spec.seq_ok (memsetPage_run d 0 _) ?_
    rw [if_neg (show ¬ p2v phystop > devspace by decide)]
    obtain ⟨_, h₁, _⟩ := newDir_free h hfree
    have hdata := (h.pool_of_free (show d ∈ σ.freelist by
      rw [hfree]; exact List.mem_cons_self)).data_lt
    refine Spec.seq (mapKernel_keeps (J := J d) (Set.mem_insert d D) (kmap L) _ h₁
      (kmap_fits hdata) (hround d hdata) (hnew d rest)) (fun b σ₂ hJ => ?_)
    cases b with
    | false =>
      exact Spec.seq (Spec.any fun _ => trivial) fun _ _ _ => Spec.pure fun _ hr => nomatch hr
    | true =>
      refine Spec.pure fun d' hd' => ?_
      cases hd'
      exact hJ

/-- `setupkvm` adds no page tables outside the kernel's mappings. -/
theorem setupkvm_unmapped (h : Sound L D X σ) :
    Spec anyPanic (setupkvm L) σ (fun r σ' => ∀ d, r = some d → ∀ j ∈ unmapped,
      tabOf σ'.mem d j = none) := by
  refine setupkvm_keeps (J := fun d σ' => ∀ j ∈ unmapped, tabOf σ'.mem d j = none) h
    (fun d rest j hj => tabOf_fillPage_zero σ.mem d (unmapped_lt hj))
    fun d hdata k hk x hx hx' g hg σ₁ h₁ hJ => ?_
  have hfit := kmap_fits hdata k hk
  have hhigh := hfit.high
  have htop := hfit.top
  refine (mapOne_spec (E := anyPanic) h₁ (Set.mem_insert d D) (by omega) hg hfit.perm
    (fun hc => by omega) (fun _ => trivial)).mono fun b σ₂ hr j hj => ?_
  obtain ⟨-, rfl, _⟩ | ⟨-, _, _, _, _, htab⟩ := hr
  · exact hJ j hj
  · rw [htab.others j (unmapped_lt hj) fun he => kmap_unmapped hdata k hk x hx hx' (he ▸ hj)]
    exact hJ j hj

/-- `setupkvm` takes 65 frames, for the directory and 64 page-table pages. -/
theorem setupkvm_frames {E : Panic → Prop} (h : Sound L D X σ) (hfree : 65 < σ.freelist.length) :
    Spec E (setupkvm L) σ
      (fun r σ' => r ≠ none ∧ σ'.freelist.length + 65 = σ.freelist.length) := by
  unfold setupkvm
  cases hlist : σ.freelist with
  | nil =>
    rw [hlist] at hfree
    exact absurd hfree (by decide)
  | cons d rest =>
    refine Spec.seq_ok (kalloc_some hlist) ?_
    refine Spec.seq_ok (memsetPage_run d 0 _) ?_
    rw [if_neg (show ¬ p2v phystop > devspace by decide)]
    obtain ⟨_, h₁, _⟩ := newDir_free h hlist
    have hd : d ∈ insert d D := Set.mem_insert d D
    have hdata := (h.pool_of_free (show d ∈ σ.freelist by
      rw [hlist]; exact List.mem_cons_self)).data_lt
    have hnone : ∀ i < 1024, tabOf (fillPage σ.mem d 0) d i = none :=
      fun i hi => tabOf_fillPage_zero σ.mem d hi
    have hmap := (mapKernel_spec (E := E) hd (kmap L) _ h₁ (kmap_fits hdata) (kmap_sorted hdata)
      (fun _ _ x hx _ => pteAt_none_of_tabOf (hnone _ (by omega)))).and
      (mapKernel_tabs (S := unmapped) hd (kmap L) _ h₁ (kmap_fits hdata) (kmap_unmapped hdata))
    refine Spec.seq hmap (fun b σ₂ hr => ?_)
    obtain ⟨⟨_, _, hroom, hfail, hpte⟩, hkept⟩ := hr
    have hcount₀ : tabCount (fillPage σ.mem d 0) d = 0 :=
      Finset.card_eq_zero.mpr (Finset.filter_eq_empty_iff.mpr fun i hi => by
        rw [hnone i (Finset.mem_range.mp hi)]
        simp)
    have hsum := hroom.room
    rw [hcount₀] at hsum
    -- the page-table pages are under entries that are mapped
    have hsub : ((Finset.range 1024).filter fun i => (tabOf σ₂.mem d i).isSome)
        ⊆ Finset.Ico 512 568 ∪ Finset.Ico 1016 1024 := by
      intro i hi
      obtain ⟨hlt, hsome⟩ := Finset.mem_filter.mp hi
      have hlt := Finset.mem_range.mp hlt
      by_contra hout
      rw [Finset.mem_union, Finset.mem_Ico, Finset.mem_Ico] at hout
      rw [hkept i (show i < 512 ∨ 568 ≤ i ∧ i < 1016 by omega) hlt, hnone i hlt] at hsome
      cases hsome
    have hcard : (Finset.Ico 512 568 ∪ Finset.Ico 1016 1024).card = 64 := by
      rw [Finset.card_union_of_disjoint (Finset.disjoint_left.mpr fun i hi hi' => by
        rw [Finset.mem_Ico] at hi hi'
        omega), Nat.card_Ico, Nat.card_Ico]
    have hle : tabCount σ₂.mem d ≤ 64 := hcard ▸ Finset.card_le_card hsub
    rw [hlist, List.length_cons] at hfree
    cases b with
    | false =>
      rw [hfail rfl, List.length_nil] at hsum
      dsimp only at hsum
      exact absurd hfree (by omega)
    | true =>
      refine Spec.pure ⟨Option.some_ne_none d, ?_⟩
      -- and under all of them
      have hge : 64 ≤ tabCount σ₂.mem d := by
        refine hcard ▸ Finset.card_le_card fun i hi => ?_
        rw [Finset.mem_union, Finset.mem_Ico, Finset.mem_Ico] at hi
        have hmapped : pteAt σ₂.mem d (i * 1024) ≠ none := by
          rw [hpte rfl _ (by omega), pteAt_none_of_tabOf (hnone _ (by omega)), Option.or_none]
          rcases hi with hi | hi
          · exact kmapPte_ram hdata (by omega) (by omega)
          · exact kmapPte_dev L (by omega) (by omega)
        refine Finset.mem_filter.mpr ⟨Finset.mem_range.mpr (by omega), ?_⟩
        rw [Option.isSome_iff_ne_none]
        intro htab
        exact hmapped (pteAt_none_of_tabOf (by rwa [Nat.mul_div_cancel _ (by decide)]))
      rw [List.length_cons]
      dsimp only at hsum
      omega

/-! ## The user part -/

/-- The loop of `allocuvm` works under the first 256 entries. -/
theorem allocLoop_tabs {newsz : Nat} (oldsz : Nat) (hd : d ∈ D) (hnew : newsz < sharedbase)
    (hS : ∀ j ∈ S, 256 ≤ j) :
    ∀ (fuel v : Nat) (σ : Phys), Sound L D X σ → v ≤ 262144 → 262144 - v < fuel →
      Spec anyPanic (allocLoop L d oldsz newsz fuel (v * 4096)) σ
        (fun b σ' => b = true → TabsKept S d σ σ') := by
  unfold sharedbase at hnew
  intro fuel
  induction fuel with
  | zero =>
    intro v σ _ _ hfuel
    omega
  | succ fuel ih =>
    intro v σ h hv hfuel
    unfold allocLoop
    by_cases hlt : v * 4096 < newsz
    · rw [if_pos hlt]
      cases hfree : σ.freelist with
      | nil =>
        refine Spec.seq_ok (kalloc_none hfree) ?_
        exact Spec.seq (Spec.any fun _ => trivial) fun _ _ _ => Spec.pure fun hb => by cases hb
      | cons f rest =>
        refine Spec.seq_ok (kalloc_some hfree) ?_
        refine Spec.seq_ok (memsetPage_run f 0 _) ?_
        obtain ⟨hfX, hnt, hf, h₁⟩ := takeFrame h hfree
        have hs₁ : SameTables D σ.mem (fillPage σ.mem f 0) :=
          sameTables_of_notTable hnt fun _ hg => samePage_fillPage hg
        have h₂ : Sound L D (insert f X) ⟨fillPage σ.mem f 0, rest⟩ := h₁.of_sameTables hs₁
        refine Spec.seq ((mapOne_spec (E := anyPanic) h₂ hd (show v < 1048576 by omega)
          (show f < 1048576 by omega) (show pteW ||| pteU < 4096 by decide)
          (fun _ => Set.mem_insert f X) (fun _ => trivial)).of_run_eq
            (mappages_page (by omega) _ _ _)) (fun b σ₂ hr => ?_)
        obtain ⟨rfl, _⟩ | ⟨rfl, _, h₃, _, _, htab⟩ := hr
        · rw [if_neg (by simp)]
          exact Spec.seq (Spec.any fun _ => trivial) fun _ _ _ =>
            Spec.seq (Spec.any fun _ => trivial) fun _ _ _ => Spec.pure fun hb => by cases hb
        · rw [if_pos rfl]
          rw [unhold_user (by omega), Set.insert_sdiff_self_of_notMem hfX] at h₃
          have hnext : u32 (v * 4096 + 4096) = (v + 1) * 4096 := by
            unfold u32
            omega
          rw [hnext]
          have hk₂ : TabsKept S d σ σ₂ := by
            intro j hj hlt'
            have := hS j hj
            rw [htab.others j hlt' (by omega)]
            exact (hs₁ d hd).1 j hlt'
          exact (ih (v + 1) σ₂ h₃ (by omega) (by omega)).mono
            fun b σ₃ hr hb => hk₂.trans (hr hb)
    · rw [if_neg hlt]
      exact Spec.pure fun _ => TabsKept.refl _ _ _

theorem allocuvm_tabs {oldsz newsz : Nat} (h : Sound L D X σ) (hd : d ∈ D)
    (hS : ∀ j ∈ S, 256 ≤ j) :
    Spec anyPanic (allocuvm L d oldsz newsz) σ (fun r σ' => r ≠ 0 → TabsKept S d σ σ') := by
  unfold allocuvm
  by_cases hbig : newsz ≥ sharedbase
  · rw [if_pos hbig]
    exact Spec.pure fun hr => absurd rfl hr
  rw [if_neg hbig]
  by_cases hsmall : newsz < oldsz
  · rw [if_pos hsmall]
    exact Spec.pure fun _ => TabsKept.refl _ _ _
  have hlt : newsz < 1073741824 := by
    unfold sharedbase at hbig
    omega
  have hup : pgroundup oldsz = (oldsz + 4095) / 4096 * 4096 := by
    unfold pgroundup u32
    omega
  rw [if_neg hsmall, hup]
  refine Spec.seq (allocLoop_tabs oldsz hd (by omega) hS pageFuel _ σ h (by omega)
    (by unfold pageFuel; omega)) (fun b σ' hr => ?_)
  cases b with
  | true => exact Spec.pure fun _ => hr rfl
  | false => exact Spec.pure fun hr => absurd rfl hr

theorem clearpteu_tabs (h : Sound L D X σ) (hd : d ∈ D) (hv : v < 1048576) :
    Spec anyPanic (clearpteu d (v * 4096)) σ (fun _ σ' => TabsKept S d σ σ') := by
  have hd0 : d ≠ 0 := Nat.pos_iff_ne_zero.mp (h.ram_dir hd).pos
  refine (clearpteu_kept (K := {d}) hd0 hv fun i hi t ht htd => ?_).mono fun _ σ' hkept j _ hj => ?_
  · exact h.tab_not_dir hd hi ht (htd ▸ hd)
  · exact tabOf_congr (hkept d rfl) hj

end

end Xv6Sharing.Vm
