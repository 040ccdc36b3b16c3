/-
Xv6Sharing.Vm.Contents — what the page-table code does to the contents of pages.

`Kept K` says that the pages in the frames `K` hold the bytes they held. The
code of vm.c writes the page tables of the directory it works on, the frames it
takes from the free list and the frames it gives back, and no others; so a set
`K` that is `Apart` from the first two is kept, as long as no page of `K` is
given back. Being apart is itself kept, and once a frame has been taken and
mapped it can be added to `K`: that is how the contents of new pages are carried
through the rest of a loop.

What happens to the page tables is said in the modules before this one; here the
same loops are gone through once more for the bytes.
-/
import Xv6Sharing.Vm.CopyTheorems

namespace Xv6Sharing.Vm

open Lib

/-! ## Pages that are left alone -/

/-- The pages in the frames `K` hold the same bytes. -/
def Kept (K : Set Nat) (σ σ' : Phys) : Prop := ∀ f ∈ K, SamePage σ.mem σ'.mem f

/-- No frame of `K` is free or holds page tables of directory `d`. -/
structure Apart (K : Set Nat) (d : Nat) (σ : Phys) : Prop where
  dir : d ∉ K
  tabs : ∀ i < 1024, ∀ t, tabOf σ.mem d i = some t → t ∉ K
  free : ∀ f ∈ σ.freelist, f ∉ K

/-- Any error is allowed. -/
def anyPanic : Panic → Prop := fun _ => True

section

variable {L : Layout} {D X K : Set Nat} {σ σ' σ'' : Phys} {d v f i t : Nat}

theorem Kept.refl (K : Set Nat) (σ : Phys) : Kept K σ σ := fun f _ => SamePage.refl _ f

theorem Kept.trans (h : Kept K σ σ') (h' : Kept K σ' σ'') : Kept K σ σ'' :=
  fun f hf => (h f hf).trans (h' f hf)

theorem Kept.mono {K' : Set Nat} (h : Kept K σ σ') (hsub : K' ⊆ K) : Kept K' σ σ' :=
  fun f hf => h f (hsub hf)

theorem Kept.of_other (hf : f ∉ K) (h : ∀ g, g ≠ f → SamePage σ.mem σ'.mem g) : Kept K σ σ' :=
  fun g hg => h g fun he => hf (he ▸ hg)

theorem Apart.mono {K' : Set Nat} (h : Apart K d σ) (hsub : K' ⊆ K) : Apart K' d σ where
  dir := fun hd => h.dir (hsub hd)
  tabs := fun i hi t ht hK => h.tabs i hi t ht (hsub hK)
  free := fun f hf hK => h.free f hf (hsub hK)

/-- The page tables of `d` and the free list are what they were. -/
theorem Apart.congr (h : Apart K d σ) (ht : ∀ i < 1024, tabOf σ'.mem d i = tabOf σ.mem d i)
    (hf : ∀ f ∈ σ'.freelist, f ∈ σ.freelist) : Apart K d σ' where
  dir := h.dir
  tabs := fun i hi t htab => h.tabs i hi t ((ht i hi).symm.trans htab)
  free := fun f hfree => h.free f (hf f hfree)

/-- A frame that is neither free nor a page table can be protected as well. -/
theorem Apart.insert (h : Apart K d σ) (hd : f ≠ d) (ht : ∀ i < 1024, tabOf σ.mem d i ≠ some f)
    (hfree : f ∉ σ.freelist) : Apart (insert f K) d σ where
  dir := fun hin => (Set.mem_insert_iff.mp hin).elim (fun he => hd he.symm) h.dir
  tabs := fun i hi t htab hin =>
    (Set.mem_insert_iff.mp hin).elim (fun he => ht i hi (he ▸ htab)) (h.tabs i hi t htab)
  free := fun g hg hin =>
    (Set.mem_insert_iff.mp hin).elim (fun he => hfree (he ▸ hg)) (h.free g hg)

/-- The frames of the pages of `d` below address `top`. -/
def framesBelow (m : Mem) (d top : Nat) : Set Nat :=
  {f | ∃ v w, v < 262144 ∧ v * 4096 < top ∧ pteAt m d v = some w ∧ pteFrame w = f}

theorem mem_framesBelow {m : Mem} {top w : Nat} (hv : v < 262144) (htop : v * 4096 < top)
    (hw : pteAt m d v = some w) : pteFrame w ∈ framesBelow m d top := ⟨v, w, hv, htop, hw, rfl⟩

/-- The pages of one directory are apart from the page tables of any. -/
theorem apart_framesBelow {d' : Nat} (h : Sound L D X σ) (hd : d ∈ D) (hd' : d' ∈ D) (top : Nat) :
    Apart (framesBelow σ.mem d' top) d σ where
  dir := by
    rintro ⟨v, w, hv, _, hw, rfl⟩
    exact (h.notTable_of_page hd' hv hw).1 hd
  tabs := by
    rintro i hi t ht ⟨v, w, hv, _, hw, rfl⟩
    exact (h.notTable_of_page hd' hv hw).2 d hd i hi ht
  free := by
    rintro f hf ⟨v, w, hv, _, hw, rfl⟩
    exact h.notFree (u := .page d' v) ⟨hd', hv, w, hw, rfl⟩ hf

/-! ## `walkpgdir` and `mappages` -/

theorem walkpgdir_kept (h : Sound L D X σ) (hd : d ∈ D) (hv : v < 1048576) (ha : Apart K d σ) :
    Spec anyPanic (walkpgdir d (v * 4096) true) σ (fun _ σ' => Kept K σ σ' ∧ Apart K d σ') := by
  unfold walkpgdir
  by_cases hd0 : d = 0
  · rw [if_pos hd0]
    exact Spec.throw trivial
  rw [if_neg hd0, pdx_page hv, ptx_page]
  refine Spec.seq_ok (readPte_run _ σ) ?_
  cases hp : present (word σ.mem d (v / 1024)) with
  | true => exact Spec.pure ⟨Kept.refl _ _, ha⟩
  | false =>
    have habs : tabOf σ.mem d (v / 1024) = none := by
      unfold tabOf
      rw [hp]
      rfl
    show Spec anyPanic (allocTab d (v * 4096)) σ _
    unfold allocTab
    rw [pdx_page hv, ptx_page]
    cases hfree : σ.freelist with
    | nil =>
      refine Spec.seq_ok (kalloc_none hfree) ?_
      exact Spec.pure ⟨Kept.refl _ _, ha⟩
    | cons f rest =>
      refine Spec.seq_ok (kalloc_some hfree) ?_
      refine Spec.seq_ok (memsetPage_run f 0 _) ?_
      refine Spec.seq_ok (writePte_run _ _ _) ?_
      have hi : v / 1024 < 1024 := by omega
      have hf : f ∉ K := ha.free f (by rw [hfree]; exact List.mem_cons_self)
      obtain ⟨_, _, _, h₁⟩ := takeFrame h hfree
      have hview := h₁.addTabView hd hi habs (Set.mem_insert f X)
      refine Spec.pure ⟨fun g hg => ?_, ha.dir, fun j hj t ht => ?_, fun g hg => ?_⟩
      · have hgf : g ≠ f := fun he => hf (he ▸ hg)
        have hgd : g ≠ d := fun he => ha.dir (he ▸ hg)
        exact (samePage_fillPage hgf).trans (samePage_setWord hi hgd)
      · have hview' := ((hview d hd).1 j hj).symm.trans ht
        split at hview'
        · cases hview'
          exact hf
        · exact ha.tabs j hj t hview'
      · exact ha.free g (by rw [hfree]; exact List.mem_cons_of_mem f hg)

theorem mapOne_kept {pa perm : Nat} (h : Sound L D X σ) (hd : d ∈ D) (hv : v < 1048576)
    (hw : pa ||| perm ||| pteP < 2 ^ 32) (ha : Apart K d σ) :
    Spec anyPanic (mapOne d (v * 4096) pa perm) σ (fun _ σ' => Kept K σ σ' ∧ Apart K d σ') := by
  unfold mapOne
  refine Spec.seq ((walkpgdir_kept h hd hv ha).and (walkpgdir_alloc (E := anyPanic) h hd hv))
    (fun r σ₁ hr => ?_)
  obtain ⟨⟨hk₁, ha₁⟩, ⟨rfl, rfl, _⟩ | ⟨t, rfl, ht, h₁, _⟩⟩ := hr
  · exact Spec.pure ⟨hk₁, ha₁⟩
  refine Spec.seq_ok (readPte_run _ σ₁) ?_
  cases hp : present (word σ₁.mem t (v % 1024)) with
  | true => exact Spec.throw trivial
  | false =>
    refine Spec.seq_ok (writePte_run _ _ _) (Spec.pure ⟨hk₁.trans ?_, ?_⟩)
    · have htK : t ∉ K := ha₁.tabs _ (by omega) t ht
      exact Kept.of_other htK fun g hg => samePage_setWord (by omega) hg
    · exact ha₁.congr (fun i hi => ((h₁.setPte hd hv ht hw) d hd).1 i hi) fun _ hf => hf

theorem mappages_kept {pa perm : Nat} (h : Sound L D X σ) (hd : d ∈ D) (hv : v < 1048576)
    (hw : pa ||| perm ||| pteP < 2 ^ 32) (ha : Apart K d σ) :
    Spec anyPanic (mappages d (v * 4096) 4096 pa perm) σ
      (fun _ σ' => Kept K σ σ' ∧ Apart K d σ') :=
  (mapOne_kept h hd hv hw ha).of_run_eq (mappages_page hv _ _ σ)

/-! ## Giving pages back -/

theorem kfree_kept (hf : f < 1048576) (hK : f ∉ K) :
    Spec anyPanic (kfree L f) σ (fun _ σ' => Kept K σ σ' ∧ ∀ g, g ≠ f → SamePage σ.mem σ'.mem g) := by
  have hback : v2p (p2v (f * 4096)) / 4096 = f := by
    unfold v2p p2v u32 kernbase
    omega
  unfold kfree kfreeAddr
  split
  · exact Spec.throw trivial
  · refine Spec.of_ok (modify_run _ σ) ?_
    rw [hback]
    have hother : ∀ g, g ≠ f → SamePage σ.mem (junkPage σ.mem f σ.freelist) g :=
      fun g hg => samePage_junkPage hg
    exact ⟨Kept.of_other hK hother, hother⟩

theorem pteFrame_word_lt (m : Mem) (f i : Nat) : pteFrame (word m f i) < 1048576 := by
  have := word_lt m f i
  unfold pteFrame
  omega

theorem deallocPte_kept (hi : i < 1024) (ht : t ∉ K)
    (hpage : present (word σ.mem t i) → pteFrame (word σ.mem t i) ∉ K) :
    Spec anyPanic (deallocPte L (t, i)) σ (fun _ σ' => Kept K σ σ') := by
  unfold deallocPte
  refine Spec.seq_ok (readPte_run _ σ) ?_
  cases hp : present (word σ.mem t i) with
  | false => exact Spec.pure (Kept.refl _ _)
  | true =>
    rw [if_pos rfl]
    by_cases hzero : pteFrame (word σ.mem t i) = 0
    · rw [if_pos hzero]
      exact Spec.throw trivial
    · rw [if_neg hzero]
      refine Spec.seq (kfree_kept (pteFrame_word_lt _ _ _) (hpage hp)) (fun _ σ₁ hr => ?_)
      refine Spec.of_ok (writePte_run _ _ _) (hr.1.trans ?_)
      exact Kept.of_other ht fun g hg => samePage_setWord hi hg

theorem clearpteu_kept (hd : d ≠ 0) (hv : v < 1048576)
    (htabs : ∀ i < 1024, ∀ t, tabOf σ.mem d i = some t → t ∉ K) :
    Spec anyPanic (clearpteu d (v * 4096)) σ (fun _ σ' => Kept K σ σ') := by
  unfold clearpteu
  refine Spec.seq_ok (walkpgdir_run hd _ σ) ?_
  rw [pdx_page hv, ptx_page]
  cases ht : tabOf σ.mem d (v / 1024) with
  | none => exact Spec.throw trivial
  | some t =>
    refine Spec.seq_ok (readPte_run (t, v % 1024) σ) ?_
    refine Spec.of_ok (writePte_run _ _ _) ?_
    have hi : v % 1024 < 1024 := Nat.mod_lt _ (by decide)
    exact Kept.of_other (htabs _ (by omega) t ht) fun g hg => samePage_setWord hi hg

/-- The loop of `deallocuvm` keeps what is neither a page table of `d` nor one of the
pages it takes away. -/
theorem deallocLoop_kept {oldsz : Nat} (hd : d ∈ D) (hold : oldsz ≤ sharedbase) :
    ∀ (fuel v : Nat) (σ : Phys), Sound L D X σ → v ≤ 262144 → 262144 - v < fuel →
      (∀ i < 1024, ∀ t, tabOf σ.mem d i = some t → t ∉ K) →
      (∀ x, v ≤ x → x * 4096 < oldsz → ∀ w, pteAt σ.mem d x = some w → pteFrame w ∉ K) →
      Spec anyPanic (deallocLoop L d oldsz fuel (v * 4096)) σ (fun _ σ' => Kept K σ σ') := by
  unfold sharedbase at hold
  intro fuel
  induction fuel with
  | zero => intro v σ _ _ hfuel; omega
  | succ fuel ih =>
    intro v σ h hv hfuel htabs hpages
    have hd0 : d ≠ 0 := Nat.pos_iff_ne_zero.mp (h.ram_dir hd).pos
    unfold deallocLoop
    by_cases hlt : v * 4096 < oldsz
    · rw [if_pos hlt]
      refine Spec.seq_ok (walkpgdir_run hd0 _ σ) ?_
      rw [pdx_page (by omega), ptx_page]
      cases ht : tabOf σ.mem d (v / 1024) with
      | none =>
        have hskip : u32 (u32 (pgaddr (v / 1024 + 1) 0 0 + 2 ^ 32 - 4096) + 4096)
            = (v / 1024 + 1) * 1024 * 4096 := by
          unfold u32 pgaddr u32
          omega
        show Spec anyPanic (deallocLoop L d oldsz fuel _) σ _
        rw [hskip]
        exact ih _ σ h (by omega) (by omega) htabs fun x hx => hpages x (by omega)
      | some t =>
        have hnext : u32 (v * 4096 + 4096) = (v + 1) * 4096 := by
          unfold u32
          omega
        show Spec anyPanic (deallocPte L (t, v % 1024) >>= fun _ =>
          deallocLoop L d oldsz fuel (u32 (v * 4096 + 4096))) σ _
        rw [hnext]
        have hround : Spec anyPanic (deallocPte L (t, v % 1024)) σ (fun _ σ' => Kept K σ σ') :=
          deallocPte_kept (by omega) (htabs _ (by omega) t ht) fun hp =>
            hpages v le_rfl hlt _ (by rw [pteAt_of_tabOf ht, if_pos hp])
        refine Spec.seq (hround.and (deallocPte_spec (E := anyPanic) h hd (by omega) ht))
          (fun _ σ₁ hr => ?_)
        obtain ⟨hk₁, h₁, he₁, htabs₁, _⟩ := hr
        refine (ih (v + 1) σ₁ h₁ (by omega) (by omega) ?_ ?_).mono fun _ _ hk => hk₁.trans hk
        · intro i hi t' ht'
          exact htabs i hi t' ((htabs₁ i hi).symm.trans ht')
        · intro x hx hx' w hw
          rw [he₁.pte x (by omega), Function.update_of_ne (by omega)] at hw
          exact hpages x (by omega) hx' w hw
    · rw [if_neg hlt]
      exact Spec.pure (Kept.refl _ _)

theorem deallocuvm_kept {oldsz newsz : Nat} (h : Sound L D X σ) (hd : d ∈ D)
    (hold : oldsz ≤ sharedbase) (htabs : ∀ i < 1024, ∀ t, tabOf σ.mem d i = some t → t ∉ K)
    (hpages : ∀ x, (newsz + 4095) / 4096 ≤ x → x * 4096 < oldsz → ∀ w,
      pteAt σ.mem d x = some w → pteFrame w ∉ K) :
    Spec anyPanic (deallocuvm L d oldsz newsz) σ (fun _ σ' => Kept K σ σ') := by
  have hold' := hold
  unfold sharedbase at hold'
  unfold deallocuvm
  by_cases hge : newsz ≥ oldsz
  · rw [if_pos hge]
    exact Spec.pure (Kept.refl _ _)
  · have hup : pgroundup newsz = (newsz + 4095) / 4096 * 4096 := by
      unfold pgroundup u32
      omega
    rw [if_neg hge, hup]
    refine Spec.seq (deallocLoop_kept hd hold pageFuel _ σ h (by omega)
      (by unfold pageFuel; omega) htabs hpages) (fun _ σ' hk => ?_)
    exact Spec.pure hk

theorem freeTabs_kept : ∀ (n i : Nat) (σ : Phys), i + n ≤ 1024 →
    (∀ j < 1024, ∀ t, tabOf σ.mem d j = some t → t ∉ K ∧ t ≠ d) →
    Spec anyPanic (freeTabs L d n i) σ (fun _ σ' => Kept K σ σ') := by
  intro n
  induction n with
  | zero =>
    intro i σ _ _
    exact Spec.pure (Kept.refl _ _)
  | succ n ih =>
    intro i σ hi htabs
    unfold freeTabs
    refine Spec.seq_ok (readPte_run _ σ) ?_
    cases hp : present (word σ.mem d i) with
    | false => exact ih (i + 1) σ (by omega) htabs
    | true =>
      have hsome : tabOf σ.mem d i = some (pteFrame (word σ.mem d i)) := by
        unfold tabOf
        rw [if_pos hp]
      obtain ⟨hK, hne⟩ := htabs i (by omega) _ hsome
      refine Spec.seq (kfree_kept (pteFrame_word_lt _ _ _) hK) (fun _ σ₁ hr => ?_)
      obtain ⟨hk₁, hother⟩ := hr
      refine (ih (i + 1) σ₁ (by omega) fun j hj t ht => ?_).mono fun _ _ hk => hk₁.trans hk
      exact htabs j hj t ((tabOf_congr (hother d (Ne.symm hne)) hj).symm.trans ht)

/-- `freevm` keeps what directory `d` does not hold. -/
theorem freevm_kept (h : Sound L D X σ) (hd : d ∈ D) (hdK : d ∉ K)
    (htabs : ∀ i < 1024, ∀ t, tabOf σ.mem d i = some t → t ∉ K)
    (hpages : ∀ x < 262144, ∀ w, pteAt σ.mem d x = some w → pteFrame w ∉ K) :
    Spec anyPanic (freevm L d) σ (fun _ σ' => Kept K σ σ') := by
  have hram := h.ram_dir hd
  unfold freevm
  rw [if_neg (Nat.pos_iff_ne_zero.mp hram.pos)]
  have hdrop : Spec anyPanic (deallocuvm L d sharedbase 0) σ (fun _ σ' => Kept K σ σ') :=
    deallocuvm_kept h hd le_rfl htabs fun x _ hx => hpages x (by unfold sharedbase at hx; omega)
  refine Spec.seq (hdrop.and (deallocuvm_spec (E := anyPanic) 0 h hd le_rfl)) (fun _ σ₁ hr => ?_)
  obtain ⟨hk₁, _, h₁, _, htabs₁, _⟩ := hr
  have hfree : Spec anyPanic (freeTabs L d 1024 0) σ₁ (fun _ σ' => Kept K σ₁ σ') := by
    refine freeTabs_kept 1024 0 σ₁ (by omega) fun j hj t ht => ?_
    refine ⟨htabs j hj t ((htabs₁ j hj).symm.trans ht), ?_⟩
    rintro rfl
    exact h₁.tab_not_dir hd hj ht hd
  refine Spec.seq hfree (fun _ σ₂ hk₂ => ?_)
  refine (kfree_kept (by have := hram.lt; omega) hdK).mono fun _ _ hk => ?_
  exact (hk₁.trans hk₂).trans hk.1

/-! ## `setupkvm` -/

/-- What every round keeps, the loop of `mappages` in the kernel half keeps. -/
theorem mappagesLoop_keeps {J : Phys → Prop} {perm : Nat} (hd : d ∈ D) (hperm : perm < 4096) :
    ∀ (n fuel v f : Nat) (σ : Phys), Sound L D X σ → 262144 ≤ v → v + n < 1048576 →
      f + n < 1048576 →
      (∀ x, v ≤ x → x ≤ v + n → ∀ g < 1048576, ∀ σ, Sound L D X σ → J σ →
        Spec anyPanic (mapOne d (x * 4096) (g * 4096) perm) σ (fun _ σ' => J σ')) →
      J σ → Spec anyPanic (mappagesLoop d ((v + n) * 4096) perm fuel (v * 4096) (f * 4096)) σ
        (fun _ σ' => J σ') := by
  intro n fuel
  induction fuel generalizing n with
  | zero =>
    intro v f σ _ _ _ _ _ _
    exact Spec.throw trivial
  | succ fuel ih =>
    intro v f σ h hlow hv hf hround hJ
    unfold mappagesLoop
    refine Spec.seq ((hround v le_rfl (by omega) f (by omega) σ h hJ).and
      (mapOne_spec (E := anyPanic) h hd (by omega) (by omega) hperm (fun hc => by omega)
        (fun _ => trivial))) (fun b σ₁ hr => ?_)
    obtain ⟨hJ₁, ⟨rfl, _⟩ | ⟨rfl, _, h₁, _⟩⟩ := hr
    · exact Spec.pure hJ₁
    rw [unhold_high hlow] at h₁
    rw [if_pos rfl]
    cases n with
    | zero =>
      rw [Nat.add_zero, if_pos rfl]
      exact Spec.pure hJ₁
    | succ n =>
      have hnext : u32 (v * 4096 + 4096) = (v + 1) * 4096 := by
        unfold u32
        omega
      have hnextf : u32 (f * 4096 + 4096) = (f + 1) * 4096 := by
        unfold u32
        omega
      rw [if_neg (by omega), hnext, hnextf, show v + (n + 1) = v + 1 + n by omega]
      exact ih n (v + 1) (f + 1) σ₁ h₁ (by omega) (by omega) (by omega)
        (fun x hx hx' => hround x (by omega) (by omega)) hJ₁

theorem mapKernel_keeps {J : Phys → Prop} (hd : d ∈ D) : ∀ (ks : List Kmap) (σ : Phys),
    Sound L D X σ → (∀ k ∈ ks, k.Fits) →
    (∀ k ∈ ks, ∀ x, k.virt / 4096 ≤ x → x < k.virt / 4096 + k.pages → ∀ g < 1048576, ∀ σ,
      Sound L D X σ → J σ →
      Spec anyPanic (mapOne d (x * 4096) (g * 4096) k.perm) σ (fun _ σ' => J σ')) →
    J σ → Spec anyPanic (mapKernel d ks) σ (fun _ σ' => J σ') := by
  intro ks
  induction ks with
  | nil =>
    intro σ _ _ _ hJ
    exact Spec.pure hJ
  | cons k ks ih =>
    intro σ h hfits hround hJ
    have hk := hfits k List.mem_cons_self
    have hhigh := hk.high
    have htop := hk.top
    have hphys := hk.phys
    obtain ⟨n, hn⟩ := Nat.exists_eq_add_of_lt hk.pos
    rw [Nat.zero_add] at hn
    unfold mapKernel
    dsimp only
    rw [hk.mappages_eq]
    have hmap : Spec anyPanic (mappages d (k.virt / 4096 * 4096) (k.pages * 4096)
        (k.physStart / 4096 * 4096) k.perm) σ (fun _ σ' => J σ') := by
      rw [hn, mappages_eq_loop (by omega)]
      exact mappagesLoop_keeps hd hk.perm n pageFuel _ _ σ h (by omega) (by omega) (by omega)
        (fun x hx hx' => hround k List.mem_cons_self x hx (by omega)) hJ
    refine Spec.seq (hmap.and (mappages_spec (E := anyPanic) h hd hk.perm (by omega) hk.pos
      htop hphys (fun _ _ _ _ => trivial))) (fun b σ₁ hr => ?_)
    obtain ⟨hJ₁, h₁, _⟩ := hr
    cases b with
    | false => exact Spec.pure hJ₁
    | true =>
      rw [if_pos rfl]
      exact ih σ₁ h₁ (fun k' hk' => hfits k' (List.mem_cons_of_mem _ hk'))
        (fun k' hk' => hround k' (List.mem_cons_of_mem _ hk')) hJ₁

theorem mapKernel_kept (hd : d ∈ D) (ks : List Kmap) (σ : Phys) (h : Sound L D X σ)
    (hfits : ∀ k ∈ ks, k.Fits) (ha : Apart K d σ) :
    Spec anyPanic (mapKernel d ks) σ (fun _ σ' => Kept K σ σ' ∧ Apart K d σ') := by
  refine mapKernel_keeps (J := fun σ' => Kept K σ σ' ∧ Apart K d σ') hd ks σ h hfits
    (fun k hk x hx hx' g hg σ₁ h₁ hJ => ?_) ⟨Kept.refl _ _, ha⟩
  have htop := (hfits k hk).top
  exact (mapOne_kept h₁ hd (by omega) (mk_lt hg (hfits k hk).perm) hJ.2).mono
    fun _ _ hr => ⟨hJ.1.trans hr.1, hr.2⟩

/-- A new page directory is apart from everything that was not free. -/
theorem setupkvm_kept (h : Sound L D X σ) (hfree : ∀ f ∈ σ.freelist, f ∉ K) :
    Spec anyPanic (setupkvm L) σ (fun r σ' => Kept K σ σ' ∧ ∀ d, r = some d → Apart K d σ') := by
  unfold setupkvm
  cases hlist : σ.freelist with
  | nil =>
    refine Spec.seq_ok (kalloc_none hlist) ?_
    exact Spec.pure ⟨Kept.refl _ _, fun d hd => by cases hd⟩
  | cons d rest =>
    refine Spec.seq_ok (kalloc_some hlist) ?_
    refine Spec.seq_ok (memsetPage_run d 0 _) ?_
    rw [if_neg (show ¬ p2v phystop > devspace by decide)]
    obtain ⟨_, h₁, _⟩ := newDir_free h hlist
    have hd : d ∈ insert d D := Set.mem_insert d D
    have hdfree : d ∈ σ.freelist := by
      rw [hlist]
      exact List.mem_cons_self
    have hdata := (h.pool_of_free hdfree).data_lt
    have hdK : d ∉ K := hfree d hdfree
    have hnone : ∀ i < 1024, tabOf (fillPage σ.mem d 0) d i = none :=
      fun i hi => tabOf_fillPage_zero σ.mem d hi
    have hk₁ : Kept K σ ⟨fillPage σ.mem d 0, rest⟩ :=
      Kept.of_other hdK fun g hg => samePage_fillPage hg
    have ha₁ : Apart K d ⟨fillPage σ.mem d 0, rest⟩ := by
      refine ⟨hdK, fun i hi t ht => ?_, fun f hf => hfree f ?_⟩
      · rw [hnone i hi] at ht
        cases ht
      · rw [hlist]
        exact List.mem_cons_of_mem d hf
    refine Spec.seq ((mapKernel_kept hd (kmap L) _ h₁ (kmap_fits hdata) ha₁).and
      (mapKernel_spec (E := anyPanic) hd (kmap L) _ h₁ (kmap_fits hdata) (kmap_sorted hdata)
        (fun _ _ x hx _ => pteAt_none_of_tabOf (hnone _ (by omega))))) (fun b σ₂ hr => ?_)
    obtain ⟨⟨hk₂, ha₂⟩, h₂, _, hroom, _⟩ := hr
    cases b with
    | true =>
      refine Spec.pure ⟨hk₁.trans hk₂, fun d' hd' => ?_⟩
      cases hd'
      exact ha₂
    | false =>
      rw [if_neg (by simp)]
      refine Spec.seq (freevm_kept h₂ hd hdK ha₂.tabs fun x hx w hw => ?_) (fun _ σ₃ hk₃ => ?_)
      · -- the directory never got a page-table page below the kernel's
        have htab : tabOf σ₂.mem d (x / 1024) = none :=
          (hroom.low (x / 1024) (by omega) (by omega)).trans (hnone _ (by omega))
        rw [pteAt_none_of_tabOf htab] at hw
        cases hw
      · exact Spec.pure ⟨(hk₁.trans hk₂).trans hk₃, fun d hd => by cases hd⟩

/-! ## New pages -/

/-- Every byte of frame `f` is 0. -/
def ZeroPage (m : Mem) (f : Nat) : Prop := ∀ x, x / 4096 = f → m x = 0

theorem ZeroPage.of_samePage {m m' : Mem} (h : ZeroPage m f) (hs : SamePage m m' f) :
    ZeroPage m' f :=
  fun x hx => (hs x hx).trans (h x hx)

theorem zeroPage_fillPage (m : Mem) (f : Nat) : ZeroPage (fillPage m f 0) f := by
  intro x hx
  simp [fillPage, hx]

/-- A frame is taken from the free list, written and mapped: from then on it is protected,
with what was written. -/
theorem mapFresh_kept {perm : Nat} {m₁ : Mem} {rest : List Nat} (h : Sound L D X σ) (hd : d ∈ D)
    (hfree : σ.freelist = f :: rest) (hm : ∀ g, g ≠ f → SamePage σ.mem m₁ g)
    (ha : Apart K d σ) (hv : v < 1048576) (hperm : perm < 4096) :
    Spec anyPanic (mappages d (v * 4096) 4096 (f * 4096) perm) ⟨m₁, rest⟩ (fun _ σ' =>
      Kept K σ σ' ∧ SamePage m₁ σ'.mem f ∧ Apart (insert f K) d σ') := by
  obtain ⟨_, hnt, hf, h₁⟩ := takeFrame h hfree
  have hmem : f ∈ σ.freelist := by
    rw [hfree]
    exact List.mem_cons_self
  have hs : SameTables D σ.mem m₁ := sameTables_of_notTable hnt hm
  have h₂ : Sound L D (insert f X) ⟨m₁, rest⟩ := h₁.of_sameTables hs
  have ha₂ : Apart K d ⟨m₁, rest⟩ := by
    refine ha.congr (fun i hi => (hs d hd).1 i hi) fun g hg => ?_
    rw [hfree]
    exact List.mem_cons_of_mem f hg
  have ha₃ : Apart (insert f K) d ⟨m₁, rest⟩ := by
    refine ha₂.insert (fun he => hnt.1 (he ▸ hd)) (fun i hi ht => ?_) fun hin => ?_
    · exact hnt.2 d hd i hi (((hs d hd).1 i hi).symm.trans ht)
    · have hnodup := h.nodup
      rw [hfree] at hnodup
      exact (List.nodup_cons.mp hnodup).1 hin
  have hk₁ : Kept K σ ⟨m₁, rest⟩ := Kept.of_other (ha.free f hmem) hm
  refine (mappages_kept h₂ hd hv (mk_lt (by omega) hperm) ha₃).mono fun _ σ' hr => ?_
  exact ⟨hk₁.trans (hr.1.mono (Set.subset_insert f K)), hr.1 f (Set.mem_insert f K), hr.2⟩

/-- The loop of `allocuvm`. The frames `K₀` are kept whatever happens; if the loop gets to
its end, those in `K` are, and the pages it mapped are zero. -/
theorem allocLoop_contents {newsz : Nat} {K₀ : Set Nat} (oldsz : Nat) (hd : d ∈ D)
    (hnew : newsz < sharedbase) :
    ∀ (fuel v : Nat) (σ : Phys) (K : Set Nat), K₀ ⊆ K → Sound L D X σ →
      (oldsz + 4095) / 4096 ≤ v → v ≤ 262144 → 262144 - v < fuel → Apart K d σ →
      (∀ x, (oldsz + 4095) / 4096 ≤ x → x * 4096 < newsz → ∀ w, pteAt σ.mem d x = some w →
        pteFrame w ∉ K₀) →
      Spec anyPanic (allocLoop L d oldsz newsz fuel (v * 4096)) σ (fun b σ' => Kept K₀ σ σ' ∧
        (b = true → Kept K σ σ' ∧ Apart K d σ' ∧ ∀ x, v ≤ x → x * 4096 < newsz → ∀ w,
          pteAt σ'.mem d x = some w → ZeroPage σ'.mem (pteFrame w))) := by
  unfold sharedbase at hnew
  intro fuel
  induction fuel with
  | zero =>
    intro v σ K _ _ _ _ hfuel
    omega
  | succ fuel ih =>
    intro v σ K hsub h hold hv hfuel ha hpages
    unfold allocLoop
    by_cases hlt : v * 4096 < newsz
    · rw [if_pos hlt]
      cases hfree : σ.freelist with
      | nil =>
        refine Spec.seq_ok (kalloc_none hfree) ?_
        refine Spec.seq (deallocuvm_kept h hd (by unfold sharedbase; omega)
          (ha.mono hsub).tabs hpages) (fun _ σ' hk => ?_)
        exact Spec.pure ⟨hk, fun hb => by cases hb⟩
      | cons f rest =>
        refine Spec.seq_ok (kalloc_some hfree) ?_
        refine Spec.seq_ok (memsetPage_run f 0 _) ?_
        obtain ⟨hfX, hnt, hf, h₁⟩ := takeFrame h hfree
        have hm : ∀ g, g ≠ f → SamePage σ.mem (fillPage σ.mem f 0) g :=
          fun _ hg => samePage_fillPage hg
        have hs₁ : SameTables D σ.mem (fillPage σ.mem f 0) := sameTables_of_notTable hnt hm
        have h₂ : Sound L D (insert f X) ⟨fillPage σ.mem f 0, rest⟩ := h₁.of_sameTables hs₁
        have hfK₀ : f ∉ K₀ := fun hin =>
          ha.free f (by rw [hfree]; exact List.mem_cons_self) (hsub hin)
        refine Spec.seq ((mapFresh_kept h hd hfree hm ha (by omega) (by decide)).and
          (mapUser_spec (E := anyPanic) h₂ hfX hd (by omega) hf (by decide)
            (fun _ => trivial))) (fun b σ₂ hr => ?_)
        obtain ⟨⟨hk₂, hzero, ha₂⟩, ⟨rfl, rfl, _⟩ | ⟨rfl, h₃, he, _⟩⟩ := hr
        · -- the pages mapped so far go back, and so does the frame in hand
          rw [if_neg (by simp)]
          have hpages₂ : ∀ x, (oldsz + 4095) / 4096 ≤ x → x * 4096 < newsz → ∀ w,
              pteAt (fillPage σ.mem f 0) d x = some w → pteFrame w ∉ K₀ := by
            intro x hx hx' w hw
            rw [(hs₁ d hd).2 x (by omega)] at hw
            exact hpages x hx hx' w hw
          have hsub₂ : K₀ ⊆ insert f K := hsub.trans (Set.subset_insert f K)
          refine Spec.seq (deallocuvm_kept h₂ hd (by unfold sharedbase; omega)
            (ha₂.mono hsub₂).tabs hpages₂) (fun _ σ₃ hk₃ => ?_)
          refine Spec.seq (kfree_kept (by omega) hfK₀) (fun _ σ₄ hk₄ => ?_)
          exact Spec.pure ⟨((hk₂.mono hsub).trans hk₃).trans hk₄.1, fun hb => by cases hb⟩
        · rw [if_pos rfl]
          have hnext : u32 (v * 4096 + 4096) = (v + 1) * 4096 := by
            unfold u32
            omega
          rw [hnext]
          have hpages₂ : ∀ x, (oldsz + 4095) / 4096 ≤ x → x * 4096 < newsz → ∀ w,
              pteAt σ₂.mem d x = some w → pteFrame w ∉ K₀ := by
            intro x hx hx' w hw
            rw [he.pte x (by omega), Function.update_apply] at hw
            split at hw
            · cases hw
              rw [pteFrame_mk (by decide)]
              exact hfK₀
            · rw [(hs₁ d hd).2 x (by omega)] at hw
              exact hpages x hx hx' w hw
          have hgo := ih (v + 1) σ₂ (insert f K) (hsub.trans (Set.subset_insert f K)) h₃
            (by omega) (by omega) (by omega) ha₂ hpages₂
          refine (hgo.and (allocLoop_spec (E := anyPanic) oldsz hd
            (by unfold sharedbase; omega) fuel (v + 1) σ₂ h₃ (by omega) (by omega) (by omega)
            (fun _ _ _ _ => trivial))).mono fun b σ₃ hr => ?_
          obtain ⟨⟨hk₃, hdone⟩, _, _, hcase⟩ := hr
          refine ⟨(hk₂.mono hsub).trans hk₃, fun hb => ?_⟩
          obtain ⟨hk, ha₃, hrest⟩ := hdone hb
          refine ⟨hk₂.trans (hk.mono (Set.subset_insert f K)),
            ha₃.mono (Set.subset_insert f K), fun x hx hx' w hw => ?_⟩
          obtain ⟨_, hfill, _⟩ | ⟨hb', _⟩ := hcase
          · by_cases hxv : x = v
            · rw [hfill.outside x (by omega) (by omega), he.pte x (by omega), hxv,
                Function.update_self] at hw
              cases hw
              rw [pteFrame_mk (by decide)]
              have hsame : SamePage (fillPage σ.mem f 0) σ₃.mem f :=
                hzero.trans (hk f (Set.mem_insert f K))
              exact (zeroPage_fillPage σ.mem f).of_samePage hsame
            · exact hrest x (by omega) hx' w hw
          · rw [hb] at hb'
            cases hb'
    · rw [if_neg hlt]
      exact Spec.pure ⟨Kept.refl _ _, fun _ => ⟨Kept.refl _ _, ha, fun x hx hx' => by omega⟩⟩

theorem allocuvm_contents {oldsz newsz : Nat} {K₀ : Set Nat} (hsub : K₀ ⊆ K) (h : Sound L D X σ)
    (hd : d ∈ D) (ha : Apart K d σ)
    (hpages : newsz < sharedbase → ∀ x, (oldsz + 4095) / 4096 ≤ x → x * 4096 < newsz → ∀ w,
      pteAt σ.mem d x = some w → pteFrame w ∉ K₀) :
    Spec anyPanic (allocuvm L d oldsz newsz) σ (fun r σ' => Kept K₀ σ σ' ∧
      (r ≠ 0 → Kept K σ σ' ∧ Apart K d σ' ∧ ∀ x, (oldsz + 4095) / 4096 ≤ x → x * 4096 < newsz →
        ∀ w, pteAt σ'.mem d x = some w → ZeroPage σ'.mem (pteFrame w))) := by
  unfold allocuvm
  by_cases hbig : newsz ≥ sharedbase
  · rw [if_pos hbig]
    exact Spec.pure ⟨Kept.refl _ _, fun hr => absurd rfl hr⟩
  rw [if_neg hbig]
  by_cases hsmall : newsz < oldsz
  · rw [if_pos hsmall]
    exact Spec.pure ⟨Kept.refl _ _, fun _ => ⟨Kept.refl _ _, ha, fun x hx hx' => by omega⟩⟩
  have hlt : newsz < 1073741824 := by
    unfold sharedbase at hbig
    omega
  have hup : pgroundup oldsz = (oldsz + 4095) / 4096 * 4096 := by
    unfold pgroundup u32
    omega
  rw [if_neg hsmall, hup]
  refine Spec.seq (allocLoop_contents oldsz hd (by omega) pageFuel _ σ K hsub h le_rfl (by omega)
    (by unfold pageFuel; omega) ha (hpages (by omega))) (fun b σ' hr => ?_)
  cases b with
  | true => exact Spec.pure ⟨hr.1, fun _ => hr.2 rfl⟩
  | false => exact Spec.pure ⟨hr.1, fun hr => absurd rfl hr⟩

/-! ## `copyuvm` -/

/-- Page `f` of `m'` holds the bytes of page `g` of `m`. -/
def CopiedPage (m : Mem) (g : Nat) (m' : Mem) (f : Nat) : Prop :=
  ∀ x < 4096, m' (f * 4096 + x) = m (g * 4096 + x)

theorem copiedPage_copyPage (m : Mem) (g f : Nat) : CopiedPage m g (copyPage m f g) f := by
  intro x hx
  unfold copyPage
  rw [if_pos (by omega), show (f * 4096 + x) % 4096 = x by omega]

theorem CopiedPage.of_samePage {m m' m'' : Mem} {g : Nat} (h : CopiedPage m g m' f)
    (hs : SamePage m' m'' f) : CopiedPage m g m'' f :=
  fun x hx => (hs _ (by omega)).trans (h x hx)

theorem CopiedPage.of_source {m m' m₁ : Mem} {g : Nat} (h : CopiedPage m₁ g m' f)
    (hs : SamePage m m₁ g) : CopiedPage m g m' f :=
  fun x hx => (h x hx).trans (hs _ (by omega))

theorem framesBelow_congr {m m' : Mem} (h : ∀ v < 1048576, pteAt m' d v = pteAt m d v)
    (top : Nat) : framesBelow m' d top = framesBelow m d top := by
  ext f
  constructor
  · rintro ⟨v, w, hv, hlt, hw, hf⟩
    exact ⟨v, w, hv, hlt, (h v (by omega)).symm.trans hw, hf⟩
  · rintro ⟨v, w, hv, hlt, hw, hf⟩
    exact ⟨v, w, hv, hlt, (h v (by omega)).trans hw, hf⟩

/-- The loop of `copyuvm`, by induction on the fuel: the frames `K`, among them those it
copies from, are kept, and each page it mapped holds the bytes of its source. -/
theorem copyLoop_contents {p sz : Nat} (hd : d ∈ D) (hp : p ∈ D) (hne : p ≠ d)
    (hsz : sz ≤ sharedbase) :
    ∀ (fuel v : Nat) (σ : Phys) (K : Set Nat), framesBelow σ.mem p sz ⊆ K → Sound L D X σ →
      v ≤ 262144 → 262144 - v < fuel → Apart K d σ →
      Spec anyPanic (copyLoop L d p sz fuel (v * 4096)) σ (fun b σ' => Kept K σ σ' ∧
        (b = true → ∀ x, v ≤ x → x * 4096 < sz → ∀ w w', pteAt σ.mem p x = some w →
          pteAt σ'.mem d x = some w' →
          CopiedPage σ.mem (pteFrame w) σ'.mem (pteFrame w'))) := by
  unfold sharedbase at hsz
  intro fuel
  induction fuel with
  | zero =>
    intro v σ K _ _ _ hfuel
    omega
  | succ fuel ih =>
    intro v σ K hsub h hv hfuel ha
    have hp0 : p ≠ 0 := Nat.pos_iff_ne_zero.mp (h.ram_dir hp).pos
    unfold copyLoop
    by_cases hlt : v * 4096 < sz
    · rw [if_pos hlt]
      refine Spec.seq_ok (walkpgdir_run hp0 _ σ) ?_
      rw [pdx_page (by omega), ptx_page]
      cases ht : tabOf σ.mem p (v / 1024) with
      | none => exact Spec.throw trivial
      | some t =>
        refine Spec.seq_ok (readPte_run (t, v % 1024) σ) ?_
        have hpte := pteAt_of_tabOf ht
        cases hpres : present (word σ.mem t (v % 1024)) with
        | false =>
          rw [if_neg (by simp)]
          exact Spec.throw trivial
        | true =>
          rw [if_pos hpres] at hpte
          rw [if_pos rfl]
          generalize word σ.mem t (v % 1024) = w at hpte hpres
          cases hfree : σ.freelist with
          | nil =>
            refine Spec.seq_ok (kalloc_none hfree) ?_
            exact Spec.pure ⟨Kept.refl _ _, fun hb => by cases hb⟩
          | cons f rest =>
            refine Spec.seq_ok (kalloc_some hfree) ?_
            refine Spec.seq_ok (modify_run _ _) ?_
            obtain ⟨hfX, hnt, hf, h₁⟩ := takeFrame h hfree
            have hm : ∀ g, g ≠ f → SamePage σ.mem (copyPage σ.mem f (pteFrame w)) g :=
              fun _ hg => samePage_copyPage hg
            have hs₁ := sameTables_of_notTable hnt hm
            have h₂ : Sound L D (insert f X) ⟨copyPage σ.mem f (pteFrame w), rest⟩ :=
              h₁.of_sameTables hs₁
            have hflags : pteFlags w < 4096 := Nat.mod_lt _ (by decide)
            have hfK : f ∉ K := ha.free f (by rw [hfree]; exact List.mem_cons_self)
            refine Spec.seq ((mapFresh_kept h hd hfree hm ha (by omega) hflags).and
              (mapUser_spec (E := anyPanic) h₂ hfX hd (by omega) hf hflags
                (fun _ => trivial))) (fun b σ₂ hr => ?_)
            obtain ⟨⟨hk₂, hcopy, ha₂⟩, ⟨rfl, rfl, _⟩ | ⟨rfl, h₃, he, _⟩⟩ := hr
            · rw [if_neg (by simp)]
              refine Spec.seq (kfree_kept (by omega) hfK) (fun _ σ₄ hk₄ => ?_)
              exact Spec.pure ⟨hk₂.trans hk₄.1, fun hb => by cases hb⟩
            · rw [if_pos rfl]
              have hnext : u32 (v * 4096 + 4096) = (v + 1) * 4096 := by
                unfold u32
                omega
              rw [hnext]
              have hsrc : ∀ x < 1048576, pteAt σ₂.mem p x = pteAt σ.mem p x := by
                intro x hx
                rw [(he.others p ⟨hp, hne⟩).2 x hx]
                exact (hs₁ p hp).2 x hx
              have hsub₂ : framesBelow σ₂.mem p sz ⊆ insert f K := by
                rw [framesBelow_congr hsrc]
                exact hsub.trans (Set.subset_insert f K)
              refine ((ih (v + 1) σ₂ (insert f K) hsub₂ h₃ (by omega) (by omega) ha₂).and
                (copyLoop_spec (E := anyPanic) hd hp hne (by unfold sharedbase; omega) fuel
                  (v + 1) σ₂ h₃ (by omega) (by omega) (fun _ _ _ _ => trivial)
                  (fun _ _ _ _ => ⟨trivial, trivial⟩))).mono fun b σ₃ hr => ?_
              obtain ⟨⟨hk₃, hdone⟩, _, _, hcase⟩ := hr
              refine ⟨hk₂.trans (hk₃.mono (Set.subset_insert f K)),
                fun hb x hx hx' w₁ w' hw₁ hw' => ?_⟩
              obtain ⟨_, _, hout, _⟩ | ⟨hb', _⟩ := hcase
              · by_cases hxv : x = v
                · -- the page of this round
                  rw [hout x (by omega) (by omega), he.pte x (by omega), hxv,
                    Function.update_self] at hw'
                  cases hw'
                  rw [hxv, hpte] at hw₁
                  cases hw₁
                  rw [pteFrame_mk hflags]
                  exact (copiedPage_copyPage σ.mem (pteFrame w) f).of_samePage
                    (hcopy.trans (hk₃ f (Set.mem_insert f K)))
                · have hw₂ : pteAt σ₂.mem p x = some w₁ := (hsrc x (by omega)).trans hw₁
                  have hcopied := hdone hb x (by omega) hx' w₁ w' hw₂ hw'
                  exact hcopied.of_source
                    (hk₂ _ (hsub (mem_framesBelow (by omega) hx' hw₁)))
              · rw [hb] at hb'
                cases hb'
    · rw [if_neg hlt]
      exact Spec.pure ⟨Kept.refl _ _, fun _ x hx hx' => by omega⟩

/-- `copyuvm` leaves the pages it copies alone, and the copies hold the same bytes. -/
theorem copyuvm_contents {p sz : Nat} (h : Sound L D X σ) (hp : p ∈ D) (hsz : sz ≤ sharedbase) :
    Spec anyPanic (copyuvm L p sz) σ (fun r σ' => Kept (framesBelow σ.mem p sz) σ σ' ∧
      ∀ d, r = some d → ∀ x, x * 4096 < sz → ∀ w w', pteAt σ.mem p x = some w →
        pteAt σ'.mem d x = some w' →
        CopiedPage σ.mem (pteFrame w) σ'.mem (pteFrame w')) := by
  have hsz' := hsz
  unfold sharedbase at hsz'
  unfold copyuvm
  refine Spec.seq ((setupkvm_kept h (apart_framesBelow h hp hp sz).free).and
    (setupkvm_spec (E := anyPanic) h)) (fun r σ₁ hr => ?_)
  obtain ⟨⟨hk₁, ha₁⟩, hs₁, ⟨rfl, _⟩ | ⟨d, rfl, _, hdD, h₁, _⟩⟩ := hr
  · exact Spec.pure ⟨hk₁, fun d hd => by cases hd⟩
  have hd : d ∈ insert d D := Set.mem_insert d D
  have hp' : p ∈ insert d D := Set.mem_insert_of_mem d hp
  have hpd : p ≠ d := fun he => hdD (he ▸ hp)
  have hframes : framesBelow σ₁.mem p sz = framesBelow σ.mem p sz :=
    framesBelow_congr (hs₁ p hp).2 sz
  show Spec anyPanic (copyLoop L d p sz pageFuel (0 * 4096) >>= _) σ₁ _
  refine Spec.seq ((copyLoop_contents hd hp' hpd hsz pageFuel 0 σ₁ _ hframes.le h₁ (by omega)
    (by unfold pageFuel; omega) (ha₁ d rfl)).and (copyLoop_spec (E := anyPanic) hd hp' hpd hsz
      pageFuel 0 σ₁ h₁ (by omega) (by unfold pageFuel; omega) (fun _ _ _ _ => trivial)
      (fun _ _ _ _ => ⟨trivial, trivial⟩))) (fun b σ₂ hr => ?_)
  obtain ⟨⟨hk₂, hdone⟩, h₂, hs₂, _⟩ := hr
  cases b with
  | true =>
    refine Spec.pure ⟨hk₁.trans hk₂, fun d' hd' x hx w w' hw hw' => ?_⟩
    cases hd'
    have hw₁ : pteAt σ₁.mem p x = some w := ((hs₁ p hp).2 x (by omega)).trans hw
    exact (hdone rfl x (by omega) hx w w' hw₁ hw').of_source
      (hk₁ _ (mem_framesBelow (by omega) hx hw))
  | false =>
    have hframes₂ : framesBelow σ₂.mem p sz = framesBelow σ.mem p sz :=
      (framesBelow_congr (hs₂ p ⟨hp', hpd⟩).2 sz).trans hframes
    have ha₂ := apart_framesBelow h₂ hd hp' sz
    rw [hframes₂] at ha₂
    refine Spec.seq (freevm_kept h₂ hd ha₂.dir ha₂.tabs ?_) (fun _ σ₃ hk₃ => ?_)
    · rintro x hx w hw hin
      rw [← hframes₂] at hin
      obtain ⟨v, w', hv, _, hw', hf⟩ := hin
      exact hpd (h₂.page_inj hd hx hw hp' hv hw' hf).1
    · exact Spec.pure ⟨(hk₁.trans hk₂).trans hk₃, fun d' hd' => by cases hd'⟩

end

end Xv6Sharing.Vm
