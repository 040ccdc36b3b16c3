/-
Xv6Sharing.Vm.CopyTheorems — the functions of kernel/vm.c that move bytes:
`copyuvm`, `inituvm`, `loaduvm` and `copyout`, and `clearpteu`.

Bytes only ever go to frames that hold user pages or were just allocated,
so no page table changes under them (`sameTables_of_notTable`).
-/
import Xv6Sharing.Vm.ImageTheorems

namespace Xv6Sharing.Vm

open Lib

section

variable {L : Layout} {D X : Set Nat} {σ σ' : Phys} {d p : Nat} {E : Panic → Prop}

/-! ## `clearpteu` -/

theorem user_eq (w : Nat) : user w = decide (w / 4 % 2 = 1) := by
  unfold user
  rw [Nat.testBit_eq_decide_div_mod_eq]

theorem present_eq (w : Nat) : present w = decide (w % 2 = 1) := by
  unfold present
  rw [Nat.testBit_eq_decide_div_mod_eq]
  simp

/-- The entry without PTE_U. -/
def dropUser (w : Nat) : Nat := if user w then w - pteU else w

theorem present_dropUser (w : Nat) : present (dropUser w) = present w := by
  unfold dropUser
  rw [present_eq, present_eq, user_eq]
  by_cases h : w / 4 % 2 = 1
  · have : (w - pteU) % 2 = w % 2 := by
      unfold pteU
      omega
    simp [h, this]
  · simp [h]

theorem pteFrame_dropUser (w : Nat) : pteFrame (dropUser w) = pteFrame w := by
  unfold dropUser pteFrame
  rw [user_eq]
  by_cases h : w / 4 % 2 = 1
  · have : (w - pteU) / 4096 = w / 4096 := by
      unfold pteU
      omega
    simp [h, this]
  · simp [h]

theorem user_dropUser (w : Nat) : user (dropUser w) = false := by
  unfold dropUser
  by_cases h : user w = true
  · rw [if_pos h, user_eq]
    rw [user_eq] at h
    have h' : w / 4 % 2 = 1 := of_decide_eq_true h
    have : ¬ (w - pteU) / 4 % 2 = 1 := by
      unfold pteU
      omega
    simp [this]
  · rw [if_neg h]
    simpa using h

theorem word_lt (m : Mem) (f i : Nat) : word m f i < 2 ^ 32 := by
  unfold word read32
  have h0 := (m (f * 4096 + 4 * i)).toNat_lt
  have h1 := (m (f * 4096 + 4 * i + 1)).toNat_lt
  have h2 := (m (f * 4096 + 4 * i + 2)).toNat_lt
  have h3 := (m (f * 4096 + 4 * i + 3)).toNat_lt
  omega

theorem clearpteu_spec {v w : Nat} (h : Sound L D X σ) (hd : d ∈ D) (hv : v < 262144)
    (hw : pteAt σ.mem d v = some w) :
    Spec E (clearpteu d (v * 4096)) σ (fun _ σ' => Sound L D X σ' ∧
      Edit D d (Function.update (pteAt σ.mem d) v (some (dropUser w))) σ σ' ∧
      σ'.freelist = σ.freelist) := by
  have hd0 : d ≠ 0 := Nat.pos_iff_ne_zero.mp (h.ram_dir hd).pos
  obtain ⟨t, ht, hword⟩ := tabOf_of_pteAt hw
  unfold clearpteu
  refine Spec.seq_ok (walkpgdir_run hd0 _ σ) ?_
  rw [pdx_page (by omega), ptx_page, ht]
  refine Spec.seq_ok (readPte_run _ σ) ?_
  refine Spec.of_ok (writePte_run _ _ σ) ?_
  show Sound L D X ⟨setWord σ.mem t (v % 1024) (dropUser (word σ.mem t (v % 1024))), σ.freelist⟩ ∧ _
  rw [hword]
  have hp : present (dropUser w) = true := by
    rw [present_dropUser]
    exact present_of_pteAt hw
  have hlt : dropUser w < 2 ^ 32 := by
    have := word_lt σ.mem t (v % 1024)
    rw [hword] at this
    unfold dropUser
    by_cases hu : user w = true
    · rw [if_pos hu]
      omega
    · rw [if_neg hu]
      exact this
  have hs := h.setPte hd (by omega) ht hlt
  refine ⟨h.setFlags hs hw hp (pteFrame_dropUser w), ⟨?_, fun x hx => ?_⟩, rfl⟩
  · exact hs.sameTables Set.sdiff_subset (fun hc => hc.2 rfl)
  · show pteAt (setWord σ.mem t (v % 1024) (dropUser w)) d x = _
    rw [(hs d hd).2 x hx, Function.update_apply]
    by_cases hxv : x = v
    · rw [if_pos ⟨rfl, hxv⟩, if_pos hxv, if_pos hp]
    · rw [if_neg (fun hc => hxv hc.2), if_neg hxv]

/-! ## `copyuvm` -/

/-- The loop of `copyuvm`, by induction on the fuel: every page gets a frame of
its own under the flags of the page it copies. -/
theorem copyLoop_spec {sz : Nat} (hd : d ∈ D) (hp : p ∈ D) (hne : p ≠ d) (hsz : sz ≤ sharedbase) :
    ∀ (fuel v : Nat) (σ : Phys), Sound L D X σ → v ≤ 262144 → 262144 - v < fuel →
      (∀ x, v ≤ x → x * 4096 < sz → pteAt σ.mem d x ≠ none → E .remap) →
      (∀ x, v ≤ x → x * 4096 < sz → pteAt σ.mem p x = none →
        E .copyuvmMissing ∧ E .copyuvmAbsent) →
      Spec E (copyLoop L d p sz fuel (v * 4096)) σ (fun b σ' =>
        Sound L D X σ' ∧ SameTables (D \ {d}) σ.mem σ'.mem ∧
        ((b = true ∧
            (∀ x, v ≤ x → x * 4096 < sz → ∃ w f, pteAt σ.mem p x = some w ∧
              pteAt σ'.mem d x = some (f * 4096 ||| pteFlags w ||| pteP)) ∧
            (∀ x < 1048576, ¬ (v ≤ x ∧ x * 4096 < sz) → pteAt σ'.mem d x = pteAt σ.mem d x) ∧
            σ.freelist.length ≤ σ'.freelist.length + 2 * ((sz + 4095) / 4096 - v)) ∨
         (b = false ∧ σ.freelist.length < 2 * ((sz + 4095) / 4096 - v)))) := by
  unfold sharedbase at hsz
  intro fuel
  induction fuel with
  | zero => intro v σ _ _ hfuel; omega
  | succ fuel ih =>
    intro v σ h hv hfuel hremap hpages
    have hp0 : p ≠ 0 := Nat.pos_iff_ne_zero.mp (h.ram_dir hp).pos
    unfold copyLoop
    by_cases hlt : v * 4096 < sz
    · rw [if_pos hlt]
      refine Spec.seq_ok (walkpgdir_run hp0 _ σ) ?_
      rw [pdx_page (by omega), ptx_page]
      cases ht : tabOf σ.mem p (v / 1024) with
      | none => exact Spec.throw (hpages v le_rfl hlt (pteAt_none_of_tabOf ht)).1
      | some t =>
        refine Spec.seq_ok (readPte_run (t, v % 1024) σ) ?_
        have hpte := pteAt_of_tabOf ht
        cases hpres : present (word σ.mem t (v % 1024)) with
        | false =>
          rw [hpres] at hpte
          rw [if_neg (by simp)]
          exact Spec.throw (hpages v le_rfl hlt hpte).2
        | true =>
          rw [if_pos hpres] at hpte
          rw [if_pos rfl]
          generalize hw : word σ.mem t (v % 1024) = w at hpte hpres
          cases hfree : σ.freelist with
          | nil =>
            refine Spec.seq_ok (kalloc_none hfree) ?_
            exact Spec.pure ⟨h, SameTables.refl _ _, Or.inr ⟨rfl, by simp; omega⟩⟩
          | cons f rest =>
            refine Spec.seq_ok (kalloc_some hfree) ?_
            refine Spec.seq_ok (modify_run _ _) ?_
            obtain ⟨hfX, hnt, hf, h₁⟩ := takeFrame h hfree
            have hs₁ : SameTables D σ.mem (copyPage σ.mem f (pteFrame w)) :=
              sameTables_of_notTable hnt (fun _ hg => samePage_copyPage hg)
            have h₂ : Sound L D (insert f X) ⟨copyPage σ.mem f (pteFrame w), rest⟩ :=
              h₁.of_sameTables hs₁
            have hflags : pteFlags w < 4096 := by
              unfold pteFlags
              omega
            refine Spec.seq (mapUser_spec h₂ hfX hd (by omega) hf hflags ?_)
              (fun b σ₂ hr => ?_)
            · intro hne
              refine hremap v le_rfl hlt ?_
              rw [← (hs₁ d hd).2 v (by omega)]
              exact hne
            obtain ⟨rfl, rfl, hempty⟩ | ⟨rfl, h₃, he, hlen⟩ := hr
            · rw [if_neg (by simp)]
              have hfmem : f ∈ insert f X := Set.mem_insert f X
              refine Spec.seq_ok (kfree_run (h₂.ram_other hfmem) _) ?_
              have hs₃ := sameTables_junkPage (h₂.notTable_of_other hfmem) rest
              have h₄ := h₂.kfree hfmem
              rw [Set.insert_sdiff_self_of_notMem hfX] at h₄
              refine Spec.pure ⟨h₄, ?_, Or.inr ⟨rfl, ?_⟩⟩
              · exact (hs₁.trans hs₃).mono Set.sdiff_subset
              · have : rest = [] := hempty
                simp only [List.length_cons, this, List.length_nil]
                omega
            · rw [if_pos rfl]
              have hnext : u32 (v * 4096 + 4096) = (v + 1) * 4096 := by
                unfold u32
                omega
              rw [hnext]
              have hkeep : ∀ x < 1048576, x ≠ v → pteAt σ₂.mem d x = pteAt σ.mem d x := by
                intro x hx hxv
                rw [he.pte x hx, Function.update_of_ne hxv]
                exact (hs₁ d hd).2 x hx
              have hsrc : ∀ x < 1048576, pteAt σ₂.mem p x = pteAt σ.mem p x := by
                intro x hx
                rw [(he.others p ⟨hp, hne⟩).2 x hx]
                exact (hs₁ p hp).2 x hx
              refine (ih (v + 1) σ₂ h₃ (by omega) (by omega) ?_ ?_).mono
                (fun b σ₃ hr => ?_)
              · intro x hx hx' hne'
                refine hremap x (by omega) hx' ?_
                rw [← hkeep x (by omega) (by omega)]
                exact hne'
              · intro x hx hx' hnone
                refine hpages x (by omega) hx' ?_
                rw [← hsrc x (by omega)]
                exact hnone
              obtain ⟨h₄, hs₄, hcase⟩ := hr
              have hlen' : rest.length ≤ σ₂.freelist.length + 1 := hlen
              refine ⟨h₄, ((hs₁.mono Set.sdiff_subset).trans he.others).trans hs₄, ?_⟩
              obtain ⟨rfl, hin, hout, hroom⟩ | ⟨rfl, hroom⟩ := hcase
              · refine Or.inl ⟨rfl, fun x hx hx' => ?_, fun x hx hx' => ?_, ?_⟩
                · by_cases hxv : x = v
                  · subst hxv
                    refine ⟨w, f, hpte, ?_⟩
                    rw [hout x (by omega) (by omega), he.pte x (by omega),
                      Function.update_self]
                  · obtain ⟨w', f', hw', hf'⟩ := hin x (by omega) hx'
                    exact ⟨w', f', (hsrc x (by omega)).symm.trans hw', hf'⟩
                · rw [hout x hx (by omega)]
                  exact hkeep x hx (by omega)
                · simp only [List.length_cons]
                  omega
              · refine Or.inr ⟨rfl, ?_⟩
                simp only [List.length_cons]
                omega
    · rw [if_neg hlt]
      refine Spec.pure ⟨h, SameTables.refl _ _, Or.inl ⟨rfl, fun x hx hx' => ?_,
        fun x _ _ => rfl, by omega⟩⟩
      omega

/-- `copyuvm`: a fresh directory with the kernel's mappings and a copy of every
page below `sz`, or memory ran out and nothing changed. -/
theorem copyuvm_spec {sz : Nat} (h : Sound L D X σ) (hp : p ∈ D) (hsz : sz ≤ sharedbase)
    (hpages : ∀ x, x * 4096 < sz → pteAt σ.mem p x = none →
      E .copyuvmMissing ∧ E .copyuvmAbsent) :
    Spec E (copyuvm L p sz) σ (fun r σ' => SameTables D σ.mem σ'.mem ∧
      ((r = none ∧ Sound L D X σ' ∧
          σ.freelist.length ≤ 513 + 2 * ((sz + 4095) / 4096)) ∨
       ∃ d, r = some d ∧ d ∈ σ.freelist ∧ d ∉ D ∧ Sound L (insert d D) X σ' ∧
        (∀ x, x * 4096 < sz → ∃ w f, pteAt σ.mem p x = some w ∧
          pteAt σ'.mem d x = some (f * 4096 ||| pteFlags w ||| pteP)) ∧
        (∀ x < 1048576, sz ≤ x * 4096 → pteAt σ'.mem d x = kmapPte (kmap L) x) ∧
        σ.freelist.length ≤ σ'.freelist.length + 513 + 2 * ((sz + 4095) / 4096))) := by
  have hsz' := hsz
  unfold sharedbase at hsz'
  unfold copyuvm
  refine Spec.seq (setupkvm_spec h) (fun r σ₁ hr => ?_)
  obtain ⟨hs₁, ⟨rfl, h₁, hlen⟩ | ⟨d, rfl, hfree, hdD, h₁, hkern, hlen⟩⟩ := hr
  · exact Spec.pure ⟨hs₁, Or.inl ⟨rfl, h₁, by omega⟩⟩
  have hd : d ∈ insert d D := Set.mem_insert d D
  have hp' : p ∈ insert d D := Set.mem_insert_of_mem d hp
  have hpd : p ≠ d := fun he => hdD (he ▸ hp)
  have hDd : insert d D \ {d} = D := Set.insert_sdiff_self_of_notMem hdD
  have hlow : ∀ x < 262144, pteAt σ₁.mem d x = none := by
    intro x hx
    rw [hkern x (by omega)]
    exact kmapPte_user (Ram.data_lt (h.pool_of_free hfree)) (by omega)
  show Spec E (copyLoop L d p sz pageFuel (0 * 4096) >>= _) σ₁ _
  refine Spec.seq (copyLoop_spec hd hp' hpd hsz pageFuel 0 σ₁ h₁ (by omega)
    (by unfold pageFuel; omega) ?_ ?_) (fun b σ₂ hr => ?_)
  · intro x _ hx hne
    exact absurd (hlow x (by omega)) hne
  · intro x _ hx hnone
    exact hpages x hx ((hs₁ p hp).2 x (by omega) ▸ hnone)
  obtain ⟨h₂, hs₂, hcase⟩ := hr
  rw [hDd] at hs₂
  obtain ⟨rfl, hin, hout, hroom⟩ | ⟨rfl, hroom⟩ := hcase
  · rw [if_pos rfl]
    refine Spec.pure ⟨hs₁.trans hs₂, Or.inr ⟨d, rfl, hfree, hdD, h₂, fun x hx => ?_,
      fun x hx hge => ?_, by omega⟩⟩
    · obtain ⟨w, f, hw, hf⟩ := hin x (by omega) hx
      exact ⟨w, f, (hs₁ p hp).2 x (by omega) ▸ hw, hf⟩
    · rw [hout x hx (by omega), hkern x hx]
  · rw [if_neg (by simp)]
    refine Spec.seq (freevm_spec h₂ hd) (fun _ σ₃ hr => ?_)
    obtain ⟨h₃, hs₃, _⟩ := hr
    rw [hDd] at h₃ hs₃
    exact Spec.pure ⟨(hs₁.trans hs₂).trans hs₃, Or.inl ⟨rfl, h₃, by omega⟩⟩

/-! ## `inituvm` -/

theorem store_user {v w : Nat} (off : Nat) (bs : List UInt8) (h : Sound L D X σ) (hd : d ∈ D)
    (hv : v < 262144) (hw : pteAt σ.mem d v = some w) (hlen : off + bs.length ≤ 4096) :
    Sound L D X { σ with mem := storeBytes σ.mem (pteFrame w * 4096 + off) bs } ∧
      SameTables D σ.mem (storeBytes σ.mem (pteFrame w * 4096 + off) bs) := by
  have hs : SameTables D σ.mem (storeBytes σ.mem (pteFrame w * 4096 + off) bs) :=
    sameTables_of_notTable (h.notTable_of_page hd hv hw)
      (fun _ hg => samePage_storeBytes hlen hg)
  exact ⟨Owned.of_sameTables h hs, hs⟩

theorem inituvm_spec {init : List UInt8} (h : Sound L D X σ) (hd : d ∈ D)
    (hinit : 4096 ≤ init.length → E .inituvm) (habs : pteAt σ.mem d 0 = none)
    (hroom : 2 ≤ σ.freelist.length) :
    Spec E (inituvm d init) σ (fun _ σ' => Sound L D X σ' ∧
      (∃ f, Edit D d (Function.update (pteAt σ.mem d) 0
        (some (f * 4096 ||| (pteW ||| pteU) ||| pteP))) σ σ') ∧
      σ.freelist.length ≤ σ'.freelist.length + 2) := by
  unfold inituvm
  by_cases hbig : init.length ≥ 4096
  · rw [if_pos hbig]
    exact Spec.throw (hinit hbig)
  rw [if_neg hbig]
  cases hfree : σ.freelist with
  | nil =>
    rw [hfree] at hroom
    simp at hroom
  | cons f rest =>
    refine Spec.seq_ok (kalloc_some hfree) ?_
    refine Spec.seq_ok (memsetPage_run f 0 _) ?_
    obtain ⟨hfX, hnt, hf, h₁⟩ := takeFrame h hfree
    have hs₁ : SameTables D σ.mem (fillPage σ.mem f 0) :=
      sameTables_of_notTable hnt (fun _ hg => samePage_fillPage hg)
    have h₂ : Sound L D (insert f X) ⟨fillPage σ.mem f 0, rest⟩ := h₁.of_sameTables hs₁
    show Spec E (mappages d (0 * 4096) 4096 (f * 4096) (pteW ||| pteU) >>= _) _ _
    refine Spec.seq (mapUser_spec h₂ hfX hd (by omega) hf (by decide) ?_) (fun b σ₂ hr => ?_)
    · intro hne
      exact absurd ((hs₁ d hd).2 0 (by omega) |>.trans habs) hne
    obtain ⟨rfl, rfl, hempty⟩ | ⟨rfl, h₃, he, hlen⟩ := hr
    · rw [hfree, show rest = [] from hempty] at hroom
      simp at hroom
    · have hw : pteAt σ₂.mem d 0 = some (f * 4096 ||| (pteW ||| pteU) ||| pteP) := by
        rw [he.pte 0 (by omega), Function.update_self]
      obtain ⟨h₄, hs₄⟩ := store_user 0 init h₃ hd (by omega) hw (by omega)
      rw [pteFrame_mk (by decide), Nat.add_zero] at h₄ hs₄
      refine Spec.of_ok (modify_run _ _) ⟨h₄, ⟨f, ?_, fun x hx => ?_⟩, ?_⟩
      · exact ((hs₁.mono Set.sdiff_subset).trans he.others).trans (hs₄.mono Set.sdiff_subset)
      · show pteAt (storeBytes σ₂.mem (f * 4096) init) d x = _
        rw [(hs₄ d hd).2 x hx, he.pte x hx, Function.update_apply, Function.update_apply]
        by_cases hx0 : x = 0
        · rw [if_pos hx0, if_pos hx0]
        · rw [if_neg hx0, if_neg hx0]
          exact (hs₁ d hd).2 x hx
      · have : rest.length ≤ σ₂.freelist.length + 1 := hlen
        simp only [List.length_cons]
        omega

/-! ## `loaduvm` -/

theorem readi_length {file bs : List UInt8} {off n : Nat} (h : readi file off n = some bs) :
    bs.length ≤ n := by
  unfold readi at h
  split at h
  · cases h
  · cases h
    simp only [List.length_take]
    omega

/-- The loop of `loaduvm`, by induction on the fuel: it stores into present
pages only. -/
theorem loadLoop_spec {a offset sz : Nat} {file : List UInt8} (hd : d ∈ D)
    (htop : a * 4096 + sz ≤ sharedbase) :
    ∀ (fuel n : Nat) (σ : Phys), Sound L D X σ → n ≤ 262144 → 262144 - n < fuel →
      (∀ x, a + n ≤ x → x * 4096 < a * 4096 + sz → pteAt σ.mem d x ≠ none) →
      Spec E (loadLoop d (a * 4096) file offset sz fuel (n * 4096)) σ (fun _ σ' =>
        Sound L D X σ' ∧ SameTables D σ.mem σ'.mem ∧ σ'.freelist = σ.freelist) := by
  unfold sharedbase at htop
  intro fuel
  induction fuel with
  | zero => intro n σ _ _ hfuel; omega
  | succ fuel ih =>
    intro n σ h hn hfuel hpages
    have hd0 : d ≠ 0 := Nat.pos_iff_ne_zero.mp (h.ram_dir hd).pos
    unfold loadLoop
    by_cases hlt : n * 4096 < sz
    · have haddr : u32 (a * 4096 + n * 4096) = (a + n) * 4096 := by
        unfold u32
        omega
      rw [if_pos hlt, haddr]
      refine Spec.seq_ok (walkpgdir_run hd0 _ σ) ?_
      rw [pdx_page (by omega), ptx_page]
      have hin : (a + n) * 4096 < a * 4096 + sz := by
        rw [Nat.add_mul]
        exact Nat.add_lt_add_left hlt _
      obtain ⟨w, hw⟩ := Option.ne_none_iff_exists'.mp (hpages (a + n) le_rfl hin)
      obtain ⟨t, ht, hword⟩ := tabOf_of_pteAt hw
      rw [ht]
      refine Spec.seq_ok (readPte_run _ σ) ?_
      dsimp only
      rw [hword]
      cases hread : readi file (u32 (offset + n * 4096))
          (if sz - n * 4096 < 4096 then sz - n * 4096 else 4096) with
      | none => exact Spec.pure ⟨h, SameTables.refl _ _, rfl⟩
      | some bs =>
        have hlen : bs.length ≤ 4096 := by
          have := readi_length hread
          split at this <;> omega
        obtain ⟨h₁, hs₁⟩ := store_user 0 bs h hd (by omega) hw (by omega)
        rw [Nat.add_zero] at h₁ hs₁
        refine Spec.seq_ok (modify_run _ _) ?_
        by_cases hfull : bs.length = if sz - n * 4096 < 4096 then sz - n * 4096 else 4096
        · rw [if_pos hfull]
          have hnext : u32 (n * 4096 + 4096) = (n + 1) * 4096 := by
            unfold u32
            omega
          rw [hnext]
          refine (ih (n + 1) _ h₁ (by omega) (by omega) ?_).mono (fun _ σ' hr => ?_)
          · intro x hx hx'
            rw [(hs₁ d hd).2 x (by omega)]
            exact hpages x (by omega) hx'
          · obtain ⟨h₂, hs₂, hfree⟩ := hr
            exact ⟨h₂, hs₁.trans hs₂, hfree⟩
        · rw [if_neg hfull]
          exact Spec.pure ⟨h₁, hs₁, rfl⟩
    · rw [if_neg hlt]
      exact Spec.pure ⟨h, SameTables.refl _ _, rfl⟩

theorem loaduvm_spec {addr offset sz : Nat} {file : List UInt8} (h : Sound L D X σ) (hd : d ∈ D)
    (halign : addr % 4096 = 0) (htop : addr + sz ≤ sharedbase)
    (hpages : ∀ x, addr ≤ x * 4096 → x * 4096 < addr + sz → pteAt σ.mem d x ≠ none) :
    Spec E (loaduvm d addr file offset sz) σ (fun _ σ' =>
      Sound L D X σ' ∧ SameTables D σ.mem σ'.mem ∧ σ'.freelist = σ.freelist) := by
  obtain ⟨a, rfl⟩ : ∃ a, addr = a * 4096 := ⟨addr / 4096, by omega⟩
  unfold loaduvm
  rw [if_neg (by omega)]
  show Spec E (loadLoop d (a * 4096) file offset sz pageFuel (0 * 4096)) σ _
  exact loadLoop_spec hd htop pageFuel 0 σ h (by omega) (by unfold pageFuel; omega)
    (fun x hx hx' => hpages x (Nat.mul_le_mul_right 4096 hx) hx')

/-! ## `copyout` -/

/-- The entries of `d` above KERNBASE are not the user's. -/
def KernelOnly (m : Mem) (d : Nat) : Prop :=
  ∀ x, 524288 ≤ x → x < 1048576 → ∀ w, pteAt m d x = some w → user w = false

theorem KernelOnly.congr {m m' : Mem} (h : KernelOnly m d) (hd : d ∈ D)
    (hs : SameTables D m m') : KernelOnly m' d := by
  intro x hx hx' w hw
  rw [(hs d hd).2 x hx'] at hw
  exact h x hx hx' w hw

theorem uva2ka_spec {v : Nat} (h : Sound L D X σ) (hd : d ∈ D) (hv : v < 1048576)
    (hnull : pteAt σ.mem d v = none → E .nullDeref) :
    Spec E (uva2ka d (v * 4096)) σ (fun r σ' => σ' = σ ∧
      ((r = none ∧ ∀ w, pteAt σ.mem d v = some w → user w = false) ∨
       ∃ w, r = some (pteFrame w) ∧ pteAt σ.mem d v = some w ∧ user w = true)) := by
  have hd0 : d ≠ 0 := Nat.pos_iff_ne_zero.mp (h.ram_dir hd).pos
  unfold uva2ka
  refine Spec.seq_ok (walkpgdir_run hd0 _ σ) ?_
  rw [pdx_page hv, ptx_page]
  cases ht : tabOf σ.mem d (v / 1024) with
  | none => exact Spec.throw (hnull (pteAt_none_of_tabOf ht))
  | some t =>
    refine Spec.seq_ok (readPte_run (t, v % 1024) σ) ?_
    have hpte := pteAt_of_tabOf ht
    cases hp : present (word σ.mem t (v % 1024)) with
    | false =>
      rw [hp] at hpte
      rw [if_neg (by simp)]
      refine Spec.pure ⟨rfl, Or.inl ⟨rfl, fun w hw => ?_⟩⟩
      rw [hpte] at hw
      cases hw
    | true =>
      rw [if_pos hp] at hpte
      rw [if_pos rfl]
      cases hu : user (word σ.mem t (v % 1024)) with
      | false =>
        rw [if_neg (by simp)]
        refine Spec.pure ⟨rfl, Or.inl ⟨rfl, fun w hw => ?_⟩⟩
        rw [hpte] at hw
        cases hw
        exact hu
      | true =>
        rw [if_pos rfl]
        exact Spec.pure ⟨rfl, Or.inr ⟨_, rfl, hpte, hu⟩⟩

/-- The loop of `copyout`, by induction on the fuel. It starts below SHAREDBASE
and stays there, or starts above KERNBASE and fails at once. -/
theorem copyoutLoop_spec (hd : d ∈ D) : ∀ (fuel va : Nat) (bs : List UInt8) (σ : Phys),
    Sound L D X σ → bs.length < fuel →
    (va + bs.length ≤ sharedbase ∨ (kernbase ≤ va ∧ va < 2 ^ 32)) → KernelOnly σ.mem d →
    ((∃ x, va / 4096 ≤ x ∧ x * 4096 < va + bs.length ∧ pteAt σ.mem d x = none) → E .nullDeref) →
    Spec E (copyoutLoop d fuel va bs) σ (fun b σ' =>
      Sound L D X σ' ∧ SameTables D σ.mem σ'.mem ∧ σ'.freelist = σ.freelist ∧
      (b = true → bs = [] ∨ va + bs.length ≤ sharedbase) ∧
      ((∀ x, va / 4096 ≤ x → x * 4096 < va + bs.length →
        ∃ w, pteAt σ.mem d x = some w ∧ user w = true) → b = true)) := by
  intro fuel
  induction fuel with
  | zero => intro va bs σ _ hfuel; omega
  | succ fuel ih =>
    intro va bs σ h hfuel hva hker hnull
    unfold sharedbase kernbase at hva
    unfold copyoutLoop
    by_cases hne : bs.length > 0
    · rw [if_pos hne]
      dsimp only
      have hround : pgrounddown va = va / 4096 * 4096 := rfl
      rw [hround]
      refine Spec.seq (uva2ka_spec h hd (by omega) (fun hnone =>
        hnull ⟨va / 4096, le_rfl, by omega, hnone⟩)) (fun r σ₁ hr => ?_)
      obtain ⟨rfl, ⟨rfl, hno⟩ | ⟨w, rfl, hw, hu⟩⟩ := hr
      · refine Spec.pure ⟨h, SameTables.refl _ _, rfl, fun hb => Bool.noConfusion hb,
          fun hall => ?_⟩
        obtain ⟨w, hw, hu⟩ := hall (va / 4096) le_rfl (by omega)
        rw [hno w hw] at hu
        cases hu
      · -- a user page: the address is below SHAREDBASE
        have hlow : va + bs.length ≤ 1073741824 := by
          obtain hlow | ⟨hge, hlt⟩ := hva
          · exact hlow
          · rw [hker (va / 4096) (by omega) (by omega) w hw] at hu
            cases hu
        have hoff : va - va / 4096 * 4096 = va % 4096 := by omega
        rw [hoff]
        have hk : min (4096 - va % 4096) bs.length ≤ 4096 - va % 4096 := by omega
        obtain ⟨h₁, hs₁⟩ := store_user (va % 4096)
          (bs.take (min (4096 - va % 4096) bs.length)) h hd (by omega) hw
          (by simp only [List.length_take]; omega)
        refine Spec.seq_ok (modify_run _ _) ?_
        have hnext : u32 (va / 4096 * 4096 + 4096) = (va / 4096 + 1) * 4096 := by
          unfold u32
          omega
        rw [hnext]
        have hdrop : (bs.drop (min (4096 - va % 4096) bs.length)).length
            = bs.length - min (4096 - va % 4096) bs.length := List.length_drop
        have hin : ∀ x, (va / 4096 + 1) * 4096 / 4096 ≤ x →
            x * 4096 < (va / 4096 + 1) * 4096 +
              (bs.drop (min (4096 - va % 4096) bs.length)).length →
            va / 4096 ≤ x ∧ x * 4096 < va + bs.length ∧ x < 1048576 := by
          intro x hx hx'
          rw [hdrop] at hx'
          omega
        refine (ih _ _ _ h₁ (by rw [hdrop]; omega)
          (Or.inl (by rw [hdrop]; unfold sharedbase; omega)) (hker.congr hd hs₁) ?_).mono
          (fun b σ₂ hr => ?_)
        · intro hx
          obtain ⟨x, hx₁, hx₂, hnone⟩ := hx
          obtain ⟨hy₁, hy₂, hy₃⟩ := hin x hx₁ hx₂
          exact hnull ⟨x, hy₁, hy₂, (hs₁ d hd).2 x hy₃ ▸ hnone⟩
        · obtain ⟨h₂, hs₂, hfree, _, hall⟩ := hr
          refine ⟨h₂, hs₁.trans hs₂, hfree, fun _ => Or.inr hlow,
            fun huser => hall (fun x hx₁ hx₂ => ?_)⟩
          obtain ⟨hy₁, hy₂, hy₃⟩ := hin x hx₁ hx₂
          obtain ⟨w', hw', hu'⟩ := huser x hy₁ hy₂
          exact ⟨w', (hs₁ d hd).2 x hy₃ ▸ hw', hu'⟩
    · rw [if_neg hne]
      exact Spec.pure ⟨h, SameTables.refl _ _, rfl,
        fun _ => Or.inl (List.length_eq_zero_iff.mp (by omega)), fun _ => rfl⟩

theorem copyout_spec {va : Nat} {bs : List UInt8} (h : Sound L D X σ) (hd : d ∈ D)
    (hva : va + bs.length ≤ sharedbase ∨ (kernbase ≤ va ∧ va < 2 ^ 32))
    (hker : KernelOnly σ.mem d)
    (hnull : (∃ x, va / 4096 ≤ x ∧ x * 4096 < va + bs.length ∧ pteAt σ.mem d x = none) →
      E .nullDeref) :
    Spec E (copyout d va bs) σ (fun b σ' =>
      Sound L D X σ' ∧ SameTables D σ.mem σ'.mem ∧ σ'.freelist = σ.freelist ∧
      (b = true → bs = [] ∨ va + bs.length ≤ sharedbase) ∧
      ((∀ x, va / 4096 ≤ x → x * 4096 < va + bs.length →
        ∃ w, pteAt σ.mem d x = some w ∧ user w = true) → b = true)) :=
  copyoutLoop_spec hd _ va bs σ h (Nat.lt_succ_self _) hva hker hnull

end

end Xv6Sharing.Vm
