/-
Xv6Sharing.Vm.Freeing — which frames `deallocuvm` and `freevm` give back.

Every `kfree` puts its frame at the front of the free list, so the list afterwards
says which frames were given back, in which order and how often. Here that is
worked out exactly, for a directory whose own frames (itself, its page-table pages
and its pages below SHAREDBASE) are different frames of the allocator
(`OwnFrames`). Nothing is asked of what it maps from SHAREDBASE on, and nothing of
the free list.

`deallocuvm` skips over the pages of an absent page-table page. `deallocEach` is
the loop that visits them one by one; both do the same in every state
(`deallocLoop_eq_each`), so the exact account is given of the simpler one.
-/
import Mathlib.Data.List.Nodup
import Xv6Sharing.Vm.MappingTheorems

namespace Xv6Sharing.Vm

open Lib

/-! ## The loop that visits every page -/

/-- The loop of `deallocuvm` without the jump over an absent page-table page. -/
def deallocEach (L : Layout) (pgdir oldsz : Nat) : Nat → Nat → Kern Unit
  | 0, _ => throw .diverges
  | n + 1, a => do
      if a < oldsz then
        match ← walkpgdir pgdir a false with
        | none => deallocEach L pgdir oldsz n (u32 (a + 4096))
        | some pte =>
          deallocPte L pte
          deallocEach L pgdir oldsz n (u32 (a + 4096))
      else
        return ()

/-- `deallocuvm` with that loop. -/
def deallocuvmEach (L : Layout) (pgdir oldsz newsz : Nat) : Kern Nat := do
  if newsz ≥ oldsz then
    return oldsz
  else
    deallocEach L pgdir oldsz pageFuel (pgroundup newsz)
    return newsz

/-! ## A directory's own frames -/

/-- The directory, its page-table pages and its pages below SHAREDBASE are different frames
of the allocator. -/
structure OwnFrames (L : Layout) (m : Mem) (d : Nat) : Prop where
  ram : ∀ u f, Holds m {d} ∅ u f → Ram L f
  distinct : ∀ u w f, Holds m {d} ∅ u f → Holds m {d} ∅ w f → u = w

/-- The frames of `n` pages from page `v` on, in the order of the pages. -/
def pageFrames (m : Mem) (d v n : Nat) : List Nat :=
  (List.range' v n).filterMap fun x => (pteAt m d x).map pteFrame

/-- The page-table pages behind `n` entries from entry `i` on. -/
def tabFrames (m : Mem) (d i n : Nat) : List Nat := (List.range' i n).filterMap (tabOf m d)

section

variable {L : Layout} {m : Mem} {d i j t v w lo oldsz : Nat} {σ σ₁ : Phys}

theorem OwnFrames.dir_ram (h : OwnFrames L m d) : Ram L d := h.ram (.dir d) d ⟨rfl, rfl⟩

theorem OwnFrames.tab_ram (h : OwnFrames L m d) (hi : i < 1024) (ht : tabOf m d i = some t) :
    Ram L t :=
  h.ram (.tab d i) t ⟨rfl, hi, ht⟩

theorem OwnFrames.page_ram (h : OwnFrames L m d) (hv : v < 262144) (hw : pteAt m d v = some w) :
    Ram L (pteFrame w) :=
  h.ram (.page d v) _ ⟨rfl, hv, w, hw, rfl⟩

theorem OwnFrames.tab_ne_dir (h : OwnFrames L m d) (hi : i < 1024) (ht : tabOf m d i = some t) :
    t ≠ d := by
  rintro rfl
  exact FrameUse.noConfusion (h.distinct (.dir t) (.tab t i) t ⟨rfl, rfl⟩ ⟨rfl, hi, ht⟩)

theorem OwnFrames.page_ne_dir (h : OwnFrames L m d) (hv : v < 262144)
    (hw : pteAt m d v = some w) : pteFrame w ≠ d := fun he =>
  FrameUse.noConfusion (h.distinct (.dir d) (.page d v) d ⟨rfl, rfl⟩ ⟨rfl, hv, w, hw, he⟩)

theorem OwnFrames.page_ne_tab (h : OwnFrames L m d) (hv : v < 262144)
    (hw : pteAt m d v = some w) (hi : i < 1024) (ht : tabOf m d i = some t) :
    pteFrame w ≠ t := fun he =>
  FrameUse.noConfusion (h.distinct (.tab d i) (.page d v) t ⟨rfl, hi, ht⟩ ⟨rfl, hv, w, hw, he⟩)

theorem OwnFrames.tab_inj (h : OwnFrames L m d) (hi : i < 1024) (hj : j < 1024)
    (ht : tabOf m d i = some t) (ht' : tabOf m d j = some t) : i = j := by
  cases h.distinct (.tab d i) (.tab d j) t ⟨rfl, hi, ht⟩ ⟨rfl, hj, ht'⟩
  rfl

theorem mem_pageFrames {n f : Nat} : f ∈ pageFrames m d v n ↔
    ∃ x w, v ≤ x ∧ x < v + n ∧ pteAt m d x = some w ∧ pteFrame w = f := by
  unfold pageFrames
  simp only [List.mem_filterMap, List.mem_range'_1, Option.map_eq_some_iff]
  constructor
  · rintro ⟨x, ⟨hle, hlt⟩, w, hw, hf⟩
    exact ⟨x, w, hle, hlt, hw, hf⟩
  · rintro ⟨x, w, hle, hlt, hw, hf⟩
    exact ⟨x, ⟨hle, hlt⟩, w, hw, hf⟩

theorem mem_tabFrames {n f : Nat} : f ∈ tabFrames m d i n ↔
    ∃ j, i ≤ j ∧ j < i + n ∧ tabOf m d j = some f := by
  unfold tabFrames
  simp only [List.mem_filterMap, List.mem_range'_1, and_assoc]

theorem nodup_filterMap {α β : Type} {f : α → Option β} {l : List α} (hl : l.Nodup)
    (hinj : ∀ a ∈ l, ∀ a' ∈ l, ∀ b, f a = some b → f a' = some b → a = a') :
    (l.filterMap f).Nodup := by
  refine List.pairwise_filterMap.mpr (hl.imp_of_mem fun {a a'} ha ha' hne b hb b' hb' he => ?_)
  exact hne (hinj a ha a' ha' b hb (he ▸ hb'))

theorem OwnFrames.nodup_pageFrames (h : OwnFrames L m d) {n : Nat} (hn : v + n ≤ 262144) :
    (pageFrames m d v n).Nodup := by
  refine nodup_filterMap List.nodup_range' fun x hx x' hx' f hf hf' => ?_
  obtain ⟨w, hw, rfl⟩ := Option.map_eq_some_iff.mp hf
  obtain ⟨w', hw', he⟩ := Option.map_eq_some_iff.mp hf'
  have hlt := (List.mem_range'_1.mp hx).2
  have hlt' := (List.mem_range'_1.mp hx').2
  cases h.distinct (.page d x) (.page d x') _ ⟨rfl, by omega, w, hw, rfl⟩
    ⟨rfl, by omega, w', hw', he⟩
  rfl

theorem OwnFrames.nodup_tabFrames (h : OwnFrames L m d) : (tabFrames m d 0 1024).Nodup := by
  refine nodup_filterMap List.nodup_range' fun i hi j hj t ht ht' => ?_
  have hlt := (List.mem_range'_1.mp hi).2
  have hlt' := (List.mem_range'_1.mp hj).2
  exact h.tab_inj (by omega) (by omega) ht ht'

/-- Everything `freevm` gives back: the pages, the page-table pages, the directory. -/
def ownFrames (m : Mem) (d : Nat) : List Nat :=
  pageFrames m d 0 262144 ++ (tabFrames m d 0 1024 ++ [d])

theorem OwnFrames.nodup (h : OwnFrames L m d) : (ownFrames m d).Nodup := by
  refine List.nodup_append.mpr ⟨h.nodup_pageFrames le_rfl, List.nodup_append.mpr
    ⟨h.nodup_tabFrames, List.nodup_singleton d, fun t ht e he => ?_⟩, fun f hf e he => ?_⟩
  · obtain ⟨i, _, hi, ht⟩ := mem_tabFrames.mp ht
    rw [List.mem_singleton.mp he]
    exact h.tab_ne_dir (by omega) ht
  · obtain ⟨x, w, _, hx, hw, rfl⟩ := mem_pageFrames.mp hf
    rcases List.mem_append.mp he with he | he
    · obtain ⟨i, _, hi, ht⟩ := mem_tabFrames.mp he
      exact h.page_ne_tab (by omega) hw (by omega) ht
    · rw [List.mem_singleton.mp he]
      exact h.page_ne_dir (by omega) hw

/-! ## Both loops do the same -/

theorem deallocLoop_done {n a : Nat} (h : oldsz ≤ a) (σ : Phys) :
    deallocLoop L d oldsz (n + 1) a σ = .ok ((), σ) := by
  rw [deallocLoop, if_neg (by omega), pure_run]

theorem deallocEach_done {n a : Nat} (h : oldsz ≤ a) (σ : Phys) :
    deallocEach L d oldsz (n + 1) a σ = .ok ((), σ) := by
  rw [deallocEach, if_neg (by omega), pure_run]

theorem next_page (hv : v < 262144) : u32 (v * 4096 + 4096) = (v + 1) * 4096 := by
  unfold u32
  omega

/-- The address the loop goes on with when page `v` has no page-table page. -/
theorem next_table (hv : v < 262144) :
    u32 (u32 (pgaddr (v / 1024 + 1) 0 0 + 2 ^ 32 - 4096) + 4096)
      = (v / 1024 + 1) * 1024 * 4096 := by
  unfold pgaddr u32
  omega

theorem deallocLoop_round {n : Nat} (hd : d ≠ 0) (hv : v < 262144) (hlt : v * 4096 < oldsz)
    (σ : Phys) : deallocLoop L d oldsz (n + 1) (v * 4096) σ =
      match tabOf σ.mem d (v / 1024) with
      | none => deallocLoop L d oldsz n ((v / 1024 + 1) * 1024 * 4096) σ
      | some t => (do
          deallocPte L (t, v % 1024)
          deallocLoop L d oldsz n ((v + 1) * 4096) : Kern Unit) σ := by
  rw [deallocLoop, if_pos hlt, bind_ok (walkpgdir_run hd _ σ), pdx_page (by omega), ptx_page]
  cases tabOf σ.mem d (v / 1024) with
  | none =>
    dsimp only [Option.map_none]
    rw [next_table hv]
  | some t =>
    dsimp only [Option.map_some]
    rw [next_page hv]

theorem deallocEach_round {n : Nat} (hd : d ≠ 0) (hv : v < 262144) (hlt : v * 4096 < oldsz)
    (σ : Phys) : deallocEach L d oldsz (n + 1) (v * 4096) σ =
      match tabOf σ.mem d (v / 1024) with
      | none => deallocEach L d oldsz n ((v + 1) * 4096) σ
      | some t => (do
          deallocPte L (t, v % 1024)
          deallocEach L d oldsz n ((v + 1) * 4096) : Kern Unit) σ := by
  rw [deallocEach, if_pos hlt, bind_ok (walkpgdir_run hd _ σ), pdx_page (by omega), ptx_page,
    next_page hv]
  cases tabOf σ.mem d (v / 1024) with
  | none => rfl
  | some t => rfl

/-- By induction on the pages left. Over an absent page-table page `deallocEach` takes one
step and then does what the loop that jumps does, by the induction hypothesis. -/
theorem deallocLoop_eq_each (hd : d ≠ 0) (hold : oldsz ≤ sharedbase) :
    ∀ (k v fuel fuel' : Nat) (σ : Phys), 262144 - v = k → v ≤ 262144 → k < fuel → k < fuel' →
      deallocLoop L d oldsz fuel (v * 4096) σ = deallocEach L d oldsz fuel' (v * 4096) σ := by
  unfold sharedbase at hold
  intro k
  induction k using Nat.strong_induction_on with
  | _ k ih =>
    intro v fuel fuel' σ hk hv hfuel hfuel'
    obtain ⟨n, rfl⟩ : ∃ n, fuel = n + 1 := ⟨fuel - 1, by omega⟩
    obtain ⟨n', rfl⟩ : ∃ n', fuel' = n' + 1 := ⟨fuel' - 1, by omega⟩
    by_cases hlt : v * 4096 < oldsz
    · have hv' : v < 262144 := by omega
      rw [deallocLoop_round hd hv' hlt, deallocEach_round hd hv' hlt]
      have hstep := fun σ' => ih (262144 - (v + 1)) (by omega) (v + 1) n n' σ' rfl (by omega)
        (by omega) (by omega)
      cases ht : tabOf σ.mem d (v / 1024) with
      | some t =>
        cases hr : deallocPte L (t, v % 1024) σ with
        | error e =>
          dsimp only
          rw [bind_error hr, bind_error hr]
        | ok p =>
          dsimp only
          rw [bind_ok hr, bind_ok hr]
          exact hstep p.2
      | none =>
        dsimp only
        rw [← hstep σ]
        by_cases hlast : v + 1 = (v / 1024 + 1) * 1024
        · rw [← hlast]
        -- the page behind is under the same entry, so the loop jumps from there as well
        have hsame : (v + 1) / 1024 = v / 1024 := by omega
        obtain ⟨n₁, rfl⟩ : ∃ n₁, n = n₁ + 1 := ⟨n - 1, by omega⟩
        by_cases hlt' : (v + 1) * 4096 < oldsz
        · rw [deallocLoop_round hd (by omega) hlt', hsame, ht]
          dsimp only
          have hjump := fun fuel hfuel => ih (262144 - (v / 1024 + 1) * 1024) (by omega)
            ((v / 1024 + 1) * 1024) fuel (262144 + 1) σ rfl (by omega) hfuel (by omega)
          rw [hjump _ (by omega), hjump _ (by omega)]
        · rw [deallocLoop_done (by omega), deallocLoop_done (by omega)]
    · rw [deallocLoop_done (by omega), deallocEach_done (by omega)]

theorem pgroundup_eq (h : v < sharedbase) : pgroundup v = (v + 4095) / 4096 * 4096 := by
  unfold sharedbase at h
  unfold pgroundup u32
  omega

theorem deallocuvm_eq_each {newsz : Nat} (hd : d ≠ 0) (hold : oldsz ≤ sharedbase) (σ : Phys) :
    deallocuvm L d oldsz newsz σ = deallocuvmEach L d oldsz newsz σ := by
  unfold deallocuvm deallocuvmEach
  by_cases hge : newsz ≥ oldsz
  · rw [if_pos hge, if_pos hge]
  · have hlt : newsz < sharedbase := by omega
    have hsmall := hlt
    unfold sharedbase at hsmall
    have hloop := deallocLoop_eq_each (L := L) hd hold _ ((newsz + 4095) / 4096) pageFuel pageFuel σ
      rfl (by omega) (by unfold pageFuel; omega) (by unfold pageFuel; omega)
    rw [if_neg hge, if_neg hge, pgroundup_eq hlt]
    cases hr : deallocEach L d oldsz pageFuel ((newsz + 4095) / 4096 * 4096) σ with
    | error e => rw [bind_error (hloop.trans hr), bind_error hr]
    | ok p => rw [bind_ok (hloop.trans hr), bind_ok hr]

/-! ## What was given back -/

theorem deallocPte_absent (h : present (word σ.mem t i) = false) :
    deallocPte L (t, i) σ = .ok ((), σ) := by
  unfold deallocPte
  rw [bind_ok (readPte_run _ σ), h]
  rfl

theorem deallocPte_present (h : present (word σ.mem t i) = true)
    (hram : Ram L (pteFrame (word σ.mem t i))) :
    deallocPte L (t, i) σ = .ok ((), ⟨setWord (junkPage σ.mem (pteFrame (word σ.mem t i))
      σ.freelist) t i 0, pteFrame (word σ.mem t i) :: σ.freelist⟩) := by
  unfold deallocPte
  rw [bind_ok (readPte_run _ σ), h, if_pos rfl, if_neg (Nat.pos_iff_ne_zero.mp hram.pos),
    bind_ok (kfree_run hram σ)]
  rfl

/-- From `σ` to `σ'` the pages of `d` from `lo` up to `hi` were given back. -/
structure Cleared (d lo hi : Nat) (σ σ' : Phys) : Prop where
  freelist : σ'.freelist = (pageFrames σ.mem d lo (hi - lo)).reverse ++ σ.freelist
  entries : ∀ i < 1024, ∀ t, tabOf σ.mem d i = some t → ∀ j < 1024, word σ'.mem t j =
    if (lo ≤ i * 1024 + j ∧ i * 1024 + j < hi) ∧ present (word σ.mem t j) = true then 0
    else word σ.mem t j
  others : ∀ f, (∀ i < 1024, tabOf σ.mem d i ≠ some f) → f ∉ pageFrames σ.mem d lo (hi - lo) →
    SamePage σ.mem σ'.mem f

theorem Cleared.refl (d lo : Nat) (σ : Phys) : Cleared d lo lo σ σ := by
  refine ⟨?_, fun i _ t _ j _ => ?_, fun f _ _ => SamePage.refl _ _⟩
  · rw [Nat.sub_self]
    rfl
  · rw [if_neg (by omega)]

theorem pageFrames_succ (hle : lo ≤ v) : pageFrames m d lo (v + 1 - lo) =
    pageFrames m d lo (v - lo) ++ ((pteAt m d v).map pteFrame).toList := by
  unfold pageFrames
  rw [show v + 1 - lo = v - lo + 1 by omega, List.range'_concat, List.filterMap_append,
    show lo + 1 * (v - lo) = v by omega]
  cases hw : pteAt m d v with
  | none => simp [hw]
  | some w => simp [hw]

/-- A page that is not present needs no step. -/
theorem Cleared.skip (h : Cleared d lo v σ σ₁) (hle : lo ≤ v) (hw : pteAt σ.mem d v = none) :
    Cleared d lo (v + 1) σ σ₁ := by
  have hframes : pageFrames σ.mem d lo (v + 1 - lo) = pageFrames σ.mem d lo (v - lo) := by
    rw [pageFrames_succ hle, hw]
    exact List.append_nil _
  refine ⟨hframes ▸ h.freelist, fun i hi t ht j hj => ?_, hframes ▸ h.others⟩
  rw [h.entries i hi t ht j hj]
  by_cases hv : i * 1024 + j = v
  · subst hv
    rw [pteAt_of_tabOf (t := t) (by rw [← ht]; congr 1; omega), show (i * 1024 + j) % 1024 = j by omega]
      at hw
    have habs : ¬ present (word σ.mem t j) = true := by
      intro hp
      rw [if_pos hp] at hw
      cases hw
    rw [if_neg (fun hc => habs hc.2), if_neg (fun hc => habs hc.2)]
  · by_cases hin : lo ≤ i * 1024 + j ∧ i * 1024 + j < v
    · simp only [hin, show i * 1024 + j < v + 1 by omega, and_self]
    · rw [if_neg (fun hc => hin hc.1), if_neg (fun hc => hin ⟨hc.1.1, by omega⟩)]

theorem Cleared.tabOf_eq (h : Cleared d lo v σ σ₁) (hown : OwnFrames L σ.mem d)
    (hv : v ≤ 262144) (hi : i < 1024) : tabOf σ₁.mem d i = tabOf σ.mem d i := by
  refine tabOf_congr (h.others d (fun j hj ht => hown.tab_ne_dir hj ht rfl) fun hmem => ?_) hi
  obtain ⟨x, w, hle, hx, hw, hf⟩ := mem_pageFrames.mp hmem
  exact hown.page_ne_dir (by omega) hw hf

/-- A page that is present: its frame goes to the free list and its entry is cleared. -/
theorem Cleared.step (h : Cleared d lo v σ σ₁) (hown : OwnFrames L σ.mem d) (hle : lo ≤ v)
    (hv : v < 262144) (ht : tabOf σ.mem d (v / 1024) = some t)
    (hp : present (word σ.mem t (v % 1024)) = true) :
    Cleared d lo (v + 1) σ ⟨setWord (junkPage σ₁.mem (pteFrame (word σ.mem t (v % 1024)))
      σ₁.freelist) t (v % 1024) 0, pteFrame (word σ.mem t (v % 1024)) :: σ₁.freelist⟩ := by
  have hlt : v % 1024 < 1024 := Nat.mod_lt _ (by omega)
  have hw : pteAt σ.mem d v = some (word σ.mem t (v % 1024)) := by
    rw [pteAt_of_tabOf ht, if_pos hp]
  have hframes : pageFrames σ.mem d lo (v + 1 - lo) =
      pageFrames σ.mem d lo (v - lo) ++ [pteFrame (word σ.mem t (v % 1024))] := by
    rw [pageFrames_succ hle, hw]
    rfl
  refine ⟨?_, fun i hi t' ht' j hj => ?_, fun f hf hmem => ?_⟩
  · rw [hframes, List.reverse_append, h.freelist]
    rfl
  · have hjunk : t' ≠ pteFrame (word σ.mem t (v % 1024)) :=
      Ne.symm (hown.page_ne_tab hv hw hi ht')
    by_cases hsame : i * 1024 + j = v
    · have hij : v / 1024 = i ∧ v % 1024 = j := by omega
      rw [hij.1, ht'] at ht
      cases ht
      rw [hij.2] at hp ⊢
      rw [if_pos ⟨by omega, hp⟩]
      exact word_setWord ..
    · have hne : t' ≠ t ∨ j ≠ v % 1024 := by
        by_contra hcon
        push Not at hcon
        obtain ⟨rfl, hmod⟩ := hcon
        have := hown.tab_inj hi (by omega) ht' ht
        omega
      show word (setWord _ t (v % 1024) 0) t' j = _
      rw [word_setWord_of_ne hlt hj hne, (samePage_junkPage hjunk).word hj, h.entries i hi t' ht' j hj]
      by_cases hin : lo ≤ i * 1024 + j ∧ i * 1024 + j < v
      · simp only [hin, show i * 1024 + j < v + 1 by omega, and_self]
      · rw [if_neg (fun hc => hin hc.1), if_neg (fun hc => hin ⟨hc.1.1, by omega⟩)]
  · rw [hframes, List.mem_append, List.mem_singleton] at hmem
    push Not at hmem
    have hft : f ≠ t := fun he => hf (v / 1024) (by omega) (he ▸ ht)
    exact ((h.others f hf hmem.1).trans (samePage_junkPage hmem.2)).trans (samePage_setWord hlt hft)

/-- The loop from page `v` on, by induction on the pages left. -/
theorem deallocEach_cleared (hown : OwnFrames L σ.mem d) (hold : oldsz ≤ sharedbase) :
    ∀ (k v fuel : Nat) (σ₁ : Phys), (oldsz + 4095) / 4096 - v = k → lo ≤ v →
      v ≤ (oldsz + 4095) / 4096 → k < fuel → Cleared d lo v σ σ₁ →
      ∃ σ₂, deallocEach L d oldsz fuel (v * 4096) σ₁ = .ok ((), σ₂) ∧
        Cleared d lo ((oldsz + 4095) / 4096) σ σ₂ := by
  have hd0 : d ≠ 0 := Nat.pos_iff_ne_zero.mp hown.dir_ram.pos
  unfold sharedbase at hold
  intro k
  induction k with
  | zero =>
    intro v fuel σ₁ hk _ hv hfuel h
    obtain ⟨n, rfl⟩ : ∃ n, fuel = n + 1 := ⟨fuel - 1, by omega⟩
    have hend : v = (oldsz + 4095) / 4096 := by omega
    exact ⟨σ₁, deallocEach_done (by omega) σ₁, hend ▸ h⟩
  | succ k ih =>
    intro v fuel σ₁ hk hle hv hfuel h
    obtain ⟨n, rfl⟩ : ∃ n, fuel = n + 1 := ⟨fuel - 1, by omega⟩
    have hnext := fun σ₂ => ih (v + 1) n σ₂ (by omega) (by omega) (by omega) (by omega)
    rw [deallocEach_round hd0 (by omega) (by omega), h.tabOf_eq hown (by omega) (by omega)]
    cases ht : tabOf σ.mem d (v / 1024) with
    | none => exact hnext σ₁ (h.skip hle (pteAt_none_of_tabOf ht))
    | some t =>
      -- the entry of page `v` is still what it was at the start
      have hword : word σ₁.mem t (v % 1024) = word σ.mem t (v % 1024) := by
        rw [h.entries _ (by omega) t ht _ (by omega), if_neg (by omega)]
      dsimp only
      cases hp : present (word σ.mem t (v % 1024)) with
      | false =>
        rw [bind_ok (deallocPte_absent (by rw [hword, hp]))]
        refine hnext σ₁ (h.skip hle ?_)
        rw [pteAt_of_tabOf ht, hp]
        rfl
      | true =>
        have hw : pteAt σ.mem d v = some (word σ.mem t (v % 1024)) := by
          rw [pteAt_of_tabOf ht, if_pos hp]
        have hram := hown.page_ram (by omega) hw
        rw [← hword] at hram
        rw [bind_ok (deallocPte_present (by rw [hword, hp]) hram), hword]
        exact hnext _ (h.step hown hle (by omega) ht hp)

/-- `deallocuvm` gives back the pages from `PGROUNDUP(newsz)` up to `oldsz`. -/
theorem deallocuvm_cleared {newsz : Nat} (hown : OwnFrames L σ.mem d) (hlt : newsz < oldsz)
    (hold : oldsz ≤ sharedbase) : ∃ σ', deallocuvm L d oldsz newsz σ = .ok (newsz, σ') ∧
      Cleared d ((newsz + 4095) / 4096) ((oldsz + 4095) / 4096) σ σ' := by
  have hd0 : d ≠ 0 := Nat.pos_iff_ne_zero.mp hown.dir_ram.pos
  have hsmall := hold
  unfold sharedbase at hsmall
  obtain ⟨σ', hrun, hclear⟩ := deallocEach_cleared hown hold _ ((newsz + 4095) / 4096) pageFuel σ
    rfl le_rfl (by omega) (by unfold pageFuel; omega) (Cleared.refl d _ σ)
  refine ⟨σ', ?_, hclear⟩
  rw [deallocuvm_eq_each hd0 hold]
  unfold deallocuvmEach
  rw [if_neg (by omega), pgroundup_eq (by omega), bind_ok hrun, pure_run]

/-! ## `freevm` -/

theorem freeTabs_run : ∀ (n i : Nat) (σ : Phys), i + n ≤ 1024 →
    (∀ j < 1024, ∀ t, tabOf σ.mem d j = some t → Ram L t ∧ t ≠ d) →
    ∃ σ', freeTabs L d n i σ = .ok ((), σ') ∧
      σ'.freelist = (tabFrames σ.mem d i n).reverse ++ σ.freelist ∧
      ∀ f ∉ tabFrames σ.mem d i n, SamePage σ.mem σ'.mem f := by
  intro n
  induction n with
  | zero =>
    intro i σ _ _
    exact ⟨σ, rfl, rfl, fun f _ => SamePage.refl _ _⟩
  | succ n ih =>
    intro i σ hi htabs
    unfold freeTabs
    rw [bind_ok (readPte_run _ σ)]
    have hframes : tabFrames σ.mem d i (n + 1)
        = (tabOf σ.mem d i).toList ++ tabFrames σ.mem d (i + 1) n := by
      unfold tabFrames
      rw [List.range'_succ, List.filterMap_cons]
      cases tabOf σ.mem d i with
      | none => rfl
      | some t => rfl
    cases hp : present (word σ.mem d i) with
    | false =>
      have hnone : tabOf σ.mem d i = none := by
        unfold tabOf
        rw [hp]
        rfl
      rw [hnone] at hframes
      obtain ⟨σ', hrun, hrest⟩ := ih (i + 1) σ (by omega) htabs
      exact ⟨σ', hrun, hframes ▸ hrest⟩
    | true =>
      have hsome : tabOf σ.mem d i = some (pteFrame (word σ.mem d i)) := by
        unfold tabOf
        rw [if_pos hp]
      obtain ⟨hram, hne⟩ := htabs i (by omega) _ hsome
      -- a page-table page is freed, the directory stays as it is
      have hdir := fun j hj => tabOf_congr (i := j)
        (samePage_junkPage (m := σ.mem) (l := σ.freelist) (Ne.symm hne)) hj
      obtain ⟨σ', hrun, hfree, hkept⟩ := ih (i + 1)
        ⟨junkPage σ.mem (pteFrame (word σ.mem d i)) σ.freelist,
          pteFrame (word σ.mem d i) :: σ.freelist⟩ (by omega)
        fun j hj t ht => htabs j hj t ((hdir j hj).symm.trans ht)
      have hsame : tabFrames (junkPage σ.mem (pteFrame (word σ.mem d i)) σ.freelist) d (i + 1) n
          = tabFrames σ.mem d (i + 1) n := by
        refine List.filterMap_congr fun j hj => hdir j ?_
        have := (List.mem_range'_1.mp hj).2
        omega
      rw [hsome] at hframes
      dsimp only at hfree hkept
      rw [hsame] at hfree hkept
      refine ⟨σ', (bind_ok (kfree_run hram σ)).trans hrun, ?_, fun f hf => ?_⟩
      · rw [hfree, hframes, List.reverse_append]
        simp
      · rw [hframes, List.mem_append, Option.mem_toList] at hf
        push Not at hf
        exact (samePage_junkPage fun he => hf.1 (congrArg some he.symm)).trans (hkept f hf.2)

theorem freevm_frees (hown : OwnFrames L σ.mem d) : ∃ σ', freevm L d σ = .ok ((), σ') ∧
    σ'.freelist = (ownFrames σ.mem d).reverse ++ σ.freelist ∧
    ∀ f ∉ ownFrames σ.mem d, SamePage σ.mem σ'.mem f := by
  have hd0 : d ≠ 0 := Nat.pos_iff_ne_zero.mp hown.dir_ram.pos
  have hpages : ∃ σ₁, deallocuvm L d sharedbase 0 σ = .ok (0, σ₁) ∧ _ :=
    deallocuvm_cleared hown (by decide) le_rfl
  obtain ⟨σ₁, hrun₁, hclear⟩ := hpages
  rw [show (0 + 4095) / 4096 = 0 from rfl, show (sharedbase + 4095) / 4096 = 262144 from rfl]
    at hclear
  have htabs := fun i hi => hclear.tabOf_eq (i := i) hown le_rfl hi
  obtain ⟨σ₂, hrun₂, hfree₂, hkept₂⟩ := freeTabs_run (L := L) (d := d) 1024 0 σ₁ le_rfl
    fun j hj t ht => by
      rw [htabs j hj] at ht
      exact ⟨hown.tab_ram hj ht, hown.tab_ne_dir hj ht⟩
  have hsame : tabFrames σ₁.mem d 0 1024 = tabFrames σ.mem d 0 1024 :=
    List.filterMap_congr fun j hj => htabs j (by simpa using (List.mem_range'_1.mp hj).2)
  have hfree₁ := hclear.freelist
  have hkept₁ := hclear.others
  rw [Nat.sub_zero] at hfree₁ hkept₁
  rw [hsame] at hfree₂ hkept₂
  refine ⟨⟨junkPage σ₂.mem d σ₂.freelist, d :: σ₂.freelist⟩, ?_, ?_, fun f hf => ?_⟩
  · unfold freevm
    rw [if_neg hd0, bind_ok hrun₁, bind_ok hrun₂]
    exact kfree_run hown.dir_ram σ₂
  · rw [hfree₂, hfree₁]
    unfold ownFrames
    rw [List.reverse_append, List.reverse_append, List.append_assoc, List.append_assoc]
    rfl
  · unfold ownFrames at hf
    simp only [List.mem_append, List.mem_singleton] at hf
    push Not at hf
    obtain ⟨hpage, htab, hdir⟩ := hf
    refine ((hkept₁ f (fun i hi ht => htab ?_) hpage).trans (hkept₂ f htab)).trans
      (samePage_junkPage hdir)
    exact mem_tabFrames.mpr ⟨i, Nat.zero_le i, by omega, ht⟩

/-! ## A directory with a window -/

/-- A kernel of 4 MB. -/
def lateKernel : Layout := ⟨0x10a000, 0x400000, by decide, by decide, by decide, by decide⟩

/-- Directory 1024 with page-table pages 1025 and 1026 maps frame 1027 at page 0 and frame 1028
twice from SHAREDBASE on. -/
def windowMem : Mem :=
  setWord (setWord (setWord (setWord (setWord (fun _ => 0) 1024 0 (1025 * 4096 + 7))
    1024 256 (1026 * 4096 + 7)) 1025 0 (1027 * 4096 + 7)) 1026 0 (1028 * 4096 + 7))
    1026 1 (1028 * 4096 + 7)

theorem word_windowMem {f i : Nat} (hi : i < 1024)
    (h : (f, i) ∉ [(1024, 0), (1024, 256), (1025, 0), (1026, 0), (1026, 1)]) :
    word windowMem f i = 0 := by
  unfold windowMem
  rw [word_setWord_of_ne (by decide) hi (by grind), word_setWord_of_ne (by decide) hi (by grind),
    word_setWord_of_ne (by decide) hi (by grind), word_setWord_of_ne (by decide) hi (by grind),
    word_setWord_of_ne (by decide) hi (by grind)]
  rfl

theorem tabOf_windowMem {i : Nat} (hi : i < 1024) : tabOf windowMem 1024 i =
    if i = 0 then some 1025 else if i = 256 then some 1026 else none := by
  by_cases h0 : i = 0
  · subst h0
    decide +kernel
  by_cases h1 : i = 256
  · subst h1
    decide +kernel
  rw [if_neg h0, if_neg h1, tabOf, word_windowMem hi (by grind)]
  rfl

theorem pteAt_windowMem {v : Nat} (hv : v < 1024) : pteAt windowMem 1024 v =
    if v = 0 then some (1027 * 4096 + 7) else none := by
  have ht : tabOf windowMem 1024 (v / 1024) = some 1025 := by
    rw [Nat.div_eq_of_lt hv]
    exact tabOf_windowMem (by decide)
  rw [pteAt_of_tabOf ht, Nat.mod_eq_of_lt hv]
  by_cases h0 : v = 0
  · subst h0
    decide +kernel
  rw [if_neg h0, word_windowMem hv (by grind)]
  rfl

theorem holds_windowMem {u : FrameUse} {f : Nat} (h : Holds windowMem {1024} ∅ u f) :
    (u = .dir 1024 ∧ f = 1024) ∨ (u = .tab 1024 0 ∧ f = 1025) ∨ (u = .tab 1024 256 ∧ f = 1026) ∨
      (u = .page 1024 0 ∧ f = 1027) := by
  cases u with
  | dir e =>
    obtain ⟨rfl, rfl⟩ := h
    exact .inl ⟨rfl, rfl⟩
  | tab e i =>
    obtain ⟨rfl, hi, ht⟩ := h
    rw [tabOf_windowMem hi] at ht
    grind
  | page e v =>
    obtain ⟨rfl, hv, w, hw, rfl⟩ := h
    obtain ⟨t, ht, -⟩ := tabOf_of_pteAt hw
    rw [tabOf_windowMem (by omega)] at ht
    have hlow : v < 1024 := by grind
    rw [pteAt_windowMem hlow] at hw
    split at hw
    · cases hw
      rename_i hv0
      exact .inr (.inr (.inr ⟨by rw [hv0], by decide⟩))
    · cases hw
  | other g => exact h.1.elim

theorem ownFrames_windowMem : OwnFrames lateKernel windowMem 1024 := by
  refine ⟨fun u f hu => ?_, fun u w f hu hw => ?_⟩
  · rcases holds_windowMem hu with ⟨-, rfl⟩ | ⟨-, rfl⟩ | ⟨-, rfl⟩ | ⟨-, rfl⟩ <;>
      exact ⟨by decide, by decide⟩
  · rcases holds_windowMem hu with ⟨rfl, rfl⟩ | ⟨rfl, rfl⟩ | ⟨rfl, rfl⟩ | ⟨rfl, rfl⟩ <;>
      rcases holds_windowMem hw with ⟨rfl, hf⟩ | ⟨rfl, hf⟩ | ⟨rfl, hf⟩ | ⟨rfl, hf⟩ <;>
      first | rfl | cases hf

/-! ## The account -/

/-- `deallocuvm` does what the loop over every page does: it gives back the frames of the pages
of `[PGROUNDUP(newsz), oldsz)`, each once, and clears their entries and no others. `freevm` gives
back the frames mapped below SHAREDBASE, the page-table pages and the directory, each once; the
other frames, among them those mapped from SHAREDBASE on, keep their bytes. -/
theorem own_frames_freed_once (hown : OwnFrames L σ.mem d) :
    (∀ oldsz newsz, newsz < oldsz → oldsz ≤ sharedbase → ∃ (σ' : Phys) (fs : List Nat),
      deallocuvm L d oldsz newsz σ = .ok (newsz, σ') ∧
      deallocuvmEach L d oldsz newsz σ = .ok (newsz, σ') ∧
      σ'.freelist = fs.reverse ++ σ.freelist ∧ fs.Nodup ∧
      (∀ f, f ∈ fs ↔ ∃ v w, pgroundup newsz ≤ v * 4096 ∧ v * 4096 < oldsz ∧
        pteAt σ.mem d v = some w ∧ pteFrame w = f) ∧
      (∀ i < 1024, word σ'.mem d i = word σ.mem d i) ∧
      ∀ i < 1024, ∀ t, tabOf σ.mem d i = some t → ∀ j < 1024, word σ'.mem t j =
        if (pgroundup newsz ≤ (i * 1024 + j) * 4096 ∧ (i * 1024 + j) * 4096 < oldsz) ∧
          present (word σ.mem t j) = true then 0 else word σ.mem t j) ∧
    ∃ (σ' : Phys) (fs : List Nat),
      freevm L d σ = .ok ((), σ') ∧ σ'.freelist = fs.reverse ++ σ.freelist ∧ fs.Nodup ∧
      (∀ f, f ∈ fs ↔ (∃ v w, v * 4096 < sharedbase ∧ pteAt σ.mem d v = some w ∧ pteFrame w = f) ∨
        (∃ i < 1024, tabOf σ.mem d i = some f) ∨ f = d) ∧
      ∀ f ∉ fs, SamePage σ.mem σ'.mem f := by
  have hd0 : d ≠ 0 := Nat.pos_iff_ne_zero.mp hown.dir_ram.pos
  refine ⟨fun oldsz newsz hlt hold => ?_, ?_⟩
  · obtain ⟨σ', hrun, hclear⟩ := deallocuvm_cleared hown hlt hold
    have hsmall := hold
    unfold sharedbase at hsmall
    rw [pgroundup_eq (show newsz < sharedbase by omega)]
    refine ⟨σ', _, hrun, deallocuvm_eq_each hd0 hold σ ▸ hrun, hclear.freelist,
      hown.nodup_pageFrames (by omega), fun f => ?_, fun i hi => ?_, fun i hi t ht j hj => ?_⟩
    · rw [mem_pageFrames]
      constructor
      · rintro ⟨x, w, hle, hx, hw, hf⟩
        exact ⟨x, w, by omega, by omega, hw, hf⟩
      · rintro ⟨x, w, hle, hx, hw, hf⟩
        exact ⟨x, w, by omega, by omega, hw, hf⟩
    · refine (hclear.others d (fun j hj ht => hown.tab_ne_dir hj ht rfl) fun hmem => ?_).word hi
      obtain ⟨x, w, hle, hx, hw, hf⟩ := mem_pageFrames.mp hmem
      exact hown.page_ne_dir (by omega) hw hf
    · rw [hclear.entries i hi t ht j hj]
      have hrange : ((newsz + 4095) / 4096 ≤ i * 1024 + j ∧ i * 1024 + j < (oldsz + 4095) / 4096) ↔
          ((newsz + 4095) / 4096 * 4096 ≤ (i * 1024 + j) * 4096 ∧
            (i * 1024 + j) * 4096 < oldsz) := by omega
      simp only [hrange]
  · obtain ⟨σ', hrun, hfree, hkept⟩ := freevm_frees hown
    refine ⟨σ', _, hrun, hfree, hown.nodup, fun f => ?_, hkept⟩
    unfold ownFrames sharedbase
    simp only [List.mem_append, List.mem_singleton, mem_pageFrames, mem_tabFrames]
    refine or_congr ⟨?_, ?_⟩ (or_congr ⟨?_, ?_⟩ Iff.rfl)
    · rintro ⟨x, w, _, hx, hw, hf⟩
      exact ⟨x, w, by omega, hw, hf⟩
    · rintro ⟨x, w, hx, hw, hf⟩
      exact ⟨x, w, Nat.zero_le x, by omega, hw, hf⟩
    · rintro ⟨i, _, hi, ht⟩
      exact ⟨i, by omega, ht⟩
    · rintro ⟨i, hi, ht⟩
      exact ⟨i, Nat.zero_le i, by omega, ht⟩

/-- Frame 1028 is mapped twice and not given back. -/
theorem own_frames_freed_once_window : OwnFrames lateKernel windowMem 1024 ∧
    ∃ σ' : Phys, freevm lateKernel 1024 ⟨windowMem, []⟩ = .ok ((), σ') ∧
      1027 ∈ σ'.freelist ∧ 1028 ∉ σ'.freelist := by
  refine ⟨ownFrames_windowMem, ?_⟩
  obtain ⟨σ', fs, hrun, hfree, -, hmem, -⟩ :=
    (own_frames_freed_once (σ := ⟨windowMem, []⟩) ownFrames_windowMem).2
  rw [List.append_nil] at hfree
  refine ⟨σ', hrun, ?_, fun hin => ?_⟩
  · rw [hfree, List.mem_reverse, hmem]
    exact .inl ⟨0, 1027 * 4096 + 7, by decide, pteAt_windowMem (by decide), by decide⟩
  · rw [hfree, List.mem_reverse, hmem] at hin
    have hheld : ∃ u, Holds windowMem {1024} ∅ u 1028 := by
      rcases hin with ⟨v, w, hv, hw, hf⟩ | ⟨i, hi, ht⟩ | he
      · exact ⟨.page 1024 v, rfl, by unfold sharedbase at hv; omega, w, hw, hf⟩
      · exact ⟨.tab 1024 i, rfl, hi, ht⟩
      · exact ⟨.dir 1024, rfl, he⟩
    obtain ⟨u, hu⟩ := hheld
    rcases holds_windowMem hu with ⟨-, h⟩ | ⟨-, h⟩ | ⟨-, h⟩ | ⟨-, h⟩ <;> cases h

end

end Xv6Sharing.Vm
