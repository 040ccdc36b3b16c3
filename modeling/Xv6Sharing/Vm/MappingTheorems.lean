/-
Xv6Sharing.Vm.MappingTheorems — what the page-table code of kernel/vm.c does
to the ledger of frames and to the page tables.

Every function has one specification. It says that the ledger still balances
(`Sound`), which directory was edited and what its entries are now (`Edit`),
and that all other directories read as before. Errors are hypotheses on
`E`: a function that can panic says what makes it panic.

`Room` counts frames: mapping takes a frame from the free list exactly when
it adds a page-table page, so running out of memory bounds how many frames
were free at the start.
-/
import Mathlib.Data.Finset.Card
import Mathlib.Data.Finset.Range
import Xv6Sharing.Vm.Ownership

namespace Xv6Sharing.Vm

open Lib

/-- The ledger of the allocator's state balances. -/
abbrev Sound (L : Layout) (D X : Set Nat) (σ : Phys) : Prop := Owned L σ.mem σ.freelist D X

/-- From `σ` to `σ'` directory `d` was edited: its entries are now `g`, and the
other directories of `D` read as before. -/
structure Edit (D : Set Nat) (d : Nat) (g : Nat → Option Nat) (σ σ' : Phys) : Prop where
  others : SameTables (D \ {d}) σ.mem σ'.mem
  pte : ∀ v < 1048576, pteAt σ'.mem d v = g v

/-- The number of page-table pages of a directory. -/
def tabCount (m : Mem) (d : Nat) : Nat :=
  ((Finset.range 1024).filter fun i => (tabOf m d i).isSome).card

/-- Frames left the free list only to become page-table pages of `d`, behind
entries from `lo` on. -/
structure Room (d lo : Nat) (σ σ' : Phys) : Prop where
  low : ∀ i < lo, i < 1024 → tabOf σ'.mem d i = tabOf σ.mem d i
  room : σ'.freelist.length + tabCount σ'.mem d = σ.freelist.length + tabCount σ.mem d

section

variable {L : Layout} {D X : Set Nat} {σ σ' σ'' : Phys} {d v f perm : Nat}
  {g g' : Nat → Option Nat} {E : Panic → Prop}

/-- At most one page-table page was added, at directory entry `i`; it came from the free
list. -/
structure OneTab (d i : Nat) (σ σ' : Phys) : Prop where
  others : ∀ j < 1024, j ≠ i → tabOf σ'.mem d j = tabOf σ.mem d j
  self : tabOf σ'.mem d i ≠ none
  taken : (if tabOf σ.mem d i = none then σ'.freelist.length + 1 else σ'.freelist.length)
    = σ.freelist.length
  suffix : σ'.freelist <:+ σ.freelist

theorem Edit.refl (D : Set Nat) (d : Nat) (σ : Phys) : Edit D d (pteAt σ.mem d) σ σ :=
  ⟨SameTables.refl _ _, fun _ _ => rfl⟩

theorem Edit.trans (h : Edit D d g σ σ') (h' : Edit D d g' σ' σ'') : Edit D d g' σ σ'' :=
  ⟨h.others.trans h'.others, h'.pte⟩

theorem Edit.congr (h : Edit D d g σ σ') (hg : ∀ v < 1048576, g v = g' v) : Edit D d g' σ σ' :=
  ⟨h.others, fun v hv => (h.pte v hv).trans (hg v hv)⟩

theorem Room.refl (d lo : Nat) (σ : Phys) : Room d lo σ σ := ⟨fun _ _ _ => rfl, rfl⟩

theorem Room.trans {lo : Nat} (h : Room d lo σ σ') (h' : Room d lo σ' σ'') : Room d lo σ σ'' :=
  ⟨fun i hi hlt => (h'.low i hi hlt).trans (h.low i hi hlt), h'.room.trans h.room⟩

theorem Room.mono {lo lo' : Nat} (h : Room d lo σ σ') (hle : lo' ≤ lo) : Room d lo' σ σ' :=
  ⟨fun i hi hlt => h.low i (by omega) hlt, h.room⟩

/-- Work that changes no directory entry. -/
theorem OneTab.of_tabs {i : Nat} (h : OneTab d i σ σ')
    (htabs : ∀ j < 1024, tabOf σ''.mem d j = tabOf σ'.mem d j)
    (hfree : σ''.freelist = σ'.freelist) (hi : i < 1024) : OneTab d i σ σ'' := by
  refine ⟨fun j hj hne => (htabs j hj).trans (h.others j hj hne), ?_, ?_, ?_⟩
  · rw [htabs i hi]
    exact h.self
  · rw [hfree]
    exact h.taken
  · rw [hfree]
    exact h.suffix

theorem OneTab.length_le {i : Nat} (h : OneTab d i σ σ') :
    σ.freelist.length ≤ σ'.freelist.length + 1 := by
  have htaken := h.taken
  split at htaken <;> omega

theorem tabCount_congr {m m' : Mem} (h : ∀ i < 1024, tabOf m' d i = tabOf m d i) :
    tabCount m' d = tabCount m d := by
  refine congrArg Finset.card (Finset.filter_congr (fun i hi => ?_))
  rw [h i (Finset.mem_range.mp hi)]

theorem tabCount_addTab {m m' : Mem} {i : Nat} (ha : AddTab D m m' d i f) (hd : d ∈ D)
    (hi : i < 1024) (habs : tabOf m d i = none) : tabCount m' d = tabCount m d + 1 := by
  unfold tabCount
  have hins : ((Finset.range 1024).filter fun j => (tabOf m' d j).isSome)
      = insert i ((Finset.range 1024).filter fun j => (tabOf m d j).isSome) := by
    ext j
    simp only [Finset.mem_filter, Finset.mem_range, Finset.mem_insert]
    by_cases hj : j < 1024
    · rw [(ha d hd).1 j hj]
      by_cases hji : j = i
      · simp [hji, hi]
      · simp [hji, hj]
    · simp only [hj, false_and, or_false, false_iff]
      omega
  rw [hins, Finset.card_insert_of_notMem]
  simp [habs]

theorem pdx_page (hv : v < 1048576) : pdx (v * 4096) = v / 1024 := by
  unfold pdx
  omega

theorem ptx_page (v : Nat) : ptx (v * 4096) = v % 1024 := by
  unfold ptx
  omega

/-! ## `walkpgdir` -/

theorem readPte_run (p : PtePtr) (σ : Phys) : readPte p σ = .ok (word σ.mem p.1 p.2, σ) := rfl

theorem writePte_run (p : PtePtr) (w : Nat) (σ : Phys) :
    writePte p w σ = .ok ((), { σ with mem := setWord σ.mem p.1 p.2 w }) := rfl

theorem memsetPage_run (f : Nat) (c : UInt8) (σ : Phys) :
    memsetPage f c σ = .ok ((), { σ with mem := fillPage σ.mem f c }) := rfl

theorem walkpgdir_run (hd : d ≠ 0) (va : Nat) (σ : Phys) :
    walkpgdir d va false σ
      = .ok ((tabOf σ.mem d (pdx va)).map (fun t => (t, ptx va)), σ) := by
  unfold walkpgdir
  rw [if_neg hd, bind_ok (readPte_run _ σ)]
  unfold tabOf
  cases present (word σ.mem d (pdx va)) with
  | true => rfl
  | false => rfl

/-- A walk with allocation finds or adds the page-table page, or runs out of
memory. -/
theorem walkpgdir_alloc (h : Sound L D X σ) (hd : d ∈ D) (hv : v < 1048576) :
    Spec E (walkpgdir d (v * 4096) true) σ (fun r σ' =>
      (r = none ∧ σ' = σ ∧ σ.freelist = [] ∧ tabOf σ.mem d (v / 1024) = none) ∨
      ∃ t, r = some (t, v % 1024) ∧ tabOf σ'.mem d (v / 1024) = some t ∧ Sound L D X σ' ∧
        Edit D d (pteAt σ.mem d) σ σ' ∧ Room d (v / 1024) σ σ' ∧ OneTab d (v / 1024) σ σ') := by
  have hd0 : d ≠ 0 := by
    have := (h.ram_dir hd).pos
    omega
  unfold walkpgdir
  rw [if_neg hd0, pdx_page hv, ptx_page]
  refine Spec.seq_ok (readPte_run _ σ) ?_
  cases hp : present (word σ.mem d (v / 1024)) with
  | true =>
    have htab : tabOf σ.mem d (v / 1024) = some (pteFrame (word σ.mem d (v / 1024))) := by
      unfold tabOf
      rw [if_pos hp]
    have hne : tabOf σ.mem d (v / 1024) ≠ none := by
      rw [htab]
      exact Option.some_ne_none _
    exact Spec.pure (Or.inr ⟨_, rfl, htab, h, Edit.refl _ _ _, Room.refl _ _ _,
      ⟨fun _ _ _ => rfl, hne, if_neg hne, List.suffix_rfl⟩⟩)
  | false =>
    have habs : tabOf σ.mem d (v / 1024) = none := by
      unfold tabOf
      rw [hp]
      rfl
    show Spec E (allocTab d (v * 4096)) σ _
    unfold allocTab
    rw [pdx_page hv, ptx_page]
    cases hfree : σ.freelist with
    | nil =>
      refine Spec.seq_ok (kalloc_none hfree) ?_
      exact Spec.pure (Or.inl ⟨rfl, rfl, rfl, habs⟩)
    | cons f rest =>
      refine Spec.seq_ok (kalloc_some hfree) ?_
      refine Spec.seq_ok (memsetPage_run f 0 _) ?_
      refine Spec.seq_ok (writePte_run _ _ _) ?_
      -- the new page-table page goes from the free list to the directory entry
      have hi : v / 1024 < 1024 := by omega
      have h1 : Owned L σ.mem rest D (insert f X) := by
        have h0 : Owned L σ.mem (f :: rest) D X := hfree ▸ h
        exact h0.kalloc
      have hfX : f ∈ insert f X := Set.mem_insert f X
      have ha := h1.addTabView hd hi habs hfX
      have h2 := h1.addTab ha hd hi habs hfX
      have hX : insert f X \ {f} = X := by
        have hfX' : f ∉ X := by
          intro hx
          have hheld : Holds σ.mem D X (.other f) f := ⟨hx, rfl⟩
          exact h.notFree hheld (by rw [hfree]; exact List.mem_cons_self)
        exact Set.insert_sdiff_self_of_notMem hfX'
      have hself : tabOf _ d (v / 1024) = some f :=
        ((ha d hd).1 _ hi).trans (if_pos ⟨rfl, rfl⟩)
      refine Spec.pure (Or.inr ⟨f, rfl, hself, hX ▸ h2, ⟨?_, ?_⟩, ⟨?_, ?_⟩, ⟨?_, ?_, ?_, ?_⟩⟩)
      · exact ha.sameTables Set.sdiff_subset (fun hc => hc.2 rfl)
      · exact (ha d hd).2
      · intro i hilt hi'
        exact ((ha d hd).1 i hi').trans (if_neg (fun hc => by omega))
      · have := tabCount_addTab ha hd hi habs
        simp only [hfree, List.length_cons]
        omega
      · intro i hi' hne
        exact ((ha d hd).1 i hi').trans (if_neg (fun hc => hne hc.2))
      · rw [hself]
        exact Option.some_ne_none _
      · exact (if_pos habs).trans (by rw [hfree, List.length_cons])
      · rw [hfree]
        exact List.suffix_cons f rest

/-! ## `mappages` -/

/-- The frames held outside page tables once `f` is mapped at page `v`: a user
page takes `f` over. -/
def unhold (X : Set Nat) (v f : Nat) : Set Nat := {x ∈ X | v < 262144 → x ≠ f}

theorem unhold_user (hv : v < 262144) : unhold X v f = X \ {f} := by
  ext x
  simp [unhold, hv]

theorem unhold_high (hv : 262144 ≤ v) : unhold X v f = X := by
  ext x
  have : ¬ v < 262144 := by omega
  simp [unhold, this]

theorem mapOne_spec (h : Sound L D X σ) (hd : d ∈ D) (hv : v < 1048576) (hf : f < 1048576)
    (hperm : perm < 4096) (hX : v < 262144 → f ∈ X)
    (hremap : pteAt σ.mem d v ≠ none → E .remap) :
    Spec E (mapOne d (v * 4096) (f * 4096) perm) σ (fun b σ' =>
      (b = false ∧ σ' = σ ∧ σ.freelist = [] ∧ tabOf σ.mem d (v / 1024) = none) ∨
      (b = true ∧ pteAt σ.mem d v = none ∧ Sound L D (unhold X v f) σ' ∧
        Edit D d (Function.update (pteAt σ.mem d) v (some (f * 4096 ||| perm ||| pteP))) σ σ' ∧
        Room d (v / 1024) σ σ' ∧ OneTab d (v / 1024) σ σ')) := by
  unfold mapOne
  refine Spec.seq (walkpgdir_alloc h hd hv) (fun r σ₁ hr => ?_)
  obtain ⟨rfl, rfl, hfree⟩ | ⟨t, rfl, ht, h₁, he, hroom, htab⟩ := hr
  · exact Spec.pure (Or.inl ⟨rfl, rfl, hfree⟩)
  refine Spec.seq_ok (readPte_run _ σ₁) ?_
  have hpte : pteAt σ₁.mem d v = pteAt σ.mem d v := he.pte v hv
  rw [pteAt_of_tabOf ht] at hpte
  cases hp : present (word σ₁.mem t (v % 1024)) with
  | true =>
    rw [if_pos hp] at hpte
    exact Spec.throw (hremap (by rw [← hpte]; simp))
  | false =>
    have habs : pteAt σ.mem d v = none := by
      rw [← hpte, hp]
      rfl
    have habs₁ : pteAt σ₁.mem d v = none := (he.pte v hv).trans habs
    have hw := mk_lt hf hperm
    have hs := h₁.setPte hd hv ht hw
    refine Spec.seq_ok (writePte_run _ _ _) (Spec.pure (Or.inr ⟨rfl, habs, ?_, ?_, ?_,
      htab.of_tabs (fun i hi => (hs d hd).1 i hi) rfl (by omega)⟩))
    · -- a user page takes the frame over; higher pages are not counted
      by_cases hlow : v < 262144
      · rw [unhold_user hlow]
        have := h₁.mapUser hs hd hlow habs₁ (present_mk f perm)
          (by rw [pteFrame_mk hperm]; exact hX hlow)
        rw [pteFrame_mk hperm] at this
        exact this
      · rw [unhold_high (by omega)]
        exact h₁.setHigh hs (by omega)
    · refine ⟨he.others.trans (hs.sameTables Set.sdiff_subset (fun hc => hc.2 rfl)), ?_⟩
      intro v' hv'
      rw [(hs d hd).2 v' hv', Function.update_apply]
      by_cases hvv : v' = v
      · rw [if_pos ⟨rfl, hvv⟩, if_pos hvv, if_pos (present_mk f perm)]
      · rw [if_neg (fun hc => hvv hc.2), if_neg hvv]
        exact he.pte v' hv'
    · refine ⟨fun i hi hlt => ((hs d hd).1 i hlt).trans (hroom.low i hi hlt), ?_⟩
      rw [← hroom.room]
      show σ₁.freelist.length + tabCount (setWord σ₁.mem t (v % 1024) _) d = _
      rw [tabCount_congr (fun i hi => (hs d hd).1 i hi)]

theorem mappages_page (hv : v < 1048576) (pa perm : Nat) (σ : Phys) :
    mappages d (v * 4096) 4096 pa perm σ = mapOne d (v * 4096) pa perm σ := by
  have hlast : pgrounddown (u32 (v * 4096 + 4096 + 2 ^ 32 - 1)) = v * 4096 := by
    unfold pgrounddown u32
    omega
  have hfirst : pgrounddown (v * 4096) = v * 4096 := by
    unfold pgrounddown
    omega
  unfold mappages
  rw [hlast, hfirst]
  show mappagesLoop d (v * 4096) perm (1048576 + 1) (v * 4096) pa σ = _
  unfold mappagesLoop
  cases hr : mapOne d (v * 4096) pa perm σ with
  | error e => exact bind_error hr
  | ok p =>
    obtain ⟨b, σ'⟩ := p
    rw [bind_ok hr]
    cases b with
    | true =>
      rw [if_pos rfl, if_pos rfl]
      rfl
    | false => rfl

/-- The entries `g` with `n` pages from `v` on mapped to the frames from `f` on. -/
def mapRange (v n f perm : Nat) (g : Nat → Option Nat) (x : Nat) : Option Nat :=
  if v ≤ x ∧ x < v + n then some ((f + (x - v)) * 4096 ||| perm ||| pteP) else g x

/-- The loop of `mappages` above SHAREDBASE, by induction on the pages left:
a prefix of them is mapped, all of them unless memory ran out. -/
theorem mappagesLoop_spec (hd : d ∈ D) (hperm : perm < 4096) :
    ∀ (n fuel v f : Nat) (σ : Phys), Sound L D X σ → 262144 ≤ v → v + n < 1048576 →
      f + n < 1048576 → n < fuel →
      (∀ x, v ≤ x → x ≤ v + n → pteAt σ.mem d x ≠ none → E .remap) →
      Spec E (mappagesLoop d ((v + n) * 4096) perm fuel (v * 4096) (f * 4096)) σ (fun b σ' =>
        Sound L D X σ' ∧ Room d (v / 1024) σ σ' ∧ (b = false → σ'.freelist = []) ∧
        ∃ k, k ≤ n + 1 ∧ (b = true → k = n + 1) ∧
          Edit D d (mapRange v k f perm (pteAt σ.mem d)) σ σ') := by
  intro n
  induction n with
  | zero =>
    intro fuel v f σ h hlow hv hf hfuel hremap
    obtain ⟨fuel, rfl⟩ := Nat.exists_eq_add_of_lt hfuel
    rw [Nat.zero_add]
    unfold mappagesLoop
    refine Spec.seq (mapOne_spec h hd (by omega) (by omega) hperm (fun hc => by omega)
      (hremap v le_rfl (by omega))) (fun b σ₁ hb => ?_)
    obtain ⟨rfl, rfl, hfree, _⟩ | ⟨rfl, _, h₁, he, hroom, _⟩ := hb
    · refine Spec.pure ⟨h, Room.refl _ _ _, fun _ => hfree, 0, by omega, by simp, ?_⟩
      exact (Edit.refl D d _).congr (fun x _ => by simp [mapRange])
    · rw [unhold_high hlow] at h₁
      rw [if_pos rfl, if_pos (by simp)]
      refine Spec.pure ⟨h₁, hroom, by simp, 1, le_rfl, by simp, he.congr (fun x _ => ?_)⟩
      rw [Function.update_apply]
      unfold mapRange
      by_cases hxv : x = v
      · rw [if_pos hxv, if_pos (by omega), hxv, Nat.sub_self, Nat.add_zero]
      · rw [if_neg hxv, if_neg (by omega)]
  | succ n ih =>
    intro fuel v f σ h hlow hv hf hfuel hremap
    obtain ⟨fuel, rfl⟩ := Nat.exists_eq_add_of_lt hfuel
    show Spec E (mappagesLoop d _ perm (n + 1 + fuel + 1) _ _) σ _
    unfold mappagesLoop
    refine Spec.seq (mapOne_spec h hd (by omega) (by omega) hperm (fun hc => by omega)
      (hremap v le_rfl (by omega))) (fun b σ₁ hb => ?_)
    obtain ⟨rfl, rfl, hfree, _⟩ | ⟨rfl, _, h₁, he, hroom, _⟩ := hb
    · refine Spec.pure ⟨h, Room.refl _ _ _, fun _ => hfree, 0, by omega, by simp, ?_⟩
      exact (Edit.refl D d _).congr (fun x _ => by simp [mapRange])
    · rw [unhold_high hlow] at h₁
      have hnext : u32 (v * 4096 + 4096) = (v + 1) * 4096 := by
        unfold u32
        omega
      have hnextf : u32 (f * 4096 + 4096) = (f + 1) * 4096 := by
        unfold u32
        omega
      rw [if_pos rfl, if_neg (by omega), hnext, hnextf,
        show v + (n + 1) = v + 1 + n by omega]
      have hkeep : ∀ x, x < 1048576 → x ≠ v → pteAt σ₁.mem d x = pteAt σ.mem d x := by
        intro x hx hxv
        rw [he.pte x hx, Function.update_of_ne hxv]
      have hgo := ih (n + 1 + fuel) (v + 1) (f + 1) σ₁ h₁ (by omega) (by omega) (by omega)
        (by omega) (fun x hx hx' hne =>
          hremap x (by omega) (by omega) (by rw [← hkeep x (by omega) (by omega)]; exact hne))
      refine hgo.mono (fun b σ₂ hb => ?_)
      obtain ⟨h₂, hroom₂, hfail, k, hk, hall, he₂⟩ := hb
      refine ⟨h₂, hroom.trans (hroom₂.mono (by omega)), hfail, k + 1, by omega,
        fun hb => by rw [hall hb], (he.trans he₂).congr (fun x hx => ?_)⟩
      unfold mapRange
      by_cases hxv : x = v
      · rw [if_neg (by omega), if_pos (by omega), he.pte x hx, hxv, Function.update_self,
          Nat.sub_self, Nat.add_zero]
      · by_cases hin : v + 1 ≤ x ∧ x < v + 1 + k
        · rw [if_pos hin, if_pos (by omega), show f + 1 + (x - (v + 1)) = f + (x - v) by omega]
        · rw [if_neg hin, if_neg (by omega)]
          exact hkeep x hx hxv

theorem mappages_eq_loop {n : Nat} (hv : v + n < 1048576) (pa perm : Nat) :
    mappages d (v * 4096) ((n + 1) * 4096) pa perm
      = mappagesLoop d ((v + n) * 4096) perm pageFuel (v * 4096) pa := by
  have hlast : pgrounddown (u32 (v * 4096 + (n + 1) * 4096 + 2 ^ 32 - 1)) = (v + n) * 4096 := by
    unfold pgrounddown u32
    omega
  have hfirst : pgrounddown (v * 4096) = v * 4096 := by
    unfold pgrounddown
    omega
  unfold mappages
  rw [hlast, hfirst]

theorem mappages_spec {n : Nat} (h : Sound L D X σ) (hd : d ∈ D) (hperm : perm < 4096)
    (hlow : 262144 ≤ v) (hn : 0 < n) (hv : v + n ≤ 1048576) (hf : f + n ≤ 1048576)
    (hremap : ∀ x, v ≤ x → x < v + n → pteAt σ.mem d x ≠ none → E .remap) :
    Spec E (mappages d (v * 4096) (n * 4096) (f * 4096) perm) σ (fun b σ' =>
      Sound L D X σ' ∧ Room d (v / 1024) σ σ' ∧ (b = false → σ'.freelist = []) ∧
      ∃ k, k ≤ n ∧ (b = true → k = n) ∧
        Edit D d (mapRange v k f perm (pteAt σ.mem d)) σ σ') := by
  obtain ⟨n, rfl⟩ := Nat.exists_eq_add_of_lt hn
  rw [Nat.zero_add, mappages_eq_loop (by omega)]
  have hgo := mappagesLoop_spec (E := E) hd hperm n pageFuel v f σ h hlow (by omega) (by omega)
    (by unfold pageFuel; omega) (fun x hx hx' => hremap x hx (by omega))
  refine hgo.mono (fun b σ' hb => ?_)
  obtain ⟨h', hroom, hfail, k, hk, hall, he⟩ := hb
  exact ⟨h', hroom, hfail, k, by omega, fun hb => by rw [hall hb], he⟩

/-! ## `deallocuvm` -/

/-- One page of `deallocuvm`: the frame goes from the page to the free list. -/
theorem deallocPte_spec {t : Nat} (h : Sound L D X σ) (hd : d ∈ D) (hv : v < 262144)
    (ht : tabOf σ.mem d (v / 1024) = some t) :
    Spec E (deallocPte L (t, v % 1024)) σ (fun _ σ' =>
      Sound L D X σ' ∧ Edit D d (Function.update (pteAt σ.mem d) v none) σ σ' ∧
      (∀ i < 1024, tabOf σ'.mem d i = tabOf σ.mem d i) ∧ σ.freelist <:+ σ'.freelist) := by
  have hlt : v % 1024 < 1024 := Nat.mod_lt _ (by omega)
  unfold deallocPte
  refine Spec.seq_ok (readPte_run _ σ) ?_
  have hpte := pteAt_of_tabOf ht
  cases hp : present (word σ.mem t (v % 1024)) with
  | false =>
    rw [hp] at hpte
    refine Spec.pure ⟨h, (Edit.refl D d σ).congr (fun x _ => ?_), fun _ _ => rfl,
      List.suffix_refl _⟩
    rw [Function.update_apply]
    by_cases hx : x = v
    · rw [if_pos hx, hx, hpte]
      rfl
    · rw [if_neg hx]
  | true =>
    rw [if_pos hp] at hpte
    have hram := h.ram_page hd hv hpte
    have htf : t ≠ pteFrame (word σ.mem t (v % 1024)) := by
      intro he
      exact (h.notTable_of_page hd hv hpte).2 d hd (v / 1024) (by omega) (he ▸ ht)
    rw [if_pos rfl, if_neg (Nat.pos_iff_ne_zero.mp hram.pos)]
    refine Spec.seq_ok (kfree_run hram σ) ?_
    refine Spec.of_ok (writePte_run (t, v % 1024) 0 _) ?_
    simp only
    -- clearing the entry first and freeing the frame then is the same memory
    rw [setWord_junkPage hlt htf]
    have hs := h.setPte hd (by omega) ht (show 0 < 2 ^ 32 by decide)
    have h₁ := h.unmap hs hd hv hpte
    have hfX : pteFrame (word σ.mem t (v % 1024)) ∈
        insert (pteFrame (word σ.mem t (v % 1024))) X := Set.mem_insert _ _
    have h₂ := h₁.kfree hfX
    have hX : insert (pteFrame (word σ.mem t (v % 1024))) X \
        {pteFrame (word σ.mem t (v % 1024))} = X := by
      refine Set.insert_sdiff_self_of_notMem (fun hx => ?_)
      have hother : Holds σ.mem D X (.other (pteFrame (word σ.mem t (v % 1024))))
        (pteFrame (word σ.mem t (v % 1024))) := ⟨hx, rfl⟩
      have hpage : Holds σ.mem D X (.page d v) (pteFrame (word σ.mem t (v % 1024))) :=
        ⟨hd, hv, _, hpte, rfl⟩
      exact FrameUse.noConfusion (h.inj hother hpage)
    have hj := sameTables_junkPage (h₁.notTable_of_other hfX) σ.freelist
    refine ⟨hX ▸ h₂, ⟨?_, fun x hx => ?_⟩, fun i hi => ?_, List.suffix_cons _ _⟩
    · have hs' : SameTables (D \ {d}) σ.mem (setWord σ.mem t (v % 1024) 0) :=
        hs.sameTables Set.sdiff_subset (fun hc => hc.2 rfl)
      exact hs'.trans (hj.mono Set.sdiff_subset)
    · rw [(hj d hd).2 x hx, (hs d hd).2 x hx, Function.update_apply]
      by_cases hxv : x = v
      · rw [if_pos ⟨rfl, hxv⟩, if_pos hxv]
        rfl
      · rw [if_neg (fun hc => hxv hc.2), if_neg hxv]
    · rw [(hj d hd).1 i hi, (hs d hd).1 i hi]

/-- The entries `g` without the pages from `v` up to address `top`. -/
def dropRange (v top : Nat) (g : Nat → Option Nat) (x : Nat) : Option Nat :=
  if v ≤ x ∧ x * 4096 < top then none else g x

/-- The loop of `deallocuvm`, by induction on the fuel. Where a page-table
page is missing the loop skips to the next one: all it skips is absent. -/
theorem deallocLoop_spec {oldsz : Nat} (hd : d ∈ D) (hold : oldsz ≤ sharedbase) :
    ∀ (fuel v : Nat) (σ : Phys), Sound L D X σ → v ≤ 262144 → 262144 - v < fuel →
      Spec E (deallocLoop L d oldsz fuel (v * 4096)) σ (fun _ σ' =>
        Sound L D X σ' ∧ Edit D d (dropRange v oldsz (pteAt σ.mem d)) σ σ' ∧
        (∀ i < 1024, tabOf σ'.mem d i = tabOf σ.mem d i) ∧ σ.freelist <:+ σ'.freelist) := by
  unfold sharedbase at hold
  intro fuel
  induction fuel with
  | zero => intro v σ _ _ hfuel; omega
  | succ fuel ih =>
    intro v σ h hv hfuel
    have hd0 : d ≠ 0 := by
      have := (h.ram_dir hd).pos
      omega
    unfold deallocLoop
    by_cases hlt : v * 4096 < oldsz
    · rw [if_pos hlt]
      refine Spec.seq_ok (walkpgdir_run hd0 _ σ) ?_
      rw [pdx_page (by omega), ptx_page]
      cases ht : tabOf σ.mem d (v / 1024) with
      | none =>
        have hskip : u32 (u32 (pgaddr (v / 1024 + 1) 0 0 + 2 ^ 32 - 4096) + 4096)
            = (v / 1024 + 1) * 1024 * 4096 := by
          unfold u32 pgaddr u32
          omega
        show Spec E (deallocLoop L d oldsz fuel _) σ _
        rw [hskip]
        refine (ih _ σ h (by omega) (by omega)).mono (fun _ σ' hr => ?_)
        obtain ⟨h', he, htabs, hsuf⟩ := hr
        refine ⟨h', he.congr (fun x hx => ?_), htabs, hsuf⟩
        unfold dropRange
        by_cases hin : (v / 1024 + 1) * 1024 ≤ x ∧ x * 4096 < oldsz
        · rw [if_pos hin, if_pos ⟨by omega, hin.2⟩]
        · rw [if_neg hin]
          by_cases hin' : v ≤ x ∧ x * 4096 < oldsz
          · rw [if_pos hin']
            exact pteAt_none_of_tabOf (by rw [show x / 1024 = v / 1024 by omega]; exact ht)
          · rw [if_neg hin']
      | some t =>
        have hnext : u32 (v * 4096 + 4096) = (v + 1) * 4096 := by
          unfold u32
          omega
        show Spec E (deallocPte L (t, v % 1024) >>= fun _ =>
          deallocLoop L d oldsz fuel (u32 (v * 4096 + 4096))) σ _
        rw [hnext]
        refine Spec.seq (deallocPte_spec h hd (by omega) ht) (fun _ σ₁ hr => ?_)
        obtain ⟨h₁, he₁, htabs₁, hsuf₁⟩ := hr
        refine (ih (v + 1) σ₁ h₁ (by omega) (by omega)).mono (fun _ σ₂ hr => ?_)
        obtain ⟨h₂, he₂, htabs₂, hsuf₂⟩ := hr
        refine ⟨h₂, (he₁.trans he₂).congr (fun x hx => ?_),
          fun i hi => (htabs₂ i hi).trans (htabs₁ i hi), hsuf₁.trans hsuf₂⟩
        unfold dropRange
        rw [he₁.pte x hx, Function.update_apply]
        by_cases hxv : x = v
        · rw [if_neg (by omega), if_pos hxv, if_pos (by omega)]
        · by_cases hin : v + 1 ≤ x ∧ x * 4096 < oldsz
          · rw [if_pos hin, if_pos (by omega)]
          · rw [if_neg hin, if_neg hxv, if_neg (by omega)]
    · rw [if_neg hlt]
      refine Spec.pure ⟨h, (Edit.refl D d σ).congr (fun x _ => ?_), fun _ _ => rfl,
        List.suffix_refl _⟩
      unfold dropRange
      rw [if_neg (by omega)]

theorem deallocuvm_spec {oldsz : Nat} (newsz : Nat) (h : Sound L D X σ) (hd : d ∈ D)
    (hold : oldsz ≤ sharedbase) :
    Spec E (deallocuvm L d oldsz newsz) σ (fun r σ' =>
      r = min oldsz newsz ∧ Sound L D X σ' ∧
      Edit D d (dropRange ((newsz + 4095) / 4096) oldsz (pteAt σ.mem d)) σ σ' ∧
      (∀ i < 1024, tabOf σ'.mem d i = tabOf σ.mem d i) ∧ σ.freelist <:+ σ'.freelist) := by
  have hold' := hold
  unfold sharedbase at hold'
  unfold deallocuvm
  by_cases hge : newsz ≥ oldsz
  · rw [if_pos hge]
    refine Spec.pure ⟨by omega, h, (Edit.refl D d σ).congr (fun x _ => ?_), fun _ _ => rfl,
      List.suffix_refl _⟩
    unfold dropRange
    rw [if_neg (by omega)]
  · have hup : pgroundup newsz = (newsz + 4095) / 4096 * 4096 := by
      unfold pgroundup u32
      omega
    rw [if_neg hge, hup]
    refine Spec.seq (deallocLoop_spec hd hold pageFuel _ σ h (by omega)
      (by unfold pageFuel; omega)) (fun _ σ' hr => ?_)
    obtain ⟨h', he, htabs, hsuf⟩ := hr
    exact Spec.pure ⟨by omega, h', he, htabs, hsuf⟩

/-- The frames of the pages `deallocuvm` took away are on the free list. -/
theorem dropped_free {v top x w : Nat} (h : Sound L D X σ) (h' : Sound L D X σ')
    (hedit : Edit D d (dropRange v top (pteAt σ.mem d)) σ σ')
    (htabs : ∀ i < 1024, tabOf σ'.mem d i = tabOf σ.mem d i) (hd : d ∈ D) (hx : x < 262144)
    (hin : v ≤ x ∧ x * 4096 < top) (hw : pteAt σ.mem d x = some w) :
    pteFrame w ∈ σ'.freelist := by
  have hheld : Holds σ.mem D X (.page d x) (pteFrame w) := ⟨hd, hx, w, hw, rfl⟩
  refine Ledger.mem_free_of_dropped h h' (fun u f hu => ?_) hheld (fun hc => ?_)
  · cases u with
    | dir e => exact hu
    | other g => exact hu
    | tab e i =>
      obtain ⟨he, hi, ht⟩ := hu
      refine ⟨he, hi, ?_⟩
      by_cases hed : e = d
      · rw [hed] at ht ⊢
        rw [← htabs i hi]
        exact ht
      · rw [← (hedit.others e ⟨he, hed⟩).1 i hi]
        exact ht
    | page e y =>
      obtain ⟨he, hy, w', hw', hf⟩ := hu
      refine ⟨he, hy, w', ?_, hf⟩
      by_cases hed : e = d
      · rw [hed] at hw' ⊢
        rw [hedit.pte y (by omega)] at hw'
        unfold dropRange at hw'
        split at hw'
        · cases hw'
        · exact hw'
      · rw [← (hedit.others e ⟨he, hed⟩).2 y (by omega)]
        exact hw'
  · obtain ⟨_, _, w', hw', _⟩ := hc
    rw [hedit.pte x (by omega)] at hw'
    unfold dropRange at hw'
    rw [if_pos hin] at hw'
    cases hw'

/-! ## `freevm` -/

/-- `freevm`'s loop over the directory entries, once the directory is given
up: its page-table pages are held outside page tables, and go one by one. -/
theorem freeTabs_spec : ∀ (n i : Nat) (X : Set Nat) (σ : Phys), i + n = 1024 → Sound L D X σ →
    (∀ j t, i ≤ j → j < 1024 → tabOf σ.mem d j = some t → t ∈ X ∧ t ≠ d) →
    (∀ j k t, i ≤ j → j < 1024 → i ≤ k → k < 1024 → tabOf σ.mem d j = some t →
      tabOf σ.mem d k = some t → j = k) →
    Spec E (freeTabs L d n i) σ (fun _ σ' =>
      Sound L D {x ∈ X | ∀ j, i ≤ j → j < 1024 → tabOf σ.mem d j ≠ some x} σ' ∧
      SameTables D σ.mem σ'.mem ∧ σ.freelist <:+ σ'.freelist) := by
  intro n
  induction n with
  | zero =>
    intro i X σ hi h _ _
    have hX : {x ∈ X | ∀ j, i ≤ j → j < 1024 → tabOf σ.mem d j ≠ some x} = X := by
      ext x
      simp only [Set.mem_ofPred_eq, and_iff_left_iff_imp]
      intro _ j hj hj'
      omega
    rw [hX]
    exact Spec.pure ⟨h, SameTables.refl _ _, List.suffix_refl _⟩
  | succ n ih =>
    intro i X σ hi h htab hinj
    unfold freeTabs
    refine Spec.seq_ok (readPte_run _ σ) ?_
    cases hp : present (word σ.mem d i) with
    | false =>
      have hnone : tabOf σ.mem d i = none := by
        unfold tabOf
        rw [hp]
        rfl
      refine (ih (i + 1) X σ (by omega) h (fun j t hj => htab j t (by omega))
        (fun j k t hj hj' hk => hinj j k t (by omega) hj' (by omega))).mono (fun _ σ' hr => ?_)
      obtain ⟨h', hs, hsuf⟩ := hr
      refine ⟨?_, hs, hsuf⟩
      have hX : {x ∈ X | ∀ j, i ≤ j → j < 1024 → tabOf σ.mem d j ≠ some x}
          = {x ∈ X | ∀ j, i + 1 ≤ j → j < 1024 → tabOf σ.mem d j ≠ some x} := by
        ext x
        refine and_congr_right (fun _ => ⟨fun hx j hj => hx j (by omega), fun hx j hj hj' => ?_⟩)
        by_cases hji : j = i
        · rw [hji, hnone]
          simp
        · exact hx j (by omega) hj'
      rw [hX]
      exact h'
    | true =>
      have hsome : tabOf σ.mem d i = some (pteFrame (word σ.mem d i)) := by
        unfold tabOf
        rw [if_pos hp]
      obtain ⟨hX, hne⟩ := htab i _ le_rfl (by omega) hsome
      refine Spec.seq_ok (kfree_run (h.ram_other hX) σ) ?_
      -- the directory page itself is untouched, so the entries still to come are the same
      have hsame : ∀ j < 1024, tabOf (junkPage σ.mem (pteFrame (word σ.mem d i)) σ.freelist) d j
          = tabOf σ.mem d j :=
        fun j hj => tabOf_congr (samePage_junkPage (Ne.symm hne)) hj
      have hs₁ := sameTables_junkPage (h.notTable_of_other hX) σ.freelist
      refine (ih (i + 1) _ _ (by omega) (h.kfree hX) ?_ ?_).mono (fun _ σ' hr => ?_)
      · intro j t hj hj' ht
        have ht' : tabOf σ.mem d j = some t := (hsame j hj').symm.trans ht
        obtain ⟨htX, htd⟩ := htab j t (by omega) hj' ht'
        refine ⟨⟨htX, fun hc => ?_⟩, htd⟩
        have hc' : t = pteFrame (word σ.mem d i) := hc
        subst hc'
        have := hinj j i _ (by omega) hj' le_rfl (by omega) ht' hsome
        omega
      · intro j k t hj hj' hk hk' htj htk
        exact hinj j k t (by omega) hj' (by omega) hk' ((hsame j hj').symm.trans htj)
          ((hsame k hk').symm.trans htk)
      · obtain ⟨h', hs₂, hsuf⟩ := hr
        refine ⟨?_, hs₁.trans hs₂, (List.suffix_cons _ _).trans hsuf⟩
        have hX' : {x ∈ X | ∀ j, i ≤ j → j < 1024 → tabOf σ.mem d j ≠ some x}
            = {x ∈ X \ {pteFrame (word σ.mem d i)} | ∀ j, i + 1 ≤ j → j < 1024 →
                tabOf (junkPage σ.mem (pteFrame (word σ.mem d i)) σ.freelist) d j
                  ≠ some x} := by
          ext x
          refine ⟨fun hx => ⟨⟨hx.1, fun hc => ?_⟩, fun j hj hj' => ?_⟩,
            fun hx => ⟨hx.1.1, fun j hj hj' => ?_⟩⟩
          · have hc' : x = pteFrame (word σ.mem d i) := hc
            exact hx.2 i le_rfl (by omega) (hc' ▸ hsome)
          · rw [hsame j hj']
            exact hx.2 j (by omega) hj'
          · by_cases hji : j = i
            · rw [hji, hsome]
              exact fun hc => hx.1.2 (Option.some.inj hc).symm
            · have := hx.2 j (by omega) hj'
              rw [hsame j hj'] at this
              exact this
        rw [hX']
        exact h'

/-- `freevm` gives back everything a directory holds. -/
theorem freevm_spec (h : Sound L D X σ) (hd : d ∈ D) :
    Spec E (freevm L d) σ (fun _ σ' =>
      Sound L (D \ {d}) X σ' ∧ SameTables (D \ {d}) σ.mem σ'.mem ∧
      σ.freelist <:+ σ'.freelist) := by
  have hd0 : d ≠ 0 := Nat.pos_iff_ne_zero.mp (h.ram_dir hd).pos
  unfold freevm
  rw [if_neg hd0]
  refine Spec.seq (deallocuvm_spec 0 h hd le_rfl) (fun _ σ₁ hr => ?_)
  obtain ⟨_, h₁, he₁, htabs₁, hsuf₁⟩ := hr
  have hempty : ∀ v < 262144, pteAt σ₁.mem d v = none := by
    intro v hv
    rw [he₁.pte v (by omega)]
    unfold dropRange sharedbase
    rw [if_pos (by omega)]
  have hdX : d ∉ X := by
    intro hx
    exact (h₁.notTable_of_other hx).1 hd
  have htX : ∀ i t, i < 1024 → tabOf σ₁.mem d i = some t → t ∉ X := by
    intro i t hi ht hx
    exact (h₁.notTable_of_other hx).2 d hd i hi ht
  refine Spec.seq (freeTabs_spec 1024 0 _ σ₁ (by omega) (h₁.dropDir hd hempty) ?_ ?_)
    (fun _ σ₂ hr => ?_)
  · intro j t _ hj ht
    refine ⟨Or.inr (Or.inr ⟨j, hj, ht⟩), ?_⟩
    rintro rfl
    exact h₁.tab_not_dir hd hj ht hd
  · intro j k t _ hj _ hk htj htk
    exact (h₁.tab_inj hd hk htk hd hj htj).2
  · obtain ⟨h₂, hs₂, hsuf₂⟩ := hr
    have hX₂ : {x ∈ X ∪ insert d (tabsOf σ₁.mem d) | ∀ j, 0 ≤ j → j < 1024 →
        tabOf σ₁.mem d j ≠ some x} = insert d X := by
      ext x
      refine ⟨fun hx => ?_, fun hx => ?_⟩
      · obtain ⟨hx | rfl | ⟨i, hi, ht⟩, hno⟩ := hx
        · exact Or.inr hx
        · exact Or.inl rfl
        · exact absurd ht (hno i (by omega) hi)
      · obtain rfl | hx := hx
        · exact ⟨Or.inr (Or.inl rfl), fun j _ hj ht => h₁.tab_not_dir hd hj ht hd⟩
        · exact ⟨Or.inl hx, fun j _ hj ht => htX j x hj ht hx⟩
    rw [hX₂] at h₂
    have hmem : d ∈ insert d X := Set.mem_insert d X
    refine Spec.of_ok (kfree_run (h₂.ram_other hmem) σ₂) ⟨?_, ?_, ?_⟩
    · have h₃ := h₂.kfree hmem
      rw [Set.insert_sdiff_self_of_notMem hdX] at h₃
      exact h₃
    · exact (he₁.others.trans hs₂).trans (sameTables_junkPage (h₂.notTable_of_other hmem) _)
    · exact (hsuf₁.trans hsuf₂).trans (List.suffix_cons _ _)

/-! ## `freerange` -/

theorem freerangeLoop_spec : ∀ (n a : Nat) (X : Set Nat) (σ : Phys), Sound L D X σ →
    (∀ f, a ≤ f → f < a + n → f ∈ X) →
    Spec E (freerangeLoop L n a) σ (fun _ σ' =>
      Sound L D {f ∈ X | ¬ (a ≤ f ∧ f < a + n)} σ' ∧ SameTables D σ.mem σ'.mem ∧
      σ'.freelist.length = σ.freelist.length + n) := by
  intro n
  induction n with
  | zero =>
    intro a X σ h _
    have hX : {f ∈ X | ¬ (a ≤ f ∧ f < a + 0)} = X := by
      ext f
      simp only [Set.mem_ofPred_eq, and_iff_left_iff_imp]
      intro _
      omega
    rw [hX]
    exact Spec.pure ⟨h, SameTables.refl _ _, rfl⟩
  | succ n ih =>
    intro a X σ h hX
    have ha : a ∈ X := hX a le_rfl (by omega)
    unfold freerangeLoop
    refine Spec.seq_ok (kfree_run (h.ram_other ha) σ) ?_
    refine (ih (a + 1) (X \ {a}) _ (h.kfree ha) (fun f h1 h2 => ?_)).mono
      (fun _ σ' hr => ?_)
    · exact ⟨hX f (by omega) (by omega), fun he => by rw [he] at h1; omega⟩
    · obtain ⟨h₁, hs, hlen⟩ := hr
      have hset : {f ∈ X \ {a} | ¬ (a + 1 ≤ f ∧ f < a + 1 + n)}
          = {f ∈ X | ¬ (a ≤ f ∧ f < a + (n + 1))} := by
        ext f
        simp only [Set.mem_ofPred_eq, Set.mem_sdiff, Set.mem_singleton_iff]
        constructor
        · intro hf
          exact ⟨hf.1.1, by omega⟩
        · intro hf
          exact ⟨⟨hf.1, by omega⟩, by omega⟩
      rw [hset] at h₁
      refine ⟨h₁, (sameTables_junkPage (h.notTable_of_other ha) _).trans hs, ?_⟩
      rw [hlen]
      show σ.freelist.length + 1 + n = _
      omega

end

end Xv6Sharing.Vm
