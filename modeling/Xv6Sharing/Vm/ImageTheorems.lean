/-
Xv6Sharing.Vm.ImageTheorems — building address spaces.

`setupkvm` maps the kernel into a fresh directory; the result is read off
the table `kmap` (`kmapPte`). `allocuvm`, `copyuvm`, `inituvm`, `clearpteu`,
`loaduvm` and `copyout` work on the user part below SHAREDBASE; an image of
size `sz` (`Image`) has exactly the pages below `sz` present there.

As in MappingTheorems each function has one specification; running out of
memory bounds the number of frames that were free.
-/
import Mathlib.Order.Interval.Finset.Nat
import Xv6Sharing.Vm.MappingTheorems

namespace Xv6Sharing.Vm

open Lib

section

variable {L : Layout} {D X : Set Nat} {σ σ' : Phys} {d : Nat} {E : Panic → Prop}

/-! ## The kernel's mappings -/

/-- The number of pages of a `kmap` entry. -/
def Kmap.pages (k : Kmap) : Nat := u32 (k.physEnd + 2 ^ 32 - k.physStart) / 4096

/-- What a list of `kmap` entries maps page `v` to. -/
def kmapPte : List Kmap → Nat → Option Nat
  | [], _ => none
  | k :: ks, v =>
    if k.virt / 4096 ≤ v ∧ v < k.virt / 4096 + k.pages then
      some ((k.physStart / 4096 + (v - k.virt / 4096)) * 4096 ||| k.perm ||| pteP)
    else
      kmapPte ks v

/-- An entry `mappages` can serve: whole pages, above KERNBASE, no wrap. -/
structure Kmap.Fits (k : Kmap) : Prop where
  virt : k.virt % 4096 = 0
  start : k.physStart % 4096 = 0
  size : u32 (k.physEnd + 2 ^ 32 - k.physStart) % 4096 = 0
  pos : 0 < k.pages
  high : 524288 ≤ k.virt / 4096
  top : k.virt / 4096 + k.pages ≤ 1048576
  phys : k.physStart / 4096 + k.pages ≤ 1048576
  perm : k.perm < 4096

theorem kmap_eq (h : L.data < phystop) :
    kmap L = [⟨0x80000000, 0, 0x100000, 2⟩, ⟨0x80100000, 0x100000, L.data, 0⟩,
      ⟨L.data + 0x80000000, L.data, 0xE000000, 2⟩, ⟨0xFE000000, 0xFE000000, 0, 2⟩] := by
  have hp : v2p kernlink = 0x100000 := by decide
  have hv : p2v L.data = L.data + 0x80000000 := by
    unfold phystop at h
    unfold p2v u32 kernbase
    omega
  unfold kmap
  rw [hp, hv]
  rfl

theorem kmap_fits (h : L.data < phystop) : ∀ k ∈ kmap L, k.Fits := by
  have h1 := L.data_aligned
  have h2 := L.extmem_lt_data
  rw [kmap_eq h]
  unfold extmem at h2
  unfold phystop at h
  intro k hk
  simp only [List.mem_cons, List.not_mem_nil, or_false] at hk
  obtain rfl | rfl | rfl | rfl := hk
  all_goals
    constructor <;> simp only [Kmap.pages, u32] <;> omega

/-- The entries come in the order of their addresses and do not overlap. -/
theorem kmap_sorted (h : L.data < phystop) :
    (kmap L).Pairwise fun k k' => k.virt / 4096 + k.pages ≤ k'.virt / 4096 := by
  have h1 := L.data_aligned
  have h2 := L.extmem_lt_data
  rw [kmap_eq h]
  unfold extmem at h2
  unfold phystop at h
  simp only [List.pairwise_cons, List.mem_cons, List.not_mem_nil, or_false, forall_eq_or_imp,
    forall_eq, false_imp_iff, implies_true, List.Pairwise.nil, and_true, Kmap.pages, u32]
  omega

theorem kmapPte_none {ks : List Kmap} {v : Nat} (h : ∀ k ∈ ks, v < k.virt / 4096) :
    kmapPte ks v = none := by
  induction ks with
  | nil => rfl
  | cons k ks ih =>
    have := h k List.mem_cons_self
    unfold kmapPte
    rw [if_neg (by omega)]
    exact ih (fun k' hk' => h k' (List.mem_cons_of_mem _ hk'))

/-- The kernel maps nothing below KERNBASE. -/
theorem kmapPte_user {v : Nat} (h : L.data < phystop) (hv : v < 524288) :
    kmapPte (kmap L) v = none := by
  refine kmapPte_none (fun k hk => ?_)
  have := (kmap_fits h k hk).high
  omega

/-- Nothing the kernel maps is for the user. -/
theorem kmapPte_notUser {v w : Nat} (h : L.data < phystop) (hw : kmapPte (kmap L) v = some w) :
    user w = false := by
  have hperm : ∀ k ∈ kmap L, k.perm.testBit 2 = false := by
    rw [kmap_eq h]
    simp
    decide
  generalize kmap L = ks at hperm hw
  induction ks with
  | nil => cases hw
  | cons k ks ih =>
    unfold kmapPte at hw
    split at hw
    · rw [← Option.some.inj hw, user_mk]
      exact hperm k List.mem_cons_self
    · exact ih (fun k' hk' => hperm k' (List.mem_cons_of_mem _ hk')) hw

theorem kmapPte_kernbase (h : L.data < phystop) : kmapPte (kmap L) 524288 ≠ none := by
  rw [kmap_eq h]
  unfold kmapPte
  rw [if_pos (by decide)]
  exact Option.some_ne_none _

theorem Ram.data_lt {f : Nat} (h : Ram L f) : L.data < phystop := by
  have := h.1
  have := h.2
  have := L.data_le_kend
  omega

/-- The user part of directory `d` holds exactly the pages below `sz`. -/
structure Image (m : Mem) (d sz : Nat) : Prop where
  inside : ∀ v, v * 4096 < sz → pteAt m d v ≠ none
  above : ∀ v < 262144, sz ≤ v * 4096 → pteAt m d v = none

theorem Image.of_sameTables {m m' : Mem} {sz : Nat} (h : Image m d sz) (hsz : sz ≤ sharedbase)
    (hd : d ∈ D) (hs : SameTables D m m') : Image m' d sz := by
  unfold sharedbase at hsz
  refine ⟨fun v hv => ?_, fun v hv hge => ?_⟩
  · rw [(hs d hd).2 v (by omega)]
    exact h.inside v hv
  · rw [(hs d hd).2 v (by omega)]
    exact h.above v hv hge

/-- An entry of `kmap[]` is a range of whole pages. -/
theorem Kmap.Fits.mappages_eq {k : Kmap} (hk : k.Fits) (d : Nat) :
    mappages d k.virt (u32 (k.physEnd + 2 ^ 32 - k.physStart)) k.physStart k.perm
      = mappages d (k.virt / 4096 * 4096) (k.pages * 4096) (k.physStart / 4096 * 4096)
          k.perm := by
  have hvirt : k.virt = k.virt / 4096 * 4096 := by
    have := hk.virt
    omega
  have hstart : k.physStart = k.physStart / 4096 * 4096 := by
    have := hk.start
    omega
  have hsize : u32 (k.physEnd + 2 ^ 32 - k.physStart) = k.pages * 4096 := by
    have := hk.size
    unfold Kmap.pages
    omega
  rw [hsize, ← hvirt, ← hstart]

/-- The loop of `setupkvm`, by induction on the entries left. -/
theorem mapKernel_spec (hd : d ∈ D) : ∀ (ks : List Kmap) (σ : Phys), Sound L D X σ →
    (∀ k ∈ ks, k.Fits) →
    (ks.Pairwise fun k k' => k.virt / 4096 + k.pages ≤ k'.virt / 4096) →
    (∀ k ∈ ks, ∀ x < 1048576, k.virt / 4096 ≤ x → pteAt σ.mem d x = none) →
    Spec E (mapKernel d ks) σ (fun b σ' =>
      Sound L D X σ' ∧ SameTables (D \ {d}) σ.mem σ'.mem ∧ Room d 512 σ σ' ∧
      (b = false → σ'.freelist = []) ∧
      (b = true → ∀ x < 1048576, pteAt σ'.mem d x = (kmapPte ks x).or (pteAt σ.mem d x))) := by
  intro ks
  induction ks with
  | nil =>
    intro σ h _ _ _
    exact Spec.pure ⟨h, SameTables.refl _ _, Room.refl _ _ _, by simp, fun _ x _ => rfl⟩
  | cons k ks ih =>
    intro σ h hfit hsort habs
    have hk := hfit k List.mem_cons_self
    obtain ⟨hfirst, hrest⟩ := List.pairwise_cons.mp hsort
    have hhigh := hk.high
    have htop := hk.top
    unfold mapKernel
    dsimp only
    rw [hk.mappages_eq]
    refine Spec.seq (mappages_spec h hd hk.perm (by omega) hk.pos hk.top hk.phys
      (fun x hx hx' hne => absurd (habs k List.mem_cons_self x (by omega) hx) hne))
      (fun b σ₁ hr => ?_)
    obtain ⟨h₁, hroom₁, hfail₁, n, _, hall, he₁⟩ := hr
    have hroom : Room d 512 σ σ₁ := hroom₁.mono (by omega)
    cases b with
    | false =>
      exact Spec.pure ⟨h₁, he₁.others, hroom, hfail₁, by simp⟩
    | true =>
      rw [hall rfl] at he₁
      rw [if_pos rfl]
      -- what is mapped now lies below the entries still to come
      have habs₁ : ∀ k' ∈ ks, ∀ x < 1048576, k'.virt / 4096 ≤ x →
          pteAt σ₁.mem d x = none := by
        intro k' hk' x hx hle
        have := hfirst k' hk'
        rw [he₁.pte x hx]
        unfold mapRange
        rw [if_neg (by omega)]
        exact habs k' (List.mem_cons_of_mem _ hk') x hx hle
      refine (ih σ₁ h₁ (fun k' hk' => hfit k' (List.mem_cons_of_mem _ hk')) hrest
        habs₁).mono (fun b σ₂ hr => ?_)
      obtain ⟨h₂, hs₂, hroom₂, hfail₂, hpte₂⟩ := hr
      refine ⟨h₂, he₁.others.trans hs₂, hroom.trans hroom₂, hfail₂, fun hb x hx => ?_⟩
      rw [hpte₂ hb x hx, he₁.pte x hx]
      unfold mapRange
      rw [kmapPte.eq_2]
      by_cases hin : k.virt / 4096 ≤ x ∧ x < k.virt / 4096 + k.pages
      · rw [if_pos hin, if_pos hin]
        have hlow : kmapPte ks x = none := by
          refine kmapPte_none (fun k' hk' => ?_)
          have := hfirst k' hk'
          omega
        rw [hlow]
        rfl
      · rw [if_neg hin, if_neg hin]

theorem tabCount_le {m : Mem} (hlow : ∀ i < 512, tabOf m d i = none) : tabCount m d ≤ 512 := by
  have hsub : ((Finset.range 1024).filter fun i => (tabOf m d i).isSome) ⊆ Finset.Ico 512 1024 := by
    intro i hi
    obtain ⟨hlt, hsome⟩ := Finset.mem_filter.mp hi
    refine Finset.mem_Ico.mpr ⟨?_, Finset.mem_range.mp hlt⟩
    by_contra hc
    rw [hlow i (by omega)] at hsome
    cases hsome
  refine le_trans (Finset.card_le_card hsub) ?_
  rw [Nat.card_Ico]

/-- A page taken from the free list and cleared is an empty directory. -/
theorem newDir_free {rest : List Nat} (h : Sound L D X σ) (hfree : σ.freelist = d :: rest) :
    d ∉ D ∧ Sound L (insert d D) X ⟨fillPage σ.mem d 0, rest⟩ ∧
      SameTables D σ.mem (fillPage σ.mem d 0) := by
  have hmem : d ∈ σ.freelist := by
    rw [hfree]
    exact List.mem_cons_self
  have hnt := h.notTable_of_free hmem
  have hdX : d ∉ X := by
    intro hx
    have hheld : Holds σ.mem D X (.other d) d := ⟨hx, rfl⟩
    exact h.notFree hheld hmem
  have h₀ : Owned L σ.mem (d :: rest) D X := hfree ▸ h
  have h₁ := h₀.kalloc.newDir (Set.mem_insert d X)
  rw [Set.insert_sdiff_self_of_notMem hdX] at h₁
  exact ⟨hnt.1, h₁, sameTables_of_notTable hnt (fun _ hg => samePage_fillPage hg)⟩

/-- `setupkvm`: a fresh directory that maps what `kmap` says, or memory ran
out and nothing changed. -/
theorem setupkvm_spec (h : Sound L D X σ) :
    Spec E (setupkvm L) σ (fun r σ' => SameTables D σ.mem σ'.mem ∧
      ((r = none ∧ Sound L D X σ' ∧ σ.freelist.length ≤ 513) ∨
       ∃ d, r = some d ∧ d ∈ σ.freelist ∧ d ∉ D ∧ Sound L (insert d D) X σ' ∧
        (∀ v < 1048576, pteAt σ'.mem d v = kmapPte (kmap L) v) ∧
        σ.freelist.length ≤ σ'.freelist.length + 513)) := by
  unfold setupkvm
  cases hfree : σ.freelist with
  | nil =>
    refine Spec.seq_ok (kalloc_none hfree) ?_
    exact Spec.pure ⟨SameTables.refl _ _, Or.inl ⟨rfl, h, by simp⟩⟩
  | cons d rest =>
    refine Spec.seq_ok (kalloc_some hfree) ?_
    refine Spec.seq_ok (memsetPage_run d 0 _) ?_
    rw [if_neg (show ¬ p2v phystop > devspace by decide)]
    obtain ⟨hdD, h₁, hs₁⟩ := newDir_free h hfree
    have hd : d ∈ insert d D := Set.mem_insert d D
    have hram : Ram L d := h.pool_of_free (by rw [hfree]; exact List.mem_cons_self)
    have hdata := hram.data_lt
    have hnone : ∀ i < 1024, tabOf (fillPage σ.mem d 0) d i = none :=
      fun i hi => tabOf_fillPage_zero σ.mem d hi
    have habs : ∀ x < 1048576, pteAt (fillPage σ.mem d 0) d x = none :=
      fun x hx => pteAt_none_of_tabOf (hnone _ (by omega))
    have hDd : insert d D \ {d} = D := Set.insert_sdiff_self_of_notMem hdD
    refine Spec.seq (mapKernel_spec hd (kmap L) _ h₁ (kmap_fits hdata) (kmap_sorted hdata)
      (fun _ _ x hx _ => habs x hx)) (fun b σ₂ hr => ?_)
    obtain ⟨h₂, hs₂, hroom, hfail, hpte⟩ := hr
    rw [hDd] at hs₂
    -- all page-table pages are the kernel's, so at most 512 frames were taken
    have hcount₀ : tabCount (fillPage σ.mem d 0) d = 0 := by
      refine Finset.card_eq_zero.mpr (Finset.filter_eq_empty_iff.mpr (fun i hi => ?_))
      rw [hnone i (Finset.mem_range.mp hi)]
      simp
    have hcount : rest.length ≤ σ₂.freelist.length + 512 := by
      have hle := tabCount_le (m := σ₂.mem) (d := d)
        (fun i hi => (hroom.low i hi (by omega)).trans (hnone i (by omega)))
      have := hroom.room
      simp only [hcount₀] at this
      omega
    cases b with
    | true =>
      refine Spec.pure ⟨hs₁.trans hs₂, Or.inr ⟨d, rfl, List.mem_cons_self, hdD, h₂,
        fun v hv => ?_, ?_⟩⟩
      · rw [hpte rfl v hv, habs v hv, Option.or_none]
      · simp only [List.length_cons]
        omega
    | false =>
      rw [if_neg (by simp)]
      refine Spec.seq (freevm_spec h₂ hd) (fun _ σ₃ hr => ?_)
      obtain ⟨h₃, hs₃, _⟩ := hr
      rw [hDd] at h₃ hs₃
      refine Spec.pure ⟨(hs₁.trans hs₂).trans hs₃, Or.inl ⟨rfl, h₃, ?_⟩⟩
      rw [hfail rfl] at hcount
      simp only [List.length_cons, List.length_nil] at hcount ⊢
      omega

/-! ## `allocuvm` -/

/-- Directory `d` got a fresh writable user page at every page from `v` up to
address `top`, and is otherwise as before. -/
structure Filled (d v top : Nat) (σ σ' : Phys) : Prop where
  inside : ∀ x, v ≤ x → x * 4096 < top →
    ∃ f, pteAt σ'.mem d x = some (f * 4096 ||| (pteW ||| pteU) ||| pteP)
  outside : ∀ x < 1048576, ¬ (v ≤ x ∧ x * 4096 < top) → pteAt σ'.mem d x = pteAt σ.mem d x

/-- A frame taken from the free list is held outside page tables. -/
theorem takeFrame {f : Nat} {rest : List Nat} (h : Sound L D X σ)
    (hfree : σ.freelist = f :: rest) :
    f ∉ X ∧ NotTable σ.mem D f ∧ f < 57344 ∧ Owned L σ.mem rest D (insert f X) := by
  have hmem : f ∈ σ.freelist := by
    rw [hfree]
    exact List.mem_cons_self
  have h₀ : Owned L σ.mem (f :: rest) D X := hfree ▸ h
  refine ⟨fun hx => ?_, h.notTable_of_free hmem, (h.pool_of_free hmem).lt, h₀.kalloc⟩
  have hheld : Holds σ.mem D X (.other f) f := ⟨hx, rfl⟩
  exact h.notFree hheld hmem

theorem mapUser_spec {v f perm : Nat} (h : Sound L D (insert f X) σ) (hfX : f ∉ X) (hd : d ∈ D)
    (hv : v < 262144) (hf : f < 57344) (hperm : perm < 4096)
    (hremap : pteAt σ.mem d v ≠ none → E .remap) :
    Spec E (mappages d (v * 4096) 4096 (f * 4096) perm) σ (fun b σ' =>
      (b = false ∧ σ' = σ ∧ σ.freelist = []) ∨
      (b = true ∧ Sound L D X σ' ∧
        Edit D d (Function.update (pteAt σ.mem d) v (some (f * 4096 ||| perm ||| pteP))) σ σ' ∧
        σ.freelist.length ≤ σ'.freelist.length + 1)) := by
  have hone := mapOne_spec (E := E) h hd (show v < 1048576 by omega) (by omega) hperm
    (fun _ => Set.mem_insert f X) hremap
  refine (hone.mono (fun b σ' hr => ?_)).of_run_eq (mappages_page (by omega) _ _ σ)
  obtain ⟨hb, hσ, hfree, _⟩ | ⟨hb, _, h', he, _, htab⟩ := hr
  · exact Or.inl ⟨hb, hσ, hfree⟩
  · rw [unhold_user hv, Set.insert_sdiff_self_of_notMem hfX] at h'
    exact Or.inr ⟨hb, h', he, htab.length_le⟩

/-- The loop of `allocuvm`, by induction on the fuel. -/
theorem allocLoop_spec {newsz : Nat} (oldsz : Nat) (hd : d ∈ D) (hnew : newsz < sharedbase) :
    ∀ (fuel v : Nat) (σ : Phys), Sound L D X σ → (oldsz + 4095) / 4096 ≤ v → v ≤ 262144 →
      262144 - v < fuel →
      (∀ x, v ≤ x → x * 4096 < newsz → pteAt σ.mem d x ≠ none → E .remap) →
      Spec E (allocLoop L d oldsz newsz fuel (v * 4096)) σ (fun b σ' =>
        Sound L D X σ' ∧ SameTables (D \ {d}) σ.mem σ'.mem ∧
        ((b = true ∧ Filled d v newsz σ σ' ∧
            σ.freelist.length ≤ σ'.freelist.length + 2 * ((newsz + 4095) / 4096 - v)) ∨
         (b = false ∧ σ.freelist.length < 2 * ((newsz + 4095) / 4096 - v) ∧
            ∀ x < 1048576, pteAt σ'.mem d x
              = dropRange ((oldsz + 4095) / 4096) newsz (pteAt σ.mem d) x))) := by
  unfold sharedbase at hnew
  intro fuel
  induction fuel with
  | zero => intro v σ _ _ _ hfuel; omega
  | succ fuel ih =>
    intro v σ h hold hv hfuel hremap
    unfold allocLoop
    by_cases hlt : v * 4096 < newsz
    · rw [if_pos hlt]
      cases hfree : σ.freelist with
      | nil =>
        refine Spec.seq_ok (kalloc_none hfree) ?_
        refine Spec.seq (deallocuvm_spec oldsz h hd (by unfold sharedbase; omega))
          (fun _ σ' hr => ?_)
        obtain ⟨_, h', he, _⟩ := hr
        exact Spec.pure ⟨h', he.others, Or.inr ⟨rfl, by simp; omega, he.pte⟩⟩
      | cons f rest =>
        refine Spec.seq_ok (kalloc_some hfree) ?_
        refine Spec.seq_ok (memsetPage_run f 0 _) ?_
        obtain ⟨hfX, hnt, hf, h₁⟩ := takeFrame h hfree
        have hs₁ : SameTables D σ.mem (fillPage σ.mem f 0) :=
          sameTables_of_notTable hnt (fun _ hg => samePage_fillPage hg)
        have h₂ : Sound L D (insert f X) ⟨fillPage σ.mem f 0, rest⟩ := h₁.of_sameTables hs₁
        refine Spec.seq (mapUser_spec h₂ hfX hd (by omega) hf (by decide) ?_)
          (fun b σ₂ hr => ?_)
        · intro hne
          refine hremap v le_rfl hlt ?_
          rw [← (hs₁ d hd).2 v (by omega)]
          exact hne
        obtain ⟨rfl, rfl, hempty⟩ | ⟨rfl, h₃, he, hlen⟩ := hr
        · -- no page-table page: give the mapped pages and the frame back
          rw [if_neg (by simp)]
          refine Spec.seq (deallocuvm_spec oldsz h₂ hd (by unfold sharedbase; omega))
            (fun _ σ₃ hr => ?_)
          obtain ⟨_, h₃, he₃, _⟩ := hr
          have hfmem : f ∈ insert f X := Set.mem_insert f X
          refine Spec.seq_ok (kfree_run (h₃.ram_other hfmem) σ₃) ?_
          have hs₃ := sameTables_junkPage (h₃.notTable_of_other hfmem) σ₃.freelist
          have h₄ := h₃.kfree hfmem
          rw [Set.insert_sdiff_self_of_notMem hfX] at h₄
          refine Spec.pure ⟨h₄, ?_, Or.inr ⟨rfl, ?_, fun x hx => ?_⟩⟩
          · exact ((hs₁.mono Set.sdiff_subset).trans he₃.others).trans
              (hs₃.mono Set.sdiff_subset)
          · have : rest = [] := hempty
            simp only [List.length_cons, this, List.length_nil]
            omega
          · rw [(hs₃ d hd).2 x hx, he₃.pte x hx]
            unfold dropRange
            rw [(hs₁ d hd).2 x hx]
        · rw [if_pos rfl]
          have hnext : u32 (v * 4096 + 4096) = (v + 1) * 4096 := by
            unfold u32
            omega
          rw [hnext]
          have hkeep : ∀ x < 1048576, x ≠ v → pteAt σ₂.mem d x = pteAt σ.mem d x := by
            intro x hx hxv
            rw [he.pte x hx, Function.update_of_ne hxv]
            exact (hs₁ d hd).2 x hx
          refine (ih (v + 1) σ₂ h₃ (by omega) (by omega) (by omega) ?_).mono
            (fun b σ₃ hr => ?_)
          · intro x hx hx' hne
            refine hremap x (by omega) hx' ?_
            rw [← hkeep x (by omega) (by omega)]
            exact hne
          obtain ⟨h₄, hs₄, hcase⟩ := hr
          have hlen' : rest.length ≤ σ₂.freelist.length + 1 := hlen
          refine ⟨h₄, ((hs₁.mono Set.sdiff_subset).trans he.others).trans hs₄, ?_⟩
          obtain ⟨rfl, hfill, hroom⟩ | ⟨rfl, hroom, hdrop⟩ := hcase
          · refine Or.inl ⟨rfl, ⟨fun x hx hx' => ?_, fun x hx hout => ?_⟩, ?_⟩
            · by_cases hxv : x = v
              · subst hxv
                refine ⟨f, ?_⟩
                rw [hfill.outside x (by omega) (by omega), he.pte x (by omega),
                  Function.update_self]
              · exact hfill.inside x (by omega) hx'
            · rw [hfill.outside x hx (by omega)]
              exact hkeep x hx (by omega)
            · simp only [List.length_cons]
              omega
          · refine Or.inr ⟨rfl, ?_, fun x hx => ?_⟩
            · simp only [List.length_cons]
              omega
            · rw [hdrop x hx]
              unfold dropRange
              by_cases hin : (oldsz + 4095) / 4096 ≤ x ∧ x * 4096 < newsz
              · rw [if_pos hin, if_pos hin]
              · rw [if_neg hin, if_neg hin]
                refine hkeep x hx (fun hxv => hin ?_)
                rw [hxv]
                exact ⟨hold, hlt⟩
    · rw [if_neg hlt]
      refine Spec.pure ⟨h, SameTables.refl _ _, Or.inl ⟨rfl, ⟨fun x hx hx' => ?_,
        fun x _ _ => rfl⟩, by omega⟩⟩
      omega

theorem allocuvm_spec {oldsz newsz : Nat} (h : Sound L D X σ) (hd : d ∈ D)
    (hremap : ∀ x, (oldsz + 4095) / 4096 ≤ x → x * 4096 < newsz → newsz < sharedbase →
      pteAt σ.mem d x ≠ none → E .remap) :
    Spec E (allocuvm L d oldsz newsz) σ (fun r σ' =>
      Sound L D X σ' ∧ SameTables (D \ {d}) σ.mem σ'.mem ∧
      ((sharedbase ≤ newsz ∧ r = 0 ∧ σ' = σ) ∨
       (newsz < sharedbase ∧ newsz < oldsz ∧ r = oldsz ∧ σ' = σ) ∨
       (newsz < sharedbase ∧ oldsz ≤ newsz ∧ r = newsz ∧
          Filled d ((oldsz + 4095) / 4096) newsz σ σ' ∧ σ.freelist.length ≤
            σ'.freelist.length + 2 * ((newsz + 4095) / 4096 - (oldsz + 4095) / 4096)) ∨
       (newsz < sharedbase ∧ oldsz ≤ newsz ∧ r = 0 ∧
          σ.freelist.length < 2 * ((newsz + 4095) / 4096 - (oldsz + 4095) / 4096) ∧
          ∀ x < 1048576, pteAt σ'.mem d x
            = dropRange ((oldsz + 4095) / 4096) newsz (pteAt σ.mem d) x))) := by
  unfold allocuvm
  by_cases hbig : newsz ≥ sharedbase
  · rw [if_pos hbig]
    exact Spec.pure ⟨h, SameTables.refl _ _, Or.inl ⟨hbig, rfl, rfl⟩⟩
  · rw [if_neg hbig]
    by_cases hsmall : newsz < oldsz
    · rw [if_pos hsmall]
      exact Spec.pure ⟨h, SameTables.refl _ _, Or.inr (Or.inl ⟨by omega, hsmall, rfl, rfl⟩)⟩
    · have hlt : newsz < 1073741824 := by
        unfold sharedbase at hbig
        omega
      have hup : pgroundup oldsz = (oldsz + 4095) / 4096 * 4096 := by
        unfold pgroundup u32
        omega
      rw [if_neg hsmall, hup]
      refine Spec.seq (allocLoop_spec oldsz hd (by omega) pageFuel _ σ h le_rfl
        (by omega) (by unfold pageFuel; omega)
        (fun x hx hx' => hremap x hx hx' (by omega))) (fun b σ' hr => ?_)
      obtain ⟨h', hs, ⟨rfl, hfill, hroom⟩ | ⟨rfl, hroom, hdrop⟩⟩ := hr
      · exact Spec.pure ⟨h', hs, Or.inr (Or.inr (Or.inl
          ⟨by omega, by omega, rfl, hfill, hroom⟩))⟩
      · exact Spec.pure ⟨h', hs, Or.inr (Or.inr (Or.inr
          ⟨by omega, by omega, rfl, hroom, hdrop⟩))⟩

end

end Xv6Sharing.Vm
