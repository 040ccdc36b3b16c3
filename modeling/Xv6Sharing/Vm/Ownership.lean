/-
Xv6Sharing.Vm.Ownership — what page tables say, and who holds which frame.

`tabOf m d i` and `pteAt m d v` read a page directory `d` out of memory:
the page-table page of entry `i`, and the word mapping page `v` if it is
present. `Holds` lists every way a frame can be in use by the page
directories `D` (directory, page-table page, user page below SHAREDBASE)
or by something else (`X`: kernel stacks, pipes, pages held by the code
that is running). `Owned` is the ledger of these uses and the free list.

A frame mapped at or above SHAREDBASE is not a use: the window holds pages
of somebody else.

Each primitive write of vm.c gets one lemma here that says what it does to
all the page directories at once and to the ledger. Nothing later unfolds
a memory access again.
-/
import Mathlib.Data.Set.Insert
import Xv6Sharing.Lib.Ledger
import Xv6Sharing.Vm.PageTable

namespace Xv6Sharing.Vm

open Lib

/-! ## Entries -/

theorem pteFrame_mk {f perm : Nat} (hperm : perm < 4096) :
    pteFrame (f * 4096 ||| perm ||| pteP) = f := by
  unfold pteFrame pteP
  apply Nat.eq_of_testBit_eq
  intro i
  have hpow : 4096 ≤ 2 ^ (i + 12) := by
    have := Nat.one_le_two_pow (n := i)
    rw [Nat.pow_add]
    omega
  have hp : perm.testBit (i + 12) = false := Nat.testBit_lt_two_pow (by omega)
  have h1 : (1 : Nat).testBit (i + 12) = false := by
    rw [show (1 : Nat) = 2 ^ 0 from rfl, Nat.testBit_two_pow_of_ne (by omega)]
  rw [show (4096 : Nat) = 2 ^ 12 from rfl, Nat.testBit_div_two_pow, Nat.testBit_or, Nat.testBit_or,
    hp, h1, Nat.testBit_mul_two_pow]
  simp

theorem present_mk (f perm : Nat) : present (f * 4096 ||| perm ||| pteP) = true := by
  simp [present, pteP]

/-- The flags of an entry are the permissions it was made with. -/
theorem testBit_mk (f perm : Nat) {k : Nat} (hk : 0 < k) (hk' : k < 12) :
    (f * 4096 ||| perm ||| pteP).testBit k = perm.testBit k := by
  have hf : (f * 4096).testBit k = false := by
    rw [show (4096 : Nat) = 2 ^ 12 from rfl, Nat.testBit_mul_two_pow]
    simp [Nat.not_le.mpr hk']
  have h1 : pteP.testBit k = false := by
    rw [show pteP = 2 ^ 0 from rfl, Nat.testBit_two_pow_of_ne (by omega)]
  rw [Nat.testBit_or, Nat.testBit_or, hf, h1, Bool.false_or, Bool.or_false]

/-- An entry made with the flags of a present entry has these flags. -/
theorem pteFlags_mk (f : Nat) {w : Nat} (hw : present w = true) :
    pteFlags (f * 4096 ||| pteFlags w ||| pteP) = pteFlags w := by
  unfold pteFlags
  apply Nat.eq_of_testBit_eq
  intro k
  rw [show (4096 : Nat) = 2 ^ 12 from rfl, Nat.testBit_mod_two_pow, Nat.testBit_mod_two_pow]
  by_cases hk : k < 12
  · obtain rfl | hpos := Nat.eq_zero_or_pos k
    · have hbit : w.testBit 0 = true := hw
      rw [hbit, Nat.testBit_or, show pteP.testBit 0 = true by decide, Bool.or_true]
    · rw [← show (4096 : Nat) = 2 ^ 12 from rfl, testBit_mk f _ hpos hk,
        show (4096 : Nat) = 2 ^ 12 from rfl, Nat.testBit_mod_two_pow, decide_eq_true hk,
        Bool.true_and]
  · rw [decide_eq_false hk, Bool.false_and, Bool.false_and]

theorem user_mk (f perm : Nat) :
    user (f * 4096 ||| perm ||| pteP) = perm.testBit 2 :=
  testBit_mk f perm (by decide) (by decide)

theorem writable_mk (f perm : Nat) :
    writable (f * 4096 ||| perm ||| pteP) = perm.testBit 1 :=
  testBit_mk f perm (by decide) (by decide)

theorem mk_lt {f perm : Nat} (hf : f < 1048576) (hperm : perm < 4096) :
    f * 4096 ||| perm ||| pteP < 2 ^ 32 := by
  have h1 : f * 4096 < 2 ^ 32 := by omega
  have h2 : perm < 2 ^ 32 := by omega
  exact Nat.or_lt_two_pow (Nat.or_lt_two_pow h1 h2) (by decide)

/-- The directory entry `walkpgdir` writes, in the shape of the others. -/
theorem pde_mk (f : Nat) :
    f * 4096 ||| pteP ||| pteW ||| pteU = f * 4096 ||| 6 ||| pteP := by
  rw [Nat.or_assoc, Nat.or_assoc, Nat.or_assoc]
  rfl

/-! ## Reading a page directory -/

/-- The page-table page behind entry `i` of directory `d`. -/
def tabOf (m : Mem) (d i : Nat) : Option Nat :=
  if present (word m d i) then some (pteFrame (word m d i)) else none

/-- The entry of directory `d` for page `v`, if the page is present. -/
def pteAt (m : Mem) (d v : Nat) : Option Nat :=
  match tabOf m d (v / 1024) with
  | none => none
  | some t => if present (word m t (v % 1024)) then some (word m t (v % 1024)) else none

theorem tabOf_congr {m m' : Mem} {d i : Nat} (h : SamePage m m' d) (hi : i < 1024) :
    tabOf m' d i = tabOf m d i := by
  unfold tabOf
  rw [h.word hi]

theorem pteAt_congr {m m' : Mem} {d v : Nat} (hd : SamePage m m' d)
    (ht : ∀ t, tabOf m d (v / 1024) = some t → SamePage m m' t) (hv : v < 1048576) :
    pteAt m' d v = pteAt m d v := by
  unfold pteAt
  rw [tabOf_congr hd (by omega)]
  cases htab : tabOf m d (v / 1024) with
  | none => rfl
  | some t =>
    have hw := (ht t htab).word (show v % 1024 < 1024 by omega)
    simp only [hw]

theorem pteAt_of_tabOf {m : Mem} {d v t : Nat} (h : tabOf m d (v / 1024) = some t) :
    pteAt m d v
      = if present (word m t (v % 1024)) then some (word m t (v % 1024)) else none := by
  unfold pteAt
  rw [h]

theorem pteAt_none_of_tabOf {m : Mem} {d v : Nat} (h : tabOf m d (v / 1024) = none) :
    pteAt m d v = none := by
  unfold pteAt
  rw [h]

theorem present_of_pteAt {m : Mem} {d v w : Nat} (h : pteAt m d v = some w) :
    present w = true := by
  unfold pteAt at h
  split at h
  · cases h
  · split at h
    · next hp => cases h; exact hp
    · cases h

theorem tabOf_of_pteAt {m : Mem} {d v w : Nat} (h : pteAt m d v = some w) :
    ∃ t, tabOf m d (v / 1024) = some t ∧ word m t (v % 1024) = w := by
  unfold pteAt at h
  split at h
  · cases h
  · next t ht =>
      split at h
      · cases h; exact ⟨t, ht, rfl⟩
      · cases h

/-- Both memories hold the same page tables for the directories in `D`. -/
def SameTables (D : Set Nat) (m m' : Mem) : Prop :=
  ∀ d ∈ D, (∀ i < 1024, tabOf m' d i = tabOf m d i) ∧
    ∀ v < 1048576, pteAt m' d v = pteAt m d v

theorem SameTables.refl (D : Set Nat) (m : Mem) : SameTables D m m :=
  fun _ _ => ⟨fun _ _ => rfl, fun _ _ => rfl⟩

theorem SameTables.trans {D : Set Nat} {m m' m'' : Mem} (h : SameTables D m m')
    (h' : SameTables D m' m'') : SameTables D m m'' :=
  fun d hd => ⟨fun i hi => ((h' d hd).1 i hi).trans ((h d hd).1 i hi),
    fun v hv => ((h' d hd).2 v hv).trans ((h d hd).2 v hv)⟩

theorem SameTables.mono {D D' : Set Nat} {m m' : Mem} (h : SameTables D m m')
    (hsub : D' ⊆ D) : SameTables D' m m' :=
  fun d hd => h d (hsub hd)

/-- `m'` is `m` with the entry of directory `d` for page `v` set to `w`. -/
def SetPte (D : Set Nat) (m m' : Mem) (d v w : Nat) : Prop :=
  ∀ d' ∈ D, (∀ i < 1024, tabOf m' d' i = tabOf m d' i) ∧
    ∀ v' < 1048576, pteAt m' d' v' =
      if d' = d ∧ v' = v then (if present w then some w else none) else pteAt m d' v'

/-- `m'` is `m` with the empty page-table page `f` behind entry `i` of `d`. -/
def AddTab (D : Set Nat) (m m' : Mem) (d i f : Nat) : Prop :=
  ∀ d' ∈ D, (∀ i' < 1024, tabOf m' d' i' =
      if d' = d ∧ i' = i then some f else tabOf m d' i') ∧
    ∀ v < 1048576, pteAt m' d' v = pteAt m d' v

theorem SetPte.sameTables {D D' : Set Nat} {m m' : Mem} {d v w : Nat}
    (h : SetPte D m m' d v w) (hsub : D' ⊆ D) (hd : d ∉ D') : SameTables D' m m' := by
  intro d' hd'
  have hne : d' ≠ d := fun he => hd (he ▸ hd')
  obtain ⟨htab, hpte⟩ := h d' (hsub hd')
  refine ⟨htab, fun v' hv' => ?_⟩
  rw [hpte v' hv', if_neg (fun hc => hne hc.1)]

theorem AddTab.sameTables {D D' : Set Nat} {m m' : Mem} {d i f : Nat}
    (h : AddTab D m m' d i f) (hsub : D' ⊆ D) (hd : d ∉ D') : SameTables D' m m' := by
  intro d' hd'
  have hne : d' ≠ d := fun he => hd (he ▸ hd')
  obtain ⟨htab, hpte⟩ := h d' (hsub hd')
  refine ⟨fun i' hi' => ?_, hpte⟩
  rw [htab i' hi', if_neg (fun hc => hne hc.1)]

/-! ## Who holds a frame -/

/-- The uses of a frame. -/
inductive FrameUse where
  | dir (d : Nat)
  | tab (d i : Nat)
  | page (d v : Nat)
  | other (f : Nat)

/-- Use `u` holds frame `f`, for the page directories `D` and the frames `X`
held outside page tables. Only pages below SHAREDBASE count. -/
def Holds (m : Mem) (D X : Set Nat) : FrameUse → Nat → Prop
  | .dir d, f => d ∈ D ∧ f = d
  | .tab d i, f => d ∈ D ∧ i < 1024 ∧ tabOf m d i = some f
  | .page d v, f => d ∈ D ∧ v < 262144 ∧ ∃ w, pteAt m d v = some w ∧ pteFrame w = f
  | .other g, f => g ∈ X ∧ f = g

/-- The frames between `end` and `PHYSTOP` are partitioned into the free list
and the uses. -/
abbrev Owned (L : Layout) (m : Mem) (free : List Nat) (D X : Set Nat) : Prop :=
  Ledger (Ram L) free (Holds m D X)

/-- `f` is neither a directory of `D` nor one of their page-table pages. -/
def NotTable (m : Mem) (D : Set Nat) (f : Nat) : Prop :=
  f ∉ D ∧ ∀ d ∈ D, ∀ i < 1024, tabOf m d i ≠ some f

section Owned

variable {L : Layout} {m m' : Mem} {free : List Nat} {D X : Set Nat} {d i v f t : Nat}

theorem Owned.of_sameTables (h : Owned L m free D X) (hs : SameTables D m m') :
    Owned L m' free D X := by
  refine h.congr (fun u f => ?_)
  cases u with
  | dir d => exact Iff.rfl
  | other g => exact Iff.rfl
  | tab d i =>
    constructor
    · rintro ⟨hd, hi, ht⟩
      exact ⟨hd, hi, by rw [← (hs d hd).1 i hi]; exact ht⟩
    · rintro ⟨hd, hi, ht⟩
      exact ⟨hd, hi, by rw [(hs d hd).1 i hi]; exact ht⟩
  | page d v =>
    constructor
    · rintro ⟨hd, hv, w, hw, hf⟩
      exact ⟨hd, hv, w, by rw [← (hs d hd).2 v (by omega)]; exact hw, hf⟩
    · rintro ⟨hd, hv, w, hw, hf⟩
      exact ⟨hd, hv, w, by rw [(hs d hd).2 v (by omega)]; exact hw, hf⟩

theorem Owned.notTable_of_free (h : Owned L m free D X) (hf : f ∈ free) : NotTable m D f :=
  ⟨fun hd => h.notFree (u := .dir f) ⟨hd, rfl⟩ hf,
   fun d hd i hi ht => h.notFree (u := .tab d i) ⟨hd, hi, ht⟩ hf⟩

theorem Owned.notTable_of_other (h : Owned L m free D X) (hf : f ∈ X) : NotTable m D f := by
  have hheld : Holds m D X (.other f) f := ⟨hf, rfl⟩
  refine ⟨fun hd => ?_, fun d hd i hi ht => ?_⟩
  · exact FrameUse.noConfusion (h.inj (u := .dir f) ⟨hd, rfl⟩ hheld)
  · exact FrameUse.noConfusion (h.inj (u := .tab d i) ⟨hd, hi, ht⟩ hheld)

theorem Owned.notTable_of_page (h : Owned L m free D X) {w : Nat} (hd : d ∈ D)
    (hv : v < 262144) (hw : pteAt m d v = some w) : NotTable m D (pteFrame w) := by
  have hheld : Holds m D X (.page d v) (pteFrame w) := ⟨hd, hv, w, hw, rfl⟩
  refine ⟨fun hd' => ?_, fun d' hd' i hi ht => ?_⟩
  · exact FrameUse.noConfusion (h.inj (u := .dir (pteFrame w)) ⟨hd', rfl⟩ hheld)
  · exact FrameUse.noConfusion (h.inj (u := .tab d' i) ⟨hd', hi, ht⟩ hheld)

theorem Owned.ram_dir (h : Owned L m free D X) (hd : d ∈ D) : Ram L d := by
  have hheld : Holds m D X (.dir d) d := ⟨hd, rfl⟩
  exact h.pool_of_held hheld

theorem Owned.ram_tab (h : Owned L m free D X) (hd : d ∈ D) (hi : i < 1024)
    (ht : tabOf m d i = some t) : Ram L t := by
  have hheld : Holds m D X (.tab d i) t := ⟨hd, hi, ht⟩
  exact h.pool_of_held hheld

theorem Owned.ram_page (h : Owned L m free D X) {w : Nat} (hd : d ∈ D) (hv : v < 262144)
    (hw : pteAt m d v = some w) : Ram L (pteFrame w) := by
  have hheld : Holds m D X (.page d v) (pteFrame w) := ⟨hd, hv, w, hw, rfl⟩
  exact h.pool_of_held hheld

theorem Owned.ram_other (h : Owned L m free D X) (hf : f ∈ X) : Ram L f := by
  have hheld : Holds m D X (.other f) f := ⟨hf, rfl⟩
  exact h.pool_of_held hheld

theorem Owned.tab_not_dir (h : Owned L m free D X) (hd : d ∈ D) (hi : i < 1024)
    (ht : tabOf m d i = some t) : t ∉ D := by
  intro htD
  exact FrameUse.noConfusion
    (h.inj (u := .dir t) (w := .tab d i) (f := t) ⟨htD, rfl⟩ ⟨hd, hi, ht⟩)

theorem Owned.tab_inj (h : Owned L m free D X) {d' i' : Nat} (hd : d ∈ D) (hi : i < 1024)
    (ht : tabOf m d i = some t) (hd' : d' ∈ D) (hi' : i' < 1024) (ht' : tabOf m d' i' = some t) :
    d' = d ∧ i' = i := by
  have := h.inj (u := .tab d' i') (w := .tab d i) (f := t) ⟨hd', hi', ht'⟩ ⟨hd, hi, ht⟩
  cases this
  exact ⟨rfl, rfl⟩

theorem Owned.page_inj (h : Owned L m free D X) {d' v' w w' : Nat} (hd : d ∈ D)
    (hv : v < 262144) (hw : pteAt m d v = some w) (hd' : d' ∈ D) (hv' : v' < 262144)
    (hw' : pteAt m d' v' = some w') (hf : pteFrame w' = pteFrame w) : d' = d ∧ v' = v := by
  have := h.inj (u := .page d' v') (w := .page d v) (f := pteFrame w)
    ⟨hd', hv', w', hw', hf⟩ ⟨hd, hv, w, hw, rfl⟩
  cases this
  exact ⟨rfl, rfl⟩

/-- Writing a page that is no page table changes no page table. -/
theorem sameTables_of_notTable (hf : NotTable m D f)
    (h : ∀ g, g ≠ f → SamePage m m' g) : SameTables D m m' := by
  intro d hd
  have hdf : d ≠ f := fun he => hf.1 (he ▸ hd)
  refine ⟨fun i hi => tabOf_congr (h d hdf) hi, fun v hv => ?_⟩
  refine pteAt_congr (h d hdf) (fun t ht => h t ?_) hv
  rintro rfl
  exact hf.2 d hd (v / 1024) (by omega) ht

/-! ## The allocator on the ledger -/

theorem Owned.kalloc (h : Owned L m (f :: free) D X) : Owned L m free D (insert f X) := by
  refine h.take (u := .other f) (fun g hg => ?_) (fun w g => ?_)
  · exact h.notFree (u := .other f) (f := f) ⟨hg.1, rfl⟩ List.mem_cons_self
  · cases w with
    | dir d => simp [Holds]
    | tab d i => simp [Holds]
    | page d v => simp [Holds]
    | other x =>
      simp only [Holds, Set.mem_insert_iff, FrameUse.other.injEq]
      constructor
      · rintro ⟨rfl | hx, rfl⟩
        · exact Or.inr ⟨rfl, rfl⟩
        · exact Or.inl ⟨hx, rfl⟩
      · rintro (⟨hx, rfl⟩ | ⟨rfl, rfl⟩)
        · exact ⟨Or.inr hx, rfl⟩
        · exact ⟨Or.inl rfl, rfl⟩

theorem sameTables_junkPage (h : NotTable m D f) (l : List Nat) :
    SameTables D m (junkPage m f l) :=
  sameTables_of_notTable h (fun _ hg => samePage_junkPage hg)

theorem Owned.kfree (h : Owned L m free D X) (hf : f ∈ X) :
    Owned L (junkPage m f free) (f :: free) D (X \ {f}) := by
  have hs : SameTables D m (junkPage m f free) := sameTables_junkPage (h.notTable_of_other hf) _
  have hheld : Holds (junkPage m f free) D X (.other f) f := ⟨hf, rfl⟩
  refine (Owned.of_sameTables h hs).give hheld (fun w g => ?_)
  cases w with
  | dir d => simp [Holds]
  | tab d i => simp [Holds]
  | page d v => simp [Holds]
  | other x =>
    simp only [Holds, Set.mem_sdiff, Set.mem_singleton_iff, ne_eq, FrameUse.other.injEq]
    constructor
    · rintro ⟨⟨hx, hxf⟩, rfl⟩
      exact ⟨⟨hx, rfl⟩, hxf⟩
    · rintro ⟨⟨hx, rfl⟩, hxf⟩
      exact ⟨⟨hx, hxf⟩, rfl⟩

/-! ## Page-table writes on the ledger -/

/-- A store into a page-table page sets one entry of one directory. -/
theorem Owned.setPte (h : Owned L m free D X) {w : Nat} (hd : d ∈ D) (hv : v < 1048576)
    (ht : tabOf m d (v / 1024) = some t) (hw : w < 2 ^ 32) :
    SetPte D m (setWord m t (v % 1024) w) d v w := by
  have htD : t ∉ D := h.tab_not_dir hd (by omega) ht
  have hlt : v % 1024 < 1024 := Nat.mod_lt _ (by omega)
  intro d' hd'
  have hdt : d' ≠ t := fun he => htD (he ▸ hd')
  have htabs : ∀ i < 1024, tabOf (setWord m t (v % 1024) w) d' i = tabOf m d' i :=
    fun i hi => tabOf_congr (samePage_setWord hlt hdt) hi
  refine ⟨htabs, fun v' hv' => ?_⟩
  cases ht' : tabOf m d' (v' / 1024) with
  | none =>
    have hne : ¬ (d' = d ∧ v' = v) := by
      rintro ⟨rfl, rfl⟩
      rw [ht] at ht'
      cases ht'
    rw [if_neg hne, pteAt_none_of_tabOf ht']
    exact pteAt_none_of_tabOf (by rw [htabs _ (by omega), ht'])
  | some t' =>
    rw [pteAt_of_tabOf (by rw [htabs _ (by omega), ht']), pteAt_of_tabOf ht']
    by_cases hsame : d' = d ∧ v' = v
    · obtain ⟨rfl, rfl⟩ := hsame
      rw [ht] at ht'
      cases ht'
      rw [word_setWord, Nat.mod_eq_of_lt hw]
      exact (if_pos ⟨rfl, rfl⟩).symm
    · have hne : t' ≠ t ∨ v' % 1024 ≠ v % 1024 := by
        -- the same page-table page serves the same directory entry only
        by_contra hcon
        push Not at hcon
        obtain ⟨rfl, hmod⟩ := hcon
        obtain ⟨hdd, hii⟩ := h.tab_inj hd (by omega) ht hd' (by omega) ht'
        exact hsame ⟨hdd, by omega⟩
      rw [if_neg hsame, word_setWord_of_ne hlt (Nat.mod_lt _ (by omega)) hne]

theorem SetPte.holds {w : Nat} (hs : SetPte D m m' d v w) (u : FrameUse) (f : Nat) :
    Holds m' D X u f ↔ (Holds m D X u f ∧ u ≠ .page d v) ∨
      (u = .page d v ∧ d ∈ D ∧ v < 262144 ∧ present w = true ∧ pteFrame w = f) := by
  cases u with
  | dir d' => simp [Holds]
  | other g => simp [Holds]
  | tab d' i =>
    simp only [Holds, ne_eq, reduceCtorEq, not_false_eq_true, and_true, false_and, or_false]
    constructor
    · rintro ⟨hd', hi, ht⟩
      exact ⟨hd', hi, by rw [← (hs d' hd').1 i hi]; exact ht⟩
    · rintro ⟨hd', hi, ht⟩
      exact ⟨hd', hi, by rw [(hs d' hd').1 i hi]; exact ht⟩
  | page d' v' =>
    by_cases hsame : d' = d ∧ v' = v
    · obtain ⟨rfl, rfl⟩ := hsame
      simp only [Holds, ne_eq, not_true_eq_false, and_false, true_and, false_or]
      constructor
      · rintro ⟨hd', hv', w', hw', hf⟩
        rw [(hs d' hd').2 v' (by omega), if_pos ⟨rfl, rfl⟩] at hw'
        by_cases hp : present w = true
        · rw [if_pos hp] at hw'
          cases hw'
          exact ⟨hd', hv', hp, hf⟩
        · rw [if_neg hp] at hw'
          cases hw'
      · rintro ⟨hd', hv', hp, hf⟩
        refine ⟨hd', hv', w, ?_, hf⟩
        rw [(hs d' hd').2 v' (by omega), if_pos ⟨rfl, rfl⟩, if_pos hp]
    · have hne : FrameUse.page d' v' ≠ .page d v := by
        intro he
        cases he
        exact hsame ⟨rfl, rfl⟩
      simp only [Holds, ne_eq, hne, not_false_eq_true, and_true, false_and, or_false]
      constructor
      · rintro ⟨hd', hv', w', hw', hf⟩
        rw [(hs d' hd').2 v' (by omega), if_neg hsame] at hw'
        exact ⟨hd', hv', w', hw', hf⟩
      · rintro ⟨hd', hv', w', hw', hf⟩
        refine ⟨hd', hv', w', ?_, hf⟩
        rw [(hs d' hd').2 v' (by omega), if_neg hsame]
        exact hw'

/-- Mapping a frame held outside page tables as a user page. -/
theorem Owned.mapUser (h : Owned L m free D X) {w : Nat} (hs : SetPte D m m' d v w)
    (hd : d ∈ D) (hv : v < 262144) (habs : pteAt m d v = none) (hp : present w = true)
    (hf : pteFrame w ∈ X) : Owned L m' free D (X \ {pteFrame w}) := by
  have hheld : Holds m D X (.other (pteFrame w)) (pteFrame w) := ⟨hf, rfl⟩
  have hempty : ∀ g, ¬ Holds m D X (.page d v) g := by
    rintro g ⟨_, _, w', hw', _⟩
    rw [habs] at hw'
    cases hw'
  refine h.move hheld hempty (fun u g => ?_)
  have hX : Holds m' D (X \ {pteFrame w}) u g ↔ Holds m' D X u g ∧ u ≠ .other (pteFrame w) := by
    cases u with
    | dir d' => simp [Holds]
    | tab d' i => simp [Holds]
    | page d' v' => simp [Holds]
    | other x =>
      simp only [Holds, Set.mem_sdiff, Set.mem_singleton_iff, ne_eq, FrameUse.other.injEq]
      constructor
      · rintro ⟨⟨hx, hxf⟩, rfl⟩
        exact ⟨⟨hx, rfl⟩, hxf⟩
      · rintro ⟨⟨hx, rfl⟩, hxf⟩
        exact ⟨⟨hx, hxf⟩, rfl⟩
  rw [hX, hs.holds u g]
  constructor
  · rintro ⟨⟨hu, _⟩ | ⟨rfl, _, _, _, rfl⟩, hne⟩
    · exact Or.inl ⟨hu, hne⟩
    · exact Or.inr ⟨rfl, rfl⟩
  · rintro (⟨hu, hne⟩ | ⟨rfl, rfl⟩)
    · refine ⟨Or.inl ⟨hu, ?_⟩, hne⟩
      rintro rfl
      exact hempty g hu
    · exact ⟨Or.inr ⟨rfl, hd, hv, hp, rfl⟩, by simp⟩

/-- An entry at or above SHAREDBASE, or one that keeps its frame, does not
count. -/
theorem Owned.setHigh (h : Owned L m free D X) {w : Nat} (hs : SetPte D m m' d v w)
    (hv : 262144 ≤ v) : Owned L m' free D X := by
  refine h.congr (fun u g => ?_)
  rw [hs.holds u g]
  constructor
  · rintro (⟨hu, _⟩ | ⟨_, _, hlt, _⟩)
    · exact hu
    · omega
  · intro hu
    refine Or.inl ⟨hu, ?_⟩
    rintro rfl
    have := hu.2.1
    omega

theorem Owned.setFlags (h : Owned L m free D X) {w w' : Nat} (hs : SetPte D m m' d v w)
    (hw' : pteAt m d v = some w') (hp : present w = true) (hf : pteFrame w = pteFrame w') :
    Owned L m' free D X := by
  refine h.congr (fun u g => ?_)
  rw [hs.holds u g]
  constructor
  · rintro (⟨hu, _⟩ | ⟨rfl, hd, hv, _, rfl⟩)
    · exact hu
    · exact ⟨hd, hv, w', hw', hf.symm⟩
  · intro hu
    by_cases hup : u = .page d v
    · subst hup
      obtain ⟨hd, hv, w'', hw'', hg⟩ := hu
      rw [hw'] at hw''
      cases hw''
      exact Or.inr ⟨rfl, hd, hv, hp, hf.trans hg⟩
    · exact Or.inl ⟨hu, hup⟩

/-- Clearing the entry of a user page leaves its frame outside page tables. -/
theorem Owned.unmap (h : Owned L m free D X) {w : Nat} (hs : SetPte D m m' d v 0)
    (hd : d ∈ D) (hv : v < 262144) (hw : pteAt m d v = some w) :
    Owned L m' free D (insert (pteFrame w) X) := by
  have hheld : Holds m D X (.page d v) (pteFrame w) := ⟨hd, hv, w, hw, rfl⟩
  have hempty : ∀ g, ¬ Holds m D X (.other (pteFrame w)) g := by
    rintro g ⟨hx, _⟩
    have hother : Holds m D X (.other (pteFrame w)) (pteFrame w) := ⟨hx, rfl⟩
    exact FrameUse.noConfusion (h.inj hother hheld)
  refine h.move hheld hempty (fun u g => ?_)
  have hX : Holds m' D (insert (pteFrame w) X) u g ↔
      Holds m' D X u g ∨ (u = .other (pteFrame w) ∧ g = pteFrame w) := by
    cases u with
    | dir d' => simp [Holds]
    | tab d' i => simp [Holds]
    | page d' v' => simp [Holds]
    | other x =>
      simp only [Holds, Set.mem_insert_iff, FrameUse.other.injEq]
      constructor
      · rintro ⟨rfl | hx, rfl⟩
        · exact Or.inr ⟨rfl, rfl⟩
        · exact Or.inl ⟨hx, rfl⟩
      · rintro (⟨hx, rfl⟩ | ⟨rfl, rfl⟩)
        · exact ⟨Or.inr hx, rfl⟩
        · exact ⟨Or.inl rfl, rfl⟩
  rw [hX, hs.holds u g]
  have hzero : present 0 = false := rfl
  simp [hzero]

/-! ## Page-table pages and directories on the ledger -/

/-- An empty page put behind an absent directory entry. -/
theorem Owned.addTabView (h : Owned L m free D X) (hd : d ∈ D) (hi : i < 1024)
    (habs : tabOf m d i = none) (hf : f ∈ X) :
    AddTab D m (setWord (fillPage m f 0) d i (f * 4096 ||| pteP ||| pteW ||| pteU)) d i f := by
  have hnt := h.notTable_of_other hf
  have hlt := (h.ram_other hf).lt
  have hfd : f ≠ d := fun he => hnt.1 (he ▸ hd)
  have hsame : ∀ g, g ≠ f → g ≠ d →
      SamePage m (setWord (fillPage m f 0) d i (f * 4096 ||| pteP ||| pteW ||| pteU)) g :=
    fun g hg hgd => (samePage_fillPage hg).trans (samePage_setWord hi hgd)
  have hword : ∀ j < 1024, j ≠ i → word
      (setWord (fillPage m f 0) d i (f * 4096 ||| pteP ||| pteW ||| pteU)) d j = word m d j := by
    intro j hj hji
    rw [word_setWord_of_ne hi hj (Or.inr hji)]
    exact (samePage_fillPage (Ne.symm hfd)).word hj
  have hpde : word (setWord (fillPage m f 0) d i (f * 4096 ||| pteP ||| pteW ||| pteU)) d i
      = f * 4096 ||| 6 ||| pteP := by
    rw [word_setWord, pde_mk, Nat.mod_eq_of_lt (mk_lt (by omega) (by omega))]
  have htabs : ∀ d' ∈ D, ∀ j < 1024, tabOf
      (setWord (fillPage m f 0) d i (f * 4096 ||| pteP ||| pteW ||| pteU)) d' j
        = if d' = d ∧ j = i then some f else tabOf m d' j := by
    intro d' hd' j hj
    by_cases hdd : d' = d
    · subst hdd
      by_cases hji : j = i
      · subst hji
        rw [if_pos ⟨rfl, rfl⟩, tabOf, hpde, present_mk, if_pos rfl, pteFrame_mk (by omega)]
      · rw [if_neg (fun hc => hji hc.2), tabOf, tabOf, hword j hj hji]
    · rw [if_neg (fun hc => hdd hc.1)]
      exact tabOf_congr (hsame d' (fun he => hnt.1 (he ▸ hd')) hdd) hj
  intro d' hd'
  refine ⟨htabs d' hd', fun v hv => ?_⟩
  by_cases hnew : d' = d ∧ v / 1024 = i
  · obtain ⟨rfl, rfl⟩ := hnew
    rw [pteAt_none_of_tabOf habs,
      pteAt_of_tabOf ((htabs d' hd' _ hi).trans (if_pos ⟨rfl, rfl⟩))]
    have hz : word (setWord (fillPage m f 0) d' (v / 1024)
        (f * 4096 ||| pteP ||| pteW ||| pteU)) f (v % 1024) = 0 := by
      rw [word_setWord_of_ne hi (Nat.mod_lt _ (by omega)) (Or.inl hfd)]
      exact word_fillPage_zero (Nat.mod_lt _ (by omega))
    rw [hz]
    rfl
  · have hold : tabOf (setWord (fillPage m f 0) d i (f * 4096 ||| pteP ||| pteW ||| pteU)) d'
        (v / 1024) = tabOf m d' (v / 1024) :=
      (htabs d' hd' _ (by omega)).trans (if_neg hnew)
    cases ht : tabOf m d' (v / 1024) with
    | none => rw [pteAt_none_of_tabOf ht, pteAt_none_of_tabOf (hold.trans ht)]
    | some t =>
      have htf : t ≠ f := fun he => hnt.2 d' hd' _ (by omega) (he ▸ ht)
      have htd : t ≠ d := fun he => h.tab_not_dir hd' (by omega) ht (he ▸ hd)
      rw [pteAt_of_tabOf ht, pteAt_of_tabOf (hold.trans ht),
        (hsame t htf htd).word (Nat.mod_lt _ (by omega))]

theorem Owned.addTab (h : Owned L m free D X) (ha : AddTab D m m' d i f) (hd : d ∈ D)
    (hi : i < 1024) (habs : tabOf m d i = none) (hf : f ∈ X) :
    Owned L m' free D (X \ {f}) := by
  have hheld : Holds m D X (.other f) f := ⟨hf, rfl⟩
  have hempty : ∀ g, ¬ Holds m D X (.tab d i) g := by
    rintro g ⟨_, _, ht⟩
    rw [habs] at ht
    cases ht
  refine h.move hheld hempty (fun u g => ?_)
  cases u with
  | dir d' => simp [Holds]
  | page d' v =>
    simp only [Holds, ne_eq, reduceCtorEq, not_false_eq_true, and_true, false_and, or_false]
    constructor
    · rintro ⟨hd', hv, w, hw, hf⟩
      exact ⟨hd', hv, w, by rw [← (ha d' hd').2 v (by omega)]; exact hw, hf⟩
    · rintro ⟨hd', hv, w, hw, hf⟩
      exact ⟨hd', hv, w, by rw [(ha d' hd').2 v (by omega)]; exact hw, hf⟩
  | other x =>
    simp only [Holds, Set.mem_sdiff, Set.mem_singleton_iff, ne_eq, FrameUse.other.injEq,
      reduceCtorEq, false_and, or_false]
    constructor
    · rintro ⟨⟨hx, hxf⟩, rfl⟩
      exact ⟨⟨hx, rfl⟩, hxf⟩
    · rintro ⟨⟨hx, rfl⟩, hxf⟩
      exact ⟨⟨hx, hxf⟩, rfl⟩
  | tab d' j =>
    simp only [Holds, ne_eq, reduceCtorEq, not_false_eq_true, and_true, FrameUse.tab.injEq]
    constructor
    · rintro ⟨hd', hj, ht⟩
      rw [(ha d' hd').1 j hj] at ht
      split at ht
      · next hsame => exact Or.inr ⟨hsame, (Option.some.inj ht).symm⟩
      · exact Or.inl ⟨hd', hj, ht⟩
    · rintro (⟨hd', hj, ht⟩ | ⟨⟨rfl, rfl⟩, rfl⟩)
      · refine ⟨hd', hj, ?_⟩
        rw [(ha d' hd').1 j hj, if_neg]
        · exact ht
        · rintro ⟨rfl, rfl⟩
          rw [habs] at ht
          cases ht
      · refine ⟨hd, hi, ?_⟩
        rw [(ha d' hd).1 j hi, if_pos ⟨rfl, rfl⟩]

theorem tabOf_fillPage_zero (m : Mem) (f : Nat) {i : Nat} (hi : i < 1024) :
    tabOf (fillPage m f 0) f i = none := by
  rw [tabOf, word_fillPage_zero hi]
  rfl

/-- A cleared page becomes a page directory that maps nothing. -/
theorem Owned.newDir (h : Owned L m free D X) (hf : f ∈ X) :
    Owned L (fillPage m f 0) free (insert f D) (X \ {f}) := by
  have hnt := h.notTable_of_other hf
  have hs : SameTables D m (fillPage m f 0) :=
    sameTables_of_notTable hnt (fun _ hg => samePage_fillPage hg)
  have hpte : ∀ v < 1048576, pteAt (fillPage m f 0) f v = none :=
    fun v hv => pteAt_none_of_tabOf (tabOf_fillPage_zero m f (by omega))
  have hheld : Holds (fillPage m f 0) D X (.other f) f := ⟨hf, rfl⟩
  refine (Owned.of_sameTables h hs).move hheld (w := .dir f) (fun g hg => hnt.1 hg.1)
    (fun u g => ?_)
  cases u with
  | dir d' =>
    simp only [Holds, Set.mem_insert_iff, ne_eq, reduceCtorEq, not_false_eq_true, and_true,
      FrameUse.dir.injEq]
    constructor
    · rintro ⟨rfl | hd', rfl⟩
      · exact Or.inr ⟨rfl, rfl⟩
      · exact Or.inl ⟨hd', rfl⟩
    · rintro (⟨hd', rfl⟩ | ⟨rfl, rfl⟩)
      · exact ⟨Or.inr hd', rfl⟩
      · exact ⟨Or.inl rfl, rfl⟩
  | tab d' j =>
    simp only [Holds, Set.mem_insert_iff, ne_eq, reduceCtorEq, not_false_eq_true, and_true,
      false_and, or_false]
    constructor
    · rintro ⟨rfl | hd', hj, ht⟩
      · rw [tabOf_fillPage_zero m d' hj] at ht
        cases ht
      · exact ⟨hd', hj, ht⟩
    · rintro ⟨hd', hj, ht⟩
      exact ⟨Or.inr hd', hj, ht⟩
  | page d' v =>
    simp only [Holds, Set.mem_insert_iff, ne_eq, reduceCtorEq, not_false_eq_true, and_true,
      false_and, or_false]
    constructor
    · rintro ⟨rfl | hd', hv, w, hw, hg⟩
      · rw [hpte v (by omega)] at hw
        cases hw
      · exact ⟨hd', hv, w, hw, hg⟩
    · rintro ⟨hd', hv, w, hw, hg⟩
      exact ⟨Or.inr hd', hv, w, hw, hg⟩
  | other x =>
    simp only [Holds, Set.mem_sdiff, Set.mem_singleton_iff, ne_eq, FrameUse.other.injEq,
      reduceCtorEq, false_and, or_false]
    constructor
    · rintro ⟨⟨hx, hxf⟩, rfl⟩
      exact ⟨⟨hx, rfl⟩, hxf⟩
    · rintro ⟨⟨hx, rfl⟩, hxf⟩
      exact ⟨⟨hx, hxf⟩, rfl⟩

/-- The page-table pages of a directory. -/
def tabsOf (m : Mem) (d : Nat) : Set Nat := {t | ∃ i < 1024, tabOf m d i = some t}

/-- A directory without user pages is given up: it and its page-table pages
are frames held outside page tables. -/
theorem Owned.dropDir (h : Owned L m free D X) (hd : d ∈ D)
    (hempty : ∀ v < 262144, pteAt m d v = none) :
    Owned L m free (D \ {d}) (X ∪ insert d (tabsOf m d)) := by
  -- a frame of the new `other` part was held, and by whom
  have hold : ∀ x, x ∈ X ∪ insert d (tabsOf m d) →
      ∃ u, Holds m D X u x ∧ (u = .other x ∨ u = .dir d ∨ ∃ i, u = .tab d i) := by
    rintro x (hx | rfl | ⟨i, hi, ht⟩)
    · exact ⟨.other x, ⟨hx, rfl⟩, Or.inl rfl⟩
    · exact ⟨.dir x, ⟨hd, rfl⟩, Or.inr (Or.inl rfl)⟩
    · exact ⟨.tab d i, ⟨hd, hi, ht⟩, Or.inr (Or.inr ⟨i, rfl⟩)⟩
  -- every other use is unchanged
  have hkeep : ∀ u f, Holds m (D \ {d}) (X ∪ insert d (tabsOf m d)) u f →
      (∃ x, u = .other x ∧ f = x ∧ x ∈ X ∪ insert d (tabsOf m d)) ∨
      (Holds m D X u f ∧ u ≠ .dir d ∧ (∀ i, u ≠ .tab d i) ∧ ∀ x, u ≠ .other x) := by
    intro u f hu
    cases u with
    | dir d' =>
      refine Or.inr ⟨⟨hu.1.1, hu.2⟩, ?_, by simp, by simp⟩
      intro he
      cases he
      exact hu.1.2 rfl
    | tab d' i =>
      refine Or.inr ⟨⟨hu.1.1, hu.2⟩, by simp, ?_, by simp⟩
      intro j he
      cases he
      exact hu.1.2 rfl
    | page d' v => exact Or.inr ⟨⟨hu.1.1, hu.2⟩, by simp, by simp, by simp⟩
    | other x => exact Or.inl ⟨x, rfl, hu.2, hu.1⟩
  refine h.recast (fun f => ?_) ?_ ?_
  · constructor
    · rintro ⟨u, hu⟩
      rcases hkeep u f hu with ⟨x, rfl, rfl, hx⟩ | ⟨hu', _⟩
      · obtain ⟨w, hw, _⟩ := hold f hx
        exact ⟨w, hw⟩
      · exact ⟨u, hu'⟩
    · rintro ⟨u, hu⟩
      cases u with
      | dir d' =>
        obtain ⟨hd', rfl⟩ := hu
        by_cases hdd : f = d
        · exact ⟨.other f, Or.inr (Or.inl hdd), rfl⟩
        · exact ⟨.dir f, ⟨hd', hdd⟩, rfl⟩
      | tab d' i =>
        obtain ⟨hd', hi, ht⟩ := hu
        by_cases hdd : d' = d
        · subst hdd
          exact ⟨.other f, Or.inr (Or.inr ⟨i, hi, ht⟩), rfl⟩
        · exact ⟨.tab d' i, ⟨hd', hdd⟩, hi, ht⟩
      | page d' v =>
        obtain ⟨hd', hv, w, hw, hg⟩ := hu
        refine ⟨.page d' v, ⟨hd', ?_⟩, hv, w, hw, hg⟩
        rintro rfl
        rw [hempty v hv] at hw
        cases hw
      | other x =>
        obtain ⟨hx, rfl⟩ := hu
        exact ⟨.other f, Or.inl hx, rfl⟩
  · intro u f g hf hg
    rcases hkeep u f hf with ⟨x, rfl, rfl, _⟩ | ⟨hf', _, _, hno⟩
    · exact hg.2.symm
    · rcases hkeep u g hg with ⟨x, rfl, _⟩ | ⟨hg', _⟩
      · exact absurd rfl (hno x)
      · exact h.func hf' hg'
  · intro u w f hu hw
    rcases hkeep u f hu with ⟨x, rfl, rfl, hx⟩ | ⟨hu', hu1, hu2, hu3⟩
    · rcases hkeep w f hw with ⟨y, rfl, rfl, _⟩ | ⟨hw', hw1, hw2, hw3⟩
      · rfl
      · obtain ⟨u', hu', hcase⟩ := hold f hx
        have he := h.inj hw' hu'
        rcases hcase with rfl | rfl | ⟨i, rfl⟩
        · exact absurd he (hw3 f)
        · exact absurd he hw1
        · exact absurd he (hw2 i)
    · rcases hkeep w f hw with ⟨y, rfl, rfl, hy⟩ | ⟨hw', _⟩
      · obtain ⟨w', hw', hcase⟩ := hold f hy
        have he := h.inj hu' hw'
        rcases hcase with rfl | rfl | ⟨i, rfl⟩
        · exact absurd he (hu3 f)
        · exact absurd he hu1
        · exact absurd he (hu2 i)
      · exact h.inj hu' hw'

end Owned

end Xv6Sharing.Vm
