/-
Xv6Sharing.Process.NewImage — the page table `exec` has when it starts to push the
arguments.

Below the size are the pages of the image, the last two being the guard and the
stack. The kernel half is as `setupkvm` made it. In particular the directory has
no page-table page for the addresses between PHYSTOP and DEVSPACE: loading,
sharing and the allocation of the stack only add pages below KERNBASE, and
`newImage_of_exec` says that every image `exec` gets this far is of this kind.
-/
import Xv6Sharing.Process.ExecImage
import Xv6Sharing.Process.SharingRun
import Xv6Sharing.Vm.Tables

namespace Xv6Sharing.Process

open Lib Vm Share

/-- The page table of an image that has no stack yet: its pages, the kernel's mappings, and
no page table in the hole. -/
structure BareImage (L : Layout) (m : Mem) (d sz : Nat) : Prop where
  size : sz < sharedbase
  image : Image m d sz
  kernel : ∀ v, 524288 ≤ v → v < 1048576 → pteAt m d v = kmapPte (kmap L) v
  hole : ∀ j ∈ hole, tabOf m d j = none

/-- The page table of a new image: the pages below its size, of which the last two are the
guard and the stack, the kernel's mappings, and no page table in the hole. -/
structure NewImage (L : Layout) (m : Mem) (d top : Nat) : Prop where
  size : (top + 2) * 4096 < sharedbase
  image : Image m d ((top + 2) * 4096)
  stack : Stack m d top
  kernel : ∀ v, 524288 ≤ v → v < 1048576 → pteAt m d v = kmapPte (kmap L) v
  hole : ∀ j ∈ hole, tabOf m d j = none

section

variable {L : Layout} {D X : Set Nat} {S : Set Nat} {σ σ' : Phys} {d parent top : Nat}

theorem NewImage.of_sameTables (h : NewImage L σ.mem d top) (hd : d ∈ D)
    (hs : SameTables D σ.mem σ'.mem) : NewImage L σ'.mem d top := by
  have hsize : (top + 2) * 4096 < 1073741824 := h.size
  exact
    { size := h.size
      image := h.image.of_sameTables h.size.le hd hs
      stack := h.stack.of_sameTables hd (by omega) hs
      kernel := fun v hv hv' => ((hs d hd).2 v hv').trans (h.kernel v hv hv')
      hole := fun j hj => ((hs d hd).1 j (lt_trans hj.2 (by decide))).trans (h.hole j hj) }

/-! ## Page tables along `exec` -/

/-- The loop over the program headers works under the first 256 entries. -/
theorem loadSegments_tabs {file : List UInt8} (hd : d ∈ D) (hS : ∀ j ∈ S, 256 ≤ j) :
    ∀ (n off sz : Nat) (σ : Phys), Sound L D X σ → Image σ.mem d sz → sz ≤ sharedbase →
    Spec anyPanic (loadSegments L d file n off sz) σ
      (fun r σ' => r ≠ none → TabsKept S d σ σ') := by
  intro n
  induction n with
  | zero => exact fun off sz σ _ _ _ => Spec.pure fun _ => TabsKept.refl _ _ _
  | succ n ih =>
    intro off sz σ h himg hsz
    refine loadRound (fun hr => absurd rfl hr) (fun _ _ _ => ih _ sz σ h himg hsz)
      (fun bs ph _ _ _ hfile => ?_)
    refine ((allocuvm_image (E := anyPanic) h hd himg hsz).and (allocuvm_tabs h hd hS)).mono
      fun sz' σ₁ hr => ?_
    obtain ⟨⟨h₁, _, hgrow, _⟩, hk₁⟩ := hr
    refine ⟨fun hr => absurd rfl hr, fun hz halign => ?_⟩
    obtain ⟨hmax, hb₁, _⟩ := hgrow hz
    have hle : sz' ≤ 1073741824 := hb₁.size
    refine (loaduvm_spec h₁ hd halign (by unfold sharedbase; omega)
      (fun x _ hx => hb₁.image.inside x (by omega))).mono fun b σ₂ hr => ?_
    obtain ⟨h₂, hs₂, _⟩ := hr
    have hb₂ := hb₁.of_sameTables hd hs₂
    refine ⟨fun _ hr => absurd rfl hr, fun _ => ?_⟩
    refine (ih _ sz' σ₂ h₂ hb₂.image hb₂.size).mono fun r σ₃ hr hne => ?_
    exact ((hk₁ hz).trans (TabsKept.of_sameTables hs₂ hd)).trans (hr hne)

/-- The first part of `exec` adds no page tables for the window and none in the hole. -/
theorem execLoad_unmapped (file : Option (List UInt8)) (h : Sound L D X σ) :
    Spec anyPanic (execLoad L file) σ (fun r σ' => ∀ d sz entry, r = some (d, sz, entry) →
      ∀ j ∈ unmapped, 256 ≤ j → tabOf σ'.mem d j = none) := by
  unfold execLoad
  cases file with
  | none => exact Spec.pure fun _ _ _ hr => nomatch hr
  | some file =>
    dsimp only
    cases readi file 0 elfhdrSize with
    | none => exact Spec.pure fun _ _ _ hr => nomatch hr
    | some bs =>
      dsimp only
      by_cases hhdr : bs.length ≠ elfhdrSize ∨ (elfhdr bs).magic ≠ elfMagic
      · rw [if_pos hhdr]
        exact Spec.pure fun _ _ _ hr => nomatch hr
      rw [if_neg hhdr]
      refine Spec.seq ((setupkvm_spec h).and (setupkvm_unmapped h)) (fun r σ₁ hr => ?_)
      obtain ⟨⟨_, ⟨rfl, _⟩ | ⟨d, rfl, hfree, _, h₁, hkern, _⟩⟩, hempty⟩ := hr
      · exact Spec.pure fun _ _ _ hr => nomatch hr
      have himg : Image σ₁.mem d 0 := by
        refine ⟨fun v hv => absurd hv (Nat.not_lt_zero _), fun v hv _ => ?_⟩
        rw [hkern v (by omega)]
        exact kmapPte_user (Ram.data_lt (h.pool_of_free hfree)) (by omega)
      refine Spec.seq (loadSegments_tabs (S := Set.Ici 256) (Set.mem_insert d D)
        (fun _ hj => hj) _ _ 0 σ₁ h₁ himg (Nat.zero_le _)) (fun r σ₂ hr => ?_)
      cases r with
      | none => exact Spec.seq (Spec.any fun _ => trivial) fun _ _ _ =>
        Spec.pure fun _ _ _ hr => nomatch hr
      | some sz =>
        refine Spec.pure fun d' sz' entry hr' j hj hlow => ?_
        cases hr'
        rw [hr (Option.some_ne_none sz) j hlow (unmapped_lt hj)]
        exact hempty d rfl j hj

/-- The inner loop of `access_shared_memory`, as long as page tables can be had. -/
theorem accessLoop_tabs {va size : Nat} (hd : d ∈ D) (hS : ∀ j ∈ S, 512 ≤ j)
    (hsize : size < 2 ^ 32) : ∀ (n fuel i v start : Nat) (σ : Phys), Sound L D X σ →
    i + n * 4096 = size → n < fuel → 262144 ≤ v → v ≤ 524288 → pteAt σ.mem d 524288 ≠ none →
    Spec anyPanic (accessLoop L d parent va size fuel i (v * 4096) start) σ
      (fun r σ' => r ≠ .noMemory → TabsKept S d σ σ') := by
  intro n
  induction n with
  | zero =>
    intro fuel i v start σ _ hi hfuel _ _ _
    cases fuel with
    | zero => omega
    | succ fuel =>
      unfold accessLoop
      rw [if_neg (by omega)]
      exact Spec.pure fun _ => TabsKept.refl _ _ _
  | succ n ih =>
    intro fuel i v start σ h hi hfuel hlow hv hkern
    cases fuel with
    | zero => omega
    | succ fuel =>
      by_cases hp : parent = 0
      · unfold accessLoop
        rw [if_pos (by omega), hp]
        exact Spec.seq (Q := fun _ _ => False) (Spec.of_error (e := .nullDeref) rfl trivial)
          (fun _ _ hr => hr.elim)
      refine accessRound hp (by omega) (fun _ _ => TabsKept.refl _ _ _) (fun w _ hf => ?_)
      refine (mapWindow_spec h hd hlow (by omega) hf fun _ => trivial).mono fun b σ₁ hb => ?_
      obtain ⟨rfl, _⟩ | ⟨rfl, hnone, h₁, hedit, htab⟩ := hb
      · rw [if_neg (by simp)]
        exact Spec.seq (Spec.any fun _ => trivial) fun _ _ _ =>
          Spec.pure fun hr => absurd rfl hr
      · have hvlt : v < 524288 := by
          refine lt_of_le_of_ne hv fun hv' => hkern ?_
          rw [← hv']
          exact hnone
        have hnext : u32 (v * 4096 + 4096) = (v + 1) * 4096 := by
          unfold u32
          omega
        have hi' : u32 (i + 4096) = i + 4096 := by
          unfold u32
          omega
        have hkern₁ : pteAt σ₁.mem d 524288 ≠ none := by
          rw [hedit.pte _ (by omega), Function.update_of_ne (by omega)]
          exact hkern
        have hk₁ : TabsKept S d σ σ₁ := by
          intro j hj hlt
          have := hS j hj
          exact htab.others j hlt (by omega)
        rw [if_pos rfl, hnext, hi']
        exact (ih fuel (i + 4096) (v + 1) (u32 (start + 4096)) σ₁ h₁ (by omega) (by omega)
          (by omega) (by omega) hkern₁).mono fun r σ₂ hr hne => hk₁.trans (hr hne)

theorem accessEntries_tabs (hd : d ∈ D) (hS : ∀ j ∈ S, 512 ≤ j) :
    ∀ (es : List Shared) (b : Nat) (σ : Phys), Sound L D X σ → 262144 ≤ b → b ≤ 524288 →
    pteAt σ.mem d 524288 ≠ none →
    Spec anyPanic (accessEntries L d parent (b * 4096) es) σ
      (fun r σ' => r.1 ≠ .noMemory → TabsKept S d σ σ') := by
  intro es
  induction es with
  | nil => exact fun b σ _ _ _ _ => Spec.pure fun _ => TabsKept.refl _ _ _
  | cons e es ih =>
    intro b σ h hlow hb hkern
    unfold accessEntries
    by_cases hfree : e.size = 0
    · rw [if_pos hfree]
      exact Spec.pure fun _ => TabsKept.refl _ _ _
    rw [if_neg hfree]
    have hround : pgroundup (b * 4096) = b * 4096 := by
      unfold pgroundup u32
      omega
    rw [hround, span_eq]
    have hpages := pages_lt e
    have hfuel : Shared.pages e < pageFuel := by
      unfold pageFuel
      omega
    refine Spec.seq ((accessLoop_spec (E := anyPanic) hd (fun _ => trivial) (by omega)
      (Shared.pages e) pageFuel 0 b e.memstart σ h (by omega) hfuel hlow hb hkern
      (fun _ _ _ _ => trivial) (Or.inr fun _ => trivial)).and
      (accessLoop_tabs hd hS (by omega) (Shared.pages e) pageFuel 0 b e.memstart σ h (by omega)
        hfuel hlow hb hkern)) (fun r σ₁ hr => ?_)
    obtain ⟨⟨rfl, _⟩ | ⟨h₁, _, ⟨rfl, hwin⟩ | ⟨rfl, _⟩⟩, hk₁⟩ := hr
    · rw [if_neg (by decide)]
      exact Spec.pure fun hr => absurd rfl hr
    · rw [if_pos rfl]
      have hfits := hwin.fits
      have hnext : u32 (b * 4096 + Shared.pages e * 4096) = (b + Shared.pages e) * 4096 := by
        unfold u32
        omega
      rw [hnext]
      have hkern₁ : pteAt σ₁.mem d 524288 ≠ none := by
        rw [hwin.outside _ (by omega) (by omega)]
        exact hkern
      refine Spec.seq (ih (b + Shared.pages e) σ₁ h₁ (by omega) hfits hkern₁)
        (fun r' σ₂ hr => ?_)
      exact Spec.pure fun hne => (hk₁ (by decide)).trans (hr hne)
    · rw [if_neg (by decide)]
      exact Spec.pure fun _ => hk₁ (by decide)

theorem execShare_tabs {q : Proc} {argv : List CString} (h : Sound L D X σ) (hd : d ∈ D)
    (hkern : pteAt σ.mem d 524288 ≠ none) (hS : ∀ j ∈ S, 512 ≤ j) :
    Spec anyPanic (execShare L q d argv) σ
      (fun r σ' => r.1 ≠ .noMemory → TabsKept S d σ σ') := by
  unfold execShare
  cases argv with
  | nil => exact Spec.throw trivial
  | cons arg args =>
    dsimp only
    split
    · exact accessEntries_tabs hd hS q.shared.entries 262144 σ h le_rfl (by decide) hkern
    · exact Spec.pure fun _ => TabsKept.refl _ _ _

theorem allocStack_tabs {sz : Nat} (h : Sound L D X σ) (hd : d ∈ D) (himg : Image σ.mem d sz)
    (hsz : sz ≤ sharedbase) (hS : ∀ j ∈ S, 256 ≤ j) :
    Spec anyPanic (allocStack L d sz) σ (fun r σ' => r ≠ none → TabsKept S d σ σ') := by
  have hsz' : sz ≤ 1073741824 := hsz
  refine allocStack_steps himg hsz fun top htop himg' => ?_
  refine ((allocuvm_image (E := anyPanic) h hd himg' (by unfold sharedbase; omega)).and
    (allocuvm_tabs h hd hS)).mono fun r σ₁ hr => ?_
  obtain ⟨⟨h₁, _, hgrow, _⟩, hk₁⟩ := hr
  refine ⟨fun _ hr => absurd rfl hr, fun hz => ?_⟩
  obtain ⟨hmax, _⟩ := hgrow hz
  refine ⟨by omega, (clearpteu_tabs (S := S) h₁ hd (by omega)).mono fun _ σ₂ hk₂ _ => ?_⟩
  exact (hk₁ hz).trans hk₂

/-! ## Every image of `exec` -/

/-- The allocation of the stack completes the image. -/
theorem allocStack_newImage {sz : Nat} (h : Sound L D X σ) (hd : d ∈ D)
    (hbare : BareImage L σ.mem d sz) :
    Spec anyPanic (allocStack L d sz) σ (fun r σ' => ∀ sz', r = some sz' → Sound L D X σ' ∧
      ∃ top, sz' = (top + 2) * 4096 ∧ NewImage L σ'.mem d top) := by
  refine (((allocStack_spec (E := anyPanic) h hd hbare.image hbare.size.le).and
    ((allocStack_view h hd hbare.image hbare.size).weaken fun _ _ => trivial)).and
    (allocStack_tabs (S := hole) h hd hbare.image hbare.size.le fun j hj =>
      le_trans (by decide) hj.1)).mono ?_
  rintro r σ' ⟨⟨⟨h', _, hsome, _⟩, hview⟩, htabs⟩ sz' rfl
  obtain ⟨hb, hsz', hstack⟩ := hsome sz' rfl
  obtain ⟨hlt, _⟩ := hview sz' rfl
  rw [hsz'] at hb hlt
  refine ⟨h', _, hsz', hlt, hb.image, hstack, fun v hv hv' => ?_, fun j hj => ?_⟩
  · rw [hb.high v (by omega) hv']
    exact hbare.kernel v hv hv'
  · rw [htabs (Option.some_ne_none _) j hj (lt_trans hj.2 (by decide))]
    exact hbare.hole j hj

/-- What `exec` has loaded, after the sharing, unless that ran out of memory. -/
theorem bareImage_of_exec {q : Proc} {file : Option (List UInt8)} {argv : List CString}
    {sz entry : Nat} {r : ShareResult} {es : List Shared} {σ₁ σ₂ : Phys}
    (h : Sound L D X σ) (hload : execLoad L file σ = .ok (some (d, sz, entry), σ₁))
    (hshare : execShare L q d argv σ₁ = .ok ((r, es), σ₂)) (hr : r ≠ .noMemory) :
    d ∉ D ∧ Sound L (insert d D) X σ₂ ∧ BareImage L σ₂.mem d sz := by
  have hd : d ∈ insert d D := Set.mem_insert d D
  obtain ⟨_, hcase⟩ := (execLoad_spec (E := anyPanic) file h).post hload
  obtain ⟨hnone, _⟩ | ⟨_, _, _, heq, hfree, hnew, h₁, hsz, himg, hhigh⟩ := hcase
  · cases hnone
  cases heq
  have hempty : ∀ j ∈ hole, tabOf σ₁.mem d j = none := fun j hj =>
    (execLoad_unmapped file h).post hload d sz entry rfl j (Or.inr hj) (le_trans (by decide) hj.1)
  have hlt : sz < sharedbase := by
    cases file with
    | none => cases hload
    | some file => exact ((execLoad_view file h).post hload d sz entry rfl).1
  have hsz' : sz < 1073741824 := hlt
  have hkern : pteAt σ₁.mem d 524288 ≠ none := by
    rw [hhigh 524288 (by decide) (by decide)]
    exact kmapPte_kernbase (Ram.data_lt (h.pool_of_free hfree))
  obtain ⟨hno, _⟩ | ⟨_, h₂, hcase, _⟩ := (execShare_spec (E := anyPanic) h₁ hd (fun _ => trivial)
    (fun _ => trivial) hkern (fun _ _ _ _ => trivial) (Or.inr fun _ => trivial)).post hshare
  · exact absurd hno hr
  have htabs := (execShare_tabs (S := hole) h₁ hd hkern fun j hj =>
    le_trans (by decide) hj.1).post hshare hr
  -- the sharing maps pages of the window only
  have houtside : ∀ x < 1048576, x < 262144 ∨ 524288 ≤ x →
      pteAt σ₂.mem d x = pteAt σ₁.mem d x := by
    obtain ⟨_, _, rfl⟩ | ⟨_, hacc⟩ := hcase
    · exact fun _ _ _ => rfl
    · exact hacc.outside
  refine ⟨hnew, h₂, hlt, ⟨fun v hv => ?_, fun v hv hge => ?_⟩, fun v hv hv' => ?_, fun j hj => ?_⟩
  · rw [houtside v (by omega) (Or.inl (by omega))]
    exact himg.inside v hv
  · rw [houtside v (by omega) (Or.inl hv)]
    exact himg.above v hv hge
  · rw [houtside v hv' (Or.inr hv)]
    exact hhigh v (by omega) hv'
  · rw [htabs j hj (lt_trans hj.2 (by decide))]
    exact hempty j hj

/-- Every image for which `exec` starts to push the arguments, unless the sharing ran out
of memory. -/
theorem newImage_of_exec {q : Proc} {file : Option (List UInt8)} {argv : List CString}
    {sz entry sz' : Nat} {r : ShareResult} {es : List Shared} {σ₁ σ₂ σ₃ : Phys}
    (h : Sound L D X σ) (hload : execLoad L file σ = .ok (some (d, sz, entry), σ₁))
    (hshare : execShare L q d argv σ₁ = .ok ((r, es), σ₂)) (hr : r ≠ .noMemory)
    (hstack : allocStack L d sz σ₂ = .ok (some sz', σ₃)) :
    Sound L (insert d D) X σ₃ ∧ ∃ top, sz' = (top + 2) * 4096 ∧ NewImage L σ₃.mem d top := by
  obtain ⟨_, h₂, hbare⟩ := bareImage_of_exec h hload hshare hr
  exact (allocStack_newImage h₂ (Set.mem_insert d D) hbare).post hstack sz' rfl

/-- The image of the empty executable: the guard and the stack. -/
theorem exists_newImage (h : Sound L D X σ) (hfree : 517 < σ.freelist.length) :
    ∃ d σ₁ σ₂, execLoad L (some emptyElf) σ = .ok (some (d, 0, 0), σ₁) ∧
      allocStack L d 0 σ₁ = .ok (some 8192, σ₂) ∧ Sound L (insert d D) X σ₂ ∧
      NewImage L σ₂.mem d 0 := by
  obtain ⟨d, σ₁, hload, hlen⟩ := execLoad_emptyElf h (by omega)
  obtain ⟨_, hcase⟩ := (execLoad_spec (E := anyPanic) _ h).post hload
  obtain ⟨hnone, _⟩ | ⟨_, _, _, heq, _, _, h₁, hsz, himg, _⟩ := hcase
  · cases hnone
  cases heq
  obtain ⟨r, σ₂, hstack, _, _, hsome, hroom⟩ :=
    (allocStack_spec (E := noPanic) h₁ (Set.mem_insert d D) himg hsz).total
  obtain ⟨sz', rfl⟩ := Option.ne_none_iff_exists'.mp (hroom (by decide) (by omega))
  have hsz' : sz' = 8192 := (hsome sz' rfl).2.1
  subst hsz'
  have hshare : execShare L Proc.zero d [nameA] σ₁ = .ok ((.done, Table.zero.entries), σ₁) :=
    execShare_empty σ₁ (by decide)
  obtain ⟨h₂, top, htop, hnew⟩ := newImage_of_exec h hload hshare (by decide) hstack
  have htop : top = 0 := by omega
  rw [htop] at hnew
  exact ⟨d, σ₁, σ₂, hload, hstack, h₂, hnew⟩

end

end Xv6Sharing.Process
