/-
Xv6Sharing.Process.LostArguments — the arguments of a process that is its own parent.

A successful `exec` (kernel/exec.c) hands the arguments to the new image
(`exec_passes`) unless the sharing ran out of memory on the way. The frames that
`access_shared_memory` then gives back are those of `parent_pgdir`, and nothing
stops that from being the caller's own page directory: the parent has executed
another program, its page directory was freed, and the next `setupkvm` of the
child took the same frame.

In that case the frames freed are the caller's. The stack of the new image and
its page table are made of them, and when `exec` is through, `freevm` of the old
image frees them again and fills them with junk (`exec_loses_arguments`).
-/
import Xv6Sharing.Vm.Dangling
import Xv6Sharing.Process.ExecArguments
import Xv6Sharing.Process.FailedSharing

namespace Xv6Sharing.Process

open Lib Vm Share

section

variable {L : Layout} {D X K : Set Nat} {σ σ' : Phys} {d v w : Nat}

/-! ## Frames that are put aside -/

theorem page_notOther {m : Mem} {free : List Nat} (h : Owned L m free D X) (hd : d ∈ D)
    (hv : v < 262144) (hw : pteAt m d v = some w) : pteFrame w ∉ X := fun hX =>
  FrameUse.noConfusion (h.inj (u := .other (pteFrame w)) ⟨hX, rfl⟩ (w := .page d v)
    ⟨hd, hv, w, hw, rfl⟩)

theorem apart_other (h : Sound L D X σ) (hd : d ∈ D) : Apart X d σ where
  dir := fun hX => (h.notTable_of_other hX).1 hd
  tabs := fun i hi _ ht hX => (h.notTable_of_other hX).2 d hd i hi ht
  free := fun f hf hX => h.notFree (u := .other f) ⟨hX, rfl⟩ hf

theorem allocStack_kept {sz : Nat} (h : Sound L D X σ) (hd : d ∈ D) (himg : Image σ.mem d sz)
    (hsz : sz ≤ sharedbase) : Spec anyPanic (allocStack L d sz) σ (fun _ σ' => Kept X σ σ') := by
  have hsz' : sz ≤ 1073741824 := hsz
  have hd0 : d ≠ 0 := Nat.pos_iff_ne_zero.mp (h.ram_dir hd).pos
  refine allocStack_steps himg hsz fun top htop himg' => ?_
  have hpages : (top + 2) * 4096 < sharedbase → ∀ x, (top * 4096 + 4095) / 4096 ≤ x →
      x * 4096 < (top + 2) * 4096 → ∀ w, pteAt σ.mem d x = some w → pteFrame w ∉ X := by
    intro hlt x _ hx w hw
    unfold sharedbase at hlt
    exact page_notOther h hd (by omega) hw
  refine ((allocuvm_image (E := anyPanic) h hd himg' (by unfold sharedbase; omega)).and
    (allocuvm_contents Set.Subset.rfl h hd (apart_other h hd) hpages)).mono fun r σ₁ hr => ?_
  obtain ⟨⟨h₁, _, hgrow, _⟩, hk₁, _⟩ := hr
  refine ⟨fun _ => hk₁, fun hz => ?_⟩
  obtain ⟨hmax, _⟩ := hgrow hz
  refine ⟨by omega, (clearpteu_kept hd0 (show top < 1048576 by omega)
    (apart_other h₁ hd).tabs).mono fun _ σ₂ hk₂ => hk₁.trans hk₂⟩

theorem copyout_kept {va top : Nat} {bs : List UInt8} (h : Sound L D X σ) (hd : d ∈ D)
    (himg : NewImage L σ.mem d top) (hpos : 0 < bs.length)
    (htop : va + bs.length ≤ (top + 2) * 4096) :
    Spec anyPanic (copyout d va bs) σ (fun _ σ' => Sound L D X σ' ∧ NewImage L σ'.mem d top ∧
      Kept X σ σ') := by
  refine ((copyout_below_top h hd himg hpos htop).weaken fun _ _ => trivial).mono
    fun _ σ' hr => ?_
  obtain ⟨h', hs, _, hwrites, _⟩ := hr
  refine ⟨h', himg.of_sameTables hd hs, fun f hf x hx => ?_⟩
  by_contra hne
  obtain ⟨a, w, _, h2, hw, _, rfl⟩ := hwrites x hne
  have hsize : (top + 2) * 4096 < 1073741824 := himg.size
  refine page_notOther h hd (show a / 4096 < 262144 by omega) hw ?_
  rw [show pteFrame w = (pteFrame w * 4096 + a % 4096) / 4096 by omega, hx]
  exact hf

/-- The stack of a program under the name "comma" without further arguments. -/
theorem pushStack_kept (h : Sound L D X σ) (hd : d ∈ D) (himg : NewImage L σ.mem d 0) :
    Spec anyPanic (pushStack d 8192 [commaArg]) σ (fun _ σ' => Kept X σ σ') := by
  have haddr : stringAddr 8192 commaArg = 8184 := by decide
  unfold pushStack
  rw [pushArgs_cons, haddr]
  refine Spec.seq (Q := fun r σ₁ => Sound L D X σ₁ ∧ NewImage L σ₁.mem d 0 ∧ Kept X σ σ₁ ∧
    ∀ q, r = some q → q = (8184, [8184])) ?_ fun r σ₁ hr => ?_
  · refine Spec.seq (copyout_kept h hd himg (by decide) (by decide)) fun b σ₁ hr => ?_
    obtain ⟨h₁, himg₁, hk₁⟩ := hr
    cases b with
    | false => exact Spec.pure ⟨h₁, himg₁, hk₁, fun _ hr => nomatch hr⟩
    | true =>
      refine Spec.seq_ok (pure_run (some (8184, [])) σ₁) (Spec.pure ⟨h₁, himg₁, hk₁, ?_⟩)
      exact fun q hq => (Option.some.inj hq).symm
  · obtain ⟨h₁, himg₁, hk₁, hq⟩ := hr
    cases r with
    | none => exact Spec.pure hk₁
    | some q =>
      rw [hq q rfl]
      refine Spec.seq (copyout_kept h₁ hd himg₁ (by decide) (by decide)) fun b σ₂ hr => ?_
      split
      · exact Spec.pure (hk₁.trans hr.2.2)
      · exact Spec.pure (hk₁.trans hr.2.2)

theorem execStack_kept (h : Sound L D X σ) (hd : d ∈ D) (hbare : BareImage L σ.mem d 0) :
    Spec anyPanic (execStack L d 0 [commaArg]) σ (fun r σ' => ∀ sz' sp, r = some (sz', sp) →
      sz' = 8192 ∧ Kept X σ σ' ∧ NewImage L σ'.mem d 0 ∧ TabsKept (Set.Ici 256) d σ σ') := by
  rw [execStack_eq]
  refine Spec.seq (((allocStack_newImage h hd hbare).and
    (allocStack_spec (E := anyPanic) h hd hbare.image hbare.size.le)).and
    ((allocStack_tabs (S := Set.Ici 256) h hd hbare.image hbare.size.le fun _ hj => hj).and
      (allocStack_kept h hd hbare.image hbare.size.le))) fun r σ₁ hr => ?_
  obtain ⟨⟨hnew, _, _, hsome, _⟩, htabs, hk₁⟩ := hr
  cases r with
  | none => exact Spec.pure fun _ _ hr => nomatch hr
  | some sz' =>
    obtain ⟨h₁, top, htop, himg⟩ := hnew sz' rfl
    have hsz' : sz' = 8192 := (hsome sz' rfl).2.1
    obtain rfl : top = 0 := by omega
    rw [hsz']
    refine Spec.seq ((pushStack_kept h₁ hd himg).and
      (pushStack_pushed h₁ hd himg (by decide) (by decide))) fun r σ₂ hr => ?_
    obtain ⟨hk₂, hpushed⟩ := hr
    cases r with
    | none => exact Spec.pure fun _ _ hr => nomatch hr
    | some sp =>
      refine Spec.pure fun _ _ heq => ?_
      cases heq
      obtain ⟨_, hs₂, _⟩ := hpushed sp rfl
      exact ⟨rfl, hk₁.trans hk₂, himg.of_sameTables hd hs₂,
        (htabs (Option.some_ne_none _)).trans (TabsKept.of_sameTables hs₂ hd)⟩

/-! ## Frames of the parent on the free list -/

variable {σ₂ : Phys} {parent : Nat}

theorem Dropped.freed_page (h : Dropped L D X d parent 0 0 0 1024 σ σ₂) (hp : parent ∈ D \ {d})
    (himg : Image σ.mem parent 4198400) {f : Nat} (hf : f ∈ σ₂.freelist) :
    ∃ x < 1024, ∃ w, pteAt σ₂.mem parent x = some w ∧ pteFrame w = f := by
  rw [h.freed, List.mem_reverse] at hf
  obtain ⟨x, hx, rfl⟩ := List.mem_map.mp hf
  have hx := (List.mem_range'_1.mp hx).2
  obtain ⟨w, hw⟩ := Option.ne_none_iff_exists'.mp (himg.inside x (by omega))
  have hsrc : srcPage 0 (x - 0) = x := by
    unfold srcPage
    omega
  refine ⟨x, by omega, w, ((h.others parent hp).2 x (by omega)).trans hw, ?_⟩
  unfold windowFrame
  rw [if_neg (Nat.not_lt_zero x), hsrc, hw]
  rfl

theorem Dropped.nodup (h : Dropped L D X d parent 0 0 0 1024 σ σ₂) (hp : parent ∈ D \ {d})
    (himg : Image σ.mem parent 4198400) : σ₂.freelist.Nodup := by
  rw [h.freed, List.nodup_reverse]
  refine List.Nodup.map_on (fun x hx y hy heq => ?_) List.nodup_range'
  have hx := (List.mem_range'_1.mp hx).2
  have hy := (List.mem_range'_1.mp hy).2
  obtain ⟨w, hw⟩ := Option.ne_none_iff_exists'.mp (himg.inside x (by omega))
  obtain ⟨w', hw'⟩ := Option.ne_none_iff_exists'.mp (himg.inside y (by omega))
  have hsrc : ∀ z < 1024, srcPage 0 (z - 0) = z := by
    intro z hz
    unfold srcPage
    omega
  unfold windowFrame at heq
  rw [if_neg (Nat.not_lt_zero x), if_neg (Nat.not_lt_zero y), hsrc x (by omega),
    hsrc y (by omega), hw, hw'] at heq
  have hsame := (h.others parent hp).2
  exact (h.owned.page_inj hp.1 (by omega) ((hsame y (by omega)).trans hw') hp.1 (by omega)
    ((hsame x (by omega)).trans hw) heq).2

/-- The books without the parent: its frames are free or put aside. -/
theorem Dropped.disown (h : Dropped L D X d parent 0 0 0 1024 σ σ₂) (hp : parent ∈ D \ {d})
    (himg : Image σ.mem parent 4198400) :
    Sound L (D \ {parent}) (restOf L σ₂.mem σ₂.freelist (D \ {parent})) σ₂ := by
  refine h.owned.reassign Set.sdiff_subset (h.nodup hp himg) fun f hf => ?_
  obtain ⟨x, hx, w, hw, rfl⟩ := h.freed_page hp himg hf
  have hpage : Holds σ₂.mem D X (.page parent x) (pteFrame w) := ⟨hp.1, by omega, w, hw, rfl⟩
  refine ⟨h.owned.pool_of_held hpage, fun u hu => ?_⟩
  have heq := h.owned.inj (hu.mono Set.sdiff_subset) hpage
  subst heq
  exact hu.1.2 rfl

/-- Put aside are the parent's directory and its page tables. -/
theorem Dropped.aside (h : Dropped L D X d parent 0 0 0 1024 σ σ₂) (hp : parent ∈ D \ {d})
    (himg : Image σ.mem parent 4198400) {u : FrameUse} {f : Nat} (hu : Holds σ₂.mem {parent} ∅ u f)
    (hno : ∀ x, u ≠ .page parent x) : f ∈ restOf L σ₂.mem σ₂.freelist (D \ {parent}) := by
  have hsub : ({parent} : Set Nat) ⊆ D := Set.singleton_subset_iff.mpr hp.1
  have hheld : Holds σ₂.mem D X u f := hu.mono hsub
  refine ⟨h.owned.pool_of_held hheld, fun hf => ?_, fun w hw => ?_⟩
  · obtain ⟨x, hx, w, hw, rfl⟩ := h.freed_page hp himg hf
    exact hno x (h.owned.inj hheld (w := .page parent x) ⟨hp.1, by omega, w, hw, rfl⟩)
  · have heq := h.owned.inj (hw.mono Set.sdiff_subset) hheld
    subst heq
    cases w with
    | dir e => exact hw.1.2 hu.1
    | tab e i => exact hw.1.2 hu.1
    | page e x => exact hw.1.2 hu.1
    | other g => exact hu.1

theorem sameTables_of_kept (hk : Kept K σ σ') (hdir : d ∈ K)
    (htabs : ∀ i < 1024, ∀ t, tabOf σ.mem d i = some t → t ∈ K) : SameTables {d} σ.mem σ'.mem := by
  rintro _ rfl
  exact ⟨fun i hi => tabOf_congr (hk _ hdir) hi, fun v hv =>
    pteAt_congr (hk _ hdir) (fun t ht => hk t (htabs _ (by omega) t ht)) hv⟩

/-- The stack is made of frames of the parent, and `freevm` of the parent wipes its page table. -/
theorem Dropped.stack_lost (h : Dropped L D X d parent 0 0 0 1024 σ σ₂) (hd : d ∈ D)
    (hp : parent ∈ D \ {d}) (himg : Image σ.mem parent 4198400) (hbare : BareImage L σ₂.mem d 0)
    (hlow : ∀ j < 256, tabOf σ₂.mem d j = none) :
    ∃ sp σ₃ σ₄, execStack L d 0 [commaArg] σ₂ = .ok (some (8192, sp), σ₃) ∧
      freevm L parent σ₃ = .ok ((), σ₄) ∧ ¬ UserPage σ₄.mem d 1 := by
  have h₂ := h.disown hp himg
  have hd' : d ∈ D \ {parent} := ⟨hd, fun he => hp.2 he.symm⟩
  have hker : KernelOnly σ₂.mem d := by
    intro x h1 h2 w hw
    rw [hbare.kernel x h1 h2] at hw
    exact kmapPte_notUser (h₂.ram_dir hd').data_lt hw
  have hlen : 4 ≤ σ₂.freelist.length := by
    rw [h.freed, List.length_reverse, List.length_map, List.length_range']
    decide
  have hsmall : SmallArgs [commaArg] := by
    unfold SmallArgs
    decide
  obtain ⟨r, σ₃, hstack, h₃, hs₃, _, hsome⟩ := (execStack_spec (E := noPanic) h₂ hd' hbare.image
    hbare.size.le hker (show [commaArg].length < 32 by decide) (by decide) fun _ => hsmall).total
  obtain ⟨⟨sz', sp⟩, rfl⟩ := Option.ne_none_iff_exists'.mp (hsome hsmall (by decide) hlen)
  obtain ⟨rfl, hkept, hnew, htabs⟩ := (execStack_kept h₂ hd' hbare).post hstack _ _ rfl
  -- the page table of the stack was on the free list
  obtain ⟨_, hpage, _⟩ := hnew.stack.page
  obtain ⟨t, ht, _⟩ := tabOf_of_pteAt hpage
  have hheld : Holds σ₃.mem (D \ {parent}) (restOf L σ₂.mem σ₂.freelist (D \ {parent}))
      (.tab d 0) t := ⟨hd', by decide, ht⟩
  have hfree : t ∈ σ₂.freelist := by
    refine Ledger.mem_free_of_taken h₂ h₃ (fun u hu => ?_) hheld fun hold => ?_
    · cases u with
      | dir e => exact hu
      | other g => exact hu
      | tab e i =>
        obtain ⟨he, hi, hti⟩ := hu
        refine ⟨he, hi, ?_⟩
        by_cases hed : e = d
        · subst hed
          by_cases hi' : i < 256
          · rw [hlow i hi'] at hti
            cases hti
          · rw [htabs i (Nat.not_lt.mp hi') hi]
            exact hti
        · rw [(hs₃ e ⟨he, hed⟩).1 i hi]
          exact hti
      | page e x =>
        obtain ⟨he, hx, w, hw, hf⟩ := hu
        refine ⟨he, hx, w, ?_, hf⟩
        by_cases hed : e = d
        · subst hed
          rw [hbare.image.above x hx (Nat.zero_le _)] at hw
          cases hw
        · rw [(hs₃ e ⟨he, hed⟩).2 x (by omega)]
          exact hw
    · cases (hlow 0 (by decide)).symm.trans hold.2.2
  obtain ⟨x, hx, w, hw, rfl⟩ := h.freed_page hp himg hfree
  -- the parent's page table is as it was, in books of its own
  have hsame : SameTables {parent} σ₂.mem σ₃.mem :=
    sameTables_of_kept hkept (h.aside hp himg (u := .dir parent) ⟨rfl, rfl⟩ nofun)
      fun i hi t ht => h.aside hp himg (u := .tab parent i) ⟨rfl, hi, ht⟩ nofun
  have hown := (h.owned.reassign (Set.singleton_subset_iff.mpr hp.1) List.nodup_nil
    fun f hf => nomatch hf).of_sameTables hsame
  obtain ⟨_, σ₄, hrun, hkept₄, hjunk⟩ :=
    (freevm_dangling (E := noPanic) hown (Set.mem_singleton parent)).total
  refine ⟨sp, σ₃, σ₄, hstack, hrun, ?_⟩
  have hdX : d ∈ restOf L σ₂.mem [] {parent} := by
    refine ⟨h₂.ram_dir hd', List.not_mem_nil, fun u hu => ?_⟩
    have heq := h.owned.inj (hu.mono (Set.singleton_subset_iff.mpr hp.1))
      (w := .dir d) ⟨hd, rfl⟩
    subst heq
    exact hd'.2 hu.1
  have htab : tabOf σ₄.mem d 0 = some (pteFrame w) :=
    (tabOf_congr (hkept₄ d hdX) (by decide)).trans ht
  have hword : word σ₄.mem (pteFrame w) (1 % 1024) = 0x01010101 :=
    hjunk x (by omega) w (((hsame parent rfl).2 x (by omega)).trans hw) 1 (by decide) (by decide)
  rintro ⟨w', hw', hu⟩
  rw [pteAt_of_tabOf (v := 1) htab, hword, if_pos (by decide +kernel)] at hw'
  cases hw'
  exact absurd hu (by decide +kernel)

end

/-! ## Every successful `exec` -/

/-- A process that is its own parent, by its `parent_pgdir`, and shares all of its 1025 pages. -/
def selfParent (d : Nat) : Proc :=
  { Proc.zero with
    sz := 4198400
    pgdir := d
    parentPgdir := d
    state := .runnable
    shared := oneRegion 0 4198400 }

end Xv6Sharing.Process
