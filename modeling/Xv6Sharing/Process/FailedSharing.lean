/-
Xv6Sharing.Process.FailedSharing — what a call of `access_shared_memory`
(kernel/vm.c) leaves behind that returns -1.

It returns -1 at a page the parent does not have, or when no frame is left for a
page of page-table entries. By then the entries before the current one may have
been rewritten: their `memstart` was moved into the window. In the second case the
current region is passed to `deallocuvm`, which frees the frames of its pages: they
are the parent's. Only a region of which no page was mapped yet comes to no harm,
and one so long that its end wraps around, for which `deallocuvm` does nothing.

How the proof goes. `accessLoop_window` says how one region ends. `Harmless` says,
from the table, the parent's page table and the free frames, that no call that
returns -1 does harm; a call that panics returns nothing. `accessEntries_ends`
follows the regions and gives both directions.
-/
import Xv6Sharing.Process.NewImage
import Xv6Sharing.Process.SharedWindow

namespace Xv6Sharing.Process

open Lib Vm Share

/-! ## The property and the condition -/

/-- If the sharing fails, no frame of the parent's page table has been passed to `kfree`, no frame
is on the free list twice, and the table is what it was. -/
def FailsClean (L : Layout) (d parent : Nat) (t : Table) (σ : Phys) : Prop :=
  ∀ r es' σ', accessSharedMemory L d parent t σ = .ok ((r, es'), σ') → r ≠ .done →
    (∀ y < 1048576, ∀ w, pteAt σ.mem parent y = some w → pteFrame w ∈ σ'.freelist →
      pteFrame w ∈ σ.freelist) ∧ σ'.freelist.Nodup ∧ es' = t.entries

/-- The entries left, the next region going to page `t` of the window, in page tables `m`; `kept`
says that the entries before are what they were. A region the parent does not have in full ends
the call; so does one for which page tables are missing, and then no page of it may have been
mapped, unless its end wraps. -/
def Harmless (m : Mem) (parent : Nat) (room : Nat → Prop) : Prop → Nat → List Shared → Prop
  | _, _, [] => True
  | kept, t, e :: es => e.size ≠ 0 →
      (room (min (t + lentRun m parent e.memstart (Shared.pages e)) 262144) →
        t + lentRun m parent e.memstart (Shared.pages e) ≤ 262144 →
        (lentRun m parent e.memstart (Shared.pages e) < Shared.pages e → kept) ∧
        (lentRun m parent e.memstart (Shared.pages e) = Shared.pages e →
          Harmless m parent room (kept ∧ Shared.moved e (262144 + t) = e)
            (t + Shared.pages e) es)) ∧
      (¬ room (min (t + lentRun m parent e.memstart (Shared.pages e)) 262144) →
        (t + Shared.pages e ≤ 262144 → kept ∧ ¬ room (min (t + 1) 262144)) ∧
        (786432 ≤ t + Shared.pages e → kept))

section

variable {L : Layout} {D X : Set Nat} {σ σ' : Phys} {d parent : Nat}

theorem Harmless.congr {m m' : Mem} {room room' : Nat → Prop}
    (hpar : ∀ y < 1048576, pteAt m' parent y = pteAt m parent y) (es : List Shared) :
    ∀ (kept : Prop) (t : Nat), (∀ u, t ≤ u → u ≤ 262144 → (room' u ↔ room u)) → t ≤ 262144 →
    (Harmless m' parent room' kept t es ↔ Harmless m parent room kept t es) := by
  induction es with
  | nil => exact fun _ _ _ _ => Iff.rfl
  | cons e es ih =>
    intro kept t hroom ht
    rw [Harmless, Harmless, lentRun_congr hpar]
    have hall := hroom (min (t + lentRun m parent e.memstart (Shared.pages e)) 262144)
      (by omega) (by omega)
    have hone := hroom (min (t + 1) 262144) (by omega) (by omega)
    rw [hall, hone]
    refine imp_congr_right fun _ => and_congr_left fun _ => imp_congr_right fun _ =>
      imp_congr_right fun hle => and_congr_right fun _ => imp_congr_right fun heq => ?_
    exact ih _ _ (fun u hu => hroom u (by omega)) (by omega)

/-- Where the loop panics the condition asks for nothing. -/
theorem harmless_of_not_fits {m : Mem} {room : Nat → Prop} {kept : Prop} {t : Nat} {e : Shared}
    {es : List Shared} (h : ¬ Fits (room (min (t + lentRun m parent e.memstart (Shared.pages e))
      262144)) t (Shared.pages e) (t + lentRun m parent e.memstart (Shared.pages e))) :
    Harmless m parent room kept t (e :: es) := by
  refine fun _ => ⟨fun hroom hle => ?_, fun hno => ⟨fun hin => ?_, fun hwrap => ?_⟩⟩
  · exact absurd ⟨fun _ => hle, fun hno => absurd hroom hno⟩ h
  · exact absurd ⟨fun hroom => absurd hroom hno, fun _ => Or.inl hin⟩ h
  · exact absurd ⟨fun hroom => absurd hroom hno, fun _ => Or.inr hwrap⟩ h

/-! ## The regions -/

theorem Window.source {start v k : Nat} (h : Window D d parent start v k σ σ')
    (hp : parent ∈ D \ {d}) : ∀ y < 1048576, pteAt σ'.mem parent y = pteAt σ.mem parent y :=
  (h.others parent hp).2

theorem Window.lendable {start v k f : Nat} (h : Window D d parent start v k σ σ')
    (hv : 262144 ≤ v) : Lendable D σ'.mem f ↔ Lendable D σ.mem f := by
  refine lendable_congr fun d' hd' y hy => ?_
  by_cases hdd : d' = d
  · rw [hdd]
    exact h.outside y (by omega) (by omega)
  · exact (h.others d' ⟨hd', hdd⟩).2 y (by omega)

theorem Lends.window {start v k : Nat} {es : List Shared} (h : Lends D σ.mem parent es)
    (hw : Window D d parent start v k σ σ') (hp : parent ∈ D \ {d}) (hv : 262144 ≤ v) :
    Lends D σ'.mem parent es := by
  intro e he j hj w hpte
  rw [lentRun_congr (hw.source hp)] at hj
  rw [hw.source hp _ (srcPage_lt _ _)] at hpte
  exact (hw.lendable hv).mpr (h e he j hj w hpte)

/-- How the sharing ends: without harm, or with a changed table or a frame of the parent on the
free list. -/
inductive SharingEnd (D : Set Nat) (parent : Nat) (kept : Prop) (es es' : List Shared)
    (r : ShareResult) (σ σ' : Phys) : Prop → Prop
  | harmless {c : Prop} : c → (r ≠ .done → kept ∧ es' = es ∧ σ'.freelist <:+ σ.freelist) →
      SharingEnd D parent kept es es' r σ σ' c
  | changed {c : Prop} : ¬ c → r ≠ .done → ¬ (kept ∧ es' = es) →
      SharingEnd D parent kept es es' r σ σ' c
  | freed {c : Prop} {f : Nat} : ¬ c → r ≠ .done → f ∈ σ'.freelist → Lendable D σ.mem f →
      (∃ y < 1048576, ∃ w, pteAt σ.mem parent y = some w ∧ pteFrame w = f) →
      SharingEnd D parent kept es es' r σ σ' c

theorem accessEntries_ends (hd : d ∈ D) (hp : parent ∈ D \ {d}) :
    ∀ (es : List Shared) (kept : Prop) (t : Nat) (σ : Phys), Progressed L D X d t σ →
      t ≤ 262144 → Lends D σ.mem parent es →
      Spec (fun _ => Harmless σ.mem parent (Roomy d σ) kept t es)
        (accessEntries L d parent ((262144 + t) * 4096) es) σ (fun r σ' =>
        SharingEnd D parent kept es r.2 r.1 σ σ'
          (Harmless σ.mem parent (Roomy d σ) kept t es)) := by
  intro es
  induction es with
  | nil =>
    intro kept t σ _ _ _
    exact Spec.pure (.harmless trivial fun hr => absurd rfl hr)
  | cons e es ih =>
    intro kept t σ h ht hlends
    unfold accessEntries
    by_cases hz : e.size = 0
    · rw [if_pos hz]
      exact Spec.pure (.harmless (fun hne => absurd hz hne) fun hr => absurd rfl hr)
    rw [if_neg hz]
    have hround : pgroundup ((262144 + t) * 4096) = (262144 + t) * 4096 := by
      unfold pgroundup u32
      omega
    have hzero : (0 : Nat) = (t - t) * 4096 := by omega
    rw [hround, span_eq, hzero]
    have hlen := pages_lt e
    have hloop := accessLoop_window hd hp hlen (Shared.pages e) pageFuel t e.memstart σ
      (Roomy d σ (min (t + lentRun σ.mem parent e.memstart (Shared.pages e)) 262144)) h
      (by unfold pageFuel; omega) le_rfl ht rfl (hlends e List.mem_cons_self)
      (fun x hx hlt => by omega) Iff.rfl
    have hle := lentRun_le σ.mem parent e.memstart (Shared.pages e)
    refine Spec.seq (hloop.weaken fun _ hbad => harmless_of_not_fits hbad) (fun r σ₁ hr => ?_)
    obtain ⟨hfits, hend⟩ := hr
    cases hend with
    | mapped hin hprog hwin hroomy hsuffix =>
      have hroom : Roomy d σ
          (min (t + lentRun σ.mem parent e.memstart (Shared.pages e)) 262144) := by
        rw [min_eq_left hin]
        exact (hroomy _ le_rfl hin).mp hprog.roomy
      by_cases hall : lentRun σ.mem parent e.memstart (Shared.pages e) = Shared.pages e
      · -- the region is complete
        rw [if_pos hall, if_pos rfl]
        rw [hall] at hin hprog hwin hroomy
        have hva : u32 ((262144 + t) * 4096 + Shared.pages e * 4096)
            = (262144 + (t + Shared.pages e)) * 4096 := by
          unfold u32
          omega
        have hrest : Harmless σ.mem parent (Roomy d σ) kept t (e :: es) ↔
            Harmless σ₁.mem parent (Roomy d σ₁) (kept ∧ Shared.moved e (262144 + t) = e)
              (t + Shared.pages e) es := by
          rw [Harmless.congr (hwin.source hp) es _ _ hroomy hin]
          constructor
          · exact fun hh => ((hh hz).1 hroom (by omega)).2 hall
          · exact fun hh _ => ⟨fun _ _ => ⟨fun hlt => by omega, fun _ => hh⟩,
              fun hno => absurd hroom hno⟩
        have hgo := ih (kept ∧ Shared.moved e (262144 + t) = e) (t + Shared.pages e) σ₁ hprog hin
          (Lends.window (fun e' he' => hlends e' (List.mem_cons_of_mem _ he')) hwin hp (by omega))
        rw [← propext hrest] at hgo
        rw [hva]
        refine Spec.seq hgo (fun r σ₂ hr => ?_)
        have hmoved : ({ e with memstart := u32 ((262144 + t) * 4096 + pteFlags e.memstart) } :
            Shared) = Shared.moved e (262144 + t) := by
          unfold Shared.moved
          congr 1
          unfold u32 pteFlags
          omega
        refine Spec.pure ?_
        show SharingEnd D parent kept (e :: es) (_ :: r.2) r.1 σ σ₂ _
        rw [hmoved]
        cases hr with
        | harmless hc hgood =>
          refine .harmless hc fun hne => ?_
          obtain ⟨⟨hkept, hsame⟩, hes, hsuf⟩ := hgood hne
          exact ⟨hkept, by rw [hsame, hes], hsuf.trans hsuffix⟩
        | changed hc hne hbad =>
          refine .changed hc hne fun hgood => hbad ?_
          obtain ⟨hsame, hes⟩ := List.cons.inj hgood.2
          exact ⟨⟨hgood.1, hsame⟩, hes⟩
        | freed hc hne hf hlend hmap =>
          obtain ⟨y, hy, w, hw, hwf⟩ := hmap
          exact .freed hc hne hf ((hwin.lendable (by omega)).mp hlend)
            ⟨y, hy, w, (hwin.source hp y hy).symm.trans hw, hwf⟩
      · -- a page the parent does not have
        rw [if_neg hall, if_neg (by decide)]
        refine Spec.pure ?_
        by_cases hkept : kept
        · refine .harmless (fun _ => ⟨fun _ _ => ⟨fun _ => hkept, fun heq => absurd heq hall⟩,
            fun hno => absurd hroom hno⟩) fun _ => ⟨hkept, rfl, hsuffix⟩
        · exact .changed (fun hh => hkept (((hh hz).1 hroom hin).1 (by omega))) (by simp)
            fun hgood => hkept hgood.1
    | @kept j hno hj hwrap hwin hfree =>
      rw [if_neg (by decide)]
      refine Spec.pure ?_
      by_cases hkept : kept
      · refine .harmless (fun _ => ⟨fun hroom => absurd hroom hno, fun _ =>
          ⟨fun hin => by omega, fun _ => hkept⟩⟩) fun _ => ⟨hkept, rfl, ?_⟩
        rw [hfree]
        exact List.nil_suffix
      · exact .changed (fun hh => hkept (((hh hz).2 hno).2 hwrap)) (by simp)
          fun hgood => hkept hgood.1
    | @dropped u hno hin hu _ hroomy hno' hdrop =>
      rw [if_neg (by decide)]
      refine Spec.pure ?_
      have hpos : 0 < lentRun σ.mem parent e.memstart (Shared.pages e) := by
        refine Nat.pos_of_ne_zero fun hk => hno ?_
        rw [hk, Nat.add_zero, min_eq_left ht]
        exact h.roomy
      have hone : min (t + 1) 262144 = t + 1 := by omega
      by_cases hkept : kept
      · by_cases hroom : Roomy d σ (t + 1)
        · -- the first page was mapped, and its frame is freed
          have hlt : t < u := by
            by_contra hge
            exact hno' (hroom.mono (by omega))
          obtain ⟨w, hw⟩ := lentRun_pos hpos
          refine .freed (fun hh => ((hh hz).2 hno).1 hin |>.2 ?_) (by simp) (hdrop.first hlt hw)
            (hlends e List.mem_cons_self 0 hpos w hw) ⟨_, srcPage_lt _ _, w, hw, rfl⟩
          rw [hone]
          exact hroom
        · refine .harmless (fun _ => ⟨fun hroom' => absurd hroom' hno, fun _ =>
            ⟨fun _ => ⟨hkept, by rw [hone]; exact hroom⟩, fun _ => hkept⟩⟩)
            fun _ => ⟨hkept, rfl, ?_⟩
          have hu' : u = t := by
            by_contra hne
            exact hroom (hroomy.mono (by omega))
          rw [hdrop.freed, hu', Nat.sub_self]
          exact List.nil_suffix
      · exact .changed (fun hh => hkept (((hh hz).2 hno).1 hin).1) (by simp)
          fun hgood => hkept hgood.1

theorem accessSharedMemory_ends {t : Table} (hnew : Progressed L D X d 0 σ) (hd : d ∈ D)
    (hp : parent ∈ D \ {d}) (hlends : Lends D σ.mem parent t.entries) :
    Spec (fun _ => Harmless σ.mem parent (Roomy d σ) True 0 t.entries)
      (accessSharedMemory L d parent t) σ (fun r σ' => SharingEnd D parent True t.entries r.2 r.1
        σ σ' (Harmless σ.mem parent (Roomy d σ) True 0 t.entries)) :=
  accessEntries_ends hd hp t.entries True 0 σ hnew (by decide) hlends

theorem harmless_of_failsClean {t : Table} (hnew : Progressed L D X d 0 σ) (hd : d ∈ D)
    (hp : parent ∈ D \ {d}) (hlends : Lends D σ.mem parent t.entries)
    (h : FailsClean L d parent t σ) : Harmless σ.mem parent (Roomy d σ) True 0 t.entries := by
  have hspec := accessSharedMemory_ends hnew hd hp hlends
  cases hrun : accessSharedMemory L d parent t σ with
  | error e => exact hspec.error hrun
  | ok out =>
    obtain ⟨⟨r, es'⟩, σ'⟩ := out
    cases hspec.post hrun with
    | harmless hc _ => exact hc
    | changed _ hne hbad => exact absurd ⟨trivial, (h r es' σ' hrun hne).2.2⟩ hbad
    | freed _ hne hf hlend hmap =>
      obtain ⟨y, hy, w, hw, rfl⟩ := hmap
      have hfree := (h r es' σ' hrun hne).1 y hy w hw hf
      exact absurd hfree (hlend.frame hnew.sound).2.2

/-- A sharing that fails does no harm if and only if the table, the parent's pages and the free
frames are `Harmless`. -/
theorem failed_sharing_iff {t : Table} (hnew : Progressed L D X d 0 σ) (hd : d ∈ D)
    (hp : parent ∈ D \ {d}) (hlends : Lends D σ.mem parent t.entries) :
    FailsClean L d parent t σ ↔ Harmless σ.mem parent (Roomy d σ) True 0 t.entries := by
  refine ⟨harmless_of_failsClean hnew hd hp hlends, fun hc r es' σ' hrun hne => ?_⟩
  cases (accessSharedMemory_ends hnew hd hp hlends).post hrun with
  | harmless _ hgood =>
    obtain ⟨_, hes, hsuffix⟩ := hgood hne
    exact ⟨fun y hy w _ hf => hsuffix.subset hf, hnew.sound.nodup.sublist hsuffix.sublist, hes⟩
  | changed hno _ _ => exact absurd hc hno
  | freed hno _ _ _ _ => exact absurd hc hno

/-! ## Little memory -/

/-- The kernel may hold any number of the free frames. -/
theorem owned_drop {m : Mem} {free : List Nat} (h : Owned L m free D X) (k : Nat) :
    ∃ X', Owned L m (free.drop k) D X' := by
  induction k generalizing free X with
  | zero => exact ⟨X, h⟩
  | succ k ih =>
    cases free with
    | nil => exact ⟨X, h⟩
    | cons f rest => exact ih h.kalloc

theorem missingTabs_eq {m : Mem} {t : Nat}
    (h : ∀ j, 256 ≤ j → j < 256 + (t + 1023) / 1024 → tabOf m d j = none) :
    missingTabs m d t = (t + 1023) / 1024 := by
  unfold missingTabs
  rw [Finset.filter_true_of_mem fun j hj => h j (Finset.mem_Ico.mp hj).1 (Finset.mem_Ico.mp hj).2,
    Nat.card_Ico]
  omega

end

/-- A program loaded beside a parent of 1025 pages, with any number of frames free, up to 256. -/
theorem exists_low {k : Nat} (hk : k ≤ 256) : ∃ D X σ parent d, Progressed smallKernel D X d 0 σ ∧
    d ∈ D ∧ parent ∈ D \ {d} ∧ Image σ.mem parent 4198400 ∧ σ.freelist.length = k ∧
    ∀ j, 256 ≤ j → j < 512 → tabOf σ.mem d j = none := by
  obtain ⟨D, X, σ₀, parent, d, σ, h, hp, himg, hload, hfree⟩ :=
    exists_loaded (show 0 < 1025 by decide) (by decide)
  obtain ⟨hpar, himg', hprog⟩ := progressed_of_load h hp himg (by decide) hload
  have htabs : ∀ j, 256 ≤ j → j < 512 → tabOf σ.mem d j = none := fun j hlow hlt =>
    (execLoad_unmapped _ h).post hload d 0 0 rfl j (Or.inl hlt) hlow
  obtain ⟨X', h'⟩ := owned_drop hprog.sound (σ.freelist.length - k)
  refine ⟨insert d D, X', ⟨σ.mem, σ.freelist.drop (σ.freelist.length - k)⟩, parent, d,
    ⟨h', hprog.tabs, hprog.clear, hprog.kernel⟩, Set.mem_insert d D, hpar, himg', ?_, htabs⟩
  rw [List.length_drop]
  omega

/-- Four bytes shared, one frame free: nothing can go wrong. -/
theorem failed_sharing_iff_small : ∃ D X σ parent d, Progressed smallKernel D X d 0 σ ∧
    parent ∈ D \ {d} ∧ FailsClean smallKernel d parent (oneRegion 0 4) σ := by
  obtain ⟨D, X, σ, parent, d, hprog, hd, hp, himg, hfree, htabs⟩ := exists_low (k := 1) (by decide)
  have hlends : Lends D σ.mem parent (oneRegion 0 4).entries :=
    Lends.of_image hprog.sound hp.1 (by decide) himg (by decide)
  refine ⟨D, X, σ, parent, d, hprog, hp, (failed_sharing_iff hprog hd hp hlends).mpr fun _ => ?_⟩
  have hrun : lentRun σ.mem parent 0 1 = 1 :=
    lentRun_image hprog.sound hp.1 (by decide) himg 1 0 (by decide)
  have hroom : Roomy d σ 1 := by
    unfold Roomy
    rw [missingTabs_eq fun j h1 h2 => htabs j h1 (by omega), hfree]
  have hpages : Shared.pages (Shared.make nameA 0 4) = 1 := by decide
  rw [hpages]
  show (Roomy d σ (min (0 + lentRun σ.mem parent 0 1) 262144) → _) ∧ _
  rw [show (Shared.make nameA 0 4).memstart = 0 from rfl, hrun]
  exact ⟨fun _ _ => ⟨fun hlt => absurd hlt (by decide), fun _ hsize => absurd rfl hsize⟩,
    fun hno => absurd hroom hno⟩

/-- Four bytes at address 0, and two pages of which a parent of 1025 pages has only the first. -/
def halfLent : Table :=
  ⟨Shared.make nameA 0 4 :: Shared.make nameA 4194304 8192 :: List.replicate 8 Shared.zero, rfl⟩

/-- The sharing of all the memory of a parent of 1025 pages, with one frame left: it goes to the
page-table page of the first 1024 pages, and these are given back. -/
theorem sharing_runs_dry {L : Layout} {D X : Set Nat} {σ : Phys} {parent d : Nat}
    (hprog : Progressed L D X d 0 σ) (hd : d ∈ D) (hp : parent ∈ D \ {d})
    (himg : Image σ.mem parent 4198400) (hfree : σ.freelist.length = 1)
    (htabs : ∀ j, 256 ≤ j → j < 512 → tabOf σ.mem d j = none) :
    ∃ σ', accessSharedMemory L d parent (oneRegion 0 4198400) σ
        = .ok ((.noMemory, (oneRegion 0 4198400).entries), σ') ∧
      Dropped L D X d parent 0 0 0 1024 σ σ' := by
  have hlends : Lends D σ.mem parent (oneRegion 0 4198400).entries :=
    Lends.of_image hprog.sound hp.1 (by decide) himg (by decide)
  have hrun : lentRun σ.mem parent 0 1025 = 1025 :=
    lentRun_image hprog.sound hp.1 (by decide) himg 1025 0 (by decide)
  have hroomy : ∀ t ≤ 262144, Roomy d σ t ↔ t ≤ 1024 := by
    intro t ht
    unfold Roomy
    rw [missingTabs_eq fun j h1 h2 => htabs j h1 (by omega), hfree]
    omega
  have hno : ¬ Roomy d σ 1025 := mt (hroomy 1025 (by decide)).mp (by decide)
  have hpages : Shared.pages (Shared.make nameA 0 4198400) = 1025 := by decide
  have hlend : ∀ j < lentRun σ.mem parent 0 1025, ∀ w, pteAt σ.mem parent (srcPage 0 j) = some w →
      Lendable D σ.mem (pteFrame w) := by
    have := hlends _ List.mem_cons_self
    rwa [hpages] at this
  have hloop := accessLoop_window hd hp (show 1025 < 1048576 by decide) 1025 pageFuel 0 0 σ
    (Roomy d σ 1025) hprog (by decide) le_rfl (by decide) rfl hlend (fun x hx hlt => by omega)
    (by rw [hrun]; exact Iff.rfl)
  rw [hrun] at hloop
  have hfits : Fits (Roomy d σ 1025) 0 1025 (0 + 1025) :=
    ⟨fun hroom => absurd hroom hno, fun _ => Or.inl (by decide)⟩
  obtain ⟨r, σ', hret, -, hend⟩ := (hloop.weaken fun _ hbad => hbad hfits).total
  cases hend with
  | mapped hin hprog' _ hroom _ => exact absurd ((hroom _ le_rfl hin).mp hprog'.roomy) hno
  | kept _ _ hwrap _ _ => exact absurd hwrap (by decide)
  | @dropped u _ _ _ hlt hyes hno' hdrop =>
    have hle := (hroomy u (by omega)).mp hyes
    have hge := mt (hroomy (u + 1) (by omega)).mpr hno'
    obtain rfl : u = 1024 := by omega
    refine ⟨σ', ?_, hdrop⟩
    show accessEntries L d parent (262144 * 4096)
      (Shared.make nameA 0 4198400 :: List.replicate 9 Shared.zero) σ = _
    unfold accessEntries
    rw [if_neg (by decide), span_eq, hpages]
    exact (bind_ok hret).trans rfl

/-- A parent of 1025 pages. With one frame left, the sharing of all its memory fails at the page
for which it needs a second page of page-table entries, and frees frames of the parent. With
memory to spare, the sharing of two regions fails in the second with the first entry rewritten. -/
theorem failed_sharing_frees_parent :
    (∃ D X σ parent d, Progressed smallKernel D X d 0 σ ∧ d ∈ D ∧ parent ∈ D \ {d} ∧
      Image σ.mem parent 4198400 ∧ σ.freelist.length = 1 ∧ ∃ es' σ' y w,
      accessSharedMemory smallKernel d parent (oneRegion 0 4198400) σ
        = .ok ((.noMemory, es'), σ') ∧ pteAt σ.mem parent y = some w ∧
      pteFrame w ∈ σ'.freelist ∧ pteFrame w ∉ σ.freelist) ∧
    ∃ D X σ parent d, Progressed smallKernel D X d 0 σ ∧ d ∈ D ∧ parent ∈ D \ {d} ∧
      Image σ.mem parent 4198400 ∧ σ.freelist.length = 256 ∧
      ¬ FailsClean smallKernel d parent halfLent σ := by
  constructor
  · obtain ⟨D, X, σ, parent, d, hprog, hd, hp, himg, hfree, htabs⟩ :=
      exists_low (k := 1) (by decide)
    obtain ⟨σ', hret, hdrop⟩ := sharing_runs_dry hprog hd hp himg hfree htabs
    obtain ⟨w, hw⟩ := Option.ne_none_iff_exists'.mp (himg.inside 0 (by decide))
    exact ⟨D, X, σ, parent, d, hprog, hd, hp, himg, hfree, _, σ', 0, w, hret, hw,
      hdrop.first (by decide) hw,
      hprog.sound.notFree (u := .page parent 0) ⟨hp.1, by decide, w, hw, rfl⟩⟩
  · obtain ⟨D, X, σ, parent, d, hprog, hd, hp, himg, hfree, htabs⟩ :=
      exists_low (k := 256) le_rfl
    have hlends : Lends D σ.mem parent halfLent.entries :=
      Lends.of_image hprog.sound hp.1 (by decide) himg (by decide)
    refine ⟨D, X, σ, parent, d, hprog, hd, hp, himg, hfree, fun hclean => ?_⟩
    have hrun₀ : lentRun σ.mem parent 0 1 = 1 :=
      lentRun_image hprog.sound hp.1 (by decide) himg 1 0 (by decide)
    have hrun₁ : lentRun σ.mem parent 4194304 2 = 1 :=
      lentRun_image hprog.sound hp.1 (by decide) himg 2 4194304 (by decide)
    have hroom : ∀ t ≤ 262144, Roomy d σ t := fun t ht => roomy_of_free hfree.ge ht
    have hpages₀ : Shared.pages (Shared.make nameA 0 4) = 1 := by decide
    have hpages₁ : Shared.pages (Shared.make nameA 4194304 8192) = 2 := by decide
    -- the first region is complete, so its entry is moved
    have hfirst := (harmless_of_failsClean hprog hd hp hlends hclean (by decide)).1
    rw [hpages₀, show (Shared.make nameA 0 4).memstart = 0 from rfl, hrun₀] at hfirst
    have hsecond := ((hfirst (hroom _ (by decide)) (by decide)).2 rfl (by decide)).1
    rw [hpages₁, show (Shared.make nameA 4194304 8192).memstart = 4194304 from rfl, hrun₁] at hsecond
    have hkept := (hsecond (hroom _ (by decide)) (by decide)).1 (by decide)
    exact absurd (congrArg Shared.memstart hkept.2) (by decide)

end Xv6Sharing.Process
