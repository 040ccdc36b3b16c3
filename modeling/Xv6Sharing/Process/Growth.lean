/-
Xv6Sharing.Process.Growth — what `growproc` does to the memory of a process.

A process whose user pages are exactly those below its size asks for `n` more
bytes, or gives `-n` back. `growproc` computes the new size modulo 2^32 and
takes the size 0 for a failure, so the request is carried out exactly or has no
effect only if it is not negative, or leaves a positive size. Giving
back everything frees every page and then reports failure; giving back more
than there is reports success and does nothing.

How the proof goes. `allocuvm_exact` and `deallocuvm_exact` say what the memory
code does to an exact image: which entries (from the specifications of the
mapping) and which contents (from `Vm.Contents`). `growproc_of_run` adds the
size field.
-/
import Xv6Sharing.Process.Progress
import Xv6Sharing.Vm.Contents

namespace Xv6Sharing.Process

open Lib Vm

/-! ## An image that changes its size -/

/-- Directory `d` went from the pages below `old` to the pages below `new`. -/
structure Reshaped (d old new : Nat) (σ σ' : Phys) : Prop where
  image : Image σ'.mem d new
  below : new < sharedbase
  survive : ∀ v w, v * 4096 < old → v * 4096 < new → pteAt σ.mem d v = some w →
    pteAt σ'.mem d v = some w ∧ SamePage σ.mem σ'.mem (pteFrame w)
  zero : ∀ v w, old ≤ v * 4096 → v * 4096 < new → pteAt σ'.mem d v = some w →
    ZeroPage σ'.mem (pteFrame w)

/-- The user part of directory `d`, of size `sz`, is what it was. -/
structure Unmoved (d sz : Nat) (σ σ' : Phys) : Prop where
  entries : ∀ v < 524288, pteAt σ'.mem d v = pteAt σ.mem d v
  bytes : ∀ v w, v * 4096 < sz → pteAt σ.mem d v = some w → SamePage σ.mem σ'.mem (pteFrame w)

section

variable {L : Layout} {D X : Set Nat} {σ σ' : Phys} {d old : Nat}

theorem Unmoved.refl (d sz : Nat) (σ : Phys) : Unmoved d sz σ σ :=
  ⟨fun _ _ => rfl, fun _ w _ _ => SamePage.refl _ (pteFrame w)⟩

theorem Reshaped.refl (himg : Image σ.mem d old) (hold : old < sharedbase) :
    Reshaped d old old σ σ :=
  ⟨himg, hold, fun _ w _ _ hw => ⟨hw, SamePage.refl _ (pteFrame w)⟩,
    fun v _ h1 h2 _ => absurd h2 (by omega)⟩

/-- `allocuvm` grows an exact image, or fails and leaves it alone. -/
theorem allocuvm_exact (new : Nat) (h : Sound L D X σ) (hd : d ∈ D) (himg : Image σ.mem d old)
    (hold : old < sharedbase) (hle : old ≤ new) :
    ∃ r σ', allocuvm L d old new σ = .ok (r, σ') ∧
      ((r = new ∧ Reshaped d old new σ σ') ∨ (r = 0 ∧ Unmoved d old σ σ')) := by
  unfold sharedbase at hold
  have habsent : new < sharedbase → ∀ x, (old + 4095) / 4096 ≤ x → x * 4096 < new →
      pteAt σ.mem d x = none := by
    intro hlt x h1 h2
    unfold sharedbase at hlt
    exact himg.above x (by omega) (by omega)
  have hbytes := allocuvm_contents (subset_refl _) h hd (apart_framesBelow h hd hd old)
    (fun hlt x h1 h2 w hw => absurd ((habsent hlt x h1 h2).symm.trans hw) (Option.some_ne_none w).symm)
  obtain ⟨r, σ', hrun, ⟨_, _, hcase⟩, hkept, hzero⟩ := ((allocuvm_spec (E := noPanic) h hd
    (fun x h1 h2 hlt hne => hne (habsent hlt x h1 h2))).and hbytes).total
  have hsame : ∀ v w, v * 4096 < old → pteAt σ.mem d v = some w →
      SamePage σ.mem σ'.mem (pteFrame w) :=
    fun v w hv hw => hkept _ (mem_framesBelow (by omega) hv hw)
  refine ⟨r, σ', hrun, ?_⟩
  obtain ⟨_, rfl, rfl⟩ | ⟨_, hlt, _⟩ | ⟨hlt, _, rfl, hfill, _⟩ | ⟨hlt, _, rfl, _, hdrop⟩ := hcase
  · exact Or.inr ⟨rfl, Unmoved.refl d old σ'⟩
  · omega
  · refine Or.inl ⟨rfl, ⟨fun v hv => ?_, fun v hv hge => ?_⟩, hlt, fun v w h1 h2 hw => ?_,
      fun v w h1 h2 hw => ?_⟩
    · by_cases hin : (old + 4095) / 4096 ≤ v
      · obtain ⟨f, hf⟩ := hfill.inside v hin hv
        rw [hf]
        exact Option.some_ne_none _
      · unfold sharedbase at hlt
        rw [hfill.outside v (by omega) (by omega)]
        exact himg.inside v (by omega)
    · rw [hfill.outside v (by omega) (by omega)]
      exact himg.above v hv (by omega)
    · rw [hfill.outside v (by omega) (by omega)]
      exact ⟨hw, hsame v w h1 hw⟩
    · have hr : r ≠ 0 := by omega
      exact (hzero hr).2.2 v (by omega) h2 w hw
  · refine Or.inr ⟨rfl, fun v hv => ?_, hsame⟩
    unfold sharedbase at hlt
    rw [hdrop v (by omega)]
    unfold dropRange
    split
    · rename_i hin
      rw [habsent (by unfold sharedbase; omega) v hin.1 hin.2]
    · rfl

/-- `deallocuvm` to a smaller size takes the pages above away. -/
theorem deallocuvm_exact (new : Nat) (h : Sound L D X σ) (hd : d ∈ D) (himg : Image σ.mem d old)
    (hold : old < sharedbase) (hlt : new < old) :
    ∃ σ', deallocuvm L d old new σ = .ok (new, σ') ∧ Reshaped d old new σ σ' := by
  have hold' := hold
  unfold sharedbase at hold
  have hfreed : ∀ x, (new + 4095) / 4096 ≤ x → x * 4096 < old → ∀ w,
      pteAt σ.mem d x = some w → pteFrame w ∉ framesBelow σ.mem d new := by
    rintro x h1 h2 w hw ⟨v, w', hv, hlow, hw', hf⟩
    obtain ⟨_, rfl⟩ := h.page_inj hd (by omega) hw hd hv hw' hf
    omega
  obtain ⟨r, σ', hrun, ⟨hr, _, hedit, _⟩, hkept⟩ :=
    ((deallocuvm_spec (E := noPanic) new h hd hold'.le).and
      (deallocuvm_kept h hd hold'.le (apart_framesBelow h hd hd new).tabs hfreed)).total
  obtain rfl : r = new := by omega
  have hpte : ∀ v < 262144, pteAt σ'.mem d v
      = if r ≤ v * 4096 ∧ v * 4096 < old then none else pteAt σ.mem d v := by
    intro v hv
    rw [hedit.pte v (by omega)]
    unfold dropRange
    simp only [show (r + 4095) / 4096 ≤ v ↔ r ≤ v * 4096 by omega]
  refine ⟨σ', hrun, ⟨fun v hv => ?_, fun v hv hge => ?_⟩, by omega, fun v w _ h2 hw => ?_,
    fun v w h1 h2 => by omega⟩
  · rw [hpte v (by omega), if_neg (by omega)]
    exact himg.inside v (by omega)
  · rw [hpte v hv]
    split
    · rfl
    · exact himg.above v hv (by omega)
  · rw [hpte v (by omega), if_neg (by omega)]
    exact ⟨hw, hkept _ (mem_framesBelow (by omega) h2 hw)⟩

end

/-! ## `growproc` -/

/-- `growproc(n)` carries the request out exactly and returns 0, or leaves the
process alone and returns -1. -/
def GrowExact (L : Layout) (s : Sys) (p : Slot) (n : Int) : Prop :=
  ∃ r s', growproc L p n s = .ok (r, s') ∧ (s'.proc p).pgdir = (s.proc p).pgdir ∧
    ((r = 0 ∧ ((s'.proc p).sz : Int) = (s.proc p).sz + n ∧
        Reshaped (s.proc p).pgdir (s.proc p).sz (s'.proc p).sz s.phys s'.phys) ∨
      (r = -1 ∧ (s'.proc p).sz = (s.proc p).sz ∧
        Unmoved (s.proc p).pgdir (s.proc p).sz s.phys s'.phys))

section

variable {L : Layout} {D X : Set Nat} {s : Sys} {p : Slot} {n : Int}

/-- Giving back memory the process does not have does nothing. -/
theorem deallocuvm_unmoved {d old new : Nat} (h : old ≤ new) (σ : Phys) :
    deallocuvm L d old new σ = .ok (old, σ) := by
  unfold deallocuvm
  rw [if_pos h]
  rfl

theorem growExact_of_pos (h : Sound L D X s.phys) (hd : (s.proc p).pgdir ∈ D)
    (himg : Image s.phys.mem (s.proc p).pgdir (s.proc p).sz) (hsz : (s.proc p).sz < sharedbase)
    (hn : 0 < n) (hhi : n < 2 ^ 31) : GrowExact L s p n := by
  have hsz' := hsz
  unfold sharedbase at hsz'
  have hnew : addSz (s.proc p).sz n = (((s.proc p).sz : Int) + n).toNat :=
    addSz_eq (by omega) (by omega)
  obtain ⟨r, σ', hrun, hcase⟩ :=
    allocuvm_exact (addSz (s.proc p).sz n) h hd himg hsz (by omega)
  have hgrow := growproc_of_run (by omega) ((congrFun (if_pos hn) _).trans hrun)
  obtain ⟨rfl, hshape⟩ | ⟨rfl, hmoved⟩ := hcase
  · rw [if_neg (by omega)] at hgrow
    refine ⟨_, _, hgrow, by rw [resized_proc], Or.inl ⟨rfl, ?_, ?_⟩⟩
    · rw [resized_proc]
      show (addSz (s.proc p).sz n : Int) = _
      omega
    · rw [resized_proc]
      exact hshape
  · rw [if_pos rfl] at hgrow
    exact ⟨_, _, hgrow, rfl, Or.inr ⟨rfl, rfl, hmoved⟩⟩

theorem growExact_of_neg (h : Sound L D X s.phys) (hd : (s.proc p).pgdir ∈ D)
    (himg : Image s.phys.mem (s.proc p).pgdir (s.proc p).sz) (hsz : (s.proc p).sz < sharedbase)
    (hn : n < 0) (hleft : 0 < ((s.proc p).sz : Int) + n) : GrowExact L s p n := by
  have hsz' := hsz
  unfold sharedbase at hsz'
  have hnew : addSz (s.proc p).sz n = (((s.proc p).sz : Int) + n).toNat :=
    addSz_eq (by omega) (by omega)
  obtain ⟨σ', hrun, hshape⟩ :=
    deallocuvm_exact (addSz (s.proc p).sz n) h hd himg hsz (by omega)
  have hgrow := growproc_of_run (by omega) ((congrFun (if_neg (by omega)) _).trans hrun)
  rw [if_neg (by omega)] at hgrow
  refine ⟨_, _, hgrow, by rw [resized_proc], Or.inl ⟨rfl, ?_, ?_⟩⟩
  · rw [resized_proc]
    show (addSz (s.proc p).sz n : Int) = _
    omega
  · rw [resized_proc]
    exact hshape

theorem growExact_of_empty (hzero : (s.proc p).sz = 0) (hn : n < 0) : GrowExact L s p n := by
  have hgrow := growproc_of_run (L := L) (s := s) (p := p) (n := n) (by omega)
    ((congrFun (if_neg (by omega)) _).trans (deallocuvm_unmoved (by omega) s.phys))
  rw [if_pos hzero] at hgrow
  exact ⟨_, _, hgrow, rfl, Or.inr ⟨rfl, rfl, Unmoved.refl _ _ _⟩⟩

/-- Giving back everything: the pages are gone, and the call says it failed. -/
theorem not_growExact_of_all (h : Sound L D X s.phys) (hd : (s.proc p).pgdir ∈ D)
    (himg : Image s.phys.mem (s.proc p).pgdir (s.proc p).sz) (hsz : (s.proc p).sz < sharedbase)
    (hpos : 0 < (s.proc p).sz) (hall : ((s.proc p).sz : Int) + n = 0) : ¬ GrowExact L s p n := by
  have hnew : addSz (s.proc p).sz n = 0 := by
    rw [addSz_eq (by omega) (by omega)]
    omega
  obtain ⟨σ', hrun, hshape⟩ := deallocuvm_exact 0 h hd himg hsz hpos
  have hgrow := growproc_of_run (by omega) ((congrFun (if_neg (by omega)) _).trans (hnew ▸ hrun))
  rw [if_pos hnew] at hgrow
  rintro ⟨r, s', hrun', _, hcase⟩
  rw [hgrow] at hrun'
  cases hrun'
  obtain ⟨hr, _⟩ | ⟨_, _, hmoved⟩ := hcase
  · exact absurd hr (by decide)
  · have hgone := hshape.image.above 0 (by decide) (Nat.zero_le _)
    exact himg.inside 0 (by omega) ((hmoved.entries 0 (by decide)).symm.trans hgone)

/-- Giving back more than there is: the sum wraps, nothing happens, and the call
says it succeeded. -/
theorem not_growExact_of_more (hsz : (s.proc p).sz < sharedbase) (hpos : 0 < (s.proc p).sz)
    (hlo : -2 ^ 31 ≤ n) (hmore : ((s.proc p).sz : Int) + n < 0) : ¬ GrowExact L s p n := by
  unfold sharedbase at hsz
  have hwrap : (s.proc p).sz ≤ addSz (s.proc p).sz n := by
    show (s.proc p).sz ≤ ((((s.proc p).sz : Int) + n) % 2 ^ 32).toNat
    omega
  have hgrow := growproc_of_run (L := L) (by omega) ((congrFun (if_neg (by omega)) _).trans
    (deallocuvm_unmoved hwrap s.phys))
  rw [if_neg (by omega)] at hgrow
  rintro ⟨r, s', hrun', _, hcase⟩
  rw [hgrow] at hrun'
  cases hrun'
  obtain ⟨_, hsize, _⟩ | ⟨hr, _⟩ := hcase
  · rw [resized_proc] at hsize
    have : ((s.proc p).sz : Int) = (s.proc p).sz + n := hsize
    omega
  · exact absurd hr (by decide)

/-- `growproc` is exact or has no effect, unless the process gives back all the
memory it has or more. -/
theorem growproc_exact_iff (h : Sound L D X s.phys) (hd : (s.proc p).pgdir ∈ D)
    (himg : Image s.phys.mem (s.proc p).pgdir (s.proc p).sz) (hsz : (s.proc p).sz < sharedbase)
    (hlo : -2 ^ 31 ≤ n) (hhi : n < 2 ^ 31) :
    GrowExact L s p n ↔ 0 ≤ n ∨ (s.proc p).sz = 0 ∨ 0 < ((s.proc p).sz : Int) + n := by
  constructor
  · intro hexact
    by_contra hnot
    obtain hall | hmore : ((s.proc p).sz : Int) + n = 0 ∨ ((s.proc p).sz : Int) + n < 0 := by omega
    · exact not_growExact_of_all h hd himg hsz (by omega) hall hexact
    · exact not_growExact_of_more hsz (by omega) hlo hmore hexact
  · intro hcond
    rcases lt_trichotomy n 0 with hneg | rfl | hpos
    · obtain hzero | hleft : (s.proc p).sz = 0 ∨ 0 < ((s.proc p).sz : Int) + n := by omega
      · exact growExact_of_empty hzero hneg
      · exact growExact_of_neg h hd himg hsz hneg hleft
    · exact ⟨0, s, rfl, rfl, Or.inl ⟨rfl, by omega, Reshaped.refl himg hsz⟩⟩
    · exact growExact_of_pos h hd himg hsz hpos hhi

theorem Fresh.image (h : Fresh L s) :
    Image s.phys.mem (s.proc s.initproc).pgdir (s.proc s.initproc).sz :=
  ⟨h.ready.pages, (h.accounted.sizes _ h.ready.inUse).2⟩

theorem Fresh.size (h : Fresh L s) : (s.proc s.initproc).sz = 4096 := by
  obtain ⟨d, k, hinit⟩ := h.init
  rw [hinit]
  rfl

end

/-- The first process asks for 10 bytes more. -/
theorem growproc_exact_iff_init : ∃ s, Booted smallKernel s ∧
    GrowExact smallKernel s s.initproc 10 := by
  obtain ⟨s, hs⟩ := exists_booted (L := smallKernel) (by decide)
  have hf := hs.fresh
  exact ⟨s, hs, (growproc_exact_iff hf.accounted.sound (Accounted.dir_mem hf.ready.inUse) hf.image
    (by rw [hf.size]; decide) (by decide) (by decide)).mpr (Or.inl (by decide))⟩

/-- The first process gives its only page back: the page is freed, and the call
returns -1. It gives two pages back: nothing happens, and the call returns 0. -/
theorem growproc_gives_back_all : ∃ s, Booted smallKernel s ∧
    Image s.phys.mem (s.proc s.initproc).pgdir (s.proc s.initproc).sz ∧
    (s.proc s.initproc).sz = 4096 ∧ ¬ GrowExact smallKernel s s.initproc (-4096) ∧
    ¬ GrowExact smallKernel s s.initproc (-8192) := by
  obtain ⟨s, hs⟩ := exists_booted (L := smallKernel) (by decide)
  have hf := hs.fresh
  have hlt : (s.proc s.initproc).sz < sharedbase := by rw [hf.size]; decide
  have hpos : 0 < (s.proc s.initproc).sz := by rw [hf.size]; decide
  refine ⟨s, hs, hf.image, hf.size, ?_, ?_⟩
  · exact not_growExact_of_all hf.accounted.sound (Accounted.dir_mem hf.ready.inUse) hf.image
      hlt hpos (by rw [hf.size]; decide)
  · exact not_growExact_of_more hlt hpos (by decide) (by rw [hf.size]; decide)

end Xv6Sharing.Process
