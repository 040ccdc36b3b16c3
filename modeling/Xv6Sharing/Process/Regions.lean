/-
Xv6Sharing.Process.Regions — whether a registered region is memory.

`share_data` checks four bytes of the address and nothing of the size, and of
the calls that follow almost none looks at both the table and the page table:
`sbrk` may drop a registered page, `fork` copies entries but no window, `exec`
replaces the image and keeps the table. `KeepsRegions` says of each call when
it does no harm. In a run of such calls every entry in use of a running process
is a region of positive size all of whose pages the process has, for the user.

After the sharing an entry starts somewhere inside the first page mapped for
it, so its last byte may lie one page further than the pages mapped: that page
is there exactly when another region follows.
-/
import Xv6Sharing.Process.FreedFrames

namespace Xv6Sharing.Process

open Lib Vm Share

/-! ## What is claimed -/

/-- Region `e` is user memory of page directory `d`. -/
structure RealRegion (m : Mem) (d : Nat) (e : Shared) : Prop where
  pos : 0 < e.size
  mapped : ∀ v, e.memstart / 4096 ≤ v → (v * 4096 : Int) < e.memstart + e.size →
    v < 524288 ∧ ∃ w, pteAt m d v = some w ∧ user w = true

/-- Every entry in use of every running process is memory of that process. -/
def RegionsReal (s : Sys) : Prop :=
  ∀ q, (s.proc q).Live → ∀ e ∈ (s.proc q).shared.entries, e.size ≠ 0 →
    RealRegion s.phys.mem (s.proc q).pgdir e

/-- The last region in use ends inside the pages that are mapped for it. -/
def LastFits : List Shared → Prop
  | [] => True
  | e :: es =>
    (e.size ≠ 0 → (∀ e' ∈ es, e'.size = 0) →
      ((e.memstart % 4096 : Nat) : Int) + e.size ≤ Shared.span e) ∧
    LastFits es

/-- `share_data` of that name finds a free slot before an entry in use of the same
name. -/
def Registers (name : CString) : List Shared → Prop
  | [] => False
  | e :: es => e.size = 0 ∨ (strncmp sharedName name.bytes e.name ≠ 0 ∧ Registers name es)

/-- The calls that leave every region real: what `share_data` registers is memory of
the caller; `sbrk` drops no page of a region; `fork` is called without regions
that reach above SHAREDBASE and takes a slot without entries in use; `exec` of a
process with regions, once it loaded the program, shares them all and completes,
and the last of them ends inside its pages. -/
def KeepsRegions (L : Layout) (s : Sys) (c : Slot × Act) : Prop :=
  match c.2 with
  | .shareData name addr size => ∀ n a k, name = some n → Share.argptr (s.proc c.1).sz addr 4 = some a →
      size = some k → k ≠ 0 → Registers n (s.proc c.1).shared.entries →
      RealRegion s.phys.mem (s.proc c.1).pgdir (Shared.make n a k)
  | .sbrk (some n) => n < 0 → ∀ e ∈ (s.proc c.1).shared.entries, e.size ≠ 0 →
      ∀ v < 262144, e.memstart / 4096 ≤ v → (v * 4096 : Int) < e.memstart + e.size →
        v * 4096 < addSz (s.proc c.1).sz n
  | .fork => (∀ e ∈ (s.proc c.1).shared.entries, e.size ≠ 0 →
      (e.memstart : Int) + e.size ≤ sharedbase) ∧
      ∀ np, FirstUnused s np → AllFree (s.proc np).shared
  | .exec _ file argv => ¬ AllFree (s.proc c.1).shared → ∀ d sz entry σ₁,
      execLoad L file s.phys = .ok (some (d, sz, entry), σ₁) →
      asksSharing argv = true ∧ LastFits (s.proc c.1).shared.entries ∧
      ∀ res es σ₂, execShare L (s.proc c.1) d argv σ₁ = .ok ((res, es), σ₂) →
        res = .done ∧ ∀ σ₃, execStack L d sz argv σ₂ ≠ .ok (none, σ₃)
  | _ => True

section

variable {L : Layout} {s s' : Sys} {p : Slot}

theorem RealRegion.congr {m m' : Mem} {d d' : Nat} {e : Shared} (h : RealRegion m d e)
    (hpte : ∀ v < 524288, e.memstart / 4096 ≤ v → (v * 4096 : Int) < e.memstart + e.size →
      ∀ w, pteAt m d v = some w → user w = true →
      ∃ w', pteAt m' d' v = some w' ∧ user w' = true) : RealRegion m' d' e := by
  refine ⟨h.pos, fun v h1 h2 => ?_⟩
  obtain ⟨hv, w, hw, hu⟩ := h.mapped v h1 h2
  exact ⟨hv, hpte v hv h1 h2 w hw hu⟩

theorem RealRegion.end_le {m : Mem} {d : Nat} {e : Shared} (h : RealRegion m d e) :
    (e.memstart : Int) + e.size ≤ 2147483648 := by
  have hpos := h.pos
  have hlast := h.mapped (((e.memstart : Int) + e.size - 1) / 4096).toNat (by omega) (by omega)
  omega

theorem KeepsRegions.fits {a : Act} (h : KeepsRegions L s (p, a)) : SharingFits L s (p, a) := by
  intro path file argv ha d sz entry σ₁ es σ₂ hs
  by_cases hfree : AllFree (s.proc p).shared
  · exact sharingFits_of_allFree hfree path file argv ha d sz entry σ₁ es σ₂ hs
  · cases ha
    obtain ⟨hdone, _⟩ := (h hfree d sz entry σ₁ hs.load).2.2 _ _ _ hs.share
    cases hdone

/-! ## Tables -/

theorem shareLoop_mem {name : CString} {vmStart : Nat} {size : Int} {i : Nat} {es : List Shared}
    {e : Shared} (h : e ∈ (shareLoop name vmStart size i es).2) :
    e ∈ es ∨ (e = Shared.make name vmStart size ∧ Registers name es) := by
  induction es generalizing i with
  | nil => exact Or.inl h
  | cons x xs ih =>
    rw [shareLoop] at h
    split at h
    · rename_i hfree
      obtain rfl | h := List.mem_cons.mp h
      · exact Or.inr ⟨rfl, Or.inl hfree⟩
      · exact Or.inl (List.mem_cons_of_mem _ h)
    · split at h
      · exact Or.inl h
      · rename_i hname
        obtain rfl | h := List.mem_cons.mp h
        · exact Or.inl List.mem_cons_self
        · obtain h | h := ih h
          · exact Or.inl (List.mem_cons_of_mem _ h)
          · exact Or.inr ⟨h.1, Or.inr ⟨hname, h.2⟩⟩

/-- Entries in use of a running process come first, as long as `fork` takes slots
without entries. -/
def Sorted (s : Sys) : Prop := ∀ q, (s.proc q).Live → UsedFirst (s.proc q).shared.entries

theorem Returns.sorted {a : Act} {r : Int} (hok : KeepsRegions L s (p, a)) (h : Sorted s)
    (hret : Returns L s p a r s') : Sorted s' := by
  have hcur : UsedFirst (s.proc p).shared.entries := h p hret.live
  refine hret.effect.tables (J := fun st t => st.Live → UsedFirst t.entries) h hret.1 ?_ ?_ ?_ ?_ ?_
  · intro name addr size _ _
    unfold sysShareData
    split
    · exact hcur.share ..
    · exact hcur
  · intro np ha hnp _
    subst ha
    exact (forkTable_inherits hcur (hok.2 np hnp)).usedFirst hcur
  · intro _ _ _ _ _ _ _ _ _ _ _ hs _
    unfold UsedFirst
    rw [hs.sizes]
    exact hcur
  · exact fun _ hl => absurd rfl hl.2
  · exact fun _ _ hl => absurd rfl hl.1

theorem allFree_of_sizes {t t' : Table}
    (h : t'.entries.map Shared.size = t.entries.map Shared.size) (hfree : AllFree t) :
    AllFree t' := by
  intro e he
  have hmem : e.size ∈ t.entries.map Shared.size := h ▸ List.mem_map_of_mem he
  obtain ⟨e', he', heq⟩ := List.mem_map.mp hmem
  rw [← heq]
  exact hfree e' he'

/-! ## The sharing -/

theorem user_window (f : Nat) : user (f * 4096 ||| (pteW ||| pteU) ||| pteP) = true := by
  rw [user_mk]
  decide

/-- The first page of the sharing, when the first entry has one. -/
theorem Accessed.first {D : Set Nat} {d parent b : Nat} {e : Shared} {es es' : List Shared}
    {σ σ' : Phys} (h : Accessed D d parent b (e :: es) .done es' σ σ') (hused : e.size ≠ 0)
    (hpages : 0 < Shared.pages e) :
    b < 524288 ∧ ∃ w, pteAt σ'.mem d b = some w ∧ user w = true := by
  cases h with
  | free hfree => exact absurd hfree hused
  | region _ hwin hrest =>
    have hfits := hwin.fits
    obtain ⟨f, hf, _⟩ := hwin.mapped 0 hpages
    refine ⟨by omega, _, ?_, user_window f⟩
    rw [hrest.outside b (by omega) (Or.inl (by omega))]
    exact hf

/-- The sharing leaves real regions behind, all of them in the window. -/
theorem Accessed.real {D : Set Nat} {d parent b : Nat} {r : ShareResult} {es es' : List Shared}
    {σ σ' : Phys} (h : Accessed D d parent b es r es' σ σ') (hdone : r = .done)
    (hsorted : UsedFirst es) (hlast : LastFits es)
    (hsize : ∀ e ∈ es, e.size ≠ 0 → 0 < e.size ∧ e.size ≤ 2147483648) :
    ∀ e ∈ es', e.size ≠ 0 → b ≤ e.memstart / 4096 ∧ RealRegion σ'.mem d e := by
  induction h with
  | nil => exact fun e he => absurd he List.not_mem_nil
  | free hfree =>
    intro e he hused
    obtain rfl | he := List.mem_cons.mp he
    · exact absurd hfree hused
    · exact absurd ((usedFirst_cons.mp hsorted).1 hfree e he) hused
  | stopped _ _ _ _ => cases hdone
  | @region b e es es' r σ σ₁ σ' hused hwin hrest ih =>
    obtain ⟨hhead, htail⟩ := List.forall_mem_cons.mp hsize
    have hsorted' := usedFirst_cons.mp hsorted
    intro e' he' hused'
    obtain rfl | he' := List.mem_cons.mp he'
    swap
    · obtain ⟨hstart, hreal⟩ := ih hdone hsorted'.2 hlast.2 htail e' he' hused'
      exact ⟨by omega, hreal⟩
    obtain ⟨hpos, hle⟩ := hhead hused
    have hpages := pages_eq hpos hle
    have hfits := hwin.fits
    have hstart : (Shared.moved e b).memstart = b * 4096 + e.memstart % 4096 := rfl
    refine ⟨by omega, hpos, fun v h1 h2 => ?_⟩
    have hsame : (Shared.moved e b).size = e.size := rfl
    rw [hstart] at h1 h2
    rw [hsame] at h2
    by_cases hin : v < b + Shared.pages e
    · -- a page mapped for this region
      obtain ⟨f, hf, _⟩ := hwin.mapped (v - b) (by omega)
      rw [show b + (v - b) = v by omega] at hf
      refine ⟨by omega, _, ?_, user_window f⟩
      rw [hrest.outside v (by omega) (Or.inl hin)]
      exact hf
    · -- one page further: the region straddles, so it is not the last one
      have hv : v = b + Shared.pages e := by omega
      have hnext : ¬ ∀ x ∈ es, x.size = 0 := by
        intro hfree
        have := hlast.1 hused hfree
        rw [span_eq] at this
        omega
      cases es with
      | nil => exact absurd (fun x hx => absurd hx List.not_mem_nil) hnext
      | cons x xs =>
        have hx : x.size ≠ 0 := by
          intro hx
          exact hnext (List.forall_mem_cons.mpr ⟨hx, (usedFirst_cons.mp hsorted'.2).1 hx⟩)
        obtain ⟨hxpos, hxle⟩ := htail x List.mem_cons_self hx
        have hxpages := pages_eq hxpos hxle
        rw [hv]
        subst hdone
        exact hrest.first hx (by omega)

/-! ## The invariant -/

theorem Steady.regionsReal (hst : Steady L s s')
    (h : ∀ q, (s'.proc q).Live → (s.proc q).Live ∧ ∀ e ∈ (s'.proc q).shared.entries, e.size ≠ 0 →
      RealRegion s.phys.mem (s.proc q).pgdir e) : RegionsReal s' := by
  intro q hq e he hused
  obtain ⟨hlive, hreal⟩ := h q hq
  refine (hreal e he hused).congr fun v hv _ _ w hw hu => ⟨w, ?_, hu⟩
  rw [(hst.dir hlive.1).2, (hst.tables _ (Accounted.dir_mem hlive.1)).2 v (by omega)]
  exact hw

theorem Forked.regionsReal {np : Slot} {k d : Nat} (hacc : Accounted L s) (h : RegionsReal s)
    (hp : (s.proc p).Live) (hok : KeepsRegions L s (p, .fork)) (hf : Forked L s p np k d s')
    (hm : ForkMemory L s p k d s') : RegionsReal s' := by
  obtain ⟨o, ho⟩ := hf.proc
  intro q hq e he hused
  by_cases hqn : q = np
  · -- an entry of the child is one of the parent, and lies below SHAREDBASE
    rw [hqn, ho, Function.update_self] at he ⊢
    show RealRegion s'.phys.mem d e
    obtain ⟨hmem, _⟩ | hmem := forkShared_mem he
    swap
    · exact absurd (hok.2 np ⟨hf.free, hf.least⟩ e hmem) hused
    have hlow : (e.memstart : Int) + e.size ≤ 1073741824 := hok.1 e hmem hused
    refine (h p hp e hmem hused).congr fun v hv h1 h2 w hw hu => ?_
    have hsz : v * 4096 < (s.proc p).sz := by
      by_contra hc
      have := (hacc.sizes p hp.1).2 v (by omega) (by omega)
      rw [this] at hw
      cases hw
    obtain ⟨w', f, hw', hcopy⟩ := hm.copied v hsz
    rw [hw] at hw'
    cases hw'
    refine ⟨_, hcopy, ?_⟩
    rw [user_mk]
    unfold pteFlags
    rw [show (4096 : Nat) = 2 ^ 12 from rfl, Nat.testBit_mod_two_pow]
    exact hu
  · rw [ho, Function.update_of_ne hqn] at hq he ⊢
    refine (h q hq e he hused).congr fun v hv _ _ w hw hu => ⟨w, ?_, hu⟩
    rw [(hm.same _ (Accounted.dir_mem hq.1)).2 v (by omega)]
    exact hw

theorem Resized.regionsReal {n : Int} (hacc : Accounted L s) (h : RegionsReal s)
    (hp : (s.proc p).state ≠ .unused) (hok : KeepsRegions L s (p, .sbrk (some n)))
    (hr : Resized L s p n s') (hm : ResizeMemory L s p n s') : RegionsReal s' := by
  obtain ⟨sz, _, hproc⟩ := hr.mem
  intro q hq e he hused
  by_cases hqp : q = p
  · rw [hqp, hproc, Function.update_self] at hq he ⊢
    refine (h p hq e he hused).congr fun v hv h1 h2 w hw hu => ⟨w, ?_, hu⟩
    by_cases hlow : v < 262144
    · refine hm.kept v w hw hlow (fun hc => ?_)
      exact absurd (hok hc.1 e he hused v hlow h1 h2) (not_lt.mpr hc.2)
    · exact (hm.high v (by omega) (by omega)).trans hw
  · rw [hproc, Function.update_of_ne hqp] at hq he ⊢
    refine (h q hq e he hused).congr fun v hv _ _ w hw hu => ⟨w, ?_, hu⟩
    rw [(hm.others _ ⟨Accounted.dir_mem hq.1, hacc.dir_ne hp hq.1 hqp⟩).2 v (by omega)]
    exact hw

theorem ExecMemory.regionsReal {path : CString} {file : Option (List UInt8)} {argv : List CString}
    {d sz entry sz' sp : Nat} {σ₁ σ₂ : Phys} {res : ShareResult} {es : List Shared}
    (hacc : Accounted L s) (h : RegionsReal s) (hsorted : Sorted s) (hp : (s.proc p).Live)
    (hok : KeepsRegions L s (p, .exec (some path) file argv))
    (hs : Shares L s p file argv d sz entry σ₁ res es σ₂)
    (hm : ShareMemory L s p argv d sz σ₁ res es σ₂) (hx : ExecMemory L s p d sz' σ₂ s')
    (hproc : s'.proc = Function.update s.proc p (execProc (s.proc p) path es d sz' entry sp)) :
    RegionsReal s' := by
  intro q hq e he hused
  by_cases hqp : q = p
  · rw [hqp, hproc, Function.update_self] at he ⊢
    show RealRegion s'.phys.mem d e
    change e ∈ (Table.ofEntries (s.proc p).shared es).entries at he
    by_cases hfree : AllFree (s.proc p).shared
    · exact absurd (allFree_of_sizes hs.sizes hfree e he) hused
    obtain ⟨hask, hlast, hends⟩ := hok hfree d sz entry σ₁ hs.load
    obtain ⟨hno, _⟩ | ⟨_, haccess⟩ := hm.shared
    · rw [hask] at hno
      cases hno
    rw [hm.entries] at he
    have hsize : ∀ x ∈ (s.proc p).shared.entries, x.size ≠ 0 →
        0 < x.size ∧ x.size ≤ 2147483648 := by
      intro x hx hxused
      have hreal := h p hp x hx hxused
      have := hreal.end_le
      exact ⟨hreal.pos, by omega⟩
    obtain ⟨hhigh, hreal⟩ :=
      haccess.real (hends _ _ _ hs.share).1 (hsorted p hp) hlast hsize e he hused
    refine hreal.congr fun v hv h1 _ w hw hu => ⟨w, ?_, hu⟩
    rw [hx.built.high v (by omega) (by omega)]
    exact hw
  · rw [hproc, Function.update_of_ne hqp] at hq he ⊢
    refine (h q hq e he hused).congr fun v hv _ _ w hw hu => ⟨w, ?_, hu⟩
    rw [(hx.same _ ⟨Accounted.dir_mem hq.1, hacc.dir_ne hp.1 hq.1 hqp⟩).2 v (by omega)]
    exact hw

theorem Reaped.regionsReal {z : Slot} (hacc : Accounted L s) (h : RegionsReal s)
    (hr : Reaped L s p z s')
    (hsame : SameTables (named s.space \ {(s.proc z).pgdir}) s.phys.mem s'.phys.mem) :
    RegionsReal s' := by
  have hz : (s.proc z).state ≠ .unused := by
    rw [hr.zombie]
    exact ProcState.noConfusion
  intro q hq e he hused
  have hqz : q ≠ z := by
    intro heq
    rw [heq, hr.proc, Function.update_self] at hq
    exact hq.1 rfl
  rw [hr.proc, Function.update_of_ne hqz] at hq he ⊢
  refine (h q hq e he hused).congr fun v hv _ _ w hw hu => ⟨w, ?_, hu⟩
  rw [(hsame _ ⟨Accounted.dir_mem hq.1, hacc.dir_ne hz hq.1 hqz⟩).2 v (by omega)]
  exact hw

theorem shareData_real {name : Option CString} {addr : Option Nat} {size : Option Int}
    (h : RegionsReal s) (hp : (s.proc p).Live)
    (hok : KeepsRegions L s (p, .shareData name addr size)) :
    ∀ e ∈ (sysShareData (s.proc p).sz (s.proc p).shared name addr size).2.entries, e.size ≠ 0 →
      RealRegion s.phys.mem (s.proc p).pgdir e := by
  intro e he hused
  unfold sysShareData at he
  split at he
  · rename_i n a k harg
    obtain hmem | ⟨rfl, hreg⟩ := shareLoop_mem he
    · exact h p hp e hmem hused
    · exact hok n a k rfl harg rfl hused hreg
  · exact h p hp e he hused

theorem Returns.regionsReal {a : Act} {r : Int} (hacc : Accounted L s) (h : RegionsReal s)
    (hsorted : Sorted s) (hok : KeepsRegions L s (p, a)) (hret : Returns L s p a r s') :
    RegionsReal s' := by
  have hlive := hret.live
  -- a change of one slot, with real regions there
  have hone : ∀ {q : Slot} {r : Proc}, Steady L s s' → s'.proc = Function.update s.proc q r →
      r.state = (s.proc q).state → ((s.proc q).Live → ∀ e ∈ r.shared.entries, e.size ≠ 0 →
        RealRegion s.phys.mem (s.proc q).pgdir e) → RegionsReal s' := by
    intro q r hst hproc hstate hreal
    refine hst.regionsReal fun q' hq' => ?_
    by_cases hqq : q' = q
    · subst hqq
      unfold Proc.Live at hq'
      rw [hproc, Function.update_self, hstate] at hq'
      rw [hproc, Function.update_self]
      exact ⟨hq', hreal hq'⟩
    · rw [hproc, Function.update_of_ne hqq] at hq' ⊢
      exact ⟨hq', h q' hq'⟩
  cases hret.effect with
  | idle => exact h
  | shared => exact hone (shared_steady hacc p _) rfl rfl fun hl => shareData_real h hl hok
  | files ha hof =>
    obtain ⟨o, ho⟩ := hof.proc
    exact hone ((onFiles_steady ha (Steady.refl hacc)).post hret.2) ho rfl (h p)
  | forkFailed hf =>
    have hst := hf.steady hacc hlive.1
    obtain hproc | ⟨np, pid, k, d, _, hproc⟩ := hf.proc
    · exact hst.regionsReal fun q hq => by rw [hproc] at hq ⊢; exact ⟨hq, h q hq⟩
    · exact hone hst hproc rfl (h np)
  | forked hf => exact hf.regionsReal hacc h hlive hok (hf.memory hacc hlive.1)
  | noImage hload => exact (noImage_steady hacc hload).regionsReal fun q hq => ⟨hq, h q hq⟩
  | execFailed hlen hargs hf =>
    have hst := hf.steady hacc hlive.1 hok.fits hlen hargs
    obtain ⟨d, sz, entry, σ₁, res, es, σ₂, σ₃, hs, hstack, _, hproc⟩ := hf.mem
    refine hone hst hproc rfl fun _ e he hused => ?_
    by_cases hfree : AllFree (s.proc p).shared
    · exact absurd (allFree_of_sizes hs.sizes hfree e he) hused
    · exact absurd hstack (((hok hfree d sz entry σ₁ hs.load).2.2 _ _ _ hs.share).2 σ₃)
  | execed hlen hargs hx =>
    obtain ⟨d, sz, entry, σ₁, res, es, σ₂, sz', sp, hs, hm, hx', hproc⟩ :=
      hx.memory hacc hlive.1 hok.fits hlen hargs
    exact hx'.regionsReal hacc h hsorted hlive hok hs hm hproc
  | resized hn hr => exact hr.regionsReal hacc h hlive.1 hok (hr.memory hacc hlive.1 hn)
  | exited hx =>
    obtain ⟨o, hself⟩ := hx.self
    refine (hx.steady hacc hret.1).regionsReal fun q hq => ?_
    by_cases hqp : q = p
    · rw [hqp, hself] at hq
      exact absurd rfl hq.2
    · rw [hx.others q hqp] at hq ⊢
      exact ⟨hq, h q hq⟩
  | reaped hr => exact hr.regionsReal hacc h (hr.memory hacc).2

end

end Xv6Sharing.Process
