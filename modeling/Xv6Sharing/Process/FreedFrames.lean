/-
Xv6Sharing.Process.FreedFrames — frames that are free and still mapped.

A shared frame belongs to one process and is mapped by others, in their
windows between SHAREDBASE and KERNBASE, and nobody counts the mappings. So
no freed frame stays mapped only as long as every step that gives frames back
(`sbrk` of a negative amount, `exec`, `wait`) leaves those alone that a
running process has in its window, and the sharing reads the page directory
of a process that still runs. Under these conditions every frame in a window
is a page of some process (`Backed`), and such pages are never on the free
list.

The walk of `access_shared_memory` never reaches the kernel's half of the
parent: a region lies at or below the place it is mapped to (`Ordered`), and
the place it is mapped to is below KERNBASE.
-/
import Xv6Sharing.Process.Inheritance

namespace Xv6Sharing.Process

open Lib Vm Share

/-! ## What is claimed -/

/-- No frame that a running process maps for the user is free. -/
def NoFreedMapped (s : Sys) : Prop :=
  ∀ q, (s.proc q).Live → ∀ v < 1048576, ∀ w, pteAt s.phys.mem (s.proc q).pgdir v = some w →
    user w = true → pteFrame w ∉ s.phys.freelist

/-- Process `q` has frame `f` at one of the pages from `lo` to `hi`. -/
def Sys.Maps (s : Sys) (q : Slot) (lo hi f : Nat) : Prop :=
  ∃ v, lo ≤ v ∧ v < hi ∧ ∃ w, pteAt s.phys.mem (s.proc q).pgdir v = some w ∧ pteFrame w = f

/-- Frame `f` is in the memory of `q` below SHAREDBASE. -/
def Sys.OwnFrame (s : Sys) (q : Slot) (f : Nat) : Prop := s.Maps q 0 262144 f

/-- Frame `f` is in the window of `q`. -/
def Sys.WindowFrame (s : Sys) (q : Slot) (f : Nat) : Prop := s.Maps q 262144 524288 f

/-- The zombie `wait` of `p` would reap. -/
def Sys.FirstZombie (s : Sys) (p z : Slot) : Prop :=
  ((s.proc z).parent = some p ∧ (s.proc z).state = .zombie) ∧
    ∀ z' < z, ¬ ((s.proc z').parent = some p ∧ (s.proc z').state = .zombie)

/-- `access_shared_memory` has something to do: the first entry is in use. -/
def SharesSomething (t : Table) : Prop := ∃ e, t.entries.head? = some e ∧ e.size ≠ 0

/-- No step takes a frame from under a running process: `sbrk` drops no page that
is in a window, `exec` and `wait` free no image with such a page, and the sharing
finds the page directory of another running process. -/
def KeepsWindows (L : Layout) (s : Sys) (c : Slot × Act) : Prop :=
  SharingFits L s c ∧
  match c.2 with
  | .sbrk (some n) => n < 0 → ∀ q f, (s.proc q).Live → s.WindowFrame q f →
      ¬ s.Maps c.1 ((addSz (s.proc c.1).sz n + 4095) / 4096) 262144 f
  | .exec _ _ argv => (∀ q f, q ≠ c.1 → (s.proc q).Live → s.WindowFrame q f → ¬ s.OwnFrame c.1 f) ∧
      (asksSharing argv = true → SharesSomething (s.proc c.1).shared →
        ∃ r, r ≠ c.1 ∧ (s.proc r).Live ∧ (s.proc r).pgdir = (s.proc c.1).parentPgdir)
  | .wait => ∀ z, s.FirstZombie c.1 z → ∀ q f, (s.proc q).Live → s.WindowFrame q f →
      ¬ s.OwnFrame z f
  | _ => True

section

variable {L : Layout} {s s' : Sys} {p : Slot}

theorem Sys.Maps.transfer {q : Slot} {lo hi f : Nat} (h : s.Maps q lo hi f)
    (hpte : ∀ v w, lo ≤ v → v < hi → pteAt s.phys.mem (s.proc q).pgdir v = some w →
      pteFrame w = f → pteAt s'.phys.mem (s'.proc q).pgdir v = some w) : s'.Maps q lo hi f := by
  obtain ⟨v, h1, h2, w, hw, hf⟩ := h
  exact ⟨v, h1, h2, w, hpte v w h1 h2 hw hf, hf⟩

/-! ## Where regions lie -/

/-- Each region lies at or below the page it would be mapped to, the first from
page `b` on. -/
def Ordered : Nat → List Shared → Prop
  | _, [] => True
  | b, e :: es => e.memstart / 4096 ≤ b ∧ Ordered (b + Shared.pages e) es

theorem Ordered.mono {b b' : Nat} {es : List Shared} (h : Ordered b es) (hle : b ≤ b') :
    Ordered b' es := by
  induction es generalizing b b' with
  | nil => trivial
  | cons e es ih => exact ⟨le_trans h.1 hle, ih h.2 (Nat.add_le_add_right hle _)⟩

theorem ordered_of_low {b : Nat} {es : List Shared} (hb : 262144 ≤ b)
    (h : ∀ e ∈ es, e.memstart ≤ sharedbase) : Ordered b es := by
  induction es generalizing b with
  | nil => trivial
  | cons e es ih =>
    obtain ⟨he, hes⟩ := List.forall_mem_cons.mp h
    unfold sharedbase at he
    exact ⟨by omega, ih (by omega) hes⟩

theorem pages_free {e : Shared} (h : e.size = 0) : Shared.pages e = 0 := by
  unfold Shared.pages Shared.span
  rw [h]
  rfl

theorem Ordered.share {b : Nat} {es : List Shared} (hb : 262144 ≤ b) (h : Ordered b es)
    (name : CString) {vmStart : Nat} (hlow : vmStart < sharedbase) (size : Int) (i : Nat) :
    Ordered b (shareLoop name vmStart size i es).2 := by
  unfold sharedbase at hlow
  induction es generalizing b i with
  | nil => exact h
  | cons e es ih =>
    rw [shareLoop]
    split
    · rename_i hfree
      have htail : Ordered (b + 0) es := pages_free hfree ▸ h.2
      refine ⟨?_, htail.mono (by omega)⟩
      show vmStart / 4096 ≤ b
      omega
    · split
      · exact h
      · exact ⟨h.1, ih (by omega) h.2 (i + 1)⟩

theorem Ordered.fork {b : Nat} {cs ns : List Shared} (hb : 262144 ≤ b) (h : Ordered b cs)
    (hn : ∀ e ∈ ns, e.memstart ≤ sharedbase) : Ordered b (forkShared cs ns) := by
  induction cs generalizing b ns with
  | nil =>
    unfold forkShared
    exact ordered_of_low hb hn
  | cons c cs ih =>
    cases ns with
    | nil => trivial
    | cons n ns =>
      unfold forkShared
      split
      · exact ordered_of_low hb hn
      · exact ⟨h.1, ih (by omega) h.2 (fun e he => hn e (List.mem_cons_of_mem _ he))⟩

theorem Accessed.ordered {D : Set Nat} {d parent b : Nat} {r : ShareResult}
    {es es' : List Shared} {σ σ' : Phys} (h : Accessed D d parent b es r es' σ σ')
    (hord : Ordered b es) : Ordered b es' := by
  induction h with
  | nil => trivial
  | free _ => exact hord
  | stopped _ _ _ _ => exact hord
  | @region b e _ _ _ _ _ _ _ _ _ ih =>
    refine ⟨?_, ih hord.2⟩
    show (b * 4096 + e.memstart % 4096) / 4096 ≤ b
    omega

theorem exitTable_low {t : Table} : ∀ e ∈ (exitTable t).entries, e.memstart ≤ sharedbase := by
  intro e he
  obtain ⟨e', _, rfl⟩ := List.mem_map.mp he
  unfold clearShared
  split
  · exact Nat.zero_le _
  · rename_i hlow
    exact not_lt.mp hlow

/-- Whatever the sharing put into the window comes from a page of the parent below
KERNBASE. -/
theorem Accessed.source {D : Set Nat} {d parent b : Nat} {r : ShareResult}
    {es es' : List Shared} {σ σ' : Phys} (h : Accessed D d parent b es r es' σ σ')
    (hpar : parent ∈ D \ {d}) (hord : Ordered b es) {x w : Nat} (hx : b ≤ x) (hx' : x < 524288)
    (hnew : pteAt σ.mem d x = none) (hw : pteAt σ'.mem d x = some w) :
    ∃ y w', y < 524288 ∧ pteAt σ.mem parent y = some w' ∧ pteFrame w' = pteFrame w := by
  -- a page inside a mapped range
  have hwindow : ∀ {b k start : Nat} {σ σ' : Phys}, Window D d parent start b k σ σ' →
      start / 4096 ≤ b → b ≤ x → x < b + k → pteAt σ'.mem d x = some w →
      ∃ y w', y < 524288 ∧ pteAt σ.mem parent y = some w' ∧ pteFrame w' = pteFrame w := by
    intro b k start σ σ' hwin hstart hbx hxk hw
    obtain ⟨f, hf, hsrc⟩ := hwin.mapped (x - b) (by omega)
    obtain ⟨w', hw', hfw⟩ := hsrc hpar
    rw [show b + (x - b) = x by omega, hw] at hf
    refine ⟨srcPage start (x - b), w', ?_, hw', ?_⟩
    · unfold srcPage
      omega
    · rw [hfw, Option.some.inj hf, pteFrame_mk (by decide)]
  induction h with
  | nil => rw [hnew] at hw; cases hw
  | free _ => rw [hnew] at hw; cases hw
  | @stopped b k _ _ _ _ _ _ hwin _ =>
    by_cases hin : x < b + k
    · exact hwindow hwin hord.1 hx hin hw
    · rw [hwin.outside x (by omega) (by omega), hnew] at hw
      cases hw
  | @region b e _ _ _ _ σ₁ _ _ hwin hacc ih =>
    by_cases hin : x < b + Shared.pages e
    · rw [hacc.outside x (by omega) (Or.inl hin)] at hw
      exact hwindow hwin hord.1 hx hin hw
    · have hnew₁ : pteAt σ₁.mem d x = none := by
        rw [hwin.outside x (by omega) (by omega)]
        exact hnew
      obtain ⟨y, w', hy, hw', hf⟩ := ih hord.2 (by omega) hnew₁ hw
      refine ⟨y, w', hy, ?_, hf⟩
      rw [← (hwin.others parent hpar).2 y (by omega)]
      exact hw'

/-- Where the regions of all tables lie. -/
structure Placed (s : Sys) : Prop where
  ordered : ∀ q, (s.proc q).Live → Ordered 262144 (s.proc q).shared.entries
  low : ∀ q, ¬ (s.proc q).Live → ∀ e ∈ (s.proc q).shared.entries, e.memstart ≤ sharedbase

section Exec

variable {file : Option (List UInt8)} {argv : List CString} {d sz entry : Nat} {σ₁ σ₂ : Phys}
  {res : ShareResult} {es : List Shared}

/-- The entries the sharing leaves are the table afterwards. -/
theorem ShareMemory.entries (hm : ShareMemory L s p argv d sz σ₁ res es σ₂) :
    (Table.ofEntries (s.proc p).shared es).entries = es := by
  have hlen : es.length = sharedCount := by
    obtain ⟨_, _, rfl, _⟩ | ⟨_, hacc⟩ := hm.shared
    · exact (s.proc p).shared.length_eq
    · exact hacc.length_eq.trans (s.proc p).shared.length_eq
  unfold Table.ofEntries
  rw [dif_pos hlen]

theorem ShareMemory.ordered (hm : ShareMemory L s p argv d sz σ₁ res es σ₂)
    (hord : Ordered 262144 (s.proc p).shared.entries) :
    Ordered 262144 (Table.ofEntries (s.proc p).shared es).entries := by
  rw [hm.entries]
  obtain ⟨_, _, rfl, _⟩ | ⟨_, hacc⟩ := hm.shared
  · exact hord
  · exact hacc.ordered hord

end Exec

theorem Returns.placed {a : Act} {r : Int} (hacc : Accounted L s) (h : Placed s)
    (hfit : SharingFits L s (p, a)) (hret : Returns L s p a r s') : Placed s' := by
  have hlive := hret.live
  have hord := h.ordered p hlive
  have hall := hret.effect.tables (J := fun st t => (st.Live → Ordered 262144 t.entries) ∧
    (¬ st.Live → ∀ e ∈ t.entries, e.memstart ≤ sharedbase))
    (fun q => ⟨h.ordered q, h.low q⟩) hret.1 ?_ ?_ ?_ ?_ ?_
  · exact ⟨fun q => (hall q).1, fun q => (hall q).2⟩
  · intro name addr size ha
    refine ⟨fun _ => ?_, fun hdead => absurd live_runnable hdead⟩
    unfold sysShareData
    split
    · rename_i harg
      have hlow := lt_of_lt_of_le (Share.argptr_lt harg) (hacc.sizes p hret.inUse).1
      exact hord.share le_rfl _ hlow _ 0
    · exact hord
  · intro np _ hnp
    refine ⟨fun _ => ?_, fun hdead => absurd live_runnable hdead⟩
    exact hord.fork le_rfl (h.low np (fun hl => hl.1 hnp.unused))
  · intro path file argv d sz entry σ₁ res es σ₂ ha hs
    rw [ha] at hfit
    exact ⟨fun _ => (hs.memory hacc (hfit.ne hs)).ordered hord,
      fun hdead => absurd live_runnable hdead⟩
  · exact fun _ => ⟨fun hl => absurd rfl hl.2, fun _ => exitTable_low⟩
  · exact fun t ht => ⟨fun hl => absurd rfl hl.1, fun _ => ht.2 (fun hl => hl.2 rfl)⟩

/-! ## Windows -/

/-- Every frame in the window of a running process is a page of some process below
SHAREDBASE. -/
def Backed (s : Sys) : Prop :=
  ∀ q f, (s.proc q).Live → s.WindowFrame q f → ∃ r, (s.proc r).state ≠ .unused ∧ s.OwnFrame r f

theorem Steady.dir {q : Slot} (h : Steady L s s') (hq : (s.proc q).state ≠ .unused) :
    (s'.proc q).state ≠ .unused ∧ (s'.proc q).pgdir = (s.proc q).pgdir := by
  have := (h.spaces (.proc q) (s.proc q).pgdir).mpr ⟨hq, rfl⟩
  exact ⟨this.1, this.2.symm⟩

theorem Steady.backed (h : Backed s) (hst : Steady L s s')
    (hlive : ∀ q, (s'.proc q).Live → (s.proc q).Live) : Backed s' := by
  intro q f hq hf
  have hpte : ∀ r, (s.proc r).state ≠ .unused → ∀ v < 1048576,
      pteAt s'.phys.mem (s'.proc r).pgdir v = pteAt s.phys.mem (s.proc r).pgdir v := by
    intro r hr v hv
    rw [(hst.dir hr).2]
    exact (hst.tables _ (Accounted.dir_mem hr)).2 v hv
  obtain ⟨r, hr, hown⟩ := h q f (hlive q hq) (hf.transfer fun v w _ h2 hw _ => by
    rw [← hpte q (hlive q hq).1 v (by omega)]
    exact hw)
  exact ⟨r, (hst.dir hr).1, hown.transfer fun v w _ h2 hw _ => by
    rw [hpte r hr v (by omega)]
    exact hw⟩

theorem Forked.backed {np : Slot} {k d : Nat} (hacc : Accounted L s) (h : Backed s)
    (hp : (s.proc p).state ≠ .unused) (hf : Forked L s p np k d s')
    (hm : ForkMemory L s p k d s') : Backed s' := by
  obtain ⟨o, ho⟩ := hf.proc
  have hother : ∀ r, r ≠ np → s'.proc r = s.proc r := by
    intro r hr
    rw [ho, Function.update_of_ne hr]
  have hpte : ∀ r, r ≠ np → (s.proc r).state ≠ .unused → ∀ v < 1048576,
      pteAt s'.phys.mem (s'.proc r).pgdir v = pteAt s.phys.mem (s.proc r).pgdir v := by
    intro r hne hr v hv
    rw [hother r hne]
    exact (hm.same _ (Accounted.dir_mem hr)).2 v hv
  intro q f hq hwin
  by_cases hqn : q = np
  · -- the child's window is empty
    obtain ⟨v, h1, h2, w, hw, _⟩ := hwin
    have hsz : (s.proc p).sz ≤ 1073741824 := (hacc.sizes p hp).1
    have hself : (s'.proc q).pgdir = d := by
      rw [hqn, ho, Function.update_self]
      rfl
    rw [hself, hm.rest v (by omega) (by omega), kmapPte_user hacc.data_lt h2] at hw
    cases hw
  · have hlive : (s.proc q).Live := hother q hqn ▸ hq
    obtain ⟨r, hr, hown⟩ := h q f hlive (hwin.transfer fun v w _ h2 hw _ => by
      rw [← hpte q hqn hlive.1 v (by omega)]
      exact hw)
    have hrn : r ≠ np := fun he => hr (he ▸ hf.free)
    exact ⟨r, by rw [hother r hrn]; exact hr, hown.transfer fun v w _ h2 hw _ => by
      rw [hpte r hrn hr v (by omega)]
      exact hw⟩

theorem Resized.backed {n : Int} (hacc : Accounted L s) (h : Backed s)
    (hp : (s.proc p).state ≠ .unused) (hr : Resized L s p n s') (hm : ResizeMemory L s p n s')
    (hok : n < 0 → ∀ q f, (s.proc q).Live → s.WindowFrame q f →
      ¬ s.Maps p ((addSz (s.proc p).sz n + 4095) / 4096) 262144 f) : Backed s' := by
  obtain ⟨sz, _, hproc⟩ := hr.mem
  have hsame : ∀ r, (s'.proc r).state = (s.proc r).state ∧
      (s'.proc r).pgdir = (s.proc r).pgdir := by
    intro r
    rw [hproc, Function.update_apply]
    split
    · rename_i heq
      rw [heq]
      exact ⟨rfl, rfl⟩
    · exact ⟨rfl, rfl⟩
  have hother : ∀ r, r ≠ p → (s.proc r).state ≠ .unused → ∀ v < 1048576,
      pteAt s'.phys.mem (s.proc r).pgdir v = pteAt s.phys.mem (s.proc r).pgdir v :=
    fun r hne hr' v hv => (hm.others _ ⟨Accounted.dir_mem hr', hacc.dir_ne hp hr' hne⟩).2 v hv
  intro q f hq hwin
  have hlive : (s.proc q).Live := by
    unfold Proc.Live at hq ⊢
    rw [← (hsame q).1]
    exact hq
  have hwin' : s.WindowFrame q f := hwin.transfer fun v w h1 h2 hw _ => by
    rw [(hsame q).2] at hw
    by_cases hqp : q = p
    · rw [hqp] at hw ⊢
      rw [← hm.high v h1 (by omega)]
      exact hw
    · rw [← hother q hqp hlive.1 v (by omega)]
      exact hw
  obtain ⟨r, hr', hown⟩ := h q f hlive hwin'
  refine ⟨r, by rw [(hsame r).1]; exact hr', hown.transfer fun v w h1 h2 hw hf => ?_⟩
  rw [(hsame r).2]
  by_cases hrp : r = p
  · -- the owner is the caller: the page is not among those given back
    rw [hrp] at hw ⊢
    refine hm.kept v w hw h2 (fun hc => hok hc.1 q f hlive hwin' ⟨v, by omega, h2, w, hw, hf⟩)
  · rw [hother r hrp hr' v (by omega)]
    exact hw

theorem accessed_nothing {D : Set Nat} {d parent b : Nat} {r : ShareResult} {t : Table}
    {es' : List Shared} {σ σ' : Phys} (h : Accessed D d parent b t.entries r es' σ σ')
    (hno : ¬ SharesSomething t) : σ' = σ := by
  cases hes : t.entries with
  | nil =>
    have := t.length_eq
    rw [hes] at this
    cases this
  | cons e es =>
    have hfree : e.size = 0 := by
      by_contra hused
      exact hno ⟨e, by rw [hes]; rfl, hused⟩
    rw [hes] at h
    cases h with
    | free _ => rfl
    | stopped hused _ _ _ => exact absurd hfree hused
    | region hused _ _ => exact absurd hfree hused

/-- The window of a new image: what the sharing put there comes from a page of the
running process whose directory it read. -/
theorem ShareMemory.window_source {argv : List CString} {d sz : Nat} {σ₁ σ₂ : Phys}
    {res : ShareResult} {es : List Shared} (hacc : Accounted L s)
    (hm : ShareMemory L s p argv d sz σ₁ res es σ₂)
    (hord : Ordered 262144 (s.proc p).shared.entries)
    (hok : asksSharing argv = true → SharesSomething (s.proc p).shared →
      ∃ r, r ≠ p ∧ (s.proc r).Live ∧ (s.proc r).pgdir = (s.proc p).parentPgdir)
    {v w : Nat} (h1 : 262144 ≤ v) (h2 : v < 524288) (hw : pteAt σ₂.mem d v = some w) :
    ∃ r, r ≠ p ∧ (s.proc r).Live ∧ s.Maps r 0 524288 (pteFrame w) := by
  have hnew : pteAt σ₁.mem d v = none := by
    rw [hm.window v h1 (by omega)]
    exact kmapPte_user hacc.data_lt h2
  obtain ⟨_, _, _, rfl⟩ | ⟨hask, hacc'⟩ := hm.shared
  · rw [hnew] at hw
    cases hw
  · by_cases hsome : SharesSomething (s.proc p).shared
    · obtain ⟨r, hrp, hr, hdir⟩ := hok hask hsome
      have hmem : (s.proc r).pgdir ∈ named s.space := Accounted.dir_mem hr.1
      have hpar : (s.proc p).parentPgdir ∈ insert d (named s.space) \ {d} := by
        rw [← hdir]
        exact ⟨Set.mem_insert_of_mem d hmem, fun he => hm.fresh (he ▸ hmem)⟩
      obtain ⟨y, w', hy, hw', hf⟩ := hacc'.source hpar hord h1 h2 hnew hw
      refine ⟨r, hrp, hr, y, Nat.zero_le y, hy, w', ?_, hf⟩
      rw [hdir, ← (hm.loaded _ (hdir ▸ hmem)).2 y (by omega)]
      exact hw'
    · rw [accessed_nothing hacc' hsome, hnew] at hw
      cases hw

theorem ExecMemory.backed {path : CString} {argv : List CString} {d sz entry sz' sp : Nat}
    {σ₁ σ₂ : Phys} {res : ShareResult} {es : List Shared} (hacc : Accounted L s) (h : Backed s)
    (hp : (s.proc p).state ≠ .unused) (hm : ShareMemory L s p argv d sz σ₁ res es σ₂)
    (hx : ExecMemory L s p d sz' σ₂ s')
    (hproc : s'.proc = Function.update s.proc p (execProc (s.proc p) path es d sz' entry sp))
    (hord : Ordered 262144 (s.proc p).shared.entries)
    (hfree : ∀ q f, q ≠ p → (s.proc q).Live → s.WindowFrame q f → ¬ s.OwnFrame p f)
    (hok : asksSharing argv = true → SharesSomething (s.proc p).shared →
      ∃ r, r ≠ p ∧ (s.proc r).Live ∧ (s.proc r).pgdir = (s.proc p).parentPgdir) : Backed s' := by
  have hother : ∀ r, r ≠ p → s'.proc r = s.proc r := by
    intro r hr
    rw [hproc, Function.update_of_ne hr]
  have hpte : ∀ r, r ≠ p → (s.proc r).state ≠ .unused → ∀ v < 1048576,
      pteAt s'.phys.mem (s'.proc r).pgdir v = pteAt s.phys.mem (s.proc r).pgdir v := by
    intro r hne hr v hv
    rw [hother r hne]
    exact (hx.same _ ⟨Accounted.dir_mem hr, hacc.dir_ne hp hr hne⟩).2 v hv
  -- a page of another process survives
  have hkeep : ∀ r f, r ≠ p → (s.proc r).state ≠ .unused → s.OwnFrame r f →
      ∃ r, (s'.proc r).state ≠ .unused ∧ s'.OwnFrame r f := by
    intro r f hrp hr hown
    exact ⟨r, by rw [hother r hrp]; exact hr, hown.transfer fun v w _ hv hw _ => by
      rw [hpte r hrp hr v (by omega)]
      exact hw⟩
  -- and so does what another running process has in its window
  have hwindow : ∀ q f, q ≠ p → (s.proc q).Live → s.WindowFrame q f →
      ∃ r, (s'.proc r).state ≠ .unused ∧ s'.OwnFrame r f := by
    intro q f hqp hq hwin
    obtain ⟨r, hr, hown⟩ := h q f hq hwin
    refine hkeep r f (fun he => hfree q f hqp hq hwin (he ▸ hown)) hr hown
  intro q f hq hwin
  by_cases hqp : q = p
  · obtain ⟨v, h1, h2, w, hw, hf⟩ := hwin
    have hself : (s'.proc q).pgdir = d := by
      rw [hqp, hproc, Function.update_self]
      rfl
    rw [hself, hx.built.high v h1 (by omega)] at hw
    obtain ⟨r, hrp, hr, y, _, hy, w', hw', hf'⟩ := hm.window_source hacc hord hok h1 h2 hw
    have hfw : pteFrame w' = f := hf'.trans hf
    by_cases hlow : y < 262144
    · exact hkeep r f hrp hr.1 ⟨y, Nat.zero_le y, hlow, w', hw', hfw⟩
    · exact hwindow r f hrp hr ⟨y, not_lt.mp hlow, hy, w', hw', hfw⟩
  · have hlive : (s.proc q).Live := hother q hqp ▸ hq
    refine hwindow q f hqp hlive (hwin.transfer fun v w _ hv hw _ => ?_)
    rw [← hpte q hqp hlive.1 v (by omega)]
    exact hw

theorem Reaped.backed {z : Slot} (hacc : Accounted L s) (h : Backed s) (hr : Reaped L s p z s')
    (hsame : SameTables (named s.space \ {(s.proc z).pgdir}) s.phys.mem s'.phys.mem)
    (hok : ∀ q f, (s.proc q).Live → s.WindowFrame q f → ¬ s.OwnFrame z f) : Backed s' := by
  have hz : (s.proc z).state ≠ .unused := by
    rw [hr.zombie]
    exact ProcState.noConfusion
  have hother : ∀ r, r ≠ z → s'.proc r = s.proc r := by
    intro r hne
    rw [hr.proc, Function.update_of_ne hne]
  have hpte : ∀ r, r ≠ z → (s.proc r).state ≠ .unused → ∀ v < 1048576,
      pteAt s'.phys.mem (s'.proc r).pgdir v = pteAt s.phys.mem (s.proc r).pgdir v := by
    intro r hne hr' v hv
    rw [hother r hne]
    exact (hsame _ ⟨Accounted.dir_mem hr', hacc.dir_ne hz hr' hne⟩).2 v hv
  intro q f hq hwin
  have hqz : q ≠ z := by
    intro he
    rw [he, hr.proc, Function.update_self] at hq
    exact hq.1 rfl
  have hlive : (s.proc q).Live := hother q hqz ▸ hq
  have hwin' : s.WindowFrame q f := hwin.transfer fun v w _ hv hw _ => by
    rw [← hpte q hqz hlive.1 v (by omega)]
    exact hw
  obtain ⟨r, hr', hown⟩ := h q f hlive hwin'
  have hrz : r ≠ z := fun he => hok q f hlive hwin' (he ▸ hown)
  exact ⟨r, by rw [hother r hrz]; exact hr', hown.transfer fun v w _ hv hw _ => by
    rw [hpte r hrz hr' v (by omega)]
    exact hw⟩

theorem Returns.backed {a : Act} {r : Int} (hacc : Accounted L s) (hplaced : Placed s)
    (h : Backed s) (hok : KeepsWindows L s (p, a)) (hret : Returns L s p a r s') : Backed s' := by
  have hlive := hret.live
  cases hret.remapped hacc hok.1 with
  | steady hst hl _ => exact hst.backed h hl
  | forked hf hm => exact hf.backed hacc h hret.inUse hm
  | resized hr hm => exact hr.backed hacc h hret.inUse hm hok.2
  | execed _ hm hx hproc =>
    exact hx.backed hacc h hret.inUse hm hproc (hplaced.ordered p hlive) hok.2.1 hok.2.2
  | reaped hr hsame => exact hr.backed hacc h hsame (hok.2 _ ⟨⟨hr.child, hr.zombie⟩, hr.least⟩)

theorem Booted.placed (h : Booted L s) : Placed s := by
  have hlow : ∀ q, ∀ e ∈ (s.proc q).shared.entries, e.memstart ≤ sharedbase := by
    intro q e he
    rw [h.fresh.table q] at he
    rw [List.eq_of_mem_replicate he]
    exact Nat.zero_le _
  exact ⟨fun q _ => ordered_of_low le_rfl (hlow q), fun q _ => hlow q⟩

theorem Booted.backed (h : Booted L s) : Backed s := by
  intro q f hq hwin
  by_cases hqi : q = s.initproc
  · obtain ⟨v, h1, h2, w, hw, _⟩ := hwin
    rw [hqi, h.fresh.window v h1 h2] at hw
    cases hw
  · rw [h.fresh.others q hqi] at hq
    exact absurd rfl hq.1

/-- What backs the windows is not free. -/
theorem Backed.noFreedMapped (hacc : Accounted L s) (h : Backed s) : NoFreedMapped s := by
  have hpage : ∀ q f, (s.proc q).state ≠ .unused → s.OwnFrame q f → f ∉ s.phys.freelist := by
    intro q f hq hown
    obtain ⟨x, _, hx, w, hw, hf⟩ := hown
    exact hacc.sound.notFree (u := .page (s.proc q).pgdir x)
      ⟨Accounted.dir_mem hq, hx, w, hw, hf⟩
  intro q hq v hv w hw huser
  by_cases hlow : v < 262144
  · exact hpage q _ hq.1 ⟨v, Nat.zero_le v, hlow, w, hw, rfl⟩
  · by_cases hwin : v < 524288
    · obtain ⟨r, hr, hown⟩ := h q _ hq ⟨v, not_lt.mp hlow, hwin, w, hw, rfl⟩
      exact hpage r _ hr hown
    · -- the kernel's half is not the user's
      rw [hacc.kernel _ (Accounted.dir_mem hq.1) v (not_lt.mp hwin) hv] at hw
      rw [kmapPte_notUser hacc.data_lt hw] at huser
      cases huser

/-- **No freed frame stays mapped**, in every run whose steps take no frame from
under a running process. -/
theorem freed_not_mapped (h : Run L (KeepsWindows L) s) : NoFreedMapped s := by
  have hinv : Accounted L s ∧ Placed s ∧ Backed s := by
    refine h.invariant (I := fun s => Accounted L s ∧ Placed s ∧ Backed s)
      (fun s hs => ⟨hs.fresh.accounted, hs.placed, hs.backed⟩) (fun s c s' hI hok hstep => ?_)
    obtain ⟨hacc, hplaced, hback⟩ := hI
    obtain ⟨r, hret⟩ := hstep
    exact ⟨hret.accounted hacc hok.1, hret.placed hacc hplaced hok.1,
      hret.backed hacc hplaced hback hok⟩
  exact hinv.2.2.noFreedMapped hinv.1

/-- The steps before the child's `exec` give no frame back. -/
theorem keepsWindows_early (s : Sys) (c : Slot × Act) (h : c.2.Early) : KeepsWindows L s c := by
  obtain ⟨p, a⟩ := c
  cases a with
  | shareData _ _ _ => exact ⟨sharingFits_of_ne fun _ _ _ => Act.noConfusion, trivial⟩
  | fork => exact ⟨sharingFits_of_ne fun _ _ _ => Act.noConfusion, trivial⟩
  | sbrk n =>
    cases n with
    | none => exact h.elim
    | some n =>
      have hpos : 0 < n := h
      exact ⟨sharingFits_of_ne fun _ _ _ => Act.noConfusion, fun hneg => by omega⟩
  | getData _ _ => exact h.elim
  | exec _ _ _ => exact h.elim
  | exit => exact h.elim
  | wait => exact h.elim
  | pipe _ => exact h.elim
  | close _ => exact h.elim
  | dup _ => exact h.elim
  | «open» _ _ => exact h.elim

theorem freed_not_mapped_smallKernel : ∃ s q f, Run smallKernel (KeepsWindows smallKernel) s ∧
    (s.proc q).Live ∧ s.WindowFrame q f ∧ NoFreedMapped s := by
  have hparent : ∃ a s, Parent smallKernel (KeepsWindows smallKernel) 4096 4096 a s :=
    exists_parent (by decide) keepsWindows_early (by decide) (by decide)
  obtain ⟨a, s, hs⟩ := hparent
  obtain ⟨s', hc⟩ := hs.exec (by decide) (by decide)
  have hinit : ∀ q, q ≠ a → (s.proc q).Live → q = s.initproc := by
    intro q hqa hq
    by_contra hqi
    rw [hs.others q hqa hqi] at hq
    exact hq.1 rfl
  have hlive := live_of_runnable hs.init.runnable
  have hok : KeepsWindows smallKernel s (a, .exec (some nameA) (some emptyElf) [commaArg]) := by
    refine ⟨hc.fits, fun q f hqa hq hwin => ?_, fun _ _ => ?_⟩
    · -- init has nothing in its window
      obtain ⟨v, h1, h2, w, hw, _⟩ := hwin
      rw [hinit q hqa hq, hs.window v h1 h2] at hw
      cases hw
    · exact ⟨s.initproc, hs.ne.symm, hlive, hs.parentPgdir.symm⟩
  have hrun := hs.run.step hc.returns hok
  obtain ⟨w, _, hw⟩ := hc.window 0 (by decide)
  exact ⟨s', a, _, hrun, live_of_runnable hc.runnable, ⟨262144, le_rfl, by decide, _, hw, rfl⟩,
    freed_not_mapped hrun⟩

/-- init registers its second page, the child maps it, and init gives it back: the
frame is free, and the child can still read and write it. -/
theorem freed_frame_stays_mapped : ∃ s q v w, Run smallKernel (fun _ _ => True) s ∧
    (s.proc q).Live ∧ v < 1048576 ∧ pteAt s.phys.mem (s.proc q).pgdir v = some w ∧
    user w = true ∧ pteFrame w ∈ s.phys.freelist := by
  have hparent : ∃ a s, Parent smallKernel (fun _ _ => True) 4096 4096 a s :=
    exists_parent (by decide) (fun _ _ _ => trivial) (by decide) (by decide)
  obtain ⟨a, s, hs⟩ := hparent
  obtain ⟨s₁, hc⟩ := hs.exec (by decide) (by decide)
  have hacc₁ := hc.returns.accounted hs.accounted hc.fits
  have hinit₁ : s₁.proc s.initproc = s.proc s.initproc := hc.others _ hs.ne.symm
  have hsz₁ : (s₁.proc s.initproc).sz = 8192 := by rw [hinit₁]; exact hs.sz _ (Or.inr rfl)
  have hrun₁ : (s₁.proc s.initproc).state = .runnable := by rw [hinit₁]; exact hs.init.runnable
  obtain ⟨σ, hret, hr, hfreed⟩ := sbrk_shrinks (n := -4096) hacc₁ hrun₁ (by decide)
    (by rw [hsz₁]; decide)
  obtain ⟨w, hw, hchild⟩ := hc.window 0 (by decide)
  have hw₁ : pteAt s₁.phys.mem (s₁.proc s.initproc).pgdir 1 = some w := by
    rw [hinit₁, hc.tables _ hs.ne.symm hs.init.inUse 1 (by decide)]
    exact hw
  have hfree := hfreed 1 w (by rw [hsz₁]; decide) (by rw [hsz₁]; decide) hw₁
  -- the child's table did not change
  generalize hs₂ : s₁.resized s.initproc σ _ = s₂ at hret hr
  have hproc₂ : s₂.proc a = s₁.proc a := by
    rw [← hs₂]
    exact Function.update_of_ne hs.ne ..
  have hphys₂ : s₂.phys = σ := by rw [← hs₂]; rfl
  have hin : (s₁.proc a).state ≠ .unused := by
    rw [hc.runnable]
    exact ProcState.noConfusion
  have hin' : (s₁.proc s.initproc).state ≠ .unused := by
    rw [hrun₁]
    exact ProcState.noConfusion
  have hsame := (hr.memory hacc₁ hin' (by decide)).others _
    ⟨Accounted.dir_mem hin, hacc₁.dir_ne hin' hin hs.ne⟩
  refine ⟨s₂, a, 262144, pteFrame w * 4096 ||| (pteW ||| pteU) ||| pteP,
    (hs.run.step hc.returns trivial).step hret trivial, ?_, by decide, ?_, ?_, ?_⟩
  · rw [hproc₂]
    exact live_of_runnable hc.runnable
  · rw [hproc₂, hsame.2 262144 (by decide)]
    exact hchild
  · rw [user_mk]
    decide
  · rw [pteFrame_mk (by decide), hphys₂]
    exact hfree

end

end Xv6Sharing.Process
