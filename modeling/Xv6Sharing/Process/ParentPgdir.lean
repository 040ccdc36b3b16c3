/-
Xv6Sharing.Process.ParentPgdir — the page directory `access_shared_memory`
reads.

`fork` stores the parent's page directory in `parent_pgdir`, and nobody ever
updates it. The directory goes away when its process executes another program
or is reaped; `exec` of a sharing program then walks a freed page, or one that
was given to somebody else. As long as no process gives up a directory that a
running process has in `parent_pgdir`, and init (which has none) does not
share, the walk meets the directory of a process that was not reaped, and every
frame it maps is the one that process has at the shared address.
-/
import Xv6Sharing.Process.FreedFrames

namespace Xv6Sharing.Process

open Lib Vm Share

/-! ## What the walk maps -/

/-- The window of directory `d` in memory `m'`, from page `b` on: the pages of each
region in turn, and nothing else. What is mapped for page `j` of a region is the
frame `parent` has at that page of the region in memory `m`, writable and for the
user. -/
def FromParent (m m' : Mem) (parent d : Nat) : Nat → List Shared → Prop
  | b, [] => ∀ x, b ≤ x → x < 524288 → pteAt m' d x = none
  | b, e :: es =>
    (∀ j < Shared.pages e, b + j < 524288 → ∀ w, pteAt m' d (b + j) = some w →
      ∃ w', pteAt m parent (srcPage e.memstart j) = some w' ∧
        w = pteFrame w' * 4096 ||| (pteW ||| pteU) ||| pteP) ∧
    FromParent m m' parent d (b + Shared.pages e) es

section

variable {L : Layout} {s s' : Sys} {p : Slot} {m m' : Mem} {parent d b : Nat} {es : List Shared}

theorem fromParent_none (h : ∀ x, b ≤ x → x < 524288 → pteAt m' d x = none) :
    FromParent m m' parent d b es := by
  induction es generalizing b with
  | nil => exact h
  | cons e es ih =>
    refine ⟨fun j _ hlt w hw => ?_, ih fun x hx => h x (by omega)⟩
    rw [h (b + j) (by omega) hlt] at hw
    cases hw

theorem FromParent.congr {m₁ : Mem} (h : FromParent m₁ m' parent d b es)
    (hm : ∀ v < 1048576, pteAt m₁ parent v = pteAt m parent v) :
    FromParent m m' parent d b es := by
  induction es generalizing b with
  | nil => exact h
  | cons e es ih =>
    refine ⟨fun j hj hlt w hw => ?_, ih h.2⟩
    obtain ⟨w', hw', heq⟩ := h.1 j hj hlt w hw
    rw [hm _ (srcPage_lt _ _)] at hw'
    exact ⟨w', hw', heq⟩

theorem Accessed.fromParent {D : Set Nat} {r : ShareResult} {es' : List Shared} {σ σ' : Phys}
    (h : Accessed D d parent b es r es' σ σ') (hpar : parent ∈ D \ {d})
    (hnone : ∀ x, b ≤ x → x < 524288 → pteAt σ.mem d x = none) :
    FromParent σ.mem σ'.mem parent d b es := by
  -- one page of a mapped range
  have hpage : ∀ {b k start j w : Nat} {σ σ' : Phys}, Window D d parent start b k σ σ' → j < k →
      pteAt σ'.mem d (b + j) = some w →
      ∃ w', pteAt σ.mem parent (srcPage start j) = some w' ∧
        w = pteFrame w' * 4096 ||| (pteW ||| pteU) ||| pteP := by
    intro b k start j w σ σ' hwin hj hw
    obtain ⟨f, hf, hsrc⟩ := hwin.mapped j hj
    obtain ⟨w', hw', rfl⟩ := hsrc hpar
    rw [hw] at hf
    exact ⟨w', hw', Option.some.inj hf⟩
  induction h with
  | nil => exact hnone
  | free _ => exact fromParent_none hnone
  | @stopped b k e es σ σ' _ hk hwin _ =>
    have hbeyond : ∀ x, b + k ≤ x → x < 524288 → pteAt σ'.mem d x = none := by
      intro x h1 h2
      rw [hwin.outside x (by omega) (by omega)]
      exact hnone x (by omega) h2
    refine ⟨fun j hj hlt w hw => ?_, fromParent_none fun x h1 => hbeyond x (by omega)⟩
    by_cases hjk : j < k
    · exact hpage hwin hjk hw
    · rw [hbeyond (b + j) (by omega) hlt] at hw
      cases hw
  | @region b e es es' r σ σ₁ σ' _ hwin hacc ih =>
    refine ⟨fun j hj hlt w hw => ?_, (ih fun x h1 h2 => ?_).congr (hwin.others _ hpar).2⟩
    · rw [hacc.outside _ (by omega) (Or.inl (by omega))] at hw
      exact hpage hwin hj hw
    · rw [hwin.outside x (by omega) (by omega)]
      exact hnone x (by omega) h2

/-! ## The directory -/

/-- No step gives up a page directory that a running process has in `parent_pgdir`,
and init does not share. -/
def KeepsParents (L : Layout) (s : Sys) (c : Slot × Act) : Prop :=
  SharingFits L s c ∧
  match c.2 with
  | .exec _ _ argv => (∀ q, (s.proc q).Live → (s.proc q).parentPgdir ≠ (s.proc c.1).pgdir) ∧
      (asksSharing argv = true → SharesSomething (s.proc c.1).shared → c.1 ≠ s.initproc)
  | .wait => ∀ z, s.FirstZombie c.1 z →
      ∀ q, (s.proc q).Live → (s.proc q).parentPgdir ≠ (s.proc z).pgdir
  | _ => True

/-- Every running process but init has the directory of another process, not
reaped, in `parent_pgdir`. -/
def Current (s : Sys) : Prop :=
  ∀ q, (s.proc q).Live → q ≠ s.initproc →
    ∃ r, r ≠ q ∧ (s.proc r).state ≠ .unused ∧ (s.proc r).pgdir = (s.proc q).parentPgdir

theorem Booted.current (h : Booted L s) : Current s := by
  intro q hq hqi
  rw [h.fresh.others q hqi] at hq
  exact absurd rfl hq.1

theorem Returns.current {a : Act} {r : Int} (hacc : Accounted L s) (h : Current s)
    (hok : KeepsParents L s (p, a)) (hret : Returns L s p a r s') : Current s' := by
  have hinit := hret.initproc
  cases hret.remapped hacc hok.1 with
  | steady hst hlive hpar =>
    intro q hq hqi
    obtain ⟨r, hrq, hr, hdir⟩ := h q (hlive q hq) (hinit ▸ hqi)
    obtain ⟨hr', hdir'⟩ := hst.dir hr
    exact ⟨r, hrq, hr', by rw [hdir', hpar q]; exact hdir⟩
  | @forked np k d _ hf hm =>
    obtain ⟨o, ho⟩ := hf.proc
    have hother : ∀ r, r ≠ np → s'.proc r = s.proc r := by
      intro r hr
      rw [ho, Function.update_of_ne hr]
    intro q hq hqi
    by_cases hqn : q = np
    · have hpn : p ≠ np := fun he => hret.inUse (he ▸ hf.free)
      refine ⟨p, hqn ▸ hpn, ?_, ?_⟩
      · rw [hother p hpn]
        exact hret.inUse
      · rw [hother p hpn, hqn, ho, Function.update_self]
        rfl
    · rw [hother q hqn] at hq ⊢
      obtain ⟨r, hrq, hr, hdir⟩ := h q hq (hinit ▸ hqi)
      have hrn : r ≠ np := fun he => hr (he ▸ hf.free)
      exact ⟨r, hrq, by rw [hother r hrn]; exact hr, by rw [hother r hrn]; exact hdir⟩
  | resized hr hm =>
    obtain ⟨sz, _, hproc⟩ := hr.mem
    have hsame : ∀ r, (s'.proc r).state = (s.proc r).state ∧
        (s'.proc r).pgdir = (s.proc r).pgdir ∧
        (s'.proc r).parentPgdir = (s.proc r).parentPgdir := by
      intro r
      rw [hproc, Function.update_apply]
      split
      · rename_i heq
        rw [heq]
        exact ⟨rfl, rfl, rfl⟩
      · exact ⟨rfl, rfl, rfl⟩
    intro q hq hqi
    unfold Proc.Live at hq
    rw [(hsame q).1] at hq
    obtain ⟨r, hrq, hr', hdir⟩ := h q hq (hinit ▸ hqi)
    refine ⟨r, hrq, by rw [(hsame r).1]; exact hr', ?_⟩
    rw [(hsame r).2.1, (hsame q).2.2]
    exact hdir
  | execed _ hm hx hproc =>
    have hother : ∀ r, r ≠ p → s'.proc r = s.proc r := by
      intro r hr
      rw [hproc, Function.update_of_ne hr]
    have hlive := hret.live
    intro q hq hqi
    by_cases hqp : q = p
    · -- the caller keeps its `parent_pgdir`, and that is not its own
      subst hqp
      obtain ⟨r, hrq, hr, hdir⟩ := h q hlive (hinit ▸ hqi)
      refine ⟨r, hrq, by rw [hother r hrq]; exact hr, ?_⟩
      rw [hother r hrq, hproc, Function.update_self]
      exact hdir
    · rw [hother q hqp] at hq ⊢
      obtain ⟨r, hrq, hr, hdir⟩ := h q hq (hinit ▸ hqi)
      have hrp : r ≠ p := fun he => hok.2.1 q hq (by rw [← hdir, he])
      exact ⟨r, hrq, by rw [hother r hrp]; exact hr, by rw [hother r hrp]; exact hdir⟩
  | @reaped z _ hr _ =>
    have hother : ∀ r, r ≠ z → s'.proc r = s.proc r := by
      intro r hne
      rw [hr.proc, Function.update_of_ne hne]
    intro q hq hqi
    have hqz : q ≠ z := by
      intro he
      rw [he, hr.proc, Function.update_self] at hq
      exact hq.1 rfl
    rw [hother q hqz] at hq ⊢
    obtain ⟨r, hrq, hr', hdir⟩ := h q hq (hinit ▸ hqi)
    have hrz : r ≠ z := fun he =>
      hok.2 z ⟨⟨hr.child, hr.zombie⟩, hr.least⟩ q hq (by rw [← hdir, he])
    exact ⟨r, hrq, by rw [hother r hrz]; exact hr', by rw [hother r hrz]; exact hdir⟩

theorem Run.current (h : Run L (KeepsParents L) s) : Accounted L s ∧ Current s := by
  refine h.invariant (I := fun s => Accounted L s ∧ Current s)
    (fun s hs => ⟨hs.fresh.accounted, hs.current⟩) (fun s c s' hI hok hstep => ?_)
  obtain ⟨r, hret⟩ := hstep
  exact ⟨hret.accounted hI.1 hok.1, hret.current hI.1 hI.2 hok⟩

/-- **`parent_pgdir` is current whenever it is walked**, in every run whose steps
give up no directory that a running process has in `parent_pgdir`. When `exec`
loaded a program and `access_shared_memory` has something to do, `parent_pgdir` is
the page directory of a process that was not reaped, and whatever ends up in the
window is the frame that process has at the shared address. -/
theorem parent_pgdir_current {path : Option CString} {file : Option (List UInt8)}
    {argv : List CString} {d sz entry : Nat} {σ₁ : Phys} (h : Run L (KeepsParents L) s)
    (hp : (s.proc p).state = .runnable) (hok : KeepsParents L s (p, .exec path file argv))
    (hload : execLoad L file s.phys = .ok (some (d, sz, entry), σ₁))
    (hask : asksSharing argv = true) (hsome : SharesSomething (s.proc p).shared) :
    ∃ r, (s.proc r).state ≠ .unused ∧ (s.proc r).pgdir = (s.proc p).parentPgdir ∧
      ∀ res es σ₂, execShare L (s.proc p) d argv σ₁ = .ok ((res, es), σ₂) →
        FromParent s.phys.mem σ₂.mem (s.proc r).pgdir d 262144 (s.proc p).shared.entries := by
  obtain ⟨hacc, hcur⟩ := h.current
  have hlive := live_of_runnable hp
  obtain ⟨r, _, hr, hdir⟩ := hcur p hlive (hok.2.2 hask hsome)
  refine ⟨r, hr, hdir, fun res es σ₂ hshare => ?_⟩
  have hs : Shares L s p file argv d sz entry σ₁ res es σ₂ := ⟨hload, hshare⟩
  have hm := hs.memory hacc (hok.1.ne hs)
  have hmem : (s.proc p).parentPgdir ∈ named s.space := hdir ▸ Accounted.dir_mem hr
  obtain ⟨hno, _⟩ | ⟨_, haccess⟩ := hm.shared
  · rw [hask] at hno
    cases hno
  · rw [hdir]
    refine (haccess.fromParent ⟨Set.mem_insert_of_mem d hmem, fun he => hm.fresh (he ▸ hmem)⟩
      (fun x h1 h2 => ?_)).congr (hm.loaded _ hmem).2
    rw [hm.window x h1 (by omega)]
    exact kmapPte_user hacc.data_lt h2

/-! ## Runs -/

theorem keepsParents_early (s : Sys) (c : Slot × Act) (h : c.2.Early) : KeepsParents L s c := by
  obtain ⟨p, a⟩ := c
  have hfit : SharingFits L s (p, a) := by
    refine sharingFits_of_ne fun path file argv ha => ?_
    rw [ha] at h
    exact h
  cases a with
  | exec _ _ _ => exact h.elim
  | wait => exact h.elim
  | _ => exact ⟨hfit, trivial⟩

theorem parent_pgdir_current_smallKernel : ∃ s p d sz entry σ₁,
    Run smallKernel (KeepsParents smallKernel) s ∧
    execLoad smallKernel (some emptyElf) s.phys = .ok (some (d, sz, entry), σ₁) ∧
    SharesSomething (s.proc p).shared ∧
    ∃ r, (s.proc r).state ≠ .unused ∧ (s.proc r).pgdir = (s.proc p).parentPgdir ∧
      ∀ res es σ₂, execShare smallKernel (s.proc p) d [commaArg] σ₁ = .ok ((res, es), σ₂) →
        FromParent s.phys.mem σ₂.mem (s.proc r).pgdir d 262144 (s.proc p).shared.entries := by
  have hparent : ∃ a s, Parent smallKernel (KeepsParents smallKernel) 4096 4096 a s :=
    exists_parent (by decide) keepsParents_early (by decide) (by decide)
  obtain ⟨a, s, hs⟩ := hparent
  have hroom := hs.free
  obtain ⟨s', hc⟩ := hs.exec (by decide) (by decide)
  obtain ⟨d, σ₁, hload, _⟩ := execLoad_emptyElf hs.accounted.sound (by omega)
  have hsome : SharesSomething (s.proc a).shared := by
    rw [hs.table a (Or.inl rfl)]
    exact ⟨Shared.make nameA 4096 4096, rfl, by decide⟩
  have hok : KeepsParents smallKernel s (a, .exec (some nameA) (some emptyElf) [commaArg]) := by
    refine ⟨hc.fits, fun q hq he => ?_, fun _ _ => hs.ne⟩
    by_cases hqa : q = a
    · rw [hqa, hs.parentPgdir] at he
      exact hs.accounted.dir_ne hs.child.inUse hs.init.inUse hs.ne.symm he
    · by_cases hqi : q = s.initproc
      · rw [hqi, hs.initPgdir] at he
        have hzero : (s.proc a).pgdir = 0 := he.symm
        have hpos := (hs.accounted.sound.ram_dir (Accounted.dir_mem hs.child.inUse)).pos
        omega
      · rw [hs.others q hqa hqi] at hq
        exact hq.1 rfl
  exact ⟨s, a, d, 0, 0, σ₁, hs.run, hload, hsome,
    parent_pgdir_current hs.run hs.child.runnable hok hload (by decide) hsome⟩

/-- The child of init forks, exits and is reaped. Its own child is about to share,
and no process has the page directory it will walk. -/
theorem parent_pgdir_stale : ∃ s p d sz entry σ₁, Run smallKernel (fun _ _ => True) s ∧
    (s.proc p).state = .runnable ∧
    execLoad smallKernel (some emptyElf) s.phys = .ok (some (d, sz, entry), σ₁) ∧
    asksSharing [commaArg] = true ∧ SharesSomething (s.proc p).shared ∧
    ∀ r, (s.proc r).state ≠ .unused → (s.proc r).pgdir ≠ (s.proc p).parentPgdir := by
  have hparent : ∃ a s, Parent smallKernel (fun _ _ => True) 0 4 a s :=
    exists_parent (by decide) (fun _ _ _ => trivial) (by decide) (by decide)
  obtain ⟨a, s, hs⟩ := hparent
  have hroom := hs.free
  obtain ⟨q, hq⟩ := hs.exists_unused
  -- the child forks
  obtain ⟨c, k, d, s₁, hret₁, hf, hlen₁⟩ := fork_returns hs.accounted hs.child hq (by
    rw [hs.sz a (Or.inl rfl)]
    omega)
  rw [hs.sz a (Or.inl rfl)] at hlen₁
  have hacc₁ := hret₁.accounted hs.accounted (sharingFits_of_ne fun _ _ _ => Act.noConfusion)
  have hm := hf.memory hs.accounted hs.child.inUse
  obtain ⟨o, ho⟩ := hf.proc
  have hca : c ≠ a := fun he => hs.child.inUse (he ▸ hf.free)
  have hci : c ≠ s.initproc := fun he => hs.init.inUse (he ▸ hf.free)
  have hother : ∀ r, r ≠ c → s₁.proc r = s.proc r := by
    intro r hr
    rw [ho, Function.update_of_ne hr]
  have hself : s₁.proc c = childOf (s.proc a) (s.proc c) a s.nextpid k d o := by
    rw [ho, Function.update_self]
  have hr₁ : Ready s₁ a := by
    refine hs.child.congr (by rw [hother a hca.symm]) (by rw [hother a hca.symm])
      (by rw [hother a hca.symm]) (by rw [hother a hca.symm]) (fun v hv => ?_)
    rw [hs.sz a (Or.inl rfl)] at hv
    exact (hm.same _ (Accounted.dir_mem hs.child.inUse)).2 v (by omega)
  -- exits, and is reaped
  obtain ⟨s₂, s₃, hg⟩ := exit_reaped hacc₁ hr₁ (by rw [hf.initproc]; exact hs.ne)
    (by rw [hf.initproc, hother _ hci.symm]; exact hs.init.runnable)
    (by rw [hf.initproc, hother a hca.symm]; exact hs.parent) (fun r => by
      by_cases hrc : r = c
      · rw [hrc, hself]
        exact ProcState.noConfusion
      · rw [hother r hrc]
        exact hs.noZombie r)
  have hlen₃ := hg.free
  obtain ⟨d', σ', hload, _⟩ := execLoad_emptyElf hg.accounted.sound (by omega)
  have hself₃ := hg.others c hca
  refine ⟨s₃, c, d', 0, 0, σ', ?_, ?_, hload, by decide, ?_, fun r hr => ?_⟩
  · exact ((hs.run.step hret₁ trivial).step hg.exits trivial).step hg.waits trivial
  · rw [hself₃, hself]
    rfl
  · rw [hself₃, hself]
    show SharesSomething (forkTable (s.proc a).shared (s.proc c).shared)
    rw [hs.others c hca hci, hs.table a (Or.inl rfl)]
    show SharesSomething (forkTable (oneRegion 0 4) Table.zero)
    rw [fork_oneRegion (by decide)]
    exact ⟨Shared.make nameA 0 4, rfl, by decide⟩
  · -- the directory is the one the reaped process had
    have hra : r ≠ a := fun he => hr (he ▸ hg.unused)
    have hdir : (s₃.proc c).parentPgdir = (s₁.proc a).pgdir := by
      rw [hself₃, hself, hother a hca.symm]
      rfl
    rw [hdir, hg.others r hra]
    rw [hg.others r hra] at hr
    exact hacc₁.dir_ne hr₁.inUse hr hra

end

end Xv6Sharing.Process
