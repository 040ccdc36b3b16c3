/-
Xv6Sharing.Process.Progress — calls that return.

The lists of CallTheorems say what a call did if it returned. Here: when the
frames are accounted for and enough of them are free, `fork`, `exit`,
`wait`, `sbrk` and `exec` do return, and with success. With these lemmas runs
can be built step by step; what each step left is then read off its effect.

The processes of such runs have no open files.
-/
import Xv6Sharing.Process.BootTheorems

namespace Xv6Sharing.Process

open Lib Vm Share

/-- No error is allowed: for calls that return. -/
def noPanic : Panic → Prop := fun _ => False

section

variable {L : Layout} {s s' : Sys} {p q : Slot}

/-- Process `p` is runnable, has no open file, and all pages below its size. -/
structure Ready (s : Sys) (p : Slot) : Prop where
  runnable : (s.proc p).state = .runnable
  files : ∀ fd, (s.proc p).ofile fd = none
  pages : ∀ v, v * 4096 < (s.proc p).sz → pteAt s.phys.mem (s.proc p).pgdir v ≠ none

theorem Fresh.ready (h : Fresh L s) : Ready s s.initproc := by
  obtain ⟨d, k, hinit⟩ := h.init
  obtain ⟨f, hpage⟩ := h.page
  refine ⟨by rw [hinit]; rfl, fun fd => by rw [hinit]; rfl, fun v hv => ?_⟩
  have hv0 : v = 0 := by
    rw [hinit] at hv
    have : v * 4096 < 4096 := hv
    omega
  rw [hv0, hpage]
  exact Option.some_ne_none _

theorem Ready.inUse (h : Ready s p) : (s.proc p).state ≠ .unused := by
  rw [h.runnable]
  exact ProcState.noConfusion

theorem Ready.congr (h : Ready s p) (hstate : (s'.proc p).state = (s.proc p).state)
    (hfiles : (s'.proc p).ofile = (s.proc p).ofile) (hsz : (s'.proc p).sz = (s.proc p).sz)
    (hdir : (s'.proc p).pgdir = (s.proc p).pgdir)
    (hpte : ∀ v, v * 4096 < (s.proc p).sz →
      pteAt s'.phys.mem (s.proc p).pgdir v = pteAt s.phys.mem (s.proc p).pgdir v) :
    Ready s' p := by
  refine ⟨hstate.trans h.runnable, fun fd => by rw [hfiles]; exact h.files fd, fun v hv => ?_⟩
  rw [hsz] at hv
  rw [hdir, hpte v hv]
  exact h.pages v hv

theorem Run.step {ok : Sys → Slot × Act → Prop} {a : Act} {r : Int} (h : Run L ok s)
    (hret : Returns L s p a r s') (hok : ok s (p, a)) : Run L ok s' :=
  .next (a := (p, a)) h hok ⟨r, hret⟩

/-- A total specification of a call gives a step. -/
theorem Returns.of_spec {a : Act} {r : Int} {Q : Sys → Prop} (hp : (s.proc p).state = .runnable)
    (h : Spec noPanic (a.run L p) s (fun v s' => v = some r ∧ Q s')) :
    ∃ s', Returns L s p a r s' ∧ Q s' := by
  obtain ⟨v, s', hrun, rfl, hQ⟩ := h.total
  exact ⟨s', ⟨hp, hrun⟩, hQ⟩

/-! ## `fork` -/

theorem dupFiles_none {np : Slot} (fds : List Fd) (h : ∀ fd, (s.proc p).ofile fd = none) :
    dupFiles p np fds s = .ok ((), s) := by
  induction fds with
  | nil => rfl
  | cons fd fds ih =>
    unfold dupFiles
    rw [bind_ok (get_run s), h fd]
    exact ih

/-- `fork` makes a child when a slot and enough frames are free. -/
theorem fork_returns (h : Accounted L s) (hr : Ready s p) (hslot : (s.proc q).state = .unused)
    (hfree : 514 + 2 * (((s.proc p).sz + 4095) / 4096) < s.phys.freelist.length) :
    ∃ np k d s', Returns L s p .fork s.nextpid s' ∧ Forked L s p np k d s' ∧
      s.phys.freelist.length ≤
        s'.phys.freelist.length + 514 + 2 * (((s.proc p).sz + 4095) / 4096) := by
  suffices hret : ∃ s', Returns L s p .fork s.nextpid s' ∧ s.phys.freelist.length ≤
      s'.phys.freelist.length + 514 + 2 * (((s.proc p).sz + 4095) / 4096) by
    obtain ⟨s', hret, hlen⟩ := hret
    obtain ⟨np, k, d, _, hf⟩ := hret.forked (Int.natCast_nonneg _)
    exact ⟨np, k, d, s', hret, hf, hlen⟩
  refine Returns.of_spec hr.runnable ?_
  refine Spec.seq (Q := fun (r : Int) (s' : Sys) => r = s.nextpid ∧ s.phys.freelist.length ≤
    s'.phys.freelist.length + 514 + 2 * (((s.proc p).sz + 4095) / 4096)) ?_
    (fun r s' hs' => Spec.pure ⟨by rw [hs'.1], hs'.2⟩)
  unfold fork
  refine Spec.seq allocproc_cases (fun r s₁ h₁ => ?_)
  obtain ⟨_, ⟨_, hall, _⟩ | ⟨np, _, _, hempty, _⟩ |
    ⟨np, k, rest, rfl, hnp, hlist, _, hphys, hproc⟩⟩ := h₁
  · exact absurd hslot (hall q)
  · rw [hempty] at hfree
    exact absurd hfree (Nat.not_lt_zero _)
  have hne : p ≠ np := fun he => hr.inUse (he ▸ hnp.unused)
  have hcur : s₁.proc p = s.proc p := by
    rw [hproc, Function.update_of_ne hne]
  have hlen : s.phys.freelist.length = s₁.phys.freelist.length + 1 := by
    rw [hlist, hphys]
    rfl
  have hsound : Sound L (named s.space) (insert k (named s.holder)) s₁.phys := by
    have := h.sound
    unfold Sound at this
    rw [hlist] at this
    rw [hphys]
    exact this.kalloc
  refine Spec.seq_ok (get_run s₁) ?_
  dsimp only
  rw [hcur]
  refine Spec.seq (Spec.lift (copyuvm_spec hsound (Accounted.dir_mem hr.inUse)
    (h.sizes p hr.inUse).1 (fun x hx hnone => ?_))) (fun r s₂ h₂ => ?_)
  · rw [hphys] at hnone
    exact absurd hnone (hr.pages x hx)
  obtain ⟨σ, rfl, _, ⟨rfl, _, hfew⟩ | ⟨d, rfl, _, _, _, _, _, hlen'⟩⟩ := h₂
  · omega
  refine Spec.seq_ok (setProc_run np _ _) ?_
  refine Spec.seq_ok (dupFiles_none _ (fun fd => ?_)) ?_
  · rw [withProc_proc, Function.update_of_ne hne, withPhys_proc, hcur]
    exact hr.files fd
  · refine Spec.seq_ok (setProc_run np _ _) ?_
    refine Spec.pure ⟨?_, ?_⟩
    · rw [hproc, Function.update_self]
    · show s.phys.freelist.length ≤ σ.freelist.length + 514 + _
      omega

/-- The child of a ready process is ready, when no file was left in its slot. -/
theorem Forked.ready {np : Slot} {k d : Nat} (h : Accounted L s) (hf : Forked L s p np k d s')
    (hr : Ready s p) (hfiles : ∀ fd, (s.proc np).ofile fd = none) : Ready s' np := by
  have hm := hf.memory h hr.inUse
  obtain ⟨o, hproc⟩ := hf.proc
  have hself : s'.proc np = childOf (s.proc p) (s.proc np) p s.nextpid k d o := by
    rw [hproc, Function.update_self]
  refine ⟨by rw [hself]; rfl, fun fd => ?_, fun v hv => ?_⟩
  · rw [hf.files fd, hr.files fd, hfiles fd]
    rfl
  · rw [hself] at hv ⊢
    obtain ⟨w, f, _, hw⟩ := hm.copied v hv
    show pteAt s'.phys.mem d v ≠ none
    rw [hw]
    exact Option.some_ne_none _

/-- The steps that are no `exec` map nothing into a window. -/
theorem sharingFits_of_ne {a : Act} (h : ∀ path file argv, a ≠ .exec path file argv) :
    SharingFits L s (p, a) :=
  fun path file argv ha => absurd ha (h path file argv)

/-! ## `share_data` -/

theorem shareData_returns (hp : (s.proc p).state = .runnable) (name : Option CString)
    (addr : Option Nat) (size : Option Int) : Returns L s p (.shareData name addr size)
      (sysShareData (s.proc p).sz (s.proc p).shared name addr size).1
      (s.withProc p { s.proc p with
        shared := (sysShareData (s.proc p).sz (s.proc p).shared name addr size).2 }) :=
  ⟨hp, rfl⟩

/-! ## `exit` and `wait` -/

theorem closeFiles_none (fds : List Fd) (h : ∀ fd, (s.proc p).ofile fd = none) :
    closeFiles L p fds s = .ok ((), s) := by
  induction fds with
  | nil => rfl
  | cons fd fds ih =>
    unfold closeFiles
    rw [bind_ok (get_run s), h fd]
    exact ih

theorem exit_returns (h : Accounted L s) (hr : Ready s p) (hinit : p ≠ s.initproc) :
    ∃ s', Returns L s p .exit 0 s' ∧ Exited L s p s' ∧ s'.phys = s.phys := by
  suffices hret : ∃ s', Returns L s p .exit 0 s' ∧ s'.phys = s.phys by
    obtain ⟨s', hret, hphys⟩ := hret
    exact ⟨s', hret, hret.exited, hphys⟩
  refine Returns.of_spec hr.runnable ?_
  refine Spec.seq (Q := fun _ (s' : Sys) => s'.phys = s.phys) ?_
    (fun _ s' hs' => Spec.pure ⟨rfl, hs'⟩)
  unfold exit
  refine Spec.seq_ok (get_run s) ?_
  rw [if_neg hinit, if_neg (h.parented p hr.inUse hinit)]
  refine Spec.seq_ok (closeFiles_none _ hr.files) ?_
  refine Spec.seq_ok (onPhys_ok (pure_run () s.phys)) ?_
  refine Spec.seq_ok (setProc_run p _ _) ?_
  refine Spec.seq_ok (modify_run _ _) ?_
  exact Spec.of_ok (setProc_run p _ _) rfl

theorem wait_returns (h : Accounted L s) (hp : (s.proc p).state = .runnable)
    (hchild : (s.proc q).parent = some p) (hzombie : (s.proc q).state = .zombie) :
    ∃ q' s', Returns L s p .wait ((s.proc q').pid : Int) s' ∧ Reaped L s p q' s' ∧
      s.phys.freelist.length ≤ s'.phys.freelist.length := by
  cases hfind : (List.finRange 64).find? fun q =>
      decide ((s.proc q).parent = some p ∧ (s.proc q).state = .zombie) with
  | none =>
    have := List.find?_eq_none.mp hfind q (List.mem_finRange q)
    simp [hchild, hzombie] at this
  | some q' =>
    obtain ⟨⟨hpar, hz⟩, hleast⟩ := find_least hfind
    have hin : (s.proc q').state ≠ .unused := by
      rw [hz]
      exact ProcState.noConfusion
    have hX := Accounted.stack_mem (s := s) hin
    have hsound : Sound L (named s.space) (named s.holder \ {(s.proc q').kstack})
        ⟨junkPage s.phys.mem (s.proc q').kstack s.phys.freelist,
          (s.proc q').kstack :: s.phys.freelist⟩ := h.sound.kfree hX
    obtain ⟨_, σ, hfreevm, _, _, hsuffix⟩ := (freevm_spec (E := noPanic) hsound
      (Accounted.dir_mem hin)).total
    refine ⟨q', Returns.of_spec hp ?_⟩
    show Spec noPanic (wait L p) s _
    unfold wait
    refine Spec.seq_ok (get_run s) ?_
    rw [hfind]
    dsimp only
    refine Spec.seq (Q := fun _ s' => Reaped L s p q' s' ∧
      s.phys.freelist.length ≤ s'.phys.freelist.length) ?_
      (fun _ s' hs' => Spec.pure ⟨rfl, hs'⟩)
    unfold reap
    refine Spec.seq_ok (get_run s) ?_
    refine Spec.seq_ok (onPhys_ok (kfree_run (h.sound.ram_other hX) _)) ?_
    refine Spec.seq_ok (onPhys_ok hfreevm) ?_
    refine Spec.of_ok (setProc_run q' _ _) ⟨⟨hpar, hz, hleast, ⟨_, kfree_run (h.sound.ram_other hX) _,
      hfreevm⟩, rfl, ⟨rfl, rfl, rfl, rfl, rfl, rfl⟩, rfl⟩, ?_⟩
    have := hsuffix.length_le
    exact le_trans (Nat.le_succ _) this

/-- A child of init exits and is reaped: its slot is unused, and the other
processes are as before, but for their parents. -/
structure Gone (L : Layout) (s : Sys) (a : Slot) (s₁ s₂ : Sys) : Prop where
  exits : Returns L s a .exit 0 s₁
  waits : Returns L s₁ s.initproc .wait ((s₁.proc a).pid : Int) s₂
  accounted : Accounted L s₂
  unused : (s₂.proc a).state = .unused
  shared : (s₂.proc a).shared = exitTable (s.proc a).shared
  others : ∀ q, q ≠ a →
    s₂.proc q = { s.proc q with parent := s.adopted a (s.proc q).parent }
  tables : ∀ q, q ≠ a → (s.proc q).state ≠ .unused → ∀ v < 1048576,
    pteAt s₂.phys.mem (s.proc q).pgdir v = pteAt s.phys.mem (s.proc q).pgdir v
  initproc : s₂.initproc = s.initproc
  nextpid : s₂.nextpid = s.nextpid
  free : s.phys.freelist.length ≤ s₂.phys.freelist.length

theorem exit_reaped {a : Slot} (h : Accounted L s) (hr : Ready s a) (hne : a ≠ s.initproc)
    (hinit : (s.proc s.initproc).state = .runnable)
    (hparent : (s.proc a).parent = some s.initproc) (hz : ∀ q, (s.proc q).state ≠ .zombie) :
    ∃ s₁ s₂, Gone L s a s₁ s₂ := by
  obtain ⟨s₁, hret₁, hx, hphys₁⟩ := exit_returns h hr hne
  have hacc₁ := hret₁.accounted h (fun _ _ _ ha => absurd ha Act.noConfusion)
  obtain ⟨o, hself₁⟩ := hx.self
  have hrun₁ : (s₁.proc s.initproc).state = .runnable := by
    rw [hx.others _ hne.symm]
    exact hinit
  have hparent₁ : (s₁.proc a).parent = some s.initproc := by
    rw [hself₁]
    show s.adopted a (s.proc a).parent = _
    unfold Sys.adopted
    rw [hparent, if_neg (fun hc => hne (Option.some.inj hc).symm)]
  have hzombie₁ : (s₁.proc a).state = .zombie := by rw [hself₁]
  have hin₁ : (s₁.proc a).state ≠ .unused := by rw [hzombie₁]; exact ProcState.noConfusion
  obtain ⟨q, s₂, hret₂, hre, hlen⟩ := wait_returns hacc₁ hrun₁ hparent₁ hzombie₁
  -- there is no other zombie
  have hq : q = a := by
    by_contra hqa
    have := hre.zombie
    rw [hx.others q hqa] at this
    exact hz q this
  subst hq
  refine ⟨s₁, s₂, hret₁, hret₂, hret₂.accounted hacc₁ (fun _ _ _ ha => absurd ha Act.noConfusion),
    ?_, ?_, ?_, ?_, ?_, ?_, ?_⟩
  · rw [hre.proc, Function.update_self]
  · rw [hre.proc, Function.update_self]
    show (s₁.proc q).shared = _
    rw [hself₁]
  · intro r hr'
    rw [hre.proc, Function.update_of_ne hr', hx.others r hr']
  · intro r hr' hin v hv
    have hdir : (s₁.proc r).pgdir = (s.proc r).pgdir := by rw [hx.others r hr']
    have hin' : (s₁.proc r).state ≠ .unused := by rw [hx.others r hr']; exact hin
    rw [← hdir, ((hre.memory hacc₁).2 _
      ⟨Accounted.dir_mem hin', hacc₁.dir_ne hin₁ hin' hr'⟩).2 v hv, hphys₁]
  · exact hre.rest.initproc.trans hx.initproc
  · exact hre.nextpid.trans hx.nextpid
  · rw [hphys₁] at hlen
    exact hlen

/-! ## `sbrk` -/

theorem addSz_eq {sz : Nat} {n : Int} (h0 : 0 ≤ (sz : Int) + n) (h1 : (sz : Int) + n < 2 ^ 32) :
    addSz sz n = ((sz : Int) + n).toNat := by
  show (((sz : Int) + n) % 2 ^ 32).toNat = _
  rw [Int.emod_eq_of_lt h0 h1]

/-- The machine after a successful `sbrk` of `p` that ended in memory `σ`. -/
def Sys.resized (s : Sys) (p : Slot) (σ : Phys) (sz : Nat) : Sys :=
  (s.withPhys σ).withProc p { s.proc p with sz := sz }

@[simp] theorem resized_proc (s : Sys) (p : Slot) (σ : Phys) (sz : Nat) :
    (s.resized p σ sz).proc p = { s.proc p with sz := sz } := by
  show Function.update s.proc p _ p = _
  rw [Function.update_self]

/-- `growproc` returns what its memory code says; the size 0 stands for failure. -/
theorem growproc_of_run {n : Int} {σ : Phys} {sz : Nat} (hn : n ≠ 0)
    (hrun : (if n > 0 then allocuvm L (s.proc p).pgdir (s.proc p).sz (addSz (s.proc p).sz n)
      else deallocuvm L (s.proc p).pgdir (s.proc p).sz (addSz (s.proc p).sz n)) s.phys
        = .ok (sz, σ)) :
    growproc L p n s
      = .ok (if sz = 0 then (-1, s.withPhys σ) else (0, s.resized p σ sz)) := by
  -- both branches end in the same test and assignment
  have hset : ∀ c : Kern Nat, c s.phys = .ok (sz, σ) → (do
        let sz ← onPhys c
        if sz = 0 then return (-1 : Int)
        else
          setProc p fun q => { q with sz := sz }
          return 0) s = .ok (if sz = 0 then (-1, s.withPhys σ) else (0, s.resized p σ sz)) := by
    intro c hc
    rw [bind_ok (onPhys_ok hc)]
    by_cases hz : sz = 0
    · rw [if_pos hz, if_pos hz]
      rfl
    · rw [if_neg hz, if_neg hz, bind_ok (setProc_run p _ _)]
      rfl
  unfold growproc
  rw [bind_ok (get_run s)]
  by_cases hpos : n > 0
  · rw [if_pos hpos] at hrun ⊢
    exact hset _ hrun
  · rw [if_neg hpos] at hrun ⊢
    rw [if_pos (by omega)]
    exact hset _ hrun

/-- `sbrk` returns the old size when the memory code succeeded. -/
theorem sbrk_of_run {n : Int} {σ : Phys} {sz : Nat} (hp : (s.proc p).state = .runnable)
    (hn : n ≠ 0) (hsz : sz ≠ 0)
    (hrun : (if n > 0 then allocuvm L (s.proc p).pgdir (s.proc p).sz (addSz (s.proc p).sz n)
      else deallocuvm L (s.proc p).pgdir (s.proc p).sz (addSz (s.proc p).sz n)) s.phys
        = .ok (sz, σ)) :
    Returns L s p (.sbrk (some n)) (s.proc p).sz (s.resized p σ sz) ∧
      Resized L s p n (s.resized p σ sz) := by
  have hgrow := growproc_of_run hn hrun
  rw [if_neg hsz] at hgrow
  refine ⟨⟨hp, ?_⟩, ⟨sz, hrun, by rw [if_neg hsz]; rfl⟩, ⟨rfl, rfl, rfl, rfl, rfl, rfl⟩⟩
  show (sysSbrk L p (some n) >>= fun r => pure (some r)) s = _
  have hsbrk : sysSbrk L p (some n) s = .ok ((s.proc p).sz, s.resized p σ sz) := by
    unfold sysSbrk
    rw [bind_ok (get_run s)]
    dsimp only
    rw [bind_ok hgrow, if_neg (by decide)]
    rfl
  rw [bind_ok hsbrk]
  rfl

/-- `sbrk` that grows a process, with frames to spare. -/
theorem sbrk_grows {n : Int} (h : Accounted L s) (hr : Ready s p) (hn : 0 < n)
    (hfit : ((s.proc p).sz : Int) + n < sharedbase)
    (hfree : 2 * (((s.proc p).sz + n.toNat + 4095) / 4096) ≤ s.phys.freelist.length) :
    ∃ σ, Returns L s p (.sbrk (some n)) (s.proc p).sz (s.resized p σ ((s.proc p).sz + n.toNat)) ∧
      Filled (s.proc p).pgdir (((s.proc p).sz + 4095) / 4096) ((s.proc p).sz + n.toNat)
        s.phys σ ∧
      s.phys.freelist.length ≤
        σ.freelist.length + 2 * (((s.proc p).sz + n.toNat + 4095) / 4096) := by
  unfold sharedbase at hfit
  have hnew : addSz (s.proc p).sz n = (s.proc p).sz + n.toNat := by
    rw [addSz_eq (by omega) (by omega)]
    omega
  obtain ⟨_, hnone⟩ := h.sizes p hr.inUse
  have habove : ∀ x, ((s.proc p).sz + 4095) / 4096 ≤ x → x * 4096 < (s.proc p).sz + n.toNat →
      (s.proc p).sz + n.toNat < sharedbase → pteAt s.phys.mem (s.proc p).pgdir x ≠ none →
      noPanic .remap :=
    fun x h1 h2 _ hne => hne (hnone x (by omega) (by omega))
  obtain ⟨r, σ, hrun, _, _, hcase⟩ :=
    (allocuvm_spec h.sound (Accounted.dir_mem hr.inUse) habove).total
  unfold sharedbase at hcase
  obtain ⟨hge, _⟩ | ⟨_, hlt, _⟩ | ⟨_, _, rfl, hfill, hlen⟩ | ⟨_, _, _, hfew, _⟩ := hcase
  · omega
  · omega
  · refine ⟨σ, (sbrk_of_run hr.runnable (by omega) (by omega) ?_).1, hfill, by omega⟩
    rw [if_pos hn, hnew]
    exact hrun
  · omega

/-- `sbrk` that takes memory away, but not all of it: the frames are free
afterwards. -/
theorem sbrk_shrinks {n : Int} (h : Accounted L s) (hp : (s.proc p).state = .runnable) (hn : n < 0)
    (hleft : 0 < ((s.proc p).sz : Int) + n) :
    ∃ σ, Returns L s p (.sbrk (some n)) (s.proc p).sz
        (s.resized p σ (((s.proc p).sz : Int) + n).toNat) ∧
      Resized L s p n (s.resized p σ (((s.proc p).sz : Int) + n).toNat) ∧
      ∀ x w, (((s.proc p).sz : Int) + n).toNat ≤ x * 4096 → x * 4096 < (s.proc p).sz →
        pteAt s.phys.mem (s.proc p).pgdir x = some w → pteFrame w ∈ σ.freelist := by
  have hin : (s.proc p).state ≠ .unused := by
    rw [hp]
    exact ProcState.noConfusion
  have hsz := (h.sizes p hin).1
  have hsz' : (s.proc p).sz ≤ 1073741824 := hsz
  have hnew : addSz (s.proc p).sz n = (((s.proc p).sz : Int) + n).toNat :=
    addSz_eq (by omega) (by omega)
  obtain ⟨r, σ, hrun, hmin, hsound, hedit, htabs, _⟩ := (deallocuvm_spec (E := noPanic)
    (((s.proc p).sz : Int) + n).toNat h.sound (Accounted.dir_mem hin) hsz).total
  have hr : r = (((s.proc p).sz : Int) + n).toNat := by omega
  subst hr
  have hrun' : (if n > 0 then allocuvm L (s.proc p).pgdir (s.proc p).sz (addSz (s.proc p).sz n)
      else deallocuvm L (s.proc p).pgdir (s.proc p).sz (addSz (s.proc p).sz n)) s.phys
        = .ok ((((s.proc p).sz : Int) + n).toNat, σ) := by
    rw [if_neg (by omega), hnew]
    exact hrun
  obtain ⟨hret, hres⟩ := sbrk_of_run hp (by omega) (by omega) hrun'
  refine ⟨σ, hret, hres, fun x w h1 h2 hw => ?_⟩
  · exact dropped_free h.sound hsound hedit htabs (Accounted.dir_mem hin) (by omega)
      ⟨by omega, h2⟩ hw

/-! ## `exec` -/

/-- An executable without segments: the magic number and zeros. -/
def emptyElf : List UInt8 := [0x7F, 0x45, 0x4C, 0x46] ++ List.replicate 48 0

theorem readi_emptyElf : readi emptyElf 0 elfhdrSize = some emptyElf := by decide

/-- The empty executable has no segments: `execLoad` does what `setupkvm` does. -/
theorem execLoad_of_setupkvm {σ σ' : Phys} {d : Nat} (h : setupkvm L σ = .ok (some d, σ')) :
    execLoad L (some emptyElf) σ = .ok (some (d, 0, 0), σ') := by
  unfold execLoad
  dsimp only
  rw [readi_emptyElf]
  dsimp only
  rw [if_neg (by decide)]
  refine (bind_ok h).trans ?_
  dsimp only
  rw [show (elfhdr emptyElf).phnum = 0 by decide]
  refine (bind_ok (pure_run (some 0) σ')).trans ?_
  rw [show (elfhdr emptyElf).entry = 0 by decide]
  rfl

theorem execLoad_emptyElf {D X : Set Nat} {σ : Phys} (h : Sound L D X σ)
    (hfree : 513 < σ.freelist.length) :
    ∃ d σ', execLoad L (some emptyElf) σ = .ok (some (d, 0, 0), σ') ∧
      σ.freelist.length ≤ σ'.freelist.length + 513 := by
  obtain ⟨r, σ', hrun, _, hcase⟩ := (setupkvm_spec (E := noPanic) h).total
  obtain ⟨_, _, hfew⟩ | ⟨d, rfl, _, _, _, _, hlen⟩ := hcase
  · omega
  · exact ⟨d, σ', execLoad_of_setupkvm hrun, hlen⟩

/-- The sharing of a table that fits the window, with frames to spare. -/
theorem sharing_returns {file : Option (List UInt8)} {argv : List CString} {d sz entry : Nat}
    {σ₁ : Phys} (h : Accounted L s)
    (hload : execLoad L file s.phys = .ok (some (d, sz, entry), σ₁)) (hargv : argv ≠ [])
    (hpar : (s.proc p).parentPgdir ≠ 0)
    (hfits : totalPages (s.proc p).shared.entries ≤ 262144)
    (hroom : totalPages (s.proc p).shared.entries ≤ σ₁.freelist.length) :
    ∃ res es σ₂, Shares L s p file argv d sz entry σ₁ res es σ₂ ∧ res ≠ .noMemory ∧
      σ₁.freelist.length ≤ σ₂.freelist.length + totalPages (s.proc p).shared.entries := by
  obtain ⟨_, hcase⟩ := (execLoad_spec (E := anyPanic) file h.sound).post hload
  obtain ⟨hnone, _⟩ | ⟨d', sz', entry', heq, _, _, h₁, _, _, hwin⟩ := hcase
  · cases hnone
  cases Option.some.inj heq
  have hspec := execShare_spec (E := noPanic) (q := s.proc p) h₁
    (Set.mem_insert d _) (fun hc => hargv hc) (fun hc => hpar hc) ?_ ?_ (Or.inl hroom)
  · obtain ⟨⟨res, es⟩, σ₂, hrun, ⟨_, hfew⟩ | ⟨hres, _, _, hlen⟩⟩ := hspec.total
    · omega
    · exact ⟨res, es, σ₂, ⟨hload, hrun⟩, hres, hlen⟩
  · rw [hwin 524288 (by decide) (by decide)]
    exact kmapPte_kernbase h.data_lt
  · intro x h1 h2 hne
    rw [hwin x h1 (by omega)] at hne
    exact hne (kmapPte_user h.data_lt (by omega))

theorem exec_commits (path : CString) {file : Option (List UInt8)} {argv : List CString}
    {d sz entry sz' sp : Nat} {res : ShareResult} {es : List Shared} {σ₁ σ₂ σ₃ σ₄ : Phys}
    (hp : (s.proc p).state = .runnable) (hlen : argv.length < 32)
    (hargs : ∀ arg ∈ argv, arg.bytes.length < (s.proc p).sz)
    (hshares : Shares L s p file argv d sz entry σ₁ res es σ₂)
    (hstack : execStack L d sz argv σ₂ = .ok (some (sz', sp), σ₃))
    (hfree : freevm L (s.proc p).pgdir σ₃ = .ok ((), σ₄)) :
    ∃ s', Returns L s p (.exec (some path) file argv) 0 s' ∧ s'.phys = σ₄ ∧
      s'.proc p = execProc (s.proc p) path es d sz' entry sp := by
  have hargs' : ¬ (argv.length ≥ 32 ∨ ∃ arg ∈ argv, arg.bytes.length ≥ (s.proc p).sz) := by
    rintro (hc | ⟨arg, harg, hc⟩)
    · omega
    · exact absurd (hargs arg harg) (by omega)
  refine Returns.of_spec hp ?_
  refine Spec.seq (Q := fun r s' => r = 0 ∧ s'.phys = σ₄ ∧
    s'.proc p = execProc (s.proc p) path es d sz' entry sp) ?_
    (fun r s' hr => Spec.pure ⟨by rw [hr.1], hr.2⟩)
  unfold sysExec
  refine Spec.seq_ok (get_run s) ?_
  dsimp only
  rw [if_neg hargs']
  unfold exec
  refine Spec.seq_ok (onPhys_ok hshares.load) ?_
  refine Spec.seq_ok (get_run _) ?_
  refine Spec.seq_ok (onPhys_ok hshares.share) ?_
  refine Spec.seq_ok (setProc_run p _ _) ?_
  refine Spec.seq_ok (onPhys_ok hstack) ?_
  refine Spec.seq_ok (setProc_run p _ _) ?_
  refine Spec.seq_ok (onPhys_ok hfree) (Spec.pure ⟨rfl, rfl, ?_⟩)
  simp only [Sys.withPhys, Sys.withProc, Function.update_self]
  rfl

/-- `exec` of a program that was loaded, with small arguments and a table whose
regions fit the window. -/
theorem exec_returns (path : CString) {file : Option (List UInt8)} {argv : List CString}
    {d sz entry : Nat} {σ₁ : Phys} (h : Accounted L s) (hp : (s.proc p).state = .runnable)
    (hload : execLoad L file s.phys = .ok (some (d, sz, entry), σ₁)) (hargv : argv ≠ [])
    (hsmall : SmallArgs argv) (hlen : argv.length < 32)
    (hargs : ∀ arg ∈ argv, arg.bytes.length < (s.proc p).sz) (hsz : sz + 16384 ≤ sharedbase)
    (hpar : (s.proc p).parentPgdir ≠ 0)
    (hfits : totalPages (s.proc p).shared.entries ≤ 262144)
    (hroom : totalPages (s.proc p).shared.entries + 4 ≤ σ₁.freelist.length) :
    ∃ s', Returns L s p (.exec (some path) file argv) 0 s' := by
  have hin : (s.proc p).state ≠ .unused := by
    rw [hp]
    exact ProcState.noConfusion
  obtain ⟨res, es, σ₂, hshares, hres, hleft⟩ := sharing_returns h hload hargv hpar
    hfits (by omega)
  have hm := hshares.memory h hres
  have hbound : ∀ arg ∈ argv, arg.bytes.length < sharedbase :=
    fun arg harg => lt_of_lt_of_le (hargs arg harg) (h.sizes p hin).1
  obtain ⟨r, σ₃, hstack, h₃, _, _, hsome⟩ := (execStack_spec (E := noPanic) hm.sound
    (Set.mem_insert d _) hm.image hm.size (hm.kernelOnly h) hlen hbound
    (fun _ => hsmall)).total
  cases r with
  | none => exact absurd rfl (hsome hsmall hsz (by omega))
  | some r =>
    obtain ⟨sz', sp⟩ := r
    obtain ⟨_, σ₄, hfree, _⟩ := (freevm_spec (E := noPanic) h₃
      (Set.mem_insert_of_mem d (Accounted.dir_mem hin))).total
    obtain ⟨s', hret, _⟩ := exec_commits path hp hlen hargs hshares hstack hfree
    exact ⟨s', hret⟩

end

end Xv6Sharing.Process
