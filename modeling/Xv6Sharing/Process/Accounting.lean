/-
Xv6Sharing.Process.Accounting — who holds which page frame.

`Accounted` says that the frames of the machine balance: directories belong
to the kernel or to one process each, stacks, boot stacks and open pipes are
different frames, and with them and the pages of the directories the free
list is sound (`Vm.Sound`). The pipes bring in the file table: an end of a
pipe is open exactly when one entry of the table stands for it (`Ends`), so
the page is freed with the last entry and not before.

Every system call keeps `Accounted`, on every error path, with one
exception: an `exec` whose sharing runs out of memory in the middle
(`SharingFits` excludes it). The proofs take each effect of CallTheorems and
the specification of the memory code it ran.
-/
import Xv6Sharing.Lib.Ledger
import Xv6Sharing.Process.CallTheorems
import Xv6Sharing.Process.ExecTheorems

namespace Xv6Sharing.Process

open Lib Vm Share

/-! ## Holders -/

/-- The owners of a page directory. -/
inductive Space where
  | kernel
  | proc (p : Slot)
  deriving DecidableEq

/-- The page directory of an owner. -/
def Sys.space (s : Sys) : Space → Nat → Prop
  | .kernel, d => d = s.kpgdir
  | .proc p, d => (s.proc p).state ≠ .unused ∧ d = (s.proc p).pgdir

/-- What else takes up frames. -/
inductive Holder where
  | stack (p : Slot)
  | boot (i : Nat)
  | pipe (f : Nat)
  deriving DecidableEq

/-- One of the two ends is open. -/
def Pipe.Open (g : Pipe) : Prop := g.readopen = true ∨ g.writeopen = true

/-- The frame of a holder. -/
def Sys.holder (s : Sys) : Holder → Nat → Prop
  | .stack p, f => (s.proc p).state ≠ .unused ∧ f = (s.proc p).kstack
  | .boot i, f => s.bootStacks[i]? = some f
  | .pipe g, f => f = g ∧ (s.pipe g).Open

/-- One end of a pipe, by the `writable` flag. -/
def Pipe.flag (g : Pipe) (w : Bool) : Bool := if w then g.writeopen else g.readopen

/-- File `i` is the end `e` of a pipe. -/
def Sys.endOf (s : Sys) (i : FileSlot) (e : Nat × Bool) : Prop :=
  (s.file i).type = .pipe ∧ e = ((s.file i).pipe, (s.file i).writable)

/-- The file table and the pipes agree. -/
structure Ends (s : Sys) : Prop where
  naming : Naming s.endOf
  flags : ∀ f w, (s.pipe f).flag w = true ↔ (f, w) ∈ named s.endOf
  closed : ∀ i, (s.file i).ref = 0 → (s.file i).type ≠ .pipe

/-- The frames balance. -/
structure Accounted (L : Layout) (s : Sys) : Prop where
  spaces : Naming s.space
  holders : Naming s.holder
  sound : Sound L (named s.space) (named s.holder) s.phys
  kernel : ∀ d ∈ named s.space, ∀ v, 524288 ≤ v → v < 1048576 →
    pteAt s.phys.mem d v = kmapPte (kmap L) v
  sizes : ∀ p, (s.proc p).state ≠ .unused → (s.proc p).sz ≤ sharedbase ∧
    ∀ v < 262144, (s.proc p).sz ≤ v * 4096 → pteAt s.phys.mem (s.proc p).pgdir v = none
  ends : Ends s
  parented : ∀ p, (s.proc p).state ≠ .unused → p ≠ s.initproc → (s.proc p).parent ≠ none

section

variable {L : Layout} {s s' : Sys} {p : Slot}

theorem Accounted.dir_mem (h : (s.proc p).state ≠ .unused) :
    (s.proc p).pgdir ∈ named s.space := ⟨.proc p, h, rfl⟩

theorem Accounted.stack_mem (h : (s.proc p).state ≠ .unused) :
    (s.proc p).kstack ∈ named s.holder := ⟨.stack p, h, rfl⟩

theorem Accounted.dir_ne (h : Accounted L s) {q : Slot} (hp : (s.proc p).state ≠ .unused)
    (hq : (s.proc q).state ≠ .unused) (hne : q ≠ p) :
    (s.proc q).pgdir ≠ (s.proc p).pgdir := by
  intro he
  have hspace : s.space (.proc q) (s.proc p).pgdir := ⟨hq, he.symm⟩
  have := h.spaces.inj hspace (show s.space (.proc p) (s.proc p).pgdir from ⟨hp, rfl⟩)
  exact hne (Space.proc.inj this)

theorem Accounted.data_lt (h : Accounted L s) : L.data < phystop :=
  Ram.data_lt (h.sound.ram_dir (show s.kpgdir ∈ named s.space from ⟨.kernel, rfl⟩))

/-! ## Machines that hold the same frames -/

/-- The two machines have the same processes, as far as frames are concerned. -/
structure Alike (s s' : Sys) : Prop where
  state : ∀ p, (s'.proc p).state ≠ .unused ↔ (s.proc p).state ≠ .unused
  same : ∀ p, (s.proc p).state ≠ .unused → (s'.proc p).pgdir = (s.proc p).pgdir ∧
    (s'.proc p).kstack = (s.proc p).kstack ∧ (s'.proc p).sz = (s.proc p).sz
  parent : ∀ p, (s.proc p).state ≠ .unused → (s.proc p).parent ≠ none →
    (s'.proc p).parent ≠ none
  kpgdir : s'.kpgdir = s.kpgdir
  bootStacks : s'.bootStacks = s.bootStacks
  initproc : s'.initproc = s.initproc

theorem Alike.of_eq (hproc : s'.proc = s.proc) (hk : s'.kpgdir = s.kpgdir)
    (hb : s'.bootStacks = s.bootStacks) (hi : s'.initproc = s.initproc) : Alike s s' := by
  refine ⟨fun p => ?_, fun p _ => ?_, fun p _ => ?_, hk, hb, hi⟩
  · rw [hproc]
  · rw [hproc]
    exact ⟨rfl, rfl, rfl⟩
  · rw [hproc]
    exact id

/-- One slot changed, in fields that have nothing to do with frames. -/
theorem Alike.update {q : Proc} (hproc : s'.proc = Function.update s.proc p q)
    (hstate : q.state = (s.proc p).state) (hdir : q.pgdir = (s.proc p).pgdir)
    (hstack : q.kstack = (s.proc p).kstack) (hsz : q.sz = (s.proc p).sz)
    (hpar : q.parent = (s.proc p).parent) (hk : s'.kpgdir = s.kpgdir)
    (hb : s'.bootStacks = s.bootStacks) (hi : s'.initproc = s.initproc) : Alike s s' := by
  have hfields : ∀ q', (s'.proc q').state = (s.proc q').state ∧
      ((s'.proc q').pgdir = (s.proc q').pgdir ∧ (s'.proc q').kstack = (s.proc q').kstack ∧
      (s'.proc q').sz = (s.proc q').sz) ∧ (s'.proc q').parent = (s.proc q').parent := by
    intro q'
    by_cases hq : q' = p
    · subst hq
      rw [hproc, Function.update_self]
      exact ⟨hstate, ⟨hdir, hstack, hsz⟩, hpar⟩
    · rw [hproc, Function.update_of_ne hq]
      exact ⟨rfl, ⟨rfl, rfl, rfl⟩, rfl⟩
  refine ⟨fun q' => ?_, fun q' _ => (hfields q').2.1, fun q' _ => ?_, hk, hb, hi⟩
  · rw [(hfields q').1]
  · rw [(hfields q').2.2]
    exact id

theorem Alike.space (h : Alike s s') (a : Space) (d : Nat) : s'.space a d ↔ s.space a d := by
  cases a with
  | kernel =>
    show d = s'.kpgdir ↔ d = s.kpgdir
    rw [h.kpgdir]
  | proc p =>
    show (_ ∧ d = _) ↔ (_ ∧ d = _)
    rw [h.state p]
    refine and_congr_right (fun hp => ?_)
    rw [(h.same p hp).1]

/-- All holders but the pipes are as before. -/
theorem Alike.holder (h : Alike s s') (a : Holder) (f : Nat)
    (hpipe : ∀ g, a = .pipe g → ((s'.pipe g).Open ↔ (s.pipe g).Open)) :
    s'.holder a f ↔ s.holder a f := by
  cases a with
  | stack p =>
    show (_ ∧ f = _) ↔ (_ ∧ f = _)
    rw [h.state p]
    refine and_congr_right (fun hp => ?_)
    rw [(h.same p hp).2.1]
  | boot i =>
    show s'.bootStacks[i]? = some f ↔ s.bootStacks[i]? = some f
    rw [h.bootStacks]
  | pipe g => exact and_congr_right (fun _ => hpipe g rfl)

/-- A change that leaves the directories with their owners. -/
theorem Accounted.keep (h : Accounted L s) (ha : Alike s s') (hholders : Naming s'.holder)
    (hends : Ends s') (hsound : Sound L (named s.space) (named s'.holder) s'.phys)
    (hsame : SameTables (named s.space) s.phys.mem s'.phys.mem) : Accounted L s' := by
  obtain ⟨hspaces, hD⟩ := h.spaces.congr ha.space
  refine ⟨hspaces, hholders, ?_, fun d hd v h1 h2 => ?_, fun p hp => ?_, hends, fun p hp hne => ?_⟩
  · rw [hD]
    exact hsound
  · rw [hD] at hd
    rw [(hsame d hd).2 v h2]
    exact h.kernel d hd v h1 h2
  · have hp' := (ha.state p).mp hp
    obtain ⟨hdir, _, hsz⟩ := ha.same p hp'
    obtain ⟨hle, hnone⟩ := h.sizes p hp'
    rw [hsz, hdir]
    refine ⟨hle, fun v hv hge => ?_⟩
    rw [(hsame _ (Accounted.dir_mem hp')).2 v (by omega)]
    exact hnone v hv hge
  · have hp' := (ha.state p).mp hp
    rw [ha.initproc] at hne
    exact ha.parent p hp' (h.parented p hp' hne)

/-- A change that moves no frame to another holder. -/
theorem Accounted.alike (h : Accounted L s) (ha : Alike s s')
    (hpipe : ∀ g, (s'.pipe g).Open ↔ (s.pipe g).Open) (hends : Ends s')
    (hsound : Sound L (named s.space) (named s.holder) s'.phys)
    (hsame : SameTables (named s.space) s.phys.mem s'.phys.mem) : Accounted L s' := by
  obtain ⟨hholders, hX⟩ := h.holders.congr (fun a f => ha.holder a f (fun g _ => hpipe g))
  refine h.keep ha hholders hends ?_ hsame
  rw [hX]
  exact hsound

theorem Accounted.alike_phys (h : Accounted L s) (ha : Alike s s')
    (hpipe : ∀ g, (s'.pipe g).Open ↔ (s.pipe g).Open) (hends : Ends s')
    (hphys : s'.phys = s.phys) : Accounted L s' := by
  refine h.alike ha hpipe hends ?_ ?_
  · rw [hphys]
    exact h.sound
  · rw [hphys]
    exact SameTables.refl _ _

theorem Ends.congr (h : Ends s) (hpipe : s'.pipe = s.pipe)
    (hfile : ∀ i e, s'.endOf i e ↔ s.endOf i e)
    (hclosed : ∀ i, (s'.file i).ref = 0 → (s'.file i).type ≠ .pipe) : Ends s' := by
  obtain ⟨hnaming, hnamed⟩ := h.naming.congr hfile
  refine ⟨hnaming, fun f w => ?_, hclosed⟩
  rw [hpipe, hnamed]
  exact h.flags f w

theorem OnlyFiles.alike (h : OnlyFiles p s s') : Alike s s' := by
  obtain ⟨o, ho⟩ := h.proc
  exact Alike.update ho rfl rfl rfl rfl rfl h.kpgdir h.bootStacks h.initproc

/-! ## Steps that leave the page tables alone -/

/-- From `s₀` to `s` no page directory was added, dropped or changed. -/
structure Steady (L : Layout) (s₀ s : Sys) : Prop where
  accounted : Accounted L s
  spaces : ∀ a d, s.space a d ↔ s₀.space a d
  tables : SameTables (named s₀.space) s₀.phys.mem s.phys.mem

theorem Steady.refl (h : Accounted L s) : Steady L s s :=
  ⟨h, fun _ _ => Iff.rfl, SameTables.refl _ _⟩

theorem named_congr {α β : Type} {H H' : α → β → Prop} (h : ∀ u f, H' u f ↔ H u f) :
    named H' = named H := by
  ext f
  exact exists_congr fun u => h u f

theorem Steady.next {s₀ : Sys} (h : Steady L s₀ s) (hacc : Accounted L s') (ha : Alike s s')
    (hsame : SameTables (named s.space) s.phys.mem s'.phys.mem) : Steady L s₀ s' := by
  refine ⟨hacc, fun a d => (ha.space a d).trans (h.spaces a d), h.tables.trans ?_⟩
  rw [← named_congr h.spaces]
  exact hsame

theorem Steady.keep {s₀ : Sys} (h : Steady L s₀ s) (ha : Alike s s') (hholders : Naming s'.holder)
    (hends : Ends s') (hsound : Sound L (named s.space) (named s'.holder) s'.phys)
    (hsame : SameTables (named s.space) s.phys.mem s'.phys.mem) : Steady L s₀ s' :=
  h.next (h.accounted.keep ha hholders hends hsound hsame) ha hsame

theorem Steady.alike {s₀ : Sys} (h : Steady L s₀ s) (ha : Alike s s')
    (hpipe : ∀ g, (s'.pipe g).Open ↔ (s.pipe g).Open) (hends : Ends s')
    (hsound : Sound L (named s.space) (named s.holder) s'.phys)
    (hsame : SameTables (named s.space) s.phys.mem s'.phys.mem) : Steady L s₀ s' :=
  h.next (h.accounted.alike ha hpipe hends hsound hsame) ha hsame

theorem Steady.alike_phys {s₀ : Sys} (h : Steady L s₀ s) (ha : Alike s s')
    (hpipe : ∀ g, (s'.pipe g).Open ↔ (s.pipe g).Open) (hends : Ends s')
    (hphys : s'.phys = s.phys) : Steady L s₀ s' :=
  h.next (h.accounted.alike_phys ha hpipe hends hphys) ha (hphys ▸ SameTables.refl _ _)

/-! ## Descriptors, files and pipes -/

theorem Accounted.ofile (h : Accounted L s) (p : Slot) (o : Fd → Option FileSlot) :
    Accounted L (s.withProc p { s.proc p with ofile := o }) :=
  h.alike_phys (OnlyFiles.ofile p s o).alike (fun _ => Iff.rfl)
    (h.ends.congr rfl (fun _ _ => Iff.rfl) h.ends.closed) rfl

/-- A change of a file that leaves its pipe end alone. -/
theorem Accounted.withFile (h : Accounted L s) {i : FileSlot} {f : File}
    (hend : f.type = .pipe ∨ (s.file i).type = .pipe →
      f.type = (s.file i).type ∧ f.pipe = (s.file i).pipe ∧ f.writable = (s.file i).writable)
    (hclosed : f.ref = 0 → f.type ≠ .pipe) : Accounted L (s.withFile i f) := by
  refine h.alike_phys (OnlyFiles.withFile 0 s i f).alike (fun _ => Iff.rfl) ?_ rfl
  refine h.ends.congr rfl (fun j e => ?_) (fun j => ?_)
  · by_cases hj : j = i
    · subst hj
      unfold Sys.endOf
      rw [withFile_file, Function.update_self]
      constructor
      · intro he
        obtain ⟨h1, h2, h3⟩ := hend (Or.inl he.1)
        rw [← h1, ← h2, ← h3]
        exact he
      · intro he
        obtain ⟨h1, h2, h3⟩ := hend (Or.inr he.1)
        rw [h1, h2, h3]
        exact he
    · unfold Sys.endOf
      rw [withFile_file, Function.update_of_ne hj]
  · by_cases hj : j = i
    · subst hj
      rw [withFile_file, Function.update_self]
      exact hclosed
    · rw [withFile_file, Function.update_of_ne hj]
      exact h.ends.closed j

theorem Steady.ofile {s₀ : Sys} (h : Steady L s₀ s) (p : Slot) (o : Fd → Option FileSlot) :
    Steady L s₀ (s.withProc p { s.proc p with ofile := o }) :=
  h.next (h.accounted.ofile p o) (OnlyFiles.ofile p s o).alike (SameTables.refl _ _)

theorem Steady.withFile {s₀ : Sys} (h : Steady L s₀ s) {i : FileSlot} {f : File}
    (hend : f.type = .pipe ∨ (s.file i).type = .pipe →
      f.type = (s.file i).type ∧ f.pipe = (s.file i).pipe ∧ f.writable = (s.file i).writable)
    (hclosed : f.ref = 0 → f.type ≠ .pipe) : Steady L s₀ (s.withFile i f) :=
  h.next (h.accounted.withFile hend hclosed) (OnlyFiles.withFile 0 s i f).alike
    (SameTables.refl _ _)

theorem Steady.withIref {s₀ : Sys} (h : Steady L s₀ s) (r : Nat → Nat) :
    Steady L s₀ (s.withIref r) :=
  h.alike_phys (OnlyFiles.withIref 0 s r).alike (fun _ => Iff.rfl)
    (h.accounted.ends.congr rfl (fun _ _ => Iff.rfl) h.accounted.ends.closed) rfl

section Files

variable {s₀ : Sys}

theorem filealloc_steady (h : Steady L s₀ s) : Spec anyPanic filealloc s (fun r s' =>
    Steady L s₀ s' ∧ ∀ i, r = some i → (s'.file i).type ≠ .pipe ∧ (s'.file i).ref = 1 ∧
      (s.file i).ref = 0 ∧ ∀ j, j ≠ i → s'.file j = s.file j) := by
  refine filealloc_cases.mono (fun r s' hr => ?_)
  obtain ⟨rfl, rfl⟩ | ⟨i, rfl, hzero, rfl⟩ := hr
  · exact ⟨h, fun i hi => nomatch hi⟩
  · have hnot := h.accounted.ends.closed i hzero
    refine ⟨h.withFile ?_ (fun hc => nomatch hc), fun j hj => ?_⟩
    · intro hor
      obtain hp | hp := hor
      · exact absurd hp hnot
      · exact absurd hp hnot
    · rw [← Option.some.inj hj]
      refine ⟨?_, ?_, hzero, fun k hk => ?_⟩
      · rw [withFile_file, Function.update_self]
        exact hnot
      · rw [withFile_file, Function.update_self]
      · rw [withFile_file, Function.update_of_ne hk]

theorem flag_closed (g : Pipe) (w w' : Bool) :
    (g.closed w).flag w' = if w' = w then false else g.flag w' := by
  cases w <;> cases w' <;> rfl

theorem open_iff (g : Pipe) : g.Open ↔ ∃ w, g.flag w = true := by
  constructor
  · intro h
    obtain h | h := h
    · exact ⟨false, h⟩
    · exact ⟨true, h⟩
  · intro h
    obtain ⟨w, hw⟩ := h
    cases w with
    | false => exact Or.inl hw
    | true => exact Or.inr hw

/-- The file table and the pipes once the last reference to an end is gone. -/
theorem Ends.close (h : Ends s) {i : FileSlot} {f : Nat} {w : Bool} (hend : s.endOf i (f, w))
    (hfile : s'.file = Function.update s.file i { s.file i with ref := 0, type := .none })
    (hpipe : s'.pipe = Function.update s.pipe f ((s.pipe f).closed w)) : Ends s' := by
  have hdrop : ∀ j e, s'.endOf j e ↔ s.endOf j e ∧ j ≠ i := by
    intro j e
    unfold Sys.endOf
    rw [hfile]
    by_cases hj : j = i
    · subst hj
      rw [Function.update_self]
      exact iff_of_false (fun he => nomatch he.1) (fun he => he.2 rfl)
    · rw [Function.update_of_ne hj]
      exact (and_iff_left hj).symm
  obtain ⟨hnaming, hnamed⟩ := h.naming.drop hend hdrop
  refine ⟨hnaming, fun g w' => ?_, fun j => ?_⟩
  · have hmem : (g, w') ∈ named s.endOf \ {(f, w)} ↔
        (g, w') ∈ named s.endOf ∧ ¬ (g = f ∧ w' = w) := by
      simp
    rw [hnamed, hmem, hpipe, ← h.flags g w']
    by_cases hg : g = f
    · subst hg
      rw [Function.update_self, flag_closed]
      by_cases hw : w' = w
      · simp [hw]
      · simp [hw]
    · rw [Function.update_of_ne hg]
      simp [hg]
  · rw [hfile]
    by_cases hj : j = i
    · subst hj
      rw [Function.update_self]
      exact fun _ => nofun
    · rw [Function.update_of_ne hj]
      exact h.closed j

/-- `fileclose`. With the last reference to an end of a pipe the end closes, and
the page is freed when the other end is closed too. -/
theorem fileclose_steady {i : FileSlot} (h : Steady L s₀ s) :
    Spec anyPanic (fileclose L i) s (fun _ s' => Steady L s₀ s') := by
  refine (fileclose_cases trivial fun _ => trivial).mono (fun _ s' hr => ?_)
  obtain ⟨hgt, rfl⟩ | ⟨hone, hnone, rfl⟩ | ⟨hone, hinode, rfl⟩ | ⟨hone, hpipe, hclose⟩ := hr
  · refine h.withFile (fun _ => ⟨rfl, rfl, rfl⟩) (fun hc => ?_)
    have : (s.file i).ref - 1 = 0 := hc
    omega
  · exact h.withFile (fun hor => by simp [hnone] at hor) (fun _ => nofun)
  · have hfile : Steady L s₀ (s.withFile i { s.file i with ref := 0, type := .none }) :=
      h.withFile (fun hor => by simp [hinode] at hor) (fun _ => nofun)
    exact hfile.withIref _
  · generalize hf : (s.file i).pipe = f at hclose
    generalize hw : (s.file i).writable = w at hclose
    have hend : s.endOf i (f, w) := ⟨hpipe, by rw [hf, hw]⟩
    have hopen : (s.pipe f).Open := (open_iff _).mpr ⟨w, (h.accounted.ends.flags f w).mpr ⟨i, hend⟩⟩
    have hother : ∀ g, g ≠ f →
        ((Function.update s.pipe f ((s.pipe f).closed w) g).Open ↔ (s.pipe g).Open) := by
      intro g hg
      rw [Function.update_of_ne hg]
    obtain ⟨hread, hwrite, σ, hkfree, rfl⟩ | ⟨hstill, rfl⟩ :=
      (pipeclose_cases (E := anyPanic) trivial).post hclose
    · -- both ends are closed now: the page leaves the pipe for the free list
      have hgone : ¬ ((s.pipe f).closed w).Open := by
        intro hc
        have hread' : ((s.pipe f).closed w).readopen = false := hread
        have hwrite' : ((s.pipe f).closed w).writeopen = false := hwrite
        unfold Pipe.Open at hc
        rw [hread', hwrite'] at hc
        simp at hc
      have hheld : s.holder (.pipe f) f := ⟨rfl, hopen⟩
      have hX : f ∈ named s.holder := ⟨_, hheld⟩
      have hσ : σ = ⟨junkPage s.phys.mem f s.phys.freelist, f :: s.phys.freelist⟩ := by
        have := hkfree.symm.trans (kfree_run (h.accounted.sound.ram_other hX) s.phys)
        cases this
        rfl
      generalize hs' : ((s.withFile i _).withPipe f _).withPhys σ = s'
      have halike : Alike s s' := by
        subst hs'
        exact ⟨fun _ => Iff.rfl, fun _ _ => ⟨rfl, rfl, rfl⟩, fun _ _ => id, rfl, rfl, rfl⟩
      have hpipes : s'.pipe = Function.update s.pipe f ((s.pipe f).closed w) := by
        subst hs'
        rfl
      have hdrop : ∀ a g, s'.holder a g ↔ s.holder a g ∧ a ≠ .pipe f := by
        intro a g
        by_cases ha : a = .pipe f
        · rw [ha]
          refine iff_of_false (fun hc => hgone ?_) (fun hc => hc.2 rfl)
          have hc' := hc.2
          rw [hpipes, Function.update_self] at hc'
          exact hc'
        · refine (halike.holder a g (fun f' hf' => ?_)).trans (and_iff_left ha).symm
          rw [hpipes]
          exact hother f' (fun he => ha (by rw [hf', he]))
      obtain ⟨hnaming, hnamed⟩ := h.accounted.holders.drop hheld hdrop
      refine h.keep halike hnaming (h.accounted.ends.close hend (by subst hs'; rfl) hpipes) ?_ ?_
      · rw [hnamed, ← hs']
        show Sound L _ _ σ
        rw [hσ]
        exact h.accounted.sound.kfree hX
      · rw [← hs']
        show SameTables _ _ σ.mem
        rw [hσ]
        exact sameTables_junkPage (h.accounted.sound.notTable_of_other hX) _
    · refine h.alike_phys ?_ (fun g => ?_) (h.accounted.ends.close hend rfl rfl) rfl
      · exact ((OnlyFiles.withFile 0 s i _).trans (OnlyFiles.withPipe 0 _ f _)).alike
      by_cases hg : g = f
      · subst hg
        refine iff_of_true ?_ hopen
        rw [withPipe_pipe, Function.update_self]
        unfold Pipe.Open
        by_contra hc
        exact hstill (by simpa using hc)
      · exact hother g hg

theorem fdalloc_steady {i : FileSlot} (h : Steady L s₀ s) :
    Spec anyPanic (fdalloc p i) s (fun _ s' => Steady L s₀ s' ∧ s'.file = s.file) := by
  refine fdalloc_cases.mono (fun r s' hr => ?_)
  obtain ⟨_, rfl⟩ | ⟨fd, _, _, rfl⟩ := hr
  · exact ⟨h, rfl⟩
  · exact ⟨h.ofile p _, rfl⟩

/-- A free frame and two file entries become an open pipe. -/
theorem Steady.newPipe {f0 f1 : FileSlot} {f : Nat} {rest : List Nat}
    (h : Steady L s₀ s) (hfree : s.phys.freelist = f :: rest) (hne : f0 ≠ f1)
    (h0 : (s.file f0).type ≠ .pipe) (h1 : (s.file f1).type ≠ .pipe)
    (href0 : (s.file f0).ref ≠ 0) (href1 : (s.file f1).ref ≠ 0) (halike : Alike s s')
    (hphys : s'.phys = ⟨s.phys.mem, rest⟩)
    (hpipes : s'.pipe = Function.update s.pipe f ⟨true, true⟩)
    (hfile0 : s'.file f0
      = { s.file f0 with type := .pipe, readable := true, writable := false, pipe := f })
    (hfile1 : s'.file f1
      = { s.file f1 with type := .pipe, readable := false, writable := true, pipe := f })
    (hfiles : ∀ j, j ≠ f0 → j ≠ f1 → s'.file j = s.file j) : Steady L s₀ s' := by
  -- the frame was free, so nothing held it and no pipe was there
  have hsound := h.accounted.sound
  unfold Sound at hsound
  rw [hfree] at hsound
  have hnotX : f ∉ named s.holder := by
    intro hf
    have hheld : Holds s.phys.mem (named s.space) (named s.holder) (.other f) f := ⟨hf, rfl⟩
    exact hsound.notFree hheld List.mem_cons_self
  have hclosed : ¬ (s.pipe f).Open := fun hopen => hnotX ⟨.pipe f, rfl, hopen⟩
  have hnoEnd : ∀ w, (f, w) ∉ named s.endOf := by
    intro w hw
    exact hclosed ((open_iff _).mpr ⟨w, (h.accounted.ends.flags f w).mpr hw⟩)
  have hadd : ∀ a g, s'.holder a g ↔ s.holder a g ∨ (a = .pipe f ∧ g = f) := by
    intro a g
    by_cases ha : a = .pipe f
    · rw [ha]
      have hopen : (s'.pipe f).Open := by
        rw [hpipes, Function.update_self]
        exact Or.inl rfl
      constructor
      · intro hg
        exact Or.inr ⟨rfl, hg.1⟩
      · intro hg
        obtain hg | hg := hg
        · exact absurd hg.2 hclosed
        · exact ⟨hg.2, hopen⟩
    · refine (halike.holder a g (fun f' hf' => ?_)).trans (or_iff_left (fun hc => ha hc.1)).symm
      rw [hpipes, Function.update_of_ne (fun he => ha (by rw [hf', he]))]
  obtain ⟨hnaming, hnamed⟩ := h.accounted.holders.add
    (fun g (hg : s.holder (.pipe f) g) => hclosed hg.2) hnotX hadd
  refine h.keep halike hnaming ?_ ?_ ?_
  · -- the two entries are the two ends
    have hend : ∀ j e, s'.endOf j e ↔ s.endOf j e ∨ (j = f0 ∧ e = (f, false)) ∨
        (j = f1 ∧ e = (f, true)) := by
      intro j e
      unfold Sys.endOf
      by_cases hj0 : j = f0
      · subst hj0
        rw [hfile0]
        simp [h0, hne]
      · by_cases hj1 : j = f1
        · subst hj1
          rw [hfile1]
          simp [h1, hj0]
        · rw [hfiles j hj0 hj1]
          simp [hj0, hj1]
    have hmid : ∀ j e, (s.endOf j e ∨ (j = f0 ∧ e = (f, false))) ↔
        s.endOf j e ∨ (j = f0 ∧ e = (f, false)) := fun _ _ => Iff.rfl
    obtain ⟨hn1, hnamed1⟩ := h.accounted.ends.naming.add (fun e he => h0 he.1) (hnoEnd false) hmid
    have hend' : ∀ j e, s'.endOf j e ↔
        (s.endOf j e ∨ (j = f0 ∧ e = (f, false))) ∨ (j = f1 ∧ e = (f, true)) := by
      intro j e
      rw [hend, or_assoc]
    obtain ⟨hn2, hnamed2⟩ := hn1.add (u := f1) (f := (f, true))
      (fun e he => he.elim (fun he => h1 he.1) (fun he => hne he.1.symm))
      (by rw [hnamed1]; simpa using hnoEnd true) hend'
    refine ⟨hn2, fun g w => ?_, fun j => ?_⟩
    · rw [hnamed2, hnamed1, hpipes]
      by_cases hg : g = f
      · subst hg
        rw [Function.update_self]
        cases w with
        | false => simp [Pipe.flag]
        | true => simp [Pipe.flag]
      · rw [Function.update_of_ne hg, h.accounted.ends.flags g w]
        simp [hg]
    · by_cases hj0 : j = f0
      · subst hj0
        rw [hfile0]
        exact fun hc => absurd hc href0
      · by_cases hj1 : j = f1
        · subst hj1
          rw [hfile1]
          exact fun hc => absurd hc href1
        · rw [hfiles j hj0 hj1]
          exact h.accounted.ends.closed j
  · rw [hnamed, hphys]
    exact hsound.kalloc
  · rw [hphys]
    exact SameTables.refl _ _

theorem pipealloc_steady (h : Steady L s₀ s) :
    Spec anyPanic (pipealloc L) s (fun _ s' => Steady L s₀ s') := by
  unfold pipealloc
  refine Spec.seq (filealloc_steady h) (fun r s₁ h₁ => ?_)
  obtain ⟨h₁, hf0⟩ := h₁
  cases r with
  | none => exact Spec.pure h₁
  | some f0 =>
    obtain ⟨ht0, href0, _, _⟩ := hf0 f0 rfl
    refine Spec.seq (filealloc_steady h₁) (fun r s₂ h₂ => ?_)
    obtain ⟨h₂, hf1⟩ := h₂
    cases r with
    | none => exact Spec.seq (fileclose_steady h₂) (fun _ _ h₃ => Spec.pure h₃)
    | some f1 =>
      obtain ⟨ht1, href1, hzero, hkeep⟩ := hf1 f1 rfl
      have hne : f0 ≠ f1 := by
        intro he
        rw [← he, href0] at hzero
        cases hzero
      cases hfree : s₂.phys.freelist with
      | nil =>
        refine Spec.seq_ok (onPhys_ok (kalloc_none hfree)) ?_
        exact Spec.seq (fileclose_steady h₂) (fun _ _ h₃ =>
          Spec.seq (fileclose_steady h₃) (fun _ _ h₄ => Spec.pure h₄))
      | cons f rest =>
        refine Spec.seq_ok (onPhys_ok (kalloc_some hfree)) ?_
        refine Spec.seq_ok (setPipe_run f _ _) ?_
        refine Spec.seq_ok (setFile_run f0 _ _) ?_
        refine Spec.seq_ok (setFile_run f1 _ _) ?_
        refine Spec.pure (h₂.newPipe hfree hne (by rw [hkeep f0 hne]; exact ht0) ht1
          (by rw [hkeep f0 hne, href0]; exact Nat.one_ne_zero)
          (by rw [href1]; exact Nat.one_ne_zero) ?_ rfl rfl ?_ ?_ ?_)
        · exact ⟨fun _ => Iff.rfl, fun _ _ => ⟨rfl, rfl, rfl⟩, fun _ _ => id, rfl, rfl, rfl⟩
        · simp only [withFile_file, Function.update_of_ne hne, Function.update_self]
          rfl
        · simp only [withFile_file, Function.update_self,
            Function.update_of_ne (Ne.symm hne)]
          rfl
        · intro j hj0 hj1
          simp only [withFile_file, Function.update_of_ne hj0, Function.update_of_ne hj1]
          rfl

theorem sysPipe_steady (arg : Option Nat) (h : Steady L s₀ s) :
    Spec anyPanic (sysPipe L p arg) s (fun _ s' => Steady L s₀ s') := by
  unfold sysPipe
  refine Spec.seq_ok (get_run s) ?_
  cases Share.argptr (s.proc p).sz arg 8 with
  | none => exact Spec.pure h
  | some _ =>
    refine Spec.seq (pipealloc_steady h) (fun r s₁ h₁ => ?_)
    cases r with
    | none => exact Spec.pure h₁
    | some fs =>
      obtain ⟨rf, wf⟩ := fs
      refine Spec.seq (fdalloc_steady h₁) (fun r s₂ h₂ => ?_)
      cases r with
      | none =>
        exact Spec.seq (fileclose_steady h₂.1) (fun _ _ h₃ =>
          Spec.seq (fileclose_steady h₃) (fun _ _ h₄ => Spec.pure h₄))
      | some fd0 =>
        refine Spec.seq (fdalloc_steady h₂.1) (fun r s₃ h₃ => ?_)
        cases r with
        | none =>
          refine Spec.seq_ok (setProc_run p _ s₃) ?_
          exact Spec.seq (fileclose_steady (h₃.1.ofile p _)) (fun _ _ h₄ =>
            Spec.seq (fileclose_steady h₄) (fun _ _ h₅ => Spec.pure h₅))
        | some fd1 => exact Spec.pure h₃.1

theorem sysClose_steady (n : Option Int) (h : Steady L s₀ s) :
    Spec anyPanic (sysClose L p n) s (fun _ s' => Steady L s₀ s') := by
  unfold sysClose
  refine Spec.seq_ok (get_run s) ?_
  cases argfd (s.proc p) n with
  | none => exact Spec.pure h
  | some r =>
    obtain ⟨fd, i⟩ := r
    refine Spec.seq_ok (setProc_run p _ s) ?_
    exact Spec.seq (fileclose_steady (h.ofile p _)) (fun _ _ h₁ => Spec.pure h₁)

theorem sysDup_steady (n : Option Int) (h : Steady L s₀ s) :
    Spec anyPanic (sysDup p n) s (fun _ s' => Steady L s₀ s') := by
  unfold sysDup
  refine Spec.seq_ok (get_run s) ?_
  cases argfd (s.proc p) n with
  | none => exact Spec.pure h
  | some r =>
    obtain ⟨fd, i⟩ := r
    refine Spec.seq (fdalloc_steady h) (fun r s₁ h₁ => ?_)
    cases r with
    | none => exact Spec.pure h₁.1
    | some fd' =>
      refine Spec.seq (filedup_cases trivial) (fun _ s₂ h₂ => ?_)
      obtain ⟨_, rfl⟩ := h₂
      exact Spec.pure (h₁.1.withFile (fun _ => ⟨rfl, rfl, rfl⟩) (fun hc => nomatch hc))

theorem sysOpen_steady (ip : Option Nat) (readable writable : Bool) (h : Steady L s₀ s) :
    Spec anyPanic (sysOpen L p ip readable writable) s (fun _ s' => Steady L s₀ s') := by
  unfold sysOpen
  cases ip with
  | none => exact Spec.pure h
  | some ip =>
    refine Spec.seq_ok (iget_run ip s) ?_
    refine Spec.seq (filealloc_steady (h.withIref _)) (fun r s₁ h₁ => ?_)
    obtain ⟨h₁, hfile⟩ := h₁
    cases r with
    | none => exact Spec.seq_ok (iput_run ip s₁) (Spec.pure (h₁.withIref _))
    | some i =>
      obtain ⟨hnot, _, _, _⟩ := hfile i rfl
      refine Spec.seq (fdalloc_steady h₁) (fun r s₂ h₂ => ?_)
      obtain ⟨h₂, hsame⟩ := h₂
      cases r with
      | none =>
        refine Spec.seq (fileclose_steady h₂) (fun _ s₃ h₃ => ?_)
        exact Spec.seq_ok (iput_run ip s₃) (Spec.pure (h₃.withIref _))
      | some fd =>
        refine Spec.seq_ok (setFile_run i _ s₂) ?_
        refine Spec.pure (h₂.withFile (fun hor => ?_) (fun _ => nofun))
        obtain hp | hp := hor
        · cases hp
        · rw [hsame] at hp
          exact absurd hp hnot

theorem closeFiles_steady (fds : List Fd) (h : Steady L s₀ s) :
    Spec anyPanic (closeFiles L p fds) s (fun _ s' => Steady L s₀ s') := by
  induction fds generalizing s with
  | nil => exact Spec.pure h
  | cons fd fds ih =>
    unfold closeFiles
    refine Spec.seq_ok (get_run s) ?_
    cases (s.proc p).ofile fd with
    | none => exact ih h
    | some i =>
      refine Spec.seq (fileclose_steady h) (fun _ s₁ h₁ => ?_)
      refine Spec.seq_ok (setProc_run p _ s₁) ?_
      exact ih (h₁.ofile p _)

theorem onFiles_steady {a : Act} (ha : a.OnFiles) (h : Steady L s₀ s) :
    Spec anyPanic (a.run L p) s (fun _ s' => Steady L s₀ s') := by
  cases a with
  | pipe arg => exact Spec.seq (sysPipe_steady arg h) (fun _ _ h₁ => Spec.pure h₁)
  | close n => exact Spec.seq (sysClose_steady n h) (fun _ _ h₁ => Spec.pure h₁)
  | dup n => exact Spec.seq (sysDup_steady n h) (fun _ _ h₁ => Spec.pure h₁)
  | «open» ip readable writable =>
    exact Spec.seq (sysOpen_steady ip readable writable h) (fun _ _ h₁ => Spec.pure h₁)
  | shareData _ _ _ => exact ha.elim
  | getData _ _ => exact ha.elim
  | fork => exact ha.elim
  | exec _ _ _ => exact ha.elim
  | sbrk _ => exact ha.elim
  | exit => exact ha.elim
  | wait => exact ha.elim

end Files

/-! ## `fork` -/

/-- The directories and stacks with one process more. -/
theorem Forked.space {np : Slot} {k d : Nat} (hf : Forked L s p np k d s') (a : Space) (g : Nat) :
    s'.space a g ↔ s.space a g ∨ (a = .proc np ∧ g = d) := by
  obtain ⟨o, ho⟩ := hf.proc
  cases a with
  | kernel =>
    show g = s'.kpgdir ↔ g = s.kpgdir ∨ _
    rw [hf.kpgdir]
    simp
  | proc q =>
    show ((s'.proc q).state ≠ .unused ∧ g = (s'.proc q).pgdir) ↔
      ((s.proc q).state ≠ .unused ∧ g = (s.proc q).pgdir) ∨ _
    by_cases hq : q = np
    · subst hq
      rw [ho, Function.update_self]
      simp [childOf, hf.free]
    · rw [ho, Function.update_of_ne hq]
      simp [hq]

theorem Forked.holder {np : Slot} {k d : Nat} (hf : Forked L s p np k d s') (a : Holder)
    (g : Nat) : s'.holder a g ↔ s.holder a g ∨ (a = .stack np ∧ g = k) := by
  obtain ⟨o, ho⟩ := hf.proc
  cases a with
  | boot i =>
    show s'.bootStacks[i]? = some g ↔ s.bootStacks[i]? = some g ∨ _
    rw [hf.bootStacks]
    simp
  | pipe f =>
    show (g = f ∧ (s'.pipe f).Open) ↔ (g = f ∧ (s.pipe f).Open) ∨ _
    rw [hf.pipe]
    simp
  | stack q =>
    show ((s'.proc q).state ≠ .unused ∧ g = (s'.proc q).kstack) ↔
      ((s.proc q).state ≠ .unused ∧ g = (s.proc q).kstack) ∨ _
    by_cases hq : q = np
    · subst hq
      rw [ho, Function.update_self]
      simp [childOf, hf.free]
    · rw [ho, Function.update_of_ne hq]
      simp [hq]

/-- A frame on the free list has no holder. -/
theorem Accounted.free_notHeld (h : Accounted L s) {f : Nat} (hf : f ∈ s.phys.freelist) :
    f ∉ named s.holder := by
  intro hX
  have hheld : Holds s.phys.mem (named s.space) (named s.holder) (.other f) f := ⟨hX, rfl⟩
  exact h.sound.notFree hheld hf

/-- What `copyuvm` did for `fork`. -/
structure ForkMemory (L : Layout) (s : Sys) (p : Slot) (k d : Nat) (s' : Sys) : Prop where
  fresh : d ∉ named s.space
  stack : k ∉ named s.holder
  same : SameTables (named s.space) s.phys.mem s'.phys.mem
  sound : Sound L (insert d (named s.space)) (insert k (named s.holder)) s'.phys
  copied : ∀ x, x * 4096 < (s.proc p).sz → ∃ w f,
    pteAt s.phys.mem (s.proc p).pgdir x = some w ∧
    pteAt s'.phys.mem d x = some (f * 4096 ||| pteFlags w ||| pteP)
  rest : ∀ x < 1048576, (s.proc p).sz ≤ x * 4096 → pteAt s'.phys.mem d x = kmapPte (kmap L) x

theorem Forked.memory {np : Slot} {k d : Nat} (h : Accounted L s)
    (hp : (s.proc p).state ≠ .unused) (hf : Forked L s p np k d s') :
    ForkMemory L s p k d s' := by
  obtain ⟨rest, hfree, hcopy⟩ := hf.mem
  have hstack : k ∉ named s.holder := h.free_notHeld (by rw [hfree]; exact List.mem_cons_self)
  have hsound := h.sound
  unfold Sound at hsound
  rw [hfree] at hsound
  obtain ⟨hsame, hcase⟩ := (copyuvm_spec (E := anyPanic) (σ := ⟨s.phys.mem, rest⟩) hsound.kalloc
    (Accounted.dir_mem hp) (h.sizes p hp).1 (fun _ _ _ => ⟨trivial, trivial⟩)).post hcopy
  obtain ⟨hnone, _, _⟩ | ⟨d', hd', _, hfresh, hsound', hcopied, hrest, _⟩ := hcase
  · cases hnone
  · have hdd : d = d' := Option.some.inj hd'
    subst hdd
    exact ⟨hfresh, hstack, hsame, hsound', hcopied, hrest⟩

theorem Forked.ends {np : Slot} {k d : Nat} (h : Ends s) (hf : Forked L s p np k d s') :
    Ends s' := by
  refine h.congr hf.pipe (fun i e => ?_) (fun i => ?_)
  · obtain ⟨r, hr, _⟩ := hf.file i
    unfold Sys.endOf
    rw [hr]
  · obtain ⟨r, hr, hz⟩ := hf.file i
    rw [hr]
    exact fun hc => h.closed i (hz.mp hc)

theorem Forked.accounted {np : Slot} {k d : Nat} (h : Accounted L s)
    (hp : (s.proc p).state ≠ .unused) (hf : Forked L s p np k d s') : Accounted L s' := by
  have hm := hf.memory h hp
  obtain ⟨o, ho⟩ := hf.proc
  obtain ⟨hspaces, hD⟩ := h.spaces.add
    (fun g (hg : s.space (.proc np) g) => hg.1 hf.free) hm.fresh hf.space
  obtain ⟨hholders, hX⟩ := h.holders.add
    (fun g (hg : s.holder (.stack np) g) => hg.1 hf.free) hm.stack hf.holder
  have hsz := (h.sizes p hp).1
  unfold sharedbase at hsz
  refine ⟨hspaces, hholders, ?_, fun g hg v h1 h2 => ?_, fun q hq => ?_, hf.ends h.ends,
    fun q hq hne => ?_⟩
  · rw [hD, hX]
    exact hm.sound
  · rw [hD] at hg
    obtain rfl | hg := hg
    · exact hm.rest v h2 (by omega)
    · rw [(hm.same g hg).2 v h2]
      exact h.kernel g hg v h1 h2
  · by_cases hqn : q = np
    · subst hqn
      rw [ho, Function.update_self]
      refine ⟨(h.sizes p hp).1, fun v hv hge => ?_⟩
      show pteAt s'.phys.mem d v = none
      rw [hm.rest v (by omega) hge]
      exact kmapPte_user h.data_lt (by omega)
    · rw [ho, Function.update_of_ne hqn] at hq ⊢
      obtain ⟨hle, hnone⟩ := h.sizes q hq
      refine ⟨hle, fun v hv hge => ?_⟩
      rw [(hm.same _ (Accounted.dir_mem hq)).2 v (by omega)]
      exact hnone v hv hge
  · by_cases hqn : q = np
    · subst hqn
      rw [ho, Function.update_self]
      exact Option.some_ne_none p
    · rw [ho, Function.update_of_ne hqn] at hq ⊢
      rw [hf.initproc] at hne
      exact h.parented q hq hne

theorem ForkFailed.alike (hf : ForkFailed L s p s') : Alike s s' := by
  obtain hproc | ⟨np, pid, k, d, hnp, hproc⟩ := hf.proc
  · exact Alike.of_eq hproc hf.rest.kpgdir hf.rest.bootStacks hf.rest.initproc
  · refine ⟨fun q => ?_, fun q hq => ?_, fun q hq => ?_, hf.rest.kpgdir, hf.rest.bootStacks,
      hf.rest.initproc⟩
    · by_cases hqn : q = np
      · subst hqn
        rw [hproc, Function.update_self]
      · rw [hproc, Function.update_of_ne hqn]
    · have hqn : q ≠ np := fun he => hq (he ▸ hnp)
      rw [hproc, Function.update_of_ne hqn]
      exact ⟨rfl, rfl, rfl⟩
    · have hqn : q ≠ np := fun he => hq (he ▸ hnp)
      rw [hproc, Function.update_of_ne hqn]
      exact id

/-- A failed `fork` gives back what it took. -/
theorem ForkFailed.steady (h : Accounted L s) (hp : (s.proc p).state ≠ .unused)
    (hf : ForkFailed L s p s') : Steady L s s' := by
  have hends : Ends s' := h.ends.congr hf.rest.pipe
    (fun i e => by unfold Sys.endOf; rw [hf.rest.file]) (by rw [hf.rest.file]; exact h.ends.closed)
  have hpipe : ∀ g, (s'.pipe g).Open ↔ (s.pipe g).Open := by
    intro g
    rw [hf.rest.pipe]
  obtain hphys | ⟨k, rest, σ, hfree, hcopy, hkfree⟩ := hf.mem
  · exact (Steady.refl h).alike_phys hf.alike hpipe hends hphys
  · have hstack : k ∉ named s.holder := h.free_notHeld (by rw [hfree]; exact List.mem_cons_self)
    have hsound := h.sound
    unfold Sound at hsound
    rw [hfree] at hsound
    obtain ⟨hsame, hcase⟩ := (copyuvm_spec (E := anyPanic) (σ := ⟨s.phys.mem, rest⟩)
      hsound.kalloc (Accounted.dir_mem hp) (h.sizes p hp).1
      (fun _ _ _ => ⟨trivial, trivial⟩)).post hcopy
    obtain ⟨_, hσ, _⟩ | ⟨d', hd', _⟩ := hcase
    · have hk : k ∈ insert k (named s.holder) := Set.mem_insert k _
      have hrun := hkfree.symm.trans (kfree_run (hσ.ram_other hk) σ)
      have hphys : s'.phys = ⟨junkPage σ.mem k σ.freelist, k :: σ.freelist⟩ :=
        congrArg Prod.snd (Except.ok.inj hrun)
      refine (Steady.refl h).alike hf.alike hpipe hends ?_ ?_
      · rw [hphys]
        have := hσ.kfree hk
        rw [Set.insert_sdiff_self_of_notMem hstack] at this
        exact this
      · rw [hphys]
        exact hsame.trans (sameTables_junkPage (hσ.notTable_of_other hk) _)
    · cases hd'

/-! ## `exit` and `wait` -/

theorem Exited.steady (h : Accounted L s) (hp : (s.proc p).state = .runnable)
    (hx : Exited L s p s') : Steady L s s' := by
  have hin : (s.proc p).state ≠ .unused := by
    rw [hp]
    exact ProcState.noConfusion
  obtain ⟨s₁, hclose, hfree, hfile, hpipe⟩ := hx.mem
  have h₁ := (closeFiles_steady (p := p) (List.finRange 16) (Steady.refl h)).post hclose
  have hof := (closeFiles_onlyFiles (List.finRange 16)).post hclose
  -- only init has no parent, and init cannot exit
  rw [if_neg (h.parented p hin hx.notInit)] at hfree
  have hphys : s'.phys = s₁.phys := (congrArg Prod.snd (Except.ok.inj hfree)).symm
  have hadopt : ∀ par : Option Slot, par ≠ none → s.adopted p par ≠ none := by
    intro par hpar
    unfold Sys.adopted
    split
    · exact Option.some_ne_none _
    · exact hpar
  have hproc : ∀ q, ((s'.proc q).state ≠ .unused ↔ (s₁.proc q).state ≠ .unused) ∧
      ((s'.proc q).pgdir = (s₁.proc q).pgdir ∧ (s'.proc q).kstack = (s₁.proc q).kstack ∧
        (s'.proc q).sz = (s₁.proc q).sz) ∧
      ((s₁.proc q).parent ≠ none → (s'.proc q).parent ≠ none) := by
    intro q
    obtain ⟨o₁, ho₁⟩ := hof.proc_eq q
    by_cases hq : q = p
    · subst hq
      obtain ⟨o, hself⟩ := hx.self
      rw [hself, ho₁]
      exact ⟨iff_of_true nofun hin, ⟨rfl, rfl, rfl⟩, hadopt _⟩
    · rw [hx.others q hq, ho₁]
      exact ⟨Iff.rfl, ⟨rfl, rfl, rfl⟩, hadopt _⟩
  have halike : Alike s₁ s' :=
    ⟨fun q => (hproc q).1, fun q _ => (hproc q).2.1, fun q _ => (hproc q).2.2,
      hx.kpgdir.trans hof.kpgdir.symm, hx.bootStacks.trans hof.bootStacks.symm,
      hx.initproc.trans hof.initproc.symm⟩
  refine h₁.alike_phys halike (fun g => by rw [hpipe]) ?_ hphys
  refine h₁.accounted.ends.congr hpipe (fun i e => ?_) ?_
  · unfold Sys.endOf
    rw [hfile]
  · rw [hfile]
    exact h₁.accounted.ends.closed

/-- `OnlyProcs` leaves the files and pipes alone. -/
theorem OnlyProcs.ends (h : OnlyProcs s s') (hends : Ends s) : Ends s' := by
  refine hends.congr h.pipe (fun i e => ?_) ?_
  · unfold Sys.endOf
    rw [h.file]
  · rw [h.file]
    exact hends.closed

theorem Reaped.space {q : Slot} (hr : Reaped L s p q s') (a : Space) (g : Nat) :
    s'.space a g ↔ s.space a g ∧ a ≠ .proc q := by
  cases a with
  | kernel =>
    show g = s'.kpgdir ↔ g = s.kpgdir ∧ _
    rw [hr.rest.kpgdir]
    simp
  | proc q' =>
    show ((s'.proc q').state ≠ .unused ∧ g = (s'.proc q').pgdir) ↔
      ((s.proc q').state ≠ .unused ∧ g = (s.proc q').pgdir) ∧ _
    by_cases hq : q' = q
    · subst hq
      rw [hr.proc, Function.update_self]
      simp
    · rw [hr.proc, Function.update_of_ne hq]
      simp [hq]

theorem Reaped.holder {q : Slot} (hr : Reaped L s p q s') (a : Holder) (g : Nat) :
    s'.holder a g ↔ s.holder a g ∧ a ≠ .stack q := by
  cases a with
  | boot i =>
    show s'.bootStacks[i]? = some g ↔ s.bootStacks[i]? = some g ∧ _
    rw [hr.rest.bootStacks]
    simp
  | pipe f =>
    show (g = f ∧ (s'.pipe f).Open) ↔ (g = f ∧ (s.pipe f).Open) ∧ _
    rw [hr.rest.pipe]
    simp
  | stack q' =>
    show ((s'.proc q').state ≠ .unused ∧ g = (s'.proc q').kstack) ↔
      ((s.proc q').state ≠ .unused ∧ g = (s.proc q').kstack) ∧ _
    by_cases hq : q' = q
    · subst hq
      rw [hr.proc, Function.update_self]
      simp
    · rw [hr.proc, Function.update_of_ne hq]
      simp [hq]

theorem Reaped.memory {q : Slot} (h : Accounted L s) (hr : Reaped L s p q s') :
    Sound L (named s.space \ {(s.proc q).pgdir}) (named s.holder \ {(s.proc q).kstack}) s'.phys ∧
      SameTables (named s.space \ {(s.proc q).pgdir}) s.phys.mem s'.phys.mem := by
  have hin : (s.proc q).state ≠ .unused := by
    rw [hr.zombie]
    exact ProcState.noConfusion
  have hX := Accounted.stack_mem (s := s) hin
  obtain ⟨σ, hkfree, hfreevm⟩ := hr.mem
  have hσ : σ = ⟨junkPage s.phys.mem (s.proc q).kstack s.phys.freelist,
      (s.proc q).kstack :: s.phys.freelist⟩ :=
    congrArg Prod.snd (Except.ok.inj (hkfree.symm.trans (kfree_run (h.sound.ram_other hX) s.phys)))
  have h₁ := h.sound.kfree hX
  have hs₁ := sameTables_junkPage (h.sound.notTable_of_other hX) s.phys.freelist
  rw [hσ] at hfreevm
  obtain ⟨h₂, hs₂, _⟩ := (freevm_spec (E := anyPanic) h₁ (Accounted.dir_mem hin)).post hfreevm
  exact ⟨h₂, (hs₁.mono Set.sdiff_subset).trans hs₂⟩

theorem Reaped.accounted {q : Slot} (h : Accounted L s) (hr : Reaped L s p q s') :
    Accounted L s' := by
  have hin : (s.proc q).state ≠ .unused := by
    rw [hr.zombie]
    exact ProcState.noConfusion
  obtain ⟨hsound, hsame⟩ := hr.memory h
  obtain ⟨hspaces, hD⟩ := h.spaces.drop (show s.space (.proc q) _ from ⟨hin, rfl⟩) hr.space
  obtain ⟨hholders, hX⟩ := h.holders.drop (show s.holder (.stack q) _ from ⟨hin, rfl⟩) hr.holder
  -- the other slots did not change
  have hother : ∀ q', (s'.proc q').state ≠ .unused → q' ≠ q ∧ s'.proc q' = s.proc q' := by
    intro q' hq'
    by_cases hqq : q' = q
    · subst hqq
      rw [hr.proc, Function.update_self] at hq'
      exact absurd rfl hq'
    · exact ⟨hqq, by rw [hr.proc, Function.update_of_ne hqq]⟩
  refine ⟨hspaces, hholders, ?_, fun g hg v h1 h2 => ?_, fun q' hq' => ?_, hr.rest.ends h.ends,
    fun q' hq' hne => ?_⟩
  · rw [hD, hX]
    exact hsound
  · rw [hD] at hg
    rw [(hsame g hg).2 v h2]
    exact h.kernel g hg.1 v h1 h2
  · obtain ⟨hne, heq⟩ := hother q' hq'
    rw [heq] at hq' ⊢
    obtain ⟨hle, hnone⟩ := h.sizes q' hq'
    refine ⟨hle, fun v hv hge => ?_⟩
    rw [(hsame _ ⟨Accounted.dir_mem hq', h.dir_ne hin hq' hne⟩).2 v (by omega)]
    exact hnone v hv hge
  · obtain ⟨_, heq⟩ := hother q' hq'
    rw [heq] at hq' ⊢
    rw [hr.rest.initproc] at hne
    exact h.parented q' hq' hne

/-! ## `sbrk` -/

/-- What `sbrk` did to the pages of its process: those of `g` are there. -/
structure ResizeMemory (L : Layout) (s : Sys) (p : Slot) (n : Int) (s' : Sys) : Prop where
  others : SameTables (named s.space \ {(s.proc p).pgdir}) s.phys.mem s'.phys.mem
  sound : Sound L (named s.space) (named s.holder) s'.phys
  /-- Nothing at or above SHAREDBASE changed. -/
  high : ∀ x, 262144 ≤ x → x < 1048576 →
    pteAt s'.phys.mem (s.proc p).pgdir x = pteAt s.phys.mem (s.proc p).pgdir x
  size : (s'.proc p).sz ≤ sharedbase
  top : ∀ x < 262144, (s'.proc p).sz ≤ x * 4096 →
    pteAt s'.phys.mem (s.proc p).pgdir x = none
  /-- A page that was there stays, unless `sbrk` takes memory away. -/
  kept : ∀ x w, pteAt s.phys.mem (s.proc p).pgdir x = some w → x < 262144 →
    ¬ (n < 0 ∧ addSz (s.proc p).sz n ≤ x * 4096) →
    pteAt s'.phys.mem (s.proc p).pgdir x = some w

theorem Resized.memory {n : Int} (h : Accounted L s) (hp : (s.proc p).state ≠ .unused)
    (hn : n ≠ 0) (hr : Resized L s p n s') : ResizeMemory L s p n s' := by
  obtain ⟨hsz, hnone⟩ := h.sizes p hp
  have hd := Accounted.dir_mem (s := s) hp
  obtain ⟨sz, hrun, hproc⟩ := hr.mem
  have hself : (s'.proc p).sz = if sz = 0 then (s.proc p).sz else sz := by
    rw [hproc, Function.update_self]
  generalize hnew : addSz (s.proc p).sz n = newsz at hrun
  have hsz' : (s.proc p).sz ≤ 1073741824 := hsz
  -- a page that is there lies below the size
  have hbelow : ∀ x w, pteAt s.phys.mem (s.proc p).pgdir x = some w → x < 262144 →
      x * 4096 < (s.proc p).sz := by
    intro x w hw hx
    by_contra hc
    rw [hnone x hx (by omega)] at hw
    cases hw
  by_cases hpos : n > 0
  · rw [if_pos hpos] at hrun
    obtain ⟨hsound, hs, hcase⟩ := (allocuvm_spec (E := anyPanic) h.sound hd
      (fun _ _ _ _ _ => trivial)).post hrun
    obtain ⟨_, rfl, hσ⟩ | ⟨_, _, rfl, hσ⟩ | ⟨hlt, hle, rfl, hfill, _⟩ |
      ⟨hlt, hle, rfl, _, hdrop⟩ := hcase
    · rw [if_pos rfl] at hself
      refine ⟨hs, hsound, ?_, by rw [hself]; exact hsz, ?_, ?_⟩
      · rw [hσ]
        exact fun _ _ _ => rfl
      · rw [hσ, hself]
        exact hnone
      · rw [hσ]
        exact fun _ _ hw _ _ => hw
    · have hself' : (s'.proc p).sz = (s.proc p).sz := by
        rw [hself]
        split
        · rfl
        · rfl
      refine ⟨hs, hsound, ?_, by rw [hself']; exact hsz, ?_, ?_⟩
      · rw [hσ]
        exact fun _ _ _ => rfl
      · rw [hσ, hself']
        exact hnone
      · rw [hσ]
        exact fun _ _ hw _ _ => hw
    · unfold sharedbase at hlt
      have hself' : (s'.proc p).sz = sz := by
        rw [hself]
        split
        · omega
        · rfl
      refine ⟨hs, hsound, fun x h1 h2 => hfill.outside x h2 (by omega), ?_, fun x hx hge => ?_,
        fun x w hw hx _ => ?_⟩
      · rw [hself']
        unfold sharedbase
        omega
      · rw [hself'] at hge
        rw [hfill.outside x (by omega) (by omega)]
        exact hnone x hx (by omega)
      · have := hbelow x w hw hx
        rw [hfill.outside x (by omega) (by omega)]
        exact hw
    · unfold sharedbase at hlt
      rw [if_pos rfl] at hself
      refine ⟨hs, hsound, fun x h1 h2 => ?_, by rw [hself]; exact hsz, fun x hx hge => ?_,
        fun x w hw hx _ => ?_⟩
      · rw [hdrop x h2]
        unfold dropRange
        rw [if_neg (by omega)]
      · rw [hself] at hge
        rw [hdrop x (by omega)]
        unfold dropRange
        split
        · rfl
        · exact hnone x hx hge
      · have := hbelow x w hw hx
        rw [hdrop x (by omega)]
        unfold dropRange
        rw [if_neg (by omega)]
        exact hw
  · rw [if_neg hpos] at hrun
    obtain ⟨hmin, hsound, hedit, _, _⟩ := (deallocuvm_spec (E := anyPanic) newsz h.sound hd
      hsz).post hrun
    refine ⟨hedit.others, hsound, fun x h1 h2 => ?_, ?_, fun x hx hge => ?_,
      fun x w hw hx hkeep => ?_⟩
    · rw [hedit.pte x h2]
      unfold dropRange
      rw [if_neg (by omega)]
    · rw [hself]
      unfold sharedbase
      split
      · exact hsz'
      · omega
    · rw [hedit.pte x (by omega)]
      unfold dropRange
      split
      · rfl
      · refine hnone x hx ?_
        rw [hself] at hge
        split at hge
        · exact hge
        · omega
    · have := hbelow x w hw hx
      rw [hnew] at hkeep
      rw [hedit.pte x (by omega)]
      unfold dropRange
      rw [if_neg (by omega)]
      exact hw

theorem Resized.accounted {n : Int} (h : Accounted L s) (hp : (s.proc p).state ≠ .unused)
    (hn : n ≠ 0) (hr : Resized L s p n s') : Accounted L s' := by
  have hm := hr.memory h hp hn
  obtain ⟨sz, _, hproc⟩ := hr.mem
  have hother : ∀ q, q ≠ p → s'.proc q = s.proc q := by
    intro q hq
    rw [hproc, Function.update_of_ne hq]
  have hself : (s'.proc p).state = (s.proc p).state ∧ (s'.proc p).pgdir = (s.proc p).pgdir ∧
      (s'.proc p).kstack = (s.proc p).kstack ∧ (s'.proc p).parent = (s.proc p).parent := by
    rw [hproc, Function.update_self]
    exact ⟨rfl, rfl, rfl, rfl⟩
  have hstate : ∀ q, (s'.proc q).state = (s.proc q).state ∧
      (s'.proc q).pgdir = (s.proc q).pgdir ∧ (s'.proc q).kstack = (s.proc q).kstack ∧
      (s'.proc q).parent = (s.proc q).parent := by
    intro q
    by_cases hq : q = p
    · rw [hq]
      exact hself
    · rw [hother q hq]
      exact ⟨rfl, rfl, rfl, rfl⟩
  have hspace : ∀ a g, s'.space a g ↔ s.space a g := by
    intro a g
    cases a with
    | kernel =>
      show g = s'.kpgdir ↔ g = s.kpgdir
      rw [hr.rest.kpgdir]
    | proc q =>
      show (_ ∧ _) ↔ (_ ∧ _)
      rw [(hstate q).1, (hstate q).2.1]
  have hholder : ∀ a g, s'.holder a g ↔ s.holder a g := by
    intro a g
    cases a with
    | boot i =>
      show s'.bootStacks[i]? = some g ↔ s.bootStacks[i]? = some g
      rw [hr.rest.bootStacks]
    | pipe f =>
      show (_ ∧ _) ↔ (_ ∧ _)
      rw [hr.rest.pipe]
    | stack q =>
      show (_ ∧ _) ↔ (_ ∧ _)
      rw [(hstate q).1, (hstate q).2.2.1]
  obtain ⟨hspaces, hD⟩ := h.spaces.congr hspace
  obtain ⟨hholders, hX⟩ := h.holders.congr hholder
  refine ⟨hspaces, hholders, ?_, fun g hg v h1 h2 => ?_, fun q hq => ?_, hr.rest.ends h.ends,
    fun q hq hne => ?_⟩
  · rw [hD, hX]
    exact hm.sound
  · rw [hD] at hg
    rw [← h.kernel g hg v h1 h2]
    by_cases hgp : g = (s.proc p).pgdir
    · rw [hgp]
      exact hm.high v (by omega) h2
    · exact (hm.others g ⟨hg, hgp⟩).2 v h2
  · by_cases hqp : q = p
    · subst hqp
      rw [(hstate q).2.1]
      exact ⟨hm.size, hm.top⟩
    · rw [hother q hqp] at hq ⊢
      obtain ⟨hle, hnone⟩ := h.sizes q hq
      refine ⟨hle, fun v hv hge => ?_⟩
      rw [(hm.others _ ⟨Accounted.dir_mem hq, h.dir_ne hp hq hqp⟩).2 v (by omega)]
      exact hnone v hv hge
  · rw [(hstate q).1] at hq
    rw [hr.rest.initproc] at hne
    rw [(hstate q).2.2.2]
    exact h.parented q hq hne

/-! ## `exec` -/

/-- The new directory `d` after the sharing, in `σ₂`; it was loaded in `σ₁`. -/
structure ShareMemory (L : Layout) (s : Sys) (p : Slot) (argv : List CString) (d sz : Nat)
    (σ₁ : Phys) (res : ShareResult) (es : List Shared) (σ₂ : Phys) : Prop where
  fresh : d ∉ named s.space
  loaded : SameTables (named s.space) s.phys.mem σ₁.mem
  window : ∀ v, 262144 ≤ v → v < 1048576 → pteAt σ₁.mem d v = kmapPte (kmap L) v
  shared : (asksSharing argv = false ∧ res = .done ∧ es = (s.proc p).shared.entries ∧ σ₂ = σ₁) ∨
    (asksSharing argv = true ∧ Accessed (insert d (named s.space)) d (s.proc p).parentPgdir 262144
      (s.proc p).shared.entries res es σ₁ σ₂)
  sound : Sound L (insert d (named s.space)) (named s.holder) σ₂
  same : SameTables (named s.space) s.phys.mem σ₂.mem
  size : sz ≤ sharedbase
  image : Image σ₂.mem d sz
  kernel : ∀ v, 524288 ≤ v → v < 1048576 → pteAt σ₂.mem d v = kmapPte (kmap L) v

section Exec

variable {file : Option (List UInt8)} {argv : List CString} {d sz entry : Nat} {σ₁ σ₂ : Phys}
  {res : ShareResult} {es : List Shared}

theorem Shares.memory (h : Accounted L s) (hs : Shares L s p file argv d sz entry σ₁ res es σ₂)
    (hres : res ≠ .noMemory) : ShareMemory L s p argv d sz σ₁ res es σ₂ := by
  obtain ⟨hloaded, hcase⟩ := (execLoad_spec (E := anyPanic) file h.sound).post hs.load
  obtain ⟨hnone, _⟩ | ⟨d', sz', entry', heq, _, hfresh, h₁, hsz, himg, hwin⟩ := hcase
  · cases hnone
  have heq' := Option.some.inj heq
  cases heq'
  have hd : d ∈ insert d (named s.space) := Set.mem_insert d _
  have hDd : insert d (named s.space) \ {d} = named s.space :=
    Set.insert_sdiff_self_of_notMem hfresh
  have hkern : pteAt σ₁.mem d 524288 ≠ none := by
    rw [hwin 524288 (by decide) (by decide)]
    exact kmapPte_kernbase h.data_lt
  obtain ⟨hno, _⟩ | ⟨_, h₂, hcase, _⟩ := (execShare_spec (E := anyPanic) h₁ hd (fun _ => trivial)
    (fun _ => trivial) hkern (fun _ _ _ _ => trivial) (Or.inr (fun _ => trivial))).post hs.share
  · exact absurd hno hres
  obtain ⟨hask, hr, rfl⟩ | ⟨hask, hacc⟩ := hcase
  · cases hr
    exact ⟨hfresh, hloaded, hwin, Or.inl ⟨hask, rfl, rfl, rfl⟩, h₂, hloaded, hsz, himg,
      fun v h1 h2 => hwin v (by omega) h2⟩
  · have hothers : SameTables (named s.space) σ₁.mem σ₂.mem := by
      have := hacc.others
      rw [hDd] at this
      exact this
    have hsz' : sz ≤ 1073741824 := hsz
    refine ⟨hfresh, hloaded, hwin, Or.inr ⟨hask, hacc⟩, h₂, hloaded.trans hothers, hsz,
      ⟨fun v hv => ?_, fun v hv hge => ?_⟩, fun v h1 h2 => ?_⟩
    · rw [hacc.outside v (by omega) (Or.inl (by omega))]
      exact himg.inside v hv
    · rw [hacc.outside v (by omega) (Or.inl hv)]
      exact himg.above v hv hge
    · rw [hacc.outside v h2 (Or.inr h1)]
      exact hwin v (by omega) h2

/-- No user pages in the kernel's half. -/
theorem ShareMemory.kernelOnly (h : Accounted L s)
    (hm : ShareMemory L s p argv d sz σ₁ res es σ₂) : KernelOnly σ₂.mem d := by
  intro x h1 h2 w hw
  rw [hm.kernel x h1 h2] at hw
  exact kmapPte_notUser h.data_lt hw

theorem noImage_steady {σ : Phys} (h : Accounted L s)
    (hload : execLoad L file s.phys = .ok (none, σ)) : Steady L s (s.withPhys σ) := by
  obtain ⟨hsame, hcase⟩ := (execLoad_spec (E := anyPanic) file h.sound).post hload
  obtain ⟨_, hsound⟩ | ⟨d, sz, entry, hsome, _⟩ := hcase
  · refine (Steady.refl h).alike (Alike.of_eq rfl rfl rfl rfl) (fun _ => Iff.rfl) ?_ hsound hsame
    exact h.ends.congr rfl (fun _ _ => Iff.rfl) h.ends.closed
  · cases hsome

/-- The condition under which the sharing of an `exec` leaves foreign frames
alone: the allocator does not run dry in the middle. -/
def SharingFits (L : Layout) (s : Sys) (c : Slot × Act) : Prop :=
  ∀ path file argv, c.2 = .exec path file argv → ∀ d sz entry σ₁ es σ₂,
    ¬ Shares L s c.1 file argv d sz entry σ₁ .noMemory es σ₂

theorem SharingFits.ne {path : Option CString} (h : SharingFits L s (p, .exec path file argv))
    (hs : Shares L s p file argv d sz entry σ₁ res es σ₂) : res ≠ .noMemory := by
  intro he
  rw [he] at hs
  exact h path file argv rfl d sz entry σ₁ es σ₂ hs

theorem ExecFailed.alike (hf : ExecFailed L s p file argv s') : Alike s s' := by
  obtain ⟨d, sz, entry, σ₁, res, es, σ₂, σ₃, _, _, _, hproc⟩ := hf.mem
  exact Alike.update hproc rfl rfl rfl rfl rfl hf.rest.kpgdir hf.rest.bootStacks hf.rest.initproc

/-- A failed `exec` leaves the directories as they were. -/
theorem ExecFailed.memory {path : Option CString} (h : Accounted L s)
    (hp : (s.proc p).state ≠ .unused) (hfit : SharingFits L s (p, .exec path file argv))
    (hlen : argv.length < 32) (hargs : ∀ arg ∈ argv, arg.bytes.length < (s.proc p).sz)
    (hf : ExecFailed L s p file argv s') :
    Sound L (named s.space) (named s.holder) s'.phys ∧
      SameTables (named s.space) s.phys.mem s'.phys.mem := by
  obtain ⟨d, sz, entry, σ₁, res, es, σ₂, σ₃, hs, hstack, hfree, _⟩ := hf.mem
  have hm := hs.memory h (hfit.ne hs)
  have hd : d ∈ insert d (named s.space) := Set.mem_insert d _
  have hDd : insert d (named s.space) \ {d} = named s.space :=
    Set.insert_sdiff_self_of_notMem hm.fresh
  have hsz := (h.sizes p hp).1
  obtain ⟨h₃, hs₃, _, _⟩ := (execStack_spec (E := anyPanic) hm.sound hd hm.image hm.size
    (hm.kernelOnly h) hlen (fun arg harg => lt_of_lt_of_le (hargs arg harg) hsz)
    (fun hc => absurd trivial hc)).post hstack
  rw [hDd] at hs₃
  obtain ⟨h₄, hs₄, _⟩ := (freevm_spec (E := anyPanic) h₃ hd).post hfree
  rw [hDd] at h₄ hs₄
  exact ⟨h₄, (hm.same.trans hs₃).trans hs₄⟩

theorem ExecFailed.steady {path : Option CString} (h : Accounted L s)
    (hp : (s.proc p).state ≠ .unused) (hfit : SharingFits L s (p, .exec path file argv))
    (hlen : argv.length < 32) (hargs : ∀ arg ∈ argv, arg.bytes.length < (s.proc p).sz)
    (hf : ExecFailed L s p file argv s') : Steady L s s' := by
  obtain ⟨hsound, hsame⟩ := hf.memory h hp hfit hlen hargs
  refine (Steady.refl h).alike hf.alike (fun g => ?_) (hf.rest.ends h.ends) hsound hsame
  rw [hf.rest.pipe]

/-- Memory after a successful `exec` that built directory `d`. -/
structure ExecMemory (L : Layout) (s : Sys) (p : Slot) (d sz' : Nat) (σ₂ : Phys) (s' : Sys) :
    Prop where
  built : Built d sz' σ₂ s'.phys
  sound : Sound L (insert d (named s.space) \ {(s.proc p).pgdir}) (named s.holder) s'.phys
  same : SameTables (named s.space \ {(s.proc p).pgdir}) s.phys.mem s'.phys.mem

theorem Execed.memory {path : CString} (h : Accounted L s) (hp : (s.proc p).state ≠ .unused)
    (hfit : SharingFits L s (p, .exec (some path) file argv))
    (hlen : argv.length < 32) (hargs : ∀ arg ∈ argv, arg.bytes.length < (s.proc p).sz)
    (hx : Execed L s p path file argv s') :
    ∃ d sz entry σ₁ res es σ₂ sz' sp, Shares L s p file argv d sz entry σ₁ res es σ₂ ∧
      ShareMemory L s p argv d sz σ₁ res es σ₂ ∧ ExecMemory L s p d sz' σ₂ s' ∧
      s'.proc = Function.update s.proc p (execProc (s.proc p) path es d sz' entry sp) := by
  obtain ⟨d, sz, entry, σ₁, res, es, σ₂, sz', sp, σ₃, hs, hstack, hfree, hproc⟩ := hx.mem
  have hm := hs.memory h (hfit.ne hs)
  have hd : d ∈ insert d (named s.space) := Set.mem_insert d _
  have hold : (s.proc p).pgdir ∈ insert d (named s.space) :=
    Set.mem_insert_of_mem d (Accounted.dir_mem hp)
  have hne : d ≠ (s.proc p).pgdir := fun he => hm.fresh (he ▸ Accounted.dir_mem hp)
  have hDd : insert d (named s.space) \ {d} = named s.space :=
    Set.insert_sdiff_self_of_notMem hm.fresh
  have hsz := (h.sizes p hp).1
  obtain ⟨h₃, hs₃, hbuilt, _⟩ := (execStack_spec (E := anyPanic) hm.sound hd hm.image hm.size
    (hm.kernelOnly h) hlen (fun arg harg => lt_of_lt_of_le (hargs arg harg) hsz)
    (fun hc => absurd trivial hc)).post hstack
  rw [hDd] at hs₃
  obtain ⟨h₄, hs₄, _⟩ := (freevm_spec (E := anyPanic) h₃ hold).post hfree
  refine ⟨d, sz, entry, σ₁, res, es, σ₂, sz', sp, hs, hm,
    ⟨(hbuilt sz' sp rfl).of_sameTables
      (show d ∈ insert d (named s.space) \ {(s.proc p).pgdir} from ⟨hd, hne⟩) hs₄, h₄, ?_⟩, hproc⟩
  refine ((hm.same.trans hs₃).mono Set.sdiff_subset).trans (hs₄.mono ?_)
  exact Set.sdiff_subset_sdiff_left (Set.subset_insert d _)

theorem Execed.accounted {path : CString} (h : Accounted L s) (hp : (s.proc p).state ≠ .unused)
    (hfit : SharingFits L s (p, .exec (some path) file argv))
    (hlen : argv.length < 32) (hargs : ∀ arg ∈ argv, arg.bytes.length < (s.proc p).sz)
    (hx : Execed L s p path file argv s') : Accounted L s' := by
  obtain ⟨d, sz, entry, σ₁, res, es, σ₂, sz', sp, hs, hm, hx', hproc⟩ :=
    hx.memory h hp hfit hlen hargs
  have hne : d ≠ (s.proc p).pgdir := fun he => hm.fresh (he ▸ Accounted.dir_mem hp)
  have hself : s'.proc p = execProc (s.proc p) path es d sz' entry sp := by
    rw [hproc, Function.update_self]
  have hother : ∀ q, q ≠ p → s'.proc q = s.proc q := by
    intro q hq
    rw [hproc, Function.update_of_ne hq]
  -- the process drops its directory and takes the new one
  have hdrop : ∀ a g, (s.space a g ∧ a ≠ .proc p) ↔ s.space a g ∧ a ≠ .proc p :=
    fun _ _ => Iff.rfl
  obtain ⟨hspaces₁, hD₁⟩ := h.spaces.drop (show s.space (.proc p) _ from ⟨hp, rfl⟩) hdrop
  have hadd : ∀ a g, s'.space a g ↔ (s.space a g ∧ a ≠ .proc p) ∨ (a = .proc p ∧ g = d) := by
    intro a g
    cases a with
    | kernel =>
      show g = s'.kpgdir ↔ (g = s.kpgdir ∧ _) ∨ _
      rw [hx.rest.kpgdir]
      simp
    | proc q =>
      show ((s'.proc q).state ≠ .unused ∧ g = (s'.proc q).pgdir) ↔
        (((s.proc q).state ≠ .unused ∧ g = (s.proc q).pgdir) ∧ _) ∨ _
      by_cases hq : q = p
      · subst hq
        rw [hself]
        simp [execProc, hp]
      · rw [hother q hq]
        simp [hq]
  obtain ⟨hspaces, hD⟩ := hspaces₁.add (fun g hg => hg.2 rfl)
    (fun hmem => hm.fresh (by rw [hD₁] at hmem; exact hmem.1)) hadd
  have hDeq : named s'.space = insert d (named s.space) \ {(s.proc p).pgdir} := by
    rw [hD, hD₁, Set.insert_sdiff_of_notMem _ (by simpa using hne)]
  have hholder : ∀ a g, s'.holder a g ↔ s.holder a g := by
    intro a g
    cases a with
    | boot i =>
      show s'.bootStacks[i]? = some g ↔ s.bootStacks[i]? = some g
      rw [hx.rest.bootStacks]
    | pipe f =>
      show (_ ∧ _) ↔ (_ ∧ _)
      rw [hx.rest.pipe]
    | stack q =>
      show (_ ∧ _) ↔ (_ ∧ _)
      by_cases hq : q = p
      · subst hq
        rw [hself]
        rfl
      · rw [hother q hq]
  obtain ⟨hholders, hX⟩ := h.holders.congr hholder
  refine ⟨hspaces, hholders, ?_, fun g hg v h1 h2 => ?_, fun q hq => ?_, hx.rest.ends h.ends,
    fun q hq hne' => ?_⟩
  · rw [hDeq, hX]
    exact hx'.sound
  · rw [hD, hD₁] at hg
    obtain rfl | hg := hg
    · rw [hx'.built.high v (by omega) h2]
      exact hm.kernel v h1 h2
    · rw [(hx'.same g hg).2 v h2]
      exact h.kernel g hg.1 v h1 h2
  · by_cases hqp : q = p
    · subst hqp
      rw [hself]
      exact ⟨hx'.built.size, hx'.built.image.above⟩
    · rw [hother q hqp] at hq ⊢
      obtain ⟨hle, hnone⟩ := h.sizes q hq
      refine ⟨hle, fun v hv hge => ?_⟩
      rw [(hx'.same _ ⟨Accounted.dir_mem hq, h.dir_ne hp hq hqp⟩).2 v (by omega)]
      exact hnone v hv hge
  · rw [hx.rest.initproc] at hne'
    by_cases hqp : q = p
    · subst hqp
      rw [hself]
      exact h.parented q hp hne'
    · rw [hother q hqp] at hq ⊢
      exact h.parented q hq hne'

end Exec

/-! ## One step -/

theorem shared_steady (h : Accounted L s) (p : Slot) (t : Table) :
    Steady L s (s.withProc p { s.proc p with shared := t }) :=
  (Steady.refl h).alike_phys (Alike.update (p := p) rfl rfl rfl rfl rfl rfl rfl rfl rfl)
    (fun _ => Iff.rfl) (h.ends.congr rfl (fun _ _ => Iff.rfl) h.ends.closed) rfl

/-- A step whose sharing fits keeps the frames accounted for. -/
theorem Returns.accounted {a : Act} {r : Int} (h : Accounted L s) (hfit : SharingFits L s (p, a))
    (hret : Returns L s p a r s') : Accounted L s' := by
  have hp := hret.inUse
  have hrun := hret.2
  cases hret.effect with
  | idle => exact h
  | shared => exact (shared_steady h p _).accounted
  | files ha _ => exact ((onFiles_steady ha (Steady.refl h)).post hrun).accounted
  | forkFailed hf => exact (hf.steady h hp).accounted
  | forked hf => exact hf.accounted h hp
  | noImage hload => exact (noImage_steady h hload).accounted
  | execFailed hlen hargs hf => exact (hf.steady h hp hfit hlen hargs).accounted
  | execed hlen hargs hx => exact hx.accounted h hp hfit hlen hargs
  | resized hn hr => exact hr.accounted h hp hn
  | exited hx => exact (hx.steady h hret.1).accounted
  | reaped hr => exact hr.accounted h

/-- Neither UNUSED nor ZOMBIE. -/
def ProcState.Live (st : ProcState) : Prop := st ≠ .unused ∧ st ≠ .zombie

theorem live_runnable : ProcState.runnable.Live := ⟨ProcState.noConfusion, ProcState.noConfusion⟩

/-- A process that runs or can run again. -/
def Proc.Live (q : Proc) : Prop := q.state.Live

theorem live_of_runnable {q : Proc} (h : q.state = .runnable) : q.Live := by
  unfold Proc.Live
  rw [h]
  exact live_runnable

theorem Returns.live {a : Act} {r : Int} (h : Returns L s p a r s') : (s.proc p).Live :=
  live_of_runnable h.1

/-- What a step did to the page tables: nothing, or one directory was added,
resized, replaced or dropped. -/
inductive Remapped (L : Layout) (s : Sys) (p : Slot) : Act → Sys → Prop
  | steady {a : Act} {s' : Sys} : Steady L s s' → (∀ q, (s'.proc q).Live → (s.proc q).Live) →
      (∀ q, (s'.proc q).parentPgdir = (s.proc q).parentPgdir) → Remapped L s p a s'
  | forked {np : Slot} {k d : Nat} {s' : Sys} : Forked L s p np k d s' →
      ForkMemory L s p k d s' → Remapped L s p .fork s'
  | resized {n : Int} {s' : Sys} : Resized L s p n s' → ResizeMemory L s p n s' →
      Remapped L s p (.sbrk (some n)) s'
  | execed {path : CString} {file : Option (List UInt8)} {argv : List CString} {d sz entry : Nat}
      {σ₁ : Phys} {res : ShareResult} {es : List Shared} {σ₂ : Phys} {sz' sp : Nat} {s' : Sys} :
      Shares L s p file argv d sz entry σ₁ res es σ₂ →
      ShareMemory L s p argv d sz σ₁ res es σ₂ → ExecMemory L s p d sz' σ₂ s' →
      s'.proc = Function.update s.proc p (execProc (s.proc p) path es d sz' entry sp) →
      Remapped L s p (.exec (some path) file argv) s'
  | reaped {q : Slot} {s' : Sys} : Reaped L s p q s' →
      SameTables (named s.space \ {(s.proc q).pgdir}) s.phys.mem s'.phys.mem →
      Remapped L s p .wait s'

theorem Returns.remapped {a : Act} {r : Int} (h : Accounted L s) (hfit : SharingFits L s (p, a))
    (hret : Returns L s p a r s') : Remapped L s p a s' := by
  have hp := hret.inUse
  have hrun := hret.2
  -- a change of one slot that keeps its state and `parent_pgdir`
  have hone : ∀ {q : Slot} {r : Proc}, Steady L s s' → s'.proc = Function.update s.proc q r →
      r.state = (s.proc q).state → r.parentPgdir = (s.proc q).parentPgdir →
      Remapped L s p a s' := by
    intro q r hst hproc hstate hpar
    refine .steady hst (fun q' hl => ?_) (fun q' => ?_)
    · unfold Proc.Live at hl ⊢
      rw [hproc, Function.update_apply] at hl
      split at hl
      · rename_i heq
        rw [heq, ← hstate]
        exact hl
      · exact hl
    · rw [hproc, Function.update_apply]
      split
      · rename_i heq
        rw [heq, hpar]
      · rfl
  cases hret.effect with
  | idle => exact .steady (Steady.refl h) (fun _ hl => hl) (fun _ => rfl)
  | shared => exact hone (shared_steady h p _) rfl rfl rfl
  | files ha hof =>
    obtain ⟨o, ho⟩ := hof.proc
    exact hone ((onFiles_steady ha (Steady.refl h)).post hrun) ho rfl rfl
  | forkFailed hf =>
    have hst := hf.steady h hp
    obtain hproc | ⟨np, pid, k, d, _, hproc⟩ := hf.proc
    · exact .steady hst (fun q hl => by rw [hproc] at hl; exact hl)
        (fun q => by rw [hproc])
    · exact hone hst hproc rfl rfl
  | forked hf => exact .forked hf (hf.memory h hp)
  | noImage hload => exact .steady (noImage_steady h hload) (fun _ hl => hl) (fun _ => rfl)
  | execFailed hlen hargs hf =>
    have hst := hf.steady h hp hfit hlen hargs
    obtain ⟨d, sz, entry, σ₁, res, es, σ₂, σ₃, _, _, _, hproc⟩ := hf.mem
    exact hone hst hproc rfl rfl
  | execed hlen hargs hx =>
    obtain ⟨d, sz, entry, σ₁, res, es, σ₂, sz', sp, hs, hm, hx', hproc⟩ :=
      hx.memory h hp hfit hlen hargs
    exact .execed hs hm hx' hproc
  | resized hn hr => exact .resized hr (hr.memory h hp hn)
  | exited hx =>
    obtain ⟨o, hself⟩ := hx.self
    refine .steady (hx.steady h hret.1) (fun q hl => ?_) (fun q => ?_)
    · by_cases hq : q = p
      · rw [hq, hself] at hl
        exact absurd rfl hl.2
      · rw [hx.others q hq] at hl
        exact hl
    · by_cases hq : q = p
      · rw [hq, hself]
      · rw [hx.others q hq]
  | reaped hr => exact .reaped hr (hr.memory h).2

end

end Xv6Sharing.Process
