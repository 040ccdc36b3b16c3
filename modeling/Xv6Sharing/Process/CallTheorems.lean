/-
Xv6Sharing.Process.CallTheorems — what each system call can do.

One lemma per call lists the ways it can return: the memory code it ran,
with its outcome, and the machine it left. The proofs walk through the code
once; everything later is derived from these lists and never unfolds a call
again. Code that only touches descriptors, files, pipes and pipe pages is
summed up by `OnlyFiles`.
-/
import Xv6Sharing.Process.System

namespace Xv6Sharing.Process

open Lib Vm Share

/-- Any panic: for statements about calls that return. -/
def anyPanic : Panic → Prop := fun _ => True

section

variable {L : Layout} {s s' : Sys} {p q : Slot} {E : Panic → Prop}

/-! ## Running code on the machine -/

section With

variable (s : Sys) (σ : Phys) (p : Slot) (q : Proc) (i : FileSlot) (f : File) (n : Nat) (g : Pipe)

@[simp] theorem withPhys_phys : (s.withPhys σ).phys = σ := rfl
@[simp] theorem withPhys_proc : (s.withPhys σ).proc = s.proc := rfl
@[simp] theorem withPhys_file : (s.withPhys σ).file = s.file := rfl
@[simp] theorem withPhys_pipe : (s.withPhys σ).pipe = s.pipe := rfl
@[simp] theorem withProc_phys : (s.withProc p q).phys = s.phys := rfl
@[simp] theorem withProc_proc : (s.withProc p q).proc = Function.update s.proc p q := rfl
@[simp] theorem withProc_file : (s.withProc p q).file = s.file := rfl
@[simp] theorem withProc_pipe : (s.withProc p q).pipe = s.pipe := rfl
@[simp] theorem withFile_phys : (s.withFile i f).phys = s.phys := rfl
@[simp] theorem withFile_proc : (s.withFile i f).proc = s.proc := rfl
@[simp] theorem withFile_file : (s.withFile i f).file = Function.update s.file i f := rfl
@[simp] theorem withFile_pipe : (s.withFile i f).pipe = s.pipe := rfl
@[simp] theorem withPipe_phys : (s.withPipe n g).phys = s.phys := rfl
@[simp] theorem withPipe_proc : (s.withPipe n g).proc = s.proc := rfl
@[simp] theorem withPipe_file : (s.withPipe n g).file = s.file := rfl
@[simp] theorem withPipe_pipe : (s.withPipe n g).pipe = Function.update s.pipe n g := rfl

end With

theorem onPhys_ok {α : Type} {c : Kern α} {a : α} {σ : Phys} (h : c s.phys = .ok (a, σ)) :
    onPhys c s = .ok (a, s.withPhys σ) := by
  unfold onPhys
  rw [h]

theorem Spec.onPhys {α : Type} {c : Kern α} {Q : α → Sys → Prop}
    (hok : ∀ a σ, c s.phys = .ok (a, σ) → Q a (s.withPhys σ))
    (herr : ∀ e, c s.phys = .error e → E e) : Spec E (Process.onPhys c) s Q := by
  cases h : c s.phys with
  | ok r =>
    obtain ⟨a, σ⟩ := r
    exact Lib.Spec.of_ok (onPhys_ok h) (hok a σ h)
  | error e =>
    refine Lib.Spec.of_error ?_ (herr e h)
    unfold Process.onPhys
    rw [h]

theorem Spec.lift {α : Type} {c : Kern α} {Q : α → Phys → Prop} (h : Spec E c s.phys Q) :
    Spec E (Process.onPhys c) s (fun a s' => ∃ σ, s' = s.withPhys σ ∧ Q a σ) := by
  refine Spec.onPhys (fun a σ hr => ⟨σ, rfl, h.post hr⟩) (fun e he => ?_)
  unfold Lib.Spec at h
  rw [he] at h
  exact h

theorem setProc_run (p : Slot) (f : Proc → Proc) (s : Sys) :
    setProc p f s = .ok ((), s.withProc p (f (s.proc p))) := rfl

theorem setFile_run (i : FileSlot) (f : File → File) (s : Sys) :
    setFile i f s = .ok ((), s.withFile i (f (s.file i))) := rfl

theorem iget_run (ip : Nat) (s : Sys) :
    iget ip s = .ok ((), s.withIref (Function.update s.iref ip (s.iref ip + 1))) := rfl

theorem iput_run (ip : Nat) (s : Sys) :
    iput ip s = .ok ((), s.withIref (Function.update s.iref ip (s.iref ip - 1))) := rfl

theorem setPipe_run (f : Nat) (g : Pipe → Pipe) (s : Sys) :
    setPipe f g s = .ok ((), s.withPipe f (g (s.pipe f))) := rfl

/-! ## Descriptors and files -/

/-- From `s` to `s'` only files, pipes, memory and the descriptors of `p`
changed. -/
structure OnlyFiles (p : Slot) (s s' : Sys) : Prop where
  proc : ∃ o, s'.proc = Function.update s.proc p { s.proc p with ofile := o }
  kpgdir : s'.kpgdir = s.kpgdir
  bootStacks : s'.bootStacks = s.bootStacks
  initproc : s'.initproc = s.initproc
  nextpid : s'.nextpid = s.nextpid

theorem OnlyFiles.refl (p : Slot) (s : Sys) : OnlyFiles p s s :=
  ⟨⟨(s.proc p).ofile, (Function.update_eq_self p s.proc).symm⟩, rfl, rfl, rfl, rfl⟩

theorem OnlyFiles.withPhys (p : Slot) (s : Sys) (σ : Phys) : OnlyFiles p s (s.withPhys σ) :=
  ⟨⟨(s.proc p).ofile, (Function.update_eq_self p s.proc).symm⟩, rfl, rfl, rfl, rfl⟩

theorem OnlyFiles.withFile (p : Slot) (s : Sys) (i : FileSlot) (f : File) :
    OnlyFiles p s (s.withFile i f) :=
  ⟨⟨(s.proc p).ofile, (Function.update_eq_self p s.proc).symm⟩, rfl, rfl, rfl, rfl⟩

theorem OnlyFiles.withPipe (p : Slot) (s : Sys) (n : Nat) (g : Pipe) :
    OnlyFiles p s (s.withPipe n g) :=
  ⟨⟨(s.proc p).ofile, (Function.update_eq_self p s.proc).symm⟩, rfl, rfl, rfl, rfl⟩

theorem OnlyFiles.withIref (p : Slot) (s : Sys) (r : Nat → Nat) : OnlyFiles p s (s.withIref r) :=
  ⟨⟨(s.proc p).ofile, (Function.update_eq_self p s.proc).symm⟩, rfl, rfl, rfl, rfl⟩

theorem OnlyFiles.ofile (p : Slot) (s : Sys) (o : Fd → Option FileSlot) :
    OnlyFiles p s (s.withProc p { s.proc p with ofile := o }) :=
  ⟨⟨o, rfl⟩, rfl, rfl, rfl, rfl⟩

theorem OnlyFiles.trans {s'' : Sys} (h : OnlyFiles p s s') (h' : OnlyFiles p s' s'') :
    OnlyFiles p s s'' := by
  obtain ⟨o, ho⟩ := h.proc
  obtain ⟨o', ho'⟩ := h'.proc
  refine ⟨⟨o', ?_⟩, h'.kpgdir.trans h.kpgdir, h'.bootStacks.trans h.bootStacks,
    h'.initproc.trans h.initproc, h'.nextpid.trans h.nextpid⟩
  rw [ho', ho, Function.update_self, Function.update_idem]

/-- All fields but the descriptors are as before, in every slot. -/
theorem OnlyFiles.proc_eq (h : OnlyFiles p s s') (q : Slot) :
    ∃ o, s'.proc q = { s.proc q with ofile := o } := by
  obtain ⟨o, ho⟩ := h.proc
  by_cases hq : q = p
  · subst hq
    exact ⟨o, by rw [ho, Function.update_self]⟩
  · exact ⟨(s.proc q).ofile, by rw [ho, Function.update_of_ne hq]⟩

theorem filealloc_cases : Spec E filealloc s (fun r s' =>
    (r = none ∧ s' = s) ∨ ∃ i, r = some i ∧ (s.file i).ref = 0 ∧
      s' = s.withFile i { s.file i with ref := 1 }) := by
  unfold filealloc
  refine Spec.seq_ok (get_run s) ?_
  cases h : (List.finRange 100).find? fun i => decide ((s.file i).ref = 0) with
  | none => exact Spec.pure (Or.inl ⟨rfl, rfl⟩)
  | some i =>
    refine Spec.seq_ok (setFile_run i _ s) (Spec.pure (Or.inr ⟨i, rfl, ?_, rfl⟩))
    have := List.find?_some h
    exact of_decide_eq_true this

theorem filedup_cases {i : FileSlot} (herr : E .filedup) : Spec E (filedup i) s (fun _ s' =>
    1 ≤ (s.file i).ref ∧
      s' = s.withFile i { s.file i with ref := (s.file i).ref + 1 }) := by
  unfold filedup
  refine Spec.seq_ok (get_run s) ?_
  by_cases h : (s.file i).ref < 1
  · rw [if_pos h]
    exact Spec.throw herr
  · rw [if_neg h]
    exact Spec.of_ok (setFile_run i _ s) ⟨by omega, rfl⟩

theorem fdalloc_cases {i : FileSlot} : Spec E (fdalloc p i) s (fun r s' =>
    (r = none ∧ s' = s) ∨ ∃ fd, r = some fd ∧ (s.proc p).ofile fd = none ∧
      s' = s.withProc p
        { s.proc p with ofile := Function.update (s.proc p).ofile fd (some i) }) := by
  unfold fdalloc
  refine Spec.seq_ok (get_run s) ?_
  cases h : (List.finRange 16).find? fun fd => decide ((s.proc p).ofile fd = none) with
  | none => exact Spec.pure (Or.inl ⟨rfl, rfl⟩)
  | some fd =>
    refine Spec.seq_ok (setProc_run p _ s) (Spec.pure (Or.inr ⟨fd, rfl, ?_, rfl⟩))
    have := List.find?_some h
    exact of_decide_eq_true this

/-- The fields of a pipe with one end closed. -/
def Pipe.closed (g : Pipe) (w : Bool) : Pipe :=
  if w then { g with writeopen := false } else { g with readopen := false }

/-- `pipeclose` closes one end and frees the page when both are closed. -/
theorem pipeclose_cases {f : Nat} {w : Bool} (hE : E .kfree) :
    Spec E (pipeclose L f w) s (fun _ s' =>
      (((s.pipe f).closed w).readopen = false ∧ ((s.pipe f).closed w).writeopen = false ∧
        ∃ σ, kfree L f s.phys = .ok ((), σ) ∧
          s' = (s.withPipe f ((s.pipe f).closed w)).withPhys σ) ∨
      (¬ (((s.pipe f).closed w).readopen = false ∧ ((s.pipe f).closed w).writeopen = false) ∧
        s' = s.withPipe f ((s.pipe f).closed w))) := by
  unfold pipeclose
  refine Spec.seq_ok (setPipe_run f _ s) ?_
  refine Spec.seq_ok (get_run _) ?_
  have hself : (s.withPipe f ((s.pipe f).closed w)).pipe f = (s.pipe f).closed w :=
    Function.update_self ..
  show Spec E (if ((s.withPipe f ((s.pipe f).closed w)).pipe f).readopen = false ∧
    ((s.withPipe f ((s.pipe f).closed w)).pipe f).writeopen = false then _ else _)
    (s.withPipe f ((s.pipe f).closed w)) _
  rw [hself]
  by_cases h : ((s.pipe f).closed w).readopen = false ∧ ((s.pipe f).closed w).writeopen = false
  · rw [if_pos h]
    exact Spec.onPhys (fun _ σ hσ => Or.inl ⟨h.1, h.2, σ, hσ, rfl⟩)
      (fun e he => kfree_error he ▸ hE)
  · rw [if_neg h]
    exact Spec.pure (Or.inr ⟨h, rfl⟩)

/-- `fileclose`: one reference less; the last one closes a pipe end or gives the inode up. -/
theorem fileclose_cases {i : FileSlot} (hE : E .kfree)
    (href : (s.file i).ref < 1 → E .fileclose) : Spec E (fileclose L i) s (fun _ s' =>
    (1 < (s.file i).ref ∧ s' = s.withFile i { s.file i with ref := (s.file i).ref - 1 }) ∨
    ((s.file i).ref = 1 ∧ (s.file i).type = .none ∧
      s' = s.withFile i { s.file i with ref := 0, type := .none }) ∨
    ((s.file i).ref = 1 ∧ (s.file i).type = .inode ∧
      s' = (s.withFile i { s.file i with ref := 0, type := .none }).withIref
        (Function.update s.iref (s.file i).ip (s.iref (s.file i).ip - 1))) ∨
    ((s.file i).ref = 1 ∧ (s.file i).type = .pipe ∧
      pipeclose L (s.file i).pipe (s.file i).writable
        (s.withFile i { s.file i with ref := 0, type := .none }) = .ok ((), s'))) := by
  unfold fileclose
  refine Spec.seq_ok (get_run s) ?_
  dsimp only
  by_cases h0 : (s.file i).ref < 1
  · rw [if_pos h0]
    exact Spec.throw (href h0)
  rw [if_neg h0]
  by_cases h1 : (s.file i).ref > 1
  · rw [if_pos h1]
    exact Spec.of_ok (setFile_run i _ s) (.inl ⟨h1, rfl⟩)
  rw [if_neg h1]
  refine Spec.seq_ok (setFile_run i _ s) ?_
  have hone : (s.file i).ref = 1 := by omega
  cases ht : (s.file i).type with
  | none => exact Spec.pure (.inr (.inl ⟨hone, rfl, rfl⟩))
  | inode => exact Spec.of_ok (iput_run _ _) (.inr (.inr (.inl ⟨hone, rfl, rfl⟩)))
  | pipe =>
    rw [if_pos rfl]
    cases hr : pipeclose L (s.file i).pipe (s.file i).writable
        (s.withFile i { s.file i with ref := 0, type := .none }) with
    | error e => exact Spec.of_error hr ((pipeclose_cases hE).error hr)
    | ok r => exact Spec.of_ok hr (.inr (.inr (.inr ⟨hone, rfl, rfl⟩)))

theorem pipeclose_onlyFiles {f : Nat} {w : Bool} :
    Spec anyPanic (pipeclose L f w) s (fun _ s' => ∀ p, OnlyFiles p s s') := by
  refine (pipeclose_cases trivial).mono (fun _ s' h p => ?_)
  obtain ⟨_, _, σ, _, rfl⟩ | ⟨_, rfl⟩ := h
  · exact (OnlyFiles.withPipe p s _ _).trans (OnlyFiles.withPhys p _ σ)
  · exact OnlyFiles.withPipe p s _ _

theorem fileclose_onlyFiles {i : FileSlot} :
    Spec anyPanic (fileclose L i) s (fun _ s' => ∀ p, OnlyFiles p s s') := by
  refine (fileclose_cases trivial fun _ => trivial).mono (fun _ s' h p => ?_)
  obtain ⟨_, rfl⟩ | ⟨_, _, rfl⟩ | ⟨_, _, rfl⟩ | ⟨_, _, hr⟩ := h
  · exact OnlyFiles.withFile p s i _
  · exact OnlyFiles.withFile p s i _
  · exact (OnlyFiles.withFile p s i _).trans (OnlyFiles.withIref p _ _)
  · exact (OnlyFiles.withFile p s i _).trans (pipeclose_onlyFiles.post hr p)

theorem filealloc_onlyFiles : Spec E filealloc s (fun _ s' => ∀ p, OnlyFiles p s s') := by
  refine filealloc_cases.mono (fun _ s' h p => ?_)
  obtain ⟨_, rfl⟩ | ⟨i, _, _, rfl⟩ := h
  · exact OnlyFiles.refl p _
  · exact OnlyFiles.withFile p s i _

theorem fdalloc_onlyFiles {i : FileSlot} :
    Spec E (fdalloc p i) s (fun _ s' => OnlyFiles p s s') := by
  refine fdalloc_cases.mono (fun _ s' h => ?_)
  obtain ⟨_, rfl⟩ | ⟨fd, _, _, rfl⟩ := h
  · exact OnlyFiles.refl p _
  · exact OnlyFiles.ofile p s _

theorem onPhys_onlyFiles {α : Type} (c : Kern α) :
    Spec anyPanic (onPhys c) s (fun _ s' => ∀ p, OnlyFiles p s s') :=
  Spec.onPhys (fun _ σ _ p => OnlyFiles.withPhys p s σ) (fun _ _ => trivial)

theorem pipealloc_onlyFiles :
    Spec anyPanic (pipealloc L) s (fun _ s' => ∀ p, OnlyFiles p s s') := by
  unfold pipealloc
  refine Spec.seq filealloc_onlyFiles (fun r s₁ h₁ => ?_)
  cases r with
  | none => exact Spec.pure h₁
  | some f0 =>
    refine Spec.seq filealloc_onlyFiles (fun r s₂ h₂ => ?_)
    cases r with
    | none =>
      refine Spec.seq fileclose_onlyFiles (fun _ s₃ h₃ => ?_)
      exact Spec.pure (fun p => ((h₁ p).trans (h₂ p)).trans (h₃ p))
    | some f1 =>
      refine Spec.seq (onPhys_onlyFiles kalloc) (fun r s₃ h₃ => ?_)
      have h : ∀ p, OnlyFiles p s s₃ := fun p => ((h₁ p).trans (h₂ p)).trans (h₃ p)
      cases r with
      | none =>
        refine Spec.seq fileclose_onlyFiles (fun _ s₄ h₄ => ?_)
        refine Spec.seq fileclose_onlyFiles (fun _ s₅ h₅ => ?_)
        exact Spec.pure (fun p => ((h p).trans (h₄ p)).trans (h₅ p))
      | some f =>
        refine Spec.seq_ok (setPipe_run f _ s₃) ?_
        refine Spec.seq_ok (setFile_run f0 _ _) ?_
        refine Spec.seq_ok (setFile_run f1 _ _) ?_
        exact Spec.pure (fun p => (((h p).trans (OnlyFiles.withPipe p _ f _)).trans
          (OnlyFiles.withFile p _ f0 _)).trans (OnlyFiles.withFile p _ f1 _))

theorem sysPipe_onlyFiles (arg : Option Nat) :
    Spec anyPanic (sysPipe L p arg) s (fun _ s' => OnlyFiles p s s') := by
  unfold sysPipe
  refine Spec.seq_ok (get_run s) ?_
  cases Share.argptr (s.proc p).sz arg 8 with
  | none => exact Spec.pure (OnlyFiles.refl p s)
  | some _ =>
    refine Spec.seq pipealloc_onlyFiles (fun r s₁ h₁ => ?_)
    cases r with
    | none => exact Spec.pure (h₁ p)
    | some fs =>
      obtain ⟨rf, wf⟩ := fs
      refine Spec.seq fdalloc_onlyFiles (fun r s₂ h₂ => ?_)
      have h := (h₁ p).trans h₂
      cases r with
      | none =>
        refine Spec.seq fileclose_onlyFiles (fun _ s₃ h₃ => ?_)
        refine Spec.seq fileclose_onlyFiles (fun _ s₄ h₄ => ?_)
        exact Spec.pure ((h.trans (h₃ p)).trans (h₄ p))
      | some fd0 =>
        refine Spec.seq fdalloc_onlyFiles (fun r s₃ h₃ => ?_)
        cases r with
        | none =>
          refine Spec.seq_ok (setProc_run p _ s₃) ?_
          refine Spec.seq fileclose_onlyFiles (fun _ s₄ h₄ => ?_)
          refine Spec.seq fileclose_onlyFiles (fun _ s₅ h₅ => ?_)
          exact Spec.pure ((((h.trans h₃).trans (OnlyFiles.ofile p s₃ _)).trans
            (h₄ p)).trans (h₅ p))
        | some fd1 => exact Spec.pure (h.trans h₃)

theorem sysClose_onlyFiles (n : Option Int) :
    Spec anyPanic (sysClose L p n) s (fun _ s' => OnlyFiles p s s') := by
  unfold sysClose
  refine Spec.seq_ok (get_run s) ?_
  cases argfd (s.proc p) n with
  | none => exact Spec.pure (OnlyFiles.refl p s)
  | some r =>
    obtain ⟨fd, i⟩ := r
    refine Spec.seq_ok (setProc_run p _ s) ?_
    refine Spec.seq fileclose_onlyFiles (fun _ s₁ h₁ => ?_)
    exact Spec.pure ((OnlyFiles.ofile p s _).trans (h₁ p))

theorem sysDup_onlyFiles (n : Option Int) :
    Spec anyPanic (sysDup p n) s (fun _ s' => OnlyFiles p s s') := by
  unfold sysDup
  refine Spec.seq_ok (get_run s) ?_
  cases argfd (s.proc p) n with
  | none => exact Spec.pure (OnlyFiles.refl p s)
  | some r =>
    obtain ⟨fd, i⟩ := r
    refine Spec.seq fdalloc_cases (fun r s₁ h₁ => ?_)
    obtain ⟨rfl, rfl⟩ | ⟨fd', rfl, _, rfl⟩ := h₁
    · exact Spec.pure (OnlyFiles.refl p _)
    · refine Spec.seq (filedup_cases trivial) (fun _ s₂ h₂ => ?_)
      obtain ⟨_, rfl⟩ := h₂
      exact Spec.pure ((OnlyFiles.ofile p s _).trans (OnlyFiles.withFile p _ i _))

theorem sysOpen_onlyFiles (ip : Option Nat) (readable writable : Bool) :
    Spec anyPanic (sysOpen L p ip readable writable) s (fun _ s' => OnlyFiles p s s') := by
  unfold sysOpen
  cases ip with
  | none => exact Spec.pure (OnlyFiles.refl p s)
  | some ip =>
    refine Spec.seq_ok (iget_run ip s) ?_
    refine Spec.seq filealloc_onlyFiles (fun r s₁ h₁ => ?_)
    have h := (OnlyFiles.withIref p s _).trans (h₁ p)
    cases r with
    | none =>
      refine Spec.seq_ok (iput_run ip s₁) ?_
      exact Spec.pure (h.trans (OnlyFiles.withIref p s₁ _))
    | some i =>
      refine Spec.seq fdalloc_onlyFiles (fun r s₂ h₂ => ?_)
      cases r with
      | none =>
        refine Spec.seq fileclose_onlyFiles (fun _ s₃ h₃ => ?_)
        refine Spec.seq_ok (iput_run ip s₃) ?_
        exact Spec.pure (((h.trans h₂).trans (h₃ p)).trans (OnlyFiles.withIref p s₃ _))
      | some fd =>
        refine Spec.seq_ok (setFile_run i _ s₂) ?_
        exact Spec.pure ((h.trans h₂).trans (OnlyFiles.withFile p s₂ i _))

theorem closeFiles_onlyFiles (fds : List Fd) :
    Spec anyPanic (closeFiles L p fds) s (fun _ s' => OnlyFiles p s s') := by
  induction fds generalizing s with
  | nil => exact Spec.pure (OnlyFiles.refl p s)
  | cons fd fds ih =>
    unfold closeFiles
    refine Spec.seq_ok (get_run s) ?_
    cases (s.proc p).ofile fd with
    | none => exact ih
    | some i =>
      refine Spec.seq fileclose_onlyFiles (fun _ s₁ h₁ => ?_)
      refine Spec.seq_ok (setProc_run p _ s₁) ?_
      refine ih.mono (fun _ s₂ h₂ => ?_)
      exact ((h₁ p).trans (OnlyFiles.ofile p s₁ _)).trans h₂

/-- `fork`'s loop over the descriptors: references are added, and the child's
descriptors set. -/
theorem dupFiles_cases {np : Slot} (hne : p ≠ np) (herr : E .filedup) (fds : List Fd) :
    Spec E (dupFiles p np fds) s (fun _ s' => OnlyFiles np s s' ∧
      s'.phys = s.phys ∧ s'.pipe = s.pipe ∧
      (∀ i, ∃ r, s'.file i = { s.file i with ref := r } ∧ (r = 0 ↔ (s.file i).ref = 0)) ∧
      ∀ fd, (s'.proc np).ofile fd
        = if fd ∈ fds then ((s.proc p).ofile fd).or ((s.proc np).ofile fd)
          else (s.proc np).ofile fd) := by
  induction fds generalizing s with
  | nil =>
    exact Spec.pure ⟨OnlyFiles.refl np s, rfl, rfl, fun i => ⟨_, rfl, Iff.rfl⟩,
      fun fd => by simp⟩
  | cons fd fds ih =>
    unfold dupFiles
    refine Spec.seq_ok (get_run s) ?_
    cases hfd : (s.proc p).ofile fd with
    | none =>
      refine ih.mono (fun _ s₁ h₁ => ?_)
      obtain ⟨hof, hphys, hpipe, hfile, hset⟩ := h₁
      refine ⟨hof, hphys, hpipe, hfile, fun fd' => ?_⟩
      rw [hset fd']
      by_cases hfd' : fd' = fd
      · simp [hfd', hfd]
      · simp [hfd']
    | some i =>
      refine Spec.seq (filedup_cases herr) (fun _ s₁ h₁ => ?_)
      obtain ⟨hpos, rfl⟩ := h₁
      refine Spec.seq_ok (setProc_run np _ _) ?_
      refine ih.mono (fun _ s₂ h₂ => ?_)
      obtain ⟨hof, hphys, hpipe, hfile, hset⟩ := h₂
      refine ⟨((OnlyFiles.withFile np s i _).trans (OnlyFiles.ofile np _ _)).trans hof,
        hphys, hpipe, fun j => ?_, fun fd' => ?_⟩
      · obtain ⟨r, hr, hzero⟩ := hfile j
        simp only [withProc_file, withFile_file, Function.update_apply] at hr hzero
        by_cases hj : j = i
        · subst hj
          rw [if_pos rfl] at hr hzero
          refine ⟨r, hr, ?_⟩
          rw [hzero]
          show (s.file j).ref + 1 = 0 ↔ (s.file j).ref = 0
          omega
        · rw [if_neg hj] at hr hzero
          exact ⟨r, hr, hzero⟩
      · rw [hset fd']
        simp only [withProc_proc, withFile_proc, Function.update_self,
          Function.update_of_ne hne, List.mem_cons]
        by_cases hfd' : fd' = fd
        · simp [hfd', hfd]
        · simp [hfd']

/-! ## `fork` -/

/-- From `s` to `s'` nothing but memory, the process table and `nextpid`
changed. -/
structure OnlyProcs (s s' : Sys) : Prop where
  file : s'.file = s.file
  pipe : s'.pipe = s.pipe
  kpgdir : s'.kpgdir = s.kpgdir
  bootStacks : s'.bootStacks = s.bootStacks
  initproc : s'.initproc = s.initproc
  iref : s'.iref = s.iref

theorem OnlyProcs.trans {s'' : Sys} (h : OnlyProcs s s') (h' : OnlyProcs s' s'') :
    OnlyProcs s s'' :=
  ⟨h'.file.trans h.file, h'.pipe.trans h.pipe, h'.kpgdir.trans h.kpgdir,
    h'.bootStacks.trans h.bootStacks, h'.initproc.trans h.initproc, h'.iref.trans h.iref⟩

/-- `np` is the first slot that is not in use. -/
structure FirstUnused (s : Sys) (np : Slot) : Prop where
  unused : (s.proc np).state = .unused
  least : ∀ q < np, (s.proc q).state ≠ .unused

theorem find_least {n : Nat} {P : Fin n → Prop} [DecidablePred P] {i : Fin n}
    (h : ((List.finRange n).find? fun j => decide (P j)) = some i) : P i ∧ ∀ j < i, ¬ P j := by
  obtain ⟨hi, k, hk, hget, hleast⟩ := List.find?_eq_some_iff_getElem.mp h
  refine ⟨of_decide_eq_true hi, fun j hj hP => ?_⟩
  rw [List.getElem_finRange] at hget
  have hlt : j.val < k := by
    have hik : i.val = k := by
      rw [← hget]
      rfl
    rw [← hik]
    exact hj
  have := hleast j.val hlt
  simp [hP] at this

/-- What `allocproc` returns: nothing, or a slot with a kernel stack. -/
theorem allocproc_cases : Spec E allocproc s (fun r s' => OnlyProcs s s' ∧
    ((r = none ∧ (∀ p, (s.proc p).state ≠ .unused) ∧ s'.phys = s.phys ∧ s'.proc = s.proc) ∨
     (∃ np, r = none ∧ FirstUnused s np ∧ s.phys.freelist = [] ∧ s'.phys = s.phys ∧ s'.proc
        = Function.update s.proc np
          { s.proc np with pid := s.nextpid, kstack := 0, state := .unused }) ∨
     (∃ np k rest, r = some np ∧ FirstUnused s np ∧ s.phys.freelist = k :: rest ∧
        s'.nextpid = s.nextpid + 1 ∧
        s'.phys = ⟨s.phys.mem, rest⟩ ∧ s'.proc = Function.update s.proc np
          { s.proc np with pid := s.nextpid, kstack := k, state := .embryo }))) := by
  unfold allocproc
  refine Spec.seq_ok (get_run s) ?_
  cases h : (List.finRange 64).find? fun p => decide ((s.proc p).state = .unused) with
  | none =>
    refine Spec.pure ⟨⟨rfl, rfl, rfl, rfl, rfl, rfl⟩, Or.inl ⟨rfl, fun p => ?_, rfl, rfl⟩⟩
    simpa using List.find?_eq_none.mp h p (List.mem_finRange p)
  | some np =>
    have hnp : FirstUnused s np := ⟨(find_least h).1, (find_least h).2⟩
    refine Spec.seq_ok (setProc_run np _ s) ?_
    refine Spec.seq_ok (modify_run _ _) ?_
    cases hfree : s.phys.freelist with
    | nil =>
      refine Spec.seq_ok (onPhys_ok (kalloc_none hfree)) ?_
      refine Spec.seq_ok (setProc_run np _ _) ?_
      refine Spec.pure ⟨⟨rfl, rfl, rfl, rfl, rfl, rfl⟩,
        Or.inr (Or.inl ⟨np, rfl, hnp, rfl, rfl, ?_⟩)⟩
      simp
    | cons k rest =>
      refine Spec.seq_ok (onPhys_ok (kalloc_some hfree)) ?_
      refine Spec.seq_ok (setProc_run np _ _) ?_
      refine Spec.pure ⟨⟨rfl, rfl, rfl, rfl, rfl, rfl⟩,
        Or.inr (Or.inr ⟨np, k, rest, rfl, hnp, rfl, rfl, rfl, ?_⟩)⟩
      simp

/-- The child `fork` makes of process `cur` in a slot that held `old`. -/
def childOf (cur old : Proc) (p : Slot) (pid k d : Nat) (o : Fd → Option FileSlot) : Proc where
  sz := cur.sz
  pgdir := d
  parentPgdir := cur.pgdir
  kstack := k
  state := .runnable
  pid := pid
  parent := some p
  tf := { cur.tf with eax := 0 }
  killed := old.killed
  ofile := o
  name := cur.name
  shared := forkTable cur.shared old.shared

/-- `fork` of `p` made a child in slot `np`, with kernel stack `k` and page
directory `d`. -/
structure Forked (L : Layout) (s : Sys) (p np : Slot) (k d : Nat) (s' : Sys) : Prop where
  free : (s.proc np).state = .unused
  least : ∀ q < np, (s.proc q).state ≠ .unused
  mem : ∃ rest, s.phys.freelist = k :: rest ∧
    copyuvm L (s.proc p).pgdir (s.proc p).sz ⟨s.phys.mem, rest⟩ = .ok (some d, s'.phys)
  proc : ∃ o, s'.proc
    = Function.update s.proc np (childOf (s.proc p) (s.proc np) p s.nextpid k d o)
  file : ∀ i, ∃ r, s'.file i = { s.file i with ref := r } ∧ (r = 0 ↔ (s.file i).ref = 0)
  pipe : s'.pipe = s.pipe
  kpgdir : s'.kpgdir = s.kpgdir
  bootStacks : s'.bootStacks = s.bootStacks
  initproc : s'.initproc = s.initproc
  nextpid : s'.nextpid = s.nextpid + 1
  files : ∀ fd, (s'.proc np).ofile fd = ((s.proc p).ofile fd).or ((s.proc np).ofile fd)

/-- `fork` failed: at most the pid, stack and directory fields of an unused
slot changed, and what memory was taken was given back. -/
structure ForkFailed (L : Layout) (s : Sys) (p : Slot) (s' : Sys) : Prop where
  mem : s'.phys = s.phys ∨ ∃ k rest σ, s.phys.freelist = k :: rest ∧
    copyuvm L (s.proc p).pgdir (s.proc p).sz ⟨s.phys.mem, rest⟩ = .ok (none, σ) ∧
    kfree L k σ = .ok ((), s'.phys)
  proc : s'.proc = s.proc ∨ ∃ np pid k d, (s.proc np).state = .unused ∧ s'.proc
    = Function.update s.proc np { s.proc np with pid := pid, kstack := k, pgdir := d }
  rest : OnlyProcs s s'

theorem fork_cases (hp : (s.proc p).state ≠ .unused) :
    Spec anyPanic (fork L p) s (fun r s' => (r = -1 ∧ ForkFailed L s p s') ∨
      ∃ np k d, r = s.nextpid ∧ Forked L s p np k d s') := by
  unfold fork
  refine Spec.seq allocproc_cases (fun r s₁ h₁ => ?_)
  obtain ⟨hs, ⟨rfl, _, hphys, hproc⟩ | ⟨np, rfl, ⟨hnp, _⟩, _, hphys, hproc⟩ |
    ⟨np, k, rest, rfl, ⟨hnp, hleast⟩, hfree, hpid, hphys, hproc⟩⟩ := h₁
  · exact Spec.pure (Or.inl ⟨rfl, Or.inl hphys, Or.inl hproc, hs⟩)
  · refine Spec.pure (Or.inl ⟨rfl, Or.inl hphys, Or.inr ⟨np, s.nextpid, 0, (s.proc np).pgdir,
      hnp, ?_⟩, hs⟩)
    rw [hproc, ← hnp]
  · have hne : p ≠ np := by
      intro he
      exact hp (he ▸ hnp)
    have hcur : s₁.proc p = s.proc p := by
      rw [hproc, Function.update_of_ne hne]
    have hnew : s₁.proc np
        = { s.proc np with pid := s.nextpid, kstack := k, state := .embryo } := by
      rw [hproc, Function.update_self]
    refine Spec.seq_ok (get_run s₁) ?_
    dsimp only
    refine Spec.seq (Spec.onPhys (Q := fun r s₂ => ∃ σ, s₂ = s₁.withPhys σ ∧
      copyuvm L (s.proc p).pgdir (s.proc p).sz ⟨s.phys.mem, rest⟩ = .ok (r, σ))
      (fun r σ hr => ⟨σ, rfl, by rw [← hphys, ← hcur]; exact hr⟩) (fun _ _ => trivial))
      (fun r s₂ h₂ => ?_)
    obtain ⟨σ, rfl, hcopy⟩ := h₂
    cases r with
    | none =>
      refine Spec.seq (Spec.onPhys (Q := fun _ s₃ => ∃ σ', s₃ = s₁.withPhys σ' ∧
        kfree L k σ = .ok ((), σ')) (fun _ σ' hr => ⟨σ', rfl, ?_⟩) (fun _ _ => trivial))
        (fun _ s₃ h₃ => ?_)
      · rw [hnew] at hr
        exact hr
      obtain ⟨σ', rfl, hkfree⟩ := h₃
      refine Spec.seq_ok (setProc_run np _ _) ?_
      refine Spec.pure (Or.inl ⟨rfl, Or.inr ⟨k, rest, σ, hfree, hcopy, hkfree⟩,
        Or.inr ⟨np, s.nextpid, 0, 0, hnp, ?_⟩, hs.trans ⟨rfl, rfl, rfl, rfl, rfl, rfl⟩⟩)
      show Function.update s₁.proc np { s₁.proc np with pgdir := 0, kstack := 0, state := .unused }
        = _
      rw [hnew, hproc, Function.update_idem, ← hnp]
    | some d =>
      refine Spec.seq_ok (setProc_run np _ _) ?_
      refine Spec.seq (dupFiles_cases hne trivial (List.finRange 16)) (fun _ s₃ h₃ => ?_)
      obtain ⟨hof, hphys₃, hpipe₃, hfile₃, hset₃⟩ := h₃
      refine Spec.seq_ok (setProc_run np _ s₃) ?_
      obtain ⟨o, ho⟩ := hof.proc
      refine Spec.pure (Or.inr ⟨np, k, d, ?_, hnp, hleast, ⟨rest, hfree, ?_⟩, ⟨o, ?_⟩, ?_, ?_, ?_, ?_,
        ?_, ?_, ?_⟩)
      · rw [hnew]
      · show copyuvm L _ _ _ = .ok (some d, s₃.phys)
        rw [hphys₃]
        exact hcopy
      · show Function.update s₃.proc np _ = _
        rw [ho]
        simp only [withProc_proc, withPhys_proc, Function.update_self, Function.update_idem]
        rw [hproc, Function.update_idem]
        simp only [Function.update_self, Function.update_of_ne hne]
        rfl
      · intro i
        obtain ⟨r, hr, hz⟩ := hfile₃ i
        have hfile : s₁.file = s.file := hs.file
        simp only [withProc_file, withPhys_file, hfile] at hr hz
        exact ⟨r, hr, hz⟩
      · exact hpipe₃.trans hs.pipe
      · exact hof.kpgdir.trans hs.kpgdir
      · exact hof.bootStacks.trans hs.bootStacks
      · exact hof.initproc.trans hs.initproc
      · exact hof.nextpid.trans hpid
      · intro fd
        rw [withProc_proc, Function.update_self]
        show (s₃.proc np).ofile fd = _
        rw [hset₃ fd, if_pos (List.mem_finRange fd)]
        simp only [withProc_proc, withPhys_proc, Function.update_self, Function.update_of_ne hne]
        rw [hcur, hnew]

/-! ## `exit` and `wait` -/

/-- The parent of a process once `p` is gone. -/
def Sys.adopted (s : Sys) (p : Slot) (par : Option Slot) : Option Slot :=
  if par = some p then some s.initproc else par

/-- `p` exited: its files are closed, its table is what `exitTable` leaves, and
its children belong to init. -/
structure Exited (L : Layout) (s : Sys) (p : Slot) (s' : Sys) : Prop where
  notInit : p ≠ s.initproc
  mem : ∃ s₁, closeFiles L p (List.finRange 16) s = .ok ((), s₁) ∧
    (if (s.proc p).parent = none then freeShared L (s.proc p).shared.entries
      else pure ()) s₁.phys = .ok ((), s'.phys) ∧ s'.file = s₁.file ∧ s'.pipe = s₁.pipe
  self : ∃ o, s'.proc p = { s.proc p with
    ofile := o, parent := s.adopted p (s.proc p).parent,
    shared := exitTable (s.proc p).shared, state := .zombie }
  others : ∀ q, q ≠ p →
    s'.proc q = { s.proc q with parent := s.adopted p (s.proc q).parent }
  kpgdir : s'.kpgdir = s.kpgdir
  bootStacks : s'.bootStacks = s.bootStacks
  initproc : s'.initproc = s.initproc
  nextpid : s'.nextpid = s.nextpid

theorem abandon_proc (s : Sys) (p q : Slot) :
    (s.abandon p).proc q = { s.proc q with parent := s.adopted p (s.proc q).parent } := by
  unfold Sys.abandon Sys.adopted
  dsimp only
  by_cases h : (s.proc q).parent = some p
  · rw [if_pos h, if_pos h]
  · rw [if_neg h, if_neg h]

theorem exit_cases : Spec anyPanic (exit L p) s (fun _ s' => Exited L s p s') := by
  unfold exit
  refine Spec.seq_ok (get_run s) ?_
  by_cases hinit : p = s.initproc
  · rw [if_pos hinit]
    exact Spec.throw trivial
  rw [if_neg hinit]
  cases hc : closeFiles L p (List.finRange 16) s with
  | error e =>
    exact Spec.seq (Q := fun _ _ => False) (Spec.of_error hc trivial) (fun _ _ h => h.elim)
  | ok r =>
    obtain ⟨_, s₁⟩ := r
    refine Spec.seq_ok hc ?_
    have hof := (closeFiles_onlyFiles (List.finRange 16)).post hc
    obtain ⟨o, ho⟩ := hof.proc
    have hself : s₁.proc p = { s.proc p with ofile := o } := by
      rw [ho, Function.update_self]
    have hother : ∀ q, q ≠ p → s₁.proc q = s.proc q := by
      intro q hq
      rw [ho, Function.update_of_ne hq]
    refine Spec.seq (Spec.onPhys (Q := fun _ s₂ => ∃ σ, s₂ = s₁.withPhys σ ∧
      (if (s.proc p).parent = none then freeShared L (s.proc p).shared.entries
        else pure ()) s₁.phys = .ok ((), σ)) (fun _ σ hr => ⟨σ, rfl, hr⟩)
      (fun _ _ => trivial)) (fun _ s₂ h₂ => ?_)
    obtain ⟨σ, rfl, hfree⟩ := h₂
    refine Spec.seq_ok (setProc_run p _ _) ?_
    refine Spec.seq_ok (modify_run _ _) ?_
    refine Spec.of_ok (setProc_run p _ _) ?_
    refine ⟨hinit, ⟨s₁, hc, hfree, rfl, rfl⟩, ?_, fun q hq => ?_, hof.kpgdir,
      hof.bootStacks, hof.initproc, hof.nextpid⟩
    · refine ⟨o, ?_⟩
      rw [withProc_proc, Function.update_self, abandon_proc, withProc_proc, Function.update_self,
        withPhys_proc, hself]
      unfold Sys.adopted
      rw [show ((s₁.withPhys σ).withProc p _).initproc = s.initproc from hof.initproc]
    · rw [withProc_proc, Function.update_of_ne hq, abandon_proc, withProc_proc,
        Function.update_of_ne hq, withPhys_proc, hother q hq]
      unfold Sys.adopted
      rw [show ((s₁.withPhys σ).withProc p _).initproc = s.initproc from hof.initproc]

/-- `wait` of `p` reaped the zombie in slot `q`. -/
structure Reaped (L : Layout) (s : Sys) (p q : Slot) (s' : Sys) : Prop where
  child : (s.proc q).parent = some p
  zombie : (s.proc q).state = .zombie
  least : ∀ z < q, ¬ ((s.proc z).parent = some p ∧ (s.proc z).state = .zombie)
  mem : ∃ σ, kfree L (s.proc q).kstack s.phys = .ok ((), σ) ∧
    freevm L (s.proc q).pgdir σ = .ok ((), s'.phys)
  proc : s'.proc = Function.update s.proc q { s.proc q with
    kstack := 0, pid := 0, parent := none, name := [], killed := false, state := .unused }
  rest : OnlyProcs s s'
  nextpid : s'.nextpid = s.nextpid

theorem wait_cases : Spec anyPanic (wait L p) s (fun r s' =>
    (s' = s ∧ (r = none ∨ r = some (-1))) ∨ ∃ q, r = some ((s.proc q).pid : Int) ∧
      Reaped L s p q s') := by
  unfold wait
  refine Spec.seq_ok (get_run s) ?_
  cases h : (List.finRange 64).find? fun q =>
      decide ((s.proc q).parent = some p ∧ (s.proc q).state = .zombie) with
  | none =>
    dsimp only
    by_cases hk : (∃ q, (s.proc q).parent = some p) ∧ (s.proc p).killed = false
    · rw [if_pos hk]
      exact Spec.pure (Or.inl ⟨rfl, Or.inl rfl⟩)
    · rw [if_neg hk]
      exact Spec.pure (Or.inl ⟨rfl, Or.inr rfl⟩)
  | some q =>
    obtain ⟨⟨hchild, hzombie⟩, hleast⟩ := find_least h
    dsimp only
    refine Spec.seq (Q := fun _ s' => Reaped L s p q s') ?_
      (fun _ s' hr => Spec.pure (Or.inr ⟨q, rfl, hr⟩))
    unfold reap
    refine Spec.seq_ok (get_run s) ?_
    refine Spec.seq (Spec.onPhys (Q := fun _ s₁ => ∃ σ, s₁ = s.withPhys σ ∧
      kfree L (s.proc q).kstack s.phys = .ok ((), σ)) (fun _ σ hr => ⟨σ, rfl, hr⟩)
      (fun _ _ => trivial)) (fun _ s₁ h₁ => ?_)
    obtain ⟨σ, rfl, hk⟩ := h₁
    refine Spec.seq (Spec.onPhys (Q := fun _ s₂ => ∃ σ', s₂ = s.withPhys σ' ∧
      freevm L (s.proc q).pgdir σ = .ok ((), σ')) (fun _ σ' hr => ⟨σ', rfl, hr⟩)
      (fun _ _ => trivial)) (fun _ s₂ h₂ => ?_)
    obtain ⟨σ', rfl, hf⟩ := h₂
    exact Spec.of_ok (setProc_run q _ _)
      ⟨hchild, hzombie, hleast, ⟨σ, hk, hf⟩, rfl, ⟨rfl, rfl, rfl, rfl, rfl, rfl⟩, rfl⟩

/-! ## `sbrk` -/

/-- `sbrk` ran `allocuvm` or `deallocuvm` with result `sz`; a result of 0 leaves
the size as it was. -/
structure Resized (L : Layout) (s : Sys) (p : Slot) (n : Int) (s' : Sys) : Prop where
  mem : ∃ sz, (if n > 0 then allocuvm L (s.proc p).pgdir (s.proc p).sz (addSz (s.proc p).sz n)
      else deallocuvm L (s.proc p).pgdir (s.proc p).sz (addSz (s.proc p).sz n)) s.phys
        = .ok (sz, s'.phys) ∧
    s'.proc = Function.update s.proc p
      { s.proc p with sz := if sz = 0 then (s.proc p).sz else sz }
  rest : OnlyProcs s s'

theorem growproc_cases (n : Int) : Spec anyPanic (growproc L p n) s (fun _ s' =>
    (n = 0 ∧ s' = s) ∨ (n ≠ 0 ∧ Resized L s p n s')) := by
  unfold growproc
  refine Spec.seq_ok (get_run s) ?_
  dsimp only
  -- both branches end in the same assignment to `sz`
  have hset : ∀ c : Kern Nat, (∀ σ sz, c s.phys = .ok (sz, σ) →
      (if n > 0 then allocuvm L (s.proc p).pgdir (s.proc p).sz (addSz (s.proc p).sz n)
        else deallocuvm L (s.proc p).pgdir (s.proc p).sz (addSz (s.proc p).sz n)) s.phys
          = .ok (sz, σ)) → n ≠ 0 →
      Spec anyPanic (do
        let sz ← onPhys c
        if sz = 0 then return (-1 : Int)
        else
          setProc p fun q => { q with sz := sz }
          return 0) s (fun _ s' => (n = 0 ∧ s' = s) ∨ (n ≠ 0 ∧ Resized L s p n s')) := by
    intro c hc hn
    refine Spec.seq (Spec.onPhys (Q := fun sz s₁ => ∃ σ, s₁ = s.withPhys σ ∧
      c s.phys = .ok (sz, σ)) (fun _ σ hr => ⟨σ, rfl, hr⟩) (fun _ _ => trivial))
      (fun sz s₁ h₁ => ?_)
    obtain ⟨σ, rfl, hr⟩ := h₁
    by_cases hz : sz = 0
    · rw [if_pos hz]
      refine Spec.pure (Or.inr ⟨hn, ⟨sz, hc σ sz hr, ?_⟩, ⟨rfl, rfl, rfl, rfl, rfl, rfl⟩⟩)
      rw [if_pos hz]
      exact (Function.update_eq_self p s.proc).symm
    · rw [if_neg hz]
      refine Spec.seq_ok (setProc_run p _ _) ?_
      refine Spec.pure (Or.inr ⟨hn, ⟨sz, hc σ sz hr, ?_⟩, ⟨rfl, rfl, rfl, rfl, rfl, rfl⟩⟩)
      rw [if_neg hz]
      rfl
  by_cases hpos : n > 0
  · rw [if_pos hpos]
    exact hset _ (fun σ sz hr => by rw [if_pos hpos]; exact hr) (by omega)
  · rw [if_neg hpos]
    by_cases hneg : n < 0
    · rw [if_pos hneg]
      exact hset _ (fun σ sz hr => by rw [if_neg hpos]; exact hr) (by omega)
    · rw [if_neg hneg]
      exact Spec.pure (Or.inl ⟨by omega, rfl⟩)

theorem sysSbrk_cases (n : Option Int) : Spec anyPanic (sysSbrk L p n) s (fun _ s' =>
    s' = s ∨ ∃ k, n = some k ∧ k ≠ 0 ∧ Resized L s p k s') := by
  unfold sysSbrk
  refine Spec.seq_ok (get_run s) ?_
  cases n with
  | none => exact Spec.pure (Or.inl rfl)
  | some k =>
    refine Spec.seq (growproc_cases k) (fun r s₁ h₁ => ?_)
    have h : s₁ = s ∨ ∃ k', some k = some k' ∧ k' ≠ 0 ∧ Resized L s p k' s₁ := by
      obtain ⟨_, rfl⟩ | ⟨hk, hr⟩ := h₁
      · exact Or.inl rfl
      · exact Or.inr ⟨k, rfl, hk, hr⟩
    by_cases hr : r < 0
    · rw [if_pos hr]
      exact Spec.pure h
    · rw [if_neg hr]
      exact Spec.pure h

/-! ## `exec` -/

/-- What `exec` did before the stack: the program is loaded into directory `d`
and the sharing ended in `res`, with entries `es`. -/
structure Shares (L : Layout) (s : Sys) (p : Slot) (file : Option (List UInt8))
    (argv : List CString) (d sz entry : Nat) (σ₁ : Phys) (res : ShareResult) (es : List Shared)
    (σ₂ : Phys) : Prop where
  load : execLoad L file s.phys = .ok (some (d, sz, entry), σ₁)
  share : execShare L (s.proc p) d argv σ₁ = .ok ((res, es), σ₂)

/-- The image replaced by `exec`. -/
def execProc (q : Proc) (path : CString) (es : List Shared) (d sz entry sp : Nat) : Proc :=
  { q with
    shared := Table.ofEntries q.shared es
    name := progName path
    pgdir := d
    sz := sz
    tf := { q.tf with eip := entry, esp := sp } }

/-- `exec` returned -1 after the sharing. -/
structure ExecFailed (L : Layout) (s : Sys) (p : Slot) (file : Option (List UInt8))
    (argv : List CString) (s' : Sys) : Prop where
  mem : ∃ d sz entry σ₁ res es σ₂ σ₃, Shares L s p file argv d sz entry σ₁ res es σ₂ ∧
    execStack L d sz argv σ₂ = .ok (none, σ₃) ∧ freevm L d σ₃ = .ok ((), s'.phys) ∧
    s'.proc = Function.update s.proc p
      { s.proc p with shared := Table.ofEntries (s.proc p).shared es }
  rest : OnlyProcs s s'

/-- `exec` returned 0. -/
structure Execed (L : Layout) (s : Sys) (p : Slot) (path : CString) (file : Option (List UInt8))
    (argv : List CString) (s' : Sys) : Prop where
  mem : ∃ d sz entry σ₁ res es σ₂ sz' sp σ₃, Shares L s p file argv d sz entry σ₁ res es σ₂ ∧
    execStack L d sz argv σ₂ = .ok (some (sz', sp), σ₃) ∧
    freevm L (s.proc p).pgdir σ₃ = .ok ((), s'.phys) ∧
    s'.proc = Function.update s.proc p (execProc (s.proc p) path es d sz' entry sp)
  rest : OnlyProcs s s'

theorem exec_cases (path : CString) (file : Option (List UInt8)) (argv : List CString) :
    Spec anyPanic (exec L p path file argv) s (fun r s' =>
      (r = -1 ∧ ∃ σ, execLoad L file s.phys = .ok (none, σ) ∧ s' = s.withPhys σ) ∨
      (r = -1 ∧ ExecFailed L s p file argv s') ∨
      (r = 0 ∧ Execed L s p path file argv s')) := by
  unfold exec
  refine Spec.seq (Spec.onPhys (Q := fun r s₁ => ∃ σ, s₁ = s.withPhys σ ∧
    execLoad L file s.phys = .ok (r, σ)) (fun _ σ hr => ⟨σ, rfl, hr⟩) (fun _ _ => trivial))
    (fun r s₁ h₁ => ?_)
  obtain ⟨σ₁, rfl, hload⟩ := h₁
  cases r with
  | none => exact Spec.pure (Or.inl ⟨rfl, σ₁, hload, rfl⟩)
  | some r =>
    obtain ⟨d, sz, entry⟩ := r
    refine Spec.seq_ok (get_run _) ?_
    refine Spec.seq (Spec.onPhys (Q := fun r s₂ => ∃ σ, s₂ = s.withPhys σ ∧
      execShare L (s.proc p) d argv σ₁ = .ok (r, σ)) (fun _ σ hr => ⟨σ, rfl, hr⟩)
      (fun _ _ => trivial)) (fun r s₂ h₂ => ?_)
    obtain ⟨σ₂, rfl, hshare⟩ := h₂
    obtain ⟨res, es⟩ := r
    refine Spec.seq_ok (setProc_run p _ _) ?_
    refine Spec.seq (Spec.onPhys (Q := fun r s₃ => ∃ σ,
      s₃ = ((s.withProc p { s.proc p with shared := Table.ofEntries (s.proc p).shared es })
        ).withPhys σ ∧ execStack L d sz argv σ₂ = .ok (r, σ)) (fun _ σ hr => ⟨σ, rfl, hr⟩)
      (fun _ _ => trivial)) (fun r s₃ h₃ => ?_)
    obtain ⟨σ₃, rfl, hstack⟩ := h₃
    cases r with
    | none =>
      refine Spec.seq (Spec.onPhys (Q := fun _ s₄ => ∃ σ,
        s₄ = ((s.withProc p { s.proc p with shared := Table.ofEntries (s.proc p).shared es })
          ).withPhys σ ∧ freevm L d σ₃ = .ok ((), σ)) (fun _ σ hr => ⟨σ, rfl, hr⟩)
        (fun _ _ => trivial)) (fun _ s₄ h₄ => ?_)
      obtain ⟨σ₄, rfl, hfree⟩ := h₄
      exact Spec.pure (Or.inr (Or.inl ⟨rfl, ⟨d, sz, entry, σ₁, res, es, σ₂, σ₃,
        ⟨hload, hshare⟩, hstack, hfree, rfl⟩, ⟨rfl, rfl, rfl, rfl, rfl, rfl⟩⟩))
    | some r =>
      obtain ⟨sz', sp⟩ := r
      refine Spec.seq_ok (setProc_run p _ _) ?_
      refine Spec.seq (Spec.onPhys (Q := fun _ s₄ => OnlyProcs s s₄ ∧
        freevm L (s.proc p).pgdir σ₃ = .ok ((), s₄.phys) ∧ s₄.proc = Function.update s.proc p
          (execProc (s.proc p) path es d sz' entry sp))
        (fun _ σ hr => ⟨⟨rfl, rfl, rfl, rfl, rfl, rfl⟩, hr, ?_⟩)
        (fun _ _ => trivial)) (fun _ s₄ h₄ => ?_)
      · simp only [withPhys_proc, withProc_proc, Function.update_self, Function.update_idem]
        rfl
      · obtain ⟨hrest, hfree, hproc⟩ := h₄
        exact Spec.pure (Or.inr (Or.inr ⟨rfl, ⟨d, sz, entry, σ₁, res, es, σ₂, sz', sp, σ₃,
          ⟨hload, hshare⟩, hstack, hfree, hproc⟩, hrest⟩))

theorem sysExec_cases (path : Option CString) (file : Option (List UInt8))
    (argv : List CString) : Spec anyPanic (sysExec L p path file argv) s (fun r s' =>
      (r = -1 ∧ s' = s) ∨
      (argv.length < 32 ∧ (∀ arg ∈ argv, arg.bytes.length < (s.proc p).sz) ∧
       ((r = -1 ∧ ∃ σ, execLoad L file s.phys = .ok (none, σ) ∧ s' = s.withPhys σ) ∨
        (r = -1 ∧ ExecFailed L s p file argv s') ∨
        (r = 0 ∧ ∃ path', path = some path' ∧ Execed L s p path' file argv s')))) := by
  unfold sysExec
  refine Spec.seq_ok (get_run s) ?_
  cases path with
  | none => exact Spec.pure (Or.inl ⟨rfl, rfl⟩)
  | some path =>
    dsimp only
    by_cases h : argv.length ≥ 32 ∨ ∃ arg ∈ argv, arg.bytes.length ≥ (s.proc p).sz
    · rw [if_pos h]
      exact Spec.pure (Or.inl ⟨rfl, rfl⟩)
    · rw [if_neg h]
      have hlen : argv.length < 32 := by
        by_contra hc
        exact h (Or.inl (by omega))
      have hargs : ∀ arg ∈ argv, arg.bytes.length < (s.proc p).sz := by
        intro arg harg
        by_contra hc
        exact h (Or.inr ⟨arg, harg, by omega⟩)
      refine (exec_cases path file argv).mono (fun r s' hr => Or.inr ⟨hlen, hargs, ?_⟩)
      obtain hr | hr | ⟨hr, hx⟩ := hr
      · exact Or.inl hr
      · exact Or.inr (Or.inl hr)
      · exact Or.inr (Or.inr ⟨hr, path, rfl, hx⟩)

/-! ## One step -/

/-- The calls that work on descriptors, files and pipes. -/
def Act.OnFiles : Act → Prop
  | .pipe _ | .close _ | .dup _ | .open _ _ _ => True
  | _ => False

/-- What a system call of process `p` did: the call, what it returned, and the
machine it left. -/
inductive Effect (L : Layout) (s : Sys) (p : Slot) : Act → Int → Sys → Prop
  | idle {a : Act} {r : Int} : Effect L s p a r s
  | shared {name : Option CString} {addr : Option Nat} {size : Option Int} :
      Effect L s p (.shareData name addr size)
        (sysShareData (s.proc p).sz (s.proc p).shared name addr size).1
        (s.withProc p { s.proc p with
          shared := (sysShareData (s.proc p).sz (s.proc p).shared name addr size).2 })
  | files {a : Act} {r : Int} {s' : Sys} : a.OnFiles → OnlyFiles p s s' → Effect L s p a r s'
  | forkFailed {s' : Sys} : ForkFailed L s p s' → Effect L s p .fork (-1) s'
  | forked {np : Slot} {k d : Nat} {s' : Sys} : Forked L s p np k d s' →
      Effect L s p .fork s.nextpid s'
  | noImage {path : Option CString} {file : Option (List UInt8)} {argv : List CString} {σ : Phys} :
      execLoad L file s.phys = .ok (none, σ) →
      Effect L s p (.exec path file argv) (-1) (s.withPhys σ)
  | execFailed {path : Option CString} {file : Option (List UInt8)} {argv : List CString}
      {s' : Sys} : argv.length < 32 → (∀ arg ∈ argv, arg.bytes.length < (s.proc p).sz) →
      ExecFailed L s p file argv s' → Effect L s p (.exec path file argv) (-1) s'
  | execed {path : CString} {file : Option (List UInt8)} {argv : List CString} {s' : Sys} :
      argv.length < 32 → (∀ arg ∈ argv, arg.bytes.length < (s.proc p).sz) →
      Execed L s p path file argv s' → Effect L s p (.exec (some path) file argv) 0 s'
  | resized {n r : Int} {s' : Sys} : n ≠ 0 → Resized L s p n s' →
      Effect L s p (.sbrk (some n)) r s'
  | exited {s' : Sys} : Exited L s p s' → Effect L s p .exit 0 s'
  | reaped {q : Slot} {s' : Sys} : Reaped L s p q s' → Effect L s p .wait (s.proc q).pid s'

/-- A call that wraps a result of its own returns as that result says. -/
theorem Spec.wrap {α : Type} {c : SysM α} {f : α → Int} {Q : Int → Sys → Prop}
    (h : Spec E c s (fun a s' => Q (f a) s')) :
    Spec E (do let a ← c; return some (f a) : SysM (Option Int)) s
      (fun r s' => ∀ v, r = some v → Q v s') := by
  refine Lib.Spec.seq h (fun a s' ha => Lib.Spec.pure (fun v hv => ?_))
  rw [← Option.some.inj hv]
  exact ha

theorem run_effect (a : Act) (hp : (s.proc p).state ≠ .unused) :
    Spec anyPanic (a.run L p) s (fun r s' => ∀ v, r = some v → Effect L s p a v s') := by
  cases a with
  | shareData name addr size =>
    refine Spec.wrap (f := fun r => r) ?_
    unfold shareData
    exact Spec.seq_ok (get_run s) (Spec.seq_ok (setProc_run p _ s) (Spec.pure .shared))
  | getData name addrp =>
    exact Spec.seq_ok (get_run s) (Spec.pure (fun _ _ => .idle))
  | fork =>
    refine Spec.wrap (f := fun r => r) ((fork_cases hp).mono (fun r s' h => ?_))
    obtain ⟨rfl, h⟩ | ⟨np, k, d, rfl, h⟩ := h
    · exact .forkFailed h
    · exact .forked h
  | exec path file argv =>
    refine Spec.wrap (f := fun r => r) ((sysExec_cases path file argv).mono (fun r s' h => ?_))
    obtain ⟨_, rfl⟩ | ⟨hlen, hargs, ⟨rfl, σ, hload, rfl⟩ | ⟨rfl, h⟩ | ⟨rfl, path', rfl, h⟩⟩ := h
    · exact .idle
    · exact .noImage hload
    · exact .execFailed hlen hargs h
    · exact .execed hlen hargs h
  | sbrk n =>
    refine Spec.wrap (f := fun r => r) ((sysSbrk_cases n).mono (fun r s' h => ?_))
    obtain rfl | ⟨k, rfl, hk, h⟩ := h
    · exact .idle
    · exact .resized hk h
  | exit => exact Spec.wrap (f := fun _ => 0) (exit_cases.mono (fun _ s' h => .exited h))
  | wait =>
    refine wait_cases.mono (fun r s' h v hv => ?_)
    obtain ⟨rfl, _⟩ | ⟨q, hr, h⟩ := h
    · exact .idle
    · rw [hr] at hv
      rw [← Option.some.inj hv]
      exact .reaped h
  | pipe arg =>
    exact Spec.wrap (f := fun r => if r.isSome then 0 else -1)
      ((sysPipe_onlyFiles arg).mono (fun _ s' h => Effect.files (a := .pipe arg) trivial h))
  | close n =>
    exact Spec.wrap (f := fun r => r)
      ((sysClose_onlyFiles n).mono (fun _ s' h => Effect.files trivial h))
  | dup n =>
    exact Spec.wrap (f := fun r => r)
      ((sysDup_onlyFiles n).mono (fun _ s' h => Effect.files trivial h))
  | «open» ip readable writable =>
    exact Spec.wrap (f := fun r => r)
      ((sysOpen_onlyFiles ip readable writable).mono (fun _ s' h => Effect.files trivial h))

/-- An invariant of the states and shared tables of all slots. Only `share_data`,
`fork`, `exec` and `exit` change a table, and only `fork`, `exit` and `wait` a
state. -/
theorem Effect.tables {J : ProcState → Table → Prop} {a : Act} {r : Int}
    (h : ∀ q, J (s.proc q).state (s.proc q).shared) (hp : (s.proc p).state = .runnable)
    (he : Effect L s p a r s')
    (hshare : ∀ name addr size, a = .shareData name addr size →
      J .runnable (sysShareData (s.proc p).sz (s.proc p).shared name addr size).2)
    (hfork : ∀ np, a = .fork → FirstUnused s np →
      J .runnable (forkTable (s.proc p).shared (s.proc np).shared))
    (hexec : ∀ path file argv d sz entry σ₁ res es σ₂, a = .exec path file argv →
      Shares L s p file argv d sz entry σ₁ res es σ₂ →
      J .runnable (Table.ofEntries (s.proc p).shared es))
    (hexit : a = .exit → J .zombie (exitTable (s.proc p).shared))
    (hreap : ∀ t, J .zombie t → J .unused t) :
    ∀ q, J (s'.proc q).state (s'.proc q).shared := by
  have hone : ∀ {q : Slot} {r : Proc}, s'.proc = Function.update s.proc q r →
      J r.state r.shared → ∀ q', J (s'.proc q').state (s'.proc q').shared := by
    intro q r hproc hr q'
    rw [hproc, Function.update_apply]
    split
    · exact hr
    · exact h q'
  cases he with
  | idle => exact h
  | shared => exact hone rfl (hp ▸ hshare _ _ _ rfl)
  | files _ hof =>
    obtain ⟨o, ho⟩ := hof.proc
    exact hone ho (h p)
  | forkFailed hf =>
    obtain hproc | ⟨np, pid, k, d, _, hproc⟩ := hf.proc
    · rw [hproc]
      exact h
    · exact hone hproc (h np)
  | forked hf =>
    obtain ⟨o, ho⟩ := hf.proc
    exact hone ho (hfork _ rfl ⟨hf.free, hf.least⟩)
  | noImage _ => exact h
  | execFailed _ _ hf =>
    obtain ⟨d, sz, entry, σ₁, res, es, σ₂, σ₃, hs, _, _, hproc⟩ := hf.mem
    exact hone hproc (hp ▸ hexec _ _ _ _ _ _ _ _ _ _ rfl hs)
  | execed _ _ hx =>
    obtain ⟨d, sz, entry, σ₁, res, es, σ₂, sz', sp, σ₃, hs, _, _, hproc⟩ := hx.mem
    exact hone hproc (hp ▸ hexec _ _ _ _ _ _ _ _ _ _ rfl hs)
  | resized _ hr =>
    obtain ⟨sz, _, hproc⟩ := hr.mem
    exact hone hproc (h p)
  | exited hx =>
    intro q
    by_cases hq : q = p
    · obtain ⟨o, hself⟩ := hx.self
      rw [hq, hself]
      exact hexit rfl
    · rw [hx.others q hq]
      exact h q
  | @reaped q _ hr => exact hone hr.proc (hreap _ (hr.zombie ▸ h q))

theorem Returns.inUse {a : Act} {r : Int} (h : Returns L s p a r s') :
    (s.proc p).state ≠ .unused := by
  rw [h.1]
  exact ProcState.noConfusion

theorem Returns.effect {a : Act} {r : Int} (h : Returns L s p a r s') : Effect L s p a r s' :=
  (run_effect a h.inUse).post h.2 r rfl

theorem Returns.initproc {a : Act} {r : Int} (h : Returns L s p a r s') :
    s'.initproc = s.initproc := by
  cases h.effect with
  | idle => rfl
  | shared => rfl
  | files _ hof => exact hof.initproc
  | forkFailed hf => exact hf.rest.initproc
  | forked hf => exact hf.initproc
  | noImage _ => rfl
  | execFailed _ _ hf => exact hf.rest.initproc
  | execed _ _ hx => exact hx.rest.initproc
  | resized _ hr => exact hr.rest.initproc
  | exited hx => exact hx.initproc
  | reaped hr => exact hr.rest.initproc

theorem Returns.forked {r : Int} (h : Returns L s p .fork r s') (hr : 0 ≤ r) :
    ∃ np k d, r = s.nextpid ∧ Forked L s p np k d s' := by
  obtain ⟨rfl, _⟩ | hf := (Spec.wrap (f := fun r => r) (fork_cases h.inUse)).post h.2 r rfl
  · exact absurd hr (by decide)
  · exact hf

theorem Returns.exited {r : Int} (h : Returns L s p .exit r s') : Exited L s p s' :=
  (Spec.wrap (f := fun _ => 0) (Q := fun _ s' => Exited L s p s') exit_cases).post h.2 r rfl

theorem Returns.execed {path : Option CString} {file : Option (List UInt8)} {argv : List CString}
    (h : Returns L s p (.exec path file argv) 0 s') : argv.length < 32 ∧
      (∀ arg ∈ argv, arg.bytes.length < (s.proc p).sz) ∧
      ∃ path', path = some path' ∧ Execed L s p path' file argv s' := by
  obtain ⟨hr, _⟩ | ⟨hlen, hargs, ⟨hr, _⟩ | ⟨hr, _⟩ | ⟨_, hx⟩⟩ :=
    (Spec.wrap (f := fun r => r) (sysExec_cases path file argv)).post h.2 0 rfl
  · exact absurd hr (by decide)
  · exact absurd hr (by decide)
  · exact absurd hr (by decide)
  · exact ⟨hlen, hargs, hx⟩

end

end Xv6Sharing.Process
