/-
Xv6Sharing.Process.OpenFiles — the reference counts of open files are exact.

Between system calls the count of a file is the number of descriptors that stand
for it, and the count of an inode the number of open files on it. Inside a call
this is not so: `sys_dup` stores a descriptor before it counts it, `filealloc`
counts a file nobody has, `exit` closes a file and clears the descriptor after
it. `Refs` therefore counts the references a call has in hand as well
(`Lib.Tally`), and takes the descriptors as a function of their own, which the
process table catches up with at the end. With each function's effect on `Refs`
a call is then a sequence of those.

The pages of the pipes are accounted for in Process.Accounting.
-/
import Xv6Sharing.Lib.Refcount
import Xv6Sharing.Process.Conservation

namespace Xv6Sharing.Process

open Lib Vm Share

/-- The file a descriptor of a process stands for. -/
def Sys.points (s : Sys) (x : Slot × Fd) : Option FileSlot := (s.proc x.1).ofile x.2

/-- The inode an open file refers to. -/
def File.inode (f : File) : Option Nat := if f.type = .inode then some f.ip else none

/-- The counts are right with `hand` and `inodes` as the references of a running call. -/
structure Refs (points : Slot × Fd → Option FileSlot) (s : Sys) (hand : List FileSlot)
    (inodes : List Nat) : Prop where
  files : Tally points hand fun i => (s.file i).ref
  inodes : Tally (fun i => (s.file i).inode) inodes s.iref
  closed : ∀ i, (s.file i).ref = 0 → (s.file i).type = .none

/-- Not a panic of `filedup` or `fileclose`. -/
def otherPanic (e : Panic) : Prop := e ≠ .filedup ∧ e ≠ .fileclose

section

variable {L : Layout} {s s' : Sys} {p np : Slot} {fd : Fd} {i : FileSlot} {E : Panic → Prop}
  {points : Slot × Fd → Option FileSlot} {hand : List FileSlot} {inodes : List Nat}

/-! ## The tables as counts -/

theorem inode_eq_some {f : File} {n : Nat} : f.inode = some n ↔ f.type = .inode ∧ f.ip = n := by
  unfold File.inode
  split
  · rename_i htype
    simp [htype]
  · rename_i htype
    simp [htype]

theorem withFile_refs (s : Sys) (i : FileSlot) (f : File) (j : FileSlot) :
    ((s.withFile i f).file j).ref = Function.update (fun j => (s.file j).ref) i f.ref j := by
  rw [withFile_file, Function.update_apply, Function.update_apply]
  split <;> rfl

theorem withFile_inodes (s : Sys) (i : FileSlot) (f : File) (j : FileSlot) :
    ((s.withFile i f).file j).inode = Function.update (fun j => (s.file j).inode) i f.inode j := by
  rw [withFile_file, Function.update_apply, Function.update_apply]
  split <;> rfl

theorem points_set (s : Sys) (p : Slot) (fd : Fd) (v : Option FileSlot) (x : Slot × Fd) :
    (s.withProc p { s.proc p with ofile := Function.update (s.proc p).ofile fd v }).points x
      = Function.update s.points (p, fd) v x := by
  obtain ⟨q, fd'⟩ := x
  unfold Sys.points
  rw [withProc_proc]
  by_cases hq : q = p
  · subst hq
    simp only [Function.update_self, Function.update_apply, Prod.mk.injEq, true_and]
  · simp [hq]

theorem Refs.congr (h : Refs points s hand inodes) (hfile : s'.file = s.file)
    (hiref : s'.iref = s.iref) : Refs points s' hand inodes := by
  refine ⟨?_, ?_, ?_⟩
  · rw [hfile]
    exact h.files
  · rw [hfile, hiref]
    exact h.inodes
  · rw [hfile]
    exact h.closed

theorem Refs.congrPoints {points' : Slot × Fd → Option FileSlot} (h : Refs points s hand inodes)
    (hp : ∀ x, points' x = points x) : Refs points' s hand inodes :=
  ⟨h.files.congr hp fun _ => rfl, h.inodes, h.closed⟩

theorem Refs.setRef {hand' : List FileSlot} {r : Nat} (h : Refs points s hand inodes)
    (hfiles : Tally points hand' (Function.update (fun j => (s.file j).ref) i r))
    (hr : r = 0 → (s.file i).type = .none) :
    Refs points (s.withFile i { s.file i with ref := r }) hand' inodes := by
  refine ⟨hfiles.congr (fun _ => rfl) (withFile_refs s i _), h.inodes.congr (fun j => ?_)
    fun _ => rfl, fun j => ?_⟩
  · rw [withFile_inodes]
    exact congrFun (Function.update_eq_self i fun j => (s.file j).inode) j
  · rw [withFile_file, Function.update_apply]
    split
    · exact hr
    · exact h.closed j

theorem Refs.lastRef {inodes' : List Nat} (h : Refs points s (i :: hand) inodes)
    (hone : (s.file i).ref = 1) {r : Nat → Nat}
    (hinodes : Tally (Function.update (fun j => (s.file j).inode) i none) inodes' r) :
    Refs points ((s.withFile i { s.file i with ref := 0, type := .none }).withIref r) hand
      inodes' := by
  refine ⟨h.files.put.congr (fun _ => rfl) fun j => ?_, hinodes.congr (fun j => ?_) fun _ => rfl,
    fun j => ?_⟩
  · rw [hone]
    exact withFile_refs s i _ j
  · exact withFile_inodes s i _ j
  · show (Function.update s.file i _ j).ref = 0 → (Function.update s.file i _ j).type = .none
    rw [Function.update_apply]
    split
    · exact fun _ => rfl
    · exact h.closed j

/-- A file becomes a pipe end, or a file on an inode whose reference is in hand. -/
theorem Refs.setFile {inodes' : List Nat} {f : File} (h : Refs points s hand inodes)
    (hpos : 0 < (s.file i).ref) (href : f.ref = (s.file i).ref)
    (hinodes : Tally (Function.update (fun j => (s.file j).inode) i f.inode) inodes' s.iref) :
    Refs points (s.withFile i f) hand inodes' := by
  refine ⟨h.files.congr (fun _ => rfl) fun j => ?_, hinodes.congr (withFile_inodes s i f)
    fun _ => rfl, fun j => ?_⟩
  · rw [withFile_refs, href]
    exact congrFun (Function.update_eq_self i fun j => (s.file j).ref) j
  · rw [withFile_file, Function.update_apply]
    split
    · intro hzero
      omega
    · exact h.closed j

theorem Refs.toPipe (h : Refs points s hand inodes) (hi : i ∈ hand)
    (htype : (s.file i).type = .none) {r w : Bool} {n : Nat} :
    Refs points (s.withFile i { s.file i with
      type := .pipe, readable := r, writable := w, pipe := n }) hand inodes := by
  refine h.setFile (h.files.perm (List.perm_cons_erase hi)).pos rfl ?_
  have hnone : (s.file i).inode = none := if_neg (by rw [htype]; exact nofun)
  show Tally (Function.update _ i none) inodes s.iref
  rw [← hnone, Function.update_eq_self]
  exact h.inodes

theorem Refs.swap {j : FileSlot} (h : Refs points s (i :: j :: hand) inodes) :
    Refs points s (j :: i :: hand) inodes :=
  ⟨h.files.perm (.swap ..), h.inodes, h.closed⟩

/-- A file somebody has a descriptor for is counted. -/
theorem Refs.pos (h : Refs points s hand inodes) {x : Slot × Fd} (hx : points x = some i) :
    0 < (s.file i).ref := (h.files.pick hx).pos

/-- A descriptor is cleared; its reference is in hand. -/
theorem Refs.clear (h : Refs points s hand inodes) {x : Slot × Fd} (hx : points x = some i) :
    Refs (Function.update points x none) s (i :: hand) inodes :=
  ⟨h.files.pick hx, h.inodes, h.closed⟩

theorem Refs.store (h : Refs points s (i :: hand) inodes) {x : Slot × Fd} (hx : points x = none) :
    Refs (Function.update points x (some i)) s hand inodes :=
  ⟨h.files.place hx, h.inodes, h.closed⟩

/-! ## The functions of file.c and pipe.c -/

theorem filealloc_refs (h : Refs points s hand inodes) : Spec E filealloc s (fun r s' =>
    s'.proc = s.proc ∧ match r with
    | none => s' = s
    | some i => Refs points s' (i :: hand) inodes ∧ (s'.file i).type = .none ∧
        (s.file i).ref = 0 ∧ ∀ j, j ≠ i → s'.file j = s.file j) := by
  refine filealloc_cases.mono fun r s' hr => ?_
  obtain ⟨rfl, rfl⟩ | ⟨i, rfl, hzero, rfl⟩ := hr
  · exact ⟨rfl, rfl⟩
  · refine ⟨rfl, h.setRef ?_ (fun h1 => absurd h1 one_ne_zero), ?_, hzero, fun j hj => ?_⟩
    rotate_left
    · rw [withFile_file, Function.update_self]
      exact h.closed i hzero
    · rw [withFile_file, Function.update_of_ne hj]
    have hget := h.files.get i
    rw [hzero] at hget
    exact hget

theorem filedup_refs (h : Refs points s hand inodes) (hi : 0 < (s.file i).ref) :
    Spec otherPanic (filedup i) s (fun _ s' => s'.proc = s.proc ∧
      Refs points s' (i :: hand) inodes) := by
  have hrun : filedup i s = .ok ((), s.withFile i { s.file i with ref := (s.file i).ref + 1 }) := by
    unfold filedup
    rw [bind_ok (get_run s), if_neg (by omega), setFile_run]
  exact Spec.of_ok hrun ⟨rfl, h.setRef (h.files.get i) fun h0 => absurd h0 (Nat.succ_ne_zero _)⟩

theorem pipeclose_keeps {f : Nat} {w : Bool} (hE : E .kfree) :
    Spec E (pipeclose L f w) s (fun _ s' => s'.proc = s.proc ∧ s'.file = s.file ∧
      s'.iref = s.iref) := by
  refine (pipeclose_cases hE).mono fun _ s' hr => ?_
  obtain ⟨-, -, σ, -, rfl⟩ | ⟨-, rfl⟩ := hr <;> exact ⟨rfl, rfl, rfl⟩

/-- `fileclose` gives up a reference in hand, and with the last one to a file on an inode one
reference to the inode. -/
theorem fileclose_refs (h : Refs points s (i :: hand) inodes) :
    Spec otherPanic (fileclose L i) s (fun _ s' => s'.proc = s.proc ∧
      Refs points s' hand inodes ∧
      s'.iref = if (s.file i).ref = 1 ∧ (s.file i).type = .inode
        then Function.update s.iref (s.file i).ip (s.iref (s.file i).ip - 1) else s.iref) := by
  have hpos := h.files.pos
  refine (fileclose_cases ⟨nofun, nofun⟩ (fun h0 => absurd h0 (by omega))).mono fun _ s' hr => ?_
  have hnone : (s.file i).type ≠ .inode →
      Tally (Function.update (fun j => (s.file j).inode) i none) inodes s.iref := by
    intro hne
    have hi : (s.file i).inode = none := if_neg hne
    rw [← hi, Function.update_eq_self]
    exact h.inodes
  obtain ⟨hmany, rfl⟩ | ⟨hone, htype, rfl⟩ | ⟨hone, htype, rfl⟩ | ⟨hone, htype, hclose⟩ := hr
  · refine ⟨rfl, h.setRef h.files.put fun h0 => absurd h0 (by omega), ?_⟩
    rw [if_neg (by omega)]
    rfl
  · refine ⟨rfl, h.lastRef hone (hnone (by rw [htype]; exact nofun)), ?_⟩
    rw [if_neg (by rw [htype]; exact fun hc => nomatch hc.2)]
    rfl
  · refine ⟨rfl, h.lastRef hone ?_, (if_pos ⟨hone, htype⟩).symm⟩
    exact (h.inodes.pick (o := i) (if_pos htype)).put
  · obtain ⟨hproc, hfile, hiref⟩ := (pipeclose_keeps (E := anyPanic) trivial).post hclose
    refine ⟨hproc, (h.lastRef hone (hnone (by rw [htype]; exact nofun))).congr hfile hiref, ?_⟩
    rw [if_neg (by rw [htype]; exact fun hc => nomatch hc.2), hiref]
    rfl

theorem pipealloc_refs (h : Refs points s hand inodes) :
    Spec otherPanic (pipealloc L) s (fun r s' => s'.proc = s.proc ∧ match r with
      | none => Refs points s' hand inodes
      | some (f0, f1) => Refs points s' (f0 :: f1 :: hand) inodes) := by
  unfold pipealloc
  refine Spec.seq (filealloc_refs h) fun r s₁ h₁ => ?_
  obtain ⟨hproc₁, h₁⟩ := h₁
  cases r with
  | none =>
    subst h₁
    exact Spec.pure ⟨rfl, h⟩
  | some f0 =>
    obtain ⟨h₁, htype0, -, -⟩ := h₁
    refine Spec.seq (filealloc_refs h₁) fun r s₂ h₂ => ?_
    obtain ⟨hproc₂, h₂⟩ := h₂
    cases r with
    | none =>
      subst h₂
      refine Spec.seq (fileclose_refs h₁) fun _ s₃ h₃ => ?_
      exact Spec.pure ⟨h₃.1.trans hproc₁, h₃.2.1⟩
    | some f1 =>
      obtain ⟨h₂, htype1, hzero, hkeep⟩ := h₂
      have hne : f0 ≠ f1 := by
        rintro rfl
        have hpos := h₁.files.pos
        omega
      obtain ⟨r, σ, hr⟩ : ∃ r σ, kalloc s₂.phys = .ok (r, σ) := by
        rw [kalloc_run]
        split <;> exact ⟨_, _, rfl⟩
      refine Spec.seq_ok (onPhys_ok hr) ?_
      have h₃ : Refs points (s₂.withPhys σ) (f0 :: f1 :: hand) inodes := h₂.swap.congr rfl rfl
      cases r with
      | none =>
        refine Spec.seq (fileclose_refs h₃) fun _ s₄ h₄ => ?_
        refine Spec.seq (fileclose_refs h₄.2.1) fun _ s₅ h₅ => ?_
        exact Spec.pure ⟨((h₅.1.trans h₄.1).trans hproc₂).trans hproc₁, h₅.2.1⟩
      | some n =>
        refine Spec.seq_ok (setPipe_run n _ _) ?_
        refine Spec.seq_ok (setFile_run f0 _ _) ?_
        refine Spec.seq_ok (setFile_run f1 _ _) ?_
        refine Spec.pure ⟨hproc₂.trans hproc₁, ?_⟩
        have h₄ : Refs points ((s₂.withPhys σ).withPipe n ⟨true, true⟩) (f0 :: f1 :: hand)
            inodes := h₃.congr rfl rfl
        refine (h₄.toPipe List.mem_cons_self ?_).toPipe
          (List.mem_cons_of_mem _ List.mem_cons_self) ?_
        · show (s₂.file f0).type = .none
          rw [hkeep f0 hne]
          exact htype0
        · rw [withFile_file, Function.update_of_ne hne.symm]
          exact htype1

theorem fdalloc_refs (h : Refs s.points s (i :: hand) inodes) : Spec E (fdalloc p i) s (fun r s' =>
    s'.file = s.file ∧ s'.iref = s.iref ∧ match r with
    | none => s' = s
    | some fd => Refs s'.points s' hand inodes ∧ s'.points (p, fd) = some i) := by
  refine fdalloc_cases.mono fun r s' hr => ?_
  obtain ⟨rfl, rfl⟩ | ⟨fd, rfl, hfd, rfl⟩ := hr
  · exact ⟨rfl, rfl, rfl⟩
  · refine ⟨rfl, rfl, ?_, ?_⟩
    · exact ((h.store (x := (p, fd)) hfd).congrPoints (points_set s p fd _)).congr rfl rfl
    · rw [points_set, Function.update_self]

/-! ## The system calls on descriptors -/

theorem argfd_points {q : Proc} {n : Option Int} (h : argfd q n = some (fd, i)) :
    q.ofile fd = some i := by
  unfold argfd at h
  cases n with
  | none => cases h
  | some n =>
    dsimp only at h
    split at h
    · obtain ⟨j, hj, heq⟩ := Option.map_eq_some_iff.mp h
      cases heq
      exact hj
    · cases h

/-- `sys_close`; with the last descriptor of a file on an inode one reference to the inode is
given up. -/
theorem sysClose_refs (h : Refs s.points s [] []) (n : Option Int) :
    Spec otherPanic (sysClose L p n) s (fun _ s' => Refs s'.points s' [] [] ∧
      ∀ fd i, argfd (s.proc p) n = some (fd, i) →
        s'.iref = if (s.file i).ref = 1 ∧ (s.file i).type = .inode
          then Function.update s.iref (s.file i).ip (s.iref (s.file i).ip - 1) else s.iref) := by
  unfold sysClose
  refine Spec.seq_ok (get_run s) ?_
  cases hfd : argfd (s.proc p) n with
  | none => exact Spec.pure ⟨h, nofun⟩
  | some r =>
    obtain ⟨fd, i⟩ := r
    refine Spec.seq_ok (setProc_run p _ s) ?_
    have h₁ := (h.clear (x := (p, fd)) (argfd_points hfd)).congrPoints (points_set s p fd none)
    refine Spec.seq (fileclose_refs (h₁.congr rfl rfl)) fun _ s₂ h₂ => ?_
    obtain ⟨hproc, h₂, hiref⟩ := h₂
    refine Spec.pure ⟨h₂.congrPoints fun x => ?_, fun fd' j hj => ?_⟩
    · unfold Sys.points
      rw [hproc]
    · cases hj
      exact hiref

/-- `sys_dup` stores the descriptor before it counts it. -/
theorem sysDup_refs (h : Refs s.points s [] []) (n : Option Int) :
    Spec otherPanic (sysDup p n) s (fun _ s' => Refs s'.points s' [] []) := by
  unfold sysDup
  refine Spec.seq_ok (get_run s) ?_
  cases hfd : argfd (s.proc p) n with
  | none => exact Spec.pure h
  | some r =>
    obtain ⟨fd, i⟩ := r
    refine Spec.seq fdalloc_cases fun r s₁ h₁ => ?_
    obtain ⟨rfl, rfl⟩ | ⟨fd', rfl, hnone, rfl⟩ := h₁
    · exact Spec.pure h
    · have hpos := h.pos (x := (p, fd)) (argfd_points hfd)
      refine Spec.seq (filedup_refs (h.congr rfl rfl) hpos) fun _ s₂ h₂ => ?_
      obtain ⟨hproc, h₂⟩ := h₂
      refine Spec.pure ((h₂.store (x := (p, fd')) hnone).congrPoints fun x => ?_)
      rw [← points_set]
      unfold Sys.points
      rw [hproc]

theorem sysOpen_refs (h : Refs s.points s [] []) (ip : Option Nat) (readable writable : Bool) :
    Spec otherPanic (sysOpen L p ip readable writable) s (fun _ s' => Refs s'.points s' [] []) := by
  unfold sysOpen
  cases ip with
  | none => exact Spec.pure h
  | some ip =>
    refine Spec.seq_ok (iget_run ip s) ?_
    have h₀ : Refs s.points (s.withIref (Function.update s.iref ip (s.iref ip + 1))) [] [ip] :=
      ⟨h.files, h.inodes.get ip, h.closed⟩
    refine Spec.seq (filealloc_refs h₀) fun r s₁ h₁ => ?_
    obtain ⟨hproc₁, h₁⟩ := h₁
    have hpoints₁ : s₁.points = s.points := by
      unfold Sys.points
      rw [hproc₁]
      rfl
    cases r with
    | none =>
      subst h₁
      refine Spec.seq_ok (iput_run ip _) (Spec.pure ?_)
      exact ⟨h₀.files, h₀.inodes.put, h₀.closed⟩
    | some i =>
      obtain ⟨h₁, htype, -, -⟩ := h₁
      rw [← hpoints₁] at h₁
      refine Spec.seq (fdalloc_refs h₁) fun r s₂ h₂ => ?_
      obtain ⟨hfile₂, hiref₂, h₂⟩ := h₂
      cases r with
      | none =>
        subst h₂
        refine Spec.seq (fileclose_refs h₁) fun _ s₃ h₃ => ?_
        refine Spec.seq_ok (iput_run ip s₃) (Spec.pure ?_)
        obtain ⟨hproc₃, h₃, -⟩ := h₃
        refine ⟨h₃.files.congr (fun x => ?_) fun _ => rfl, h₃.inodes.put, h₃.closed⟩
        show (s₃.proc x.1).ofile x.2 = s₂.points x
        rw [hproc₃]
        rfl
      | some fd =>
        refine Spec.seq_ok (setFile_run i _ s₂) (Spec.pure ?_)
        obtain ⟨h₂, hfd⟩ := h₂
        refine Refs.setFile (f := { s₂.file i with
          type := .inode, ip := ip, readable := readable, writable := writable })
          h₂ (h₂.pos hfd) rfl (h₂.inodes.place (if_neg ?_))
        rw [hfile₂, htype]
        exact nofun

theorem sysPipe_refs (h : Refs s.points s [] []) (arg : Option Nat) :
    Spec otherPanic (sysPipe L p arg) s (fun _ s' => Refs s'.points s' [] []) := by
  unfold sysPipe
  refine Spec.seq_ok (get_run s) ?_
  cases Share.argptr (s.proc p).sz arg 8 with
  | none => exact Spec.pure h
  | some _ =>
    refine Spec.seq (pipealloc_refs h) fun r s₁ h₁ => ?_
    obtain ⟨hproc₁, h₁⟩ := h₁
    have hpoints₁ : s₁.points = s.points := by
      unfold Sys.points
      rw [hproc₁]
    rw [← hpoints₁] at h₁
    cases r with
    | none => exact Spec.pure h₁
    | some fs =>
      obtain ⟨rf, wf⟩ := fs
      -- both files are in hand, and stay so until their descriptors are stored
      have hclose : ∀ {s₂ : Sys}, Refs s₂.points s₂ [rf, wf] [] →
          Spec otherPanic (do fileclose L rf; fileclose L wf; return (none : Option (Fd × Fd))) s₂
            (fun _ s' => Refs s'.points s' [] []) := by
        intro s₂ h₂
        refine Spec.seq (fileclose_refs h₂) fun _ s₃ h₃ => ?_
        refine Spec.seq (fileclose_refs h₃.2.1) fun _ s₄ h₄ => ?_
        refine Spec.pure (h₄.2.1.congrPoints fun x => ?_)
        unfold Sys.points
        rw [h₄.1, h₃.1]
      refine Spec.seq (fdalloc_refs h₁) fun r s₂ h₂ => ?_
      obtain ⟨-, -, h₂⟩ := h₂
      cases r with
      | none =>
        subst h₂
        exact hclose h₁
      | some fd0 =>
        obtain ⟨h₂, hfd0⟩ := h₂
        refine Spec.seq (fdalloc_refs h₂) fun r s₃ h₃ => ?_
        obtain ⟨-, -, h₃⟩ := h₃
        cases r with
        | none =>
          subst h₃
          refine Spec.seq_ok (setProc_run p _ _) ?_
          exact hclose (((h₂.clear hfd0).congrPoints (points_set _ p fd0 none)).congr rfl rfl)
        | some fd1 => exact Spec.pure h₃.1

/-! ## `exit`, `fork` and `wait` -/

/-- `exit` closes each file and clears the descriptor after it. -/
theorem closeFiles_refs (h : Refs s.points s [] []) (fds : List Fd) :
    Spec otherPanic (closeFiles L p fds) s (fun _ s' => Refs s'.points s' [] [] ∧
      (∀ fd, fd ∈ fds ∨ (s.proc p).ofile fd = none → (s'.proc p).ofile fd = none) ∧
      ∀ q, q ≠ p → s'.proc q = s.proc q) := by
  induction fds generalizing s with
  | nil => exact Spec.pure ⟨h, by simp, fun _ _ => rfl⟩
  | cons fd fds ih =>
    unfold closeFiles
    refine Spec.seq_ok (get_run s) ?_
    cases hfd : (s.proc p).ofile fd with
    | none =>
      refine (ih h).mono fun _ s' hs' => ⟨hs'.1, fun fd' hfd' => hs'.2.1 fd' ?_, hs'.2.2⟩
      rcases hfd' with hmem | hnone
      · rcases List.mem_cons.mp hmem with rfl | hmem
        · exact .inr hfd
        · exact .inl hmem
      · exact .inr hnone
    | some i =>
      refine Spec.seq (fileclose_refs (h.clear (x := (p, fd)) hfd)) fun _ s₁ h₁ => ?_
      obtain ⟨hproc, h₁, -⟩ := h₁
      refine Spec.seq_ok (setProc_run p _ s₁) ?_
      have hpoints : s₁.points = s.points := by
        unfold Sys.points
        rw [hproc]
      rw [← hpoints] at h₁
      refine (ih ((h₁.congrPoints (points_set s₁ p fd none)).congr rfl rfl)).mono
        fun _ s' hs' => ⟨hs'.1, fun fd' hfd' => hs'.2.1 fd' ?_, fun q hq => ?_⟩
      · rw [withProc_proc, Function.update_self]
        show _ ∨ Function.update (s₁.proc p).ofile fd none fd' = none
        rw [Function.update_apply, hproc]
        grind
      · rw [hs'.2.2 q hq, withProc_proc, Function.update_of_ne hq, hproc]

/-- `fork` counts each file and stores the descriptor after it. -/
theorem dupFiles_refs (h : Refs s.points s [] []) (fds : List Fd) (hnodup : fds.Nodup)
    (hempty : ∀ fd ∈ fds, (s.proc np).ofile fd = none) :
    Spec otherPanic (dupFiles p np fds) s (fun _ s' => Refs s'.points s' [] [] ∧
      ∀ q, q ≠ np → s'.proc q = s.proc q) := by
  induction fds generalizing s with
  | nil => exact Spec.pure ⟨h, fun _ _ => rfl⟩
  | cons fd fds ih =>
    rw [List.nodup_cons] at hnodup
    unfold dupFiles
    refine Spec.seq_ok (get_run s) ?_
    cases hfd : (s.proc p).ofile fd with
    | none => exact ih h hnodup.2 fun fd' hmem => hempty fd' (List.mem_cons_of_mem _ hmem)
    | some i =>
      refine Spec.seq (filedup_refs h (h.pos (x := (p, fd)) hfd)) fun _ s₁ h₁ => ?_
      obtain ⟨hproc, h₁⟩ := h₁
      have hpoints : s₁.points = s.points := by
        unfold Sys.points
        rw [hproc]
      rw [← hpoints] at h₁
      have hnone : s₁.points (np, fd) = none := by
        rw [hpoints]
        exact hempty fd List.mem_cons_self
      refine Spec.seq_ok (setProc_run np _ s₁) ?_
      have h₂ := (h₁.store hnone).congrPoints (points_set s₁ np fd (some i))
      refine (ih (h₂.congr rfl rfl) hnodup.2 fun fd' hmem => ?_).mono fun _ s' hs' => ⟨hs'.1, fun q hq => ?_⟩
      · have hfd' : fd' ≠ fd := fun heq => hnodup.1 (heq ▸ hmem)
        rw [withProc_proc, Function.update_self]
        show Function.update (s₁.proc np).ofile fd (some i) fd' = none
        rw [Function.update_of_ne hfd', hproc]
        exact hempty fd' (List.mem_cons_of_mem _ hmem)
      · rw [hs'.2 q hq, withProc_proc, Function.update_of_ne hq, hproc]

/-- The counts are exact, and only processes that can run have descriptors. -/
structure OpenFiles (s : Sys) : Prop where
  refs : Refs s.points s [] []
  idle : ∀ q, ¬(s.proc q).Live → ∀ fd, (s.proc q).ofile fd = none

theorem Refs.next (h : Refs s.points s hand inodes)
    (hofile : ∀ q, (s'.proc q).ofile = (s.proc q).ofile) (hfile : s'.file = s.file)
    (hiref : s'.iref = s.iref) : Refs s'.points s' hand inodes :=
  (h.congrPoints fun x => congrFun (hofile x.1) x.2).congr hfile hiref

theorem ofile_update {f : Slot → Proc} {q : Proc} (hq : q.ofile = (f p).ofile) (r : Slot) :
    (Function.update f p q r).ofile = (f r).ofile := by
  rw [Function.update_apply]
  split
  · rename_i heq
    rw [hq, heq]
  · rfl

theorem exit_refs (ha : Accounted L s) (h : Refs s.points s [] []) (hp : (s.proc p).state ≠ .unused) :
    Spec otherPanic (exit L p) s (fun _ s' => Refs s'.points s' [] [] ∧
      (∀ fd, (s'.proc p).ofile fd = none) ∧
      ∀ q, q ≠ p → (s'.proc q).state = (s.proc q).state ∧ (s'.proc q).ofile = (s.proc q).ofile) := by
  unfold exit
  refine Spec.seq_ok (get_run s) ?_
  split
  · exact Spec.throw ⟨nofun, nofun⟩
  · rename_i hinit
    rw [if_neg (ha.parented p hp hinit)]
    refine Spec.seq (closeFiles_refs h (List.finRange 16)) fun _ s₁ h₁ => ?_
    obtain ⟨h₁, hclosed, hothers⟩ := h₁
    refine Spec.seq_ok (onPhys_ok (pure_run () s₁.phys)) ?_
    refine Spec.seq_ok (setProc_run p _ _) ?_
    refine Spec.seq_ok (modify_run _ _) ?_
    -- what is left of `exit` gives the children away and makes `p` a zombie
    have hgiven : ∀ (t : Sys) (q : Slot), ((t.abandon p).proc q).state = (t.proc q).state ∧
        ((t.abandon p).proc q).ofile = (t.proc q).ofile := by
      intro t q
      rw [abandon_proc]
      exact ⟨rfl, rfl⟩
    refine Spec.of_ok (setProc_run p _ _) ⟨h₁.next (fun q => ?_) rfl rfl, fun fd => ?_, fun q hq => ?_⟩
    · rw [withProc_proc, ofile_update (by rfl), (hgiven _ q).2, withProc_proc, ofile_update (by rfl)]
      rfl
    · rw [withProc_proc, Function.update_self]
      exact (congrFun (hgiven _ p).2 fd).trans (by
        rw [withProc_proc, Function.update_self]
        exact hclosed fd (.inl (List.mem_finRange fd)))
    · rw [withProc_proc, Function.update_of_ne hq, (hgiven _ q).1, (hgiven _ q).2, withProc_proc,
        Function.update_of_ne hq, withPhys_proc, hothers q hq]
      exact ⟨rfl, rfl⟩

theorem fork_refs (ha : Accounted L s) (h : OpenFiles s) (hp : (s.proc p).state ≠ .unused) :
    Spec otherPanic (fork L p) s (fun _ s' => Refs s'.points s' [] []) := by
  unfold fork
  refine Spec.seq allocproc_cases fun r s₁ h₁ => ?_
  obtain ⟨hs, ⟨rfl, -, -, hproc⟩ | ⟨np, rfl, -, -, -, hproc⟩ |
    ⟨np, k, rest, rfl, ⟨hnp, -⟩, hfree, -, hphys, hproc⟩⟩ := h₁
  · exact Spec.pure (h.refs.next (fun q => by rw [hproc]) hs.file hs.iref)
  · exact Spec.pure (h.refs.next (fun q => by rw [hproc, ofile_update (by rfl)]) hs.file hs.iref)
  · have hne : p ≠ np := fun heq => hp (heq ▸ hnp)
    have h₁ : Refs s₁.points s₁ [] [] :=
      h.refs.next (fun q => by rw [hproc, ofile_update (by rfl)]) hs.file hs.iref
    have hcur : s₁.proc p = s.proc p := by
      rw [hproc, Function.update_of_ne hne]
    have hempty : ∀ fd, (s₁.proc np).ofile fd = none := by
      intro fd
      rw [hproc, Function.update_self]
      exact h.idle np (fun hlive => hlive.1 hnp) fd
    refine Spec.seq_ok (get_run s₁) ?_
    dsimp only
    have hsound : Sound L (named s.space) (insert k (named s.holder)) s₁.phys := by
      have hsound := ha.sound
      unfold Sound at hsound
      rw [hfree] at hsound
      rw [hphys]
      exact hsound.kalloc
    rw [hcur]
    refine Spec.seq (Spec.lift (copyuvm_spec hsound (Accounted.dir_mem hp) (ha.sizes p hp).1
      (fun _ _ _ => ⟨⟨nofun, nofun⟩, ⟨nofun, nofun⟩⟩))) fun r s₂ h₂ => ?_
    obtain ⟨σ, rfl, -⟩ := h₂
    cases r with
    | none =>
      refine Spec.seq (Spec.onPhys (Q := fun _ s₃ => ∃ σ', s₃ = s₁.withPhys σ')
        (fun _ σ' _ => ⟨σ', rfl⟩) (fun e he => kfree_error he ▸ ⟨nofun, nofun⟩)) fun _ s₃ h₃ => ?_
      obtain ⟨σ', rfl⟩ := h₃
      refine Spec.seq_ok (setProc_run np _ _) (Spec.pure ?_)
      exact h₁.next (fun q => ofile_update (by rfl) q) rfl rfl
    | some d =>
      refine Spec.seq_ok (setProc_run np _ _) ?_
      refine Spec.seq (dupFiles_refs ?_ (List.finRange 16) (List.nodup_finRange 16)
        fun fd _ => ?_) fun _ s₃ h₃ => ?_
      · exact h₁.next (fun q => ofile_update (by rfl) q) rfl rfl
      · rw [withProc_proc, Function.update_self]
        exact hempty fd
      · refine Spec.seq_ok (setProc_run np _ s₃) (Spec.pure ?_)
        exact h₃.1.next (fun q => ofile_update (by rfl) q) rfl rfl

/-! ## One step -/

theorem onFiles_refs {a : Act} (ha : a.OnFiles) (h : Refs s.points s [] []) :
    Spec otherPanic (a.run L p) s (fun _ s' => Refs s'.points s' [] []) := by
  cases a with
  | pipe arg => exact Spec.seq (sysPipe_refs h arg) fun _ _ h₁ => Spec.pure h₁
  | close n => exact Spec.seq (sysClose_refs h n) fun _ _ h₁ => Spec.pure h₁.1
  | dup n => exact Spec.seq (sysDup_refs h n) fun _ _ h₁ => Spec.pure h₁
  | «open» ip readable writable =>
    exact Spec.seq (sysOpen_refs h ip readable writable) fun _ _ h₁ => Spec.pure h₁
  | shareData _ _ _ => exact ha.elim
  | getData _ _ => exact ha.elim
  | fork => exact ha.elim
  | exec _ _ _ => exact ha.elim
  | sbrk _ => exact ha.elim
  | exit => exact ha.elim
  | wait => exact ha.elim

/-- The calls that call `filedup` or `fileclose`. -/
def Act.Counts : Act → Prop
  | .fork | .exit => True
  | a => a.OnFiles

theorem counts_refs {a : Act} (hcounts : a.Counts) (ha : Accounted L s) (h : OpenFiles s)
    (hp : (s.proc p).state ≠ .unused) :
    Spec otherPanic (a.run L p) s (fun _ s' => Refs s'.points s' [] []) := by
  cases a with
  | fork => exact Spec.seq (fork_refs ha h hp) fun _ _ h₁ => Spec.pure h₁
  | exit => exact Spec.seq (exit_refs ha h.refs hp) fun _ _ h₁ => Spec.pure h₁.1
  | pipe _ => exact onFiles_refs hcounts h.refs
  | close _ => exact onFiles_refs hcounts h.refs
  | dup _ => exact onFiles_refs hcounts h.refs
  | «open» _ _ _ => exact onFiles_refs hcounts h.refs
  | shareData _ _ _ => exact hcounts.elim
  | getData _ _ => exact hcounts.elim
  | exec _ _ _ => exact hcounts.elim
  | sbrk _ => exact hcounts.elim
  | wait => exact hcounts.elim

theorem OpenFiles.update {q : Slot} {r : Proc} (h : OpenFiles s)
    (hproc : s'.proc = Function.update s.proc q r) (hofile : r.ofile = (s.proc q).ofile)
    (hlive : (s.proc q).Live → r.Live) (hfile : s'.file = s.file) (hiref : s'.iref = s.iref) :
    OpenFiles s' := by
  refine ⟨h.refs.next (fun q' => by rw [hproc, ofile_update hofile]) hfile hiref, fun q' hdead => ?_⟩
  rw [hproc] at hdead
  rw [hproc, ofile_update hofile]
  refine h.idle q' fun hl => hdead ?_
  rw [Function.update_apply]
  split
  · rename_i heq
    exact hlive (heq ▸ hl)
  · exact hl

theorem Returns.openFiles {a : Act} {r : Int} (ha : Accounted L s) (h : OpenFiles s)
    (hret : Returns L s p a r s') : OpenFiles s' := by
  have hp := hret.inUse
  have hrun := hret.2
  cases hret.effect with
  | idle => exact h
  | shared => exact h.update rfl rfl (fun hl => hl) rfl rfl
  | files hof ho =>
    refine ⟨(onFiles_refs hof h.refs).post hrun, fun q hdead => ?_⟩
    obtain ⟨o, hproc⟩ := ho.proc
    have hq : q ≠ p := by
      rintro rfl
      rw [hproc, Function.update_self] at hdead
      exact hdead hret.live
    rw [hproc, Function.update_of_ne hq] at hdead ⊢
    exact h.idle q hdead
  | forkFailed hf =>
    refine ⟨(counts_refs (a := .fork) trivial ha h hp).post hrun, ?_⟩
    rcases hf.proc with hproc | ⟨np, pid, k, d, hunused, hproc⟩
    · rw [hproc]
      exact h.idle
    · have hsame : OpenFiles { s with proc := s'.proc } := h.update hproc rfl (fun hl => hl) rfl rfl
      exact hsame.idle
  | @forked np k d _ hf =>
    refine ⟨(counts_refs (a := .fork) trivial ha h hp).post hrun, fun q hdead => ?_⟩
    obtain ⟨o, hproc⟩ := hf.proc
    have hq : q ≠ np := by
      rintro rfl
      rw [hproc, Function.update_self] at hdead
      exact hdead live_runnable
    rw [hproc, Function.update_of_ne hq] at hdead ⊢
    exact h.idle q hdead
  | noImage hload => exact ⟨h.refs.next (fun _ => rfl) rfl rfl, h.idle⟩
  | execFailed hlen hargs hf =>
    obtain ⟨d, sz, entry, σ₁, res, es, σ₂, σ₃, -, -, -, hproc⟩ := hf.mem
    exact h.update hproc rfl (fun hl => hl) hf.rest.file hf.rest.iref
  | execed hlen hargs hx =>
    obtain ⟨d, sz, entry, σ₁, res, es, σ₂, sz', sp, σ₃, -, -, -, hproc⟩ := hx.mem
    exact h.update hproc rfl (fun hl => hl) hx.rest.file hx.rest.iref
  | resized hn hr =>
    obtain ⟨sz, -, hproc⟩ := hr.mem
    exact h.update hproc rfl (fun hl => hl) hr.rest.file hr.rest.iref
  | exited hx =>
    have hexit : Spec otherPanic (Act.exit.run L p) s (fun _ s' => Refs s'.points s' [] [] ∧
        (∀ fd, (s'.proc p).ofile fd = none) ∧ ∀ q, q ≠ p →
          (s'.proc q).state = (s.proc q).state ∧ (s'.proc q).ofile = (s.proc q).ofile) :=
      Spec.seq (exit_refs ha h.refs hp) fun _ _ h₁ => Spec.pure h₁
    obtain ⟨hrefs, hclosed, hothers⟩ := hexit.post hrun
    refine ⟨hrefs, fun q hdead fd => ?_⟩
    by_cases hq : q = p
    · rw [hq]
      exact hclosed fd
    · have hsame := hothers q hq
      unfold Proc.Live at hdead
      rw [hsame.1] at hdead
      rw [hsame.2]
      exact h.idle q hdead fd
  | @reaped q _ hr =>
    exact h.update hr.proc rfl (fun hl => absurd hr.zombie hl.2) hr.rest.file hr.rest.iref

/-! ## Runs -/

theorem Fresh.openFiles (h : Fresh L s) : OpenFiles s := by
  have hofile : ∀ q fd, (s.proc q).ofile fd = none := by
    intro q fd
    by_cases hq : q = s.initproc
    · obtain ⟨d, k, hinit⟩ := h.init
      rw [hq, hinit]
      rfl
    · rw [h.others q hq]
      rfl
  refine ⟨⟨tally_nil.mpr (Counted.zero (fun x => hofile x.1 x.2) fun i => ?_),
    tally_nil.mpr (Counted.zero (fun i => ?_) h.iref), fun i _ => ?_⟩, fun q _ => hofile q⟩ <;>
  · rw [h.file i]
    rfl

theorem Run.openFiles (h : Run L NoSharing s) : Unshared L s ∧ OpenFiles s :=
  h.invariant (I := fun s => Unshared L s ∧ OpenFiles s)
    (fun _ hs => ⟨hs.unshared, hs.fresh.openFiles⟩)
    (fun _ _ _ hI hno ⟨_, hret⟩ => ⟨hret.unshared hI.1 hno, hret.openFiles hI.1.accounted hI.2⟩)

/-! ## The pages of the pipes -/

/-- A pipe is open exactly when a descriptor stands for one of its ends. -/
theorem OpenFiles.pipe_iff (ha : Accounted L s) (h : OpenFiles s) (f : Nat) :
    (s.pipe f).Open ↔ ∃ q fd i, (s.proc q).ofile fd = some i ∧ (s.file i).type = .pipe ∧
      (s.file i).pipe = f := by
  rw [open_iff]
  constructor
  · rintro ⟨w, hw⟩
    obtain ⟨i, htype, hend⟩ := (ha.ends.flags f w).mp hw
    obtain ⟨⟨q, fd⟩, hfd⟩ := (tally_nil.mp h.refs.files).owner (x := i) fun hzero => by
      rw [h.refs.closed i hzero] at htype
      cases htype
    exact ⟨q, fd, i, hfd, htype, (congrArg Prod.fst hend).symm⟩
  · rintro ⟨q, fd, i, -, htype, rfl⟩
    exact ⟨(s.file i).writable, (ha.ends.flags _ _).mpr ⟨i, htype, rfl⟩⟩

/-- When no page table and no stack takes the page of a closed pipe, it is free. -/
theorem Steady.pipe_free (h : Accounted L s) (hst : Steady L s s')
    (hstack : ∀ q, (s'.proc q).state ≠ .unused →
      (s.proc q).state ≠ .unused ∧ (s'.proc q).kstack = (s.proc q).kstack)
    (hboot : s'.bootStacks = s.bootStacks) {f : Nat} (hopen : (s.pipe f).Open)
    (hclosed : ¬(s'.pipe f).Open) : f ∈ s'.phys.freelist := by
  have hused : s.uses (.held (.pipe f)) f := ⟨rfl, hopen⟩
  have hram := h.conserved.inRam f (.inr ⟨_, hused⟩)
  rcases hst.accounted.conserved.free_or_used f hram with ⟨hfree, -⟩ | ⟨-, u, hu, -⟩
  · exact hfree
  · -- what uses it now used it before, and was not the pipe
    have hbefore : s.uses u f ∧ u ≠ .held (.pipe f) := by
      cases u with
      | held o =>
        cases o with
        | stack q => exact ⟨⟨(hstack q hu.1).1, hu.2.trans (hstack q hu.1).2⟩, nofun⟩
        | boot i =>
          have hi : s'.bootStacks[i]? = some f := hu
          rw [hboot] at hi
          exact ⟨hi, nofun⟩
        | pipe g => exact absurd (hu.1 ▸ hu.2) hclosed
      | dir a => exact ⟨(hst.spaces a f).mp hu, nofun⟩
      | tab a i =>
        obtain ⟨d, hd, hi, htab⟩ := hu
        have hd := (hst.spaces a d).mp hd
        rw [(hst.tables d ⟨a, hd⟩).1 i hi] at htab
        exact ⟨⟨d, hd, hi, htab⟩, nofun⟩
      | page a v =>
        obtain ⟨d, hd, hv, w, hw⟩ := hu
        have hd := (hst.spaces a d).mp hd
        rw [(hst.tables d ⟨a, hd⟩).2 v (by omega)] at hw
        exact ⟨⟨d, hd, hv, w, hw⟩, nofun⟩
    rcases h.conserved.free_or_used f hram with ⟨-, hnone⟩ | ⟨-, u', -, honly⟩
    · exact absurd hused (hnone _)
    · exact absurd ((honly u hbefore.1).trans (honly _ hused).symm) hbefore.2

/-- The page of a pipe that a call closed for good is free afterwards. -/
theorem Returns.pipe_free {a : Act} {r : Int} (h : Accounted L s) (hret : Returns L s p a r s')
    {f : Nat} (hopen : (s.pipe f).Open) (hclosed : ¬(s'.pipe f).Open) : f ∈ s'.phys.freelist := by
  have hrun := hret.2
  have hsame : s'.pipe = s.pipe → f ∈ s'.phys.freelist := fun heq => absurd (heq ▸ hopen) hclosed
  cases hret.effect with
  | idle => exact absurd hopen hclosed
  | shared => exact absurd hopen hclosed
  | files hof ho =>
    refine Steady.pipe_free h ((onFiles_steady hof (Steady.refl h)).post hrun) (fun q hq => ?_)
      ho.bootStacks hopen hclosed
    obtain ⟨o, hproc⟩ := ho.proc_eq q
    rw [hproc] at hq ⊢
    exact ⟨hq, rfl⟩
  | forkFailed hf => exact hsame hf.rest.pipe
  | forked hf => exact hsame hf.pipe
  | noImage hload => exact absurd hopen hclosed
  | execFailed hlen hargs hf => exact hsame hf.rest.pipe
  | execed hlen hargs hx => exact hsame hx.rest.pipe
  | resized hn hr => exact hsame hr.rest.pipe
  | exited hx =>
    refine Steady.pipe_free h (hx.steady h hret.1) (fun q hq => ?_) hx.bootStacks hopen hclosed
    by_cases hqp : q = p
    · obtain ⟨o, hself⟩ := hx.self
      rw [hqp, hself]
      exact ⟨hret.inUse, rfl⟩
    · rw [hx.others q hqp] at hq ⊢
      exact ⟨hq, rfl⟩
  | reaped hr => exact hsame hr.rest.pipe

/-! ## The law -/

/-- The file table between two calls, and what the next call does to it. -/
structure FileTableLaw (L : Layout) (s : Sys) : Prop where
  refs : ∀ i, (s.file i).ref = {x : Slot × Fd | (s.proc x.1).ofile x.2 = some i}.ncard
  inodes : ∀ n, s.iref n = {i | (s.file i).type = .inode ∧ (s.file i).ip = n}.ncard
  lastClose : ∀ p n fd i r s', argfd (s.proc p) n = some (fd, i) → (s.file i).type = .inode →
    Returns L s p (.close n) r s' →
    if (s.file i).ref = 1 then s.iref (s.file i).ip = s'.iref (s.file i).ip + 1 ∧
      ∀ m, m ≠ (s.file i).ip → s'.iref m = s.iref m
    else s'.iref = s.iref
  pipes : ∀ f, (s.pipe f).Open ↔ ∃ q fd i, (s.proc q).ofile fd = some i ∧
    (s.file i).type = .pipe ∧ (s.file i).pipe = f
  held : ∀ f, (s.pipe f).Open → f ∉ s.phys.freelist
  freed : ∀ p a r s', NoSharing s (p, a) → Returns L s p a r s' → ∀ f, (s.pipe f).Open →
    ¬(s'.pipe f).Open → s'.phys.freelist.count f = 1
  noPanic : ∀ (p : Slot) (a : Act), (s.proc p).state = .runnable → a.Counts →
    a.run L p s ≠ .error .filedup ∧ a.run L p s ≠ .error .fileclose

theorem OpenFiles.law (ha : Unshared L s) (h : OpenFiles s) : FileTableLaw L s where
  refs := (tally_nil.mp h.refs.files).ncard
  inodes := fun n => by
    rw [(tally_nil.mp h.refs.inodes).ncard n]
    simp only [inode_eq_some]
  lastClose := fun p n fd i r s' hfd htype hret => by
    have hspec : Spec otherPanic (Act.run L p (.close n)) s (fun _ s' => ∀ fd i,
        argfd (s.proc p) n = some (fd, i) →
        s'.iref = if (s.file i).ref = 1 ∧ (s.file i).type = .inode
          then Function.update s.iref (s.file i).ip (s.iref (s.file i).ip - 1) else s.iref) :=
      Spec.seq (sysClose_refs h.refs n) fun _ _ h₁ => Spec.pure h₁.2
    have hiref := hspec.post hret.2 fd i hfd
    have hpos := (h.refs.inodes.pick (o := i) (inode_eq_some.mpr ⟨htype, rfl⟩)).pos
    split
    · rename_i hone
      rw [if_pos ⟨hone, htype⟩] at hiref
      rw [hiref, Function.update_self]
      exact ⟨by omega, fun m hm => Function.update_of_ne hm ..⟩
    · rename_i hmore
      rw [if_neg fun hc => hmore hc.1] at hiref
      exact hiref
  pipes := h.pipe_iff ha.accounted
  held := fun f hopen hfree => by
    have hused : s.uses (.held (.pipe f)) f := ⟨rfl, hopen⟩
    have hconserved := ha.accounted.conserved
    rcases hconserved.free_or_used f (hconserved.inRam f (.inl hfree)) with ⟨-, hnone⟩ | ⟨hnot, -⟩
    · exact hnone _ hused
    · exact hnot hfree
  freed := fun p a r s' hno hret f hopen hclosed => by
    have hfree := hret.pipe_free ha.accounted hopen hclosed
    exact List.count_eq_one_of_mem (hret.unshared ha hno).accounted.conserved.once hfree
  noPanic := fun p a hp hcounts => by
    have hspec := counts_refs (p := p) hcounts ha.accounted h (by rw [hp]; exact nofun)
    exact ⟨fun herr => (hspec.error herr).1 rfl, fun herr => (hspec.error herr).2 rfl⟩

end

end Xv6Sharing.Process
