/-
Xv6Sharing.Lib.Run — two small tools the kernel model is written with.

* Runs of code in `StateT S (Except E)`. `Spec Err c s Q` says that code `c`
  started in `s` ends in a result and state that satisfy `Q`, or stops with
  an error that satisfies `Err`. With `Err` false it is total correctness,
  with `Err` true partial correctness; one specification of a function
  serves both when the errors it can raise are stated as hypotheses on
  `Err`. `Spec.seq` puts two specifications one after the other.

* Reachability in a labelled transition system in which every step meets a
  condition. `Reach.invariant` is the one induction every safety theorem
  about whole runs goes through.
-/
import Mathlib.Algebra.Ring.Int.Defs
import Mathlib.Algebra.Ring.Nat
import Mathlib.Logic.Basic

namespace Xv6Sharing.Lib

/-! ## State and failure -/

section StateExcept

variable {S E α β : Type} {m : StateT S (Except E) α} {k : α → StateT S (Except E) β} {s : S}

theorem bind_ok {a : α} {s' : S} (h : m s = .ok (a, s')) : (m >>= k) s = k a s' := by
  show (m s >>= fun p => k p.1 p.2) = _
  rw [h]
  rfl

theorem bind_error {e : E} (h : m s = .error e) : (m >>= k) s = .error e := by
  show (m s >>= fun p => k p.1 p.2) = _
  rw [h]
  rfl

@[simp] theorem pure_run (a : α) (s : S) :
    (pure a : StateT S (Except E) α) s = .ok (a, s) := rfl

@[simp] theorem get_run (s : S) : (get : StateT S (Except E) S) s = .ok (s, s) := rfl

@[simp] theorem modify_run (f : S → S) (s : S) :
    (modify f : StateT S (Except E) PUnit) s = .ok (⟨⟩, f s) := rfl

@[simp] theorem throw_run (e : E) (s : S) :
    (throw e : StateT S (Except E) α) s = .error e := rfl

/-- Code `c` started in `s` returns as `Q` says or stops with an error in `Err`.
Irreducible, so that applying a rule never runs the code. -/
@[irreducible]
def Spec (Err : E → Prop) (c : StateT S (Except E) α) (s : S) (Q : α → S → Prop) : Prop :=
  match c s with
  | .ok (a, s') => Q a s'
  | .error e => Err e

variable {Err : E → Prop} {Q Q' : α → S → Prop} {R : β → S → Prop}

theorem Spec.of_ok {a : α} {s' : S} (h : m s = .ok (a, s')) (hQ : Q a s') :
    Spec Err m s Q := by
  unfold Spec
  rw [h]
  exact hQ

theorem Spec.of_error {e : E} (h : m s = .error e) (he : Err e) : Spec Err m s Q := by
  unfold Spec
  rw [h]
  exact he

theorem Spec.post {a : α} {s' : S} (h : Spec Err m s Q) (hr : m s = .ok (a, s')) : Q a s' := by
  unfold Spec at h
  rw [hr] at h
  exact h

theorem Spec.error {e : E} (h : Spec Err m s Q) (hr : m s = .error e) : Err e := by
  unfold Spec at h
  rw [hr] at h
  exact h

/-- Code that can raise no error returns. -/
theorem Spec.total (h : Spec (fun _ => False) m s Q) :
    ∃ a s', m s = .ok (a, s') ∧ Q a s' := by
  unfold Spec at h
  cases hr : m s with
  | error e => rw [hr] at h; exact h.elim
  | ok p =>
    obtain ⟨a, s'⟩ := p
    rw [hr] at h
    exact ⟨a, s', rfl, h⟩

theorem Spec.mono (h : Spec Err m s Q) (hQ : ∀ a s', Q a s' → Q' a s') : Spec Err m s Q' := by
  unfold Spec at h ⊢
  cases hr : m s with
  | error e => rw [hr] at h; exact h
  | ok p =>
    obtain ⟨a, s'⟩ := p
    rw [hr] at h
    exact hQ a s' h

theorem Spec.weaken {Err' : E → Prop} (h : Spec Err m s Q) (hE : ∀ e, Err e → Err' e) :
    Spec Err' m s Q := by
  unfold Spec at h ⊢
  cases hr : m s with
  | error e => rw [hr] at h; exact hE e h
  | ok p =>
    obtain ⟨a, s'⟩ := p
    rw [hr] at h
    exact h

/-- Two specifications of the same code; what one says of its errors is enough. -/
theorem Spec.and {Err' : E → Prop} (h : Spec Err m s Q) (h' : Spec Err' m s Q') :
    Spec Err m s (fun a s' => Q a s' ∧ Q' a s') := by
  unfold Spec at h h' ⊢
  cases hr : m s with
  | error e => rw [hr] at h; exact h
  | ok p =>
    obtain ⟨a, s'⟩ := p
    rw [hr] at h h'
    exact ⟨h, h'⟩

theorem Spec.of_run_eq {m' : StateT S (Except E) α} {s' : S} (h : Spec Err m' s' Q)
    (hrun : m s = m' s') : Spec Err m s Q := by
  unfold Spec at h ⊢
  rw [hrun]
  exact h

/-- When every error is allowed nothing can be wrong with saying nothing. -/
theorem Spec.any (h : ∀ e, Err e) : Spec Err m s (fun _ _ => True) := by
  unfold Spec
  split
  · trivial
  · exact h _

theorem Spec.seq (h : Spec Err m s Q) (hk : ∀ a s', Q a s' → Spec Err (k a) s' R) :
    Spec Err (m >>= k) s R := by
  cases hr : m s with
  | error e => exact Spec.of_error (bind_error hr) (h.error hr)
  | ok p =>
    obtain ⟨a, s'⟩ := p
    have hk' := hk a s' (h.post hr)
    unfold Spec at hk' ⊢
    rw [bind_ok hr]
    exact hk'

theorem Spec.seq_ok {a : α} {s' : S} (hr : m s = .ok (a, s')) (hk : Spec Err (k a) s' R) :
    Spec Err (m >>= k) s R :=
  Spec.seq (Q := fun b t => b = a ∧ t = s') (Spec.of_ok hr ⟨rfl, rfl⟩)
    (by rintro _ _ ⟨rfl, rfl⟩; exact hk)

theorem Spec.pure {a : α} (hQ : Q a s) : Spec Err (pure a) s Q :=
  Spec.of_ok (pure_run a s) hQ

theorem Spec.throw {e : E} (he : Err e) : Spec Err (throw e : StateT S (Except E) α) s Q :=
  Spec.of_error (throw_run e s) he

end StateExcept

/-! ## Runs whose steps meet a condition -/

section Reach

variable {S A : Type}

/-- The states reached from `init` by steps that all meet `ok`. -/
inductive Reach (init : S → Prop) (step : S → A → S → Prop) (ok : S → A → Prop) : S → Prop
  | base {s : S} : init s → Reach init step ok s
  | next {s s' : S} {a : A} : Reach init step ok s → ok s a → step s a s' →
      Reach init step ok s'

variable {init : S → Prop} {step : S → A → S → Prop} {ok ok' : S → A → Prop} {I : S → Prop}

/-- What holds initially and is kept by every allowed step holds of every
reached state. -/
theorem Reach.invariant (hinit : ∀ s, init s → I s)
    (hstep : ∀ s a s', I s → ok s a → step s a s' → I s') {s : S}
    (h : Reach init step ok s) : I s := by
  induction h with
  | base hs => exact hinit _ hs
  | next _ hok hst ih => exact hstep _ _ _ ih hok hst

/-- The same with the steps that were taken, the last one first. -/
inductive Trace (init : S → Prop) (step : S → A → S → Prop) (ok : S → A → Prop) :
    List A → S → Prop
  | base {s : S} : init s → Trace init step ok [] s
  | next {as : List A} {s s' : S} {a : A} : Trace init step ok as s → ok s a → step s a s' →
      Trace init step ok (a :: as) s'

/-- What holds initially and is kept by every allowed step holds of every run. -/
theorem Trace.invariant {J : List A → S → Prop} (hinit : ∀ s, init s → J [] s)
    (hstep : ∀ as s a s', J as s → ok s a → step s a s' → J (a :: as) s') {as : List A} {s : S}
    (h : Trace init step ok as s) : J as s := by
  induction h with
  | base hs => exact hinit _ hs
  | next _ hok hst ih => exact hstep _ _ _ _ ih hok hst

end Reach

end Xv6Sharing.Lib
