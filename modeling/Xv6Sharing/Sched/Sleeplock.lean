/-
Xv6Sharing.Sched.Sleeplock — a sleep lock (kernel/sleeplock.c, `sleep` in kernel/proc.c).

The spin lock inside and `ptable.lock` are taken and released in steps of their own,
since on their order it depends that no wakeup is lost: `sleep` has `ptable.lock`
before it gives the spin lock up, and `releasesleep` keeps the spin lock while it
wakes the sleepers. Other code that has `ptable.lock` only delays the steps here.
`pid` are the pids of the processes; a process that has the lock does not ask for it
again, and nobody else releases it.
-/
import Xv6Sharing.Lib.Run

namespace Xv6Sharing.Sleeplock

open Lib

/-- Where a process is. -/
inductive Code where
  | out
  | acquire
  | test
  | sleep
  | sleepLocked
  | sleepUnlocked
  | asleep
  | took
  | holding
  | release
  | cleared
  | woke
  deriving DecidableEq

/-- The spin lock and `ptable.lock` with their holders, and the fields of the sleep lock. -/
structure Machine where
  lk : Option Nat
  table : Option Nat
  locked : Bool
  pid : Int
  code : Nat → Code

def Machine.goto (m : Machine) (p : Nat) (k : Code) : Machine :=
  { m with code := fun q => if q = p then k else m.code q }

def holdingsleep (pid : Nat → Int) (m : Machine) (p : Nat) : Bool := m.locked && m.pid == pid p

/-- The steps of process `p`. -/
inductive Step (pid : Nat → Int) (m : Machine) (p : Nat) : Machine → Prop
  | acquiresleep : m.code p = .out → Step pid m p (m.goto p .acquire)
  | acquire : m.code p = .acquire → m.lk = none →
      Step pid m p ({ m with lk := some p }.goto p .test)
  | busy : m.code p = .test → m.locked = true → Step pid m p (m.goto p .sleep)
  | sleepLock : m.code p = .sleep → m.table = none →
      Step pid m p ({ m with table := some p }.goto p .sleepLocked)
  | sleepUnlock : m.code p = .sleepLocked →
      Step pid m p ({ m with lk := none }.goto p .sleepUnlocked)
  -- `sched`; the scheduler releases `ptable.lock`
  | sleep : m.code p = .sleepUnlocked →
      Step pid m p ({ m with table := none }.goto p .asleep)
  -- a wakeup for another reason
  | kill : m.code p = .asleep → m.table = none → Step pid m p (m.goto p .acquire)
  | take : m.code p = .test → m.locked = false →
      Step pid m p ({ m with locked := true }.goto p .took)
  | setPid : m.code p = .took →
      Step pid m p ({ m with pid := pid p, lk := none }.goto p .holding)
  | releasesleep : m.code p = .holding → Step pid m p (m.goto p .release)
  | clear : m.code p = .release → m.lk = none →
      Step pid m p ({ m with lk := some p, locked := false, pid := 0 }.goto p .cleared)
  | wakeup : m.code p = .cleared → m.table = none →
      Step pid m p ({ m with
        code := fun q => if m.code q = Code.asleep then .acquire else m.code q }.goto p .woke)
  | releaseLast : m.code p = .woke → Step pid m p ({ m with lk := none }.goto p .out)

def Started (m : Machine) : Prop :=
  m.lk = none ∧ m.table = none ∧ m.locked = false ∧ ∀ p, m.code p = .out

/-- The code that has the spin lock. -/
def Code.hasLk (k : Code) : Prop := k ∈ [.test, .sleep, .sleepLocked, .took, .cleared, .woke]

def Code.hasTable (k : Code) : Prop := k ∈ [.sleepLocked, .sleepUnlocked]

/-- The code that has the sleep lock. -/
def Code.owns (k : Code) : Prop := k ∈ [.took, .holding, .release]

structure Inv (pid : Nat → Int) (m : Machine) : Prop where
  lk : ∀ p, m.lk = some p ↔ (m.code p).hasLk
  table : ∀ p, m.table = some p ↔ (m.code p).hasTable
  locked : m.locked = true ↔ ∃ p, (m.code p).owns
  one : ∀ p q, (m.code p).owns → (m.code q).owns → p = q
  pid : ∀ p, m.code p = .holding ∨ m.code p = .release → m.pid = pid p
  busy : ∀ p, m.code p = .sleep ∨ m.code p = .sleepLocked → m.locked = true
  asleep : ∀ p, m.code p = .sleepUnlocked ∨ m.code p = .asleep →
    m.locked = true ∨ ∃ q, m.code q = .cleared

section

variable {pid : Nat → Int} {m m' : Machine} {p : Nat}

theorem Step.inv (h : Inv pid m) (hs : Step pid m p m') : Inv pid m' := by
  obtain ⟨h1, h2, h3, h4, h5, h6, h7⟩ := h
  unfold Code.hasLk at h1
  unfold Code.hasTable at h2
  unfold Code.owns at h3 h4
  cases hs with
  | wakeup hcode htable =>
    -- `ptable.lock` is free, so nobody is about to fall asleep with the spin lock given up
    have hgone : ∀ q, m.code q ≠ .sleepUnlocked := fun q hq => by simpa [hq, htable] using h2 q
    unfold Machine.goto
    constructor <;> grind [Code.hasLk, Code.hasTable, Code.owns]
  | _ =>
    -- one process at a time is at `test`, `took` or `cleared`: the one with the spin lock
    unfold Machine.goto
    constructor <;> grind [Code.hasLk, Code.hasTable, Code.owns]

/-- The sleep lock excludes, its owner is known while the spin lock is free, and while a process
sleeps another one has the lock or is about to wake it. -/
structure Safe (pid : Nat → Int) (m : Machine) : Prop where
  exclusive : ∀ p q, (m.code p).owns → (m.code q).owns → p = q
  holding : m.lk = none → ∀ p, holdingsleep pid m p = true ↔ (m.code p).owns
  wakeup : ∀ p, m.code p = .asleep → ∃ q, (m.code q).owns ∨ m.code q = .cleared

theorem sleeplock_safe (hpid : Function.Injective pid)
    (h : Reach Started (Step pid) (fun _ _ => True) m) : Safe pid m := by
  have hinv : Inv pid m := by
    refine h.invariant (fun m hs => ?_) (fun _ _ _ hi _ hs => hs.inv hi)
    obtain ⟨hlk, htable, hlocked, hout⟩ := hs
    constructor <;> simp [hlk, htable, hlocked, hout, Code.hasLk, Code.hasTable, Code.owns]
  refine ⟨hinv.one, fun hfree p => ?_, fun p hp => ?_⟩
  · -- nobody is between taking the lock and storing its pid
    have htook : ∀ q, m.code q ≠ .took := fun q hq =>
      Option.some_ne_none q (((hinv.lk q).mpr (by simp [hq, Code.hasLk])).symm.trans hfree)
    have howner : ∀ q, (m.code q).owns → m.pid = pid q := fun q hq =>
      hinv.pid q (by simpa [Code.owns, htook q] using hq)
    rw [holdingsleep, Bool.and_eq_true, hinv.locked, beq_iff_eq]
    constructor
    · rintro ⟨⟨q, hq⟩, heq⟩
      rwa [← hpid ((howner q hq).symm.trans heq)]
    · exact fun hp => ⟨⟨p, hp⟩, howner p hp⟩
  · rcases hinv.asleep p (.inr hp) with hl | ⟨q, hq⟩
    · obtain ⟨q, hq⟩ := hinv.locked.mp hl
      exact ⟨q, .inl hq⟩
    · exact ⟨q, .inr hq⟩

end

theorem sleeplock_safe_taken : ∃ m, Reach Started (Step Int.ofNat) (fun _ _ => True) m ∧
    m.code 7 = .holding ∧ Safe Int.ofNat m := by
  have h0 : Reach Started (Step Int.ofNat) (fun _ _ => True) ⟨none, none, false, 0, fun _ => .out⟩ :=
    .base ⟨rfl, rfl, rfl, fun _ => rfl⟩
  have h1 := h0.next (a := 7) trivial (.acquiresleep rfl)
  have h2 := h1.next (a := 7) trivial (.acquire rfl rfl)
  have h3 := h2.next (a := 7) trivial (.take rfl rfl)
  have h4 := h3.next (a := 7) trivial (.setPid rfl)
  exact ⟨_, h4, rfl, sleeplock_safe (fun _ _ => Int.ofNat.inj) h4⟩

end Xv6Sharing.Sleeplock
