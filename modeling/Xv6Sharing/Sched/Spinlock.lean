/-
Xv6Sharing.Sched.Spinlock — spin locks (kernel/spinlock.c).

Any number of processors call `acquire`, `release`, `pushcli` and `popcli` on any
locks. Every read and write of a lock is a step of its own, in the order of the
code (it has barriers). `holding` reads `locked` and `cpu` one after the other and
without the lock; its answer is right all the same. Interrupts come whenever the
flag is set, and handlers take locks.

Of the code around, the model knows that each `popcli` it calls has a `pushcli` of
its own, and that it sets the interrupt flag and returns from an interrupt with
`ncli` 0. `held` and `pushed` are not in the source and decide nothing. A panic
ends the run.
-/
import Mathlib.Data.Finset.Card
import Xv6Sharing.Lib.Run

namespace Xv6Sharing.Spinlock

open Lib

/-- Where a processor is. -/
inductive Code where
  | run
  /-- In `holding`, which `release` called or else `acquire`. -/
  | holding (release : Bool) (j : Nat)
  /-- There, and `locked` was read. -/
  | read (release : Bool) (j : Nat) (l : Bool)
  | spin (j : Nat)
  /-- The exchange gave 0, and `lk->cpu` is not set. -/
  | got (j : Nat)
  | tested (j : Nat)
  /-- `lk->cpu` is 0. -/
  | cleared (j : Nat)
  | freed

/-- The calls of `pushcli` that spinlock.c has to take back and that belong to no lock held. -/
def Code.depth : Code → Nat
  | .holding false _ | .read true _ _ | .spin _ | .freed => 1
  | .read false _ _ => 2
  | _ => 0

/-- A processor: its interrupt flag, `ncli` and `intena`, and the code that interrupts cut off. -/
structure Cpu where
  ie : Bool
  ncli : Int
  intena : Bool
  code : Code
  stack : List Code
  held : Finset Nat
  pushed : Nat

def Cpu.pushcli (x : Cpu) : Cpu :=
  { x with ie := false, intena := if x.ncli = 0 then x.ie else x.intena, ncli := x.ncli + 1 }

/-- `popcli`; `none` is a panic. -/
def Cpu.popcli (x : Cpu) : Option Cpu :=
  if x.ie = true then none
  else if x.ncli - 1 < 0 then none
  else some { x with ncli := x.ncli - 1, ie := x.ncli - 1 = 0 ∧ x.intena = true }

/-- The processors, and `locked` and `cpu` of every lock. -/
structure Machine where
  cpu : Nat → Cpu
  locked : Nat → Bool
  owner : Nat → Option Nat

def Machine.set (m : Machine) (c : Nat) (x : Cpu) : Machine :=
  { m with cpu := Function.update m.cpu c x }

/-- The steps of processor `c` that change no lock; the processor goes from `x` to another state. -/
inductive Local (m : Machine) (c : Nat) (x : Cpu) : Cpu → Prop
  | pushcli : x.code = .run → Local m c x { x.pushcli with pushed := x.pushed + 1 }
  | popcli {n : Nat} {y : Cpu} : x.code = .run → x.pushed = n + 1 → x.popcli = some y →
      Local m c x { y with pushed := n }
  | acquire (j : Nat) : x.code = .run → Local m c x { x.pushcli with code := .holding false j }
  | release (j : Nat) : x.code = .run → Local m c x { x with code := .holding true j }
  | readLocked {b : Bool} {j : Nat} : x.code = .holding b j →
      Local m c x { x.pushcli with code := .read b j (m.locked j) }
  -- any other answer is a panic of `acquire` or `release`
  | readCpu {b : Bool} {j : Nat} {l : Bool} {y : Cpu} : x.code = .read b j l →
      (l = true ∧ m.owner j = some c ↔ b = true) → x.popcli = some y →
      Local m c x { y with code := if b = true then .tested j else .spin j }
  | popLast {y : Cpu} : x.code = .freed → x.popcli = some y → Local m c x { y with code := .run }
  | interrupt : x.ie = true →
      Local m c x { x with ie := false, code := .run, stack := x.code :: x.stack }
  | iret {k : Code} {ks : List Code} : x.code = .run → x.ncli = 0 → x.stack = k :: ks →
      Local m c x { x with ie := true, code := k, stack := ks }
  -- `cli` and `sti`
  | flag (b : Bool) : x.code = .run → x.ncli = 0 → Local m c x { x with ie := b }
  -- `sched` puts back what it saved
  | setIntena (b : Bool) : x.code = .run → x.ncli = 1 → Local m c x { x with intena := b }

/-- The steps of processor `c`. -/
inductive Step (m : Machine) (c : Nat) : Machine → Prop
  | own {x : Cpu} : Local m c (m.cpu c) x → Step m c (m.set c x)
  -- an exchange that gives 1 changes nothing
  | xchg {j : Nat} : (m.cpu c).code = .spin j → m.locked j = false →
      Step m c ({ m with locked := Function.update m.locked j true }.set c
        { m.cpu c with code := .got j, held := insert j (m.cpu c).held })
  | setCpu {j : Nat} : (m.cpu c).code = .got j →
      Step m c ({ m with owner := Function.update m.owner j (some c) }.set c
        { m.cpu c with code := .run })
  | clearCpu {j : Nat} : (m.cpu c).code = .tested j →
      Step m c ({ m with owner := Function.update m.owner j none }.set c
        { m.cpu c with code := .cleared j })
  | unlock {j : Nat} : (m.cpu c).code = .cleared j →
      Step m c ({ m with locked := Function.update m.locked j false }.set c
        { m.cpu c with code := .freed, held := (m.cpu c).held.erase j })

def Started (m : Machine) : Prop :=
  ∀ c, (m.cpu c).ncli = 0 ∧ (m.cpu c).code = .run ∧ (m.cpu c).stack = [] ∧ (m.cpu c).held = ∅ ∧
    (m.cpu c).pushed = 0 ∧ m.locked c = false ∧ m.owner c = none

/-! ## The invariant -/

/-- What processor `c` knows of its locks. -/
structure Fine (m : Machine) (c : Nat) (x : Cpu) : Prop where
  ncli : x.ncli = x.pushed + x.held.card + x.code.depth
  cli : x.ie = true → x.ncli = 0
  /-- Code is cut off before it has called `pushcli`. -/
  stack : ∀ k ∈ x.stack, k = .run ∨ ∃ j, k = .holding true j
  locked : ∀ j ∈ x.held, m.locked j = true
  owner : ∀ j, m.owner j = some c → j ∈ x.held
  owned : ∀ j ∈ x.held, m.owner j = some c ∨ x.code = .got j ∨ x.code = .cleared j
  cleared : ∀ j, x.code = .cleared j → m.owner j ≠ some c
  read : ∀ b j l, x.code = .read b j l → j ∈ x.held → l = true
  inside : ∀ j, x.code = .got j ∨ x.code = .tested j ∨ x.code = .cleared j → j ∈ x.held

structure Inv (m : Machine) : Prop where
  fine : ∀ c, Fine m c (m.cpu c)
  unique : ∀ c c' j, j ∈ (m.cpu c).held → j ∈ (m.cpu c').held → c = c'
  taken : ∀ j, m.locked j = true → ∃ c, j ∈ (m.cpu c).held

section

variable {m m' : Machine} {c : Nat} {x y : Cpu}

theorem Started.inv (h : Started m) : Inv m := by
  refine ⟨fun c => ?_, by grind [Started], by grind [Started]⟩
  obtain ⟨hncli, hcode, hstack, hheld, hpushed, -⟩ := h c
  constructor <;> grind [Started, Code.depth]

theorem Cpu.popcli_eq (h : x.popcli = some y) : 0 < x.ncli ∧
    y = { x with ncli := x.ncli - 1, ie := x.ncli - 1 = 0 ∧ x.intena = true } := by
  unfold Cpu.popcli at h
  grind

/-- A step of processor `c`: `m` has the new locks and still the old processors. -/
theorem Inv.set (hx : Fine m c x) (hfine : ∀ d ≠ c, Fine m d (m.cpu d))
    (hunique : ∀ d d' j, j ∈ (m.cpu d).held → j ∈ (m.cpu d').held → d = d')
    (hnew : ∀ d ≠ c, ∀ j ∈ x.held, j ∉ (m.cpu d).held)
    (htaken : ∀ j, m.locked j = true → j ∈ x.held ∨ ∃ d ≠ c, j ∈ (m.cpu d).held) :
    Inv (m.set c x) := by
  have hcpu : ∀ d, (m.set c x).cpu d = if d = c then x else m.cpu d :=
    fun d => Function.update_apply ..
  refine ⟨fun d => ?_, by grind, fun j hj => ?_⟩
  · rw [hcpu]
    split
    · next hd =>
      subst hd
      exact { hx with }
    · next hd => exact { hfine d hd with }
  · rcases htaken j hj with hc | ⟨d, hd, hj⟩
    · exact ⟨c, by grind⟩
    · exact ⟨d, by grind⟩

/-- Interrupts come only where no lock is held and spinlock.c owes no `popcli`. -/
theorem Fine.interruptible (h : Fine m c x) (hie : x.ie = true) :
    x.code = .run ∨ ∃ j, x.code = .holding true j := by
  have hncli := h.ncli
  have hheld : x.held = ∅ := Finset.card_eq_zero.mp (by grind [h.cli hie])
  have hin := h.inside
  rcases hcode : x.code with _ | ⟨_ | _⟩ | ⟨_ | _⟩ <;> grind [h.cli hie, Code.depth]

theorem Local.held (hs : Local m c x y) : y.held = x.held := by
  cases hs with
  | popcli _ _ hpop | readCpu _ _ hpop | popLast _ hpop => rw [(Cpu.popcli_eq hpop).2]
  | _ => rfl

theorem Local.fine (h : Fine m c x) (hs : Local m c x y) : Fine m c y := by
  -- the counters need linear arithmetic over the integers only
  obtain ⟨h1, h2, h3, h4, h5, h6, h7, h8, h9⟩ := id h
  cases hs with
  | pushcli hcode | acquire j hcode | release j hcode | flag b hcode hn | setIntena b hcode hn =>
    constructor <;> first | assumption | grind -ring -linarith [Cpu.pushcli, Code.depth]
  | popcli hcode _ hpop | popLast hcode hpop =>
    obtain ⟨hpos, rfl⟩ := Cpu.popcli_eq hpop
    constructor <;> first | assumption | grind -ring -linarith [Code.depth]
  | @readLocked b j hcode =>
    cases b <;> constructor <;> first | assumption | grind -ring -linarith [Cpu.pushcli, Code.depth]
  | @readCpu b j l _ hcode htest hpop =>
    obtain ⟨hpos, rfl⟩ := Cpu.popcli_eq hpop
    cases b <;> constructor <;> first | assumption | grind -ring -linarith [Code.depth]
  | interrupt hie =>
    have hcut := h.interruptible hie
    constructor <;> first | assumption | grind -ring -linarith [Code.depth]
  | iret hcode hn hst =>
    rcases h3 _ (hst ▸ List.mem_cons_self) with rfl | ⟨j, rfl⟩ <;>
      constructor <;> first | assumption | grind -ring -linarith [Code.depth]

theorem Step.inv (h : Inv m) (hs : Step m c m') : Inv m' := by
  cases hs with
  | own hs =>
    have hheld := hs.held
    exact .set (hs.fine (h.fine c)) (fun d _ => h.fine d) h.unique (by grind [h.unique])
      (by grind [h.taken])
  | xchg hcode hfree =>
    refine .set ?_ (fun d hd => ?_) h.unique ?_ (by grind [h.taken])
    · obtain ⟨h1, h2, h3, h4, h5, h6, h7, h8, h9⟩ := h.fine c
      constructor <;> first | assumption | grind -ring -linarith [Code.depth]
    · exact { h.fine d with locked := by grind [(h.fine d).locked] }
    · grind [h.unique, (h.fine _).locked]
  | @setCpu j hcode | @clearCpu j hcode =>
    have hj := (h.fine c).inside j (by simp [hcode])
    refine .set ?_ (fun d hd => ?_) h.unique (by grind [h.unique]) (by grind [h.taken])
    · obtain ⟨h1, h2, h3, h4, h5, h6, h7, h8, h9⟩ := h.fine c
      constructor <;> first | assumption | grind -ring -linarith [Code.depth]
    · exact { h.fine d with
        owner := by grind [(h.fine d).owner]
        owned := by grind [(h.fine d).owned, h.unique]
        cleared := by grind [(h.fine d).cleared] }
  | @unlock j hcode =>
    have hj := (h.fine c).inside j (by simp [hcode])
    refine .set ?_ (fun d hd => ?_) h.unique (by grind [h.unique]) (by grind [h.taken])
    · obtain ⟨h1, h2, h3, h4, h5, h6, h7, h8, h9⟩ := h.fine c
      constructor <;> first | assumption | grind -ring -linarith [Code.depth]
    · exact { h.fine d with locked := by grind [(h.fine d).locked, h.unique] }

end

/-! ## Every interleaving -/

structure Safe (m : Machine) : Prop where
  exclusive : ∀ c c' j, j ∈ (m.cpu c).held → j ∈ (m.cpu c').held → c = c'
  locked : ∀ j, m.locked j = true ↔ ∃ c, j ∈ (m.cpu c).held
  cli : ∀ c, (m.cpu c).held ≠ ∅ → (m.cpu c).ie = false
  /-- The second read of `holding` gives the right answer. -/
  holding : ∀ c b j l, (m.cpu c).code = .read b j l →
    (l = true ∧ m.owner j = some c ↔ j ∈ (m.cpu c).held)
  popcli : ∀ c, 0 < (m.cpu c).pushed + (m.cpu c).code.depth → ∃ x, (m.cpu c).popcli = some x

theorem spinlock_safe {m : Machine} (h : Reach Started Step (fun _ _ => True) m) : Safe m := by
  have hinv : Inv m := h.invariant (fun _ => Started.inv) (fun _ _ _ hi _ hs => hs.inv hi)
  refine ⟨hinv.unique, fun j => ⟨hinv.taken j, ?_⟩, fun c hheld => ?_, fun c b j l hcode => ?_,
    fun c hdepth => ?_⟩
  · rintro ⟨c, hj⟩
    exact (hinv.fine c).locked j hj
  · have hcard := Finset.card_pos.mpr (Finset.nonempty_iff_ne_empty.mpr hheld)
    grind [(hinv.fine c).ncli, (hinv.fine c).cli]
  · grind [(hinv.fine c).read, (hinv.fine c).owner, (hinv.fine c).owned]
  · have hn := (hinv.fine c).ncli
    have hie := (hinv.fine c).cli
    exact ⟨_, by rw [Cpu.popcli, if_neg (by grind), if_neg (by grind)]⟩

theorem spinlock_safe_acquired :
    ∃ m, Reach Started Step (fun _ _ => True) m ∧ (m.cpu 0).code = .got 3 ∧ Safe m := by
  have h0 : Reach Started Step (fun _ _ => True)
      ⟨fun _ => ⟨true, 0, false, .run, [], ∅, 0⟩, fun _ => false, fun _ => none⟩ :=
    .base fun _ => by simp
  have h1 := h0.next (a := 0) trivial (.own (.acquire 3 rfl))
  have h2 := h1.next (a := 0) trivial (.own (.readLocked rfl))
  have h3 := h2.next (a := 0) trivial (.own (.readCpu rfl (by decide) rfl))
  have h4 := h3.next (a := 0) trivial (.xchg rfl rfl)
  exact ⟨_, h4, rfl, spinlock_safe h4⟩

end Xv6Sharing.Spinlock
