/-
Xv6Sharing.Sched.Tree — the process tree.

`Links` are the parent pointers: they lead to processes that are alive, a free
slot has none, and a slot gets one when `fork` fills it. `Frames` are the
kernel stacks and page directories, each held by one process. `Pids` ties a pid
to the `allocproc` call that gave it out, which makes pids distinct until the
32-bit counter comes round; `Ages` orders a process behind its parent.
-/
import Xv6Sharing.Sched.Invariants

namespace Xv6Sharing.Sched

open Lib Process

section

variable {m m' : Machine} {e : Event}

/-! ## Parent pointers -/

structure Links (m : Machine) : Prop where
  unused : ∀ q, m.state q = .unused → m.parent q = none
  alive : ∀ q r, m.parent q = some r → Alive (m.state r)
  parent : ∀ q, m.state q ≠ .unused → m.state q ≠ .embryo → q ≠ m.initproc → m.parent q ≠ none
  embryo : ∀ q, m.state q = .embryo → m.stage q ≠ .filled → m.parent q = none
  filled : ∀ p np, m.pc p = .fork np → m.stage np = .filled → m.parent np = some p

theorem Started.links (h : Started m) : Links m := by
  obtain ⟨k, d, used, _, _, _, rfl⟩ := h
  unfold started
  constructor <;> grind [Alive, Function.update_apply]

theorem Links.quiet (h : Links m) (hq : Quiet m m') : Links m' := by
  obtain ⟨h1, h2, h3, h4, h5⟩ := h
  obtain ⟨heq, hstate, hfork⟩ := hq
  rw [heq]
  constructor <;> grind [Alive]

theorem Step.links (hc : Control m) (h : Links m) (hs : Step m e m') : Links m' := by
  have hq := hs.quiet hc
  obtain ⟨c1, c2, c3, c4, c5, c6⟩ := hc
  obtain ⟨h1, h2, h3, h4, h5⟩ := id h
  cases hs with
  | forkAlloc hc hpc hal =>
    obtain ⟨hun, rfl⟩ := allocproc_some hal
    constructor <;> first | assumption | grind [Alive, Function.update_apply]
  | exitLast hc hpc =>
    have hex := exitLocked_spec (c6 _ hpc)
    generalize exitLocked m _ = m₁ at hex
    obtain ⟨heq, hself, hwoken, hparent, -⟩ := hex
    rw [heq]
    unfold Woken at hwoken
    constructor <;> first | assumption | grind [Alive, Function.update_apply]
  | waited hc hpc hr =>
    cases waitRound_spec hr
    unfold reap
    constructor <;> first | assumption | grind [Alive, Function.update_apply]
  | _ =>
    first
    | exact h.quiet (hq rfl)
    | (clear hq; constructor <;> first | assumption | grind [Alive, Function.update_apply])

/-! ## Kernel stacks and page directories -/

/-- What a slot has a frame for. -/
@[grind cases]
inductive Role where
  | stack
  | dir
  deriving DecidableEq, Repr

/-- The slot has a frame in this role: every process that `fork` is done with has both. -/
def Has (m : Machine) (q : Slot) (r : Role) : Prop :=
  m.state q ≠ .unused ∧ (m.state q = .embryo →
    if r = .stack then m.stage q ≠ .embryo ∧ m.stage q ≠ .freed
    else m.stage q = .copied ∨ m.stage q = .filled)

/-- The frame that the slot names in this role. -/
def Machine.frame (m : Machine) (q : Slot) (r : Role) : Nat :=
  if r = .stack then m.kstack q else m.pgdir q

structure Frames (m : Machine) : Prop where
  used : ∀ q r, Has m q r → m.frame q r ≠ 0 ∧ m.frame q r ∈ m.used
  inj : ∀ q r q' r', Has m q r → Has m q' r' → m.frame q r = m.frame q' r' → q = q' ∧ r = r'

theorem Started.frames (h : Started m) : Frames m := by
  obtain ⟨k, d, used, _, _, _, rfl⟩ := h
  unfold started
  constructor <;> grind [Has, Machine.frame, Function.update_apply]

/-- Nobody gets a frame, and the frames that are still held stay in use. -/
theorem Frames.drop (h : Frames m)
    (hhas : ∀ q r, Has m' q r → Has m q r ∧ m'.frame q r = m.frame q r)
    (hused : ∀ q r, Has m' q r → m.frame q r ∈ m'.used) : Frames m' := by
  obtain ⟨h1, h2⟩ := h
  constructor <;> grind

/-- One slot gets a frame that was free, in the role `a`. -/
theorem Frames.take {x : Slot} {a : Role} (h : Frames m)
    (hhas : ∀ q r, Has m' q r → ¬ (q = x ∧ r = a) → Has m q r ∧ m'.frame q r = m.frame q r)
    (hnew : m'.frame x a ≠ 0 ∧ m'.frame x a ∉ m.used) (hin : m'.frame x a ∈ m'.used)
    (hused : ∀ q r, Has m' q r → ¬ (q = x ∧ r = a) → m.frame q r ∈ m'.used) : Frames m' := by
  obtain ⟨h1, h2⟩ := h
  constructor <;> grind

theorem Frames.quiet (h : Frames m) (hq : Quiet m m') : Frames m' := by
  obtain ⟨heq, hstate, -⟩ := hq
  have hhas : ∀ q r, Has m' q r → Has m q r := by
    rw [heq]
    grind [Has, Alive]
  rw [heq] at hhas ⊢
  exact h.drop (fun q r hr => ⟨hhas q r hr, rfl⟩)
    (fun q r hr => (h.used q r (hhas q r hr)).2)

theorem Step.frames (hc : Control m) (h : Frames m) (hs : Step m e m') : Frames m' := by
  have hq := hs.quiet hc
  obtain ⟨c1, c2, c3, c4, c5, c6⟩ := hc
  obtain ⟨h1, h2⟩ := id h
  cases hs with
  | @exec c d p hc hpc hd hfree =>
    have hrun := c1 _ _ hc
    have hold : Has m p .dir ∧ m.frame p .dir = m.pgdir p := ⟨by grind [Has], rfl⟩
    clear hq
    refine h.take (x := p) (a := .dir) ?_ ?_ ?_ ?_ <;>
      grind [Has, Machine.frame, Function.update_apply]
  | forkAlloc hc hpc hal =>
    obtain ⟨hun, rfl⟩ := allocproc_some hal
    refine h.drop ?_ ?_ <;> grind [Has, Machine.frame, Function.update_apply]
  | @forkStack c k p np hc hpc hst hk hfree =>
    refine h.take (x := np) (a := .stack) ?_ ?_ ?_ ?_ <;>
      grind [Has, Machine.frame, Function.update_apply]
  | @forkCopy c d p np hc hpc hst hd hfree =>
    refine h.take (x := np) (a := .dir) ?_ ?_ ?_ ?_ <;>
      grind [Has, Machine.frame, Function.update_apply]
  | exitLast hc hpc =>
    have hex := exitLocked_spec (c6 _ hpc)
    generalize exitLocked m _ = m₁ at hex
    obtain ⟨heq, hself, hwoken, -, -⟩ := hex
    have hrun := c1 _ _ hc
    rw [heq]
    unfold Woken at hwoken
    refine h.drop ?_ ?_ <;> grind [Has, Machine.frame]
  | @forkFree c p np hc hpc hst =>
    have hold : Has m np .stack ∧ m.frame np .stack = m.kstack np := ⟨by grind [Has], rfl⟩
    clear hq
    refine h.drop ?_ ?_ <;> grind [Has, Machine.frame, Function.update_apply]
  | @waited m₁ c p z hc hpc hr =>
    cases waitRound_spec hr with
    | reaped hpar hz =>
      have hold : ∀ r, Has m z r := by grind [Has]
      have hstack : m.frame z .stack = m.kstack z := rfl
      have hdir : m.frame z .dir = m.pgdir z := rfl
      unfold reap
      clear hq
      refine h.drop ?_ ?_ <;> grind [Has, Machine.frame, Function.update_apply]
  | _ =>
    first
    | exact h.quiet (hq rfl)
    | (clear hq; refine h.drop ?_ ?_ <;> grind [Has, Machine.frame, Function.update_apply])

/-! ## Pids -/

structure Pids (m : Machine) : Prop where
  next : m.nextpid = i32 (m.births + 1)
  pid : ∀ q, m.state q ≠ .unused → m.pid q = i32 (m.born q)
  born : ∀ q, m.state q ≠ .unused → 1 ≤ m.born q ∧ m.born q ≤ m.births
  bornInj : ∀ q r, m.state q ≠ .unused → m.state r ≠ .unused → m.born q = m.born r → q = r

theorem i32_eq {n : Nat} (h : n < 2 ^ 31) : i32 n = n := by
  unfold i32
  rw [Int.bmod_eq_of_le] <;> omega

theorem i32_add_one (n : Int) : i32 (i32 n + 1) = i32 (n + 1) := by
  unfold i32
  exact Int.bmod_add_bmod ..

theorem Started.pids (h : Started m) : Pids m := by
  obtain ⟨k, d, used, _, _, _, rfl⟩ := h
  unfold started
  have h1 : i32 1 = 1 := by decide
  have h2 : i32 2 = 2 := by decide
  constructor <;> grind [Function.update_apply]

theorem Pids.quiet (h : Pids m) (hq : Quiet m m') : Pids m' := by
  obtain ⟨h1, h2, h3, h4⟩ := h
  obtain ⟨heq, hstate, -⟩ := hq
  rw [heq]
  constructor <;> grind [Alive]

theorem Step.pids (hc : Control m) (h : Pids m) (hs : Step m e m') : Pids m' := by
  have hq := hs.quiet hc
  obtain ⟨c1, -, c3, -, -, c6⟩ := hc
  obtain ⟨h1, h2, h3, h4⟩ := id h
  cases hs with
  | forkAlloc hc hpc hal =>
    obtain ⟨hun, rfl⟩ := allocproc_some hal
    have hnext : i32 (m.nextpid + 1) = i32 ((m.births + 1 : Nat) + 1) := by
      rw [h1, i32_add_one]
      rfl
    constructor <;> grind [Function.update_apply]
  | exitLast hc hpc =>
    have hex := exitLocked_spec (c6 _ hpc)
    generalize exitLocked m _ = m₁ at hex
    obtain ⟨heq, hself, hwoken, -, -⟩ := hex
    rw [heq]
    unfold Woken at hwoken
    have hrun := c1 _ _ hc
    clear hq
    constructor <;> first | assumption | grind
  | waited hc hpc hr =>
    cases waitRound_spec hr
    unfold reap
    constructor <;> first | assumption | grind [Function.update_apply]
  | _ =>
    first
    | exact h.quiet (hq rfl)
    | (clear hq; constructor <;> first | assumption | grind [Function.update_apply])

end

/-! ## The tree in every state -/

/-- The states that steps from the start lead to. -/
def Reachable (m : Machine) : Prop := Reach Started Step (fun _ _ => True) m

structure TableInv (m : Machine) : Prop where
  control : Control m
  links : Links m
  frames : Frames m
  pids : Pids m

theorem Started.inv {m : Machine} (h : Started m) : TableInv m :=
  ⟨h.control, h.links, h.frames, h.pids⟩

theorem Step.inv {m m' : Machine} {e : Event} (h : TableInv m) (hs : Step m e m') : TableInv m' :=
  ⟨hs.control h.control, hs.links h.control h.links, hs.frames h.control h.frames,
    hs.pids h.control h.pids⟩

theorem Reachable.inv {m : Machine} (h : Reachable m) : TableInv m :=
  Reach.invariant (I := fun m => TableInv m) (fun _ hs => hs.inv) (fun _ _ _ hi _ hs => hs.inv hi) h

/-- The slot is in use and `fork` is done with it. -/
def Machine.Grown (m : Machine) (p : Slot) : Prop := m.state p ≠ .unused ∧ m.state p ≠ .embryo

/-- The process tree. The last field says that the loop in `exit` over the shared
regions never takes the branch for a process without a parent. -/
structure ProcessTree (m : Machine) : Prop where
  parent : ∀ p, p ≠ m.initproc → m.Grown p →
    ∃ r, m.parent p = some r ∧ m.state r ≠ .unused ∧ m.state r ≠ .zombie
  frames : ∀ p, m.Grown p → m.kstack p ≠ 0 ∧ m.pgdir p ≠ 0
  unshared : ∀ p q, m.Grown p → m.Grown q → p ≠ q →
    m.kstack p ≠ m.kstack q ∧ m.pgdir p ≠ m.pgdir q ∧ m.kstack p ≠ m.pgdir q
  pidPos : ∀ p, m.state p ≠ .unused → 0 < m.pid p
  pidInj : ∀ p q, m.state p ≠ .unused → m.state q ≠ .unused → p ≠ q → m.pid p ≠ m.pid q
  unused : ∀ p, m.state p = .unused → m.parent p = none
  exiting : ∀ c p, m.cpu c = some p → m.pc p = .exit → m.parent p ≠ none

/-- A process is older than its children, and init is the oldest. -/
structure Ages (m : Machine) : Prop where
  parent : ∀ q r, m.parent q = some r → m.born r < m.born q
  forker : ∀ p np, m.pc p = .fork np → m.born p < m.born np
  init : ∀ q, m.state q ≠ .unused → q ≠ m.initproc → m.born m.initproc < m.born q

theorem Step.ages {m m' : Machine} {e : Event} (hi : TableInv m) (h : Ages m) (hs : Step m e m') :
    Ages m' := by
  have hq := hs.quiet hi.control
  obtain ⟨c1, c2, c3, -, c5, c6⟩ := hi.control
  obtain ⟨l1, l2, -, -, -⟩ := hi.links
  obtain ⟨-, -, p3, -⟩ := hi.pids
  obtain ⟨h1, h2, h3⟩ := id h
  cases hs with
  | forkAlloc hc hpc hal =>
    obtain ⟨hun, rfl⟩ := allocproc_some hal
    have hrun := c1 _ _ hc
    clear hq
    constructor <;> grind -ring -linarith [Alive, Function.update_apply]
  | exitLast hc hpc =>
    have hex := exitLocked_spec (c6 _ hpc)
    generalize exitLocked m _ = m₁ at hex
    obtain ⟨heq, hself, hwoken, hparent, -⟩ := hex
    rw [heq]
    unfold Woken at hwoken
    clear hq
    constructor <;> first | assumption | grind -ring -linarith [Alive]
  | waited hc hpc hr =>
    cases waitRound_spec hr
    unfold reap
    constructor <;> first | assumption | grind -ring -linarith [Function.update_apply]
  | _ =>
    first
    | (obtain ⟨heq, hstate, hfork⟩ := hq rfl; rw [heq]; constructor <;> grind -ring -linarith [Alive])
    | (clear hq; constructor <;> first | assumption | grind -ring -linarith [Function.update_apply])

theorem Reachable.ages {m : Machine} (h : Reachable m) : Ages m := by
  refine (Reach.invariant (I := fun m => TableInv m ∧ Ages m) ?_
    (fun _ _ _ hi _ hs => ⟨hs.inv hi.1, hs.ages hi.1 hi.2⟩) h).2
  intro m hs
  refine ⟨hs.inv, ?_⟩
  obtain ⟨k, d, used, -, -, -, rfl⟩ := hs
  unfold started
  constructor <;> grind [Function.update_apply]

end Xv6Sharing.Sched
