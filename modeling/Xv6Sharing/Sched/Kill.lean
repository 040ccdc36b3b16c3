/-
Xv6Sharing.Sched.Kill — whom `kill` hits.

`kill` looks for a pid and not at the state of the slot. A free slot keeps the
pid it had when its `fork` failed, or 0, and `allocproc` clears neither the pid
nor `killed`: a kill that finds a free slot, or an EMBRYO whose `fork` then
fails, marks the next process born there. In runs without such steps a process
is marked only after a kill of its own pid, or a fault of its own.
-/
import Xv6Sharing.Sched.Wait

namespace Xv6Sharing.Sched

open Lib Process

/-! ## Marks and where they come from -/

/-- The step marks the process `q` with this pid. -/
def Event.marks (q : Slot) (pid : Int) : Event → Bool
  | .kill pid' _ => pid' = pid
  | .trap p => p = q
  | _ => false

/-- Such a step was taken after the slot was last given out; the last step comes first. -/
def MarkedSince (q : Slot) (pid : Int) : List Event → Prop
  | [] => False
  | e :: es => e.marks q pid = true ∨ (e ≠ .alloc q ∧ MarkedSince q pid es)

/-- No kill finds a free slot, and no slot is freed with its mark by a `fork` that fails. -/
def MarksStay (m : Machine) : Event → Prop
  | .kill pid _ => ∀ q, m.state q = .unused → m.pid q ≠ pid
  | .forkFailed np => m.killed np = false
  | _ => True

structure Marked (es : List Event) (m : Machine) : Prop where
  unused : ∀ q, m.state q = .unused → m.killed q = false
  since : ∀ q, m.state q ≠ .unused → m.killed q = true → MarkedSince q (m.pid q) es

section

variable {m m' : Machine} {e : Event} {es : List Event}

theorem Started.marked (h : Started m) : Marked [] m := by
  obtain ⟨k, d, used, _, _, _, rfl⟩ := h
  unfold started
  constructor <;> grind

/-- A process is marked after a step if the step marked it, or if it was marked before
and the step did not give its slot out. -/
theorem Marked.next (h : Marked es m) (hunused : ∀ q, m'.state q = .unused → m'.killed q = false)
    (hsince : ∀ q, m'.state q ≠ .unused → m'.killed q = true → e.marks q (m'.pid q) = true ∨
      (e ≠ .alloc q ∧ m'.pid q = m.pid q ∧ m.state q ≠ .unused ∧ m.killed q = true)) :
    Marked (e :: es) m' := by
  refine ⟨hunused, fun q hq hk => ?_⟩
  rcases hsince q hq hk with hmark | ⟨he, hpid, hused, hkilled⟩
  · exact Or.inl hmark
  · rw [hpid]
    exact Or.inr ⟨he, h.since q hused hkilled⟩

theorem Step.marked (hc : Control m) (h : Marked es m) (hs : Step m e m') (hok : MarksStay m e) :
    Marked (e :: es) m' := by
  obtain ⟨c1, -, c3, -, -, c6⟩ := hc
  have h1 := h.unused
  cases hs with
  | kill hc hpc =>
    have hnamed : ∀ q, m.state q = .unused → m.pid q ≠ _ := hok
    rcases kill_cases (m := m) with ⟨heq, _⟩ | ⟨q, hpid, heq⟩
    · rw [heq]
      exact h.next h1 (by grind)
    · rw [heq]
      refine h.next ?_ ?_ <;> grind [Event.marks, Function.update_apply]
  | trap hc hpc =>
    have hrun := c1 _ _ hc
    refine h.next ?_ ?_ <;> grind [Event.marks, Function.update_apply]
  | forkAlloc hc hpc hal =>
    obtain ⟨hun, rfl⟩ := allocproc_some hal
    -- the slot was free, so it comes without a mark
    have hfree := h1 _ hun
    refine h.next ?_ ?_ <;> grind [Function.update_apply]
  | forkNoStack hc hpc hst =>
    have hfree : m.killed _ = false := hok
    refine h.next ?_ ?_ <;> grind [Function.update_apply]
  | forkUndo hc hpc hst =>
    have hfree : m.killed _ = false := hok
    refine h.next ?_ ?_ <;> grind [Function.update_apply]
  | exitLast hc hpc =>
    have hex := exitLocked_spec (c6 _ hpc)
    generalize exitLocked m _ = m₁ at hex
    obtain ⟨heq, hself, hwoken, -, -⟩ := hex
    have hrun := c1 _ _ hc
    rw [heq]
    unfold Woken at hwoken
    refine h.next ?_ ?_ <;> grind
  | waited hc hpc hr =>
    cases waitRound_spec hr
    unfold reap
    refine h.next ?_ ?_ <;> grind [Function.update_apply]
  | waitFailed hc hpc hr =>
    cases waitRound_spec hr
    exact h.next h1 (by grind)
  | waitSleeps hc hpc hr =>
    cases waitRound_spec hr
    unfold sleepOn
    have hrun := c1 _ _ hc
    refine h.next ?_ ?_ <;> grind [Function.update_apply]
  | wakeup =>
    unfold wakeup1
    refine h.next ?_ ?_ <;> grind
  | sleep hc hpc =>
    unfold sleepOn
    have hrun := c1 _ _ hc
    refine h.next ?_ ?_ <;> grind [Function.update_apply]
  | _ => refine h.next ?_ ?_ <;> first | exact h1 | grind [Function.update_apply]

end

/-! ## Whole runs -/

/-- `kill` hits the process it names, and no process is marked without a reason. -/
structure KillExact (es : List Event) (m : Machine) : Prop where
  named : ∀ pid q m', MarksStay m (.kill pid (some q)) → Step m (.kill pid (some q)) m' →
    m.state q ≠ .unused ∧ m.pid q = pid ∧ m'.killed q = true ∧
    m' = { m with state := m'.state, killed := m'.killed } ∧
    ∀ r, r ≠ q → m'.state r = m.state r ∧ m'.killed r = m.killed r
  since : ∀ q, m.state q ≠ .unused → m.killed q = true → MarkedSince q (m.pid q) es

/-- In every run in which no kill finds a free slot and no marked slot is freed by a failing
`fork`, a kill that returns 0 hits a process with that pid and nothing else, and a process
is marked only by a kill of its pid or a fault of its own that came after its birth. -/
theorem kill_exact {es : List Event} {m : Machine} (h : Trace Started Step MarksStay es m) :
    KillExact es m := by
  have hinv : TableInv m ∧ Marked es m :=
    Trace.invariant (J := fun es m => TableInv m ∧ Marked es m)
      (fun _ hs => ⟨hs.inv, hs.marked⟩)
      (fun _ _ _ _ hi hok hs => ⟨hs.inv hi.1, hs.marked hi.1.control hi.2 hok⟩) h
  constructor
  · intro pid q m' hok hs
    generalize he : Event.kill pid (some q) = e at hs
    cases hs with
    | @kill c p pid' hc hpc =>
      rcases @kill_cases m pid' with ⟨heq, _⟩ | ⟨r, hpid, heq⟩
      · rw [heq] at he
        cases he
      · rw [heq] at he ⊢
        cases he
        refine ⟨fun hq => hok q hq hpid, hpid, Function.update_self .., rfl, fun r hr => ?_⟩
        exact ⟨Function.update_of_ne hr .., Function.update_of_ne hr ..⟩
    | _ => cases he
  · exact hinv.2.since

/-- Init kills itself. -/
theorem kill_exact_self : ∃ es m, Trace Started Step MarksStay es m ∧
    m.killed 0 = true ∧ KillExact es m := by
  have h₀ : Trace Started Step MarksStay [] (started 1 2 ∅) :=
    .base ⟨1, 2, ∅, by decide, by decide, by decide, rfl⟩
  have h₁ := Trace.next (a := Event.internal) h₀ trivial (Step.schedule (c := 0) (p := 0) rfl rfl)
  have h₂ := Trace.next h₁ (by unfold MarksStay; decide)
    (Step.kill (c := 0) (p := 0) rfl rfl : Step _ (.kill 1 _) _)
  exact ⟨_, _, h₂, rfl, kill_exact h₂⟩

/-- Init kills pid 0, which every free slot has, and then forks: the child is marked
although nobody ever killed it. -/
theorem kill_marks_newborn : ∃ es m, Ran es m ∧ m.state 1 = .runnable ∧ m.pid 1 = 2 ∧
    m.killed 1 = true ∧ ¬ MarkedSince 1 (m.pid 1) es := by
  have h₀ : Ran [] (started 1 2 ∅) := .base ⟨1, 2, ∅, by decide, by decide, by decide, rfl⟩
  have h₁ := Trace.next h₀ trivial (Step.schedule (c := 0) (p := 0) rfl rfl)
  have h₂ := Trace.next h₁ trivial (Step.kill (c := 0) (p := 0) rfl rfl : Step _ (.kill 0 _) _)
  have h₃ := Trace.next h₂ trivial (Step.forkAlloc (c := 0) (p := 0) rfl rfl rfl : Step _ (.alloc 1) _)
  have h₄ := Trace.next h₃ trivial
    (Step.forkStack (c := 0) (k := 3) (p := 0) rfl rfl rfl (by decide) (by decide) : Step _ (.forking 1) _)
  have h₅ := Trace.next h₄ trivial
    (Step.forkCopy (c := 0) (d := 4) (p := 0) rfl rfl rfl (by decide) (by decide) : Step _ (.forking 1) _)
  have h₆ := Trace.next h₅ trivial (Step.forkFill (c := 0) (p := 0) rfl rfl rfl : Step _ (.forking 1) _)
  have h₇ := Trace.next h₆ trivial (Step.forkDone (c := 0) (p := 0) rfl rfl rfl : Step _ (.forking 1) _)
  refine ⟨_, _, h₇, rfl, rfl, rfl, ?_⟩
  simp [MarkedSince, Event.marks]

end Xv6Sharing.Sched
