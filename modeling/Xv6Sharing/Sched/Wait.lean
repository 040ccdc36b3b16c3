/-
Xv6Sharing.Sched.Wait — `exit` and `wait` meet.

A process asleep in `wait` has no zombie child. `exit` wakes the parent before
it becomes a zombie, and init for each zombie it passes on, all under the lock;
`Exited.woke` says so, and the invariant `Resting` carries it along runs. The
other half is about the steps that were taken: every birth, that is every
`allocproc` call, is returned by one `wait` at most.
-/
import Xv6Sharing.Sched.Tree

namespace Xv6Sharing.Sched

open Lib Process

section

variable {m m' : Machine} {e : Event}

/-! ## Nobody sleeps beside a zombie child -/

structure Resting (m : Machine) : Prop where
  noZombie : ∀ p, m.state p = .sleeping → m.chan p = some (.proc p) →
    ∀ z, m.parent z = some p → m.state z ≠ .zombie
  initRoot : m.parent m.initproc = none
  irrefl : ∀ q, m.parent q ≠ some q

theorem Started.resting (h : Started m) : Resting m := by
  obtain ⟨k, d, used, _, _, _, rfl⟩ := h
  unfold started
  constructor <;> grind

theorem Exited.resting {p : Slot} (hex : Exited p m m') (h : Resting m) : Resting m' := by
  obtain ⟨h1, h2, h3⟩ := h
  obtain ⟨heq, hself, hwoken, hparent, hwoke⟩ := hex
  have hsleep : ∀ q, m'.state q = .sleeping → m.state q = .sleeping := by
    unfold Woken at hwoken
    grind
  have hzombie : ∀ q, q ≠ p → m'.state q = .zombie → m.state q = .zombie := by
    unfold Woken at hwoken
    grind
  rw [heq]
  constructor
  · intro q hq hc z hz hzz
    rw [hparent z] at hz
    split at hz
    · rename_i hzp
      cases hz
      -- `z` was a child of the process that exits, and not that process itself
      have hne : z ≠ p := fun heq => h3 p (heq ▸ hzp)
      exact hwoke z _ (Or.inr ⟨hzp, hzombie z hne hzz, rfl⟩) hq hc
    · by_cases hzp : z = p
      · exact hwoke z q (Or.inl ⟨hzp, hz⟩) hq hc
      · exact h1 q (hsleep q hq) hc z hz (hzombie z hzp hzz)
  · grind
  · grind

theorem Step.resting (hc : Control m) (h : Resting m) (hs : Step m e m') : Resting m' := by
  obtain ⟨c1, c2, c3, c4, c5, c6⟩ := hc
  obtain ⟨h1, h2, h3⟩ := id h
  cases hs with
  | kill hc hpc =>
    rcases kill_cases (m := m) with ⟨heq, _⟩ | ⟨q, _, heq⟩
    · rw [heq]
      exact h
    · rw [heq]
      exact ⟨by grind [Function.update_apply], h2, h3⟩
  | forkAlloc hc hpc hal =>
    obtain ⟨hun, rfl⟩ := allocproc_some hal
    exact ⟨by grind [Function.update_apply], h2, h3⟩
  | wakeup =>
    refine ⟨?_, h2, h3⟩
    unfold wakeup1
    grind
  | sleep hc hpc =>
    refine ⟨?_, h2, h3⟩
    unfold sleepOn
    grind [Function.update_apply]
  | forkFill hc hpc hst => constructor <;> grind [Alive, Function.update_apply]
  | exitLast hc hpc =>
    have hex := exitLocked_spec (c6 _ hpc)
    generalize exitLocked m _ = m₁ at hex
    obtain ⟨g1, g2, g3⟩ := hex.resting h
    exact ⟨g1, g2, g3⟩
  | waited hc hpc hr =>
    cases waitRound_spec hr
    unfold reap
    constructor <;> grind [Function.update_apply]
  | waitFailed hc hpc hr =>
    cases waitRound_spec hr
    exact ⟨h1, h2, h3⟩
  | waitSleeps hc hpc hr =>
    cases waitRound_spec hr
    refine ⟨?_, h2, h3⟩
    unfold sleepOn
    grind [Function.update_apply]
  | _ => exact ⟨by first | exact h1 | grind [Function.update_apply], h2, h3⟩

/-! ## Which births were returned -/

/-- The birth that a step of `wait` returned. -/
def Event.returned : Event → Option Nat
  | .waited _ _ _ b => some b
  | _ => none

/-- The births in `bs` were returned, each once, and belong to no slot any more. -/
structure Returned (bs : List Nat) (m : Machine) : Prop where
  nodup : bs.Nodup
  le : ∀ b ∈ bs, b ≤ m.births
  gone : ∀ b ∈ bs, ∀ q, m.state q ≠ .unused → m.born q ≠ b

theorem Returned.quiet {bs : List Nat} (h : Returned bs m) (hq : Quiet m m') : Returned bs m' := by
  obtain ⟨h1, h2, h3⟩ := h
  obtain ⟨heq, hstate, -⟩ := hq
  rw [heq]
  exact ⟨h1, h2, by grind [Alive]⟩

theorem Step.returned {bs : List Nat} (hc : Control m) (hp : Pids m) (h : Returned bs m)
    (hs : Step m e m') : Returned (e.returned.toList ++ bs) m' := by
  have hq := hs.quiet hc
  obtain ⟨c1, -, c3, -, -, c6⟩ := hc
  obtain ⟨-, -, hborn, hinj⟩ := hp
  obtain ⟨h1, h2, h3⟩ := id h
  cases hs with
  | forkAlloc hc hpc hal =>
    obtain ⟨hun, rfl⟩ := allocproc_some hal
    refine ⟨h1, fun b hb => Nat.le_succ_of_le (h2 b hb), ?_⟩
    grind [Event.returned, Function.update_apply]
  | exitLast hc hpc =>
    have hex := exitLocked_spec (c6 _ hpc)
    generalize exitLocked m _ = m₁ at hex
    obtain ⟨heq, hself, hwoken, -, -⟩ := hex
    rw [heq]
    unfold Woken at hwoken
    have hrun := c1 _ _ hc
    exact ⟨h1, h2, by grind [Event.returned]⟩
  | @waited m₁ c p z hc hpc hr =>
    cases waitRound_spec hr with
    | reaped hpar hz =>
      have hused : m.state z ≠ .unused := by simp [hz]
      unfold reap
      refine ⟨?_, ?_, ?_⟩
      · exact List.nodup_cons.mpr ⟨fun hm => h3 _ hm z hused rfl, h1⟩
      · intro b hb
        rcases List.mem_cons.mp hb with rfl | hb
        · exact (hborn z hused).2
        · exact h2 b hb
      · intro b hb q hq
        have hne : q ≠ z := by grind [Function.update_apply]
        have hqused : m.state q ≠ .unused := by grind [Function.update_apply]
        rcases List.mem_cons.mp hb with rfl | hb
        · exact fun heq => hne (hinj q z hqused hused heq)
        · exact h3 b hb q hqused
  | _ =>
    first
    | exact h.quiet (hq rfl)
    | (clear hq; exact ⟨h1, h2, by grind [Event.returned, Function.update_apply]⟩)

end

/-! ## Whole runs -/

/-- The run of the machine with the steps `es`, the last one first. -/
def Ran (es : List Event) (m : Machine) : Prop := Trace Started Step (fun _ _ => True) es m

theorem Ran.inv {es : List Event} {m : Machine} (h : Ran es m) :
    TableInv m ∧ Resting m ∧ Returned (es.filterMap Event.returned) m := by
  refine Trace.invariant
    (J := fun es m => TableInv m ∧ Resting m ∧ Returned (es.filterMap Event.returned) m)
    (fun s hs => ⟨hs.inv, hs.resting, ?_⟩) (fun es s e s' hi _ hs => ?_) h
  · exact ⟨List.nodup_nil, by simp, by simp⟩
  · obtain ⟨hinv, hrest, hret⟩ := hi
    refine ⟨hs.inv hinv, hs.resting hinv.control hrest, ?_⟩
    have := hs.returned hinv.control hinv.pids hret
    cases he : e.returned <;> simpa [List.filterMap_cons, he] using this

/-- What `exit` and `wait` owe each other after the steps `es`. A child is named by
its birth, since pids come round again. -/
structure Met (es : List Event) (m : Machine) : Prop where
  sleeping : ∀ p, m.state p = .sleeping → m.chan p = some (.proc p) →
    ∀ z, m.parent z = some p → m.state z ≠ .zombie
  once : ∀ b, (es.filterMap Event.returned).count b ≤ 1
  parent : ∀ p z pid b m', Step m (.waited p z pid b) m' →
    m.parent z = some p ∧ m.state z = .zombie ∧ pid = m.pid z ∧ b = m.born z
  failed : ∀ p m', Step m (.waitFailed p) m' → (∀ q, m.parent q ≠ some p) ∨ m.killed p = true

/-- `exit` and `wait` never miss each other, in any interleaving. -/
theorem exit_wait_met {es : List Event} {m : Machine} (h : Ran es m) : Met es m := by
  obtain ⟨_, hrest, hret⟩ := h.inv
  constructor
  · exact hrest.noZombie
  · exact List.nodup_iff_count_le_one.mp hret.nodup
  · intro p z pid b m' hs
    cases hs with
    | waited hc hpc hr =>
      cases waitRound_spec hr with
      | reaped hpar hz => exact ⟨hpar, hz, rfl, rfl⟩
  · intro p m' hs
    cases hs with
    | waitFailed hc hpc hr =>
      cases waitRound_spec hr with
      | failed hno => exact hno

/-- Init forks a child and waits for it. -/
theorem exit_wait_met_child :
    ∃ es m, Ran es m ∧ m.state 0 = .sleeping ∧ m.parent 1 = some 0 ∧ Met es m := by
  have h₀ : Ran [] (started 1 2 ∅) := .base ⟨1, 2, ∅, by decide, by decide, by decide, rfl⟩
  have h₁ := Trace.next h₀ trivial (Step.schedule (c := 0) (p := 0) rfl rfl)
  have h₂ := Trace.next h₁ trivial (Step.forkAlloc (c := 0) (p := 0) rfl rfl rfl : Step _ (.alloc 1) _)
  have h₃ := Trace.next h₂ trivial
    (Step.forkStack (c := 0) (k := 3) (p := 0) rfl rfl rfl (by decide) (by decide) : Step _ (.forking 1) _)
  have h₄ := Trace.next h₃ trivial
    (Step.forkCopy (c := 0) (d := 4) (p := 0) rfl rfl rfl (by decide) (by decide) : Step _ (.forking 1) _)
  have h₅ := Trace.next h₄ trivial (Step.forkFill (c := 0) (p := 0) rfl rfl rfl : Step _ (.forking 1) _)
  have h₆ := Trace.next h₅ trivial (Step.forkDone (c := 0) (p := 0) rfl rfl rfl : Step _ (.forking 1) _)
  have h₇ := Trace.next h₆ trivial (Step.wait (c := 0) (p := 0) rfl rfl)
  have h₈ := Trace.next h₇ trivial (Step.waitSleeps (c := 0) (p := 0) rfl rfl rfl)
  exact ⟨_, _, h₈, rfl, rfl, exit_wait_met h₈⟩

end Xv6Sharing.Sched
