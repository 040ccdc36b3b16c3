/-
Xv6Sharing.Sched.Invariants — who runs, and who forks whom.

One lemma for each piece of code that scans the table says what it leaves.
`Control` is the invariant everything else rests on: a processor runs RUNNING
processes only, and a slot that `fork` is working on is an EMBRYO, with one
process working on it.
-/
import Xv6Sharing.Lib.Run
import Xv6Sharing.Sched.Machine

namespace Xv6Sharing.Sched

open Lib Process

section

variable {m m' : Machine} {p q np : Slot} {c : Nat} {e : Event}

/-! ## Code that scans the table -/

/-- RUNNABLE, RUNNING or SLEEPING. -/
def Alive (st : ProcState) : Prop := st = .runnable ∨ st = .running ∨ st = .sleeping

/-- A state after some wakeups. -/
def Woken (st st' : ProcState) : Prop := st' = st ∨ (st = .sleeping ∧ st' = .runnable)

theorem Woken.trans {st st' st'' : ProcState} (h : Woken st st') (h' : Woken st' st'') :
    Woken st st'' := by
  unfold Woken at h h' ⊢
  grind

theorem Woken.sleeping {st : ProcState} (h : Woken st .sleeping) : st = .sleeping := by
  unfold Woken at h
  grind

theorem find_slot {P : Slot → Prop} [DecidablePred P] {q : Slot}
    (h : ((List.finRange 64).find? fun j => decide (P j)) = some q) : P q := by
  simpa using List.find?_some h

theorem find_slot_none {P : Slot → Prop} [DecidablePred P]
    (h : ((List.finRange 64).find? fun j => decide (P j)) = none) (q : Slot) : ¬ P q := by
  simpa using List.find?_eq_none.mp h q (List.mem_finRange q)

theorem allocproc_some (h : allocproc m = some (np, m')) : m.state np = .unused ∧
    m' = { m with
      state := Function.update m.state np .embryo
      pid := Function.update m.pid np m.nextpid
      stage := Function.update m.stage np .embryo
      born := Function.update m.born np (m.births + 1)
      nextpid := i32 (m.nextpid + 1)
      births := m.births + 1 } := by
  unfold allocproc at h
  split at h
  · cases h
  · rename_i q hq
    cases h
    exact ⟨find_slot hq, rfl⟩

theorem kill_cases {pid : Int} :
    (kill m pid = (none, m) ∧ ∀ q, m.pid q ≠ pid) ∨
    ∃ q, m.pid q = pid ∧ kill m pid = (some q, { m with
      killed := Function.update m.killed q true
      state := Function.update m.state q
        (if m.state q = .sleeping then .runnable else m.state q) }) := by
  unfold kill
  split
  · rename_i h
    exact Or.inl ⟨rfl, find_slot_none h⟩
  · rename_i q h
    exact Or.inr ⟨q, find_slot h, rfl⟩

theorem wakeup1_woken (ch : Option Chan) (q : Slot) :
    Woken (m.state q) ((wakeup1 m ch).state q) := by
  unfold wakeup1 Woken
  grind

theorem wakeup1_not_sleeping {ch : Option Chan} (h : m.chan q = ch) :
    (wakeup1 m ch).state q ≠ .sleeping := by
  unfold wakeup1
  grind

/-- What the loop of `exit` over the slots `qs` leaves: new parents and wakeups. -/
structure Abandoned (p : Slot) (qs : List Slot) (m m' : Machine) : Prop where
  eq : m' = { m with state := m'.state, parent := m'.parent }
  woken : ∀ q, Woken (m.state q) (m'.state q)
  parent : ∀ q, m'.parent q = if q ∈ qs ∧ m.parent q = some p then some m.initproc else m.parent q
  /-- A zombie passed to init does not find it asleep. -/
  woke : (∃ z ∈ qs, m.parent z = some p ∧ m.state z = .zombie) →
    m'.state m.initproc = .sleeping → m.chan m.initproc ≠ some (.proc m.initproc)

theorem abandonOne_spec (p x : Slot) : Abandoned p [x] m (abandonOne m p x) := by
  unfold abandonOne
  split
  · rename_i hpar
    dsimp only
    split
    · rename_i hz
      refine ⟨rfl, fun q => wakeup1_woken _ q, fun q => ?_, fun _ hs hc => ?_⟩
      · show Function.update m.parent x (some m.initproc) q = _
        grind [Function.update_apply]
      · exact wakeup1_not_sleeping hc hs
    · rename_i hz
      refine ⟨rfl, fun q => Or.inl rfl, fun q => ?_, ?_⟩
      · grind [Function.update_apply]
      · grind
  · exact ⟨rfl, fun q => Or.inl rfl, by grind, by grind⟩

theorem Abandoned.cons {m₁ : Machine} {x : Slot} {qs : List Slot} (hp : p ≠ m.initproc)
    (h : Abandoned p [x] m m₁) (h' : Abandoned p qs m₁ m') : Abandoned p (x :: qs) m m' := by
  have hinit : m₁.initproc = m.initproc := by rw [h.eq]
  have hchan : m₁.chan = m.chan := by rw [h.eq]
  have hparent := h.parent
  have hparent' := h'.parent
  refine ⟨?_, fun q => (h.woken q).trans (h'.woken q), by grind, ?_⟩
  · have heq := h'.eq
    rw [h.eq] at heq
    exact heq
  · rintro ⟨z, hz, hpar, hzomb⟩ hs hc
    have hw := h'.woken m.initproc
    rw [hs] at hw
    by_cases hx : z = x
    · exact h.woke ⟨z, by grind, hpar, hzomb⟩ hw.sleeping hc
    · have hz₁ : m₁.state z = .zombie := by
        have := h.woken z
        unfold Woken at this
        grind
      refine h'.woke ⟨z, by grind, by grind, hz₁⟩ (by rw [hinit]; exact hs) ?_
      rw [hinit, hchan]
      exact hc

theorem abandon_spec (hp : p ≠ m.initproc) (qs : List Slot) :
    Abandoned p qs m (abandon p qs m) := by
  induction qs generalizing m with
  | nil => exact ⟨rfl, fun q => Or.inl rfl, by grind [abandon], by grind⟩
  | cons x qs ih =>
    have hone := abandonOne_spec (m := m) p x
    exact hone.cons hp (ih (by rw [hone.eq]; exact hp))

/-- What the end of `exit` leaves. -/
structure Exited (p : Slot) (m m' : Machine) : Prop where
  eq : m' = { m with state := m'.state, parent := m'.parent }
  self : m'.state p = .zombie
  woken : ∀ q, q ≠ p → Woken (m.state q) (m'.state q)
  parent : ∀ q, m'.parent q = if m.parent q = some p then some m.initproc else m.parent q
  /-- The parent is not asleep in `wait`, and init is not if it gets a zombie. -/
  woke : ∀ z q, (z = p ∧ m.parent z = some q) ∨
    (m.parent z = some p ∧ m.state z = .zombie ∧ q = m.initproc) →
    m'.state q = .sleeping → m.chan q ≠ some (.proc q)

theorem exitLocked_spec (hp : p ≠ m.initproc) : Exited p m (exitLocked m p) := by
  unfold exitLocked
  generalize hm₁ : wakeup1 m ((m.parent p).map .proc) = m₁
  have heq₁ : m₁ = { m with state := m₁.state } := by rw [← hm₁]; rfl
  have hwoken₁ : ∀ q, Woken (m.state q) (m₁.state q) := fun q => hm₁ ▸ wakeup1_woken _ q
  have hparent₁ : m₁.parent = m.parent := by rw [heq₁]
  have hinit : m₁.initproc = m.initproc := by rw [heq₁]
  have hchan : m₁.chan = m.chan := by rw [heq₁]
  have hab := abandon_spec (m := m₁) (by rw [hinit]; exact hp) (List.finRange 64)
  generalize abandon p (List.finRange 64) m₁ = m₂ at hab
  refine ⟨?_, Function.update_self .., fun q hq => ?_, fun q => ?_, fun z q hz hs hc => ?_⟩
  · have heq := hab.eq
    rw [heq₁] at heq
    dsimp only at heq ⊢
    rw [heq]
  · show Woken _ (Function.update m₂.state p .zombie q)
    rw [Function.update_of_ne hq]
    exact (hwoken₁ q).trans (hab.woken q)
  · show m₂.parent q = _
    rw [hab.parent q, hparent₁, hinit]
    simp
  · have hs₂ : m₂.state q = .sleeping := by grind [Function.update_apply]
    have hw := hab.woken q
    rw [hs₂] at hw
    rcases hz with ⟨rfl, hpar⟩ | ⟨hpar, hzomb, rfl⟩
    · have hs₁ := hw.sleeping
      rw [← hm₁] at hs₁
      exact wakeup1_not_sleeping (by rw [hpar]; exact hc) hs₁
    · refine hab.woke ⟨z, List.mem_finRange z, by rw [hparent₁]; exact hpar, ?_⟩
        (by rw [hinit]; exact hs₂) (by rw [hinit, hchan]; exact hc)
      have := hwoken₁ z
      unfold Woken at this
      grind

/-- A round of `wait` reaps a zombie child, fails, or goes to sleep without one. -/
inductive Round (m : Machine) (p : Slot) : Waited → Machine → Prop
  | reaped {z : Slot} : m.parent z = some p → m.state z = .zombie →
      Round m p (.reaped z) (reap m z)
  | failed : (∀ q, m.parent q ≠ some p) ∨ m.killed p = true → Round m p .failed m
  | sleeps : (∀ q, ¬ (m.parent q = some p ∧ m.state q = .zombie)) →
      Round m p .sleeps (sleepOn m p (.proc p))

theorem waitRound_spec {r : Waited} (h : waitRound m p = (r, m')) : Round m p r m' := by
  unfold waitRound at h
  split at h
  · rename_i z hz
    cases h
    exact .reaped (find_slot hz).1 (find_slot hz).2
  · rename_i hnone
    split at h
    · rename_i hno
      cases h
      exact .failed hno
    · cases h
      exact .sleeps (find_slot_none hnone)

/-! ## Who runs, and who forks whom -/

/-- The invariant of the control state. -/
structure Control (m : Machine) : Prop where
  running : ∀ c p, m.cpu c = some p → m.state p = .running
  oneCpu : ∀ c c' p, m.cpu c = some p → m.cpu c' = some p → c = c'
  forker : ∀ p np, m.pc p = .fork np → Alive (m.state p) ∧ m.state np = .embryo
  oneForker : ∀ p p' np, m.pc p = .fork np → m.pc p' = .fork np → p = p'
  init : Alive (m.state m.initproc)
  exiting : ∀ p, m.pc p = .exit → p ≠ m.initproc

theorem Started.control (h : Started m) : Control m := by
  obtain ⟨k, d, used, _, _, _, rfl⟩ := h
  unfold started
  constructor <;> grind [Alive, Function.update_apply]

theorem Step.control (h : Control m) (hs : Step m e m') : Control m' := by
  obtain ⟨h1, h2, h3, h4, h5, h6⟩ := h
  cases hs with
  | kill hc hpc =>
    rcases kill_cases (m := m) with ⟨heq, _⟩ | ⟨q, _, heq⟩
    · rw [heq]
      constructor <;> assumption
    · rw [heq]
      constructor <;> first | assumption | grind [Alive, Function.update_apply]
  | forkAlloc hc hpc hal =>
    obtain ⟨hun, rfl⟩ := allocproc_some hal
    constructor <;> first | assumption | grind [Alive, Function.update_apply]
  | wakeup =>
    unfold wakeup1
    constructor <;> first | assumption | grind [Alive, Function.update_apply]
  | sleep hc hpc =>
    unfold sleepOn
    constructor <;> first | assumption | grind [Alive, Function.update_apply]
  | exitLast hc hpc =>
    have hex := exitLocked_spec (h6 _ hpc)
    generalize exitLocked m _ = m₁ at hex
    obtain ⟨heq, hself, hwoken, hparent, -⟩ := hex
    rw [heq]
    unfold Woken at hwoken
    constructor <;> first | assumption | grind [Alive, Function.update_apply]
  | waited hc hpc hr =>
    cases waitRound_spec hr
    unfold reap
    constructor <;> first | assumption | grind [Alive, Function.update_apply]
  | waitFailed hc hpc hr =>
    cases waitRound_spec hr
    constructor <;> first | assumption | grind [Alive, Function.update_apply]
  | waitSleeps hc hpc hr =>
    cases waitRound_spec hr
    unfold sleepOn
    constructor <;> first | assumption | grind [Alive, Function.update_apply]
  | _ => constructor <;> first | assumption | grind [Alive, Function.update_apply]

/-! ## Steps that leave the tree alone -/

/-- Steps that neither take nor free a slot, nor do anything in `fork`. -/
def Event.quiet : Event → Bool
  | .internal | .kill _ _ | .trap _ | .waitFailed _ => true
  | _ => false

/-- What a quiet step leaves of the table. -/
structure Quiet (m m' : Machine) : Prop where
  eq : m' = { m with
    state := m'.state, killed := m'.killed, chan := m'.chan
    pc := m'.pc, asleep := m'.asleep, cpu := m'.cpu }
  state : ∀ q, m'.state q = m.state q ∨ (Alive (m.state q) ∧ Alive (m'.state q))
  fork : ∀ p np, m'.pc p = .fork np ↔ m.pc p = .fork np

theorem Step.quiet (h : Control m) (hs : Step m e m') (he : e.quiet = true) : Quiet m m' := by
  obtain ⟨h1, -, -, -, -, -⟩ := h
  cases hs with
  | kill hc hpc =>
    rcases kill_cases (m := m) with ⟨heq, _⟩ | ⟨q, _, heq⟩
    · rw [heq]
      exact ⟨rfl, fun _ => Or.inl rfl, fun _ _ => Iff.rfl⟩
    · rw [heq]
      refine ⟨rfl, ?_, ?_⟩ <;> grind [Alive, Function.update_apply]
  | wakeup =>
    refine ⟨rfl, fun q => ?_, fun _ _ => Iff.rfl⟩
    have := wakeup1_woken (m := m) (q := q)
    grind [Alive, Woken]
  | sleep hc hpc =>
    unfold sleepOn
    refine ⟨rfl, ?_, ?_⟩ <;> grind [Alive, Function.update_apply]
  | waitFailed hc hpc hr =>
    cases waitRound_spec hr
    refine ⟨rfl, ?_, ?_⟩ <;> grind [Alive, Function.update_apply]
  | waitSleeps hc hpc hr =>
    cases waitRound_spec hr
    unfold sleepOn
    refine ⟨rfl, ?_, ?_⟩ <;> grind [Alive, Function.update_apply]
  | _ => first | (cases he; done) | (refine ⟨rfl, ?_, ?_⟩ <;> grind [Alive, Function.update_apply])

end

end Xv6Sharing.Sched
