/-
Xv6Sharing.Sched.Handover — `ptable.lock` across the context switch.

`Sched.Machine` takes a switch to another process as one step. Here it is cut
open: a processor has code of its own, the scheduler or a process, and
`ptable.lock` is held from one to the other. The scheduler acquires the lock and
the process it switches to releases it; `yield`, `sleep`, `exit` and `wait`
acquire it and the scheduler releases it, or the next process does. Between the
two, `c->proc` and the state of the process do not agree.

`Kernel.settled` leaves a hand-over out, or completes it. Every step of the
kernel is a step of `Sched.Machine` on the settled table, or none, so what holds
in every state of that machine holds here whenever the lock is free.
-/
import Xv6Sharing.Sched.Wait

namespace Xv6Sharing.Sched

open Lib Process

/-! ## The kernel with its lock -/

/-- Where the code of a processor is. The scheduler is at `acquire`, in its loop at
slot `i`, about to switch to the process it chose, or back from a switch. A process
runs without the lock, or with it: just switched to, in the loop of `wait`, or in
`sched`. -/
inductive Code where
  | idle
  | scan (i : Nat)
  | chosen (p : Slot)
  | back (p : Slot)
  | thread (p : Slot)
  | resumed (p : Slot)
  | inWait (p : Slot)
  | leaving (p : Slot)
  deriving DecidableEq, Repr

namespace Code

def holds : Code → Bool
  | .idle | .thread _ => false
  | _ => true

/-- What `c->proc` is there. -/
def proc : Code → Option Slot
  | .idle | .scan _ => none
  | .chosen p | .back p | .thread p | .resumed p | .inWait p | .leaving p => some p

/-- The process that runs and has not begun to leave. -/
def runs : Code → Option Slot
  | .thread p | .resumed p | .inWait p => some p
  | _ => none

/-- The process that runs without the lock. -/
def free : Code → Option Slot
  | .thread p => some p
  | _ => none

end Code

/-- The table, the processor that holds `ptable.lock`, and what each processor does. -/
structure Kernel where
  table : Machine
  lock : Option Nat
  code : Nat → Code

def Machine.withCpu (m : Machine) (cpu : Nat → Option Slot) : Machine := { m with cpu }

/-- The table with the processes that may take a step of their own. -/
def Kernel.threads (k : Kernel) : Machine := k.table.withCpu fun c => (k.code c).free

/-- A step of a process outside `sched` and `wait` that takes the lock. What `fork` does
before it makes the child runnable, `exec` and a fault do not. -/
def needsLock (m : Machine) : Event → Prop
  | .forking np => m.stage np = .filled
  | .forkFailed _ | .exec _ | .trap _ => False
  | _ => True

def Event.inWait : Event → Bool
  | .waited .. | .waitFailed _ => true
  | _ => false

inductive Run (k : Kernel) : Event → Kernel → Prop
  | acquire {c : Nat} : k.lock = none → k.code c = .idle →
      Run k .internal { k with lock := some c, code := Function.update k.code c (.scan 0) }
  | skip {c : Nat} {p : Slot} : k.code c = .scan p → k.table.state p ≠ .runnable →
      Run k .internal { k with code := Function.update k.code c (.scan (p + 1)) }
  | choose {c : Nat} {p : Slot} : k.code c = .scan p → k.table.state p = .runnable →
      Run k .internal { k with
        table := { k.table with cpu := Function.update k.table.cpu c (some p) }
        code := Function.update k.code c (.chosen p) }
  -- the process returns from `sched` into `sleep`, and there into `wait`, or into `yield`, or
  -- starts in `forkret`
  | switch {c : Nat} {p : Slot} : k.code c = .chosen p →
      Run k .internal { k with
        table := { k.table with
          state := Function.update k.table.state p .running
          chan := Function.update k.table.chan p
            (if k.table.asleep p then none else k.table.chan p)
          asleep := Function.update k.table.asleep p false }
        code := Function.update k.code c
          (if k.table.asleep p ∧ k.table.pc p = .wait then .inWait p else .resumed p) }
  | resume {c : Nat} {p : Slot} : k.code c = .resumed p →
      Run k .internal { k with lock := none, code := Function.update k.code c (.thread p) }
  | release {c : Nat} : k.code c = .scan 64 →
      Run k .internal { k with lock := none, code := Function.update k.code c .idle }
  | yield {c : Nat} {p : Slot} : k.lock = none → k.code c = .thread p →
      Run k .internal {
        table := { k.table with state := Function.update k.table.state p .runnable }
        lock := some c
        code := Function.update k.code c (.leaving p) }
  | sleep {c n : Nat} {p : Slot} : k.lock = none → k.code c = .thread p →
      k.table.pc p = .user ∨ k.table.pc p = .exit →
      Run k .internal {
        table := sleepOn k.table p (.other n)
        lock := some c
        code := Function.update k.code c (.leaving p) }
  | exit {c : Nat} {p : Slot} : k.lock = none → k.code c = .thread p → k.table.pc p = .exit →
      Run k (.exited p) {
        table := exitLocked k.table p
        lock := some c
        code := Function.update k.code c (.leaving p) }
  | wait {c : Nat} {p : Slot} : k.lock = none → k.code c = .thread p → k.table.pc p = .wait →
      Run k .internal { k with lock := some c, code := Function.update k.code c (.inWait p) }
  | waited {m' : Machine} {c : Nat} {p z : Slot} : k.code c = .inWait p →
      waitRound k.table p = (.reaped z, m') →
      Run k (.waited p z (k.table.pid z) (k.table.born z)) {
        table := { m' with pc := Function.update m'.pc p .user }
        lock := none
        code := Function.update k.code c (.thread p) }
  | waitFailed {m' : Machine} {c : Nat} {p : Slot} : k.code c = .inWait p →
      waitRound k.table p = (.failed, m') →
      Run k (.waitFailed p) {
        table := { m' with pc := Function.update m'.pc p .user }
        lock := none
        code := Function.update k.code c (.thread p) }
  | waitSleeps {m' : Machine} {c : Nat} {p : Slot} : k.code c = .inWait p →
      waitRound k.table p = (.sleeps, m') →
      Run k .internal { k with
        table := m'
        code := Function.update k.code c (.leaving p) }
  | leave {c : Nat} {p : Slot} : k.code c = .leaving p →
      Run k .internal { k with code := Function.update k.code c (.back p) }
  | clear {c : Nat} {p : Slot} : k.code c = .back p →
      Run k .internal { k with
        table := { k.table with cpu := Function.update k.table.cpu c none }
        code := Function.update k.code c (.scan (p + 1)) }
  -- the other steps of processes that run without the lock, and of interrupts
  | call {m' : Machine} {e : Event} : Step k.threads e m' → m'.cpu = k.threads.cpu →
      e.inWait = false → (needsLock k.table e → k.lock = none) →
      Run k e { k with table := m'.withCpu k.table.cpu }

/-- The kernel when the processors enter `scheduler`. -/
def Booted (k : Kernel) : Prop := Started k.table ∧ k.lock = none ∧ ∀ c, k.code c = .idle

/-! ## The processors matter to a step only through who runs -/

section Frame

variable {m m' : Machine} {e : Event} {cpu : Nat → Option Slot}

theorem waitRound_cpu {p : Slot} {r : Waited} (h : waitRound m p = (r, m')) :
    waitRound (m.withCpu cpu) p = (r, m'.withCpu cpu) := by
  unfold waitRound Machine.withCpu at *
  dsimp only at *
  split at h <;> rename_i hfind
  · rw [hfind]
    cases h
    rfl
  · rw [hfind]
    dsimp only
    split at h <;> rename_i hkids
    · rw [if_pos hkids]
      cases h
      rfl
    · rw [if_neg hkids]
      cases h
      rfl

theorem allocproc_cpu : allocproc (m.withCpu cpu) =
    (allocproc m).map fun r => (r.1, r.2.withCpu cpu) := by
  unfold allocproc Machine.withCpu
  dsimp only
  generalize List.find? _ _ = found
  cases found <;> rfl

theorem kill_cpu {pid : Int} :
    kill (m.withCpu cpu) pid = ((kill m pid).1, (kill m pid).2.withCpu cpu) := by
  unfold kill Machine.withCpu
  dsimp only
  generalize List.find? _ _ = found
  cases found <;> rfl

theorem abandon_cpu (p : Slot) (qs : List Slot) :
    abandon p qs (m.withCpu cpu) = (abandon p qs m).withCpu cpu := by
  induction qs generalizing m with
  | nil => rfl
  | cons q qs ih =>
    have hone : abandonOne (m.withCpu cpu) p q = (abandonOne m p q).withCpu cpu := by
      unfold abandonOne Machine.withCpu
      dsimp only
      split
      · split <;> rfl
      · rfl
    show abandon p qs (abandonOne (m.withCpu cpu) p q) = _
    rw [hone, ih]
    rfl

theorem exitLocked_cpu (p : Slot) :
    exitLocked (m.withCpu cpu) p = (exitLocked m p).withCpu cpu := by
  have hwake : ∀ ch, wakeup1 (m.withCpu cpu) ch = (wakeup1 m ch).withCpu cpu := fun _ => rfl
  have hparent : (m.withCpu cpu).parent = m.parent := rfl
  unfold exitLocked
  dsimp only
  rw [hwake, hparent, abandon_cpu]
  generalize abandon p (List.finRange 64) _ = m'
  rfl

/-- A step that switches no processor can be taken when more processors run processes. -/
theorem Step.moreCpus (hs : Step m e m') (hsame : m'.cpu = m.cpu)
    (hmore : ∀ c p, m.cpu c = some p → cpu c = some p) :
    Step (m.withCpu cpu) e (m'.withCpu cpu) := by
  have hno : ∀ {c : Nat} {p : Slot}, m.cpu c = some p → Function.update m.cpu c none ≠ m.cpu := by
    intro c p hc heq
    have hnow := congrFun heq c
    rw [Function.update_self, hc] at hnow
    cases hnow
  cases hs with
  | @schedule c p hc hst =>
    have hnow : Function.update m.cpu c (some p) c = m.cpu c := congrFun hsame c
    rw [Function.update_self, hc] at hnow
    cases hnow
  | yield hc => exact absurd hsame (hno hc)
  | sleep hc => exact absurd hsame (hno hc)
  | exitLast hc => exact absurd hsame (hno hc)
  | waitSleeps hc hpc hr =>
    cases waitRound_spec hr
    exact absurd hsame (hno hc)
  | wakeup => exact .wakeup
  | @kill c p pid hc hpc =>
    have hkill : Step (m.withCpu cpu) (.kill pid (Sched.kill (m.withCpu cpu) pid).1)
        (Sched.kill (m.withCpu cpu) pid).2 := .kill (hmore _ _ hc) hpc
    rw [kill_cpu] at hkill
    exact hkill
  | trap hc hpc => exact .trap (hmore _ _ hc) hpc
  | exec hc hpc hd hused => exact .exec (hmore _ _ hc) hpc hd hused
  | forkFull hc hpc hal => exact .forkFull (hmore _ _ hc) hpc (by rw [allocproc_cpu, hal]; rfl)
  | @forkAlloc m₁ c p np hc hpc hal =>
    have hal' : allocproc (m.withCpu cpu) = some (np, m₁.withCpu cpu) := by
      rw [allocproc_cpu, hal]
      rfl
    exact .forkAlloc (m := m.withCpu cpu) (hmore _ _ hc) hpc hal'
  | forkNoStack hc hpc hst => exact .forkNoStack (hmore _ _ hc) hpc hst
  | forkStack hc hpc hst hk hused => exact .forkStack (hmore _ _ hc) hpc hst hk hused
  | forkCopyFails hc hpc hst => exact .forkCopyFails (hmore _ _ hc) hpc hst
  | forkCopy hc hpc hst hd hused => exact .forkCopy (hmore _ _ hc) hpc hst hd hused
  | forkFree hc hpc hst => exact .forkFree (hmore _ _ hc) hpc hst
  | forkUndo hc hpc hst => exact .forkUndo (hmore _ _ hc) hpc hst
  | forkFill hc hpc hst => exact .forkFill (hmore _ _ hc) hpc hst
  | forkDone hc hpc hst => exact .forkDone (hmore _ _ hc) hpc hst
  | exit hc hpc hp => exact .exit (hmore _ _ hc) hpc hp
  | wait hc hpc => exact .wait (hmore _ _ hc) hpc
  | waited hc hpc hr => exact .waited (m := m.withCpu cpu) (hmore _ _ hc) hpc (waitRound_cpu hr)
  | waitFailed hc hpc hr => exact .waitFailed (m := m.withCpu cpu) (hmore _ _ hc) hpc (waitRound_cpu hr)

end Frame

/-! ## The settled table -/

/-- The table as if each hand-over that has begun were complete, and each process the
scheduler has only chosen were not. -/
def Kernel.settled (k : Kernel) : Machine := k.table.withCpu fun c => (k.code c).runs

/-- One processor at most has the lock, and each `c->proc` is as its code says. -/
structure Held (k : Kernel) : Prop where
  holder : ∀ c, (k.code c).holds = true ↔ k.lock = some c
  proc : ∀ c, k.table.cpu c = (k.code c).proc
  chosen : ∀ c p, k.code c = .chosen p → k.table.state p = .runnable
  waiting : ∀ c p, k.code c = .inWait p → k.table.pc p = .wait

section Simulation

variable {k k' : Kernel} {e : Event} {c : Nat}

theorem Booted.held (h : Booted k) : Held k := by
  obtain ⟨⟨_, _, _, _, _, _, htable⟩, hlock, hidle⟩ := h
  refine ⟨fun c => ?_, fun c => ?_, fun c p hc => ?_, fun c p hc => ?_⟩
  · simp [hidle c, hlock, Code.holds]
  · rw [hidle c, htable]
    rfl
  · rw [hidle c] at hc
    cases hc
  · rw [hidle c] at hc
    cases hc

theorem Booted.settled_started (h : Booted k) : Started k.settled := by
  obtain ⟨⟨s, d, used, hs, hd, hne, htable⟩, -, hidle⟩ := h
  refine ⟨s, d, used, hs, hd, hne, ?_⟩
  have hcpu : (fun c => (k.code c).runs) = fun _ => none := by
    funext c
    rw [hidle c]
    rfl
  unfold Kernel.settled
  rw [hcpu, htable]
  rfl

/-- With the lock free no hand-over is under way. -/
theorem Held.settled_eq (h : Held k) (hfree : k.lock = none) : k.settled = k.table := by
  have hcpu : (fun c => (k.code c).runs) = k.table.cpu := by
    funext c
    have hnot := h.holder c
    rw [h.proc c]
    rw [hfree] at hnot
    cases hcode : k.code c <;> simp_all [Code.holds, Code.runs, Code.proc]
  unfold Kernel.settled
  rw [hcpu]
  rfl

theorem settled_update (x : Code) :
    (fun c' => (Function.update k.code c x c').runs)
      = Function.update (fun c' => (k.code c').runs) c x.runs := by
  funext c'
  by_cases hc : c' = c
  · subst hc
    rw [Function.update_self, Function.update_self]
  · rw [Function.update_of_ne hc, Function.update_of_ne hc]

/-- Every step of the kernel is a step of the machine on the settled table, or none. -/
theorem Run.settled (h : Held k) (hr : Run k e k') :
    k'.settled = k.settled ∨ Step k.settled e k'.settled := by
  have hcpu : ∀ {c : Nat} {x : Code}, k.code c = x → k.settled.cpu c = x.runs :=
    fun hcode => congrArg Code.runs hcode
  -- a step after which the table is `m` and processor `c` is at `x`
  have hset : ∀ (m : Machine) (c : Nat) (x : Code) (lock : Option Nat),
      (⟨m, lock, Function.update k.code c x⟩ : Kernel).settled
        = m.withCpu (Function.update k.settled.cpu c x.runs) := by
    intro m c x lock
    unfold Kernel.settled
    rw [settled_update]
    rfl
  have hself : ∀ {c : Nat} {x y : Code}, k.code c = x → y.runs = x.runs →
      Function.update k.settled.cpu c y.runs = k.settled.cpu := by
    intro c x y hcode hy
    rw [hy, ← hcpu hcode]
    exact Function.update_eq_self c k.settled.cpu
  have hstill : ∀ {c : Nat} {x y : Code} {l : Option Nat}, k.code c = x → y.runs = x.runs →
      (⟨k.table, l, Function.update k.code c y⟩ : Kernel).settled = k.settled := by
    intro c x y l hcode hy
    rw [hset, hself hcode hy]
    rfl
  cases hr with
  | acquire _ hcode => exact .inl (hstill hcode rfl)
  | skip hcode _ => exact .inl (hstill hcode rfl)
  | choose hcode _ => exact .inl (hstill (l := k.lock) hcode rfl)
  | resume hcode => exact .inl (hstill hcode rfl)
  | release hcode => exact .inl (hstill hcode rfl)
  | wait _ hcode _ => exact .inl (hstill hcode rfl)
  | leave hcode => exact .inl (hstill hcode rfl)
  | clear hcode => exact .inl (hstill (l := k.lock) hcode rfl)
  | @switch c p hcode =>
    have hruns : (if k.table.asleep p ∧ k.table.pc p = .wait then Code.inWait p
        else Code.resumed p).runs = some p := by split <;> rfl
    right
    rw [hset, hruns]
    exact .schedule (hcpu hcode) (h.chosen c p hcode)
  | yield _ hcode =>
    right
    rw [hset]
    exact .yield (hcpu hcode)
  | sleep _ hcode hpc =>
    right
    rw [hset]
    exact .sleep (hcpu hcode) hpc
  | @exit c p _ hcode hpc =>
    have hlast := Step.exitLast (m := k.settled) (hcpu hcode) hpc
    unfold Kernel.settled at hlast
    rw [exitLocked_cpu] at hlast
    right
    rw [hset]
    generalize exitLocked k.table p = m' at hlast
    exact hlast
  | @waited m' c p z hcode hround =>
    have hstep := Step.waited (m := k.settled) (hcpu hcode) (h.waiting c p hcode)
      (waitRound_cpu hround)
    right
    rw [hset, hself (y := .thread p) hcode rfl]
    exact hstep
  | @waitFailed m' c p hcode hround =>
    have hstep := Step.waitFailed (m := k.settled) (hcpu hcode) (h.waiting c p hcode)
      (waitRound_cpu hround)
    right
    rw [hset, hself (y := .thread p) hcode rfl]
    exact hstep
  | @waitSleeps m' c p hcode hround =>
    have hstep := Step.waitSleeps (m := k.settled) (hcpu hcode) (h.waiting c p hcode)
      (waitRound_cpu hround)
    right
    rw [hset]
    exact hstep
  | call hstep hsame _ _ =>
    right
    refine hstep.moreCpus hsame fun c p hc => ?_
    show (k.code c).runs = some p
    have hfree : (k.code c).free = some p := hc
    cases hcode : k.code c <;> simp_all [Code.free, Code.runs]

/-- Steps without the lock leave alone whom the scheduler may choose and who is in `wait`. -/
theorem Step.unlocked {m m' : Machine} (hc : Control m) (hs : Step m e m') (hwait : e.inWait = false)
    (hfree : ¬ needsLock m e) (q : Slot) :
    (m.state q = .runnable → m'.state q = .runnable) ∧
    (m.state q = .running → m.pc q = .wait → m'.pc q = .wait) := by
  obtain ⟨-, -, hforker, -, -, -⟩ := hc
  cases hs with
  | forkDone _ _ hst => exact absurd hst hfree
  | exitLast | forkAlloc | schedule | yield | sleep | wakeup | kill | forkFull | exit | wait
  | waitSleeps => exact absurd trivial hfree
  | waited | waitFailed => cases hwait
  | _ => grind [Function.update_apply]

theorem Run.held (hc : Control k.settled) (h : Held k) (hr : Run k e k') : Held k' := by
  obtain ⟨hholder, hproc, hchosen, hwaiting⟩ := h
  cases hr with
  | @call m' e hstep hsame hwait hlock =>
    have hmore : ∀ c p, k.threads.cpu c = some p → k.settled.cpu c = some p := by
      intro c p hp
      have hfree : (k.code c).free = some p := hp
      show (k.code c).runs = some p
      cases hcode : k.code c <;> simp_all [Code.free, Code.runs]
    have hsettled := hstep.moreCpus hsame hmore
    -- a processor that has the lock keeps the step from taking it
    have hun : ∀ c, (k.code c).holds = true → ¬ needsLock k.table e := by
      intro c hc hneeds
      rw [hholder c, hlock hneeds] at hc
      cases hc
    refine ⟨hholder, hproc, fun c p hcode => ?_, fun c p hcode => ?_⟩
    · exact (hsettled.unlocked hc hwait (hun c (by rw [hcode]; rfl)) p).1 (hchosen c p hcode)
    · have hrun : k.settled.state p = .running := hc.running c p (congrArg Code.runs hcode)
      exact (hsettled.unlocked hc hwait (hun c (by rw [hcode]; rfl)) p).2 hrun
        (hwaiting c p hcode)
  | waited hcode hround =>
    cases waitRound_spec hround
    unfold reap
    constructor <;> grind [Function.update_apply, Code.holds, Code.proc]
  | waitFailed hcode hround =>
    cases waitRound_spec hround
    constructor <;> grind [Function.update_apply, Code.holds, Code.proc]
  | waitSleeps hcode hround =>
    cases waitRound_spec hround
    unfold sleepOn
    constructor <;> grind [Function.update_apply, Code.holds, Code.proc]
  | sleep _ hcode hpc =>
    unfold sleepOn
    constructor <;> grind [Function.update_apply, Code.holds, Code.proc]
  | @exit c p hfree hcode hpc =>
    have hex := exitLocked_spec (m := k.table) (hc.exiting p hpc)
    generalize exitLocked k.table p = m' at hex
    have hcpu : m'.cpu = k.table.cpu := by rw [hex.eq]
    have hpcs : m'.pc = k.table.pc := by rw [hex.eq]
    constructor <;> grind [Function.update_apply, Code.holds, Code.proc]
  | _ => constructor <;> grind [Function.update_apply, Code.holds, Code.proc]

end Simulation

/-! ## Who runs, and who sleeps -/

/-- A running process has a processor, and a sleeping one a channel. -/
structure Placed (m : Machine) : Prop where
  running : ∀ p, m.state p = .running → ∃ c, m.cpu c = some p
  sleeping : ∀ p, m.state p = .sleeping → m.chan p ≠ none

section Runs

variable {m m' : Machine} {e : Event}

theorem Started.placed (h : Started m) : Placed m := by
  obtain ⟨k, d, used, _, _, _, rfl⟩ := h
  unfold started
  constructor <;> grind [Function.update_apply]

/-- A step that switches no processor and starts no process. -/
theorem Placed.keep (h : Placed m) (hcpu : m'.cpu = m.cpu)
    (hrun : ∀ q, m'.state q = .running → m.state q = .running)
    (hsleep : ∀ q, m'.state q = .sleeping → m'.chan q ≠ none) : Placed m' := by
  refine ⟨fun q hq => ?_, hsleep⟩
  rw [hcpu]
  exact h.running q (hrun q hq)

theorem Placed.leave (h : Placed m) {c : Nat} {p : Slot} (hc : m.cpu c = some p)
    (hcpu : m'.cpu = Function.update m.cpu c none)
    (hrun : ∀ q, m'.state q = .running → q ≠ p ∧ m.state q = .running)
    (hsleep : ∀ q, m'.state q = .sleeping → m'.chan q ≠ none) : Placed m' := by
  refine ⟨fun q hq => ?_, hsleep⟩
  obtain ⟨hne, hold⟩ := hrun q hq
  obtain ⟨c', hc'⟩ := h.running q hold
  have hcc : c' ≠ c := by
    rintro rfl
    exact hne (Option.some.inj (hc'.symm.trans hc))
  exact ⟨c', by rw [hcpu, Function.update_of_ne hcc, hc']⟩

theorem Step.placed (hc : Control m) (h : Placed m) (hs : Step m e m') : Placed m' := by
  obtain ⟨-, -, -, -, -, hexit⟩ := hc
  have hsleep := h.sleeping
  cases hs with
  | @schedule c p hc hst =>
    refine ⟨fun q hq => ?_, by grind [Function.update_apply]⟩
    by_cases hqp : q = p
    · exact ⟨c, by rw [hqp]; exact Function.update_self ..⟩
    · have hold : m.state q = .running := by rwa [← Function.update_of_ne hqp .running m.state]
      obtain ⟨c', hc'⟩ := h.running q hold
      have hcc : c' ≠ c := by
        rintro rfl
        rw [hc] at hc'
        cases hc'
      exact ⟨c', by rw [← hc']; exact Function.update_of_ne hcc ..⟩
  | yield hc =>
    exact h.leave hc rfl (by grind [Function.update_apply]) (by grind [Function.update_apply])
  | sleep hc hpc =>
    unfold sleepOn
    exact h.leave hc rfl (by grind [Function.update_apply]) (by grind [Function.update_apply])
  | @exitLast c p hc hpc =>
    have hex := exitLocked_spec (hexit _ hpc)
    generalize exitLocked m _ = m₁ at hex
    have hwoken := hex.woken
    have hself := hex.self
    have hchan : m₁.chan = m.chan := by rw [hex.eq]
    unfold Woken at hwoken
    exact h.leave hc rfl (by grind) (by grind)
  | waitSleeps hc hpc hr =>
    cases waitRound_spec hr
    unfold sleepOn
    exact h.leave hc rfl (by grind [Function.update_apply]) (by grind [Function.update_apply])
  | kill hc hpc =>
    rcases kill_cases (m := m) with ⟨heq, _⟩ | ⟨q, _, heq⟩
    · rw [heq]
      exact h
    · rw [heq]
      exact h.keep rfl (by grind [Function.update_apply]) (by grind [Function.update_apply])
  | forkAlloc hc hpc hal =>
    obtain ⟨hun, rfl⟩ := allocproc_some hal
    exact h.keep rfl (by grind [Function.update_apply]) (by grind [Function.update_apply])
  | wakeup =>
    unfold wakeup1
    exact h.keep rfl (by grind) (by grind)
  | waited hc hpc hr =>
    cases waitRound_spec hr
    unfold reap
    exact h.keep rfl (by grind [Function.update_apply]) (by grind [Function.update_apply])
  | waitFailed hc hpc hr =>
    cases waitRound_spec hr
    exact h.keep rfl (fun _ hq => hq) hsleep
  | _ => exact h.keep rfl (by grind [Function.update_apply]) (by grind [Function.update_apply])

/-- A slot without a live process gets one from `allocproc` only. -/
theorem Step.gone (hc : Control m) (hs : Step m e m') {p : Slot} (halloc : e ≠ .alloc p)
    (hp : m.state p = .zombie ∨ m.state p = .unused) :
    m'.state p = .zombie ∨ m'.state p = .unused := by
  by_cases hq : e.quiet = true
  · have hstate := (hs.quiet hc hq).state p
    grind [Alive]
  · obtain ⟨c1, c2, c3, c4, c5, c6⟩ := hc
    cases hs with
    | forkAlloc hc hpc hal =>
      obtain ⟨hun, rfl⟩ := allocproc_some hal
      grind [Function.update_apply]
    | exitLast hc hpc =>
      have hex := exitLocked_spec (c6 _ hpc)
      generalize exitLocked m _ = m₁ at hex
      have hwoken := hex.woken
      have hself := hex.self
      unfold Woken at hwoken
      grind
    | waited hc hpc hr =>
      cases waitRound_spec hr
      unfold reap
      grind [Function.update_apply]
    | _ => first | exact absurd rfl hq | grind [Function.update_apply]

end Runs

/-! ## Ownership -/

/-- A process is RUNNING exactly when it is the process of one processor, and a SLEEPING
process has a channel. -/
structure Owners (k : Kernel) : Prop where
  running : ∀ p, k.table.state p = .running ↔ ∃! c, k.table.cpu c = some p
  others : ∀ c p, k.table.cpu c = some p → k.table.state p = .running
  sleeping : ∀ p, k.table.state p = .sleeping → k.table.chan p ≠ none

/-- What holds in every state of the kernel. -/
structure KernelInv (k : Kernel) : Prop where
  held : Held k
  control : Control k.settled
  placed : Placed k.settled

section Kernels

variable {k k' : Kernel} {e : Event} {es : List Event}

theorem Booted.inv (h : Booted k) : KernelInv k :=
  ⟨h.held, h.settled_started.control, h.settled_started.placed⟩

theorem Run.inv (h : KernelInv k) (hr : Run k e k') : KernelInv k' := by
  refine ⟨hr.held h.control h.held, ?_, ?_⟩
  all_goals rcases hr.settled h.held with hsame | hstep
  · exact hsame ▸ h.control
  · exact hstep.control h.control
  · exact hsame ▸ h.placed
  · exact hstep.placed h.control h.placed

theorem KernelInv.owners (h : KernelInv k) (hfree : k.lock = none) : Owners k := by
  have hcontrol := h.control
  have hplaced := h.placed
  rw [h.held.settled_eq hfree] at hcontrol hplaced
  refine ⟨fun p => ⟨fun hrun => ?_, fun hone => ?_⟩, hcontrol.running, hplaced.sleeping⟩
  · obtain ⟨c, hc⟩ := hplaced.running p hrun
    exact ⟨c, hc, fun c' hc' => hcontrol.oneCpu c' c p hc' hc⟩
  · obtain ⟨c, hc, -⟩ := hone
    exact hcontrol.running c p hc

/-- Along a run without `allocproc` for `p`, a dead or free slot stays one. -/
theorem gone_run (h : KernelInv k) {p : Slot}
    (hp : k.table.state p = .zombie ∨ k.table.state p = .unused)
    (hrun : Trace (· = k) Run (fun _ _ => True) es k') (halloc : .alloc p ∉ es) :
    KernelInv k' ∧ (k'.table.state p = .zombie ∨ k'.table.state p = .unused) := by
  induction hrun with
  | base heq =>
    subst heq
    exact ⟨h, hp⟩
  | @next as k₁ k₂ e _ _ hr ih =>
    rw [List.mem_cons, not_or] at halloc
    obtain ⟨hinv, hgone⟩ := ih halloc.2
    refine ⟨hr.inv hinv, ?_⟩
    rcases hr.settled hinv.held with hsame | hstep
    · have hstate : k₂.settled.state = k₁.settled.state := congrArg Machine.state hsame
      show k₂.settled.state p = _ ∨ k₂.settled.state p = _
      rw [hstate]
      exact hgone
    · exact hstep.gone hinv.control (Ne.symm halloc.1) hgone

end Kernels

/-- In every run of the kernel, whenever `ptable.lock` is free the RUNNING processes are
those of the processors, one each, and SLEEPING ones have a channel; and a ZOMBIE or
UNUSED slot does not run again before `allocproc` takes it. -/
theorem scheduler_ownership {es : List Event} {k : Kernel}
    (h : Trace Booted Run (fun _ _ => True) es k) :
    (k.lock = none → Owners k) ∧
    ∀ p es' k', k.table.state p = .zombie ∨ k.table.state p = .unused →
      Trace (· = k) Run (fun _ _ => True) es' k' → .alloc p ∉ es' →
      k'.table.state p ≠ .running := by
  have hinv : KernelInv k := h.invariant (J := fun _ k => KernelInv k) (fun _ hb => hb.inv)
    fun _ _ _ _ hk _ hr => hr.inv hk
  refine ⟨hinv.owners, fun p es' k' hp hrun halloc hrunning => ?_⟩
  have hgone := (gone_run hinv hp hrun halloc).2
  rw [hrunning] at hgone
  rcases hgone with hz | hu
  · cases hz
  · cases hu

/-- Processor 0 switches to the first process, which releases the lock. -/
theorem scheduler_ownership_first : ∃ es k, Trace Booted Run (fun _ _ => True) es k ∧
    k.lock = none ∧ k.table.state 0 = .running ∧ k.table.state 1 = .unused ∧
    ((k.lock = none → Owners k) ∧
      ∀ p es' k', k.table.state p = .zombie ∨ k.table.state p = .unused →
        Trace (· = k) Run (fun _ _ => True) es' k' → .alloc p ∉ es' →
        k'.table.state p ≠ .running) := by
  have hbooted : Booted ⟨started 1 2 ∅, none, fun _ => .idle⟩ :=
    ⟨⟨1, 2, ∅, by decide, by decide, by decide, rfl⟩, rfl, fun _ => rfl⟩
  have hbase : Trace Booted Run (fun _ _ => True) [] _ := Trace.base hbooted
  have hacquired := hbase.next trivial (Run.acquire (c := 0) rfl rfl)
  have hchosen := hacquired.next trivial (Run.choose (c := 0) (p := 0) rfl rfl)
  have hswitched := hchosen.next trivial (Run.switch (c := 0) (p := 0) rfl)
  have hrunning := hswitched.next trivial (Run.resume (c := 0) (p := 0) rfl)
  exact ⟨_, _, hrunning, rfl, rfl, rfl, scheduler_ownership hrunning⟩

end Xv6Sharing.Sched
