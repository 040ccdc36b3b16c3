/-
Xv6Sharing.Pipes.Theorems — a pipe is a lossless queue, and who may sleep on it.

`fill` and `drain` are proved against the queue of `Lib.Ring` once. The bytes
that went in and came out are read off the steps of the run, so the queue law
holds for runs of any length and any number of wraps of the counters.

Sleepers are another matter. `pipewrite` wakes the readers when it is done and
before it sleeps, and not when it gives up: a killed writer that stores bytes
until the pipe is full returns -1 and leaves a reader asleep beside them.
-/
import Xv6Sharing.Lib.Run
import Xv6Sharing.Pipes.Machine

namespace Xv6Sharing.Pipes

open Lib

/-! ## The two loops and the queue -/

section Loops

variable {p : Pipe} {xs : List UInt8}

/-- The buffer holds the queue `xs`. -/
def Pipe.Holds (p : Pipe) (xs : List UInt8) : Prop :=
  Ring PIPESIZE (2 ^ 32) p.data p.nread p.nwrite xs

theorem Pipe.Holds.full_iff (h : p.Holds xs) : p.Full ↔ xs.length = PIPESIZE :=
  Ring.full_iff h (by decide)

theorem Pipe.Holds.empty_iff (h : p.Holds xs) : p.nread = p.nwrite ↔ xs = [] :=
  Ring.empty_iff h (by decide)

theorem Pipe.Holds.buffered_eq (h : p.Holds xs) : p.buffered = xs :=
  Ring.queued_eq h (by decide) (by decide)

theorem Pipe.Holds.ahead_eq (h : p.Holds xs) : ahead (2 ^ 32) p.nread p.nwrite = xs.length :=
  Ring.ahead_eq h (by decide)

theorem Pipe.Holds.store (h : p.Holds xs) (hfull : ¬ p.Full) (b : UInt8) :
    (p.store b).Holds (xs ++ [b]) := by
  have hlen := Ring.length_le h
  rw [h.full_iff] at hfull
  exact Ring.push h (by decide) (by omega) b

/-- What the loop of `pipewrite` leaves. -/
structure Filled (p : Pipe) (xs bs : List UInt8) (i : Nat) (p' : Pipe) : Prop where
  le : i ≤ bs.length
  holds : p'.Holds (xs ++ bs.take i)
  stopped : i ≠ bs.length → p'.Full
  flags : p'.readopen = p.readopen ∧ p'.writeopen = p.writeopen

theorem fill_spec (h : p.Holds xs) (bs : List UInt8) :
    Filled p xs bs (fill bs p).1 (fill bs p).2 := by
  induction bs generalizing p xs with
  | nil => exact ⟨Nat.le_refl 0, by simpa [fill] using h, fun hne => absurd rfl hne, rfl, rfl⟩
  | cons b bs ih =>
    unfold fill
    split
    · rename_i hfull
      exact ⟨Nat.zero_le _, by simpa using h, fun _ => hfull, rfl, rfl⟩
    · rename_i hfull
      obtain ⟨hle, hholds, hstop, hflags⟩ := ih (h.store hfull b)
      refine ⟨Nat.succ_le_succ hle, ?_, fun hne => hstop ?_, hflags⟩
      · rw [List.take_succ_cons, ← List.singleton_append, ← List.append_assoc]
        exact hholds
      · rw [List.length_cons] at hne
        omega

/-- What the loop of `piperead` leaves. -/
structure Drained (p : Pipe) (xs : List UInt8) (n : Nat) (bs : List UInt8) (p' : Pipe) : Prop where
  split : ∃ rest, xs = bs ++ rest ∧ p'.Holds rest
  empty : n ≠ 0 → bs = [] → xs = []
  flags : p'.readopen = p.readopen ∧ p'.writeopen = p.writeopen

theorem drain_spec (h : p.Holds xs) (n : Nat) : Drained p xs n (drain n p).1 (drain n p).2 := by
  induction n generalizing p xs with
  | zero => exact ⟨⟨xs, rfl, h⟩, fun hne => absurd rfl hne, rfl, rfl⟩
  | succ n ih =>
    unfold drain
    split
    · rename_i hemp
      exact ⟨⟨xs, rfl, h⟩, fun _ _ => h.empty_iff.mp hemp, rfl, rfl⟩
    · rename_i hne
      cases xs with
      | nil => exact absurd (h.empty_iff.mpr rfl) hne
      | cons x xs =>
        obtain ⟨hx, hpop⟩ := Ring.pop h (by decide)
        have hnext : Pipe.Holds { p with nread := (p.nread + 1) % 2 ^ 32 } xs := hpop
        obtain ⟨⟨rest, hrest, hholds⟩, -, hflags⟩ := ih hnext
        refine ⟨⟨rest, ?_, hholds⟩, fun _ hnil => absurd hnil (List.cons_ne_nil _ _), hflags⟩
        show x :: xs = p.data (p.nread % PIPESIZE) :: _ ++ rest
        rw [hx, List.cons_append, ← hrest]

end Loops

/-! ## The bytes of a run -/

section Run

variable {P : Type} [DecidableEq P] {m m' : Machine P} {e : Event P} {es : List (Event P)}

/-- The bytes that `pipewrite` stored in the steps `es`, whose last comes first. -/
def stored : List (Event P) → List UInt8
  | [] => []
  | .write _ _ bytes _ :: es => stored es ++ bytes
  | _ :: es => stored es

/-- The bytes that `piperead` returned in the steps `es`. -/
def delivered : List (Event P) → List UInt8
  | [] => []
  | .read _ _ bytes _ :: es => delivered es ++ bytes
  | _ :: es => delivered es

/-- What came out, and the queue in the buffer after it, is what went in. -/
def Flows (es : List (Event P)) (m : Machine P) : Prop :=
  ∃ xs, m.pipe.Holds xs ∧ delivered es ++ xs = stored es

omit [DecidableEq P] in
theorem Started.flows (h : Started m) : Flows [] m := by
  refine ⟨[], ?_, rfl⟩
  unfold Pipe.Holds
  rw [h.nread, h.nwrite]
  exact Ring.nil (by decide)

/-- The bytes that a section of `pipewrite` stores go to the end of the queue. -/
theorem pipewrite_holds {p : P} {n : Nat} {addr xs : List UInt8} (h : m.pipe.Holds xs) :
    (pipewrite m p n addr).2.2.pipe.Holds (xs ++ addr.take (pipewrite m p n addr).1) := by
  have hfill := (fill_spec h addr).holds
  unfold pipewrite
  dsimp only
  split
  · exact hfill
  · split <;> exact hfill

/-- The bytes that a section of `piperead` returns come from the front of the queue. -/
theorem piperead_holds {p : P} {n : Nat} {xs : List UInt8} (h : m.pipe.Holds xs) :
    ∃ rest, xs = (piperead m p n).1 ++ rest ∧ (piperead m p n).2.2.pipe.Holds rest := by
  unfold piperead
  split
  · split <;> exact ⟨xs, rfl, h⟩
  · exact (drain_spec h n).split

/-- `piperead` returns 0 for `n > 0` only at the end of the stream. -/
theorem piperead_zero {p : P} {n : Nat} {xs : List UInt8} (hxs : m.pipe.Holds xs) (hn : n ≠ 0)
    (h : (piperead m p n).2.1 = some 0) :
    m.pipe.nread = m.pipe.nwrite ∧ m.pipe.writeopen = false := by
  unfold piperead at h
  split at h
  · split at h <;> simp at h
  · rename_i hmore
    have hnil : (drain n m.pipe).1 = [] := by simpa using h
    have hemp := hxs.empty_iff.mpr ((drain_spec hxs n).empty hn hnil)
    exact ⟨hemp, by simpa [hemp] using hmore⟩

theorem Step.flows (h : Flows es m) (hs : Step m e m') : Flows (e :: es) m' := by
  obtain ⟨xs, hxs, heq⟩ := h
  cases hs with
  | write hpc hsl hlen =>
    refine ⟨_, pipewrite_holds hxs, ?_⟩
    show delivered es ++ (xs ++ _) = stored es ++ _
    rw [← List.append_assoc, heq]
  | read hpc hsl =>
    obtain ⟨rest, hrest, hholds⟩ := piperead_holds hxs
    refine ⟨rest, hholds, ?_⟩
    show (delivered es ++ _) ++ rest = stored es
    rw [List.append_assoc, ← hrest, heq]
  | _ => exact ⟨xs, hxs, heq⟩

end Run

/-- A run of the pipe with the steps `es`, the last one first. -/
def Ran {P : Type} [DecidableEq P] (es : List (Event P)) (m : Machine P) : Prop :=
  Trace Started Step (fun _ _ => True) es m

/-- What a lossless queue of at most `PIPESIZE` bytes is, after the steps `es`. -/
structure LosslessFifo {P : Type} [DecidableEq P] (es : List (Event P)) (m : Machine P) :
    Prop where
  fifo : delivered es ++ m.pipe.buffered = stored es
  bound : ahead (2 ^ 32) m.pipe.nread m.pipe.nwrite ≤ PIPESIZE
  zero : ∀ p n bytes m', Step m (.read p n bytes (some 0)) m' → 0 < n →
    m.pipe.nread = m.pipe.nwrite ∧ m.pipe.writeopen = false

/-- A pipe is a lossless queue, for any processes in any interleaving, however often the
counters wrap. -/
theorem pipe_lossless {P : Type} [DecidableEq P] {es : List (Event P)} {m : Machine P}
    (h : Ran es m) : LosslessFifo es m := by
  obtain ⟨xs, hxs, heq⟩ : Flows es m :=
    Trace.invariant (J := Flows) (fun _ hs => hs.flows) (fun _ _ _ _ hi _ hs => hs.flows hi) h
  constructor
  · rw [hxs.buffered_eq]
    exact heq
  · rw [hxs.ahead_eq]
    exact Ring.length_le hxs
  · intro p n bytes m' hs hn
    generalize he : Event.read p n bytes (some 0) = e at hs
    cases hs with
    | read hpc hsl =>
      injection he with hp hn' hb hr
      subst hp hn'
      exact piperead_zero hxs (by omega) hr.symm
    | _ => cases he

/-- One process writes and reads its own pipe. -/
theorem pipe_lossless_self : ∃ es, ∃ m : Machine Unit, Ran es m ∧ stored es = [7] ∧
    LosslessFifo es m := by
  have h₀ : Ran [] (⟨⟨fun _ => 0, 0, 0, true, true⟩, fun _ => .user, fun _ => none,
      fun _ => false⟩ : Machine Unit) := .base ⟨rfl, rfl, rfl, rfl, fun _ => rfl, fun _ => rfl⟩
  have h₁ := Trace.next h₀ trivial (Step.callWrite (p := ()) (n := 1) rfl rfl)
  have h₂ := Trace.next h₁ trivial (Step.write (p := ()) rfl rfl rfl : Step _ (.write () [7] _ _) _)
  exact ⟨_, _, h₂, rfl, pipe_lossless h₂⟩

/-! ## Sleepers -/

section Sleepers

variable {P : Type} [DecidableEq P] {m m' : Machine P} {e : Event P}

/-- A killed writer finds the pipe full, or has room for all that it still has to write. -/
def KilledFits (m : Machine P) : Event P → Prop
  | .write p addr _ _ => m.killed p = true →
      m.pipe.Full ∨ ahead (2 ^ 32) m.pipe.nread m.pipe.nwrite + addr.length ≤ PIPESIZE
  | _ => True

/-- Who sleeps has a reason to. -/
structure Awake (m : Machine P) : Prop where
  reader : ∀ q, m.sleeping q = some .nread →
    m.pipe.nread = m.pipe.nwrite ∧ m.pipe.writeopen = true
  writer : ∀ q, m.sleeping q = some .nwrite → m.pipe.Full ∧ m.pipe.readopen = true
  asleep : ∀ q, m.sleeping q = some .nread → ∃ n, m.pc q = .reading n
  reading : ∀ q n, m.pc q = .reading n → m.pipe.readopen = true

omit [DecidableEq P] in
theorem Started.awake (h : Started m) : Awake m := by
  have hsl := h.sleeping
  have hpc := h.pc
  constructor <;> simp [hsl, hpc]

theorem fill_full {p : Pipe} (h : p.Full) (bs : List UInt8) : fill bs p = (0, p) := by
  cases bs with
  | nil => rfl
  | cons b bs => simp [fill, h]

/-- A section of `pipewrite` that stops short and gives up has stored nothing, or nobody
reads any more. -/
theorem gaveUp {p : P} {n : Nat} {addr : List UInt8} {xs : List UInt8} (hxs : m.pipe.Holds xs)
    (hok : KilledFits m (.write p addr (addr.take (pipewrite m p n addr).1)
      (pipewrite m p n addr).2.1))
    (hshort : (fill addr m.pipe).1 ≠ addr.length)
    (hgive : m.pipe.readopen = false ∨ m.killed p = true) :
    m.pipe.Full ∨ m.pipe.readopen = false := by
  rcases hgive with hro | hkill
  · exact Or.inr hro
  · rcases hok hkill with hfull | hroom
    · exact Or.inl hfull
    · obtain ⟨hle, hholds, hstop, -⟩ := fill_spec hxs addr
      have hlen := hholds.full_iff.mp (hstop hshort)
      rw [List.length_append, List.length_take, Nat.min_eq_left hle] at hlen
      rw [hxs.ahead_eq] at hroom
      omega

/-- A killed writer with more bytes than fit fills the pipe and wakes nobody. -/
theorem pipewrite_killed {p : P} {n : Nat} {addr xs : List UInt8} (hxs : m.pipe.Holds xs)
    (hkill : m.killed p = true) (hlong : PIPESIZE < xs.length + addr.length) :
    (pipewrite m p n addr).2.2.sleeping = m.sleeping ∧ (pipewrite m p n addr).2.2.pipe.Full := by
  obtain ⟨hle, hholds, hstop, -⟩ := fill_spec hxs addr
  have hshort : (fill addr m.pipe).1 ≠ addr.length := by
    intro heq
    have hlen := Ring.length_le hholds
    rw [List.length_append, List.length_take, Nat.min_eq_left hle] at hlen
    omega
  unfold pipewrite
  dsimp only
  rw [if_neg hshort, if_pos (Or.inr hkill)]
  exact ⟨rfl, hstop hshort⟩

theorem Step.awake {xs : List UInt8} (hxs : m.pipe.Holds xs) (h : Awake m) (hs : Step m e m')
    (hok : KilledFits m e) : Awake m' := by
  obtain ⟨h1, h2, h3, h4⟩ := h
  cases hs with
  | @write p n left addr hpc hsl hlen =>
    obtain ⟨-, -, hstop, hro, hwo⟩ := fill_spec hxs addr
    have hkeep : m.pipe.Full → (fill addr m.pipe).2 = m.pipe := fun h => by rw [fill_full h]
    have hgave := gaveUp hxs hok
    unfold pipewrite wakeup sleep
    dsimp only
    split
    · constructor <;> grind [Function.update_apply]
    · split
      · constructor <;> grind [Function.update_apply]
      · constructor <;> grind [Function.update_apply]
  | @read p n hpc hsl =>
    obtain ⟨-, -, hro, hwo⟩ := drain_spec hxs n
    unfold piperead wakeup sleep
    split
    · split <;> constructor <;> grind [Function.update_apply]
    · constructor <;> grind [Function.update_apply]
  | closeWrite hw hno =>
    unfold wakeup
    constructor <;> grind [Pipe.Full]
  | closeRead hr hno =>
    unfold wakeup
    constructor <;> grind [Pipe.Full]
  | _ => constructor <;> grind [Function.update_apply]

end Sleepers

/-- No wakeup is lost: who sleeps has a reason to, and a section that changed a counter
leaves nobody asleep on the other side. -/
structure NoLostWakeup {P : Type} [DecidableEq P] (m : Machine P) : Prop where
  reader : ∀ q, m.sleeping q = some .nread →
    m.pipe.nread = m.pipe.nwrite ∧ m.pipe.writeopen = true
  writer : ∀ q, m.sleeping q = some .nwrite → m.pipe.Full ∧ m.pipe.readopen = true
  wrote : ∀ p addr bytes ret m', Step m (.write p addr bytes ret) m' →
    KilledFits m (.write p addr bytes ret) → bytes ≠ [] → ∀ q, m'.sleeping q ≠ some .nread
  read : ∀ p n bytes ret m', Step m (.read p n bytes ret) m' → bytes ≠ [] →
    ∀ q, m'.sleeping q ≠ some .nwrite

/-- No wakeup is lost in a run in which every killed writer finds the pipe full or has room
for the rest of its bytes. -/
theorem no_lost_wakeup {P : Type} [DecidableEq P] {es : List (Event P)} {m : Machine P}
    (h : Trace Started Step KilledFits es m) : NoLostWakeup m := by
  obtain ⟨⟨xs, hxs, heq⟩, hawake⟩ : Flows es m ∧ Awake m :=
    Trace.invariant (J := fun es m => Flows es m ∧ Awake m) (fun _ hs => ⟨hs.flows, hs.awake⟩)
      (fun _ _ _ _ hi hok hs => ⟨hs.flows hi.1, hs.awake hi.1.choose_spec.1 hi.2 hok⟩) h
  refine ⟨hawake.reader, hawake.writer, fun p addr bytes ret m' hs hok hne q hq => ?_,
    fun p n bytes ret m' hs hne q hq => ?_⟩
  · have hempty := ((hs.awake hxs hawake hok).reader q hq).1
    generalize he : Event.write p addr bytes ret = e at hs
    cases hs with
    | write hpc hsl hlen =>
      injection he with hp haddr hb hr
      have hnil := (pipewrite_holds hxs).empty_iff.mp hempty
      exact hne (hb.trans (List.append_eq_nil_iff.mp hnil).2)
    | _ => cases he
  · have hfull := ((hs.awake hxs hawake trivial).writer q hq).1
    generalize he : Event.read p n bytes ret = e at hs
    cases hs with
    | read hpc hsl =>
      injection he with hp hn hb hr
      obtain ⟨rest, hrest, hholds⟩ := piperead_holds hxs
      have hlen := Ring.length_le hxs
      rw [hrest, List.length_append, hholds.full_iff.mp hfull] at hlen
      exact hne (hb.trans (List.eq_nil_of_length_eq_zero (by omega)))
    | _ => cases he

/-- One process waits for its own pipe. -/
theorem no_lost_wakeup_self : ∃ es, ∃ m : Machine Unit, Trace Started Step KilledFits es m ∧
    m.sleeping () = some .nread ∧ NoLostWakeup m := by
  have h₀ : Trace Started Step KilledFits [] (⟨⟨fun _ => 0, 0, 0, true, true⟩, fun _ => .user,
      fun _ => none, fun _ => false⟩ : Machine Unit) :=
    .base ⟨rfl, rfl, rfl, rfl, fun _ => rfl, fun _ => rfl⟩
  have h₁ := Trace.next (a := Event.internal) h₀ trivial (Step.callRead (p := ()) (n := 1) rfl rfl)
  have h₂ := Trace.next (a := Event.read () 1 [] none) h₁ trivial (Step.read (p := ()) rfl rfl)
  exact ⟨_, _, h₂, rfl, no_lost_wakeup h₂⟩

/-- A reader sleeps, and a killed process is about to write 513 bytes. -/
theorem exists_killed_writer : ∃ es, ∃ m : Machine Bool, Ran es m ∧ m.pipe.Holds [] ∧
    m.sleeping true = some .nread ∧ m.pc false = .writing 513 513 ∧ m.sleeping false = none ∧
    m.killed false = true := by
  have h₀ : Ran [] (⟨⟨fun _ => 0, 0, 0, true, true⟩, fun _ => .user, fun _ => none,
      fun _ => false⟩ : Machine Bool) := .base ⟨rfl, rfl, rfl, rfl, fun _ => rfl, fun _ => rfl⟩
  have h₁ := Trace.next h₀ trivial (Step.callRead (p := true) (n := 1) rfl rfl)
  have h₂ := Trace.next h₁ trivial (Step.read (p := true) rfl rfl)
  have h₃ := Trace.next h₂ trivial (Step.kill (q := false))
  have h₄ := Trace.next h₃ trivial (Step.callWrite (p := false) (n := 513) rfl rfl)
  exact ⟨_, _, h₄, Ring.nil (by decide), rfl, rfl, rfl, rfl⟩

/-- The killed writer fills the pipe and gives up, and the reader sleeps on. -/
theorem reader_left_asleep : ∃ es, ∃ m : Machine Bool, Ran es m ∧ m.sleeping true = some .nread ∧
    m.pipe.Full ∧ m.pipe.nread ≠ m.pipe.nwrite := by
  obtain ⟨es, m, hrun, hxs, hreader, hpc, hwriter, hkill⟩ := exists_killed_writer
  have hlen : (List.replicate 513 (0 : UInt8)).length = 513 := List.length_replicate ..
  generalize List.replicate 513 (0 : UInt8) = addr at hlen
  obtain ⟨hsleep, hfull⟩ := pipewrite_killed (n := 513) hxs hkill
    (show PIPESIZE < [].length + addr.length by rw [hlen]; decide)
  refine ⟨_, _, .next hrun trivial (.write hpc hwriter hlen), ?_, hfull, fun hempty => ?_⟩
  · rw [hsleep]
    exact hreader
  · have hholds : (pipewrite m false 513 addr).2.2.pipe.Holds _ := pipewrite_holds hxs
    have h512 := hholds.full_iff.mp hfull
    rw [hholds.empty_iff.mp hempty] at h512
    cases h512

end Xv6Sharing.Pipes
