/-
Xv6Sharing.Log.Recovery — a crash loses whole groups of operations, or nothing.

What should be on the disk is read off the steps of the run: `pending` are the
changes since the last commit or crash, and `durable` is the disk with every
committed group applied. `Recoverable` from the redo-log library ties the disk
to `durable` at all times; `Stage` says how far commit or recovery is, and what
the buffers hold.

This needs the log to fit in its area. `log_write` reads the size of the log
before it takes the lock, so two processes may pass the test together and make
the log one block too long; `commit` then writes the last block past the end of
the log, over the first block of the inodes.
-/
import Xv6Sharing.Log.Reservation

namespace Xv6Sharing.Log

open Lib

/-! ## What should be on the disk -/

section Spec

variable {P : Type}

/-- Block changes, the first one first, applied to a disk. -/
def applyAll (D : Nat → Block) : List (Nat × Block) → Nat → Block
  | [] => D
  | (b, d) :: us => applyAll (Function.update D b d) us

/-- The changes since the last commit or crash; the last step comes first. -/
def pending : List (Event P) → List (Nat × Block)
  | [] => []
  | .update _ b d :: es => pending es ++ [(b, d)]
  | .commit :: _ => []
  | .crash :: _ => []
  | _ :: es => pending es

/-- The disk after the groups that were committed, on top of `base`. -/
def durable (base : Nat → Block) : List (Event P) → Nat → Block
  | [] => base
  | .commit :: es => applyAll (durable base es) (pending es)
  | _ :: es => durable base es

/-- The processes that have begun an operation and not ended it. -/
def inProgress [DecidableEq P] : List (Event P) → Finset P
  | [] => ∅
  | .begin_op p :: es => insert p (inProgress es)
  | .end_op p :: es => (inProgress es).erase p
  | .crash :: _ => ∅
  | _ :: es => inProgress es

theorem applyAll_append (D : Nat → Block) (us : List (Nat × Block)) (b : Nat) (d : Block) :
    applyAll D (us ++ [(b, d)]) = Function.update (applyAll D us) b d := by
  induction us generalizing D with
  | nil => rfl
  | cons u us ih => exact ih _

theorem applyAll_of_notMem {D : Nat → Block} {us : List (Nat × Block)} {b : Nat}
    (h : ∀ u ∈ us, u.1 ≠ b) : applyAll D us b = D b := by
  induction us generalizing D with
  | nil => rfl
  | cons u us ih =>
    rw [applyAll, ih fun v hv => h v (List.mem_cons_of_mem u hv),
      Function.update_of_ne (Ne.symm (h u List.mem_cons_self))]

end Spec

/-! ## How the machine holds it -/

section Invariant

variable {P : Type} {L : LogArea} {D V : Nat → Block} {Q : List (Nat × Block)} {m m' : Machine P}

/-- Every block that is appended finds room in the log area. -/
def Fits (L : LogArea) (m : Machine P) : Event P → Prop
  | .append _ b => b ∈ m.block ∨ m.block.length + 1 < L.size
  | _ => True

/-- Through the buffers a process sees `V`, and what may leave the cache is on the disk. -/
structure InMemory (L : LogArea) (V : Nat → Block) (m : Machine P) : Prop where
  view : ∀ b, ¬ L.Has b → m.content b = V b
  settled : ∀ b, ¬ L.Has b → m.dirty b = false → m.fresh b = false → m.disk b = V b

/-- The buffers show the disk. -/
def Coherent (m : Machine P) : Prop := ∀ b d, m.cache b = some d → d = m.disk b

/-- What the buffers hold while a group is installed, in `commit` or after a crash. -/
def Buffers (L : LogArea) (D : Nat → Block) (m : Machine P) : Prop :=
  if m.up then InMemory L D m else Coherent m

/-- The disk is `D` and its log is empty. -/
def Clean (L : LogArea) (D : Nat → Block) (disk : Nat → Block) : Prop :=
  readHead (disk L.start) = [] ∧ ∀ b, ¬ L.Has b → disk b = D b

/-- How far commit or recovery is. -/
def Stage (L : LogArea) (D : Nat → Block) (Q : List (Nat × Block)) (m : Machine P) : Prop :=
  match m.phase with
  | .idle => InMemory L (applyAll D Q) m ∧ Clean L D m.disk
  | .writeLog tail => m.up = true ∧ InMemory L (applyAll D Q) m ∧ Clean L D m.disk ∧
      ∀ i (h : i < m.block.length), i < tail → m.disk (L.slot i) = applyAll D Q m.block[i]
  | .head => m.up = true ∧ InMemory L (applyAll D Q) m ∧ Clean L D m.disk ∧
      ∀ i (h : i < m.block.length), m.disk (L.slot i) = applyAll D Q m.block[i]
  | .install tail => Q = [] ∧ readHead (m.disk L.start) = m.block ∧
      (∀ i (h : i < m.block.length), i < tail → m.disk m.block[i] = D m.block[i]) ∧
      Buffers L D m
  | .erase => Q = [] ∧ (∀ b, ¬ L.Has b → m.disk b = D b) ∧ Buffers L D m
  | .readHead => Q = [] ∧ m.up = false ∧ Coherent m
  | .halted => m.up = false

structure Durable (L : LogArea) (D : Nat → Block) (Q : List (Nat × Block)) (m : Machine P) :
    Prop where
  recoverable : Recoverable L readHead D m.disk
  room : m.block.length < L.size
  logged : ∀ u ∈ Q, u.1 ∈ m.block ∨ m.fresh u.1 = true
  stage : Stage L D Q m

/-- A step that touches only what the buffers hold. -/
theorem Stage.memory (h : Stage L D Q m) (hup : m.up = true) (hdisk : m'.disk = m.disk)
    (hblock : m'.block = m.block) (hphase : m'.phase = m.phase) (hup' : m'.up = m.up)
    (hmem : ∀ V, InMemory L V m → InMemory L V m') : Stage L D Q m' := by
  unfold Stage Buffers at h ⊢
  rw [hphase]
  cases hp : m.phase <;> simp only [hp, hdisk, hblock, hup', hup, if_true] at h ⊢
  · exact ⟨hmem _ h.1, h.2⟩
  · exact ⟨trivial, hmem _ h.2.1, h.2.2⟩
  · exact ⟨trivial, hmem _ h.2.1, h.2.2⟩
  · exact ⟨h.1, h.2.1, h.2.2.1, hmem _ h.2.2.2⟩
  · exact ⟨h.1, h.2.1, hmem _ h.2.2⟩
  · exact absurd h.2.1 (by decide)
  · exact absurd h (by decide)

/-- A block write of what is in memory anyway. -/
theorem InMemory.bwrite (h : InMemory L V m) {b : Nat} {d : Block} (hd : ¬ L.Has b → d = V b) :
    InMemory L V (m.bwrite b d) := by
  obtain ⟨h1, h2⟩ := h
  unfold Machine.content at h1
  unfold Machine.bwrite
  constructor
  · unfold Machine.content
    grind [Function.update_apply]
  · grind [Function.update_apply]

theorem Buffers.congr (h : Buffers L V m) (hdisk : m'.disk = m.disk) (hcache : m'.cache = m.cache)
    (hdirty : m'.dirty = m.dirty) (hfresh : m'.fresh = m.fresh) (hup : m'.up = m.up) :
    Buffers L V m' := by
  unfold Buffers at h ⊢
  rw [hup]
  split
  · rename_i hu
    rw [if_pos hu] at h
    refine ⟨fun b hb => ?_, ?_⟩
    · unfold Machine.content
      rw [hdisk, hcache]
      exact h.view b hb
    · rw [hdisk, hdirty, hfresh]
      exact h.settled
  · rename_i hu
    rw [if_neg hu] at h
    unfold Coherent
    rw [hdisk, hcache]
    exact h

theorem Buffers.bwrite (h : Buffers L V m) {b : Nat} {d : Block} (hd : ¬ L.Has b → d = V b) :
    Buffers L V (m.bwrite b d) := by
  unfold Buffers at h ⊢
  show if m.up then _ else _
  split
  · rename_i hup
    rw [if_pos hup] at h
    exact h.bwrite hd
  · rename_i hup
    rw [if_neg hup] at h
    unfold Coherent Machine.bwrite at *
    grind [Function.update_apply]

/-- A machine that has recovered shows the disk. -/
theorem Buffers.inMemory (h : Buffers L V m) (hdisk : ∀ b, ¬ L.Has b → m.disk b = V b) :
    InMemory L V m := by
  unfold Buffers at h
  split at h
  · exact h
  · refine ⟨fun b hb => ?_, fun b hb _ _ => hdisk b hb⟩
    unfold Machine.content
    cases hc : m.cache b with
    | none => exact hdisk b hb
    | some d => exact (h b d hc).trans (hdisk b hb)

/-- While an operation is in progress nothing is committed. -/
theorem Durable.idle (h : Durable L D Q m) (hb : Books L m) (hup : m.up = true) {p : P}
    (hp : p ∈ m.ops) :
    m.phase = .idle ∧ InMemory L (applyAll D Q) m ∧ Clean L D m.disk := by
  have hst := h.stage
  unfold Stage at hst
  cases hph : m.phase <;> simp only [hph] at hst
  case idle => exact ⟨rfl, hst⟩
  case halted =>
      rw [hup] at hst
      cases hst
  all_goals
    have hops := hb.busy (by simp [hph]) (by simp [hph])
    rw [hops] at hp
    exact absurd hp (Finset.notMem_empty p)

/-- The cases in which a block changes, in memory or in the log. -/
theorem Durable.modify (h : Durable L D Q m) (hb : Books L m) (hup : m.up = true) {p : P}
    (hp : p ∈ m.ops) (b : Nat) (d : Block) : Durable L D (Q ++ [(b, d)]) { m with
      cache := Function.update m.cache b (some d)
      fresh := Function.update m.fresh b true } := by
  obtain ⟨hph, ⟨hview, hsettled⟩, hclean⟩ := h.idle hb hup hp
  have hlogged := h.logged
  refine ⟨h.recoverable, h.room, by grind [Function.update_apply], ?_⟩
  unfold Stage
  simp only [hph]
  refine ⟨⟨fun c hc => ?_, fun c hc hd hf => ?_⟩, hclean⟩
  · have := hview c hc
    rw [applyAll_append]
    unfold Machine.content at *
    grind [Function.update_apply]
  · rw [applyAll_append]
    have := hsettled c hc hd
    grind [Function.update_apply]

theorem Durable.append (h : Durable L D Q m) (hb : Books L m) (hup : m.up = true) {p : P}
    (hp : p ∈ m.ops) {b : Nat} (hok : b ∈ m.block ∨ m.block.length + 1 < L.size)
    (checking : P → Option Nat) (used : P → Finset Nat) : Durable L D Q { m with
      block := if b ∈ m.block then m.block else m.block ++ [b]
      dirty := Function.update m.dirty b true
      fresh := Function.update m.fresh b false
      checking := checking
      used := used } := by
  obtain ⟨hph, ⟨hview, hsettled⟩, hclean⟩ := h.idle hb hup hp
  have hlogged := h.logged
  have hroom := h.room
  refine ⟨h.recoverable, by grind, by grind [Function.update_apply], ?_⟩
  unfold Stage
  simp only [hph]
  exact ⟨⟨hview, by grind [Function.update_apply]⟩, hclean⟩

/-- The last operation ends: nothing is unlogged. -/
theorem Durable.endOp (h : Durable L D Q m) (hup : m.up = true) (hph : m.phase = .idle) (n : Nat) (ops : Finset P)
    (start : Prop) [Decidable start] : Durable L D Q { m with
      outstanding := n
      ops := ops
      phase := if start then .writeLog 0 else .idle } := by
  have hst := h.stage
  refine ⟨h.recoverable, h.room, h.logged, ?_⟩
  unfold Stage at hst ⊢
  rw [hph] at hst
  split_ifs
  · exact ⟨hup, ⟨hst.1.view, hst.1.settled⟩, hst.2, fun i _ hi => absurd hi (Nat.not_lt_zero i)⟩
  · exact ⟨⟨hst.1.view, hst.1.settled⟩, hst.2⟩

theorem Durable.writeLog (h : Durable L D Q m) (hh : Headers L m) {tail : Nat}
    (hlt : tail < m.block.length) (hph : m.phase = .writeLog tail) :
    Durable L D Q { m.bwrite (L.slot tail) (m.content m.block[tail]) with
      phase := if tail + 1 = m.block.length then .head else .writeLog (tail + 1) } := by
  have hst := h.stage
  unfold Stage at hst
  rw [hph] at hst
  obtain ⟨hup, hmem, ⟨hhead, hclean⟩, hslots⟩ := hst
  have hroom := h.room
  have hin : L.Has (L.slot tail) := slot_has (by omega)
  have hcontent := hmem.view _ (hh.block _ (List.getElem_mem hlt)).1
  have hmem' := hmem.bwrite (d := m.content m.block[tail]) (fun hno => absurd hin hno)
  -- nothing but the slot has changed on the disk
  have hclean' : Clean L D (Function.update m.disk (L.slot tail) (m.content m.block[tail])) := by
    refine ⟨by rw [Function.update_of_ne (Ne.symm slot_ne_start)]; exact hhead, fun b hb => ?_⟩
    rw [Function.update_of_ne (by rintro rfl; exact hb hin)]
    exact hclean b hb
  have hslots' : ∀ i (hi : i < m.block.length), i < tail + 1 →
      Function.update m.disk (L.slot tail) (m.content m.block[tail]) (L.slot i) =
        applyAll D Q m.block[i] := by
    intro i hi hit
    by_cases heq : i = tail
    · subst heq
      rw [Function.update_self]
      exact hcontent
    · have hne : L.slot i ≠ L.slot tail := by
        unfold LogArea.slot
        omega
      rw [Function.update_of_ne hne]
      exact hslots i hi (by omega)
  refine ⟨Recoverable.of_empty hclean'.1 hh.size hclean'.2, hroom, h.logged, ?_⟩
  unfold Stage
  split_ifs with hlast
  · refine ⟨hup, ⟨hmem'.view, hmem'.settled⟩, hclean', fun i hi => hslots' i hi ?_⟩
    rw [hlast]
    exact hi
  · exact ⟨hup, ⟨hmem'.view, hmem'.settled⟩, hclean', hslots'⟩

/-- The header of the group goes to the disk: its changes are durable. -/
theorem Durable.commitHead (h : Durable L D Q m) (hb : Books L m) (hh : Headers L m)
    (hph : m.phase = .head) :
    Durable L (applyAll D Q) [] { m.bwrite L.start (writeHead m.block (m.content L.start)) with
      phase := .install 0 } := by
  have hst := h.stage
  unfold Stage at hst
  rw [hph] at hst
  obtain ⟨hup, hmem, ⟨hhead, hclean⟩, hslots⟩ := hst
  have hread := readHead_writeHead (m.content L.start) hh.length fun b hb => (hh.block b hb).2
  have hin : L.Has L.start := start_has hh.size
  have hmem' := hmem.bwrite (d := writeHead m.block (m.content L.start)) (fun hno => absurd hin hno)
  -- outside the group nothing was changed
  have hsame : ∀ b, ¬ L.Has b → b ∉ m.block → m.disk b = applyAll D Q b := by
    intro b hout hnot
    have hops := hb.busy (by simp [hph]) (by simp [hph])
    have hlogged := h.logged
    have hfresh := hb.fresh
    rw [applyAll_of_notMem (by grind)]
    exact hclean b hout
  refine ⟨Recoverable.write_head hread h.room (fun b hb => (hh.block b hb).1) hslots hsame, h.room,
    by simp, ?_⟩
  unfold Stage
  refine ⟨rfl, ?_, fun i _ hi => absurd hi (Nat.not_lt_zero i), ?_⟩
  · show readHead (Function.update m.disk L.start _ L.start) = m.block
    rw [Function.update_self]
    exact hread
  · unfold Buffers
    exact (if_pos hup).mpr ⟨hmem'.view, hmem'.settled⟩

theorem Durable.install (h : Durable L D Q m) (hh : Headers L m) {tail : Nat}
    (hlt : tail < m.block.length) (hph : m.phase = .install tail) :
    Durable L D Q { m.bwrite m.block[tail] (m.content (L.slot tail)) with
      phase := if tail + 1 = m.block.length then .erase else .install (tail + 1) } := by
  have hst := h.stage
  unfold Stage at hst
  rw [hph] at hst
  obtain ⟨hQ, hhead, hdone, hbuf⟩ := hst
  have hroom := h.room
  have hlt' : tail < (readHead (m.disk L.start)).length := by
    rw [hhead]
    exact hlt
  have hcopy : m.content (L.slot tail) = D m.block[tail] := by
    rw [hh.content_eq (slot_has (by omega)), h.recoverable.logged tail hlt']
    simp only [hhead]
  have hrec : Recoverable L readHead D
      (Function.update m.disk m.block[tail] (m.content (L.slot tail))) := by
    have := h.recoverable.install hlt'
    simp only [hhead] at this
    rw [hh.content_eq (slot_has (by omega))]
    exact this
  have hhead' : readHead (Function.update m.disk m.block[tail] (m.content (L.slot tail)) L.start) =
      m.block := by
    rw [Function.update_of_ne (Ne.symm (hh.ne_start hlt))]
    exact hhead
  have hdone' : ∀ i (hi : i < m.block.length), i < tail + 1 →
      Function.update m.disk m.block[tail] (m.content (L.slot tail)) m.block[i] = D m.block[i] := by
    intro i hi hit
    by_cases heq : m.block[i] = m.block[tail]
    · rw [heq, Function.update_self]
      exact hcopy
    · have hne : i ≠ tail := by
        rintro rfl
        exact heq rfl
      rw [Function.update_of_ne heq]
      exact hdone i hi (by omega)
  have hbuf' := hbuf.bwrite (b := m.block[tail]) (d := m.content (L.slot tail)) (fun _ => hcopy)
  refine ⟨hrec, hroom, h.logged, ?_⟩
  unfold Stage
  split_ifs with hlast
  · refine ⟨hQ, fun b hb => ?_, hbuf'.congr rfl rfl rfl rfl rfl⟩
    by_cases hmem : b ∈ m.block
    · obtain ⟨i, hi, rfl⟩ := List.getElem_of_mem hmem
      exact hdone' i hi (by omega)
    · exact hrec.clean b hb (by rw [hhead']; exact hmem)
  · exact ⟨hQ, hhead', hdone', hbuf'.congr rfl rfl rfl rfl rfl⟩

theorem Durable.erase (h : Durable L D Q m) (hh : Headers L m) (hph : m.phase = .erase) :
    Durable L D Q { m.bwrite L.start (writeHead [] (m.content L.start)) with
      block := []
      phase := .idle
      up := true } := by
  have hst := h.stage
  unfold Stage at hst
  rw [hph] at hst
  obtain ⟨rfl, hdisk, hbuf⟩ := hst
  have hin : L.Has L.start := start_has hh.size
  have hdisk' : Clean L D (Function.update m.disk L.start (writeHead [] (m.content L.start))) := by
    constructor
    · rw [Function.update_self]
      exact readHead_writeHead _ (by decide) (by simp)
    · intro b hb
      rw [Function.update_of_ne (by rintro rfl; exact hb hin)]
      exact hdisk b hb
  have hmem := (hbuf.inMemory hdisk).bwrite (d := writeHead [] (m.content L.start))
    (fun hno => absurd hin hno)
  refine ⟨Recoverable.of_empty hdisk'.1 hh.size hdisk'.2, hh.size, by simp, ?_⟩
  exact ⟨⟨hmem.view, hmem.settled⟩, hdisk'⟩

theorem Durable.boot (h : Durable L D Q m) (hh : Headers L m) (hph : m.phase = .readHead) :
    Durable L D Q { m with
      block := readHead (m.content L.start)
      phase := if readHead (m.content L.start) = [] then .erase else .install 0 } := by
  have hst := h.stage
  unfold Stage at hst
  rw [hph] at hst
  obtain ⟨rfl, hup, hcoh⟩ := hst
  have hstart := hh.content_eq (start_has hh.size)
  have hbuf : Buffers L D m := by
    unfold Buffers
    rw [hup]
    exact hcoh
  rw [hstart]
  refine ⟨h.recoverable, h.recoverable.fits, by simp, ?_⟩
  unfold Stage
  split_ifs with hempty
  · exact ⟨rfl, fun b hb => h.recoverable.clean b hb (by simp [hempty]),
      hbuf.congr rfl rfl rfl rfl rfl⟩
  · exact ⟨rfl, rfl, fun i _ hi => absurd hi (Nat.not_lt_zero i), hbuf.congr rfl rfl rfl rfl rfl⟩

theorem Durable.crash (h : Durable L D Q m) (hh : Headers L m) :
    Durable L D [] (poweredOn m.disk : Machine P) :=
  ⟨h.recoverable, hh.size, by simp, rfl, rfl, fun _ _ hc => by cases hc⟩

theorem Started.durable {base : Nat → Block} (h : Started L base m) : Durable L base [] m := by
  obtain ⟨hsize, hhead, rfl⟩ := h
  exact ⟨Recoverable.of_empty hhead hsize fun _ _ => rfl, hsize, by simp, rfl, rfl,
    fun _ _ hc => by cases hc⟩

end Invariant

section Run

variable {P : Type} [DecidableEq P] {L : LogArea} {base : Nat → Block} {m m' : Machine P}
  {e : Event P} {es : List (Event P)}

theorem Step.keepsDurable (hb : Books L m) (hh : Headers L m)
    (h : Durable L (durable base es) (pending es) m) (hs : Step L m e m') (hok : Fits L m e) :
    Durable L (durable base (e :: es)) (pending (e :: es)) m' := by
  obtain ⟨h1, h2, h3, h4⟩ := id h
  cases hs with
  | beginOp hup hph hp hroom =>
    exact ⟨h1, h2, h3, h4.memory hup rfl rfl rfl rfl fun V hV => ⟨hV.view, hV.settled⟩⟩
  | endOp hup hph hp hno => exact h.endOp hup hph ..
  | endPanics hup hph hp => exact ⟨h1, h2, h3, rfl⟩
  | checkPanics hup hhold hp hch hno => exact ⟨h1, h2, h3, rfl⟩
  | bread hup hno =>
    refine ⟨h1, h2, h3, h4.memory hup rfl rfl rfl rfl fun V hV => ⟨fun b hb => ?_, hV.settled⟩⟩
    have := hV.view b hb
    unfold Machine.content at *
    grind [Function.update_apply]
  | modify hup hhold hp hch hout hlt => exact h.modify hb hup hp ..
  | check hup hhold hp hch hout hlt hroom =>
    exact ⟨h1, h2, h3, h4.memory hup rfl rfl rfl rfl fun V hV => ⟨hV.view, hV.settled⟩⟩
  | append hup hch hroom => exact h.append hb hup (hb.checking _ _ hch).2.1 hok ..
  | brelse hup hhold hch hfresh =>
    exact ⟨h1, h2, h3, h4.memory hup rfl rfl rfl rfl fun V hV => ⟨hV.view, hV.settled⟩⟩
  | @recycle b hup hno hdirty =>
    -- a buffer that nobody holds has no change that is not logged
    have hfresh : m.fresh b = false := by
      have := hb.fresh b
      grind
    refine ⟨h1, h2, h3, h4.memory hup rfl rfl rfl rfl fun V hV => ⟨fun c hc => ?_, hV.settled⟩⟩
    have hview := hV.view c hc
    have hset := hV.settled c hc
    unfold Machine.content at *
    grind [Function.update_apply]
  | writeLog hlt hph => exact h.writeLog hh hlt hph
  | commitHead hph => exact h.commitHead hb hh hph
  | install hlt hph => exact h.install hh hlt hph
  | erase hph => exact h.erase hh hph
  | boot hph => exact h.boot hh hph
  | crash => exact h.crash hh

theorem Step.progress (h : inProgress es = m.ops) (hs : Step L m e m') :
    inProgress (e :: es) = m'.ops := by
  cases hs with
  | @beginOp p hup hph hp hroom =>
    show insert p (inProgress es) = insert p m.ops
    rw [h]
  | @endOp p hup hph hp hno =>
    show (inProgress es).erase p = m.ops.erase p
    rw [h]
  | crash => rfl
  | _ => exact h

end Run

/-! ## Whole runs -/

/-- Recovery leaves what was committed: after the steps `es` a crash and a full recovery
give the disk with every committed group on it and nothing else. A group is committed when
nobody is in an operation, and only operations change blocks. -/
structure CrashAtomic {P : Type} [DecidableEq P] (L : LogArea) (base : Nat → Block)
    (es : List (Event P)) (m : Machine P) : Prop where
  recovered : ∀ b, ¬ L.Has b → recoverFromLog L m.disk b = durable base es b
  complete : ∀ m', Step L m .commit m' → inProgress es = ∅
  owned : ∀ p b d m', Step L m (.update p b d) m' → p ∈ inProgress es

/-- `commit` has copied the first blocks of a log of thirty blocks to the disk. -/
structure Copying (tail : Nat) (m : Machine (Fin 3)) : Prop where
  phase : m.phase = .writeLog tail
  free : ∀ b, m.holder b = none
  block : m.block = List.range' 100 30
  last : m.cache 129 = some fun _ => 1
  head : readHead (m.disk 2) = []

theorem Copying.next {es : List (Event (Fin 3))} {m : Machine (Fin 3)} {tail : Nat}
    (h : SmallRun es m) (hc : Copying tail m) (hlt : tail < 29) :
    ∃ m', SmallRun (.internal :: es) m' ∧ Copying (tail + 1) m' := by
  have hlen : m.block.length = 30 := by rw [hc.block, List.length_range']
  refine ⟨_, Trace.next (a := Event.internal) h trivial
    (Step.writeLog (by omega) hc.phase (hc.free _) (hc.free _)), ?_⟩
  have hslot : smallLog.slot tail = 2 + tail + 1 := rfl
  constructor
  · exact if_neg (by omega)
  · exact hc.free
  · exact hc.block
  · exact (Function.update_of_ne (by omega) ..).trans hc.last
  · show readHead (Function.update m.disk _ _ 2) = []
    rw [Function.update_of_ne (by omega)]
    exact hc.head

theorem Copying.all {es : List (Event (Fin 3))} {m : Machine (Fin 3)} {tail : Nat}
    (h : SmallRun es m) (hes : Event.commit ∉ es) (hc : Copying tail m) (hle : tail ≤ 29) :
    ∃ es' m', SmallRun es' m' ∧ Event.commit ∉ es' ∧ Copying 29 m' := by
  induction hn : 29 - tail generalizing tail es m with
  | zero =>
    have heq : tail = 29 := by omega
    subst heq
    exact ⟨es, m, h, hes, hc⟩
  | succ n ih =>
    obtain ⟨m₁, h₁, hc₁⟩ := hc.next h (by omega)
    exact ih h₁ (by simp [hes]) hc₁ (by omega) (by omega)

/-- The processes 1 and 2 have both seen that one block fits, and are going to append one. -/
structure Racing (m : Machine (Fin 3)) : Prop where
  up : m.up = true
  idle : m.phase = .idle
  holder : m.holder = Function.update (Function.update (fun _ => none) 128 (some 1)) 129 (some 2)
  checking : m.checking = Function.update (Function.update (fun _ => none) 1 (some 128)) 2 (some 129)
  ops : m.ops = {0, 1, 2}
  count : m.outstanding = 3
  block : m.block = List.range' 100 28
  last : m.cache 129 = some fun _ => 1
  head : readHead (m.disk 2) = []
  used : (m.used 1).card ≤ 9 ∧ (m.used 2).card ≤ 9

theorem exists_racing : ∃ es m, SmallRun es m ∧ Event.commit ∉ es ∧ Racing m := by
  obtain ⟨es, m, h, hes, ⟨hr, hops, hcount, hblock, hdisk⟩, hu₁, hu₂⟩ :=
    exists_filling (x := 10) (y := 9) (z := 9) (by decide) (by decide) (by decide) (by decide)
  have hp : ∀ p : Fin 3, p ∈ m.ops := by
    rw [hops]
    decide
  have hroom : ¬ m.NoRoom smallLog := by
    rw [Machine.NoRoom, hblock, List.length_range', hcount]
    decide
  have hholder : m.holder = fun _ => none := funext hr.free
  have hchecking : m.checking = fun _ => none := funext hr.checking
  have h₁ := Trace.next (a := Event.internal) h trivial
    (Step.bread (p := 1) (b := 128) hr.up (hr.free 128))
  have h₂ := Trace.next (a := Event.internal) h₁ trivial
    (Step.bread (p := 2) (b := 129) hr.up (hr.free 129))
  have h₃ := Trace.next (a := Event.update 2 129 fun _ => 1) h₂ trivial
    (Step.modify (b := 129) hr.up rfl (hp 2) (hr.checking 2) (by decide) (by decide))
  have h₄ := Trace.next (a := Event.internal) h₃ trivial
    (Step.check (p := 1) (b := 128) hr.up rfl (hp 1) (hr.checking 1) (by decide) (by decide) hroom)
  have h₅ := Trace.next (a := Event.internal) h₄ trivial
    (Step.check (p := 2) (b := 129) hr.up rfl (hp 2) (hr.checking 2) (by decide) (by decide) hroom)
  refine ⟨_, _, h₅, by simp [hes], hr.up, hr.idle, ?_, ?_, hops, hcount, hblock, rfl, ?_, hu₁, hu₂⟩
  · show Function.update (Function.update m.holder _ _) _ _ = _
    rw [hholder]
  · show Function.update (Function.update m.checking _ _) _ _ = _
    rw [hchecking]
  · show readHead (m.disk 2) = []
    rw [hdisk, Function.update_self]
    exact readHead_writeHead _ (by decide) (by simp)

/-- Both append, and the thirty blocks of the log need a slot behind the log area. -/
theorem exists_overfull : ∃ es m, SmallRun es m ∧ Event.commit ∉ es ∧ Resting m ∧
    m.ops = {0, 1, 2} ∧ m.outstanding = 3 ∧ m.block = List.range' 100 30 ∧
    m.cache 129 = (some fun _ => 1) ∧ readHead (m.disk 2) = [] := by
  obtain ⟨es, m, h, hes, hr⟩ := exists_racing
  have hc₁ : (insert 128 (m.used 1)).card ≤ MAXOPBLOCKS :=
    le_trans (Finset.card_insert_le ..) (Nat.succ_le_succ hr.used.1)
  have hc₂ : (insert 129 (m.used 2)).card ≤ MAXOPBLOCKS :=
    le_trans (Finset.card_insert_le ..) (Nat.succ_le_succ hr.used.2)
  have hblock₁ : (if 128 ∈ m.block then m.block else m.block ++ [128]) = List.range' 100 29 := by
    rw [hr.block]
    decide
  have hblock₂ : (if 129 ∈ List.range' 100 29 then List.range' 100 29
      else List.range' 100 29 ++ [129]) = List.range' 100 30 := by decide
  have hchecking : ∀ p : Fin 3, Function.update (Function.update m.checking 1 none) 2 none p
      = none := by
    rw [hr.checking]
    decide
  have hfree : ∀ b, Function.update (Function.update m.holder 128 none) 129 none b = none := by
    intro b
    rw [hr.holder]
    grind [Function.update_apply]
  have h₁ := Trace.next (a := Event.append 1 128) h hc₁
    (Step.append hr.up (by rw [hr.checking]; rfl)
      (.inr (by rw [hr.block, List.length_range']; decide)))
  have h₂ := Trace.next (a := Event.append 2 129) h₁ hc₂
    (Step.append hr.up (by rw [hr.checking]; rfl)
      (.inr (by show List.length (ite ..) < _; rw [hblock₁, List.length_range']; decide)))
  have h₃ := Trace.next (a := Event.internal) h₂ trivial
    (Step.brelse (p := 1) (b := 128) hr.up (by rw [hr.holder]; rfl) rfl rfl)
  have h₄ := Trace.next (a := Event.internal) h₃ trivial
    (Step.brelse (p := 2) (b := 129) hr.up (by rw [hr.holder]; rfl) rfl rfl)
  refine ⟨_, _, h₄, by simp [hes], ⟨hr.up, hr.idle, hfree, hchecking⟩, hr.ops, hr.count, ?_,
    hr.last, hr.head⟩
  show ite (129 ∈ ite ..) (ite ..) (ite .. ++ [129]) = _
  rw [hblock₁]
  exact hblock₂

/-- The three operations end, and the last one commits. -/
theorem exists_copying : ∃ es m, SmallRun es m ∧ Event.commit ∉ es ∧ Copying 0 m := by
  obtain ⟨es, m, h, hes, hr, hops, hcount, hblock, hlast, hhead⟩ := exists_overfull
  have hne : m.block ≠ [] := by
    rw [hblock]
    decide
  have hfree : ∀ (b : Nat) (p : Fin 3), m.holder b ≠ some p := by
    intro b p
    rw [hr.free b]
    exact nofun
  have h₁ := Trace.next (a := Event.end_op 0) h trivial
    (Step.endOp hr.up hr.idle (by rw [hops]; decide) (hfree · 0))
  have h₂ := Trace.next (a := Event.end_op 1) h₁ trivial
    (Step.endOp hr.up (by rw [hcount]; rfl)
      (show 1 ∈ m.ops.erase 0 by rw [hops]; decide) (hfree · 1))
  have h₃ := Trace.next (a := Event.end_op 2) h₂ trivial
    (Step.endOp hr.up (by rw [hcount]; rfl)
      (show 2 ∈ (m.ops.erase 0).erase 1 by rw [hops]; decide) (hfree · 2))
  refine ⟨_, _, h₃, by simp [hes], ?_, hr.free, hblock, hlast, hhead⟩
  show (if m.outstanding - 1 - 1 - 1 = 0 ∧ m.block ≠ [] then Phase.writeLog 0 else _) = _
  rw [hcount]
  exact if_pos ⟨rfl, hne⟩

theorem durable_of_notMem {P : Type} {base : Nat → Block} {es : List (Event P)}
    (h : Event.commit ∉ es) : durable base es = base := by
  induction es with
  | nil => rfl
  | cons e es ih =>
    have hes : Event.commit ∉ es := fun hmem => h (List.mem_cons_of_mem e hmem)
    cases e with
    | commit => exact absurd List.mem_cons_self h
    | _ => exact ih hes

end Xv6Sharing.Log
