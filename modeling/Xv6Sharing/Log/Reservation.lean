/-
Xv6Sharing.Log.Reservation — whether the log has room for what it admits.

`begin_op` reserves MAXOPBLOCKS blocks for every operation against LOGSIZE, but
one of the LOGSIZE blocks of the log is its header, and `log_write` panics with
LOGSIZE - 1 blocks in it, also when the block is there already. Three operations
of MAXOPBLOCKS blocks each run into that. With one block less for each operation
the reservation is enough.

The invariant adds up what is in the log and what the operations in progress may
still log. The count of an operation is of distinct blocks, so logging a block a
second time costs nothing.
-/
import Mathlib.Algebra.Order.BigOperators.Group.Finset
import Xv6Sharing.Lib.Run
import Xv6Sharing.Log.Invariants

namespace Xv6Sharing.Log

open Lib

section

variable {P : Type} [DecidableEq P] {L : LogArea} {base : Nat → Block} {m m' : Machine P}
  {e : Event P}

/-- No operation logs more than `k` distinct blocks. -/
def AtMost (k : Nat) (m : Machine P) : Event P → Prop
  | .append p b => (insert b (m.used p)).card ≤ k
  | _ => True

/-- What the operations `ops` may still log, if each logs `k` blocks in all. -/
def claims (k : Nat) (ops : Finset P) (used : P → Finset Nat) : Nat :=
  ∑ p ∈ ops, (k - (used p).card)

omit [DecidableEq P] in
theorem claims_congr {k : Nat} {ops : Finset P} {used used' : P → Finset Nat}
    (h : ∀ p ∈ ops, used' p = used p) : claims k ops used' = claims k ops used :=
  Finset.sum_congr rfl fun p hp => by rw [h p hp]

theorem claims_erase {k : Nat} {ops : Finset P} {used : P → Finset Nat} {p : P} (hp : p ∈ ops) :
    (k - (used p).card) + claims k (ops.erase p) used = claims k ops used :=
  Finset.add_sum_erase ops (fun p => k - (used p).card) hp

theorem claims_begin {k : Nat} {ops : Finset P} {used : P → Finset Nat} {p : P} (hp : p ∉ ops) :
    claims k (insert p ops) (Function.update used p ∅) = k + claims k ops used := by
  have hsame : claims k ops (Function.update used p ∅) = claims k ops used := by
    refine claims_congr fun q hq => Function.update_of_ne ?_ ..
    rintro rfl
    exact hp hq
  unfold claims at hsame ⊢
  rw [Finset.sum_insert hp, hsame, Function.update_self, Finset.card_empty, Nat.sub_zero]

theorem claims_log {k : Nat} {ops : Finset P} {used : P → Finset Nat} {p : P} {s : Finset Nat}
    (hp : p ∈ ops) : claims k ops (Function.update used p s) + (k - (used p).card) =
      claims k ops used + (k - s.card) := by
  have hsame : claims k (ops.erase p) (Function.update used p s) = claims k (ops.erase p) used := by
    refine claims_congr fun q hq => Function.update_of_ne ?_ ..
    exact (Finset.mem_erase.mp hq).1
  have hold : _ = claims k ops used := claims_erase hp
  have hnew : _ = claims k ops (Function.update used p s) := claims_erase hp
  rw [hsame, Function.update_self] at hnew
  omega

/-! ## The reservation -/

/-- The log, and what may still be logged, leave the last block of the log free. -/
structure Reserved (L : LogArea) (m : Machine P) : Prop where
  room : m.block.length + claims 9 m.ops m.used ≤ 28
  used : ∀ p ∈ m.ops, (m.used p).card ≤ 9 ∧ ∀ b ∈ m.used p, b ∈ m.block
  head : (readHead (m.disk L.start)).length ≤ 28
  running : m.phase ≠ .halted

omit [DecidableEq P] in
theorem Started.reserved (h : Started L base m) : Reserved L m := by
  obtain ⟨hsize, hhead, rfl⟩ := h
  unfold poweredOn
  constructor <;> simp [hhead, claims]

/-- `begin_op` admits an operation only if the log can take it and all the others. -/
theorem admitted (hb : Books L m) (hidle : m.phase = .idle)
    (hroom : m.block.length + (m.outstanding + 1) * MAXOPBLOCKS ≤ LOGSIZE) :
    m.block.length + (9 + claims 9 m.ops m.used) ≤ 28 := by
  have hclaims : claims 9 m.ops m.used ≤ m.ops.card * 9 :=
    Finset.sum_le_card_nsmul m.ops _ 9 fun p _ => Nat.sub_le 9 _
  rw [hb.count] at hroom
  unfold LOGSIZE MAXOPBLOCKS at hroom
  by_cases hops : m.ops = ∅
  · -- a new group starts with an empty log
    rw [hb.start hidle hops, hops]
    simp [claims]
  · have hpos := Finset.card_pos.mpr (Finset.nonempty_iff_ne_empty.mpr hops)
    omega

theorem Step.reserved (hb : Books L m) (hh : Headers L m) (hsize : L.size = LOGSIZE)
    (h : Reserved L m) (hs : Step L m e m') (hok : AtMost 9 m e) : Reserved L m' := by
  obtain ⟨h1, h2, h3, h4⟩ := id h
  cases hs with
  | @beginOp p hup hph hp hroom =>
    refine ⟨?_, ?_, h3, h4⟩
    · show m.block.length + claims 9 (insert p m.ops) (Function.update m.used p ∅) ≤ 28
      rw [claims_begin hp]
      exact admitted hb hph hroom
    · grind [Function.update_apply]
  | @endOp p hup hph hp hno =>
    have hsum : _ = claims 9 m.ops m.used := claims_erase hp
    refine ⟨?_, by grind, h3, by grind⟩
    show m.block.length + claims 9 (m.ops.erase p) m.used ≤ 28
    omega
  | endPanics hup hph hp => grind [hb.busy hph h4]
  | checkPanics hup hhold hp hch hno =>
    have hpos := Finset.card_pos.mpr ⟨_, hp⟩
    unfold Machine.NoRoom at hno
    rw [hb.count, hsize] at hno
    unfold LOGSIZE MAXOPBLOCKS at hno
    omega
  | @append p b hup hch hroom =>
    obtain ⟨-, hp, -, -⟩ := hb.checking p b hch
    have hle : (insert b (m.used p)).card ≤ 9 := hok
    have hsum : _ = claims 9 m.ops m.used + (9 - (insert b (m.used p)).card) := claims_log hp
    refine ⟨?_, by grind [Function.update_apply], h3, h4⟩
    show (if b ∈ m.block then m.block else m.block ++ [b]).length +
      claims 9 m.ops (Function.update m.used p (insert b (m.used p))) ≤ 28
    split
    · have := Finset.card_le_card (Finset.subset_insert b (m.used p))
      omega
    · rename_i hnew
      -- a block that is new to the log is new to the operation
      have hcard := Finset.card_insert_of_notMem fun hmem => hnew ((h2 p hp).2 b hmem)
      rw [List.length_append, List.length_singleton]
      omega
  | writeLog hlt hph =>
    refine ⟨h1, h2, ?_, by grind⟩
    show (readHead (Function.update m.disk _ _ L.start)).length ≤ 28
    rw [Function.update_of_ne (Ne.symm slot_ne_start)]
    exact h3
  | commitHead hph =>
    refine ⟨h1, h2, ?_, by simp⟩
    show (readHead (Function.update m.disk _ _ L.start)).length ≤ 28
    rw [Function.update_self, readHead_writeHead _ hh.length fun b hb => (hh.block b hb).2]
    omega
  | install hlt hph =>
    refine ⟨h1, h2, ?_, by grind⟩
    show (readHead (Function.update m.disk _ _ L.start)).length ≤ 28
    rw [Function.update_of_ne (Ne.symm (hh.ne_start hlt))]
    exact h3
  | erase hph =>
    refine ⟨?_, ?_, ?_, by simp⟩
    · show 0 + claims 9 m.ops m.used ≤ 28
      omega
    · have hops := hb.busy (by simp [hph]) h4
      show ∀ p ∈ m.ops, _
      simp [hops]
    · show (readHead (Function.update m.disk _ _ L.start)).length ≤ 28
      rw [Function.update_self, readHead_writeHead _ (by decide) (by simp)]
      decide
  | boot hph =>
    have hops := hb.busy (by simp [hph]) h4
    have hdisk := hh.content_eq (start_has hh.size)
    refine ⟨?_, ?_, h3, by grind⟩
    · show (readHead (m.content L.start)).length + claims 9 m.ops m.used ≤ 28
      rw [hdisk, hops]
      simpa [claims] using h3
    · show ∀ p ∈ m.ops, _
      simp [hops]
  | crash => exact ⟨by simp [poweredOn, claims], by simp [poweredOn], h3, by simp [poweredOn]⟩
  | _ => exact ⟨h1, h2, h3, h4⟩

end

/-! ## Filling the log -/

section

variable {P : Type} [DecidableEq P] {L : LogArea} {base : Nat → Block} {m : Machine P}
  {es : List (Event P)} {k : Nat}

/-- Nobody holds a buffer and nobody is in `log_write`. -/
structure Resting (m : Machine P) : Prop where
  up : m.up = true
  idle : m.phase = .idle
  free : ∀ b, m.holder b = none
  checking : ∀ p, m.checking p = none

/-- What logging the blocks `bs` in the operation of `p` leaves. -/
structure Logged (p : P) (bs : List Nat) (m m' : Machine P) : Prop where
  resting : Resting m'
  block : m'.block = m.block ++ bs
  used : m'.used = Function.update m.used p (m.used p ∪ bs.toFinset)
  same : m'.disk = m.disk ∧ m'.ops = m.ops ∧ m'.outstanding = m.outstanding

theorem log_one (h : Trace (Started L base) (Step L) (AtMost k) es m) (hr : Resting m) {p : P}
    (hp : p ∈ m.ops) {b : Nat} (hout : ¬ L.Has b) (hb : b < 2 ^ 32) (hroom : ¬ m.NoRoom L)
    (hnew : b ∉ m.block) (hk : (m.used p).card + 1 ≤ k) :
    ∃ l m', Trace (Started L base) (Step L) (AtMost k) (l ++ es) m' ∧ Event.commit ∉ l ∧
      Logged p [b] m m' := by
  have hcard : (insert b (m.used p)).card ≤ k := le_trans (Finset.card_insert_le ..) hk
  have h₁ := Trace.next (a := Event.internal) h trivial (Step.bread (p := p) hr.up (hr.free b))
  have h₂ := Trace.next (a := Event.update p b fun _ => 1) h₁ trivial
    (Step.modify hr.up (Function.update_self ..) hp (hr.checking p) hout hb)
  have h₃ := Trace.next (a := Event.internal) h₂ trivial
    (Step.check (b := b) hr.up (Function.update_self ..) hp (hr.checking p) hout hb hroom)
  have h₄ := Trace.next (a := Event.append p b) h₃ hcard
    (Step.append hr.up (Function.update_self ..) (Or.inr (not_le.mp (not_or.mp hroom).1)))
  have h₅ := Trace.next (a := Event.internal) h₄ trivial
    (Step.brelse (p := p) (b := b) hr.up (Function.update_self ..) (Function.update_self ..)
      (Function.update_self ..))
  refine ⟨[.internal, .append p b, .internal, .update p b fun _ => 1, .internal], _, h₅,
    by simp, ⟨hr.up, hr.idle, fun c => ?_, fun q => ?_⟩, ?_, ?_, rfl, rfl, rfl⟩
  · have := hr.free c
    grind [Function.update_apply]
  · have := hr.checking q
    grind [Function.update_apply]
  · exact if_neg hnew
  · show Function.update m.used p (insert b (m.used p)) = _
    congr 1
    ext x
    simp

theorem log_many (h : Trace (Started L base) (Step L) (AtMost k) es m) (hr : Resting m) {p : P}
    (hp : p ∈ m.ops) (hpos : 0 < m.outstanding) {bs : List Nat}
    (hout : ∀ b ∈ bs, ¬ L.Has b ∧ b < 2 ^ 32) (hnew : (m.block ++ bs).Nodup)
    (hlen : m.block.length + bs.length < L.size) (hlog : m.block.length + bs.length ≤ LOGSIZE)
    (hk : (m.used p).card + bs.length ≤ k) :
    ∃ l m', Trace (Started L base) (Step L) (AtMost k) (l ++ es) m' ∧ Event.commit ∉ l ∧
      Logged p bs m m' := by
  induction bs generalizing m es with
  | nil => exact ⟨[], m, h, by simp, hr, by simp, by simp, rfl, rfl, rfl⟩
  | cons b bs ih =>
    rw [List.length_cons] at hlen hlog hk
    have hroom : ¬ m.NoRoom L := by
      unfold Machine.NoRoom
      omega
    have hb : b ∉ m.block := fun hmem =>
      (List.nodup_append.mp hnew).2.2 b hmem b List.mem_cons_self rfl
    obtain ⟨l, m₁, h₁, hl, hr₁, hblock, hused, hdisk, hops, hcount⟩ :=
      log_one h hr hp (hout b List.mem_cons_self).1 (hout b List.mem_cons_self).2 hroom hb (by omega)
    have hcard : (m₁.used p).card ≤ (m.used p).card + 1 := by
      rw [hused, Function.update_self]
      exact le_trans (Finset.card_union_le ..) (by simp)
    obtain ⟨l', m₂, h₂, hl', hr₂, hblock', hused', hdisk', hops', hcount'⟩ :=
      ih h₁ hr₁ (hops ▸ hp) (hcount ▸ hpos) (fun c hc => hout c (List.mem_cons_of_mem b hc))
        (by rw [hblock, List.append_assoc]; exact hnew)
        (by rw [hblock, List.length_append, List.length_singleton]; omega)
        (by rw [hblock, List.length_append, List.length_singleton]; omega) (by omega)
    refine ⟨l' ++ l, m₂, by rw [List.append_assoc]; exact h₂, by simp [hl, hl'], hr₂, ?_, ?_,
      hdisk'.trans hdisk, hops'.trans hops, hcount'.trans hcount⟩
    · rw [hblock', hblock, List.append_assoc]
      rfl
    · rw [hused', hused, Function.update_idem, Function.update_self]
      congr 1
      ext x
      simp

/-- The machine is up, and `ps` have started an operation each. -/
theorem begin_many {ps : List P} (hnodup : ps.Nodup) (hps : ps.length * MAXOPBLOCKS ≤ LOGSIZE)
    (hsize : 0 < L.size) (hbase : readHead (base L.start) = []) :
    ∃ es m, Trace (Started L base) (Step L) (AtMost k) es m ∧ Event.commit ∉ es ∧ Resting m ∧
      m.block = [] ∧ m.ops = ps.toFinset ∧ m.outstanding = ps.length ∧ (∀ p ∈ ps, m.used p = ∅) ∧
      m.disk = Function.update base L.start (writeHead [] (base L.start)) := by
  induction ps with
  | nil =>
    have h₀ : Trace (Started L base) (Step L) (AtMost k) [] (poweredOn base : Machine P) :=
      .base ⟨hsize, hbase, rfl⟩
    have h₁ := Trace.next (a := Event.internal) h₀ trivial (Step.boot rfl)
    have h₂ := Trace.next (a := Event.internal) h₁ trivial (Step.erase (if_pos hbase) rfl)
    exact ⟨_, _, h₂, by simp, ⟨rfl, rfl, fun _ => rfl, fun _ => rfl⟩, rfl, rfl, rfl, by simp, rfl⟩
  | cons p ps ih =>
    rw [List.length_cons] at hps
    obtain ⟨es, m, h, hes, hr, hblock, hops, hcount, hused, hdisk⟩ :=
      ih (List.nodup_cons.mp hnodup).2 (le_trans (Nat.mul_le_mul_right _ (Nat.le_succ _)) hps)
    have hp : p ∉ m.ops := by
      rw [hops]
      simpa using (List.nodup_cons.mp hnodup).1
    refine ⟨_, _, Trace.next (a := Event.begin_op p) h trivial (Step.beginOp hr.up hr.idle hp ?_),
      by simp [hes], ⟨hr.up, hr.idle, hr.free, hr.checking⟩, hblock, ?_, ?_, fun q hq => ?_, hdisk⟩
    · rw [hblock, hcount, List.length_nil, Nat.zero_add]
      exact hps
    · simp [hops]
    · simp [hcount]
    · have := hused q
      grind [Function.update_apply]

end

/-- The log of `mkfs`, and a disk full of zeros. -/
def smallLog : LogArea := ⟨2, LOGSIZE⟩

def zeroDisk : Nat → Block := fun _ _ => 0

/-- Runs of three processes with operations of at most MAXOPBLOCKS blocks. -/
def SmallRun (es : List (Event (Fin 3))) (m : Machine (Fin 3)) : Prop :=
  Trace (Started smallLog zeroDisk) (Step smallLog) (AtMost MAXOPBLOCKS) es m

/-- Three operations have logged the blocks from 100 on, `n` of them. -/
structure Filling (n : Nat) (m : Machine (Fin 3)) : Prop where
  resting : Resting m
  ops : m.ops = {0, 1, 2}
  count : m.outstanding = 3
  block : m.block = List.range' 100 n
  disk : m.disk = Function.update zeroDisk 2 (writeHead [] (zeroDisk 2))

theorem Filling.log {es : List (Event (Fin 3))} {m : Machine (Fin 3)} {n : Nat}
    (h : SmallRun es m) (hf : Filling n m) (p : Fin 3) {k : Nat} (hk : (m.used p).card + k ≤ 10)
    (hn : n + k ≤ 29) : ∃ l m', SmallRun (l ++ es) m' ∧ Event.commit ∉ l ∧ Filling (n + k) m' ∧
      (m'.used p).card ≤ (m.used p).card + k ∧ ∀ q, q ≠ p → m'.used q = m.used q := by
  have hp : ∀ q : Fin 3, q ∈ ({0, 1, 2} : Finset (Fin 3)) := by decide
  have hout : ∀ b ∈ List.range' (100 + n) k, ¬ smallLog.Has b ∧ b < 2 ^ 32 := by
    intro b hb
    rw [List.mem_range'_1] at hb
    exact ⟨fun hlog => by have : b < 2 + 30 := hlog.2; omega, by omega⟩
  have hlen : m.block.length + (List.range' (100 + n) k).length ≤ 29 := by
    rw [hf.block, List.length_range', List.length_range']
    exact hn
  have happ : m.block ++ List.range' (100 + n) k = List.range' 100 (n + k) := by
    rw [hf.block, List.range'_append_1]
  obtain ⟨l, m', h', hl, hr, hblock, hused, hdisk, hops, hcount⟩ :=
    log_many h hf.resting (p := p) (by rw [hf.ops]; exact hp p)
      (by rw [hf.count]; decide) hout (by rw [happ]; exact List.nodup_range')
      (lt_of_le_of_lt hlen (by decide)) (le_trans hlen (by decide))
      (by rw [List.length_range']; exact hk)
  refine ⟨l, m', h', hl, ⟨hr, hops.trans hf.ops, hcount.trans hf.count, hblock.trans happ,
    hdisk.trans hf.disk⟩, ?_, fun q hq => ?_⟩
  · rw [hused, Function.update_self]
    refine le_trans (Finset.card_union_le ..) (Nat.add_le_add_left ?_ _)
    exact le_trans (List.toFinset_card_le _) (by rw [List.length_range'])
  · rw [hused, Function.update_of_ne hq]

theorem exists_filling {x y z : Nat} (hx : x ≤ 10) (hy : y ≤ 10) (hz : z ≤ 10)
    (hsum : x + y + z ≤ 29) : ∃ es m, SmallRun es m ∧ Event.commit ∉ es ∧
      Filling (x + y + z) m ∧ (m.used 1).card ≤ y ∧ (m.used 2).card ≤ z := by
  obtain ⟨es, m, h, hes, hr, hblock, hops, hcount, hused, hdisk⟩ :
      ∃ es m, SmallRun es m ∧ _ ∧ _ ∧ _ ∧ m.ops = [(0 : Fin 3), 1, 2].toFinset ∧ _ ∧ _ ∧ _ :=
    begin_many (by decide) (by decide) (by decide) (by decide)
  have hempty : ∀ p, (m.used p).card = 0 := by
    intro p
    rw [hused p (by decide +revert)]
    rfl
  obtain ⟨l₁, m₁, h₁, hl₁, hf₁, -, hq₁⟩ := Filling.log (n := 0) h
    ⟨hr, hops, hcount, hblock, hdisk⟩ 0 (k := x) (by rw [hempty]; omega) (by omega)
  obtain ⟨l₂, m₂, h₂, hl₂, hf₂, hp₂, hq₂⟩ := Filling.log h₁ hf₁ 1 (k := y)
    (by rw [hq₁ 1 (by decide), hempty]; omega) (by omega)
  obtain ⟨l₃, m₃, h₃, hl₃, hf₃, hp₃, hq₃⟩ := Filling.log h₂ hf₂ 2 (k := z)
    (by rw [hq₂ 2 (by decide), hq₁ 2 (by decide), hempty]; omega) (by omega)
  refine ⟨_, m₃, h₃, by simp [hl₁, hl₂, hl₃, hes], by rw [Nat.zero_add] at hf₃; exact hf₃, ?_, ?_⟩
  · rw [hq₃ 1 (by decide)]
    rwa [hq₁ 1 (by decide), hempty, Nat.zero_add] at hp₂
  · rwa [hq₂ 2 (by decide), hq₁ 2 (by decide), hempty, Nat.zero_add] at hp₃

/-! ## What the reservation is worth -/

/-- The blocks in the log have slots in the log area, and no test of the log has failed. -/
structure LogFits {P : Type} (L : LogArea) (m : Machine P) : Prop where
  running : m.phase ≠ .halted
  slots : ∀ i < m.block.length, L.start < L.slot i ∧ L.slot i < L.start + L.size

end Xv6Sharing.Log
