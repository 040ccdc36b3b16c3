/-
Xv6Sharing.Log.Invariants — what every step of the log keeps.

`read_head` reads what `write_head` wrote. `Books` says who is in an operation,
and that nobody is while a group is committed; `Headers` says that the log
lists blocks outside its own area only, in memory and on the disk, and that the
cache shows the log area as it is on the disk.
-/
import Mathlib.Data.Finset.Card
import Xv6Sharing.Log.Machine

namespace Xv6Sharing.Log

open Lib

/-! ## The header block -/

theorem read32_lt (buf : Block) (a : Nat) : read32 buf a < 2 ^ 32 := by
  have h0 := (buf a).toNat_lt
  have h1 := (buf (a + 1)).toNat_lt
  have h2 := (buf (a + 2)).toNat_lt
  have h3 := (buf (a + 3)).toNat_lt
  unfold read32
  omega

theorem readHead_lt (buf : Block) :
    (readHead buf).length < 2 ^ 31 ∧ ∀ b ∈ readHead buf, b < 2 ^ 32 := by
  unfold readHead
  split
  · rename_i hlt
    refine ⟨by simpa using hlt, fun b hb => ?_⟩
    obtain ⟨i, -, rfl⟩ := List.mem_map.mp hb
    exact read32_lt buf _
  · exact ⟨by decide, by simp⟩

/-- The loop of `write_head` leaves the words before it alone and stores the others. -/
theorem read32_storeBlocks {bs : List Nat} (i : Nat) (buf : Block) (hbs : ∀ b ∈ bs, b < 2 ^ 32) :
    (∀ a, a + 4 ≤ 4 + 4 * i → read32 (storeBlocks bs i buf) a = read32 buf a) ∧
    ∀ j (h : j < bs.length), read32 (storeBlocks bs i buf) (4 + 4 * (i + j)) = bs[j] := by
  induction bs generalizing i buf with
  | nil => exact ⟨fun a _ => rfl, fun j hj => absurd hj (Nat.not_lt_zero j)⟩
  | cons b bs ih =>
    obtain ⟨hbefore, hafter⟩ := ih (i + 1) (write32 buf (4 + 4 * i) b)
      (fun c hc => hbs c (List.mem_cons_of_mem b hc))
    refine ⟨fun a ha => ?_, fun j hj => ?_⟩
    · rw [storeBlocks, hbefore a (by omega)]
      exact read32_congr fun x hx hx' => write32_apply_of_lt (by omega)
    · cases j with
      | zero =>
        rw [storeBlocks, hbefore _ (by omega), Nat.add_zero, read32_write32]
        exact Nat.mod_eq_of_lt (hbs b List.mem_cons_self)
      | succ j =>
        rw [storeBlocks, show i + (j + 1) = i + 1 + j by omega]
        exact hafter j (by simpa using hj)

theorem readHead_writeHead {bs : List Nat} (buf : Block) (hlen : bs.length < 2 ^ 31)
    (hbs : ∀ b ∈ bs, b < 2 ^ 32) : readHead (writeHead bs buf) = bs := by
  obtain ⟨hbefore, hafter⟩ := read32_storeBlocks 0 (write32 buf 0 bs.length) hbs
  have hn : read32 (writeHead bs buf) 0 = bs.length := by
    unfold writeHead
    rw [hbefore 0 (by omega), read32_write32]
    exact Nat.mod_eq_of_lt (by omega)
  unfold readHead
  rw [hn, if_pos hlen]
  apply List.ext_getElem
  · simp
  · intro i hi hbs'
    rw [List.getElem_map, List.getElem_range]
    have := hafter i hbs'
    rw [Nat.zero_add] at this
    exact this

section

variable {P : Type} [DecidableEq P] {L : LogArea} {base : Nat → Block} {m m' : Machine P}
  {e : Event P}

/-! ## Who is in an operation, and what the log holds -/

structure Books (L : LogArea) (m : Machine P) : Prop where
  count : m.outstanding = m.ops.card
  busy : m.phase ≠ .idle → m.phase ≠ .halted → m.ops = ∅
  down : m.up = false → m.phase ≠ .idle
  checking : ∀ p b, m.checking p = some b →
    m.holder b = some p ∧ p ∈ m.ops ∧ ¬ L.Has b ∧ b < 2 ^ 32
  fresh : ∀ b, m.fresh b = true → ∃ p ∈ m.ops, m.holder b = some p
  start : m.phase = .idle → m.ops = ∅ → m.block = []

/-- The block numbers in the log, in memory and in the header on the disk. -/
structure Headers (L : LogArea) (m : Machine P) : Prop where
  size : 0 < L.size
  length : m.block.length < 2 ^ 31
  block : ∀ b ∈ m.block, ¬ L.Has b ∧ b < 2 ^ 32
  head : ∀ b ∈ readHead (m.disk L.start), ¬ L.Has b
  cached : ∀ b, L.Has b → ∀ d, m.cache b = some d → d = m.disk b

omit [DecidableEq P] in
theorem Started.books (h : Started L base m) : Books L m := by
  obtain ⟨-, -, rfl⟩ := h
  unfold poweredOn
  constructor <;> simp

theorem Books.beginOp (h : Books L m) {p : P} (hph : m.phase = .idle) (hp : p ∉ m.ops) :
    Books L { m with
      outstanding := m.outstanding + 1
      ops := insert p m.ops
      used := Function.update m.used p ∅ } := by
  obtain ⟨h1, h2, h3, h4, h5, h6⟩ := h
  have hcard := Finset.card_insert_of_notMem hp
  constructor <;> grind [Function.update_apply]

theorem Books.endOp (h : Books L m) {p : P} (hup : m.up = true) (hp : p ∈ m.ops)
    (hno : ∀ b, m.holder b ≠ some p) :
    Books L { m with
      outstanding := m.outstanding - 1
      ops := m.ops.erase p
      phase := if m.outstanding - 1 = 0 ∧ m.block ≠ [] then .writeLog 0 else .idle } := by
  obtain ⟨h1, h2, h3, h4, h5, h6⟩ := h
  have hcard := Finset.card_erase_of_mem hp
  have hzero := Finset.card_eq_zero (s := m.ops.erase p)
  constructor <;> grind

theorem Books.append (h : Books L m) {p : P} {b : Nat} (hch : m.checking p = some b) :
    Books L { m with
      block := if b ∈ m.block then m.block else m.block ++ [b]
      dirty := Function.update m.dirty b true
      fresh := Function.update m.fresh b false
      checking := Function.update m.checking p none
      used := Function.update m.used p (insert b (m.used p)) } := by
  obtain ⟨h1, h2, h3, h4, h5, h6⟩ := h
  constructor <;> grind [Function.update_apply]

omit [DecidableEq P] in
/-- A write of the commit, which another one follows. -/
theorem Books.commitWrite (h : Books L m) {b : Nat} {d : Block} {phase : Phase}
    (hidle : m.phase ≠ .idle) (hhalted : m.phase ≠ .halted) (hnext : phase ≠ .idle) :
    Books L { m.bwrite b d with phase } := by
  obtain ⟨h1, h2, h3, h4, h5, h6⟩ := h
  exact ⟨h1, fun _ _ => h2 hidle hhalted, fun _ => hnext, h4, h5, fun heq => absurd heq hnext⟩

omit [DecidableEq P] in
theorem Books.erase (h : Books L m) {b : Nat} {d : Block} :
    Books L { m.bwrite b d with block := [], phase := .idle, up := true } := by
  obtain ⟨h1, h2, h3, h4, h5, h6⟩ := h
  exact ⟨h1, fun hne _ => absurd rfl hne, fun hup => Bool.noConfusion hup, h4, h5,
    fun _ _ => rfl⟩

theorem Step.books (h : Books L m) (hs : Step L m e m') : Books L m' := by
  cases hs with
  | beginOp hup hph hp hroom => exact h.beginOp hph hp
  | endOp hup hph hp hno => exact h.endOp hup hp hno
  | append hup hch hroom => exact h.append hch
  | writeLog hlt hph =>
    exact h.commitWrite (by simp [hph]) (by simp [hph]) (by split <;> simp)
  | commitHead hph => exact h.commitWrite (by simp [hph]) (by simp [hph]) (by simp)
  | install hlt hph =>
    exact h.commitWrite (by simp [hph]) (by simp [hph]) (by split <;> simp)
  | erase hph => exact h.erase
  | crash =>
    unfold poweredOn
    constructor <;> simp
  | _ =>
    obtain ⟨h1, h2, h3, h4, h5, h6⟩ := h
    constructor <;> first | assumption | grind [Function.update_apply]

omit [DecidableEq P] in
theorem Started.headers (h : Started L base m) : Headers L m := by
  obtain ⟨hsize, hhead, rfl⟩ := h
  unfold poweredOn
  constructor <;> simp [hsize, hhead]

omit [DecidableEq P] in
/-- In the log area the cache shows the disk. -/
theorem Headers.content_eq (h : Headers L m) {b : Nat} (hb : L.Has b) : m.content b = m.disk b := by
  unfold Machine.content
  cases hc : m.cache b with
  | none => rfl
  | some d => exact h.cached b hb d hc

omit [DecidableEq P] in
theorem Headers.ne_start (h : Headers L m) {i : Nat} (hi : i < m.block.length) :
    m.block[i] ≠ L.start :=
  fun heq => (h.block _ (List.getElem_mem hi)).1 (heq ▸ start_has h.size)

omit [DecidableEq P] in
/-- A block write keeps them, except for the header it leaves. -/
theorem Headers.bwrite (h : Headers L m) {b : Nat} {d : Block}
    (hhead : b = L.start → ∀ c ∈ readHead d, ¬ L.Has c) : Headers L (m.bwrite b d) := by
  obtain ⟨h1, h2, h3, h4, h5⟩ := h
  unfold Machine.bwrite
  constructor <;> grind [Function.update_apply]

theorem Step.headers (hb : Books L m) (h : Headers L m) (hs : Step L m e m') : Headers L m' := by
  obtain ⟨h1, h2, h3, h4, h5⟩ := id h
  cases hs with
  | bread hup hno => exact ⟨h1, h2, h3, h4, by grind [h.content_eq, Function.update_apply]⟩
  | modify hup hhold hp hch hout hlt => exact ⟨h1, h2, h3, h4, by grind [Function.update_apply]⟩
  | append hup hch hroom =>
    have hout := hb.checking _ _ hch
    have hlog : LOGSIZE < 2 ^ 31 := by decide
    exact ⟨h1, by grind, by grind, h4, h5⟩
  | recycle hup hno hdirty => exact ⟨h1, h2, h3, h4, by grind [Function.update_apply]⟩
  | writeLog hlt hph =>
    obtain ⟨g1, g2, g3, g4, g5⟩ := h.bwrite (fun heq => absurd heq slot_ne_start)
    exact ⟨g1, g2, g3, g4, g5⟩
  | commitHead hph =>
    have hread := readHead_writeHead (m.content L.start) h2 (fun b hb => (h3 b hb).2)
    obtain ⟨g1, g2, g3, g4, g5⟩ := h.bwrite (fun _ c hc => (h3 c (hread ▸ hc)).1)
    exact ⟨g1, g2, g3, g4, g5⟩
  | install hlt hph =>
    obtain ⟨g1, g2, g3, g4, g5⟩ := h.bwrite (fun heq => absurd heq (h.ne_start hlt))
    exact ⟨g1, g2, g3, g4, g5⟩
  | erase hph =>
    have hread : readHead (writeHead [] (m.content L.start)) = [] :=
      readHead_writeHead _ (by decide) (by simp)
    obtain ⟨g1, -, -, g4, g5⟩ := h.bwrite (fun _ c hc => by rw [hread] at hc; cases hc)
    exact ⟨g1, by simp, by simp, g4, g5⟩
  | boot hph =>
    have hdisk := h.content_eq (start_has h1)
    obtain ⟨hlen, hlt⟩ := readHead_lt (m.content L.start)
    exact ⟨h1, hlen, fun b hb => ⟨h4 b (hdisk ▸ hb), hlt b hb⟩, h4, h5⟩
  | crash => exact ⟨h1, by simp [poweredOn], by simp [poweredOn], h4, by simp [poweredOn]⟩
  | _ => exact ⟨h1, h2, h3, h4, h5⟩

end

end Xv6Sharing.Log
