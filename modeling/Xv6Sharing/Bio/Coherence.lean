/-
Xv6Sharing.Bio.Coherence — the buffer cache is coherent.

`bget` finds a buffer by walking the list, so the list comes first: it always
holds every buffer once, and a walk is a search of them. Then the counts: a
buffer with `refcnt` 0 is in nobody's hands and can change its block. The last
part is about bytes: what a buffer holds is what was last stored for its block,
unless its holder is changing it, and so is what the disk holds, unless a buffer
of that block is dirty.
-/
import Xv6Sharing.Bio.Machine
import Xv6Sharing.Lib.Refcount
import Xv6Sharing.Lib.Run

namespace Xv6Sharing.Bio

open Lib

section

variable {H D : Type} [DecidableEq H] {m m' : Machine H D} {b : Slot} {xs : List Slot}
  {disk : Nat → D} {es : List (Event H D)} {e : Event H D}

/-! ## The list -/

/-- The links make a circle of `bcache.head` and all buffers, in the order `xs`. -/
def Listed (next prev : Option Slot → Option Slot) (xs : List Slot) : Prop :=
  Circular next prev none (xs.map some) ∧ ∀ b, b ∈ xs

theorem binit_listed : Listed binit.1 binit.2 (List.finRange 30).reverse := by
  have hfold : ∀ (ys zs : List Slot) (l : (Option Slot → Option Slot) × (Option Slot → Option Slot)),
      Circular l.1 l.2 none (zs.map some) → (ys ++ zs).Nodup →
      Circular (ys.foldl (fun l b => insertAfter l.1 l.2 none (some b)) l).1
        (ys.foldl (fun l b => insertAfter l.1 l.2 none (some b)) l).2 none
        ((ys.reverse ++ zs).map some) := by
    intro ys
    induction ys with
    | nil => exact fun zs l h _ => h
    | cons y ys ih =>
      intro zs l h hnodup
      rw [List.cons_append, List.nodup_cons] at hnodup
      have hy : some y ∉ none :: zs.map some := by
        simpa using fun hmem => hnodup.1 (List.mem_append_right ys hmem)
      have hnext := ih (y :: zs) _ (h.insertAfter hy) (by
        rw [List.nodup_append] at hnodup ⊢
        grind)
      rw [List.reverse_cons, List.append_assoc]
      exact hnext
  refine ⟨?_, by simp⟩
  have hlist := hfold (List.finRange 30) [] (fun _ => none, fun _ => none)
    ⟨⟨rfl, rfl⟩, List.nodup_singleton none⟩ (by simpa using List.nodup_finRange 30)
  rwa [List.append_nil] at hlist

theorem Listed.nodup {next prev : Option Slot → Option Slot} (h : Listed next prev xs) : xs.Nodup :=
  List.Nodup.of_map some (List.nodup_cons.mp h.1.2).2

theorem Listed.length {next prev : Option Slot → Option Slot} (h : Listed next prev xs) :
    xs.length ≤ 30 := by
  have hcard := h.nodup.length_le_card
  rwa [Fintype.card_fin] at hcard

theorem Listed.scan {next prev : Option Slot → Option Slot} (h : Listed next prev xs)
    (found : Option Slot → Bool) :
    (scan next none found 31 (next none)).join = xs.find? fun b => found (some b) := by
  have hlen := h.length
  rw [h.1.1.scan_eq (List.nodup_cons.mp h.1.2).1 (by rw [List.length_map]; omega), List.find?_map]
  cases hfind : xs.find? (found ∘ some) with
  | none =>
    rw [show (xs.find? fun b => found (some b)) = none from hfind]
    rfl
  | some b =>
    rw [show (xs.find? fun b => found (some b)) = some b from hfind]
    rfl

theorem Listed.back {next prev : Option Slot → Option Slot} (h : Listed next prev xs) :
    Listed prev next xs.reverse := by
  refine ⟨⟨?_, ?_⟩, fun b => List.mem_reverse.mpr (h.2 b)⟩
  · rw [List.map_reverse]
    exact h.1.1.reverse
  · rw [List.map_reverse]
    exact List.nodup_cons.mpr ⟨by simp, List.nodup_reverse.mpr (List.nodup_cons.mp h.1.2).2⟩

theorem Listed.toFront {next prev : Option Slot → Option Slot} (h : Listed next prev xs) (b : Slot) :
    ∃ ys, Listed
      (insertAfter (unlink next prev (some b)).1 (unlink next prev (some b)).2 none (some b)).1
      (insertAfter (unlink next prev (some b)).1 (unlink next prev (some b)).2 none (some b)).2 ys := by
  obtain ⟨front, rest, rfl⟩ := List.append_of_mem (h.2 b)
  have hnodup := h.nodup
  obtain ⟨hcircle, hall⟩ := h
  rw [List.map_append, List.map_cons] at hcircle
  have hunlinked := hcircle.unlink
  have hfresh : some b ∉ none :: (front.map some ++ rest.map some) := by
    rw [List.nodup_middle, List.nodup_cons, List.mem_append, not_or] at hnodup
    simpa using hnodup.1
  have hinserted := hunlinked.insertAfter hfresh
  rw [← List.map_append] at hinserted
  refine ⟨b :: (front ++ rest), hinserted, fun x => ?_⟩
  have hx := hall x
  simp only [List.mem_append, List.mem_cons] at hx ⊢
  tauto

omit [DecidableEq H] in
/-- What `bget` returns: the buffer of the block, or when there is none a buffer that is not
in use. -/
theorem bget_spec {dev blockno : Nat} (h : Listed m.next m.prev xs)
    (hget : bget m dev blockno = some (b, m')) :
    ((m.buf b).dev = dev ∧ (m.buf b).blockno = blockno ∧
      m' = setBuf m b { m.buf b with refcnt := (m.buf b).refcnt + 1 }) ∨
    ((∀ x, ¬ ((m.buf x).dev = dev ∧ (m.buf x).blockno = blockno)) ∧ (m.buf b).refcnt = 0 ∧
      (m.buf b).dirty = false ∧
      m' = setBuf m b { m.buf b with dev, blockno, valid := false, dirty := false, refcnt := 1 }) := by
  unfold bget at hget
  rw [h.scan, h.back.scan] at hget
  split at hget
  · rename_i hfound
    cases hget
    have htest := List.find?_some hfound
    exact .inl ⟨(of_decide_eq_true htest).1, (of_decide_eq_true htest).2, rfl⟩
  · rename_i hnone
    split at hget
    · rename_i hfound
      cases hget
      have htest := List.find?_some hfound
      refine .inr ⟨fun x hx => ?_, (of_decide_eq_true htest).1, (of_decide_eq_true htest).2, rfl⟩
      exact List.find?_eq_none.mp hnone x (h.2 x) (decide_eq_true hx)
    · cases hget

/-! ## The disk -/

omit [DecidableEq H] in
/-- `iderw` writes a dirty buffer to its block, and reads the block into one that is not. -/
theorem iderw_spec (h : iderw m b = some m') : (m.buf b).dev = 1 ∧
    (((m.buf b).dirty = true ∧
      m' = { setBuf m b { m.buf b with valid := true, dirty := false } with
        disk := Function.update m.disk (m.buf b).blockno (m.buf b).data }) ∨
    ((m.buf b).dirty = false ∧
      m' = setBuf m b { m.buf b with data := m.disk (m.buf b).blockno, valid := true })) := by
  have hback : ∀ x : Ide.Buf D, (fun y => { m.buf y with
      toBuf := Function.update (fun z => (m.buf z).toBuf) b x y }) =
      Function.update m.buf b { m.buf b with toBuf := x } := by
    intro x
    funext y
    by_cases hy : y = b
    · subst hy
      rw [Function.update_self, Function.update_self]
    · rw [Function.update_of_ne hy, Function.update_of_ne hy]
  unfold iderw at h
  split at h
  · cases h
  · rename_i hdev
    refine ⟨not_not.mp hdev, ?_⟩
    unfold Ide.memIderw at h
    dsimp only at h
    split at h
    · cases h
    · split at h
      · cases h
      · split at h
        · rename_i hdirty
          cases h
          refine .inl ⟨hdirty, ?_⟩
          unfold setBuf
          dsimp only at hback ⊢
          rw [hback]
        · rename_i hclean
          cases h
          refine .inr ⟨by simpa using hclean, ?_⟩
          unfold setBuf
          dsimp only at hback ⊢
          rw [hback]

omit [DecidableEq H] in
/-- `brelse` takes one from the count and may move the buffer to the front. -/
theorem brelse_spec (h : Listed m.next m.prev xs) : ∃ ys next prev, Listed next prev ys ∧
    brelse m b = { setBuf m b { m.buf b with refcnt := (m.buf b).refcnt - 1 } with
      next := next, prev := prev } := by
  unfold brelse
  dsimp only
  split
  · obtain ⟨ys, hys⟩ := h.toFront b
    exact ⟨ys, _, _, hys, rfl⟩
  · exact ⟨xs, m.next, m.prev, h, rfl⟩

/-! ## The invariant -/

/-- A call has changed the buffer's bytes and not stored them yet. -/
def Unstored (call : H → Call) (b : Slot) : Prop :=
  ∃ h, call h = .held b false

theorem Unstored.update {call : H → Call} {o : H} {c : Call} (h : Unstored call b)
    (ho : call o ≠ .held b false) : Unstored (Function.update call o c) b := by
  obtain ⟨p, hp⟩ := h
  have hne : p ≠ o := fun heq => ho (heq ▸ hp)
  exact ⟨p, by rw [Function.update_of_ne hne]; exact hp⟩

structure Coherent (disk : Nat → D) (es : List (Event H D)) (m : Machine H D) : Prop where
  listed : ∃ xs, Listed m.next m.prev xs
  counted : Counted (fun h => (m.call h).buf) fun b => (m.buf b).refcnt
  reading : ∀ h b, m.call h = .reading b → m.lock b = some h
  asked : ∀ h b, (m.call h).buf = some b →
    (m.buf b).dev = (m.asked h).1 ∧ (m.buf b).blockno = (m.asked h).2 ∧ (m.buf b).dev ≠ 0
  unique : ∀ b b', (m.buf b).dev ≠ 0 → (m.buf b).dev = (m.buf b').dev →
    (m.buf b).blockno = (m.buf b').blockno → b = b'
  dirty : ∀ b, (m.buf b).dirty = true → (m.buf b).valid = true
  held : ∀ h b stored, m.call h = .held b stored →
    m.lock b = some h ∧ (m.buf b).valid = true ∧ (m.buf b).dev = 1
  cached : ∀ b, (m.buf b).dev ≠ 0 → (m.buf b).valid = true → ¬Unstored m.call b →
    (m.buf b).dev = 1 ∧ (m.buf b).data = lastStored disk es (m.buf b).dev (m.buf b).blockno
  written : ∀ n, m.disk n = lastStored disk es 1 n ∨
    ∃ b, (m.buf b).dev = 1 ∧ (m.buf b).blockno = n ∧ (m.buf b).dirty = true

omit [DecidableEq H] in
theorem Started.listed (h : Started m) : Listed m.next m.prev (List.finRange 30).reverse := by
  rw [show m.next = binit.1 from congrArg Prod.fst h.links,
    show m.prev = binit.2 from congrArg Prod.snd h.links]
  exact binit_listed

omit [DecidableEq H] in
theorem Started.coherent (h : Started m) : Coherent m.disk [] m where
  listed := ⟨_, h.listed⟩
  counted := Counted.zero (fun o => by rw [h.call o]; rfl) h.refcnt
  reading := fun o b ho => by simp [h.call o] at ho
  asked := fun o b ho => by simp [h.call o, Call.buf] at ho
  unique := fun b b' hdev => absurd (h.dev b) hdev
  dirty := fun b hb => by simp [h.clean b] at hb
  held := fun o b stored ho => by simp [h.call o] at ho
  cached := fun b hdev => absurd (h.dev b) hdev
  written := fun n => .inl rfl

/-- The count after `bget` has given buffer `b` to call `h`. -/
theorem Coherent.countTake (h : Coherent disk es m) {o : H} (ho : m.call o = .idle) {x : Buf D}
    (hx : x.refcnt = (m.buf b).refcnt + 1) :
    Counted (fun h => (Function.update m.call o (.waiting b) h).buf)
      fun y => (Function.update m.buf b x y).refcnt := by
  refine (h.counted.take (o := o) (by rw [ho]; rfl) b).congr (fun p => ?_) fun y => ?_
  · simp only [Function.update_apply]
    split <;> rfl
  · simp only [Function.update_apply]
    split
    · exact hx
    · rfl

/-- A step that keeps which buffer each call has. -/
theorem Coherent.countCall (h : Coherent disk es m) {o : H} {c : Call}
    (hc : c.buf = (m.call o).buf) :
    Counted (fun h => (Function.update m.call o c h).buf) fun y => (m.buf y).refcnt := by
  refine h.counted.congr (fun p => ?_) fun y => rfl
  simp only [Function.update_apply]
  split
  · rename_i heq
    rw [heq]
    exact hc
  · rfl

theorem Coherent.countKeep (h : Coherent disk es m) {o : H} {c : Call}
    (hc : c.buf = (m.call o).buf) {x : Buf D} (hx : x.refcnt = (m.buf b).refcnt) :
    Counted (fun h => (Function.update m.call o c h).buf)
      fun y => (Function.update m.buf b x y).refcnt := by
  refine (h.countCall hc).congr (fun p => rfl) fun y => ?_
  simp only [Function.update_apply]
  split
  · rename_i heq
    rw [heq]
    exact hx
  · rfl

theorem Coherent.countDrop (h : Coherent disk es m) {o : H} (ho : m.call o = .releasing b)
    {x : Buf D} (hx : x.refcnt = (m.buf b).refcnt - 1) :
    Counted (fun h => (Function.update m.call o .idle h).buf)
      fun y => (Function.update m.buf b x y).refcnt := by
  refine (h.counted.drop (o := o) (x := b) (by rw [ho]; rfl)).congr (fun p => ?_) fun y => ?_
  · simp only [Function.update_apply]
    split <;> rfl
  · simp only [Function.update_apply]
    split
    · exact hx
    · rfl

omit [DecidableEq H] in
/-- A block whose bytes are not on the disk yet keeps its dirty buffer. -/
theorem Coherent.writtenKeep (h : Coherent disk es m) {x : Buf D}
    (hx : (m.buf b).dirty = true →
      x.dev = (m.buf b).dev ∧ x.blockno = (m.buf b).blockno ∧ x.dirty = true) (n : Nat) :
    m.disk n = lastStored disk es 1 n ∨ ∃ y, (Function.update m.buf b x y).dev = 1 ∧
      (Function.update m.buf b x y).blockno = n ∧ (Function.update m.buf b x y).dirty = true := by
  rcases h.written n with hn | ⟨y, hy⟩
  · exact .inl hn
  · refine .inr ⟨y, ?_⟩
    rw [Function.update_apply]
    split
    · rename_i heq
      subst heq
      obtain ⟨hdev, hblockno, hdirty⟩ := hx hy.2.2
      exact ⟨hdev.trans hy.1, hblockno.trans hy.2.1, hdirty⟩
    · exact hy

/-! ### One lemma per step -/

theorem Coherent.bget (h : Coherent disk es m) {o : H} {dev blockno : Nat} {m₁ : Machine H D}
    (ho : m.call o = .idle) (hdev : dev ≠ 0) (hget : bget m dev blockno = some (b, m₁)) :
    Coherent disk (.internal :: es) { m₁ with
        call := Function.update m.call o (.waiting b)
        asked := Function.update m.asked o (dev, blockno) } := by
  obtain ⟨xs, hxs⟩ := h.listed
  have hinv := h
  obtain ⟨hlisted, hcounted, hreading, hasked, hunique, hdirty, hheld, hcached, hwritten⟩ := h
  have hun := fun y (h : Unstored m.call y) => h.update (o := o) (c := .waiting b) (by simp [ho])
  rcases bget_spec hxs hget with ⟨hd, hb, rfl⟩ | ⟨hnone, hzero, hclean, rfl⟩
  · unfold setBuf
    refine ⟨hlisted, hinv.countTake ho rfl, ?_, ?_, ?_, ?_, ?_, ?_,
      hinv.writtenKeep fun hd => ⟨rfl, rfl, hd⟩⟩ <;>
      grind [Function.update_apply, Call.buf, lastStored]
  · have hfree := hcounted.unowned hzero
    unfold setBuf
    refine ⟨hlisted, hinv.countTake ho (by rw [hzero]), ?_, ?_, ?_, ?_, ?_, ?_,
      hinv.writtenKeep (by simp [hclean])⟩ <;>
      grind [Function.update_apply, Call.buf, lastStored]

theorem Coherent.acquiresleep (h : Coherent disk es m) {o : H} (ho : m.call o = .waiting b)
    (hlock : m.lock b = none) :
    Coherent disk (.internal :: es) { m with
        lock := Function.update m.lock b (some o)
        call := Function.update m.call o (.reading b) } := by
  have hinv := h
  obtain ⟨hlisted, hcounted, hreading, hasked, hunique, hdirty, hheld, hcached, hwritten⟩ := h
  have hun := fun y (h : Unstored m.call y) => h.update (o := o) (c := .reading b) (by simp [ho])
  refine ⟨hlisted, hinv.countCall (by rw [ho]; rfl), ?_, ?_, hunique, hdirty, ?_, ?_, hwritten⟩ <;>
    grind [Function.update_apply, Call.buf, lastStored]

theorem Coherent.bread (h : Coherent disk es m) {o : H} {m₁ : Machine H D}
    (ho : m.call o = .reading b) (hread : bread m b = some m₁) :
    Coherent disk (.bread o (m.asked o).1 (m.asked o).2 (m₁.buf b).data :: es)
        { m₁ with call := Function.update m.call o (.held b true) } := by
  have hinv := h
  obtain ⟨hlisted, hcounted, hreading, hasked, hunique, hdirty, hheld, hcached, hwritten⟩ := h
  have hun := fun y (h : Unstored m.call y) => h.update (o := o) (c := .held b true) (by simp [ho])
  have hb := hasked o b (by rw [ho]; rfl)
  have hmine := hreading o b ho
  have hothers : ¬Unstored m.call b := by
    rintro ⟨p, hp⟩
    have hlock := (hheld p b false hp).1
    grind
  unfold Bio.bread at hread
  split at hread
  · rename_i hvalid
    cases hread
    refine ⟨hlisted, hinv.countCall (by rw [ho]; rfl), ?_, ?_, hunique, hdirty, ?_, ?_, hwritten⟩ <;>
      grind [Function.update_apply, Call.buf, lastStored]
  · rename_i hvalid
    obtain ⟨hdev, ⟨hd, rfl⟩ | ⟨hclean, rfl⟩⟩ := iderw_spec hread
    · exact absurd (hdirty b hd) hvalid
    · unfold setBuf
      have hdisk : m.disk (m.buf b).blockno = lastStored disk es 1 (m.buf b).blockno := by
        rcases hwritten (m.buf b).blockno with hn | ⟨y, hy, hyb, hyd⟩
        · exact hn
        · have heq := hunique y b (by omega) (by omega) hyb
          rw [heq, hclean] at hyd
          cases hyd
      refine ⟨hlisted, hinv.countKeep (by rw [ho]; rfl) rfl, ?_, ?_, ?_, ?_, ?_, ?_,
        hinv.writtenKeep (by simp [hclean])⟩ <;>
        grind [Function.update_apply, Call.buf, lastStored]

theorem Coherent.modify (h : Coherent disk es m) {o : H} {stored : Bool} {data : D}
    (ho : m.call o = .held b stored) :
    Coherent disk (.internal :: es) { setBuf m b { m.buf b with data := data } with
        call := Function.update m.call o (.held b false) } := by
  have hinv := h
  obtain ⟨hlisted, hcounted, hreading, hasked, hunique, hdirty, hheld, hcached, hwritten⟩ := h
  have hun := fun y (hy : y ≠ b) (h : Unstored m.call y) =>
    h.update (o := o) (c := .held b false) (by rw [ho]; grind)
  have hmine : Unstored (Function.update m.call o (.held b false)) b := ⟨o, Function.update_self ..⟩
  have hb := hheld o b stored ho
  unfold setBuf
  refine ⟨hlisted, hinv.countKeep (by rw [ho]; rfl) rfl, ?_, ?_, ?_, ?_, ?_, ?_,
    hinv.writtenKeep fun hd => ⟨rfl, rfl, hd⟩⟩ <;>
    grind [Function.update_apply, Call.buf, lastStored]

theorem Coherent.logWrite (h : Coherent disk es m) {o : H} {stored : Bool}
    (ho : m.call o = .held b stored) :
    Coherent disk (.store (m.buf b).dev (m.buf b).blockno (m.buf b).data :: es)
        { markDirty m b with call := Function.update m.call o (.held b true) } := by
  have hinv := h
  obtain ⟨hlisted, hcounted, hreading, hasked, hunique, hdirty, hheld, hcached, hwritten⟩ := h
  have hun := fun y (hy : y ≠ b) (h : Unstored m.call y) =>
    h.update (o := o) (c := .held b true) (by rw [ho]; grind)
  have hb := hheld o b stored ho
  unfold markDirty setBuf
  refine ⟨hlisted, hinv.countKeep (by rw [ho]; rfl) rfl, ?_, ?_, ?_, ?_, ?_, ?_, fun n => ?_⟩
  iterate 6 grind [Function.update_apply, Call.buf, lastStored]
  rcases hinv.writtenKeep (b := b) (x := { m.buf b with dirty := true })
    (fun _ => ⟨rfl, rfl, rfl⟩) n with hn | hy
  · by_cases hblock : (m.buf b).blockno = n
    · exact .inr ⟨b, by simp [hb, hblock]⟩
    · exact .inl (by simp [lastStored, hblock, hn])
  · exact .inr hy

theorem Coherent.bwrite (h : Coherent disk es m) {o : H} {stored : Bool} {m₁ : Machine H D}
    (ho : m.call o = .held b stored) (hio : iderw (markDirty m b) b = some m₁) :
    Coherent disk (.store (m.buf b).dev (m.buf b).blockno (m.buf b).data :: es)
        { m₁ with call := Function.update m.call o (.held b true) } := by
  have hinv := h
  obtain ⟨hlisted, hcounted, hreading, hasked, hunique, hdirty, hheld, hcached, hwritten⟩ := h
  have hun := fun y (hy : y ≠ b) (h : Unstored m.call y) =>
    h.update (o := o) (c := .held b true) (by rw [ho]; grind)
  have hb := hheld o b stored ho
  obtain ⟨-, ⟨hd, rfl⟩ | ⟨hclean, rfl⟩⟩ := iderw_spec hio
  · unfold markDirty setBuf
    have hbufs : ∀ x y : Buf D, Function.update (Function.update m.buf b x) b y = Function.update m.buf b y :=
      fun x y => Function.update_idem ..
    simp only [hbufs]
    refine ⟨hlisted, hinv.countKeep (by rw [ho]; rfl) ?_, ?_, ?_, ?_, ?_, ?_, ?_, fun n => ?_⟩
    · simp
    iterate 6 grind [Function.update_apply, Call.buf, lastStored]
    by_cases hblock : (m.buf b).blockno = n
    · left
      simp [hblock, lastStored, hb]
    · rcases hwritten n with hn | ⟨y, hy⟩
      · left
        simp [hblock, lastStored, hn, Ne.symm hblock]
      · have hne : y ≠ b := fun heq => hblock (heq ▸ hy.2.1)
        exact .inr ⟨y, by simpa [Function.update_of_ne hne] using hy⟩
  · simp [markDirty, setBuf] at hclean

theorem Coherent.releasesleep (h : Coherent disk es m) {o : H} (ho : m.call o = .held b true) :
    Coherent disk (.internal :: es) { m with
        lock := Function.update m.lock b none
        call := Function.update m.call o (.releasing b) } := by
  have hinv := h
  obtain ⟨hlisted, hcounted, hreading, hasked, hunique, hdirty, hheld, hcached, hwritten⟩ := h
  have hun := fun y (h : Unstored m.call y) => h.update (o := o) (c := .releasing b) (by simp [ho])
  have hb := hheld o b true ho
  refine ⟨hlisted, hinv.countCall (by rw [ho]; rfl), ?_, ?_, hunique, hdirty, ?_, ?_, hwritten⟩ <;>
    grind [Function.update_apply, Call.buf, lastStored]

theorem Coherent.brelse (h : Coherent disk es m) {o : H} (ho : m.call o = .releasing b) :
    Coherent disk (.internal :: es) { brelse m b with call := Function.update m.call o .idle } := by
  obtain ⟨xs, hxs⟩ := h.listed
  have hinv := h
  obtain ⟨hlisted, hcounted, hreading, hasked, hunique, hdirty, hheld, hcached, hwritten⟩ := h
  have hun := fun y (h : Unstored m.call y) => h.update (o := o) (c := .idle) (by simp [ho])
  obtain ⟨ys, next, prev, hys, heq⟩ := brelse_spec (b := b) hxs
  rw [heq]
  unfold setBuf
  refine ⟨⟨ys, hys⟩, hinv.countDrop ho rfl, ?_, ?_, ?_, ?_, ?_, ?_,
    hinv.writtenKeep fun hd => ⟨rfl, rfl, hd⟩⟩ <;>
    grind [Function.update_apply, Call.buf, lastStored]

theorem Step.coherent (h : Coherent disk es m) (hs : Step m e m') : Coherent disk (e :: es) m' := by
  cases hs with
  | bget ho hdev hget => exact h.bget ho hdev hget
  | acquiresleep ho hlock => exact h.acquiresleep ho hlock
  | bread ho hread => exact h.bread ho hread
  | modify ho => exact h.modify ho
  | logWrite ho => exact h.logWrite ho
  | bwrite ho hio => exact h.bwrite ho hio
  | releasesleep ho => exact h.releasesleep ho
  | brelse ho => exact h.brelse ho

theorem Started.coherent_of_trace {m₀ : Machine H D} (h : Started m₀)
    (ht : Trace (· = m₀) Step (fun _ _ => True) es m) : Coherent m₀.disk es m :=
  ht.invariant (J := Coherent m₀.disk) (fun _ heq => heq ▸ h.coherent) fun _ _ _ _ hc _ hs => hs.coherent hc

/-! ## What callers can rely on -/

/-- A step gives another block only to a buffer that nobody has and that is not dirty. -/
theorem Step.sameBlock (h : Coherent disk es m) (hs : Step m e m')
    (hb : 0 < (m.buf b).refcnt ∨ (m.buf b).dirty = true) :
    (m'.buf b).dev = (m.buf b).dev ∧ (m'.buf b).blockno = (m.buf b).blockno := by
  obtain ⟨xs, hxs⟩ := h.listed
  have hset : ∀ (y : Slot) (x : Buf D),
      (b = y → x.dev = (m.buf y).dev ∧ x.blockno = (m.buf y).blockno) →
      (Function.update m.buf y x b).dev = (m.buf b).dev ∧
        (Function.update m.buf y x b).blockno = (m.buf b).blockno := by
    intro y x hx
    rw [Function.update_apply]
    split
    · rename_i heq
      rw [heq]
      exact hx heq
    · exact ⟨rfl, rfl⟩
  cases hs with
  | bget ho hdev hget =>
    rcases bget_spec hxs hget with ⟨-, -, rfl⟩ | ⟨-, hzero, hclean, rfl⟩
    · exact hset _ _ fun _ => ⟨rfl, rfl⟩
    · refine hset _ _ fun heq => ?_
      subst heq
      simp [hzero, hclean] at hb
  | acquiresleep ho hlock => exact ⟨rfl, rfl⟩
  | bread ho hread =>
    unfold Bio.bread at hread
    split at hread
    · cases hread
      exact ⟨rfl, rfl⟩
    · obtain ⟨-, ⟨-, rfl⟩ | ⟨-, rfl⟩⟩ := iderw_spec hread
      · exact hset _ _ fun _ => ⟨rfl, rfl⟩
      · exact hset _ _ fun _ => ⟨rfl, rfl⟩
  | modify ho => exact hset _ _ fun _ => ⟨rfl, rfl⟩
  | logWrite ho => exact hset _ _ fun _ => ⟨rfl, rfl⟩
  | @bwrite o y stored m₁ ho hio =>
    obtain ⟨-, ⟨-, rfl⟩ | ⟨hclean, -⟩⟩ := iderw_spec hio
    · unfold markDirty setBuf
      dsimp only
      rw [Function.update_idem]
      exact hset _ _ fun _ => by simp
    · simp [markDirty, setBuf] at hclean
  | releasesleep ho => exact ⟨rfl, rfl⟩
  | @brelse o y ho =>
    obtain ⟨ys, next, prev, -, heq⟩ := brelse_spec (b := y) hxs
    rw [heq]
    exact hset _ _ fun _ => ⟨rfl, rfl⟩

/-- What a `bread` returns is cached, and nobody is changing it. -/
theorem Step.bread_data (h : Coherent disk es m) {o : H} {dev blockno : Nat} {data : D}
    (hs : Step m (.bread o dev blockno data) m') : data = lastStored disk es dev blockno := by
  have hnext := hs.coherent h
  cases hs with
  | @bread _ b m₁ ho hread =>
    have hheld := hnext.held o b true (Function.update_self ..)
    have hasked := hnext.asked o b (by dsimp only; rw [Function.update_self]; rfl)
    have hothers : ¬Unstored (Function.update m.call o (.held b true)) b := by
      rintro ⟨p, hp⟩
      have hlock := (hnext.held p b false hp).1
      grind [Function.update_self]
    have hdata := (hnext.cached b hasked.2.2 hheld.2.1 hothers).2
    have hsame : m₁.asked = m.asked := by
      unfold Bio.bread at hread
      split at hread
      · cases hread
        rfl
      · obtain ⟨-, ⟨-, rfl⟩ | ⟨-, rfl⟩⟩ := iderw_spec hread <;> rfl
    rw [hasked.1, hasked.2.1, hsame] at hdata
    exact hdata

/-- The buffer cache after the steps `es` from `m₀`: one buffer for a block, a list of all
buffers, no buffer in use or dirty is recycled, and `bread` returns what was last stored. -/
structure CacheLaw (m₀ : Machine H D) (es : List (Event H D)) (m : Machine H D) : Prop where
  single : ∀ b b', (m.buf b).dev ≠ 0 → (m.buf b).dev = (m.buf b').dev →
    (m.buf b).blockno = (m.buf b').blockno → b = b'
  circle : ∃ xs, Listed m.next m.prev xs ∧ xs.Nodup ∧ xs.length = 30
  pinned : ∀ e m' b, Step m e m' → 0 < (m.buf b).refcnt ∨ (m.buf b).dirty = true →
    (m'.buf b).dev = (m.buf b).dev ∧ (m'.buf b).blockno = (m.buf b).blockno
  fresh : ∀ h dev blockno data m', Step m (.bread h dev blockno data) m' →
    data = lastStored m₀.disk es dev blockno

theorem cache_coherent {m₀ : Machine H D} (h : Started m₀)
    (ht : Trace (· = m₀) Step (fun _ _ => True) es m) : CacheLaw m₀ es m := by
  have hinv := h.coherent_of_trace ht
  obtain ⟨xs, hxs⟩ := hinv.listed
  refine ⟨hinv.unique, ⟨xs, hxs, hxs.nodup, ?_⟩, fun e m' b hs hb => hs.sameBlock hinv hb,
    fun o dev blockno data m' hs => hs.bread_data hinv⟩
  have hall : xs.toFinset = Finset.univ := Finset.eq_univ_iff_forall.mpr fun b => List.mem_toFinset.mpr (hxs.2 b)
  rw [← List.toFinset_card_of_nodup hxs.nodup, hall]
  rfl

omit [DecidableEq H] in
/-- The first `bget` takes the last buffer of the list. -/
theorem Started.bget_first (h : Started m) (dev blockno : Nat) (hdev : dev ≠ 0) :
    bget m dev blockno = some (0, setBuf m 0
      { m.buf 0 with dev, blockno, valid := false, dirty := false, refcnt := 1 }) := by
  have hmiss : (List.finRange 30).reverse.find? (fun b => caches m dev blockno (some b)) = none :=
    List.find?_eq_none.mpr fun b _ => by simp [caches, h.dev b, Ne.symm hdev]
  have hfound : (List.finRange 30).find? (fun b => unused m (some b)) = some 0 := by
    rw [List.finRange_succ]
    exact List.find?_cons_of_pos (by simp [unused, h.refcnt, h.clean])
  unfold bget
  rw [h.listed.scan, hmiss, h.listed.back.scan, List.reverse_reverse, hfound]

/-- Block 7 is read, changed to 5, logged and released; a second call gets its buffer. -/
theorem cache_coherent_reread : ∃ (m₀ m : Machine Bool Nat) (es : List (Event Bool Nat)),
    Started m₀ ∧ Trace (· = m₀) Step (fun _ _ => True) es m ∧
    lastStored m₀.disk es 1 7 = 5 ∧ m.call true = .waiting 0 ∧ CacheLaw m₀ es m := by
  let m₀ : Machine Bool Nat := {
    buf := fun _ => ⟨⟨false, false, 0, 0⟩, 0, 0⟩
    next := binit.1
    prev := binit.2
    lock := fun _ => none
    disk := fun _ => 0
    call := fun _ => .idle
    asked := fun _ => (0, 0) }
  have hstarted : Started m₀ := ⟨fun _ => rfl, fun _ => rfl, fun _ => rfl, rfl, fun _ => rfl, fun _ => rfl⟩
  have hbase : Trace (· = m₀) Step (fun _ _ => True) [] m₀ := Trace.base rfl
  have hfirst := hstarted.bget_first 1 7 (by decide)
  have hget := hbase.next trivial (Step.bget (h := false) rfl (by decide) hfirst)
  have hlock := hget.next trivial (Step.acquiresleep (h := false) (b := 0) rfl rfl)
  have hread := hlock.next trivial (Step.bread (h := false) (b := 0) rfl rfl)
  have hmod := hread.next trivial (Step.modify (h := false) (b := 0) (d := 5) rfl)
  have hlog := hmod.next trivial (Step.logWrite (h := false) (b := 0) rfl)
  have hrel := hlog.next trivial (Step.releasesleep (h := false) (b := 0) rfl)
  have hdone := hrel.next trivial (Step.brelse (h := false) (b := 0) rfl)
  have hagain := hdone.next trivial
    (Step.bget (h := true) rfl (by decide) (show bget _ 1 7 = some (0, _) from rfl))
  exact ⟨_, _, _, hstarted, hagain, rfl, rfl, cache_coherent hstarted hagain⟩

end

end Xv6Sharing.Bio
