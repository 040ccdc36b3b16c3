/-
Xv6Sharing.Ide.Refinement — the queued driver does what the memory disk does.

The invariant has three parts: the queue, whose buffers are not synced and have
a process waiting for each; the lists of buffers requested, started, transferred
and completed so far, which differ by what is in the queue; and the memory disk,
which is at the same state but for a transfer that `ideintr` has not taken over.
-/
import Xv6Sharing.Ide.Machine
import Xv6Sharing.Lib.Run

namespace Xv6Sharing.Ide

open Lib

section

variable {P B D : Type} [DecidableEq P] [DecidableEq B] {m m' : Machine P B D}
  {s s₀ : MemDisk B D} {bs moved : List B} {b : B} {es : List (Event P B D)} {e : Event P B D}

/-- What the device does for the queue `bs`, and how far the memory disk `s` is: `moved` are
the buffers whose block was transferred and that are not completed. -/
inductive Serving (m : Machine P B D) (s : MemDisk B D) : List B → List B → Prop
  | idle : m.device = .ready → s = ⟨m.disk, m.buf⟩ → Serving m s [] []
  | busy {b : B} {bs : List B} : m.device = .busy b (m.buf b).command →
      (m.buf b).blockno < FSSIZE → s = ⟨m.disk, m.buf⟩ → Serving m s (b :: bs) []
  | done {b : B} {bs : List B} {data : Option D} : m.device = .done b data →
      s = ⟨m.disk, Function.update m.buf b ((m.buf b).complete data)⟩ → Serving m s (b :: bs) [b]

structure Queued (m : Machine P B D) (bs : List B) : Prop where
  linked : Linked m.qnext m.idequeue bs
  nodup : bs.Nodup
  waiting : ∀ b ∈ bs, ∃ p, m.pc p = some b
  todo : ∀ b ∈ bs, ¬ (m.buf b).Synced

structure IdeInv (s₀ : MemDisk B D) (es : List (Event P B D)) (m : Machine P B D)
    (s : MemDisk B D) (bs moved : List B) : Prop where
  queue : Queued m bs
  serving : Serving m s bs moved
  run : MemRun s₀ es s
  requests : requested es = completed es ++ bs
  starts : started es = completed es ++ bs.take 1
  transfers : transferred es = completed es ++ moved

omit [DecidableEq P] in
theorem Serving.congr (h : Serving m s bs moved) (hdevice : m'.device = m.device)
    (hdisk : m'.disk = m.disk) (hbuf : m'.buf = m.buf) : Serving m' s bs moved := by
  cases h with
  | idle hdev hs => exact .idle (hdevice.trans hdev) (by rw [hs, hdisk, hbuf])
  | busy hdev hrange hs =>
    exact .busy (by rw [hdevice, hdev, hbuf]) (by rw [hbuf]; exact hrange)
      (by rw [hs, hdisk, hbuf])
  | done hdev hs => exact .done (hdevice.trans hdev) (by rw [hs, hdisk, hbuf])

omit [DecidableEq P] in
/-- Requests behind the first do not concern the device. -/
theorem Serving.append {x : B} {xs : List B} (h : Serving m s (x :: xs) moved) (ys : List B) :
    Serving m s (x :: xs ++ ys) moved := by
  cases h with
  | busy hdev hrange hs => exact .busy hdev hrange hs
  | done hdev hs => exact .done hdev hs

/-! ## The calls -/

omit [DecidableEq P] [DecidableEq B] in
theorem idestart_some (h : idestart m b = some m') :
    (m.buf b).blockno < FSSIZE ∧ m' = { m with device := .busy b (m.buf b).command } := by
  unfold idestart at h
  split at h
  · cases h
  · rename_i hrange
    cases h
    exact ⟨Nat.lt_of_not_le hrange, rfl⟩

omit [DecidableEq P] [DecidableEq B] in
theorem Queued.notMem (h : Queued m bs) (hfree : ∀ q, m.pc q ≠ some b) : b ∉ bs := by
  intro hmem
  obtain ⟨q, hq⟩ := h.waiting b hmem
  exact hfree q hq

omit [DecidableEq P] [DecidableEq B] in
theorem Queued.isNone_iff (h : Queued m bs) : m.idequeue.isNone = true ↔ bs = [] := by
  have hlinked := h.linked
  cases bs with
  | nil => simp [show m.idequeue = none from hlinked]
  | cons x xs => simp [hlinked.1]

theorem appendBuf_queued [Fintype B] {p : P} (h : Queued m bs) (hp : m.pc p = none)
    (hfree : ∀ q, m.pc q ≠ some b) (htodo : ¬ (m.buf b).Synced) :
    Queued (appendBuf m p b) (bs ++ [b]) := by
  have hb := h.notMem hfree
  have hwaits : ∀ r x, m.pc r = some x → (appendBuf m p b).pc r = some x := by
    intro r x hr
    have hrp : r ≠ p := by
      rintro rfl
      rw [hp] at hr
      cases hr
    rw [← hr]
    exact Function.update_of_ne hrp ..
  refine ⟨h.linked.enqueue h.nodup hb h.nodup.length_le_card, ?_, fun x hx => ?_, fun x hx => ?_⟩
  · exact List.Nodup.append h.nodup (List.nodup_singleton b) (by simpa using hb)
  · rcases List.mem_append.mp hx with hold | hnew
    · obtain ⟨r, hr⟩ := h.waiting x hold
      exact ⟨r, hwaits r x hr⟩
    · rw [List.mem_singleton.mp hnew]
      exact ⟨p, Function.update_self ..⟩
  · rcases List.mem_append.mp hx with hold | hnew
    · exact h.todo x hold
    · rw [List.mem_singleton.mp hnew]
      exact htodo

/-- `iderw` appends the buffer, and starts the device when the queue was empty. -/
theorem iderw_spec [Fintype B] {p : P} (h : Queued m bs) (hserv : Serving m s bs moved)
    (hp : m.pc p = none) (hfree : ∀ q, m.pc q ≠ some b) (hr : iderw m p b = some m') :
    Queued m' (bs ++ [b]) ∧ Serving m' s (bs ++ [b]) moved := by
  have hb := h.notMem hfree
  unfold iderw at hr
  split at hr
  · cases hr
  · rename_i htodo
    have hqueued := appendBuf_queued h hp hfree htodo
    cases bs with
    | nil =>
      cases hserv with
      | idle hdev hs =>
        rw [if_pos hqueued.linked.1] at hr
        obtain ⟨hrange, rfl⟩ := idestart_some hr
        exact ⟨⟨hqueued.linked, hqueued.nodup, hqueued.waiting, hqueued.todo⟩,
          .busy rfl hrange hs⟩
    | cons x xs =>
      have hhead : (appendBuf m p b).idequeue = some x := hqueued.linked.1
      have hne : ¬ (appendBuf m p b).idequeue = some b := by
        rw [hhead]
        rintro heq
        cases heq
        exact hb List.mem_cons_self
      rw [if_neg hne] at hr
      cases hr
      exact ⟨hqueued, (hserv.append [b]).congr rfl rfl rfl⟩

omit [DecidableEq P] in
/-- What the device transfers is what memide.c does for the buffer. -/
theorem transfer_spec {data : Option D} {disk : Nat → D} (htodo : ¬ (m.buf b).Synced)
    (hrange : (m.buf b).blockno < FSSIZE)
    (hdata : ((m.buf b).dirty = true ∧ disk = Function.update m.disk (m.buf b).blockno (m.buf b).data)
      ∨ ((m.buf b).dirty = false ∧ disk = m.disk ∧ data = some (m.disk (m.buf b).blockno))) :
    memIderw ⟨m.disk, m.buf⟩ b
      = some ⟨disk, Function.update m.buf b ((m.buf b).complete data)⟩ := by
  unfold memIderw
  dsimp only
  rw [if_neg htodo, if_neg (Nat.not_le_of_lt hrange)]
  rcases hdata with ⟨hdirty, rfl⟩ | ⟨hclean, rfl, rfl⟩
  · rw [if_pos hdirty]
    unfold Buf.complete
    rw [if_pos hdirty]
  · unfold Buf.complete
    rw [if_neg (by simp [hclean]), if_neg (by simp [hclean]), ← hclean]
    rfl

omit [DecidableEq P] in
/-- `ideintr` completes the first buffer of the queue and starts the next. -/
theorem ideintr_spec {data : Option D} (h : Queued m (b :: bs))
    (hs : s = ⟨m.disk, Function.update m.buf b ((m.buf b).complete data)⟩)
    (hr : ideintr m data = some m') :
    Queued m' bs ∧ Serving m' s bs [] ∧ m.idequeue = some b ∧ m'.idequeue.toList = bs.take 1 := by
  obtain ⟨⟨hhead, hlinked⟩, hnodup, hwaiting, htodo⟩ := h
  obtain ⟨hfresh, hnodup'⟩ := List.nodup_cons.mp hnodup
  unfold ideintr at hr
  rw [hhead] at hr
  dsimp only at hr
  have hbuf : ∀ x ∈ bs, Function.update m.buf b ((m.buf b).complete data) x = m.buf x := by
    intro x hx
    refine Function.update_of_ne ?_ ..
    rintro rfl
    exact hfresh hx
  have htodo' : ∀ x ∈ bs, ¬ (Function.update m.buf b ((m.buf b).complete data) x).Synced := by
    intro x hx
    rw [hbuf x hx]
    exact htodo x (List.mem_cons_of_mem b hx)
  have hwaiting' : ∀ x ∈ bs, ∃ p, m.pc p = some x :=
    fun x hx => hwaiting x (List.mem_cons_of_mem b hx)
  cases bs with
  | nil =>
    rw [show m.qnext b = none from hlinked] at hr
    cases hr
    exact ⟨⟨rfl, hnodup', hwaiting', htodo'⟩, .idle rfl hs, hhead, rfl⟩
  | cons x xs =>
    rw [hlinked.1] at hr
    obtain ⟨hrange, rfl⟩ := idestart_some hr
    exact ⟨⟨⟨rfl, hlinked.2⟩, hnodup', hwaiting', htodo'⟩, .busy rfl hrange hs, hhead, rfl⟩

/-! ## Steps and runs -/

omit [DecidableEq P] in
theorem Started.inv (h : Started m) : IdeInv ⟨m.disk, m.buf⟩ [] m ⟨m.disk, m.buf⟩ [] [] where
  queue := ⟨h.idequeue, List.nodup_nil, by simp, by simp⟩
  serving := .idle h.device rfl
  run := .start
  requests := rfl
  starts := rfl
  transfers := rfl

omit [DecidableEq P] in
/-- The device has transferred the block of the first request. -/
theorem IdeInv.transferred {cmd : Command D} (h : IdeInv s₀ es m s bs moved)
    (hdev : m.device = .busy b cmd) (data : Option D) (disk : Nat → D)
    (hdata : (m.buf b).command = cmd →
      ((m.buf b).dirty = true ∧ disk = Function.update m.disk (m.buf b).blockno (m.buf b).data)
      ∨ ((m.buf b).dirty = false ∧ disk = m.disk ∧ data = some (m.disk (m.buf b).blockno))) :
    ∃ s', IdeInv s₀ (.transfer b :: es) { m with disk, device := .done b data } s' bs [b] := by
  obtain ⟨hqueue, hserving, hrun, hreq, hstart, htrans⟩ := h
  cases hserving with
  | idle hdev' => rw [hdev] at hdev'; cases hdev'
  | done hdev' => rw [hdev] at hdev'; cases hdev'
  | busy hdev' hrange hs =>
    rw [hdev] at hdev'
    cases hdev'
    subst hs
    have hmem := transfer_spec (hqueue.todo b List.mem_cons_self) hrange (hdata rfl)
    refine ⟨_, ⟨hqueue.linked, hqueue.nodup, hqueue.waiting, hqueue.todo⟩, .done rfl rfl,
      hrun.transfer hmem, hreq, hstart, ?_⟩
    show Ide.transferred es ++ [b] = _
    rw [htrans, List.append_nil]
    rfl

theorem Step.ideInv [Fintype B] (h : IdeInv s₀ es m s bs moved) (hs : Step m e m') :
    ∃ s' bs' moved', IdeInv s₀ (e :: es) m' s' bs' moved' := by
  have hinv := h
  obtain ⟨hqueue, hserving, hrun, hreq, hstart, htrans⟩ := h
  cases hs with
  | @request p b _ hp hfree hr =>
    obtain ⟨hqueue', hserving'⟩ := iderw_spec hqueue hserving hp hfree hr
    refine ⟨s, bs ++ [b], moved, hqueue', hserving', hrun.request, ?_, ?_, htrans⟩
    · show requested es ++ [b] = _
      rw [hreq, List.append_assoc]
      rfl
    · cases bs with
      | nil =>
        rw [hqueue.isNone_iff.mpr rfl]
        show started es ++ [b] = _
        rw [hstart, List.take_nil, List.append_nil]
        rfl
      | cons x xs =>
        rw [Bool.eq_false_iff.mpr fun hnone => List.cons_ne_nil x xs (hqueue.isNone_iff.mp hnone)]
        exact hstart
  | @transferRead b n hdev =>
    obtain ⟨s', hs'⟩ := hinv.transferred hdev (some (m.disk n)) m.disk (by
      intro hcmd
      unfold Buf.command at hcmd
      split at hcmd
      · cases hcmd
      · rename_i hclean
        cases hcmd
        exact .inr ⟨by simpa using hclean, rfl, rfl⟩)
    exact ⟨s', bs, [b], hs'⟩
  | @transferWrite b n data hdev =>
    obtain ⟨s', hs'⟩ := hinv.transferred hdev none (Function.update m.disk n data) (by
      intro hcmd
      unfold Buf.command at hcmd
      split at hcmd
      · rename_i hdirty
        cases hcmd
        exact .inl ⟨hdirty, rfl⟩
      · cases hcmd)
    exact ⟨s', bs, [b], hs'⟩
  | @intr b data _ hdev hr =>
    cases hserving with
    | idle hdev' => rw [hdev] at hdev'; cases hdev'
    | busy hdev' => rw [hdev] at hdev'; cases hdev'
    | @done x xs data' hdev' hs =>
      rw [hdev] at hdev'
      cases hdev'
      obtain ⟨hqueue', hserving', hhead, hnext⟩ := ideintr_spec hqueue hs hr
      refine ⟨s, xs, [], hqueue', hserving', hrun.intr, ?_, ?_, ?_⟩
      · show requested es = completed es ++ m.idequeue.toList ++ xs
        rw [hreq, hhead, List.append_assoc]
        rfl
      · show started es ++ m'.idequeue.toList = completed es ++ m.idequeue.toList ++ xs.take 1
        rw [hstart, hhead, hnext]
        rfl
      · show Ide.transferred es = completed es ++ m.idequeue.toList ++ []
        rw [htrans, hhead, List.append_nil]
        rfl
  | again hp hawake hnot =>
    exact ⟨s, bs, moved, ⟨hqueue.linked, hqueue.nodup, hqueue.waiting, hqueue.todo⟩,
      hserving.congr rfl rfl rfl, hrun.internal, hreq, hstart, htrans⟩
  | @ret p b hp hawake hsynced =>
    refine ⟨s, bs, moved, ⟨hqueue.linked, hqueue.nodup, fun x hx => ?_, hqueue.todo⟩,
      hserving.congr rfl rfl rfl, hrun.ret, hreq, hstart, htrans⟩
    obtain ⟨q, hq⟩ := hqueue.waiting x hx
    -- the request of the process that returns is not in the queue
    have hqp : q ≠ p := by
      rintro rfl
      have hxb : x = b := Option.some.inj (hq.symm.trans hp)
      exact hqueue.todo x hx (hxb ▸ hsynced)
    exact ⟨q, by rw [← hq]; exact Function.update_of_ne hqp ..⟩
  | kill =>
    exact ⟨s, bs, moved, ⟨hqueue.linked, hqueue.nodup, hqueue.waiting, hqueue.todo⟩,
      hserving.congr rfl rfl rfl, hrun.internal, hreq, hstart, htrans⟩
  | @change b x hfree =>
    have hb := hqueue.notMem hfree
    have hkeep : ∀ y ∈ bs, Function.update m.buf b x y = m.buf y := by
      intro y hy
      refine Function.update_of_ne ?_ ..
      rintro rfl
      exact hb hy
    refine ⟨_, bs, moved, ⟨hqueue.linked, hqueue.nodup, hqueue.waiting, fun y hy => ?_⟩, ?_,
      hrun.change, hreq, hstart, htrans⟩
    · show ¬ (Function.update m.buf b x y).Synced
      rw [hkeep y hy]
      exact hqueue.todo y hy
    · cases hserving with
      | idle hdev hs =>
        subst hs
        exact .idle hdev rfl
      | @busy y ys hdev hrange hs =>
        have hy := hkeep y List.mem_cons_self
        subst hs
        refine .busy ?_ ?_ rfl
        · show m.device = .busy y (Function.update m.buf b x y).command
          rw [hy]
          exact hdev
        · show (Function.update m.buf b x y).blockno < FSSIZE
          rw [hy]
          exact hrange
      | @done y ys data hdev hs =>
        have hy := hkeep y List.mem_cons_self
        have hby : b ≠ y := by
          rintro rfl
          exact hb List.mem_cons_self
        subst hs
        refine .done hdev ?_
        show _ = MemDisk.mk m.disk (Function.update (Function.update m.buf b x) y
          ((Function.update m.buf b x y).complete data))
        rw [hy, Function.update_comm hby]

end

/-- What the queued driver has done after the steps `es`, compared with the memory disk. -/
structure FollowsMemDisk {P B D : Type} [DecidableEq P] [DecidableEq B] [Fintype B]
    (m₀ : Machine P B D) (es : List (Event P B D)) (m : Machine P B D) : Prop where
  /-- The queue is what was requested and not completed; all of it but the first is not started. -/
  fifo : ∃ bs, Linked m.qnext m.idequeue bs ∧ bs.Nodup ∧ requested es = completed es ++ bs ∧
    started es = completed es ++ bs.take 1
  /-- The device works for the first request of the queue. -/
  working : ∀ b, (∃ cmd, m.device = .busy b cmd) ∨ (∃ data, m.device = .done b data) →
    m.idequeue = some b
  /-- Blocks are transferred in the order of the requests, and the memory disk that does the
  calls in that order has the same disk and, but for a transfer not taken over, the same
  buffers. -/
  memdisk : ∃ s, MemRun ⟨m₀.disk, m₀.buf⟩ es s ∧ (∃ rest, requested es = transferred es ++ rest) ∧
    s.disk = m.disk ∧ (∀ b, (∀ data, m.device ≠ .done b data) → s.buf b = m.buf b) ∧
    ∀ p b m', Step m (.ret p b) m' → (m.buf b).Synced ∧ s.buf b = m.buf b

/-- The queued driver refines the memory disk, for any processes, requests and interleaving
of calls and interrupts. -/
theorem ide_follows_memide {P B D : Type} [DecidableEq P] [DecidableEq B] [Fintype B]
    {m₀ m : Machine P B D} {es : List (Event P B D)} (h₀ : Started m₀)
    (h : Trace (· = m₀) Step (fun _ _ => True) es m) : FollowsMemDisk m₀ es m := by
  obtain ⟨s, bs, moved, hinv⟩ : ∃ s bs moved, IdeInv ⟨m₀.disk, m₀.buf⟩ es m s bs moved :=
    Trace.invariant (J := fun es m => ∃ s bs moved, IdeInv ⟨m₀.disk, m₀.buf⟩ es m s bs moved)
      (by rintro _ rfl; exact ⟨_, _, _, h₀.inv⟩)
      (fun _ _ _ _ ⟨_, _, _, hi⟩ _ hs => hs.ideInv hi) h
  obtain ⟨hqueue, hserving, hrun, hreq, hstart, htrans⟩ := hinv
  -- the memory disk differs only where a transfer was not taken over
  have hbuf : ∀ b, (∀ data, m.device ≠ .done b data) → s.buf b = m.buf b := by
    intro b hb
    cases hserving with
    | idle hdev hs => rw [hs]
    | busy hdev hrange hs => rw [hs]
    | @done x xs data hdev hs =>
      have hbx : b ≠ x := by
        rintro rfl
        exact hb data hdev
      rw [hs]
      exact Function.update_of_ne hbx ..
  refine ⟨⟨bs, hqueue.linked, hqueue.nodup, hreq, hstart⟩, fun b hb => ?_, s, hrun, ?_, ?_, hbuf,
    fun p b m' hret => ?_⟩
  · cases hserving with
    | idle hdev hs => simp [hdev] at hb
    | busy hdev hrange hs =>
      rw [hqueue.linked.1]
      simpa [hdev] using hb
    | done hdev hs =>
      rw [hqueue.linked.1]
      simpa [hdev] using hb
  · cases hserving with
    | idle hdev hs => exact ⟨[], by rw [hreq, htrans, List.append_nil, List.append_nil]⟩
    | @busy x xs hdev hrange hs => exact ⟨x :: xs, by rw [hreq, htrans, List.append_nil]⟩
    | @done x xs data hdev hs => exact ⟨xs, by rw [hreq, htrans, List.append_assoc]; rfl⟩
  · cases hserving with
    | idle hdev hs => rw [hs]
    | busy hdev hrange hs => rw [hs]
    | done hdev hs => rw [hs]
  · cases hret with
    | ret hp hawake hsynced =>
      refine ⟨hsynced, hbuf b fun data hdev => ?_⟩
      cases hserving with
      | idle hdev' hs => rw [hdev] at hdev'; cases hdev'
      | busy hdev' hrange hs => rw [hdev] at hdev'; cases hdev'
      | done hdev' hs =>
        rw [hdev] at hdev'
        cases hdev'
        exact hqueue.todo b List.mem_cons_self hsynced

/-- Two processes: one writes block 7, the other reads it behind the first, and the first
returns. -/
theorem ide_follows_memide_two : ∃ (m₀ m : Machine Bool Bool Nat) (es : List (Event Bool Bool Nat)),
    Started m₀ ∧ Trace (· = m₀) Step (fun _ _ => True) es m ∧ started es = [false, true] ∧
    m.disk 7 = 5 ∧ FollowsMemDisk m₀ es m := by
  let m₀ : Machine Bool Bool Nat := {
    buf := fun b => ⟨false, !b, 7, if b then 0 else 5⟩
    qnext := fun _ => none
    idequeue := none
    device := .ready
    disk := fun _ => 0
    pc := fun _ => none
    sleeping := fun _ => false }
  have hstarted : Started m₀ := ⟨rfl, rfl, fun _ => rfl⟩
  have hbase : Trace (· = m₀) Step (fun _ _ => True) [] m₀ := Trace.base rfl
  have hwrite := hbase.next trivial (Step.request (p := false) (b := false) rfl (by decide) rfl)
  have hread := hwrite.next trivial (Step.request (p := true) (b := true) rfl (by decide) rfl)
  have hmoved := hread.next trivial (Step.transferWrite (b := false) rfl)
  have hintr := hmoved.next trivial (Step.intr (b := false) rfl rfl)
  have hret := hintr.next trivial (Step.ret (p := false) (b := false) rfl rfl (by decide))
  exact ⟨_, _, _, hstarted, hret, rfl, rfl, ide_follows_memide hstarted hret⟩

end Xv6Sharing.Ide
