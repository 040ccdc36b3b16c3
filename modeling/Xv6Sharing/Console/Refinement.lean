/-
Xv6Sharing.Console.Refinement — the input ring is a line discipline.

`Stands i l` ties the ring to a line: the cells from `r` to `w` hold the
committed bytes, those from `w` to `e` the line under edit. One lemma for
`consoleintr` and one for the loop of `consoleread` say that the ring goes on
standing for what `Line.type` and `takeLine` make of the line; the run follows.

The line under edit never holds a newline, so ^U removes all of it, and it is
empty when the ring is full.
-/
import Mathlib.Data.List.Induction
import Xv6Sharing.Console.Machine
import Xv6Sharing.Lib.Run

namespace Xv6Sharing.Console

open Lib

structure Stands (i : Input) (l : Line) : Prop where
  ring : Ring INPUT_BUF (2 ^ 32) i.buf i.r i.e (l.queue ++ l.edit)
  w_eq : i.w = (i.r + l.queue.length) % 2 ^ 32
  plain : newline ∉ l.edit
  full : (l.queue ++ l.edit).length = INPUT_BUF → l.edit = []

section Ring

variable {i : Input} {l : Line} {c : UInt8}

theorem Stands.committed (h : Stands i l) : Ring INPUT_BUF (2 ^ 32) i.buf i.r i.w l.queue := by
  rw [h.w_eq]
  exact h.ring.front

theorem Stands.edited (h : Stands i l) : Ring INPUT_BUF (2 ^ 32) i.buf i.w i.e l.edit := by
  rw [h.w_eq]
  exact h.ring.back (by decide)

theorem Stands.pending (h : Stands i l) :
    ahead (2 ^ 32) i.r i.e = l.queue.length + l.edit.length := by
  rw [h.ring.ahead_eq (by decide), List.length_append]

theorem Stands.edit_nil_iff (h : Stands i l) : i.e = i.w ↔ l.edit = [] := by
  rw [eq_comm]
  exact h.edited.empty_iff (by decide)

theorem Stands.erase {q ys : List UInt8} {y : UInt8} (h : Stands i ⟨q, ys ++ [y]⟩) :
    i.buf (before i.e % INPUT_BUF) = y ∧ Stands { i with e := before i.e } ⟨q, ys⟩ := by
  have hring : Ring INPUT_BUF (2 ^ 32) i.buf i.r i.e ((q ++ ys) ++ [y]) := by
    rw [List.append_assoc]
    exact h.ring
  obtain ⟨hlast, hrest⟩ := hring.unpush (by decide)
  refine ⟨hlast, hrest, h.w_eq, fun hmem => h.plain (List.mem_append_left _ hmem), fun hfull => ?_⟩
  have hlen := hring.length_le
  rw [List.length_append, List.length_singleton] at hlen
  have hfull' : (q ++ ys).length = INPUT_BUF := hfull
  omega

theorem killLine_stands {q : List UInt8} (edit : List UInt8) (h : Stands i ⟨q, edit⟩) :
    Stands (killLine edit.length i) ⟨q, []⟩ := by
  induction edit using List.reverseRecOn generalizing i with
  | nil => exact h
  | append_singleton ys y ih =>
    obtain ⟨hlast, hrest⟩ := h.erase
    have hmore : i.e ≠ i.w := by
      rw [Ne, h.edit_nil_iff]
      simp
    have hplain : y ≠ newline := fun heq => h.plain (by simp [heq])
    rw [List.length_append, List.length_singleton, killLine, hlast, if_pos ⟨hmore, hplain⟩]
    exact ih hrest

theorem Stands.store (h : Stands i l) (hroom : l.queue.length + l.edit.length < INPUT_BUF) :
    Ring INPUT_BUF (2 ^ 32) (Function.update i.buf (i.e % INPUT_BUF) c) i.r ((i.e + 1) % 2 ^ 32)
      (l.queue ++ (l.edit ++ [c])) := by
  rw [← List.append_assoc]
  exact h.ring.push (by decide) (by rw [List.length_append]; exact hroom) c

/-- The test for a full buffer after a character was stored. -/
theorem Stands.filled_iff (h : Stands i l) (hroom : l.queue.length + l.edit.length < INPUT_BUF) :
    (i.e + 1) % 2 ^ 32 = (i.r + INPUT_BUF) % 2 ^ 32
      ↔ l.queue.length + l.edit.length + 1 = INPUT_BUF := by
  rw [(h.store (c := 0) hroom).full_iff (by decide)]
  simp [Nat.add_assoc]

/-- `consoleintr` does what typing the character does, and wakes the readers when it commits. -/
theorem consoleintr_stands (h : Stands i l) (c : UInt8) :
    Stands (consoleintr i c).1 (l.type c) ∧
      ((consoleintr i c).2 = false → (l.type c).queue = l.queue) := by
  unfold consoleintr Line.type
  by_cases hP : c = ctrl 'P'
  · rw [if_pos hP, if_pos hP]
    exact ⟨h, fun _ => rfl⟩
  by_cases hU : c = ctrl 'U'
  · rw [if_neg hP, if_neg hP, if_pos hU, if_pos hU, h.edited.ahead_eq (by decide)]
    exact ⟨killLine_stands l.edit h, fun _ => rfl⟩
  by_cases hH : c = ctrl 'H' ∨ c = 0x7f
  · rw [if_neg hP, if_neg hP, if_neg hU, if_neg hU, if_pos hH, if_pos hH]
    by_cases hmore : i.e ≠ i.w
    · rw [if_pos hmore]
      rw [Ne, h.edit_nil_iff] at hmore
      obtain ⟨q, edit⟩ := l
      have hsplit := List.dropLast_concat_getLast hmore
      have hlast : Stands i ⟨q, edit.dropLast ++ [edit.getLast hmore]⟩ := by rwa [hsplit]
      exact ⟨hlast.erase.2, fun _ => rfl⟩
    · rw [if_neg hmore]
      rw [not_not, h.edit_nil_iff] at hmore
      obtain ⟨q, edit⟩ := l
      cases hmore
      exact ⟨h, fun _ => rfl⟩
  rw [if_neg hP, if_neg hP, if_neg hU, if_neg hU, if_neg hH, if_neg hH, h.pending]
  by_cases hroom : c ≠ 0 ∧ l.queue.length + l.edit.length < INPUT_BUF
  · rw [if_pos hroom, if_pos hroom]
    generalize hstored : (if c = carriage then newline else c) = c'
    have hring := h.store (c := c') hroom.2
    have htest : (c' = newline ∨ c' = ctrl 'D' ∨ (i.e + 1) % 2 ^ 32 = (i.r + INPUT_BUF) % 2 ^ 32) ↔
        (c' = newline ∨ c' = ctrl 'D' ∨ l.queue.length + l.edit.length + 1 = INPUT_BUF) :=
      or_congr_right (or_congr_right (h.filled_iff hroom.2))
    dsimp only
    by_cases hcommit : c' = newline ∨ c' = ctrl 'D' ∨
        l.queue.length + l.edit.length + 1 = INPUT_BUF
    · rw [if_pos (htest.mpr hcommit), if_pos hcommit]
      refine ⟨⟨?_, ?_, List.not_mem_nil, fun _ => rfl⟩, fun hwake => absurd hwake (by simp)⟩
      · rw [List.append_nil]
        exact hring
      · exact hring.tail_eq
    · rw [if_neg (htest.not.mpr hcommit), if_neg hcommit]
      refine ⟨⟨hring, h.w_eq, ?_, fun hfull => ?_⟩, fun _ => rfl⟩
      · intro hmem
        rcases List.mem_append.mp hmem with hold | hnew
        · exact h.plain hold
        · exact hcommit (.inl (List.mem_singleton.mp hnew).symm)
      · refine absurd (.inr (.inr ?_)) hcommit
        simpa [Nat.add_assoc] using hfull
  · rw [if_neg hroom, if_neg hroom]
    exact ⟨h, fun _ => rfl⟩

theorem Stands.next {q edit : List UInt8} (h : Stands i ⟨c :: q, edit⟩) :
    i.buf (i.r % INPUT_BUF) = c ∧ Stands { i with r := (i.r + 1) % 2 ^ 32 } ⟨q, edit⟩ := by
  have hall : Ring INPUT_BUF (2 ^ 32) i.buf i.r i.e (c :: (q ++ edit)) := h.ring
  obtain ⟨hc, hring⟩ := hall.pop (by decide)
  refine ⟨hc, hring, ?_, h.plain, fun hfull => ?_⟩
  · have hw := h.w_eq
    rw [List.length_cons, Nat.add_comm q.length, ← Nat.add_assoc] at hw
    rw [Nat.mod_add_mod]
    exact hw
  · have hlen : (c :: (q ++ edit)).length ≤ INPUT_BUF := h.ring.length_le
    have hfull' : (q ++ edit).length = INPUT_BUF := hfull
    rw [List.length_cons] at hlen
    omega

theorem readLoop_stands (target n : Nat) {q edit : List UInt8} (h : Stands i ⟨q, edit⟩) :
    (readLoop target n i).1 = (takeLine target n q).1 ∧
      (readLoop target n i).2.1 = (takeLine target n q).2.1 ∧
      Stands (readLoop target n i).2.2 ⟨(takeLine target n q).2.2, edit⟩ := by
  induction n generalizing i q with
  | zero => exact ⟨rfl, rfl, h⟩
  | succ n ih =>
    have hempty := h.committed.empty_iff (by decide)
    cases q with
    | nil =>
      rw [readLoop, if_pos (hempty.mpr rfl)]
      exact ⟨rfl, rfl, h⟩
    | cons c q =>
      have hmore : ¬ i.r = i.w := fun heq => List.cons_ne_nil c q (hempty.mp heq)
      obtain ⟨hc, hnext⟩ := h.next
      rw [readLoop, if_neg hmore, hc, takeLine]
      dsimp only
      by_cases hD : c = ctrl 'D'
      · rw [if_pos hD, if_pos hD]
        by_cases hkept : n + 1 < target
        · rw [if_pos hkept, if_pos hkept]
          -- the index goes back to where it was
          have hback : before ((i.r + 1) % 2 ^ 32) = i.r := by
            have hlt := h.ring.head_lt
            unfold before
            rw [Ring.pred_eq (by decide), Nat.mod_eq_of_lt hlt]
          refine ⟨rfl, rfl, ?_⟩
          rw [hback]
          exact h
        · rw [if_neg hkept, if_neg hkept]
          exact ⟨rfl, rfl, hnext⟩
      · rw [if_neg hD, if_neg hD]
        by_cases hn : c = newline
        · rw [if_pos hn, if_pos hn]
          exact ⟨rfl, rfl, hnext⟩
        · rw [if_neg hn, if_neg hn]
          obtain ⟨hbytes, hstop, hrest⟩ := ih hnext
          exact ⟨congrArg (c :: ·) hbytes, hstop, hrest⟩

end Ring

/-! ## What a read takes -/

/-- The bytes `bytes` taken from the queue `q` for a call that has `n` of `target` bytes
to go, and why no more. -/
structure Taken (target n : Nat) (q bytes : List UInt8) (stop : Stop) (rest : List UInt8) :
    Prop where
  split : q = bytes ++ ((if stop = .eof then [ctrl 'D'] else []) ++ rest)
  le : bytes.length ≤ n
  noEof : ctrl 'D' ∉ bytes
  count : stop = .count → bytes.length = n
  newline : stop = .newline → ∃ front, bytes = front ++ [newline] ∧ Console.newline ∉ front
  other : stop ≠ .newline → Console.newline ∉ bytes
  kept : stop = .kept → rest.head? = some (ctrl 'D') ∧ n - bytes.length < target
  eof : stop = .eof → target ≤ n - bytes.length
  empty : stop = .empty → rest = []

theorem takeLine_taken (target n : Nat) (q : List UInt8) :
    Taken target n q (takeLine target n q).1 (takeLine target n q).2.1
      (takeLine target n q).2.2 := by
  induction n generalizing q with
  | zero => constructor <;> simp [takeLine]
  | succ n ih =>
    cases q with
    | nil => constructor <;> simp [takeLine]
    | cons c q =>
      rw [takeLine]
      by_cases hD : c = ctrl 'D'
      · rw [if_pos hD]
        by_cases hkept : n + 1 < target
        · rw [if_pos hkept]
          constructor <;> simp [hD, hkept]
        · rw [if_neg hkept]
          constructor <;> simp [hD]
          omega
      · rw [if_neg hD]
        by_cases hn : c = newline
        · rw [if_pos hn]
          constructor <;> simp [hn]
          decide
        · rw [if_neg hn]
          have hq := ih q
          refine ⟨?_, ?_, ?_, ?_, ?_, ?_, ?_, ?_, hq.empty⟩
          · exact congrArg (c :: ·) hq.split
          · exact Nat.succ_le_succ hq.le
          · exact List.not_mem_cons_of_ne_of_not_mem (Ne.symm hD) hq.noEof
          · exact fun hstop => congrArg (· + 1) (hq.count hstop)
          · intro hstop
            obtain ⟨front, hfront, hplain⟩ := hq.newline hstop
            refine ⟨c :: front, congrArg (c :: ·) hfront, ?_⟩
            exact List.not_mem_cons_of_ne_of_not_mem (Ne.symm hn) hplain
          · intro hstop
            exact List.not_mem_cons_of_ne_of_not_mem (Ne.symm hn) (hq.other hstop)
          · intro hstop
            rw [List.length_cons, Nat.add_sub_add_right]
            exact hq.kept hstop
          · intro hstop
            rw [List.length_cons, Nat.add_sub_add_right]
            exact hq.eof hstop

/-! ## Runs -/

section Runs

variable {P : Type} {es : List (Event P)} {done : List UInt8} {l : Line}

theorem Line.type_queue (l : Line) (c : UInt8) : (l.type c).queue = l.queue ++ l.commits c := by
  have hcases : (l.type c).queue = l.queue ∨ ∃ bytes, (l.type c).queue = l.queue ++ bytes := by
    unfold Line.type
    dsimp only
    split_ifs <;> simp
  unfold Line.commits
  rcases hcases with hsame | ⟨bytes, hmore⟩
  · rw [hsame, List.drop_length, List.append_nil]
  · rw [hmore, List.drop_left]

/-- What `consoleread` took in the steps `es`, with the ^D it took for end of file. -/
def taken : List (Event P) → List UInt8
  | [] => []
  | .read _ _ _ bytes stop _ :: es =>
    taken es ++ (bytes ++ if stop = .eof then [ctrl 'D'] else [])
  | _ :: es => taken es

/-- What was taken, and the queue after it, is what was committed. -/
theorem LineRun.fifo (h : LineRun es done l) : taken es ++ l.queue = done := by
  induction h with
  | start => rfl
  | internal _ ih => exact ih
  | @type es done l c _ ih =>
    show taken es ++ _ = _
    rw [Line.type_queue, ← List.append_assoc, ih]
  | @read es done bytes rest l p n target stop ret _ htake ih =>
    have hsplit := (takeLine_taken target n l.queue).split
    rw [htake] at hsplit
    rw [hsplit] at ih
    show (taken es ++ (bytes ++ _)) ++ rest = done
    rw [List.append_assoc, List.append_assoc]
    exact ih

variable [DecidableEq P] {m m' : Machine P} {e : Event P}

/-- The ring stands for the line that the steps lead to, nobody sleeps while bytes are
committed, and no call reads more than it was called for. -/
structure ConsoleInv (es : List (Event P)) (m : Machine P) (done : List UInt8) (l : Line) :
    Prop where
  run : LineRun es done l
  stands : Stands m.input l
  sleeping : ∀ q, m.sleeping q = true → l.queue = []
  left : ∀ q n target, m.pc q = .reading n target → n ≤ target

omit [DecidableEq P] in
theorem Started.inv (h : Started m) : ConsoleInv [] m [] ⟨[], []⟩ := by
  have hring : Ring INPUT_BUF (2 ^ 32) m.input.buf 0 0 [] := Ring.nil (by decide)
  refine ⟨.start, ⟨?_, ?_, List.not_mem_nil, fun _ => rfl⟩, fun _ _ => rfl, fun q n target hpc => ?_⟩
  · rw [h.r, h.e]
    exact hring
  · rw [h.r, h.w]
    rfl
  · rw [h.pc q] at hpc
    cases hpc

/-- A section of `consoleread` that goes to sleep has found the queue empty. -/
theorem returns_none {target left : Nat} {killed : Bool} {stop : Stop}
    (h : returns target left killed stop = none) : stop = .empty := by
  cases stop <;> simp [returns] at h ⊢

theorem Step.consoleInv (h : ConsoleInv es m done l) (hs : Step m e m') :
    ∃ done' l', ConsoleInv (e :: es) m' done' l' := by
  obtain ⟨hrun, hstands, hsleep, hleft⟩ := h
  cases hs with
  | @type c =>
    obtain ⟨hstands', hquiet⟩ := consoleintr_stands hstands c
    refine ⟨_, _, hrun.type, hstands', fun q hq => ?_, hleft⟩
    cases hwake : (consoleintr m.input c).2 with
    | false =>
      rw [hwake] at hq
      rw [hquiet hwake]
      exact hsleep q hq
    | true =>
      rw [hwake] at hq
      cases hq
  | call hpc =>
    refine ⟨_, _, hrun.internal, hstands, hsleep, ?_⟩
    grind [Function.update_apply]
  | @read p n target hpc hawake =>
    obtain ⟨q, edit⟩ := l
    obtain ⟨hbytes, hstop, hstands'⟩ := readLoop_stands target n hstands
    have htaken := takeLine_taken target n q
    rw [← hbytes, ← hstop] at htaken
    refine ⟨_, _, hrun.read (show takeLine target n q = (_, _, (takeLine target n q).2.2) from ?_), hstands', fun r hr => ?_,
      fun r k t hr => ?_⟩
    · rw [hbytes, hstop]
    · dsimp only [consoleread] at hr
      rw [Function.update_apply] at hr
      split at hr
      · exact htaken.empty (returns_none (decide_eq_true_iff.mp hr))
      · have hq : q = [] := hsleep r hr
        have hsplit := htaken.split.symm.trans hq
        exact (List.append_eq_nil_iff.mp (List.append_eq_nil_iff.mp hsplit).2).2
    · have hn := hleft p n target hpc
      dsimp only [consoleread] at hr
      rw [Function.update_apply] at hr
      split at hr
      · split at hr
        · cases hr
          omega
        · cases hr
      · exact hleft r k t hr
  | kill =>
    refine ⟨_, _, hrun.internal, hstands, fun q hq => ?_, hleft⟩
    grind [Function.update_apply]
  | killLate => exact ⟨_, _, hrun.internal, hstands, hsleep, hleft⟩
  | renew hpc => exact ⟨_, _, hrun.internal, hstands, hsleep, hleft⟩

/-- What a section of `consoleread` does in a state in which the line is `l`: its bytes
come from the front of the queue, without ^D, and with a newline only at the end; a ^D
stops it, and stays unless the call has read nothing. -/
structure ReadLaw (l : Line) (n target : Nat) (bytes : List UInt8) (stop : Stop)
    (ret : Option Int) : Prop where
  taken : ∃ rest, Taken target n l.queue bytes stop rest
  returned : stop ≠ .empty → ret = some ((target : Int) - (n - bytes.length : Nat))
  eof : stop = .eof → bytes = [] ∧ ret = some 0
  /-- A call that starts at a ^D returns 0. -/
  fresh : n = target → 0 < n → l.queue.head? = some (ctrl 'D') → stop = .eof

theorem ConsoleInv.readLaw (h : ConsoleInv es m done l) {p : P} {n target : Nat}
    {bytes : List UInt8} {stop : Stop} {ret : Option Int}
    (hs : Step m (.read p n target bytes stop ret) m') : ReadLaw l n target bytes stop ret := by
  generalize he : Event.read p n target bytes stop ret = e at hs
  cases hs with
  | @read p' n' target' hpc hawake =>
    obtain ⟨q, edit⟩ := l
    obtain ⟨hbytes, hstop, -⟩ := readLoop_stands target n h.stands
    have hle := h.left p' n' target' hpc
    unfold consoleread at he
    injection he with hp hn ht hb hst hr
    subst hp hn ht
    have htaken := takeLine_taken target n q
    rw [← hbytes, ← hstop, ← hb, ← hst] at htaken
    rw [← hb, ← hst] at hr
    have hret : stop ≠ .empty → ret = some ((target : Int) - (n - bytes.length : Nat)) := by
      intro hne
      rw [hr]
      cases stop <;> simp [returns] at hne ⊢
    refine ⟨⟨_, htaken⟩, hret, fun heof => ?_, fun hfresh hpos hhead => ?_⟩
    · have hlen := htaken.eof heof
      have hmost := htaken.le
      refine ⟨List.eq_nil_of_length_eq_zero (by omega), ?_⟩
      rw [hret (by rw [heof]; decide)]
      congr 1
      omega
    · rw [hst, hstop]
      cases q with
      | nil => cases hhead
      | cons c q =>
        cases hhead
        obtain ⟨k, rfl⟩ := Nat.exists_eq_add_of_lt hpos
        rw [Nat.zero_add, takeLine, if_pos rfl, if_neg (by omega)]
  | _ => cases he

end Runs

/-- A run of the console with the steps `es`, the last one first. -/
def Ran {P : Type} [DecidableEq P] (es : List (Event P)) (m : Machine P) : Prop :=
  Trace Started Step (fun _ _ => True) es m

/-- After the steps `es` the ring is the line `l` of a line discipline that has taken the
same steps and committed `done`. -/
structure LineDiscipline {P : Type} [DecidableEq P] (es : List (Event P)) (m : Machine P)
    (done : List UInt8) (l : Line) : Prop where
  run : LineRun es done l
  queue : queued INPUT_BUF (2 ^ 32) m.input.buf m.input.r m.input.w = l.queue
  edit : queued INPUT_BUF (2 ^ 32) m.input.buf m.input.w m.input.e = l.edit
  order : ahead (2 ^ 32) m.input.r m.input.w + ahead (2 ^ 32) m.input.w m.input.e
    = ahead (2 ^ 32) m.input.r m.input.e ∧ ahead (2 ^ 32) m.input.r m.input.e ≤ INPUT_BUF
  fifo : taken es ++ l.queue = done
  reads : ∀ p n target bytes stop ret m', Step m (.read p n target bytes stop ret) m' →
    ReadLaw l n target bytes stop ret
  full : ahead (2 ^ 32) m.input.r m.input.e = INPUT_BUF → m.input.w = m.input.e
  blocked : ∀ q, m.sleeping q = true →
    m.input.r = m.input.w ∧ ahead (2 ^ 32) m.input.r m.input.e < INPUT_BUF

/-- Console input is a line discipline, for any characters and any readers in any
interleaving, however often the indices wrap. -/
theorem console_lines {P : Type} [DecidableEq P] {es : List (Event P)} {m : Machine P}
    (h : Ran es m) : ∃ done l, LineDiscipline es m done l := by
  obtain ⟨done, l, hinv⟩ : ∃ done l, ConsoleInv es m done l :=
    Trace.invariant (J := fun es m => ∃ done l, ConsoleInv es m done l)
      (fun _ hs => ⟨_, _, hs.inv⟩) (fun _ _ _ _ ⟨_, _, hi⟩ _ hs => hs.consoleInv hi) h
  have hstands := hinv.stands
  have hpending := hstands.pending
  have hfull : ahead (2 ^ 32) m.input.r m.input.e = INPUT_BUF → l.edit = [] := by
    intro heq
    exact hstands.full (by rw [List.length_append, ← hpending, heq])
  refine ⟨done, l, hinv.run, hstands.committed.queued_eq (by decide) (by decide),
    hstands.edited.queued_eq (by decide) (by decide), ⟨?_, ?_⟩, hinv.run.fifo, ?_, ?_, ?_⟩
  · rw [hstands.committed.ahead_eq (by decide), hstands.edited.ahead_eq (by decide), hpending]
  · rw [hstands.ring.ahead_eq (by decide)]
    exact hstands.ring.length_le
  · exact fun _ _ _ _ _ _ _ hs => hinv.readLaw hs
  · exact fun heq => (hstands.edit_nil_iff.mpr (hfull heq)).symm
  · intro q hq
    have hqueue := hinv.sleeping q hq
    refine ⟨(hstands.committed.empty_iff (by decide)).mpr hqueue, ?_⟩
    have hle := hstands.ring.length_le
    rw [List.length_append, ← hpending] at hle
    rcases Nat.lt_or_eq_of_le hle with hlt | heq
    · exact hlt
    · have hedit := hfull heq
      rw [hpending, hqueue, hedit] at heq
      exact absurd heq (by decide)

/-- A reader waits for three bytes and takes the line that is typed, not what follows it. -/
theorem console_lines_typed : ∃ (es : List (Event Unit)) (m : Machine Unit), Ran es m ∧
    taken es = [97, 10] ∧ m.sleeping () = false ∧ ∃ done l, LineDiscipline es m done l := by
  have hstart : Started (P := Unit) ⟨⟨fun _ => 0, 0, 0, 0⟩, fun _ => .user, fun _ => false,
      fun _ => false⟩ := ⟨rfl, rfl, rfl, fun _ => rfl, fun _ => rfl⟩
  have hbase : Ran (P := Unit) [] _ := Trace.base hstart
  have hcall := hbase.next trivial (Step.call (p := ()) (n := 3) rfl)
  have hblocked := hcall.next trivial (Step.read (p := ()) (n := 3) rfl rfl)
  have hletter := hblocked.next trivial (Step.type (c := 97))
  have hline := hletter.next trivial (Step.type (c := 10))
  have heof := hline.next trivial (Step.type (c := 4))
  have hread := heof.next trivial (Step.read (p := ()) (n := 3) rfl rfl)
  exact ⟨_, _, hread, by decide, by decide, console_lines hread⟩

end Xv6Sharing.Console
