/-
Xv6Sharing.User.GrepLines — which lines grep sees (user/grep.c, kernel/pipe.c).

The array holds an open line, and what `read` delivers is put behind it. Lines that are
complete are matched and the open line is moved to the front. But when there is no
complete line `p == buf` holds, and the loop takes that for a buffer without a line and
drops it: the part of the line that was read so far is lost. So grep prints the lines that
match, for every pattern, exactly if every piece has a newline.
-/
import Xv6Sharing.Lib.Lines
import Xv6Sharing.User.Grep

namespace Xv6Sharing.User.Grep

open Lib

variable {pattern buf chunk pend rest x : List UInt8} {xs : List (List UInt8)} {m n p : Nat}
  {out chunks : List (List UInt8)}

/-! ## The array -/

theorem strchr_line (hnl : 10 ∉ x) (hnul : 0 ∉ x) (rest : List UInt8) :
    strchr 10 (x ++ 10 :: rest) = some (some x.length) := by
  induction x with
  | nil => rfl
  | cons c x ih =>
    have hc : c ≠ 0 := fun h => hnul (h ▸ List.mem_cons_self)
    have hc' : c ≠ 10 := fun h => hnl (h ▸ List.mem_cons_self)
    rw [List.cons_append, strchr, if_neg hc, if_neg hc', ih (fun h => hnl (List.mem_cons_of_mem _ h))
      fun h => hnul (List.mem_cons_of_mem _ h)]
    rfl

theorem strchr_open (hnl : 10 ∉ x) (hnul : 0 ∉ x) (rest : List UInt8) :
    strchr 10 (x ++ 0 :: rest) = some none := by
  induction x with
  | nil => rfl
  | cons c x ih =>
    have hc : c ≠ 0 := fun h => hnul (h ▸ List.mem_cons_self)
    have hc' : c ≠ 10 := fun h => hnl (h ▸ List.mem_cons_self)
    rw [List.cons_append, strchr, if_neg hc, if_neg hc', ih (fun h => hnl (List.mem_cons_of_mem _ h))
      fun h => hnul (List.mem_cons_of_mem _ h)]
    rfl

theorem fill_append (old : List UInt8) (h : chunk.length ≤ rest.length) :
    fill chunk (old ++ rest) old.length = some (old ++ chunk ++ rest.drop chunk.length) := by
  induction chunk generalizing old rest with
  | nil => simp [fill]
  | cons c chunk ih =>
    obtain ⟨d, rest, rfl⟩ := List.exists_cons_of_length_pos (Nat.lt_of_lt_of_le (Nat.succ_pos _) h)
    have hnext := ih (old ++ [c]) (Nat.le_of_succ_le_succ h)
    rw [fill, storeAt_append]
    simpa using hnext

theorem memmoveIn_spec (hle : m ≤ p) (hin : p + n ≤ buf.length) : ∃ buf',
    memmoveIn n buf m p = some buf' ∧ buf'.length = buf.length ∧ (∀ i < m, buf'[i]? = buf[i]?) ∧
      ∀ i < n, buf'[m + i]? = buf[p + i]? := by
  induction n generalizing buf m p with
  | zero => exact ⟨buf, rfl, rfl, fun _ _ => rfl, fun i hi => absurd hi (Nat.not_lt_zero i)⟩
  | succ n ih =>
    have hp : p < buf.length := by omega
    obtain ⟨buf', hrun, hlen, hkept, hmoved⟩ :=
      ih (Nat.succ_le_succ hle) (by rw [List.length_set]; omega : p + 1 + n ≤ (buf.set m buf[p]).length)
    refine ⟨buf', ?_, hlen.trans List.length_set, fun i hi => ?_, fun i hi => ?_⟩
    · rw [memmoveIn, List.getElem?_eq_getElem hp]
      simp only [Option.bind_eq_bind, Option.bind_some, storeAt_of_lt (by omega : m < buf.length)]
      exact hrun
    · rw [hkept i (by omega), List.getElem?_set_ne (by omega)]
    · cases i with
      | zero =>
        rw [hkept (m + 0) (by omega), Nat.add_zero, Nat.add_zero,
          List.getElem?_set_self (by omega), List.getElem?_eq_getElem hp]
      | succ i =>
        have hmove := hmoved i (by omega)
        rw [List.getElem?_set_ne (by omega)] at hmove
        rw [show m + (i + 1) = m + 1 + i by omega, show p + (i + 1) = p + 1 + i by omega]
        exact hmove

theorem memmoveIn_front (old : List UInt8) (x rest : List UInt8) : ∃ rest',
    memmoveIn x.length (old ++ x ++ rest) 0 old.length = some (x ++ rest') ∧
      (x ++ rest').length = (old ++ x ++ rest).length := by
  obtain ⟨buf', hrun, hlen, -, hmoved⟩ := memmoveIn_spec (Nat.zero_le old.length)
    (by simp : old.length + x.length ≤ (old ++ x ++ rest).length)
  have hfront : buf'.take x.length = x := by
    refine List.ext_getElem? fun i => ?_
    by_cases hi : i < x.length
    · have hmove := hmoved i hi
      rw [Nat.zero_add] at hmove
      rw [List.getElem?_take_of_lt hi, hmove, List.append_assoc,
        List.getElem?_append_right (Nat.le_add_right ..), Nat.add_sub_cancel_left,
        List.getElem?_append_left hi]
    · rw [List.getElem?_eq_none (Nat.not_lt.mp hi), List.getElem?_eq_none]
      rw [List.length_take]
      omega
  have hself : x ++ buf'.drop x.length = buf' := by
    conv_rhs => rw [← List.take_append_drop x.length buf', hfront]
  exact ⟨buf'.drop x.length, by rw [hself, hrun], by rw [hself, hlen]⟩

/-! ## The inner loop -/

/-- What grep writes of some lines. -/
def written (pattern : List UInt8) (xs : List (List UInt8)) : List (List UInt8) :=
  (xs.filter (matchText pattern)).map (· ++ [10])

theorem written_append (xs ys : List (List UInt8)) :
    written pattern (xs ++ ys) = written pattern xs ++ written pattern ys := by
  rw [written, List.filter_append, List.map_append]
  rfl

theorem lineLoop_line (old : List UInt8) (hnl : 10 ∉ x) (hnul : 0 ∉ x) (rest : List UInt8)
    (fuel : Nat) : ∃ c, lineLoop pattern (fuel + 1) (old ++ (x ++ 10 :: rest)) old.length out
      = lineLoop pattern fuel ((old ++ x ++ [c]) ++ rest) (old ++ x ++ [c]).length
          (out ++ written pattern [x]) := by
  have hq : old.length + x.length = (old ++ x).length := List.length_append.symm
  have hstore : ∀ c d : UInt8,
      storeAt ((old ++ x) ++ d :: rest) (old.length + x.length) c = some ((old ++ x) ++ c :: rest) := by
    intro c d
    rw [hq, storeAt_append]
  have hnext : ∀ c : UInt8, old.length + x.length + 1 = (old ++ x ++ [c]).length := by
    intro c
    rw [List.length_append, List.length_append, List.length_singleton]
  have hline : cut ((old ++ x ++ 0 :: rest).drop old.length) = x := by
    rw [List.append_assoc, List.drop_left, cut_append hnul]
  rw [lineLoop, List.drop_left, strchr_line hnl hnul, ← List.append_assoc]
  simp only [Option.bind_eq_bind, Option.bind_some, hstore, hline]
  by_cases hmatch : matchText pattern x = true
  · refine ⟨10, ?_⟩
    have hslice : slice (old ++ x ++ 10 :: rest) old.length (old.length + x.length + 1) = x ++ [10] := by
      have hlen : old.length + x.length + 1 - old.length = (x ++ [(10 : UInt8)]).length := by
        rw [List.length_append, List.length_singleton]
        omega
      rw [slice, hlen, List.append_assoc, List.drop_left]
      have happ : x ++ 10 :: rest = x ++ [10] ++ rest := by simp
      rw [happ, List.take_left]
    have hwritten : written pattern [x] = [x ++ [10]] := by
      rw [written, List.filter_cons_of_pos hmatch]
      rfl
    rw [if_pos hmatch, hslice, hwritten, hnext 10, List.append_assoc (old ++ x)]
    rfl
  · refine ⟨0, ?_⟩
    have hwritten : written pattern [x] = [] := by
      rw [written, List.filter_cons_of_neg hmatch]
      rfl
    rw [if_neg hmatch, hwritten, List.append_nil, hnext 0, List.append_assoc (old ++ x)]
    rfl

theorem lineLoop_lines (pattern : List UInt8) (out : List (List UInt8)) (old : List UInt8) (hlines : ∀ x ∈ xs, 10 ∉ x ∧ 0 ∉ x)
    (hopen : 10 ∉ x ∧ 0 ∉ x) (rest : List UInt8) {fuel : Nat} (hfuel : xs.length < fuel) :
    ∃ old', old'.length = old.length + (joinLines 10 xs).length ∧
      lineLoop pattern fuel (old ++ (joinLines 10 xs ++ (x ++ 0 :: rest))) old.length out
        = some (old' ++ (x ++ 0 :: rest), old'.length, out ++ written pattern xs) := by
  induction xs generalizing old out fuel with
  | nil =>
    obtain ⟨fuel, rfl⟩ : ∃ f, fuel = f + 1 := ⟨fuel - 1, by rw [List.length_nil] at hfuel; omega⟩
    refine ⟨old, rfl, ?_⟩
    rw [lineLoop, joinLines, List.flatMap_nil, List.nil_append, List.drop_left,
      strchr_open hopen.1 hopen.2]
    simp [written]
  | cons y xs ih =>
    obtain ⟨fuel, rfl⟩ : ∃ f, fuel = f + 1 := ⟨fuel - 1, by omega⟩
    obtain ⟨hnl, hnul⟩ := hlines y List.mem_cons_self
    rw [joinLines_cons, List.append_assoc, List.cons_append]
    obtain ⟨c, hround⟩ := lineLoop_line old hnl hnul (joinLines 10 xs ++ (x ++ 0 :: rest)) fuel
    rw [hround]
    obtain ⟨old', hlen, hrun⟩ := ih (out ++ written pattern [y]) (old ++ y ++ [c])
      (fun z hz => hlines z (List.mem_cons_of_mem _ hz)) (Nat.lt_of_succ_lt_succ hfuel)
    refine ⟨old', ?_, ?_⟩
    · rw [hlen]
      simp only [List.length_append, List.length_cons, List.length_nil]
      omega
    · rw [hrun, List.append_assoc, ← written_append]
      rfl

/-! ## A round of the outer loop -/

/-- The lines that a round completes. -/
def completed (pend chunk : List UInt8) : List (List UInt8) := (splitLines 10 (pend ++ chunk)).1

/-- The open line after a round: none if no line was completed. -/
def pending (pend chunk : List UInt8) : List UInt8 :=
  if completed pend chunk = [] then [] else (splitLines 10 (pend ++ chunk)).2

theorem afterRead_eq (hbuf : (pend ++ rest).length = 1024) (hnul : 0 ∉ pend ++ chunk)
    (hroom : chunk.length ≤ 1024 - pend.length - 1) (hpos : 0 < chunk.length) : ∃ rest',
    afterRead pattern chunk (pend ++ rest) pend.length out
        = some (pending pend chunk ++ rest', (pending pend chunk).length,
            out ++ written pattern (completed pend chunk)) ∧
      (pending pend chunk ++ rest').length = 1024 := by
  have hlen : pend.length + rest.length = 1024 := by rwa [List.length_append] at hbuf
  have hsplit := isSplit_splitLines 10 (pend ++ chunk)
  have hjoin := hsplit.join
  -- the array with the piece and the NUL behind it
  obtain ⟨d, junk, hjunk⟩ : ∃ d junk, rest.drop chunk.length = d :: junk :=
    List.exists_cons_of_length_pos (by rw [List.length_drop]; omega)
  have hjunklen : chunk.length + junk.length + 1 = rest.length := by
    have hl := congrArg List.length hjunk
    rw [List.length_drop, List.length_cons] at hl
    omega
  have hfill : fill chunk (pend ++ rest) pend.length = some (pend ++ chunk ++ d :: junk) := by
    rw [fill_append pend (by omega), hjunk]
  have hm : pend.length + chunk.length = (pend ++ chunk).length := List.length_append.symm
  have hnuls : ∀ x ∈ completed pend chunk, 10 ∉ x ∧ 0 ∉ x := by
    intro x hx
    refine ⟨hsplit.lines x hx, fun hzero => hnul ?_⟩
    rw [← hjoin]
    exact List.mem_append_left _ (List.mem_flatMap.mpr ⟨x, hx, List.mem_append_left _ hzero⟩)
  have hopen : 10 ∉ (splitLines 10 (pend ++ chunk)).2 ∧ 0 ∉ (splitLines 10 (pend ++ chunk)).2 :=
    ⟨hsplit.last, fun hzero => hnul (hjoin ▸ List.mem_append_right _ hzero)⟩
  have hxs : (splitLines 10 (pend ++ chunk)).1 = completed pend chunk := rfl
  rw [hxs] at hjoin
  unfold pending
  generalize completed pend chunk = xs at hjoin hnuls ⊢
  generalize (splitLines 10 (pend ++ chunk)).2 = x at hjoin hopen ⊢
  have hlens := congrArg List.length hjoin
  rw [List.length_append] at hlens
  have hle : xs.length ≤ (joinLines 10 xs).length := length_le_joinLines
  obtain ⟨old, hold, hloop⟩ := lineLoop_lines pattern out [] hnuls hopen junk
    (by omega : xs.length < (pend ++ chunk).length + 1)
  rw [List.nil_append, List.length_nil, ← List.append_assoc, hjoin] at hloop
  rw [List.length_nil, Nat.zero_add] at hold
  unfold afterRead
  simp only [Option.bind_eq_bind, Option.bind_some, hfill, hm, storeAt_append, hloop]
  by_cases hnone : xs = []
  · have hzero : old.length = 0 := by rw [hold, hnone]; rfl
    rw [if_pos hzero, if_neg (Nat.lt_irrefl 0), if_pos hnone]
    refine ⟨old ++ (x ++ 0 :: junk), rfl, ?_⟩
    rw [List.nil_append, List.length_append, List.length_append, List.length_cons]
    rw [List.length_append] at hlens
    omega
  · have hsome : 0 < xs.length := List.length_pos_iff.mpr hnone
    have hn : (pend ++ chunk).length - old.length = x.length := by omega
    obtain ⟨rest', hmove, hlen'⟩ := memmoveIn_front old x (0 :: junk)
    have hp : old.length ≠ 0 := by omega
    have hmpos : 0 < (pend ++ chunk).length := by omega
    rw [if_neg hp, if_pos hmpos, hn, if_neg hnone, ← List.append_assoc, hmove]
    refine ⟨rest', rfl, ?_⟩
    rw [hlen', List.length_append, List.length_append, List.length_cons]
    rw [List.length_append] at hlens
    omega

/-! ## Whole files -/

/-- The lines as grep sees them, with the open line `pend` in the array. -/
def seen : List UInt8 → List (List UInt8) → List (List UInt8)
  | _, [] => []
  | pend, chunk :: chunks => completed pend chunk ++ seen (pending pend chunk) chunks

/-- `read` may deliver the pieces: none is empty or longer than the room behind the open line. -/
def Delivered : List UInt8 → List (List UInt8) → Prop
  | _, [] => True
  | pend, chunk :: chunks =>
    (0 < chunk.length ∧ chunk.length ≤ 1024 - pend.length - 1) ∧ Delivered (pending pend chunk) chunks

theorem pending_subset {c : UInt8} (h : c ∈ pending pend chunk) : c ∈ pend ++ chunk := by
  unfold pending at h
  split_ifs at h
  · cases h
  · have hjoin := (isSplit_splitLines 10 (pend ++ chunk)).join
    rw [← hjoin]
    exact List.mem_append_right _ h

theorem notMem_pending : 10 ∉ pending pend chunk := by
  unfold pending
  split_ifs
  · exact List.not_mem_nil
  · exact (isSplit_splitLines 10 (pend ++ chunk)).last

/-- grep writes the lines that match of those that it sees. -/
theorem grep_eq (hdel : Delivered pend chunks) (hbuf : (pend ++ rest).length = 1024)
    (hnul : 0 ∉ pend ++ chunks.flatten) :
    grep pattern chunks (pend ++ rest) pend.length out
      = some (out ++ written pattern (seen pend chunks)) := by
  induction chunks generalizing pend rest out with
  | nil => simp [grep, seen, written]
  | cons chunk chunks ih =>
    obtain ⟨hchunk, hrest⟩ := hdel
    rw [List.flatten_cons, ← List.append_assoc] at hnul
    obtain ⟨rest', hround, hlen⟩ := afterRead_eq hbuf (fun h => hnul (List.mem_append_left _ h))
      hchunk.2 hchunk.1
    have hnul' : 0 ∉ pending pend chunk ++ chunks.flatten := by
      intro h
      rcases List.mem_append.mp h with h | h
      · exact hnul (List.mem_append_left _ (pending_subset h))
      · exact hnul (List.mem_append_right _ h)
    rw [grep, if_pos hchunk, hround]
    simp only [Option.bind_eq_bind, Option.bind_some]
    rw [ih hrest hlen hnul', seen, written_append, List.append_assoc]

theorem notMem_seen {x : List UInt8} (h : x ∈ seen pend chunks) : 10 ∉ x := by
  induction chunks generalizing pend with
  | nil => cases h
  | cons chunk chunks ih =>
    rcases List.mem_append.mp h with h | h
    · exact (isSplit_splitLines 10 (pend ++ chunk)).lines x h
    · exact ih h

/-- With a newline in every piece nothing is lost. -/
theorem joinLines_seen (hpend : 10 ∉ pend) (hnl : ∀ c ∈ chunks, 10 ∈ c) :
    ∃ last, 10 ∉ last ∧ joinLines 10 (seen pend chunks) ++ last = pend ++ chunks.flatten := by
  induction chunks generalizing pend with
  | nil => exact ⟨pend, hpend, by simp [seen, joinLines]⟩
  | cons chunk chunks ih =>
    obtain ⟨last, hlast, hjoin⟩ := ih notMem_pending fun c hc => hnl c (List.mem_cons_of_mem _ hc)
    have hsplit := isSplit_splitLines 10 (pend ++ chunk)
    have hsome : completed pend chunk ≠ [] := by
      intro hnone
      have hself : (splitLines 10 (pend ++ chunk)).2 = pend ++ chunk := by
        have hj := hsplit.join
        rwa [show (splitLines 10 (pend ++ chunk)).1 = [] from hnone] at hj
      refine hsplit.last ?_
      rw [hself]
      exact List.mem_append_right _ (hnl chunk List.mem_cons_self)
    have hpending : pending pend chunk = (splitLines 10 (pend ++ chunk)).2 := if_neg hsome
    refine ⟨last, hlast, ?_⟩
    rw [seen, joinLines_append, List.append_assoc, hjoin, hpending, List.flatten_cons,
      ← List.append_assoc, ← List.append_assoc]
    exact congrArg (· ++ _) hsplit.join

/-- grep sees no more bytes than there are, and fewer if a piece has no newline. -/
theorem length_seen (hdel : Delivered pend chunks) (hpend : 10 ∉ pend) :
    (joinLines 10 (seen pend chunks)).length ≤ pend.length + chunks.flatten.length ∧
      ((∃ c ∈ chunks, 10 ∉ c) →
        (joinLines 10 (seen pend chunks)).length < pend.length + chunks.flatten.length) := by
  induction chunks generalizing pend with
  | nil => exact ⟨Nat.zero_le _, fun ⟨_, hc, _⟩ => absurd hc List.not_mem_nil⟩
  | cons chunk chunks ih =>
    obtain ⟨hchunk, hrest⟩ := hdel
    obtain ⟨hle, hlt⟩ := ih hrest notMem_pending
    have hsplit := isSplit_splitLines 10 (pend ++ chunk)
    have hlens := congrArg List.length hsplit.join
    rw [List.length_append, List.length_append] at hlens
    rw [seen, joinLines_append, List.length_append, List.flatten_cons, List.length_append]
    by_cases hnone : completed pend chunk = []
    · -- all of it is dropped
      have hpending : pending pend chunk = [] := if_pos hnone
      rw [hpending, List.length_nil] at hle
      rw [hnone, hpending]
      have hzero : (joinLines 10 ([] : List (List UInt8))).length = 0 := rfl
      omega
    · have hpending : pending pend chunk = (splitLines 10 (pend ++ chunk)).2 := if_neg hnone
      have hcompleted : completed pend chunk = (splitLines 10 (pend ++ chunk)).1 := rfl
      rw [hpending] at hle hlt ⊢
      rw [hcompleted]
      refine ⟨by omega, ?_⟩
      rintro ⟨c, hc, hno⟩
      rcases List.mem_cons.mp hc with rfl | hc
      · -- a piece without a newline completes no line
        have hnl : 10 ∉ pend ++ c := fun h => (List.mem_append.mp h).elim hpend hno
        exact absurd (congrArg Prod.fst (splitLines_of_notMem hnl)) hnone
      · have hless := hlt ⟨c, hc, hno⟩
        omega

/-- The lines of a file: they have neither a newline nor a NUL, and fit into the array. -/
def AreLines (ls : List (List UInt8)) : Prop := ∀ l ∈ ls, 10 ∉ l ∧ 0 ∉ l ∧ l.length ≤ 1022

/-- grep writes the lines that match, in order, each once. -/
def Prints (pattern buf : List UInt8) (chunks ls : List (List UInt8)) : Prop :=
  grep pattern chunks buf 0 [] = some ((ls.filter (matchText pattern)).map (· ++ [10]))

theorem matchText_nil (text : List UInt8) : matchText [] text = true := by
  cases text with
  | nil => rfl
  | cons t text => rfl

/-- For every file and every way in which it may be read, grep prints the lines that match, for
every pattern, exactly if every piece that was read has a newline. -/
theorem grep_prints_iff {buf : List UInt8} {chunks ls : List (List UInt8)} (hbuf : buf.length = 1024)
    (hls : AreLines ls) (hfile : chunks.flatten = joinLines 10 ls) (hdel : Delivered [] chunks) :
    (∀ pattern, Prints pattern buf chunks ls) ↔ ∀ c ∈ chunks, 10 ∈ c := by
  have hnul : 0 ∉ [] ++ chunks.flatten := by
    rw [List.nil_append, hfile]
    intro h
    obtain ⟨l, hl, hmem⟩ := List.mem_flatMap.mp h
    rcases List.mem_append.mp hmem with hmem | hmem
    · exact (hls l hl).2.1 hmem
    · exact absurd (List.mem_singleton.mp hmem) (by decide)
  have hrun : ∀ pattern, grep pattern chunks buf 0 [] = some (written pattern (seen [] chunks)) :=
    fun pattern => grep_eq hdel hbuf hnul
  constructor
  · intro hprints c hc
    by_contra hno
    -- the empty pattern prints whatever is seen
    have hall : ∀ xs : List (List UInt8), written [] xs = xs.map (· ++ [10]) := by
      intro xs
      rw [written, List.filter_eq_self.mpr fun x _ => matchText_nil x]
    have heq := (hrun []).symm.trans (hprints [])
    have hlines : (ls.filter (matchText [])).map (· ++ [10]) = ls.map (· ++ [10]) := hall ls
    rw [hall, hlines] at heq
    have hsame : joinLines 10 (seen [] chunks) = joinLines 10 ls := by
      rw [joinLines, joinLines, List.flatMap_def, List.flatMap_def, Option.some.inj heq]
    obtain ⟨-, hlt⟩ := length_seen hdel List.not_mem_nil
    have hless := hlt ⟨c, hc, hno⟩
    rw [hsame, hfile, List.length_nil] at hless
    omega
  · intro hnl pattern
    obtain ⟨last, hlast, hjoin⟩ := joinLines_seen List.not_mem_nil hnl
    rw [List.nil_append, hfile] at hjoin
    have hseen : seen [] chunks = ls := by
      have hsplit : IsSplit 10 (joinLines 10 ls) (seen [] chunks) last :=
        ⟨hjoin, fun _ hx => notMem_seen hx, hlast⟩
      have hself : IsSplit 10 (joinLines 10 ls) ls [] :=
        ⟨List.append_nil _, fun l hl => (hls l hl).1, List.not_mem_nil⟩
      exact congrArg Prod.fst (hsplit.eq_splitLines.symm.trans hself.eq_splitLines)
    exact (hrun pattern).trans (by rw [hseen]; rfl)

/-- A file of one line that is read as a whole. -/
theorem grep_prints_whole : Prints [97] (List.replicate 1024 0) [[97, 98, 10]] [[97, 98]] := by
  have hls : AreLines [[97, 98]] := by unfold AreLines; decide
  refine (grep_prints_iff List.length_replicate hls rfl ?_).mpr (by decide) [97]
  exact ⟨by decide, trivial⟩

/-- The line `ab` comes through a pipe one byte at a time, as `printf` writes it. It matches `a`, and
grep prints nothing. -/
theorem grep_loses_line : AreLines [[97, 98]] ∧ Delivered [] [[97], [98], [10]] ∧
    [[97], [98], [10]].flatten = joinLines 10 [[(97 : UInt8), 98]] ∧
    grep [97] [[97], [98], [10]] (List.replicate 1024 0) 0 [] = some [] ∧
    ¬ Prints [97] (List.replicate 1024 0) [[97], [98], [10]] [[97, 98]] := by
  have hrun : grep [97] [[97], [98], [10]] (List.replicate 1024 0) 0 [] = some [] := by
    decide +kernel
  refine ⟨by unfold AreLines; decide, ⟨by decide, by decide, by decide, trivial⟩, rfl, hrun, ?_⟩
  unfold Prints
  rw [hrun]
  decide

end Xv6Sharing.User.Grep
