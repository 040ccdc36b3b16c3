/-
Xv6Sharing.User.Scan — the loop over the sentences in liSa's `main` (user/liSa.c).

The buffer is the list of the bytes that were read, so a read behind them has no
result. Nothing ends the search for the end of a sentence but a terminator, so a
file that does not end with one is read past its end. `Within` says for which files
every access stays inside its array.
-/
import Xv6Sharing.User.LiSa

namespace Xv6Sharing.User

open Lib

/-! ## The loop -/

/-- The search for the end of a sentence, over what is left of the buffer. -/
def findTerminator : List UInt8 → Option Nat
  | [] => none
  | c :: rest => if Terminator c then some 0 else (findTerminator rest).map (· + 1)

/-- The shared data, and the `end` of every call of `check_current_setence` so far. -/
structure Progress where
  currSent : Nat
  shared : Shared
  calls : List Nat

/-- The loop from `i` on. `word k` is what is on the stack in the `k`-th call, and `ended k` says
that the user ends the program after it, at once or out of a pause; a pause itself only waits. -/
def sentenceLoop (buff : List UInt8) (word : Nat → List UInt8) (ended : Nat → Bool) (i : Nat)
    (p : Progress) : Option Progress :=
  if _h : i ≥ buff.length then some p
  else do
    let c ← buff[i]?
    let start := if c = space then i + 1 else i
    let n ← findTerminator (buff.drop start)
    let shared ← checkCurrentSetence (word p.calls.length) buff start (start + n) p.shared
    let next : Progress := ⟨(p.currSent + 1) % 2 ^ 32, shared, p.calls ++ [start + n]⟩
    if ended p.calls.length then some next
    else sentenceLoop buff word ended (start + n + 1) next
termination_by buff.length - i
decreasing_by
  split <;> omega

/-! ## The sentences of a text -/

/-- The space behind the end of the sentence before. -/
def skipSpace : List UInt8 → List UInt8
  | [] => []
  | c :: text => if c = space then text else c :: text

/-- The sentences that a terminator ends. -/
def sentences (r : List UInt8) : List (List UInt8) :=
  (r.splitOnP (decide <| Terminator ·)).dropLast.map skipSpace

/-- The positions of the terminators in what stands from `i` on. -/
def terminators : Nat → List UInt8 → List Nat
  | _, [] => []
  | i, c :: r => if Terminator c then i :: terminators (i + 1) r else terminators (i + 1) r

/-- The text is empty or ends with a terminator, and the words of each sentence fit. -/
structure Within (r : List UInt8) : Prop where
  last : ∀ c ∈ r.getLast?, Terminator c
  fits : ∀ text ∈ sentences r, Fits (text.splitOn space)

section

variable {buff r text rest : List UInt8} {t : UInt8} {word : Nat → List UInt8} {ended : Nat → Bool}
  {i : Nat} {p : Progress}

theorem exists_sentence (r : List UInt8) : (∀ c ∈ r, ¬ Terminator c) ∨
    ∃ text t rest, r = text ++ t :: rest ∧ Terminator t ∧ ∀ c ∈ text, ¬ Terminator c := by
  induction r with
  | nil => exact .inl nofun
  | cons c r ih =>
    by_cases hc : Terminator c
    · exact .inr ⟨[], c, r, rfl, hc, nofun⟩
    · rcases ih with hnone | ⟨text, t, rest, rfl, ht, hnone⟩
      · exact .inl (List.forall_mem_cons.mpr ⟨hc, hnone⟩)
      · exact .inr ⟨c :: text, t, rest, rfl, ht, List.forall_mem_cons.mpr ⟨hc, hnone⟩⟩

theorem terminators_append (ht : Terminator t) (hnone : ∀ c ∈ text, ¬ Terminator c) (i : Nat) :
    terminators i (text ++ t :: rest)
      = (i + text.length) :: terminators (i + text.length + 1) rest := by
  induction text generalizing i with
  | nil => exact if_pos ht
  | cons c text ih =>
    obtain ⟨hc, hnone⟩ := List.forall_mem_cons.mp hnone
    rw [List.cons_append, terminators, if_neg hc, ih hnone, List.length_cons]
    simp only [Nat.add_assoc, Nat.add_comm 1]

theorem findTerminator_append (ht : Terminator t) (hnone : ∀ c ∈ text, ¬ Terminator c) :
    findTerminator (text ++ t :: rest) = some text.length := by
  induction text with
  | nil => exact if_pos ht
  | cons c text ih =>
    obtain ⟨hc, hnone⟩ := List.forall_mem_cons.mp hnone
    rw [List.cons_append, findTerminator, if_neg hc, ih hnone]
    rfl

theorem findTerminator_eq_none (hnone : ∀ c ∈ r, ¬ Terminator c) : findTerminator r = none := by
  induction r with
  | nil => rfl
  | cons c r ih =>
    obtain ⟨hc, hnone⟩ := List.forall_mem_cons.mp hnone
    rw [findTerminator, if_neg hc, ih hnone]
    rfl

theorem within_append (ht : Terminator t) (hnone : ∀ c ∈ text, ¬ Terminator c) :
    Within (text ++ t :: rest) ↔ Fits ((skipSpace text).splitOn space) ∧ Within rest := by
  have hlast : (∀ c ∈ (text ++ t :: rest).getLast?, Terminator c)
      ↔ ∀ c ∈ rest.getLast?, Terminator c := by
    cases rest with
    | nil => simpa using ht
    | cons d rest => simp [List.getLast?_append, List.getLast?_cons_cons]
  have hsentences : sentences (text ++ t :: rest) = skipSpace text :: sentences rest := by
    rw [sentences, List.splitOnP_append_cons_of_forall_mem (by simpa using hnone) t
      (decide_eq_true ht) rest, List.dropLast_cons_of_ne_nil (List.splitOnP_ne_nil _ _),
      List.map_cons, sentences]
  constructor
  · rintro ⟨hl, hfits⟩
    rw [hsentences, List.forall_mem_cons] at hfits
    exact ⟨hfits.1, hlast.mp hl, hfits.2⟩
  · rintro ⟨hfits, hl, hrest⟩
    exact ⟨hlast.mpr hl, hsentences ▸ List.forall_mem_cons.mpr ⟨hfits, hrest⟩⟩

theorem not_within (hr : r ≠ []) (hnone : ∀ c ∈ r, ¬ Terminator c) : ¬ Within r := by
  intro h
  exact hnone _ (List.getLast_mem hr) (h.last _ (List.getLast?_eq_getLast_of_ne_nil hr))

/-! ## One round -/

theorem drop_sentence (hr : text ++ t :: rest = buff.drop i) :
    rest = buff.drop (i + text.length + 1) := by
  rw [Nat.add_assoc, ← List.drop_drop, ← hr, ← List.drop_drop, List.drop_left]
  rfl

/-- The text without the space, and where it starts. -/
theorem skipSpace_cases (hr : text ++ t :: rest = buff.drop i) (ht : Terminator t) :
    ∃ c start, buff[i]? = some c ∧ (if c = space then i + 1 else i) = start ∧
      buff.drop start = skipSpace text ++ t :: rest ∧
      start + (skipSpace text).length = i + text.length := by
  have hget : ∀ {c : UInt8} {r : List UInt8}, c :: r = buff.drop i → buff[i]? = some c :=
    fun h => by rw [← List.head?_drop, ← h]; rfl
  cases text with
  | nil =>
    have hspace : t ≠ space := by
      rintro rfl
      exact absurd ht (by decide)
    exact ⟨t, i, hget hr, if_neg hspace, hr.symm, rfl⟩
  | cons c text =>
    by_cases hc : c = space
    · refine ⟨c, i + 1, hget hr, if_pos hc, ?_, ?_⟩
      · rw [← List.drop_drop, ← hr, skipSpace, if_pos hc]
        rfl
      · rw [skipSpace, if_pos hc, List.length_cons]
        omega
    · refine ⟨c, i, hget hr, if_neg hc, ?_, ?_⟩
      · rw [skipSpace, if_neg hc, ← hr]
      · rw [skipSpace, if_neg hc]

theorem sentenceLoop_round (word : Nat → List UInt8) (ended : Nat → Bool) (p : Progress)
    (hr : text ++ t :: rest = buff.drop i) (ht : Terminator t) (hnone : ∀ c ∈ text, ¬ Terminator c) : ∃ start,
    Sentence buff start (i + text.length) (skipSpace text) ∧
    sentenceLoop buff word ended i p =
      (checkCurrentSetence (word p.calls.length) buff start (i + text.length) p.shared).bind
        fun shared =>
          let next : Progress := ⟨(p.currSent + 1) % 2 ^ 32, shared, p.calls ++ [i + text.length]⟩
          if ended p.calls.length then some next
          else sentenceLoop buff word ended (i + text.length + 1) next := by
  obtain ⟨c, start, hget, hstart, hdrop, hlen⟩ := skipSpace_cases hr ht
  have hlt : ¬ i ≥ buff.length := not_le.mpr (List.getElem?_eq_some_iff.mp hget).1
  have hskip : ∀ d ∈ skipSpace text, ¬ Terminator d := by
    cases text with
    | nil => exact hnone
    | cons d text =>
      rw [skipSpace]
      split
      · exact (List.forall_mem_cons.mp hnone).2
      · exact hnone
  refine ⟨start, ⟨hlen.symm, t, rest, hdrop⟩, ?_⟩
  rw [sentenceLoop, dif_neg hlt, hget]
  simp only [Option.bind_eq_bind, Option.bind_some, hstart, hdrop,
    findTerminator_append ht hskip, hlen]

theorem sentenceLoop_unended (hr : r = buff.drop i) (hne : r ≠ [])
    (hnone : ∀ c ∈ r, ¬ Terminator c) : sentenceLoop buff word ended i p = none := by
  obtain ⟨c, r, rfl⟩ := List.exists_cons_of_ne_nil hne
  have hget : buff[i]? = some c := by rw [← List.head?_drop, ← hr]; rfl
  have hlt : ¬ i ≥ buff.length := not_le.mpr (List.getElem?_eq_some_iff.mp hget).1
  have hrest : findTerminator (buff.drop (if c = space then i + 1 else i)) = none := by
    apply findTerminator_eq_none
    split
    · rw [← List.drop_drop, ← hr]
      exact (List.forall_mem_cons.mp hnone).2
    · rw [← hr]
      exact hnone
  rw [sentenceLoop, dif_neg hlt, hget]
  simp only [Option.bind_eq_bind, Option.bind_some, hrest, Option.bind_none]

/-! ## All rounds -/

/-- The calls `new` from `p` to `out`: one for each of the terminators `ts` in order, until the
user ends the program. -/
structure Scanned (ts : List Nat) (ended : Nat → Bool) (p out : Progress) (new : List Nat) :
    Prop where
  calls : out.calls = p.calls ++ new
  order : new <+: ts
  all : new = ts ∨ ∃ k, new.length = k + 1 ∧ ended (p.calls.length + k) = true
  going : ∀ k, k + 1 < new.length → ended (p.calls.length + k) = false
  currSent : out.currSent = (p.currSent + new.length) % 2 ^ 32

theorem Scanned.cons {ts new : List Nat} {out : Progress} {sh : Shared} {j : Nat}
    (hended : ended p.calls.length = false)
    (h : Scanned ts ended ⟨(p.currSent + 1) % 2 ^ 32, sh, p.calls ++ [j]⟩ out new) :
    Scanned (j :: ts) ended p out (j :: new) := by
  have hlen : ∀ k, (p.calls ++ [j]).length + k = p.calls.length + (k + 1) := fun k => by
    rw [List.length_append, List.length_singleton]
    omega
  refine ⟨?_, List.cons_prefix_cons.mpr ⟨rfl, h.order⟩, ?_, fun k hk => ?_, ?_⟩
  · rw [h.calls, List.append_assoc, List.singleton_append]
  · rcases h.all with rfl | ⟨k, hk, hend⟩
    · exact .inl rfl
    · rw [hlen] at hend
      exact .inr ⟨k + 1, congrArg (· + 1) hk, hend⟩
  · cases k with
    | zero => exact hended
    | succ k =>
      rw [← hlen]
      exact h.going k (Nat.lt_of_succ_lt_succ hk)
  · rw [h.currSent, List.length_cons, Nat.mod_add_mod, Nat.add_right_comm, Nat.add_assoc]

/-- Inside the arrays the loop comes to its end. -/
theorem sentenceLoop_within (ended : Nat → Bool) (hword : ∀ k, (word k).length = 30) (hr : r = buff.drop i)
    (h : Within r) (hsized : p.shared.Sized) (hcurr : p.currSent < 2 ^ 32) :
    ∃ out new, sentenceLoop buff word ended i p = some out ∧
      Scanned (terminators i r) ended p out new := by
  induction hn : r.length using Nat.strong_induction_on generalizing r i p with
  | _ n ih =>
    by_cases hne : r = []
    · have hle : i ≥ buff.length := List.drop_eq_nil_iff.mp (hr.symm.trans hne)
      refine ⟨p, [], by rw [sentenceLoop, dif_pos hle], ?_⟩
      rw [hne]
      exact ⟨(List.append_nil _).symm, List.prefix_rfl, .inl rfl, nofun,
        (Nat.mod_eq_of_lt hcurr).symm⟩
    · rcases exists_sentence r with hnone | ⟨text, t, rest, rfl, ht, hnone⟩
      · exact absurd h (not_within hne hnone)
      · obtain ⟨hfits, hwithin⟩ := (within_append ht hnone).mp h
        obtain ⟨start, hsentence, hround⟩ := sentenceLoop_round word ended p hr ht hnone
        obtain ⟨sh', hcheck, hnoted⟩ :=
          checkCurrentSetence_noted (hword p.calls.length) hsentence hsized hfits
        rw [hcheck, Option.bind_some] at hround
        rw [hround, terminators_append ht hnone]
        cases hended : ended p.calls.length with
        | true =>
          refine ⟨_, [i + text.length], if_pos rfl, rfl, ?_, .inr ⟨0, rfl, hended⟩, nofun, rfl⟩
          exact List.cons_prefix_cons.mpr ⟨rfl, List.nil_prefix⟩
        | false =>
          have hshorter : rest.length < n := by
            rw [← hn, List.length_append, List.length_cons]
            omega
          obtain ⟨out, new, hout, hscanned⟩ := ih rest.length hshorter (drop_sentence hr) hwithin
            (p := ⟨_, sh', _⟩) hnoted.sized (Nat.mod_lt _ (by decide)) rfl
          exact ⟨out, _, hout, hscanned.cons hended⟩

/-- Otherwise an access is outside an array, unless the user ends the program before. -/
theorem sentenceLoop_eq_none (hword : ∀ k, (word k).length = 30) (hr : r = buff.drop i)
    (h : ¬ Within r) (hsized : p.shared.Sized) :
    sentenceLoop buff word (fun _ => false) i p = none := by
  induction hn : r.length using Nat.strong_induction_on generalizing r i p with
  | _ n ih =>
    have hne : r ≠ [] := by
      rintro rfl
      exact h ⟨nofun, nofun⟩
    rcases exists_sentence r with hnone | ⟨text, t, rest, rfl, ht, hnone⟩
    · exact sentenceLoop_unended hr hne hnone
    · obtain ⟨start, hsentence, hround⟩ := sentenceLoop_round word (fun _ => false) p hr ht hnone
      rw [hround]
      by_cases hfits : Fits ((skipSpace text).splitOn space)
      · obtain ⟨sh', hcheck, hnoted⟩ :=
          checkCurrentSetence_noted (hword p.calls.length) hsentence hsized hfits
        have hshorter : rest.length < n := by
          rw [← hn, List.length_append, List.length_cons]
          omega
        have hrest : ¬ Within rest := fun hwithin =>
          h ((within_append ht hnone).mpr ⟨hfits, hwithin⟩)
        rw [hcheck]
        exact ih rest.length hshorter (drop_sentence hr) hrest (p := ⟨_, sh', _⟩) hnoted.sized rfl
      · rw [checkCurrentSetence_eq_none (hword p.calls.length) hsentence hsized hfits]
        rfl

end

/-- Whatever the user does and whatever is on the stack, the loop stays inside its arrays, comes to
its end and calls `check_current_setence` for one terminator after the other, counting the calls,
exactly for the files that end with a terminator and whose words fit. -/
theorem scan_iff_within {buff : List UInt8} {word : Nat → List UInt8} {sh : Shared} {currSent : Nat}
    (hword : ∀ k, (word k).length = 30) (hsized : sh.Sized) (hcurr : currSent < 2 ^ 32) :
    (∀ ended, ∃ out, sentenceLoop buff word ended 0 ⟨currSent, sh, []⟩ = some out ∧
      Scanned (terminators 0 buff) ended ⟨currSent, sh, []⟩ out out.calls) ↔ Within buff := by
  constructor
  · intro hall
    by_contra hnot
    obtain ⟨out, hout, -⟩ := hall fun _ => false
    rw [sentenceLoop_eq_none hword List.drop_zero.symm hnot hsized] at hout
    cases hout
  · intro hwithin ended
    obtain ⟨out, new, hout, hscanned⟩ :=
      sentenceLoop_within ended hword List.drop_zero.symm hwithin
        (p := ⟨currSent, sh, []⟩) hsized hcurr
    have hnew : out.calls = new := hscanned.calls
    exact ⟨out, hout, hnew ▸ hscanned⟩

/-- The file "Hi." -/
theorem scan_iff_within_hi : Within [72, 105, 46] ∧ ∀ ended, ∃ out,
    sentenceLoop [72, 105, 46] (fun _ => List.replicate 30 0) ended 0 ⟨0, noWords, []⟩ = some out ∧
      Scanned (terminators 0 [72, 105, 46]) ended ⟨0, noWords, []⟩ out out.calls := by
  have hsentence : Within ([72, 105] ++ 46 :: []) ↔ _ :=
    within_append (.inl rfl) (by decide +kernel)
  have hwithin := hsentence.mpr ⟨fits_of_short (by decide), nofun, nofun⟩
  exact ⟨hwithin,
    (scan_iff_within (fun _ => List.length_replicate) noWords_sized (by decide)).mpr hwithin⟩

/-- The file "Hi." with a newline behind: the search for the next terminator leaves the buffer. -/
theorem scan_newline : ¬ ∀ (buff : List UInt8) (word : Nat → List UInt8) (sh : Shared)
    (currSent : Nat), (∀ k, (word k).length = 30) → sh.Sized → currSent < 2 ^ 32 →
    ∀ ended, ∃ out, sentenceLoop buff word ended 0 ⟨currSent, sh, []⟩ = some out ∧
      Scanned (terminators 0 buff) ended ⟨currSent, sh, []⟩ out out.calls := by
  intro hall
  have hnot : ¬ Within [72, 105, 46, 10] := fun h => absurd (h.last 10 rfl) (by decide)
  obtain ⟨out, hout, -⟩ := hall [72, 105, 46, 10] (fun _ => List.replicate 30 0) noWords 0
    (fun _ => List.length_replicate) noWords_sized (by decide) fun _ => false
  rw [sentenceLoop_eq_none (fun _ => List.length_replicate) List.drop_zero.symm hnot
    noWords_sized] at hout
  cases hout

end Xv6Sharing.User
