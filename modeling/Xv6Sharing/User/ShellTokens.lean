/-
Xv6Sharing.User.ShellTokens — the tokens of a line of the shell.

`lex` says what the tokens of a line are: words are the longest runs of characters
that are neither whitespace nor symbols, and ">>" is one token. The parser never
sees this list. `toks text s` are the tokens from a position on, and the two
functions the parser is written with, `peek` and `gettoken`, are described by what
they do to it: `peek_run` and `gettoken_run`.
-/
import Mathlib.Data.List.GetD
import Xv6Sharing.User.Shell

namespace Xv6Sharing.User.Sh

open Lib

inductive Kind
  | bar
  | lpar
  | rpar
  | semi
  | amp
  | lt
  | gt
  | append
  | word
  deriving DecidableEq

/-- A token with the positions where it starts and ends. -/
structure Tok where
  kind : Kind
  q : Nat
  eq : Nat
  deriving DecidableEq

/-- The tokens of one character other than '>'. -/
def symbolKind (c : UInt8) : Option Kind :=
  if c = 124 then some .bar
  else if c = 40 then some .lpar
  else if c = 41 then some .rpar
  else if c = 59 then some .semi
  else if c = 38 then some .amp
  else if c = 60 then some .lt
  else none

/-- A word from `q` to `i`, if one has begun. -/
def endWord : Option Nat → Nat → List Tok
  | none, _ => []
  | some q, i => [⟨.word, q, i⟩]

/-- The tokens of what stands from `i` on, behind a word that began before `i`. -/
def lex : Option Nat → Nat → List UInt8 → List Tok
  | w, i, [] => endWord w i
  | w, i, c :: r =>
    if isWordChar c then lex (some (w.getD i)) (i + 1) r
    else endWord w i ++
      if c = 62 then
        match r with
        | [] => [⟨.gt, i, i + 1⟩]
        | d :: r' => if d = 62 then ⟨.append, i, i + 2⟩ :: lex none (i + 2) r'
            else ⟨.gt, i, i + 1⟩ :: lex none (i + 1) (d :: r')
      else (symbolKind c).toList.map (⟨·, i, i + 1⟩) ++ lex none (i + 1) r

def tokens (text : List UInt8) : List Tok := lex none 0 text

/-- The tokens from a position on. -/
def toks (text : List UInt8) (s : Nat) : List Tok := lex none s (text.drop s)

example : (tokens [97, 62, 62, 98, 32, 62, 99]).map Tok.kind
    = [.word, .append, .word, .gt, .word] := by decide

/-! ## Skipping -/

section

variable {text r : List UInt8} {c : UInt8} {s i : Nat} {w : Option Nat} {k : Kind}
  {p : UInt8 → Bool}

theorem skipFrom_spec (p : UInt8 → Bool) (r : List UInt8) (s : Nat) : ∃ pre post,
    r = pre ++ post ∧ (∀ c ∈ pre, p c = true) ∧ (∀ c ∈ post.head?, p c = false) ∧
      skipFrom p r s = s + pre.length := by
  induction r generalizing s with
  | nil => exact ⟨[], [], rfl, nofun, nofun, rfl⟩
  | cons c r ih =>
    by_cases hc : p c = true
    · obtain ⟨pre, post, rfl, hpre, hpost, hskip⟩ := ih (s + 1)
      refine ⟨c :: pre, post, rfl, List.forall_mem_cons.mpr ⟨hc, hpre⟩, hpost, ?_⟩
      rw [skipFrom, if_pos hc, hskip, List.length_cons]
      omega
    · refine ⟨[], c :: r, rfl, nofun, fun d hd => ?_, if_neg hc⟩
      cases hd
      simpa using hc

/-- What is skipped, and where that ends. -/
theorem skip_spec (p : UInt8 → Bool) (text : List UInt8) (s : Nat) : ∃ pre,
    text.drop s = pre ++ text.drop (skip p text s) ∧ (∀ c ∈ pre, p c = true) ∧
      (∀ c ∈ (text.drop (skip p text s)).head?, p c = false) ∧
      skip p text s = s + pre.length := by
  obtain ⟨pre, post, hsplit, hpre, hpost, hskip⟩ := skipFrom_spec p (text.drop s) s
  have hdrop : text.drop (skip p text s) = post := by
    rw [skip, hskip, ← List.drop_drop, hsplit, List.drop_left]
  exact ⟨pre, hdrop ▸ hsplit, hpre, hdrop ▸ hpost, hskip⟩

theorem charAt_of_drop (h : text.drop s = c :: r) : charAt text s = c := by
  have hget : text[s]? = some c := by
    rw [← List.head?_drop, h]
    rfl
  rw [charAt, List.getD_eq_getElem?_getD, hget]
  rfl

theorem charAt_end (h : text.drop s = []) : charAt text s = 0 :=
  List.getD_eq_default _ _ (List.drop_eq_nil_iff.mp h)

theorem drop_succ (h : text.drop s = c :: r) : text.drop (s + 1) = r := by
  rw [← List.drop_drop, h]
  rfl

/-! ## What `lex` does with a character -/

theorem lex_wordChar (h : isWordChar c = true) :
    lex w i (c :: r) = lex (some (w.getD i)) (i + 1) r := by
  rw [lex.eq_def]
  exact if_pos h

theorem lex_endWord (h : ¬ isWordChar c = true) :
    lex w i (c :: r) = endWord w i ++ lex none i (c :: r) := by
  rw [lex.eq_def, lex.eq_def none]
  simp only [if_neg h, endWord, List.nil_append]

theorem lex_single (h : ¬ isWordChar c = true) (hgt : c ≠ 62) :
    lex none i (c :: r) = (symbolKind c).toList.map (⟨·, i, i + 1⟩) ++ lex none (i + 1) r := by
  rw [lex.eq_def]
  simp only [if_neg h, if_neg hgt, endWord, List.nil_append]

theorem lex_append : lex none i (62 :: 62 :: r) = ⟨.append, i, i + 2⟩ :: lex none (i + 2) r := by
  rw [lex.eq_def]
  rfl

theorem lex_gt (h : ∀ d ∈ r.head?, d ≠ 62) :
    lex none i (62 :: r) = ⟨.gt, i, i + 1⟩ :: lex none (i + 1) r := by
  cases r with
  | nil =>
    rw [lex.eq_def]
    rfl
  | cons d r =>
    rw [lex.eq_def]
    exact if_neg (h d rfl)

theorem lex_word {pre : List UInt8} (q i : Nat) (hpre : ∀ c ∈ pre, isWordChar c = true)
    (hr : ∀ c ∈ r.head?, isWordChar c = false) :
    lex (some q) i (pre ++ r) = ⟨.word, q, i + pre.length⟩ :: lex none (i + pre.length) r := by
  induction pre generalizing i with
  | nil =>
    cases r with
    | nil => rfl
    | cons c r =>
      exact lex_endWord (by simp [hr c rfl])
  | cons c pre ih =>
    obtain ⟨hc, hpre⟩ := List.forall_mem_cons.mp hpre
    rw [List.cons_append, lex_wordChar hc, Option.getD_some, ih (i + 1) hpre, List.length_cons]
    simp only [Nat.add_assoc, Nat.add_comm 1]

/-- What `gettoken` returns for a token. -/
def code : Kind → UInt8
  | .bar => 124
  | .lpar => 40
  | .rpar => 41
  | .semi => 59
  | .amp => 38
  | .lt => 60
  | .gt => 62
  | .append => 43
  | .word => 97

/-- The first character of a token that is no word. -/
def firstChar : Kind → Option UInt8
  | .append => some 62
  | .word => none
  | k => some (code k)

theorem isWhitespace_cases (h : isWhitespace c = true) :
    isWordChar c = false ∧ c ≠ 62 ∧ symbolKind c = none := by
  simp only [isWhitespace, whitespace, List.contains_eq_mem, decide_eq_true_eq, List.mem_cons,
    List.not_mem_nil, or_false] at h
  rcases h with rfl | rfl | rfl | rfl | rfl <;> decide

/-- The characters that are neither whitespace nor in a word. -/
theorem symbol_cases (hspace : isWhitespace c = false) (hword : isWordChar c = false) : c = 62 ∨
    ∃ k, symbolKind c = some k ∧ code k = c ∧ firstChar k = some c ∧
      [124, 40, 41, 59, 38, 60].contains c = true := by
  have hsymbol : symbols.contains c = true := by
    unfold isWhitespace at hspace
    unfold isWordChar at hword
    rw [hspace] at hword
    simpa using hword
  simp only [symbols, List.contains_eq_mem, decide_eq_true_eq, List.mem_cons, List.not_mem_nil,
    or_false] at hsymbol
  rcases hsymbol with rfl | rfl | rfl | rfl | rfl | rfl | rfl
  · exact .inr ⟨.lt, by decide⟩
  · exact .inr ⟨.bar, by decide⟩
  · exact .inl rfl
  · exact .inr ⟨.amp, by decide⟩
  · exact .inr ⟨.semi, by decide⟩
  · exact .inr ⟨.lpar, by decide⟩
  · exact .inr ⟨.rpar, by decide⟩

theorem isWordChar_cases (h : isWordChar c = true) :
    c ≠ 62 ∧ [124, 40, 41, 59, 38, 60].contains c = false ∧ symbols.contains c = false := by
  have hsymbol : symbols.contains c = false := by
    unfold isWordChar at h
    simp only [Bool.and_eq_true, Bool.not_eq_true'] at h
    exact h.2
  refine ⟨?_, ?_, hsymbol⟩
  · rintro rfl
    exact absurd hsymbol (by decide)
  · simp only [symbols, List.contains_eq_mem, decide_eq_false_iff_not, List.mem_cons,
      List.not_mem_nil, or_false] at hsymbol ⊢
    tauto

/-! ## The next token -/

theorem toks_skip (text : List UInt8) (s : Nat) :
    toks text (skip isWhitespace text s) = toks text s := by
  obtain ⟨pre, hdrop, hpre, -, hskip⟩ := skip_spec isWhitespace text s
  rw [toks, toks, hdrop, hskip]
  generalize text.drop (s + pre.length) = post
  clear hdrop hskip
  induction pre generalizing s with
  | nil => rfl
  | cons c pre ih =>
    obtain ⟨hc, hpre⟩ := List.forall_mem_cons.mp hpre
    obtain ⟨hword, hgt, hnone⟩ := isWhitespace_cases hc
    rw [List.cons_append, lex_single (by simp [hword]) hgt, hnone, ← ih (s + 1) hpre,
      List.length_cons, Option.toList_none, List.map_nil, List.nil_append]
    simp only [Nat.add_assoc, Nat.add_comm 1]

/-- A token stands at `q`, and is what the switch of `gettoken` sees there. -/
structure TokenAt (text : List UInt8) (q : Nat) (t : Tok) : Prop where
  start : t.q = q
  nonzero : charAt text q ≠ 0
  switch : tokenAt text q = (code t.kind, t.eq)
  toks : toks text q = t :: toks text t.eq
  first : firstChar t.kind = some (charAt text q) ∨
    t.kind = .word ∧ symbols.contains (charAt text q) = false

theorem tokenAt_cases (hnul : 0 ∉ text) {q : Nat}
    (hspace : ∀ c ∈ (text.drop q).head?, isWhitespace c = false) :
    text.drop q = [] ∨ ∃ t, TokenAt text q t := by
  cases hdrop : text.drop q with
  | nil => exact .inl rfl
  | cons c r =>
    refine .inr ?_
    have hc : isWhitespace c = false := hspace c (by rw [hdrop]; rfl)
    have hat := charAt_of_drop hdrop
    have hzero : c ≠ 0 := by
      rintro rfl
      exact hnul (List.mem_of_mem_drop (hdrop ▸ List.mem_cons_self))
    by_cases hword : isWordChar c = true
    · -- a word
      obtain ⟨hgt, hsingle, hsymbol⟩ := isWordChar_cases hword
      obtain ⟨pre, hsplit, hpre, hpost, hskip⟩ := skip_spec isWordChar text q
      obtain ⟨pre, rfl⟩ : ∃ pre', pre = c :: pre' := by
        cases pre with
        | nil =>
          rw [List.nil_append, hdrop] at hsplit
          rw [← hsplit] at hpost
          exact absurd hword (by simp [hpost c rfl])
        | cons d pre =>
          rw [hdrop, List.cons_append] at hsplit
          obtain ⟨rfl, -⟩ := List.cons.inj hsplit
          exact ⟨pre, rfl⟩
      refine ⟨⟨.word, q, skip isWordChar text q⟩, rfl, hat ▸ hzero, ?_, ?_, .inr ⟨rfl, hat ▸ hsymbol⟩⟩
      · rw [tokenAt, hat, if_neg hzero, if_neg (by rw [hsingle]; decide), if_neg hgt]
        rfl
      · have hlex := lex_word q (q + 1) (List.forall_mem_cons.mp hpre).2 hpost
        rw [List.length_cons] at hskip
        have hend : q + 1 + pre.length = skip isWordChar text q := by omega
        rw [hend] at hlex
        rw [toks, hsplit, List.cons_append, lex_wordChar hword]
        exact hlex
    · have hword' : isWordChar c = false := by simpa using hword
      rcases symbol_cases hc hword' with rfl | ⟨k, hkind, hcode, hfirst, hmem⟩
      · -- '>' or ">>"
        by_cases hnext : charAt text (q + 1) = 62
        · obtain ⟨r', rfl⟩ : ∃ r', r = 62 :: r' := by
            cases r with
            | nil => exact absurd hnext (by rw [charAt_end (drop_succ hdrop)]; decide)
            | cons d r => exact ⟨r, by rw [← hnext, charAt_of_drop (drop_succ hdrop)]⟩
          refine ⟨⟨.append, q, q + 2⟩, rfl, hat ▸ hzero, ?_, ?_, .inl (by rw [hat]; rfl)⟩
          · rw [tokenAt, hat, if_neg hzero, if_neg (by decide), if_pos rfl, if_pos hnext]
            rfl
          · rw [toks, toks, hdrop, lex_append, drop_succ (drop_succ hdrop)]
        · refine ⟨⟨.gt, q, q + 1⟩, rfl, hat ▸ hzero, ?_, ?_, .inl (by rw [hat]; rfl)⟩
          · rw [tokenAt, hat, if_neg hzero, if_neg (by decide), if_pos rfl, if_neg hnext]
            rfl
          · rw [toks, toks, hdrop, drop_succ hdrop]
            refine lex_gt fun d hd => ?_
            cases r with
            | nil => cases hd
            | cons e r =>
              cases hd
              rwa [charAt_of_drop (drop_succ hdrop)] at hnext
      · refine ⟨⟨k, q, q + 1⟩, rfl, hat ▸ hzero, ?_, ?_, .inl (by rw [hat]; exact hfirst)⟩
        · rw [tokenAt, hat, if_neg hzero, if_pos hmem, hcode]
        · have hgt : c ≠ 62 := by
            rintro rfl
            exact absurd hmem (by decide)
          rw [toks, toks, hdrop, drop_succ hdrop, lex_single hword hgt, hkind]
          rfl

/-- The token that both `peek` and `gettoken` see. -/
theorem next_cases (hnul : 0 ∉ text) (s : Nat) :
    (text.drop (skip isWhitespace text s) = [] ∧ toks text s = []) ∨
      ∃ t, TokenAt text (skip isWhitespace text s) t ∧ toks text s = t :: toks text t.eq := by
  obtain ⟨-, -, -, hpost, -⟩ := skip_spec isWhitespace text s
  rcases tokenAt_cases hnul hpost with hend | ⟨t, ht⟩
  · refine .inl ⟨hend, ?_⟩
    rw [← toks_skip, toks, hend]
    rfl
  · exact .inr ⟨t, ht, by rw [← toks_skip, ht.toks]⟩

theorem gettoken_nil (hnul : 0 ∉ text) (h : toks text s = []) :
    ∃ r s', gettoken text s = .ok (r, s') ∧ r.1 = 0 ∧ toks text s' = [] := by
  rcases next_cases hnul s with ⟨hend, -⟩ | ⟨t, -, htoks⟩
  · have htok : tokenAt text (skip isWhitespace text s) = (0, skip isWhitespace text s) := by
      rw [tokenAt, charAt_end hend, if_pos rfl]
    refine ⟨_, _, rfl, ?_, ?_⟩
    · show (tokenAt text (skip isWhitespace text s)).1 = 0
      rw [htok]
    · rw [htok, toks_skip, toks_skip, h]
  · rw [h] at htoks
    cases htoks

theorem gettoken_cons (hnul : 0 ∉ text) {t : Tok} {ts : List Tok} (h : toks text s = t :: ts) :
    ∃ s', gettoken text s = .ok ((code t.kind, t.q, t.eq), s') ∧ toks text s' = ts := by
  rcases next_cases hnul s with ⟨-, htoks⟩ | ⟨t', ht, htoks⟩
  · rw [h] at htoks
    cases htoks
  · rw [h] at htoks
    obtain ⟨rfl, rfl⟩ := List.cons.inj htoks
    refine ⟨skip isWhitespace text t.eq, ?_, toks_skip text t.eq⟩
    have hrun : gettoken text s = .ok _ := rfl
    rw [hrun, ht.switch, ht.start]

/-- `peek` for characters that are symbols, by the kinds of tokens that start with them. -/
theorem peek_run (hnul : 0 ∉ text) {set : List UInt8} {ks : List Kind}
    (hset : ∀ c ∈ set, symbols.contains c = true)
    (hks : ∀ k, (firstChar k).any set.contains = ks.contains k) (s : Nat) :
    ∃ s', peek text set s = .ok ((toks text s).head?.any (ks.contains ·.kind), s') ∧
      toks text s' = toks text s := by
  refine ⟨skip isWhitespace text s, ?_, toks_skip text s⟩
  have hrun : peek text set s = .ok _ := rfl
  rw [hrun]
  refine congrArg (fun b => Except.ok (b, _)) ?_
  rcases next_cases hnul s with ⟨hend, htoks⟩ | ⟨t, ht, htoks⟩
  · rw [htoks, charAt_end hend]
    rfl
  · rw [htoks, List.head?_cons, Option.any_some, ← hks t.kind]
    have hnonzero : decide (charAt text (skip isWhitespace text s) ≠ 0) = true :=
      decide_eq_true ht.nonzero
    rw [hnonzero, Bool.true_and]
    rcases ht.first with hfirst | ⟨hword, hsymbol⟩
    · rw [hfirst, Option.any_some]
    · rw [hword]
      refine Bool.eq_false_iff.mpr fun hmem => ?_
      rw [hset _ (List.contains_iff_mem.mp hmem)] at hsymbol
      cases hsymbol

/-! ## Inside the line -/

theorem skip_le (p : UInt8 → Bool) (hs : s ≤ text.length) : skip p text s ≤ text.length := by
  obtain ⟨pre, hdrop, -, -, hskip⟩ := skip_spec p text s
  have hlen := congrArg List.length hdrop
  rw [List.length_append, List.length_drop] at hlen
  omega

theorem lt_of_charAt_ne_zero (h : charAt text s ≠ 0) : s < text.length := by
  by_contra hlt
  exact h (List.getD_eq_default _ _ (not_lt.mp hlt))

theorem tokenAt_le (hs : s ≤ text.length) : (tokenAt text s).2 ≤ text.length := by
  unfold tokenAt
  by_cases hzero : charAt text s = 0
  · rw [if_pos hzero]
    exact hs
  · have hlt := lt_of_charAt_ne_zero hzero
    rw [if_neg hzero]
    split
    · exact hlt
    · split
      · split
        · next hnext => exact lt_of_charAt_ne_zero (by rw [hnext]; decide)
        · exact hlt
      · exact skip_le isWordChar hs

/-- Code that leaves the position inside the line. -/
def Inside (text : List UInt8) {α : Type} (m : ParseM α) : Prop :=
  ∀ s ≤ text.length, Spec (fun _ => True) m s fun _ s' => s' ≤ text.length

theorem inside_gettoken (text : List UInt8) : Inside text (gettoken text) := fun _ hs =>
  Spec.of_ok rfl (skip_le isWhitespace (tokenAt_le (skip_le isWhitespace hs)))

theorem inside_peek (text set : List UInt8) : Inside text (peek text set) := fun _ hs =>
  Spec.of_ok rfl (skip_le isWhitespace hs)

theorem inside_pure {α : Type} (a : α) : Inside text (pure a) := fun _ hs => Spec.pure hs

theorem inside_throw {α : Type} (e : Stop) : Inside text (throw e : ParseM α) := fun _ _ =>
  Spec.throw trivial

theorem Inside.bind {α β : Type} {m : ParseM α} {k : α → ParseM β} (hm : Inside text m)
    (hk : ∀ a, Inside text (k a)) : Inside text (m >>= k) := fun s hs =>
  (hm s hs).seq fun a s' hs' => hk a s' hs'

theorem Inside.ite {α : Type} {c : Prop} [Decidable c] {m m' : ParseM α} (hm : Inside text m)
    (hm' : Inside text m') : Inside text (if c then m else m') := by
  split
  · exact hm
  · exact hm'

/-! ## All tokens -/

theorem length_endWord (w : Option Nat) (i : Nat) : (endWord w i).length = w.toList.length := by
  cases w <;> rfl

/-- What stands outside words: at most one token, of `k` characters, then the rest. -/
theorem lex_step (h : ¬ isWordChar c = true) (w : Option Nat) (i : Nat) (r : List UInt8) :
    ∃ ts k, lex w i (c :: r) = endWord w i ++ (ts ++ lex none (i + (k + 1)) (r.drop k)) ∧
      ts.length ≤ 1 ∧ ∀ t ∈ ts, t.kind ≠ .word := by
  rw [lex_endWord h]
  by_cases hgt : c = 62
  · subst hgt
    by_cases hnext : r.head? = some 62
    · obtain ⟨r', rfl⟩ := List.head?_eq_some_iff.mp hnext
      exact ⟨[⟨.append, i, i + 2⟩], 1, by rw [lex_append]; rfl, le_rfl, by simp⟩
    · refine ⟨[⟨.gt, i, i + 1⟩], 0, ?_, le_rfl, by simp⟩
      rw [lex_gt fun d hd hd62 => hnext (hd62 ▸ hd)]
      rfl
  · refine ⟨(symbolKind c).toList.map (⟨·, i, i + 1⟩), 0, by rw [lex_single h hgt]; rfl, ?_, ?_⟩
    · rw [List.length_map]
      exact Option.length_toList_le
    · intro t ht hword
      obtain ⟨k, hk, rfl⟩ := List.mem_map.mp ht
      have hk : symbolKind c = some .word := hword ▸ Option.mem_toList.mp hk
      unfold symbolKind at hk
      repeat' split at hk
      all_goals cases hk

theorem length_lex (w : Option Nat) (i : Nat) (r : List UInt8) :
    (lex w i r).length ≤ r.length + w.toList.length := by
  induction hn : r.length using Nat.strong_induction_on generalizing w i r with
  | _ n ih =>
    subst hn
    cases r with
    | nil =>
      rw [lex, length_endWord, List.length_nil, Nat.zero_add]
    | cons c r =>
      by_cases hc : isWordChar c = true
      · have hrest := ih r.length (by simp) (some (w.getD i)) (i + 1) r rfl
        rw [lex_wordChar hc, List.length_cons]
        simp only [Option.toList_some, List.length_singleton] at hrest
        omega
      · obtain ⟨ts, k, hlex, hone, -⟩ := lex_step hc w i r
        have hlen : (r.drop k).length ≤ r.length := by simp
        have hrest := ih (r.drop k).length (by rw [List.length_cons]; omega) none
          (i + (k + 1)) (r.drop k) rfl
        rw [hlex, List.length_append, List.length_append, length_endWord, List.length_cons]
        simp only [Option.toList_none, List.length_nil] at hrest
        omega

theorem length_toks (text : List UInt8) (s : Nat) : (toks text s).length ≤ text.length := by
  have hle := length_lex none s (text.drop s)
  rw [Option.toList_none, List.length_nil, List.length_drop] at hle
  rw [toks]
  omega

/-- The characters from `q` to `i` are those of a word. -/
def WordChars (text : List UInt8) (q i : Nat) : Prop :=
  ∀ j, q ≤ j → j < i → ∃ c, text[j]? = some c ∧ isWordChar c = true

/-- A word of the line, with what stands behind it. -/
structure IsWordTok (text : List UInt8) (t : Tok) : Prop where
  start_le : t.q ≤ t.eq
  le_length : t.eq ≤ text.length
  chars : WordChars text t.q t.eq
  behind : ∀ c, text[t.eq]? = some c → isWordChar c = false

theorem noWord (text : List UInt8) (i : Nat) :
    ∀ q ∈ (none : Option Nat), q ≤ i ∧ WordChars text q i := fun _ hq => by cases hq

theorem endWord_isWordTok (hi : i ≤ text.length) (hw : ∀ q ∈ w, q ≤ i ∧ WordChars text q i)
    (hbehind : ∀ c, text[i]? = some c → isWordChar c = false) :
    ∀ t ∈ endWord w i, IsWordTok text t := by
  intro t ht
  cases w with
  | none => cases ht
  | some q =>
    rw [List.mem_singleton.mp ht]
    exact ⟨(hw q rfl).1, hi, (hw q rfl).2, hbehind⟩

theorem lex_isWordTok (hdrop : text.drop i = r) (hi : i ≤ text.length)
    (hw : ∀ q ∈ w, q ≤ i ∧ WordChars text q i) :
    ∀ t ∈ lex w i r, t.kind = .word → IsWordTok text t := by
  induction hn : r.length using Nat.strong_induction_on generalizing w i r with
  | _ n ih =>
    subst hn
    intro t ht hword
    cases r with
    | nil =>
      refine endWord_isWordTok hi hw (fun c hc => ?_) t ht
      rw [← List.head?_drop, hdrop] at hc
      cases hc
    | cons c r =>
      have hget : text[i]? = some c := by
        rw [← List.head?_drop, hdrop]
        rfl
      have hlt := (List.getElem?_eq_some_iff.mp hget).1
      by_cases hc : isWordChar c = true
      · rw [lex_wordChar hc] at ht
        refine ih r.length (by simp) (drop_succ hdrop) hlt ?_ rfl t ht hword
        rintro q ⟨⟩
        have hq : w.getD i ≤ i ∧ WordChars text (w.getD i) i := by
          cases w with
          | none => exact ⟨le_rfl, fun j hj hj' => absurd hj (not_le.mpr hj')⟩
          | some q => exact hw q rfl
        refine ⟨Nat.le_succ_of_le hq.1, fun j hj hj' => ?_⟩
        rcases Nat.lt_succ_iff_lt_or_eq.mp hj' with hj' | rfl
        · exact hq.2 j hj hj'
        · exact ⟨c, hget, hc⟩
      · obtain ⟨ts, k, hlex, -, hsymbols⟩ := lex_step hc w i r
        rw [hlex, List.mem_append, List.mem_append] at ht
        rcases ht with ht | ht | ht
        · refine endWord_isWordTok hi hw (fun d hd => ?_) t ht
          cases hget.symm.trans hd
          simpa using hc
        · exact absurd hword (hsymbols t ht)
        · -- the rest may be empty, then its position does not matter
          by_cases hk : i + (k + 1) ≤ text.length
          · refine ih (r.drop k).length ?_ ?_ hk (noWord text _) rfl t ht hword
            · rw [List.length_drop, List.length_cons]
              omega
            · rw [Nat.add_comm k, ← Nat.add_assoc, ← List.drop_drop, drop_succ hdrop]
          · have hnil : r.drop k = [] := by
              rw [← drop_succ hdrop, List.drop_drop]
              exact List.drop_eq_nil_of_le (by omega)
            rw [hnil] at ht
            cases ht

theorem toks_isWordTok {t : Tok} (ht : t ∈ tokens text) (hword : t.kind = .word) :
    IsWordTok text t :=
  lex_isWordTok List.drop_zero (Nat.zero_le _) (noWord text 0) t ht hword

end

end Xv6Sharing.User.Sh
