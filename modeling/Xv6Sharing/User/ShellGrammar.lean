/-
Xv6Sharing.User.ShellGrammar — the parser of the shell accepts its grammar.

`Derives` is the grammar, with the tree that each derivation stands for:

    line   → pipe '&'* [';' line]
    pipe   → exec ['|' pipe]
    exec   → block | redirs (word redirs)*
    block  → '(' line ')' redirs
    redirs → (('<' | '>' | '>>') word)*

`parse_sound` goes by the number of rounds: with enough of them a parser returns
the tree of a derivation of the tokens it has consumed, or panics. `parse_complete`
goes by the derivation: its tree is returned when what follows cannot go on with
it. Rounds are counted in tokens, four for each one that is left.
-/
import Xv6Sharing.User.ShellTokens

namespace Xv6Sharing.User.Sh

open Lib

/-! ## The grammar -/

def isRedir : Kind → Bool
  | .lt => true
  | .gt => true
  | .append => true
  | _ => false

/-- An operator and the word behind it. -/
abbrev Redir := Tok × Tok

inductive Redirs : List Tok → List Redir → Prop
  | nil : Redirs [] []
  | cons {op w : Tok} {ts : List Tok} {ds : List Redir} : isRedir op.kind = true → w.kind = .word →
      Redirs ts ds → Redirs (op :: w :: ts) ((op, w) :: ds)

/-- Words, each with the redirections behind it. -/
inductive Args : List Tok → List Tok → List Redir → Prop
  | nil : Args [] [] []
  | cons {w : Tok} {ts us ws : List Tok} {ds es : List Redir} : w.kind = .word → Redirs ts ds →
      Args us ws es → Args (w :: (ts ++ us)) (w :: ws) (ds ++ es)

/-- The node of a redirection. -/
def addRedir (cmd : Cmd) (d : Redir) : Cmd := redircmd cmd (code d.1.kind) d.2.q d.2.eq

/-- The redirections of a command; the last one is the outermost node. -/
def wrap (cmd : Cmd) (ds : List Redir) : Cmd := ds.foldl addRedir cmd

/-- The node of a simple command. -/
def execOf (ws : List Tok) : Cmd := .exec (ws.map fun w => (w.q, w.eq))

/-- A command with as many '&' behind it. -/
def backs : List Tok → Cmd → Cmd
  | [], cmd => cmd
  | _ :: ts, cmd => backs ts (.back cmd)

inductive Part
  | line
  | pipe
  | exec
  | block

inductive Derives : Part → List Tok → Cmd → Prop
  | line {ts as : List Tok} {c : Cmd} : Derives .pipe ts c → (∀ a ∈ as, a.kind = .amp) →
      Derives .line (ts ++ as) (backs as c)
  | lineSeq {ts as us : List Tok} {semi : Tok} {c d : Cmd} : Derives .pipe ts c →
      (∀ a ∈ as, a.kind = .amp) → semi.kind = .semi → Derives .line us d →
      Derives .line (ts ++ (as ++ semi :: us)) (.list (backs as c) d)
  | pipe {ts : List Tok} {c : Cmd} : Derives .exec ts c → Derives .pipe ts c
  | pipeSeq {ts us : List Tok} {bar : Tok} {c d : Cmd} : Derives .exec ts c → bar.kind = .bar →
      Derives .pipe us d → Derives .pipe (ts ++ bar :: us) (.pipe c d)
  | execBlock {ts : List Tok} {c : Cmd} : Derives .block ts c → Derives .exec ts c
  | execArgs {ts us ws : List Tok} {ds es : List Redir} : Redirs ts ds → Args us ws es →
      ws.length < 10 → Derives .exec (ts ++ us) (wrap (execOf ws) (ds ++ es))
  | block {ts us : List Tok} {l r : Tok} {c : Cmd} {ds : List Redir} : l.kind = .lpar →
      Derives .line ts c → r.kind = .rpar → Redirs us ds →
      Derives .block (l :: (ts ++ r :: us)) (wrap c ds)

/-- The function for each part of the grammar. -/
def parse (text : List UInt8) : Part → Nat → ParseM Cmd
  | .line => parseline text
  | .pipe => parsepipe text
  | .exec => parseexec text
  | .block => parseblock text

/-- The rounds it needs when `n` tokens are left. -/
def rounds : Part → Nat → Nat
  | .line, n => 4 * n + 4
  | .pipe, n => 4 * n + 3
  | .exec, n => 4 * n + 2
  | .block, n => 4 * n + 1

/-! ## Peeking -/

/-- The next token is of one of these kinds. -/
def nextIn (ks : List Kind) (ts : List Tok) : Bool := ts.head?.any (ks.contains ·.kind)

section

variable {text : List UInt8} {s : Nat} {ts us : List Tok} {ks : List Kind} {cmd : Cmd}

theorem nextIn_eq_true (h : nextIn ks ts = true) : ∃ t us, ts = t :: us ∧ t.kind ∈ ks := by
  cases ts with
  | nil => cases h
  | cons t us => exact ⟨t, us, rfl, List.contains_iff_mem.mp h⟩

theorem nextIn_cons {t : Tok} (h : t.kind ∈ ks) : nextIn ks (t :: us) = true :=
  List.contains_iff_mem.mpr h

theorem peek_redir (hnul : 0 ∉ text) (s : Nat) : ∃ s',
    peek text [60, 62] s = .ok (nextIn [.lt, .gt, .append] (toks text s), s') ∧
      toks text s' = toks text s :=
  peek_run hnul (by simp [symbols]) (fun k => by cases k <;> decide) s

theorem peek_stop (hnul : 0 ∉ text) (s : Nat) : ∃ s',
    peek text [124, 41, 38, 59] s = .ok (nextIn [.bar, .rpar, .amp, .semi] (toks text s), s') ∧
      toks text s' = toks text s :=
  peek_run hnul (by simp [symbols]) (fun k => by cases k <;> decide) s

theorem peek_one (hnul : 0 ∉ text) {k : Kind} {c : UInt8} (hc : symbols.contains c = true)
    (hk : ∀ k', (firstChar k').any ([c] : List UInt8).contains = ([k] : List Kind).contains k')
    (s : Nat) : ∃ s', peek text [c] s = .ok (nextIn [k] (toks text s), s') ∧
      toks text s' = toks text s :=
  peek_run hnul (by simpa using hc) hk s

theorem peek_amp (hnul : 0 ∉ text) (s : Nat) : ∃ s',
    peek text [38] s = .ok (nextIn [.amp] (toks text s), s') ∧ toks text s' = toks text s :=
  peek_one hnul (by decide) (fun k => by cases k <;> decide) s

theorem peek_semi (hnul : 0 ∉ text) (s : Nat) : ∃ s',
    peek text [59] s = .ok (nextIn [.semi] (toks text s), s') ∧ toks text s' = toks text s :=
  peek_one hnul (by decide) (fun k => by cases k <;> decide) s

theorem peek_bar (hnul : 0 ∉ text) (s : Nat) : ∃ s',
    peek text [124] s = .ok (nextIn [.bar] (toks text s), s') ∧ toks text s' = toks text s :=
  peek_one hnul (by decide) (fun k => by cases k <;> decide) s

theorem peek_lpar (hnul : 0 ∉ text) (s : Nat) : ∃ s',
    peek text [40] s = .ok (nextIn [.lpar] (toks text s), s') ∧ toks text s' = toks text s :=
  peek_one hnul (by decide) (fun k => by cases k <;> decide) s

theorem peek_rpar (hnul : 0 ∉ text) (s : Nat) : ∃ s',
    peek text [41] s = .ok (nextIn [.rpar] (toks text s), s') ∧ toks text s' = toks text s :=
  peek_one hnul (by decide) (fun k => by cases k <;> decide) s

/-! ## The loops, round by round -/

theorem code_eq_word {k : Kind} : code k = 97 ↔ k = .word := by cases k <;> decide

theorem code_ne_zero (k : Kind) : code k ≠ 0 := by cases k <;> decide

theorem mem_redir {k : Kind} : k ∈ [Kind.lt, .gt, .append] ↔ isRedir k = true := by
  cases k <;> decide

theorem parseredirs_done (hnul : 0 ∉ text) (hnext : nextIn [.lt, .gt, .append] (toks text s) = false)
    (n : Nat) (cmd : Cmd) :
    ∃ s', parseredirs text (n + 1) cmd s = .ok (cmd, s') ∧ toks text s' = toks text s := by
  obtain ⟨s₁, hpeek, htoks⟩ := peek_redir hnul s
  rw [parseredirs, bind_ok hpeek, hnext]
  exact ⟨s₁, rfl, htoks⟩

theorem parseredirs_step (hnul : 0 ∉ text) {op w : Tok} (htoks : toks text s = op :: w :: us)
    (hop : isRedir op.kind = true) (hw : w.kind = .word) (n : Nat) (cmd : Cmd) : ∃ s',
    parseredirs text (n + 1) cmd s = parseredirs text n (addRedir cmd (op, w)) s' ∧
      toks text s' = us := by
  obtain ⟨s₁, hpeek, htoks₁⟩ := peek_redir hnul s
  obtain ⟨s₂, hop', htoks₂⟩ := gettoken_cons hnul (htoks₁.trans htoks)
  obtain ⟨s₃, hfile, htoks₃⟩ := gettoken_cons hnul htoks₂
  have hnext : nextIn [.lt, .gt, .append] (toks text s) = true := by
    rw [htoks]
    exact nextIn_cons (mem_redir.mpr hop)
  refine ⟨s₃, ?_, htoks₃⟩
  rw [parseredirs, bind_ok hpeek, hnext, if_pos rfl, bind_ok hop', bind_ok hfile,
    if_neg (not_not.mpr (code_eq_word.mpr hw))]
  rfl

theorem parseredirs_panic (hnul : 0 ∉ text) {op : Tok} (htoks : toks text s = op :: us)
    (hop : isRedir op.kind = true) (hus : ∀ w ∈ us.head?, w.kind ≠ .word) (n : Nat) (cmd : Cmd) :
    parseredirs text (n + 1) cmd s = .error (.panic .missingFile) := by
  obtain ⟨s₁, hpeek, htoks₁⟩ := peek_redir hnul s
  obtain ⟨s₂, hop', htoks₂⟩ := gettoken_cons hnul (htoks₁.trans htoks)
  have hnext : nextIn [.lt, .gt, .append] (toks text s) = true := by
    rw [htoks]
    exact nextIn_cons (mem_redir.mpr hop)
  rw [parseredirs, bind_ok hpeek, hnext, if_pos rfl, bind_ok hop']
  cases us with
  | nil =>
    obtain ⟨r, s₃, hfile, hzero, -⟩ := gettoken_nil hnul htoks₂
    rw [bind_ok hfile, if_pos (by rw [hzero]; decide)]
    rfl
  | cons w us =>
    obtain ⟨s₃, hfile, -⟩ := gettoken_cons hnul htoks₂
    rw [bind_ok hfile, if_pos fun hcode => hus w rfl (code_eq_word.mp hcode)]
    rfl

/-- A token that ends a command stands next, or none. -/
theorem parseargs_done (hnul : 0 ∉ text)
    (hnext : toks text s = [] ∨ nextIn [.bar, .rpar, .amp, .semi] (toks text s) = true)
    (n argc : Nat) (ret : Cmd) :
    ∃ s', parseargs text (n + 1) argc ret s = .ok (ret, s') ∧ toks text s' = toks text s := by
  obtain ⟨s₁, hpeek, htoks⟩ := peek_stop hnul s
  rw [parseargs, bind_ok hpeek]
  rcases hnext with hnil | hnext
  · obtain ⟨r, s₂, hget, hzero, htoks₂⟩ := gettoken_nil hnul (htoks.trans hnil)
    rw [hnil, if_neg (by decide), bind_ok hget, if_pos hzero]
    exact ⟨s₂, rfl, htoks₂⟩
  · rw [hnext, if_pos rfl]
    exact ⟨s₁, rfl, htoks⟩

theorem parseargs_word (hnul : 0 ∉ text) {w : Tok} (htoks : toks text s = w :: us)
    (hw : w.kind = .word) {argc : Nat} (hargc : argc + 1 < 10) (n : Nat) (ret : Cmd) : ∃ s',
    parseargs text (n + 1) argc ret s = (do
      let ret ← parseredirs text (text.length + 1) (addArg (w.q, w.eq) ret)
      parseargs text n (argc + 1) ret) s' ∧ toks text s' = us := by
  obtain ⟨s₁, hpeek, htoks₁⟩ := peek_stop hnul s
  obtain ⟨s₂, hget, htoks₂⟩ := gettoken_cons hnul (htoks₁.trans htoks)
  have hnext : nextIn [.bar, .rpar, .amp, .semi] (toks text s) = false := by
    rw [htoks, nextIn, List.head?_cons, Option.any_some, hw]
    rfl
  refine ⟨s₂, ?_, htoks₂⟩
  rw [parseargs, bind_ok hpeek, hnext, if_neg (by decide), bind_ok hget,
    if_neg (code_ne_zero w.kind), if_neg (not_not.mpr (code_eq_word.mpr hw)),
    if_neg (not_le.mpr hargc)]

/-- A token that cannot stand in a simple command, or a word too many. -/
theorem parseargs_panic (hnul : 0 ∉ text) {t : Tok} (htoks : toks text s = t :: us)
    (hnext : nextIn [.bar, .rpar, .amp, .semi] (toks text s) = false) {argc : Nat}
    (ht : t.kind ≠ .word ∨ 10 ≤ argc + 1) (n : Nat) (ret : Cmd) :
    ∃ p, parseargs text (n + 1) argc ret s = .error (.panic p) := by
  obtain ⟨s₁, hpeek, htoks₁⟩ := peek_stop hnul s
  obtain ⟨s₂, hget, htoks₂⟩ := gettoken_cons hnul (htoks₁.trans htoks)
  rw [parseargs, bind_ok hpeek, hnext, if_neg (by decide), bind_ok hget,
    if_neg (code_ne_zero t.kind)]
  by_cases hword : t.kind = .word
  · rw [if_neg (not_not.mpr (code_eq_word.mpr hword)), if_pos (ht.resolve_left (not_not.mpr hword))]
    exact ⟨_, rfl⟩
  · rw [if_pos fun hcode => hword (code_eq_word.mp hcode)]
    exact ⟨_, rfl⟩

theorem parseback_done (hnul : 0 ∉ text) (hnext : nextIn [.amp] (toks text s) = false) (n : Nat)
    (cmd : Cmd) :
    ∃ s', parseback text (n + 1) cmd s = .ok (cmd, s') ∧ toks text s' = toks text s := by
  obtain ⟨s₁, hpeek, htoks⟩ := peek_amp hnul s
  rw [parseback, bind_ok hpeek, hnext]
  exact ⟨s₁, rfl, htoks⟩

theorem parseback_step (hnul : 0 ∉ text) {a : Tok} (htoks : toks text s = a :: us)
    (ha : a.kind = .amp) (n : Nat) (cmd : Cmd) :
    ∃ s', parseback text (n + 1) cmd s = parseback text n (.back cmd) s' ∧ toks text s' = us := by
  obtain ⟨s₁, hpeek, htoks₁⟩ := peek_amp hnul s
  obtain ⟨s₂, hget, htoks₂⟩ := gettoken_cons hnul (htoks₁.trans htoks)
  have hnext : nextIn [.amp] (toks text s) = true := by
    rw [htoks]
    exact nextIn_cons (by rw [ha]; exact List.mem_singleton_self _)
  refine ⟨s₂, ?_, htoks₂⟩
  rw [parseback, bind_ok hpeek, hnext, if_pos rfl, bind_ok hget]

/-! ## Soundness -/

/-- A panic, and not a lack of rounds. -/
def IsPanic (e : Stop) : Prop := ∃ p, e = .panic p

theorem parseredirs_sound (hnul : 0 ∉ text) {n : Nat} (hn : (toks text s).length < n) (cmd : Cmd) :
    Spec IsPanic (parseredirs text n cmd) s fun cmd' s' => ∃ ts ds,
      toks text s = ts ++ toks text s' ∧ Redirs ts ds ∧ cmd' = wrap cmd ds := by
  induction n generalizing s cmd with
  | zero => omega
  | succ n ih =>
    cases hnext : nextIn [.lt, .gt, .append] (toks text s) with
    | false =>
      obtain ⟨s', hrun, htoks⟩ := parseredirs_done hnul hnext n cmd
      exact Spec.of_ok hrun ⟨[], [], htoks.symm, .nil, rfl⟩
    | true =>
      obtain ⟨op, us, htoks, hop⟩ := nextIn_eq_true hnext
      have hop := mem_redir.mp hop
      by_cases hfile : ∃ w vs, us = w :: vs ∧ w.kind = .word
      · obtain ⟨w, vs, rfl, hw⟩ := hfile
        obtain ⟨s', hrun, htoks'⟩ := parseredirs_step hnul htoks hop hw n cmd
        have hlen : (toks text s').length < n := by
          rw [htoks, ← htoks', List.length_cons, List.length_cons] at hn
          omega
        refine ((ih hlen _).mono fun cmd' s'' => ?_).of_run_eq hrun
        rintro ⟨ts, ds, hsplit, hredirs, rfl⟩
        refine ⟨op :: w :: ts, (op, w) :: ds, ?_, .cons hop hw hredirs, rfl⟩
        rw [htoks, ← htoks', hsplit]
        rfl
      · refine Spec.of_error (parseredirs_panic hnul htoks hop ?_ n cmd) ⟨_, rfl⟩
        intro w hw hword
        cases us with
        | nil => cases hw
        | cons v vs =>
          cases hw
          exact hfile ⟨w, vs, rfl, hword⟩

theorem addArg_addRedir (w : Nat × Nat) (cmd : Cmd) (d : Redir) :
    addArg w (addRedir cmd d) = addRedir (addArg w cmd) d := by
  unfold addRedir redircmd
  repeat' split
  all_goals rfl

/-- The words are stored in the node inside the redirections. -/
theorem addArg_wrap (w : Tok) (done : List Tok) (ds : List Redir) :
    addArg (w.q, w.eq) (wrap (execOf done) ds) = wrap (execOf (done ++ [w])) ds := by
  have hwrap : ∀ cmd, addArg (w.q, w.eq) (wrap cmd ds) = wrap (addArg (w.q, w.eq) cmd) ds := by
    induction ds with
    | nil => exact fun _ => rfl
    | cons d ds ih =>
      intro cmd
      rw [wrap, List.foldl_cons, ← wrap, ih, addArg_addRedir]
      rfl
  rw [hwrap, execOf, addArg, execOf, List.map_append]
  rfl

theorem wrap_append (cmd : Cmd) (ds es : List Redir) : wrap cmd (ds ++ es) = wrap (wrap cmd ds) es :=
  List.foldl_append

theorem parseargs_sound (hnul : 0 ∉ text) {n : Nat} (hn : (toks text s).length < n)
    {done : List Tok} (hdone : done.length < 10) (ds : List Redir) :
    Spec IsPanic (parseargs text n done.length (wrap (execOf done) ds)) s fun cmd' s' => ∃ ts ws es,
      toks text s = ts ++ toks text s' ∧ Args ts ws es ∧ (done ++ ws).length < 10 ∧
        cmd' = wrap (execOf (done ++ ws)) (ds ++ es) := by
  induction n generalizing s done ds with
  | zero => omega
  | succ n ih =>
    by_cases hnext : toks text s = [] ∨ nextIn [.bar, .rpar, .amp, .semi] (toks text s) = true
    · obtain ⟨s', hrun, htoks⟩ := parseargs_done hnul hnext n done.length (wrap (execOf done) ds)
      refine Spec.of_ok hrun ⟨[], [], [], htoks.symm, .nil, ?_, ?_⟩
      · rwa [List.append_nil]
      · rw [List.append_nil, List.append_nil]
    · obtain ⟨hne, hnext⟩ := not_or.mp hnext
      obtain ⟨t, us, htoks⟩ := List.exists_cons_of_ne_nil hne
      by_cases ht : t.kind ≠ .word ∨ 10 ≤ done.length + 1
      · obtain ⟨p, hrun⟩ := parseargs_panic hnul htoks (by simpa using hnext) ht n
          (wrap (execOf done) ds)
        exact Spec.of_error hrun ⟨p, rfl⟩
      · obtain ⟨hword, hroom⟩ := not_or.mp ht
        have hword := not_not.mp hword
        obtain ⟨s', hrun, htoks'⟩ := parseargs_word hnul htoks hword (not_le.mp hroom) n
          (wrap (execOf done) ds)
        rw [addArg_wrap] at hrun
        have hredirs := parseredirs_sound hnul (Nat.lt_succ_of_le (length_toks text s'))
          (wrap (execOf (done ++ [t])) ds)
        refine (Spec.seq hredirs fun ret s₁ => ?_).of_run_eq hrun
        rintro ⟨ts₁, ds₁, hsplit₁, hredirs₁, rfl⟩
        have hlen : (toks text s₁).length < n := by
          have hle := congrArg List.length hsplit₁
          rw [List.length_append, htoks'] at hle
          rw [htoks, List.length_cons] at hn
          omega
        have hargc : (done ++ [t]).length = done.length + 1 := by simp
        have hdone' : (done ++ [t]).length < 10 := by omega
        have hrest := ih hlen hdone' (ds ++ ds₁)
        rw [hargc, wrap_append] at hrest
        refine hrest.mono fun cmd' s'' => ?_
        rintro ⟨ts, ws, es, hsplit, hargs, hlt, rfl⟩
        refine ⟨t :: (ts₁ ++ ts), t :: ws, ds₁ ++ es, ?_, .cons hword hredirs₁ hargs, ?_, ?_⟩
        · rw [htoks, ← htoks', hsplit₁, hsplit, List.cons_append, List.append_assoc]
        · rwa [List.append_assoc] at hlt
        · rw [List.append_assoc, List.append_assoc]
          rfl

theorem parseback_sound (hnul : 0 ∉ text) {n : Nat} (hn : (toks text s).length < n) (cmd : Cmd) :
    Spec IsPanic (parseback text n cmd) s fun cmd' s' => ∃ as,
      toks text s = as ++ toks text s' ∧ (∀ a ∈ as, a.kind = .amp) ∧ cmd' = backs as cmd := by
  induction n generalizing s cmd with
  | zero => omega
  | succ n ih =>
    cases hnext : nextIn [.amp] (toks text s) with
    | false =>
      obtain ⟨s', hrun, htoks⟩ := parseback_done hnul hnext n cmd
      exact Spec.of_ok hrun ⟨[], htoks.symm, nofun, rfl⟩
    | true =>
      obtain ⟨a, us, htoks, ha⟩ := nextIn_eq_true hnext
      have ha := List.mem_singleton.mp ha
      obtain ⟨s', hrun, htoks'⟩ := parseback_step hnul htoks ha n cmd
      have hlen : (toks text s').length < n := by
        rw [htoks, ← htoks', List.length_cons] at hn
        omega
      refine ((ih hlen _).mono fun cmd' s'' => ?_).of_run_eq hrun
      rintro ⟨as, hsplit, has, rfl⟩
      refine ⟨a :: as, ?_, List.forall_mem_cons.mpr ⟨ha, has⟩, rfl⟩
      rw [htoks, ← htoks', hsplit]
      rfl

/-- What a parser for a part of the grammar does with enough rounds. -/
def Sound (text : List UInt8) (part : Part) (n : Nat) : Prop :=
  ∀ s, rounds part (toks text s).length ≤ n → Spec IsPanic (parse text part n) s fun cmd s' =>
    ∃ ts, toks text s = ts ++ toks text s' ∧ Derives part ts cmd

/-- An optional part behind a token of one kind. -/
theorem parseSeq_sound (hnul : 0 ∉ text) {part : Part} {n : Nat} (h : Sound text part n)
    {k : Kind} {c : UInt8} (hpeek : ∀ s, ∃ s',
      peek text [c] s = .ok (nextIn [k] (toks text s), s') ∧ toks text s' = toks text s)
    (hn : rounds part (toks text s).length ≤ n + 4) (node : Cmd → Cmd → Cmd) (cmd : Cmd) :
    Spec IsPanic (do
      let more ← peek text [c]
      if more then do
        let _ ← gettoken text
        let right ← parse text part n
        return node cmd right
      else return cmd) s fun cmd' s' =>
        (toks text s' = toks text s ∧ cmd' = cmd) ∨
        ∃ t us d, toks text s = t :: (us ++ toks text s') ∧ t.kind = k ∧ Derives part us d ∧
          cmd' = node cmd d := by
  obtain ⟨s₁, hrun, htoks₁⟩ := hpeek s
  refine Spec.seq_ok hrun ?_
  cases hnext : nextIn [k] (toks text s) with
  | false => exact Spec.pure (.inl ⟨htoks₁, rfl⟩)
  | true =>
    obtain ⟨t, us, htoks, ht⟩ := nextIn_eq_true hnext
    obtain ⟨s₂, hget, htoks₂⟩ := gettoken_cons hnul (htoks₁.trans htoks)
    rw [if_pos rfl]
    refine Spec.seq_ok hget ?_
    have hlen : rounds part (toks text s₂).length ≤ n := by
      rw [htoks, List.length_cons] at hn
      rw [htoks₂]
      cases part <;> simp only [rounds] at hn ⊢ <;> omega
    refine Spec.seq (h s₂ hlen) fun d s₃ => ?_
    rintro ⟨vs, hsplit, hderives⟩
    refine Spec.pure (.inr ⟨t, vs, d, ?_, List.mem_singleton.mp ht, hderives, rfl⟩)
    rw [htoks, ← htoks₂, hsplit]

/-- Soundness of every parser, by the number of rounds. -/
theorem parse_sound (hnul : 0 ∉ text) (n : Nat) (part : Part) : Sound text part n := by
  induction n generalizing part with
  | zero =>
    intro s hn
    cases part <;> simp [rounds] at hn
  | succ n ih =>
    intro s hn
    have hloop : ∀ s, (toks text s).length < text.length + 1 := fun s =>
      Nat.lt_succ_of_le (length_toks text s)
    cases part with
    | line =>
      simp only [rounds] at hn
      refine Spec.seq (ih .pipe s (by simp only [rounds]; omega)) fun c s₁ => ?_
      rintro ⟨ts, hsplit, hpipe⟩
      refine Spec.seq (parseback_sound hnul (hloop s₁) c) fun c' s₂ => ?_
      rintro ⟨as, hsplit₂, has, rfl⟩
      have hlen : rounds .line (toks text s₂).length ≤ n + 4 := by
        rw [hsplit, hsplit₂, List.length_append, List.length_append] at hn
        simp only [rounds]
        omega
      refine (parseSeq_sound hnul (ih .line) (peek_semi hnul) hlen .list _).mono fun d s₃ => ?_
      rintro (⟨htoks, rfl⟩ | ⟨semi, us, d, hsplit₃, hsemi, hline, rfl⟩)
      · refine ⟨ts ++ as, ?_, .line hpipe has⟩
        rw [hsplit, hsplit₂, htoks, List.append_assoc]
      · refine ⟨_, ?_, .lineSeq hpipe has hsemi hline⟩
        rw [hsplit, hsplit₂, hsplit₃]
        simp only [List.append_assoc, List.cons_append]
    | pipe =>
      simp only [rounds] at hn
      refine Spec.seq (ih .exec s (by simp only [rounds]; omega)) fun c s₁ => ?_
      rintro ⟨ts, hsplit, hexec⟩
      have hlen : rounds .pipe (toks text s₁).length ≤ n + 4 := by
        rw [hsplit, List.length_append] at hn
        simp only [rounds]
        omega
      refine (parseSeq_sound hnul (ih .pipe) (peek_bar hnul) hlen .pipe _).mono fun d s₃ => ?_
      rintro (⟨htoks, rfl⟩ | ⟨bar, us, d, hsplit₃, hbar, hpipe, rfl⟩)
      · exact ⟨ts, by rw [hsplit, htoks], .pipe hexec⟩
      · refine ⟨_, ?_, .pipeSeq hexec hbar hpipe⟩
        rw [hsplit, hsplit₃]
        simp only [List.append_assoc, List.cons_append]
    | exec =>
      simp only [rounds] at hn
      obtain ⟨s₁, hpeek, htoks₁⟩ := peek_lpar hnul s
      refine Spec.seq_ok hpeek ?_
      cases hnext : nextIn [.lpar] (toks text s) with
      | true =>
        have hblock := ih .block s₁ (by simp only [rounds, htoks₁]; omega)
        refine hblock.mono fun c s₂ => ?_
        rintro ⟨ts, hsplit, hderives⟩
        exact ⟨ts, by rw [← htoks₁, hsplit], .execBlock hderives⟩
      | false =>
        refine Spec.seq (parseredirs_sound hnul (hloop s₁) (.exec [])) fun c s₂ => ?_
        rintro ⟨ts, ds, hsplit, hredirs, rfl⟩
        have hnone : ([] : List Tok).length < 10 := by decide
        have hargs := parseargs_sound hnul (hloop s₂) hnone ds
        refine hargs.mono fun c s₃ => ?_
        rintro ⟨us, ws, es, hsplit₂, hargs, hlt, rfl⟩
        refine ⟨ts ++ us, ?_, .execArgs hredirs hargs hlt⟩
        rw [← htoks₁, hsplit, hsplit₂, List.append_assoc]
    | block =>
      simp only [rounds] at hn
      obtain ⟨s₁, hpeek, htoks₁⟩ := peek_lpar hnul s
      refine Spec.seq_ok hpeek ?_
      cases hnext : nextIn [.lpar] (toks text s) with
      | false => exact Spec.throw ⟨_, rfl⟩
      | true =>
        obtain ⟨l, us, htoks, hl⟩ := nextIn_eq_true hnext
        obtain ⟨s₂, hget, htoks₂⟩ := gettoken_cons hnul (htoks₁.trans htoks)
        refine Spec.seq_ok hget ?_
        have hlen : rounds .line (toks text s₂).length ≤ n := by
          rw [htoks, List.length_cons, ← htoks₂] at hn
          simp only [rounds]
          omega
        refine Spec.seq (ih .line s₂ hlen) fun c s₃ => ?_
        rintro ⟨ts, hsplit, hline⟩
        obtain ⟨s₄, hpeek', htoks₄⟩ := peek_rpar hnul s₃
        refine Spec.seq_ok hpeek' ?_
        cases hnext' : nextIn [.rpar] (toks text s₃) with
        | false => exact Spec.throw ⟨_, rfl⟩
        | true =>
          obtain ⟨r, vs, htoks', hr⟩ := nextIn_eq_true hnext'
          obtain ⟨s₅, hget', htoks₅⟩ := gettoken_cons hnul (htoks₄.trans htoks')
          refine Spec.seq_ok hget' ?_
          refine (parseredirs_sound hnul (hloop s₅) c).mono fun c' s₆ => ?_
          rintro ⟨us', ds, hsplit', hredirs, rfl⟩
          refine ⟨_, ?_, .block (List.mem_singleton.mp hl) hline (List.mem_singleton.mp hr)
            hredirs⟩
          rw [htoks, ← htoks₂, hsplit, htoks', ← htoks₅, hsplit']
          simp only [List.append_assoc, List.cons_append]

/-! ## Completeness -/

/-- The tokens that may stand behind a part of the grammar. -/
def follow : Part → List Kind
  | .line => [.rpar]
  | .pipe => [.amp, .semi, .rpar]
  | .exec => [.bar, .amp, .semi, .rpar]
  | .block => [.bar, .amp, .semi, .rpar]

def Follow (part : Part) (us : List Tok) : Prop := ∀ t ∈ us.head?, t.kind ∈ follow part

theorem Follow.mono {part part' : Part} (h : Follow part us) (hsub : follow part ⊆ follow part') :
    Follow part' us := fun t ht => hsub (h t ht)

theorem follow_cons {part : Part} {t : Tok} (ht : t.kind ∈ follow part) : Follow part (t :: us) :=
  fun _ hu => Option.some.inj hu ▸ ht

theorem Follow.nextIn_eq_false {part : Part} (h : Follow part us)
    (hks : ∀ k ∈ follow part, k ∉ ks) : nextIn ks us = false := by
  cases us with
  | nil => rfl
  | cons t us =>
    refine Bool.eq_false_iff.mpr fun hmem => ?_
    exact hks _ (h t rfl) (List.contains_iff_mem.mp hmem)

theorem parseback_complete (hnul : 0 ∉ text) {as : List Tok} (has : ∀ a ∈ as, a.kind = .amp)
    (htoks : toks text s = as ++ us) (hnext : nextIn [.amp] us = false) {n : Nat}
    (hn : (toks text s).length < n) (cmd : Cmd) :
    ∃ s', parseback text n cmd s = .ok (backs as cmd, s') ∧ toks text s' = us := by
  obtain ⟨n, rfl⟩ : ∃ m, n = m + 1 := ⟨n - 1, by omega⟩
  induction as generalizing s n cmd with
  | nil =>
    rw [List.nil_append] at htoks
    obtain ⟨s', hrun, htoks'⟩ := parseback_done hnul (htoks ▸ hnext) n cmd
    exact ⟨s', hrun, htoks'.trans htoks⟩
  | cons a as ih =>
    obtain ⟨ha, has⟩ := List.forall_mem_cons.mp has
    rw [List.cons_append] at htoks
    obtain ⟨s₁, hrun, htoks₁⟩ := parseback_step hnul htoks ha n cmd
    rw [htoks, List.length_cons, ← htoks₁] at hn
    obtain ⟨n, rfl⟩ : ∃ m, n = m + 1 := ⟨n - 1, by omega⟩
    obtain ⟨s', hrest, htoks'⟩ := ih has htoks₁ (.back cmd) n (by omega)
    exact ⟨s', hrun.trans hrest, htoks'⟩

theorem parseredirs_complete (hnul : 0 ∉ text) {ds : List Redir} (h : Redirs ts ds)
    (htoks : toks text s = ts ++ us) (hnext : nextIn [.lt, .gt, .append] us = false) {n : Nat}
    (hn : (toks text s).length < n) (cmd : Cmd) :
    ∃ s', parseredirs text n cmd s = .ok (wrap cmd ds, s') ∧ toks text s' = us := by
  obtain ⟨n, rfl⟩ : ∃ m, n = m + 1 := ⟨n - 1, by omega⟩
  induction h generalizing s n cmd with
  | nil =>
    rw [List.nil_append] at htoks
    obtain ⟨s', hrun, htoks'⟩ := parseredirs_done hnul (htoks ▸ hnext) n cmd
    exact ⟨s', hrun, htoks'.trans htoks⟩
  | @cons op w ts ds hop hw _ ih =>
    rw [List.cons_append, List.cons_append] at htoks
    obtain ⟨s₁, hrun, htoks₁⟩ := parseredirs_step hnul htoks hop hw n cmd
    rw [htoks, List.length_cons, List.length_cons, ← htoks₁] at hn
    obtain ⟨n, rfl⟩ : ∃ m, n = m + 1 := ⟨n - 1, by omega⟩
    obtain ⟨s', hrest, htoks'⟩ := ih htoks₁ (addRedir cmd (op, w)) n (by omega)
    exact ⟨s', hrun.trans hrest, htoks'⟩

/-- No redirection stands at the start of the words. -/
theorem Args.nextIn_redir {ws : List Tok} {es : List Redir} (h : Args ts ws es)
    (hus : Follow .exec us) : nextIn [.lt, .gt, .append] (ts ++ us) = false := by
  cases h with
  | nil => exact hus.nextIn_eq_false (by decide)
  | cons hw _ _ => rw [List.cons_append, nextIn, List.head?_cons, Option.any_some, hw]; rfl

theorem parseargs_complete (hnul : 0 ∉ text) {ws : List Tok} {es : List Redir} (h : Args ts ws es)
    (htoks : toks text s = ts ++ us) (hus : Follow .exec us) {done : List Tok}
    (hdone : (done ++ ws).length < 10) {n : Nat} (hn : (toks text s).length < n) (ds : List Redir) :
    ∃ s', parseargs text n done.length (wrap (execOf done) ds) s
      = .ok (wrap (execOf (done ++ ws)) (ds ++ es), s') ∧ toks text s' = us := by
  obtain ⟨n, rfl⟩ : ∃ m, n = m + 1 := ⟨n - 1, by omega⟩
  induction h generalizing s n done ds with
  | nil =>
    rw [List.nil_append] at htoks
    have hnext : toks text s = [] ∨ nextIn [.bar, .rpar, .amp, .semi] (toks text s) = true := by
      rw [htoks]
      cases us with
      | nil => exact .inl rfl
      | cons t us =>
        refine .inr (nextIn_cons ?_)
        have ht := hus t rfl
        revert ht
        cases t.kind <;> decide
    obtain ⟨s', hrun, htoks'⟩ := parseargs_done hnul hnext n done.length (wrap (execOf done) ds)
    rw [List.append_nil, List.append_nil]
    exact ⟨s', hrun, htoks'.trans htoks⟩
  | @cons w ts vs ws ds₁ es hw hredirs hargs ih =>
    have hroom : done.length + 1 < 10 := by
      rw [List.length_append, List.length_cons] at hdone
      omega
    rw [List.cons_append, List.append_assoc] at htoks
    obtain ⟨s₁, hrun, htoks₁⟩ := parseargs_word hnul htoks hw hroom n (wrap (execOf done) ds)
    obtain ⟨s₂, hredir, htoks₂⟩ := parseredirs_complete hnul hredirs htoks₁
      (hargs.nextIn_redir hus) (Nat.lt_succ_of_le (length_toks text s₁))
      (wrap (execOf (done ++ [w])) ds)
    rw [addArg_wrap, bind_ok hredir, ← wrap_append] at hrun
    have hlen : (toks text s₂).length < n := by
      rw [htoks, List.length_cons, List.length_append, ← htoks₂] at hn
      omega
    obtain ⟨n, rfl⟩ : ∃ m, n = m + 1 := ⟨n - 1, by omega⟩
    have hdone' : ((done ++ [w]) ++ ws).length < 10 := by
      rwa [List.append_assoc]
    obtain ⟨s', hrest, htoks'⟩ := ih htoks₂ hdone' (ds ++ ds₁) n hlen
    refine ⟨s', ?_, htoks'⟩
    have hargc : (done ++ [w]).length = done.length + 1 := by simp
    rw [hrun, ← hargc, hrest, List.append_assoc, List.append_assoc]
    rfl

/-- What a parser for a part of the grammar does with the tokens of a derivation. -/
def Complete (text : List UInt8) (part : Part) (ts : List Tok) (cmd : Cmd) : Prop :=
  ∀ s us, toks text s = ts ++ us → Follow part us → ∀ n, rounds part (toks text s).length ≤ n →
    ∃ s', parse text part n s = .ok (cmd, s') ∧ toks text s' = us

theorem parseSeq_none (hnext : nextIn ks (toks text s) = false) {c : UInt8}
    (hpeek : ∀ s, ∃ s', peek text [c] s = .ok (nextIn ks (toks text s), s') ∧
      toks text s' = toks text s) (next : ParseM Cmd) (cmd : Cmd) : ∃ s',
    (do let more ← peek text [c]
        if more then next else return cmd : ParseM Cmd) s = .ok (cmd, s') ∧
      toks text s' = toks text s := by
  obtain ⟨s', hrun, htoks⟩ := hpeek s
  refine ⟨s', ?_, htoks⟩
  rw [bind_ok hrun, hnext]
  rfl

theorem parseSeq_some (hnul : 0 ∉ text) {t : Tok} (htoks : toks text s = t :: us)
    (ht : t.kind ∈ ks) {c : UInt8}
    (hpeek : ∀ s, ∃ s', peek text [c] s = .ok (nextIn ks (toks text s), s') ∧
      toks text s' = toks text s) (next : ParseM Cmd) (cmd : ParseM Cmd) : ∃ s',
    (do let more ← peek text [c]
        if more then do
          let _ ← gettoken text
          next
        else cmd : ParseM Cmd) s = next s' ∧ toks text s' = us := by
  obtain ⟨s₁, hrun, htoks₁⟩ := hpeek s
  obtain ⟨s₂, hget, htoks₂⟩ := gettoken_cons hnul (htoks₁.trans htoks)
  refine ⟨s₂, ?_, htoks₂⟩
  have hnext : nextIn ks (toks text s) = true := by
    rw [htoks]
    exact nextIn_cons ht
  rw [bind_ok hrun, hnext, if_pos rfl, bind_ok hget]

/-- Completeness of every parser, by the derivation. -/
theorem parse_complete (hnul : 0 ∉ text) {part : Part} (h : Derives part ts cmd) :
    Complete text part ts cmd := by
  have hloop : ∀ s, (toks text s).length < text.length + 1 := fun s =>
    Nat.lt_succ_of_le (length_toks text s)
  induction h with
  | @line ts as c _ has ih =>
    intro s us htoks hus n hn
    obtain ⟨n, rfl⟩ : ∃ m, n = m + 1 := ⟨n - 1, by simp only [rounds] at hn; omega⟩
    rw [List.append_assoc] at htoks
    have hfollow : Follow .pipe (as ++ us) := by
      cases as with
      | nil => exact hus.mono (by decide)
      | cons a as => exact follow_cons (by rw [has a List.mem_cons_self]; decide)
    obtain ⟨s₁, hpipe, htoks₁⟩ : ∃ s', parsepipe text n s = .ok (c, s') ∧ _ :=
      ih s _ htoks hfollow n (by simp only [rounds] at hn ⊢; omega)
    obtain ⟨s₂, hback, htoks₂⟩ := parseback_complete hnul has htoks₁
      (hus.nextIn_eq_false (by decide)) (hloop s₁) c
    have hnext : nextIn [.semi] (toks text s₂) = false := by
      rw [htoks₂]
      exact hus.nextIn_eq_false (by decide)
    obtain ⟨s₃, hend, htoks₃⟩ := parseSeq_none hnext (peek_semi hnul)
      (do let _ ← gettoken text
          let right ← parseline text n
          return .list (backs as c) right) (backs as c)
    refine ⟨s₃, ?_, htoks₃.trans htoks₂⟩
    rw [parse, parseline, bind_ok hpipe, bind_ok hback]
    exact hend
  | @lineSeq ts as vs semi c d _ has hsemi _ ih ihd =>
    intro s us htoks hus n hn
    obtain ⟨n, rfl⟩ : ∃ m, n = m + 1 := ⟨n - 1, by simp only [rounds] at hn; omega⟩
    rw [List.append_assoc, List.append_assoc, List.cons_append] at htoks
    have hfollow : Follow .pipe (as ++ semi :: (vs ++ us)) := by
      cases as with
      | nil => exact follow_cons (by rw [hsemi]; decide)
      | cons a as => exact follow_cons (by rw [has a List.mem_cons_self]; decide)
    obtain ⟨s₁, hpipe, htoks₁⟩ : ∃ s', parsepipe text n s = .ok (c, s') ∧ _ :=
      ih s _ htoks hfollow n (by simp only [rounds] at hn ⊢; omega)
    have hamp : nextIn [.amp] (semi :: (vs ++ us)) = false := by
      rw [nextIn, List.head?_cons, Option.any_some, hsemi]
      rfl
    obtain ⟨s₂, hback, htoks₂⟩ := parseback_complete hnul has htoks₁ hamp (hloop s₁) c
    obtain ⟨s₃, hseq, htoks₃⟩ := parseSeq_some hnul htoks₂
      (by rw [hsemi]; exact List.mem_singleton_self _) (peek_semi hnul)
      (do let right ← parseline text n
          return .list (backs as c) right) (pure (backs as c))
    have hlen : rounds .line (toks text s₃).length ≤ n := by
      rw [htoks, List.length_append, List.length_append, List.length_cons, ← htoks₃] at hn
      simp only [rounds] at hn ⊢
      omega
    obtain ⟨s₄, hline, htoks₄⟩ : ∃ s', parseline text n s₃ = .ok (d, s') ∧ _ :=
      ihd s₃ us htoks₃ hus n hlen
    refine ⟨s₄, ?_, htoks₄⟩
    rw [parse, parseline, bind_ok hpipe, bind_ok hback]
    refine hseq.trans ?_
    rw [bind_ok hline]
    rfl
  | @pipe ts c _ ih =>
    intro s us htoks hus n hn
    obtain ⟨n, rfl⟩ : ∃ m, n = m + 1 := ⟨n - 1, by simp only [rounds] at hn; omega⟩
    obtain ⟨s₁, hexec, htoks₁⟩ : ∃ s', parseexec text n s = .ok (c, s') ∧ _ :=
      ih s us htoks (hus.mono (by decide)) n (by simp only [rounds] at hn ⊢; omega)
    have hnext : nextIn [.bar] (toks text s₁) = false := by
      rw [htoks₁]
      exact hus.nextIn_eq_false (by decide)
    obtain ⟨s₂, hend, htoks₂⟩ := parseSeq_none hnext (peek_bar hnul)
      (do let _ ← gettoken text
          let right ← parsepipe text n
          return .pipe c right) c
    refine ⟨s₂, ?_, htoks₂.trans htoks₁⟩
    rw [parse, parsepipe, bind_ok hexec]
    exact hend
  | @pipeSeq ts vs bar c d _ hbar _ ih ihd =>
    intro s us htoks hus n hn
    obtain ⟨n, rfl⟩ : ∃ m, n = m + 1 := ⟨n - 1, by simp only [rounds] at hn; omega⟩
    rw [List.append_assoc, List.cons_append] at htoks
    obtain ⟨s₁, hexec, htoks₁⟩ : ∃ s', parseexec text n s = .ok (c, s') ∧ _ :=
      ih s _ htoks (follow_cons (by rw [hbar]; decide)) n (by simp only [rounds] at hn ⊢; omega)
    obtain ⟨s₂, hseq, htoks₂⟩ := parseSeq_some hnul htoks₁
      (by rw [hbar]; exact List.mem_singleton_self _) (peek_bar hnul)
      (do let right ← parsepipe text n
          return .pipe c right) (pure c)
    have hlen : rounds .pipe (toks text s₂).length ≤ n := by
      rw [htoks, List.length_append, List.length_cons, ← htoks₂] at hn
      simp only [rounds] at hn ⊢
      omega
    obtain ⟨s₃, hpipe, htoks₃⟩ : ∃ s', parsepipe text n s₂ = .ok (d, s') ∧ _ :=
      ihd s₂ us htoks₂ hus n hlen
    refine ⟨s₃, ?_, htoks₃⟩
    rw [parse, parsepipe, bind_ok hexec]
    refine hseq.trans ?_
    rw [bind_ok hpipe]
    rfl
  | @execBlock ts c hblock ih =>
    intro s us htoks hus n hn
    obtain ⟨n, rfl⟩ : ∃ m, n = m + 1 := ⟨n - 1, by simp only [rounds] at hn; omega⟩
    obtain ⟨s₁, hpeek, htoks₁⟩ := peek_lpar hnul s
    have hnext : nextIn [.lpar] (toks text s) = true := by
      rw [htoks]
      cases hblock with
      | block hl _ _ _ => exact nextIn_cons (by rw [hl]; exact List.mem_singleton_self _)
    obtain ⟨s₂, hrun, htoks₂⟩ := ih s₁ us (htoks₁.trans htoks) hus n
      (by rw [htoks₁]; simp only [rounds] at hn ⊢; omega)
    refine ⟨s₂, ?_, htoks₂⟩
    rw [parse, parseexec, bind_ok hpeek, hnext]
    exact hrun
  | @execArgs ts vs ws ds es hredirs hargs hlen =>
    intro s us htoks hus n hn
    obtain ⟨n, rfl⟩ : ∃ m, n = m + 1 := ⟨n - 1, by simp only [rounds] at hn; omega⟩
    rw [List.append_assoc] at htoks
    obtain ⟨s₁, hpeek, htoks₁⟩ := peek_lpar hnul s
    have hnext : nextIn [.lpar] (toks text s) = false := by
      rw [htoks]
      cases hredirs with
      | nil =>
        cases hargs with
        | nil => exact hus.nextIn_eq_false (by decide)
        | cons hw _ _ => rw [List.nil_append, List.cons_append, nextIn, List.head?_cons, Option.any_some, hw]; rfl
      | @cons op w ts ds hop _ _ =>
        rw [List.cons_append, nextIn, List.head?_cons, Option.any_some]
        revert hop
        cases op.kind <;> decide
    obtain ⟨s₂, hredir, htoks₂⟩ := parseredirs_complete hnul hredirs (htoks₁.trans htoks)
      (hargs.nextIn_redir hus) (hloop s₁) (.exec [])
    have hlen' : ([] ++ ws).length < 10 := hlen
    obtain ⟨s₃, hrun, htoks₃⟩ := parseargs_complete hnul hargs htoks₂ hus hlen' (hloop s₂) ds
    refine ⟨s₃, ?_, htoks₃⟩
    rw [parse, parseexec, bind_ok hpeek, hnext, if_neg (by decide), bind_ok hredir]
    exact hrun
  | @block ts vs l r c ds hl _ hr hredirs ih =>
    intro s us htoks hus n hn
    obtain ⟨n, rfl⟩ : ∃ m, n = m + 1 := ⟨n - 1, by simp only [rounds] at hn; omega⟩
    rw [List.cons_append, List.append_assoc, List.cons_append] at htoks
    obtain ⟨s₁, hpeek, htoks₁⟩ := peek_lpar hnul s
    have hnext : nextIn [.lpar] (toks text s) = true := by
      rw [htoks]
      exact nextIn_cons (by rw [hl]; exact List.mem_singleton_self _)
    obtain ⟨s₂, hget, htoks₂⟩ := gettoken_cons hnul (htoks₁.trans htoks)
    have hlen : rounds .line (toks text s₂).length ≤ n := by
      rw [htoks, List.length_cons, ← htoks₂] at hn
      simp only [rounds] at hn ⊢
      omega
    obtain ⟨s₃, hline, htoks₃⟩ : ∃ s', parseline text n s₂ = .ok (c, s') ∧ _ :=
      ih s₂ _ htoks₂ (follow_cons (by rw [hr]; decide)) n hlen
    obtain ⟨s₄, hpeek', htoks₄⟩ := peek_rpar hnul s₃
    have hnext' : nextIn [.rpar] (toks text s₃) = true := by
      rw [htoks₃]
      exact nextIn_cons (by rw [hr]; exact List.mem_singleton_self _)
    obtain ⟨s₅, hget', htoks₅⟩ := gettoken_cons hnul (htoks₄.trans htoks₃)
    obtain ⟨s₆, hredir, htoks₆⟩ := parseredirs_complete hnul hredirs htoks₅
      (hus.nextIn_eq_false (by decide)) (hloop s₅) c
    refine ⟨s₆, ?_, htoks₆⟩
    rw [parse, parseblock, bind_ok hpeek, hnext, if_neg (by decide), bind_ok hget,
      bind_ok hline, bind_ok hpeek', hnext', if_neg (by decide), bind_ok hget', hredir]

/-! ## The position stays inside the line -/

theorem inside_parseredirs (text : List UInt8) (n : Nat) (cmd : Cmd) :
    Inside text (parseredirs text n cmd) := by
  induction n generalizing cmd with
  | zero => exact inside_throw _
  | succ n ih =>
    refine (inside_peek text _).bind fun _ => .ite ?_ (inside_pure _)
    refine (inside_gettoken text).bind fun _ => (inside_gettoken text).bind fun _ => ?_
    exact .ite (inside_throw _) (ih _)

theorem inside_parseargs (text : List UInt8) (n argc : Nat) (cmd : Cmd) :
    Inside text (parseargs text n argc cmd) := by
  induction n generalizing argc cmd with
  | zero => exact inside_throw _
  | succ n ih =>
    refine (inside_peek text _).bind fun _ => .ite (inside_pure _) ?_
    refine (inside_gettoken text).bind fun _ => .ite (inside_pure _) (.ite (inside_throw _) ?_)
    exact .ite (inside_throw _) ((inside_parseredirs text _ _).bind fun _ => ih _ _)

theorem inside_parseback (text : List UInt8) (n : Nat) (cmd : Cmd) :
    Inside text (parseback text n cmd) := by
  induction n generalizing cmd with
  | zero => exact inside_throw _
  | succ n ih =>
    refine (inside_peek text _).bind fun _ => .ite ?_ (inside_pure _)
    exact (inside_gettoken text).bind fun _ => ih _

theorem inside_parse (text : List UInt8) (n : Nat) (part : Part) :
    Inside text (parse text part n) := by
  induction n generalizing part with
  | zero => cases part <;> exact inside_throw _
  | succ n ih =>
    cases part with
    | line =>
      refine (ih .pipe).bind fun _ => (inside_parseback text _ _).bind fun _ => ?_
      refine (inside_peek text _).bind fun _ => .ite ?_ (inside_pure _)
      exact (inside_gettoken text).bind fun _ => (ih .line).bind fun _ => inside_pure _
    | pipe =>
      refine (ih .exec).bind fun _ => (inside_peek text _).bind fun _ => .ite ?_ (inside_pure _)
      exact (inside_gettoken text).bind fun _ => (ih .pipe).bind fun _ => inside_pure _
    | exec =>
      refine (inside_peek text _).bind fun _ => .ite (ih .block) ?_
      exact (inside_parseredirs text _ _).bind fun _ => inside_parseargs text _ _ _
    | block =>
      refine (inside_peek text _).bind fun _ => .ite (inside_throw _) ?_
      refine (inside_gettoken text).bind fun _ => (ih .line).bind fun _ => ?_
      refine (inside_peek text _).bind fun _ => .ite (inside_throw _) ?_
      exact (inside_gettoken text).bind fun _ => inside_parseredirs text _ _

end

end Xv6Sharing.User.Sh
