/-
Xv6Sharing.User.ShellCommand — `parsecmd` as a whole (user/sh.c).

A line is accepted exactly when its tokens derive from the grammar, and then the
tree of that derivation is returned. `nulterminate` stores a NUL behind every word
of the tree, in the buffer that all words lie in. The stores hit whitespace, symbols
or the end of the line, which are in no word; so each word can then be read as a
string.
-/
import Xv6Sharing.User.ShellGrammar

namespace Xv6Sharing.User.Sh

open Lib

section

variable {text buf : List UInt8} {s : Nat} {ts us : List Tok} {cmd : Cmd}

/-! ## The words of a tree -/

/-- The words that `nulterminate` ends, in its order. -/
def words : Cmd → List (Nat × Nat)
  | .exec argv => argv
  | .redir cmd file efile _ _ => words cmd ++ [(file, efile)]
  | .pipe left right => words left ++ words right
  | .list left right => words left ++ words right
  | .back cmd => words cmd

/-- Every word of the tree is a word of the line. -/
def WordsIn (ts : List Tok) (cmd : Cmd) : Prop :=
  ∀ w ∈ words cmd, ∃ t ∈ ts, t.kind = .word ∧ w = (t.q, t.eq)

theorem WordsIn.mono (h : WordsIn ts cmd) (hsub : ts ⊆ us) : WordsIn us cmd := fun w hw =>
  let ⟨t, ht, hword, heq⟩ := h w hw
  ⟨t, hsub ht, hword, heq⟩

theorem WordsIn.addRedir (h : WordsIn ts cmd) {d : Redir} (hd : d.2 ∈ ts) (hword : d.2.kind = .word) :
    WordsIn ts (addRedir cmd d) := by
  have hredir : ∀ mode fd, WordsIn ts (.redir cmd d.2.q d.2.eq mode fd) := by
    intro mode fd w hw
    rcases List.mem_append.mp hw with hw | hw
    · exact h w hw
    · exact ⟨d.2, hd, hword, List.mem_singleton.mp hw⟩
  unfold Sh.addRedir redircmd
  split
  · exact hredir _ _
  · split
    · exact hredir _ _
    · split
      · exact hredir _ _
      · exact h

theorem Redirs.wordsIn {ds : List Redir} (h : Redirs ts ds) (hsub : ts ⊆ us)
    (hcmd : WordsIn us cmd) : WordsIn us (wrap cmd ds) := by
  induction h generalizing cmd with
  | nil => exact hcmd
  | cons _ hw _ ih =>
    obtain ⟨-, hsub⟩ := List.cons_subset.mp hsub
    obtain ⟨hmem, hsub⟩ := List.cons_subset.mp hsub
    exact ih hsub (hcmd.addRedir hmem hw)

theorem Args.wordsIn {ws : List Tok} {es : List Redir} (h : Args ts ws es) (hsub : ts ⊆ us) :
    (∀ w ∈ ws, w ∈ us ∧ w.kind = .word) ∧
      ∀ {cmd : Cmd}, WordsIn us cmd → WordsIn us (wrap cmd es) := by
  induction h with
  | nil => exact ⟨nofun, id⟩
  | cons hw hredirs _ ih =>
    obtain ⟨hmem, hsub⟩ := List.cons_subset.mp hsub
    obtain ⟨hsub₁, hsub₂⟩ := List.append_subset.mp hsub
    refine ⟨List.forall_mem_cons.mpr ⟨⟨hmem, hw⟩, (ih hsub₂).1⟩, fun hcmd => ?_⟩
    rw [wrap_append]
    exact (ih hsub₂).2 (hredirs.wordsIn hsub₁ hcmd)

theorem words_backs (as : List Tok) (cmd : Cmd) : words (backs as cmd) = words cmd := by
  induction as generalizing cmd with
  | nil => rfl
  | cons a as ih => rw [backs, ih, words]

theorem Derives.wordsIn {part : Part} (h : Derives part ts cmd) : WordsIn ts cmd := by
  have hpair : ∀ {us vs : List Tok} {c d : Cmd}, WordsIn us c → WordsIn vs d →
      ∀ w ∈ words c ++ words d, ∃ t ∈ us ++ vs, t.kind = .word ∧ w = (t.q, t.eq) := by
    intro us vs c d hc hd w hw
    rcases List.mem_append.mp hw with hw | hw
    · exact hc.mono (List.subset_append_left _ _) w hw
    · exact hd.mono (List.subset_append_right _ _) w hw
  induction h with
  | line _ _ ih =>
    intro w hw
    rw [words_backs] at hw
    exact ih.mono (List.subset_append_left _ _) w hw
  | @lineSeq ts as us semi c d _ _ _ _ ih ihd =>
    intro w hw
    rw [words, words_backs] at hw
    refine hpair ih (ihd.mono ?_) w hw
    exact List.Subset.trans (List.subset_cons_self _ _) (List.subset_append_right _ _)
  | pipe _ ih => exact ih
  | pipeSeq _ _ _ ih ihd =>
    intro w hw
    exact hpair ih (ihd.mono (List.subset_cons_self _ _)) w hw
  | execBlock _ ih => exact ih
  | @execArgs ts us ws ds es hredirs hargs _ =>
    obtain ⟨hws, hwrap⟩ := hargs.wordsIn (List.subset_append_right ts us)
    rw [wrap_append]
    refine hwrap (hredirs.wordsIn (List.subset_append_left _ _) fun w hw => ?_)
    obtain ⟨t, ht, rfl⟩ := List.mem_map.mp hw
    exact ⟨t, (hws t ht).1, (hws t ht).2, rfl⟩
  | block _ _ _ hredirs ih =>
    refine hredirs.wordsIn ?_ (ih.mono ?_)
    · exact List.Subset.trans
        (List.Subset.trans (List.subset_cons_self _ _) (List.subset_append_right _ _))
        (List.subset_cons_self _ _)
    · exact List.Subset.trans (List.subset_append_left _ _) (List.subset_cons_self _ _)

/-! ## Terminating the words -/

/-- The stores of `nulterminate`. -/
def storeNuls (ws : List (Nat × Nat)) (buf : List UInt8) : List UInt8 :=
  ws.foldl (fun buf w => buf.set w.2 0) buf

theorem nulterminate_eq (cmd : Cmd) (buf : List UInt8) :
    nulterminate cmd buf = storeNuls (words cmd) buf := by
  induction cmd generalizing buf with
  | exec argv => rfl
  | redir cmd _ efile _ _ ih => rw [nulterminate, ih, words, storeNuls, storeNuls, List.foldl_append]; rfl
  | pipe left right ihl ihr =>
    rw [nulterminate, ihl, ihr, words, storeNuls, storeNuls, storeNuls, List.foldl_append]
  | list left right ihl ihr =>
    rw [nulterminate, ihl, ihr, words, storeNuls, storeNuls, storeNuls, List.foldl_append]
  | back cmd ih => rw [nulterminate, ih, words]

section

variable {ws : List (Nat × Nat)} {i : Nat}

theorem storeNuls_other (h : ∀ w ∈ ws, w.2 ≠ i) (buf : List UInt8) :
    (storeNuls ws buf)[i]? = buf[i]? := by
  induction ws generalizing buf with
  | nil => rfl
  | cons w ws ih =>
    obtain ⟨hw, hws⟩ := List.forall_mem_cons.mp h
    rw [storeNuls, List.foldl_cons, ← storeNuls, ih hws, List.getElem?_set_ne hw]

theorem storeNuls_zero (ws : List (Nat × Nat)) (h : buf[i]? = some 0) :
    (storeNuls ws buf)[i]? = some 0 := by
  induction ws generalizing buf with
  | nil => exact h
  | cons w ws ih =>
    refine ih ?_
    rw [List.getElem?_set]
    split
    · next heq => rw [heq, if_pos (List.getElem?_eq_some_iff.mp h).1]
    · exact h

theorem storeNuls_mem {w : Nat × Nat} (hw : w ∈ ws) (hlt : w.2 < buf.length) :
    (storeNuls ws buf)[w.2]? = some 0 := by
  induction ws generalizing buf with
  | nil => cases hw
  | cons v ws ih =>
    rw [storeNuls, List.foldl_cons, ← storeNuls]
    rcases List.mem_cons.mp hw with rfl | hw
    · exact storeNuls_zero ws (List.getElem?_set_self hlt)
    · exact ih hw (by rwa [List.length_set])

end

/-- The text of a token. -/
def tokText (text : List UInt8) (w : Nat × Nat) : List UInt8 := (text.drop w.1).take (w.2 - w.1)

theorem stringAt_storeNuls (h : StringAt buf text) {ws : List (Nat × Nat)}
    (hws : ∀ w ∈ ws, ∃ t ∈ tokens text, t.kind = .word ∧ w = (t.q, t.eq)) {w : Nat × Nat}
    (hw : w ∈ ws) : StringAt ((storeNuls ws buf).drop w.1) (tokText text w) := by
  obtain ⟨t, ht, hword, rfl⟩ := hws w hw
  have htok := toks_isWordTok ht hword
  obtain ⟨rest, hbuf⟩ := h.exists_rest
  -- no store hits a character of a word
  have hkept : ∀ j, t.q ≤ j → j < t.eq → (storeNuls ws buf)[j]? = text[j]? := by
    intro j hj hj'
    obtain ⟨c, hc, hchar⟩ := htok.chars j hj hj'
    rw [storeNuls_other, hbuf, List.getElem?_append_left (List.getElem?_eq_some_iff.mp hc).1]
    rintro v hv rfl
    obtain ⟨u, hu, huword, rfl⟩ := hws v hv
    rw [(toks_isWordTok hu huword).behind c hc] at hchar
    cases hchar
  have hend : (storeNuls ws buf)[t.eq]? = some 0 := by
    refine storeNuls_mem hw ?_
    have hle := htok.le_length
    rw [hbuf, List.length_append, List.length_cons]
    show t.eq < _
    omega
  have hslice : ((storeNuls ws buf).drop t.q).take (t.eq - t.q) = tokText text (t.q, t.eq) := by
    refine List.ext_getElem? fun j => ?_
    rw [tokText, List.getElem?_take, List.getElem?_take]
    split
    · rw [List.getElem?_drop, List.getElem?_drop, hkept _ (Nat.le_add_right _ _) (by omega)]
    · rfl
  have hrest : (storeNuls ws buf).drop t.eq = 0 :: (storeNuls ws buf).drop (t.eq + 1) := by
    obtain ⟨hlt, hget⟩ := List.getElem?_eq_some_iff.mp hend
    rw [List.drop_eq_getElem_cons hlt, hget]
  have hwhole : (storeNuls ws buf).drop t.q
      = tokText text (t.q, t.eq) ++ 0 :: (storeNuls ws buf).drop (t.eq + 1) := by
    have hle := htok.start_le
    have hsum : t.q + (t.eq - t.q) = t.eq := by omega
    rw [← hslice, ← hrest]
    conv_lhs => rw [← List.take_append_drop (t.eq - t.q) ((storeNuls ws buf).drop t.q)]
    rw [List.drop_drop, hsum]
  rw [hwhole]
  refine stringAt_append (fun hmem => h.noNul ?_) _
  exact List.mem_of_mem_drop (List.mem_of_mem_take hmem)

/-! ## The whole line -/

theorem cut_eq (h : StringAt buf text) : cut buf = text := by
  obtain ⟨rest, rfl⟩ := h.exists_rest
  have hall : ∀ c ∈ text, decide (c ≠ 0) = true := fun c hc =>
    decide_eq_true fun hzero => h.noNul (hzero ▸ hc)
  rw [cut, List.takeWhile_append_of_pos hall]
  simp

theorem toks_zero (text : List UInt8) : toks text 0 = tokens text := by
  rw [toks, List.drop_zero, tokens]

/-- When the parser returns, what is left decides. -/
theorem parsecmd_of_parseline (h : StringAt buf text) {n : Nat}
    (hrun : parseline text n 0 = .ok (cmd, s)) : parsecmd n buf =
      if toks text s = [] then .ok (cmd, nulterminate cmd buf)
      else .error (.panic .leftovers) := by
  have hle : s ≤ text.length := (inside_parse text n .line 0 (Nat.zero_le _)).post hrun
  have hskip : skip isWhitespace text s ≤ text.length := skip_le isWhitespace hle
  have hcmd : parsecmd n buf = if skip isWhitespace text s ≠ text.length
      then .error (.panic .leftovers) else .ok (cmd, nulterminate cmd buf) := by
    have hrun' : (parseline text n).run 0 = .ok (cmd, s) := hrun
    rw [parsecmd, cut_eq h, hrun']
    rfl
  rw [hcmd]
  rcases next_cases h.noNul s with ⟨hend, htoks⟩ | ⟨t, ht, htoks⟩
  · have hlen := List.drop_eq_nil_iff.mp hend
    rw [if_pos htoks, if_neg (not_not.mpr (Nat.le_antisymm hskip hlen))]
  · have hlt := lt_of_charAt_ne_zero ht.nonzero
    have hne : toks text s ≠ [] := by
      rw [htoks]
      exact List.cons_ne_nil _ _
    rw [if_neg hne, if_pos (Nat.ne_of_lt hlt)]

theorem parsecmd_cases (h : StringAt buf text) {n : Nat} (hn : 4 * text.length + 4 ≤ n) :
    (∃ cmd, parsecmd n buf = .ok (cmd, nulterminate cmd buf) ∧ Derives .line (tokens text) cmd) ∨
      ∃ p, parsecmd n buf = .error (.panic p) := by
  have hrounds : rounds .line (toks text 0).length ≤ n := by
    have hlen := length_toks text 0
    simp only [rounds]
    omega
  have hsound := parse_sound h.noNul n .line 0 hrounds
  cases hrun : parseline text n 0 with
  | error e =>
    obtain ⟨p, rfl⟩ := hsound.error hrun
    refine .inr ⟨p, ?_⟩
    have hrun' : (parseline text n).run 0 = .error (.panic p) := hrun
    rw [parsecmd, cut_eq h, hrun']
    rfl
  | ok r =>
    obtain ⟨cmd, s⟩ := r
    obtain ⟨ts, hsplit, hderives⟩ := hsound.post hrun
    rw [parsecmd_of_parseline h hrun]
    by_cases htoks : toks text s = []
    · rw [htoks, List.append_nil, toks_zero] at hsplit
      exact .inl ⟨cmd, if_pos htoks, hsplit ▸ hderives⟩
    · exact .inr ⟨_, if_neg htoks⟩

theorem parsecmd_of_derives (h : StringAt buf text) {n : Nat} (hn : 4 * text.length + 4 ≤ n)
    (hderives : Derives .line (tokens text) cmd) :
    parsecmd n buf = .ok (cmd, nulterminate cmd buf) := by
  have hrounds : rounds .line (toks text 0).length ≤ n := by
    have hlen := length_toks text 0
    simp only [rounds]
    omega
  have hnil : Follow .line [] := fun _ ht => by cases ht
  obtain ⟨s, hrun, htoks⟩ := parse_complete h.noNul hderives 0 []
    (by rw [List.append_nil, toks_zero]) hnil n hrounds
  rw [parsecmd_of_parseline h hrun, if_pos htoks]

theorem parsecmd_words (h : StringAt buf text) {n : Nat} (hn : 4 * text.length + 4 ≤ n)
    {buf' : List UInt8} (hrun : parsecmd n buf = .ok (cmd, buf')) {w : Nat × Nat}
    (hw : w ∈ words cmd) : (∃ t ∈ tokens text, t.kind = .word ∧ w = (t.q, t.eq)) ∧
      StringAt (buf'.drop w.1) (tokText text w) := by
  rcases parsecmd_cases h hn with ⟨cmd', hcmd, hderives⟩ | ⟨p, hpanic⟩
  · cases hrun.symm.trans hcmd
    refine ⟨hderives.wordsIn w hw, ?_⟩
    rw [nulterminate_eq]
    exact stringAt_storeNuls h hderives.wordsIn hw
  · cases hrun.symm.trans hpanic

/-- For every line in a buffer, with enough rounds: a tree is returned exactly when the tokens of
the line derive from the grammar, and it is the tree of the derivation; otherwise the parser panics.
After that every word of the tree is a string in the buffer, the text of its token. -/
theorem parsecmd_iff_derives (h : StringAt buf text) {n : Nat} (hn : 4 * text.length + 4 ≤ n) :
    (∀ cmd, (∃ buf', parsecmd n buf = .ok (cmd, buf')) ↔ Derives .line (tokens text) cmd) ∧
      ((¬ ∃ cmd, Derives .line (tokens text) cmd) → ∃ p, parsecmd n buf = .error (.panic p)) ∧
      ∀ cmd buf', parsecmd n buf = .ok (cmd, buf') → ∀ w ∈ words cmd,
        (∃ t ∈ tokens text, t.kind = .word ∧ w = (t.q, t.eq)) ∧
          StringAt (buf'.drop w.1) (tokText text w) := by
  refine ⟨fun cmd => ⟨?_, fun hderives => ⟨_, parsecmd_of_derives h hn hderives⟩⟩, ?_,
    fun cmd buf' hrun w hw => parsecmd_words h hn hrun hw⟩
  · rintro ⟨buf', hrun⟩
    rcases parsecmd_cases h hn with ⟨cmd', hcmd, hderives⟩ | ⟨p, hpanic⟩
    · cases hrun.symm.trans hcmd
      exact hderives
    · cases hrun.symm.trans hpanic
  · intro hnone
    rcases parsecmd_cases h hn with ⟨cmd, -, hderives⟩ | hpanic
    · exact absurd ⟨cmd, hderives⟩ hnone
    · exact hpanic

end

/-- The line "a>b" in a buffer with a byte behind it. -/
theorem parsecmd_iff_derives_redir :
    (∀ cmd, (∃ buf', parsecmd 16 [97, 62, 98, 0, 1] = .ok (cmd, buf')) ↔
      Derives .line (tokens [97, 62, 98]) cmd) ∧
      ((¬ ∃ cmd, Derives .line (tokens [97, 62, 98]) cmd) →
        ∃ p, parsecmd 16 [97, 62, 98, 0, 1] = .error (.panic p)) ∧
      ∀ cmd buf', parsecmd 16 [97, 62, 98, 0, 1] = .ok (cmd, buf') → ∀ w ∈ words cmd,
        (∃ t ∈ tokens [97, 62, 98], t.kind = .word ∧ w = (t.q, t.eq)) ∧
          StringAt (buf'.drop w.1) (tokText [97, 62, 98] w) :=
  parsecmd_iff_derives (stringAt_append (s := [97, 62, 98]) (by decide) [1]) (by decide)

end Xv6Sharing.User.Sh
