/-
Xv6Sharing.User.LiSa — the analysis of a text in liSa (user/liSa.c).

The arrays of `check_current_setence` and the shared strings are arrays of bytes;
an access outside them has no result. `word` comes from the stack and starts with
any contents. The sentence is `buff[start..end-1]`, and its words are what stands
between spaces, so the loop over the characters is a loop over
`List.splitOn` of the sentence.
-/
import Xv6Sharing.User.Ulib

namespace Xv6Sharing.User

open Lib

/-! ## The functions of liSa.c -/

/-- The character ' '. -/
def space : UInt8 := 32

/-- The characters '.', '!' and '?'. -/
def Terminator (c : UInt8) : Prop := c = 46 ∨ c = 33 ∨ c = 63

instance (c : UInt8) : Decidable (Terminator c) := inferInstanceAs (Decidable (_ ∨ _ ∨ _))

/-- What dalle shares with liSa about the words. -/
structure Shared where
  csLongest : List UInt8
  csShortest : List UInt8
  longestWord : List UInt8
  shortestWord : List UInt8
  lenLongest : Nat
  lenShortest : Nat

/-- The arrays of `check_current_setence`. -/
structure Locals where
  word : List UInt8
  lw : List UInt8
  sw : List UInt8

/-- What is done at the end of a word of `wlen` characters. -/
def scanWord (buff : List UInt8) (wstart wlen : Nat) (l : Locals) : Option Locals := do
  let word ← memset 0 wlen l.word
  let word ← strncpy word (buff.drop wstart) wlen
  let word ← storeAt word wlen 0
  let longest ← strlen l.lw
  if wlen > longest then do
    let lw ← strncpy l.lw word (wlen + 1)
    return { l with word, lw }
  else do
    let shortest ← strlen l.sw
    if wlen < shortest then do
      let sw ← strncpy l.sw word (wlen + 1)
      return { l with word, sw }
    else return { l with word }

/-- The loop over the characters, from `i` on for `n` of them. -/
def wordLoop (buff : List UInt8) (stop : Nat) : Nat → Nat → Nat → Locals → Option Locals
  | 0, _, _, l => some l
  | n + 1, i, wstart, l => do
      let c ← buff[i]?
      if c = space ∨ i = stop then do
        let l ← scanWord buff wstart (i - wstart) l
        wordLoop buff stop n (i + 1) (i + 1) l
      else wordLoop buff stop n (i + 1) wstart l

/-- The arrays before the loop. -/
def initLocals (word : List UInt8) : Locals where
  word := word
  lw := 46 :: List.replicate 29 0
  sw := List.replicate 5 46 ++ List.replicate 25 0

/-- A new longest word. -/
def noteLongest (lw : List UInt8) (sh : Shared) : Option Shared := do
  let n ← strlen lw
  if n > sh.lenLongest then do
    let longestWord ← copyString sh.longestWord lw
    return { sh with longestWord, lenLongest := n }
  else return sh

/-- A new shortest word. -/
def noteShortest (sw : List UInt8) (sh : Shared) : Option Shared := do
  let n ← strlen sw
  if n < sh.lenShortest then do
    let shortestWord ← copyString sh.shortestWord sw
    return { sh with shortestWord, lenShortest := n }
  else return sh

/-- `check_current_setence`; `stop` is `end`. -/
def checkCurrentSetence (word buff : List UInt8) (start stop : Nat) (sh : Shared) :
    Option Shared := do
  let l ← wordLoop buff stop (stop + 1 - start) start start (initLocals word)
  let csShortest ← copyString sh.csShortest l.sw
  let csLongest ← copyString sh.csLongest l.lw
  let sh ← noteLongest l.lw { sh with csLongest, csShortest }
  noteShortest l.sw sh

/-! ## The words of a sentence -/

variable {buff w more : List UInt8} {l l' : Locals}

theorem strncpy_append (dst : List UInt8) (w more : List UInt8) :
    strncpy dst (w ++ more) w.length = strncpy dst w w.length := by
  induction w generalizing dst with
  | nil => simp [strncpy]
  | cons c w ih =>
    cases dst with
    | nil => rfl
    | cons d dst => simp only [List.cons_append, List.length_cons, strncpy, ih]

/-- A word is what it is, wherever it stands. -/
def takeWord (l : Locals) (w : List UInt8) : Option Locals := scanWord w 0 w.length l

theorem scanWord_eq {wstart : Nat} (h : buff.drop wstart = w ++ more) (l : Locals) :
    scanWord buff wstart w.length l = takeWord l w := by
  unfold takeWord scanWord
  rw [h, List.drop_zero]
  simp only [strncpy_append]

theorem getElem?_of_drop {start : Nat} {pending rest : List UInt8} {d : UInt8}
    (h : buff.drop start = pending ++ d :: rest) : buff[start + pending.length]? = some d := by
  rw [← List.getElem?_drop, h, List.getElem?_append_right (Nat.le_refl _), Nat.sub_self,
    List.getElem?_cons_zero]

theorem splitOn_space (rest : List UInt8) :
    (space :: rest).splitOn space = [] :: rest.splitOn space := by
  simp [List.splitOn, List.splitOnP_cons_eq_if_modifyHead]

theorem splitOn_cons {d : UInt8} (hd : d ≠ space) (rest : List UInt8) :
    (d :: rest).splitOn space = (rest.splitOn space).modifyHead (d :: ·) := by
  simp [List.splitOn, List.splitOnP_cons_eq_if_modifyHead, hd]

/-- The loop takes the words one by one. `pending` is the part of a word that has been passed. -/
theorem wordLoop_eq (rest : List UInt8) {start : Nat} {pending : List UInt8} {c : UInt8}
    (hdrop : buff.drop start = pending ++ rest ++ c :: more) (l : Locals) :
    wordLoop buff (start + pending.length + rest.length) (rest.length + 1) (start + pending.length)
        start l
      = ((rest.splitOn space).modifyHead (pending ++ ·)).foldlM takeWord l := by
  have hlen : start + pending.length - start = pending.length := Nat.add_sub_cancel_left ..
  induction rest generalizing start pending l with
  | nil =>
    have hdrop' : buff.drop start = pending ++ c :: more := by rw [hdrop, List.append_nil]
    rw [List.length_nil, Nat.add_zero, wordLoop, getElem?_of_drop hdrop', hlen,
      scanWord_eq hdrop']
    simp [wordLoop, List.splitOn_nil]
  | cons d rest ih =>
    have hdrop' : buff.drop start = pending ++ d :: (rest ++ c :: more) := by
      rw [hdrop, List.append_assoc, List.cons_append]
    have hnot : start + pending.length ≠ start + pending.length + (d :: rest).length := by
      rw [List.length_cons]
      omega
    rw [List.length_cons, wordLoop, getElem?_of_drop hdrop', Option.bind_eq_bind,
      Option.bind_some]
    by_cases hd : d = space
    · -- the word ends here
      have hnext : buff.drop (start + pending.length + 1) = [] ++ rest ++ c :: more := by
        rw [Nat.add_assoc, ← List.drop_drop, hdrop', ← List.drop_drop, List.drop_left]
        rfl
      have hstop : start + pending.length + (rest.length + 1)
          = start + pending.length + 1 + ([] : List UInt8).length + rest.length := by
        rw [List.length_nil]
        omega
      have hloop := fun l => ih hnext l (by simp)
      rw [List.length_nil, Nat.add_zero] at hloop
      rw [if_pos (.inl hd), hlen, scanWord_eq hdrop', hstop, List.length_nil, Nat.add_zero, hd,
        splitOn_space, List.modifyHead_cons, List.append_nil, List.foldlM_cons]
      have hsame : List.modifyHead (fun x => x) (rest.splitOn space) = rest.splitOn space := by
        cases rest.splitOn space <;> rfl
      simp only [hloop, List.nil_append, hsame, Option.bind_eq_bind]
    · have hnext : buff.drop start = (pending ++ [d]) ++ rest ++ c :: more := by
        rw [hdrop']
        simp
      have hloop := ih hnext l (Nat.add_sub_cancel_left ..)
      rw [List.length_append, List.length_singleton, ← Nat.add_assoc, Nat.add_assoc _ 1,
        Nat.add_comm 1] at hloop
      rw [if_neg (by simp [hd]), splitOn_cons hd, List.modifyHead_modifyHead, hloop]
      refine congrArg (List.foldlM takeWord l) (congrArg (List.modifyHead · _) (funext fun x => ?_))
      simp

/-- The sentence `buff[start..stop-1]`, which the character `c` ends. -/
structure Sentence (buff : List UInt8) (start stop : Nat) (text : List UInt8) : Prop where
  stop : stop = start + text.length
  text : ∃ c more, buff.drop start = text ++ c :: more

theorem Sentence.wordLoop {start stop : Nat} {text : List UInt8} (h : Sentence buff start stop text)
    (l : Locals) :
    wordLoop buff stop (stop + 1 - start) start start l = (text.splitOn space).foldlM takeWord l := by
  obtain ⟨c, more, hdrop⟩ := h.text
  have hwhole : buff.drop start = [] ++ text ++ c :: more := hdrop
  have hloop := wordLoop_eq text hwhole l
  have hcount : stop + 1 - start = text.length + 1 := by rw [h.stop]; omega
  have hsame : List.modifyHead (fun x => [] ++ x) (text.splitOn space) = text.splitOn space := by
    cases text.splitOn space <;> rfl
  rw [List.length_nil, Nat.add_zero, hsame, ← h.stop] at hloop
  rw [hcount, hloop]

/-! ## The words that are kept -/

/-- The strings in the arrays. -/
structure Keeps (l : Locals) (lw sw : List UInt8) : Prop where
  word : l.word.length = 30
  lenLw : l.lw.length = 30
  lenSw : l.sw.length = 30
  lw : StringAt l.lw lw
  sw : StringAt l.sw sw

/-- What a word does to the strings. -/
def keep (kept : List UInt8 × List UInt8) (w : List UInt8) : List UInt8 × List UInt8 :=
  if w.length > kept.1.length then (cut w, kept.2)
  else if w.length < kept.2.length then (kept.1, cut w)
  else kept

section

variable {k : List UInt8 × List UInt8}

theorem keep_long (h : w.length > k.1.length) : keep k w = (cut w, k.2) := if_pos h

theorem keep_short (h : ¬ w.length > k.1.length) (h' : w.length < k.2.length) :
    keep k w = (k.1, cut w) := (if_neg h).trans (if_pos h')

theorem keep_same (h : ¬ w.length > k.1.length) (h' : ¬ w.length < k.2.length) : keep k w = k :=
  (if_neg h).trans (if_neg h')

end

theorem keeps_initLocals {word : List UInt8} (h : word.length = 30) :
    Keeps (initLocals word) [46] (List.replicate 5 46) :=
  ⟨h, rfl, rfl, stringAt_append (s := [46]) (by decide) (List.replicate 28 0),
    stringAt_append (s := List.replicate 5 46) (by decide) (List.replicate 24 0)⟩

/-- A word that fits is copied to `word`, up to a NUL in it. -/
theorem copyWord {word : List UInt8} (hword : word.length = 30) (hlen : w.length ≤ 29) :
    ∃ copied rest, memset 0 w.length word = some copied ∧
      (strncpy copied w w.length).bind (storeAt · w.length 0) = some (cut w ++ 0 :: rest) ∧
      (cut w ++ 0 :: rest).length = 30 := by
  obtain ⟨d, rest, hrest⟩ : ∃ d rest, word.drop w.length = d :: rest :=
    List.exists_cons_of_ne_nil fun hnil => by
      have hlen' := congrArg List.length hnil
      rw [List.length_drop, List.length_nil] at hlen'
      omega
  have hle := length_cut_le w
  have hcopied : (List.replicate w.length 0 ++ word.drop w.length).length = 30 := by
    rw [List.length_append, List.length_replicate, List.length_drop]
    omega
  have hcopy : strncpy (List.replicate w.length 0 ++ word.drop w.length) (w ++ []) w.length = _ :=
    strncpy_cut (by omega) []
  have hdrop : (List.replicate w.length (0 : UInt8) ++ word.drop w.length).drop w.length
      = d :: rest := by
    rw [List.drop_left' List.length_replicate, hrest]
  rw [List.append_nil, hdrop] at hcopy
  have hstored : (cut w ++ List.replicate (w.length - (cut w).length) 0).length = w.length := by
    rw [List.length_append, List.length_replicate]
    omega
  have hzeros : cut w ++ List.replicate (w.length - (cut w).length) 0 ++ 0 :: rest
      = cut w ++ 0 :: (List.replicate (w.length - (cut w).length) 0 ++ rest) := by
    rw [List.append_assoc, List.append_cons, ← List.replicate_succ', List.replicate_succ,
      List.cons_append]
  refine ⟨_, List.replicate (w.length - (cut w).length) 0 ++ rest, memset_eq (by omega), ?_, ?_⟩
  · have hstore := storeAt_append (c := 0) (cut w ++ List.replicate (w.length - (cut w).length) 0) d
      rest
    rw [hstored] at hstore
    rw [hcopy, Option.bind_some, hstore, hzeros]
  · have hlen' := congrArg List.length hrest
    rw [List.length_drop, List.length_cons] at hlen'
    rw [← hzeros, List.length_append, hstored, List.length_cons]
    omega

theorem copyKept {a : List UInt8} (ha : a.length = 30) (hlen : w.length ≤ 29)
    (rest : List UInt8) : ∃ a', strncpy a (cut w ++ 0 :: rest) (w.length + 1) = some a' ∧
      a'.length = 30 ∧ StringAt a' (cut w) := by
  have hle := length_cut_le w
  obtain ⟨m, hm⟩ : ∃ m, w.length + 1 - (cut w).length = m + 1 :=
    ⟨w.length - (cut w).length, by omega⟩
  have hcopy : strncpy a (cut w ++ 0 :: rest) (w.length + 1) = _ :=
    strncpy_string (noNul_cut w) (by omega) (by omega) rest
  rw [hm, List.append_assoc, List.replicate_succ, List.cons_append] at hcopy
  refine ⟨_, hcopy, ?_, stringAt_append (noNul_cut w) (List.replicate m 0 ++ a.drop (w.length + 1))⟩
  simp only [List.length_append, List.length_cons, List.length_replicate, List.length_drop]
  omega

theorem takeWord_keeps {lw sw : List UInt8} (h : Keeps l lw sw) (hlen : w.length ≤ 29) :
    ∃ l', takeWord l w = some l' ∧ Keeps l' (keep (lw, sw) w).1 (keep (lw, sw) w).2 := by
  obtain ⟨copied, rest, hmemset, hword, hwlen⟩ := copyWord h.word hlen
  obtain ⟨copied', hcopy, hstore⟩ := Option.bind_eq_some_iff.mp hword
  unfold takeWord scanWord keep
  simp only [List.drop_zero, hmemset, hcopy, hstore, strlen_of_string h.lw, strlen_of_string h.sw,
    Option.bind_eq_bind, Option.bind_some]
  by_cases hlong : w.length > lw.length
  · obtain ⟨a', hkept, hlen', hholds⟩ := copyKept h.lenLw hlen rest
    rw [if_pos hlong, if_pos hlong, hkept]
    exact ⟨_, rfl, hwlen, hlen', h.lenSw, hholds, h.sw⟩
  · rw [if_neg hlong, if_neg hlong]
    by_cases hshort : w.length < sw.length
    · obtain ⟨a', hkept, hlen', hholds⟩ := copyKept h.lenSw hlen rest
      rw [if_pos hshort, if_pos hshort, hkept]
      exact ⟨_, rfl, hwlen, h.lenLw, hlen', h.lw, hholds⟩
    · rw [if_neg hshort, if_neg hshort]
      exact ⟨_, rfl, hwlen, h.lenLw, h.lenSw, h.lw, h.sw⟩

/-- A word that does not fit is written behind the end of `word`. -/
theorem takeWord_long (hword : l.word.length = 30) (hlen : 30 ≤ w.length) : takeWord l w = none := by
  unfold takeWord scanWord
  cases hmemset : memset 0 w.length l.word with
  | none => rfl
  | some copied =>
    cases hcopy : strncpy copied (w.drop 0) w.length with
    | none => simp only [hcopy, Option.bind_eq_bind, Option.bind_some, Option.bind_none]
    | some copied' =>
      have hfull : storeAt copied' w.length 0 = none := by
        rw [storeAt_eq_none, strncpy_length hcopy, memset_length hmemset, hword]
        exact hlen
      simp only [hcopy, hfull, Option.bind_eq_bind, Option.bind_some, Option.bind_none]

theorem foldlM_keeps (ws : List (List UInt8)) {lw sw : List UInt8} (h : Keeps l lw sw)
    (hws : ∀ w ∈ ws, w.length ≤ 29) :
    ∃ l', ws.foldlM takeWord l = some l' ∧
      Keeps l' (ws.foldl keep (lw, sw)).1 (ws.foldl keep (lw, sw)).2 := by
  induction ws generalizing l lw sw with
  | nil => exact ⟨l, rfl, h⟩
  | cons w ws ih =>
    obtain ⟨hw, hrest⟩ := List.forall_mem_cons.mp hws
    obtain ⟨l₁, htake, hkeeps⟩ := takeWord_keeps h hw
    obtain ⟨l₂, hfold, hkeeps'⟩ := ih hkeeps hrest
    refine ⟨l₂, ?_, hkeeps'⟩
    rw [List.foldlM_cons, htake]
    exact hfold

theorem foldlM_long (ws : List (List UInt8)) {lw sw : List UInt8} (h : Keeps l lw sw)
    (hws : ∃ w ∈ ws, 30 ≤ w.length) : ws.foldlM takeWord l = none := by
  induction ws generalizing l lw sw with
  | nil =>
    obtain ⟨w, hw, -⟩ := hws
    cases hw
  | cons w ws ih =>
    rw [List.foldlM_cons]
    by_cases hlen : 30 ≤ w.length
    · rw [takeWord_long h.word hlen]
      rfl
    · obtain ⟨l₁, htake, hkeeps⟩ := takeWord_keeps h (w := w) (by omega)
      rw [htake]
      obtain ⟨v, hv, hlong⟩ := hws
      rcases List.mem_cons.mp hv with rfl | hv
      · exact absurd hlong hlen
      · exact ih hkeeps ⟨v, hv, hlong⟩

/-- The longest and the shortest word that the loop keeps. -/
def kept (ws : List (List UInt8)) : List UInt8 × List UInt8 :=
  ws.foldl keep ([46], List.replicate 5 46)

theorem words_keeps {word : List UInt8} (hword : word.length = 30) {ws : List (List UInt8)}
    (hws : ∀ w ∈ ws, w.length ≤ 29) :
    ∃ l, ws.foldlM takeWord (initLocals word) = some l ∧ Keeps l (kept ws).1 (kept ws).2 :=
  foldlM_keeps ws (keeps_initLocals hword) hws

/-- The words fit into the arrays: none has more than 29 characters, and one with more than 19 of
them before a NUL is followed by a word that replaces it. -/
def Fits : List (List UInt8) → Prop
  | [] => True
  | w :: ws =>
    w.length ≤ 29 ∧ ((cut w).length ≤ 19 ∨ ∃ v ∈ ws, (cut w).length < v.length) ∧ Fits ws

theorem Fits.length_le {ws : List (List UInt8)} (h : Fits ws) : ∀ w ∈ ws, w.length ≤ 29 := by
  induction ws with
  | nil => nofun
  | cons w ws ih => exact List.forall_mem_cons.mpr ⟨h.1, ih h.2.2⟩

theorem fits_of_short {ws : List (List UInt8)} (h : ∀ w ∈ ws, w.length ≤ 19) : Fits ws := by
  induction ws with
  | nil => trivial
  | cons w ws ih =>
    obtain ⟨hw, hws⟩ := List.forall_mem_cons.mp h
    exact ⟨by omega, .inl ((length_cut_le w).trans hw), ih hws⟩

/-- Which string is the longest in the end: one that no later word replaces. -/
theorem foldl_keep_fits {ws : List (List UInt8)} (hws : ∀ w ∈ ws, w.length ≤ 29)
    (k : List UInt8 × List UInt8) : (ws.foldl keep k).1.length ≤ 19 ↔
      (k.1.length ≤ 19 ∨ ∃ v ∈ ws, k.1.length < v.length) ∧ Fits ws := by
  induction ws generalizing k with
  | nil => simp [Fits]
  | cons w ws ih =>
    obtain ⟨hw, hws⟩ := List.forall_mem_cons.mp hws
    have hcut := length_cut_le w
    rw [List.foldl_cons, ih hws]
    by_cases hlong : w.length > k.1.length
    · rw [keep_long hlong]
      constructor
      · rintro ⟨hcase, hfits⟩
        exact ⟨.inr ⟨w, List.mem_cons_self, hlong⟩, hw, hcase, hfits⟩
      · rintro ⟨-, -, hcase, hfits⟩
        exact ⟨hcase, hfits⟩
    · have hsame : (keep k w).1 = k.1 := by
        by_cases hshort : w.length < k.2.length
        · rw [keep_short hlong hshort]
        · rw [keep_same hlong hshort]
      rw [hsame]
      constructor
      · rintro ⟨hcase | ⟨v, hv, hlt⟩, hfits⟩
        · exact ⟨.inl hcase, hw, .inl (by omega), hfits⟩
        · exact ⟨.inr ⟨v, List.mem_cons_of_mem _ hv, hlt⟩, hw, .inr ⟨v, hv, by omega⟩, hfits⟩
      · rintro ⟨hcase, -, -, hfits⟩
        refine ⟨hcase.imp_right fun ⟨v, hv, hlt⟩ => ?_, hfits⟩
        rcases List.mem_cons.mp hv with rfl | hv
        · exact absurd hlt hlong
        · exact ⟨v, hv, hlt⟩

theorem foldl_keep_short (ws : List (List UInt8)) (k : List UInt8 × List UInt8) :
    (ws.foldl keep k).2.length ≤ k.2.length := by
  induction ws generalizing k with
  | nil => exact le_rfl
  | cons w ws ih =>
    refine (ih (keep k w)).trans ?_
    by_cases hlong : w.length > k.1.length
    · rw [keep_long hlong]
    · by_cases hshort : w.length < k.2.length
      · rw [keep_short hlong hshort]
        exact (length_cut_le w).trans hshort.le
      · rw [keep_same hlong hshort]

theorem kept_fits {ws : List (List UInt8)} (hws : ∀ w ∈ ws, w.length ≤ 29) :
    (kept ws).1.length ≤ 19 ↔ Fits ws := by
  rw [kept, foldl_keep_fits hws]
  exact and_iff_right (.inl (by decide))

theorem kept_short (ws : List (List UInt8)) : (kept ws).2.length ≤ 19 :=
  (foldl_keep_short ws _).trans (by decide)

/-! ## A whole sentence -/

/-- The shared strings are arrays of twenty bytes. -/
structure Shared.Sized (sh : Shared) : Prop where
  csLongest : sh.csLongest.length = 20
  csShortest : sh.csShortest.length = 20
  longestWord : sh.longestWord.length = 20
  shortestWord : sh.shortestWord.length = 20

/-- Empty strings, and the lengths dalle starts with. -/
def noWords : Shared where
  csLongest := List.replicate 20 0
  csShortest := List.replicate 20 0
  longestWord := List.replicate 20 0
  shortestWord := List.replicate 20 0
  lenLongest := 0
  lenShortest := 2 ^ 31 - 1

theorem noWords_sized : noWords.Sized := ⟨rfl, rfl, rfl, rfl⟩

/-- What a sentence with the kept words `lw` and `sw` leaves. -/
structure Noted (sh : Shared) (lw sw : List UInt8) (sh' : Shared) : Prop where
  sized : sh'.Sized
  csLongest : StringAt sh'.csLongest lw
  csShortest : StringAt sh'.csShortest sw
  longest : if lw.length > sh.lenLongest then
      StringAt sh'.longestWord lw ∧ sh'.lenLongest = lw.length
    else sh'.longestWord = sh.longestWord ∧ sh'.lenLongest = sh.lenLongest
  shortest : if sw.length < sh.lenShortest then
      StringAt sh'.shortestWord sw ∧ sh'.lenShortest = sw.length
    else sh'.shortestWord = sh.shortestWord ∧ sh'.lenShortest = sh.lenShortest

/-- A string is copied to a shared array that has room for it. -/
theorem copyShared {a src s : List UInt8} (ha : a.length = 20) (h : StringAt src s)
    (hlen : s.length ≤ 19) : ∃ a', copyString a src = some a' ∧ a'.length = 20 ∧ StringAt a' s := by
  have hcopy := copyString_eq h a
  rw [if_pos (by omega)] at hcopy
  refine ⟨_, hcopy, ?_, stringAt_append h.noNul _⟩
  rw [List.length_append, List.length_cons, List.length_drop]
  omega

theorem noteLongest_eq {sh : Shared} {lw s : List UInt8} (hsized : sh.Sized) (h : StringAt lw s)
    (hlen : s.length ≤ 19) : ∃ sh', noteLongest lw sh = some sh' ∧ sh'.Sized ∧
      sh'.csLongest = sh.csLongest ∧ sh'.csShortest = sh.csShortest ∧
      sh'.shortestWord = sh.shortestWord ∧ sh'.lenShortest = sh.lenShortest ∧
      if s.length > sh.lenLongest then StringAt sh'.longestWord s ∧ sh'.lenLongest = s.length
      else sh'.longestWord = sh.longestWord ∧ sh'.lenLongest = sh.lenLongest := by
  unfold noteLongest
  rw [strlen_of_string h, Option.bind_eq_bind, Option.bind_some]
  by_cases hlong : s.length > sh.lenLongest
  · obtain ⟨a', hcopy, ha', hs⟩ := copyShared hsized.longestWord h hlen
    simp only [if_pos hlong, hcopy, Option.bind_eq_bind, Option.bind_some]
    exact ⟨_, rfl, ⟨hsized.csLongest, hsized.csShortest, ha', hsized.shortestWord⟩, rfl, rfl, rfl,
      rfl, hs, rfl⟩
  · simp only [if_neg hlong]
    exact ⟨_, rfl, hsized, rfl, rfl, rfl, rfl, rfl, rfl⟩

theorem noteShortest_eq {sh : Shared} {sw s : List UInt8} (hsized : sh.Sized) (h : StringAt sw s)
    (hlen : s.length ≤ 19) : ∃ sh', noteShortest sw sh = some sh' ∧ sh'.Sized ∧
      sh'.csLongest = sh.csLongest ∧ sh'.csShortest = sh.csShortest ∧
      sh'.longestWord = sh.longestWord ∧ sh'.lenLongest = sh.lenLongest ∧
      if s.length < sh.lenShortest then StringAt sh'.shortestWord s ∧ sh'.lenShortest = s.length
      else sh'.shortestWord = sh.shortestWord ∧ sh'.lenShortest = sh.lenShortest := by
  unfold noteShortest
  rw [strlen_of_string h, Option.bind_eq_bind, Option.bind_some]
  by_cases hshort : s.length < sh.lenShortest
  · obtain ⟨a', hcopy, ha', hs⟩ := copyShared hsized.shortestWord h hlen
    simp only [if_pos hshort, hcopy, Option.bind_eq_bind, Option.bind_some]
    exact ⟨_, rfl, ⟨hsized.csLongest, hsized.csShortest, hsized.longestWord, ha'⟩, rfl, rfl, rfl,
      rfl, hs, rfl⟩
  · simp only [if_neg hshort]
    exact ⟨_, rfl, hsized, rfl, rfl, rfl, rfl, rfl, rfl⟩

theorem checkCurrentSetence_noted {word text : List UInt8} {start stop : Nat} {sh : Shared}
    (hword : word.length = 30) (h : Sentence buff start stop text) (hsized : sh.Sized)
    (hfits : Fits (text.splitOn space)) :
    ∃ sh', checkCurrentSetence word buff start stop sh = some sh' ∧
      Noted sh (kept (text.splitOn space)).1 (kept (text.splitOn space)).2 sh' := by
  obtain ⟨l, hloop, hkeeps⟩ := words_keeps hword hfits.length_le
  have hlw : (kept (text.splitOn space)).1.length ≤ 19 := (kept_fits hfits.length_le).mpr hfits
  have hsw := kept_short (text.splitOn space)
  obtain ⟨a₁, hcopy₁, hlen₁, hs₁⟩ := copyShared hsized.csShortest hkeeps.sw hsw
  obtain ⟨a₂, hcopy₂, hlen₂, hs₂⟩ := copyShared hsized.csLongest hkeeps.lw hlw
  have hsized' : Shared.Sized { sh with csLongest := a₂, csShortest := a₁ } :=
    ⟨hlen₂, hlen₁, hsized.longestWord, hsized.shortestWord⟩
  obtain ⟨sh₁, hnote, hsized₁, hcs₁, hcs₂, hword₁, hlen₃, hlongest⟩ :=
    noteLongest_eq hsized' hkeeps.lw hlw
  obtain ⟨sh₂, hnote', hsized₂, hcs₃, hcs₄, hword₂, hlen₄, hshortest⟩ :=
    noteShortest_eq hsized₁ hkeeps.sw hsw
  refine ⟨sh₂, ?_, hsized₂, ?_, ?_, ?_, ?_⟩
  · unfold checkCurrentSetence
    simp only [h.wordLoop, hloop, hcopy₁, hcopy₂, hnote, hnote', Option.bind_eq_bind,
      Option.bind_some]
  · rw [hcs₃, hcs₁]
    exact hs₂
  · rw [hcs₄, hcs₂]
    exact hs₁
  · rw [hword₂, hlen₄]
    exact hlongest
  · rw [hword₁, hlen₃] at hshortest
    exact hshortest

/-- Words that do not fit are written outside an array. -/
theorem checkCurrentSetence_eq_none {word text : List UInt8} {start stop : Nat} {sh : Shared}
    (hword : word.length = 30) (h : Sentence buff start stop text) (hsized : sh.Sized)
    (hfits : ¬ Fits (text.splitOn space)) : checkCurrentSetence word buff start stop sh = none := by
  unfold checkCurrentSetence
  by_cases hlong : ∀ w ∈ text.splitOn space, w.length ≤ 29
  · -- the arrays on the stack are long enough, the shared one is not
    obtain ⟨l, hloop, hkeeps⟩ := words_keeps hword hlong
    obtain ⟨a, hcopy, -, -⟩ := copyShared hsized.csShortest hkeeps.sw (kept_short _)
    have hlw : ¬ (kept (text.splitOn space)).1.length ≤ 19 := fun hle =>
      hfits ((kept_fits hlong).mp hle)
    have hover := copyString_eq hkeeps.lw sh.csLongest
    rw [hsized.csLongest, if_neg fun hlt => hlw (Nat.le_of_lt_succ hlt)] at hover
    simp only [h.wordLoop, hloop, hcopy, hover, Option.bind_eq_bind, Option.bind_some,
      Option.bind_none]
  · obtain ⟨w, hw⟩ := not_forall.mp hlong
    obtain ⟨hmem, hlen⟩ := Classical.not_imp.mp hw
    rw [h.wordLoop, foldlM_long _ (keeps_initLocals hword) ⟨w, hmem, by omega⟩]
    rfl

end Xv6Sharing.User
