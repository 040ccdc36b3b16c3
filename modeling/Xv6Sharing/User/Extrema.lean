/-
Xv6Sharing.User.Extrema — which words liSa keeps (user/liSa.c).

`lw` starts as a string of one character and `sw` as one of five, and one if/else
chain serves both. So a word of one letter is never kept as the longest, a word of
five or more letters never as the shortest, and a word that is longer than all
before it is not looked at for the shortest: the first word, unless it has one
letter. `Kept` says for which sentences these do no harm.
-/
import Mathlib.Data.Nat.Basic
import Mathlib.Order.Basic
import Xv6Sharing.User.LiSa

namespace Xv6Sharing.User

open Lib

/-! ## Sentences -/

structure IsWord (w : List UInt8) : Prop where
  nonempty : w ≠ []
  short : w.length ≤ 19
  chars : ∀ c ∈ w, c ≠ 0 ∧ c ≠ space ∧ ¬ Terminator c

structure IsSentence (ws : List (List UInt8)) : Prop where
  nonempty : ws ≠ []
  words : ∀ w ∈ ws, IsWord w

structure IsLongest (s : List UInt8) (ws : List (List UInt8)) : Prop where
  mem : s ∈ ws
  longest : ∀ w ∈ ws, w.length ≤ s.length

structure IsShortest (s : List UInt8) (ws : List (List UInt8)) : Prop where
  mem : s ∈ ws
  shortest : ∀ w ∈ ws, s.length ≤ w.length

/-- Some word has two letters or more, and some word has one letter or a shortest word of at most
four letters stands behind the first word. -/
structure Kept (ws : List (List UInt8)) : Prop where
  long : ∃ w ∈ ws, 2 ≤ w.length
  short : (∃ w ∈ ws, w.length = 1) ∨ ∃ w ∈ ws.tail, w.length ≤ 4 ∧ ∀ v ∈ ws, w.length ≤ v.length

/-! ## One sentence -/

section

variable {w w₀ : List UInt8} {ws done : List (List UInt8)} {k : List UInt8 × List UInt8}

/-- What has been kept after the first word `w₀` and the words `done`. -/
structure Keeping (w₀ : List UInt8) (done : List (List UInt8)) (k : List UInt8 × List UInt8) :
    Prop where
  longest : ∀ w ∈ w₀ :: done, w.length ≤ k.1.length
  long : k.1 = [46] ∨ k.1 ∈ w₀ :: done ∧ 2 ≤ k.1.length
  shortest : ∀ w ∈ done, w.length ≤ w₀.length → k.2.length ≤ w.length
  single : ∀ w ∈ w₀ :: done, w.length = 1 → k.2.length ≤ 1
  short : k.2 = List.replicate 5 46 ∨
    k.2.length ≤ 4 ∧ (k.2 ∈ done ∨ k.2 = w₀ ∧ w₀.length = 1)

theorem Keeping.first (hw : w₀ ≠ []) (hnul : 0 ∉ w₀) : Keeping w₀ [] (keep ([46], List.replicate 5 46) w₀) := by
  have hpos : 0 < w₀.length := List.length_pos_iff.mpr hw
  by_cases hlong : w₀.length > 1
  · rw [keep_long (by exact hlong), cut_of_noNul hnul]
    refine ⟨fun w hw => ?_, .inr ⟨List.mem_cons_self, hlong⟩, nofun, fun w hw hone => ?_, .inl rfl⟩
    · exact (congrArg List.length (List.mem_singleton.mp hw)).le
    · rw [List.mem_singleton.mp hw] at hone
      omega
  · rw [keep_short (by exact hlong) (by simp; omega), cut_of_noNul hnul]
    refine ⟨fun w hw => ?_, .inl rfl, nofun, fun w hw _ => ?_, .inr ⟨?_, .inr ⟨rfl, ?_⟩⟩⟩
    · rw [List.mem_singleton.mp hw]
      exact not_lt.mp hlong
    · exact not_lt.mp hlong
    · show w₀.length ≤ 4
      omega
    · omega

theorem Keeping.pos (h : Keeping w₀ done k) : 1 ≤ k.1.length := by
  rcases h.long with hdot | ⟨-, hlong⟩
  · rw [hdot]
    decide
  · omega

theorem Keeping.le_five (h : Keeping w₀ done k) : k.2.length ≤ 5 := by
  rcases h.short with hdots | ⟨hshort, -⟩
  · rw [hdots]
    decide
  · omega

theorem Keeping.next (h : Keeping w₀ done k) (hnul : 0 ∉ w) :
    Keeping w₀ (done ++ [w]) (keep k w) := by
  have hpos := h.pos
  have hmem : ∀ v, v ∈ w₀ :: (done ++ [w]) ↔ v ∈ w₀ :: done ∨ v = w := by
    intro v
    rw [← List.cons_append, List.mem_append, List.mem_singleton]
  by_cases hlong : w.length > k.1.length
  · -- the word is not looked at for the shortest
    rw [keep_long hlong, cut_of_noNul hnul]
    have hfirst := h.longest w₀ List.mem_cons_self
    refine ⟨fun v hv => ?_, .inr ⟨(hmem w).mpr (.inr rfl), ?_⟩, fun v hv hle => ?_,
      fun v hv hone => ?_, ?_⟩
    · rcases (hmem v).mp hv with hv | rfl
      · exact (h.longest v hv).trans hlong.le
      · exact le_rfl
    · show 2 ≤ w.length
      omega
    · rcases List.mem_append.mp hv with hv | hv
      · exact h.shortest v hv hle
      · rw [List.mem_singleton.mp hv] at hle
        omega
    · rcases (hmem v).mp hv with hv | rfl
      · exact h.single v hv hone
      · omega
    · exact h.short.imp_right fun ⟨hle, hin⟩ => ⟨hle, hin.imp_left (List.mem_append_left _)⟩
  · have hlongest : ∀ v ∈ w₀ :: (done ++ [w]), v.length ≤ k.1.length := by
      intro v hv
      rcases (hmem v).mp hv with hv | rfl
      · exact h.longest v hv
      · exact not_lt.mp hlong
    have hkept : k.1 = [46] ∨ k.1 ∈ w₀ :: (done ++ [w]) ∧ 2 ≤ k.1.length :=
      h.long.imp_right fun ⟨hin, hle⟩ => ⟨(hmem _).mpr (.inl hin), hle⟩
    by_cases hshort : w.length < k.2.length
    · rw [keep_short hlong hshort, cut_of_noNul hnul]
      have hfive := h.le_five
      refine ⟨hlongest, hkept, fun v hv hle => ?_, fun v hv hone => ?_, .inr ⟨?_, .inl ?_⟩⟩
      · rcases List.mem_append.mp hv with hv | hv
        · exact hshort.le.trans (h.shortest v hv hle)
        · exact (congrArg List.length (List.mem_singleton.mp hv)).ge
      · rcases (hmem v).mp hv with hv | rfl
        · exact hshort.le.trans (h.single v hv hone)
        · exact hone.le
      · show w.length ≤ 4
        omega
      · exact List.mem_append_right _ List.mem_cons_self
    · rw [keep_same hlong hshort]
      refine ⟨hlongest, hkept, fun v hv hle => ?_, fun v hv hone => ?_, ?_⟩
      · rcases List.mem_append.mp hv with hv | hv
        · exact h.shortest v hv hle
        · rw [List.mem_singleton.mp hv]
          exact not_lt.mp hshort
      · rcases (hmem v).mp hv with hv | rfl
        · exact h.single v hv hone
        · omega
      · exact h.short.imp_right fun ⟨hle, hin⟩ => ⟨hle, hin.imp_left (List.mem_append_left _)⟩

theorem Keeping.foldl (h : Keeping w₀ done k) (hnul : ∀ w ∈ ws, 0 ∉ w) :
    Keeping w₀ (done ++ ws) (ws.foldl keep k) := by
  induction ws generalizing done k with
  | nil => rwa [List.append_nil]
  | cons w ws ih =>
    obtain ⟨hw, hws⟩ := List.forall_mem_cons.mp hnul
    have hrest := ih (h.next hw) hws
    rwa [List.append_assoc, List.singleton_append] at hrest

theorem IsWord.length_pos (h : IsWord w) : 0 < w.length := List.length_pos_iff.mpr h.nonempty

theorem IsWord.noNul (h : IsWord w) : 0 ∉ w := fun hmem => (h.chars 0 hmem).1 rfl

theorem IsWord.no_dot (h : IsWord w) : 46 ∉ w := fun hmem => (h.chars 46 hmem).2.2 (.inl rfl)

theorem keeping_kept (h : IsSentence (w₀ :: ws)) : Keeping w₀ ws (kept (w₀ :: ws)) :=
  have hfirst := h.words w₀ List.mem_cons_self
  (Keeping.first hfirst.nonempty hfirst.noNul).foldl fun w hw =>
    (h.words w (List.mem_cons_of_mem _ hw)).noNul

theorem isLongest_kept_iff (h : IsSentence ws) :
    IsLongest (kept ws).1 ws ↔ ∃ w ∈ ws, 2 ≤ w.length := by
  obtain ⟨w₀, ws, rfl⟩ := List.exists_cons_of_ne_nil h.nonempty
  have hk := keeping_kept h
  constructor
  · rintro ⟨hmem, -⟩
    rcases hk.long with hdot | ⟨hin, hlong⟩
    · rw [hdot] at hmem
      exact absurd List.mem_cons_self (h.words _ hmem).no_dot
    · exact ⟨_, hin, hlong⟩
  · rintro ⟨w, hw, hlong⟩
    have hle := hk.longest w hw
    rcases hk.long with hdot | ⟨hin, -⟩
    · rw [hdot, List.length_singleton] at hle
      omega
    · exact ⟨hin, hk.longest⟩

theorem isShortest_kept_iff (h : IsSentence ws) : IsShortest (kept ws).2 ws ↔
    (∃ w ∈ ws, w.length = 1) ∨ ∃ w ∈ ws.tail, w.length ≤ 4 ∧ ∀ v ∈ ws, w.length ≤ v.length := by
  obtain ⟨w₀, ws, rfl⟩ := List.exists_cons_of_ne_nil h.nonempty
  have hk := keeping_kept h
  constructor
  · rintro ⟨hmem, hshortest⟩
    rcases hk.short with hdots | ⟨hle, hin | ⟨-, hone⟩⟩
    · rw [hdots] at hmem
      exact absurd List.mem_cons_self (h.words _ hmem).no_dot
    · exact .inr ⟨_, hin, hle, hshortest⟩
    · exact .inl ⟨w₀, List.mem_cons_self, hone⟩
  · intro hgood
    -- some word that is as short as any, and the kept one is not longer
    have hfound : ∃ w ∈ w₀ :: ws, (∀ v ∈ w₀ :: ws, w.length ≤ v.length) ∧ w.length ≤ 4 ∧
        (kept (w₀ :: ws)).2.length ≤ w.length := by
      rcases hgood with ⟨w, hw, hone⟩ | ⟨w, hw, hle, hmin⟩
      · refine ⟨w, hw, fun v hv => ?_, by omega, ?_⟩
        · have hpos := (h.words v hv).length_pos
          omega
        · rw [hone]
          exact hk.single w hw hone
      · exact ⟨w, List.mem_cons_of_mem _ hw, hmin, hle, hk.shortest w hw (hmin w₀ List.mem_cons_self)⟩
    obtain ⟨w, hw, hmin, hle, hkept⟩ := hfound
    have hmem : (kept (w₀ :: ws)).2 ∈ w₀ :: ws := by
      rcases hk.short with hdots | ⟨-, hin | ⟨heq, -⟩⟩
      · rw [hdots, List.length_replicate] at hkept
        omega
      · exact List.mem_cons_of_mem _ hin
      · rw [heq]
        exact List.mem_cons_self
    exact ⟨hmem, fun v hv => hkept.trans (hmin v hv)⟩

theorem kept_iff (h : IsSentence ws) :
    IsLongest (kept ws).1 ws ∧ IsShortest (kept ws).2 ws ↔ Kept ws := by
  rw [isLongest_kept_iff h, isShortest_kept_iff h]
  exact ⟨fun ⟨hlong, hshort⟩ => ⟨hlong, hshort⟩, fun ⟨hlong, hshort⟩ => ⟨hlong, hshort⟩⟩

end

/-! ## Sentence after sentence -/

/-- A call of `check_current_setence`, with what is on the stack where `word` lies. -/
structure Call where
  word : List UInt8
  buff : List UInt8
  start : Nat
  stop : Nat

/-- The call is for the sentence of the words `ws`. -/
structure Call.For (c : Call) (ws : List (List UInt8)) : Prop where
  word : c.word.length = 30
  sentence : Sentence c.buff c.start c.stop ([space].intercalate ws)

/-- What is shared after each of the calls. -/
def checkAll : List Call → Shared → Option (List Shared)
  | [], _ => some []
  | c :: cs, sh => do
      let sh' ← checkCurrentSetence c.word c.buff c.start c.stop sh
      let shs ← checkAll cs sh'
      return sh' :: shs

/-- The shared strings after the sentence `ws`, when `seen` are all words so far. -/
structure Extrema (seen ws : List (List UInt8)) (sh : Shared) : Prop where
  csLongest : ∃ s, StringAt sh.csLongest s ∧ IsLongest s ws
  csShortest : ∃ s, StringAt sh.csShortest s ∧ IsShortest s ws
  longestWord : ∃ s, StringAt sh.longestWord s ∧ IsLongest s seen ∧ sh.lenLongest = s.length
  shortestWord : ∃ s, StringAt sh.shortestWord s ∧ IsShortest s seen ∧ sh.lenShortest = s.length

/-- What is shared about the words `seen`, before the first sentence as dalle leaves it. -/
structure Global (seen : List (List UInt8)) (sh : Shared) : Prop where
  sized : sh.Sized
  longest : seen = [] ∧ sh.lenLongest = 0 ∨
    ∃ s, StringAt sh.longestWord s ∧ IsLongest s seen ∧ sh.lenLongest = s.length
  shortest : seen = [] ∧ sh.lenShortest = 2 ^ 31 - 1 ∨
    ∃ s, StringAt sh.shortestWord s ∧ IsShortest s seen ∧ sh.lenShortest = s.length

section

variable {w : List UInt8} {seen ws : List (List UInt8)} {ss : List (List (List UInt8))} {c : Call}
  {calls : List Call} {sh sh' : Shared}

theorem Global.le_lenLongest (h : Global seen sh) (hw : w ∈ seen) : w.length ≤ sh.lenLongest := by
  rcases h.longest with ⟨rfl, -⟩ | ⟨s, -, hs, hlen⟩
  · cases hw
  · rw [hlen]
    exact hs.longest w hw

theorem Global.lenShortest_le (h : Global seen sh) (hw : w ∈ seen) : sh.lenShortest ≤ w.length := by
  rcases h.shortest with ⟨rfl, -⟩ | ⟨s, -, hs, hlen⟩
  · cases hw
  · rw [hlen]
    exact hs.shortest w hw

/-- A sentence with good extrema keeps the global strings right. -/
theorem Global.noted {lw sw : List UInt8} (h : Global seen sh) (hn : Noted sh lw sw sh')
    (hlw : IsLongest lw ws) (hsw : IsShortest sw ws) (hws : IsSentence ws) :
    Extrema (seen ++ ws) ws sh' := by
  refine ⟨⟨lw, hn.csLongest, hlw⟩, ⟨sw, hn.csShortest, hsw⟩, ?_, ?_⟩
  · have hn' := hn.longest
    by_cases hlong : lw.length > sh.lenLongest
    · rw [if_pos hlong] at hn'
      refine ⟨lw, hn'.1, ⟨List.mem_append_right _ hlw.mem, fun w hw => ?_⟩, hn'.2⟩
      rcases List.mem_append.mp hw with hw | hw
      · exact (h.le_lenLongest hw).trans hlong.le
      · exact hlw.longest w hw
    · rw [if_neg hlong] at hn'
      rcases h.longest with ⟨-, hzero⟩ | ⟨s, hs, hmax, hlen⟩
      · have hpos := (hws.words lw hlw.mem).length_pos
        omega
      · rw [hn'.1, hn'.2]
        refine ⟨s, hs, ⟨List.mem_append_left _ hmax.mem, fun w hw => ?_⟩, hlen⟩
        rcases List.mem_append.mp hw with hw | hw
        · exact hmax.longest w hw
        · have hle := hlw.longest w hw
          omega
  · have hn' := hn.shortest
    by_cases hshort : sw.length < sh.lenShortest
    · rw [if_pos hshort] at hn'
      refine ⟨sw, hn'.1, ⟨List.mem_append_right _ hsw.mem, fun w hw => ?_⟩, hn'.2⟩
      rcases List.mem_append.mp hw with hw | hw
      · exact hshort.le.trans (h.lenShortest_le hw)
      · exact hsw.shortest w hw
    · rw [if_neg hshort] at hn'
      rcases h.shortest with ⟨-, hmax⟩ | ⟨s, hs, hmin, hlen⟩
      · have hle := (hws.words sw hsw.mem).short
        omega
      · rw [hn'.1, hn'.2]
        refine ⟨s, hs, ⟨List.mem_append_left _ hmin.mem, fun w hw => ?_⟩, hlen⟩
        rcases List.mem_append.mp hw with hw | hw
        · exact hmin.shortest w hw
        · have hle := hsw.shortest w hw
          omega

/-- The call returns, and its extrema are right exactly when the sentence allows it. -/
theorem check_extrema (seen : List (List UInt8)) (hfor : c.For ws) (hws : IsSentence ws) (hsized : sh.Sized) :
    ∃ sh', checkCurrentSetence c.word c.buff c.start c.stop sh = some sh' ∧ sh'.Sized ∧
      (Kept ws → Global seen sh → Extrema (seen ++ ws) ws sh') ∧
      ∀ seen', Extrema seen' ws sh' → Kept ws := by
  have hsplit : ([space].intercalate ws).splitOn space = ws :=
    List.splitOn_intercalate space
      (fun w hw hmem => ((hws.words w hw).chars space hmem).2.1 rfl) hws.nonempty
  have hfits : Fits (([space].intercalate ws).splitOn space) := by
    rw [hsplit]
    exact fits_of_short fun w hw => (hws.words w hw).short
  obtain ⟨sh', hrun, hn⟩ := checkCurrentSetence_noted hfor.word hfor.sentence hsized hfits
  rw [hsplit] at hn
  refine ⟨sh', hrun, hn.sized, fun hkept hglobal => ?_, fun seen' hex => ?_⟩
  · obtain ⟨hlw, hsw⟩ := (kept_iff hws).mpr hkept
    exact hglobal.noted hn hlw hsw hws
  · obtain ⟨s, hs, hmax⟩ := hex.csLongest
    obtain ⟨t, ht, hmin⟩ := hex.csShortest
    rw [← hn.csLongest.unique hs] at hmax
    rw [← hn.csShortest.unique ht] at hmin
    exact (kept_iff hws).mp ⟨hmax, hmin⟩

theorem Extrema.global (h : Extrema seen ws sh) (hsized : sh.Sized) : Global seen sh :=
  ⟨hsized, .inr h.longestWord, .inr h.shortestWord⟩

/-- The extrema after every sentence, when `seen` are the words before the first. -/
def AllExtrema (seen : List (List UInt8)) (ss : List (List (List UInt8))) (shs : List Shared) :
    Prop :=
  shs.length = ss.length ∧ ∀ (k : Nat) (ws : List (List UInt8)) (sh : Shared),
    ss[k]? = some ws → shs[k]? = some sh → Extrema (seen ++ (ss.take (k + 1)).flatten) ws sh

theorem allExtrema_cons {shs : List Shared} : AllExtrema seen (ws :: ss) (sh :: shs) ↔
    Extrema (seen ++ ws) ws sh ∧ AllExtrema (seen ++ ws) ss shs := by
  constructor
  · rintro ⟨hlen, hall⟩
    refine ⟨?_, Nat.succ.inj hlen, fun k ws' sh' hws hsh => ?_⟩
    · simpa using hall 0 ws sh rfl rfl
    · simpa using hall (k + 1) ws' sh' hws hsh
  · rintro ⟨hfirst, hlen, hall⟩
    refine ⟨congrArg Nat.succ hlen, fun k ws' sh' hws hsh => ?_⟩
    cases k with
    | zero =>
      cases hws
      cases hsh
      simpa using hfirst
    | succ k => simpa using hall k ws' sh' hws hsh

theorem checkAll_iff (hfor : List.Forall₂ Call.For calls ss) (hss : ∀ ws ∈ ss, IsSentence ws)
    (h : Global seen sh) :
    (∃ shs, checkAll calls sh = some shs ∧ AllExtrema seen ss shs) ↔ ∀ ws ∈ ss, Kept ws := by
  induction hfor generalizing seen sh with
  | nil => exact ⟨fun _ => nofun, fun _ => ⟨[], rfl, rfl, nofun⟩⟩
  | @cons c ws calls ss hc _ ih =>
    obtain ⟨hws, hss⟩ := List.forall_mem_cons.mp hss
    obtain ⟨sh', hrun, hsized, hkeeps, hkept⟩ := check_extrema seen hc hws h.sized
    have hall : ∀ r, checkAll (c :: calls) sh = some r ↔
        ∃ shs, checkAll calls sh' = some shs ∧ r = sh' :: shs := by
      intro r
      rw [checkAll, hrun, Option.bind_eq_bind, Option.bind_some, Option.bind_eq_bind,
        Option.bind_eq_some_iff]
      simp only [Option.pure_def, Option.some.injEq, eq_comm]
    rw [List.forall_mem_cons]
    constructor
    · rintro ⟨r, hr, hextrema⟩
      obtain ⟨shs, hshs, rfl⟩ := (hall r).mp hr
      obtain ⟨hfirst, hrest⟩ := allExtrema_cons.mp hextrema
      exact ⟨hkept _ hfirst, (ih hss (hfirst.global hsized)).mp ⟨shs, hshs, hrest⟩⟩
    · rintro ⟨hk, hks⟩
      have hfirst := hkeeps hk h
      obtain ⟨shs, hshs, hrest⟩ := (ih hss (hfirst.global hsized)).mpr hks
      exact ⟨sh' :: shs, (hall _).mpr ⟨shs, hshs, rfl⟩, allExtrema_cons.mpr ⟨hfirst, hrest⟩⟩

/-- From the values dalle writes, every sentence leaves its extrema and those of all words so far
exactly when each sentence is one of those whose extrema are kept. -/
theorem extrema_iff_kept (hfor : List.Forall₂ Call.For calls ss) (hss : ∀ ws ∈ ss, IsSentence ws)
    (hsized : sh.Sized) (hlongest : sh.lenLongest = 0) (hshortest : sh.lenShortest = 2 ^ 31 - 1) :
    (∃ shs, checkAll calls sh = some shs ∧ shs.length = ss.length ∧
      ∀ (k : Nat) (ws : List (List UInt8)) (sh : Shared), ss[k]? = some ws → shs[k]? = some sh →
        Extrema (ss.take (k + 1)).flatten ws sh) ↔
      ∀ ws ∈ ss, Kept ws := by
  have hglobal : Global [] sh := ⟨hsized, .inl ⟨rfl, hlongest⟩, .inl ⟨rfl, hshortest⟩⟩
  exact checkAll_iff hfor hss hglobal

end

/-- The call for a text that starts with a sentence of the `n` bytes before the first '.'. -/
def firstCall (text : List UInt8) (n : Nat) : Call := ⟨List.replicate 30 0, text, 0, n⟩

/-- The text "Hi a." -/
theorem extrema_iff_kept_short : ∃ shs, checkAll [firstCall [72, 105, 32, 97, 46] 4] noWords =
    some shs ∧ shs.length = 1 ∧ ∀ (k : Nat) (ws : List (List UInt8)) (sh : Shared),
      [[[72, 105], [97]]][k]? = some ws → shs[k]? = some sh →
        Extrema ([[[72, 105], [97]]].take (k + 1)).flatten ws sh := by
  have hwords : IsSentence [[72, 105], [97]] := by
    refine ⟨nofun, ?_⟩
    simp only [List.forall_mem_cons]
    exact ⟨⟨nofun, by decide, by decide +kernel⟩, ⟨nofun, by decide, by decide +kernel⟩, nofun⟩
  refine (extrema_iff_kept (.cons ⟨rfl, rfl, 46, [], rfl⟩ .nil) ?_ noWords_sized rfl rfl).mpr ?_
  · exact List.forall_mem_cons.mpr ⟨hwords, nofun⟩
  · exact List.forall_mem_cons.mpr ⟨⟨by decide, by decide⟩, nofun⟩

/-- The text "Hello.": its only word is never compared with `sw`, which stays ".....". -/
theorem extrema_single_word : ¬ ∀ (calls : List Call) (ss : List (List (List UInt8))) (sh : Shared),
    List.Forall₂ Call.For calls ss → (∀ ws ∈ ss, IsSentence ws) → sh.Sized →
    sh.lenLongest = 0 → sh.lenShortest = 2 ^ 31 - 1 →
    ∃ shs, checkAll calls sh = some shs ∧ shs.length = ss.length ∧
      ∀ (k : Nat) (ws : List (List UInt8)) (sh : Shared), ss[k]? = some ws → shs[k]? = some sh →
        Extrema (ss.take (k + 1)).flatten ws sh := by
  intro hall
  have hword : IsWord [72, 101, 108, 108, 111] := ⟨nofun, by decide, by decide +kernel⟩
  have hwords : IsSentence [[72, 101, 108, 108, 111]] :=
    ⟨nofun, List.forall_mem_cons.mpr ⟨hword, nofun⟩⟩
  have hfor : List.Forall₂ Call.For [firstCall [72, 101, 108, 108, 111, 46] 5]
      [[[72, 101, 108, 108, 111]]] := .cons ⟨rfl, rfl, 46, [], rfl⟩ .nil
  have hss := List.forall_mem_cons.mpr ⟨hwords, (nofun : ∀ ws ∈ [], IsSentence ws)⟩
  have hglobal : Global [] noWords := ⟨noWords_sized, .inl ⟨rfl, rfl⟩, .inl ⟨rfl, rfl⟩⟩
  have hkept := (checkAll_iff hfor hss hglobal).mp (hall _ _ _ hfor hss noWords_sized rfl rfl)
  have hshort := (hkept _ List.mem_cons_self).short
  revert hshort
  decide

end Xv6Sharing.User
