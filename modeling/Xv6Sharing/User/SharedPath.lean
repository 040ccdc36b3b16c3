/-
Xv6Sharing.User.SharedPath — the path that goes from dalle to liSa
(user/dalle.c, user/liSa.c).

dalle copies its argument over a path of fourteen characters in an array of
twenty, and copies no NUL. liSa copies the shared string over a string of its own
with a loop whose bound is the length of the string being overwritten. The loop is
right for every string: what has been copied has no NUL, so the bound stays ahead
of it until the NUL itself is copied. A path longer than fourteen characters is
written over what lies behind liSa's string, where a later NUL ends the bound.
-/
import Xv6Sharing.User.Ulib

namespace Xv6Sharing.User

open Lib

/-- The string "../home/README". -/
def defaultPath : List UInt8 := [46, 46, 47, 104, 111, 109, 101, 47, 82, 69, 65, 68, 77, 69]

/-- `file_path` of dalle before `main`. -/
def filePathArray : List UInt8 := defaultPath ++ List.replicate 6 0

/-- What dalle does with `argv[1]`; returns `file_path`. -/
def takePath (arg : List UInt8) : Option (List UInt8) := do
  let n ← strlen arg
  let filePath ← memmove filePathArray arg n
  let m ← strlen filePath
  storeAt filePath m 0

/-- The loop of liSa that copies the path, from `i` on. Every round reads a further byte of the
shared array. -/
def copyPathFrom (shared : List UInt8) : Nat → Nat → List UInt8 → Option (List UInt8)
  | 0, _, _ => none
  | fuel + 1, i, filePath => do
      let n ← strlen filePath
      if i ≤ n then do
        let c ← shared[i]?
        let filePath ← storeAt filePath i c
        copyPathFrom shared fuel (i + 1) filePath
      else return filePath

/-- The path that liSa opens; `behind` is the memory behind the string. -/
def openedPath (shared behind : List UInt8) : Option (List UInt8) :=
  copyPathFrom shared (shared.length + 1) 0 (defaultPath ++ 0 :: behind)

variable {arg shared s mem behind : List UInt8}

theorem strlen_append_noNul {p m : List UInt8} (hp : 0 ∉ p) :
    strlen (p ++ m) = (strlen m).map (p.length + ·) := by
  induction p with
  | nil => simp
  | cons c p ih =>
    have hc : c ≠ 0 := fun h => hp (h ▸ List.mem_cons_self)
    rw [List.cons_append, strlen, if_neg hc, ih fun hmem => hp (List.mem_cons_of_mem _ hmem),
      Option.map_map]
    refine congrArg (Option.map · _) (funext fun k => ?_)
    simp only [Function.comp_apply, List.length_cons]
    omega

theorem exists_strlen {m : List UInt8} (h : 0 ∈ m) : ∃ k, strlen m = some k := by
  induction m with
  | nil => cases h
  | cons c m ih =>
    by_cases hc : c = 0
    · exact ⟨0, if_pos hc⟩
    · obtain ⟨k, hk⟩ := ih ((List.mem_cons.mp h).resolve_left (Ne.symm hc))
      exact ⟨k + 1, by rw [strlen, if_neg hc, hk]; rfl⟩

theorem copyPathFrom_eq {p q : List UInt8} (h : StringAt shared (p ++ q)) {fuel : Nat}
    (hfuel : q.length + 2 ≤ fuel) {m : List UInt8} (hm : 0 ∈ m.drop q.length) :
    copyPathFrom shared fuel p.length (p ++ m) = some (p ++ q ++ 0 :: m.drop (q.length + 1)) := by
  obtain ⟨fuel, rfl⟩ : ∃ k, fuel = k + 1 := ⟨fuel - 1, by omega⟩
  have hp : 0 ∉ p := fun hmem => h.noNul (List.mem_append_left _ hmem)
  induction q generalizing p m fuel with
  | nil =>
    cases m with
    | nil => cases hm
    | cons d m =>
      obtain ⟨fuel, rfl⟩ : ∃ k, fuel = k + 1 := ⟨fuel - 1, by simp at hfuel; omega⟩
      obtain ⟨k, hk⟩ := exists_strlen (m := d :: m) hm
      have hbound : strlen (p ++ d :: m) = some (p.length + k) := by
        rw [strlen_append_noNul hp, hk]
        rfl
      have hget : shared[p.length]? = some 0 := by
        rw [h.getElem? (by simp)]
        simp
      have hover : ¬ p.length + 1 ≤ p.length := by omega
      have hdone : strlen (p ++ 0 :: m) = some p.length := strlen_append hp m
      simp [copyPathFrom, hbound, hget, storeAt_append, hdone, hover]
  | cons c q ih =>
    cases m with
    | nil => cases hm
    | cons d m =>
      obtain ⟨fuel, rfl⟩ : ∃ k, fuel = k + 1 := ⟨fuel - 1, by simp at hfuel; omega⟩
      have hmem : 0 ∈ d :: m := List.mem_of_mem_drop hm
      obtain ⟨k, hk⟩ := exists_strlen hmem
      have hbound : strlen (p ++ d :: m) = some (p.length + k) := by
        rw [strlen_append_noNul hp, hk]
        rfl
      have hget : shared[p.length]? = some c := by
        rw [h.getElem? (by simp)]
        simp
      have hnext : StringAt shared (p ++ [c] ++ q) := by
        rwa [List.append_assoc, List.singleton_append]
      have hrest := ih hnext (m := m) hm fuel (by simp at hfuel ⊢; omega)
        fun hmem' => hnext.noNul (List.mem_append_left _ hmem')
      rw [List.length_append, List.length_singleton] at hrest
      have hround : copyPathFrom shared (fuel + 1 + 1) p.length (p ++ d :: m)
          = copyPathFrom shared (fuel + 1) (p.length + 1) (p ++ c :: m) := by
        simp [copyPathFrom, hbound, hget, storeAt_append]
      rw [hround]
      simpa using hrest

/-- The loop ends, and liSa has the shared string. -/
theorem openedPath_string (h : StringAt shared s) (hlen : s.length ≤ 19) (hbehind : 0 ∈ behind.drop 4) :
    ∃ path, openedPath shared behind = some path ∧ StringAt path s := by
  have hlt := h.length_lt
  have hnul : 0 ∈ (defaultPath ++ 0 :: behind).drop s.length := by
    have hbig : 0 ∈ (defaultPath ++ 0 :: behind).drop 19 := hbehind
    have hsplit : 19 = s.length + (19 - s.length) := by omega
    rw [hsplit, ← List.drop_drop] at hbig
    exact List.mem_of_mem_drop hbig
  exact ⟨_, copyPathFrom_eq (p := []) h (by omega) hnul, stringAt_append h.noNul _⟩

/-- The argument replaces as many characters of the default path as it has. -/
theorem takePath_string (harg : 0 ∉ arg) (hlen : arg.length ≤ 19) (rest : List UInt8) :
    ∃ path, takePath (arg ++ 0 :: rest) = some path ∧
      StringAt path (arg ++ defaultPath.drop arg.length) := by
  have hdrop : filePathArray.drop arg.length
      = defaultPath.drop arg.length ++ 0 :: List.replicate (5 - (arg.length - 14)) 0 := by
    have hzeroes : 6 - (arg.length - 14) = 5 - (arg.length - 14) + 1 := by omega
    have hdefault : defaultPath.length = 14 := rfl
    rw [filePathArray, List.drop_append, List.drop_replicate, hdefault, hzeroes,
      List.replicate_succ]
  have hnoNul : 0 ∉ arg ++ defaultPath.drop arg.length := by
    intro hmem
    rcases List.mem_append.mp hmem with h | h
    · exact harg h
    · exact absurd (List.mem_of_mem_drop h) (by decide)
  have hmove : memmove filePathArray (arg ++ 0 :: rest) arg.length
      = some (arg ++ defaultPath.drop arg.length ++ 0 :: List.replicate (5 - (arg.length - 14)) 0) := by
    have harray : filePathArray.length = 20 := rfl
    rw [memmove_eq _ (by omega), hdrop, List.append_assoc]
  refine ⟨_, ?_, stringAt_append hnoNul (List.replicate (5 - (arg.length - 14)) 0)⟩
  simp only [takePath, strlen_append harg, hmove, strlen_append hnoNul, Option.bind_eq_bind,
    Option.bind_some, storeAt_append]

/-- liSa opens the path that dalle has shared, and that is the argument when it has at least
as many characters as the default path. -/
theorem path_passed_iff (harg : 0 ∉ arg) (hlen : arg.length ≤ 19) (rest : List UInt8)
    (hbehind : 0 ∈ behind.drop 4) :
    (∃ shared path s, takePath (arg ++ 0 :: rest) = some shared ∧ StringAt shared s ∧
      openedPath shared behind = some path ∧ StringAt path s) ∧
    ((∃ shared path, takePath (arg ++ 0 :: rest) = some shared ∧ StringAt shared arg ∧
      openedPath shared behind = some path ∧ StringAt path arg) ↔ 14 ≤ arg.length) := by
  obtain ⟨shared, htake, hshared⟩ := takePath_string harg hlen rest
  have hshort : (arg ++ defaultPath.drop arg.length).length ≤ 19 := by
    have hdefault : defaultPath.length = 14 := rfl
    rw [List.length_append, List.length_drop]
    omega
  obtain ⟨path, hopen, hpath⟩ := openedPath_string hshared hshort hbehind
  refine ⟨⟨shared, path, _, htake, hshared, hopen, hpath⟩, ?_, fun hlong => ?_⟩
  · rintro ⟨shared', path', htake', hshared', -⟩
    rw [htake] at htake'
    cases htake'
    have heq := congrArg List.length (hshared.unique hshared')
    have hdefault : defaultPath.length = 14 := rfl
    rw [List.length_append, List.length_drop] at heq
    omega
  · have hall : arg ++ defaultPath.drop arg.length = arg := by
      rw [List.drop_eq_nil_of_le hlong, List.append_nil]
    rw [hall] at hshared hpath
    exact ⟨shared, path, htake, hshared, hopen, hpath⟩

/-- The path "../home/README" itself. -/
theorem path_passed_default : ∃ shared path, takePath (defaultPath ++ [0]) = some shared ∧
    StringAt shared defaultPath ∧ openedPath shared [0, 0, 0, 0, 0] = some path ∧
    StringAt path defaultPath :=
  (path_passed_iff (by decide) (by decide) [] (by decide)).2.mpr (by decide)

/-- The string "README". -/
def readme : List UInt8 := [82, 69, 65, 68, 77, 69]

/-- For "README" the file "READMEe/README" is opened, whatever lies behind. -/
theorem path_mixed : takePath (readme ++ [0]) = some (readme ++ filePathArray.drop 6) ∧
    ∀ behind, 0 ∈ behind.drop 4 → ∃ path, openedPath (readme ++ filePathArray.drop 6) behind = some path ∧
      StringAt path (readme ++ [101, 47, 82, 69, 65, 68, 77, 69]) ∧ ¬ StringAt path readme := by
  refine ⟨by decide, fun behind hbehind => ?_⟩
  have hshared : StringAt (readme ++ filePathArray.drop 6)
      (readme ++ [101, 47, 82, 69, 65, 68, 77, 69]) := ⟨by decide, by decide⟩
  obtain ⟨path, hopen, hpath⟩ := openedPath_string hshared (by decide) hbehind
  exact ⟨path, hopen, hpath, fun hno => absurd (hpath.unique hno) (by decide)⟩

end Xv6Sharing.User
