/-
Xv6Sharing.User.GrepMatch — what patterns of grep mean (user/grep.c).

A pattern is read as a sequence of items, a character or `.` that may be starred, and the
two marks for the ends of the text. The items have languages, a star the Kleene star, and a
text matches if a part of it lies in the product and the marks hold. The matcher decides
this.
-/
import Mathlib.Computability.Language
import Xv6Sharing.User.Grep

namespace Xv6Sharing.User.Grep

open Computability

/-! ## Patterns -/

/-- A character of a pattern, and whether a star follows. -/
structure Item where
  char : UInt8
  starred : Bool

/-- The items of a pattern behind a `^`, and whether it ends in `$`. -/
def parse : List UInt8 → List Item × Bool
  | [] => ([], false)
  | [c] => if c = dollar then ([], true) else ([⟨c, false⟩], false)
  | c :: d :: re =>
    if d = star then (⟨c, true⟩ :: (parse re).1, (parse re).2)
    else (⟨c, false⟩ :: (parse (d :: re)).1, (parse (d :: re)).2)

/-- The texts of one character that `c` stands for. -/
def charLang (c : UInt8) : Language UInt8 := {w | ∃ x, w = [x] ∧ (c = dot ∨ c = x)}

def Item.lang (i : Item) : Language UInt8 := if i.starred then (charLang i.char)∗ else charLang i.char

/-- The language of a sequence of items. -/
def lang (items : List Item) : Language UInt8 := (items.map Item.lang).prod

/-- A part of the text behind `pre` matches the pattern `re`. -/
def MatchesAfter (re pre text : List UInt8) : Prop :=
  ∃ s post, text = pre ++ s ++ post ∧ s ∈ lang (parse re).1 ∧ ((parse re).2 = true → post = [])

/-- A part of the text matches; `^` stands for its start. -/
def Matches (re text : List UInt8) : Prop :=
  if re.head? = some caret then MatchesAfter re.tail [] text else ∃ pre, MatchesAfter re pre text

/-! ## Languages -/

variable {c : UInt8} {re text s : List UInt8} {here : List UInt8 → Bool}

theorem mem_charLang : s ∈ charLang c ↔ ∃ x, s = [x] ∧ (c = dot ∨ c = x) := Iff.rfl

theorem mem_kstar_charLang : s ∈ (charLang c)∗ ↔ ∀ x ∈ s, c = dot ∨ c = x := by
  rw [Language.mem_kstar]
  constructor
  · rintro ⟨ws, rfl, hws⟩ x hx
    obtain ⟨w, hw, hxw⟩ := List.mem_flatten.mp hx
    obtain ⟨y, rfl, hy⟩ := hws w hw
    rwa [List.mem_singleton.mp hxw]
  · intro hall
    refine ⟨s.map fun x => [x], ?_, fun w hw => ?_⟩
    · induction s with
      | nil => rfl
      | cons x s ih =>
        rw [List.map_cons, List.flatten_cons, ← ih fun y hy => hall y (List.mem_cons_of_mem _ hy)]
        rfl
    · obtain ⟨x, hx, rfl⟩ := List.mem_map.mp hw
      exact ⟨x, rfl, hall x hx⟩

/-! ## The matcher -/

theorem matchstar_iff : matchstar here c text = true ↔
    ∃ s post, text = s ++ post ∧ s ∈ (charLang c)∗ ∧ here post = true := by
  simp only [mem_kstar_charLang]
  induction text with
  | nil =>
    rw [matchstar]
    refine ⟨fun h => ⟨[], [], rfl, nofun, h⟩, ?_⟩
    rintro ⟨s, post, heq, -, h⟩
    rwa [(List.append_eq_nil_iff.mp heq.symm).2] at h
  | cons t text ih =>
    rw [matchstar, Bool.or_eq_true, Bool.and_eq_true, decide_eq_true_iff, ih]
    constructor
    · rintro (h | ⟨ht, s, post, rfl, hs, h⟩)
      · exact ⟨[], _, rfl, nofun, h⟩
      · refine ⟨t :: s, post, rfl, fun x hx => ?_, h⟩
        rcases List.mem_cons.mp hx with rfl | hx
        · exact ht.symm.imp id Eq.symm
        · exact hs x hx
    · rintro ⟨s, post, heq, hs, h⟩
      cases s with
      | nil => exact .inl (by rwa [heq])
      | cons x s =>
        obtain ⟨rfl, rfl⟩ := List.cons.inj heq
        refine .inr ⟨(hs t List.mem_cons_self).symm.imp Eq.symm id, s, post, rfl, ?_, h⟩
        exact fun y hy => hs y (List.mem_cons_of_mem _ hy)

theorem matchone_iff : matchone here c text = true ↔
    ∃ s post, text = s ++ post ∧ s ∈ charLang c ∧ here post = true := by
  simp only [mem_charLang]
  cases text with
  | nil =>
    refine iff_of_false Bool.false_ne_true ?_
    rintro ⟨s, post, heq, ⟨x, rfl, -⟩, -⟩
    cases heq
  | cons t text =>
    rw [matchone, Bool.and_eq_true, decide_eq_true_iff]
    constructor
    · rintro ⟨ht, h⟩
      exact ⟨[t], text, rfl, ⟨t, rfl, ht⟩, h⟩
    · rintro ⟨s, post, heq, ⟨x, rfl, hx⟩, h⟩
      obtain ⟨rfl, rfl⟩ := List.cons.inj heq
      exact ⟨hx, h⟩

theorem matchesAfter_cons {re' : List UInt8} {i : Item}
    (hparse : parse re = (i :: (parse re').1, (parse re').2)) :
    MatchesAfter re [] text ↔
      ∃ s rest, text = s ++ rest ∧ s ∈ i.lang ∧ MatchesAfter re' [] rest := by
  unfold MatchesAfter lang
  rw [hparse]
  simp only [List.map_cons, List.prod_cons, List.nil_append, Language.mem_mul]
  constructor
  · rintro ⟨w, post, rfl, ⟨s, hs, s', hs', rfl⟩, hpost⟩
    exact ⟨s, s' ++ post, List.append_assoc .., hs, s', post, rfl, hs', hpost⟩
  · rintro ⟨s, rest, rfl, hs, s', post, rfl, hs', hpost⟩
    exact ⟨s ++ s', post, (List.append_assoc ..).symm, ⟨s, hs, s', hs', rfl⟩, hpost⟩

/-- The empty pattern matches, and a `$` alone matches nothing else than the end. -/
theorem matchesAfter_nil (hparse : (parse re).1 = []) :
    MatchesAfter re [] text ↔ ((parse re).2 = true → text = []) := by
  unfold MatchesAfter lang
  rw [hparse]
  simp only [List.map_nil, List.prod_nil, List.nil_append, Language.mem_one]
  constructor
  · rintro ⟨s, post, rfl, rfl, hpost⟩
    exact hpost
  · exact fun hpost => ⟨[], text, rfl, rfl, hpost⟩

theorem matchhere_iff : matchhere re text = true ↔ MatchesAfter re [] text := by
  -- the cases of `parse` are those of `matchhere`
  induction re using parse.induct generalizing text with
  | case1 => exact iff_of_true rfl ((matchesAfter_nil rfl).mpr nofun)
  | case2 =>
    have hparse : parse [dollar] = ([], true) := rfl
    rw [matchesAfter_nil (congrArg Prod.fst hparse), hparse, matchhere, if_pos rfl, List.isEmpty_iff]
    exact ⟨fun h _ => h, fun h => h rfl⟩
  | case3 c hc =>
    have hparse : parse [c] = (⟨c, false⟩ :: (parse []).1, (parse []).2) := if_neg hc
    rw [matchhere, if_neg hc, matchone_iff, matchesAfter_cons hparse]
    have hnil : ∀ rest, matchhere [] rest = true ↔ MatchesAfter [] [] rest := fun rest =>
      iff_of_true rfl ((matchesAfter_nil rfl).mpr nofun)
    simp only [hnil, Item.lang, Bool.false_eq_true, if_false]
  | case4 c re ih =>
    have hparse : parse (c :: star :: re) = (⟨c, true⟩ :: (parse re).1, (parse re).2) := by
      rw [parse, if_pos rfl]
    rw [matchhere, if_pos rfl, matchstar_iff, matchesAfter_cons hparse]
    simp only [ih, Item.lang, if_true]
  | case5 c d re hd ih =>
    have hparse : parse (c :: d :: re)
        = (⟨c, false⟩ :: (parse (d :: re)).1, (parse (d :: re)).2) := by
      rw [parse, if_neg hd]
    rw [matchhere, if_neg hd, matchone_iff, matchesAfter_cons hparse]
    simp only [ih, Item.lang, Bool.false_eq_true, if_false]

theorem matchesAfter_iff {pre : List UInt8} :
    MatchesAfter re pre text ↔ ∃ rest, text = pre ++ rest ∧ matchhere re rest = true := by
  simp only [matchhere_iff]
  constructor
  · rintro ⟨s, post, rfl, hs, hpost⟩
    exact ⟨s ++ post, List.append_assoc .., s, post, rfl, hs, hpost⟩
  · rintro ⟨rest, rfl, s, post, rfl, hs, hpost⟩
    exact ⟨s, post, (List.append_assoc ..).symm, hs, hpost⟩

theorem matchany_iff : matchany re text = true ↔ ∃ pre, MatchesAfter re pre text := by
  simp only [matchesAfter_iff]
  induction text with
  | nil =>
    rw [matchany]
    refine ⟨fun h => ⟨[], [], rfl, h⟩, ?_⟩
    rintro ⟨pre, rest, heq, h⟩
    rwa [(List.append_eq_nil_iff.mp heq.symm).2] at h
  | cons t text ih =>
    rw [matchany, Bool.or_eq_true, ih]
    constructor
    · rintro (h | ⟨pre, rest, rfl, h⟩)
      · exact ⟨[], _, rfl, h⟩
      · exact ⟨t :: pre, rest, rfl, h⟩
    · rintro ⟨pre, rest, heq, h⟩
      cases pre with
      | nil => exact .inl (by rwa [heq])
      | cons x pre =>
        obtain ⟨rfl, rfl⟩ := List.cons.inj heq
        exact .inr ⟨pre, rest, rfl, h⟩

/-- The matcher returns 1 exactly for the texts that match. -/
theorem matchText_iff (re text : List UInt8) : matchText re text = true ↔ Matches re text := by
  cases re with
  | nil => exact matchany_iff
  | cons c re =>
    by_cases hc : c = caret
    · subst hc
      exact matchhere_iff
    · have hhead : (c :: re).head? ≠ some caret := fun h => hc (Option.some.inj h)
      rw [matchText, if_neg hc, Matches, if_neg hhead]
      exact matchany_iff

end Xv6Sharing.User.Grep
