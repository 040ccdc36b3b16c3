/-
Xv6Sharing.User.Numbers — numbers as text (kernel/console.c, user/printf.c,
user/ulib.c).

The kernel and the user library have each a `printint`, and they differ in the table of
digits. The characters are stored from the last one on into an array of sixteen, and then
written in the other order; a store behind the array has no result. `atoi` reads what was
printed.
-/
import Mathlib.Data.Nat.Digits.Lemmas
import Xv6Sharing.Lib.CString

namespace Xv6Sharing.Numbers

open Lib

/-! ## The functions -/

/-- The loop `do{ buf[i++] = digits[x % base]; }while((x /= base) != 0)`. A number has less than
33 digits. -/
def storeDigits (digits : List UInt8) (base : Nat) :
    Nat → Nat → List UInt8 → Nat → Option (List UInt8 × Nat)
  | 0, _, _, _ => none
  | fuel + 1, x, buf, i => do
      let c ← digits[x % base]?
      let buf ← storeAt buf i c
      if x / base ≠ 0 then storeDigits digits base fuel (x / base) buf (i + 1)
      else return (buf, i + 1)

/-- The loop `while(--i >= 0) putc(buf[i])`. -/
def emit (buf : List UInt8) : Nat → Option (List UInt8)
  | 0 => some []
  | i + 1 => do
      let c ← buf[i]?
      let rest ← emit buf i
      return c :: rest

/-- `printint` with a table of digits; `buf` is what the array on the stack held. -/
def printintWith (digits buf : List UInt8) (xx : BitVec 32) (base : Nat) (sign : Bool) :
    Option (List UInt8) := do
  let neg := sign && decide (xx.toInt < 0)
  let x := if neg then -xx else xx
  let (buf, i) ← storeDigits digits base 33 x.toNat buf 0
  let (buf, i) ← if neg then (storeAt buf i 45).map (·, i + 1) else some (buf, i)
  emit buf i

/-- The digits of the kernel, `0123456789abcdef`. -/
def kernelDigits : List UInt8 := [48, 49, 50, 51, 52, 53, 54, 55, 56, 57, 97, 98, 99, 100, 101, 102]

/-- Those of the user library, `0123456789ABCDEF`. -/
def userDigits : List UInt8 := [48, 49, 50, 51, 52, 53, 54, 55, 56, 57, 65, 66, 67, 68, 69, 70]

/-- `printint` of kernel/console.c. -/
def kernelPrintint (buf : List UInt8) (xx : BitVec 32) (base : Nat) (sign : Bool) :
    Option (List UInt8) := printintWith kernelDigits buf xx base sign

/-- `printint` of user/printf.c. -/
def userPrintint (buf : List UInt8) (xx : BitVec 32) (base : Nat) (sgn : Bool) :
    Option (List UInt8) := printintWith userDigits buf xx base sgn

/-- The loop of `atoi`; the sum wraps. -/
def atoiFrom : List UInt8 → BitVec 32 → Option (BitVec 32)
  | [], _ => none
  | c :: s, n =>
    if 48 ≤ c ∧ c ≤ 57 then atoiFrom s (n * 10 + BitVec.ofNat 32 c.toNat - 48) else some n

def atoi (s : List UInt8) : Option (BitVec 32) := atoiFrom s 0

/-! ## Digits -/

variable {digits buf : List UInt8} {base x i : Nat}

/-- The digits of a number, the last one first; zero has one. -/
def lowDigits (base x : Nat) : List Nat := if x = 0 then [0] else Nat.digits base x

theorem lowDigits_eq (hbase : 1 < base) (x : Nat) :
    lowDigits base x = x % base :: if x / base ≠ 0 then lowDigits base (x / base) else [] := by
  by_cases hx : x = 0
  · rw [lowDigits, if_pos hx, hx, Nat.zero_mod, Nat.zero_div, if_neg (not_not.mpr rfl)]
  · rw [lowDigits, if_neg hx, Nat.digits_def' hbase (Nat.pos_of_ne_zero hx)]
    by_cases hq : x / base = 0
    · rw [hq, Nat.digits_zero, if_neg (not_not.mpr rfl)]
    · rw [if_pos hq, lowDigits, if_neg hq]

theorem lowDigits_lt (hbase : 1 < base) {d : Nat} (hd : d ∈ lowDigits base x) : d < base := by
  unfold lowDigits at hd
  split at hd
  · rw [List.mem_singleton.mp hd]
    omega
  · exact Nat.digits_lt_base hbase hd

theorem ofDigits_lowDigits : Nat.ofDigits base (lowDigits base x) = x := by
  unfold lowDigits
  split
  · simp [*]
  · exact Nat.ofDigits_digits base x

theorem length_lowDigits {k : Nat} (hbase : 1 < base) (hk : 0 < k) (hx : x < base ^ k) :
    (lowDigits base x).length ≤ k := by
  unfold lowDigits
  split
  · exact hk
  · exact (Nat.digits_length_le_iff hbase x).mpr hx

/-- A number that is not zero has no zero in front. -/
theorem head?_reverse_lowDigits : (lowDigits base x).reverse.head? ≠ some 0 ∨ lowDigits base x = [0] := by
  unfold lowDigits
  split
  · exact .inr rfl
  · rename_i hx
    have hne : Nat.digits base x ≠ [] := Nat.digits_ne_nil_iff_ne_zero.mpr hx
    rw [List.head?_reverse, List.getLast?_eq_getLast_of_ne_nil hne]
    exact .inl fun heq => Nat.getLast_digit_ne_zero base hx (Option.some.inj heq)

/-! ## The loops -/

theorem storeDigits_eq (hbase : 1 < base) (hdigits : base ≤ digits.length) {fuel : Nat}
    (hx : x < 2 ^ fuel) (hfuel : 0 < fuel) {old rest : List UInt8}
    (hroom : (lowDigits base x).length ≤ rest.length) :
    storeDigits digits base fuel x (old ++ rest) old.length
      = some (old ++ (lowDigits base x).map (digits.getD · 0)
          ++ rest.drop (lowDigits base x).length, old.length + (lowDigits base x).length) := by
  induction fuel generalizing x old rest with
  | zero => cases hfuel
  | succ fuel ih =>
    rw [lowDigits_eq hbase] at hroom ⊢
    have hlt : x % base < digits.length := (Nat.mod_lt x (by omega)).trans_le hdigits
    obtain ⟨c, rest, rfl⟩ : ∃ c r, rest = c :: r := List.exists_cons_of_length_pos (by
      rw [List.length_cons] at hroom
      omega)
    rw [storeDigits, List.getElem?_eq_getElem hlt]
    simp only [Option.bind_eq_bind, Option.bind_some, storeAt_append]
    by_cases hq : x / base = 0
    · simp [hq, List.getElem?_eq_getElem hlt]
    · have hhalf : x / base < 2 ^ fuel := by
        have hle : x / base ≤ x / 2 := Nat.div_le_div_left hbase (by decide)
        rw [pow_succ] at hx
        omega
      have hpos : 0 < fuel := by
        rcases Nat.eq_zero_or_pos fuel with rfl | hpos
        · exact absurd (Nat.lt_one_iff.mp hhalf) hq
        · exact hpos
      have hroom' : (lowDigits base (x / base)).length ≤ rest.length := by
        rw [if_pos hq] at hroom
        simpa using hroom
      have hnext : storeDigits digits base fuel (x / base) ((old ++ [digits[x % base]]) ++ rest)
          (old ++ [digits[x % base]]).length = _ := ih hhalf hpos hroom'
      rw [if_pos hq, if_pos hq]
      simpa [List.getElem?_eq_getElem hlt, Nat.add_assoc, Nat.add_comm 1] using hnext

theorem emit_eq {n : Nat} (h : n ≤ buf.length) : emit buf n = some (buf.take n).reverse := by
  induction n with
  | zero => rfl
  | succ n ih =>
    have hlt : n < buf.length := h
    rw [emit, List.getElem?_eq_getElem hlt, ih (by omega), List.take_succ_eq_append_getElem hlt,
      List.reverse_append]
    rfl

/-! ## printint -/

/-- The number that is printed without its sign. -/
def magnitude (xx : BitVec 32) (sign : Bool) : Nat :=
  (if sign && decide (xx.toInt < 0) then -xx else xx).toNat

theorem printintWith_eq (hbase : 1 < base) (hdigits : base ≤ digits.length) (hbuf : buf.length = 16)
    {xx : BitVec 32} {sign : Bool} (hlen : (lowDigits base (magnitude xx sign)).length < 16) :
    printintWith digits buf xx base sign
      = some ((if sign && decide (xx.toInt < 0) then [45] else [])
          ++ (lowDigits base (magnitude xx sign)).reverse.map (digits.getD · 0)) := by
  have hstore : storeDigits digits base 33 (magnitude xx sign) ([] ++ buf) ([] : List UInt8).length
      = _ := storeDigits_eq hbase hdigits (lt_trans (BitVec.isLt _) (by decide)) (by decide)
        (hlen.le.trans (by omega))
  rw [List.nil_append, List.nil_append, List.length_nil, Nat.zero_add] at hstore
  unfold printintWith
  rw [List.map_reverse]
  unfold magnitude at hstore hlen ⊢
  generalize (sign && decide (xx.toInt < 0)) = neg at hstore hlen ⊢
  -- the characters of the digits, and the array behind them
  generalize hds : lowDigits base (if neg = true then -xx else xx).toNat = ds at hstore hlen ⊢
  have hchars : (ds.map (digits.getD · 0)).length = ds.length := List.length_map _
  generalize ds.map (digits.getD · 0) = chars at hstore hchars ⊢
  obtain ⟨c, rest, hrest⟩ : ∃ c rest, buf.drop ds.length = c :: rest :=
    List.exists_cons_of_length_pos (by rw [List.length_drop]; omega)
  rw [hrest, ← hchars] at hstore
  simp only [hstore, Option.bind_eq_bind, Option.bind_some]
  cases neg with
  | false =>
    rw [if_neg Bool.false_ne_true, if_neg Bool.false_ne_true, emit_eq (by simp), List.take_left,
      List.nil_append]
  | true =>
    rw [if_pos rfl, if_pos rfl, storeAt_append, Option.map_some, Option.bind_some]
    have hlast : chars ++ 45 :: rest = (chars ++ [45]) ++ rest := by simp
    have hemit : emit ((chars ++ [45]) ++ rest) (chars ++ [(45 : UInt8)]).length = _ :=
      emit_eq (by simp)
    rw [List.take_left, List.reverse_append, List.length_append] at hemit
    rw [hlast]
    exact hemit

/-- The text of an integer: no zero in front, a minus sign exactly for a negative one, and digits
whose value is that of the integer. -/
def Canonical (digits : List UInt8) (base : Nat) (z : Int) (text : List UInt8) : Prop :=
  ∃ ds : List Nat, text = (if z < 0 then [45] else []) ++ ds.map (digits.getD · 0) ∧
    (∀ d ∈ ds, d < base) ∧ (ds.head? ≠ some 0 ∨ ds = [0]) ∧ ds ≠ [] ∧
    Nat.ofDigits base ds.reverse = z.natAbs

/-- What is printed, for a signed number or one without a sign. -/
def printed (xx : BitVec 32) (sign : Bool) : Int := if sign then xx.toInt else xx.toNat

theorem natAbs_printed (xx : BitVec 32) (sign : Bool) :
    (printed xx sign).natAbs = magnitude xx sign := by
  have hlt := xx.isLt
  unfold printed magnitude
  cases sign with
  | false => rfl
  | true =>
    rw [if_pos rfl, Bool.true_and]
    by_cases hneg : xx.toInt < 0
    · rw [if_pos (decide_eq_true hneg), BitVec.toNat_neg]
      rw [BitVec.toInt_eq_toNat_cond] at hneg ⊢
      split_ifs at hneg ⊢ <;> omega
    · rw [if_neg (by simpa using hneg)]
      rw [BitVec.toInt_eq_toNat_cond] at hneg ⊢
      split_ifs at hneg ⊢ <;> omega

theorem printed_neg (xx : BitVec 32) (sign : Bool) :
    printed xx sign < 0 ↔ (sign && decide (xx.toInt < 0)) = true := by
  cases sign with
  | false => simp [printed]
  | true => simp [printed]

theorem canonical_lowDigits (hbase : 1 < base) (xx : BitVec 32) (sign : Bool) :
    Canonical digits base (printed xx sign)
      ((if sign && decide (xx.toInt < 0) then [45] else [])
        ++ (lowDigits base (magnitude xx sign)).reverse.map (digits.getD · 0)) := by
  refine ⟨_, congrArg (· ++ _) (if_congr (printed_neg xx sign).symm rfl rfl), fun d hd => ?_, ?_, ?_, ?_⟩
  · exact lowDigits_lt hbase (List.mem_reverse.mp hd)
  · refine head?_reverse_lowDigits.imp id fun h => ?_
    rw [h]
    rfl
  · rw [lowDigits_eq hbase]
    simp
  · rw [List.reverse_reverse, ofDigits_lowDigits, natAbs_printed]

/-! ## atoi -/

/-- `atoi` reads decimal digits as the user library prints them. -/
theorem atoiFrom_digits {ds : List Nat} (hds : ∀ d ∈ ds, d < 10) (rest : List UInt8) (v : Nat) :
    atoiFrom (ds.map (userDigits.getD · 0) ++ 0 :: rest) (BitVec.ofNat 32 v)
      = some (BitVec.ofNat 32 (ds.foldl (fun v d => d + 10 * v) v)) := by
  induction ds generalizing v with
  | nil => rfl
  | cons d ds ih =>
    have hd : d < 10 := hds d List.mem_cons_self
    have hchar : userDigits.getD d 0 = UInt8.ofNat (48 + d) := by
      interval_cases d <;> rfl
    have hdigit : 48 ≤ userDigits.getD d 0 ∧ userDigits.getD d 0 ≤ 57 := by
      interval_cases d <;> decide
    have hnext : BitVec.ofNat 32 v * 10 + BitVec.ofNat 32 (userDigits.getD d 0).toNat - 48
        = BitVec.ofNat 32 (d + 10 * v) := by
      have hnat : (userDigits.getD d 0).toNat = 48 + d := by
        rw [hchar, UInt8.toNat_ofNat']
        omega
      refine BitVec.eq_of_toNat_eq ?_
      rw [hnat]
      have hten : (10 : BitVec 32).toNat = 10 := rfl
      have hzero : (48 : BitVec 32).toNat = 48 := rfl
      simp only [BitVec.toNat_sub, BitVec.toNat_add, BitVec.toNat_mul, BitVec.toNat_ofNat, hten, hzero]
      omega
    rw [List.map_cons, List.cons_append, atoiFrom, if_pos hdigit, hnext,
      ih fun e he => hds e (List.mem_cons_of_mem _ he)]
    rfl

theorem atoi_canonical {xx : BitVec 32} (hpos : 0 ≤ xx.toInt) {text : List UInt8}
    (h : Canonical userDigits 10 xx.toInt text) (rest : List UInt8) :
    atoi (text ++ 0 :: rest) = some xx := by
  obtain ⟨ds, rfl, hds, -, -, hvalue⟩ := h
  have hfold : ds.foldl (fun v d => d + 10 * v) 0 = xx.toInt.natAbs := by
    rw [← hvalue, Nat.ofDigits_eq_foldr, List.foldr_reverse]
    rfl
  have hself : BitVec.ofNat 32 xx.toInt.natAbs = xx := by
    refine BitVec.eq_of_toNat_eq ?_
    have hlt := xx.isLt
    rw [BitVec.toInt_eq_toNat_cond] at hpos ⊢
    rw [BitVec.toNat_ofNat]
    split_ifs at hpos ⊢ <;> omega
  rw [if_neg (by omega), List.nil_append]
  have hread := atoiFrom_digits hds rest 0
  rw [hfold, hself] at hread
  exact hread

/-! ## Both libraries -/

/-- A letter in lower case. -/
def toLower (c : UInt8) : UInt8 := if 65 ≤ c ∧ c ≤ 90 then c + 32 else c

theorem toLower_digits {d : Nat} (hd : d < 16) :
    toLower (userDigits.getD d 0) = toLower (kernelDigits.getD d 0) := by
  interval_cases d <;> decide

/-- The kernel and the user library print a number with `base` as the same text. -/
structure Prints (base : Nat) (sign : Bool) (buf buf' : List UInt8) (xx : BitVec 32)
    (text text' : List UInt8) : Prop where
  kernel : kernelPrintint buf xx base sign = some text
  user : userPrintint buf' xx base sign = some text'
  kernelCanonical : Canonical kernelDigits base (printed xx sign) text
  userCanonical : Canonical userDigits base (printed xx sign) text'
  agree : text'.map toLower = text.map toLower

theorem prints {buf' : List UInt8} (hbase : 1 < base) (hle : base ≤ 16) (hbuf : buf.length = 16)
    (hbuf' : buf'.length = 16) {xx : BitVec 32} {sign : Bool}
    (hlen : (lowDigits base (magnitude xx sign)).length < 16) :
    ∃ text text', Prints base sign buf buf' xx text text' := by
  have hkernel : base ≤ kernelDigits.length := hle
  have huser : base ≤ userDigits.length := hle
  refine ⟨_, _, ⟨printintWith_eq hbase hkernel hbuf hlen, printintWith_eq hbase huser hbuf' hlen,
    canonical_lowDigits hbase xx sign, canonical_lowDigits hbase xx sign, ?_⟩⟩
  rw [List.map_append, List.map_append, List.map_map, List.map_map]
  refine congrArg _ (List.map_congr_left fun d hd => ?_)
  exact toLower_digits ((lowDigits_lt hbase (List.mem_reverse.mp hd)).trans_le hle)

/-- Signed decimal numbers and hexadecimal numbers without a sign. -/
theorem printint_faithful (buf buf' : List UInt8) (hbuf : buf.length = 16) (hbuf' : buf'.length = 16)
    (xx : BitVec 32) :
    (∃ text text', Prints 10 true buf buf' xx text text' ∧
      (0 ≤ xx.toInt → ∀ rest, atoi (text' ++ 0 :: rest) = some xx)) ∧
    ∃ text text', Prints 16 false buf buf' xx text text' := by
  constructor
  · have hlen : (lowDigits 10 (magnitude xx true)).length ≤ 10 :=
      length_lowDigits (by decide) (by decide) (lt_trans (BitVec.isLt _) (by decide))
    obtain ⟨text, text', h⟩ := prints (by decide) (by decide) hbuf hbuf' (Nat.lt_of_le_of_lt hlen (by decide))
    exact ⟨text, text', h, fun hpos rest => atoi_canonical hpos h.userCanonical rest⟩
  · have hlen : (lowDigits 16 (magnitude xx false)).length ≤ 8 :=
      length_lowDigits (by decide) (by decide) (lt_of_lt_of_le (BitVec.isLt _) (by decide))
    exact prints (by decide) (by decide) hbuf hbuf' (Nat.lt_of_le_of_lt hlen (by decide))

/-- The least integer. -/
theorem printint_faithful_min : ∃ text text',
    Prints 10 true (List.replicate 16 0) (List.replicate 16 0) (BitVec.ofNat 32 (2 ^ 31)) text text' := by
  obtain ⟨⟨text, text', h, -⟩, -⟩ := printint_faithful (List.replicate 16 0) (List.replicate 16 0)
    List.length_replicate List.length_replicate (BitVec.ofNat 32 (2 ^ 31))
  exact ⟨text, text', h⟩

end Xv6Sharing.Numbers
