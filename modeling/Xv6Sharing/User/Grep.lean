/-
Xv6Sharing.User.Grep — grep and its matcher (user/grep.c).

The matcher works on strings, which are lists of bytes up to the NUL. The loop that
reads the file works on an array of 1024 bytes, and an access outside it has no result.
What `read` returns is given as the list of the pieces that it delivers one after the
other; a piece that is empty or longer than what was asked for is not delivered.
-/
import Xv6Sharing.Lib.CString

namespace Xv6Sharing.User.Grep

open Lib

/-! ## The matcher -/

def star : UInt8 := 42
def dot : UInt8 := 46
def dollar : UInt8 := 36
def caret : UInt8 := 94

/-- `matchstar`; `here` is `matchhere` with the rest of the pattern. -/
def matchstar (here : List UInt8 → Bool) (c : UInt8) : List UInt8 → Bool
  | [] => here []
  | t :: text => here (t :: text) || (decide (t = c ∨ c = dot) && matchstar here c text)

/-- `*text != '\0' && (re[0] == '.' || re[0] == *text)`, and then `next` behind both. -/
def matchone (next : List UInt8 → Bool) (c : UInt8) : List UInt8 → Bool
  | [] => false
  | t :: text => decide (c = dot ∨ c = t) && next text

def matchhere : List UInt8 → List UInt8 → Bool
  | [], _ => true
  -- `re[1]` is the NUL
  | [c], text => if c = dollar then text.isEmpty else matchone (matchhere []) c text
  | c :: d :: re, text =>
    if d = star then matchstar (matchhere re) c text else matchone (matchhere (d :: re)) c text

/-- The loop of `match`. -/
def matchany (re : List UInt8) : List UInt8 → Bool
  | [] => matchhere re []
  | t :: text => matchhere re (t :: text) || matchany re text

/-- `match`. -/
def matchText (re text : List UInt8) : Bool :=
  match re with
  | [] => matchany [] text
  | c :: re => if c = caret then matchhere re text else matchany (c :: re) text

/-! ## The loop over the lines -/

/-- `strchr`: the distance to the character, if it comes before the NUL. -/
def strchr (x : UInt8) : List UInt8 → Option (Option Nat)
  | [] => none
  | c :: s => if c = 0 then some none else if c = x then some (some 0)
      else (strchr x s).map (Option.map (· + 1))

/-- `memmove` within an array. -/
def memmoveIn : Nat → List UInt8 → Nat → Nat → Option (List UInt8)
  | 0, buf, _, _ => some buf
  | n + 1, buf, dst, src => do
      let c ← buf[src]?
      let buf ← storeAt buf dst c
      memmoveIn n buf (dst + 1) (src + 1)

/-- The bytes of an array from `p` up to `q`. -/
def slice (buf : List UInt8) (p q : Nat) : List UInt8 := (buf.drop p).take (q - p)

/-- The inner loop, from `p` on; `out` are the writes so far. -/
def lineLoop (pattern : List UInt8) : Nat → List UInt8 → Nat → List (List UInt8) →
    Option (List UInt8 × Nat × List (List UInt8))
  | 0, _, _, _ => none
  | fuel + 1, buf, p, out => do
      match ← strchr 10 (buf.drop p) with
      | none => return (buf, p, out)
      | some k => do
          let q := p + k
          let buf ← storeAt buf q 0
          if matchText pattern (cut (buf.drop p)) then do
            let buf ← storeAt buf q 10
            lineLoop pattern fuel buf (q + 1) (out ++ [slice buf p (q + 1)])
          else lineLoop pattern fuel buf (q + 1) out

/-- Stores of `read` at `m`. -/
def fill : List UInt8 → List UInt8 → Nat → Option (List UInt8)
  | [], buf, _ => some buf
  | c :: cs, buf, m => do
      let buf ← storeAt buf m c
      fill cs buf (m + 1)

/-- What `grep` does with the bytes that `read` delivered. -/
def afterRead (pattern chunk buf : List UInt8) (m : Nat) (out : List (List UInt8)) :
    Option (List UInt8 × Nat × List (List UInt8)) := do
  let buf ← fill chunk buf m
  let m := m + chunk.length
  let buf ← storeAt buf m 0
  let (buf, p, out) ← lineLoop pattern (m + 1) buf 0 out
  let m := if p = 0 then 0 else m
  if 0 < m then do
    let buf ← memmoveIn (m - p) buf 0 p
    return (buf, m - p, out)
  else return (buf, m, out)

/-- `grep`: the writes that it makes. -/
def grep (pattern : List UInt8) : List (List UInt8) → List UInt8 → Nat → List (List UInt8) →
    Option (List (List UInt8))
  | [], _, _, out => some out
  | chunk :: chunks, buf, m, out =>
    if 0 < chunk.length ∧ chunk.length ≤ 1024 - m - 1 then do
      let (buf, m, out) ← afterRead pattern chunk buf m out
      grep pattern chunks buf m out
    else none

end Xv6Sharing.User.Grep
