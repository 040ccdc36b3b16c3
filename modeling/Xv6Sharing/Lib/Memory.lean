/-
Xv6Sharing.Lib.Memory — byte memory seen as 4096-byte pages of
little-endian 32-bit words.

A page is named by its frame number. `word` and `setWord` read and write
the `i`-th word of a page; `fillPage` and `copyPage` act on a whole page.
Everything a client needs is which pages an operation leaves alone
(`SamePage`) and what it does to the words of the others.
-/
import Mathlib.Algebra.Ring.Int.Defs
import Mathlib.Algebra.Ring.Nat
import Mathlib.Tactic.Common

namespace Xv6Sharing.Lib

/-- Physical memory, by byte address. -/
abbrev Mem := Nat → UInt8

/-- The little-endian word at a byte address. -/
def read32 (m : Mem) (a : Nat) : Nat :=
  (m a).toNat + 256 * (m (a + 1)).toNat + 65536 * (m (a + 2)).toNat
    + 16777216 * (m (a + 3)).toNat

/-- Store a word at a byte address. -/
def write32 (m : Mem) (a w : Nat) : Mem := fun x =>
  if x = a then UInt8.ofNat w
  else if x = a + 1 then UInt8.ofNat (w / 256)
  else if x = a + 2 then UInt8.ofNat (w / 65536)
  else if x = a + 3 then UInt8.ofNat (w / 16777216)
  else m x

/-- The `i`-th word of page `f`. -/
def word (m : Mem) (f i : Nat) : Nat := read32 m (f * 4096 + 4 * i)

/-- Store into the `i`-th word of page `f`. -/
def setWord (m : Mem) (f i w : Nat) : Mem := write32 m (f * 4096 + 4 * i) w

/-- `memset` of a whole page. -/
def fillPage (m : Mem) (f : Nat) (c : UInt8) : Mem :=
  fun x => if x / 4096 = f then c else m x

/-- `memmove` of a whole page, from `g` to `f`. -/
def copyPage (m : Mem) (f g : Nat) : Mem :=
  fun x => if x / 4096 = f then m (g * 4096 + x % 4096) else m x

/-- Store a list of bytes from a byte address on. -/
def storeBytes (m : Mem) (a : Nat) (bs : List UInt8) : Mem :=
  fun x => if a ≤ x ∧ x < a + bs.length then bs.getD (x - a) 0 else m x

/-- Page `f` holds the same bytes in both memories. -/
def SamePage (m m' : Mem) (f : Nat) : Prop := ∀ x, x / 4096 = f → m' x = m x

theorem SamePage.refl (m : Mem) (f : Nat) : SamePage m m f := fun _ _ => rfl

theorem SamePage.trans {m m' m'' : Mem} {f : Nat} (h : SamePage m m' f)
    (h' : SamePage m' m'' f) : SamePage m m'' f :=
  fun x hx => (h' x hx).trans (h x hx)

/-! ## Reading back -/

theorem read32_write32 (m : Mem) (a w : Nat) : read32 (write32 m a w) a = w % 2 ^ 32 := by
  have h0 : write32 m a w a = UInt8.ofNat w := by simp [write32]
  have h1 : write32 m a w (a + 1) = UInt8.ofNat (w / 256) := by simp [write32]
  have h2 : write32 m a w (a + 2) = UInt8.ofNat (w / 65536) := by simp [write32]
  have h3 : write32 m a w (a + 3) = UInt8.ofNat (w / 16777216) := by simp [write32]
  rw [read32, h0, h1, h2, h3]
  simp only [UInt8.toNat_ofNat']
  omega

theorem read32_congr {m m' : Mem} {a : Nat} (h : ∀ x, a ≤ x → x < a + 4 → m' x = m x) :
    read32 m' a = read32 m a := by
  simp only [read32]
  rw [h a (by omega) (by omega), h (a + 1) (by omega) (by omega),
    h (a + 2) (by omega) (by omega), h (a + 3) (by omega) (by omega)]

theorem write32_apply_of_lt {m : Mem} {a w x : Nat} (h : x < a ∨ a + 4 ≤ x) :
    write32 m a w x = m x := by
  simp only [write32]
  rw [if_neg (by omega), if_neg (by omega), if_neg (by omega), if_neg (by omega)]

theorem word_setWord (m : Mem) (f i w : Nat) : word (setWord m f i w) f i = w % 2 ^ 32 :=
  read32_write32 m _ w

theorem word_setWord_of_ne {m : Mem} {f i g j w : Nat} (hi : i < 1024) (hj : j < 1024)
    (h : g ≠ f ∨ j ≠ i) : word (setWord m f i w) g j = word m g j := by
  refine read32_congr (fun x hx hx' => write32_apply_of_lt ?_)
  omega

theorem samePage_setWord {m : Mem} {f i g w : Nat} (hi : i < 1024) (h : g ≠ f) :
    SamePage m (setWord m f i w) g := by
  intro x hx
  refine write32_apply_of_lt ?_
  omega

theorem SamePage.word {m m' : Mem} {f i : Nat} (h : SamePage m m' f) (hi : i < 1024) :
    word m' f i = Lib.word m f i := by
  refine read32_congr (fun x hx hx' => h x ?_)
  omega

/-! ## Whole pages -/

theorem samePage_fillPage {m : Mem} {f g : Nat} {c : UInt8} (h : g ≠ f) :
    SamePage m (fillPage m f c) g := by
  intro x hx
  have : x / 4096 ≠ f := by omega
  simp [fillPage, this]

theorem word_fillPage {m : Mem} {f i : Nat} (c : UInt8) (hi : i < 1024) :
    word (fillPage m f c) f i = c.toNat * 0x01010101 := by
  have hbyte : ∀ x, f * 4096 + 4 * i ≤ x → x < f * 4096 + 4 * i + 4 → fillPage m f c x = c := by
    intro x hx hx'
    have : x / 4096 = f := by omega
    simp [fillPage, this]
  rw [word, read32, hbyte _ (by omega) (by omega), hbyte _ (by omega) (by omega),
    hbyte _ (by omega) (by omega), hbyte _ (by omega) (by omega)]
  omega

theorem word_fillPage_zero {m : Mem} {f i : Nat} (hi : i < 1024) :
    word (fillPage m f 0) f i = 0 :=
  word_fillPage 0 hi

theorem samePage_copyPage {m : Mem} {f g h : Nat} (hne : h ≠ f) :
    SamePage m (copyPage m f g) h := by
  intro x hx
  have : x / 4096 ≠ f := by omega
  simp [copyPage, this]

theorem samePage_storeBytes {m : Mem} {f g off : Nat} {bs : List UInt8}
    (hlen : off + bs.length ≤ 4096) (h : g ≠ f) :
    SamePage m (storeBytes m (f * 4096 + off) bs) g := by
  intro x hx
  simp only [storeBytes]
  rw [if_neg (by omega)]

theorem storeBytes_cons (m : Mem) (a : Nat) (c : UInt8) (bs : List UInt8) :
    storeBytes m a (c :: bs) = storeBytes (storeBytes m a [c]) (a + 1) bs := by
  funext x
  simp only [storeBytes, List.length_cons, List.length_nil]
  by_cases hx : x = a
  · subst hx
    rw [if_pos (by omega), if_neg (by omega), if_pos (by omega), Nat.sub_self]
    rfl
  · by_cases hin : a + 1 ≤ x ∧ x < a + 1 + bs.length
    · rw [if_pos (by omega), if_pos hin, show x - a = x - (a + 1) + 1 by omega]
      rfl
    · rw [if_neg (by omega), if_neg hin, if_neg (by omega)]

end Xv6Sharing.Lib
