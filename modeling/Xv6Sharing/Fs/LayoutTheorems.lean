/-
Xv6Sharing.Fs.LayoutTheorems — reading the on-disk format back.

An inode stored in a block reads back as it was and leaves its neighbours
alone; setting or clearing a bit of the bitmap changes that bit only.
-/
import Mathlib.Data.Nat.Bitwise
import Xv6Sharing.Fs.Layout

namespace Xv6Sharing.Fs

open Lib

/-! ## Inodes in a block -/

theorem read16_lt (blk : Block) (a : Nat) : read16 blk a < 2 ^ 16 := by
  have h₀ := (blk a).toNat_lt
  have h₁ := (blk (a + 1)).toNat_lt
  unfold read16
  omega

theorem read32_lt (blk : Block) (a : Nat) : read32 blk a < 2 ^ 32 := by
  have h₀ := (blk a).toNat_lt
  have h₁ := (blk (a + 1)).toNat_lt
  have h₂ := (blk (a + 2)).toNat_lt
  have h₃ := (blk (a + 3)).toNat_lt
  unfold read32
  omega

theorem getInode_fits (blk : Block) (k : Nat) : (getInode blk k).Fits := by
  constructor
  · exact read16_lt ..
  · exact read16_lt ..
  · exact read16_lt ..
  · exact read16_lt ..
  · exact read32_lt ..
  · intro j
    show (if j < 13 then _ else 0) < _
    split
    · exact read32_lt ..
    · decide
  · intro j hj
    exact if_neg (by omega)

theorem dinode_fits (sb : Superblock) (disk : Disk) (i : Nat) : (dinode sb disk i).Fits :=
  getInode_fits ..

theorem toNat_byte (w i : Nat) : (byte w i).toNat = w / 256 ^ i % 256 := UInt8.toNat_ofNat'

theorem read16_eq {blk : Block} {a w : Nat} (hw : w < 2 ^ 16) (h : ∀ i < 2, blk (a + i) = byte w i) :
    read16 blk a = w := by
  have h₀ := h 0 (by decide)
  rw [Nat.add_zero] at h₀
  rw [read16, h₀, h 1 (by decide), toNat_byte, toNat_byte]
  omega

theorem read32_eq {blk : Block} {a w : Nat} (hw : w < 2 ^ 32) (h : ∀ i < 4, blk (a + i) = byte w i) :
    read32 blk a = w := by
  have h₀ := h 0 (by decide)
  rw [Nat.add_zero] at h₀
  rw [read32, h₀, h 1 (by decide), h 2 (by decide), h 3 (by decide), toNat_byte, toNat_byte,
    toNat_byte, toNat_byte]
  omega

theorem read16_congr {blk blk' : Block} {a : Nat} (h : ∀ x, a ≤ x → x < a + 2 → blk' x = blk x) :
    read16 blk' a = read16 blk a := by
  rw [read16, read16, h a (by omega) (by omega), h (a + 1) (by omega) (by omega)]

theorem putInode_apply (blk : Block) (k : Nat) (d : Dinode) {x : Nat} (hx : x < 64) :
    putInode blk k d (64 * k + x) = d.bytes x := by
  have hdiv : (64 * k + x) / 64 = k := by omega
  have hmod : (64 * k + x) % 64 = x := by omega
  rw [putInode, if_pos hdiv, hmod]

theorem getInode_putInode (blk : Block) (k : Nat) {d : Dinode} (h : d.Fits) :
    getInode (putInode blk k d) k = d := by
  have hbyte : ∀ x < 64, putInode blk k d (64 * k + x) = d.bytes x :=
    fun x hx => putInode_apply blk k d hx
  ext j
  · refine read16_eq h.type fun i hi => ?_
    rw [hbyte i (by omega), Dinode.bytes, if_pos hi]
  · refine read16_eq h.major fun i hi => ?_
    rw [Nat.add_assoc, hbyte _ (by omega), Dinode.bytes, if_neg (by omega), if_pos (by omega),
      Nat.add_sub_cancel_left]
  · refine read16_eq h.minor fun i hi => ?_
    rw [Nat.add_assoc, hbyte _ (by omega), Dinode.bytes, if_neg (by omega), if_neg (by omega),
      if_pos (by omega), Nat.add_sub_cancel_left]
  · refine read16_eq h.nlink fun i hi => ?_
    rw [Nat.add_assoc, hbyte _ (by omega), Dinode.bytes, if_neg (by omega), if_neg (by omega),
      if_neg (by omega), if_pos (by omega), Nat.add_sub_cancel_left]
  · refine read32_eq h.size fun i hi => ?_
    rw [Nat.add_assoc, hbyte _ (by omega), Dinode.bytes, if_neg (by omega), if_neg (by omega),
      if_neg (by omega), if_neg (by omega), if_pos (by omega), Nat.add_sub_cancel_left]
  · show (if j < 13 then _ else 0) = _
    by_cases hj : j < 13
    · rw [if_pos hj]
      refine read32_eq (h.addrs j) fun i hi => ?_
      have hdiv : (12 + 4 * j + i - 12) / 4 = j := by omega
      have hmod : (12 + 4 * j + i - 12) % 4 = i := by omega
      rw [show 64 * k + 12 + 4 * j + i = 64 * k + (12 + 4 * j + i) by omega, hbyte _ (by omega),
        Dinode.bytes, if_neg (by omega), if_neg (by omega), if_neg (by omega), if_neg (by omega),
        if_neg (by omega), hdiv, hmod]
    · rw [if_neg hj, h.thirteen j (by omega)]

theorem getInode_congr {blk blk' : Block} {k : Nat} (h : ∀ x, x / 64 = k → blk' x = blk x) :
    getInode blk' k = getInode blk k := by
  ext j
  · exact read16_congr fun x _ _ => h x (by omega)
  · exact read16_congr fun x _ _ => h x (by omega)
  · exact read16_congr fun x _ _ => h x (by omega)
  · exact read16_congr fun x _ _ => h x (by omega)
  · exact read32_congr fun x _ _ => h x (by omega)
  · show (if j < 13 then _ else 0) = (if j < 13 then _ else 0)
    by_cases hj : j < 13
    · rw [if_pos hj, if_pos hj]
      exact read32_congr fun x _ _ => h x (by omega)
    · rw [if_neg hj, if_neg hj]

theorem getInode_putInode_of_ne (blk : Block) {j k : Nat} (d : Dinode) (h : j ≠ k) :
    getInode (putInode blk k d) j = getInode blk j :=
  getInode_congr fun x hx => if_neg (by omega)

theorem dinode_putInode {sb : Superblock} {disk : Disk} {i : Nat} {d : Dinode} (h : d.Fits) :
    dinode sb (Function.update disk (sb.iblock i) (putInode (disk (sb.iblock i)) (i % 8) d))
      = Function.update (dinode sb disk) i d := by
  funext j
  by_cases hj : j = i
  · subst hj
    rw [dinode, Function.update_self, Function.update_self, getInode_putInode _ _ h]
  · rw [Function.update_of_ne hj]
    unfold dinode
    by_cases hblock : sb.iblock j = sb.iblock i
    · have hne : j % 8 ≠ i % 8 := by
        unfold Superblock.iblock at hblock
        omega
      rw [hblock, Function.update_self, getInode_putInode_of_ne _ _ hne]
    · rw [Function.update_of_ne hblock]

theorem dinode_congr {sb : Superblock} {disk disk' : Disk} {i : Nat}
    (h : disk' (sb.iblock i) = disk (sb.iblock i)) : dinode sb disk' i = dinode sb disk i := by
  rw [dinode, dinode, h]

/-! ## Bits of the bitmap -/

theorem toNat_mask (bi : Nat) : (mask bi).toNat = 2 ^ (bi % 8) := by
  have h : bi % 8 < 8 := Nat.mod_lt _ (by decide)
  unfold mask
  generalize bi % 8 = k at h
  decide +revert

theorem and_mask (x : UInt8) (bi : Nat) : (x &&& mask bi != 0) = x.toNat.testBit (bi % 8) := by
  have hand : (x &&& mask bi).toNat = (x.toNat.testBit (bi % 8)).toNat * 2 ^ (bi % 8) := by
    rw [UInt8.toNat_and, toNat_mask, Nat.and_two_pow]
  cases hbit : x.toNat.testBit (bi % 8) with
  | false =>
    rw [hbit] at hand
    have h0 : x &&& mask bi = 0 := UInt8.toNat_inj.mp (by simpa using hand)
    simp [h0]
  | true =>
    rw [hbit] at hand
    have hne : x &&& mask bi ≠ 0 := by
      intro h0
      rw [h0] at hand
      have hpos : 0 < 2 ^ (bi % 8) := Nat.two_pow_pos _
      simp at hand
      omega
    simp [hne]

theorem testBit_eq (blk : Block) (bi : Nat) :
    testBit blk bi = (blk (bi / 8)).toNat.testBit (bi % 8) := and_mask ..

theorem testBit_setBit (blk : Block) (a b : Nat) :
    testBit (setBit blk a) b = (decide (b = a) || testBit blk b) := by
  rw [testBit_eq, testBit_eq, setBit]
  by_cases hbyte : b / 8 = a / 8
  · rw [hbyte, Function.update_self, UInt8.toNat_or, toNat_mask, Nat.testBit_or,
      Nat.testBit_two_pow, Bool.or_comm]
    congr 2
    simp only [eq_iff_iff]
    omega
  · rw [Function.update_of_ne hbyte]
    have hne : b ≠ a := fun h => hbyte (h ▸ rfl)
    simp [hne]

theorem testBit_clearBit (blk : Block) (a b : Nat) :
    testBit (clearBit blk a) b = (!decide (b = a) && testBit blk b) := by
  rw [testBit_eq, testBit_eq, clearBit]
  by_cases hbyte : b / 8 = a / 8
  · have hbit : (~~~ mask a).toNat.testBit (b % 8) = !decide (b = a) := by
      have hnot : (~~~ mask a).toNat = 2 ^ 8 - (2 ^ (a % 8) + 1) := by
        rw [UInt8.toNat_not, toNat_mask, Nat.sub_sub, Nat.add_comm 1]
        rfl
      have hlt : 2 ^ (a % 8) < 2 ^ 8 := Nat.pow_lt_pow_right (by decide) (Nat.mod_lt _ (by decide))
      rw [hnot, Nat.testBit_two_pow_sub_succ hlt, Nat.testBit_two_pow]
      have hb : b % 8 < 8 := Nat.mod_lt _ (by decide)
      have hiff : a % 8 = b % 8 ↔ b = a := by omega
      simp [hb, hiff]
    rw [hbyte, Function.update_self, UInt8.toNat_and, Nat.testBit_and, hbit, Bool.and_comm]
  · rw [Function.update_of_ne hbyte]
    have hne : b ≠ a := fun h => hbyte (h ▸ rfl)
    simp [hne]

theorem marked_setBit {sb : Superblock} {disk : Disk} {b : Nat} (c : Nat) :
    Marked sb (Function.update disk (sb.bblock b) (setBit (disk (sb.bblock b)) (b % 4096))) c ↔
      Marked sb disk c ∨ c = b := by
  unfold Marked Superblock.bblock
  by_cases hblock : c / 4096 + sb.bmapstart = b / 4096 + sb.bmapstart
  · rw [hblock, Function.update_self, testBit_setBit, Bool.or_eq_true, decide_eq_true_eq, or_comm]
    have hiff : c % 4096 = b % 4096 ↔ c = b := by omega
    rw [hiff]
  · rw [Function.update_of_ne hblock]
    have hne : c ≠ b := fun h => hblock (h ▸ rfl)
    simp [hne]

theorem marked_clearBit {sb : Superblock} {disk : Disk} {b : Nat} (c : Nat) :
    Marked sb (Function.update disk (sb.bblock b) (clearBit (disk (sb.bblock b)) (b % 4096))) c ↔
      Marked sb disk c ∧ c ≠ b := by
  unfold Marked Superblock.bblock
  by_cases hblock : c / 4096 + sb.bmapstart = b / 4096 + sb.bmapstart
  · have hiff : c % 4096 = b % 4096 ↔ c = b := by omega
    rw [hblock, Function.update_self, testBit_clearBit]
    simp [hiff, and_comm]
  · rw [Function.update_of_ne hblock]
    have hne : c ≠ b := fun h => hblock (h ▸ rfl)
    simp [hne]

theorem marked_congr {sb : Superblock} {disk disk' : Disk} {b : Nat}
    (h : disk' (sb.bblock b) = disk (sb.bblock b)) : Marked sb disk' b ↔ Marked sb disk b := by
  rw [Marked, Marked, h]

/-! ## Slots -/

theorem slotAddr_congr {disk disk' : Disk} {d : Dinode} (s : Slot)
    (h : d.addrs 12 ≠ 0 → disk' (d.addrs 12) = disk (d.addrs 12)) :
    slotAddr disk' d s = slotAddr disk d s := by
  cases s with
  | addr k => rfl
  | entry j =>
    show (if d.addrs 12 = 0 then 0 else _) = (if d.addrs 12 = 0 then 0 else _)
    by_cases h0 : d.addrs 12 = 0
    · rw [if_pos h0, if_pos h0]
    · rw [if_neg h0, if_neg h0, h h0]

end Xv6Sharing.Fs
