/-
Xv6Sharing.Fs.BlockTheorems — what the functions of fs.c do to the ownership of
blocks.

`BlocksOwned` is the invariant: a data block is marked exactly when one slot of
an allocated inode holds it, and the metadata is marked. The inodes are given by
a function `ino`, since the in-memory inode a function works on may be ahead of
the disk. Each function has one specification: which marks it changes, which
slots it fills or empties, and that it leaves the inode blocks alone.

`balloc` panics when no block is free, and in no other case. The free blocks and
the filled slots of the inode add up to the same number before and after, which
says how many blocks a write may need.
-/
import Mathlib.Data.Fintype.Sum
import Xv6Sharing.Fs.Inode
import Xv6Sharing.Fs.SlotTheorems

namespace Xv6Sharing.Fs

open Lib

variable {sb : Superblock}

/-! ## The invariant -/

/-- Data blocks are owned once and the metadata is marked. -/
structure BlocksOwned (sb : Superblock) (disk : Disk) (ino : Nat → Dinode) : Prop where
  owned : Owned (ownerAddr sb.ninodes disk ino) (Marked sb disk) sb.Data
  metadata : ∀ b < sb.size - sb.nblocks, Marked sb disk b

/-- `c` is a block of the bitmap. -/
def Superblock.Bitmap (sb : Superblock) (c : Nat) : Prop := ∃ b < sb.size, c = sb.bblock b

/-- The metadata outside the bitmap is the same on both disks. -/
def SameMeta (sb : Superblock) (disk disk' : Disk) : Prop :=
  ∀ c < sb.size - sb.nblocks, ¬ sb.Bitmap c → disk' c = disk c

theorem SameMeta.refl (disk : Disk) : SameMeta sb disk disk := fun _ _ _ => rfl

theorem SameMeta.trans {d₁ d₂ d₃ : Disk} (h : SameMeta sb d₁ d₂) (h' : SameMeta sb d₂ d₃) :
    SameMeta sb d₁ d₃ :=
  fun c hc hb => (h' c hc hb).trans (h c hc hb)

namespace Superblock.Valid

variable (hv : sb.Valid)
include hv

theorem data_pos {b : Nat} (h : sb.Data b) : b ≠ 0 := by
  have h₀ := hv.bitmap b h.2
  have h₁ := h.1
  omega

theorem bitmap_not_data {c : Nat} (h : sb.Bitmap c) : ¬ sb.Data c := by
  obtain ⟨b, hb, rfl⟩ := h
  intro hd
  exact absurd (hv.bitmap b hb) (not_lt.mpr hd.1)

theorem iblock_lt {i : Nat} (h : i < sb.ninodes) : sb.iblock i < sb.size - sb.nblocks := by
  have h₀ := hv.inodes i h
  have h₁ := hv.bitmap 0 hv.pos
  unfold bblock at h₁
  omega

theorem iblock_not_bitmap {i : Nat} (h : i < sb.ninodes) : ¬ sb.Bitmap (sb.iblock i) := by
  rintro ⟨b, hb, heq⟩
  have h₀ := hv.inodes i h
  unfold bblock at heq
  omega

end Superblock.Valid

/-! ## balloc and bfree -/

theorem scanBits_some {bp : Block} {b n bi r : Nat} (h : scanBits sb bp b n bi = some r) :
    r < bi + n ∧ b + r < sb.size ∧ testBit bp r = false := by
  induction n generalizing bi with
  | zero => exact absurd h nofun
  | succ n ih =>
    unfold scanBits at h
    split at h
    · rename_i hlt
      split at h
      · obtain ⟨hr, hrest⟩ := ih h
        exact ⟨by omega, hrest⟩
      · rename_i hclear
        cases h
        exact ⟨by omega, hlt, Bool.eq_false_iff.mpr hclear⟩
    · exact absurd h nofun

theorem scanBits_none {bp : Block} {b n bi : Nat} (h : scanBits sb bp b n bi = none) {r : Nat}
    (hr : bi ≤ r) (hr' : r < bi + n) (hsize : b + r < sb.size) : testBit bp r = true := by
  induction n generalizing bi with
  | zero => omega
  | succ n ih =>
    unfold scanBits at h
    rw [if_pos (by omega)] at h
    split at h
    · rename_i hset
      by_cases heq : r = bi
      · rw [heq]
        exact hset
      · exact ih h (by omega) (by omega)
    · cases h

/-- The number of blocks that are not marked. -/
def freeBlocks (sb : Superblock) (disk : Disk) : Nat :=
  ((Finset.range sb.size).filter fun b => ¬ Marked sb disk b).card

theorem freeBlocks_congr {disk disk' : Disk}
    (h : ∀ c < sb.size, Marked sb disk' c ↔ Marked sb disk c) :
    freeBlocks sb disk' = freeBlocks sb disk :=
  congrArg Finset.card (Finset.filter_congr fun c hc => not_congr (h c (Finset.mem_range.mp hc)))

/-- What `balloc` leaves when it returns `b`. -/
structure Allocated (sb : Superblock) (disk : Disk) (b : Nat) (disk' : Disk) : Prop where
  data : sb.Data b
  free : ¬ Marked sb disk b
  marks : ∀ c < sb.size, Marked sb disk' c ↔ Marked sb disk c ∨ c = b
  zero : disk' b = fun _ => 0
  kept : ∀ c, c ≠ b → ¬ sb.Bitmap c → disk' c = disk c

theorem Allocated.freeBlocks {disk disk' : Disk} {b : Nat} (h : Allocated sb disk b disk') :
    freeBlocks sb disk' + 1 = Fs.freeBlocks sb disk := by
  have hset : (Finset.range sb.size).filter (fun c => ¬ Marked sb disk c)
      = insert b ((Finset.range sb.size).filter fun c => ¬ Marked sb disk' c) := by
    ext c
    rw [Finset.mem_insert, Finset.mem_filter, Finset.mem_filter, Finset.mem_range]
    constructor
    · rintro ⟨hc, hm⟩
      by_cases hcb : c = b
      · exact .inl hcb
      · exact .inr ⟨hc, fun hm' => ((h.marks c hc).mp hm').elim hm hcb⟩
    · rintro (rfl | ⟨hc, hm⟩)
      · exact ⟨h.data.2, h.free⟩
      · exact ⟨hc, fun hm' => hm ((h.marks c hc).mpr (.inl hm'))⟩
  have hnot : b ∉ (Finset.range sb.size).filter fun c => ¬ Marked sb disk' c := fun hmem =>
    (Finset.mem_filter.mp hmem).2 ((h.marks b h.data.2).mpr (.inr rfl))
  rw [Fs.freeBlocks, Fs.freeBlocks, hset, Finset.card_insert_of_notMem hnot]

/-- The search goes on from block `b`, and the blocks before it are marked. -/
theorem ballocFrom_spec {Err : Panic → Prop} (hv : sb.Valid) {s : Store}
    (hfull : freeBlocks sb s.disk = 0 → Err .outOfBlocks)
    (hmeta : ∀ b < sb.size - sb.nblocks, Marked sb s.disk b) (n b : Nat) (hb : b % 4096 = 0)
    (hn : sb.size ≤ b + n * 4096) (hbefore : ∀ c < b, c < sb.size → Marked sb s.disk c) :
    Spec Err (ballocFrom sb n b) s fun r s' => Allocated sb s.disk r s'.disk := by
  have hnone : sb.size ≤ b → Err .outOfBlocks := fun hle => hfull
    (Finset.card_eq_zero.mpr (Finset.filter_eq_empty_iff.mpr fun c hc => not_not.mpr
      (hbefore c (lt_of_lt_of_le (Finset.mem_range.mp hc) hle) (Finset.mem_range.mp hc))))
  induction n generalizing b with
  | zero => exact Spec.throw (hnone (by omega))
  | succ n ih =>
    unfold ballocFrom
    by_cases hlt : b < sb.size
    · rw [if_pos hlt]
      refine Spec.seq_ok (m := bread _) rfl ?_
      cases hscan : scanBits sb (s.disk (sb.bblock b)) b 4096 0 with
      | none =>
        have hbefore' : ∀ c < b + 4096, c < sb.size → Marked sb s.disk c := by
          intro c hc hsize
          by_cases hcb : c < b
          · exact hbefore c hcb hsize
          · have hbit := scanBits_none hscan (r := c - b) (by omega) (by omega) (by omega)
            have hblock : sb.bblock c = sb.bblock b := by
              unfold Superblock.bblock
              omega
            rw [Marked, hblock, show c % 4096 = c - b by omega]
            exact hbit
        refine ih (b + 4096) (by omega) (by omega) hbefore' fun hle => hfull ?_
        exact Finset.card_eq_zero.mpr (Finset.filter_eq_empty_iff.mpr fun c hc => not_not.mpr
          (hbefore' c (lt_of_lt_of_le (Finset.mem_range.mp hc) hle) (Finset.mem_range.mp hc)))
      | some r =>
        obtain ⟨hr, hsize, hclear⟩ := scanBits_some hscan
        -- the bit belongs to block b + r
        have hblock : sb.bblock b = sb.bblock (b + r) := by
          unfold Superblock.bblock
          omega
        have hbit : r = (b + r) % 4096 := by omega
        have hfree : ¬ Marked sb s.disk (b + r) := by
          rw [Marked, ← hblock, ← hbit, hclear]
          decide
        have hdata : sb.Data (b + r) :=
          ⟨not_lt.mp fun h => hfree (hmeta _ h), hsize⟩
        refine Spec.of_ok (a := b + r) rfl ⟨hdata, hfree, fun c hc => ?_, ?_, fun c hc hbm => ?_⟩
        · have hne : sb.bblock c ≠ b + r := fun heq =>
            hv.bitmap_not_data ⟨c, hc, rfl⟩ (heq ▸ hdata)
          rw [marked_congr (Function.update_of_ne hne ..), ← marked_setBit]
          show Marked sb (Function.update _ (sb.bblock b) (setBit _ r)) c ↔ _
          rw [hblock, ← hbit]
        · exact Function.update_self ..
        · have hne : c ≠ sb.bblock b := fun heq => hbm ⟨b, hlt, heq⟩
          exact (Function.update_of_ne hc ..).trans (Function.update_of_ne hne ..)
    · rw [if_neg hlt]
      exact Spec.throw (hnone (not_lt.mp hlt))

theorem balloc_spec {Err : Panic → Prop} (hv : sb.Valid) {s : Store}
    (hfull : freeBlocks sb s.disk = 0 → Err .outOfBlocks)
    (hmeta : ∀ b < sb.size - sb.nblocks, Marked sb s.disk b) :
    Spec Err (balloc sb) s fun r s' => Allocated sb s.disk r s'.disk :=
  ballocFrom_spec hv hfull hmeta _ 0 rfl (by omega) fun _ hc => absurd hc (Nat.not_lt_zero _)

theorem bfree_run {s : Store} {b : Nat} (h : Marked sb s.disk b) :
    ∃ s', bfree sb b s = .ok ((), s') ∧ (∀ c, Marked sb s'.disk c ↔ Marked sb s.disk c ∧ c ≠ b) ∧
      ∀ c, c ≠ sb.bblock b → s'.disk c = s.disk c := by
  have hrun : bfree sb b s
      = logWrite (sb.bblock b) (clearBit (s.disk (sb.bblock b)) (b % 4096)) s := by
    have hbit : testBit (s.disk (sb.bblock b)) (b % 4096) = true := h
    unfold bfree
    have hread : bread (sb.bblock b) s = .ok (s.disk (sb.bblock b), s) := rfl
    rw [bind_ok hread, if_pos hbit]
  exact ⟨_, hrun, fun c => marked_clearBit c, fun c hc => Function.update_of_ne hc ..⟩

/-! ## bmap -/

instance : Fintype Slot :=
  Fintype.ofEquiv (Fin 13 ⊕ Fin 128)
    { toFun := Sum.elim .addr .entry
      invFun := fun
        | .addr k => .inl k
        | .entry j => .inr j
      left_inv := by rintro (_ | _) <;> rfl
      right_inv := by rintro (_ | _) <;> rfl }

/-- The number of blocks an inode holds. -/
def heldBlocks (disk : Disk) (ip : Dinode) : Nat :=
  (Finset.univ.filter fun t => slotAddr disk ip t ≠ 0).card

/-- The number of blocks that a file of `e` bytes takes. -/
def blocksFor (e : Nat) : Nat :=
  (Finset.univ.filter fun t : Slot => t.offset < e).card

theorem blocksFor_mono {e e' : Nat} (h : e ≤ e') : blocksFor e ≤ blocksFor e' :=
  Finset.card_le_card (Finset.monotone_filter_right _ fun _ _ ht => lt_of_lt_of_le ht h)

theorem Covered.heldBlocks {disk : Disk} {ip : Dinode} {e : Nat} (h : Covered disk ip e) :
    heldBlocks disk ip = blocksFor e :=
  congrArg Finset.card (Finset.filter_congr fun t _ => h t)

/-- The slots `T` of an inode have been filled with newly allocated blocks. -/
structure Mapped (sb : Superblock) (ino : Nat → Dinode) (i : Nat) (ip : Dinode) (disk : Disk)
    (T : Slot → Prop) (ip' : Dinode) (disk' : Disk) : Prop
    extends Filled sb.ninodes ino i ip disk T ip' disk' where
  blocks : BlocksOwned sb disk' (Function.update ino i ip')
  same : SameMeta sb disk disk'
  room : freeBlocks sb disk' + heldBlocks disk' ip' = freeBlocks sb disk + heldBlocks disk ip

section Bmap

variable {ino : Nat → Dinode} {ip : Dinode} {i : Nat} {disk disk' disk'' : Disk}

theorem Mapped.refl {T : Slot → Prop} (h : BlocksOwned sb disk (Function.update ino i ip))
    (hfits : ip.Fits) (hT : ∀ t, T t → slotAddr disk ip t ≠ 0) : Mapped sb ino i ip disk T ip disk :=
  ⟨Filled.refl hfits hT, h, SameMeta.refl disk, rfl⟩

theorem Mapped.trans {T U : Slot → Prop} {ip' ip'' : Dinode} (hi : i < sb.ninodes)
    (htype : ip.type ≠ 0) (h : Mapped sb ino i ip disk T ip' disk')
    (h' : Mapped sb ino i ip' disk' U ip'' disk'') :
    Mapped sb ino i ip disk (fun t => T t ∨ U t) ip'' disk'' :=
  ⟨h.toFilled.trans hi htype h'.toFilled, h'.blocks, h.same.trans h'.same, h'.room.trans h.room⟩

/-- Filling an empty slot adds a block. -/
theorem Filled.heldBlocks {n : Nat} {t : Slot} {ip' : Dinode}
    (h : Filled n ino i ip disk (· = t) ip' disk') (hempty : slotAddr disk ip t = 0) :
    heldBlocks disk' ip' = Fs.heldBlocks disk ip + 1 := by
  have hset : (Finset.univ.filter fun u => slotAddr disk' ip' u ≠ 0)
      = insert t (Finset.univ.filter fun u => slotAddr disk ip u ≠ 0) := by
    ext u
    simp only [Finset.mem_insert, Finset.mem_filter, Finset.mem_univ, true_and, h.filled u]
    exact or_comm
  have hnot : t ∉ Finset.univ.filter fun u => slotAddr disk ip u ≠ 0 := fun hmem =>
    (Finset.mem_filter.mp hmem).2 hempty
  rw [Fs.heldBlocks, hset, Finset.card_insert_of_notMem hnot, Fs.heldBlocks]

/-- One empty slot has been filled with the block `b`. -/
theorem Mapped.of_allocated {t : Slot} {b : Nat} {ip' : Dinode}
    (h : BlocksOwned sb disk (Function.update ino i ip)) (hi : i < sb.ninodes)
    (htype : ip.type ≠ 0) (ha : Allocated sb disk b disk')
    (hf : Filled sb.ninodes ino i ip disk (· = t) ip' disk'') (hempty : slotAddr disk ip t = 0)
    (hslot : slotAddr disk'' ip' t = b)
    (hmarks : ∀ c < sb.size, Marked sb disk'' c ↔ Marked sb disk' c)
    (hsame : SameMeta sb disk' disk'') : Mapped sb ino i ip disk (· = t) ip' disk'' := by
  have hall : ∀ c < sb.size, Marked sb disk'' c ↔ Marked sb disk c ∨ c = b := fun c hc =>
    (hmarks c hc).trans (ha.marks c hc)
  refine ⟨hf, ⟨hf.owned hi htype h.owned hempty (hslot ▸ ha.data) (hslot ▸ ha.free)
    fun c hc => hslot ▸ hall c hc.2, fun c hc => ?_⟩, SameMeta.trans (fun c hc hb => ?_) hsame, ?_⟩
  · exact (hall c (by omega)).mpr (.inl (h.metadata c hc))
  · exact ha.kept c (fun heq => absurd ha.data.1 (by omega)) hb
  · rw [hf.heldBlocks hempty, freeBlocks_congr hmarks, ← ha.freeBlocks]
    omega

/-- A block in use is not the one that was just allocated. -/
theorem Allocated.kept_marked {b : Nat} (ha : Allocated sb disk b disk') (hv : sb.Valid) {c : Nat}
    (hdata : sb.Data c) (hmark : Marked sb disk c) : disk' c = disk c :=
  ha.kept c (fun heq => ha.free (heq ▸ hmark)) fun hb => hv.bitmap_not_data hb hdata

theorem Allocated.small {b : Nat} (ha : Allocated sb disk b disk') (hv : sb.Valid) : b < 2 ^ 32 :=
  lt_trans ha.data.2 hv.small

theorem bmapAddr_spec {Err : Panic → Prop} (hv : sb.Valid) {s : Store}
    (h : BlocksOwned sb s.disk (Function.update ino i ip)) (hi : i < sb.ninodes)
    (htype : ip.type ≠ 0) (hfits : ip.Fits) {k : Nat} (hk : k < 13)
    (hfull : ip.addrs k = 0 → freeBlocks sb s.disk = 0 → Err .outOfBlocks) :
    Spec Err (bmapAddr sb ip k) s fun ip' s' =>
      Mapped sb ino i ip s.disk (· = .addr ⟨k, hk⟩) ip' s'.disk := by
  unfold bmapAddr
  by_cases h0 : ip.addrs k = 0
  · rw [if_pos h0]
    refine Spec.seq (balloc_spec hv (hfull h0) h.metadata) fun b s' ha => Spec.pure ?_
    have hf := filled_addr h.owned hi htype hfits hk (hv.data_pos ha.data) (ha.small hv) h0 ha.zero
      fun c hc hm => ha.kept_marked hv hc hm
    exact Mapped.of_allocated h hi htype ha hf h0 (Function.update_self ..) (fun _ _ => Iff.rfl)
      (SameMeta.refl _)
  · rw [if_neg h0]
    exact Spec.pure (Mapped.refl h hfits fun t ht => ht ▸ h0)

theorem bmapEntry_spec {Err : Panic → Prop} (hv : sb.Valid) {s : Store}
    (h : BlocksOwned sb s.disk (Function.update ino i ip)) (hi : i < sb.ninodes)
    (htype : ip.type ≠ 0) (hfits : ip.Fits) (hind : ip.addrs 12 ≠ 0) (j : Fin 128)
    (hfull : slotAddr s.disk ip (.entry j) = 0 → freeBlocks sb s.disk = 0 → Err .outOfBlocks) :
    Spec Err (bmapEntry sb ip j) s fun addr s' =>
      Mapped sb ino i ip s.disk (· = .entry j) ip s'.disk ∧ addr = slotAddr s'.disk ip (.entry j) := by
  unfold bmapEntry
  refine Spec.seq_ok (m := bread _) rfl ?_
  obtain ⟨hdata, hmark⟩ := owned_slot h.owned hi htype (t := .addr 12) hind
  by_cases h0 : read32 (s.disk (ip.addrs 12)) (4 * j) = 0
  · rw [if_pos h0]
    refine Spec.seq (balloc_spec hv (hfull ((slotAddr_entry hind j).trans h0)) h.metadata)
      fun b s' ha => ?_
    refine Spec.of_ok (a := b) rfl ?_
    show Mapped sb ino i ip s.disk _ ip (Function.update s'.disk (ip.addrs 12) _) ∧
      b = slotAddr (Function.update s'.disk (ip.addrs 12) _) ip _
    have hslot : slotAddr (Function.update s'.disk (ip.addrs 12)
        (write32 (s.disk (ip.addrs 12)) (4 * j) b)) ip (.entry j) = b := by
      rw [slotAddr_entry hind, Function.update_self, read32_write32,
        Nat.mod_eq_of_lt (ha.small hv)]
    have hf : Filled sb.ninodes ino i ip s.disk (· = .entry j) ip (Function.update s'.disk
        (ip.addrs 12) (write32 (s.disk (ip.addrs 12)) (4 * j) b)) :=
      filled_entry h.owned hi htype hfits hind (hv.data_pos ha.data) (ha.small hv) h0
        (Function.update_self ..) fun c hc hm hne => (Function.update_of_ne hne ..).trans (ha.kept_marked hv hc hm)
    refine ⟨Mapped.of_allocated h hi htype ha hf ((slotAddr_entry hind j).trans h0) hslot
      (fun c hc => ?_) fun c hc _ => ?_, hslot.symm⟩
    · have hbm : sb.bblock c ≠ ip.addrs 12 := fun heq =>
        hv.bitmap_not_data ⟨c, hc, rfl⟩ (heq ▸ hdata)
      exact marked_congr (Function.update_of_ne hbm ..)
    · have hle : sb.size - sb.nblocks ≤ ip.addrs 12 := hdata.1
      exact Function.update_of_ne (by omega) ..
  · rw [if_neg h0]
    refine Spec.pure ⟨Mapped.refl h hfits fun t ht => ?_, (slotAddr_entry hind j).symm⟩
    rw [ht, slotAddr_entry hind]
    exact h0

/-- More of the slots for block `bn` are empty than blocks are free. -/
def TooFew (sb : Superblock) (disk : Disk) (ip : Dinode) (bn : Nat) : Prop :=
  ∃ U : Finset Slot, (∀ t ∈ U, Wanted bn t ∧ slotAddr disk ip t = 0) ∧ freeBlocks sb disk < U.card

/-- Then the file cannot get the bytes before `e'`. -/
theorem TooFew.blocksFor {disk : Disk} {bn e e' : Nat} (h : TooFew sb disk ip bn)
    (hcov : Covered disk ip e) (hlt : 512 * bn < e') :
    freeBlocks sb disk + blocksFor e < Fs.blocksFor (max e e') := by
  obtain ⟨U, hU, hfew⟩ := h
  have hdisj : Disjoint U (Finset.univ.filter fun t : Slot => t.offset < e) := by
    refine Finset.disjoint_left.mpr fun t ht hmem => ?_
    exact (hcov t).mpr (Finset.mem_filter.mp hmem).2 (hU t ht).2
  have hsub : U ∪ (Finset.univ.filter fun t : Slot => t.offset < e)
      ⊆ Finset.univ.filter fun t : Slot => t.offset < max e e' := by
    intro t ht
    refine Finset.mem_filter.mpr ⟨Finset.mem_univ t, ?_⟩
    rcases Finset.mem_union.mp ht with ht | ht
    · exact lt_of_le_of_lt (hU t ht).1.offset_le (lt_of_lt_of_le hlt (le_max_right ..))
    · exact lt_of_lt_of_le (Finset.mem_filter.mp ht).2 (le_max_left ..)
  have hcard := Finset.card_le_card hsub
  rw [Finset.card_union_of_disjoint hdisj] at hcard
  unfold Fs.blocksFor
  omega

theorem bmap_spec {Err : Panic → Prop} (hv : sb.Valid) {s : Store}
    (h : BlocksOwned sb s.disk (Function.update ino i ip)) (hi : i < sb.ninodes)
    (htype : ip.type ≠ 0) (hfits : ip.Fits) {bn : Nat} (hbn : bn < 140)
    (hfull : TooFew sb s.disk ip bn → Err .outOfBlocks) :
    Spec Err (bmap sb ip bn) s fun r s' =>
      Mapped sb ino i ip s.disk (Wanted bn) r.1 s'.disk ∧
        r.2 = slotAddr s'.disk r.1 (slotOf bn hbn) := by
  -- one empty slot and no free block
  have hone : ∀ t, Wanted bn t → slotAddr s.disk ip t = 0 → freeBlocks sb s.disk = 0 →
      Err .outOfBlocks := by
    intro t ht hempty hfree
    refine hfull ⟨{t}, fun u hu => ?_, ?_⟩
    · rw [Finset.mem_singleton.mp hu]
      exact ⟨ht, hempty⟩
    · rw [hfree, Finset.card_singleton]
      exact Nat.zero_lt_one
  unfold bmap
  by_cases hdir : bn < 12
  · rw [if_pos hdir]
    have hT : Wanted bn = (· = .addr ⟨bn, by omega⟩) := by
      funext t
      simp [Wanted, slotOf, hdir, hbn]
    refine Spec.seq (bmapAddr_spec hv h hi htype hfits (by omega) (hone (.addr ⟨bn, by omega⟩) ?_))
      fun ip' s' hm => Spec.pure ⟨?_, ?_⟩
    · rw [hT]
    · rwa [hT]
    · rw [slotOf, dif_pos hdir]
      rfl
  · rw [if_neg hdir, if_pos (by omega)]
    have h12 : 12 ≤ bn := not_lt.mp hdir
    have hT : Wanted bn = fun t => t = .addr 12 ∨ t = .entry ⟨bn - 12, by omega⟩ := by
      funext t
      simp [Wanted, slotOf, hdir, hbn, h12, or_comm]
    refine Spec.seq (bmapAddr_spec hv h hi htype hfits (k := 12) (by omega)
      (hone (.addr 12) (.inr ⟨h12, rfl⟩))) fun ip' s' hm => ?_
    have hind : ip'.addrs 12 ≠ 0 := (hm.filled (.addr 12)).mpr (.inr rfl)
    have htype' : ip'.type ≠ 0 := hm.type_eq ▸ htype
    refine Spec.seq (bmapEntry_spec hv hm.blocks hi htype' hm.fits hind ⟨bn - 12, by omega⟩
      fun hempty' hfree' => ?_) fun addr s'' hm' => Spec.pure ⟨?_, ?_⟩
    · -- the last free block may have gone to the indirect block
      have hwant : Wanted bn (.entry ⟨bn - 12, by omega⟩) := by
        rw [hT]
        exact .inr rfl
      have hempty : slotAddr s.disk ip (.entry ⟨bn - 12, by omega⟩) = 0 := by
        by_contra hne
        exact hne ((hm.slots _ hne).symm.trans hempty')
      by_cases h0 : ip.addrs 12 = 0
      · refine hfull ⟨{.addr 12, .entry ⟨bn - 12, by omega⟩}, fun u hu => ?_, ?_⟩
        · rcases Finset.mem_insert.mp hu with rfl | hu
          · exact ⟨.inr ⟨h12, rfl⟩, h0⟩
          · rw [Finset.mem_singleton.mp hu]
            exact ⟨hwant, hempty⟩
        · have hroom := hm.room
          rw [hm.toFilled.heldBlocks h0, hfree'] at hroom
          rw [Finset.card_pair (fun heq => Slot.noConfusion heq)]
          omega
      · obtain ⟨rfl, hdisk⟩ := hm.unchanged fun t ht => ht ▸ h0
        exact hone _ hwant hempty (hdisk ▸ hfree')
    · rw [hT]
      exact hm.trans hi htype hm'.1
    · rw [slotOf, dif_neg hdir]
      exact hm'.2

theorem bmap_filled {s : Store} {bn : Nat} (hbn : bn < 140)
    (h : ∀ t, Wanted bn t → slotAddr s.disk ip t ≠ 0) :
    bmap sb ip bn s = .ok ((ip, slotAddr s.disk ip (slotOf bn hbn)), s) := by
  have hslot := h _ (.inl ⟨hbn, rfl⟩)
  unfold bmap bmapAddr
  by_cases hdir : bn < 12
  · rw [slotOf, dif_pos hdir] at hslot ⊢
    have haddr : ip.addrs bn ≠ 0 := hslot
    rw [if_pos hdir, if_neg haddr]
    rfl
  · have hind : ip.addrs 12 ≠ 0 := h _ (.inr ⟨not_lt.mp hdir, rfl⟩)
    rw [slotOf, dif_neg hdir, slotAddr_entry hind] at hslot ⊢
    rw [if_neg hdir, if_pos (by omega), if_neg hind]
    have hentry : bmapEntry sb ip (bn - 12) s
        = .ok (read32 (s.disk (ip.addrs 12)) (4 * (bn - 12)), s) := by
      unfold bmapEntry
      have hread : bread (ip.addrs 12) s = .ok (s.disk (ip.addrs 12), s) := rfl
      rw [bind_ok hread, if_neg hslot]
      rfl
    have hpure : (pure ip : FsM Dinode) s = .ok (ip, s) := rfl
    rw [bind_ok hpure, bind_ok hentry]
    rfl

end Bmap

end Xv6Sharing.Fs
